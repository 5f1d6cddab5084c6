import Egad.Gacco.Exec
import Egad.Gacco.Protocol

/-! # Runs of the transactions

    The accesses stand between the calls of `acquireLock` and `releaseLock` that the lock protocol
    knows,

        todo    acquire  load  load  …  store  release  acquire  …
        rest    acquire                        release  acquire  …

    so a step is a turn of the locks, or it is an access and the locks do not notice. In every mode the
    smallest unfinished transaction can always go on, and every reached state can be run to the end of
    the batch. -/

namespace Egad.Gacco.Exec
open Egad.Lib Relation
open Egad.Tpcc (TableName ItemParam)
open Egad.Tpcc.Exec (Word)

/-! ### The calls of `acquireLock` and `releaseLock` -/

/-- The lock operations of a program. -/
def locks (ops : List Op) : List (LockOp Key) := locksOf (ops.map Op.toData)

@[simp] theorem locks_nil : locks [] = [] := rfl

@[simp] theorem locks_append (p q : List Op) : locks (p ++ q) = locks p ++ locks q := by
  rw [locks, List.map_append, locksOf, List.filterMap_append]
  rfl

@[simp] theorem locks_acquire (k : Key) (ops : List Op) :
    locks (acquireLock k :: ops) = .acquire k :: locks ops := rfl

@[simp] theorem locks_release (k : Key) (ops : List Op) :
    locks (releaseLock k :: ops) = .release k :: locks ops := rfl

@[simp] theorem locks_access (k : Key) (f : Locals → Record → Locals × Record) (ops : List Op) :
    locks (.access k f :: ops) = locks ops := rfl

@[simp] theorem locks_load (k : Key) (i : ℕ) (ops : List Op) : locks (load k i :: ops) = locks ops := rfl

@[simp] theorem locks_store (k : Key) (i : ℕ) (g : Word → Word) (ops : List Op) :
    locks (store k i g :: ops) = locks ops := rfl

@[simp] theorem locks_atomic (k : Key) (i : ℕ) (g : Word → Word) (ops : List Op) :
    locks (atomic k i g :: ops) = locks ops := rfl

@[simp] theorem locks_cas (k : Key) (q : Word) (ops : List Op) : locks (.cas k q :: ops) = locks ops := rfl

theorem locks_accesses (k : Key) (f : ℕ → Locals → Record → Locals × Record) (is : List ℕ) :
    locks (is.map fun i => .access k (f i)) = [] := by
  induction is with
  | nil => rfl
  | cons i is ih => exact ih

@[simp] theorem locks_readData (k : Key) : locks (readData k) = [] := locks_accesses ..

@[simp] theorem locks_writeData (k : Key) : locks (writeData k) = [] := locks_accesses ..

theorem locks_flatMap {f : Item → List Op} {g : ItemParam → List (LockOp Key)}
    (h : ∀ x, locks (f x) = g x.param) (items : List Item) :
    locks (items.flatMap f) = (items.map Item.param).flatMap g := by
  induction items with
  | nil => rfl
  | cons x items ih => rw [List.flatMap_cons, locks_append, h, ih, List.map_cons, List.flatMap_cons]

/-- The transactions with their accesses make the calls of the locks' model. -/
theorem locks_program (cfg : Config) (p : Txn) :
    locks (gpuExecTpccTxn cfg p) = Gacco.gpuExecTpccTxn cfg p.params := by
  have hatomic : ∀ x : Item, locks (atomicItem cfg x) = Gacco.atomicItem cfg x.param := fun x => by
    cases hs : cfg.stockUseAtomic <;> simp [atomicItem, Gacco.atomicItem, hs]
  have hlocked : ∀ x : Item, locks (lockedItem x) = Gacco.lockedItem x.param := fun x => by
    simp [lockedItem, Gacco.lockedItem]
  cases p with
  | newOrder w d c no o items =>
    cases hu : cfg.useAtomic
    · simp [gpuExecTpccTxn, Gacco.gpuExecTpccTxn, Txn.params, hu, locks_flatMap hlocked]
    · simp [gpuExecTpccTxn, Gacco.gpuExecTpccTxn, Txn.params, hu, locks_flatMap hatomic]
  | payment w d c amount =>
    cases hu : cfg.useAtomic <;>
      simp [gpuExecTpccTxn, payment, Gacco.gpuExecTpccTxn, Txn.params, hu]

/-! ### Steps -/

/-- The cases of a step. -/
theorem stepTxn_cases {s s' : State} {x : ℕ} (h : s.stepTxn x = some s') :
    (∃ b, (s.base.threads x).passing ≠ none ∧ Gacco.stepTxn s.base x = some b ∧
      s' = { s with base := b }) ∨
    (∃ op rest b, (s.base.threads x).passing = none ∧ s.todo x = .lock op :: rest ∧
      Gacco.stepTxn s.base x = some b ∧
      s' = { s with base := b, todo := Function.update s.todo x rest }) ∨
    (∃ k f rest, (s.base.threads x).passing = none ∧ s.todo x = .access k f :: rest ∧
      s' = { s with
        todo := Function.update s.todo x rest
        locals := Function.update s.locals x (f (s.locals x) (s.mem k)).1
        mem := Function.update s.mem k (f (s.locals x) (s.mem k)).2 }) ∨
    ∃ k q rest, (s.base.threads x).passing = none ∧ s.todo x = .cas k q :: rest ∧
      (s.mem k 0 = (s.locals x).reg ∧
        s' = { s with
          todo := Function.update s.todo x rest
          mem := Function.update s.mem k (Function.update (s.mem k) 0 (adjustedQuantity q (s.mem k 0))) } ∨
      s.mem k 0 ≠ (s.locals x).reg ∧
        s' = { s with locals := Function.update s.locals x { s.locals x with reg := s.mem k 0 } }) := by
  rw [State.stepTxn] at h
  split at h
  · next hp =>
    obtain ⟨b, hb, rfl⟩ := Option.map_eq_some_iff.mp h
    exact Or.inl ⟨b, by rw [hp]; exact Option.some_ne_none _, hb, rfl⟩
  · next op rest hp hx =>
    obtain ⟨b, hb, rfl⟩ := Option.map_eq_some_iff.mp h
    exact Or.inr (Or.inl ⟨op, rest, b, hp, hx, hb, rfl⟩)
  · next k f rest hp hx => exact Or.inr (Or.inr (Or.inl ⟨k, f, rest, hp, hx, (Option.some.inj h).symm⟩))
  · next k q rest hp hx =>
    refine Or.inr (Or.inr (Or.inr ⟨k, q, rest, hp, hx, ?_⟩))
    split at h
    · next hreg => exact Or.inl ⟨hreg, (Option.some.inj h).symm⟩
    · next hreg => exact Or.inr ⟨hreg, (Option.some.inj h).symm⟩
  · cases h

/-- A turn of the locks takes the next call off a transaction's list, or it is the second half of a
    release and takes none. -/
theorem turn_rest {b b' : Gacco.State} {x : ℕ} (h : Gacco.stepTxn b x = some b') :
    (∀ y, y ≠ x → b'.threads y = b.threads y) ∧ b'.started = b.started ∧
    ((b.threads x).passing ≠ none →
      (b'.threads x).rest = (b.threads x).rest ∧ (b'.threads x).passing = none) ∧
    ((b.threads x).passing = none → ∃ op, (b.threads x).rest = op :: (b'.threads x).rest) := by
  obtain ⟨k, rest, held, hx, -, rfl⟩ | ⟨k, rest, held, hx, rfl⟩ | ⟨k, o, rest, held, hx, rfl⟩ :=
    Gacco.stepTxn_cases h
  · refine ⟨fun y hy => Function.update_of_ne hy .., rfl, fun hp => ?_, fun _ => ⟨.acquire k, ?_⟩⟩
    · rw [hx] at hp
      exact absurd rfl hp
    · have hself : (b.acquireLock x k ⟨rest, insert k held, none⟩).threads x =
        ⟨rest, insert k held, none⟩ := Function.update_self ..
      rw [hself, hx]
  · refine ⟨fun y hy => Function.update_of_ne hy .., rfl, fun hp => ?_, fun _ => ⟨.release k, ?_⟩⟩
    · rw [hx] at hp
      exact absurd rfl hp
    · rw [addOffset_threads, Function.update_self, hx]
  · refine ⟨fun y hy => Function.update_of_ne hy .., rfl, fun _ => ?_, fun hp => ?_⟩
    · rw [exchLock_threads, Function.update_self, hx]
      exact ⟨rfl, rfl⟩
    · rw [hx] at hp
      cases hp

/-- What every reached state has, in every mode. -/
structure Reached (Q : Key → List ℕ) (numTxns : ℕ) (s : State) : Prop where
  base : Gacco.Reached Q numTxns s.base
  rest : ∀ x, (s.base.threads x).rest = locks (s.todo x)
  beyond : ∀ x, numTxns ≤ x → s.todo x = []

section
variable {Q : Key → List ℕ} {numTxns maxBlocks : ℕ} {s s' : State}

theorem reached_turn {b b' : Gacco.State} {x : ℕ} (hx : x < numTxns) (h : Gacco.stepTxn b x = some b')
    (hr : Gacco.Reached Q numTxns b) : Gacco.Reached Q numTxns b' := by
  obtain ⟨a, hi, hs⟩ := hr.sim
  obtain ⟨a', ha, hs'⟩ := hs.step hi h
  refine ⟨⟨a', hi.step ha, hs'⟩, fun y hy => ?_⟩
  rw [(turn_rest h).1 y (by omega)]
  exact hr.beyond y hy

/-- A thread that has nothing to do gets nothing to do. -/
theorem update_beyond {todo : ℕ → List Op} {x : ℕ} (hx : x < numTxns) (h : ∀ y, numTxns ≤ y → todo y = [])
    (rest : List Op) (y : ℕ) (hy : numTxns ≤ y) : Function.update todo x rest y = [] := by
  rw [Function.update_of_ne (by omega)]
  exact h y hy

/-- An access takes no call off the list. -/
theorem rest_update {todo : ℕ → List Op} {threads : ℕ → Thread} {x : ℕ} {op : Op} {rest : List Op}
    (h : ∀ y, (threads y).rest = locks (todo y)) (hx : todo x = op :: rest)
    (hop : locks (op :: rest) = locks rest) (y : ℕ) :
    (threads y).rest = locks (Function.update todo x rest y) := by
  rcases eq_or_ne y x with rfl | hne
  · rw [Function.update_self, h, hx, hop]
  · rw [Function.update_of_ne hne]
    exact h y

theorem reached_txn {x : ℕ} (hx : x < numTxns) (h : s.stepTxn x = some s') (hr : Reached Q numTxns s) :
    Reached Q numTxns s' := by
  obtain ⟨b, hp, hb, rfl⟩ | ⟨op, rest, b, hp, hop, hb, rfl⟩ | ⟨k, f, rest, hp, hop, rfl⟩ |
    ⟨k, q, rest, hp, hop, ⟨-, rfl⟩ | ⟨-, rfl⟩⟩ := stepTxn_cases h
  · obtain ⟨hother, -, hpass, -⟩ := turn_rest hb
    refine ⟨reached_turn hx hb hr.base, fun y => ?_, hr.beyond⟩
    rcases eq_or_ne y x with rfl | hne
    · exact (hpass hp).1.trans (hr.rest y)
    · rw [hother y hne]
      exact hr.rest y
  · obtain ⟨hother, -, -, hcall⟩ := turn_rest hb
    refine ⟨reached_turn hx hb hr.base, fun y => ?_, update_beyond hx hr.beyond rest⟩
    rcases eq_or_ne y x with rfl | hne
    · obtain ⟨op', hrest⟩ := hcall hp
      have hlist : op' :: (b.threads y).rest = op :: locks rest := by
        rw [← hrest, hr.rest, hop]
        rfl
      simp only [Function.update_self]
      exact (List.cons.inj hlist).2
    · simp only [Function.update_of_ne hne, hother y hne]
      exact hr.rest y
  · exact ⟨hr.base, rest_update hr.rest hop rfl, update_beyond hx hr.beyond rest⟩
  · exact ⟨hr.base, rest_update hr.rest hop rfl, update_beyond hx hr.beyond rest⟩
  · exact ⟨hr.base, hr.rest, hr.beyond⟩

theorem reached_block (n : ℕ) (hr : Reached Q numTxns s) :
    Reached Q numTxns { s with base := { s.base with started := n } } where
  base := by
    obtain ⟨a, hi, hs⟩ := hr.base.sim
    exact ⟨⟨a, hi, hs.block⟩, hr.base.beyond⟩
  rest := hr.rest
  beyond := hr.beyond

theorem reached_step (h : Step numTxns maxBlocks s s') (hr : Reached Q numTxns s) :
    Reached Q numTxns s' := by
  cases h with
  | txn hx _ hstep => exact reached_txn hx hstep hr
  | block => exact reached_block _ hr

/-- No block is running when all started transactions have finished. -/
theorem resident_nil (h : ∀ x < s.base.started * blockSize, s.Finished x) : s.resident numTxns = [] := by
  refine List.filter_eq_nil_iff.mpr fun b hb hany => ?_
  obtain ⟨i, hi, hrun⟩ := List.any_eq_true.mp hany
  refine (of_decide_eq_true hrun).2 (h _ ?_)
  calc b * blockSize + i < (b + 1) * blockSize := by
        rw [Nat.succ_mul]
        exact Nat.add_lt_add_left (List.mem_range.mp hi) _
    _ ≤ s.base.started * blockSize := Nat.mul_le_mul_right _ (List.mem_range.mp hb)

/-- The unfinished transaction with the smallest id can make a step, or it waits for its block and
    nothing keeps the device from starting the next one. -/
theorem reached_progress (hr : Reached Q numTxns s) (hsorted : ∀ k, (Q k).Pairwise (· ≤ ·)) {z : ℕ}
    (hz : ¬ s.Finished z) :
    ∃ x < numTxns, ¬ s.Finished x ∧
      ((x < s.base.started * blockSize ∧ ∃ s', s.stepTxn x = some s') ∨
        (s.base.started * blockSize ≤ x ∧ s.resident numTxns = [])) := by
  classical
  have hex : ∃ x, ¬ s.Finished x := ⟨z, hz⟩
  have hx := Nat.find_spec hex
  have hmin : ∀ y < Nat.find hex, s.Finished y := fun y hy => not_not.mp (Nat.find_min hex hy)
  generalize Nat.find hex = x at hx hmin
  have hlt : x < numTxns := by
    by_contra hge
    exact hx ⟨hr.beyond x (Nat.not_lt.mp hge), (hr.base.beyond x (Nat.not_lt.mp hge)).2⟩
  refine ⟨x, hlt, hx, ?_⟩
  rcases Nat.lt_or_ge x (s.base.started * blockSize) with hstarted | hwaits
  · refine Or.inl ⟨hstarted, ?_⟩
    obtain ⟨a, hi, hs⟩ := hr.base.sim
    have hfin : ∀ y < x, (a.threads y).Finished := fun y hy => by
      rw [hs.threads, finished_lock, Thread.Finished, hr.rest, (hmin y hy).1]
      exact ⟨rfl, (hmin y hy).2⟩
    -- a turn of the locks, where one is due
    have hturn : ¬ (s.base.threads x).Finished → ∃ b, Gacco.stepTxn s.base x = some b := fun hnot => by
      obtain ⟨a', ha⟩ := hi.progress hsorted (fun h => hnot (by rwa [hs.threads, finished_lock] at h)) hfin
      exact hs.enabled ha
    cases hp : (s.base.threads x).passing with
    | some o =>
      obtain ⟨b, hb⟩ := hturn fun h => by rw [h.2] at hp; cases hp
      exact ⟨{ s with base := b }, by simp only [State.stepTxn, hp, hb, Option.map_some]⟩
    | none =>
      cases htodo : s.todo x with
      | nil => exact absurd ⟨htodo, hp⟩ hx
      | cons op rest =>
        cases op with
        | lock op =>
          obtain ⟨b, hb⟩ := hturn fun h => by
            have hrest := hr.rest x
            rw [h.1, htodo] at hrest
            cases hrest
          exact ⟨_, by simp only [State.stepTxn, hp, htodo, hb, Option.map_some]; rfl⟩
        | access k f => exact ⟨_, by simp only [State.stepTxn, hp, htodo]; rfl⟩
        | cas k q =>
          by_cases hreg : s.mem k 0 = (s.locals x).reg
          · exact ⟨_, by simp only [State.stepTxn, hp, htodo, hreg, if_true]; rfl⟩
          · exact ⟨_, by simp only [State.stepTxn, hp, htodo, hreg, if_false]; rfl⟩
  · exact Or.inr ⟨hwaits, resident_nil fun y hy => hmin y (hy.trans_le hwaits)⟩

end

/-! ### The end of a batch -/

/-- Twice the steps that a transaction has still to make, and one for the half of a release. -/
def State.left (s : State) (x : ℕ) : ℕ :=
  2 * (s.todo x).length + if (s.base.threads x).passing.isSome then 1 else 0

/-- What one step or two of `x` achieve: `x` gets on, and nothing else is brought back. -/
structure GetsOn (x : ℕ) (s s' : State) : Prop where
  less : s'.left x < s.left x
  other : ∀ y, y ≠ x → s'.left y = s.left y
  started : s'.base.started = s.base.started

/-- A step takes something off the list of its thread. -/
theorem getsOn_take {s s' : State} {x : ℕ} {op : Op} {rest : List Op} (hx : s.todo x = op :: rest)
    (htodo : s'.todo = Function.update s.todo x rest)
    (hother : ∀ y, y ≠ x → s'.base.threads y = s.base.threads y)
    (hstarted : s'.base.started = s.base.started) : GetsOn x s s' where
  less := by
    rw [State.left, State.left, htodo, Function.update_self, hx, List.length_cons]
    split <;> split <;> omega
  other y hy := by rw [State.left, State.left, htodo, Function.update_of_ne hy, hother y hy]
  started := hstarted

/-- A step of a transaction gets it on, or it was a compare-and-swap that failed, and the next one
    does. -/
theorem stepTxn_getsOn {s s' : State} {x : ℕ} (h : s.stepTxn x = some s') :
    GetsOn x s s' ∨ s'.base.started = s.base.started ∧ ∃ s'', s'.stepTxn x = some s'' ∧ GetsOn x s s'' := by
  obtain ⟨b, hp, hb, rfl⟩ | ⟨op, rest, b, hp, hop, hb, rfl⟩ | ⟨k, f, rest, hp, hop, rfl⟩ |
    ⟨k, q, rest, hp, hop, ⟨-, rfl⟩ | ⟨-, rfl⟩⟩ := stepTxn_cases h
  · obtain ⟨hother, hstarted, hpass, -⟩ := turn_rest hb
    refine Or.inl ⟨?_, fun y hy => ?_, hstarted⟩
    · rw [State.left, State.left, (hpass hp).2, Option.isSome_none, Option.isSome_iff_ne_none.mpr hp]
      exact Nat.lt_succ_self _
    · rw [State.left, State.left, hother y hy]
  · obtain ⟨hother, hstarted, -, -⟩ := turn_rest hb
    exact Or.inl (getsOn_take hop rfl hother hstarted)
  · exact Or.inl (getsOn_take hop rfl (fun _ _ => rfl) rfl)
  · exact Or.inl (getsOn_take hop rfl (fun _ _ => rfl) rfl)
  · refine Or.inr ⟨rfl, { s with
      todo := Function.update s.todo x rest
      locals := Function.update s.locals x { s.locals x with reg := s.mem k 0 }
      mem := Function.update s.mem k (Function.update (s.mem k) 0 (adjustedQuantity q (s.mem k 0))) },
      ?_, getsOn_take hop rfl (fun _ _ => rfl) rfl⟩
    simp only [State.stepTxn, hp, hop, Function.update_self, if_true]

/-- What is left to do for the whole batch. -/
def State.leftAll (numTxns : ℕ) (s : State) : ℕ :=
  (∑ x ∈ Finset.range numTxns, s.left x) + (numTxns - s.base.started)

theorem GetsOn.leftAll {numTxns x : ℕ} {s s' : State} (h : GetsOn x s s') (hx : x < numTxns) :
    s'.leftAll numTxns < s.leftAll numTxns := by
  rw [State.leftAll, State.leftAll, h.started]
  refine Nat.add_lt_add_right (Finset.sum_lt_sum (fun y _ => ?_) ⟨x, Finset.mem_range.mpr hx, h.less⟩) _
  rcases eq_or_ne y x with rfl | hne
  · exact h.less.le
  · exact (h.other y hne).le

/-- From every reached state the batch can be run to its end. -/
theorem reached_final {Q : Key → List ℕ} {numTxns maxBlocks : ℕ} {s : State} (hr : Reached Q numTxns s)
    (hsorted : ∀ k, (Q k).Pairwise (· ≤ ·)) (hblocks : 0 < maxBlocks) :
    ∃ f, ReflTransGen (Step numTxns maxBlocks) s f ∧ ∀ x, f.Finished x := by
  have hstep : ∀ s t, ReflTransGen (Step numTxns maxBlocks) s t → Reached Q numTxns s →
      Reached Q numTxns t := fun _ _ h hr =>
    run_invariant (I := Reached Q numTxns) (fun _ _ hst hr => reached_step hst hr) h hr
  have hdown : ∀ s, Reached Q numTxns s → ¬ (∀ x, s.Finished x) →
      ∃ t, ReflTransGen (Step numTxns maxBlocks) s t ∧ t.leftAll numTxns < s.leftAll numTxns := by
    intro s hr hnot
    obtain ⟨z, hz⟩ := not_forall.mp hnot
    obtain ⟨x, hx, -, ⟨hstarted, s', hs'⟩ | ⟨hwaits, hnil⟩⟩ := reached_progress hr hsorted hz
    · have hfirst : Step numTxns maxBlocks s s' := .txn hx hstarted hs'
      rcases stepTxn_getsOn hs' with hget | ⟨hsame, s'', hs'', hget⟩
      · exact ⟨s', .single hfirst, hget.leftAll hx⟩
      · exact ⟨s'', .tail (.single hfirst) (.txn hx (hsame ▸ hstarted) hs''), hget.leftAll hx⟩
    · have hmore : s.base.started * blockSize < numTxns := hwaits.trans_lt hx
      refine ⟨_, .single (.block hmore (by rw [hnil]; exact hblocks)), ?_⟩
      have hlt : s.base.started < numTxns := by
        rw [blockSize] at hmore
        omega
      exact Nat.add_lt_add_left (Nat.sub_lt_sub_left hlt (Nat.lt_succ_self _)) _
  obtain ⟨f, hrun, hfin⟩ := exists_final (State.leftAll numTxns) hstep hdown hr
  exact ⟨f, hrun.lift' id fun _ _ h => h, hfin⟩

theorem reached_init {cfg : Config} {txns : List Txn} (hok : ∀ p ∈ txns, p.params.Ok)
    (hlen : txns.length ≤ 2 ^ 32) (ops : TableName → ℕ → ℕ) (old : TableName → TableLock)
    (mem : Key → Record) :
    Reached (queue cfg (txns.map Txn.params)) txns.length (State.init cfg ops old txns mem) where
  base := by
    have hparams : ∀ p ∈ txns.map Txn.params, p.Ok := List.forall_mem_map.mpr hok
    have hbase := @Gacco.reached_init cfg _ hparams (by rwa [List.length_map]) ops old
    rwa [List.length_map] at hbase
  rest x := by
    simp only [State.init, Gacco.State.init, List.getElem?_map]
    cases txns[x]? with
    | none => rfl
    | some p => exact (locks_program cfg p).symm
  beyond x hx := by
    simp only [State.init, List.getElem?_eq_none hx, Option.map_none, Option.getD_none]

end Egad.Gacco.Exec
