import Egad.Gacco.Runs

/-! # The locked records end as in a serial run

    A step of a transaction is a step of the library's machine of locks and memory. Without
    `gacco_use_atomic` every record is touched under its lock, so the batch leaves the records as if
    its transactions had run one after another; with it, the same holds for the stock as long as that
    keeps its locks.

    What a thread has read without a lock must not reach a record. Only `data` can have such
    content, and a thread in which it does never stores `data` in a locked record:

        mode                   reads without lock       locked stores use
        locked    newOrder     none                     data
        locked    payment      the customer             reg, amount
        atomic    newOrder     all but the stock        reg, quantity -/

namespace Egad.Gacco.Exec
open Egad.Lib Relation
open Egad.Tpcc (TableName ItemParam)
open Egad.Tpcc.Exec (Word)

/-! ### Which accesses are guarded -/

/-- The records that a mode protects by locks. -/
def Locked (cfg : Config) (k : Key) : Prop :=
  cfg.useAtomic = false ∨ cfg.stockUseAtomic = false ∧ k.1 = .stock

/-- Locals that agree, in `data` only if it is exact. -/
def Agree (exact : Prop) (l l' : Locals) : Prop := l.reg = l'.reg ∧ (exact → l.data = l'.data)

/-- The transactions whose `data` is what they would read alone. -/
def Exact (cfg : Config) : Txn → Prop
  | .newOrder .. => cfg.useAtomic = false
  | .payment .. => False

section
variable {S : Key → Prop} {exact : Prop} {held : Finset Key} {k : Key} {rest : List Op}

/-- The programs of the library that `Op`s stand for. -/
def GuardedOps (S : Key → Prop) (exact : Prop) (held : Finset Key) (ops : List Op) : Prop :=
  Guarded S (Agree exact) held (ops.map Op.toData)

/-- What needs no lock may follow whatever locks are held. -/
theorem guarded_of_empty (h : GuardedOps S exact ∅ rest) : GuardedOps S exact held rest :=
  Guarded.mono (Finset.empty_subset held) h

theorem guarded_acquire (h : GuardedOps S exact (insert k held) rest) :
    GuardedOps S exact held (acquireLock k :: rest) := h

theorem guarded_release (h : GuardedOps S exact (held.erase k) rest) :
    GuardedOps S exact held (releaseLock k :: rest) := h

theorem guarded_accesses {f : ℕ → Locals → Record → Locals × Record} (is : List ℕ)
    (hf : ∀ i, S k ∧ k ∈ held ∧ Respects (Agree exact) (f i) ∨
      Blind (Agree exact) (f i) ∧ (S k → ∀ l r, (f i l r).2 = r))
    (h : GuardedOps S exact held rest) :
    GuardedOps S exact held ((is.map fun i => .access k (f i)) ++ rest) := by
  induction is with
  | nil => exact h
  | cons i is ih => exact ⟨hf i, ih⟩

/-- A record is read under its lock, or its content ends in a `data` that is not exact. -/
theorem guarded_readData (hk : S k ∧ k ∈ held ∨ ¬ exact) (h : GuardedOps S exact held rest) :
    GuardedOps S exact held (readData k ++ rest) := by
  refine guarded_accesses _ (fun i => ?_) h
  rcases hk with ⟨hS, hheld⟩ | hdata
  · refine Or.inl ⟨hS, hheld, fun l l' r hl => ⟨⟨hl.1, fun he => ?_⟩, rfl⟩⟩
    show l.data + r i = l'.data + r i
    rw [hl.2 he]
  · exact Or.inr ⟨fun l l' r r' hl => ⟨hl.1, fun he => absurd he hdata⟩, fun _ _ _ => rfl⟩

/-- A record is written under its lock from an exact `data`, or it is not protected. -/
theorem guarded_writeData (hk : S k ∧ k ∈ held ∧ exact ∨ ¬ S k) (h : GuardedOps S exact held rest) :
    GuardedOps S exact held (writeData k ++ rest) := by
  refine guarded_accesses _ (fun i => ?_) h
  rcases hk with ⟨hS, hheld, he⟩ | hS
  · refine Or.inl ⟨hS, hheld, fun l l' r hl => ⟨hl, ?_⟩⟩
    simp only [hl.2 he]
  · exact Or.inr ⟨fun l l' r r' hl => hl, fun hk => absurd hk hS⟩

/-- The load and the store of a read-modify-write. -/
theorem guarded_rmw (hS : S k) (hheld : k ∈ held) {i : ℕ} {g : Word → Word}
    (h : GuardedOps S exact held rest) :
    GuardedOps S exact held (load k i :: store k i g :: rest) := by
  refine ⟨Or.inl ⟨hS, hheld, fun l l' r hl => ⟨⟨rfl, hl.2⟩, rfl⟩⟩,
    Or.inl ⟨hS, hheld, fun l l' r hl => ⟨hl, ?_⟩⟩, h⟩
  simp only [hl.1]

/-- An atomic operation on a record that has no lock. -/
theorem guarded_atomic (hS : ¬ S k) {i : ℕ} {g : Word → Word} (h : GuardedOps S exact held rest) :
    GuardedOps S exact held (atomic k i g :: rest) :=
  ⟨Or.inr ⟨fun _ _ _ _ hl => hl, fun hk => absurd hk hS⟩, h⟩

theorem guarded_flatMap {f : Item → List Op}
    (hf : ∀ x rest, GuardedOps S exact ∅ rest → GuardedOps S exact ∅ (f x ++ rest)) (items : List Item) :
    GuardedOps S exact ∅ (items.flatMap f) := by
  induction items with
  | nil => trivial
  | cons x items ih =>
    rw [List.flatMap_cons]
    exact hf x _ ih

/-- An item under locks. -/
theorem guarded_lockedItem (hS : ∀ k, S k) (he : exact) (x : Item) (rest : List Op)
    (h : GuardedOps S exact ∅ rest) : GuardedOps S exact ∅ (lockedItem x ++ rest) := by
  simp only [lockedItem, List.append_assoc, List.cons_append, List.nil_append]
  refine guarded_acquire (guarded_writeData (Or.inl ⟨hS _, Finset.mem_insert_self .., he⟩) ?_)
  refine guarded_acquire (guarded_writeData (Or.inl ⟨hS _, Finset.mem_insert_self .., he⟩) ?_)
  refine guarded_release (guarded_release (guarded_acquire ?_))
  refine guarded_readData (Or.inl ⟨hS _, Finset.mem_insert_self ..⟩) (guarded_release ?_)
  exact guarded_of_empty h

/-- An item with atomics, where only the stock has a lock. -/
theorem guarded_atomicItem {cfg : Config} (hstock : cfg.stockUseAtomic = false)
    (hS : ∀ k, S k ↔ k.1 = .stock) (he : ¬ exact) (x : Item) (rest : List Op)
    (h : GuardedOps S exact ∅ rest) : GuardedOps S exact ∅ (atomicItem cfg x ++ rest) := by
  simp only [atomicItem, hstock, Bool.false_eq_true, if_false, List.append_assoc, List.cons_append,
    List.nil_append]
  refine guarded_writeData (Or.inr fun hk => by cases (hS _).mp hk) (guarded_acquire ?_)
  have hk : S (.stock, x.param.stockId) := (hS _).mpr rfl
  refine guarded_readData (Or.inr he) (guarded_rmw hk (Finset.mem_insert_self ..) ?_)
  exact guarded_release (guarded_readData (Or.inr he) (guarded_of_empty h))

end

/-- Every transaction touches the records that its mode protects under their locks, and stores there
    only what does not depend on anything it has read elsewhere. -/
theorem guarded_program {cfg : Config} (hcfg : cfg.useAtomic = false ∨ cfg.stockUseAtomic = false)
    (p : Txn) : GuardedOps (Locked cfg) (Exact cfg p) ∅ (gpuExecTpccTxn cfg p) := by
  cases hu : cfg.useAtomic with
  | false =>
    have hS : ∀ k, Locked cfg k := fun k => Or.inl hu
    have hin : ∀ (k : Key) (held : Finset Key), k ∈ insert k held := fun k held =>
      Finset.mem_insert_self k held
    cases p with
    | newOrder w d c no o items =>
      have he : Exact cfg (.newOrder w d c no o items) := hu
      simp only [gpuExecTpccTxn, hu, Bool.false_eq_true, if_false, List.append_assoc, List.cons_append,
        List.nil_append]
      refine guarded_acquire (guarded_readData (Or.inl ⟨hS _, hin _ _⟩) (guarded_release ?_))
      refine guarded_acquire (guarded_readData (Or.inl ⟨hS _, hin _ _⟩) (guarded_release ?_))
      refine guarded_acquire (guarded_readData (Or.inl ⟨hS _, hin _ _⟩) (guarded_release ?_))
      refine guarded_acquire (guarded_acquire ?_)
      refine guarded_writeData (Or.inl ⟨hS _, Finset.mem_insert_of_mem (hin _ _), he⟩) ?_
      refine guarded_writeData (Or.inl ⟨hS _, hin _ _, he⟩) (guarded_release (guarded_release ?_))
      exact guarded_of_empty (guarded_flatMap (guarded_lockedItem hS he) items)
    | payment w d c amount =>
      have he : ¬ Exact cfg (.payment w d c amount) := id
      simp only [gpuExecTpccTxn, payment, hu, Bool.false_eq_true, if_false, List.append_assoc,
        List.cons_append, List.nil_append]
      refine guarded_acquire (guarded_readData (Or.inr he) (guarded_rmw (hS _) (hin _ _) ?_))
      refine guarded_acquire (guarded_readData (Or.inr he) (guarded_rmw (hS _) (hin _ _) ?_))
      refine guarded_acquire (guarded_readData (Or.inr he) (guarded_rmw (hS _) (hin _ _) ?_))
      refine guarded_rmw (hS _) (hin _ _) (guarded_rmw (hS _) (hin _ _) ?_)
      exact guarded_release (guarded_release (guarded_release trivial))
  | true =>
    have hstock : cfg.stockUseAtomic = false := hcfg.resolve_left (by rw [hu]; exact Bool.noConfusion)
    have hS : ∀ k, Locked cfg k ↔ k.1 = .stock := fun k => by simp [Locked, hu, hstock]
    have hfree : ∀ {t r}, t ≠ TableName.stock → ¬ Locked cfg (t, r) := fun ht hk => ht ((hS _).mp hk)
    have he : ¬ Exact cfg p := by
      cases p with
      | newOrder => exact fun h => by rw [Exact, hu] at h; cases h
      | payment => exact id
    cases p with
    | newOrder w d c no o items =>
      simp only [gpuExecTpccTxn, hu, if_true, List.append_assoc]
      refine guarded_readData (Or.inr he) (guarded_readData (Or.inr he) (guarded_readData (Or.inr he) ?_))
      refine guarded_writeData (Or.inr (hfree (by decide))) ?_
      refine guarded_writeData (Or.inr (hfree (by decide))) ?_
      exact guarded_flatMap (guarded_atomicItem hstock hS he) items
    | payment w d c amount =>
      simp only [gpuExecTpccTxn, payment, hu, if_true, List.append_assoc, List.cons_append,
        List.nil_append]
      refine guarded_readData (Or.inr he) (guarded_atomic (hfree (by decide)) ?_)
      refine guarded_readData (Or.inr he) (guarded_atomic (hfree (by decide)) ?_)
      refine guarded_readData (Or.inr he) (guarded_atomic (hfree (by decide)) ?_)
      exact guarded_atomic (hfree (by decide)) (guarded_atomic (hfree (by decide)) trivial)

/-! ### The machine of the library -/

/-- A step that is no compare-and-swap. -/
def Op.Plain : Op → Prop
  | .cas .. => False
  | _ => True

def PlainOps (ops : List Op) : Prop := ∀ op ∈ ops, op.Plain

@[simp] theorem plain_append (p q : List Op) : PlainOps (p ++ q) ↔ PlainOps p ∧ PlainOps q :=
  List.forall_mem_append

@[simp] theorem plain_cons (op : Op) (ops : List Op) : PlainOps (op :: ops) ↔ op.Plain ∧ PlainOps ops :=
  List.forall_mem_cons

@[simp] theorem plain_nil : PlainOps [] := fun _ hop => absurd hop List.not_mem_nil

theorem plain_accesses (k : Key) (f : ℕ → Locals → Record → Locals × Record) (is : List ℕ) :
    PlainOps (is.map fun i => .access k (f i)) := by
  intro op hop
  obtain ⟨i, -, rfl⟩ := List.mem_map.mp hop
  trivial

@[simp] theorem plain_readData (k : Key) : PlainOps (readData k) := plain_accesses k _ _

@[simp] theorem plain_writeData (k : Key) : PlainOps (writeData k) := plain_accesses k _ _

theorem plain_flatMap {f : Item → List Op} (hf : ∀ x, PlainOps (f x)) (items : List Item) :
    PlainOps (items.flatMap f) := by
  intro op hop
  obtain ⟨x, -, hx⟩ := List.mem_flatMap.mp hop
  exact hf x op hx

/-- A compare-and-swap is made only where both options are on. -/
theorem plain_program {cfg : Config} (hcfg : cfg.useAtomic = false ∨ cfg.stockUseAtomic = false)
    (p : Txn) : PlainOps (gpuExecTpccTxn cfg p) := by
  cases hu : cfg.useAtomic with
  | false =>
    have hitem : ∀ x, PlainOps (lockedItem x) := fun x => by
      simp [lockedItem, acquireLock, releaseLock, Op.Plain]
    cases p <;>
      simp [gpuExecTpccTxn, payment, hu, acquireLock, releaseLock, load, store, Op.Plain,
        plain_flatMap hitem]
  | true =>
    have hs : cfg.stockUseAtomic = false := hcfg.resolve_left (by rw [hu]; exact Bool.noConfusion)
    have hitem : ∀ x, PlainOps (atomicItem cfg x) := fun x => by
      simp [atomicItem, hs, acquireLock, releaseLock, load, store, Op.Plain]
    cases p <;> simp [gpuExecTpccTxn, payment, hu, atomic, Op.Plain, plain_flatMap hitem]

/-- The state of the executor and one of the library's machine agree. -/
structure Sim (Q : Key → List ℕ) (s : State) (a : DataState Key Record Locals) : Prop where
  base : Gacco.Sim Q s.base a.base
  todo : a.todo = fun x => (s.todo x).map Op.toData
  data : a.data = s.locals
  mem : a.mem = s.mem

theorem update_subset {todo : ℕ → List Op} {x : ℕ} {op : Op} {rest : List Op} (h : todo x = op :: rest)
    (y : ℕ) : Function.update todo x rest y ⊆ todo y := by
  rcases eq_or_ne y x with rfl | hne
  · rw [Function.update_self, h]
    exact List.subset_cons_self op rest
  · rw [Function.update_of_ne hne]
    exact List.Subset.refl _

theorem map_update (todo : ℕ → List Op) (x : ℕ) (rest : List Op) :
    Function.update (fun y => (todo y).map Op.toData) x (rest.map Op.toData) =
      fun y => (Function.update todo x rest y).map Op.toData := by
  funext y
  rcases eq_or_ne y x with rfl | hne
  · rw [Function.update_self, Function.update_self]
  · rw [Function.update_of_ne hne, Function.update_of_ne hne]

section
variable {Q : Key → List ℕ} {s s' : State} {a : DataState Key Record Locals} {x : ℕ}

theorem Sim.passing (hs : Sim Q s a) : (a.base.threads x).passing = none ↔ (s.base.threads x).passing = none := by
  rw [hs.base.threads, Thread.lock, Option.map_eq_none_iff]

/-- A step that is no compare-and-swap is a step of the library's machine. -/
theorem Sim.step (hs : Sim Q s a) (hi : LockInv Q a.base) (hplain : PlainOps (s.todo x))
    (h : s.stepTxn x = some s') :
    ∃ a', DataStep Q x a a' ∧ Sim Q s' a' := by
  obtain ⟨b, hp, hb, rfl⟩ | ⟨op, rest, b, hp, hop, hb, rfl⟩ | ⟨k, f, rest, hp, hop, rfl⟩ |
    ⟨k, q, rest, hp, hop, -⟩ := stepTxn_cases h
  · obtain ⟨ab, hab, hsim⟩ := hs.base.step hi hb
    exact ⟨_, .pass (fun hn => hp (hs.passing.mp hn)) hab, hsim, hs.todo, hs.data, hs.mem⟩
  · obtain ⟨ab, hab, hsim⟩ := hs.base.step hi hb
    have hx : a.todo x = .lock op :: rest.map Op.toData := by
      rw [hs.todo]
      simp only [hop]
      rfl
    refine ⟨_, .lock hx (hs.passing.mpr hp) hab, hsim, ?_, hs.data, hs.mem⟩
    rw [hs.todo]
    exact map_update ..
  · have hx : a.todo x = .access k f :: rest.map Op.toData := by
      rw [hs.todo]
      simp only [hop]
      rfl
    refine ⟨_, .access hx (hs.passing.mpr hp), hs.base, ?_, ?_, ?_⟩
    · rw [hs.todo]
      exact map_update ..
    · rw [hs.data, hs.mem]
    · rw [hs.data, hs.mem]
  · exact absurd (hplain (.cas k q) (by rw [hop]; exact List.mem_cons_self)) id

end

/-! ### The batch -/

/-- The program of thread `x` of a batch. -/
def program (cfg : Config) (txns : List Txn) (x : ℕ) : List (DataOp Key Record Locals) :=
  ((txns[x]?.map (gpuExecTpccTxn cfg)).getD []).map Op.toData

/-- Is the `data` of thread `x` exact? -/
def exactAt (cfg : Config) (txns : List Txn) (x : ℕ) : Prop := ∃ p, txns[x]? = some p ∧ Exact cfg p

/-- The serial run of the library is that of the transactions. -/
theorem serialMemory_eq (cfg : Config) (txns : List Txn) (mem : Key → Record) :
    ∀ n ≤ txns.length,
      serialMemory (program cfg txns) (fun _ => ⟨0, 0⟩) mem n = serial cfg mem (txns.take n) := by
  intro n hn
  induction n with
  | zero => rfl
  | succ n ih =>
    have hget : txns[n]? = some txns[n] := List.getElem?_eq_getElem hn
    rw [serialMemory, ih (Nat.le_of_succ_le hn), program, hget, List.take_add_one, hget, serial, serial,
      List.foldl_append]
    rfl

/-- What every state has that a batch reaches in a mode with locks. -/
structure Locking (cfg : Config) (txns : List Txn) (mem : Key → Record) (s : State) : Prop where
  sim : ∃ a done, Sim (queue cfg (txns.map Txn.params)) s a ∧
    DataInv (queue cfg (txns.map Txn.params)) (Locked cfg) (fun x => Agree (exactAt cfg txns x))
      (program cfg txns) (fun _ => ⟨0, 0⟩) mem a done
  plain : ∀ x, PlainOps (s.todo x)

section
variable {cfg : Config} {txns : List Txn} {mem : Key → Record} {s s' : State}

theorem locking_init (hcfg : cfg.useAtomic = false ∨ cfg.stockUseAtomic = false)
    (hok : ∀ p ∈ txns, p.params.Ok) (hlen : txns.length ≤ 2 ^ 32) (ops : TableName → ℕ → ℕ)
    (old : TableName → TableLock) : Locking cfg txns mem (State.init cfg ops old txns mem) where
  sim := by
    have hr := @reached_init cfg _ hok hlen ops old mem
    obtain ⟨a, hi, hs⟩ := hr.base.sim
    refine ⟨⟨a, program cfg txns, fun _ => ⟨0, 0⟩, mem⟩, fun _ => [], ⟨hs, rfl, rfl, rfl⟩,
      dataInv_start (fun x l => ⟨rfl, fun _ => rfl⟩) hi (fun x => ?_) (fun x => ?_) fun x => ?_⟩
    · rw [hs.threads]
      exact hr.rest x
    · rw [hs.threads]
      rfl
    · cases hp : txns[x]? with
      | none =>
        rw [program, hp]
        trivial
      | some p =>
        have hexact : exactAt cfg txns x = Exact cfg p := by
          simp only [exactAt, hp, Option.some.injEq, exists_eq_left']
        rw [program, hp, hexact]
        exact guarded_program hcfg p
  plain x := by
    simp only [State.init]
    cases txns[x]? with
    | none => exact plain_nil
    | some p => exact plain_program hcfg p

theorem locking_step {maxBlocks : ℕ} (h : Step txns.length maxBlocks s s') (hl : Locking cfg txns mem s) :
    Locking cfg txns mem s' := by
  obtain ⟨a, done, hs, hinv⟩ := hl.sim
  cases h with
  | block => exact ⟨⟨a, done, ⟨hs.base.block, hs.todo, hs.data, hs.mem⟩, hinv⟩, hl.plain⟩
  | @txn _ x hx _ hstep =>
    obtain ⟨a', ha, hs'⟩ := hs.step hinv.lock (hl.plain x) hstep
    obtain ⟨done', hinv'⟩ := hinv.step (queue_sorted cfg _) ha
    refine ⟨⟨a', done', hs', hinv'⟩, fun y op hop => ?_⟩
    have hsub : s'.todo y ⊆ s.todo y := by
      obtain ⟨b, -, -, rfl⟩ | ⟨o, rest, b, -, ho, -, rfl⟩ | ⟨k, f, rest, -, ho, rfl⟩ |
        ⟨k, q, rest, -, ho, ⟨-, rfl⟩ | ⟨-, rfl⟩⟩ := stepTxn_cases hstep
      · exact List.Subset.refl _
      · exact update_subset ho y
      · exact update_subset ho y
      · exact update_subset ho y
      · exact List.Subset.refl _
    exact hl.plain y op (hsub hop)

theorem locking_final (hl : Locking cfg txns mem s) (hfin : ∀ x, s.Finished x) {k : Key}
    (hk : Locked cfg k) : s.mem k = serial cfg mem txns k := by
  obtain ⟨a, done, hs, hinv⟩ := hl.sim
  have hdone : ∀ x, a.todo x = [] := fun x => by
    rw [hs.todo]
    simp only [(hfin x).1, List.map_nil]
  have hbeyond : ∀ x, txns.length ≤ x → program cfg txns x = [] := fun x hx => by
    rw [program, List.getElem?_eq_none hx]
    rfl
  calc s.mem k = a.mem k := by rw [hs.mem]
    _ = serialMemory (program cfg txns) (fun _ => ⟨0, 0⟩) mem txns.length k :=
      hinv.final hdone hbeyond hk
    _ = serial cfg mem txns k := by rw [serialMemory_eq cfg txns mem _ le_rfl, List.take_length]

end

/-- The batch is serializable in the order of its transaction ids: however the threads' accesses, the
    turns of the locks and the starts of the blocks fall, a finished batch leaves every record that its
    mode protects by locks (all of them, or the stock) as the transactions do one after another. And
    the batch is never stuck: as long as a transaction has not finished there is a next step, and
    every reached state can be run to the end. -/
theorem gacco_serializable {cfg : Config} {ops : TableName → ℕ → ℕ} {old : TableName → TableLock}
    {txns : List Txn} {mem : Key → Record} {maxBlocks : ℕ} {s : State}
    (hok : ∀ p ∈ txns, p.params.Ok) (hlen : txns.length ≤ 2 ^ 31) (hblocks : 0 < maxBlocks)
    (hrun : ReflTransGen (Step txns.length maxBlocks) (State.init cfg ops old txns mem) s) :
    ((∀ x, s.Finished x) → ∀ k, Locked cfg k → s.mem k = serial cfg mem txns k) ∧
    (∀ z, ¬ s.Finished z → ∃ s', Step txns.length maxBlocks s s') ∧
    ∃ f, ReflTransGen (Step txns.length maxBlocks) s f ∧ ∀ x, f.Finished x := by
  have hlen : txns.length ≤ 2 ^ 32 := hlen.trans (by decide)
  have hsorted := queue_sorted cfg (txns.map Txn.params)
  have hr := run_invariant (I := Reached _ txns.length) (fun _ _ hst hr => reached_step hst hr) hrun
    (reached_init hok hlen ops old mem)
  refine ⟨fun hfin k hk => ?_, fun z hz => ?_, reached_final hr hsorted hblocks⟩
  · have hcfg : cfg.useAtomic = false ∨ cfg.stockUseAtomic = false := hk.imp_right And.left
    have hl := run_invariant (I := Locking cfg txns mem) (fun _ _ hst hl => locking_step hst hl) hrun
      (locking_init hcfg hok hlen ops old)
    exact locking_final hl hfin hk
  · obtain ⟨x, hx, -, ⟨hstarted, s', hs'⟩ | ⟨hwaits, hnil⟩⟩ := reached_progress hr hsorted hz
    · exact ⟨s', .txn hx hstarted hs'⟩
    · exact ⟨_, .block (hwaits.trans_lt hx) (by rw [hnil]; exact hblocks)⟩

/-- Two payments in one warehouse, and between them a new order that reads what the first one paid. -/
def payOrderPay : List Txn :=
  [.payment 0 0 0 5, .newOrder 0 0 1 0 0 [⟨⟨1, 5, 0⟩, 3⟩], .payment 0 1 1 7]

theorem gacco_serializable_payOrderPay :
    ∃ f, ReflTransGen (Step 3 1) (State.init ⟨false, false⟩ (fun _ _ => 0) (fun _ => ⟨id, id, id⟩)
        payOrderPay fun _ _ => 0) f ∧
      f.mem (.warehouse, 0) 1 = 12 ∧ f.mem (.newOrder, 0) 0 = 10 ∧ f.mem (.customer, 1) 2 = 1 := by
  have hok : ∀ p ∈ payOrderPay, p.params.Ok := by simp [payOrderPay, Txn.params, TxnParams.Ok]
  obtain ⟨-, -, f, hrun, hfin⟩ := @gacco_serializable ⟨false, false⟩ (fun _ _ => 0)
    (fun _ => ⟨id, id, id⟩) payOrderPay (fun _ _ => 0) 1 _ hok (by decide) Nat.one_pos .refl
  have hmem : ∀ k, f.mem k = serial ⟨false, false⟩ (fun _ _ => 0) payOrderPay k := fun k =>
    (gacco_serializable hok (by decide) Nat.one_pos hrun).1 hfin k (Or.inl rfl)
  refine ⟨f, hrun, ?_, ?_, ?_⟩ <;>
  · rw [hmem]
    decide +kernel

end Egad.Gacco.Exec
