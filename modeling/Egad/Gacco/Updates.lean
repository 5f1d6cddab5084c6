import Egad.Gacco.Serial
import Egad.Lib.AtomicLog

/-! # No update is lost

    A Payment adds to five words, an item of a NewOrder adjusts one,

        w_ytd      d_ytd      c_balance   c_ytd_payment   c_payment_cnt        s_quantity
        + amount   + amount   - amount    + amount        + 1                  adjustedQuantity

    with atomics, with a load and a store under a lock, or in a loop around `atomicCAS`, depending on
    the mode. In every mode a finished batch has made each of them once, and nothing else has happened
    to these records; the sums do not depend on the order. -/

namespace Egad.Gacco.Exec
open Egad.Lib Relation
open Egad.Tpcc (TableName ItemParam)
open Egad.Tpcc.Exec (Word)

/-- The update `g` of word `j` of record `k'`, as word `i` of record `k` sees it. -/
def updateAt (k : Key) (i : ℕ) (k' : Key) (j : ℕ) (g : Word → Word) : List (Word → Word) :=
  if k = k' ∧ i = j then [g] else []

/-- The updates of a word by a transaction. -/
def Txn.updates (k : Key) (i : ℕ) : Txn → List (Word → Word)
  | .newOrder _ _ _ _ _ items => items.flatMap fun x =>
    updateAt k i (.stock, x.param.stockId) 0 (adjustedQuantity x.orderQuantities)
  | .payment w d c amount =>
    updateAt k i (.warehouse, w) 1 (· + amount) ++ updateAt k i (.district, d) 0 (· + amount) ++
    updateAt k i (.customer, c) 0 (· - amount) ++ updateAt k i (.customer, c) 1 (· + amount) ++
    updateAt k i (.customer, c) 2 (· + 1)

/-- The records that are only updated: those of the loaded tables, without the stock where a NewOrder
    overwrites it. -/
def Updated (cfg : Config) (k : Key) : Prop :=
  match k.1 with
  | .warehouse | .district | .customer | .item => True
  | .stock => cfg.useAtomic = true
  | .newOrder | .order | .orderLine => False

/-! ### Effects of a program -/

/-- The program makes the updates `us` of word `i` of record `k`, in this order; with a plain load and
    store only if `rmw` allows it. -/
inductive Effects (rmw : Prop) (k : Key) (i : ℕ) : List Op → List (Word → Word) → Prop
  | nil : Effects rmw k i [] []
  | lock {op : LockOp Key} {ops : List Op} {us : List (Word → Word)} :
    Effects rmw k i ops us → Effects rmw k i (.lock op :: ops) us
  | leaves {k' : Key} {f : Locals → Record → Locals × Record} {ops : List Op} {us : List (Word → Word)} :
    (k' = k → ∀ l r, (f l r).2 i = r i) → Effects rmw k i ops us → Effects rmw k i (.access k' f :: ops) us
  | update {f : Locals → Record → Locals × Record} {g : Word → Word} {ops : List Op}
    {us : List (Word → Word)} : (∀ l r, (f l r).2 i = g (r i)) → Effects rmw k i ops us →
    Effects rmw k i (.access k f :: ops) (g :: us)
  | casLeaves {k' : Key} {q : Word} {ops : List Op} {us : List (Word → Word)} :
    ¬ (k = k' ∧ i = 0) → Effects rmw k i ops us → Effects rmw k i (.cas k' q :: ops) us
  | cas {q : Word} {ops : List Op} {us : List (Word → Word)} : i = 0 → Effects rmw k i ops us →
    Effects rmw k i (.cas k q :: ops) (adjustedQuantity q :: us)
  | loadStore {j : ℕ} {g : Word → Word} {ops : List Op} {us : List (Word → Word)} : rmw → i = j →
    Effects rmw k i ops us → Effects rmw k i (load k j :: store k j g :: ops) (g :: us)

section
variable {rmw : Prop} {k k' : Key} {i j : ℕ} {ops ops' : List Op} {us us' : List (Word → Word)}
  {g : Word → Word}

theorem Effects.append (h : Effects rmw k i ops us) (h' : Effects rmw k i ops' us') :
    Effects rmw k i (ops ++ ops') (us ++ us') := by
  induction h with
  | nil => exact h'
  | lock _ ih => exact .lock ih
  | leaves hf _ ih => exact .leaves hf ih
  | update hf _ ih => exact .update hf ih
  | casLeaves hne _ ih => exact .casLeaves hne ih
  | cas hi _ ih => exact .cas hi ih
  | loadStore hr hi _ ih => exact .loadStore hr hi ih

theorem effects_flatMap {α : Type} {f : α → List Op} {u : α → List (Word → Word)}
    (h : ∀ x, Effects rmw k i (f x) (u x)) (xs : List α) :
    Effects rmw k i (xs.flatMap f) (xs.flatMap u) := by
  induction xs with
  | nil => exact .nil
  | cons x xs ih =>
    rw [List.flatMap_cons, List.flatMap_cons]
    exact (h x).append ih

theorem effects_accesses {f : ℕ → Locals → Record → Locals × Record} (is : List ℕ)
    (hf : ∀ n, k' = k → ∀ l r, (f n l r).2 i = r i) (h : Effects rmw k i ops us) :
    Effects rmw k i ((is.map fun n => .access k' (f n)) ++ ops) us := by
  induction is with
  | nil => exact h
  | cons n is ih => exact .leaves (hf n) ih

theorem effects_readData (h : Effects rmw k i ops us) : Effects rmw k i (readData k' ++ ops) us :=
  effects_accesses _ (fun _ _ _ _ => rfl) h

theorem effects_writeData (hne : k' ≠ k) (h : Effects rmw k i ops us) :
    Effects rmw k i (writeData k' ++ ops) us :=
  effects_accesses _ (fun _ he => absurd he hne) h

theorem effects_load (h : Effects rmw k i ops us) : Effects rmw k i (load k' j :: ops) us :=
  .leaves (fun _ _ _ => rfl) h

theorem effects_atomic (h : Effects rmw k i ops us) :
    Effects rmw k i (atomic k' j g :: ops) (updateAt k i k' j g ++ us) := by
  rw [updateAt]
  split
  · next he =>
    obtain ⟨rfl, rfl⟩ := he
    exact .update (fun _ _ => Function.update_self ..) h
  · next hne =>
    refine .leaves (fun he l r => Function.update_of_ne (fun hij => hne ⟨he.symm, hij⟩) ..) h

theorem effects_cas {q : Word} (h : Effects rmw k i ops us) :
    Effects rmw k i (.cas k' q :: ops) (updateAt k i k' 0 (adjustedQuantity q) ++ us) := by
  rw [updateAt]
  split
  · next he =>
    obtain ⟨rfl, hi⟩ := he
    exact .cas hi h
  · next hne => exact .casLeaves hne h

/-- A load and a store, where nobody comes between them or the record is another one. -/
theorem effects_loadStore (hr : rmw ∨ k' ≠ k) (h : Effects rmw k i ops us) :
    Effects rmw k i (load k' j :: store k' j g :: ops) (updateAt k i k' j g ++ us) := by
  rw [updateAt]
  split
  · next he =>
    obtain ⟨rfl, hi⟩ := he
    exact .loadStore (hr.resolve_right fun hne => hne rfl) hi h
  · next hne =>
    refine effects_load (.leaves (fun he l r => ?_) h)
    exact Function.update_of_ne (fun hij => hne ⟨he.symm, hij⟩) ..

end

/-- A transaction makes its updates: one by one with atomics, or with loads and stores. -/
theorem effects_program {cfg : Config} {rmw : Prop} {k : Key} (hk : Updated cfg k) (i : ℕ)
    (hmode : rmw ∨ cfg.useAtomic = true ∧ (k.1 = .stock → cfg.stockUseAtomic = true)) (p : Txn) :
    Effects rmw k i (gpuExecTpccTxn cfg p) (p.updates k i) := by
  have hloaded : ∀ t r, (t = .newOrder ∨ t = .order ∨ t = .orderLine) → ((t, r) : Key) ≠ k := by
    rintro t r ht rfl
    rcases ht with rfl | rfl | rfl <;> exact hk
  cases hu : cfg.useAtomic with
  | true =>
    have hitem : ∀ x : Item, Effects rmw k i (atomicItem cfg x)
        (updateAt k i (.stock, x.param.stockId) 0 (adjustedQuantity x.orderQuantities)) := by
      intro x
      have hread : Effects rmw k i (readData (.item, x.param.itemId)) [] := by
        rw [← List.append_nil (readData _)]
        exact effects_readData .nil
      cases hs : cfg.stockUseAtomic with
      | true =>
        simp only [atomicItem, hs, if_true, List.append_assoc, List.cons_append, List.nil_append]
        refine effects_writeData (hloaded _ _ (by simp)) (effects_readData (effects_load ?_))
        rw [← List.append_nil (updateAt ..)]
        exact effects_cas hread
      | false =>
        have hstock : rmw ∨ ((.stock, x.param.stockId) : Key) ≠ k := hmode.imp_right fun h he => by
          have := h.2 (by rw [← he])
          rw [hs] at this
          cases this
        simp only [atomicItem, hs, Bool.false_eq_true, if_false, List.append_assoc, List.cons_append,
          List.nil_append]
        refine effects_writeData (hloaded _ _ (by simp)) (.lock (effects_readData ?_))
        rw [← List.append_nil (updateAt ..)]
        exact effects_loadStore hstock (.lock hread)
    cases p with
    | newOrder w d c no o items =>
      simp only [gpuExecTpccTxn, hu, if_true, List.append_assoc]
      refine effects_readData (effects_readData (effects_readData ?_))
      refine effects_writeData (hloaded _ _ (by simp)) (effects_writeData (hloaded _ _ (by simp)) ?_)
      exact effects_flatMap hitem items
    | payment w d c amount =>
      simp only [gpuExecTpccTxn, payment, hu, if_true, List.append_assoc, List.cons_append,
        List.nil_append, Txn.updates]
      refine effects_readData (effects_atomic (effects_readData (effects_atomic ?_)))
      refine effects_readData (effects_atomic (effects_atomic ?_))
      rw [← List.append_nil (updateAt ..)]
      exact effects_atomic .nil
  | false =>
    have hr : rmw := hmode.resolve_right fun h => by rw [h.1] at hu; cases hu
    have hstock : k.1 ≠ .stock := fun h => by
      rw [Updated, h] at hk
      rw [hk] at hu
      cases hu
    cases p with
    | newOrder w d c no o items =>
      have hitem : ∀ x : Item, Effects rmw k i (lockedItem x)
          (updateAt k i (.stock, x.param.stockId) 0 (adjustedQuantity x.orderQuantities)) := by
        intro x
        have hne : ((.stock, x.param.stockId) : Key) ≠ k := fun he => hstock (by rw [← he])
        rw [updateAt, if_neg fun he => hne he.1.symm]
        simp only [lockedItem, List.append_assoc, List.cons_append, List.nil_append]
        refine .lock (effects_writeData (hloaded _ _ (by simp)) (.lock (effects_writeData hne ?_)))
        exact .lock (.lock (.lock (effects_readData (.lock .nil))))
      simp only [gpuExecTpccTxn, hu, Bool.false_eq_true, if_false, List.append_assoc, List.cons_append,
        List.nil_append]
      refine .lock (effects_readData (.lock (.lock (effects_readData (.lock ?_)))))
      refine .lock (effects_readData (.lock (.lock (.lock ?_))))
      refine effects_writeData (hloaded _ _ (by simp)) (effects_writeData (hloaded _ _ (by simp)) ?_)
      exact .lock (.lock (effects_flatMap hitem items))
    | payment w d c amount =>
      simp only [gpuExecTpccTxn, payment, hu, Bool.false_eq_true, if_false, List.append_assoc,
        List.cons_append, List.nil_append, Txn.updates]
      refine .lock (effects_readData (effects_loadStore (Or.inl hr) ?_))
      refine .lock (effects_readData (effects_loadStore (Or.inl hr) ?_))
      refine .lock (effects_readData (effects_loadStore (Or.inl hr) (effects_loadStore (Or.inl hr) ?_)))
      rw [← List.append_nil (updateAt ..)]
      exact effects_loadStore (Or.inl hr) (.lock (.lock (.lock .nil)))

/-! ### One transaction after another -/

theorem replayLog_append {W : Type} (w : W) (us vs : List (W → W)) :
    replayLog w (us ++ vs) = replayLog (replayLog w us) vs := List.foldl_append

/-- A program that runs alone makes its updates. -/
theorem effects_alone {k : Key} {i : ℕ} {ops : List Op} {us : List (Word → Word)}
    (h : Effects True k i ops us) : ∀ s : Locals × (Key → Record),
      (execOps s (ops.map Op.toData)).2 k i = replayLog (s.2 k i) us := by
  induction h with
  | nil => exact fun s => rfl
  | lock _ ih => exact fun s => ih s
  | @leaves k' f ops us hf _ ih =>
    intro s
    refine (ih _).trans (congrArg (replayLog · us) ?_)
    show Function.update s.2 k' (f s.1 (s.2 k')).2 k i = s.2 k i
    rcases eq_or_ne k k' with rfl | hne
    · rw [Function.update_self]
      exact hf rfl ..
    · rw [Function.update_of_ne hne]
  | @update f g ops us hf _ ih =>
    intro s
    refine (ih _).trans (congrArg (replayLog · us) ?_)
    show Function.update s.2 k (f s.1 (s.2 k)).2 k i = g (s.2 k i)
    rw [Function.update_self]
    exact hf ..
  | @casLeaves k' q ops us hne _ ih =>
    intro s
    refine (ih _).trans (congrArg (replayLog · us) ?_)
    show Function.update s.2 k' (Function.update (s.2 k') 0 _) k i = s.2 k i
    rcases eq_or_ne k k' with rfl | hk
    · rw [Function.update_self, Function.update_of_ne fun hi => hne ⟨rfl, hi⟩]
    · rw [Function.update_of_ne hk]
  | @cas q ops us hi _ ih =>
    subst hi
    intro s
    refine (ih _).trans (congrArg (replayLog · us) ?_)
    show Function.update s.2 k (Function.update (s.2 k) 0 _) k 0 = _
    rw [Function.update_self, Function.update_self]
  | @loadStore j g ops us _ hi _ ih =>
    subst hi
    intro s
    refine (ih _).trans (congrArg (replayLog · us) ?_)
    show Function.update (Function.update s.2 k (s.2 k)) k _ k i = g (s.2 k i)
    rw [Function.update_self]
    exact Function.update_self ..

/-- The serial run makes the updates of the transactions, in their order. -/
theorem serial_updates {cfg : Config} {k : Key} (hk : Updated cfg k) (i : ℕ) (txns : List Txn) :
    ∀ mem : Key → Record,
      serial cfg mem txns k i = replayLog (mem k i) (txns.flatMap (Txn.updates k i)) := by
  induction txns with
  | nil => exact fun mem => rfl
  | cons p txns ih =>
    intro mem
    calc serial cfg (runAlone cfg mem p) txns k i
        = replayLog (runAlone cfg mem p k i) (txns.flatMap (Txn.updates k i)) := ih _
      _ = replayLog (replayLog (mem k i) (p.updates k i)) (txns.flatMap (Txn.updates k i)) := by
        rw [runAlone, effects_alone (effects_program hk i (Or.inl trivial) p)]
      _ = replayLog (mem k i) ((p :: txns).flatMap (Txn.updates k i)) := by
        rw [List.flatMap_cons, replayLog_append]

/-! ### With atomics -/

/-- The updates made so far, and those the threads have still to make. -/
def Watched (k : Key) (i n : ℕ) (w₀ : Word) (all : Multiset (Word → Word)) (s : State) : Prop :=
  ∃ pending, (∀ x, Effects False k i (s.todo x) (pending x)) ∧ Logged w₀ n all (s.mem k i) pending

section
variable {k : Key} {i n : ℕ} {w₀ : Word} {all : Multiset (Word → Word)} {s s' : State}

theorem effects_rest {todo : ℕ → List Op} {pending : ℕ → List (Word → Word)} {x : ℕ} {rest : List Op}
    {us : List (Word → Word)} (h : ∀ y, Effects False k i (todo y) (pending y))
    (hx : Effects False k i rest us) (y : ℕ) :
    Effects False k i (Function.update todo x rest y) (Function.update pending x us y) := by
  rcases eq_or_ne y x with rfl | hne
  · rw [Function.update_self, Function.update_self]
    exact hx
  · rw [Function.update_of_ne hne, Function.update_of_ne hne]
    exact h y

/-- A step that leaves the word alone. -/
theorem effects_quiet {todo : ℕ → List Op} {pending : ℕ → List (Word → Word)} {x : ℕ} {rest : List Op}
    (h : ∀ y, Effects False k i (todo y) (pending y)) (hx : Effects False k i rest (pending x)) (y : ℕ) :
    Effects False k i (Function.update todo x rest y) (pending y) := by
  have hrest := effects_rest (x := x) h hx y
  rwa [Function.update_eq_self] at hrest

theorem watched_txn {x : ℕ} (hx : x < n) (h : s.stepTxn x = some s') (hw : Watched k i n w₀ all s) :
    Watched k i n w₀ all s' := by
  obtain ⟨pending, heff, hlog⟩ := hw
  have hex := heff x
  obtain ⟨b, -, -, rfl⟩ | ⟨op, rest, b, -, hop, -, rfl⟩ | ⟨k', f, rest, -, hop, rfl⟩ |
    ⟨k', q, rest, -, hop, ⟨-, rfl⟩ | ⟨-, rfl⟩⟩ := stepTxn_cases h
  · exact ⟨pending, heff, hlog⟩
  · rw [hop] at hex
    generalize hp : pending x = us at hex
    cases hex with
    | lock hrest => exact ⟨pending, effects_quiet heff (hp ▸ hrest), hlog⟩
  · rw [hop] at hex
    generalize hp : pending x = us at hex
    cases hex with
    | leaves hf hrest =>
      refine ⟨pending, effects_quiet heff (hp ▸ hrest), ?_⟩
      have hsame : Function.update s.mem k' (f (s.locals x) (s.mem k')).2 k i = s.mem k i := by
        rcases eq_or_ne k k' with rfl | hne
        · rw [Function.update_self]
          exact hf rfl ..
        · rw [Function.update_of_ne hne]
      simp only [hsame]
      exact hlog
    | @update f g ops us hf hrest =>
      refine ⟨Function.update pending x us, effects_rest heff hrest, ?_⟩
      simp only [Function.update_self, hf]
      exact hlog.update hx hp
    | loadStore hr => exact hr.elim
  · rw [hop] at hex
    generalize hp : pending x = us at hex
    cases hex with
    | casLeaves hne hrest =>
      refine ⟨pending, effects_quiet heff (hp ▸ hrest), ?_⟩
      have hsame : Function.update s.mem k' (Function.update (s.mem k') 0
          (adjustedQuantity q (s.mem k' 0))) k i = s.mem k i := by
        rcases eq_or_ne k k' with rfl | hk
        · rw [Function.update_self, Function.update_of_ne fun hi => hne ⟨rfl, hi⟩]
        · rw [Function.update_of_ne hk]
      simp only [hsame]
      exact hlog
    | @cas q ops us hi hrest =>
      subst hi
      refine ⟨Function.update pending x us, effects_rest heff hrest, ?_⟩
      simp only [Function.update_self]
      exact hlog.update hx hp
  · exact ⟨pending, heff, hlog⟩

theorem watched_step {maxBlocks : ℕ} (h : Step n maxBlocks s s') (hw : Watched k i n w₀ all s) :
    Watched k i n w₀ all s' := by
  cases h with
  | block => exact hw
  | txn hx _ hstep => exact watched_txn hx hstep hw

end

/-- The updates of a batch, thread by thread. -/
theorem sum_updates (f : Txn → List (Word → Word)) (txns : List Txn) :
    ∑ x ∈ Finset.range txns.length, (((txns[x]?.map f).getD [] : List _) : Multiset (Word → Word)) =
      txns.flatMap f := by
  induction txns with
  | nil => rfl
  | cons p txns ih =>
    rw [List.length_cons, Finset.sum_range_succ', List.flatMap_cons, ← Multiset.coe_add, add_comm, ← ih]
    rfl

theorem watched_init {cfg : Config} {k : Key} (hk : Updated cfg k) (i : ℕ)
    (hmode : cfg.useAtomic = true ∧ (k.1 = .stock → cfg.stockUseAtomic = true))
    (ops : TableName → ℕ → ℕ) (old : TableName → TableLock) (txns : List Txn) (mem : Key → Record) :
    Watched k i txns.length (mem k i) (txns.flatMap (Txn.updates k i)) (State.init cfg ops old txns mem) := by
  refine ⟨fun x => (txns[x]?.map (Txn.updates k i)).getD [], fun x => ?_, ?_⟩
  · simp only [State.init]
    cases txns[x]? with
    | none => exact .nil
    | some p => exact effects_program hk i (Or.inr hmode) p
  · rw [← sum_updates]
    exact logged_start ..

/-! ### Totals -/

/-- The amounts of the payments that name record `k`. -/
def Txn.paid (k : Key) : Txn → List Word
  | .newOrder .. => []
  | .payment w d c amount =>
    if k = (.warehouse, w) ∨ k = (.district, d) ∨ k = (.customer, c) then [amount] else []

/-- All amounts paid to a record, in batch order. -/
def paid (k : Key) (txns : List Txn) : List Word := txns.flatMap (Txn.paid k)

/-- A word whose updates are additions. -/
theorem total_of_updates {k : Key} {i : ℕ} {f : Word → Word} {txns : List Txn} {w w₀ : Word}
    (hupd : ∀ p : Txn, p.updates k i = ((p.paid k).map f).map fun a w => w + a)
    (h : ∃ order : List (Word → Word), order.Perm (txns.flatMap (Txn.updates k i)) ∧
      w = replayLog w₀ order) :
    w = w₀ + ((paid k txns).map f).sum := by
  obtain ⟨order, hperm, rfl⟩ := h
  refine replayLog_add (hperm.trans (List.Perm.of_eq ?_)) w₀
  calc txns.flatMap (Txn.updates k i)
      = txns.flatMap fun p => ((p.paid k).map f).map fun a w => w + a :=
        congrArg (fun u => txns.flatMap u) (funext hupd)
    _ = ((paid k txns).map f).map fun a w => w + a := by
      rw [paid, List.map_flatMap, List.map_flatMap]

theorem updates_warehouse (w : ℕ) (p : Txn) : p.updates (.warehouse, w) 1 =
    ((p.paid (.warehouse, w)).map id).map fun a w => w + a := by
  cases p with
  | newOrder => simp [Txn.updates, Txn.paid, updateAt]
  | payment =>
    simp [Txn.updates, Txn.paid, updateAt]
    split <;> rfl

theorem updates_district (d : ℕ) (p : Txn) : p.updates (.district, d) 0 =
    ((p.paid (.district, d)).map id).map fun a w => w + a := by
  cases p with
  | newOrder => simp [Txn.updates, Txn.paid, updateAt]
  | payment =>
    simp [Txn.updates, Txn.paid, updateAt]
    split <;> rfl

theorem updates_balance (c : ℕ) (p : Txn) : p.updates (.customer, c) 0 =
    ((p.paid (.customer, c)).map fun a => -a).map fun a w => w + a := by
  cases p with
  | newOrder => simp [Txn.updates, Txn.paid, updateAt]
  | payment =>
    simp [Txn.updates, Txn.paid, updateAt, sub_eq_add_neg]
    split <;> rfl

theorem updates_ytdPayment (c : ℕ) (p : Txn) : p.updates (.customer, c) 1 =
    ((p.paid (.customer, c)).map id).map fun a w => w + a := by
  cases p with
  | newOrder => simp [Txn.updates, Txn.paid, updateAt]
  | payment =>
    simp [Txn.updates, Txn.paid, updateAt]
    split <;> rfl

theorem updates_paymentCnt (c : ℕ) (p : Txn) : p.updates (.customer, c) 2 =
    ((p.paid (.customer, c)).map fun _ => 1).map fun a w => w + a := by
  cases p with
  | newOrder => simp [Txn.updates, Txn.paid, updateAt]
  | payment =>
    simp [Txn.updates, Txn.paid, updateAt]
    split <;> rfl

/-- In every mode and every run, a finished batch has made the updates of its transactions, each once:
    every word of a record that is only updated is what some order of these updates makes of it; what
    was paid adds up in warehouse, district and customer; and a word that nobody updates is as before. -/
theorem gacco_no_lost_update {cfg : Config} {ops : TableName → ℕ → ℕ} {old : TableName → TableLock}
    {txns : List Txn} {mem : Key → Record} {maxBlocks : ℕ} {s : State}
    (hok : ∀ p ∈ txns, p.params.Ok) (hlen : txns.length ≤ 2 ^ 31)
    (hrun : ReflTransGen (Step txns.length maxBlocks) (State.init cfg ops old txns mem) s)
    (hfin : ∀ x, s.Finished x) :
    (∀ k i, Updated cfg k → ∃ order : List (Word → Word),
      order.Perm (txns.flatMap (Txn.updates k i)) ∧ s.mem k i = replayLog (mem k i) order) ∧
    (∀ w, s.mem (.warehouse, w) 1 = mem (.warehouse, w) 1 + (paid (.warehouse, w) txns).sum) ∧
    (∀ d, s.mem (.district, d) 0 = mem (.district, d) 0 + (paid (.district, d) txns).sum) ∧
    ∀ c, s.mem (.customer, c) 0 = mem (.customer, c) 0 - (paid (.customer, c) txns).sum ∧
      s.mem (.customer, c) 1 = mem (.customer, c) 1 + (paid (.customer, c) txns).sum ∧
      s.mem (.customer, c) 2 = mem (.customer, c) 2 + (paid (.customer, c) txns).length := by
  have hall : ∀ k i, Updated cfg k → ∃ order : List (Word → Word),
      order.Perm (txns.flatMap (Txn.updates k i)) ∧ s.mem k i = replayLog (mem k i) order := by
    intro k i hk
    by_cases hmode : cfg.useAtomic = true ∧ (k.1 = .stock → cfg.stockUseAtomic = true)
    · obtain ⟨pending, heff, hlog⟩ := run_invariant
        (I := Watched k i txns.length (mem k i) (txns.flatMap (Txn.updates k i)))
        (fun _ _ hst hw => watched_step hst hw) hrun (watched_init hk i hmode ops old txns mem)
      refine hlog.final fun x _ => ?_
      have hx := heff x
      rw [(hfin x).1] at hx
      generalize pending x = us at hx
      cases hx
      rfl
    · -- the record has a lock in this mode
      have hlocked : Locked cfg k := by
        rw [Locked]
        cases hu : cfg.useAtomic with
        | false => exact Or.inl rfl
        | true =>
          obtain ⟨hstock, hs⟩ := Classical.not_imp.mp fun h => hmode ⟨hu, h⟩
          exact Or.inr ⟨Bool.eq_false_of_not_eq_true hs, hstock⟩
      have hcfg : cfg.useAtomic = false ∨ cfg.stockUseAtomic = false := hlocked.imp_right And.left
      have hl := run_invariant (I := Locking cfg txns mem) (fun _ _ hst hl => locking_step hst hl) hrun
        (locking_init hcfg hok (hlen.trans (by decide)) ops old)
      refine ⟨_, List.Perm.refl _, ?_⟩
      rw [locking_final hl hfin hlocked]
      exact serial_updates hk i txns mem
  refine ⟨hall, fun w => ?_, fun d => ?_, fun c => ⟨?_, ?_, ?_⟩⟩
  · have h := total_of_updates (f := id) (updates_warehouse w) (hall (.warehouse, w) 1 trivial)
    rwa [List.map_id] at h
  · have h := total_of_updates (f := id) (updates_district d) (hall (.district, d) 0 trivial)
    rwa [List.map_id] at h
  · have h := total_of_updates (updates_balance c) (hall (.customer, c) 0 trivial)
    rwa [← List.sum_neg, ← sub_eq_add_neg] at h
  · have h := total_of_updates (f := id) (updates_ytdPayment c) (hall (.customer, c) 1 trivial)
    rwa [List.map_id] at h
  · have h := total_of_updates (updates_paymentCnt c) (hall (.customer, c) 2 trivial)
    rwa [List.map_const', List.sum_replicate, nsmul_one] at h

/-- A warehouse paid twice, and a stock ordered from twice, all with atomics. -/
def atomicBatch : List Txn :=
  [.payment 0 0 0 5, .newOrder 0 0 1 0 0 [⟨⟨1, 5, 0⟩, 3⟩, ⟨⟨1, 5, 1⟩, 4⟩], .payment 0 1 1 7]

theorem gacco_no_lost_update_atomicBatch :
    ∃ f, ReflTransGen (Step 3 1) (State.init ⟨true, true⟩ (fun _ _ => 0) (fun _ => ⟨id, id, id⟩)
        atomicBatch fun _ _ => 20) f ∧
      f.mem (.warehouse, 0) 1 = 32 ∧ f.mem (.customer, 1) 0 = 13 ∧ f.mem (.warehouse, 0) 2 = 20 := by
  have hok : ∀ p ∈ atomicBatch, p.params.Ok := by simp [atomicBatch, Txn.params, TxnParams.Ok]
  have hr := @reached_init ⟨true, true⟩ _ hok (by decide) (fun _ _ => 0) (fun _ => ⟨id, id, id⟩)
    fun _ _ => 20
  obtain ⟨f, hrun, hfin⟩ := reached_final hr (queue_sorted _ _) Nat.one_pos
  obtain ⟨hall, hw, -, hc⟩ := gacco_no_lost_update hok (by decide) hrun hfin
  refine ⟨f, hrun, ?_, ?_, ?_⟩
  · rw [hw]
    decide +kernel
  · rw [(hc 1).1]
    decide +kernel
  · obtain ⟨order, hperm, hword⟩ := hall (.warehouse, 0) 2 trivial
    rw [hword, hperm.eq_nil]
    rfl

end Egad.Gacco.Exec
