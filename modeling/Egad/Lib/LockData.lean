import Egad.Lib.QueueLock

/-! # Memory behind queued locks

    The threads of the lock queues also work on a memory, one cell for each key, with data of their
    own. Some cells are guarded: a thread changes them, and looks at them with consequences, only while
    it holds the lock of the key.

        queue k      0     0     3     8
        cell k    c₀ → c₁ → c₂ → c₃ → c₄         in queue order, whatever the threads do elsewhere

    If the queues are sorted, the guarded cells end as they do when the threads run one after another. -/

namespace Egad.Lib

variable {K V D : Type*}

/-- What a thread does next: something about a lock, or an access of a cell, which may change the
    cell and the thread's own data. -/
inductive DataOp (K V D : Type*) where
  | lock (op : LockOp K)
  | access (k : K) (f : D → V → D × V)

variable [DecidableEq K]

/-- The operation, carried out alone. -/
def DataOp.exec (s : D × (K → V)) : DataOp K V D → D × (K → V)
  | .lock _ => s
  | .access k f => ((f s.1 (s.2 k)).1, Function.update s.2 k (f s.1 (s.2 k)).2)

def execOps (s : D × (K → V)) (ops : List (DataOp K V D)) : D × (K → V) := ops.foldl DataOp.exec s

/-- The lock operations of a program. -/
def locksOf (ops : List (DataOp K V D)) : List (LockOp K) :=
  ops.filterMap fun
    | .lock op => some op
    | .access .. => none

/-- The memory when the threads before `n` have run one after another. -/
def serialMemory (programs : ℕ → List (DataOp K V D)) (d₀ : ℕ → D) (m₀ : K → V) : ℕ → K → V
  | 0 => m₀
  | n + 1 => (execOps (d₀ n, serialMemory programs d₀ m₀ n) (programs n)).2

structure DataState (K V D : Type*) where
  base : LockState K
  todo : ℕ → List (DataOp K V D)
  data : ℕ → D
  mem : K → V

/-- A step of thread `x`. -/
inductive DataStep (Q : K → List ℕ) (x : ℕ) : DataState K V D → DataState K V D → Prop
  | lock {s : DataState K V D} {op : LockOp K} {rest : List (DataOp K V D)} {b : LockState K} :
    s.todo x = .lock op :: rest → (s.base.threads x).passing = none → LockStep Q x s.base b →
    DataStep Q x s { s with base := b, todo := Function.update s.todo x rest }
  | pass {s : DataState K V D} {b : LockState K} :
    (s.base.threads x).passing ≠ none → LockStep Q x s.base b → DataStep Q x s { s with base := b }
  | access {s : DataState K V D} {k : K} {f : D → V → D × V} {rest : List (DataOp K V D)} :
    s.todo x = .access k f :: rest → (s.base.threads x).passing = none →
    DataStep Q x s { s with
      todo := Function.update s.todo x rest
      data := Function.update s.data x (f (s.data x) (s.mem k)).1
      mem := Function.update s.mem k (f (s.data x) (s.mem k)).2 }

/-! ### Which programs are guarded -/

/-- Data that agree as far as `R` can tell are treated alike. -/
def Respects (R : D → D → Prop) (f : D → V → D × V) : Prop :=
  ∀ d d' v, R d d' → R (f d v).1 (f d' v).1 ∧ (f d v).2 = (f d' v).2

/-- What the cell holds makes no difference that `R` can tell. -/
def Blind (R : D → D → Prop) (f : D → V → D × V) : Prop :=
  ∀ d d' v v', R d d' → R (f d v).1 (f d' v').1

/-- An operation that does not change the cell of `k`. -/
def DataOp.Leaves (k : K) : DataOp K V D → Prop
  | .lock _ => True
  | .access k' f => k' = k → ∀ d v, (f d v).2 = v

/-- The accesses of a program that has the locks `held`: of cells it holds the lock of, or of any
    cell if nothing that `R` can tell depends on it and no guarded cell changes. -/
def Guarded (S : K → Prop) (R : D → D → Prop) : Finset K → List (DataOp K V D) → Prop
  | _, [] => True
  | held, .lock (.acquire k) :: rest => Guarded S R (insert k held) rest
  | held, .lock (.release k) :: rest => Guarded S R (held.erase k) rest
  | held, .access k f :: rest =>
    (S k ∧ k ∈ held ∧ Respects R f ∨ Blind R f ∧ (S k → ∀ d v, (f d v).2 = v)) ∧ Guarded S R held rest

section
variable {S : K → Prop} {R : D → D → Prop}

/-- Holding more locks does no harm. -/
theorem Guarded.mono {ops : List (DataOp K V D)} : ∀ {held held' : Finset K}, held ⊆ held' →
    Guarded S R held ops → Guarded S R held' ops := by
  induction ops with
  | nil => exact fun _ _ => trivial
  | cons op ops ih =>
    intro held held' hsub hg
    match op, hg with
    | .lock (.acquire k), hg => exact ih (Finset.insert_subset_insert k hsub) hg
    | .lock (.release k), hg => exact ih (Finset.erase_subset_erase k hsub) hg
    | .access k f, hg =>
      refine ⟨?_, ih hsub hg.2⟩
      rcases hg.1 with ⟨hk, hheld, hf⟩ | hfree
      · exact Or.inl ⟨hk, hsub hheld, hf⟩
      · exact Or.inr hfree

/-- A program that neither holds nor will take the lock of a guarded cell leaves the cell alone. -/
theorem Guarded.leaves {k : K} (hk : S k) {ops : List (DataOp K V D)} :
    ∀ {held : Finset K}, Guarded S R held ops → k ∉ held → .acquire k ∉ locksOf ops →
      ∀ op ∈ ops, op.Leaves k := by
  induction ops with
  | nil =>
    intro held _ _ _ op hop
    cases hop
  | cons first ops ih =>
    intro held hg hheld hacq op hop
    match first, hg, hacq, hop with
    | .lock (.acquire k'), hg, hacq, hop =>
      rcases List.mem_cons.mp hop with rfl | hop
      · trivial
      · have hne : k ≠ k' := fun h => hacq (h ▸ List.mem_cons_self)
        refine ih hg (fun hmem => ?_) (fun h => hacq (List.mem_cons_of_mem _ h)) op hop
        exact hheld (Finset.mem_of_mem_insert_of_ne hmem hne)
    | .lock (.release k'), hg, hacq, hop =>
      rcases List.mem_cons.mp hop with rfl | hop
      · trivial
      · exact ih hg (fun h => hheld (Finset.mem_of_mem_erase h))
          (fun h => hacq (List.mem_cons_of_mem _ h)) op hop
    | .access k' f, hg, hacq, hop =>
      rcases List.mem_cons.mp hop with rfl | hop
      · rintro rfl
        rcases hg.1 with ⟨-, hmem, -⟩ | ⟨-, hsame⟩
        · exact absurd hmem hheld
        · exact hsame hk
      · exact ih hg.2 hheld hacq op hop

end

/-! ### Programs run alone -/

@[simp] theorem execOps_nil (s : D × (K → V)) : execOps s [] = s := rfl

@[simp] theorem execOps_append (s : D × (K → V)) (p q : List (DataOp K V D)) :
    execOps s (p ++ q) = execOps (execOps s p) q := List.foldl_append

theorem DataOp.Leaves.exec {k : K} {op : DataOp K V D} (h : op.Leaves k) (s : D × (K → V)) :
    (op.exec s).2 k = s.2 k := by
  cases op with
  | lock op => rfl
  | access k' f =>
    rcases eq_or_ne k k' with rfl | hne
    · exact (Function.update_self ..).trans (h rfl _ _)
    · exact Function.update_of_ne hne ..

theorem execOps_leaves {k : K} {ops : List (DataOp K V D)} (h : ∀ op ∈ ops, op.Leaves k) :
    ∀ s : D × (K → V), (execOps s ops).2 k = s.2 k := by
  induction ops with
  | nil => exact fun s => rfl
  | cons op ops ih =>
    intro s
    calc (execOps (op.exec s) ops).2 k
        = (op.exec s).2 k := ih (fun op' h' => h op' (List.mem_cons_of_mem _ h')) _
      _ = s.2 k := (h op List.mem_cons_self).exec s

/-- Threads that leave a cell alone are not seen in it. -/
theorem serialMemory_leaves {programs : ℕ → List (DataOp K V D)} {d₀ : ℕ → D} {m₀ : K → V} {k : K}
    {a n : ℕ} (han : a ≤ n) (h : ∀ y, a ≤ y → y < n → ∀ op ∈ programs y, op.Leaves k) :
    serialMemory programs d₀ m₀ n k = serialMemory programs d₀ m₀ a k := by
  induction n, han using Nat.le_induction with
  | base => rfl
  | succ n han ih =>
    calc serialMemory programs d₀ m₀ (n + 1) k
        = serialMemory programs d₀ m₀ n k := execOps_leaves (h n han (Nat.lt_succ_self n)) _
      _ = serialMemory programs d₀ m₀ a k := ih fun y hy hlt => h y hy (hlt.trans (Nat.lt_succ_self n))

/-! ### What a step does to the locks -/

/-- The locks a thread holds after a lock operation. -/
def LockOp.held : LockOp K → Finset K → Finset K
  | .acquire k, held => insert k held
  | .release k, held => held.erase k

@[simp] theorem grant_threads_self (b : LockState K) (x : ℕ) (k : K) (t : LockThread K) :
    (b.grant x k t).threads x = t := Function.update_self ..

omit [DecidableEq K] in
@[simp] theorem setThread_threads_self (b : LockState K) (x : ℕ) (t : LockThread K) :
    (b.setThread x t).threads x = t := Function.update_self ..

@[simp] theorem serve_threads_self (b : LockState K) (x : ℕ) (k : K) (t : LockThread K) :
    (b.serve x k t).threads x = t := Function.update_self ..

section
variable {Q : K → List ℕ} {b b' : LockState K} {x : ℕ}

theorem lockStep_other (h : LockStep Q x b b') {y : ℕ} (hy : y ≠ x) : b'.threads y = b.threads y := by
  cases h <;> exact Function.update_of_ne hy ..

theorem lockStep_op (h : LockStep Q x b b') (hp : (b.threads x).passing = none) {op : LockOp K}
    {rest : List (LockOp K)} (hr : (b.threads x).rest = op :: rest) :
    (b'.threads x).rest = rest ∧ (b'.threads x).held = op.held (b.threads x).held := by
  cases h with
  | acquire hx _ =>
    rw [hx] at hr
    obtain ⟨rfl, rfl⟩ := List.cons.inj hr
    rw [grant_threads_self, hx]
    exact ⟨rfl, rfl⟩
  | release hx =>
    rw [hx] at hr
    obtain ⟨rfl, rfl⟩ := List.cons.inj hr
    rw [setThread_threads_self, hx]
    exact ⟨rfl, rfl⟩
  | pass hx =>
    rw [hx] at hp
    cases hp

theorem lockStep_pass (h : LockStep Q x b b') (hp : (b.threads x).passing ≠ none) :
    (b'.threads x).rest = (b.threads x).rest ∧ (b'.threads x).held = (b.threads x).held := by
  cases h with
  | acquire hx _ => exact absurd (congrArg LockThread.passing hx) hp
  | release hx => exact absurd (congrArg LockThread.passing hx) hp
  | pass hx =>
    rw [serve_threads_self, hx]
    exact ⟨rfl, rfl⟩

/-- What a lock was granted to stays granted. -/
theorem lockStep_count_le (h : LockStep Q x b b') (y : ℕ) (k : K) :
    (b.grants k).count y ≤ (b'.grants k).count y := by
  cases h with
  | @acquire k' rest held hx _ =>
    rcases eq_or_ne k k' with rfl | hne
    · rw [grant_self, List.count_append]
      exact Nat.le_add_right ..
    · rw [grant_of_ne b x hne]
  | release hx => exact le_rfl
  | pass hx => exact le_rfl

/-- A lock that is held was granted to its holder. -/
theorem LockInv.granted_holder (hi : LockInv Q b) {k : K} (hx : k ∈ (b.threads x).held) :
    x ∈ b.grants k := by
  rcases hi.key k with ⟨-, -, hfree⟩ | ⟨w, hw, hg, -, honly⟩ | ⟨w, -, -, -, honly⟩
  · exact absurd hx (hfree x).1
  · obtain rfl : x = w := (honly x).1 hx
    rw [hg, List.take_add_one, hw]
    exact List.mem_append_right _ List.mem_cons_self
  · exact absurd hx (honly x).1

variable (hi : LockInv Q b) (hsorted : ∀ k, (Q k).Pairwise (· ≤ ·))
include hi hsorted

/-- When `x` holds a lock, no thread before it has anything to do with the lock any more. -/
theorem LockInv.before_holder {k : K} (hx : k ∈ (b.threads x).held) {y : ℕ} (hy : y < x) :
    k ∉ (b.threads y).held ∧ .acquire k ∉ (b.threads y).rest := by
  refine ⟨fun hk => hy.ne (hi.exclusive hk hx), fun hacq => ?_⟩
  rcases hi.key k with ⟨-, -, hfree⟩ | ⟨z, hz, hg, -, honly⟩ | ⟨z, -, -, -, honly⟩
  · exact (hfree x).1 hx
  · obtain rfl : x = z := (honly x).1 hx
    have hmem := hi.waiting hg hacq
    rw [← List.drop_drop] at hmem
    exact absurd (le_of_mem_drop (hsorted k) hz (List.mem_of_mem_drop hmem)) (Nat.not_le.mpr hy)
  · exact (honly x).1 hx

/-- And to none behind it was the lock granted so far. -/
theorem LockInv.behind_holder {k : K} (hx : k ∈ (b.threads x).held) {z : ℕ} (hz : x < z) :
    (b.grants k).count z = 0 := by
  rcases hi.key k with ⟨-, -, hfree⟩ | ⟨w, hw, hg, -, honly⟩ | ⟨w, -, -, -, honly⟩
  · exact absurd hx (hfree x).1
  · obtain rfl : x = w := (honly x).1 hx
    rw [hg]
    refine List.count_eq_zero.mpr fun hmem => ?_
    have hdrop : x ∈ (Q k).drop (b.served k) := by
      obtain ⟨hlt, rfl⟩ := List.getElem?_eq_some_iff.mp hw
      rw [List.drop_eq_getElem_cons hlt]
      exact List.mem_cons_self
    rw [List.take_add_one, hw] at hmem
    rcases List.mem_append.mp hmem with hmem | hmem
    · have hpair := hsorted k
      rw [← List.take_append_drop (b.served k) (Q k)] at hpair
      exact absurd ((List.pairwise_append.mp hpair).2.2 z hmem x hdrop) (Nat.not_le.mpr hz)
    · exact absurd (List.mem_singleton.mp hmem) hz.ne'
  · exact absurd hx (honly x).1

end

/-! ### The invariant -/

/-- What was done and what is left of every program, and how far the memory agrees with the serial
    one. `done` is known to the proof only. -/
structure DataInv (Q : K → List ℕ) (S : K → Prop) (R : ℕ → D → D → Prop)
    (programs : ℕ → List (DataOp K V D)) (d₀ : ℕ → D) (m₀ : K → V) (s : DataState K V D)
    (done : ℕ → List (DataOp K V D)) : Prop where
  lock : LockInv Q s.base
  rest : ∀ x, (s.base.threads x).rest = locksOf (s.todo x)
  guarded : ∀ x, Guarded S (R x) (s.base.threads x).held (s.todo x)
  split : ∀ x, done x ++ s.todo x = programs x
  /-- A cell is left alone until its lock is granted. -/
  ungranted : ∀ x k, S k → (s.base.grants k).count x = 0 → ∀ op ∈ done x, op.Leaves k
  data : ∀ x, R x (s.data x) (execOps (d₀ x, serialMemory programs d₀ m₀ x) (done x)).1
  /-- Where nobody before `n` has anything left to do with a cell, and nobody behind `n` has done
      anything to it, it holds what thread `n` has made of it. -/
  mem : ∀ k n, S k → (∀ y < n, ∀ op ∈ s.todo y, op.Leaves k) →
    (∀ y, n < y → ∀ op ∈ done y, op.Leaves k) →
    s.mem k = (execOps (d₀ n, serialMemory programs d₀ m₀ n) (done n)).2 k

section
variable {Q : K → List ℕ} {S : K → Prop} {R : ℕ → D → D → Prop} {programs : ℕ → List (DataOp K V D)}
  {d₀ : ℕ → D} {m₀ : K → V} {s : DataState K V D} {done : ℕ → List (DataOp K V D)} {x : ℕ}

theorem dataInv_start {b : LockState K} (hR : ∀ x d, R x d d) (hb : LockInv Q b)
    (hrest : ∀ x, (b.threads x).rest = locksOf (programs x)) (hheld : ∀ x, (b.threads x).held = ∅)
    (hg : ∀ x, Guarded S (R x) ∅ (programs x)) :
    DataInv Q S R programs d₀ m₀ ⟨b, programs, d₀, m₀⟩ fun _ => [] where
  lock := hb
  rest := hrest
  guarded x := by
    simp only [hheld]
    exact hg x
  split _ := rfl
  ungranted _ _ _ _ _ hop := nomatch hop
  data x := hR x _
  mem _ n _ hbefore _ :=
    (serialMemory_leaves (Nat.zero_le n) fun y _ hy => hbefore y hy).symm

/-- A thread that holds the lock of a cell finds in it what the serial run has there. -/
theorem DataInv.holder (h : DataInv Q S R programs d₀ m₀ s done)
    (hsorted : ∀ k, (Q k).Pairwise (· ≤ ·)) {k : K} (hk : S k) (hx : k ∈ (s.base.threads x).held) :
    (∀ y < x, ∀ op ∈ s.todo y, op.Leaves k) ∧ (∀ y, x < y → ∀ op ∈ done y, op.Leaves k) := by
  refine ⟨fun y hy => ?_, fun y hy => ?_⟩
  · obtain ⟨hheld, hacq⟩ := h.lock.before_holder hsorted hx hy
    rw [h.rest] at hacq
    exact (h.guarded y).leaves hk hheld hacq
  · exact h.ungranted y k hk (h.lock.behind_holder hsorted hx hy)

omit [DecidableEq K] in
/-- A step that moves an operation from `todo` to `done` keeps the programs. -/
theorem split_step (h : ∀ y, done y ++ s.todo y = programs y) {op : DataOp K V D}
    {rest : List (DataOp K V D)} (hx : s.todo x = op :: rest) (y : ℕ) :
    Function.update done x (done x ++ [op]) y ++ Function.update s.todo x rest y = programs y := by
  rcases eq_or_ne y x with rfl | hne
  · rw [Function.update_self, Function.update_self, List.append_assoc, List.singleton_append, ← hx]
    exact h y
  · rw [Function.update_of_ne hne, Function.update_of_ne hne]
    exact h y

omit [DecidableEq K] in
/-- An operation that leaves the cell alone may stand on either side. -/
theorem leaves_todo {k : K} {op : DataOp K V D} {rest : List (DataOp K V D)} {todo : ℕ → List (DataOp K V D)}
    (hx : todo x = op :: rest) (hop : op.Leaves k) {y : ℕ}
    (hy : ∀ o ∈ Function.update todo x rest y, o.Leaves k) : ∀ o ∈ todo y, o.Leaves k := by
  intro o ho
  rcases eq_or_ne y x with rfl | hne
  · rw [hx] at ho
    rcases List.mem_cons.mp ho with rfl | ho
    · exact hop
    · exact hy o (by rwa [Function.update_self])
  · exact hy o (by rwa [Function.update_of_ne hne])

omit [DecidableEq K] in
theorem leaves_done {k : K} {op : DataOp K V D} {y : ℕ}
    (hy : ∀ o ∈ Function.update done x (done x ++ [op]) y, o.Leaves k) : ∀ o ∈ done y, o.Leaves k := by
  intro o ho
  rcases eq_or_ne y x with rfl | hne
  · exact hy o (by rw [Function.update_self]; exact List.mem_append_left _ ho)
  · exact hy o (by rwa [Function.update_of_ne hne])

/-- The memory clause for cells that the operation leaves alone. -/
theorem DataInv.mem_frame (h : DataInv Q S R programs d₀ m₀ s done) {op : DataOp K V D}
    {rest : List (DataOp K V D)} (hx : s.todo x = op :: rest) {k : K} (hk : S k) (hop : op.Leaves k) {n : ℕ}
    (hbefore : ∀ y < n, ∀ o ∈ Function.update s.todo x rest y, o.Leaves k)
    (hbehind : ∀ y, n < y → ∀ o ∈ Function.update done x (done x ++ [op]) y, o.Leaves k) :
    s.mem k = (execOps (d₀ n, serialMemory programs d₀ m₀ n)
      (Function.update done x (done x ++ [op]) n)).2 k := by
  have hmem := h.mem k n hk (fun y hy => leaves_todo hx hop (hbefore y hy))
    fun y hy => leaves_done (hbehind y hy)
  rcases eq_or_ne n x with rfl | hne
  · rw [Function.update_self, execOps_append, hmem]
    exact (hop.exec _).symm
  · rw [Function.update_of_ne hne]
    exact hmem

/-- The data clause for the other threads. -/
theorem DataInv.data_frame (h : DataInv Q S R programs d₀ m₀ s done) {op : DataOp K V D} {y : ℕ} (hy : y ≠ x) :
    R y (s.data y) (execOps (d₀ y, serialMemory programs d₀ m₀ y)
      (Function.update done x (done x ++ [op]) y)).1 := by
  rw [Function.update_of_ne hy]
  exact h.data y

theorem DataInv.stepLock (h : DataInv Q S R programs d₀ m₀ s done) {op : LockOp K}
    {rest : List (DataOp K V D)} {b : LockState K} (hx : s.todo x = .lock op :: rest)
    (hp : (s.base.threads x).passing = none) (hst : LockStep Q x s.base b) :
    DataInv Q S R programs d₀ m₀ { s with base := b, todo := Function.update s.todo x rest }
      (Function.update done x (done x ++ [.lock op])) := by
  have hr : (s.base.threads x).rest = op :: locksOf rest := by
    rw [h.rest, hx]
    rfl
  obtain ⟨hrest, hheld⟩ := lockStep_op hst hp hr
  refine ⟨h.lock.step hst, fun y => ?_, fun y => ?_, split_step h.split hx, fun y k hk hc => ?_,
    fun y => ?_, fun k n hk hbefore hbehind => h.mem_frame hx hk trivial hbefore hbehind⟩
  · rcases eq_or_ne y x with rfl | hne
    · simp only [Function.update_self]
      exact hrest
    · simp only [Function.update_of_ne hne, lockStep_other hst hne]
      exact h.rest y
  · rcases eq_or_ne y x with rfl | hne
    · have hgy := h.guarded y
      rw [hx] at hgy
      simp only [Function.update_self, hheld]
      cases op with
      | acquire k => exact hgy
      | release k => exact hgy
    · simp only [Function.update_of_ne hne, lockStep_other hst hne]
      exact h.guarded y
  · have hdone := h.ungranted y k hk (Nat.le_zero.mp (hc ▸ lockStep_count_le hst y k))
    rcases eq_or_ne y x with rfl | hne
    · rw [Function.update_self]
      intro o ho
      rcases List.mem_append.mp ho with ho | ho
      · exact hdone o ho
      · rw [List.mem_singleton.mp ho]
        trivial
    · rw [Function.update_of_ne hne]
      exact hdone
  · rcases eq_or_ne y x with rfl | hne
    · rw [Function.update_self, execOps_append]
      exact h.data y
    · exact h.data_frame hne

theorem DataInv.stepPass (h : DataInv Q S R programs d₀ m₀ s done) {b : LockState K}
    (hp : (s.base.threads x).passing ≠ none) (hst : LockStep Q x s.base b) :
    DataInv Q S R programs d₀ m₀ { s with base := b } done := by
  obtain ⟨hrest, hheld⟩ := lockStep_pass hst hp
  refine ⟨h.lock.step hst, fun y => ?_, fun y => ?_, h.split, fun y k hk hc => ?_, h.data, h.mem⟩
  · rcases eq_or_ne y x with rfl | hne
    · exact hrest.trans (h.rest y)
    · rw [lockStep_other hst hne]
      exact h.rest y
  · rcases eq_or_ne y x with rfl | hne
    · rw [hheld]
      exact h.guarded y
    · rw [lockStep_other hst hne]
      exact h.guarded y
  · exact h.ungranted y k hk (Nat.le_zero.mp (hc ▸ lockStep_count_le hst y k))

/-- The memory clause for the cell that its holder has changed. -/
theorem DataInv.mem_own (h : DataInv Q S R programs d₀ m₀ s done)
    (hsorted : ∀ k, (Q k).Pairwise (· ≤ ·)) {k : K} {f : D → V → D × V} {rest : List (DataOp K V D)}
    (hx : s.todo x = .access k f :: rest) (hk : S k) (hheld : k ∈ (s.base.threads x).held)
    (hf : Respects (R x) f) (hop : ¬ (DataOp.access k f).Leaves k) {n : ℕ}
    (hbefore : ∀ y < n, ∀ o ∈ Function.update s.todo x rest y, o.Leaves k)
    (hbehind : ∀ y, n < y → ∀ o ∈ Function.update done x (done x ++ [.access k f]) y, o.Leaves k) :
    (f (s.data x) (s.mem k)).2 = (execOps (d₀ n, serialMemory programs d₀ m₀ n)
      (Function.update done x (done x ++ [.access k f]) n)).2 k := by
  obtain ⟨hearlier, hlater⟩ := h.holder hsorted hk hheld
  -- what the holder leaves in the cell is what its serial run has there at this point
  have hown : (f (s.data x) (s.mem k)).2 =
      (execOps (d₀ x, serialMemory programs d₀ m₀ x) (done x ++ [.access k f])).2 k := by
    have hmem := h.mem k x hk hearlier hlater
    have hres := (hf _ _ (s.mem k) (h.data x)).2
    rw [execOps_append, hres, hmem]
    exact (Function.update_self (f := (execOps _ (done x)).2) k _).symm
  have hle : x ≤ n := by
    by_contra hlt
    refine hop (hbehind x (Nat.not_le.mp hlt) _ ?_)
    rw [Function.update_self]
    exact List.mem_append_right _ List.mem_cons_self
  rcases hle.eq_or_lt with rfl | hlt
  · rw [Function.update_self]
    exact hown
  · -- nobody from here to `n` has to do with the cell
    have hrest : ∀ o ∈ rest, o.Leaves k := fun o ho => hbefore x hlt o (by rwa [Function.update_self])
    have hwhole : programs x = (done x ++ [.access k f]) ++ rest := by
      rw [← h.split x, hx, List.append_assoc]
      rfl
    have hidle : ∀ y, x + 1 ≤ y → y < n → ∀ o ∈ programs y, o.Leaves k := by
      intro y hxy hyn o ho
      rw [← h.split y] at ho
      rcases List.mem_append.mp ho with ho | ho
      · exact hlater y hxy o ho
      · exact hbefore y hyn o (by rwa [Function.update_of_ne (by omega)])
    calc (f (s.data x) (s.mem k)).2
        = (execOps (d₀ x, serialMemory programs d₀ m₀ x) (done x ++ [.access k f])).2 k := hown
      _ = serialMemory programs d₀ m₀ (x + 1) k := by
        rw [serialMemory, hwhole, execOps_append _ (done x ++ _), execOps_leaves hrest]
      _ = serialMemory programs d₀ m₀ n k := (serialMemory_leaves hlt hidle).symm
      _ = (execOps (d₀ n, serialMemory programs d₀ m₀ n)
            (Function.update done x (done x ++ [.access k f]) n)).2 k := by
        rw [Function.update_of_ne hlt.ne', execOps_leaves (hlater n hlt)]

theorem DataInv.stepAccess (h : DataInv Q S R programs d₀ m₀ s done)
    (hsorted : ∀ k, (Q k).Pairwise (· ≤ ·)) {k : K} {f : D → V → D × V} {rest : List (DataOp K V D)}
    (hx : s.todo x = .access k f :: rest) :
    DataInv Q S R programs d₀ m₀
      { s with
        todo := Function.update s.todo x rest
        data := Function.update s.data x (f (s.data x) (s.mem k)).1
        mem := Function.update s.mem k (f (s.data x) (s.mem k)).2 }
      (Function.update done x (done x ++ [.access k f])) := by
  have hgx := h.guarded x
  rw [hx] at hgx
  obtain ⟨haccess, hgrest⟩ := hgx
  refine ⟨h.lock, fun y => ?_, fun y => ?_, split_step h.split hx, fun y k' hk' hc => ?_, fun y => ?_,
    fun k' n hk' hbefore hbehind => ?_⟩
  · rcases eq_or_ne y x with rfl | hne
    · simp only [Function.update_self, h.rest, hx]
      rfl
    · simp only [Function.update_of_ne hne]
      exact h.rest y
  · rcases eq_or_ne y x with rfl | hne
    · simp only [Function.update_self]
      exact hgrest
    · simp only [Function.update_of_ne hne]
      exact h.guarded y
  · have hdone := h.ungranted y k' hk' hc
    rcases eq_or_ne y x with rfl | hne
    · rw [Function.update_self]
      intro o ho
      rcases List.mem_append.mp ho with ho | ho
      · exact hdone o ho
      · rw [List.mem_singleton.mp ho]
        rintro rfl
        rcases haccess with ⟨-, hheld, -⟩ | ⟨-, hsame⟩
        · exact absurd hc (List.count_pos_iff.mpr (h.lock.granted_holder hheld)).ne'
        · exact hsame hk'
    · rw [Function.update_of_ne hne]
      exact hdone
  · rcases eq_or_ne y x with rfl | hne
    · simp only [Function.update_self, execOps_append]
      rcases haccess with ⟨hk, hheld, hf⟩ | ⟨hf, -⟩
      · obtain ⟨hearlier, hlater⟩ := h.holder hsorted hk hheld
        rw [h.mem k y hk hearlier hlater]
        exact (hf _ _ _ (h.data y)).1
      · exact hf _ _ _ _ (h.data y)
    · have hsame : Function.update s.data x (f (s.data x) (s.mem k)).1 y = s.data y :=
        Function.update_of_ne hne ..
      simp only [hsame]
      exact h.data_frame hne
  · by_cases hop : (DataOp.access k f).Leaves k'
    · have hsame : Function.update s.mem k (f (s.data x) (s.mem k)).2 k' = s.mem k' := by
        rcases eq_or_ne k' k with rfl | hne
        · rw [Function.update_self]
          exact hop rfl _ _
        · exact Function.update_of_ne hne ..
      refine hsame.trans ?_
      exact h.mem_frame hx hk' hop hbefore hbehind
    · obtain rfl : k = k' := by
        by_contra hne
        exact hop fun he => absurd he hne
      rcases haccess with ⟨hk, hheld, hf⟩ | ⟨-, hsame⟩
      · refine (Function.update_self ..).trans ?_
        exact h.mem_own hsorted hx hk hheld hf hop hbefore hbehind
      · exact absurd (fun _ => hsame hk') hop

/-- A step keeps the invariant. -/
theorem DataInv.step (h : DataInv Q S R programs d₀ m₀ s done) (hsorted : ∀ k, (Q k).Pairwise (· ≤ ·))
    {s' : DataState K V D} (hst : DataStep Q x s s') :
    ∃ done', DataInv Q S R programs d₀ m₀ s' done' := by
  cases hst with
  | lock hx hp hb => exact ⟨_, h.stepLock hx hp hb⟩
  | pass hp hb => exact ⟨_, h.stepPass hp hb⟩
  | access hx _ => exact ⟨_, h.stepAccess hsorted hx⟩

/-- When everything has been done, the guarded cells are those of the serial run. -/
theorem DataInv.final (h : DataInv Q S R programs d₀ m₀ s done) (hdone : ∀ x, s.todo x = []) {n : ℕ}
    (hn : ∀ x, n ≤ x → programs x = []) {k : K} (hk : S k) :
    s.mem k = serialMemory programs d₀ m₀ n k := by
  have hempty : ∀ y, n ≤ y → done y = [] := fun y hy =>
    (List.append_eq_nil_iff.mp ((h.split y).trans (hn y hy))).1
  have hmem := h.mem k n hk (fun y _ o ho => absurd ho (by rw [hdone]; exact List.not_mem_nil))
    fun y hy o ho => absurd ho (by rw [hempty y hy.le]; exact List.not_mem_nil)
  rwa [hempty n le_rfl] at hmem

end

end Egad.Lib
