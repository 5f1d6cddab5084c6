import Egad.Lib.Runs
import Mathlib.Data.Finset.Basic
import Mathlib.Data.List.Count

/-! # Locks with a queue of their owners laid out in advance

    Every key has a queue of threads. A thread gets the lock of a key when the key's queue stands at
    it; giving the lock back takes two steps, and the second one moves the queue on.

        queue k      3   3   5   8
                         ^ served
        thread 3     … acquire k … release k | pass …

    If the threads' programs are well bracketed and acquire a key exactly as often as they stand in
    its queue, the locks are granted in queue order to one thread at a time; and if the queues are
    sorted, the smallest unfinished thread can always go on. -/

namespace Egad.Lib
open Relation

inductive LockOp (K : Type*) where
  | acquire (k : K)
  | release (k : K)
deriving DecidableEq

variable {K : Type*} [DecidableEq K]

/-- Where a thread stands: what is left of its program, the locks it holds, and the lock it has begun
    to give back. -/
structure LockThread (K : Type*) where
  rest : List (LockOp K)
  held : Finset K
  passing : Option K

structure LockState (K : Type*) where
  threads : ℕ → LockThread K
  served : K → ℕ
  /-- The threads the lock was granted to so far. -/
  grants : K → List ℕ

def LockThread.Finished (t : LockThread K) : Prop := t.rest = [] ∧ t.passing = none

/-- The state after thread `x` changed to `t`. -/
def LockState.setThread (s : LockState K) (x : ℕ) (t : LockThread K) : LockState K :=
  { s with threads := Function.update s.threads x t }

/-- The same, and the lock of `k` is granted to `x`. -/
def LockState.grant (s : LockState K) (x : ℕ) (k : K) (t : LockThread K) : LockState K where
  threads := Function.update s.threads x t
  served := s.served
  grants := Function.update s.grants k (s.grants k ++ [x])

/-- The same, and the queue of `k` moves on. -/
def LockState.serve (s : LockState K) (x : ℕ) (k : K) (t : LockThread K) : LockState K where
  threads := Function.update s.threads x t
  served := Function.update s.served k (s.served k + 1)
  grants := s.grants

theorem grant_self (s : LockState K) (x : ℕ) (k : K) (t : LockThread K) :
    (s.grant x k t).grants k = s.grants k ++ [x] := Function.update_self ..

theorem grant_of_ne (s : LockState K) (x : ℕ) {k k' : K} (h : k' ≠ k) (t : LockThread K) :
    (s.grant x k t).grants k' = s.grants k' := Function.update_of_ne h ..

theorem serve_self (s : LockState K) (x : ℕ) (k : K) (t : LockThread K) :
    (s.serve x k t).served k = s.served k + 1 := Function.update_self ..

/-- A step of thread `x`. -/
inductive LockStep (Q : K → List ℕ) (x : ℕ) : LockState K → LockState K → Prop
  | acquire {s : LockState K} {k : K} {rest : List (LockOp K)} {held : Finset K} :
    s.threads x = ⟨.acquire k :: rest, held, none⟩ → (Q k)[s.served k]? = some x →
    LockStep Q x s (s.grant x k ⟨rest, insert k held, none⟩)
  | release {s : LockState K} {k : K} {rest : List (LockOp K)} {held : Finset K} :
    s.threads x = ⟨.release k :: rest, held, none⟩ →
    LockStep Q x s (s.setThread x ⟨rest, held.erase k, some k⟩)
  | pass {s : LockState K} {k : K} {rest : List (LockOp K)} {held : Finset K} :
    s.threads x = ⟨rest, held, some k⟩ →
    LockStep Q x s (s.serve x k ⟨rest, held, none⟩)

/-! ### Programs -/

/-- A program that starts with the locks `held`, acquires none twice, releases only what it holds and
    ends with nothing. -/
def Bracketed : Finset K → List (LockOp K) → Prop
  | held, [] => held = ∅
  | held, .acquire k :: rest => k ∉ held ∧ Bracketed (insert k held) rest
  | held, .release k :: rest => k ∈ held ∧ Bracketed (held.erase k) rest

theorem Bracketed.append {p q : List (LockOp K)} (hq : Bracketed ∅ q) :
    ∀ {held : Finset K}, Bracketed held p → Bracketed held (p ++ q) := by
  induction p with
  | nil =>
    rintro held rfl
    exact hq
  | cons op p ih =>
    intro held hp
    cases op with
    | acquire k => exact ⟨hp.1, ih hp.2⟩
    | release k => exact ⟨hp.1, ih hp.2⟩

theorem Bracketed.flatMap {α : Type*} {f : α → List (LockOp K)} (hf : ∀ a, Bracketed ∅ (f a))
    (l : List α) : Bracketed ∅ (l.flatMap f) := by
  induction l with
  | nil => rfl
  | cons a l ih =>
    rw [List.flatMap_cons]
    exact Bracketed.append ih (hf a)

/-! ### The invariant -/

/-- The lock of a key: free, held by the thread its queue stands at, or on its way to the next. -/
inductive KeyState (Q : K → List ℕ) (s : LockState K) (k : K) : Prop
  | free : s.served k ≤ (Q k).length → s.grants k = (Q k).take (s.served k) →
    (∀ y, k ∉ (s.threads y).held ∧ (s.threads y).passing ≠ some k) → KeyState Q s k
  | held (x : ℕ) : (Q k)[s.served k]? = some x → s.grants k = (Q k).take (s.served k + 1) →
    k ∈ (s.threads x).held →
    (∀ y, (k ∈ (s.threads y).held → y = x) ∧ (s.threads y).passing ≠ some k) → KeyState Q s k
  | passing (x : ℕ) : (Q k)[s.served k]? = some x → s.grants k = (Q k).take (s.served k + 1) →
    (s.threads x).passing = some k →
    (∀ y, k ∉ (s.threads y).held ∧ ((s.threads y).passing = some k → y = x)) → KeyState Q s k

structure LockInv (Q : K → List ℕ) (s : LockState K) : Prop where
  key : ∀ k, KeyState Q s k
  bracketed : ∀ x, Bracketed (s.threads x).held (s.threads x).rest
  count : ∀ x k, (s.grants k).count x + (s.threads x).rest.count (.acquire k) = (Q k).count x

/-- The state in which every thread has its whole program to do. -/
def LockState.start (programs : ℕ → List (LockOp K)) : LockState K :=
  ⟨fun x => ⟨programs x, ∅, none⟩, fun _ => 0, fun _ => []⟩

theorem lockInv_start {Q : K → List ℕ} {programs : ℕ → List (LockOp K)}
    (hb : ∀ x, Bracketed ∅ (programs x))
    (hc : ∀ x k, (programs x).count (.acquire k) = (Q k).count x) :
    LockInv Q (.start programs) where
  key k := .free (Nat.zero_le _) rfl fun _ => ⟨Finset.notMem_empty k, fun h => nomatch h⟩
  bracketed := hb
  count x k := by
    rw [← hc x k]
    exact Nat.zero_add _

section
variable {Q : K → List ℕ} {s s' : LockState K} {x : ℕ}

/-- A thread about to acquire a key at which the queue stands finds it free. -/
theorem LockInv.free_of_acquire (h : LockInv Q s) {k : K} {rest : List (LockOp K)} {held : Finset K}
    (hx : s.threads x = ⟨.acquire k :: rest, held, none⟩) (hq : (Q k)[s.served k]? = some x) :
    s.grants k = (Q k).take (s.served k) ∧
      ∀ y, k ∉ (s.threads y).held ∧ (s.threads y).passing ≠ some k := by
  have hb := h.bracketed x
  rw [hx] at hb
  rcases h.key k with ⟨-, hg, hfree⟩ | ⟨y, hy, -, hheld, -⟩ | ⟨y, hy, -, hpass, -⟩
  · exact ⟨hg, hfree⟩
  · obtain rfl : y = x := Option.some.inj (hy.symm.trans hq)
    rw [hx] at hheld
    exact absurd hheld hb.1
  · obtain rfl : y = x := Option.some.inj (hy.symm.trans hq)
    rw [hx] at hpass
    cases hpass

/-- A thread about to release a key holds it, and nobody else has to do with it. -/
theorem LockInv.held_of_release (h : LockInv Q s) {k : K} {rest : List (LockOp K)} {held : Finset K}
    (hx : s.threads x = ⟨.release k :: rest, held, none⟩) :
    (Q k)[s.served k]? = some x ∧ s.grants k = (Q k).take (s.served k + 1) ∧
      ∀ y, (k ∈ (s.threads y).held → y = x) ∧ (s.threads y).passing ≠ some k := by
  have hheld : k ∈ (s.threads x).held := by
    have hb := h.bracketed x
    rw [hx] at hb ⊢
    exact hb.1
  rcases h.key k with ⟨-, -, hfree⟩ | ⟨z, hz, hg, -, honly⟩ | ⟨z, -, -, -, honly⟩
  · exact absurd hheld (hfree x).1
  · obtain rfl : x = z := (honly x).1 hheld
    exact ⟨hz, hg, honly⟩
  · exact absurd hheld (honly x).1

/-- A thread inside a release is the one the queue still stands at. -/
theorem LockInv.passing_only (h : LockInv Q s) {k : K} (hx : (s.threads x).passing = some k) :
    (Q k)[s.served k]? = some x ∧ s.grants k = (Q k).take (s.served k + 1) ∧
      ∀ y, k ∉ (s.threads y).held ∧ ((s.threads y).passing = some k → y = x) := by
  rcases h.key k with ⟨-, -, hfree⟩ | ⟨z, -, -, -, honly⟩ | ⟨z, hz, hg, -, honly⟩
  · exact absurd hx (hfree x).2
  · exact absurd hx (honly x).2
  · obtain rfl : x = z := (honly x).2 hx
    exact ⟨hz, hg, honly⟩

omit [DecidableEq K] in
/-- What a key's state says stays when neither the key's queue nor a thread's relation to the key
    changes. -/
theorem KeyState.frame {k : K} (h : KeyState Q s k) (hs : s'.served k = s.served k)
    (hg : s'.grants k = s.grants k)
    (hheld : ∀ y, k ∈ (s'.threads y).held ↔ k ∈ (s.threads y).held)
    (hpass : ∀ y, (s'.threads y).passing = some k ↔ (s.threads y).passing = some k) :
    KeyState Q s' k := by
  rcases h with ⟨hle, hgr, hfree⟩ | ⟨x, hx, hgr, hk, honly⟩ | ⟨x, hx, hgr, hk, honly⟩
  · refine .free (hs ▸ hle) (by rw [hg, hgr, hs]) fun y => ⟨?_, ?_⟩
    · exact fun hy => (hfree y).1 ((hheld y).mp hy)
    · exact fun hy => (hfree y).2 ((hpass y).mp hy)
  · refine .held x (hs ▸ hx) (by rw [hg, hgr, hs]) ((hheld x).mpr hk) fun y => ⟨?_, ?_⟩
    · exact fun hy => (honly y).1 ((hheld y).mp hy)
    · exact fun hy => (honly y).2 ((hpass y).mp hy)
  · refine .passing x (hs ▸ hx) (by rw [hg, hgr, hs]) ((hpass x).mpr hk) fun y => ⟨?_, ?_⟩
    · exact fun hy => (honly y).1 ((hheld y).mp hy)
    · exact fun hy => (honly y).2 ((hpass y).mp hy)

theorem LockInv.acquire (h : LockInv Q s) {k : K} {rest : List (LockOp K)} {held : Finset K}
    (hx : s.threads x = ⟨.acquire k :: rest, held, none⟩) (hq : (Q k)[s.served k]? = some x) :
    LockInv Q (s.grant x k ⟨rest, insert k held, none⟩) := by
  have hself : (s.grant x k ⟨rest, insert k held, none⟩).threads x = ⟨rest, insert k held, none⟩ := Function.update_self ..
  have hother : ∀ {y}, y ≠ x → (s.grant x k ⟨rest, insert k held, none⟩).threads y = s.threads y :=
    fun hy => Function.update_of_ne hy ..
  obtain ⟨hg, hfree⟩ := h.free_of_acquire hx hq
  have hb := h.bracketed x
  rw [hx] at hb
  refine ⟨fun k' => ?_, fun y => ?_, fun y k' => ?_⟩
  · rcases eq_or_ne k' k with rfl | hne
    · refine .held x hq ?_ ?_ fun y => ⟨fun hy => ?_, ?_⟩
      · have hnext : (Q k').take (s.served k' + 1) = (Q k').take (s.served k') ++ [x] := by
          rw [List.take_add_one, hq]
          rfl
        rw [grant_self, hg]
        exact hnext.symm
      · rw [hself]
        exact Finset.mem_insert_self k' held
      · by_contra hyx
        rw [hother hyx] at hy
        exact (hfree y).1 hy
      · rcases eq_or_ne y x with rfl | hyx
        · rw [hself]
          exact fun hn => nomatch hn
        · rw [hother hyx]
          exact (hfree y).2
    · refine (h.key k').frame rfl (Function.update_of_ne hne ..) (fun y => ?_) fun y => ?_
      · rcases eq_or_ne y x with rfl | hyx
        · rw [hself, hx]
          exact ⟨fun hm => Finset.mem_of_mem_insert_of_ne hm hne, fun hm => Finset.mem_insert_of_mem hm⟩
        · rw [hother hyx]
      · rcases eq_or_ne y x with rfl | hyx
        · rw [hself, hx]
        · rw [hother hyx]
  · rcases eq_or_ne y x with rfl | hyx
    · rw [hself]
      exact hb.2
    · rw [hother hyx]
      exact h.bracketed y
  · have hc := h.count y k'
    rcases eq_or_ne y x with rfl | hyx
    · rw [hx] at hc
      rw [hself]
      rcases eq_or_ne k' k with rfl | hne
      · rw [List.count_cons_self] at hc
        rw [grant_self, List.count_append, List.count_singleton_self, Nat.add_assoc, Nat.add_comm 1]
        exact hc
      · rw [List.count_cons_of_ne fun he => hne (LockOp.acquire.inj he).symm] at hc
        rw [grant_of_ne s _ hne]
        exact hc
    · rw [hother hyx]
      rcases eq_or_ne k' k with rfl | hne
      · rw [grant_self, List.count_append, List.count_singleton, beq_eq_false_iff_ne.mpr hyx.symm]
        exact hc
      · rw [grant_of_ne s _ hne]
        exact hc

theorem LockInv.release (h : LockInv Q s) {k : K} {rest : List (LockOp K)} {held : Finset K}
    (hx : s.threads x = ⟨.release k :: rest, held, none⟩) :
    LockInv Q (s.setThread x ⟨rest, held.erase k, some k⟩) := by
  have hself : (s.setThread x ⟨rest, held.erase k, some k⟩).threads x = ⟨rest, held.erase k, some k⟩ := Function.update_self ..
  have hother : ∀ {y}, y ≠ x → (s.setThread x ⟨rest, held.erase k, some k⟩).threads y = s.threads y :=
    fun hy => Function.update_of_ne hy ..
  have hb := h.bracketed x
  rw [hx] at hb
  refine ⟨fun k' => ?_, fun y => ?_, fun y k' => ?_⟩
  · rcases eq_or_ne k' k with rfl | hne
    · obtain ⟨hz, hg, honly⟩ := h.held_of_release hx
      refine .passing x hz hg (by rw [hself]) fun y => ⟨fun hy => ?_, fun hy => ?_⟩
      · rcases eq_or_ne y x with rfl | hyx
        · rw [hself] at hy
          exact Finset.notMem_erase k' held hy
        · rw [hother hyx] at hy
          exact hyx ((honly y).1 hy)
      · by_contra hyx
        rw [hother hyx] at hy
        exact (honly y).2 hy
    · refine (h.key k').frame rfl rfl (fun y => ?_) fun y => ?_
      · rcases eq_or_ne y x with rfl | hyx
        · rw [hself, hx]
          exact ⟨Finset.mem_of_mem_erase, Finset.mem_erase_of_ne_of_mem hne⟩
        · rw [hother hyx]
      · rcases eq_or_ne y x with rfl | hyx
        · rw [hself, hx]
          exact ⟨fun hn => absurd (Option.some.inj hn).symm hne, fun hn => nomatch hn⟩
        · rw [hother hyx]
  · rcases eq_or_ne y x with rfl | hyx
    · rw [hself]
      exact hb.2
    · rw [hother hyx]
      exact h.bracketed y
  · have hc := h.count y k'
    rcases eq_or_ne y x with rfl | hyx
    · have hrest : (LockOp.release k :: rest).count (.acquire k') = rest.count (.acquire k') :=
        List.count_cons_of_ne (fun he => by cases he)
      rw [hx, hrest] at hc
      rw [hself]
      exact hc
    · rw [hother hyx]
      exact hc

theorem LockInv.pass (h : LockInv Q s) {k : K} {rest : List (LockOp K)} {held : Finset K}
    (hx : s.threads x = ⟨rest, held, some k⟩) :
    LockInv Q (s.serve x k ⟨rest, held, none⟩) := by
  have hself : (s.serve x k ⟨rest, held, none⟩).threads x = ⟨rest, held, none⟩ := Function.update_self ..
  have hother : ∀ {y}, y ≠ x → (s.serve x k ⟨rest, held, none⟩).threads y = s.threads y :=
    fun hy => Function.update_of_ne hy ..
  refine ⟨fun k' => ?_, fun y => ?_, fun y k' => ?_⟩
  · rcases eq_or_ne k' k with rfl | hne
    · obtain ⟨hz, hg, honly⟩ := h.passing_only (by rw [hx])
      refine .free ?_ ?_ fun y => ?_
      · rw [serve_self]
        exact (List.getElem?_eq_some_iff.mp hz).1
      · rw [serve_self]
        exact hg
      · rcases eq_or_ne y x with rfl | hyx
        · have hnot := (honly y).1
          rw [hx] at hnot
          rw [hself]
          exact ⟨hnot, fun hn => nomatch hn⟩
        · rw [hother hyx]
          exact ⟨(honly y).1, fun hy => hyx ((honly y).2 hy)⟩
    · refine (h.key k').frame (Function.update_of_ne hne ..) rfl (fun y => ?_) fun y => ?_
      · rcases eq_or_ne y x with rfl | hyx
        · rw [hself, hx]
        · rw [hother hyx]
      · rcases eq_or_ne y x with rfl | hyx
        · rw [hself, hx]
          exact ⟨fun hn => (nomatch hn), fun hn => absurd (Option.some.inj hn).symm hne⟩
        · rw [hother hyx]
  · have hb := h.bracketed y
    rcases eq_or_ne y x with rfl | hyx
    · rw [hx] at hb
      rw [hself]
      exact hb
    · rw [hother hyx]
      exact hb
  · have hc := h.count y k'
    rcases eq_or_ne y x with rfl | hyx
    · rw [hx] at hc
      rw [hself]
      exact hc
    · rw [hother hyx]
      exact hc

/-- One step keeps the invariant. -/
theorem LockInv.step (h : LockInv Q s) (hst : LockStep Q x s s') : LockInv Q s' := by
  cases hst with
  | acquire hx hq => exact h.acquire hx hq
  | release hx => exact h.release hx
  | pass hx => exact h.pass hx

/-! ### What the invariant says -/

/-- The lock of a key was granted to a prefix of its queue. -/
theorem LockInv.grants_prefix (h : LockInv Q s) (k : K) : s.grants k <+: Q k := by
  rcases h.key k with ⟨-, hg, -⟩ | ⟨-, -, hg, -⟩ | ⟨-, -, hg, -⟩ <;>
  · rw [hg]
    exact List.take_prefix ..

/-- No two threads hold the lock of a key. -/
theorem LockInv.exclusive (h : LockInv Q s) {k : K} {x y : ℕ} (hx : k ∈ (s.threads x).held)
    (hy : k ∈ (s.threads y).held) : x = y := by
  rcases h.key k with ⟨-, -, hfree⟩ | ⟨z, -, -, -, honly⟩ | ⟨z, -, -, -, honly⟩
  · exact absurd hx (hfree x).1
  · exact ((honly x).1 hx).trans ((honly y).1 hy).symm
  · exact absurd hx (honly x).1

/-- A thread with something to acquire stands in the queue behind what was granted. -/
theorem LockInv.waiting (h : LockInv Q s) {k : K} {n : ℕ} (hg : s.grants k = (Q k).take n)
    (hx : .acquire k ∈ (s.threads x).rest) : x ∈ (Q k).drop n := by
  have hc := h.count x k
  have hpos : 0 < (s.threads x).rest.count (.acquire k) := List.count_pos_iff.mpr hx
  have hsplit : (Q k).count x = ((Q k).take n).count x + ((Q k).drop n).count x := by
    rw [← List.count_append, List.take_append_drop]
  rw [hg] at hc
  exact List.count_pos_iff.mp (by omega)

/-- A thread with nothing left to do holds nothing, and all it stood for in a queue was granted. -/
theorem LockInv.finished (h : LockInv Q s) (hx : (s.threads x).Finished) (k : K) :
    k ∉ (s.threads x).held ∧ (s.grants k).count x = (Q k).count x := by
  have hb := h.bracketed x
  have hc := h.count x k
  rw [hx.1] at hb hc
  refine ⟨?_, by simpa using hc⟩
  rw [hb]
  exact Finset.notMem_empty k

/-- When every thread has finished, every queue has been served to its end. -/
theorem LockInv.grants_all (h : LockInv Q s) (hall : ∀ x, (s.threads x).Finished) (k : K) :
    s.grants k = Q k := by
  have hperm : (s.grants k).Perm (Q k) := List.perm_iff_count.mpr fun x => (h.finished (hall x) k).2
  exact (h.grants_prefix k).eq_of_length hperm.length_eq

theorem le_of_mem_drop {l : List ℕ} (hs : l.Pairwise (· ≤ ·)) {n a b : ℕ} (ha : l[n]? = some a)
    (hb : b ∈ l.drop n) : a ≤ b := by
  obtain ⟨hn, rfl⟩ := List.getElem?_eq_some_iff.mp ha
  rw [List.drop_eq_getElem_cons hn] at hb
  rcases List.mem_cons.mp hb with rfl | hb
  · exact le_rfl
  · have hsplit : (l.drop n).Pairwise (· ≤ ·) := hs.drop
    rw [List.drop_eq_getElem_cons hn] at hsplit
    exact (List.pairwise_cons.mp hsplit).1 b hb

/-- The queue of a key stands at a thread that has not finished, if there is still a thread behind
    what was granted. -/
theorem LockInv.served_unfinished (h : LockInv Q s) {k : K} {y : ℕ}
    (hq : (Q k)[s.served k]? = some y) : ¬ (s.threads y).Finished := by
  intro hf
  obtain ⟨hheld, hcount⟩ := h.finished hf k
  rcases h.key k with ⟨-, hg, -⟩ | ⟨z, hz, -, hk, -⟩ | ⟨z, hz, -, hk, -⟩
  · obtain ⟨hlt, hy⟩ := List.getElem?_eq_some_iff.mp hq
    have hmem : y ∈ (Q k).drop (s.served k) := by
      rw [List.drop_eq_getElem_cons hlt, hy]
      exact List.mem_cons_self
    have hpos := List.count_pos_iff.mpr hmem
    have hsplit : (Q k).count y =
        ((Q k).take (s.served k)).count y + ((Q k).drop (s.served k)).count y := by
      rw [← List.count_append, List.take_append_drop]
    rw [hg] at hcount
    omega
  · obtain rfl := Option.some.inj (hz.symm.trans hq)
    exact hheld hk
  · obtain rfl := Option.some.inj (hz.symm.trans hq)
    rw [hf.2] at hk
    cases hk

/-- The smallest unfinished thread can go on. -/
theorem LockInv.progress (h : LockInv Q s) (hsorted : ∀ k, (Q k).Pairwise (· ≤ ·))
    (hx : ¬ (s.threads x).Finished) (hmin : ∀ y < x, (s.threads y).Finished) :
    ∃ s', LockStep Q x s s' := by
  have hb := h.bracketed x
  have hwait : ∀ {k n}, s.grants k = (Q k).take n →
      LockOp.acquire k ∈ (s.threads x).rest → x ∈ (Q k).drop n := fun hg hm => h.waiting hg hm
  cases ht : s.threads x with
  | mk rest held passing =>
    rw [ht] at hb hwait hx
    cases passing with
    | some k => exact ⟨_, .pass ht⟩
    | none =>
      cases rest with
      | nil => exact absurd ⟨rfl, rfl⟩ hx
      | cons op rest =>
        cases op with
        | release k => exact ⟨_, .release ht⟩
        | acquire k =>
          refine ⟨_, .acquire ht ?_⟩
          -- the queue stands at an unfinished thread that is not behind `x`
          have hserved : ∀ {y}, (Q k)[s.served k]? = some y → x ∈ (Q k).drop (s.served k) → y = x := by
            intro y hy hmem
            have hle := le_of_mem_drop (hsorted k) hy hmem
            by_contra hne
            exact h.served_unfinished hy (hmin y (by omega))
          have hmem : ∀ {n}, s.grants k = (Q k).take n → x ∈ (Q k).drop n := fun hg =>
            hwait hg List.mem_cons_self
          have hback : s.grants k = (Q k).take (s.served k + 1) → x ∈ (Q k).drop (s.served k) := by
            intro hg
            have := hmem hg
            rw [← List.drop_drop] at this
            exact List.mem_of_mem_drop this
          rcases h.key k with ⟨-, hg, -⟩ | ⟨y, hy, hg, -⟩ | ⟨y, hy, hg, -⟩
          · have hin := hmem hg
            cases hq : (Q k)[s.served k]? with
            | none =>
              rw [List.drop_eq_nil_of_le (List.getElem?_eq_none_iff.mp hq)] at hin
              exact absurd hin List.not_mem_nil
            | some y => rw [hserved hq hin]
          · rw [hy, hserved hy (hback hg)]
          · rw [hy, hserved hy (hback hg)]

end

end Egad.Lib
