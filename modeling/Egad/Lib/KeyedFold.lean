import Mathlib.Logic.Function.Basic
import Mathlib.Data.List.Basic
import Mathlib.Order.Bounds.Basic

/-! # Folding events into a map, one key at a time

    A step that reads and writes only the entry of the event's own key. The value a fold of such
    steps leaves at a key is decided by that key's events alone (`foldl_keyedStep`), in whatever
    order the other keys' events stand around them. `minStep` keeps the smallest position of each
    key, as an atomic minimum does; whether it lies below a bound does not depend on the order.
    `maxStep` keeps the largest one. -/

namespace Egad.Lib

variable {E K S : Type*} [DecidableEq K]

/-- Apply event `v` to a map: `g v` at the event's key, nothing elsewhere. -/
def keyedStep (key : E → K) (g : E → S → S) (m : K → S) (v : E) : K → S :=
  Function.update m (key v) (g v (m (key v)))

theorem keyedStep_of_ne {key : E → K} {g : E → S → S} {m : K → S} {v : E} {k : K}
    (h : key v ≠ k) : keyedStep key g m v k = m k := by
  rw [keyedStep, Function.update_of_ne (Ne.symm h)]

theorem keyedStep_self (key : E → K) (g : E → S → S) (m : K → S) (v : E) :
    keyedStep key g m v (key v) = g v (m (key v)) := by
  rw [keyedStep, Function.update_self]

/-- What a fold leaves at key `k` is the fold of `k`'s events from what `k` had. -/
theorem foldl_keyedStep (key : E → K) (g : E → S → S) (k : K) : ∀ (l : List E) (m : K → S),
    (l.foldl (keyedStep key g) m) k = (l.filter (fun v => key v = k)).foldl (fun s v => g v s) (m k)
  | [], _ => rfl
  | v :: l, m => by
    rw [List.foldl_cons, foldl_keyedStep key g k l, List.filter_cons]
    by_cases h : key v = k
    · subst h; simp [keyedStep_self]
    · simp [h, keyedStep_of_ne h]

/-- Lower the entry of the event's key to the event's position; an event without a key changes
    nothing. -/
def minStep (key : E → Option K) (pos : E → ℕ) (m : K → ℕ) (v : E) : K → ℕ :=
  match key v with
  | some k => Function.update m k (min (m k) (pos v))
  | none => m

theorem minStep_lt (key : E → Option K) (pos : E → ℕ) (m : K → ℕ) (v : E) (k : K) (i : ℕ) :
    minStep key pos m v k < i ↔ m k < i ∨ (key v = some k ∧ pos v < i) := by
  rw [minStep]
  cases hv : key v with
  | none => simp
  | some k' =>
    by_cases hk : k = k'
    · subst hk
      simp only [Function.update_self, true_and]
      omega
    · simp [Function.update_of_ne hk, Ne.symm hk]

/-- A key's entry is below a bound exactly when it was before or one of its events is. -/
theorem foldl_minStep_lt (key : E → Option K) (pos : E → ℕ) (k : K) (i : ℕ) :
    ∀ (l : List E) (m : K → ℕ), (l.foldl (minStep key pos) m) k < i ↔
      m k < i ∨ ∃ v ∈ l, key v = some k ∧ pos v < i
  | [], m => by simp
  | v :: l, m => by
    rw [List.foldl_cons, foldl_minStep_lt key pos k i l, minStep_lt]
    simp only [List.mem_cons, exists_eq_or_imp, or_assoc]

/-- Raise the entry of the event's key to the event's position; an event without a key changes
    nothing. -/
def maxStep (key : E → Option K) (pos : E → ℕ) (m : K → ℕ) (v : E) : K → ℕ :=
  match key v with
  | some k => Function.update m k (max (m k) (pos v))
  | none => m

theorem maxStep_apply (key : E → Option K) (pos : E → ℕ) (m : K → ℕ) (v : E) (k : K) :
    maxStep key pos m v k = if key v = some k then max (m k) (pos v) else m k := by
  rw [maxStep]
  cases hv : key v with
  | none => simp
  | some k' =>
    by_cases hk : k = k'
    · subst hk
      simp
    · simp [Function.update_of_ne hk, Ne.symm hk]

/-- A key's entry is the largest of what it was and the positions of the key's events, in whatever
    order they come. -/
theorem foldl_maxStep (key : E → Option K) (pos : E → ℕ) (k : K) : ∀ (l : List E) (m : K → ℕ),
    IsGreatest (insert (m k) {n | ∃ v ∈ l, key v = some k ∧ pos v = n})
      ((l.foldl (maxStep key pos) m) k)
  | [], m => by simp [IsGreatest]
  | v :: l, m => by
    obtain ⟨hmem, hub⟩ := foldl_maxStep key pos k l (maxStep key pos m v)
    rw [maxStep_apply] at hmem hub
    rw [List.foldl_cons]
    have hbase := hub (Set.mem_insert _ _)
    constructor
    · rcases hmem with he | ⟨u, hu, huk, he⟩
      · rw [he]
        split
        · next hvk =>
          rcases le_total (m k) (pos v) with hle | hle
          · exact Or.inr ⟨v, List.mem_cons_self, hvk, (max_eq_right hle).symm⟩
          · exact Or.inl (max_eq_left hle)
        · exact Or.inl rfl
      · exact Or.inr ⟨u, List.mem_cons_of_mem _ hu, huk, he⟩
    · rintro n (rfl | ⟨u, hu, huk, rfl⟩)
      · split at hbase
        · exact (le_max_left _ _).trans hbase
        · exact hbase
      · rcases List.mem_cons.mp hu with rfl | hu
        · rw [if_pos huk] at hbase
          exact (le_max_right _ _).trans hbase
        · exact hub (Or.inr ⟨u, hu, huk, rfl⟩)

theorem zipIdx_lt {α : Type} {xs : List α} {x : α × ℕ} (hx : x ∈ xs.zipIdx) :
    x.1 ∈ xs ∧ x.2 < xs.length := by
  obtain ⟨-, h, -⟩ := List.mem_zipIdx (show (x.1, x.2) ∈ xs.zipIdx from hx)
  exact ⟨List.fst_mem_of_mem_zipIdx hx, by simpa using h⟩

/-- The positions of a list increase along it. -/
theorem zipIdx_increasing {α : Type} (xs : List α) : xs.zipIdx.Pairwise fun a b => a.2 < b.2 := by
  rw [List.pairwise_iff_getElem]
  intro i j hi hj hij
  simp only [List.getElem_zipIdx]
  omega

end Egad.Lib
