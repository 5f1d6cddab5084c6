import Mathlib.Tactic.Ring
import Mathlib.Data.List.Basic
import Mathlib.Algebra.BigOperators.Group.List.Basic

/-! # Exclusive prefix sums

    `exclusiveSum` puts at every position the sum of the values before it. `exclusiveSumByKey` starts
    again wherever the key changes. On a list whose equal keys stand together the segmented sum at an
    element adds up the earlier elements of its key:

        key      3  3  3  7  7
        value    1  0  1  1  1
        sum      0  1  1  0  1

    Sorted lists keep equal keys together in both directions, so the same statement serves the scan
    of a reversed list. -/

namespace Egad.Lib

variable {α κ : Type*} [DecidableEq κ]

/-- The running sum after `acc`. -/
def exclusiveSumFrom (acc : ℕ) : List ℕ → List ℕ
  | [] => []
  | n :: l => acc :: exclusiveSumFrom (acc + n) l

/-- At every position the sum of the values before it. -/
def exclusiveSum (l : List ℕ) : List ℕ := exclusiveSumFrom 0 l

/-- The segmented running sum of the elements that follow `prev`, whose own sum was `acc`. -/
def exclusiveSumByKeyFrom (key : α → κ) (val : α → ℕ) (prev : α) (acc : ℕ) : List α → List ℕ
  | [] => []
  | a :: l =>
    let acc' := if key prev = key a then acc + val prev else 0
    acc' :: exclusiveSumByKeyFrom key val a acc' l

/-- At every position the sum of the values before it in its run of equal keys. -/
def exclusiveSumByKey (key : α → κ) (val : α → ℕ) : List α → List ℕ
  | [] => []
  | a :: l => 0 :: exclusiveSumByKeyFrom key val a 0 l

@[simp] theorem length_exclusiveSumFrom (acc : ℕ) (l : List ℕ) :
    (exclusiveSumFrom acc l).length = l.length := by
  induction l generalizing acc with
  | nil => rfl
  | cons n l ih => simp [exclusiveSumFrom, ih]

@[simp] theorem length_exclusiveSum (l : List ℕ) : (exclusiveSum l).length = l.length :=
  length_exclusiveSumFrom 0 l

theorem getElem?_exclusiveSumFrom (acc : ℕ) (l : List ℕ) (n : ℕ) (r : List ℕ) :
    (exclusiveSumFrom acc (l ++ n :: r))[l.length]? = some (acc + l.sum) := by
  induction l generalizing acc with
  | nil => simp [exclusiveSumFrom]
  | cons m l ih =>
    simp only [List.cons_append, exclusiveSumFrom, List.length_cons, List.getElem?_cons_succ]
    rw [ih, List.sum_cons, Nat.add_assoc]

theorem getElem?_exclusiveSum (l : List ℕ) (n : ℕ) (r : List ℕ) :
    (exclusiveSum (l ++ n :: r))[l.length]? = some l.sum := by
  rw [exclusiveSum, getElem?_exclusiveSumFrom, Nat.zero_add]

@[simp] theorem length_exclusiveSumByKeyFrom (key : α → κ) (val : α → ℕ) (prev : α) (acc : ℕ)
    (l : List α) : (exclusiveSumByKeyFrom key val prev acc l).length = l.length := by
  induction l generalizing prev acc with
  | nil => rfl
  | cons a l ih => simp [exclusiveSumByKeyFrom, ih]

@[simp] theorem length_exclusiveSumByKey (key : α → κ) (val : α → ℕ) (l : List α) :
    (exclusiveSumByKey key val l).length = l.length := by
  cases l <;> simp [exclusiveSumByKey]

/-- A list is a map of another when it has the entry `f a` at the place of every `a`. -/
theorem eq_map_of_split {β : Type*} {l : List α} {xs : List β} (f : α → β)
    (hlen : xs.length = l.length)
    (h : ∀ u a v, l = u ++ a :: v → xs[u.length]? = some (f a)) : xs = l.map f := by
  refine List.ext_getElem? fun i => ?_
  rcases Nat.lt_or_ge i l.length with hi | hi
  · have hsplit : l = l.take i ++ l[i] :: l.drop (i + 1) := by
      rw [← List.drop_eq_getElem_cons hi, List.take_append_drop]
    have hget := h _ _ _ hsplit
    rw [List.length_take, Nat.min_eq_left (Nat.le_of_lt hi)] at hget
    rw [hget, List.getElem?_map, List.getElem?_eq_getElem hi, Option.map_some]
  · rw [List.getElem?_eq_none (by omega), List.getElem?_eq_none (by simpa using hi)]

section
variable {key : α → κ} {r : α → α → Prop} (val : α → ℕ)

theorem getElem?_exclusiveSumByKeyFrom
    (hr : ∀ a b c, r a b → r b c → key a = key c → key b = key c) (a : α) (t : List α) (l : List α)
    (prev : α) (acc : ℕ) (hl : (prev :: (l ++ a :: t)).Pairwise r) :
    (exclusiveSumByKeyFrom key val prev acc (l ++ a :: t))[l.length]? =
      some ((((prev :: l).filter fun b => key b = key a).map val).sum +
        if key prev = key a then acc else 0) := by
  induction l generalizing prev acc with
  | nil =>
    by_cases h : key prev = key a
    · simp [exclusiveSumByKeyFrom, h, Nat.add_comm]
    · simp [exclusiveSumByKeyFrom, h]
  | cons b l ih =>
    obtain ⟨hprev, hrest⟩ := List.pairwise_cons.mp hl
    obtain ⟨hb, -⟩ := List.pairwise_cons.mp hrest
    have hpb : r prev b := hprev b (by simp)
    have hba : r b a := hb a (by simp)
    simp only [List.cons_append, exclusiveSumByKeyFrom, List.length_cons, List.getElem?_cons_succ]
    rw [ih _ _ hrest, List.filter_cons (x := prev)]
    -- the run of `a`'s key reaches back over `b` exactly when it reaches back over `prev`
    by_cases hpa : key prev = key a
    · have hbk : key b = key a := hr prev b a hpb hba hpa
      simp only [hbk, hpa, decide_true, if_true, List.map_cons, List.sum_cons, Option.some.injEq]
      omega
    · by_cases hbk : key b = key a
      · simp [hpa, hbk]
      · simp [hpa, hbk]

/-- On a list that keeps equal keys together, the segmented sum adds up the earlier elements of the
    same key. -/
theorem getElem?_exclusiveSumByKey
    (hr : ∀ a b c, r a b → r b c → key a = key c → key b = key c) (l : List α) (a : α) (t : List α)
    (hl : (l ++ a :: t).Pairwise r) :
    (exclusiveSumByKey key val (l ++ a :: t))[l.length]? =
      some (((l.filter fun b => key b = key a).map val).sum) := by
  cases l with
  | nil => simp [exclusiveSumByKey]
  | cons b l =>
    simp only [List.cons_append, exclusiveSumByKey, List.length_cons, List.getElem?_cons_succ]
    rw [getElem?_exclusiveSumByKeyFrom val hr a t l b 0 (by simpa using hl)]
    simp

end

end Egad.Lib
