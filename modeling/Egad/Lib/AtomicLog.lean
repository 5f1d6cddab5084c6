import Mathlib.Algebra.BigOperators.Group.Multiset.Basic
import Mathlib.Algebra.Order.BigOperators.Group.Multiset
import Mathlib.Algebra.BigOperators.Group.Finset.Basic

/-! # A word that many threads update

    Every thread has a list of updates of one word still to make. An update is atomic: it replaces
    the word by what it makes of the word it finds. The updates made so far, in the order in which they
    were made, are the log of the word:

        w₀ —g—> g w₀ —h—> h (g w₀) —…—> w          log = [g, h, …]

    The log and the lists together are always the same updates, so at the end the word is what all
    the updates make of `w₀`, each made once, in some order. Where the order does not matter, the word
    is known. -/

namespace Egad.Lib

variable {W : Type*}

/-- The word after the updates of a log. -/
def replayLog (w₀ : W) (log : List (W → W)) : W := log.foldl (fun w g => g w) w₀

/-- The word and what `n` threads have still to do to it, when the updates are `all` in total. -/
def Logged (w₀ : W) (n : ℕ) (all : Multiset (W → W)) (w : W) (pending : ℕ → List (W → W)) : Prop :=
  ∃ log : List (W → W), w = replayLog w₀ log ∧
    (log : Multiset (W → W)) + ∑ x ∈ Finset.range n, (pending x : Multiset (W → W)) = all

theorem logged_start (w₀ : W) (n : ℕ) (updates : ℕ → List (W → W)) :
    Logged w₀ n (∑ x ∈ Finset.range n, (updates x : Multiset (W → W))) w₀ updates :=
  ⟨[], rfl, by rw [Multiset.coe_nil, zero_add]⟩

/-- A thread makes its next update. -/
theorem Logged.update {w₀ w : W} {n : ℕ} {all : Multiset (W → W)} {pending : ℕ → List (W → W)} {x : ℕ}
    {g : W → W} {rest : List (W → W)} (h : Logged w₀ n all w pending) (hx : x < n)
    (hp : pending x = g :: rest) : Logged w₀ n all (g w) (Function.update pending x rest) := by
  obtain ⟨log, rfl, hall⟩ := h
  refine ⟨log ++ [g], ?_, ?_⟩
  · rw [replayLog, replayLog, List.foldl_append]
    rfl
  · have hmem : x ∈ Finset.range n := Finset.mem_range.mpr hx
    have hother : ∑ y ∈ (Finset.range n).erase x, (Function.update pending x rest y : Multiset (W → W)) =
        ∑ y ∈ (Finset.range n).erase x, (pending y : Multiset (W → W)) := by
      refine Finset.sum_congr rfl fun y hy => ?_
      rw [Function.update_of_ne (Finset.ne_of_mem_erase hy)]
    have hself : (pending x : Multiset (W → W)) = ([g] : List (W → W)) + (rest : Multiset (W → W)) := by
      rw [hp, Multiset.coe_add]
      rfl
    rw [← hall, ← Finset.add_sum_erase _ _ hmem, ← Finset.add_sum_erase _ _ hmem, hother,
      Function.update_self, hself, ← Multiset.coe_add]
    simp only [add_assoc]

/-- When nothing is left to do, every update was made once. -/
theorem Logged.final {w₀ w : W} {n : ℕ} {all : List (W → W)} {pending : ℕ → List (W → W)}
    (h : Logged w₀ n all w pending) (hdone : ∀ x < n, pending x = []) :
    ∃ order : List (W → W), order.Perm all ∧ w = replayLog w₀ order := by
  obtain ⟨log, hw, hall⟩ := h
  refine ⟨log, Multiset.coe_eq_coe.mp ?_, hw⟩
  rw [← hall, Finset.sum_eq_zero fun x hx => ?_, add_zero]
  rw [hdone x (Finset.mem_range.mp hx)]
  rfl

/-- Updates that commute may be made in any order. -/
theorem replayLog_perm {all order : List (W → W)} (h : order.Perm all)
    (hcomm : ∀ g ∈ all, ∀ g' ∈ all, ∀ w, g' (g w) = g (g' w)) (w₀ : W) :
    replayLog w₀ order = replayLog w₀ all :=
  h.foldl_eq' (fun g hg g' hg' w => hcomm g (h.subset hg) g' (h.subset hg') w) w₀

/-- Additions commute, and come to the sum of what is added. -/
theorem replayLog_add [AddCommMonoid W] {amounts : List W} {order : List (W → W)}
    (h : order.Perm (amounts.map fun a w => w + a)) (w₀ : W) : replayLog w₀ order = w₀ + amounts.sum := by
  have hsum : ∀ l : List W, ∀ w, replayLog w (l.map fun a w => w + a) = w + l.sum := by
    intro l
    induction l with
    | nil => exact fun w => (add_zero w).symm
    | cons a l ih =>
      intro w
      calc replayLog (w + a) (l.map fun a w => w + a) = w + a + l.sum := ih _
        _ = w + (a :: l).sum := by rw [List.sum_cons, add_assoc]
  rw [← hsum, replayLog_perm h]
  intro g hg g' hg' w
  obtain ⟨a, -, rfl⟩ := List.mem_map.mp hg
  obtain ⟨b, -, rfl⟩ := List.mem_map.mp hg'
  exact add_right_comm w a b

end Egad.Lib
