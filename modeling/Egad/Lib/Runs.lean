import Mathlib.Logic.Relation
import Mathlib.Data.List.Basic
import Mathlib.Tactic.Ring

/-! # Runs of a step relation

    An invariant of one step is one of every run; and a system whose every unfinished state has a
    step that lowers a measure can always be run to its end.

    A buffer is a function of the position in it. `fill` is what a copy of `m` elements leaves: the
    elements behind it stay as they were. -/

namespace Egad.Lib
open Relation

variable {σ α : Type*}

/-- The reached states of a relation that keeps `I` all have `I`. -/
theorem run_invariant {Step : σ → σ → Prop} {I : σ → Prop} (hstep : ∀ s t, Step s t → I s → I t)
    {s t : σ} (h : ReflTransGen Step s t) (hs : I s) : I t := by
  induction h with
  | refl => exact hs
  | tail _ hbc ih => exact hstep _ _ hbc ih

/-- Progress and a falling measure bring every state with the invariant to the end. -/
theorem exists_final {Step : σ → σ → Prop} {I Final : σ → Prop} (μ : σ → ℕ)
    (hstep : ∀ s t, Step s t → I s → I t)
    (hdown : ∀ s, I s → ¬ Final s → ∃ t, Step s t ∧ μ t < μ s) {s : σ} (hs : I s) :
    ∃ t, ReflTransGen Step s t ∧ Final t := by
  induction hn : μ s using Nat.strong_induction_on generalizing s with
  | _ n ih =>
    by_cases hf : Final s
    · exact ⟨s, .refl, hf⟩
    · obtain ⟨t, ht, hlt⟩ := hdown s hs hf
      obtain ⟨u, hu, hfin⟩ := ih (μ t) (hn ▸ hlt) (hstep s t ht hs) rfl
      exact ⟨u, ReflTransGen.head ht hu, hfin⟩

/-- A buffer after `m` elements of `src` were copied to its front. -/
def fill (m : ℕ) (src old : ℕ → α) : ℕ → α := fun j => if j < m then src j else old j

theorem fill_of_lt {m j : ℕ} (src old : ℕ → α) (h : j < m) : fill m src old j = src j := if_pos h

theorem map_range_add (f : ℕ → α) (a m : ℕ) :
    (List.range (a + m)).map f = (List.range a).map f ++ (List.range m).map fun j => f (a + j) := by
  rw [List.range_add, List.map_append, List.map_map]
  rfl

end Egad.Lib
