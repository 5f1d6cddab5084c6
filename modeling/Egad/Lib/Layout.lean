import Mathlib.Logic.Function.Basic
import Mathlib.Tactic.Common

/-! # Values laid out in words

    A structure whose fields fill consecutive machine words. A warp reads it with one word a lane,
    changes the words of some lanes and writes the lanes back:

        lane      0      1      2     …   size - 1   size  …
        word    v.f₀   v.f₁   v.f₂    …    v.fₙ        0   …

    so changing one lane is changing one field. -/

namespace Egad.Lib

/-- A layout of `α` in `size` words of type `W`. -/
structure Layout (α W : Type*) where
  size : ℕ
  word : α → ℕ → W
  ofWords : (ℕ → W) → α
  ofWords_word : ∀ v, ofWords (word v) = v
  ofWords_congr : ∀ {f g : ℕ → W}, (∀ i < size, f i = g i) → ofWords f = ofWords g

namespace Layout
variable {α W : Type*} [Zero W] (L : Layout α W)

/-- The lanes of a warp that has read `v`. -/
def lanes (v : α) : ℕ → W := fun lane => if lane < L.size then L.word v lane else 0

/-- The value with one word replaced. -/
def setWord (v : α) (i : ℕ) (x : W) : α := L.ofWords (Function.update (L.word v) i x)

theorem ofWords_update_lanes (v : α) (i : ℕ) (x : W) :
    L.ofWords (Function.update (L.lanes v) i x) = L.setWord v i x := by
  refine L.ofWords_congr fun j hj => ?_
  rcases eq_or_ne j i with rfl | hne
  · rw [Function.update_self, Function.update_self]
  · rw [Function.update_of_ne hne, Function.update_of_ne hne, lanes, if_pos hj]

end Layout

end Egad.Lib
