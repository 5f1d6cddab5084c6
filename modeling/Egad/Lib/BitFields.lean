import Mathlib.Algebra.Order.Monoid.Canonical.Defs
import Mathlib.Algebra.BigOperators.Group.List.Defs
import Mathlib.Data.List.Forall2
import Mathlib.Tactic.Ring

/-! # Words made of bit-fields

    A word of fields with fixed widths, the first the lowest. A field keeps the low bits of what is
    stored in it:

        packFields [5, 8] [d, w]     |  w mod 2^8  | d mod 2^5 |

    Values that fit their fields can be read off the word, and the words of two such lists compare
    as the lists do from the last field down. -/

namespace Egad.Lib

/-- The word of a list of values in fields of the given widths. -/
def packFields : List ℕ → List ℕ → ℕ
  | w :: ws, v :: vs => v % 2 ^ w + 2 ^ w * packFields ws vs
  | _, _ => 0

/-- Each value fits its field. -/
abbrev WithinFields (ws vs : List ℕ) : Prop := List.Forall₂ (fun w v => v < 2 ^ w) ws vs

/-- The order of two lists of the same length, the last element first. -/
def FieldsLt : List ℕ → List ℕ → Prop
  | a :: as, b :: bs => FieldsLt as bs ∨ (as = bs ∧ a < b)
  | _, _ => False

/-- Values fit when bounds of them do. -/
theorem WithinFields.of_bounds {ws ms : List ℕ} (h : WithinFields ws ms) : ∀ {vs},
    List.Forall₂ (fun m v => v ≤ m) ms vs → WithinFields ws vs := by
  induction h with
  | nil =>
    rintro _ ⟨⟩
    exact .nil
  | cons hm _ ih =>
    rintro _ (_ | ⟨hv, hvs⟩)
    exact .cons (lt_of_le_of_lt hv hm) (ih hvs)

theorem packFields_lt (ws : List ℕ) : ∀ vs, packFields ws vs < 2 ^ ws.sum := by
  induction ws with
  | nil => exact fun _ => Nat.one_pos
  | cons w ws ih =>
    rintro (_ | ⟨v, vs⟩)
    · exact Nat.two_pow_pos _
    · rw [packFields, List.sum_cons, Nat.pow_add]
      have hlow := Nat.mod_lt v (Nat.two_pow_pos w)
      have hhigh := Nat.mul_le_mul_left (2 ^ w) (Nat.succ_le_of_lt (ih vs))
      rw [Nat.mul_succ] at hhigh
      omega

/-- A lower digit never outweighs a higher one. -/
theorem digit_lt_iff {m a b p q : ℕ} (ha : a < m) (hb : b < m) :
    a + m * p < b + m * q ↔ p < q ∨ (p = q ∧ a < b) := by
  rcases Nat.lt_trichotomy p q with hlt | rfl | hgt
  · have := Nat.mul_le_mul_left m (Nat.succ_le_of_lt hlt)
    rw [Nat.mul_succ] at this
    exact iff_of_true (by omega) (.inl hlt)
  · omega
  · have := Nat.mul_le_mul_left m (Nat.succ_le_of_lt hgt)
    rw [Nat.mul_succ] at this
    exact iff_of_false (by omega) (by omega)

theorem digit_inj {m a b p q : ℕ} (ha : a < m) (hb : b < m) (h : a + m * p = b + m * q) :
    a = b ∧ p = q := by
  have hlt := (digit_lt_iff ha hb).not.mp h.not_lt
  have hgt := (digit_lt_iff hb ha).not.mp h.symm.not_lt
  omega

theorem packFields_inj {ws as : List ℕ} (ha : WithinFields ws as) : ∀ {bs}, WithinFields ws bs →
    packFields ws as = packFields ws bs → as = bs := by
  induction ha with
  | nil =>
    rintro _ ⟨⟩ -
    rfl
  | cons hv _ ih =>
    rintro _ (_ | ⟨hv', hb⟩) heq
    rw [packFields, packFields, Nat.mod_eq_of_lt hv, Nat.mod_eq_of_lt hv'] at heq
    obtain ⟨hhead, htail⟩ := digit_inj hv hv' heq
    rw [hhead, ih hb htail]

/-- Words of fitting values compare from the highest field down. -/
theorem packFields_lt_iff {ws as : List ℕ} (ha : WithinFields ws as) : ∀ {bs}, WithinFields ws bs →
    (packFields ws as < packFields ws bs ↔ FieldsLt as bs) := by
  induction ha with
  | nil =>
    rintro _ ⟨⟩
    exact iff_of_false (Nat.lt_irrefl _) id
  | cons hv ha ih =>
    rintro _ (_ | ⟨hv', hb⟩)
    rw [packFields, packFields, Nat.mod_eq_of_lt hv, Nat.mod_eq_of_lt hv', digit_lt_iff hv hv', ih hb,
      FieldsLt]
    refine or_congr_right (and_congr_left fun _ => ⟨packFields_inj ha hb, ?_⟩)
    rintro rfl
    rfl

end Egad.Lib
