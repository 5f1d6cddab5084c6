import Egad.Lib.AbsentMap
import Egad.Lib.KeyedFold

/-! # An array of marks that only its own marks clear

    A pass over events lowers the mark of each event's key to the event's position. The events that
    hold their key's mark are flagged, one for each marked key, and clearing the marks of the flagged
    keys clears the array:

        all absent ──mark──▶ earliest positions ──flag──▶ one event a key ──eraseAll──▶ all absent -/

namespace Egad.Lib

variable {E K : Type*} [DecidableEq K] {key : E → Option K} {pos : E → ℕ} {absent : ℕ}
  {evs : List E} {m : K → ℕ} {k : K}

/-- The marks after a pass over events, from the marks before it. -/
def mark (key : E → Option K) (pos : E → ℕ) (evs : List E) (m : K → ℕ) : K → ℕ :=
  evs.foldl (minStep key pos) m

theorem mark_lt (i : ℕ) : mark key pos evs m k < i ↔
    m k < i ∨ ∃ v ∈ evs, key v = some k ∧ pos v < i := foldl_minStep_lt key pos k i evs m

/-- Marks do not depend on the order of the events. -/
theorem mark_perm {evs' : List E} (h : evs.Perm evs') : mark key pos evs m = mark key pos evs' m := by
  funext k
  refine eq_of_forall_gt_iff fun i => ?_
  rw [mark_lt, mark_lt]
  exact or_congr_right (exists_congr fun v => and_congr_left fun _ => h.mem_iff)

section
variable (hclean : ∀ k, m k = absent)
include hclean

/-- A mark made in a clean array is the position of an event of its key. -/
theorem exists_flagged (hk : mark key pos evs m k ≠ absent) :
    ∃ v ∈ evs, key v = some k ∧ mark key pos evs m k = pos v := by
  have hle : mark key pos evs m k < absent + 1 :=
    (mark_lt _).mpr (Or.inl (by rw [hclean]; exact Nat.lt_succ_self _))
  obtain h | ⟨v, hv, hkey, hlt⟩ := (mark_lt _).mp (Nat.lt_succ_self (mark key pos evs m k))
  · rw [hclean] at h
    exact absurd (by omega) hk
  · have hmark : mark key pos evs m k < pos v + 1 :=
      (mark_lt _).mpr (Or.inr ⟨v, hv, hkey, Nat.lt_succ_self _⟩)
    exact ⟨v, hv, hkey, by omega⟩

/-- Clearing the marks of the keys of the flagged events leaves the array clean. -/
theorem eraseAll_mark {keys : List K} (hkeys : ∀ v ∈ evs, ∀ k, key v = some k →
    mark key pos evs m k = pos v → k ∈ keys) (k : K) :
    eraseAll absent (mark key pos evs m) keys k = absent := by
  rw [eraseAll_apply]
  split
  · rfl
  · next hk =>
    by_contra hne
    obtain ⟨v, hv, hkey, hpos⟩ := exists_flagged hclean hne
    exact hk (hkeys v hv k hkey hpos)

end

omit [DecidableEq K] in
/-- Events that hold their keys' marks have distinct keys. -/
theorem nodup_flagged (d : K → ℕ) (pos : E → ℕ) {f : E → K} (hevs : evs.Nodup) (hd : ∀ v ∈ evs, d (f v) = pos v)
    (hpos : ∀ v ∈ evs, ∀ w ∈ evs, f v = f w → pos v = pos w → v = w) : (evs.map f).Nodup := by
  refine hevs.map_on fun v hv w hw heq => hpos v hv w hw heq ?_
  rw [← hd v hv, ← hd w hw, heq]

end Egad.Lib
