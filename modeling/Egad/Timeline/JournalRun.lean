import Egad.Timeline.Correct
import Egad.Lib.Journal

/-! # An epoch as steps of a journal

    When the entry order of an epoch is also its serial order, its inserts and deletes can be applied
    one by one to the index's journal: minted keys and ended records come out in the order in which
    the epoch logs them (`journal_run`). -/

namespace Egad.Timeline
open Egad.Lib

/-- One event on the journal. -/
def applyEvent (j : Journal ℕ) (v : Event) : Journal ℕ :=
  match v.type with
  | .insert => j.insert kAbsent v.key
  | .delete => j.delete kAbsent v.key

/-- Entries stand in serial order. -/
def InSerialOrder (evs : List Event) : Prop :=
  evs.Pairwise (fun a b => a.entry < b.entry) ∧ evs.Pairwise (fun a b => a.pos ≤ b.pos)

section
variable {lookup : ℕ → ℕ} {evs : List Event}

theorem InSerialOrder.serialOrder_eq (h : InSerialOrder evs) : serialOrder evs = evs :=
  stableSort_of_sorted h.2

theorem InSerialOrder.lt (h : InSerialOrder evs) : evs.Pairwise Event.lt := by
  have := serialOrder_lt h.1
  rwa [h.serialOrder_eq] at this

variable (lookup) in
/-- An event finds what the events standing before it leave. -/
theorem found_at (h : InSerialOrder evs) {pre post : List Event} {v : Event}
    (hsplit : evs = pre ++ v :: post) :
    found lookup evs v = (pre.foldl step (startLife lookup)) v.key := by
  have hlt := h.lt
  rw [hsplit] at hlt
  rw [found, livesAt, h.serialOrder_eq, hsplit, filter_before_split hlt]

/-- The journal after a prefix of the epoch's events. -/
structure Follows (lookup : ℕ → ℕ) (evs : List Event) (j₀ : Journal ℕ) (pre : List Event)
    (j : Journal ℕ) : Prop where
  live : ∀ k, j.live k =
    serialCrid lookup evs j₀.minted.length ((pre.foldl step (startLife lookup)) k)
  minted : j.minted = j₀.minted ++ (pre.filter (createsLife lookup evs)).map Event.key
  ended : j.ended = j₀.ended ++ (pre.filter (endsLife lookup evs)).map fun v =>
    (v.key, serialCrid lookup evs j₀.minted.length (found lookup evs v))

/-- The rank of a created life is the number created before it. -/
theorem idxOf_created_at (hev : evs.Pairwise (fun a b => a.entry < b.entry))
    {pre post : List Event} {v : Event} (hsplit : evs = pre ++ v :: post)
    (hv : createsLife lookup evs v = true) :
    ((created lookup evs).map Event.entry).idxOf v.entry =
      (pre.filter (createsLife lookup evs)).length := by
  rw [created]
  generalize createsLife lookup evs = P at hv ⊢
  rw [hsplit] at hev ⊢
  rw [List.filter_append, List.filter_cons_of_pos hv, List.map_append, List.map_cons,
    List.idxOf_append_of_notMem, List.idxOf_cons_self, List.length_map, Nat.add_zero]
  intro hmem
  obtain ⟨w, hw, hwe⟩ := List.mem_map.mp hmem
  have := (List.pairwise_append.mp hev).2.2 w (List.mem_of_mem_filter hw) v (by simp)
  omega

theorem follows_step (h : InSerialOrder evs) {j₀ j : Journal ℕ}
    (hm : MintFits lookup evs j₀.minted.length) {pre post : List Event} {v : Event}
    (hsplit : evs = pre ++ v :: post) (hj : Follows lookup evs j₀ pre j) :
    Follows lookup evs j₀ (pre ++ [v]) (applyEvent j v) := by
  have hfound := found_at lookup h hsplit
  have habs : j.live v.key = kAbsent ↔ found lookup evs v = none := by
    rw [hj.live, ← hfound]
    exact livesAt_absent_iff h.1 hm v.pos v.entry v.key
  have hfold : (pre ++ [v]).foldl step (startLife lookup) =
      step (pre.foldl step (startLife lookup)) v := by
    rw [List.foldl_append, List.foldl_cons, List.foldl_nil]
  have hself : step (pre.foldl step (startLife lookup)) v v.key = lifeStep v (found lookup evs v) := by
    rw [step, keyedStep_self, hfound]
  have hother : ∀ k, k ≠ v.key → step (pre.foldl step (startLife lookup)) v k =
      (pre.foldl step (startLife lookup)) k := fun k hk => keyedStep_of_ne (Ne.symm hk)
  have hcr : createsLife lookup evs v = true ↔ v.type = .insert ∧ found lookup evs v = none := by
    rw [createsLife, decide_eq_true_eq]
  have hen : endsLife lookup evs v = true ↔ v.type = .delete ∧ found lookup evs v ≠ none := by
    rw [endsLife, decide_eq_true_eq]
  cases ht : v.type with
  | insert =>
    have hno : endsLife lookup evs v = false := by rw [Bool.eq_false_iff]; simp [hen, ht]
    simp only [applyEvent, ht, Journal.insert]
    by_cases hl : j.live v.key = kAbsent
    · have hnone := habs.mp hl
      have hc := hcr.mpr ⟨ht, hnone⟩
      rw [if_pos hl]
      refine ⟨fun k => ?_, ?_, ?_⟩
      · simp only
        rw [hfold]
        by_cases hk : k = v.key
        · subst hk
          rw [Function.update_self, hself, hnone, hj.minted, List.length_append, List.length_map]
          simp only [lifeStep, ht, Option.getD_none, serialCrid, cridOf]
          rw [idxOf_created_at h.1 hsplit hc]
        · rw [Function.update_of_ne hk, hother k hk, hj.live]
      · simp [List.filter_append, hc, hj.minted]
      · simp [List.filter_append, hno, hj.ended]
    · have hsome := (not_congr habs).mp hl
      have hc : createsLife lookup evs v = false := by rw [Bool.eq_false_iff]; simp [hcr, hsome]
      rw [if_neg hl]
      refine ⟨fun k => ?_, ?_, ?_⟩
      · rw [hfold]
        by_cases hk : k = v.key
        · subst hk
          obtain ⟨l, hl'⟩ := Option.ne_none_iff_exists'.mp hsome
          rw [hself, hj.live, ← hfound, hl']
          simp [lifeStep, ht]
        · rw [hother k hk, hj.live]
      · simp [List.filter_append, hc, hj.minted]
      · simp [List.filter_append, hno, hj.ended]
  | delete =>
    have hc : createsLife lookup evs v = false := by rw [Bool.eq_false_iff]; simp [hcr, ht]
    simp only [applyEvent, ht, Journal.delete]
    by_cases hl : j.live v.key = kAbsent
    · have hnone := habs.mp hl
      have hno : endsLife lookup evs v = false := by rw [Bool.eq_false_iff]; simp [hen, hnone]
      rw [if_neg (not_not.mpr hl)]
      refine ⟨fun k => ?_, ?_, ?_⟩
      · rw [hfold]
        by_cases hk : k = v.key
        · subst hk
          rw [hself, hl]
          simp [lifeStep, ht, serialCrid, cridOf]
        · rw [hother k hk, hj.live]
      · simp [List.filter_append, hc, hj.minted]
      · simp [List.filter_append, hno, hj.ended]
    · have hsome := (not_congr habs).mp hl
      have he := hen.mpr ⟨ht, hsome⟩
      rw [if_pos hl]
      refine ⟨fun k => ?_, ?_, ?_⟩
      · simp only
        rw [hfold]
        by_cases hk : k = v.key
        · subst hk
          rw [Function.update_self, hself]
          simp [lifeStep, ht, serialCrid, cridOf]
        · rw [Function.update_of_ne hk, hother k hk, hj.live]
      · simp [List.filter_append, hc, hj.minted]
      · simp [List.filter_append, he, hj.ended, hj.live, hfound]

/-- The whole epoch on the journal. -/
theorem journal_run (h : InSerialOrder evs) {j₀ : Journal ℕ} (hlook : j₀.live = lookup)
    (hm : MintFits lookup evs j₀.minted.length) :
    ∀ pre post, evs = pre ++ post → Follows lookup evs j₀ pre (pre.foldl applyEvent j₀) := by
  intro pre
  induction pre using List.reverseRecOn with
  | nil =>
    intro post _
    exact ⟨fun k => by
      rw [List.foldl_nil, List.foldl_nil, hlook, serialCrid_startLife], by simp, by simp⟩
  | append_singleton pre v ih =>
    intro post hsplit
    rw [List.append_assoc, List.singleton_append] at hsplit
    rw [List.foldl_append, List.foldl_cons, List.foldl_nil]
    exact follows_step h hm hsplit (ih _ hsplit)

/-- Running an epoch keeps the journal invariant. -/
theorem journal_inv {j : Journal ℕ} (hj : j.Inv kAbsent) : ∀ evs : List Event,
    j.minted.length + (evs.filter fun v => v.type = .insert).length ≤ kAbsent →
    (evs.foldl applyEvent j).Inv kAbsent := by
  intro evs
  induction evs generalizing j with
  | nil => intro _; exact hj
  | cons v evs ih =>
    intro hlen
    rw [List.foldl_cons]
    cases ht : v.type with
    | insert =>
      simp only [List.filter_cons, ht, decide_true, if_true, List.length_cons] at hlen
      refine ih ?_ ?_
      · simp only [applyEvent, ht]
        exact hj.insert v.key fun _ => by omega
      · simp only [applyEvent, ht, Journal.insert]
        split
        · simp only [List.length_append, List.length_singleton]; omega
        · omega
    | delete =>
      simp only [List.filter_cons, ht, reduceCtorEq, decide_false, Bool.false_eq_true, if_false] at hlen
      refine ih ?_ ?_
      · simp only [applyEvent, ht]
        exact hj.delete v.key
      · simp only [applyEvent, ht, Journal.delete]
        split <;> exact hlen

end

end Egad.Timeline
