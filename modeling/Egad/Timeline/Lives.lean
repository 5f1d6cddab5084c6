import Egad.Timeline.Walks
import Mathlib.Data.List.Induction

/-! # CRIDs along a key's timeline

    A life has a CRID: its own for an epoch-start record, `cridBegin + j` for the `j`-th created one.
    As long as the minted numbers stay below `kAbsent`, the absent CRID means no life, and the code's
    step on CRIDs (`codeStep`) is the serial step on lives. `k_assign` is that step run along the
    timeline, with one store at each effective delete (`assignWalk_spec`). -/

namespace Egad.Timeline
open Egad.Lib

/-! ### CRIDs of lives -/

section
variable {b : ℕ} {lookup : ℕ → ℕ} {evs : List Event} {cridBegin : ℕ}

/-- The CRIDs of an epoch are proper: no created life is numbered `kAbsent`. -/
def MintFits (lookup : ℕ → ℕ) (evs : List Event) (cridBegin : ℕ) : Prop :=
  cridBegin + (created lookup evs).length ≤ kAbsent

theorem serialCrid_minted_ne (hm : MintFits lookup evs cridBegin) {e : ℕ}
    (he : e ∈ (created lookup evs).map Event.entry) :
    serialCrid lookup evs cridBegin (some (.minted e)) ≠ kAbsent := by
  have := List.idxOf_lt_length_iff.mpr he
  rw [List.length_map] at this
  simp only [serialCrid, cridOf, MintFits] at hm ⊢
  omega

theorem serialCrid_startLife (k : ℕ) :
    serialCrid lookup evs cridBegin (startLife lookup k) = lookup k := by
  unfold startLife
  split
  · next h => simp [serialCrid, cridOf, h]
  · simp [serialCrid, cridOf]

/-- Along a key's timeline a life is the key's start record or one that an insert of the key
    created. -/
theorem lifeFold_prefix (hev : evs.Pairwise (fun a b => a.entry < b.entry)) {k : ℕ} :
    ∀ {pre post : List Event}, timelineOf evs k = pre ++ post →
      ∀ l, lifeFold (startLife lookup k) pre = some l →
        (l = .initial (lookup k) ∧ lookup k ≠ kAbsent) ∨
          ∃ v ∈ created lookup evs, v.key = k ∧ l = .minted v.entry := by
  intro pre
  induction pre using List.reverseRecOn with
  | nil =>
    intro post _ l hl
    simp only [lifeFold_nil, startLife] at hl
    split at hl
    · simp at hl
    · next h => exact Or.inl ⟨by simpa using hl.symm, h⟩
  | append_singleton pre v ih =>
    intro post hsplit l hl
    rw [List.append_assoc, List.singleton_append] at hsplit
    rw [lifeFold_append, lifeFold_cons, lifeFold_nil] at hl
    cases ht : v.type with
    | delete => simp [lifeStep, ht] at hl
    | insert =>
      cases hs : lifeFold (startLife lookup k) pre with
      | some l' =>
        have : l' = l := by simpa [lifeStep, ht, hs] using hl
        exact this ▸ ih hsplit l' hs
      | none =>
        obtain ⟨hv, rfl⟩ := mem_timelineOf.mp (show v ∈ timelineOf evs k by rw [hsplit]; simp)
        refine Or.inr ⟨v, List.mem_filter.mpr ⟨hv, ?_⟩, rfl, by simpa [lifeStep, ht, hs] using hl.symm⟩
        have hfound : found lookup evs v = none := (found_eq_of_split lookup hev hsplit).trans hs
        simp [createsLife, ht, hfound]

theorem serialCrid_eq_absent_iff (hev : evs.Pairwise (fun a b => a.entry < b.entry))
    (hm : MintFits lookup evs cridBegin) {k : ℕ} {pre post : List Event}
    (hsplit : timelineOf evs k = pre ++ post) :
    serialCrid lookup evs cridBegin (lifeFold (startLife lookup k) pre) = kAbsent ↔
      lifeFold (startLife lookup k) pre = none := by
  constructor
  · intro h
    cases hs : lifeFold (startLife lookup k) pre with
    | none => rfl
    | some l =>
      rw [hs] at h
      rcases lifeFold_prefix hev hsplit l hs with ⟨rfl, hc⟩ | ⟨v, hv, -, rfl⟩
      · exact absurd h hc
      · exact absurd h (serialCrid_minted_ne hm (List.mem_map_of_mem hv))
  · intro h; rw [h]; rfl

/-- What is ordered before an operation is a prefix of the timeline. -/
theorem timelineOf_before (hev : evs.Pairwise (fun a b => a.entry < b.entry)) (k pos self : ℕ) :
    ∃ post, timelineOf evs k = (timelineOf evs k).filter (Event.before pos self) ++ post := by
  have hlt := timelineOf_lt hev k
  generalize timelineOf evs k = l at hlt
  induction l with
  | nil => exact ⟨[], rfl⟩
  | cons v l ih =>
    obtain ⟨hv, hl⟩ := List.pairwise_cons.mp hlt
    obtain ⟨post, hpost⟩ := ih hl
    by_cases h : v.before pos self = true
    · exact ⟨post, by rw [List.filter_cons_of_pos h, List.cons_append, ← hpost]⟩
    · have hnone : l.filter (Event.before pos self) = [] := by
        rw [List.filter_eq_nil_iff]
        intro w hw
        have := hv w hw
        simp only [Event.before, Event.lt, decide_eq_true_eq] at this h ⊢
        omega
      exact ⟨v :: l, by rw [List.filter_cons_of_neg h, hnone, List.nil_append]⟩

theorem livesAt_absent_iff (hev : evs.Pairwise (fun a b => a.entry < b.entry))
    (hm : MintFits lookup evs cridBegin) (pos self k : ℕ) :
    serialCrid lookup evs cridBegin (livesAt lookup evs pos self k) = kAbsent ↔
      livesAt lookup evs pos self k = none := by
  obtain ⟨post, hpost⟩ := timelineOf_before hev k pos self
  rw [livesAt_eq]
  exact serialCrid_eq_absent_iff hev hm hpost

/-- CRIDs are 32-bit numbers. -/
theorem serialCrid_livesAt_le (hev : evs.Pairwise (fun a b => a.entry < b.entry))
    (hm : MintFits lookup evs cridBegin) (hbelow : ∀ k, lookup k ≠ kAbsent → lookup k < cridBegin)
    (pos self k : ℕ) : serialCrid lookup evs cridBegin (livesAt lookup evs pos self k) ≤ kAbsent := by
  obtain ⟨post, hpost⟩ := timelineOf_before hev k pos self
  rw [livesAt_eq]
  change serialCrid _ _ _ (lifeFold _ _) ≤ _
  cases hs : lifeFold (startLife lookup k) ((timelineOf evs k).filter (Event.before pos self)) with
  | none => exact le_refl _
  | some l =>
    rcases lifeFold_prefix hev hpost l hs with ⟨rfl, hk⟩ | ⟨v, hv, -, rfl⟩ <;>
      simp only [serialCrid, cridOf, MintFits] at hm ⊢
    · have := hbelow k hk
      omega
    · have := List.idxOf_lt_length_iff.mpr (List.mem_map_of_mem hv (f := Event.entry))
      rw [List.length_map] at this
      omega

/-- Two operations of an epoch that find one record look at one key. -/
theorem serialCrid_livesAt_inj (hev : evs.Pairwise (fun a b => a.entry < b.entry))
    (hbelow : ∀ k, lookup k ≠ kAbsent → lookup k < cridBegin)
    (hinj : ∀ k k', lookup k ≠ kAbsent → lookup k = lookup k' → k = k') {pos self k pos' self' k' : ℕ}
    (hne : serialCrid lookup evs cridBegin (livesAt lookup evs pos self k) ≠ kAbsent)
    (heq : serialCrid lookup evs cridBegin (livesAt lookup evs pos self k) =
      serialCrid lookup evs cridBegin (livesAt lookup evs pos' self' k')) : k = k' := by
  obtain ⟨post, hpost⟩ := timelineOf_before hev k pos self
  obtain ⟨post', hpost'⟩ := timelineOf_before hev k' pos' self'
  rw [livesAt_eq] at hne
  rw [livesAt_eq, livesAt_eq] at heq
  have hne' := heq ▸ hne
  change serialCrid _ _ _ (lifeFold _ _) ≠ _ at hne
  change serialCrid _ _ _ (lifeFold _ _) ≠ _ at hne'
  change serialCrid _ _ _ (lifeFold _ _) = serialCrid _ _ _ (lifeFold _ _) at heq
  cases hs : lifeFold (startLife lookup k) ((timelineOf evs k).filter (Event.before pos self)) with
  | none => exact absurd (hs ▸ rfl) hne
  | some l =>
    cases hs' : lifeFold (startLife lookup k')
        ((timelineOf evs k').filter (Event.before pos' self')) with
    | none => exact absurd (hs' ▸ rfl) hne'
    | some l' =>
      rw [hs, hs'] at heq
      rcases lifeFold_prefix hev hpost l hs with ⟨rfl, hk⟩ | ⟨v, hv, rfl, rfl⟩ <;>
        rcases lifeFold_prefix hev hpost' l' hs' with ⟨rfl, hk'⟩ | ⟨v', hv', rfl, rfl⟩ <;>
        simp only [serialCrid, cridOf] at heq
      · exact hinj k k' hk heq
      · have := hbelow k hk
        omega
      · have := hbelow k' hk'
        omega
      · have hidx := (List.idxOf_inj (List.mem_map_of_mem hv)).mp (Nat.add_left_cancel heq)
        rw [entry_injective hev (List.mem_filter.mp hv).1 (List.mem_filter.mp hv').1 hidx]

/-- The state transition that `k_assign` and `resolve` make at one event. -/
def codeStep (f : ℕ → ℕ) (c : ℕ) (t : EvType) (e : ℕ) : ℕ :=
  match t with
  | .delete => kAbsent
  | .insert => if c = kAbsent then f e else c

/-- `entry_crid` holds the minted CRIDs. -/
def HoldsMinted (lookup : ℕ → ℕ) (evs : List Event) (cridBegin : ℕ) (f : ℕ → ℕ) : Prop :=
  ∀ v ∈ created lookup evs, f v.entry = serialCrid lookup evs cridBegin (some (.minted v.entry))

/-- One event moves the CRID the way it moves the life. -/
theorem codeStep_eq (hev : evs.Pairwise (fun a b => a.entry < b.entry))
    (hm : MintFits lookup evs cridBegin) {f : ℕ → ℕ} (hf : HoldsMinted lookup evs cridBegin f)
    {k : ℕ} {pre post : List Event} {v : Event} (hsplit : timelineOf evs k = pre ++ v :: post) :
    codeStep f (serialCrid lookup evs cridBegin (lifeFold (startLife lookup k) pre)) v.type v.entry =
      serialCrid lookup evs cridBegin (lifeFold (startLife lookup k) (pre ++ [v])) := by
  rw [lifeFold_append, lifeFold_cons, lifeFold_nil]
  cases ht : v.type with
  | delete => simp [codeStep, lifeStep, ht, serialCrid, cridOf]
  | insert =>
    have habs := serialCrid_eq_absent_iff hev hm hsplit
    cases hs : lifeFold (startLife lookup k) pre with
    | some l =>
      rw [hs] at habs
      have : serialCrid lookup evs cridBegin (some l) ≠ kAbsent := fun h => by simpa using habs.mp h
      simp [codeStep, lifeStep, ht, this]
    | none =>
      obtain ⟨hv, rfl⟩ := mem_timelineOf.mp (show v ∈ timelineOf evs k by rw [hsplit]; simp)
      have hfound : found lookup evs v = none := (found_eq_of_split lookup hev hsplit).trans hs
      have hmem : v ∈ created lookup evs := List.mem_filter.mpr ⟨hv, by simp [createsLife, ht, hfound]⟩
      have hnone : serialCrid lookup evs cridBegin none = kAbsent := rfl
      simp [codeStep, lifeStep, ht, hnone, hf v hmem]

/-! ### Pass 2: ended CRIDs and final lives -/

theorem not_endsLife_of_created {v : Event} (hv : v ∈ created lookup evs) :
    endsLife lookup evs v = false := by
  have := (List.mem_filter.mp hv).2
  simp only [createsLife, decide_eq_true_eq] at this
  simp [endsLife, this.1]

theorem assignWalk_pack (f : ℕ → ℕ) (c : ℕ) (v : Event) (ss : List SEvent) :
    assignWalk f c (pack b lookup v :: ss) =
      assignWalk (if v.type = .delete ∧ c ≠ kAbsent then Function.update f v.entry c else f)
        (codeStep f c v.type v.entry) ss := by
  cases ht : v.type with
  | delete =>
    by_cases hc : c = kAbsent <;> simp [assignWalk, codeStep, pack, ht, hc]
  | insert =>
    by_cases hc : c = kAbsent <;> simp [assignWalk, codeStep, pack, ht, hc]

/-- `k_assign` along the rest of a key's timeline: the final life, the CRIDs of the effective
    deletes, and nothing else written. -/
theorem assignWalk_spec (hev : evs.Pairwise (fun a b => a.entry < b.entry))
    (hm : MintFits lookup evs cridBegin) {k : ℕ} : ∀ (post pre : List Event) {f : ℕ → ℕ},
      timelineOf evs k = pre ++ post → HoldsMinted lookup evs cridBegin f →
      ∀ out, out = assignWalk f (serialCrid lookup evs cridBegin (lifeFold (startLife lookup k) pre))
          (post.map (pack b lookup)) →
        out.2 = serialCrid lookup evs cridBegin (finalLives lookup evs k) ∧
        (∀ v ∈ post, endsLife lookup evs v = true →
          out.1 v.entry = serialCrid lookup evs cridBegin (found lookup evs v)) ∧
        ∀ e, (∀ v ∈ post, v.entry = e → endsLife lookup evs v = false) → out.1 e = f e := by
  intro post
  induction post with
  | nil =>
    rintro pre f hsplit - _ rfl
    rw [List.append_nil] at hsplit
    refine ⟨?_, by simp, by simp [assignWalk]⟩
    rw [finalLives_eq, hsplit]
    rfl
  | cons v post ih =>
    rintro pre f hsplit hf _ rfl
    obtain ⟨hv, hvk⟩ := mem_timelineOf.mp (show v ∈ timelineOf evs k by rw [hsplit]; simp)
    subst hvk
    have hfound := found_eq_of_split lookup hev hsplit
    have habs := serialCrid_eq_absent_iff hev hm hsplit
    -- the write happens exactly at an effective delete, and stores the CRID it finds
    have hwrite : (v.type = .delete ∧ serialCrid lookup evs cridBegin
        (lifeFold (startLife lookup v.key) pre) ≠ kAbsent) ↔ endsLife lookup evs v = true := by
      rw [Ne, habs]
      simp [endsLife, hfound, lifeFold]
    rw [List.map_cons, assignWalk_pack, codeStep_eq hev hm hf hsplit]
    have hlt := timelineOf_lt hev v.key
    rw [hsplit] at hlt
    have hlater : ∀ w ∈ post, w.entry ≠ v.entry := by
      intro w hw heq
      have hvw := (List.pairwise_cons.mp (List.pairwise_append.mp hlt).2.1).1 w hw
      have hwe := (mem_timelineOf.mp (show w ∈ timelineOf evs v.key by rw [hsplit]; simp [hw])).1
      have := entry_injective hev hwe hv heq
      subst this
      simp [Event.lt] at hvw
    by_cases hend : endsLife lookup evs v = true
    · rw [if_pos (hwrite.mpr hend)]
      have hf' : HoldsMinted lookup evs cridBegin (Function.update f v.entry (serialCrid lookup evs
          cridBegin (lifeFold (startLife lookup v.key) pre))) := by
        intro w hw
        have hne : w.entry ≠ v.entry := by
          intro heq
          have := entry_injective hev (List.mem_filter.mp hw).1 hv heq
          subst this
          simp [not_endsLife_of_created hw] at hend
        rw [Function.update_of_ne hne]
        exact hf w hw
      obtain ⟨hfin, hdel, hframe⟩ := ih (pre ++ [v]) (by simpa using hsplit) hf' _ rfl
      refine ⟨hfin, fun w hw hwe => ?_, fun e he => ?_⟩
      · rcases List.mem_cons.mp hw with rfl | hw
        · rw [hframe w.entry fun u hu hue => absurd hue (hlater u hu), Function.update_self, hfound]
          rfl
        · exact hdel w hw hwe
      · have hne : e ≠ v.entry := by
          rintro rfl
          simp [he v (by simp) rfl] at hend
        rw [hframe e fun u hu => he u (by simp [hu]), Function.update_of_ne hne]
    · rw [if_neg (fun h => hend (hwrite.mp h))]
      obtain ⟨hfin, hdel, hframe⟩ := ih (pre ++ [v]) (by simpa using hsplit) hf _ rfl
      refine ⟨hfin, fun w hw hwe => ?_, fun e he => hframe e fun u hu => he u (by simp [hu])⟩
      rcases List.mem_cons.mp hw with rfl | hw
      · exact absurd hwe hend
      · exact hdel w hw hwe

end

end Egad.Timeline
