import Egad.Timeline.Lives

/-! # `TimelineView::resolve` reads the life at a position

    The binary search finds the first packed value not below `(key, 0)`; from there the key's own
    events follow, in serial order, and the walk stops at the first one not ordered before the
    asking operation. -/

namespace Egad.Timeline
open Egad.Lib

/-- The binary search splits a sorted list at the probe. -/
theorem lowerBound_spec {packed : List ℕ} (hs : packed.Pairwise (· ≤ ·)) (probe : ℕ) :
    ∀ lo hi, lo ≤ hi → hi ≤ packed.length →
      (∀ x ∈ packed.take lo, x < probe) → (∀ x ∈ packed.drop hi, probe ≤ x) →
      (∀ x ∈ packed.take (lowerBound packed probe lo hi), x < probe) ∧
        ∀ x ∈ packed.drop (lowerBound packed probe lo hi), probe ≤ x := by
  intro lo hi
  have hmono := List.pairwise_iff_getElem.mp hs
  induction lo, hi using lowerBound.induct packed probe with
  | case1 lo hi hlt mid hmid ih =>
    intro _ hlen hl hh
    have hm : mid < hi := by simp only [mid, Nat.shiftRight_eq_div_pow]; omega
    rw [lowerBound, if_pos hlt]
    simp only [mid] at hmid hm ih ⊢
    rw [if_pos hmid]
    refine ih (by omega) hlen ?_ hh
    intro x hx
    obtain ⟨i, hi', rfl⟩ := List.mem_iff_getElem.mp hx
    rw [List.length_take] at hi'
    rw [List.getElem_take]
    rw [List.getD_eq_getElem?_getD, List.getElem?_eq_getElem (by omega), Option.getD_some] at hmid
    rcases Nat.lt_or_ge i (lo + (hi - lo) >>> 1) with h | h
    · exact lt_of_le_of_lt (hmono _ _ (by omega) (by omega) h) hmid
    · have : i = lo + (hi - lo) >>> 1 := by omega
      subst this; exact hmid
  | case2 lo hi hlt mid hmid ih =>
    intro _ hlen hl hh
    have hm : mid < hi := by simp only [mid, Nat.shiftRight_eq_div_pow]; omega
    rw [lowerBound, if_pos hlt]
    simp only [mid] at hmid hm ih ⊢
    rw [if_neg hmid]
    refine ih (by omega) (by omega) hl ?_
    intro x hx
    obtain ⟨i, hi', rfl⟩ := List.mem_iff_getElem.mp hx
    rw [List.length_drop] at hi'
    rw [List.getElem_drop]
    rw [List.getD_eq_getElem?_getD, List.getElem?_eq_getElem (by omega), Option.getD_some] at hmid
    rcases Nat.eq_zero_or_pos i with rfl | h
    · simpa using hmid
    · exact le_trans (not_lt.mp hmid) (hmono _ _ (by omega) (by omega) (by omega))
  | case3 lo hi hlt =>
    intro hle hlen hl hh
    have : lo = hi := by omega
    subst this
    rw [lowerBound, if_neg hlt]
    exact ⟨hl, hh⟩

section
variable {b : ℕ} {lookup : ℕ → ℕ} {evs : List Event} {cridBegin : ℕ}

variable (lookup) in
/-- Where the search stops, the key's timeline begins, and nothing of the key comes after it. -/
theorem drop_lowerBound (hf : Fits b evs) {k : ℕ} (hk : k < 2 ^ (64 - b)) :
    ∃ rest, (sortEvents b lookup evs).drop
        (lowerBound ((sortEvents b lookup evs).map SEvent.packed) (packEvent b k 0) 0
          (sortEvents b lookup evs).length) = (timelineOf evs k).map (pack b lookup) ++ rest ∧
      ∀ s, rest.head? = some s → s.key b ≠ k := by
  set sorted := sortEvents b lookup evs with hsorted
  set r := lowerBound (sorted.map SEvent.packed) (packEvent b k 0) 0 sorted.length with hr
  have hpacked : (sorted.map SEvent.packed).Pairwise (· ≤ ·) := by
    rw [List.pairwise_map]; exact stableSort_sorted SEvent.packed _
  obtain ⟨hlow, hhigh⟩ := lowerBound_spec hpacked (packEvent b k 0) 0 sorted.length (by omega)
    (by simp) (by simp) (by rw [List.drop_eq_nil_of_le (by simp)]; simp)
  rw [← hr] at hlow hhigh
  have hprobe : packEvent b k 0 = k * 2 ^ b := by
    rw [packEvent_eq hf.bits hk (Nat.two_pow_pos b), Nat.add_zero]
  have hdiv : ∀ s : SEvent, s.key b = s.packed / 2 ^ b := fun s => by
    simp [SEvent.key, eventKey, Nat.shiftRight_eq_div_pow]
  have hge : ∀ s ∈ sorted.drop r, k ≤ s.key b := by
    intro s hs
    have := hhigh s.packed (by rw [← List.map_drop]; exact List.mem_map_of_mem hs)
    rw [hdiv, Nat.le_div_iff_mul_le (Nat.two_pow_pos b), ← hprobe]
    exact this
  have htake : (sorted.take r).filter (fun s => s.key b = k) = [] := by
    rw [List.filter_eq_nil_iff]
    intro s hs
    have := hlow s.packed (by rw [← List.map_take]; exact List.mem_map_of_mem hs)
    rw [hprobe, ← Nat.div_lt_iff_lt_mul (Nat.two_pow_pos b), ← hdiv] at this
    simpa using this.ne
  have hrun : (sorted.drop r).takeWhile (fun s => s.key b = k) =
      (timelineOf evs k).map (pack b lookup) := by
    rw [takeWhile_eq_filter_of_sorted _ _ _
      ((sortEvents_sorted).sublist (List.drop_sublist r sorted)) hge, ← filter_sortEvents hf k,
      ← hsorted]
    conv_rhs => rw [← List.take_append_drop r sorted, List.filter_append, htake, List.nil_append]
  refine ⟨(sorted.drop r).dropWhile (fun s => s.key b = k), ?_, ?_⟩
  · rw [← hrun, List.takeWhile_append_dropWhile]
  · intro s hs hsk
    have := List.head?_dropWhile_not (fun s : SEvent => decide (s.key b = k)) (sorted.drop r)
    rw [hs] at this
    simp [hsk] at this

/-- The walk from a prefix of the timeline that is ordered before the operation. -/
theorem resolveWalk_spec (hev : evs.Pairwise (fun a b => a.entry < b.entry)) (hf : Fits b evs)
    (hm : MintFits lookup evs cridBegin) {f : ℕ → ℕ} (hfm : HoldsMinted lookup evs cridBegin f)
    (pos self : ℕ) {k : ℕ} {rest : List SEvent} (hrest : ∀ s, rest.head? = some s → s.key b ≠ k) :
    ∀ (post pre : List Event), timelineOf evs k = pre ++ post →
      (∀ v ∈ pre, v.before pos self = true) →
      resolveWalk b f k pos self
          (serialCrid lookup evs cridBegin (lifeFold (startLife lookup k) pre))
          (post.map (pack b lookup) ++ rest) =
        serialCrid lookup evs cridBegin (livesAt lookup evs pos self k) := by
  intro post
  induction post with
  | nil =>
    intro pre hsplit hpre
    rw [List.append_nil] at hsplit
    rw [List.map_nil, List.nil_append, livesAt_eq, hsplit, List.filter_eq_self.mpr hpre]
    cases rest with
    | nil => rfl
    | cons s rest => rw [resolveWalk, if_pos (hrest s rfl)]; rfl
  | cons v post ih =>
    intro pre hsplit hpre
    have hmem : v ∈ timelineOf evs k := by rw [hsplit]; simp
    obtain ⟨hv, hvk⟩ := mem_timelineOf.mp hmem
    rw [List.map_cons, List.cons_append, resolveWalk, key_pack hf hv, pos_pack hf hv,
      if_neg (not_not.mpr hvk)]
    by_cases hbefore : v.before pos self = true
    · have hgo : ¬ (pos < v.pos ∨ v.pos = pos ∧ self ≤ (pack b lookup v).entry) := by
        simp only [Event.before, decide_eq_true_eq] at hbefore
        simp only [pack]; omega
      rw [if_neg hgo]
      have hstep := codeStep_eq hev hm hfm hsplit
      rw [← ih (pre ++ [v]) (by simpa using hsplit) (by
        intro w hw
        rcases List.mem_append.mp hw with hw | hw
        · exact hpre w hw
        · rw [List.mem_singleton.mp hw]; exact hbefore), ← hstep]
      rfl
    · have hstop : pos < v.pos ∨ v.pos = pos ∧ self ≤ (pack b lookup v).entry := by
        simp only [Event.before, decide_eq_true_eq] at hbefore
        simp only [pack]; omega
      rw [if_pos hstop, livesAt_eq]
      -- the timeline is ordered, so nothing from `v` on is before the operation either
      have hlt := timelineOf_lt hev k
      rw [hsplit] at hlt
      have hnone : (v :: post).filter (Event.before pos self) = [] := by
        rw [List.filter_eq_nil_iff]
        intro w hw
        rcases List.mem_cons.mp hw with rfl | hw
        · exact hbefore
        · have hvw := (List.pairwise_cons.mp (List.pairwise_append.mp hlt).2.1).1 w hw
          simp only [Event.before, Event.lt, decide_eq_true_eq] at hvw hbefore ⊢
          omega
      rw [hsplit, List.filter_append, hnone, List.append_nil, List.filter_eq_self.mpr hpre]
      rfl

/-- What `resolve` computes before the insert case is looked at. -/
theorem resolve_eq (hev : evs.Pairwise (fun a b => a.entry < b.entry)) (hf : Fits b evs)
    (hm : MintFits lookup evs cridBegin) {t : Built} (ht : t.posBits = b)
    (hts : t.sorted = sortEvents b lookup evs)
    (hfm : HoldsMinted lookup evs cridBegin t.entryCrid) {k : ℕ} (pos self : ℕ) (isInsert : Bool)
    (hk : k < 2 ^ (64 - b)) (hins : isInsert = true → ∃ v ∈ evs, v.key = k) :
    t.resolve k pos self isInsert (lookup k) =
      if isInsert ∧ serialCrid lookup evs cridBegin (livesAt lookup evs pos self k) = kAbsent then
        t.entryCrid self
      else serialCrid lookup evs cridBegin (livesAt lookup evs pos self k) := by
  obtain ⟨rest, hdrop, hrest⟩ := drop_lowerBound lookup hf hk
  have hwalk := resolveWalk_spec hev hf hm hfm pos self hrest (timelineOf evs k) [] rfl (by simp)
  rw [lifeFold_nil, serialCrid_startLife] at hwalk
  subst ht
  cases htl : timelineOf evs k with
  | nil =>
    -- no event of the key: the search stops elsewhere and the epoch-start lookup stands
    have hno : isInsert = false := by
      by_contra h
      obtain ⟨v, hv, hvk⟩ := hins (by simpa using h)
      have := mem_timelineOf.mpr ⟨hv, hvk⟩
      rw [htl] at this; simp at this
    have hlive : serialCrid lookup evs cridBegin (livesAt lookup evs pos self k) = lookup k := by
      rw [livesAt_eq, htl, List.filter_nil, List.foldl_nil, serialCrid_startLife]
    rw [htl, List.map_nil, List.nil_append] at hdrop
    rw [hlive, hno]
    simp only [Built.resolve, hts, hdrop]
    cases rest with
    | nil => simp
    | cons s rest => simp [hrest s rfl]
  | cons v tl =>
    have hmem : v ∈ timelineOf evs k := by rw [htl]; simp
    obtain ⟨hv, hvk⟩ := mem_timelineOf.mp hmem
    have hne : (sortEvents t.posBits lookup evs).length ≠ 0 := by
      rw [sortEvents, length_stableSort, List.length_map]
      exact (List.length_pos_of_mem hv).ne'
    rw [htl, List.map_cons, List.cons_append] at hdrop hwalk
    have hkey : (pack t.posBits lookup v).key t.posBits = v.key := key_pack hf hv
    have hc0 : (pack t.posBits lookup v).c0 = lookup k := by simp [pack, hvk]
    simp only [Built.resolve, hts, if_neg hne, hdrop, hkey, hvk, hc0, hwalk, ne_eq,
      not_true_eq_false, if_false]

end

end Egad.Timeline
