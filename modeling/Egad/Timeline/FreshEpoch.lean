import Egad.Timeline.Correct
import Egad.Timeline.InsertFresh

/-! # Epochs whose inserts are of fresh keys

    When every insert of the epoch is of a key that is not live and not inserted twice, a key has at
    most one birth, so its life at a position needs no timeline: take the record of its insert if
    that is ordered before, else the epoch-start record (`baseLife`), unless a delete that found it
    is ordered before (`DeletedBefore`). This is what the index fast paths compute. -/

namespace Egad.Timeline
open Egad.Lib

/-- Every insert is of a key that is absent at the start and inserted only once. -/
structure Fresh (lookup : ℕ → ℕ) (evs : List Event) : Prop where
  distinct : ∀ v ∈ evs, ∀ w ∈ evs, v.type = .insert → w.type = .insert → v.key = w.key → v = w
  absent : ∀ v ∈ evs, v.type = .insert → lookup v.key = kAbsent

/-- The event that inserts key `k`, if there is one. -/
def insertOf (evs : List Event) (k : ℕ) : Option Event :=
  evs.find? fun v => v.type = .insert ∧ v.key = k

/-- The life of a key at a position when deletes are left out. -/
def baseLife (lookup : ℕ → ℕ) (evs : List Event) (pos self k : ℕ) : Option Life :=
  match insertOf evs k with
  | some v => if v.before pos self then some (.minted v.entry) else none
  | none => startLife lookup k

/-- A delete that finds the key's record is ordered before the position. -/
def DeletedBefore (lookup : ℕ → ℕ) (evs : List Event) (pos self k : ℕ) : Prop :=
  ∃ w ∈ evs, w.type = .delete ∧ w.key = k ∧ w.before pos self = true ∧
    baseLife lookup evs w.pos w.entry k ≠ none

section
variable {lookup : ℕ → ℕ} {evs : List Event}

theorem insertOf_some {k : ℕ} {v : Event} (h : insertOf evs k = some v) :
    v ∈ evs ∧ v.type = .insert ∧ v.key = k := by
  have := List.find?_some h
  simp only [decide_eq_true_eq] at this
  exact ⟨List.mem_of_find?_eq_some h, this⟩

theorem insertOf_eq (hfr : Fresh lookup evs) {v : Event} (hv : v ∈ evs) (ht : v.type = .insert) :
    insertOf evs v.key = some v := by
  cases h : insertOf evs v.key with
  | none =>
    have := List.find?_eq_none.mp h v hv
    simp [ht] at this
  | some w =>
    obtain ⟨hw, hwt, hwk⟩ := insertOf_some h
    rw [hfr.distinct w hw v hv hwt ht hwk]

theorem insertOf_none {k : ℕ} (h : insertOf evs k = none) {v : Event} (hv : v ∈ evs)
    (hk : v.key = k) : v.type = .delete := by
  have := List.find?_eq_none.mp h v hv
  cases ht : v.type with
  | delete => rfl
  | insert => simp [ht, hk] at this

/-- Births in a list of one key's events: the record of its insert, else the start. -/
def birth (s : Option Life) (l : List Event) : Option Life :=
  match l.find? (fun v => v.type = .insert) with
  | some v => some (.minted v.entry)
  | none => s

/-- Some delete of the list comes after the birth. -/
def DeletesBirth (s : Option Life) (l : List Event) : Prop :=
  ∃ pre w post, l = pre ++ w :: post ∧ w.type = .delete ∧ birth s pre ≠ none

theorem deletesBirth_nil (s : Option Life) : ¬ DeletesBirth s [] := by
  rintro ⟨pre, w, post, h, -⟩
  simp at h

theorem deletesBirth_concat (s : Option Life) (l : List Event) (v : Event) :
    DeletesBirth s (l ++ [v]) ↔ DeletesBirth s l ∨ (v.type = .delete ∧ birth s l ≠ none) := by
  constructor
  · rintro ⟨pre, w, post, h, hw, hb⟩
    rcases List.eq_nil_or_concat post with rfl | ⟨post', u, rfl⟩
    · obtain ⟨rfl, hvw⟩ := List.append_inj' h rfl
      simp only [List.cons.injEq, and_true] at hvw
      subst hvw
      exact Or.inr ⟨hw, hb⟩
    · rw [List.concat_eq_append, ← List.cons_append, ← List.append_assoc] at h
      obtain ⟨rfl, -⟩ := List.append_inj' h rfl
      exact Or.inl ⟨pre, w, post', rfl, hw, hb⟩
  · rintro (⟨pre, w, post, rfl, hw, hb⟩ | ⟨hw, hb⟩)
    · exact ⟨pre, w, post ++ [v], by simp, hw, hb⟩
    · exact ⟨l, v, [], rfl, hw, hb⟩

theorem birth_concat_delete (s : Option Life) (l : List Event) {v : Event} (hv : v.type = .delete) :
    birth s (l ++ [v]) = birth s l := by
  simp only [birth, List.find?_append, List.find?_singleton, hv]
  cases l.find? (fun v => decide (v.type = .insert)) <;> rfl

/-- One key's events with a single birth: absent once a delete has met it, else the birth. -/
theorem lifeFold_single_birth (s : Option Life) (l : List Event)
    (hone : l.Pairwise fun a b => ¬ (a.type = .insert ∧ b.type = .insert))
    (hs : ∀ v ∈ l, v.type = .insert → s = none) :
    (DeletesBirth s l ∧ lifeFold s l = none) ∨ (¬ DeletesBirth s l ∧ lifeFold s l = birth s l) := by
  induction l using List.reverseRecOn with
  | nil => exact Or.inr ⟨deletesBirth_nil s, rfl⟩
  | append_singleton l v ih =>
    obtain ⟨hl, -, hcross⟩ := List.pairwise_append.mp hone
    have hih := ih hl fun w hw => hs w (by simp [hw])
    rw [lifeFold_append, lifeFold_cons, lifeFold_nil, deletesBirth_concat]
    cases ht : v.type with
    | delete =>
      rw [birth_concat_delete s l ht]
      rcases hih with ⟨hex, -⟩ | ⟨hno, -⟩
      · exact Or.inl ⟨Or.inl hex, by simp [lifeStep, ht]⟩
      · by_cases hb : birth s l = none
        · exact Or.inr ⟨by simp [hb, hno], by simp [lifeStep, ht, hb]⟩
        · exact Or.inl ⟨Or.inr ⟨rfl, hb⟩, by simp [lifeStep, ht]⟩
    | insert =>
      -- the only insert of the list: nothing was alive before it
      have hnoins : l.find? (fun v => decide (v.type = .insert)) = none := by
        rw [List.find?_eq_none]
        intro w hw hwt
        exact hcross w hw v (by simp) ⟨by simpa using hwt, ht⟩
      have hsn : s = none := hs v (by simp) ht
      have hbl : ∀ pre post, l = pre ++ post → birth s pre = none := by
        intro pre post hpre
        have : pre.find? (fun v => decide (v.type = .insert)) = none := by
          rw [List.find?_eq_none] at hnoins ⊢
          exact fun w hw => hnoins w (by rw [hpre]; simp [hw])
        rw [birth, this, hsn]
      have hno : ¬ DeletesBirth s l := by
        rintro ⟨pre, w, post, hpre, -, hb⟩
        exact hb (hbl pre _ hpre)
      have hfold : lifeFold s l = none := by
        rcases hih with ⟨-, h⟩ | ⟨-, h⟩
        · exact h
        · rw [h]; exact hbl l [] (by simp)
      refine Or.inr ⟨by simp [hno], ?_⟩
      rw [hfold, birth, List.find?_append, hnoins]
      simp [lifeStep, ht]

/-- The prefix of a timeline ordered before a position has the birth `baseLife` names. -/
theorem birth_before (hfr : Fresh lookup evs) (pos self k : ℕ) :
    birth (startLife lookup k) ((timelineOf evs k).filter (Event.before pos self)) =
      baseLife lookup evs pos self k := by
  rw [baseLife]
  cases h : insertOf evs k with
  | none =>
    rw [birth, List.find?_eq_none.mpr]
    intro v hv hvt
    obtain ⟨hv, hvk⟩ := mem_timelineOf.mp (List.mem_of_mem_filter hv)
    simp [insertOf_none h hv hvk] at hvt
  | some v =>
    obtain ⟨hv, hvt, hvk⟩ := insertOf_some h
    have huniq : ∀ w ∈ (timelineOf evs k).filter (Event.before pos self), w.type = .insert → w = v := by
      intro w hw hwt
      obtain ⟨hw, hwk⟩ := mem_timelineOf.mp (List.mem_of_mem_filter hw)
      exact hfr.distinct w hw v hv hwt hvt (hwk.trans hvk.symm)
    by_cases hb : v.before pos self = true
    · simp only [hb, if_true]
      rw [birth]
      have hmem : v ∈ (timelineOf evs k).filter (Event.before pos self) :=
        List.mem_filter.mpr ⟨mem_timelineOf.mpr ⟨hv, hvk⟩, hb⟩
      cases hf : ((timelineOf evs k).filter (Event.before pos self)).find?
          (fun v => decide (v.type = .insert)) with
      | none => have := List.find?_eq_none.mp hf v hmem; simp [hvt] at this
      | some w =>
        rw [huniq w (List.mem_of_find?_eq_some hf) (by simpa using List.find?_some hf)]
    · simp only [hb]
      rw [birth, List.find?_eq_none.mpr]
      · simp [startLife, hfr.absent v hv hvt, ← hvk]
      · intro w hw hwt
        rw [huniq w hw (by simpa using hwt)] at hw
        exact hb (List.mem_filter.mp hw).2

/-- The serial run of an epoch with fresh inserts, in closed form. -/
theorem livesAt_fresh (hev : evs.Pairwise (fun a b => a.entry < b.entry)) (hfr : Fresh lookup evs)
    (pos self k : ℕ) :
    (DeletedBefore lookup evs pos self k ∧ livesAt lookup evs pos self k = none) ∨
    (¬ DeletedBefore lookup evs pos self k ∧
      livesAt lookup evs pos self k = baseLife lookup evs pos self k) := by
  set l := (timelineOf evs k).filter (Event.before pos self) with hl
  have hlt : l.Pairwise Event.lt := (timelineOf_lt hev k).sublist List.filter_sublist
  have hmem : ∀ v ∈ l, v ∈ evs ∧ v.key = k := fun v hv =>
    mem_timelineOf.mp (List.mem_of_mem_filter hv)
  have hone : l.Pairwise fun a b => ¬ (a.type = .insert ∧ b.type = .insert) := by
    refine hlt.imp_of_mem fun {a c} ha hc hac h => ?_
    have := hfr.distinct a (hmem a ha).1 c (hmem c hc).1 h.1 h.2
      ((hmem a ha).2.trans (hmem c hc).2.symm)
    subst this
    simp [Event.lt] at hac
  have hs : ∀ v ∈ l, v.type = .insert → startLife lookup k = none := by
    intro v hv hvt
    obtain ⟨hv, hvk⟩ := hmem v hv
    simp [startLife, ← hvk, hfr.absent v hv hvt]
  -- a delete in the prefix meets the base life of its own position
  have hdel : DeletesBirth (startLife lookup k) l ↔ DeletedBefore lookup evs pos self k := by
    obtain ⟨rest, hrest⟩ := timelineOf_before hev k pos self
    rw [← hl] at hrest
    have hpre : ∀ {pre w post}, l = pre ++ w :: post →
        birth (startLife lookup k) pre = baseLife lookup evs w.pos w.entry k := by
      intro pre w post hsplit
      have hT := timelineOf_lt hev k
      rw [← birth_before hfr w.pos w.entry k, hrest, hsplit, List.append_assoc, List.cons_append,
        filter_before_split]
      rw [hrest, hsplit, List.append_assoc, List.cons_append] at hT
      exact hT
    constructor
    · rintro ⟨pre, w, post, hsplit, hwt, hb⟩
      have hw : w ∈ l := by rw [hsplit]; simp
      exact ⟨w, (hmem w hw).1, hwt, (hmem w hw).2, (List.mem_filter.mp hw).2, by
        rw [← hpre hsplit]; exact hb⟩
    · rintro ⟨w, hw, hwt, hwk, hwb, hb⟩
      have hwl : w ∈ l := List.mem_filter.mpr ⟨mem_timelineOf.mpr ⟨hw, hwk⟩, hwb⟩
      obtain ⟨pre, post, hsplit⟩ := List.append_of_mem hwl
      exact ⟨pre, w, post, hsplit, hwt, by rw [hpre hsplit]; exact hb⟩
  rw [livesAt_eq, ← hl, ← birth_before hfr pos self k, ← hl, ← hdel]
  exact lifeFold_single_birth (startLife lookup k) l hone hs

/-! ### Created and ended lives of a fresh epoch -/

theorem found_insert_fresh (hev : evs.Pairwise (fun a b => a.entry < b.entry))
    (hfr : Fresh lookup evs) {v : Event} (hv : v ∈ evs) (ht : v.type = .insert) :
    found lookup evs v = none := by
  rcases livesAt_fresh hev hfr v.pos v.entry v.key with ⟨-, h⟩ | ⟨-, h⟩
  · exact h
  · rw [found, h, baseLife, insertOf_eq hfr hv ht]
    simp [Event.before]

/-- Every insert of a fresh epoch creates a life. -/
theorem created_fresh (hev : evs.Pairwise (fun a b => a.entry < b.entry)) (hfr : Fresh lookup evs) :
    created lookup evs = evs.filter fun v => v.type = .insert := by
  refine List.filter_congr fun v hv => ?_
  by_cases ht : v.type = .insert
  · simp [createsLife, ht, found_insert_fresh hev hfr hv ht]
  · simp [createsLife, ht]

theorem endsLife_fresh (hev : evs.Pairwise (fun a b => a.entry < b.entry)) (hfr : Fresh lookup evs)
    {w : Event} : endsLife lookup evs w = true ↔ w.type = .delete ∧
      ¬ DeletedBefore lookup evs w.pos w.entry w.key ∧
      baseLife lookup evs w.pos w.entry w.key ≠ none := by
  simp only [endsLife, found]
  rcases livesAt_fresh hev hfr w.pos w.entry w.key with ⟨hd, h⟩ | ⟨hd, h⟩
  · simp [h, hd]
  · simp [h, hd]

/-- A record that some delete finds is ended by exactly the first of them. -/
theorem deletedBefore_iff (hev : evs.Pairwise (fun a b => a.entry < b.entry))
    (hfr : Fresh lookup evs) (pos self k : ℕ) :
    DeletedBefore lookup evs pos self k ↔
      ∃ w ∈ ended lookup evs, w.key = k ∧ w.before pos self = true := by
  constructor
  · rintro ⟨w, hw, hwt, hwk, hwb, hbase⟩
    -- the first such delete in serial order
    have hex : ((serialOrder evs).find? fun u => u.type = .delete ∧ u.key = k ∧
        baseLife lookup evs u.pos u.entry k ≠ none).isSome := by
      rw [List.find?_isSome]
      exact ⟨w, mem_stableSort.mpr hw, by simp [hwt, hwk, hbase]⟩
    obtain ⟨u, hu⟩ := Option.isSome_iff_exists.mp hex
    obtain ⟨hpu, as, bs, hsplit, hfirst⟩ := List.find?_eq_some_iff_append.mp hu
    simp only [decide_eq_true_eq] at hpu
    have hord := serialOrder_lt hev
    rw [hsplit] at hord
    have hmem : ∀ x ∈ evs, x ∈ as ∨ x = u ∨ Event.lt u x := by
      intro x hx
      have hx' : x ∈ serialOrder evs := mem_stableSort.mpr hx
      rw [hsplit] at hx'
      rcases List.mem_append.mp hx' with h | h
      · exact Or.inl h
      · rcases List.mem_cons.mp h with h | h
        · exact Or.inr (Or.inl h)
        · exact Or.inr (Or.inr ((List.pairwise_cons.mp (List.pairwise_append.mp hord).2.1).1 x h))
    have hnone : ∀ x ∈ evs, x.type = .delete → x.key = k →
        baseLife lookup evs x.pos x.entry k ≠ none → x = u ∨ Event.lt u x := by
      intro x hx h1 h2 h3
      rcases hmem x hx with h | h
      · have := hfirst x h
        simp [h1, h2, h3] at this
      · exact h
    have hue : u ∈ evs := mem_stableSort.mp (List.mem_of_find?_eq_some hu)
    refine ⟨u, List.mem_filter.mpr ⟨hue, ?_⟩, hpu.2.1, ?_⟩
    · rw [endsLife_fresh hev hfr, hpu.2.1]
      refine ⟨hpu.1, ?_, hpu.2.2⟩
      rintro ⟨x, hx, h1, h2, hxb, h3⟩
      simp only [Event.before, decide_eq_true_eq] at hxb
      rcases hnone x hx h1 h2 h3 with rfl | hlt
      · omega
      · simp only [Event.lt] at hlt; omega
    · rcases hnone w hw hwt hwk hbase with rfl | hlt
      · exact hwb
      · simp only [Event.lt, Event.before, decide_eq_true_eq] at hlt hwb ⊢; omega
  · rintro ⟨w, hw, hwk, hwb⟩
    obtain ⟨hw, hwe⟩ := List.mem_filter.mp hw
    obtain ⟨hwt, -, hbase⟩ := (endsLife_fresh hev hfr).mp hwe
    exact ⟨w, hw, hwt, hwk, hwb, by rw [← hwk]; exact hbase⟩

theorem finalLives_eq_livesAt {pos : ℕ} (self : ℕ) (h : ∀ v ∈ evs, v.pos < pos) :
    finalLives lookup evs = livesAt lookup evs pos self := by
  rw [finalLives, livesAt, List.filter_eq_self.mpr]
  intro v hv
  have := h v (mem_stableSort.mp hv)
  simp [Event.before, this]

/-! ### The map with the epoch's inserts -/

/-- The life a key has in the map once the epoch's inserts are entered. -/
def bornLife (lookup : ℕ → ℕ) (evs : List Event) (k : ℕ) : Option Life :=
  match insertOf evs k with
  | some v => some (.minted v.entry)
  | none => startLife lookup k

theorem baseLife_some {pos self k : ℕ} {l : Life} (h : baseLife lookup evs pos self k = some l) :
    bornLife lookup evs k = some l := by
  unfold baseLife at h
  unfold bornLife
  split at h
  · split at h
    · exact h
    · simp at h
  · exact h

/-- The inserts of the epoch, in entry order. -/
def inserts (evs : List Event) : List Event := evs.filter fun v => v.type = .insert

variable {cridBegin : ℕ}

theorem mem_inserts {v : Event} : v ∈ inserts evs ↔ v ∈ evs ∧ v.type = .insert := by
  simp [inserts]

theorem inserts_keys_nodup (hev : evs.Pairwise (fun a b => a.entry < b.entry))
    (hfr : Fresh lookup evs) : ((inserts evs).map Event.key).Nodup := by
  rw [List.Nodup, List.pairwise_map]
  refine (hev.sublist List.filter_sublist).imp_of_mem fun {v w} hv hw hlt hk => ?_
  obtain ⟨hv, hvt⟩ := mem_inserts.mp hv
  obtain ⟨hw, hwt⟩ := mem_inserts.mp hw
  rw [hfr.distinct v hv w hw hvt hwt hk] at hlt
  exact absurd hlt (lt_irrefl _)

/-- The rank of an insert among the keys is its rank among the entries. -/
theorem idxOf_insert (hev : evs.Pairwise (fun a b => a.entry < b.entry)) (hfr : Fresh lookup evs)
    {v : Event} (hv : v ∈ evs) (ht : v.type = .insert) :
    (inserts evs)[((inserts evs).map Event.key).idxOf v.key]? = some v ∧
      ((inserts evs).map Event.entry).idxOf v.entry = ((inserts evs).map Event.key).idxOf v.key := by
  obtain ⟨i, hi, hvi⟩ := List.mem_iff_getElem.mp (mem_inserts.mpr ⟨hv, ht⟩)
  have hkey : ((inserts evs).map Event.key).idxOf v.key = i := by
    have := (inserts_keys_nodup hev hfr).idxOf_getElem i (by simpa using hi)
    rwa [List.getElem_map, hvi] at this
  have hnd : ((inserts evs).map Event.entry).Nodup := by
    rw [List.Nodup, List.pairwise_map]
    exact (hev.sublist List.filter_sublist).imp fun h => h.ne
  have hent : ((inserts evs).map Event.entry).idxOf v.entry = i := by
    have := hnd.idxOf_getElem i (by simpa using hi)
    rwa [List.getElem_map, hvi] at this
  rw [hkey, hent]
  exact ⟨by rw [List.getElem?_eq_getElem hi, hvi], rfl⟩

variable (cridBegin) in
/-- The map after the inserts holds the CRID of each key's born life. -/
theorem born_map (hev : evs.Pairwise (fun a b => a.entry < b.entry)) (hfr : Fresh lookup evs) (k : ℕ) :
    (if k ∈ (inserts evs).map Event.key then cridBegin + ((inserts evs).map Event.key).idxOf k
      else lookup k) = serialCrid lookup evs cridBegin (bornLife lookup evs k) := by
  rw [bornLife]
  cases h : insertOf evs k with
  | none =>
    rw [if_neg, serialCrid_startLife]
    intro hk
    obtain ⟨v, hv, hvk⟩ := List.mem_map.mp hk
    obtain ⟨hv, hvt⟩ := mem_inserts.mp hv
    simp [insertOf_none h hv hvk] at hvt
  | some v =>
    obtain ⟨hv, hvt, rfl⟩ := insertOf_some h
    rw [if_pos (List.mem_map_of_mem (mem_inserts.mpr ⟨hv, hvt⟩)), serialCrid, cridOf,
      created_fresh hev hfr]
    change _ = cridBegin + ((inserts evs).map Event.entry).idxOf v.entry
    rw [(idxOf_insert hev hfr hv hvt).2]

/-- The start records and the row counter of an epoch: start CRIDs are below the counter, belong to
    one key each, and the inserts still fit below `kAbsent`. -/
structure Rows (lookup : ℕ → ℕ) (evs : List Event) (cridBegin : ℕ) : Prop where
  below : ∀ k, lookup k ≠ kAbsent → lookup k < cridBegin
  inj : ∀ k k', lookup k ≠ kAbsent → lookup k = lookup k' → k = k'
  fits : cridBegin + (inserts evs).length ≤ kAbsent

theorem Rows.mintFits (hr : Rows lookup evs cridBegin)
    (hev : evs.Pairwise (fun a b => a.entry < b.entry)) (hfr : Fresh lookup evs) :
    MintFits lookup evs cridBegin := by
  rw [MintFits, created_fresh hev hfr]; exact hr.fits

/-- A record id of the map is tentative exactly when its key is inserted this epoch, and then its
    offset is the insert's rank. -/
theorem minted_offset (hev : evs.Pairwise (fun a b => a.entry < b.entry)) (hfr : Fresh lookup evs)
    (hr : Rows lookup evs cridBegin) (k : ℕ) :
    match insertOf evs k with
    | some v => serialCrid lookup evs cridBegin (bornLife lookup evs k) ≠ kAbsent ∧
        sub32 (serialCrid lookup evs cridBegin (bornLife lookup evs k)) cridBegin <
          (inserts evs).length ∧
        (inserts evs)[sub32 (serialCrid lookup evs cridBegin (bornLife lookup evs k)) cridBegin]? =
          some v
    | none => serialCrid lookup evs cridBegin (bornLife lookup evs k) = lookup k ∧
        (lookup k ≠ kAbsent → ¬ sub32 (lookup k) cridBegin < (inserts evs).length) := by
  have hborn := born_map cridBegin hev hfr k
  have hfits := hr.fits
  simp only [kAbsent] at hfits
  cases h : insertOf evs k with
  | none =>
    have hlook : serialCrid lookup evs cridBegin (bornLife lookup evs k) = lookup k := by
      rw [bornLife, h]; exact serialCrid_startLife k
    refine ⟨hlook, fun hk => ?_⟩
    have := hr.below k hk
    rw [sub32, Nat.mod_eq_of_lt (by omega)]
    omega
  | some v =>
    obtain ⟨hv, hvt, rfl⟩ := insertOf_some h
    obtain ⟨hget, -⟩ := idxOf_insert hev hfr hv hvt
    have hlt := (List.getElem?_eq_some_iff.mp hget).1
    rw [if_pos (List.mem_map_of_mem (mem_inserts.mpr ⟨hv, hvt⟩))] at hborn
    have hsub : sub32 (cridBegin + ((inserts evs).map Event.key).idxOf v.key) cridBegin =
        ((inserts evs).map Event.key).idxOf v.key := by
      rw [sub32, show cridBegin + ((inserts evs).map Event.key).idxOf v.key + 2 ^ 32 - cridBegin =
        ((inserts evs).map Event.key).idxOf v.key + 2 ^ 32 by omega, Nat.add_mod_right,
        Nat.mod_eq_of_lt (by omega)]
    rw [← hborn, hsub]
    refine ⟨?_, hlt, hget⟩
    simp only [kAbsent]; omega

/-- Two keys never hold the same record. -/
theorem born_inj (hev : evs.Pairwise (fun a b => a.entry < b.entry)) (hfr : Fresh lookup evs)
    (hr : Rows lookup evs cridBegin) {k k' : ℕ}
    (hk : serialCrid lookup evs cridBegin (bornLife lookup evs k) ≠ kAbsent)
    (h : serialCrid lookup evs cridBegin (bornLife lookup evs k) =
      serialCrid lookup evs cridBegin (bornLife lookup evs k')) : k = k' := by
  have h1 := minted_offset hev hfr hr k
  have h2 := minted_offset hev hfr hr k'
  cases hi : insertOf evs k with
  | none =>
    rw [hi] at h1
    cases hi' : insertOf evs k' with
    | none =>
      rw [hi'] at h2
      rw [h1.1, h2.1] at h
      rw [h1.1] at hk
      exact hr.inj k k' hk h
    | some v' =>
      rw [hi'] at h2
      rw [← h, h1.1] at h2
      rw [h1.1] at hk
      exact absurd h2.2.1 (h1.2 hk)
  | some v =>
    rw [hi] at h1
    cases hi' : insertOf evs k' with
    | none =>
      rw [hi'] at h2
      rw [h, h2.1] at h1
      exact absurd h1.2.1 (h2.2 h1.1)
    | some v' =>
      rw [hi'] at h2
      rw [h, h2.2.2] at h1
      obtain ⟨-, -, hv⟩ := insertOf_some hi
      obtain ⟨-, -, hv'⟩ := insertOf_some hi'
      have : v' = v := by simpa using h1.2.2
      rw [← hv, ← hv', this]

/-- A born life has a record. -/
theorem born_ne_absent (hev : evs.Pairwise (fun a b => a.entry < b.entry)) (hfr : Fresh lookup evs)
    (hr : Rows lookup evs cridBegin) {k : ℕ} {l : Life} (h : bornLife lookup evs k = some l) :
    serialCrid lookup evs cridBegin (some l) ≠ kAbsent := by
  have hoff := minted_offset hev hfr hr k
  rw [← h]
  cases hi : insertOf evs k with
  | some v => rw [hi] at hoff; exact hoff.1
  | none =>
    rw [hi] at hoff
    rw [hoff.1]
    intro hk
    simp [bornLife, hi, startLife, hk] at h

/-! ### The end of a fresh epoch -/

variable (cridBegin) in
/-- Taking out the keys of the effective deletes leaves the final lives. -/
theorem final_fresh (hev : evs.Pairwise (fun a b => a.entry < b.entry)) (hfr : Fresh lookup evs)
    {pos : ℕ} (hpos : ∀ v ∈ evs, v.pos < pos) (k : ℕ) :
    (if k ∈ (ended lookup evs).map Event.key then kAbsent
      else serialCrid lookup evs cridBegin (bornLife lookup evs k)) =
      serialCrid lookup evs cridBegin (finalLives lookup evs k) := by
  have hbefore : ∀ v ∈ evs, v.before pos 0 = true := by
    intro v hv
    simp [Event.before, hpos v hv]
  have hmem : k ∈ (ended lookup evs).map Event.key ↔ DeletedBefore lookup evs pos 0 k := by
    rw [deletedBefore_iff hev hfr, List.mem_map]
    constructor
    · rintro ⟨w, hw, hk⟩
      exact ⟨w, hw, hk, hbefore w (List.mem_of_mem_filter hw)⟩
    · rintro ⟨w, hw, hk, -⟩
      exact ⟨w, hw, hk⟩
  have hbase : baseLife lookup evs pos 0 k = bornLife lookup evs k := by
    rw [baseLife, bornLife]
    cases hi : insertOf evs k with
    | none => rfl
    | some v => simp only [hbefore v (insertOf_some hi).1, if_true]
  rw [finalLives_eq_livesAt 0 hpos]
  rcases livesAt_fresh hev hfr pos 0 k with ⟨hdb, h⟩ | ⟨hdb, h⟩
  · rw [if_pos (hmem.mpr hdb), h]; rfl
  · rw [if_neg fun hk => hdb (hmem.mp hk), h, hbase]

/-- A record that some delete finds is ended by one of them. -/
theorem ended_of_found (hev : evs.Pairwise (fun a b => a.entry < b.entry)) (hfr : Fresh lookup evs)
    {w : Event} (hw : w ∈ evs) (hwt : w.type = .delete) {l : Life}
    (hl : baseLife lookup evs w.pos w.entry w.key = some l) :
    ∃ u ∈ ended lookup evs, found lookup evs u = some l := by
  have hdb : DeletedBefore lookup evs (w.pos + 1) 0 w.key :=
    ⟨w, hw, hwt, rfl, by simp [Event.before], by rw [hl]; simp⟩
  obtain ⟨u, hu, huk, -⟩ := (deletedBefore_iff hev hfr _ _ _).mp hdb
  obtain ⟨-, hndb, hbase⟩ := (endsLife_fresh hev hfr).mp (List.mem_filter.mp hu).2
  obtain ⟨l', hl'⟩ := Option.ne_none_iff_exists'.mp hbase
  refine ⟨u, hu, ?_⟩
  rcases livesAt_fresh hev hfr u.pos u.entry u.key with ⟨h, -⟩ | ⟨-, h⟩
  · exact absurd h hndb
  · rw [found, h, hl', ← baseLife_some hl', huk, baseLife_some hl]

end

end Egad.Timeline
