import Egad.Ycsb.Index

/-! # The YCSB timeline path produces the serial run's epoch

    `serialOut` is what the serial run of an epoch gives each consumer of the index phase: the
    executor (record ids), the insert and delete logs, and the next epoch (the map). The timeline
    path produces it whenever the row check passes; the fast path is compared with it as well. -/

namespace Egad.Ycsb
open Egad.Lib Egad.Timeline

/-- Invariant of the index between epochs. -/
structure IndexWf (cfg : Config) (idx : Index) : Prop where
  /-- the rows handed out exist, and no row is numbered `kAbsent` -/
  rows : mintedBegin cfg idx ≤ cfg.numRecords
  ids : cfg.numRecords ≤ kAbsent
  below : ∀ k, idx.map k ≠ kAbsent → idx.map k < mintedBegin cfg idx
  inj : ∀ k k', idx.map k ≠ kAbsent → idx.map k = idx.map k' → k = k'
  clean : ∀ c, idx.delPos c = kAbsent

/-- An epoch the submitting side can produce: 32-bit keys other than the reserved one, 32-bit slot
    numbers, and deletes only when the mix has them. -/
structure EpochOk (cfg : Config) (slots : List Slot) : Prop where
  keys : ∀ s ∈ slots, s.key < kAbsent
  count : slots.length ≤ kAbsent
  deletes : ∀ s ∈ slots, s.op = .delete → 0 < cfg.numDeletes

/-- The record id of a slot in the serial run: what is live there, after the slot's own insert. -/
def slotCrid (lookup : ℕ → ℕ) (slots : List Slot) (cridBegin : ℕ) (x : Slot × ℕ) : ℕ :=
  serialCrid lookup (slotEvents slots) cridBegin
    (if x.1.op = .insert then
      some ((livesAt lookup (slotEvents slots) x.2 x.2 x.1.key).getD (.minted x.2))
    else livesAt lookup (slotEvents slots) x.2 x.2 x.1.key)

/-- The epoch of the serial run. -/
def serialOut (lookup : ℕ → ℕ) (slots : List Slot) (cridBegin : ℕ) : EpochOut :=
  let evs := slotEvents slots
  let rids := slots.zipIdx.map (slotCrid lookup slots cridBegin)
  { recordIds := rids
    ops := rids.zipWith paramOp (slots.map Slot.op)
    fieldIds := slots.map Slot.field
    mintedKeys := (created lookup evs).map Event.key
    edelKeys := (ended lookup evs).map Event.key
    edelCrids := (ended lookup evs).map fun v => serialCrid lookup evs cridBegin (found lookup evs v)
    map := fun k => serialCrid lookup evs cridBegin (finalLives lookup evs k) }

/-! ### Slots of an epoch -/

theorem mem_zipIdx_slots {slots : List Slot} {x : Slot × ℕ} :
    x ∈ slots.zipIdx ↔ slots[x.2]? = some x.1 := by
  rw [← List.mk_mem_zipIdx_iff_getElem?]

theorem slot_of_event {slots : List Slot} {v : Event} (hv : v ∈ slotEvents slots) :
    ∃ s, slots[v.entry]? = some s ∧ s.key = v.key ∧ v.pos = v.entry ∧
      (v.type = .insert ∧ s.op = .insert ∨ v.type = .delete ∧ s.op = .delete) := by
  obtain ⟨s, hs, h⟩ := mem_slotEvents.mp hv
  obtain ⟨-, hp, hk, ht⟩ := slotEvent_spec h
  exact ⟨s, hs, hk.symm, hp, ht⟩

theorem event_of_delete {slots : List Slot} {s : Slot} {i : ℕ} (hs : slots[i]? = some s)
    (hop : s.op = .delete) : (⟨i, s.key, .delete, i⟩ : Event) ∈ slotEvents slots :=
  mem_slotEvents.mpr ⟨s, hs, by simp [slotEvent, hop]⟩

theorem event_of_insert {slots : List Slot} {s : Slot} {i : ℕ} (hs : slots[i]? = some s)
    (hop : s.op = .insert) : (⟨i, s.key, .insert, i⟩ : Event) ∈ slotEvents slots :=
  mem_slotEvents.mpr ⟨s, hs, by simp [slotEvent, hop]⟩

theorem EpochOk.fits {cfg : Config} {slots : List Slot} (hok : EpochOk cfg slots) :
    Fits posBits (slotEvents slots) := by
  refine ⟨by decide, fun v hv => ?_, fun v hv => ?_⟩
  · obtain ⟨s, hs, hk, -, -⟩ := slot_of_event hv
    have := hok.keys s (List.mem_of_getElem? hs)
    rw [← hk]
    exact this.trans (by decide)
  · obtain ⟨hp, hlt⟩ := slotEvents_pos hv
    have := hok.count
    rw [hp]
    exact (hlt.trans_le this).trans (by decide)

/-! ### Row checks -/

theorem checkFreeRows_ok {cfg : Config} {idx : Index} (hrows : mintedBegin cfg idx ≤ cfg.numRecords)
    {want : ℕ} : checkFreeRows cfg idx.freeStart want = .ok () ↔
      mintedBegin cfg idx + want ≤ cfg.numRecords := by
  simp only [mintedBegin] at hrows ⊢
  simp only [checkFreeRows]
  split <;> split <;> simp <;> omega

/-- Fewer lives are created than inserts issued. -/
theorem created_length_le (lookup : ℕ → ℕ) (slots : List Slot) :
    (created lookup (slotEvents slots)).length ≤ (insKeys slots).length := by
  have hmap : (created lookup (slotEvents slots)).length ≤
      ((slotEvents slots).filter fun v => v.type = .insert).length := by
    rw [created]
    refine (List.monotone_filter_right _ fun v hv => ?_).length_le
    simp only [createsLife, decide_eq_true_eq] at hv ⊢
    exact hv.1
  refine hmap.trans (le_of_eq ?_)
  rw [insKeys, List.length_map, slotEvents, List.filter_filterMap, ← List.countP_eq_length_filter,
    List.length_filterMap_eq_countP]
  conv_rhs => rw [← List.zipIdx_map_fst 0 slots, List.countP_map]
  refine List.countP_congr fun x _ => ?_
  unfold slotEvent
  cases hop : x.1.op <;> simp [Option.filter, hop]

/-! ### The timeline path -/

section
variable {cfg : Config} {idx : Index} {slots : List Slot}

theorem mintFits_of_rows (hwf : IndexWf cfg idx)
    (hrows : checkFreeRows cfg idx.freeStart (insKeys slots).length = .ok ()) :
    MintFits idx.map (slotEvents slots) (mintedBegin cfg idx) := by
  have h1 := (checkFreeRows_ok hwf.rows).mp hrows
  have h2 := created_length_le idx.map slots
  have h3 := hwf.ids
  rw [MintFits]
  omega

/-- The epoch's timeline. -/
abbrev timeline (cfg : Config) (idx : Index) (slots : List Slot) : Built :=
  build posBits idx.map (mintedBegin cfg idx) idx.entryCrid (entriesOf slots)

theorem timeline_agrees (hwf : IndexWf cfg idx) (hok : EpochOk cfg slots)
    (hrows : checkFreeRows cfg idx.freeStart (insKeys slots).length = .ok ()) :
    Agrees (timeline cfg idx slots) idx.map (slotEvents slots) (mintedBegin cfg idx) ∧
    (timeline cfg idx slots).numMinted = (created idx.map (slotEvents slots)).length := by
  have hf := hok.fits
  have hm := mintFits_of_rows hwf hrows
  rw [← events_entriesOf] at hf hm ⊢
  exact ⟨build_agrees _ hf hm, build_numMinted _ _ _ hf⟩

/-- The state the timeline path leaves. -/
def generalIndex (cfg : Config) (idx : Index) (slots : List Slot) : Index :=
  let t := timeline cfg idx slots
  { idx with
    map := t.finalize idx.map
    hasErased := idx.hasErased || t.eraseKeys.length ≠ 0
    freeStart := idx.freeStart + t.numMinted
    entryCrid := t.entryCrid }

/-- With enough rows, the timeline path returns the epoch of the serial run. -/
theorem generalEpoch_eq (hwf : IndexWf cfg idx) (hok : EpochOk cfg slots)
    (hrows : checkFreeRows cfg idx.freeStart (insKeys slots).length = .ok ()) :
    generalEpoch cfg idx slots =
      .ok (generalIndex cfg idx slots, serialOut idx.map slots (mintedBegin cfg idx)) := by
  obtain ⟨hag, hnum⟩ := timeline_agrees hwf hok hrows
  have hcheck : checkFreeRows cfg idx.freeStart (timeline cfg idx slots).numMinted = .ok () := by
    rw [checkFreeRows_ok hwf.rows] at hrows ⊢
    have := created_length_le idx.map slots
    omega
  have hrids : (slots.zipIdx.map fun x => (timeline cfg idx slots).resolve x.1.key x.2 x.2
      (x.1.op = .insert) (idx.map x.1.key)) =
      slots.zipIdx.map (slotCrid idx.map slots (mintedBegin cfg idx)) := by
    refine List.map_congr_left fun x hx => ?_
    have hs := mem_zipIdx_slots.mp hx
    by_cases hop : x.1.op = .insert
    · have := hag.resolveInsert _ (event_of_insert hs hop) rfl
      simp only [hop, decide_true, slotCrid, if_true]
      exact this
    · have hkey := hok.keys x.1 (List.mem_of_getElem? hs)
      have hbits : kAbsent < 2 ^ (64 - posBits) := by decide
      simp only [hop, decide_false, slotCrid, if_false]
      exact hag.resolve x.1.key x.2 x.2 (hkey.trans hbits)
  simp only [generalEpoch, hcheck, hrids, hag.mintedKeys, hag.edelKeys, hag.edelCrids]
  change Except.ok (generalIndex cfg idx slots, _) = _
  rw [funext hag.finalize, serialOut]

theorem generalIndex_spec (hwf : IndexWf cfg idx) (hok : EpochOk cfg slots)
    (hrows : checkFreeRows cfg idx.freeStart (insKeys slots).length = .ok ()) :
    (generalIndex cfg idx slots).map = (serialOut idx.map slots (mintedBegin cfg idx)).map ∧
    (generalIndex cfg idx slots).freeStart =
      idx.freeStart + (created idx.map (slotEvents slots)).length := by
  obtain ⟨hag, hnum⟩ := timeline_agrees hwf hok hrows
  exact ⟨funext hag.finalize, by rw [generalIndex, hnum]⟩

end

end Egad.Ycsb
