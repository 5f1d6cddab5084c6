import Egad.Timeline.JournalRun

/-! # The YCSB serial oracle (`benchmarks/ycsb_timeline_oracle.cpp`)

    An epoch of YCSB transactions is a list of slots, slot `tid * 10 + i` the `i`-th operation of
    transaction `tid`; the slot is the operation's serial position and its timeline entry at once.
    `replayEpoch` is the oracle's loop: one operation after the other on a live map, minting from a
    counter. It hands out exactly the CRIDs of the serial run (`replay_run`). -/

namespace Egad.Ycsb
open Egad.Lib Egad.Timeline

/-- `YcsbOpType`. -/
inductive YcsbOpType where
  | read | fullRead | update | readModifyWrite | fullReadModifyWrite | insert | delete | noop
  deriving DecidableEq, Repr

/-- One operation of a `YcsbTxn`: `ops[i]`, `keys[i]`, `fields[i]`. -/
structure Slot where
  op : YcsbOpType
  key : ℕ
  field : ℕ
  deriving DecidableEq, Repr

/-- `k_extract_ops`: the timeline entry of a slot. -/
def extractOps (s : Slot) (slot : ℕ) : Entry :=
  { insKey := if s.op = .insert then some s.key else none
    delKey := if s.op = .delete then some s.key else none
    pos := slot }

/-- The timeline entries of an epoch. -/
def entriesOf (slots : List Slot) : List Entry := slots.zipIdx.map fun x => extractOps x.1 x.2

/-- The oracle's state inside one epoch: `live_`, `epoch_minted` and the CRIDs of `ended_`. -/
structure Oracle where
  live : ℕ → ℕ
  minted : ℕ
  ended : List ℕ

/-- One iteration of `replayEpoch`: the new state and the expected record id. `cridBegin` is
    `base + free_start_`. -/
def replayOp (cridBegin : ℕ) (o : Oracle) (s : Slot) : Oracle × ℕ :=
  match s.op with
  | .insert =>
    if o.live s.key = kAbsent then
      ({ o with live := Function.update o.live s.key (cridBegin + o.minted), minted := o.minted + 1 },
        cridBegin + o.minted)
    else (o, o.live s.key)
  | .delete =>
    if o.live s.key ≠ kAbsent then
      ({ o with live := Function.update o.live s.key kAbsent, ended := o.ended ++ [o.live s.key] },
        o.live s.key)
    else (o, kAbsent)
  | _ => (o, o.live s.key)

/-- The oracle after a list of operations. -/
def replay (cridBegin : ℕ) (o : Oracle) (slots : List Slot) : Oracle :=
  slots.foldl (fun o s => (replayOp cridBegin o s).1) o

/-- `replayEpoch`: the expected record id of every slot. -/
def replayEpoch (cridBegin : ℕ) (o : Oracle) : List Slot → List ℕ
  | [] => []
  | s :: slots => (replayOp cridBegin o s).2 :: replayEpoch cridBegin (replayOp cridBegin o s).1 slots

/-! ### Slots and events -/

/-- The event of a slot, if it is an insert or a delete. -/
def slotEvent (s : Slot) (slot : ℕ) : Option Event :=
  match s.op with
  | .insert => some ⟨slot, s.key, .insert, slot⟩
  | .delete => some ⟨slot, s.key, .delete, slot⟩
  | _ => none

theorem gatherEvent_extractOps (s : Slot) (slot : ℕ) :
    gatherEvent (extractOps s slot) slot = slotEvent s slot := by
  unfold gatherEvent extractOps slotEvent
  cases s.op <;> rfl

/-- The events of an epoch. -/
def slotEvents (slots : List Slot) : List Event :=
  slots.zipIdx.filterMap fun x => slotEvent x.1 x.2

theorem events_entriesOf (slots : List Slot) : events (entriesOf slots) = slotEvents slots := by
  have hzip : (entriesOf slots).zipIdx = slots.zipIdx.map fun x => (extractOps x.1 x.2, x.2) := by
    apply List.ext_getElem
    · simp [entriesOf]
    · intro i h1 h2
      simp [entriesOf]
  rw [events, hzip, List.filterMap_map, slotEvents]
  refine List.filterMap_congr fun x _ => ?_
  exact gatherEvent_extractOps x.1 x.2

theorem slotEvents_concat (slots : List Slot) (s : Slot) :
    slotEvents (slots ++ [s]) = slotEvents slots ++ (slotEvent s slots.length).toList := by
  rw [slotEvents, List.zipIdx_append, List.filterMap_append, slotEvents]
  congr 1
  simp only [List.zipIdx_cons, List.zipIdx_nil, List.filterMap_cons, List.filterMap_nil, Nat.zero_add]
  cases slotEvent s slots.length <;> rfl

theorem slotEvents_ordered (slots : List Slot) :
    (slotEvents slots).Pairwise (fun a b => a.entry < b.entry) := by
  rw [← events_entriesOf]; exact events_ordered _

theorem slotEvent_spec {s : Slot} {i : ℕ} {v : Event} (h : slotEvent s i = some v) :
    v.entry = i ∧ v.pos = i ∧ v.key = s.key ∧
      (v.type = .insert ∧ s.op = .insert ∨ v.type = .delete ∧ s.op = .delete) := by
  unfold slotEvent at h
  split at h <;> simp_all <;> subst h <;> simp

theorem mem_slotEvents {slots : List Slot} {v : Event} :
    v ∈ slotEvents slots ↔ ∃ s, slots[v.entry]? = some s ∧ slotEvent s v.entry = some v := by
  rw [slotEvents, List.mem_filterMap]
  constructor
  · rintro ⟨⟨s, i⟩, hmem, h⟩
    have hi := (slotEvent_spec h).1
    rw [List.mk_mem_zipIdx_iff_getElem?] at hmem
    subst hi
    exact ⟨s, hmem, h⟩
  · rintro ⟨s, hs, h⟩
    exact ⟨(s, v.entry), by rw [List.mk_mem_zipIdx_iff_getElem?]; exact hs, h⟩

theorem slotEvents_pos {slots : List Slot} {v : Event} (hv : v ∈ slotEvents slots) :
    v.pos = v.entry ∧ v.entry < slots.length := by
  obtain ⟨s, hs, h⟩ := mem_slotEvents.mp hv
  exact ⟨(slotEvent_spec h).2.1, (List.getElem?_eq_some_iff.mp hs).1⟩

/-! ### The oracle's loop is the serial run -/

/-- The events of a prefix are the epoch's events before its end. -/
theorem slotEvents_append (pre post : List Slot) : ∃ rest,
    slotEvents (pre ++ post) = slotEvents pre ++ rest ∧ ∀ v ∈ rest, pre.length ≤ v.entry := by
  refine ⟨(post.zipIdx pre.length).filterMap fun x => slotEvent x.1 x.2, ?_, ?_⟩
  · rw [slotEvents, List.zipIdx_append, List.filterMap_append, slotEvents, Nat.zero_add]
  · intro v hv
    obtain ⟨⟨s, i⟩, hmem, h⟩ := List.mem_filterMap.mp hv
    rw [(slotEvent_spec h).1]
    exact List.le_snd_of_mem_zipIdx hmem

section
variable {lookup : ℕ → ℕ} {cridBegin : ℕ}

/-- At a slot, the events ordered before it are those of the earlier slots. -/
theorem livesAt_slot (pre post : List Slot) :
    livesAt lookup (slotEvents (pre ++ post)) pre.length pre.length =
      (slotEvents pre).foldl step (startLife lookup) := by
  have hsorted : serialOrder (slotEvents (pre ++ post)) = slotEvents (pre ++ post) := by
    refine stableSort_of_sorted ((slotEvents_ordered _).imp_of_mem fun {v w} hv hw h => ?_)
    rw [(slotEvents_pos hv).1, (slotEvents_pos hw).1]
    exact h.le
  obtain ⟨rest, hrest, hge⟩ := slotEvents_append pre post
  have hpos : ∀ v ∈ slotEvents pre ++ rest, v.pos = v.entry := by
    intro v hv
    rw [← hrest] at hv
    exact (slotEvents_pos hv).1
  rw [livesAt, hsorted, hrest, List.filter_append, List.filter_eq_self.mpr, List.filter_eq_nil_iff.mpr,
    List.append_nil]
  · intro v hv
    have h1 := hge v hv
    have h2 := hpos v (by simp [hv])
    simp only [Event.before, decide_eq_true_eq]
    omega
  · intro v hv
    have h1 := (slotEvents_pos hv).2
    have h2 := hpos v (by simp [hv])
    simp only [Event.before, decide_eq_true_eq]
    omega

theorem slotEvents_inSerialOrder (slots : List Slot) : InSerialOrder (slotEvents slots) := by
  refine ⟨slotEvents_ordered slots, (slotEvents_ordered slots).imp_of_mem fun {v w} hv hw h => ?_⟩
  rw [(slotEvents_pos hv).1, (slotEvents_pos hw).1]
  exact h.le

/-- A journal whose next id is `cridBegin`; the keys of the earlier ids play no part. -/
def startJournal (lookup : ℕ → ℕ) (cridBegin : ℕ) : Journal ℕ :=
  ⟨lookup, List.replicate cridBegin 0, []⟩

/-- The oracle's state against the journal. -/
structure Tracks (cridBegin : ℕ) (o : Oracle) (j : Journal ℕ) : Prop where
  live : o.live = j.live
  minted : cridBegin + o.minted = j.minted.length
  ended : o.ended = j.ended.map Prod.snd

/-- One operation of the oracle is its event on the journal. -/
theorem tracks_step {o : Oracle} {j : Journal ℕ} (h : Tracks cridBegin o j) (s : Slot) (i : ℕ) :
    Tracks cridBegin (replayOp cridBegin o s).1 ((slotEvent s i).toList.foldl applyEvent j) := by
  obtain ⟨hlive, hminted, hended⟩ := h
  cases hop : s.op with
  | insert =>
    simp only [slotEvent, hop, Option.toList_some, List.foldl_cons, List.foldl_nil, applyEvent,
      Journal.insert, replayOp, hlive]
    split
    · exact ⟨by rw [← hminted], by simp only [List.length_append, List.length_singleton]; omega, hended⟩
    · exact ⟨hlive, hminted, hended⟩
  | delete =>
    simp only [slotEvent, hop, Option.toList_some, List.foldl_cons, List.foldl_nil, applyEvent,
      Journal.delete, replayOp, hlive]
    split
    · exact ⟨rfl, hminted, by simp [hended]⟩
    · exact ⟨hlive, hminted, hended⟩
  | _ =>
    simp only [slotEvent, hop, Option.toList_none, List.foldl_nil, replayOp]
    exact ⟨hlive, hminted, hended⟩

variable (lookup cridBegin) in
/-- The oracle's loop is the journal of the slots' events. -/
theorem replay_tracks (pre : List Slot) : Tracks cridBegin (replay cridBegin ⟨lookup, 0, []⟩ pre)
    ((slotEvents pre).foldl applyEvent (startJournal lookup cridBegin)) := by
  induction pre using List.reverseRecOn with
  | nil => exact ⟨rfl, by simp [replay, slotEvents, startJournal], rfl⟩
  | append_singleton pre s ih =>
    rw [slotEvents_concat, List.foldl_append, replay, List.foldl_append, List.foldl_cons,
      List.foldl_nil]
    exact tracks_step ih s pre.length

/-- The oracle after the slots of a prefix: its map is the serial run's, its counter the number of
    lives created so far, its list the CRIDs ended so far. -/
structure ReplaySpec (lookup : ℕ → ℕ) (slots : List Slot) (cridBegin : ℕ) (pre : List Slot)
    (o : Oracle) : Prop where
  live : ∀ k, o.live k = serialCrid lookup (slotEvents slots) cridBegin
    (livesAt lookup (slotEvents slots) pre.length pre.length k)
  minted : o.minted = ((slotEvents pre).filter (createsLife lookup (slotEvents slots))).length
  ended : o.ended = ((slotEvents pre).filter (endsLife lookup (slotEvents slots))).map
    fun v => serialCrid lookup (slotEvents slots) cridBegin (found lookup (slotEvents slots) v)

theorem replay_run {slots : List Slot} (hm : MintFits lookup (slotEvents slots) cridBegin)
    (pre post : List Slot) (hsl : slots = pre ++ post) :
    ReplaySpec lookup slots cridBegin pre (replay cridBegin ⟨lookup, 0, []⟩ pre) := by
  obtain ⟨rest, hrest, -⟩ := slotEvents_append pre post
  obtain ⟨hlive, hminted, hended⟩ := replay_tracks lookup cridBegin pre
  have hlen : (startJournal lookup cridBegin).minted.length = cridBegin := by simp [startJournal]
  have hrun : Follows lookup (slotEvents slots) (startJournal lookup cridBegin) (slotEvents pre) _ :=
    journal_run (slotEvents_inSerialOrder slots) rfl (by rw [hlen]; exact hm) (slotEvents pre) rest
      (by rw [hsl, hrest])
  obtain ⟨hlive', hminted', hended'⟩ := hrun
  rw [hlen] at hlive' hended'
  refine ⟨fun k => ?_, ?_, ?_⟩
  · rw [hlive, hlive' k, hsl, livesAt_slot]
  · rw [hminted', List.length_append, List.length_map, hlen] at hminted
    omega
  · rw [hended, hended']
    simp [startJournal]

/-- The oracle's map tells whether the key has a life. -/
theorem ReplaySpec.absent_iff {slots pre : List Slot} {o : Oracle}
    (h : ReplaySpec lookup slots cridBegin pre o)
    (hm : MintFits lookup (slotEvents slots) cridBegin) (k : ℕ) :
    o.live k = kAbsent ↔ livesAt lookup (slotEvents slots) pre.length pre.length k = none := by
  rw [h.live k]
  exact livesAt_absent_iff (slotEvents_ordered _) hm pre.length pre.length k

theorem replayEpoch_length (o : Oracle) : ∀ slots : List Slot,
    (replayEpoch cridBegin o slots).length = slots.length := by
  intro slots
  induction slots generalizing o with
  | nil => rfl
  | cons s slots ih => simp [replayEpoch, ih]

theorem replayEpoch_getElem : ∀ (slots : List Slot) (o : Oracle) (i : ℕ) (hi : i < slots.length)
    (hi' : i < (replayEpoch cridBegin o slots).length),
    (replayEpoch cridBegin o slots)[i] =
      (replayOp cridBegin (replay cridBegin o (slots.take i)) slots[i]).2
  | s :: slots, o, 0, _, _ => rfl
  | s :: slots, o, i + 1, hi, hi' => by
    simp only [replayEpoch, List.getElem_cons_succ, List.take_succ_cons, replay, List.foldl_cons]
    exact replayEpoch_getElem slots _ i (by simpa using hi) (by simpa [replayEpoch] using hi')

/-- Anything but an insert is expected to see what is live. -/
theorem replayOp_of_ne_insert {o : Oracle} {s : Slot} (hop : s.op ≠ .insert) :
    (replayOp cridBegin o s).2 = o.live s.key := by
  unfold replayOp
  cases hs : s.op with
  | insert => exact absurd hs hop
  | delete => by_cases hl : o.live s.key = kAbsent <;> simp [hl]
  | _ => rfl

/-- Every slot of a YCSB epoch resolves to the oracle's expected record id. -/
theorem resolve_eq_replayOp {slots pre post : List Slot} {s : Slot} {t : Built}
    (hm : MintFits lookup (slotEvents slots) cridBegin)
    (ht : Agrees t lookup (slotEvents slots) cridBegin) (hsl : slots = pre ++ s :: post)
    (hkey : s.key < 2 ^ (64 - t.posBits)) :
    t.resolve s.key pre.length pre.length (s.op = .insert) (lookup s.key) =
      (replayOp cridBegin (replay cridBegin ⟨lookup, 0, []⟩ pre) s).2 := by
  subst hsl
  have htr := replay_run hm pre (s :: post) rfl
  set o := replay cridBegin ⟨lookup, 0, []⟩ pre with ho
  have habs := htr.absent_iff hm s.key
  by_cases hop : s.op = .insert
  · have hse : slotEvent s pre.length = some ⟨pre.length, s.key, .insert, pre.length⟩ := by
      simp [slotEvent, hop]
    have hf : found lookup (slotEvents (pre ++ s :: post)) ⟨pre.length, s.key, .insert, pre.length⟩ =
        livesAt lookup (slotEvents (pre ++ s :: post)) pre.length pre.length s.key := rfl
    have hsplit : slotEvents (pre ++ s :: post) = slotEvents pre ++
        ⟨pre.length, s.key, .insert, pre.length⟩ ::
          ((post.zipIdx (pre.length + 1)).filterMap fun x => slotEvent x.1 x.2) := by
      rw [slotEvents, List.zipIdx_append, List.filterMap_append, slotEvents, Nat.zero_add,
        List.zipIdx_cons, List.filterMap_cons, hse]
    have hmem : (⟨pre.length, s.key, .insert, pre.length⟩ : Event) ∈ slotEvents (pre ++ s :: post) :=
      mem_slotEvents.mpr ⟨s, by simp, hse⟩
    have hres := ht.resolveInsert _ hmem rfl
    simp only [hop, decide_true]
    rw [hres, hf, lifeStep]
    by_cases hl : o.live s.key = kAbsent
    · have hcr : createsLife lookup (slotEvents (pre ++ s :: post))
          ⟨pre.length, s.key, .insert, pre.length⟩ = true := by
        simp [createsLife, hf, habs.mp hl]
      have hrank := idxOf_created_at (slotEvents_ordered _) hsplit hcr
      simp only [replayOp, hop, hl, if_true, habs.mp hl, Option.getD_none]
      rw [serialCrid, cridOf, hrank, htr.minted]
    · obtain ⟨l, hl'⟩ := Option.ne_none_iff_exists'.mp ((not_congr habs).mp hl)
      simp only [replayOp, hop, hl, if_false]
      rw [hl', Option.getD_some, htr.live, hl']
  · simp only [hop, decide_false]
    rw [ht.resolve s.key pre.length pre.length hkey, replayOp_of_ne_insert hop, htr.live]

/-- The epoch timeline is the serial run, for every epoch-start map, every list of entries and every
    CRID counter whose minted ids stay below `kAbsent`; on the slots of a YCSB epoch it is
    `replayEpoch`, record id for record id. -/
theorem timeline_eq_serial_oracle {posBits : ℕ} {old : ℕ → ℕ} {entries : List Entry}
    (hf : Fits posBits (events entries))
    (hm : cridBegin + (build posBits lookup cridBegin old entries).numMinted ≤ kAbsent) :
    Agrees (build posBits lookup cridBegin old entries) lookup (events entries) cridBegin ∧
    ∀ slots : List Slot, entries = entriesOf slots → (∀ s ∈ slots, s.key < 2 ^ (64 - posBits)) →
      slots.zipIdx.map (fun x => (build posBits lookup cridBegin old entries).resolve x.1.key x.2 x.2
          (x.1.op = .insert) (lookup x.1.key)) = replayEpoch cridBegin ⟨lookup, 0, []⟩ slots ∧
      (build posBits lookup cridBegin old entries).numMinted =
        (replay cridBegin ⟨lookup, 0, []⟩ slots).minted ∧
      (build posBits lookup cridBegin old entries).edelCrids =
        (replay cridBegin ⟨lookup, 0, []⟩ slots).ended ∧
      (build posBits lookup cridBegin old entries).finalize lookup =
        (replay cridBegin ⟨lookup, 0, []⟩ slots).live := by
  have hnum := build_numMinted lookup cridBegin old hf
  have hm' : MintFits lookup (events entries) cridBegin := by rw [MintFits, ← hnum]; exact hm
  have hag := build_agrees old hf hm'
  refine ⟨hag, ?_⟩
  rintro slots rfl hkeys
  rw [events_entriesOf] at hm' hag hnum
  have htr := replay_run hm' slots [] (by simp)
  have hlast : livesAt lookup (slotEvents slots) slots.length slots.length =
      finalLives lookup (slotEvents slots) := by
    rw [livesAt, finalLives, List.filter_eq_self.mpr]
    intro v hv
    have := slotEvents_pos ((stableSort_perm _ _).mem_iff.mp hv)
    simp only [Event.before, decide_eq_true_eq]
    omega
  refine ⟨?_, by rw [hnum, htr.minted, created], by rw [hag.edelCrids, htr.ended, ended], ?_⟩
  · apply List.ext_getElem
    · simp [replayEpoch_length]
    · intro i hi hi'
      have hlt : i < slots.length := by simpa using hi
      have hsl : slots = slots.take i ++ slots[i] :: slots.drop (i + 1) := by
        rw [← List.drop_eq_getElem_cons hlt, List.take_append_drop]
      have hres := resolve_eq_replayOp (s := slots[i]) hm' hag hsl (hkeys _ (List.getElem_mem hlt))
      rw [List.length_take, Nat.min_eq_left hlt.le] at hres
      rw [replayEpoch_getElem slots _ i hlt hi', ← hres]
      simp
  · funext k
    rw [hag.finalize k, htr.live k, hlast]

end

/-- Key 7 is live at the start; it is deleted, read, and inserted again. -/
def reinsertEpoch : List Slot :=
  [⟨.delete, 7, 0⟩, ⟨.read, 7, 0⟩, ⟨.insert, 7, 0⟩, ⟨.update, 7, 0⟩]

def reinsertStart : ℕ → ℕ := fun k => if k = 7 then 3 else kAbsent

theorem timeline_eq_serial_oracle_reinsert :
    Agrees (build 32 reinsertStart 10 (fun _ => 0) (entriesOf reinsertEpoch)) reinsertStart
      (events (entriesOf reinsertEpoch)) 10 ∧
    reinsertEpoch.zipIdx.map (fun x => (build 32 reinsertStart 10 (fun _ => 0)
      (entriesOf reinsertEpoch)).resolve x.1.key x.2 x.2 (x.1.op = .insert) (reinsertStart x.1.key)) =
      [3, kAbsent, 10, 10] := by
  have h := @timeline_eq_serial_oracle reinsertStart 10 32 (fun _ => 0) (entriesOf reinsertEpoch)
    ⟨by decide, by decide, by decide⟩ (by decide)
  exact ⟨h.1, (h.2 reinsertEpoch rfl (by decide)).1.trans (by decide)⟩
end Egad.Ycsb
