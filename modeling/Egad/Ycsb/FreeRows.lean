import Egad.Ycsb.GeneralPath

/-! # When the YCSB index runs out of rows

    An insert takes a row only when it creates a life. The timeline path counts the lives before it
    asks for rows; the fast path asks for a row for every insert, before it knows which of them are
    of fresh keys:

        checkFreeRows (inserts) ─▶ insertFresh ──reject──▶ checkFreeRows (lives)
             │ throws                                            │ never throws here
             ▼
        although lives ≤ rows < inserts -/

namespace Egad.Ycsb
open Egad.Lib Egad.Timeline

/-- The rows not yet minted. -/
def freeRows (cfg : Config) (idx : Index) : ℕ :=
  cfg.numRecords - cfg.startingNumRecords - idx.freeStart

/-- One operation of the epoch applied serially, with the number of lives created so far. -/
def liveStep (o : (ℕ → Bool) × ℕ) (s : Slot) : (ℕ → Bool) × ℕ :=
  match s.op with
  | .insert => if o.1 s.key then o else (Function.update o.1 s.key true, o.2 + 1)
  | .delete => (Function.update o.1 s.key false, o.2)
  | _ => o

/-- The inserts of an epoch that create a life when it is applied serially. -/
def livesCreated (lookup : ℕ → ℕ) (slots : List Slot) : ℕ :=
  (slots.foldl liveStep (fun k => lookup k ≠ kAbsent, 0)).2

section
variable (cfg : Config) (idx : Index) (slots : List Slot)

/-- `resolveThroughTimeline` with the index it leaves, also when it throws: the timeline has been
    built by then. -/
def timelineRun : Index × Except String EpochOut :=
  match generalEpoch cfg idx slots with
  | .ok (idx', out) => (idx', .ok out)
  | .error e => ({ idx with entryCrid := (timeline cfg idx slots).entryCrid }, .error e)

/-- `indexTxns` with the index it leaves, also when it throws. -/
def indexTxnsRun : Index × Except String EpochOut :=
  let keys := insKeys slots
  match checkFreeRows cfg idx.freeStart keys.length with
  | .error e => (idx, .error e)
  | .ok () =>
    if keys.length = 0 then
      let r := fastEpoch cfg idx idx.map slots
      (r.1, .ok r.2)
    else
      match insertFresh idx.map idx.hasErased keys (mintedBegin cfg idx) with
      | (true, map) =>
        let r := fastEpoch cfg idx map slots
        (r.1, .ok r.2)
      | (false, map) =>
        let undone := eraseTentative map keys (mintedBegin cfg idx)
        timelineRun cfg
          { idx with map := undone.1, hasErased := idx.hasErased || undone.2 ≠ 0 } slots

end

/-- An epoch that is reported as out of rows. -/
def Reported (r : Index × Except String EpochOut) : Prop := ∃ e, r.2 = .error e

/-! ### Both views of `indexTxns` -/

theorem timelineRun_eq (cfg : Config) (idx : Index) (slots : List Slot) :
    generalEpoch cfg idx slots =
      (timelineRun cfg idx slots).2.map fun out => ((timelineRun cfg idx slots).1, out) := by
  rw [timelineRun]
  cases generalEpoch cfg idx slots <;> rfl

/-- The state and the result of the run are those of `indexTxns`. -/
theorem indexTxnsRun_eq (cfg : Config) (idx : Index) (slots : List Slot) :
    indexTxns cfg idx slots =
      (indexTxnsRun cfg idx slots).2.map fun out => ((indexTxnsRun cfg idx slots).1, out) := by
  rw [indexTxns, indexTxnsRun]
  cases hcheck : checkFreeRows cfg idx.freeStart (insKeys slots).length with
  | error e => rfl
  | ok u =>
    split
    · rfl
    · obtain ⟨accepted, map⟩ := insertFresh idx.map idx.hasErased (insKeys slots) (mintedBegin cfg idx)
      cases accepted with
      | true => rfl
      | false => exact timelineRun_eq cfg _ slots

/-! ### The serial count -/

section
variable {lookup : ℕ → ℕ}

/-- The state of the serial application after a prefix: the keys with a life, and the lives created
    by the prefix. -/
structure CountSpec (lookup : ℕ → ℕ) (slots pre : List Slot) (o : (ℕ → Bool) × ℕ) : Prop where
  live : ∀ k, o.1 k = ((slotEvents pre).foldl step (startLife lookup) k).isSome
  count : o.2 = ((slotEvents pre).filter (createsLife lookup (slotEvents slots))).length

/-- What the event of the slot behind a prefix finds. -/
theorem found_slot (pre post : List Slot) (s : Slot) (ty : EvType) :
    found lookup (slotEvents (pre ++ s :: post)) ⟨pre.length, s.key, ty, pre.length⟩ =
      (slotEvents pre).foldl step (startLife lookup) s.key := by
  rw [found, livesAt_slot]

theorem countSpec_step {slots pre post : List Slot} {s : Slot} (hsl : slots = pre ++ s :: post)
    {o : (ℕ → Bool) × ℕ} (h : CountSpec lookup slots pre o) :
    CountSpec lookup slots (pre ++ [s]) (liveStep o s) := by
  obtain ⟨hlive, hcount⟩ := h
  have hfound : ∀ ty, found lookup (slotEvents slots) ⟨pre.length, s.key, ty, pre.length⟩ =
      (slotEvents pre).foldl step (startLife lookup) s.key := by
    intro ty
    rw [hsl, found_slot]
  constructor
  · intro k
    rw [slotEvents_concat, List.foldl_append]
    cases hop : s.op with
    | insert =>
      simp only [liveStep, slotEvent, hop, Option.toList_some, List.foldl_cons, List.foldl_nil, step,
        keyedStep]
      by_cases hk : k = s.key
      · rw [hk, Function.update_self]
        split
        · next hs => simpa [lifeStep] using hs
        · simp [lifeStep]
      · rw [Function.update_of_ne hk, ← hlive]
        split
        · rfl
        · exact Function.update_of_ne hk _ _
    | delete =>
      simp only [liveStep, slotEvent, hop, Option.toList_some, List.foldl_cons, List.foldl_nil, step,
        keyedStep]
      by_cases hk : k = s.key
      · rw [hk, Function.update_self, Function.update_self]
        rfl
      · rw [Function.update_of_ne hk, Function.update_of_ne hk, ← hlive]
    | _ => simpa only [liveStep, slotEvent, hop, Option.toList_none, List.foldl_nil] using hlive k
  · rw [slotEvents_concat, List.filter_append, List.length_append, ← hcount]
    cases hop : s.op with
    | insert =>
      simp only [liveStep, slotEvent, hop, Option.toList_some, List.filter_cons, createsLife, hfound,
        hlive]
      cases hl : (slotEvents pre).foldl step (startLife lookup) s.key <;> simp
    | delete => simp [liveStep, slotEvent, hop, createsLife]
    | _ => simp [liveStep, slotEvent, hop]

/-- The serial count is the number of life-creating inserts of the epoch's events. -/
theorem livesCreated_eq (lookup : ℕ → ℕ) (slots : List Slot) :
    livesCreated lookup slots = (created lookup (slotEvents slots)).length := by
  have hrun : ∀ (post pre : List Slot) (o : (ℕ → Bool) × ℕ), slots = pre ++ post →
      CountSpec lookup slots pre o → CountSpec lookup slots slots (post.foldl liveStep o) := by
    intro post
    induction post with
    | nil =>
      intro pre o hsl h
      rw [List.append_nil] at hsl
      exact hsl ▸ h
    | cons s post ih =>
      intro pre o hsl h
      exact ih (pre ++ [s]) _ (by rw [hsl, List.append_assoc]; rfl) (countSpec_step hsl h)
  have hstart : CountSpec lookup slots [] (fun k => lookup k ≠ kAbsent, 0) := by
    refine ⟨fun k => ?_, rfl⟩
    simp only [slotEvents, List.zipIdx_nil, List.filterMap_nil, List.foldl_nil, startLife]
    by_cases hk : lookup k = kAbsent <;> simp [hk]
  exact (hrun slots [] _ rfl hstart).count

theorem livesCreated_le (lookup : ℕ → ℕ) (slots : List Slot) :
    livesCreated lookup slots ≤ (insKeys slots).length := by
  rw [livesCreated_eq]
  exact created_length_le lookup slots

end

/-! ### When the two checks throw -/

theorem checkFreeRows_error (cfg : Config) (idx : Index) (want : ℕ) :
    (∃ e, checkFreeRows cfg idx.freeStart want = .error e) ↔ freeRows cfg idx < want := by
  simp only [checkFreeRows, freeRows]
  split <;> split <;> simp <;> omega

section
variable {cfg : Config} {slots : List Slot} (hok : EpochOk cfg slots)
include hok

theorem timeline_numMinted (idx : Index) :
    (timeline cfg idx slots).numMinted = livesCreated idx.map slots := by
  have hf := hok.fits
  rw [← events_entriesOf] at hf
  rw [livesCreated_eq, ← events_entriesOf]
  exact build_numMinted _ _ _ hf

/-- The timeline path reports what it should, and takes no row when it does. -/
theorem timelineRun_reports (idx : Index) :
    (Reported (timelineRun cfg idx slots) ↔ freeRows cfg idx < livesCreated idx.map slots) ∧
    (Reported (timelineRun cfg idx slots) →
      (timelineRun cfg idx slots).1.freeStart = idx.freeStart ∧
        (timelineRun cfg idx slots).1.map = idx.map) := by
  have hnum := timeline_numMinted hok idx
  cases hcheck : checkFreeRows cfg idx.freeStart (timeline cfg idx slots).numMinted with
  | error e =>
    have hrun : timelineRun cfg idx slots =
        ({ idx with entryCrid := (timeline cfg idx slots).entryCrid }, .error e) := by
      simp only [timelineRun, generalEpoch, hcheck]
      rfl
    have hlt := (checkFreeRows_error cfg idx _).mp ⟨e, hcheck⟩
    rw [hnum] at hlt
    rw [hrun]
    exact ⟨⟨fun _ => hlt, fun _ => ⟨e, rfl⟩⟩, fun _ => ⟨rfl, rfl⟩⟩
  | ok u =>
    have hge : ¬ freeRows cfg idx < livesCreated idx.map slots := by
      rw [← hnum, ← checkFreeRows_error, hcheck]
      rintro ⟨e, he⟩
      cases he
    have hrun : ¬ Reported (timelineRun cfg idx slots) := by
      rintro ⟨e, he⟩
      simp only [timelineRun, generalEpoch, hcheck] at he
      cases he
    exact ⟨⟨fun h => absurd h hrun, fun h => absurd h hge⟩, fun h => absurd h hrun⟩

/-- `indexTxns` reports exactly the epochs with more inserts than rows, before it changes
    anything. -/
theorem indexTxnsRun_reports (idx : Index) :
    (Reported (indexTxnsRun cfg idx slots) ↔ freeRows cfg idx < (insKeys slots).length) ∧
    (Reported (indexTxnsRun cfg idx slots) → (indexTxnsRun cfg idx slots).1 = idx) := by
  cases hcheck : checkFreeRows cfg idx.freeStart (insKeys slots).length with
  | error e =>
    have hrun : indexTxnsRun cfg idx slots = (idx, .error e) := by
      simp only [indexTxnsRun, hcheck]
    have hlt := (checkFreeRows_error cfg idx _).mp ⟨e, hcheck⟩
    rw [hrun]
    exact ⟨⟨fun _ => hlt, fun _ => ⟨e, rfl⟩⟩, fun _ => rfl⟩
  | ok u =>
    have hge : ¬ freeRows cfg idx < (insKeys slots).length := by
      rw [← checkFreeRows_error, hcheck]
      rintro ⟨e, he⟩
      cases he
    have hrun : ¬ Reported (indexTxnsRun cfg idx slots) := by
      simp only [indexTxnsRun, hcheck]
      split
      · rintro ⟨e, he⟩
        cases he
      · split
        · rintro ⟨e, he⟩
          cases he
        · -- the lives of a rejected epoch are no more than its inserts
          rw [(timelineRun_reports hok _).1]
          have hle := livesCreated_le (eraseTentative ‹_› (insKeys slots) (mintedBegin cfg idx)).1 slots
          simp only [freeRows] at hge ⊢
          omega
    exact ⟨⟨fun h => absurd h hrun, fun h => absurd h hge⟩, fun h => absurd h hrun⟩

end

/-- The timeline path reports exhaustion exactly, and no path takes a row of an epoch it reports.
    The index as a whole, which starts every epoch on the fast path, reports it exactly on the
    epochs with no more inserts than rows and on those that create more lives than there are rows. -/
theorem free_rows_reported {cfg : Config} {slots : List Slot} (hok : EpochOk cfg slots)
    (idx : Index) :
    ((Reported (indexTxnsRun cfg idx slots) ↔
        freeRows cfg idx < livesCreated idx.map slots) ∧
      (Reported (timelineRun cfg idx slots) ↔ freeRows cfg idx < livesCreated idx.map slots) ∧
      (Reported (indexTxnsRun cfg idx slots) →
        (indexTxnsRun cfg idx slots).1.freeStart = idx.freeStart ∧
          (indexTxnsRun cfg idx slots).1.map = idx.map) ∧
      (Reported (timelineRun cfg idx slots) →
        (timelineRun cfg idx slots).1.freeStart = idx.freeStart ∧
          (timelineRun cfg idx slots).1.map = idx.map)) ↔
    (insKeys slots).length ≤ freeRows cfg idx ∨ freeRows cfg idx < livesCreated idx.map slots := by
  obtain ⟨hfast, hkept⟩ := indexTxnsRun_reports hok idx
  obtain ⟨hgeneral, hkept'⟩ := timelineRun_reports hok idx
  have hle := livesCreated_le idx.map slots
  constructor
  · rintro ⟨hexact, -⟩
    rcases Nat.lt_or_ge (freeRows cfg idx) (insKeys slots).length with hlt | hge
    · exact Or.inr (hexact.mp (hfast.mpr hlt))
    · exact Or.inl hge
  · intro hcond
    refine ⟨hfast.trans ⟨fun h => ?_, fun h => by omega⟩, hgeneral, fun h => ?_, hkept'⟩
    · omega
    · rw [hkept h]
      exact ⟨rfl, rfl⟩

/-- A table of four records, all of them live, with no row to spare. -/
def fullConfig : Config := ⟨4, 4, 1⟩
def fullIndex : Index where
  map k := if k < 4 then k else kAbsent
  hasErased := false
  freeStart := 0
  delPos _ := kAbsent
  entryCrid _ := 0

/-- An insert of a new key and no row: reported, as it should be. -/
theorem free_rows_reported_full :
    Reported (indexTxnsRun fullConfig fullIndex [⟨.insert, 9, 0⟩]) := by
  have hok : EpochOk fullConfig [⟨.insert, 9, 0⟩] := ⟨by decide, by decide, by decide⟩
  exact ((free_rows_reported hok fullIndex).mpr (Or.inr (by decide))).1.mpr (by decide)

theorem fullIndex_wf : IndexWf fullConfig fullIndex := by
  have hlive : ∀ k, fullIndex.map k ≠ kAbsent → fullIndex.map k = k ∧ k < 4 := by
    intro k hk
    simp only [fullIndex] at hk ⊢
    split
    · next h => exact ⟨rfl, h⟩
    · next h => exact absurd (if_neg h) hk
  refine ⟨by decide, by decide, fun k hk => ?_, fun k k' hk he => ?_, fun _ => rfl⟩
  · obtain ⟨he, hlt⟩ := hlive k hk
    rw [he]
    exact hlt
  · have hk' : fullIndex.map k' ≠ kAbsent := he ▸ hk
    rw [(hlive k hk).1, (hlive k' hk').1] at he
    exact he

/-- An insert of a live key creates no life, but is reported as out of rows. -/
theorem free_rows_reported_live : IndexWf fullConfig fullIndex ∧
    Reported (indexTxnsRun fullConfig fullIndex [⟨.insert, 0, 0⟩]) ∧
    ¬ freeRows fullConfig fullIndex < livesCreated fullIndex.map [⟨.insert, 0, 0⟩] :=
  ⟨fullIndex_wf, ⟨_, rfl⟩, by decide⟩

end Egad.Ycsb
