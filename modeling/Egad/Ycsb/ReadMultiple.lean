import Egad.Ycsb.Pieces

/-! # Reading ten fields at once (`gpu_storage.cuh`, `benchmarks/ycsb_hybrid_executor.cu`)

    A FULL_READ_MODIFY_WRITE of a split record reads the ten fields with the lanes of a warp and then
    writes one of them. Lane `i` finds where field `i` is; in each turn of the loop the warp takes the
    lanes whose version is there, in lane order, and every lane loads its word of that field.

        ballot      ready ∩ remaining      {0, 3}   {7}   {1, 2}
        result      words of               0, 3     7     1, 2        the last one stays

    A field that is read from record A is there from the start; the others come in the order in which
    their writers finish. -/

namespace Egad.Ycsb
open Egad.Execution Egad.Planner

/-! ### The loop -/

/-- The words of a field. -/
abbrev Words := ℕ → BitVec 32

/-- The part of a plan that the read of ten fields uses: `field_grids` and `read_locs`. -/
structure FieldPlan where
  fieldGrids : ℕ → ℕ
  readLocs : ℕ → ℕ

/-- `value_to_read` and `epoch_to_read` of a lane that loaded the tags `version1` and `version2`. -/
def laneSource (epoch r loc version1 version2 : ℕ) : Cell × Option Cell :=
  if loc = locRecordA then (readRecordA epoch r version1 version2, none)
  else if loc = locRecordB then
    if version1 = epoch then (.slot1 r, none)
    else if version2 = epoch then (.slot2 r, none)
    else if version1 < version2 then (.slot1 r, some (.slot1 r))
    else (.slot2 r, some (.slot2 r))
  else (.version loc, some (.version loc))

/-- A turn of the loop: the memory as each lane's poll finds it, and as the words are loaded. -/
structure Turn where
  ballot : ℕ → Memory Words
  load : Memory Words

/-- What a warp sees of its surroundings: the tags its lanes load first, and one turn after
    another. -/
structure ReadSchedule where
  version1 : ℕ → ℕ
  version2 : ℕ → ℕ
  turns : List Turn

def FieldPlan.source (p : FieldPlan) (epoch : ℕ) (s : ReadSchedule) (i : ℕ) : Cell × Option Cell :=
  laneSource epoch (p.fieldGrids i) (p.readLocs i) (s.version1 i) (s.version2 i)

/-- Lane `i` votes ready. -/
def Turn.ready (epoch : ℕ) (source : ℕ → Cell × Option Cell) (t : Turn) (i : ℕ) : Bool :=
  match (source i).2 with
  | none => true
  | some c => (t.ballot i).tag c = epoch

/-- Every lane below `length` loads its word. -/
def loadWords (length : ℕ) (result : Fin 32 → BitVec 32) (words : Words) : Fin 32 → BitVec 32 :=
  fun lane => if lane.val < length then words lane else result lane

/-- The loop of `gpuReadMultipleFromTableCoop` with the lanes of `remaining_mask`; nothing when the
    turns end before the loop does. -/
def pollLoop (epoch length : ℕ) (source : ℕ → Cell × Option Cell) :
    List Turn → List ℕ → (Fin 32 → BitVec 32) → Option (Fin 32 → BitVec 32)
  | _, [], result => some result
  | [], _ :: _, _ => none
  | t :: ts, i :: is, result =>
    pollLoop epoch length source ts ((i :: is).filter fun j => !t.ready epoch source j)
      (((i :: is).filter (t.ready epoch source)).foldl
        (fun result j => loadWords length result (t.load.value (source j).1)) result)

/-- `gpuReadMultipleFromTableCoop` with the ten active lanes. -/
def gpuReadMultipleFromTableCoop (epoch length : ℕ) (p : FieldPlan) (s : ReadSchedule)
    (result : Fin 32 → BitVec 32) : Option (Fin 32 → BitVec 32) :=
  pollLoop epoch length (p.source epoch s) s.turns (List.range 10) result

/-- The stores of `gpuWriteToTableCoop` to location `loc` of record `r`: word `w` is lane `w % 32`'s
    `data`. -/
def writeField (epoch length r loc : ℕ) (data : Fin 32 → BitVec 32) (m : Memory Words) : Memory Words :=
  let c := if loc = locRecordB then writeRecordB r (m.tag (.slot1 r)) (m.tag (.slot2 r)) else .version loc
  { tag := Function.update m.tag c epoch
    value := Function.update m.value c fun w =>
      if w < length then data (Fin.ofNat 32 w) else m.value c w }

/-- A split FULL_READ_MODIFY_WRITE of field `fieldId`: its `data`, and the table `m` after its write. -/
def fullReadModifyWrite (epoch length : ℕ) (p : FieldPlan) (fieldId writeLoc : ℕ) (s : ReadSchedule)
    (m : Memory Words) : Option ((Fin 32 → BitVec 32) × Memory Words) :=
  (gpuReadMultipleFromTableCoop epoch length p s fun _ => 0).map fun data =>
    (data, writeField epoch length (p.fieldGrids fieldId) writeLoc data m)

/-! ### Schedules of an epoch

    The epoch starts with memory `m₀`, all tags older; a cell that is written gets `written` and then
    the epoch as its tag. Record A is not written. -/

/-- The memory at some moment of the epoch. -/
structure Snapshot (m₀ : Memory Words) (epoch : ℕ) (written : Cell → Words) (m : Memory Words) : Prop where
  cell : ∀ c, m.tag c = m₀.tag c ∨ m.tag c = epoch ∧ m.value c = written c
  recordA : ∀ r, m.tag (slotA m₀ r) = m₀.tag (slotA m₀ r) ∧
    m.value (slotA m₀ r) = m₀.value (slotA m₀ r)

/-- The turns are moments of the epoch in their order, and a tag that was the epoch stays. -/
structure ReadSchedule.Legal (m₀ : Memory Words) (epoch : ℕ) (written : Cell → Words) (p : FieldPlan)
    (s : ReadSchedule) : Prop where
  version1 : ∀ i < 10, Loads m₀ (p.fieldGrids i) epoch (.slot1 (p.fieldGrids i)) (s.version1 i)
  version2 : ∀ i < 10, Loads m₀ (p.fieldGrids i) epoch (.slot2 (p.fieldGrids i)) (s.version2 i)
  ballot : ∀ t ∈ s.turns, ∀ i, Snapshot m₀ epoch written (t.ballot i)
  load : ∀ t ∈ s.turns, Snapshot m₀ epoch written t.load
  loaded1 : ∀ i < 10, s.version1 i = epoch → ∀ t ∈ s.turns, ∀ j,
    (t.ballot j).tag (.slot1 (p.fieldGrids i)) = epoch
  loaded2 : ∀ i < 10, s.version2 i = epoch → ∀ t ∈ s.turns, ∀ j,
    (t.ballot j).tag (.slot2 (p.fieldGrids i)) = epoch
  voted : ∀ t ∈ s.turns, ∀ i c, (t.ballot i).tag c = epoch → t.load.tag c = epoch
  later : s.turns.Pairwise fun t t' => ∀ c, t.load.tag c = epoch → ∀ i, (t'.ballot i).tag c = epoch

/-- The words of field `i` that the epoch's plan has the transaction read. -/
def FieldPlan.field (p : FieldPlan) (m₀ : Memory Words) (written : Cell → Words) (i : ℕ) : Words :=
  if p.readLocs i = locRecordA then m₀.value (slotA m₀ (p.fieldGrids i))
  else written (target m₀ (p.fieldGrids i) (p.readLocs i))

/-! ### The last lane -/

section
variable {epoch length : ℕ} {source : ℕ → Cell × Option Cell}

/-- Loading one field over another. -/
theorem loadWords_loadWords (result : Fin 32 → BitVec 32) (v w : Words) :
    loadWords length (loadWords length result v) w = loadWords length result w := by
  funext lane
  simp only [loadWords]
  split <;> rfl

/-- Of the fields a turn consumes, the last one's words stay. -/
theorem consume_last (value : ℕ → Words) (is : List ℕ) (i : ℕ) (result : Fin 32 → BitVec 32) :
    (i :: is).foldl (fun result j => loadWords length result (value j)) result =
      loadWords length result (value ((i :: is).getLast (List.cons_ne_nil i is))) := by
  induction is generalizing i result with
  | nil => rfl
  | cons j is ih =>
    rw [List.foldl_cons, ih, loadWords_loadWords, List.getLast_cons (List.cons_ne_nil j is)]

theorem consume_any (value : ℕ → Words) (is : List ℕ) (result : Fin 32 → BitVec 32) (w : Words) :
    loadWords length (is.foldl (fun result j => loadWords length result (value j)) result) w =
      loadWords length result w := by
  induction is generalizing result with
  | nil => rfl
  | cons j is ih => rw [List.foldl_cons, ih, loadWords_loadWords]

/-- A turn in which every lane of the mask is ready ends the loop. -/
theorem pollLoop_all {t : Turn} {ts : List Turn} {i : ℕ} {is : List ℕ} {result : Fin 32 → BitVec 32}
    (hall : ∀ j ∈ i :: is, t.ready epoch source j = true) :
    pollLoop epoch length source (t :: ts) (i :: is) result =
      some (loadWords length result
        (t.load.value (source ((i :: is).getLast (List.cons_ne_nil i is))).1)) := by
  have hrest : ((i :: is).filter fun j => !t.ready epoch source j) = [] :=
    List.filter_eq_nil_iff.mpr fun j hj => by simp [hall j hj]
  rw [pollLoop, hrest, pollLoop, List.filter_eq_self.mpr hall,
    consume_last fun j => t.load.value (source j).1]

theorem pollLoop_ends {t : Turn} {ts : List Turn} (ht : t ∈ ts) :
    ∀ {is : List ℕ} {result : Fin 32 → BitVec 32}, (∀ j ∈ is, t.ready epoch source j = true) →
      ∃ r, pollLoop epoch length source ts is result = some r := by
  induction ts with
  | nil => exact absurd ht List.not_mem_nil
  | cons u ts ih =>
    intro is result hall
    cases is with
    | nil => exact ⟨result, by rw [pollLoop]⟩
    | cons i is =>
      rcases List.mem_cons.mp ht with rfl | ht
      · exact ⟨_, pollLoop_all hall⟩
      · rw [pollLoop]
        exact ih ht fun j hj => hall j (List.mem_filter.mp hj).1

/-- The loop ends with the words of one lane, as loaded in a turn in which it was ready: the last one
    of the mask, or one that had to wait. -/
theorem pollLoop_result {ts : List Turn} :
    ∀ {is : List ℕ} {result r : Fin 32 → BitVec 32} (hne : is ≠ []),
      pollLoop epoch length source ts is result = some r →
      ∃ i ∈ is, ∃ t ∈ ts, t.ready epoch source i = true ∧
        r = loadWords length result (t.load.value (source i).1) ∧
        (i = is.getLast hne ∨ (source i).2 ≠ none) := by
  induction ts with
  | nil =>
    intro is result r hne h
    cases is with
    | nil => exact absurd rfl hne
    | cons i is => cases h
  | cons t ts ih =>
    intro is result r hne h
    cases is with
    | nil => exact absurd rfl hne
    | cons i is =>
      cases hrest : (i :: is).filter fun j => !t.ready epoch source j with
      | nil =>
        -- every lane of the mask is ready
        have hall : ∀ j ∈ i :: is, t.ready epoch source j = true := fun j hj => by
          have := List.filter_eq_nil_iff.mp hrest j hj
          simpa using this
        rw [pollLoop_all hall] at h
        refine ⟨(i :: is).getLast hne, List.getLast_mem hne, t, List.mem_cons_self,
          hall _ (List.getLast_mem hne), ?_, Or.inl rfl⟩
        exact (Option.some.inj h).symm
      | cons j js =>
        rw [pollLoop] at h
        obtain ⟨k, hk, t', ht', hready, hr, -⟩ := ih (List.cons_ne_nil j js) (hrest ▸ h)
        have hmem : k ∈ (i :: is).filter fun j => !t.ready epoch source j := hrest ▸ hk
        obtain ⟨hkis, hnot⟩ := List.mem_filter.mp hmem
        refine ⟨k, hkis, t', List.mem_cons_of_mem _ ht', hready, ?_, Or.inr fun hnone => ?_⟩
        · rw [hr, consume_any fun j => t.load.value (source j).1]
        · rw [Turn.ready, hnone] at hnot
          cases hnot

end

/-! ### What a legal schedule reads -/

section
variable {epoch length : ℕ} {m₀ : Memory Words} {written : Cell → Words} {p : FieldPlan}
  {s : ReadSchedule}

/-- The cell of a field. -/
def FieldPlan.cell (p : FieldPlan) (m₀ : Memory Words) (i : ℕ) : Cell :=
  if p.readLocs i = locRecordA then slotA m₀ (p.fieldGrids i)
  else target m₀ (p.fieldGrids i) (p.readLocs i)

/-- A lane finds the cell of its field, and waits for it unless it is record A or has been seen
    written. -/
theorem source_eq (hstart : ∀ c, m₀.tag c < epoch) (hs : s.Legal m₀ epoch written p) {i : ℕ}
    (hi : i < 10) :
    (p.source epoch s i).1 = p.cell m₀ i ∧
      ((p.source epoch s i).2 = none ∧ p.readLocs i = locRecordA ∨
        p.readLocs i ≠ locRecordA ∧
          ((p.source epoch s i).2 = some (p.cell m₀ i) ∨
            (p.source epoch s i).2 = none ∧ ∀ t ∈ s.turns, ∀ j, (t.ballot j).tag (p.cell m₀ i) = epoch)) := by
  have hl1 := hs.version1 i hi
  have hl2 := hs.version2 i hi
  have h1 := hs.loaded1 i hi
  have h2 := hs.loaded2 i hi
  have ht1 := hstart (.slot1 (p.fieldGrids i))
  have ht2 := hstart (.slot2 (p.fieldGrids i))
  simp only [FieldPlan.source, laneSource, FieldPlan.cell, target]
  by_cases hA : p.readLocs i = locRecordA
  · simp only [if_pos hA]
    exact ⟨readRecordA_eq ht1 ht2 hl1 hl2, Or.inl ⟨trivial, hA⟩⟩
  · simp only [if_neg hA]
    by_cases hB : p.readLocs i = locRecordB
    · simp only [if_pos hB]
      by_cases hlt : m₀.tag (.slot1 (p.fieldGrids i)) < m₀.tag (.slot2 (p.fieldGrids i))
      · have hb : slotB m₀ (p.fieldGrids i) = .slot1 (p.fieldGrids i) := if_pos hlt
        have hv2 : s.version2 i = m₀.tag (.slot2 (p.fieldGrids i)) :=
          hl2.resolve_right fun h => by simp [hb] at h
        rw [hb]
        rcases hl1 with hv1 | ⟨hv1, -⟩
        · rw [if_neg (by omega), if_neg (by omega), if_pos (by omega)]
          exact ⟨rfl, Or.inr ⟨hA, Or.inl rfl⟩⟩
        · rw [if_pos hv1]
          exact ⟨rfl, Or.inr ⟨hA, Or.inr ⟨rfl, h1 hv1⟩⟩⟩
      · have hb : slotB m₀ (p.fieldGrids i) = .slot2 (p.fieldGrids i) := if_neg hlt
        have hv1 : s.version1 i = m₀.tag (.slot1 (p.fieldGrids i)) :=
          hl1.resolve_right fun h => by simp [hb] at h
        rw [hb]
        rcases hl2 with hv2 | ⟨hv2, -⟩
        · rw [if_neg (by omega), if_neg (by omega), if_neg (by omega)]
          exact ⟨rfl, Or.inr ⟨hA, Or.inl rfl⟩⟩
        · rw [if_neg (by omega), if_pos hv2]
          exact ⟨rfl, Or.inr ⟨hA, Or.inr ⟨rfl, h2 hv2⟩⟩⟩
    · simp only [if_neg hB]
      exact ⟨trivial, Or.inr ⟨hA, Or.inl trivial⟩⟩

/-- A lane that votes ready has its field loaded as planned. -/
theorem ready_value (hstart : ∀ c, m₀.tag c < epoch) (hs : s.Legal m₀ epoch written p) {i : ℕ}
    (hi : i < 10) {t : Turn} (ht : t ∈ s.turns) (hr : t.ready epoch (p.source epoch s) i = true) :
    t.load.value (p.source epoch s i).1 = p.field m₀ written i := by
  obtain ⟨hcell, hcases⟩ := source_eq hstart hs hi
  rw [hcell]
  rcases hcases with ⟨-, hA⟩ | ⟨hA, hwait⟩
  · rw [FieldPlan.cell, FieldPlan.field, if_pos hA, if_pos hA]
    exact ((hs.load t ht).recordA _).2
  · have htag : t.load.tag (p.cell m₀ i) = epoch := by
      refine hs.voted t ht i _ ?_
      rcases hwait with hwait | ⟨-, hseen⟩
      · rw [Turn.ready, hwait] at hr
        simpa using hr
      · exact hseen t ht i
    rcases (hs.load t ht).cell (p.cell m₀ i) with hold | ⟨-, hval⟩
    · exact absurd (htag.symm.trans hold) (hstart _).ne'
    · rw [hval, FieldPlan.cell, FieldPlan.field, if_neg hA, if_neg hA]

/-- Under any schedule the result is a field that is not read from record A, or the last field. -/
theorem readMultiple_result (hstart : ∀ c, m₀.tag c < epoch) (hs : s.Legal m₀ epoch written p)
    {result r : Fin 32 → BitVec 32} (h : gpuReadMultipleFromTableCoop epoch length p s result = some r) :
    ∃ i < 10, (p.readLocs i ≠ locRecordA ∨ i = 9) ∧
      r = loadWords length result (p.field m₀ written i) := by
  obtain ⟨i, hi, t, ht, hready, hr, hlast⟩ := pollLoop_result (by decide) h
  have hi := List.mem_range.mp hi
  refine ⟨i, hi, ?_, ?_⟩
  · rcases hlast with hlast | hwait
    · exact Or.inr hlast
    · refine Or.inl fun hA => hwait ?_
      rcases (source_eq hstart hs hi).2 with ⟨hnone, -⟩ | ⟨hne, -⟩
      · exact hnone
      · exact absurd hA hne
  · rw [hr, ready_value hstart hs hi ht hready]

/-! ### Two schedules -/

/-- The slots that the epoch does not write. -/
def isRecordA (m₀ : Memory Words) : Cell → Bool
  | .slot1 r => slotA m₀ r = .slot1 r
  | .slot2 r => slotA m₀ r = .slot2 r
  | .version _ => false

theorem isRecordA_slotA (m₀ : Memory Words) (r : ℕ) : isRecordA m₀ (slotA m₀ r) = true := by
  by_cases hlt : m₀.tag (.slot1 r) < m₀.tag (.slot2 r)
  · have hA : slotA m₀ r = .slot2 r := if_pos hlt
    rw [hA, isRecordA, hA, decide_eq_true rfl]
  · have hA : slotA m₀ r = .slot1 r := if_neg hlt
    rw [hA, isRecordA, hA, decide_eq_true rfl]

theorem isRecordA_target (m₀ : Memory Words) (r loc : ℕ) : isRecordA m₀ (target m₀ r loc) = false := by
  have hne := slotA_ne_target m₀ r r loc
  rw [target] at hne ⊢
  split
  · next hB =>
    rw [if_pos hB] at hne
    by_cases hlt : m₀.tag (.slot1 r) < m₀.tag (.slot2 r)
    · have hb : slotB m₀ r = .slot1 r := if_pos hlt
      rw [hb] at hne ⊢
      rw [isRecordA, decide_eq_false hne]
    · have hb : slotB m₀ r = .slot2 r := if_neg hlt
      rw [hb] at hne ⊢
      rw [isRecordA, decide_eq_false hne]
  · rfl

/-- The moment at which all but the cells of `late` are written. -/
def moment (m₀ : Memory Words) (epoch : ℕ) (written : Cell → Words) (late : Cell → Bool) : Memory Words where
  tag c := if isRecordA m₀ c || late c then m₀.tag c else epoch
  value c := if isRecordA m₀ c || late c then m₀.value c else written c

/-- A turn at that moment. -/
def turnAt (m₀ : Memory Words) (epoch : ℕ) (written : Cell → Words) (late : Cell → Bool) : Turn :=
  ⟨fun _ => moment m₀ epoch written late, moment m₀ epoch written late⟩

/-- The lanes load their tags before anything is written; the first turn finds all but the cells of
    `late` written, the second one finds these too. -/
def lateSchedule (m₀ : Memory Words) (epoch : ℕ) (written : Cell → Words) (p : FieldPlan)
    (late : Cell → Bool) : ReadSchedule where
  version1 i := m₀.tag (.slot1 (p.fieldGrids i))
  version2 i := m₀.tag (.slot2 (p.fieldGrids i))
  turns := [turnAt m₀ epoch written late, turnAt m₀ epoch written fun _ => false]

theorem snapshot_moment (late : Cell → Bool) :
    Snapshot m₀ epoch written (moment m₀ epoch written late) := by
  refine ⟨fun c => ?_, fun r => ?_⟩
  · simp only [moment]
    split
    · exact Or.inl rfl
    · exact Or.inr ⟨rfl, rfl⟩
  · simp [moment, isRecordA_slotA]

theorem mem_lateSchedule {late : Cell → Bool} {t : Turn}
    (ht : t ∈ (lateSchedule m₀ epoch written p late).turns) :
    ∃ late', t = turnAt m₀ epoch written late' := by
  rcases List.mem_cons.mp ht with rfl | ht
  · exact ⟨_, rfl⟩
  · exact ⟨_, List.mem_singleton.mp ht⟩

theorem lateSchedule_legal (hstart : ∀ c, m₀.tag c < epoch) (late : Cell → Bool) :
    (lateSchedule m₀ epoch written p late).Legal m₀ epoch written p := by
  refine ⟨fun i _ => Or.inl rfl, fun i _ => Or.inl rfl, fun t ht i => ?_, fun t ht => ?_,
    fun i _ h => absurd h (hstart _).ne, fun i _ h => absurd h (hstart _).ne, fun t ht i c h => ?_, ?_⟩
  · obtain ⟨late', rfl⟩ := mem_lateSchedule ht
    exact snapshot_moment late'
  · obtain ⟨late', rfl⟩ := mem_lateSchedule ht
    exact snapshot_moment late'
  · obtain ⟨late', rfl⟩ := mem_lateSchedule ht
    exact h
  · rw [lateSchedule, List.pairwise_pair]
    intro c h _
    have hc : (isRecordA m₀ c || late c) = false := by
      by_contra hne
      simp only [turnAt, moment, if_pos (Bool.eq_true_of_not_eq_false hne)] at h
      exact absurd h (hstart c).ne
    simp [turnAt, moment, (Bool.or_eq_false_iff.mp hc).1]

/-- A lane is ready at a moment if its field is in record A or its cell is not late. -/
theorem ready_turnAt (hstart : ∀ c, m₀.tag c < epoch) (late late' : Cell → Bool) {i : ℕ}
    (hi : i < 10) (hlate : p.readLocs i ≠ locRecordA → late' (p.cell m₀ i) = false) :
    (turnAt m₀ epoch written late').ready epoch
      (p.source epoch (lateSchedule m₀ epoch written p late)) i = true := by
  rcases (source_eq hstart (lateSchedule_legal hstart late) hi).2 with ⟨hnone, -⟩ | ⟨hA, hsome | ⟨hnone, -⟩⟩
  · rw [Turn.ready, hnone]
  · rw [Turn.ready, hsome]
    have hrec : isRecordA m₀ (p.cell m₀ i) = false := by
      rw [FieldPlan.cell, if_neg hA]
      exact isRecordA_target _ _ _
    simp [turnAt, moment, hrec, hlate hA]
  · rw [Turn.ready, hnone]

/-- A lane whose cell is late waits in the first turn. -/
theorem waits_turnAt (hstart : ∀ c, m₀.tag c < epoch) {late : Cell → Bool} {i : ℕ} (hi : i < 10)
    (hA : p.readLocs i ≠ locRecordA) (hlate : late (p.cell m₀ i) = true) :
    (turnAt m₀ epoch written late).ready epoch
      (p.source epoch (lateSchedule m₀ epoch written p late)) i = false := by
  have htag : ((turnAt m₀ epoch written late).ballot i).tag (p.cell m₀ i) = m₀.tag (p.cell m₀ i) := by
    simp [turnAt, moment, hlate]
  rcases (source_eq hstart (lateSchedule_legal hstart late) hi).2 with ⟨-, h⟩ | ⟨-, hsome | ⟨-, hseen⟩⟩
  · exact absurd h hA
  · rw [Turn.ready, hsome]
    simp [htag, (hstart _).ne]
  · exact absurd (htag.symm.trans (hseen _ List.mem_cons_self i)) (hstart _).ne

/-- Where everything is written before the first turn, the last field stays. -/
theorem early_result (hstart : ∀ c, m₀.tag c < epoch) (result : Fin 32 → BitVec 32) :
    gpuReadMultipleFromTableCoop epoch length p
      (lateSchedule m₀ epoch written p fun _ => false) result =
        some (loadWords length result (p.field m₀ written 9)) := by
  have hready : ∀ j ∈ List.range 10, (turnAt m₀ epoch written fun _ => false).ready epoch
      (p.source epoch (lateSchedule m₀ epoch written p fun _ => false)) j = true :=
    fun j hj => ready_turnAt hstart _ _ (List.mem_range.mp hj) fun _ => rfl
  have hlast := ready_value hstart (lateSchedule_legal hstart _) (by decide : 9 < 10)
    List.mem_cons_self (hready 9 (List.mem_range.mpr (by decide)))
  rw [← hlast]
  exact pollLoop_all hready

/-- The lanes that are left for the second turn read the late cell. -/
theorem late_field (hstart : ∀ c, m₀.tag c < epoch) {i : ℕ} (hA : p.readLocs i ≠ locRecordA) {k : ℕ}
    (hk : k < 10) (hwait : (turnAt m₀ epoch written fun c => c = p.cell m₀ i).ready epoch
      (p.source epoch (lateSchedule m₀ epoch written p fun c => c = p.cell m₀ i)) k = false) :
    p.field m₀ written k = p.field m₀ written i := by
  have hlate : ¬ (p.readLocs k ≠ locRecordA → decide (p.cell m₀ k = p.cell m₀ i) = false) := fun h => by
    rw [ready_turnAt hstart _ (fun c => decide (c = p.cell m₀ i)) hk h] at hwait
    cases hwait
  obtain ⟨hkA, hkl⟩ := Classical.not_imp.mp hlate
  have hcell : p.cell m₀ k = p.cell m₀ i := by simpa using hkl
  rw [FieldPlan.cell, FieldPlan.cell, if_neg hkA, if_neg hA] at hcell
  rw [FieldPlan.field, FieldPlan.field, if_neg hkA, if_neg hA, hcell]

/-- Where a field that is not in record A comes last, it stays. -/
theorem late_result (hstart : ∀ c, m₀.tag c < epoch) {i : ℕ} (hi : i < 10)
    (hA : p.readLocs i ≠ locRecordA) (result : Fin 32 → BitVec 32) :
    gpuReadMultipleFromTableCoop epoch length p
      (lateSchedule m₀ epoch written p fun c => c = p.cell m₀ i) result =
        some (loadWords length result (p.field m₀ written i)) := by
  generalize hsrc : p.source epoch (lateSchedule m₀ epoch written p fun c => c = p.cell m₀ i) = source
  generalize hfirst : turnAt m₀ epoch written (fun c => decide (c = p.cell m₀ i)) = first
  generalize hsecond : (turnAt m₀ epoch written fun _ => false) = second
  have hleft : ∀ k ∈ (List.range 10).filter fun j => !first.ready epoch source j,
      k < 10 ∧ p.field m₀ written k = p.field m₀ written i := by
    intro k hk
    obtain ⟨hk, hwait⟩ := List.mem_filter.mp hk
    have hk := List.mem_range.mp hk
    rw [← hfirst, ← hsrc] at hwait
    exact ⟨hk, late_field hstart hA hk (by simpa using hwait)⟩
  have hmem : i ∈ (List.range 10).filter fun j => !first.ready epoch source j := by
    refine List.mem_filter.mpr ⟨List.mem_range.mpr hi, ?_⟩
    rw [← hfirst, ← hsrc, waits_turnAt hstart hi hA (by simp)]
    rfl
  obtain ⟨r, hr⟩ := @pollLoop_ends epoch length source second [second] List.mem_cons_self _
    (((List.range 10).filter (first.ready epoch source)).foldl
      (fun result j => loadWords length result (first.load.value (source j).1)) result)
    fun j hj => by
      rw [← hsecond, ← hsrc]
      exact ready_turnAt hstart _ _ (hleft j hj).1 fun _ => rfl
  obtain ⟨k, hk, t, ht, hready, hval, -⟩ := pollLoop_result (List.ne_nil_of_mem hmem) hr
  rw [List.mem_singleton.mp ht] at hready hval
  have hfield : second.load.value (source k).1 = p.field m₀ written k := by
    rw [← hsecond, ← hsrc] at hready ⊢
    exact ready_value hstart (lateSchedule_legal hstart _) (hleft k hk).1
      (List.mem_cons_of_mem _ List.mem_cons_self) hready
  rw [consume_any fun j => first.load.value (source j).1, hfield, (hleft k hk).2] at hval
  rw [gpuReadMultipleFromTableCoop, hsrc, lateSchedule, hfirst, hsecond, ← hval, ← hr]
  rfl

/-- A split FULL_READ_MODIFY_WRITE is independent of the order in which its fields become ready exactly
    when every field that is not read from record A has the words of the last field. -/
theorem fullReadModifyWrite_independent_iff (hstart : ∀ c, m₀.tag c < epoch) (fieldId writeLoc : ℕ) :
    (∀ s s' : ReadSchedule, s.Legal m₀ epoch written p → s'.Legal m₀ epoch written p →
      ∀ m x x', fullReadModifyWrite epoch length p fieldId writeLoc s m = some x →
        fullReadModifyWrite epoch length p fieldId writeLoc s' m = some x' → x = x') ↔
    ∀ i < 10, p.readLocs i ≠ locRecordA → ∀ w < length, w < 32 →
      p.field m₀ written i w = p.field m₀ written 9 w := by
  constructor
  · intro hall i hi hA w hw h32
    have hx := hall _ _ (lateSchedule_legal hstart _) (lateSchedule_legal hstart _) m₀ _ _
      (by rw [fullReadModifyWrite, late_result hstart hi hA, Option.map_some])
      (by rw [fullReadModifyWrite, early_result hstart, Option.map_some])
    have hlane := congrFun (congrArg Prod.fst hx) ⟨w, h32⟩
    simpa only [loadWords, if_pos hw] using hlane
  · intro hsame s s' hs hs' m x x' hx hx'
    obtain ⟨r, hr, rfl⟩ := Option.map_eq_some_iff.mp hx
    obtain ⟨r', hr', rfl⟩ := Option.map_eq_some_iff.mp hx'
    have hnine : ∀ {s r}, s.Legal m₀ epoch written p →
        gpuReadMultipleFromTableCoop epoch length p s (fun _ => 0) = some r →
        r = loadWords length (fun _ => 0) (p.field m₀ written 9) := by
      intro s r hs hr
      obtain ⟨i, hi, hA | rfl, rfl⟩ := readMultiple_result hstart hs hr
      · funext lane
        simp only [loadWords]
        split
        · next hlt => exact hsame i hi hA lane hlt lane.isLt
        · rfl
      · rfl
    rw [hnine hs hr, hnine hs' hr']

end

/-! ### Two writers and a FULL_READ_MODIFY_WRITE -/

/-- Field 0 of record 0 is read and written back, field 1 updated, and then all fields are read and
    field 2 is written. -/
def readAfterTwo : List SlotParam :=
  [⟨.readModifyWrite, 0, 0, fun h => absurd h (by decide)⟩, ⟨.update, 0, 1, fun h => absurd h (by decide)⟩,
    ⟨.fullReadModifyWrite, 0, 2, fun h => absurd h (by decide)⟩]

/-- The locations the epoch's plan has for the ten reads; every field is in the slot of its number. -/
def readAfterTwoPlan : FieldPlan where
  fieldGrids j := j
  readLocs j := locOf (submitYcsbTxns true readAfterTwo) (fun _ => 0) (emit 2 j (Ycsb.readLocs j) false)

/-- Field 0 starts with fives, everything else with zeros. -/
def fivesInField0 : Memory Words where
  tag _ := 0
  value c := if c = .slot1 0 then fun _ => 5 else fun _ => 0

/-- The first operation writes back the fives, the second one writes its `data`, zero. -/
def twoWrites : Cell → Words := fun c => if c = .slot2 0 then fun _ => 5 else fun _ => 0

/-- A table of zeros. -/
def zeroTable : Memory Words := ⟨fun _ => 0, fun _ _ => 0⟩

/-- In a table of zeros it does not matter whether field 0 or field 1 is ready last. -/
theorem fullReadModifyWrite_independent_zeros :
    ∃ x x', fullReadModifyWrite 1 25 readAfterTwoPlan 2 locRecordB (lateSchedule zeroTable 1
        (fun _ _ => 0) readAfterTwoPlan fun c => c = readAfterTwoPlan.cell zeroTable 0) zeroTable = some x ∧
      fullReadModifyWrite 1 25 readAfterTwoPlan 2 locRecordB (lateSchedule zeroTable 1
        (fun _ _ => 0) readAfterTwoPlan fun c => c = readAfterTwoPlan.cell zeroTable 1) zeroTable =
          some x' ∧ x = x' := by
  have hstart : ∀ c, zeroTable.tag c < 1 := fun _ => Nat.one_pos
  have h0 : readAfterTwoPlan.readLocs 0 ≠ locRecordA := by decide +kernel
  have h1 : readAfterTwoPlan.readLocs 1 ≠ locRecordA := by decide +kernel
  refine ⟨_, _, by rw [fullReadModifyWrite, late_result hstart (by decide) h0, Option.map_some],
    by rw [fullReadModifyWrite, late_result hstart (by decide) h1, Option.map_some], ?_⟩
  refine (fullReadModifyWrite_independent_iff hstart 2 locRecordB).mpr ?_ _ _
    (lateSchedule_legal hstart _) (lateSchedule_legal hstart _) zeroTable _ _
    (by rw [fullReadModifyWrite, late_result hstart (by decide) h0, Option.map_some])
    (by rw [fullReadModifyWrite, late_result hstart (by decide) h1, Option.map_some])
  intro i _ _ w _ _
  simp [FieldPlan.field, zeroTable]

/-- Field 2 gets the fives when field 0 is ready last, and zeros when field 1 is. -/
theorem store_follows_readiness :
    ∃ s s' : ReadSchedule, s.Legal fivesInField0 1 twoWrites readAfterTwoPlan ∧
      s'.Legal fivesInField0 1 twoWrites readAfterTwoPlan ∧
      ∃ x x', fullReadModifyWrite 1 25 readAfterTwoPlan 2 locRecordB s
          (moment fivesInField0 1 twoWrites fun c => c = .slot2 2) = some x ∧
        fullReadModifyWrite 1 25 readAfterTwoPlan 2 locRecordB s'
          (moment fivesInField0 1 twoWrites fun c => c = .slot2 2) = some x' ∧
        x.2.value (.slot2 2) 0 = 5 ∧ x'.2.value (.slot2 2) 0 = 0 := by
  have hstart : ∀ c, fivesInField0.tag c < 1 := fun _ => Nat.one_pos
  have h0 : readAfterTwoPlan.readLocs 0 ≠ locRecordA := by decide +kernel
  have h1 : readAfterTwoPlan.readLocs 1 ≠ locRecordA := by decide +kernel
  refine ⟨_, _, lateSchedule_legal hstart _, lateSchedule_legal hstart _, _, _,
    by rw [fullReadModifyWrite, late_result hstart (by decide) h0, Option.map_some],
    by rw [fullReadModifyWrite, late_result hstart (by decide) h1, Option.map_some], ?_, ?_⟩
  · decide +kernel
  · decide +kernel

end Egad.Ycsb
