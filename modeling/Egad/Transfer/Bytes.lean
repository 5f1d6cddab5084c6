import Egad.Lib.Moves
import Egad.Stager.Flush

/-! # Records in bytes

    The kernels and the host routines of the transfer move bytes between three memories: the CPU
    records, the cache records and the packed buffers. A record has two values and two tags at the
    offsets of its layout; a packed element for the writeback is one tag and one value, a packed
    element for the admission is both tags and one value:

        HYBRID_RECORD_LAYOUT   value1 │ version1 │ pad │ value2 │ version2 │ pad
        otherwise              version1 │ version2 │ value1 │ value2 │ pad
        writeback              version │ value            admission   version1 │ version2 │ value

    A kernel is the list of its copies. Its threads may perform them in any order, so a run of the
    kernel is a run of any permutation of the list. -/

namespace Egad.Transfer
open Egad.Lib Egad.Stager

/-! ### Layouts -/

/-- Two ranges of bytes that do not meet. -/
def Clear (a la b lb : ℕ) : Prop := a + la ≤ b ∨ b + lb ≤ a

/-- `RecordLayout`: where the fields of a record lie. They do not overlap and lie inside the
    record, and the value is a positive number of 32-bit words. -/
structure RecordLayout where
  kRecBytes : ℕ
  verOff : Slot → ℕ
  valOff : Slot → ℕ
  kValBytes : ℕ
  words : 4 ∣ kValBytes
  pos : 0 < kValBytes
  ver_ver : Clear (verOff .slot1) 4 (verOff .slot2) 4
  val_val : Clear (valOff .slot1) kValBytes (valOff .slot2) kValBytes
  ver_val : ∀ s t, Clear (verOff s) 4 (valOff t) kValBytes
  ver_in : ∀ s, verOff s + 4 ≤ kRecBytes
  val_in : ∀ s, valOff s + kValBytes ≤ kRecBytes

def kDeviceCacheLineSize : ℕ := 128

/-- `sizeof` of a structure aligned to cache lines. -/
def alignUp (n : ℕ) : ℕ :=
  (n + (kDeviceCacheLineSize - 1)) / kDeviceCacheLineSize * kDeviceCacheLineSize

theorem le_alignUp (n : ℕ) : n ≤ alignUp n := by
  simp only [alignUp, kDeviceCacheLineSize]
  omega

/-- `Record` under `HYBRID_RECORD_LAYOUT`: each value is followed by its tag, the first pair padded
    to a cache line. -/
def hybridLayout (valBytes : ℕ) (h : 4 ∣ valBytes) (hpos : 0 < valBytes) : RecordLayout :=
  let slotUsed := valBytes + 4
  let slotPad := (kDeviceCacheLineSize - slotUsed % kDeviceCacheLineSize) % kDeviceCacheLineSize
  let second := slotUsed + slotPad
  { kRecBytes := alignUp (second + slotUsed)
    verOff := fun | .slot1 => valBytes | .slot2 => second + valBytes
    valOff := fun | .slot1 => 0 | .slot2 => second
    kValBytes := valBytes
    words := h
    pos := hpos
    ver_ver := .inl (Nat.le_trans (Nat.le_add_right _ _) (Nat.le_add_right _ _))
    val_val := .inl (Nat.le_trans (Nat.le_of_eq (Nat.zero_add _))
      (Nat.le_trans (Nat.le_add_right _ 4) (Nat.le_add_right _ _)))
    ver_val
      | .slot1, .slot1 => .inr (Nat.le_of_eq (Nat.zero_add _))
      | .slot1, .slot2 => .inl (Nat.le_add_right _ _)
      | .slot2, .slot1 => .inr (Nat.add_le_add_right (Nat.zero_le _) _)
      | .slot2, .slot2 => .inr (Nat.le_refl _)
    ver_in
      | .slot1 => Nat.le_trans (Nat.le_add_left _ _) (le_alignUp _)
      | .slot2 => Nat.le_trans (Nat.le_of_eq (Nat.add_assoc _ _ _)) (le_alignUp _)
    val_in
      | .slot1 => Nat.le_trans (Nat.le_of_eq (Nat.zero_add _))
        (Nat.le_trans (Nat.le_trans (Nat.le_add_right _ 4) (Nat.le_add_left _ _)) (le_alignUp _))
      | .slot2 => Nat.le_trans (Nat.add_le_add_left (Nat.le_add_right _ 4) _) (le_alignUp _) }

/-- `Record` otherwise: both tags, then both values. -/
def plainLayout (valBytes : ℕ) (h : 4 ∣ valBytes) (hpos : 0 < valBytes) : RecordLayout where
  kRecBytes := alignUp (8 + 2 * valBytes)
  verOff := fun | .slot1 => 0 | .slot2 => 4
  valOff := fun | .slot1 => 8 | .slot2 => 8 + valBytes
  kValBytes := valBytes
  words := h
  pos := hpos
  ver_ver := .inl le_rfl
  val_val := .inl le_rfl
  ver_val := by rintro (_ | _) (_ | _) <;> exact .inl (by simp only []; omega)
  ver_in := by
    have := le_alignUp (8 + 2 * valBytes)
    rintro (_ | _) <;> simp only [] <;> omega
  val_in := by
    have := le_alignUp (8 + 2 * valBytes)
    rintro (_ | _) <;> simp only [] <;> omega

/-- The sizes of the values `ScatterGather` is instantiated with: `YcsbValue` and `YcsbFieldValue`
    (also small), then warehouse, district, customer, item, stock, new-order, order and order-line. -/
def valueSizes : List ℕ := [1000, 100, 120, 12, 100, 100, 28, 84, 16, 4, 20, 20]

/-- The layouts of the build: with or without `HYBRID_RECORD_LAYOUT`. -/
def instantiated (hybrid : Bool) (valBytes : ℕ) (h : valBytes ∈ valueSizes) : RecordLayout :=
  have hwords : ∀ v ∈ valueSizes, 4 ∣ v ∧ 0 < v := by decide
  if hybrid then hybridLayout valBytes (hwords _ h).1 (hwords _ h).2
  else plainLayout valBytes (hwords _ h).1 (hwords _ h).2

variable (L : RecordLayout)

/-- The address of the value of a slot of record `r`. -/
def RecordLayout.valAddr (r : ℕ) (s : Slot) : ℕ := r * L.kRecBytes + L.valOff s

/-- The address of the tag of a slot of record `r`. -/
def RecordLayout.verAddr (r : ℕ) (s : Slot) : ℕ := r * L.kRecBytes + L.verOff s

theorem div_eq_of_block {B i a : ℕ} (hlo : i * B ≤ a) (hhi : a < i * B + B) : a / B = i :=
  Nat.div_eq_of_lt_le hlo (by rw [Nat.succ_mul]; exact hhi)

/-- An address of a field lies in its own record. -/
theorem RecordLayout.ver_block {r a : ℕ} {s : Slot} (hlo : L.verAddr r s ≤ a)
    (hhi : a < L.verAddr r s + 4) : a / L.kRecBytes = r := by
  have := L.ver_in s
  simp only [verAddr] at hlo hhi
  exact div_eq_of_block (by omega) (by omega)

theorem RecordLayout.val_block {r a : ℕ} {s : Slot} (hlo : L.valAddr r s ≤ a)
    (hhi : a < L.valAddr r s + L.kValBytes) : a / L.kRecBytes = r := by
  have := L.val_in s
  simp only [valAddr] at hlo hhi
  exact div_eq_of_block (by omega) (by omega)

/-! ### Kernels -/

/-- The elements of a kernel's grid-stride loop over threads: each thread copies the tags and then
    the value of its elements word by word. -/
def threadKernel (tags : ℕ → List Move) (value : ℕ → Move) (threads n : ℕ) : List Move :=
  (List.range threads).flatMap fun t => (strideLoop t threads n).flatMap fun i =>
    tags i ++ (value i).words 4

/-- A thread for each element, and no loop. -/
def singleKernel (tags : ℕ → List Move) (value : ℕ → Move) (threads n : ℕ) : List Move :=
  (List.range threads).flatMap fun i => if n ≤ i then [] else tags i ++ (value i).words 4

/-- The elements of a grid-stride loop over warps: lane 0 copies the tags, and the lanes share the
    words of the value. -/
def warpKernel (tags : ℕ → List Move) (value : ℕ → Move) (warps n : ℕ) : List Move :=
  (List.range warps).flatMap fun w => (strideLoop w warps n).flatMap fun i =>
    (List.range 32).flatMap fun lane => (if lane = 0 then tags i else []) ++
      (strideLoop lane 32 ((value i).len / 4)).map ((value i).word 4)

/-- What all of them do. -/
def elementMoves (tags : ℕ → List Move) (value : ℕ → Move) (n : ℕ) : List Move :=
  (List.range n).flatMap fun i => tags i ++ (value i).words 4

variable {tags : ℕ → List Move} {value : ℕ → Move}

theorem threadKernel_perm {threads : ℕ} (h : 0 < threads) (n : ℕ) :
    (threadKernel tags value threads n).Perm (elementMoves tags value n) := by
  rw [threadKernel, elementMoves, ← List.flatMap_assoc]
  exact (flatMap_strideLoop_perm h n).flatMap_right _

theorem singleKernel_eq {threads n : ℕ} (h : n ≤ threads) :
    singleKernel tags value threads n = elementMoves tags value n := by
  obtain ⟨k, rfl⟩ := Nat.exists_eq_add_of_le h
  rw [singleKernel, elementMoves, List.range_add, List.flatMap_append, List.flatMap_map]
  have hrest : (List.range k).flatMap (fun j => if n ≤ n + j then [] else
      tags (n + j) ++ (value (n + j)).words 4) = [] := by simp
  rw [hrest, List.append_nil]
  refine List.flatMap_congr fun i hi => ?_
  rw [if_neg (Nat.not_le.mpr (List.mem_range.mp hi))]

theorem lanes_perm (l : List Move) (c : Move) :
    ((List.range 32).flatMap fun lane => (if lane = 0 then l else []) ++
      (strideLoop lane 32 (c.len / 4)).map (c.word 4)).Perm (l ++ c.words 4) := by
  refine (List.flatMap_append_perm _ _ _).symm.trans (List.Perm.append ?_ ?_)
  · simp [List.range_succ]
  · rw [← List.map_flatMap]
    exact (flatMap_strideLoop_perm (by decide) _).map _

theorem warpKernel_perm {warps : ℕ} (h : 0 < warps) (n : ℕ) :
    (warpKernel tags value warps n).Perm (elementMoves tags value n) := by
  rw [warpKernel, elementMoves, ← List.flatMap_assoc]
  refine ((flatMap_strideLoop_perm h n).flatMap_right _).trans ?_
  exact List.Perm.flatMap_left _ fun i _ => lanes_perm (tags i) (value i)

/-- The copies of the elements as ranges. -/
def elementRanges (tags : ℕ → List Move) (value : ℕ → Move) (n : ℕ) : List Move :=
  (List.range n).flatMap fun i => tags i ++ [value i]

theorem elementMoves_eq (htags : ∀ i, ∀ c ∈ tags i, c.len = 4) (n : ℕ) :
    elementMoves tags value n = (elementRanges tags value n).flatMap (Move.words 4) := by
  have hwords : ∀ l : List Move, (∀ c ∈ l, c.len = 4) → l.flatMap (Move.words 4) = l := by
    intro l hl
    induction l with
    | nil => rfl
    | cons c l ih =>
      have hc : c.words 4 = [c] := by
        have := hl c List.mem_cons_self
        cases c
        simp_all [Move.words, Move.word]
      rw [List.flatMap_cons, hc, ih fun d hd => hl d (List.mem_cons_of_mem _ hd)]
      rfl
  rw [elementMoves, elementRanges, List.flatMap_assoc]
  refine List.flatMap_congr fun i _ => ?_
  rw [List.flatMap_append, hwords _ (htags i), List.flatMap_singleton]

/-- A kernel with its copies in any order does the copies of its elements, if they do not meet. -/
theorem run_kernel {source target : ℕ → UInt8} {n : ℕ} {k l : List Move}
    (hk : k.Perm (elementMoves tags value n)) (hl : l.Perm k)
    (htags : ∀ i, ∀ c ∈ tags i, c.len = 4) (hvalue : ∀ i, 4 ∣ (value i).len)
    (hapart : (elementRanges tags value n).Pairwise Move.Apart) :
    runMoves source l target = runMoves source (elementRanges tags value n) target := by
  have hdvd : ∀ c ∈ elementRanges tags value n, 4 ∣ c.len := by
    intro c hc
    obtain ⟨i, -, hc⟩ := List.mem_flatMap.mp hc
    rcases List.mem_append.mp hc with hc | hc
    · exact ⟨1, htags i c hc⟩
    · rw [List.mem_singleton.mp hc]
      exact hvalue i
  have hwords := flatMap_words_apart hdvd hapart
  rw [← elementMoves_eq htags] at hwords
  rw [runMoves_perm (hl.trans hk) hwords, elementMoves_eq htags,
    runMoves_words (by decide) hdvd hapart]

/-! ### Writeback -/

/-- An element of a flush set. -/
structure Triple where
  grid : ℕ
  slot : Slot
  crid : ℕ

/-- A flush set: each slot of a GRID once, and each CRID in one GRID. -/
structure FlushSet where
  n : ℕ
  triple : ℕ → Triple
  once : ∀ i < n, ∀ j < n, (triple i).grid = (triple j).grid → (triple i).slot = (triple j).slot →
    i = j
  resident : ∀ i < n, ∀ j < n, (triple i).crid ≠ absent → (triple i).crid = (triple j).crid →
    (triple i).grid = (triple j).grid

/-- The flush set the stager collects: the residents of a cache are distinct. -/
def FlushSet.ofHybrid {V : Type*} (cfg : Config) (h : Hybrid V) (hm : Mapped cfg h.cache) :
    FlushSet where
  n := (h.flushSet cfg).length
  triple := fun i => match (h.flushSet cfg)[i]? with
    | some x => ⟨x.grid, x.slot, x.crid⟩
    | none => ⟨absent, .slot1, absent⟩
  once := by
    intro i hi j hj hg hs
    rw [List.getElem?_eq_getElem hi, List.getElem?_eq_getElem hj] at hg hs
    simp only at hg hs
    have hnd : ((h.flushSet cfg).map fun x => (x.grid, x.slot)).Nodup := flushSet_nodup
    have hi' : i < ((h.flushSet cfg).map fun x => (x.grid, x.slot)).length := by simpa using hi
    have hj' : j < ((h.flushSet cfg).map fun x => (x.grid, x.slot)).length := by simpa using hj
    refine (@List.Nodup.getElem_inj_iff _ _ hnd i hi' j hj').mp ?_
    simp [hg, hs]
  resident := by
    intro i hi j hj hne hc
    rw [List.getElem?_eq_getElem hi, List.getElem?_eq_getElem hj] at hc ⊢
    rw [List.getElem?_eq_getElem hi] at hne
    have hkey : ∀ k (hk : k < (h.flushSet cfg).length),
        (h.flushSet cfg)[k].grid < cfg.capacity ∧
          (h.flushSet cfg)[k].crid = h.cache.resident (h.flushSet cfg)[k].grid := by
      intro k hk
      have hmem : Entry.key (h.flushSet cfg)[k] ∈ (h.flushSet cfg).map Entry.key :=
        List.mem_map_of_mem (List.getElem_mem hk)
      have := mem_flushSet_key.mp hmem
      exact ⟨this.1, this.2.2⟩
    simp only at hc hne ⊢
    rw [(hkey i hi).2] at hne hc
    rw [(hkey j hj).2] at hc
    rw [← (hm.crid_of_grid _ (hkey i hi).1 hne).2, hc,
      (hm.crid_of_grid _ (hkey j hj).1 (hc ▸ hne)).2]

variable (F : FlushSet)

/-- A packed element of the writeback: one tag and one value. -/
def RecordLayout.kPackedWritebackBytes : ℕ := 4 + L.kValBytes

def packTag (i : ℕ) : Move :=
  ⟨i * L.kPackedWritebackBytes, L.verAddr (F.triple i).grid (F.triple i).slot, 4⟩

def packValue (i : ℕ) : Move :=
  ⟨i * L.kPackedWritebackBytes + 4, L.valAddr (F.triple i).grid (F.triple i).slot, L.kValBytes⟩

/-- `k_pack_versions_by_grids`. -/
def kPackVersionsByGrids (threads : ℕ) : List Move :=
  threadKernel (fun i => [packTag L F i]) (packValue L F) threads F.n

/-- `k_pack_versions_by_grids_warp`. -/
def kPackVersionsByGridsWarp (warps : ℕ) : List Move :=
  warpKernel (fun i => [packTag L F i]) (packValue L F) warps F.n

/-- `scatter_host_versions_range_from_packed_`: the value, then its tag, to the CPU record. -/
def scatterHost (i : ℕ) : List Move :=
  let x := F.triple i
  if x.crid = absent then []
  else [⟨L.valAddr x.crid x.slot, i * L.kPackedWritebackBytes + 4, L.kValBytes⟩,
    ⟨L.verAddr x.crid x.slot, i * L.kPackedWritebackBytes, 4⟩]

def scatterHostVersionsRangeFromPacked : List Move := (List.range F.n).flatMap (scatterHost L F)

/-- The copies of all elements of the flush set. -/
def packRanges : List Move := elementRanges (fun i => [packTag L F i]) (packValue L F) F.n

theorem packTag_block {i a : ℕ} (h : (packTag L F i).Hits a) :
    a / L.kPackedWritebackBytes = i := by
  obtain ⟨hlo, hhi⟩ := h
  simp only [packTag, RecordLayout.kPackedWritebackBytes] at hlo hhi ⊢
  exact div_eq_of_block hlo (by omega)

theorem packValue_block {i a : ℕ} (h : (packValue L F i).Hits a) :
    a / L.kPackedWritebackBytes = i := by
  obtain ⟨hlo, hhi⟩ := h
  simp only [packValue, RecordLayout.kPackedWritebackBytes] at hlo hhi ⊢
  exact div_eq_of_block (by omega) (by omega)

theorem packRanges_apart : (packRanges L F).Pairwise Move.Apart := by
  refine List.pairwise_flatMap.mpr ⟨fun i _ => ?_, ?_⟩
  · refine List.pairwise_pair.mpr fun a ha hb => ?_
    obtain ⟨-, hhi⟩ := ha
    obtain ⟨hlo, -⟩ := hb
    simp only [packTag, packValue] at hhi hlo
    omega
  · refine List.nodup_range.imp fun {i j} hne c hc d hd a ha hb => hne ?_
    have hblock : ∀ k, ∀ c ∈ [packTag L F k] ++ [packValue L F k], c.Hits a →
        a / L.kPackedWritebackBytes = k := by
      intro k c hc hca
      rcases List.mem_append.mp hc with hc | hc <;> rw [List.mem_singleton.mp hc] at hca
      · exact packTag_block L F hca
      · exact packValue_block L F hca
    rw [← hblock i c hc ha, hblock j d hd hb]

variable {L F}

/-- Every order of the copies of either kernel leaves the same packed bytes. -/
theorem run_pack {gpu packed : ℕ → UInt8} {workers : ℕ} (hw : 0 < workers) {l : List Move}
    (hl : l.Perm (kPackVersionsByGrids L F workers) ∨
      l.Perm (kPackVersionsByGridsWarp L F workers)) :
    runMoves gpu l packed = runMoves gpu (packRanges L F) packed := by
  have htags : ∀ i, ∀ c ∈ [packTag L F i], c.len = 4 := by simp [packTag]
  have hvalue : ∀ i, 4 ∣ (packValue L F i).len := fun _ => L.words
  rcases hl with hl | hl
  · exact run_kernel (threadKernel_perm hw F.n) hl htags hvalue (packRanges_apart L F)
  · exact run_kernel (warpKernel_perm hw F.n) hl htags hvalue (packRanges_apart L F)

theorem packed_tag {gpu packed : ℕ → UInt8} {i o : ℕ} (hi : i < F.n) (ho : o < 4) :
    runMoves gpu (packRanges L F) packed (i * L.kPackedWritebackBytes + o) =
      gpu (L.verAddr (F.triple i).grid (F.triple i).slot + o) := by
  have hmem : packTag L F i ∈ packRanges L F :=
    List.mem_flatMap.mpr ⟨i, List.mem_range.mpr hi, by simp⟩
  exact runMoves_at (packRanges_apart L F) hmem ho

theorem packed_value {gpu packed : ℕ → UInt8} {i o : ℕ} (hi : i < F.n) (ho : o < L.kValBytes) :
    runMoves gpu (packRanges L F) packed (i * L.kPackedWritebackBytes + 4 + o) =
      gpu (L.valAddr (F.triple i).grid (F.triple i).slot + o) := by
  have hmem : packValue L F i ∈ packRanges L F :=
    List.mem_flatMap.mpr ⟨i, List.mem_range.mpr hi, by simp⟩
  exact runMoves_at (packRanges_apart L F) hmem ho

/-- What the host writes for an element: the value or the tag of its slot. -/
theorem scatterHost_cases {i : ℕ} {c : Move} (hc : c ∈ scatterHost L F i) :
    (F.triple i).crid ≠ absent ∧
      (c = ⟨L.valAddr (F.triple i).crid (F.triple i).slot, i * L.kPackedWritebackBytes + 4,
        L.kValBytes⟩ ∨
      c = ⟨L.verAddr (F.triple i).crid (F.triple i).slot, i * L.kPackedWritebackBytes, 4⟩) := by
  simp only [scatterHost] at hc
  split at hc
  · simp at hc
  · rename_i hne
    exact ⟨hne, by simpa using hc⟩

/-- The tag of one slot does not meet the value of any slot. -/
theorem ver_val_apart {r r' a : ℕ} {s t : Slot} (hv : L.verAddr r s ≤ a ∧ a < L.verAddr r s + 4)
    (hw : L.valAddr r' t ≤ a ∧ a < L.valAddr r' t + L.kValBytes) : False := by
  have hr : r = r' := by rw [← L.ver_block hv.1 hv.2, L.val_block hw.1 hw.2]
  subst hr
  simp only [RecordLayout.verAddr, RecordLayout.valAddr] at hv hw
  rcases L.ver_val s t with h | h <;> omega

theorem val_val_eq {r r' a : ℕ} {s t : Slot}
    (hv : L.valAddr r s ≤ a ∧ a < L.valAddr r s + L.kValBytes)
    (hw : L.valAddr r' t ≤ a ∧ a < L.valAddr r' t + L.kValBytes) : r = r' ∧ s = t := by
  have hr : r = r' := by rw [← L.val_block hv.1 hv.2, L.val_block hw.1 hw.2]
  subst hr
  simp only [RecordLayout.valAddr] at hv hw
  refine ⟨rfl, ?_⟩
  cases s <;> cases t <;> first
    | rfl
    | rcases L.val_val with h | h <;> omega

theorem ver_ver_eq {r r' a : ℕ} {s t : Slot} (hv : L.verAddr r s ≤ a ∧ a < L.verAddr r s + 4)
    (hw : L.verAddr r' t ≤ a ∧ a < L.verAddr r' t + 4) : r = r' ∧ s = t := by
  have hr : r = r' := by rw [← L.ver_block hv.1 hv.2, L.ver_block hw.1 hw.2]
  subst hr
  simp only [RecordLayout.verAddr] at hv hw
  refine ⟨rfl, ?_⟩
  cases s <;> cases t <;> first
    | rfl
    | rcases L.ver_ver with h | h <;> omega

theorem scatterHost_apart : (scatterHostVersionsRangeFromPacked L F).Pairwise Move.Apart := by
  refine List.pairwise_flatMap.mpr ⟨fun i _ => ?_, ?_⟩
  · simp only [scatterHost]
    split
    · exact List.Pairwise.nil
    · exact List.pairwise_pair.mpr fun a ha hb => ver_val_apart hb ha
  · refine List.nodup_range.imp_of_mem fun {i j} hi hj hne c hc d hd a ha hb => hne ?_
    obtain ⟨hci, hc⟩ := scatterHost_cases hc
    obtain ⟨hcj, hd⟩ := scatterHost_cases hd
    -- two elements that meet have one CRID and one slot, so one GRID
    have hsame : (F.triple i).crid = (F.triple j).crid ∧ (F.triple i).slot = (F.triple j).slot := by
      rcases hc with rfl | rfl <;> rcases hd with rfl | rfl
      · exact val_val_eq ha hb
      · exact (ver_val_apart hb ha).elim
      · exact (ver_val_apart ha hb).elim
      · exact ver_ver_eq ha hb
    have hi := List.mem_range.mp hi
    have hj := List.mem_range.mp hj
    exact F.once i hi j hj (F.resident i hi j hj hci hsame.1) hsame.2

/-- The bytes of the value of a slot. -/
def RecordLayout.valueBytes (L : RecordLayout) (mem : ℕ → UInt8) (r : ℕ) (s : Slot) : List UInt8 :=
  (List.range L.kValBytes).map fun o => mem (L.valAddr r s + o)

/-- The bytes of the tag of a slot. -/
def RecordLayout.tagBytes (L : RecordLayout) (mem : ℕ → UInt8) (r : ℕ) (s : Slot) : List UInt8 :=
  (List.range 4).map fun o => mem (L.verAddr r s + o)

/-- The bytes of a whole record. -/
def RecordLayout.recordBytes (L : RecordLayout) (mem : ℕ → UInt8) (r : ℕ) : List UInt8 :=
  (List.range L.kRecBytes).map fun o => mem (r * L.kRecBytes + o)

theorem scattered_value {packed cpu : ℕ → UInt8} {i o : ℕ} (hi : i < F.n)
    (hne : (F.triple i).crid ≠ absent) (ho : o < L.kValBytes) :
    runMoves packed (scatterHostVersionsRangeFromPacked L F) cpu
      (L.valAddr (F.triple i).crid (F.triple i).slot + o) =
        packed (i * L.kPackedWritebackBytes + 4 + o) := by
  have hmem : ⟨L.valAddr (F.triple i).crid (F.triple i).slot, i * L.kPackedWritebackBytes + 4,
      L.kValBytes⟩ ∈ scatterHostVersionsRangeFromPacked L F :=
    List.mem_flatMap.mpr ⟨i, List.mem_range.mpr hi, by simp [scatterHost, hne]⟩
  exact runMoves_at scatterHost_apart hmem ho

theorem scattered_tag {packed cpu : ℕ → UInt8} {i o : ℕ} (hi : i < F.n)
    (hne : (F.triple i).crid ≠ absent) (ho : o < 4) :
    runMoves packed (scatterHostVersionsRangeFromPacked L F) cpu
      (L.verAddr (F.triple i).crid (F.triple i).slot + o) =
        packed (i * L.kPackedWritebackBytes + o) := by
  have hmem : ⟨L.verAddr (F.triple i).crid (F.triple i).slot, i * L.kPackedWritebackBytes, 4⟩ ∈
      scatterHostVersionsRangeFromPacked L F :=
    List.mem_flatMap.mpr ⟨i, List.mem_range.mpr hi, by simp [scatterHost, hne]⟩
  exact runMoves_at scatterHost_apart hmem ho

/-- A byte the host writes belongs to the value or the tag of a flushed slot. -/
theorem scattered_hit {c : Move} (hc : c ∈ scatterHostVersionsRangeFromPacked L F) {a : ℕ}
    (ha : c.Hits a) : ∃ i < F.n, (F.triple i).crid ≠ absent ∧
      ((L.valAddr (F.triple i).crid (F.triple i).slot ≤ a ∧
        a < L.valAddr (F.triple i).crid (F.triple i).slot + L.kValBytes) ∨
      (L.verAddr (F.triple i).crid (F.triple i).slot ≤ a ∧
        a < L.verAddr (F.triple i).crid (F.triple i).slot + 4)) := by
  obtain ⟨i, hi, hc⟩ := List.mem_flatMap.mp hc
  obtain ⟨hne, rfl | rfl⟩ := scatterHost_cases hc
  · exact ⟨i, List.mem_range.mp hi, hne, .inl ha⟩
  · exact ⟨i, List.mem_range.mp hi, hne, .inr ha⟩

/-- A slot that is not flushed keeps its value and its tag. -/
theorem unflushed_slot {packed cpu : ℕ → UInt8} {r : ℕ} {s : Slot}
    (h : ∀ i < F.n, ¬ ((F.triple i).crid = r ∧ (F.triple i).slot = s)) :
    (∀ o < L.kValBytes, runMoves packed (scatterHostVersionsRangeFromPacked L F) cpu
      (L.valAddr r s + o) = cpu (L.valAddr r s + o)) ∧
    ∀ o < 4, runMoves packed (scatterHostVersionsRangeFromPacked L F) cpu (L.verAddr r s + o) =
      cpu (L.verAddr r s + o) := by
  constructor <;> intro o ho <;> refine runMoves_of_not_hits fun c hc ha => ?_ <;>
    obtain ⟨i, hi, -, hhit | hhit⟩ := scattered_hit hc ha
  · exact h i hi (val_val_eq hhit ⟨Nat.le_add_right _ _, by omega⟩)
  · exact ver_val_apart hhit ⟨Nat.le_add_right (L.valAddr r s) o, by omega⟩
  · exact ver_val_apart ⟨Nat.le_add_right (L.verAddr r s) o, by omega⟩ hhit
  · exact h i hi (ver_ver_eq hhit ⟨Nat.le_add_right _ _, by omega⟩)

/-- A record without an element in the flush set keeps all its bytes. -/
theorem unflushed_record {packed cpu : ℕ → UInt8} {r : ℕ} (h : ∀ i < F.n, (F.triple i).crid ≠ r)
    {o : ℕ} (ho : o < L.kRecBytes) :
    runMoves packed (scatterHostVersionsRangeFromPacked L F) cpu (r * L.kRecBytes + o) =
      cpu (r * L.kRecBytes + o) := by
  have hr : (r * L.kRecBytes + o) / L.kRecBytes = r :=
    div_eq_of_block (Nat.le_add_right _ _) (Nat.add_lt_add_left ho _)
  refine runMoves_of_not_hits fun c hc ha => ?_
  obtain ⟨i, hi, -, hhit | hhit⟩ := scattered_hit hc ha
  · exact h i hi ((L.val_block hhit.1 hhit.2).symm.trans hr)
  · exact h i hi ((L.ver_block hhit.1 hhit.2).symm.trans hr)

/-! ### Admission -/

/-- The records of an admission: each CRID with the GRID it gets. -/
structure AdmitSet where
  n : ℕ
  crid : ℕ → ℕ
  grid : ℕ → ℕ
  distinct : ∀ i < n, ∀ j < n, grid i = grid j → i = j

variable (L) (A : AdmitSet) (prevSlots : ℕ → Slot)

/-- A packed element of the admission: both tags and one value. -/
def RecordLayout.kPackedBytes : ℕ := 8 + L.kValBytes

def unpackTags (i : ℕ) : List Move :=
  [⟨L.verAddr (A.grid i) .slot1, i * L.kPackedBytes, 4⟩,
    ⟨L.verAddr (A.grid i) .slot2, i * L.kPackedBytes + 4, 4⟩]

def unpackValue (i : ℕ) : Move :=
  ⟨L.valAddr (A.grid i) (prevSlots i), i * L.kPackedBytes + 8, L.kValBytes⟩

/-- `k_scatter_versions`. -/
def kScatterVersions (threads : ℕ) : List Move :=
  singleKernel (unpackTags L A) (unpackValue L A prevSlots) threads A.n

/-- `k_scatter_versions_warp`. -/
def kScatterVersionsWarp (warps : ℕ) : List Move :=
  warpKernel (unpackTags L A) (unpackValue L A prevSlots) warps A.n

/-- The copies of all elements of the admission. -/
def unpackRanges : List Move := elementRanges (unpackTags L A) (unpackValue L A prevSlots) A.n

variable {L A prevSlots}

theorem unpack_block {i a : ℕ} {c : Move}
    (hc : c ∈ unpackTags L A i ++ [unpackValue L A prevSlots i]) (ha : c.Hits a) :
    a / L.kRecBytes = A.grid i := by
  simp only [unpackTags, unpackValue, List.mem_append, List.mem_cons, List.not_mem_nil,
    or_false] at hc
  rcases hc with (rfl | rfl) | rfl
  · exact L.ver_block ha.1 ha.2
  · exact L.ver_block ha.1 ha.2
  · exact L.val_block ha.1 ha.2

theorem unpackRanges_apart : (unpackRanges L A prevSlots).Pairwise Move.Apart := by
  refine List.pairwise_flatMap.mpr ⟨fun i _ => ?_, ?_⟩
  · simp only [unpackTags, unpackValue, List.cons_append, List.nil_append, List.pairwise_cons,
      List.mem_cons, List.not_mem_nil, or_false, forall_eq_or_imp, forall_eq]
    refine ⟨⟨fun a ha hb => ?_, fun a ha hb => ver_val_apart ha hb⟩,
      fun a ha hb => ver_val_apart ha hb, fun _ h => h.elim, List.Pairwise.nil⟩
    exact absurd (ver_ver_eq ha hb).2 (by decide)
  · refine List.nodup_range.imp_of_mem fun {i j} hi hj hne c hc d hd a ha hb => hne ?_
    refine A.distinct i (List.mem_range.mp hi) j (List.mem_range.mp hj) ?_
    rw [← unpack_block hc ha, unpack_block hd hb]

/-- Every order of the copies of either kernel leaves the same records. -/
theorem run_unpack {packed gpu : ℕ → UInt8} {threads warps : ℕ} (ht : A.n ≤ threads)
    (hw : 0 < warps) {l : List Move}
    (hl : l.Perm (kScatterVersions L A prevSlots threads) ∨
      l.Perm (kScatterVersionsWarp L A prevSlots warps)) :
    runMoves packed l gpu = runMoves packed (unpackRanges L A prevSlots) gpu := by
  have htags : ∀ i, ∀ c ∈ unpackTags L A i, c.len = 4 := by
    intro i c hc
    simp only [unpackTags, List.mem_cons, List.not_mem_nil, or_false] at hc
    rcases hc with rfl | rfl <;> rfl
  have hvalue : ∀ i, 4 ∣ (unpackValue L A prevSlots i).len := fun _ => L.words
  rcases hl with hl | hl
  · exact run_kernel (singleKernel_eq ht ▸ List.Perm.refl _) hl htags hvalue unpackRanges_apart
  · exact run_kernel (warpKernel_perm hw A.n) hl htags hvalue unpackRanges_apart

/-! ### The round trip -/

/-- Packing the written slots on the GPU and scattering them on the host makes the value and the tag
    of every flushed CPU slot those of its GPU slot and leaves every other slot and record as it
    was, for every layout and in every order of the copies; and the warp kernels leave the same
    bytes as the thread kernels. -/
theorem writeback_round_trip (L : RecordLayout) (F : FlushSet) (A : AdmitSet)
    (prevSlots : ℕ → Slot) (gpu packed cpu : ℕ → UInt8) {threads warps : ℕ} (ht : 0 < threads)
    (hw : 0 < warps) {pack pack' scatter : List Move}
    (hpack : pack.Perm (kPackVersionsByGrids L F threads))
    (hpack' : pack'.Perm (kPackVersionsByGridsWarp L F warps))
    (hscatter : scatter.Perm (scatterHostVersionsRangeFromPacked L F)) :
    let cpu' := runMoves (runMoves gpu pack packed) scatter cpu
    (∀ i < F.n, (F.triple i).crid ≠ absent →
      L.valueBytes cpu' (F.triple i).crid (F.triple i).slot =
        L.valueBytes gpu (F.triple i).grid (F.triple i).slot ∧
      L.tagBytes cpu' (F.triple i).crid (F.triple i).slot =
        L.tagBytes gpu (F.triple i).grid (F.triple i).slot) ∧
    (∀ r s, (∀ i < F.n, ¬ ((F.triple i).crid = r ∧ (F.triple i).slot = s)) →
      L.valueBytes cpu' r s = L.valueBytes cpu r s ∧ L.tagBytes cpu' r s = L.tagBytes cpu r s) ∧
    (∀ r, (∀ i < F.n, (F.triple i).crid ≠ r) → L.recordBytes cpu' r = L.recordBytes cpu r) ∧
    runMoves gpu pack' packed = runMoves gpu pack packed ∧
    ∀ unpack unpack' : List Move, A.n ≤ threads →
      unpack.Perm (kScatterVersions L A prevSlots threads) →
      unpack'.Perm (kScatterVersionsWarp L A prevSlots warps) →
      runMoves packed unpack' gpu = runMoves packed unpack gpu := by
  intro cpu'
  have hcpu : cpu' = runMoves (runMoves gpu (packRanges L F) packed)
      (scatterHostVersionsRangeFromPacked L F) cpu := by
    rw [← run_pack ht (.inl hpack), ← runMoves_perm hscatter scatterHost_apart]
  refine ⟨fun i hi hne => ⟨?_, ?_⟩, fun r s h => ⟨?_, ?_⟩, fun r h => ?_, ?_, ?_⟩
  · refine List.map_congr_left fun o ho => ?_
    have ho := List.mem_range.mp ho
    rw [hcpu, scattered_value hi hne ho, packed_value hi ho]
  · refine List.map_congr_left fun o ho => ?_
    have ho := List.mem_range.mp ho
    rw [hcpu, scattered_tag hi hne ho, packed_tag hi ho]
  · refine List.map_congr_left fun o ho => ?_
    rw [hcpu, (unflushed_slot h).1 o (List.mem_range.mp ho)]
  · refine List.map_congr_left fun o ho => ?_
    rw [hcpu, (unflushed_slot h).2 o (List.mem_range.mp ho)]
  · refine List.map_congr_left fun o ho => ?_
    rw [hcpu, unflushed_record h (List.mem_range.mp ho)]
  · rw [run_pack ht (.inl hpack), run_pack hw (.inr hpack')]
  · intro unpack unpack' hn hunpack hunpack'
    rw [run_unpack hn hw (.inl hunpack), run_unpack hn hw (.inr hunpack')]

/-- Two records of 12-byte fields: slot 2 of GRID 3 goes to CRID 5 and slot 1 of GRID 4 to CRID 7. -/
def twoSlots : FlushSet where
  n := 2
  triple := fun i => if i = 0 then ⟨3, .slot2, 5⟩ else ⟨4, .slot1, 7⟩
  once := by decide
  resident := by decide +kernel

/-- Record 9 is admitted to GRID 2. -/
def oneRecord : AdmitSet := ⟨1, fun _ => 9, fun _ => 2, by decide⟩

theorem writeback_round_trip_two_slots :
    let L := instantiated true 12 (by decide)
    let gpu := fun a : ℕ => UInt8.ofNat a
    let cpu' := runMoves (runMoves gpu (kPackVersionsByGrids L twoSlots 256) fun _ => 0)
      (scatterHostVersionsRangeFromPacked L twoSlots) fun _ => 7
    L.valueBytes cpu' 5 .slot2 = L.valueBytes gpu 3 .slot2 ∧
      L.tagBytes cpu' 5 .slot2 = L.tagBytes gpu 3 .slot2 := by
  intro L gpu cpu'
  exact (writeback_round_trip L twoSlots oneRecord (fun _ => .slot1) gpu (fun _ => 0) (fun _ => 7)
    (by decide : 0 < 256) (by decide : 0 < 8) (List.Perm.refl _) (List.Perm.refl _)
    (List.Perm.refl _)).1 0 (by decide) (by decide +kernel)

end Egad.Transfer
