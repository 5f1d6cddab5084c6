import Egad.Recovery.Meta

/-! # Durable files (`util_memory.cu`, `benchmarks/ycsb.cpp`, `benchmarks/tpcc.cpp`)

    Every durable region is a file of one directory, mapped through `MallocDurable`:

        create    open(O_RDWR | O_CREAT), ftruncate to the size, memset only when `pin` is false
        recover   open(O_RDWR), the bytes as they are

    `ftruncate` keeps the bytes that were there, so a pinned region of a created store starts with
    whatever an earlier run left in its file. The marker, the YCSB records and the static TPC-C tables
    are pinned; the growing TPC-C tables are not. -/

namespace Egad.Recovery

/-! ### Files -/

/-- The durable files, by the name they are opened under. -/
inductive FileName where
  | ycsbRecords
  | ycsbMeta
  | ycsbShadowKeys
  | ycsbShadowDelKeys
  | ycsbShadowDelCrids
  | tpccWarehouse
  | tpccDistrict
  | tpccCustomer
  | tpccItem
  | tpccStock
  | tpccNewOrder
  | tpccOrder
  | tpccOrderLine
  | tpccMeta
  | tpccShadowNoKeys
  | tpccShadowOKeys
  | tpccShadowOlKeys
  | tpccShadowNoDelKeys
  | tpccShadowNoDelCrids
deriving DecidableEq, Repr

structure File where
  size : ℕ
  byte : ℕ → ℕ

/-- A directory; `none` is a file that does not exist. -/
abbrev Dir := FileName → Option File

/-- Byte `i` of a file, zero where there is none. -/
def Dir.byte (dir : Dir) (name : FileName) (i : ℕ) : ℕ :=
  match dir name with
  | some f => if i < f.size then f.byte i else 0
  | none => 0

/-- A region that a run allocates. -/
structure Region where
  name : FileName
  size : ℕ
  pin : Bool

/-- `MallocDurable` in create mode: the directory afterwards, whose file is the mapping. -/
def createRegion (dir : Dir) (r : Region) : Dir :=
  -- open with O_CREAT and ftruncate: old bytes stay, new ones are zero
  let mapped : File := ⟨r.size, dir.byte r.name⟩
  let provisioned : File := if r.pin then mapped else ⟨r.size, fun _ => 0⟩
  Function.update dir r.name (some provisioned)

/-- The regions of a run, allocated one after the other. -/
def createRun (dir : Dir) (regions : List Region) : Dir := regions.foldl createRegion dir

/-! ### Reading the regions -/

def Dir.word32 (dir : Dir) (name : FileName) (i : ℕ) : ℕ :=
  dir.byte name i + 2 ^ 8 * dir.byte name (i + 1) + 2 ^ 16 * dir.byte name (i + 2) +
    2 ^ 24 * dir.byte name (i + 3)

def Dir.word64 (dir : Dir) (name : FileName) (i : ℕ) : ℕ :=
  dir.word32 name i + 2 ^ 32 * dir.word32 name (i + 4)

/-- Where a record keeps its two version tags. -/
structure RecordLayout where
  recordBytes : ℕ
  tag1 : ℕ
  tag2 : ℕ

def kDeviceCacheLineSize : ℕ := 128

/-- `Record<ValueType>` with `HYBRID_RECORD_LAYOUT`, for a value of the given size. -/
def hybridRecord (valueBytes : ℕ) : RecordLayout :=
  let used := valueBytes + 4
  let pad := (kDeviceCacheLineSize - used % kDeviceCacheLineSize) % kDeviceCacheLineSize
  let tag2 := used + pad + valueBytes
  { recordBytes := (tag2 + 4 + kDeviceCacheLineSize - 1) / kDeviceCacheLineSize * kDeviceCacheLineSize
    tag1 := valueBytes
    tag2 := tag2 }

/-- A table of the primary store. -/
structure Table where
  name : FileName
  layout : RecordLayout
  count : ℕ
  pin : Bool

def Table.region (t : Table) : Region := ⟨t.name, t.layout.recordBytes * t.count, t.pin⟩

/-- The durable setup of a benchmark: its marker with the offset of the publish word, its tables and
    its index logs. -/
structure Setup where
  metaName : FileName
  metaBytes : ℕ
  publishOffset : ℕ
  tables : List Table
  logs : List Region

/-- Tables first, then the index logs, then the marker. -/
def Setup.regions (s : Setup) : List Region :=
  s.tables.map Table.region ++ s.logs ++ [⟨s.metaName, s.metaBytes, true⟩]

/-- The crash epoch that `BankedRecoveryMeta::read` finds in the mapped file. -/
def Setup.readMarker (s : Setup) (dir : Dir) : Option ℕ :=
  let w := dir.word64 s.metaName s.publishOffset
  if validWord w then some (w % 2 ^ 32) else none

/-- The epoch a recover run resumes at, and the epoch from which on it rolls tags back. -/
def Setup.recoverEntry (s : Setup) (dir : Dir) : ℕ × Option ℕ :=
  match s.readMarker dir with
  | none => (1, none)
  | some E => if E < 2 then (1, none) else (E - 1, some (E - 1))

/-- The file names and offsets of a setup are consistent. -/
structure Setup.Ok (s : Setup) : Prop where
  names : (s.regions.map Region.name).Nodup
  publish : s.publishOffset + 8 ≤ s.metaBytes
  tags : ∀ t ∈ s.tables, t.layout.tag1 + 4 ≤ t.layout.recordBytes ∧
    t.layout.tag2 + 4 ≤ t.layout.recordBytes

/-- `RecoveryMeta` of four cursors a bank; a field unit of `num_units` is one record. -/
def ycsbSetup (valueBytes numUnits headroom numRecords : ℕ) : Setup where
  metaName := .ycsbMeta
  metaBytes := 40
  publishOffset := 32
  tables := [⟨.ycsbRecords, hybridRecord valueBytes, numUnits, true⟩]
  logs := [⟨.ycsbShadowKeys, headroom * 4, true⟩, ⟨.ycsbShadowDelKeys, numRecords * 4, true⟩,
    ⟨.ycsbShadowDelCrids, numRecords * 4, true⟩]

/-- The eight tables, the static ones pinned; eight cursors a bank. -/
def tpccSetup (valueBytes count : FileName → ℕ) (noHead oHead olHead noRows : ℕ) : Setup where
  metaName := .tpccMeta
  metaBytes := 72
  publishOffset := 64
  tables :=
    ([.tpccWarehouse, .tpccDistrict, .tpccCustomer, .tpccItem, .tpccStock].map fun n =>
      ⟨n, hybridRecord (valueBytes n), count n, true⟩) ++
    ([.tpccNewOrder, .tpccOrder, .tpccOrderLine].map fun n =>
      ⟨n, hybridRecord (valueBytes n), count n, false⟩)
  logs := [⟨.tpccShadowNoKeys, noHead * 8, true⟩, ⟨.tpccShadowOKeys, oHead * 8, true⟩,
    ⟨.tpccShadowOlKeys, olHead * 8, true⟩, ⟨.tpccShadowNoDelKeys, noRows * 8, true⟩,
    ⟨.tpccShadowNoDelCrids, noRows * 4, true⟩]

/-- A store in which nothing was published and no slot was written; a recover run on it starts over
    from epoch 1 and rolls nothing back. -/
structure Clean (s : Setup) (dir : Dir) : Prop where
  marker : s.readMarker dir = none
  tags : ∀ t ∈ s.tables, ∀ i < t.count,
    dir.word32 t.name (t.layout.recordBytes * i + t.layout.tag1) = 0 ∧
    dir.word32 t.name (t.layout.recordBytes * i + t.layout.tag2) = 0
  entry : s.recoverEntry dir = (1, none)

/-! ### What a created store starts with -/

theorem hybridRecord_tags (valueBytes : ℕ) :
    (hybridRecord valueBytes).tag1 + 4 ≤ (hybridRecord valueBytes).recordBytes ∧
      (hybridRecord valueBytes).tag2 + 4 ≤ (hybridRecord valueBytes).recordBytes := by
  simp only [hybridRecord, kDeviceCacheLineSize]
  omega

theorem ycsbSetup_ok (valueBytes numUnits headroom numRecords : ℕ) :
    (ycsbSetup valueBytes numUnits headroom numRecords).Ok where
  names := by simp [ycsbSetup, Setup.regions, Table.region]
  publish := by simp [ycsbSetup]
  tags t ht := by
    obtain rfl := List.mem_singleton.mp ht
    exact hybridRecord_tags valueBytes

theorem tpccSetup_ok (valueBytes count : FileName → ℕ) (noHead oHead olHead noRows : ℕ) :
    (tpccSetup valueBytes count noHead oHead olHead noRows).Ok where
  names := by simp [tpccSetup, Setup.regions, Table.region]
  publish := by simp [tpccSetup]
  tags t ht := by
    rcases List.mem_append.mp ht with ht | ht
    · obtain ⟨n, -, rfl⟩ := List.mem_map.mp ht
      exact hybridRecord_tags (valueBytes n)
    · obtain ⟨n, -, rfl⟩ := List.mem_map.mp ht
      exact hybridRecord_tags (valueBytes n)

theorem createRun_of_notMem {dir : Dir} {regions : List Region} {name : FileName}
    (h : name ∉ regions.map Region.name) : createRun dir regions name = dir name := by
  induction regions generalizing dir with
  | nil => rfl
  | cons r regions ih =>
    rw [List.map_cons, List.mem_cons, not_or] at h
    rw [createRun, List.foldl_cons, ← createRun, ih h.2, createRegion, Function.update_of_ne h.1]

/-- Each region keeps its old bytes when it is pinned and is zeroed otherwise. -/
theorem createRun_byte (dir : Dir) {regions : List Region} (hnd : (regions.map Region.name).Nodup)
    {r : Region} (hr : r ∈ regions) {i : ℕ} (hi : i < r.size) :
    (createRun dir regions).byte r.name i = if r.pin then dir.byte r.name i else 0 := by
  induction regions generalizing dir with
  | nil => simp at hr
  | cons q regions ih =>
    rw [List.map_cons, List.nodup_cons] at hnd
    rw [createRun, List.foldl_cons, ← createRun]
    rcases List.mem_cons.mp hr with rfl | hr
    · rw [Dir.byte, createRun_of_notMem hnd.1, createRegion, Function.update_self]
      cases r.pin <;> simp [hi]
    · have hne : r.name ≠ q.name := fun h => hnd.1 (h ▸ List.mem_map_of_mem hr)
      have hsame : (createRegion dir q).byte r.name i = dir.byte r.name i := by
        rw [Dir.byte, Dir.byte, createRegion, Function.update_of_ne hne]
      rw [ih _ hnd.2 hr, hsame]

theorem word32_congr {dir dir' : Dir} {name : FileName} {i n : ℕ} (hi : i + 4 ≤ n)
    (h : ∀ j < n, dir.byte name j = dir'.byte name j) :
    dir.word32 name i = dir'.word32 name i := by
  rw [Dir.word32, Dir.word32, h i (by omega), h (i + 1) (by omega), h (i + 2) (by omega),
    h (i + 3) (by omega)]

section
variable {s : Setup} (hs : s.Ok) (dir : Dir)
include hs

theorem readMarker_createRun : s.readMarker (createRun dir s.regions) = s.readMarker dir := by
  have hmem : (⟨s.metaName, s.metaBytes, true⟩ : Region) ∈ s.regions := by simp [Setup.regions]
  have hbyte : ∀ j < s.metaBytes,
      (createRun dir s.regions).byte s.metaName j = dir.byte s.metaName j := by
    intro j hj
    simpa using createRun_byte dir hs.names hmem hj
  have hpub := hs.publish
  rw [Setup.readMarker, Setup.readMarker, Dir.word64, Dir.word64, word32_congr (by omega) hbyte,
    word32_congr (by omega) hbyte]

theorem tag_createRun {t : Table} (ht : t ∈ s.tables) {i off : ℕ} (hi : i < t.count)
    (hoff : off + 4 ≤ t.layout.recordBytes) :
    (createRun dir s.regions).word32 t.name (t.layout.recordBytes * i + off) =
      if t.pin then dir.word32 t.name (t.layout.recordBytes * i + off) else 0 := by
  have hmem : t.region ∈ s.regions := by
    simp only [Setup.regions, List.mem_append]
    exact Or.inl (Or.inl (List.mem_map_of_mem ht))
  have hbyte : ∀ j < t.layout.recordBytes * t.count,
      (createRun dir s.regions).byte t.name j = if t.pin then dir.byte t.name j else 0 :=
    fun j hj => createRun_byte dir hs.names hmem hj
  have hle : t.layout.recordBytes * i + off + 4 ≤ t.layout.recordBytes * t.count := by
    have := Nat.mul_le_mul_left t.layout.recordBytes (Nat.succ_le_of_lt hi)
    rw [Nat.mul_succ] at this
    omega
  cases hp : t.pin with
  | true =>
    rw [if_pos rfl]
    refine word32_congr hle fun j hj => ?_
    rw [hbyte j hj, hp, if_pos rfl]
  | false =>
    rw [Dir.word32, hbyte _ (by omega), hbyte _ (by omega), hbyte _ (by omega),
      hbyte _ (by omega), hp]
    rfl

theorem clean_createRun_iff : Clean s (createRun dir s.regions) ↔
    s.readMarker dir = none ∧ ∀ t ∈ s.tables, t.pin = true → ∀ i < t.count,
      dir.word32 t.name (t.layout.recordBytes * i + t.layout.tag1) = 0 ∧
      dir.word32 t.name (t.layout.recordBytes * i + t.layout.tag2) = 0 := by
  constructor
  · intro h
    refine ⟨(readMarker_createRun hs dir).symm.trans h.marker, fun t ht hp i hi => ?_⟩
    have htags := h.tags t ht i hi
    rwa [tag_createRun hs dir ht hi (hs.tags t ht).1, tag_createRun hs dir ht hi (hs.tags t ht).2,
      hp, if_pos rfl, if_pos rfl] at htags
  · rintro ⟨hm, htags⟩
    have hmark := (readMarker_createRun hs dir).trans hm
    refine ⟨hmark, fun t ht i hi => ?_, by rw [Setup.recoverEntry, hmark]⟩
    rw [tag_createRun hs dir ht hi (hs.tags t ht).1, tag_createRun hs dir ht hi (hs.tags t ht).2]
    cases hp : t.pin with
    | true => exact htags t ht hp i hi
    | false => exact ⟨rfl, rfl⟩

end

/-- The two benchmarks with the sizes their configurations give. -/
inductive Benchmark where
  | ycsb (valueBytes numUnits headroom numRecords : ℕ)
  | tpcc (valueBytes count : FileName → ℕ) (noHead oHead olHead noRows : ℕ)

def Benchmark.setup : Benchmark → Setup
  | .ycsb valueBytes numUnits headroom numRecords =>
    ycsbSetup valueBytes numUnits headroom numRecords
  | .tpcc valueBytes count noHead oHead olHead noRows =>
    tpccSetup valueBytes count noHead oHead olHead noRows

theorem Benchmark.setup_ok (b : Benchmark) : b.setup.Ok := by
  cases b with
  | ycsb => exact ycsbSetup_ok ..
  | tpcc => exact tpccSetup_ok ..

/-- A created store is clean exactly when the files that an earlier run left hold no published
    marker and, in the pinned tables, no version tag. -/
theorem create_clean_iff (b : Benchmark) (dir : Dir) :
    Clean b.setup (createRun dir b.setup.regions) ↔
      b.setup.readMarker dir = none ∧ ∀ t ∈ b.setup.tables, t.pin = true → ∀ i < t.count,
        dir.word32 t.name (t.layout.recordBytes * i + t.layout.tag1) = 0 ∧
        dir.word32 t.name (t.layout.recordBytes * i + t.layout.tag2) = 0 :=
  clean_createRun_iff b.setup_ok dir

/-- The marker file of a run that crashed with marker 5. -/
def staleDir : Dir := fun n =>
  if n = .ycsbMeta then
    some ⟨40, fun i => [5, 0, 0, 0, 4, 0, 0xAD, 0xE6].getD (i - 32) 0⟩
  else none

/-- A store created over it reads as marker 5: a recover run would roll back to epoch 4. -/
theorem create_not_clean :
    let s := (Benchmark.ycsb 100 4 8 8).setup
    ¬ Clean s (createRun staleDir s.regions) ∧
      s.recoverEntry (createRun staleDir s.regions) = (4, some 4) := by
  intro s
  have hread : s.readMarker (createRun staleDir s.regions) = some 5 := by
    rw [readMarker_createRun (Benchmark.setup_ok _)]
    decide
  refine ⟨fun h => ?_, by rw [Setup.recoverEntry, hread]; rfl⟩
  rw [h.marker] at hread
  exact absurd hread (by simp)

end Egad.Recovery
