import Egad.Ycsb.InsertAllocate
import Egad.Execution.OnCache
import Egad.Stager.Staged

/-! # The hybrid cache is a plain store

    `runEpoch` in hybrid mode, epoch after epoch. A record's current value is in its slot, in the
    packed flush or in one of the two slots of its CPU row:

        index ─► submit ─► mark, prepareEpoch(e) ─► execute(e) ─► sync_flush(e-1) ─► start_flush(e)
                                └── the worker of flush e-1 stores in between ──┘

    The landed store, that is the CPU store with the flush in flight, keeps the values of a store with
    no cache: the admission copies landed records, a record created in the epoch is written before it
    is read, and the flush finds what the epoch wrote. -/

namespace Egad.Ycsb
open Egad.Lib Egad.Timeline Egad.Execution Egad.Planner Egad.Stager

/-! ### Runs -/

/-- The state between two epochs. -/
structure System (V : Type) where
  index : GpuIndex
  hybrid : Hybrid V
  versions : ℕ → ℕ × V
  plan : ExecPlan

section
variable {V : Type} (ycsb : Config) (cfg : Stager.Config) (splitField : Bool)

/-- The stager of a benchmark: one unit a record, or ten. -/
structure StagerFor : Prop where
  rows : ycsb.startingNumRecords ≤ ycsb.numRecords
  ids : ycsb.numRecords ≤ kAbsent
  stager : cfg.tpcc = false
  reclaim : cfg.reclaimActive = decide (0 < ycsb.numDeletes)
  units : cfg.numUnits = if splitField then ycsb.numRecords * 10 else ycsb.numRecords

/-- The records an epoch needs, and those it creates. -/
def neededKeys (out : EpochOut) (slots : List Slot) : List ℕ :=
  allKeys splitField (slotParams out.recordIds slots)

def createdKeys (g g' : GpuIndex) (out : EpochOut) (slots : List Slot) : List ℕ :=
  insertKeys splitField (mintedBegin ycsb g.index) (numMinted g.index g'.index)
    (slotParams out.recordIds slots)

/-- The stager after `mark_reclaimable`. -/
def System.reclaimed (s : System V) (out : EpochOut) : Hybrid V :=
  if 0 < ycsb.numDeletes then
    { s.hybrid with cache := markReclaimable cfg out.edelCrids s.hybrid.cache }
  else s.hybrid

/-- An epoch the submitting side can produce has been indexed, which leaves the index `g'`. -/
structure Indexed (s : System V) (slots : List Slot) (g' : GpuIndex) (out : EpochOut) : Prop where
  ok : EpochOk ycsb slots
  fields : ∀ x ∈ slots, x.field < 10
  index : indexTxns ycsb s.index.index slots = .ok (g'.index, out)
  logged : s.index.indexTxns ycsb slots = .ok g'

/-- `runEpoch` up to the end of the staging, which leaves the stager `h`. -/
structure Staging (e : ℕ) (s : System V) (slots : List Slot) (g' : GpuIndex) (out : EpochOut)
    (h : Hybrid V) : Prop extends Indexed ycsb s slots g' out where
  admitted : ∃ sched p ms,
    sched.Complete cfg (neededKeys splitField out slots) (s.reclaimed ycsb cfg out).cache ∧
    prepareEpoch cfg sched (neededKeys splitField out slots)
      (createdKeys ycsb splitField s.index g' out slots) (s.reclaimed ycsb cfg out).cache = .ok p ∧
    (fetches ms).Perm p.fetched ∧ h = (s.reclaimed ycsb cfg out).admitAt e p ms

/-- The executor's epoch, planned over the words of the plans before. -/
def System.epoch (s : System V) (e : ℕ) (slots : List Slot) (out : EpochOut) (h : Hybrid V) : Epoch :=
  cachedEpoch cfg h (epochOps splitField out slots) (locOf (epochOps splitField out slots) s.plan) e

/-- The operations of an epoch and the values they have written. -/
structure Done (V : Type) where
  ops : List Op
  written : ℕ → Option V

/-- The store with no cache after a history, the last epoch first. -/
def plainStore (loaded : ℕ → V) : List (Done V) → ℕ → V
  | [] => loaded
  | d :: hist => plainAt d.ops d.written (plainStore loaded hist) d.ops.length

/-- Whole runs from a loaded store: in every epoch any interleaving of the admission's copies, of the
    executor's loads and stores and of the worker's stores, and then the flush, whose worker stores
    its entries in any order. -/
inductive HybridRun (loaded : ℕ → Rec V) : ℕ → System V → List (Done V) → Prop
  | initial (log : DurableLog) (entryCrid : ℕ → ℕ) (records : ℕ → Rec V) (versions : ℕ → ℕ × V) :
    (∀ u, (loaded u).TagsBelow 1) → (∀ g, (records g).TagsBelow 1) → (∀ n, (versions n).1 = 0) →
    HybridRun loaded 1
      ⟨.init ycsb log entryCrid, Hybrid.initial cfg records loaded, versions, fun _ => 0⟩ []
  | epoch {e : ℕ} {s : System V} {hist : List (Done V)} {slots : List Slot} {g' : GpuIndex}
    {out : EpochOut} {h : Hybrid V} {acts : List (Act V)} {r : Running V} {order : List (Entry V)} :
    HybridRun loaded e s hist → Staging ycsb cfg splitField e s slots g' out h →
    Running.run (s.epoch cfg splitField e slots out h) (.start h s.versions) acts = some r →
    (∀ i < (epochOps splitField out slots).length, ∃ x, r.state.phase i = .done x) →
    (∀ x, x ∈ order ↔ x ∈ r.finish.flushSet cfg) →
    HybridRun loaded (e + 1)
      ⟨g', r.finish.flushInOrder cfg order, r.state.mem.scratch,
        planOf (epochOps splitField out slots) s.plan⟩
      (⟨epochOps splitField out slots, written r.state.phase⟩ :: hist)

end

/-! ### The invariant -/

section
variable {V : Type} {ycsb : Config} {cfg : Stager.Config} {splitField : Bool}

/-- What holds between two epochs, for the values `σ` of the store with no cache. -/
structure HybridInv (ycsb : Config) (cfg : Stager.Config) (splitField : Bool) (e : ℕ) (s : System V)
    (σ : ℕ → V) : Prop where
  positive : 0 < e
  logged : ∃ j, Logged ycsb s.index j
  reachable : Reachable cfg s.hybrid.cache
  unmarked : s.hybrid.Unmarked
  cached : Cached cfg e ∅ s.hybrid
  flight : s.hybrid.FlightResident cfg
  records : ∀ g, (s.hybrid.records g).TagsBelow e
  versions : ∀ n, (s.versions n).1 < e
  fresh : ∀ u, mintedBegin ycsb s.index.index ≤ recordOf splitField u →
    (s.hybrid.landed u).version1 = 0 ∧ (s.hybrid.landed u).version2 = 0
  plain : ∀ u, (s.hybrid.landed u).latest = σ u

theorem hybridInv_initial (hs : StagerFor ycsb cfg splitField) {loaded records : ℕ → Rec V}
    {versions : ℕ → ℕ × V} (log : DurableLog) (entryCrid : ℕ → ℕ) (plan : ExecPlan)
    (hloaded : ∀ u, (loaded u).TagsBelow 1) (hrecords : ∀ g, (records g).TagsBelow 1)
    (hversions : ∀ n, (versions n).1 = 0) :
    HybridInv ycsb cfg splitField 1
      ⟨.init ycsb log entryCrid, Hybrid.initial cfg records loaded, versions, plan⟩
      fun u => (loaded u).latest where
  positive := Nat.one_pos
  logged := ⟨_, logged_init hs.rows hs.ids log entryCrid⟩
  reachable := .initial
  unmarked _ _ := rfl
  cached := ⟨hloaded, fun _ _ hne => absurd rfl hne, fun _ _ hne => absurd rfl hne⟩
  flight x hx := absurd hx List.not_mem_nil
  records := hrecords
  versions n := by
    rw [hversions n]
    exact Nat.one_pos
  fresh u _ := ⟨Nat.lt_one_iff.mp (hloaded u).1, Nat.lt_one_iff.mp (hloaded u).2⟩
  plain _ := rfl

variable {e : ℕ} {s : System V} {σ : ℕ → V} {slots : List Slot} {g' : GpuIndex} {out : EpochOut}
  {h : Hybrid V}

theorem Indexed.ids (hst : Indexed ycsb s slots g' out)
    (hi : HybridInv ycsb cfg splitField e s σ) : Ids ycsb s.index.index g'.index slots out.recordIds := by
  obtain ⟨j, hj⟩ := hi.logged
  exact indexTxns_ids hj.wf hst.ok hst.index

theorem Indexed.rows (hst : Indexed ycsb s slots g' out)
    (hi : HybridInv ycsb cfg splitField e s σ) : mintedBegin ycsb g'.index ≤ ycsb.numRecords := by
  obtain ⟨j, hj⟩ := hi.logged
  exact (logged_step hj hst.ok hst.logged).rows

/-- The ids of an epoch are rows of the table. -/
theorem Indexed.record_lt (hst : Indexed ycsb s slots g' out)
    (hi : HybridInv ycsb cfg splitField e s σ) {x : SlotParam}
    (hx : x ∈ slotParams out.recordIds slots) (hne : x.recordId ≠ kNoRecord) :
    x.recordId < mintedBegin ycsb g'.index := by
  obtain ⟨i, hget⟩ := List.mem_iff_getElem?.mp hx
  obtain ⟨-, -, hr, -, -⟩ := getElem?_slotParams hget
  exact (hst.ids hi).lt _ (List.mem_of_getElem? hr) hne

theorem Indexed.params (hst : Indexed ycsb s slots g' out)
    (hs : StagerFor ycsb cfg splitField) (hi : HybridInv ycsb cfg splitField e s σ) :
    ∀ x ∈ slotParams out.recordIds slots, x.Ok splitField := by
  intro x hx
  refine ⟨?_, fun hne => ?_⟩
  · obtain ⟨i, hget⟩ := List.mem_iff_getElem?.mp hx
    obtain ⟨y, hy, -, -, hf⟩ := getElem?_slotParams hget
    rw [hf]
    exact hst.fields y (List.mem_of_getElem? hy)
  · have hlt := hst.record_lt hi hx hne
    have hrows := hst.rows hi
    have hunits := cfg.numUnits_le
    have habs : absent < 2 ^ 32 := by decide
    rw [hs.units] at hunits
    split <;> rename_i hsplit <;>
      simp only [hsplit, if_true, Bool.false_eq_true, if_false] at hunits <;> omega

/-- The operations of an epoch, with their parameters. -/
theorem Indexed.op (hst : Indexed ycsb s slots g' out)
    (hs : StagerFor ycsb cfg splitField) (hi : HybridInv ycsb cfg splitField e s σ) {o : Op}
    (ho : o ∈ epochOps splitField out slots) :
    recordOf splitField o.record < mintedBegin ycsb g'.index ∧ o.record < cfg.numUnits := by
  obtain ⟨k, x, hk, hxo⟩ := mem_submitYcsbTxns.mp ho
  have hx := List.mem_of_getElem? hk
  obtain ⟨hne, hrec, -⟩ := recordOf_submitSlot (hst.params hs hi x hx) hxo
  have hlt := hst.record_lt hi hx hne
  have hrows := hst.rows hi
  rw [hrec]
  refine ⟨hlt, ?_⟩
  rw [recordOf] at hrec
  rw [hs.units]
  split at hrec <;> rename_i hsplit <;> simp only [hsplit, if_true, Bool.false_eq_true, if_false] <;> omega

/-- The keys that the stager gets are the records of the operations. -/
theorem Indexed.needed_eq (hst : Indexed ycsb s slots g' out)
    (hs : StagerFor ycsb cfg splitField) (hi : HybridInv ycsb cfg splitField e s σ)
    (hfit : TxnsFit (epochOps splitField out slots)) :
    neededKeys splitField out slots = (epochOps splitField out slots).map Op.record :=
  (submitYcsbTxns_batch_of_fit (hst.params hs hi) hfit).keys

theorem Indexed.keys (hst : Indexed ycsb s slots g' out)
    (hs : StagerFor ycsb cfg splitField) (hi : HybridInv ycsb cfg splitField e s σ)
    (hfit : TxnsFit (epochOps splitField out slots)) :
    Keys cfg (neededKeys splitField out slots) := by
  rw [hst.needed_eq hs hi hfit]
  intro u hu
  obtain ⟨o, ho, rfl⟩ := List.mem_map.mp hu
  exact Or.inl (hst.op hs hi ho).2

/-- The batch is one the planner can take. -/
theorem Indexed.batch (hst : Indexed ycsb s slots g' out)
    (hs : StagerFor ycsb cfg splitField) (hi : HybridInv ycsb cfg splitField e s σ)
    (hfit : TxnsFit (epochOps splitField out slots)) : Batch (epochOps splitField out slots) :=
  submitYcsbTxns_batch_of_fit (hst.params hs hi) hfit

/-! ### The staging -/

/-- Marks change nothing but the flags. -/
theorem reclaimed_frame (ycsb : Config) (cfg : Stager.Config) (s : System V) (out : EpochOut) :
    (s.reclaimed ycsb cfg out).cache.resident = s.hybrid.cache.resident ∧
      (s.reclaimed ycsb cfg out).cache.cridToGrid = s.hybrid.cache.cridToGrid ∧
      (s.reclaimed ycsb cfg out).records = s.hybrid.records ∧
      (s.reclaimed ycsb cfg out).dirty = s.hybrid.dirty ∧
      (s.reclaimed ycsb cfg out).landed = s.hybrid.landed ∧
      (s.reclaimed ycsb cfg out).inflight = s.hybrid.inflight := by
  rw [System.reclaimed]
  split
  · refine ⟨markReclaimable_resident out.edelCrids _, ?_, rfl, rfl, rfl, rfl⟩
    simp only [markReclaimable]
    split <;> rfl
  · exact ⟨rfl, rfl, rfl, rfl, rfl, rfl⟩

theorem reclaimed_reachable (hr : Reachable cfg s.hybrid.cache) (out : EpochOut) :
    Reachable cfg (s.reclaimed ycsb cfg out).cache := by
  rw [System.reclaimed]
  split
  · exact .reclaim _ hr
  · exact hr

/-- What the staging leaves: a cache that shows the landed store but for the slots of records created
    in the epoch, which the epoch writes. -/
structure StagedEpoch (ycsb : Config) (cfg : Stager.Config) (splitField : Bool) (e : ℕ) (s : System V)
    (slots : List Slot) (g' : GpuIndex) (out : EpochOut) (h : Hybrid V) (stale : Set ℕ) : Prop where
  onCache : OnCache cfg h (epochOps splitField out slots)
  reachable : Reachable cfg h.cache
  unmarked : h.Unmarked
  landed : h.landed = s.hybrid.landed
  cached : Cached cfg e stale h
  tags : ∀ c, (memoryOf h.records s.versions).tag c < e
  stale : ∀ g ∈ stale, h.cache.resident g ∈ (epochOps splitField out slots).map Op.record ∧
    Minted ycsb s.index.index g'.index (recordOf splitField (h.cache.resident g))

theorem Staging.staged (hst : Staging ycsb cfg splitField e s slots g' out h)
    (hs : StagerFor ycsb cfg splitField) (hi : HybridInv ycsb cfg splitField e s σ)
    (hfit : TxnsFit (epochOps splitField out slots)) :
    ∃ stale, StagedEpoch ycsb cfg splitField e s slots g' out h stale := by
  obtain ⟨sched, p, ms, hcomplete, hp, hms, rfl⟩ := hst.admitted
  obtain ⟨hres, hcrid, hrec, hdirty, hland, hin⟩ := reclaimed_frame ycsb cfg s out
  have hreach := @reclaimed_reachable _ ycsb cfg s hi.reachable out
  have hkeys := hst.keys hs hi hfit
  have hneeded := hst.needed_eq hs hi hfit
  have hcached : Cached cfg e ∅ (s.reclaimed ycsb cfg out) := by
    refine ⟨hland ▸ hi.cached.landed, fun g hg hne => ?_, fun g hg hne hst => ?_⟩
    · rw [hres] at hne ⊢
      rw [hrec, hland]
      exact hi.cached.tags g hg hne
    · rw [hres] at hne ⊢
      rw [hrec, hland]
      exact hi.cached.value g hg hne hst
  have hflight : (s.reclaimed ycsb cfg out).FlightResident cfg := by
    intro x hx
    rw [hin] at hx
    rw [hcrid]
    exact hi.flight x hx
  have hunmarked : (s.reclaimed ycsb cfg out).Unmarked := fun slot g =>
    (congrFun (congrFun hdirty slot) g).trans (hi.unmarked slot g)
  have hminted : ∀ u ∈ createdKeys ycsb splitField s.index g' out slots, u < cfg.numUnits →
      Minted ycsb s.index.index g'.index (recordOf splitField u) := by
    intro u hu hlt
    have hne : u ≠ kNoRecord := by
      have h1 := cfg.numUnits_le
      have h2 : absent = kNoRecord := rfl
      omega
    exact (hst.ids hi).minted_of_insertKey (hst.params hs hi) hfit hu hne
  have hfresh : ∀ u ∈ neededKeys splitField out slots,
      u ∈ createdKeys ycsb splitField s.index g' out slots → u < cfg.numUnits →
      ((s.reclaimed ycsb cfg out).landed u).version1 = 0 ∧
        ((s.reclaimed ycsb cfg out).landed u).version2 = 0 := by
    intro u _ hins hlt
    rw [hland]
    exact hi.fresh u (hminted u hins hlt).1
  have hstaged := staged_of_prepare hreach hunmarked hcached hflight hkeys hfresh hcomplete hp hms
  refine ⟨{g | g ∈ p.cleared}, ⟨(reachable_mapped hstaged.reachable).1, fun o ho => ?_⟩,
    hstaged.reachable, hstaged.unmarked, hstaged.landed.trans hland, hstaged.cached, ?_, fun g hg => ?_⟩
  · obtain ⟨-, hlt⟩ := hst.op hs hi ho
    refine ⟨hlt, hstaged.resident _ (hneeded ▸ List.mem_map_of_mem ho) ?_⟩
    have := cfg.numUnits_le
    omega
  · exact memoryOf_tags (hstaged.records hi.positive fun g => hrec ▸ hi.records g) hi.versions
  · obtain ⟨hlt, hkey, hins⟩ := hstaged.stale g hg
    exact ⟨hneeded ▸ hkey, hminted _ hins hlt⟩

/-! ### Execution and flush -/

section
variable {stale : Set ℕ} {acts : List (Act V)} {r : Running V}

/-- The executor at work on the staged epoch. -/
theorem StagedEpoch.executing (hsg : StagedEpoch ycsb cfg splitField e s slots g' out h stale)
    (hb : Batch (epochOps splitField out slots))
    (hrun : Running.run (s.epoch cfg splitField e slots out h) (.start h s.versions) acts = some r) :
    Executing cfg h s.versions (epochOps splitField out slots) (locOf (epochOps splitField out slots) s.plan)
      e r :=
  Execution.executing hsg.onCache hsg.unmarked
    (Located.remap hsg.onCache.inj (located hb s.plan)) hsg.tags hrun

/-- Every read of the epoch returns what it returns on the store with no cache. -/
theorem StagedEpoch.read (hsg : StagedEpoch ycsb cfg splitField e s slots g' out h stale)
    (hst : Staging ycsb cfg splitField e s slots g' out h)
    (hs : StagerFor ycsb cfg splitField) (hi : HybridInv ycsb cfg splitField e s σ)
    (hb : Batch (epochOps splitField out slots))
    (hrun : Running.run (s.epoch cfg splitField e slots out h) (.start h s.versions) acts = some r)
    {i : ℕ} {o : Op} {x : Option V} (hget : (epochOps splitField out slots)[i]? = some o)
    (hr : o.isWrite = false) (hdone : r.state.phase i = .done x) :
    x = some (plainAt (epochOps splitField out slots) (written r.state.phase) σ i o.record) := by
  have hx := hsg.executing hb hrun
  have hσ : (fun u => (h.landed u).latest) = σ := by
    funext u
    rw [hsg.landed]
    exact hi.plain u
  rw [← hσ]
  refine hx.read hsg.cached hget hr (fun hmem => ?_) hdone
  obtain ⟨-, hmint⟩ := hsg.stale _ hmem
  obtain ⟨-, -, hres, -⟩ := hsg.onCache.slot (List.mem_of_getElem? hget)
  rw [hres] at hmint
  exact (hst.ids hi).write_before_read (hst.params hs hi) hget hr hmint

/-- The flush of an epoch keeps the invariant, for the values after the epoch. -/
theorem StagedEpoch.flushed (hsg : StagedEpoch ycsb cfg splitField e s slots g' out h stale)
    (hst : Staging ycsb cfg splitField e s slots g' out h)
    (hs : StagerFor ycsb cfg splitField) (hi : HybridInv ycsb cfg splitField e s σ)
    (hb : Batch (epochOps splitField out slots))
    (hrun : Running.run (s.epoch cfg splitField e slots out h) (.start h s.versions) acts = some r)
    (hall : ∀ i < (epochOps splitField out slots).length, ∃ x, r.state.phase i = .done x)
    {order : List (Entry V)} (horder : ∀ x, x ∈ order ↔ x ∈ r.finish.flushSet cfg) (plan : ExecPlan) :
    HybridInv ycsb cfg splitField (e + 1)
      ⟨g', r.finish.flushInOrder cfg order, r.state.mem.scratch, plan⟩
      (plainAt (epochOps splitField out slots) (written r.state.phase) σ
        (epochOps splitField out slots).length) := by
  have hx := hsg.executing hb hrun
  have hexec := hx.executed hall
  have hm := hsg.onCache.mapped
  have hland := hexec.landed_flush hm hsg.cached horder
  obtain ⟨j, hj⟩ := hi.logged
  have hσ : (fun u => (h.landed u).latest) = σ := by
    funext u
    rw [hsg.landed]
    exact hi.plain u
  refine ⟨Nat.succ_pos e, ⟨_, logged_step hj hst.ok hst.logged⟩, ?_, ?_, ?_,
    hexec.flightResident hm horder, fun g => ?_, fun n => hx.tags_after (.version n), fun u hu => ?_,
    fun u => ?_⟩
  · have hcache : (r.finish.flushInOrder cfg order).cache = h.cache := hexec.cache
    rw [hcache]
    exact hsg.reachable
  · exact startFlush_unmarked fun slot g hd => ((hexec.dirty slot g).mp hd).1
  · refine hexec.cached hm hsg.cached horder fun g hg hne hmem => ?_
    obtain ⟨hkey, hmint⟩ := hsg.stale g hmem
    obtain ⟨o, ho, hw, hrec⟩ := (hst.ids hi).written_of_minted (hst.params hs hi) hkey hmint
    obtain ⟨i, hget⟩ := List.mem_iff_getElem?.mp ho
    rw [Option.isSome_iff_ne_none, ne_eq, lastValue_eq_none hx hall]
    intro hno
    have hwrites : writesAt (epochOps splitField out slots) (h.cache.resident g) i = true :=
      writesAt_iff.mpr ⟨o, hget, hw, hrec⟩
    rw [hno i] at hwrites
    cases hwrites
  · exact ⟨hx.tags_after (.slot1 g), hx.tags_after (.slot2 g)⟩
  · -- a record of a later epoch is not written
    have hW : lastValue (epochOps splitField out slots) r.state.phase u = none := by
      refine (lastValue_eq_none hx hall).mpr fun i => ?_
      by_contra hw
      obtain ⟨o, hget, -, hrec⟩ := writesAt_iff.mp (Bool.eq_true_of_not_eq_false hw)
      obtain ⟨hlt, -⟩ := hst.op hs hi (List.mem_of_getElem? hget)
      rw [hrec] at hlt
      exact absurd hlt (Nat.not_lt.mpr hu)
    have hfresh := hi.fresh u ((hst.ids hi).begin_le.trans hu)
    simp only [hland, writeBack, hW, hsg.landed]
    exact hfresh
  · have hplain := hx.plain hall hsg.cached.landed u
    rw [hσ] at hplain
    rw [← hplain]
    exact congrArg Rec.latest (congrFun hland u)

end

/-- Every run whose transaction numbers fit keeps the invariant. -/
theorem hybridRun_inv (hs : StagerFor ycsb cfg splitField) {loaded : ℕ → Rec V}
    {hist : List (Done V)} (hrun : HybridRun ycsb cfg splitField loaded e s hist)
    (hfit : ∀ d ∈ hist, TxnsFit d.ops) :
    HybridInv ycsb cfg splitField e s (plainStore (fun u => (loaded u).latest) hist) := by
  induction hrun with
  | initial log entryCrid records versions hloaded hrecords hversions =>
    exact hybridInv_initial hs log entryCrid _ hloaded hrecords hversions
  | epoch _ hst hexec hall horder ih =>
    have hi := ih fun d hd => hfit d (List.mem_cons_of_mem _ hd)
    have hb := hst.batch hs hi (hfit _ List.mem_cons_self)
    obtain ⟨stale, hsg⟩ := hst.staged hs hi (hfit _ List.mem_cons_self)
    exact hsg.flushed hst hs hi hb hexec hall horder _

end

/-! ### A key inserted twice, beside the cache -/

/-- Four loaded records, room for four more, and a mix with no deletes. -/
def noDeletes : Config := ⟨8, 4, 0⟩

/-- Rows of zeros under an empty cache. -/
def zeroStore (ycsb : Config) (cfg : Stager.Config) : System ℕ where
  index := .init ycsb ⟨fun _ => 0, fun _ => 0, fun _ => 0⟩ fun _ => 0
  hybrid := Hybrid.initial cfg (fun _ => ⟨0, 0, 0, 0⟩) fun _ => ⟨0, 0, 0, 0⟩
  versions _ := (0, 0)
  plan _ := 0

theorem oneSlot_stager : StagerFor noDeletes oneSlot false :=
  ⟨by decide, by decide, rfl, rfl, rfl⟩

/-- The operations of `insertTwice`. -/
def insertTwiceOps : List Op := [⟨4, 0, true, 0⟩, ⟨4, 0, true, 21⟩, ⟨4, 0, false, 42⟩]

theorem insertTwice_indexed : ∃ g' out,
    Indexed noDeletes (zeroStore noDeletes oneSlot) insertTwice g' out ∧
    epochOps false out insertTwice = insertTwiceOps ∧
    createdKeys noDeletes false (zeroStore noDeletes oneSlot).index g' out insertTwice =
      [4, 4, kNoRecord] := by
  obtain ⟨g', out, hlog, hindex, hids, hnum⟩ : ∃ g' out,
      (zeroStore noDeletes oneSlot).index.indexTxns noDeletes insertTwice = .ok g' ∧
      indexTxns noDeletes (zeroStore noDeletes oneSlot).index.index insertTwice = .ok (g'.index, out) ∧
      out.recordIds = [4, 4, 4] ∧ numMinted (zeroStore noDeletes oneSlot).index.index g'.index = 1 :=
    ⟨_, _, rfl, rfl, by decide +kernel, by decide +kernel⟩
  refine ⟨g', out, ⟨⟨by decide, by decide, by decide⟩, by decide, hindex, hlog⟩, ?_, ?_⟩
  · rw [epochOps, hids]
    decide +kernel
  · rw [createdKeys, hids, hnum]
    decide +kernel

/-- Operations that neither insert nor delete find the epoch's start. -/
theorem replayEpoch_of_quiet {cridBegin : ℕ} {o : Oracle} {slots : List Slot}
    (hquiet : ∀ s ∈ slots, s.op ≠ .insert ∧ s.op ≠ .delete) :
    replayEpoch cridBegin o slots = slots.map fun s => o.live s.key := by
  induction slots with
  | nil => rfl
  | cons s slots ih =>
    obtain ⟨hins, hdel⟩ := hquiet s List.mem_cons_self
    have hop : replayOp cridBegin o s = (o, o.live s.key) := by
      rw [replayOp]
      split
      · next h => exact absurd h hins
      · next h => exact absurd h hdel
      · rfl
    rw [replayEpoch, hop, List.map_cons, ih fun t ht => hquiet t (List.mem_cons_of_mem s ht)]

/-- The index phase of such an epoch. -/
theorem indexed_of_quiet {ycsb : Config} {V : Type} {s : System V} {slots : List Slot} {j : Journal ℕ}
    (hj : Logged ycsb s.index j) (hok : EpochOk ycsb slots) (hfields : ∀ x ∈ slots, x.field < 10)
    (hquiet : ∀ x ∈ slots, x.op ≠ .insert ∧ x.op ≠ .delete) :
    ∃ g' out, Indexed ycsb s slots g' out ∧
      (out.recordIds = slots.map fun x => s.index.index.map x.key) ∧ out.edelCrids = [] := by
  have hins : insKeys slots = [] := by
    rw [insKeys, List.filter_eq_nil_iff.mpr fun x hx => by simpa using (hquiet x hx).1]
    rfl
  have hrows : checkFreeRows ycsb s.index.index.freeStart (insKeys slots).length = .ok () := by
    rw [hins]
    exact (checkFreeRows_ok hj.rows).mpr hj.rows
  obtain ⟨⟨idx, out⟩, hr⟩ := indexTxns_returns hj.wf hok hrows
  obtain ⟨g', hg, hlog⟩ : ∃ g' : GpuIndex, g'.index = idx ∧ s.index.indexTxns ycsb slots = .ok g' := by
    rw [GpuIndex.indexTxns, hr]
    exact ⟨_, rfl, rfl⟩
  refine ⟨g', out, ⟨hok, hfields, hg ▸ hr, hlog⟩, ?_, ?_⟩
  · rw [(recordIds_eq hj.wf hok hr).1]
    exact replayEpoch_of_quiet hquiet
  · have hnone : slotEvents slots = [] := by
      refine List.filterMap_eq_nil_iff.mpr fun x hx => ?_
      obtain ⟨hins, hdel⟩ := hquiet x.1 (List.fst_mem_of_mem_zipIdx hx)
      rw [slotEvent]
      split
      · next h => exact absurd h hins
      · next h => exact absurd h hdel
      · rfl
    rw [(indexTxns_spec hj.wf hok hr).out, serialOut, hnone]
    rfl

/-- Two UPDATEs of key 2, READs of an absent key, and a READ of key 1 as the third operation of the
    transaction behind them. -/
def padSlot : Slot := ⟨.read, 9, 0⟩

def wideSlots (n : ℕ) : List Slot :=
  [⟨.update, 2, 0⟩, ⟨.update, 2, 0⟩] ++ (List.replicate n padSlot ++
    (⟨.read, 1, 0⟩ :: List.replicate 7 padSlot))

theorem mem_wideSlots {n : ℕ} {x : Slot} (hx : x ∈ wideSlots n) :
    x = ⟨.update, 2, 0⟩ ∨ x = padSlot ∨ x = ⟨.read, 1, 0⟩ := by
  simp only [wideSlots, List.mem_append, List.mem_cons, List.not_mem_nil, or_false, List.mem_replicate] at hx
  tauto

/-- What the epoch with `2 ^ 20 + 1` transactions submits. -/
def wideOps : List Op :=
  [⟨2, 0, false, 0⟩, ⟨2, 0, true, 1⟩, ⟨2, 0, false, 21⟩, ⟨2, 0, true, 22⟩, ⟨1, 2 ^ 20, false, 42⟩]

theorem slotParams_map (f : Slot → ℕ) (slots : List Slot) : slotParams (slots.map f) slots =
    slots.map fun s => ⟨paramOp (f s) s.op, f s, s.field, fun h => if_pos h⟩ := by
  induction slots with
  | nil => rfl
  | cons s slots ih => exact congrArg (List.cons _) ih

theorem insertKeys_of_quiet {splitField : Bool} {begin_ num : ℕ} {params : List SlotParam}
    (hquiet : ∀ x ∈ params, x.op ≠ .insert) : insertKeys splitField begin_ num params =
      (submitYcsbTxns splitField params).map fun _ => kNoRecord := by
  rw [insertKeys, submitYcsbTxns, List.map_flatMap]
  refine List.flatMap_congr fun x hx => List.map_congr_left fun o _ => if_neg ?_
  have hop := hquiet x.1 (List.fst_mem_of_mem_zipIdx hx)
  simp [isInsertKind, hop]

/-- A cache of four slots over the eight rows. -/
def fourSlots : Stager.Config := ⟨4, 8, false, true, Nat.le_of_ble_eq_true rfl, Nat.le_of_ble_eq_true rfl⟩

theorem wide_params (n : ℕ) : slotParams ((wideSlots n).map fun x => loadInitialData smallConfig x.key)
    (wideSlots n) = [⟨.update, 2, 0, by decide⟩, ⟨.update, 2, 0, by decide⟩] ++
      (List.replicate n ⟨.noop, kNoRecord, 0, fun _ => rfl⟩ ++
        (⟨.read, 1, 0, by decide⟩ :: List.replicate 7 ⟨.noop, kNoRecord, 0, fun _ => rfl⟩)) := by
  rw [slotParams_map, wideSlots, List.map_append, List.map_append, List.map_replicate]
  rfl

theorem wide_ok {n : ℕ} (hn : n + 10 ≤ kAbsent) : EpochOk smallConfig (wideSlots n) := by
  refine ⟨fun x hx => ?_, ?_, fun x hx hdel => ?_⟩
  · rcases mem_wideSlots hx with rfl | rfl | rfl <;> decide
  · simp only [wideSlots, List.length_append, List.length_cons, List.length_replicate, List.length_nil]
    omega
  · rcases mem_wideSlots hx with rfl | rfl | rfl <;> cases hdel

theorem wide_submitted : submitYcsbTxns false
    ([⟨.update, 2, 0, by decide⟩, ⟨.update, 2, 0, by decide⟩] ++
      (List.replicate (10 * 2 ^ 20) ⟨.noop, kNoRecord, 0, fun _ => rfl⟩ ++
        (⟨.read, 1, 0, by decide⟩ :: List.replicate 7 ⟨.noop, kNoRecord, 0, fun _ => rfl⟩))) =
    wideOps := by
  rw [submitYcsbTxns_padded rfl]
  decide +kernel

theorem wide_indexed : ∃ g' out,
    Indexed smallConfig (zeroStore smallConfig fourSlots) (wideSlots (10 * 2 ^ 20)) g' out ∧
    out.edelCrids = [] ∧ epochOps false out (wideSlots (10 * 2 ^ 20)) = wideOps ∧
    createdKeys smallConfig false (zeroStore smallConfig fourSlots).index g' out (wideSlots (10 * 2 ^ 20)) =
      wideOps.map fun _ => kNoRecord := by
  have hsubmit := wide_submitted
  have hok : EpochOk smallConfig (wideSlots (10 * 2 ^ 20)) := wide_ok (by decide)
  generalize 10 * 2 ^ 20 = n at hsubmit hok ⊢
  have hlogged : Logged smallConfig (zeroStore smallConfig fourSlots).index _ :=
    logged_init (by decide) (by decide) _ _
  obtain ⟨g', out, hidx, hids, hedel⟩ := indexed_of_quiet (s := zeroStore smallConfig fourSlots) hlogged hok
    (fun x hx => by rcases mem_wideSlots hx with rfl | rfl | rfl <;> decide)
    (fun x hx => by rcases mem_wideSlots hx with rfl | rfl | rfl <;> decide)
  have hparams := hids ▸ wide_params n
  have hops : epochOps false out (wideSlots n) = wideOps := by
    rw [epochOps, hparams, hsubmit]
  refine ⟨g', out, hidx, hedel, hops, ?_⟩
  rw [createdKeys, insertKeys_of_quiet, ← hops]
  · rfl
  · rw [hparams]
    intro x hx
    simp only [List.mem_append, List.mem_cons, List.not_mem_nil, or_false, List.mem_replicate] at hx
    rcases hx with (rfl | rfl) | ⟨-, rfl⟩ | rfl | ⟨-, rfl⟩ <;> simp

end Egad.Ycsb
