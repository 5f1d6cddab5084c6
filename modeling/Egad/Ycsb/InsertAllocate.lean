import Egad.Ycsb.InsertKeys
import Egad.Stager.Owned
import Egad.Execution.Deadlock

/-! # Slots admitted without a fetch

    A record the epoch creates gets a slot whose bytes are its last occupant's. What keeps them from
    being seen runs through four components:

        index       ids of the range are first used by the INSERT that created them
        submitter   exactly their units are insert keys
        stager      exactly their slots are not fetched, and have their tags cleared
        executor    every read of such a unit follows a write of the unit in the batch

    so a read returns what an operation of the epoch wrote, the slot has a value of the epoch when it
    is flushed, and from the next epoch on its latest value is the record's own. -/

namespace Egad.Ycsb
open Egad.Lib Egad.Timeline Egad.Execution Egad.Planner Egad.Stager

/-! ### The words of a write -/

/-- The words that lane `lane` stores in `gpuWriteToTableCoop`, from word `base` on. -/
def laneWords (length lane base : ℕ) : List ℕ :=
  if base < length then
    (if lane + base < length then [base + lane] else []) ++ laneWords length lane (base + 32)
  else []
termination_by length - base

/-- Lane `w % 32` stores word `w`. -/
theorem mem_laneWords {length w base : ℕ} (hw : w < length) (hle : base ≤ w) (hb : base % 32 = 0) :
    w ∈ laneWords length (w % 32) base := by
  rw [laneWords, if_pos (by omega)]
  rcases Nat.lt_or_ge w (base + 32) with hlt | hge
  · refine List.mem_append_left _ ?_
    rw [if_pos (by omega)]
    exact List.mem_singleton.mpr (by omega)
  · exact List.mem_append_right _ (mem_laneWords hw hge (by omega))
termination_by length - base

/-! ### Runs -/

section
variable {V : Type} (ycsb : Config) (cfg : Stager.Config) (splitField : Bool)

/-- The record operations of an epoch. -/
def epochOps (out : EpochOut) (slots : List Slot) : List Op :=
  submitYcsbTxns splitField (slotParams out.recordIds slots)

/-- An epoch of a run: its operations are indexed and submitted, the stager gets the keys the
    submitter derives, and the executor's record-B writes are those of the batch, one for each unit it
    writes, with values of the unit. -/
structure EpochOf (own : ℕ → ℕ → V → Prop) (e : ℕ) (g g' : GpuIndex) (h : Hybrid V)
    (slots : List Slot) (out : EpochOut) (i : EpochInput V) : Prop where
  stager : cfg.tpcc = false
  ok : EpochOk ycsb slots
  count : slots.length ≤ 10 * 2 ^ 20
  index : indexTxns ycsb g.index slots = .ok (g'.index, out)
  logged : g.indexTxns ycsb slots = .ok g'
  params : ∀ x ∈ slotParams out.recordIds slots, x.Ok splitField
  keys : i.keys = allKeys splitField (slotParams out.recordIds slots)
  insertKeys : i.insertKeys = insertKeys splitField (mintedBegin ycsb g.index)
    (numMinted g.index g'.index) (slotParams out.recordIds slots)
  legal : i.Legal cfg h
  written : ∀ u, u ∈ writtenCrids i.events ↔
    ∃ o ∈ epochOps splitField out slots, o.isWrite = true ∧ o.record = u
  once : (writtenCrids i.events).Nodup
  values : ∀ u v, Event.write u v ∈ i.events → own u e v

/-- Whole runs: a loaded store, and any number of epochs. -/
inductive InsertRun (own : ℕ → ℕ → V → Prop) : ℕ → GpuIndex → Hybrid V → Prop
  | initial (log : DurableLog) (entryCrid : ℕ → ℕ) (records store : ℕ → Rec V) :
    (∀ u, (store u).TagsBelow 1) → (∀ u slot, own u ((store u).version slot) ((store u).value slot)) →
    InsertRun own 1 (.init ycsb log entryCrid) (Hybrid.initial cfg records store)
  | epoch {e : ℕ} {g g' : GpuIndex} {h h' : Hybrid V} {slots : List Slot} {out : EpochOut}
    {i : EpochInput V} : InsertRun own e g h → EpochOf ycsb cfg splitField own e g g' h slots out i →
    h.runEpoch cfg e i = .ok h' → InsertRun own (e + 1) g' h'

/-- The device memory shows the cached records, with tags from before the epoch. -/
structure Shows (m : Memory V) (e : ℕ) (h : Hybrid V) : Prop where
  tags : ∀ c, m.tag c < e
  slot1 : ∀ g < cfg.capacity, h.cache.resident g ≠ absent →
    m.tag (.slot1 g) = (h.records g).version1 ∧ m.value (.slot1 g) = (h.records g).value1
  slot2 : ∀ g < cfg.capacity, h.cache.resident g ≠ absent →
    m.tag (.slot2 g) = (h.records g).version2 ∧ m.value (.slot2 g) = (h.records g).value2

/-- The batch on the cache: remapped to slots, at the locations planned for its records. -/
def onCache (ops : List Op) (p : Prepared) (plan : ExecPlan) (e : ℕ) : Epoch :=
  ⟨ops.map (Op.remap (lookup cfg p.cache.cridToGrid)), locOf ops plan, e⟩

/-- The state `prepareEpoch` leaves. -/
def prepared (h : Hybrid V) (e : ℕ) (p : Prepared) : Hybrid V :=
  { h with
    cache := p.cache
    records := zeroInsertSlotTags p.cleared (sgTransferVersions e p.fetched h.store h.records) }

end

section
variable {V : Type} {ycsb : Config} {cfg : Stager.Config} {splitField : Bool} {own : ℕ → ℕ → V → Prop}
  {e : ℕ} {g g' : GpuIndex} {h : Hybrid V} {slots : List Slot} {out : EpochOut} {i : EpochInput V}
  {p : Prepared}

/-- The part of the invariant that a run keeps. -/
structure RunInv (ycsb : Config) (cfg : Stager.Config) (own : ℕ → ℕ → V → Prop) (e : ℕ) (g : GpuIndex)
    (h : Hybrid V) : Prop where
  logged : ∃ j, Logged ycsb g j
  epoch : 0 < e
  run : Hybrid.Run cfg e h
  store : StoreOwned own e h
  cache : CacheOwned cfg own e ∅ h

theorem RunInv.reachable (hi : RunInv ycsb cfg own e g h) (i : EpochInput V) :
    Reachable cfg (i.before cfg h).cache :=
  .reclaim _ (run_unmarked hi.run).1

theorem EpochOf.ids (hep : EpochOf ycsb cfg splitField own e g g' h slots out i)
    (hi : RunInv ycsb cfg own e g h) : Ids ycsb g.index g'.index slots out.recordIds := by
  obtain ⟨j, hj⟩ := hi.logged
  exact indexTxns_ids hj.wf hep.ok hep.index

theorem EpochOf.batch (hep : EpochOf ycsb cfg splitField own e g g' h slots out i) :
    Batch (epochOps splitField out slots) := by
  refine submitYcsbTxns_batch ?_ hep.params
  rw [slotParams, List.length_zipWith]
  exact (Nat.min_le_right _ _).trans hep.count

theorem EpochOf.fit (hep : EpochOf ycsb cfg splitField own e g g' h slots out i) :
    TxnsFit (epochOps splitField out slots) :=
  hep.batch.txn_lt

/-- The keys of the stager are the records of the operations. -/
theorem EpochOf.keys_eq (hep : EpochOf ycsb cfg splitField own e g g' h slots out i) :
    i.keys = (epochOps splitField out slots).map Op.record :=
  hep.keys.trans hep.batch.keys

/-- The YCSB submitter emits records only. -/
theorem EpochOf.ne_absent (hep : EpochOf ycsb cfg splitField own e g g' h slots out i) {u : ℕ}
    (hu : u ∈ i.keys) : u ≠ absent := by
  rcases hep.legal.keys u hu with hlt | ⟨htpcc, -⟩
  · have := cfg.numUnits_le
    omega
  · rw [hep.stager] at htpcc
    cases htpcc

/-- The pairs of the epoch's admission. -/
theorem EpochOf.bound (hep : EpochOf ycsb cfg splitField own e g g' h slots out i)
    (hi : RunInv ycsb cfg own e g h)
    (hp : prepareEpoch cfg i.sched i.keys i.insertKeys (i.before cfg h).cache = .ok p) :
    ∃ pairs, p = Prepared.of cfg p.cache i.insertKeys pairs ∧
      Bound cfg (i.before cfg h).cache p.cache i.sched.order pairs := by
  obtain ⟨hm, hcur⟩ := reachable_mapped (hi.reachable i)
  exact prepareEpoch_bound hm hcur hep.legal.keys hep.legal.complete hp

theorem EpochOf.ready (hep : EpochOf ycsb cfg splitField own e g g' h slots out i)
    (hi : RunInv ycsb cfg own e g h)
    (hp : prepareEpoch cfg i.sched i.keys i.insertKeys (i.before cfg h).cache = .ok p) :
    Ready cfg i.keys p.cache := by
  obtain ⟨hm, hcur⟩ := reachable_mapped (hi.reachable i)
  rcases prepareEpoch_cases hm hcur hep.legal.keys hep.legal.complete i.insertKeys with
    ⟨-, he⟩ | ⟨-, -, he⟩ | ⟨p', he, hr⟩
  · rw [hp] at he
    cases he
  · rw [hp] at he
    cases he
  · rw [hp] at he
    obtain rfl := Except.ok.inj he
    exact hr

theorem isInsert_iff {insertKeys : List ℕ} {u : ℕ} (hu : u < cfg.numUnits) :
    isInsert cfg insertKeys u = true ↔ u ∈ insertKeys := by
  have hne : u ≠ absent := by
    have := cfg.numUnits_le
    omega
  simp only [isInsert, List.any_eq_true, Bool.and_eq_true, bne_iff_ne, beq_iff_eq, decide_eq_true_eq]
  constructor
  · rintro ⟨k, hk, -, rfl⟩
    exact hk
  · exact fun hk => ⟨u, hk, ⟨hne, hu⟩, rfl⟩

/-- A slot that is not fetched belongs to a unit of a record minted in the epoch. -/
theorem EpochOf.cleared (hep : EpochOf ycsb cfg splitField own e g g' h slots out i)
    (hi : RunInv ycsb cfg own e g h)
    (hp : prepareEpoch cfg i.sched i.keys i.insertKeys (i.before cfg h).cache = .ok p) {s : ℕ}
    (hs : s ∈ p.cleared) :
    s < cfg.capacity ∧ p.cache.resident s ∈ i.keys ∧ p.cache.resident s < cfg.numUnits ∧
      Minted ycsb g.index g'.index (recordOf splitField (p.cache.resident s)) := by
  obtain ⟨pairs, hof, hb⟩ := hep.bound hi hp
  rw [hof] at hs
  obtain ⟨x, hx, rfl⟩ := List.mem_map.mp hs
  obtain ⟨hx, hins⟩ := List.mem_filter.mp hx
  have hmem : x.1 ∈ missed cfg (i.before cfg h).cache (buildNeeded i.keys) := by
    refine hep.legal.complete.order.mem_iff.mp ?_
    rw [← hb.crids]
    exact List.mem_map_of_mem hx
  have hlt := lt_of_mem_missed hep.legal.keys hmem
  have hkey : x.1 ∈ i.keys := mem_buildNeeded.mp (mem_missed.mp hmem).1
  have hne : x.1 ≠ kNoRecord := by
    have h1 := cfg.numUnits_le
    have h2 : absent = kNoRecord := rfl
    omega
  have hik := (isInsert_iff hlt).mp hins
  rw [hep.insertKeys] at hik
  rw [hb.resident x hx]
  exact ⟨hb.slot x hx, hkey, hlt, (hep.ids hi).minted_of_insertKey hep.params hep.fit hik hne⟩

/-- A unit of an older record is fetched unless it is resident. -/
theorem EpochOf.fetched (hep : EpochOf ycsb cfg splitField own e g g' h slots out i)
    (hi : RunInv ycsb cfg own e g h)
    (hp : prepareEpoch cfg i.sched i.keys i.insertKeys (i.before cfg h).cache = .ok p) {u : ℕ}
    (hu : u ∈ i.keys)
    (hm : ¬ Minted ycsb g.index g'.index (recordOf splitField u)) :
    (i.before cfg h).cache.cridToGrid u ≠ absent ∨ (u, p.cache.cridToGrid u) ∈ p.fetched := by
  have hne := hep.ne_absent hu
  rcases Classical.em ((i.before cfg h).cache.cridToGrid u = absent) with habs | hres
  · refine Or.inr ?_
    obtain ⟨pairs, hof, hb⟩ := hep.bound hi hp
    have hlt := hep.legal.keys.lt hu hne
    have hmem : u ∈ i.sched.order := by
      refine hep.legal.complete.order.mem_iff.mpr (mem_missed.mpr ⟨mem_buildNeeded.mpr hu, ?_, fun _ => hne⟩)
      rw [lookup, if_pos hlt]
      exact habs
    rw [← hb.crids] at hmem
    obtain ⟨x, hx, rfl⟩ := List.mem_map.mp hmem
    have hgrid : p.cache.cridToGrid x.1 = x.2 := by
      have hocc : p.cache.resident x.2 ≠ absent := (hb.resident x hx).symm ▸ hne
      have := ((hep.ready hi hp).mapped.crid_of_grid x.2 (hb.slot x hx) hocc).2
      rwa [hb.resident x hx] at this
    have hnot : isInsert cfg i.insertKeys x.1 = false := by
      by_contra hins
      have hik := (isInsert_iff hlt).mp (Bool.eq_true_of_not_eq_false hins)
      rw [hep.insertKeys] at hik
      exact hm ((hep.ids hi).minted_of_insertKey hep.params hep.fit hik hne)
    rw [hgrid, hof]
    exact List.mem_filter.mpr ⟨hx, by simp [hnot]⟩
  · exact Or.inl hres

/-- Every unfetched slot is written in its epoch. -/
theorem EpochOf.cleared_written (hep : EpochOf ycsb cfg splitField own e g g' h slots out i)
    (hi : RunInv ycsb cfg own e g h)
    (hp : prepareEpoch cfg i.sched i.keys i.insertKeys (i.before cfg h).cache = .ok p) {s : ℕ}
    (hs : s ∈ p.cleared) :
    ∃ o ∈ epochOps splitField out slots, o.isWrite = true ∧ o.record = p.cache.resident s := by
  obtain ⟨-, hkey, -, hm⟩ := hep.cleared hi hp hs
  rw [hep.keys_eq] at hkey
  exact (hep.ids hi).written_of_minted hep.params hkey hm

theorem EpochOf.prepared_cache (hep : EpochOf ycsb cfg splitField own e g g' h slots out i)
    (hi : RunInv ycsb cfg own e g h)
    (hp : prepareEpoch cfg i.sched i.keys i.insertKeys (i.before cfg h).cache = .ok p) :
    CacheOwned cfg own e {s | s ∈ p.cleared} (prepared (i.before cfg h) e p) := by
  obtain ⟨pairs, hof, hb⟩ := hep.bound hi hp
  exact CacheOwned.prepare (hi.store.before i) (hi.cache.before i) hi.epoch hof hb

theorem runEpoch_prepared {h' : Hybrid V} (hr : h.runEpoch cfg e i = .ok h') :
    ∃ p, prepareEpoch cfg i.sched i.keys i.insertKeys (i.before cfg h).cache = .ok p ∧
      (i.before cfg h).prepare cfg e i.sched i.keys i.insertKeys = .ok (prepared (i.before cfg h) e p) ∧
      h' = ((prepared (i.before cfg h) e p).execute cfg e i.events).startFlushEpochAsync cfg := by
  rw [Hybrid.runEpoch, Hybrid.prepare] at hr
  rw [Hybrid.prepare]
  cases hp : prepareEpoch cfg i.sched i.keys i.insertKeys (i.before cfg h).cache with
  | error f =>
    rw [hp] at hr
    cases hr
  | ok p =>
    rw [hp] at hr
    cases hr
    exact ⟨p, rfl, rfl, rfl⟩

/-- One epoch of a run. -/
theorem RunInv.step (hi : RunInv ycsb cfg own e g h)
    (hep : EpochOf ycsb cfg splitField own e g g' h slots out i) {h' : Hybrid V}
    (hr : h.runEpoch cfg e i = .ok h') : RunInv ycsb cfg own (e + 1) g' h' := by
  obtain ⟨j, hj⟩ := hi.logged
  obtain ⟨p, hp, hprep, rfl⟩ := runEpoch_prepared hr
  obtain ⟨hreach, hunmarked⟩ := run_unmarked hi.run
  obtain ⟨hreach₁, hdirty⟩ := prepare_spec hreach hep.legal hprep
  have hmapped := (reachable_mapped hreach₁).1
  have hu₁ : (prepared (i.before cfg h) e p).Unmarked := fun slot s => by
    rw [hdirty]
    exact hunmarked slot s
  have hne : ∀ u ∈ writtenCrids i.events, u ≠ absent := by
    intro u hu
    obtain ⟨o, ho, -, rfl⟩ := (hep.written u).mp hu
    have hkey : o.record ∈ i.keys := by
      rw [hep.keys_eq]
      exact List.mem_map_of_mem ho
    exact hep.ne_absent hkey
  have hexec := (hep.prepared_cache hi hp).exec hu₁ hne fun s hs _ => by
    obtain ⟨o, ho, hw, hou⟩ := hep.cleared_written hi hp hs
    exact (hep.written _).mpr ⟨o, ho, hw, hou⟩
  have hst : StoreOwned own e (prepared (i.before cfg h) e p) := by
    have hb : StoreOwned own e (i.before cfg h) := hi.store.before i
    exact ⟨hb.value, hb.tags, hb.inflight, hb.inflightTags⟩
  obtain ⟨hs₂, hx₂⟩ := execute_owned hmapped hst hexec hep.once hep.values
  obtain ⟨hs₃, hc₃⟩ := startFlush_owned hs₂ hx₂
  exact ⟨⟨_, logged_step hj hep.ok hep.logged⟩, Nat.succ_pos e, .epoch hi.run hep.legal hr, hs₃, hc₃⟩

theorem insertRun_inv (hrows : ycsb.startingNumRecords ≤ ycsb.numRecords)
    (hids : ycsb.numRecords ≤ kAbsent) (hrun : InsertRun ycsb cfg splitField own e g h) :
    RunInv ycsb cfg own e g h := by
  induction hrun with
  | initial log entryCrid records store htags hown =>
    refine ⟨⟨_, logged_init hrows hids log entryCrid⟩, Nat.one_pos, .initial records store,
      ⟨hown, htags, fun x hx => absurd hx List.not_mem_nil, fun x hx => absurd hx List.not_mem_nil⟩, ?_, ?_⟩
    · exact fun _ _ hne => absurd rfl hne
    · exact fun _ _ hne => absurd rfl hne
  | epoch _ hep hr ih => exact ih.step hep hr

/-! ### Reads -/

theorem EpochOf.remaps (hep : EpochOf ycsb cfg splitField own e g g' h slots out i)
    (hi : RunInv ycsb cfg own e g h)
    (hp : prepareEpoch cfg i.sched i.keys i.insertKeys (i.before cfg h).cache = .ok p) :
    Remaps (lookup cfg p.cache.cridToGrid) (epochOps splitField out slots) := by
  have hkeys : (epochOps splitField out slots).map keyOf = i.keys := hep.keys.symm
  refine Staged.remaps ⟨_, i.sched, i.insertKeys, p, hi.reachable i, ?_, ?_, ?_, rfl⟩ hep.batch
  · rw [hkeys]
    exact hep.legal.keys
  · rw [hkeys]
    exact hep.legal.complete
  · rw [hkeys]
    exact hp

/-- The slot of a unit of the batch. -/
theorem EpochOf.slot (hep : EpochOf ycsb cfg splitField own e g g' h slots out i)
    (hi : RunInv ycsb cfg own e g h)
    (hp : prepareEpoch cfg i.sched i.keys i.insertKeys (i.before cfg h).cache = .ok p) {u : ℕ}
    (hu : u ∈ i.keys) :
    lookup cfg p.cache.cridToGrid u < cfg.capacity ∧
      p.cache.resident (lookup cfg p.cache.cridToGrid u) = u := by
  have hlt := hep.legal.keys.lt hu (hep.ne_absent hu)
  have hready := hep.ready hi hp
  rw [lookup, if_pos hlt]
  exact hready.mapped.grid_of_crid u hlt (hready.resident u hu (hep.ne_absent hu))

theorem Shows.latest {m : Memory V} (hm : Shows cfg m e h) {s : ℕ} (hs : s < cfg.capacity)
    (hne : h.cache.resident s ≠ absent) :
    m.latest s = (h.records s).value (h.records s).latestSlot := by
  obtain ⟨ht1, hv1⟩ := hm.slot1 s hs hne
  obtain ⟨ht2, hv2⟩ := hm.slot2 s hs hne
  rw [Memory.latest, Rec.latestSlot, ht1, ht2, hv1, hv2]
  split <;> rfl

/-- A finished read has a value that was written in the epoch before it or, for a unit of an older
    record, the unit's own value from an earlier epoch. -/
theorem EpochOf.read_value (hep : EpochOf ycsb cfg splitField own e g g' h slots out i)
    (hi : RunInv ycsb cfg own e g h)
    (hp : prepareEpoch cfg i.sched i.keys i.insertKeys (i.before cfg h).cache = .ok p)
    {m : Memory V} {plan : ExecPlan} {evs : List (ℕ × V)} {s : State V}
    (hm : Shows cfg m e (prepared (i.before cfg h) e p))
    (hrun : run (onCache cfg (epochOps splitField out slots) p plan e) (.start m) evs = some s)
    {n : ℕ} {o : Op} {x : Option V} (hn : (epochOps splitField out slots)[n]? = some o)
    (hr : o.isWrite = false) (hx : s.phase n = .done x) :
    ∃ v, x = some v ∧
      ((∃ j < n, writesAt (epochOps splitField out slots) o.record j = true ∧
        s.phase j = .done (some v)) ∨
      ¬ Minted ycsb g.index g'.index (recordOf splitField o.record) ∧ ∃ t < e, own o.record t v) := by
  have hremap := hep.remaps hi hp
  have ho := List.mem_of_getElem? hn
  have hkey : o.record ∈ i.keys := by
    rw [hep.keys_eq]
    exact List.mem_map_of_mem ho
  obtain ⟨hcap, hres⟩ := hep.slot hi hp hkey
  have hl : Located (onCache cfg (epochOps splitField out slots) p plan e).ops
      (onCache cfg (epochOps splitField out slots) p plan e).loc :=
    Located.remap hremap.inj (located hep.batch plan)
  have hinv := inv_run hl hm.tags inv_start hrun
  have hn' : (onCache cfg (epochOps splitField out slots) p plan e).ops[n]? =
      some (o.remap (lookup cfg p.cache.cridToGrid)) := by
    simp only [onCache, List.getElem?_map, hn, Option.map_some]
  have hne : lookup cfg p.cache.cridToGrid o.record ≠ kNoRecord := by
    have h1 := cfg.capacity_lt_absent
    have h2 : absent = kNoRecord := rfl
    omega
  obtain ⟨v, rfl, hv⟩ := read_done hl hm.tags hinv hn' hr hne hx
  have hlast := lastWriteBefore_remap hremap.inj ho n
  refine ⟨v, rfl, ?_⟩
  cases hw : lastWriteBefore (epochOps splitField out slots) o.record n with
  | some j =>
    obtain ⟨hj, hwr, -⟩ := lastWriteBefore_eq_some.mp hw
    rw [hw] at hlast
    simp only [onCache, Op.remap, hlast] at hv
    exact Or.inl ⟨j, hj, hwr, hv⟩
  | none =>
    have hold : ¬ Minted ycsb g.index g'.index (recordOf splitField o.record) := by
      intro hmint
      obtain ⟨j, hj, hwr⟩ := (hep.ids hi).write_before_read hep.params hn hr hmint
      have hno := lastWriteBefore_eq_none.mp hw j hj
      exact Bool.false_ne_true (hno.symm.trans hwr)
    refine Or.inr ⟨hold, ?_⟩
    rw [hw] at hlast
    simp only [onCache, Op.remap, hlast] at hv
    -- the slot is one that was resident or fetched
    have hocc : p.cache.resident (lookup cfg p.cache.cridToGrid o.record) ≠ absent :=
      hres.symm ▸ hep.ne_absent hkey
    have hnot : lookup cfg p.cache.cridToGrid o.record ∉ p.cleared := fun hmem =>
      hold (hres ▸ (hep.cleared hi hp hmem).2.2.2)
    have hc := hep.prepared_cache hi hp
    have hown := hc.value _ hcap hocc hnot
    rw [hv, hm.latest hcap hocc]
    have hlt := (hc.tags _ hcap hocc).version
      ((prepared (i.before cfg h) e p).records (lookup cfg p.cache.cridToGrid o.record)).latestSlot
    refine ⟨_, hlt, ?_⟩
    simpa only [prepared, hres] using hown

/-- When the epoch's operations have finished, an unfetched slot has a value that one of them wrote
    to its unit. -/
theorem EpochOf.cleared_value (hep : EpochOf ycsb cfg splitField own e g g' h slots out i)
    (hi : RunInv ycsb cfg own e g h)
    (hp : prepareEpoch cfg i.sched i.keys i.insertKeys (i.before cfg h).cache = .ok p)
    {m : Memory V} {plan : ExecPlan} {evs : List (ℕ × V)} {s : State V}
    (hm : Shows cfg m e (prepared (i.before cfg h) e p))
    (hrun : run (onCache cfg (epochOps splitField out slots) p plan e) (.start m) evs = some s)
    (hall : ∀ n < (epochOps splitField out slots).length, ∃ x, s.phase n = .done x) {c : ℕ}
    (hc : c ∈ p.cleared) :
    ∃ j, writesAt (epochOps splitField out slots) (p.cache.resident c) j = true ∧
      s.phase j = .done (some (s.mem.latest c)) := by
  have hremap := hep.remaps hi hp
  obtain ⟨hcap, hkey, hlt, -⟩ := hep.cleared hi hp hc
  obtain ⟨o, ho, hw, hou⟩ := hep.cleared_written hi hp hc
  have hgrid : lookup cfg p.cache.cridToGrid (p.cache.resident c) = c := by
    rw [lookup, if_pos hlt]
    exact ((hep.ready hi hp).mapped.crid_of_grid c hcap (hep.ne_absent hkey)).2
  have hl : Located (onCache cfg (epochOps splitField out slots) p plan e).ops
      (onCache cfg (epochOps splitField out slots) p plan e).loc :=
    Located.remap hremap.inj (located hep.batch plan)
  have hinv := inv_run hl hm.tags inv_start hrun
  have hne : c ≠ kNoRecord := by
    have h1 := cfg.capacity_lt_absent
    have h2 : absent = kNoRecord := rfl
    omega
  have hlen : (onCache cfg (epochOps splitField out slots) p plan e).ops.length =
      (epochOps splitField out slots).length := List.length_map _
  have hdone := latest_done hl hm.tags hinv (by rw [hlen]; exact hall) hne
  have hlast := lastWriteBefore_remap hremap.inj ho (epochOps splitField out slots).length
  rw [hou, hgrid] at hlast
  rw [hlen] at hdone
  simp only [onCache, hlast] at hdone
  cases hj : lastWriteBefore (epochOps splitField out slots) (p.cache.resident c)
      (epochOps splitField out slots).length with
  | none =>
    obtain ⟨n, hn⟩ := List.mem_iff_getElem?.mp ho
    have hno := lastWriteBefore_eq_none.mp hj n (List.getElem?_eq_some_iff.mp hn).1
    rw [writesAt_iff.mpr ⟨o, hn, hw, hou⟩] at hno
    cases hno
  | some j =>
    rw [hj] at hdone
    exact ⟨j, (lastWriteBefore_eq_some.mp hj).2.1, hdone⟩

/-- Insert-allocate is sound in every epoch of every run. A slot admitted without a fetch belongs to a
    unit of a record minted in the epoch, which the record's INSERT writes, and a write stores every
    word of a value. An INSERT whose record is older finds it resident or fetches it. In every
    interleaving, a read returns what an operation before it in the batch wrote to the unit in this
    epoch, or, if the record is older, a value of the unit from an earlier epoch; when the operations
    have finished, an unfetched slot has a value that one of them wrote to its unit. And the primary
    store and the flush in flight never have a value or a tag that is not the record's own. -/
theorem insert_allocate_sound (hrows : ycsb.startingNumRecords ≤ ycsb.numRecords)
    (hids : ycsb.numRecords ≤ kAbsent) (hrun : InsertRun ycsb cfg splitField own e g h)
    (hep : EpochOf ycsb cfg splitField own e g g' h slots out i)
    (hp : prepareEpoch cfg i.sched i.keys i.insertKeys (i.before cfg h).cache = .ok p) :
    (∀ c ∈ p.cleared, Minted ycsb g.index g'.index (recordOf splitField (p.cache.resident c)) ∧
      ∃ k x, (slotParams out.recordIds slots)[k]? = some x ∧ x.op = .insert ∧
        ∃ o ∈ submitSlot splitField k x, o.isWrite = true ∧ o.record = p.cache.resident c) ∧
    (∀ length, ∀ w < length, w ∈ laneWords length (w % 32) 0) ∧
    (∀ k x, (slotParams out.recordIds slots)[k]? = some x → x.op = .insert →
      ¬ Minted ycsb g.index g'.index x.recordId → ∀ o ∈ submitSlot splitField k x,
        (i.before cfg h).cache.cridToGrid o.record ≠ absent ∨
          (o.record, p.cache.cridToGrid o.record) ∈ p.fetched) ∧
    (∀ (m : Memory V) (plan : ExecPlan) (evs : List (ℕ × V)) (s : State V),
      Shows cfg m e (prepared (i.before cfg h) e p) →
      run (onCache cfg (epochOps splitField out slots) p plan e) (.start m) evs = some s →
      (∀ n o x, (epochOps splitField out slots)[n]? = some o → o.isWrite = false →
        s.phase n = .done x → ∃ v, x = some v ∧
          ((∃ j < n, writesAt (epochOps splitField out slots) o.record j = true ∧
            s.phase j = .done (some v)) ∨
          ¬ Minted ycsb g.index g'.index (recordOf splitField o.record) ∧
            ∃ t < e, own o.record t v)) ∧
      ((∀ n < (epochOps splitField out slots).length, ∃ x, s.phase n = .done x) →
        ∀ c ∈ p.cleared, ∃ j, writesAt (epochOps splitField out slots) (p.cache.resident c) j = true ∧
          s.phase j = .done (some (s.mem.latest c)))) ∧
    (∀ u slot, own u ((h.store u).version slot) ((h.store u).value slot)) ∧
    (∀ x ∈ h.inflight, own x.crid x.version x.value) := by
  have hi := insertRun_inv hrows hids hrun
  refine ⟨fun c hc => ?_, fun length w hw => mem_laneWords hw (Nat.zero_le w) rfl,
    fun k x hk hop hm o ho => ?_, fun m plan evs s hm hr => ⟨fun n o x hn hw hx => ?_, fun hall c hc => ?_⟩,
    hi.store.value, hi.store.inflight⟩
  · obtain ⟨-, hkey, -, hm⟩ := hep.cleared hi hp hc
    refine ⟨hm, ?_⟩
    rw [hep.keys_eq] at hkey
    obtain ⟨q, hq, he⟩ := List.mem_map.mp hkey
    obtain ⟨k, x, hk, hqk⟩ := mem_submitYcsbTxns.mp hq
    obtain ⟨-, hunit, -⟩ := recordOf_submitSlot (hep.params _ (List.mem_of_getElem? hk)) hqk
    rw [← he] at hm ⊢
    rw [hunit] at hm
    obtain ⟨k₀, x₀, -, hk₀, hop, -, o, ho, hou, hw, -⟩ :=
      (hep.ids hi).creator_write hep.params hk hunit hm
    exact ⟨k₀, x₀, hk₀, hop, o, ho, hw, hou⟩
  · obtain ⟨-, hunit, -⟩ := recordOf_submitSlot (hep.params _ (List.mem_of_getElem? hk)) ho
    refine hep.fetched hi hp ?_ (hunit.symm ▸ hm)
    rw [hep.keys_eq]
    exact List.mem_map_of_mem (mem_submitYcsbTxns.mpr ⟨k, x, hk, ho⟩)
  · exact hep.read_value hi hp hm hr hn hw hx
  · exact hep.cleared_value hi hp hm hr hall hc

end

/-! ### A key inserted twice -/

/-- A cache of one slot. -/
def oneSlot : Stager.Config := ⟨1, 8, false, false, by decide, by decide⟩

/-- Key 9 is inserted twice and read. -/
def insertTwice : List Slot := [⟨.insert, 9, 0⟩, ⟨.insert, 9, 0⟩, ⟨.read, 9, 0⟩]

/-- The index of four loaded records. -/
def loaded : GpuIndex := .init smallConfig ⟨fun _ => 0, fun _ => 0, fun _ => 0⟩ fun _ => 0

/-- Record 4 is admitted and written once. -/
def admitFour : EpochInput ℕ := ⟨0, [], ⟨[4], [], []⟩, [4, 4, 4], [4, 4, kNoRecord], [.write 4 7]⟩

/-- A store of zeros under an uninitialised cache. -/
def loadedStore : Hybrid ℕ := Hybrid.initial oneSlot (fun _ => ⟨99, 99, 99, 99⟩) fun _ => ⟨0, 0, 0, 0⟩

/-- What the slot's last occupant left. -/
def staleMemory : Memory ℕ := ⟨fun _ => 0, fun _ => 99⟩

/-- The second INSERT and the READ run before the first INSERT makes a step. -/
def secondFirst : List (ℕ × ℕ) := List.replicate 4 (1, 7) ++ List.replicate 3 (2, 0)

theorem indexTxns_insertTwice :
    ∃ g' out, loaded.indexTxns smallConfig insertTwice = .ok g' ∧
      indexTxns smallConfig loaded.index insertTwice = .ok (g'.index, out) ∧
      out.recordIds = [4, 4, 4] ∧ numMinted loaded.index g'.index = 1 :=
  ⟨_, _, rfl, rfl, by decide +kernel, by decide +kernel⟩

theorem insertTwice_epoch :
    ∃ g' out, loaded.indexTxns smallConfig insertTwice = .ok g' ∧ out.recordIds = [4, 4, 4] ∧
      EpochOf smallConfig oneSlot false (fun _ _ v => v ≠ 99) 1 loaded g' loadedStore insertTwice out
        admitFour := by
  obtain ⟨g', out, hlog, hindex, hids, hnum⟩ := indexTxns_insertTwice
  refine ⟨g', out, hlog, hids, ?_⟩
  have hops : epochOps false out insertTwice =
      submitYcsbTxns false (slotParams [4, 4, 4] insertTwice) := by rw [epochOps, hids]
  have hwritten : ∀ u, u ∈ writtenCrids admitFour.events ↔
      ∃ o ∈ submitYcsbTxns false (slotParams [4, 4, 4] insertTwice),
        o.isWrite = true ∧ o.record = u := by
    intro u
    constructor
    · intro hu
      obtain rfl := List.mem_singleton.mp hu
      decide +kernel
    · rintro ⟨o, ho, -, rfl⟩
      have hall : ∀ o ∈ submitYcsbTxns false (slotParams [4, 4, 4] insertTwice),
          o.record ∈ writtenCrids admitFour.events := by decide +kernel
      exact hall o ho
  exact {
    stager := rfl
    ok := ⟨by decide, by decide, by decide⟩
    count := by decide
    index := hindex
    logged := hlog
    params := by
      rw [hids]
      intro x hx
      have hall : ∀ x ∈ slotParams [4, 4, 4] insertTwice, x.fieldId < 10 ∧ x.recordId < 2 ^ 32 := by
        decide +kernel
      exact ⟨(hall x hx).1, fun _ => (hall x hx).2⟩
    keys := by
      rw [hids]
      decide +kernel
    insertKeys := by
      rw [hids, hnum]
      decide +kernel
    legal := ⟨fun k hk => Or.inl (by revert k; decide), by decide, fun hlt => absurd hlt (by decide)⟩
    written := by
      rw [hops]
      exact hwritten
    once := by decide
    values := fun u v hv => by
      cases List.mem_singleton.mp hv
      decide }

/-- The epoch admits the record without a fetch, and it is the one minted. -/
theorem insert_allocate_sound_twice :
    ∃ (g' : GpuIndex) (out : EpochOut) (p : Prepared),
      loaded.indexTxns smallConfig insertTwice = .ok g' ∧ out.recordIds = [4, 4, 4] ∧
      prepareEpoch oneSlot admitFour.sched admitFour.keys admitFour.insertKeys
        (admitFour.before oneSlot loadedStore).cache = .ok p ∧ p.cleared = [0] ∧
      Minted smallConfig loaded.index g'.index (recordOf false (p.cache.resident 0)) := by
  obtain ⟨g', out, hlog, hids, hep⟩ := insertTwice_epoch
  obtain ⟨p, hp, hc⟩ : ∃ p, prepareEpoch oneSlot admitFour.sched admitFour.keys admitFour.insertKeys
      (admitFour.before oneSlot loadedStore).cache = .ok p ∧ p.cleared = [0] :=
    ⟨_, rfl, by decide +kernel⟩
  have hrun : InsertRun smallConfig oneSlot false (fun _ _ v => v ≠ 99) 1 loaded loadedStore :=
    .initial _ _ _ _ (fun u => ⟨by decide, by decide⟩) fun u slot => by cases slot <;> decide
  have hall := insert_allocate_sound (by decide) (by decide) hrun hep hp
  exact ⟨g', out, p, hlog, hids, hp, hc, (hall.1 0 (by rw [hc]; exact List.mem_singleton_self 0)).1⟩

theorem phases_of_map {r : Option (State ℕ)} {a b : Phase ℕ}
    (hr : r.map (fun s => (s.phase 2, s.phase 0)) = some (a, b)) :
    ∃ s, r = some s ∧ s.phase 2 = a ∧ s.phase 0 = b := by
  obtain ⟨s, rfl, hs⟩ := Option.map_eq_some_iff.mp hr
  exact ⟨s, rfl, congrArg Prod.fst hs, congrArg Prod.snd hs⟩

/-- In this epoch of a run the second INSERT resolves to the record the first one made live, and its
    slot is not fetched; the READ returns before the first INSERT has written anything. -/
theorem read_overtakes_insert :
    ∃ g' out p s,
      EpochOf smallConfig oneSlot false (fun _ _ v => v ≠ 99) 1 loaded g' loadedStore insertTwice out
        admitFour ∧ out.recordIds = [4, 4, 4] ∧
      prepareEpoch oneSlot admitFour.sched admitFour.keys admitFour.insertKeys
        (admitFour.before oneSlot loadedStore).cache = .ok p ∧
      p.fetched = [] ∧ p.cleared = [0] ∧
      Shows oneSlot staleMemory 1 (prepared (admitFour.before oneSlot loadedStore) 1 p) ∧
      run (onCache oneSlot (epochOps false out insertTwice) p (fun _ => 0) 1)
        (.start staleMemory) secondFirst = some s ∧
      s.phase 2 = .done (some 7) ∧ s.phase 0 = .idle := by
  obtain ⟨g', out, -, hids, hep⟩ := insertTwice_epoch
  obtain ⟨p, hp, hf, hc, hm, s, hs, h2, h0⟩ :
      ∃ p, prepareEpoch oneSlot admitFour.sched admitFour.keys admitFour.insertKeys
        (admitFour.before oneSlot loadedStore).cache = .ok p ∧ p.fetched = [] ∧ p.cleared = [0] ∧
      Shows oneSlot staleMemory 1 (prepared (admitFour.before oneSlot loadedStore) 1 p) ∧
      ∃ s, run (onCache oneSlot (submitYcsbTxns false (slotParams [4, 4, 4] insertTwice)) p
        (fun _ => 0) 1) (.start staleMemory) secondFirst = some s ∧
      s.phase 2 = .done (some 7) ∧ s.phase 0 = .idle := by
    refine ⟨_, rfl, by decide +kernel, by decide +kernel,
      ⟨fun _ => Nat.one_pos, fun g hg _ => ?_, fun g hg _ => ?_⟩, phases_of_map ?_⟩
    · obtain rfl := Nat.lt_one_iff.mp hg
      decide +kernel
    · obtain rfl := Nat.lt_one_iff.mp hg
      decide +kernel
    · decide +kernel
  refine ⟨g', out, p, s, hep, hids, hp, hf, hc, hm, ?_, h2, h0⟩
  rw [epochOps, hids]
  exact hs

end Egad.Ycsb
