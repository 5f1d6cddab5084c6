import Egad.Ycsb.HybridRun
import Egad.Execution.SerialOutcome
import Egad.Recovery.CrashRecovery

/-! # YCSB through a crash

    The YCSB benchmark as a program of the recovery machine. A process finds its index in the logs,
    and what an epoch needs, creates and deletes in the index:

        logs ─► rebuildCucoFromShadow ─► indexTxns(e) ─► neededKeys, insertKeys, edelCrids
                                              └─► submitted operations ─► executor ─► writes

    With and without a crash the rows then have the values of the serial execution of all epochs on a
    store with no cache. -/

namespace Egad.Ycsb
open Egad.Lib Egad.Timeline Egad.Execution Egad.Planner Egad.Stager Egad.Recovery

/-! ### The program -/

section
variable {V : Type} (ycsb : Config) (cfg : Stager.Config) (splitField : Bool)
  (inputs : ℕ → List Slot) (data : ℕ → ℕ → (ℕ → Option V) → V) (blank : V)

/-- The index that a process has with these logs. -/
def indexOf (logs : ∀ l, List (YcsbEntry l)) : GpuIndex :=
  rebuildCucoFromShadow ycsb (durableLog (arrays logs)) (logs .insert).length (logs .delete).length

/-- What `indexTxns` makes of epoch `e`, unless it throws. -/
def indexedEpoch (e : ℕ) (logs : ∀ l, List (YcsbEntry l)) : Option (Index × EpochOut) :=
  (indexTxns ycsb (indexOf ycsb logs).index (inputs e)).toOption

/-- The operations that epoch `e` submits. -/
def opsOf (e : ℕ) (logs : ∀ l, List (YcsbEntry l)) : List Op :=
  match indexedEpoch ycsb inputs e logs with
  | some (_, out) => epochOps splitField out (inputs e)
  | none => []

/-- The YCSB benchmark. A write of epoch `e` stores what `data e` makes of the results before it. -/
def ycsbProgram (epochs : ℕ) (fits : epochs + 1 < 2 ^ 32) :
    Program YcsbCursor YcsbLog YcsbEntry Unit V where
  scheme := ycsbScheme
  work := ycsbWorkload ycsb inputs epochs fits
  cfg _ := cfg
  needed e logs _ := (opsOf ycsb splitField inputs e logs).map keyOf
  created e logs _ :=
    match indexedEpoch ycsb inputs e logs with
    | some (idx, out) =>
      insertKeys splitField (mintedBegin ycsb (indexOf ycsb logs).index)
        (numMinted (indexOf ycsb logs).index idx) (slotParams out.recordIds (inputs e))
    | none => []
  deleted e logs _ :=
    match indexedEpoch ycsb inputs e logs with
    | some (_, out) => if 0 < ycsb.numDeletes then out.edelCrids else []
    | none => []
  outcome e logs ρ W := (indexedEpoch ycsb inputs e logs).isSome ∧
    ∃ res, Outcome (data e) (opsOf ycsb splitField inputs e logs) (fun u => (ρ () u).getD blank) res ∧
      W = fun _ => lastWritten (opsOf ycsb splitField inputs e logs) res
  sweep _ _ := if splitField then ycsb.numRecords * 10 else ycsb.numRecords

/-- The operations of all epochs one after the other, on a store with no cache. -/
def serialStore (epochs : ℕ) (fits : epochs + 1 < 2 ^ 32) (σ₀ : ℕ → V) : ℕ → ℕ → V
  | 0 => σ₀
  | e + 1 =>
    let σ := serialStore epochs fits σ₀ e
    let ops := opsOf ycsb splitField inputs (e + 1) ((ycsbWorkload ycsb inputs epochs fits).logs e)
    plainAt ops (serialResults (data (e + 1)) ops σ ops.length) σ ops.length

end

/-! ### The logs of a run -/

section
variable {ycsb : Config} {inputs : ℕ → List Slot}

theorem logsOf_indexOf (logs : ∀ l, List (YcsbEntry l)) : logsOf (indexOf ycsb logs) = logs := by
  funext l
  cases l with
  | insert => exact map_range_getD _ _
  | delete => exact map_range_getD _ _

/-- The logs after an epoch that does not throw. -/
theorem logged_indexed {e : ℕ} {logs : ∀ l, List (YcsbEntry l)} {j : Journal ℕ} {idx : Index}
    {out : EpochOut} (hok : EpochOk ycsb (inputs e)) (hj : Logged ycsb (indexOf ycsb logs) j)
    (hidx : indexedEpoch ycsb inputs e logs = some (idx, out)) :
    ∃ g' j', Logged ycsb g' j' ∧ g'.index = idx ∧
      logsOf g' = (fun l => logs l ++ ycsbAppends ycsb (inputs e) logs l) ∧
      indexTxns ycsb (indexOf ycsb logs).index (inputs e) = .ok (idx, out) := by
  have hret : indexTxns ycsb (indexOf ycsb logs).index (inputs e) = .ok (idx, out) := by
    rw [indexedEpoch] at hidx
    cases h : indexTxns ycsb (indexOf ycsb logs).index (inputs e) with
    | error x =>
      rw [h] at hidx
      cases hidx
    | ok r =>
      rw [h] at hidx
      exact congrArg _ (Option.some.inj hidx)
  obtain ⟨g', hg', hindex⟩ : ∃ g', (indexOf ycsb logs).indexTxns ycsb (inputs e) = .ok g' ∧
      g'.index = idx := by
    simp only [GpuIndex.indexTxns, hret, bind, Except.bind, pure, Except.pure]
    exact ⟨_, rfl, rfl⟩
  have hlogs := logsOf_indexTxns hj hok hg'
  rw [logsOf_indexOf] at hlogs
  exact ⟨g', _, logged_step hj hok hg', hindex, hlogs, hret⟩

/-- The logs of a run are those of an index. -/
theorem logged_logs {epochs : ℕ} {fits : epochs + 1 < 2 ^ 32}
    (hrows : ycsb.startingNumRecords ≤ ycsb.numRecords) (hids : ycsb.numRecords ≤ kAbsent)
    (hok : ∀ e, EpochOk ycsb (inputs e)) :
    ∀ e, ∃ j, Logged ycsb (indexOf ycsb ((ycsbWorkload ycsb inputs epochs fits).logs e)) j
  | 0 => by
    have hj := logged_init hrows hids ⟨fun _ => 0, fun _ => 0, fun _ => 0⟩ fun _ => 0
    exact ⟨_, logged_rebuilt hj⟩
  | e + 1 => by
    obtain ⟨j, hj⟩ := logged_logs hrows hids hok e
    rw [Workload.logs]
    cases h : indexedEpoch ycsb inputs (e + 1) ((ycsbWorkload ycsb inputs epochs fits).logs e) with
    | none =>
      have hnil : (ycsbWorkload ycsb inputs epochs fits).appends (e + 1)
          ((ycsbWorkload ycsb inputs epochs fits).logs e) = fun _ => [] := by
        rw [indexedEpoch] at h
        change ycsbAppends ycsb (inputs (e + 1)) ((ycsbWorkload ycsb inputs epochs fits).logs e) = _
        rw [ycsbAppends]
        cases hr : indexTxns ycsb (indexOf ycsb ((ycsbWorkload ycsb inputs epochs fits).logs e)).index
            (inputs (e + 1)) with
        | ok r =>
          rw [hr] at h
          cases h
        | error x =>
          rw [indexOf] at hr
          rw [hr]
      simp only [hnil, List.append_nil]
      exact ⟨j, hj⟩
    | some r =>
      obtain ⟨g', j', hg', -, hlogs, -⟩ := logged_indexed (hok (e + 1)) hj h
      have hrebuilt := logged_rebuilt hg'
      rw [hlogs] at hrebuilt
      exact ⟨j', hrebuilt⟩

/-- The number of rows after an epoch. -/
theorem mintedBegin_logs {epochs : ℕ} {fits : epochs + 1 < 2 ^ 32} {e : ℕ} {j : Journal ℕ}
    {idx : Index} {out : EpochOut} (hok : EpochOk ycsb (inputs (e + 1)))
    (hj : Logged ycsb (indexOf ycsb ((ycsbWorkload ycsb inputs epochs fits).logs e)) j)
    (hidx : indexedEpoch ycsb inputs (e + 1) ((ycsbWorkload ycsb inputs epochs fits).logs e) =
      some (idx, out)) :
    mintedBegin ycsb (indexOf ycsb ((ycsbWorkload ycsb inputs epochs fits).logs (e + 1))).index =
      mintedBegin ycsb idx := by
  obtain ⟨g', -, -, hindex, hlogs, -⟩ := logged_indexed hok hj hidx
  have hlen : ((ycsbWorkload ycsb inputs epochs fits).logs (e + 1) .insert).length =
      g'.index.freeStart := by
    rw [Workload.logs]
    change ((ycsbWorkload ycsb inputs epochs fits).logs e .insert ++
      ycsbAppends ycsb (inputs (e + 1)) ((ycsbWorkload ycsb inputs epochs fits).logs e) .insert).length = _
    rw [← congrFun hlogs .insert, logsOf, List.length_map, List.length_range]
  rw [mintedBegin, mintedBegin, ← hindex, ← hlen]
  rfl

/-- Rows are never given back. -/
theorem mintedBegin_mono {epochs : ℕ} {fits : epochs + 1 < 2 ^ 32} {e e' : ℕ} (h : e ≤ e') :
    mintedBegin ycsb (indexOf ycsb ((ycsbWorkload ycsb inputs epochs fits).logs e)).index ≤
      mintedBegin ycsb (indexOf ycsb ((ycsbWorkload ycsb inputs epochs fits).logs e')).index := by
  induction h with
  | refl => exact le_rfl
  | @step m _ ih =>
    refine ih.trans (Nat.add_le_add_left ?_ _)
    change ((ycsbWorkload ycsb inputs epochs fits).logs m .insert).length ≤
      ((ycsbWorkload ycsb inputs epochs fits).logs (m + 1) .insert).length
    rw [Workload.logs, List.length_append]
    exact Nat.le_add_right _ _

end

/-! ### The operations of an epoch -/

section
variable {ycsb : Config} {cfg : Stager.Config} {splitField : Bool} {inputs : ℕ → List Slot} {e : ℕ}
  {logs : ∀ l, List (YcsbEntry l)} {j : Journal ℕ} {idx : Index} {out : EpochOut}

/-- What a benchmark's input keeps to; an epoch has no more transactions than the id field of an
    operation word has values. -/
structure InputsOk (ycsb : Config) (cfg : Stager.Config) (splitField : Bool) (inputs : ℕ → List Slot) :
    Prop extends StagerFor ycsb cfg splitField where
  epochs : ∀ e, EpochOk ycsb (inputs e)
  fields : ∀ e, ∀ x ∈ inputs e, x.field < 10
  count : ∀ e, (inputs e).length ≤ 10 * 2 ^ 20

/-- What the index phase tells of the operations of an epoch. -/
structure OpsOk (ycsb : Config) (cfg : Stager.Config) (splitField : Bool) (inputs : ℕ → List Slot)
    (e : ℕ) (idx₀ idx : Index) (out : EpochOut) : Prop where
  ids : Ids ycsb idx₀ idx (inputs e) out.recordIds
  params : ∀ x ∈ slotParams out.recordIds (inputs e), x.Ok splitField
  batch : Batch (epochOps splitField out (inputs e))
  rows : mintedBegin ycsb idx ≤ ycsb.numRecords
  op : ∀ o ∈ epochOps splitField out (inputs e),
    recordOf splitField o.record < mintedBegin ycsb idx ∧ o.record < cfg.numUnits

theorem opsOk (hi : InputsOk ycsb cfg splitField inputs) (hj : Logged ycsb (indexOf ycsb logs) j)
    (hidx : indexedEpoch ycsb inputs e logs = some (idx, out)) :
    OpsOk ycsb cfg splitField inputs e (indexOf ycsb logs).index idx out := by
  obtain ⟨g', j', hg', rfl, -, hret⟩ := logged_indexed (hi.epochs e) hj hidx
  have hids := indexTxns_ids hj.wf (hi.epochs e) hret
  have hrows := hg'.rows
  have hlt : ∀ x ∈ slotParams out.recordIds (inputs e), x.recordId ≠ kNoRecord →
      x.recordId < mintedBegin ycsb g'.index := by
    intro x hx hne
    obtain ⟨i, hget⟩ := List.mem_iff_getElem?.mp hx
    obtain ⟨-, -, hr, -, -⟩ := getElem?_slotParams hget
    exact hids.lt _ (List.mem_of_getElem? hr) hne
  have hparams : ∀ x ∈ slotParams out.recordIds (inputs e), x.Ok splitField := by
    intro x hx
    refine ⟨?_, fun hne => ?_⟩
    · obtain ⟨i, hget⟩ := List.mem_iff_getElem?.mp hx
      obtain ⟨y, hy, -, -, hf⟩ := getElem?_slotParams hget
      rw [hf]
      exact hi.fields e y (List.mem_of_getElem? hy)
    · have hrec := hlt x hx hne
      have hunits := cfg.numUnits_le
      have habs : absent < 2 ^ 32 := by decide
      rw [hi.units] at hunits
      split <;> rename_i hsplit <;>
        simp only [hsplit, if_true, Bool.false_eq_true, if_false] at hunits <;> omega
  have hbatch : Batch (epochOps splitField out (inputs e)) := by
    refine submitYcsbTxns_batch ?_ hparams
    rw [slotParams, List.length_zipWith]
    exact (Nat.min_le_right _ _).trans (hi.count e)
  refine ⟨hids, hparams, hbatch, hrows, fun o ho => ?_⟩
  obtain ⟨k, x, hk, hxo⟩ := mem_submitYcsbTxns.mp ho
  have hx := List.mem_of_getElem? hk
  obtain ⟨hne, hrec, -⟩ := recordOf_submitSlot (hparams x hx) hxo
  have hrecord := hlt x hx hne
  rw [hrec]
  refine ⟨hrecord, ?_⟩
  rw [recordOf] at hrec
  rw [hi.units]
  split at hrec <;> rename_i hsplit <;> simp only [hsplit, if_true, Bool.false_eq_true, if_false] <;> omega

theorem opsOf_some (hidx : indexedEpoch ycsb inputs e logs = some (idx, out)) :
    opsOf ycsb splitField inputs e logs = epochOps splitField out (inputs e) := by
  rw [opsOf, hidx]

/-- The keys of the stager are the records of the operations. -/
theorem OpsOk.keys {idx₀ : Index} (h : OpsOk ycsb cfg splitField inputs e idx₀ idx out) :
    (epochOps splitField out (inputs e)).map keyOf = (epochOps splitField out (inputs e)).map Op.record :=
  h.batch.keys

/-- A record that an operation names is a row. -/
theorem OpsOk.record_lt {idx₀ : Index} (h : OpsOk ycsb cfg splitField inputs e idx₀ idx out) {u : ℕ}
    (hu : u ∈ (epochOps splitField out (inputs e)).map Op.record) :
    recordOf splitField u < mintedBegin ycsb idx ∧ u < cfg.numUnits ∧ u ≠ absent := by
  obtain ⟨o, ho, rfl⟩ := List.mem_map.mp hu
  obtain ⟨h1, h2⟩ := h.op o ho
  refine ⟨h1, h2, ?_⟩
  have := cfg.numUnits_le
  omega

/-- A batch writes records that it names. -/
theorem mem_of_lastWritten {ops : List Op} {V : Type} {res : ℕ → Option V} {u : ℕ} {v : V}
    (h : lastWritten ops res u = some v) : u ∈ ops.map Op.record := by
  obtain ⟨i, hlast, -⟩ := Option.bind_eq_some_iff.mp h
  obtain ⟨o, ho, -, rfl⟩ := writesAt_iff.mp (lastWriteBefore_eq_some.mp hlast).2.1
  exact List.mem_map_of_mem (List.mem_of_getElem? ho)

end

/-! ### The program is well formed -/

section
variable {V : Type} {ycsb : Config} {cfg : Stager.Config} {splitField : Bool} {inputs : ℕ → List Slot}
  {data : ℕ → ℕ → (ℕ → Option V) → V} {blank : V} {epochs : ℕ} {fits : epochs + 1 < 2 ^ 32}

/-- An epoch of a run, as the program gives it. -/
theorem ycsb_epoch (hi : InputsOk ycsb cfg splitField inputs) (e : ℕ) {idx : Index} {out : EpochOut}
    (hidx : indexedEpoch ycsb inputs (e + 1) ((ycsbWorkload ycsb inputs epochs fits).logs e) =
      some (idx, out)) :
    OpsOk ycsb cfg splitField inputs (e + 1)
      (indexOf ycsb ((ycsbWorkload ycsb inputs epochs fits).logs e)).index idx out ∧
    mintedBegin ycsb (indexOf ycsb ((ycsbWorkload ycsb inputs epochs fits).logs (e + 1))).index =
      mintedBegin ycsb idx := by
  obtain ⟨j, hj⟩ : ∃ j, Logged ycsb (indexOf ycsb ((ycsbWorkload ycsb inputs epochs fits).logs e)) j :=
    logged_logs hi.rows hi.ids hi.epochs e
  exact ⟨opsOk hi hj hidx, mintedBegin_logs (hi.epochs _) hj hidx⟩

/-- The keys that the stager gets are the records of the operations. -/
theorem ycsb_needed (hi : InputsOk ycsb cfg splitField inputs) (e : ℕ) (t : Unit) :
    (ycsbProgram ycsb cfg splitField inputs data blank epochs fits).needed (e + 1)
      ((ycsbWorkload ycsb inputs epochs fits).logs e) t =
    (opsOf ycsb splitField inputs (e + 1) ((ycsbWorkload ycsb inputs epochs fits).logs e)).map Op.record := by
  change (opsOf ycsb splitField inputs (e + 1)
    ((ycsbWorkload ycsb inputs epochs fits).logs e)).map keyOf = _
  cases hidx : indexedEpoch ycsb inputs (e + 1) ((ycsbWorkload ycsb inputs epochs fits).logs e) with
  | none =>
    rw [opsOf, hidx]
    rfl
  | some r =>
    rw [opsOf_some hidx]
    exact (ycsb_epoch hi e hidx).1.keys

/-- An operation's record is needed. -/
theorem ycsb_op_needed (hi : InputsOk ycsb cfg splitField inputs) {e i : ℕ} {o : Op}
    (hget : (opsOf ycsb splitField inputs (e + 1)
      ((ycsbWorkload ycsb inputs epochs fits).logs e))[i]? = some o) :
    o.record ∈ (ycsbProgram ycsb cfg splitField inputs data blank epochs fits).needed (e + 1)
      ((ycsbWorkload ycsb inputs epochs fits).logs e) () := by
  rw [ycsb_needed hi]
  exact List.mem_map_of_mem (List.mem_of_getElem? hget)

/-- A named record is a row below the rows of the next epoch. -/
theorem ycsb_names (hi : InputsOk ycsb cfg splitField inputs) {e u : ℕ} {t : Unit}
    (hn : (ycsbProgram ycsb cfg splitField inputs data blank epochs fits).Names e t u) :
    u < cfg.numUnits ∧ recordOf splitField u <
      mintedBegin ycsb (indexOf ycsb ((ycsbWorkload ycsb inputs epochs fits).logs e)).index := by
  obtain ⟨-, i, hie, hu⟩ := hn
  replace hu := (ycsb_needed hi i t) ▸ hu
  cases hidx : indexedEpoch ycsb inputs (i + 1) ((ycsbWorkload ycsb inputs epochs fits).logs i) with
  | none =>
    rw [opsOf, hidx] at hu
    cases hu
  | some r =>
    obtain ⟨idx, out⟩ := r
    obtain ⟨hops, hbegin⟩ := ycsb_epoch hi i hidx
    rw [opsOf_some hidx] at hu
    obtain ⟨hlt, hunits, -⟩ := hops.record_lt hu
    exact ⟨hunits, hlt.trans_le (hbegin ▸ mintedBegin_mono (Nat.succ_le_of_lt hie))⟩

/-- A created record is one of the epoch's range of rows. -/
theorem ycsb_created (hi : InputsOk ycsb cfg splitField inputs) {e u : ℕ} {t : Unit}
    (hu : u ∈ (ycsbProgram ycsb cfg splitField inputs data blank epochs fits).created (e + 1)
      ((ycsbWorkload ycsb inputs epochs fits).logs e) t) (hne : u ≠ absent) :
    ∃ idx out, indexedEpoch ycsb inputs (e + 1) ((ycsbWorkload ycsb inputs epochs fits).logs e) =
        some (idx, out) ∧
      Minted ycsb (indexOf ycsb ((ycsbWorkload ycsb inputs epochs fits).logs e)).index idx
        (recordOf splitField u) := by
  simp only [ycsbProgram] at hu
  cases hidx : indexedEpoch ycsb inputs (e + 1) ((ycsbWorkload ycsb inputs epochs fits).logs e) with
  | none =>
    rw [hidx] at hu
    cases hu
  | some r =>
    obtain ⟨idx, out⟩ := r
    rw [hidx] at hu
    obtain ⟨hops, -⟩ := ycsb_epoch hi e hidx
    exact ⟨idx, out, rfl, hops.ids.minted_of_insertKey hops.params hops.batch.txn_lt hu hne⟩

theorem ycsbProgram_wellFormed (hi : InputsOk ycsb cfg splitField inputs) :
    (ycsbProgram ycsb cfg splitField inputs data blank epochs fits).WellFormed where
  keys e t u hu := by
    replace hu := (ycsb_needed hi e t) ▸ hu
    cases hidx : indexedEpoch ycsb inputs (e + 1) ((ycsbWorkload ycsb inputs epochs fits).logs e) with
    | none =>
      rw [opsOf, hidx] at hu
      cases hu
    | some r =>
      obtain ⟨idx, out⟩ := r
      rw [opsOf_some hidx] at hu
      exact Or.inl ((ycsb_epoch hi e hidx).1.record_lt hu).2.1
  writes e ρ W hW t u v hu := by
    obtain ⟨hsome, res, -, rfl⟩ := hW
    have hmem := mem_of_lastWritten hu
    refine ⟨?_, (ycsb_needed hi e t).symm ▸ hmem⟩
    obtain ⟨⟨idx, out⟩, hidx⟩ := Option.isSome_iff_exists.mp hsome
    have hidx' : indexedEpoch ycsb inputs (e + 1) ((ycsbWorkload ycsb inputs epochs fits).logs e) =
      some (idx, out) := hidx
    change u ∈ (opsOf ycsb splitField inputs (e + 1)
      ((ycsbWorkload ycsb inputs epochs fits).logs e)).map Op.record at hmem
    rw [opsOf_some hidx'] at hmem
    exact ((ycsb_epoch hi e hidx').1.record_lt hmem).2.2
  creates e ρ W hW t u hneed hcreated hne := by
    obtain ⟨-, res, hout, rfl⟩ := hW
    obtain ⟨idx, out, hidx, hmint⟩ := ycsb_created hi hcreated hne
    replace hneed := (ycsb_needed hi e t) ▸ hneed
    rw [opsOf_some hidx] at hneed
    obtain ⟨hops, -⟩ := ycsb_epoch hi e hidx
    obtain ⟨o, ho, hw, hrec⟩ := hops.ids.written_of_minted hops.params hneed hmint
    obtain ⟨i, hget⟩ := List.mem_iff_getElem?.mp ho
    rw [Option.isSome_iff_ne_none, ne_eq, lastWritten_eq_none hout]
    intro hno
    have hwrites : writesAt (epochOps splitField out (inputs (e + 1))) u i = true :=
      writesAt_iff.mpr ⟨o, hget, hw, hrec⟩
    have hi' := hno i
    change writesAt (opsOf ycsb splitField inputs (e + 1)
      ((ycsbWorkload ycsb inputs epochs fits).logs e)) u i = false at hi'
    rw [opsOf_some hidx, hwrites] at hi'
    cases hi'
  fresh e t u hcreated hn := by
    obtain ⟨idx, out, -, hmint⟩ := ycsb_created hi hcreated hn.1
    exact absurd (ycsb_names hi hn).2 (Nat.not_lt.mpr hmint.1)
  swept e bank _ t u hn := by
    obtain ⟨hlt, -⟩ := ycsb_names hi hn
    rw [hi.units] at hlt
    exact hlt

/-! ### Its histories are serial -/

/-- An operation names a row. -/
theorem ycsb_op_ne (hi : InputsOk ycsb cfg splitField inputs) {e i : ℕ} {o : Op}
    (hget : (opsOf ycsb splitField inputs (e + 1)
      ((ycsbWorkload ycsb inputs epochs fits).logs e))[i]? = some o) : o.record ≠ absent := by
  have hneed := List.mem_map_of_mem (f := Op.record) (List.mem_of_getElem? hget)
  cases hidx : indexedEpoch ycsb inputs (e + 1) ((ycsbWorkload ycsb inputs epochs fits).logs e) with
  | none =>
    rw [opsOf, hidx] at hget
    cases hget
  | some r =>
    obtain ⟨idx, out⟩ := r
    rw [opsOf_some hidx] at hneed
    exact ((ycsb_epoch hi e hidx).1.record_lt hneed).2.2

/-- A read of a created record comes after a write of it. -/
theorem ycsb_write_before_read (hi : InputsOk ycsb cfg splitField inputs) {e i : ℕ} {o : Op}
    (hget : (opsOf ycsb splitField inputs (e + 1)
      ((ycsbWorkload ycsb inputs epochs fits).logs e))[i]? = some o) (hr : o.isWrite = false)
    (hcreated : o.record ∈ (ycsbProgram ycsb cfg splitField inputs data blank epochs fits).created
      (e + 1) ((ycsbWorkload ycsb inputs epochs fits).logs e) ()) :
    ∃ j < i, writesAt (opsOf ycsb splitField inputs (e + 1)
      ((ycsbWorkload ycsb inputs epochs fits).logs e)) o.record j = true := by
  have hneed := List.mem_map_of_mem (f := Op.record) (List.mem_of_getElem? hget)
  cases hidx : indexedEpoch ycsb inputs (e + 1) ((ycsbWorkload ycsb inputs epochs fits).logs e) with
  | none =>
    rw [opsOf, hidx] at hget
    cases hget
  | some r =>
    obtain ⟨idx, out⟩ := r
    obtain ⟨hops, -⟩ := ycsb_epoch hi e hidx
    rw [opsOf_some hidx] at hget hneed ⊢
    obtain ⟨idx', out', hidx', hmint⟩ := ycsb_created hi hcreated (hops.record_lt hneed).2.2
    obtain ⟨rfl, rfl⟩ := Prod.mk.inj (Option.some.inj (hidx'.symm.trans hidx))
    exact hops.ids.write_before_read hops.params hget hr hmint

/-- Reads that find the store find it as the epochs before have left it; the others come after a
    write of the epoch. -/
theorem ycsb_outcome_plain (hi : InputsOk ycsb cfg splitField inputs) {e : ℕ} {σ : Values Unit V}
    {res : ℕ → Option V}
    (hout : Outcome (data (e + 1))
      (opsOf ycsb splitField inputs (e + 1) ((ycsbWorkload ycsb inputs epochs fits).logs e))
      (fun u => ((ycsbProgram ycsb cfg splitField inputs data blank epochs fits).visible (e + 1)
        ((ycsbWorkload ycsb inputs epochs fits).logs e) σ () u).getD blank) res) :
    Outcome (data (e + 1))
      (opsOf ycsb splitField inputs (e + 1) ((ycsbWorkload ycsb inputs epochs fits).logs e)) (σ ()) res := by
  refine hout.congr_store fun i o hget hr => ?_
  by_cases hcreated : o.record ∈ (ycsbProgram ycsb cfg splitField inputs data blank epochs fits).created
      (e + 1) ((ycsbWorkload ycsb inputs epochs fits).logs e) ()
  · exact Or.inr (ycsb_write_before_read hi hget hr hcreated)
  · refine Or.inl ?_
    rw [Program.visible, if_pos ⟨ycsb_op_ne hi hget, ycsb_op_needed hi hget, hcreated⟩]
    rfl

/-- After every history the rows have the values of the serial execution. -/
theorem ycsb_valuesAfter (hi : InputsOk ycsb cfg splitField inputs) {σ : Values Unit V}
    {hist : List (Writes Unit V)}
    (hh : (ycsbProgram ycsb cfg splitField inputs data blank epochs fits).History σ hist) :
    valuesAfter σ hist () =
      serialStore ycsb splitField inputs data epochs fits (σ ()) hist.length := by
  induction hh with
  | nil => rfl
  | @epoch hist W _ hW ih =>
    obtain ⟨-, res, hout, rfl⟩ := hW
    have hplain := ycsb_outcome_plain hi hout
    rw [ih] at hplain
    have hres := fun i hlt => hplain.unique serialResults_outcome i hlt
    funext u
    have hleft := plainAt_eq_lastWritten hplain u
    rw [plainAt_congr hres] at hleft
    change (lastWritten _ res u).getD (valuesAfter σ hist () u) = _
    rw [congrFun ih u]
    exact hleft.symm

theorem ycsb_determined (σ : Values Unit V) :
    (ycsbProgram ycsb cfg splitField inputs data blank epochs fits).Determined σ := by
  intro hist W W' hh hh'
  cases hh with
  | epoch _ hW =>
    cases hh' with
    | epoch _ hW' =>
      obtain ⟨-, res, hout, rfl⟩ := hW
      obtain ⟨-, res', hout', rfl⟩ := hW'
      funext t
      exact lastWritten_congr fun i hlt => hout.unique hout' i hlt

/-! ### Its executor -/

variable {start : Unit → Hybrid V} {loaded : Unit → ℕ → Rec V} {b : Bool}
  {s : Machine YcsbCursor YcsbLog YcsbEntry Unit V} {hist : List (Writes Unit V)}

theorem reach_scatters {P : Program YcsbCursor YcsbLog YcsbEntry Unit V} (hr : P.Reach start b s hist)
    (k : ℕ) : P.Reach start b
      { s with tables := fun _ => Hybrid.scatterNext^[k] (s.tables ()) } hist := by
  induction k with
  | zero => exact hr
  | succ k ih =>
    rw [Function.iterate_succ_apply']
    refine Eq.mp (congrArg (fun x => P.Reach start b { s with tables := x } hist) ?_) (ih.scatter ())
    funext t
    simp

/-- Every interleaving of the executor's loads and stores and of the worker's stores, from a staged
    epoch to the last operation, is some stores of the worker and an execution of the program. -/
theorem ycsb_interleaving (hi : InputsOk ycsb cfg splitField inputs)
    (hclean : ∀ t u, (loaded t u).version1 = 0 ∧ (loaded t u).version2 = 0)
    (hstart : ∀ t, (start t).Started cfg (loaded t)) (hwarm : ∀ t, (start t).Warm cfg)
    (hzero : ∀ t g, ((start t).records g).TagsBelow 1)
    (hr : (ycsbProgram ycsb cfg splitField inputs data blank epochs fits).Reach start b s hist)
    {e : ℕ} {count : YcsbLog → ℕ} {logs : ∀ l, List (YcsbEntry l)} (hph : s.phase = .staged logs)
    (hproc : s.sys.proc = some ⟨e, count, .mirror []⟩)
    (hindexed : (indexedEpoch ycsb inputs e logs).isSome) {versions : ℕ → ℕ × V}
    (hver : ∀ n, (versions n).1 < e) {plan : ExecPlan} {acts : List (Act V)} {r : Running V}
    (hrun : Running.run (cachedEpoch cfg (s.tables ()) (opsOf ycsb splitField inputs e logs)
      (locOf (opsOf ycsb splitField inputs e logs) plan) e) (.start (s.tables ()) versions) acts = some r)
    (hall : ∀ i < (opsOf ycsb splitField inputs e logs).length, ∃ x, r.state.phase i = .done x)
    (hdata : ∀ i o, (opsOf ycsb splitField inputs e logs)[i]? = some o → o.isWrite = true →
      written r.state.phase i =
        some (data e i fun j => if j < i then written r.state.phase j else none)) :
    (ycsbProgram ycsb cfg splitField inputs data blank epochs fits).Reach start b
      ⟨s.sys, fun _ => r.finish, .executed⟩
      ((fun _ => lastValue (opsOf ycsb splitField inputs e logs) r.state.phase) :: hist) := by
  have hP : (ycsbProgram ycsb cfg splitField inputs data blank epochs fits).WellFormed :=
    ycsbProgram_wellFormed hi
  have hok := reach_ok hP hclean hstart hwarm hr
  obtain ⟨p, hp, -, -, hpos⟩ := hok.proc
  obtain rfl := Option.some.inj (hproc.symm.trans hp)
  rw [hph] at hpos
  obtain ⟨rfl, rfl⟩ := hpos
  have hw := hok.tables ()
  rw [hph] at hw
  have hrecords := reach_records hP hclean hstart hwarm hzero hr ()
  obtain ⟨hb, stale, h₁, hs⟩ := id hw
  obtain ⟨⟨idx, out⟩, hidx⟩ := Option.isSome_iff_exists.mp hindexed
  have hidx' : indexedEpoch ycsb inputs (hist.length + 1)
    ((ycsbWorkload ycsb inputs epochs fits).logs hist.length) = some (idx, out) := hidx
  obtain ⟨hops, -⟩ := ycsb_epoch hi hist.length hidx'
  have hon : OnCache cfg (s.tables ()) (opsOf ycsb splitField inputs (hist.length + 1)
      ((ycsbWorkload ycsb inputs epochs fits).logs hist.length)) := by
    refine ⟨(reachable_mapped hs.reachable).1, fun o ho => ?_⟩
    obtain ⟨i, hget⟩ := List.mem_iff_getElem?.mp ho
    refine ⟨?_, hs.resident o.record (ycsb_op_needed hi hget) (ycsb_op_ne hi hget)⟩
    rw [opsOf_some hidx'] at ho
    exact (hops.op o ho).2
  have hbatch : Batch (opsOf ycsb splitField inputs (hist.length + 1)
      ((ycsbWorkload ycsb inputs epochs fits).logs hist.length)) := by
    rw [opsOf_some hidx']
    exact hops.batch
  have hx := Execution.executing hon hs.unmarked (Located.remap hon.inj (located hbatch plan))
    (memoryOf_tags hrecords hver) hrun
  obtain ⟨k, es, hperf, hfinish⟩ := hx.performs hs.unmarked hall hrun
  have hstaleRead : ∀ i o, (opsOf ycsb splitField inputs (hist.length + 1)
      ((ycsbWorkload ycsb inputs epochs fits).logs hist.length))[i]? = some o → o.isWrite = false →
      (s.tables ()).cache.cridToGrid o.record ∈ stale → ∃ j < i, writesAt (opsOf ycsb splitField inputs
        (hist.length + 1) ((ycsbWorkload ycsb inputs epochs fits).logs hist.length)) o.record j = true := by
    intro i o hget hread hst
    obtain ⟨-, -, hres, -⟩ := hon.slot (List.mem_of_getElem? hget)
    obtain ⟨-, -, hcreated⟩ := hs.stale _ hst
    rw [hres] at hcreated
    exact ycsb_write_before_read hi hget hread hcreated
  have hout : Outcome (data (hist.length + 1)) (opsOf ycsb splitField inputs (hist.length + 1)
      ((ycsbWorkload ycsb inputs epochs fits).logs hist.length))
      (fun u => ((ycsbProgram ycsb cfg splitField inputs data blank epochs fits).visible
        (hist.length + 1) ((ycsbWorkload ycsb inputs epochs fits).logs hist.length)
        (s.slotValues (ycsbProgram ycsb cfg splitField inputs data blank epochs fits) (hist.length + 1))
        () u).getD blank) (written r.state.phase) := by
    refine (hx.outcome hs.cached hall hstaleRead hdata).congr_store fun i o hget hread => ?_
    by_cases hcreated : o.record ∈ (ycsbProgram ycsb cfg splitField inputs data blank epochs
        fits).created (hist.length + 1) ((ycsbWorkload ycsb inputs epochs fits).logs hist.length) ()
    · exact Or.inr (ycsb_write_before_read hi hget hread hcreated)
    · refine Or.inl ?_
      have hvisible := Working.visible hw hP (ycsb_op_ne hi hget) (ycsb_op_needed hi hget) hcreated
      rw [Program.visible, if_pos ⟨ycsb_op_ne hi hget, ycsb_op_needed hi hget, hcreated⟩, Option.getD_some,
        Machine.slotValues]
      exact (hb.value o.record).trans hvisible.symm
  -- the worker's stores, and then the writes
  have hr' := reach_scatters hr k
  have hframe : (Hybrid.scatterNext^[k] (s.tables ())).cache = (s.tables ()).cache ∧
      (Hybrid.scatterNext^[k] (s.tables ())).records = (s.tables ()).records := by
    clear hfinish hr'
    induction k with
    | zero => exact ⟨rfl, rfl⟩
    | succ k ih =>
      rw [Function.iterate_succ_apply']
      obtain ⟨hc, hrec, -⟩ := scatterNext_frame (Hybrid.scatterNext^[k] (s.tables ()))
      exact ⟨hc.trans ih.1, hrec.trans ih.2⟩
  have hslots : Machine.slotValues (ycsbProgram ycsb cfg splitField inputs data blank epochs fits)
      { s with tables := fun _ => Hybrid.scatterNext^[k] (s.tables ()) } (hist.length + 1) =
      s.slotValues (ycsbProgram ycsb cfg splitField inputs data blank epochs fits) (hist.length + 1) := by
    funext t u
    simp only [Machine.slotValues, hframe]
  rw [← hslots] at hout
  rw [hfinish]
  exact hr'.execute hph hproc ⟨hindexed, _, hout, rfl⟩ fun _ => hperf

end

/-- Key 9 is inserted twice and read in epoch 1, and counted up in the epochs after it. -/
def countInputs (e : ℕ) : List Slot := if e = 1 then insertTwice else [⟨.readModifyWrite, 9, 0⟩]

/-- Each write adds one to the result of the operation before it. -/
def countData (_ i : ℕ) (prev : ℕ → Option ℕ) : ℕ := (prev (i - 1)).getD 0 + 1

def countProgram : Program YcsbCursor YcsbLog YcsbEntry Unit ℕ :=
  ycsbProgram noDeletes oneSlot false countInputs countData 0 3 (by decide)

theorem countInputs_ok : InputsOk noDeletes oneSlot false countInputs where
  toStagerFor := oneSlot_stager
  epochs e := by
    rw [countInputs]
    split <;> exact ⟨by decide, by decide, by decide⟩
  fields e := by
    rw [countInputs]
    split <;> decide
  count e := by
    rw [countInputs]
    split <;> decide

def countStart : Unit → Hybrid ℕ := fun _ => (zeroStore noDeletes oneSlot).hybrid

theorem countStart_started (t : Unit) : (countStart t).Started oneSlot fun _ => ⟨0, 0, 0, 0⟩ :=
  ⟨_, Or.inl rfl⟩

theorem countStart_warm (t : Unit) : (countStart t).Warm oneSlot := fun _ _ hne => absurd rfl hne

theorem count_ready : ∃ sys, countProgram.Reach countStart false ⟨sys, countStart, .ready⟩ [] := by
  obtain ⟨sys, hs⟩ : ∃ sys, sysStep countProgram.scheme countProgram.work (System.init blankLogs) .start =
      some sys := ⟨_, rfl⟩
  exact ⟨sys, .create blankLogs hs⟩

/-- The second INSERT and the READ come first, and then the first INSERT. -/
theorem ycsb_interleaving_insertTwice : ∃ sys h W,
    countProgram.Reach countStart false ⟨sys, fun _ => h, .executed⟩ [W] ∧ W () 4 = some 2 := by
  obtain ⟨sys₀, hr₀⟩ := count_ready
  have hP : countProgram.WellFormed := ycsbProgram_wellFormed countInputs_ok
  obtain ⟨sys, count, hr₁, hproc⟩ := reach_indexed hP (fun _ _ => ⟨rfl, rfl⟩) countStart_started
    countStart_warm hr₀ rfl (by decide)
  have hops : opsOf noDeletes false countInputs 1 (countProgram.work.logs 0) = insertTwiceOps := by
    decide +kernel
  obtain ⟨p, hp, hf, r, hrun, hph⟩ : ∃ p, prepareEpoch oneSlot ⟨[4], [], []⟩ [4, 4, 4] [4, 4, kNoRecord]
      (countStart ()).cache = .ok p ∧ p.fetched = [] ∧
      ∃ r, Running.run (cachedEpoch oneSlot ((countStart ()).admitAt 1 p []) insertTwiceOps
          (locOf insertTwiceOps fun _ => 0) 1)
        (.start ((countStart ()).admitAt 1 p []) fun _ => (0, 0))
        (List.replicate 4 (.op 1 2) ++ List.replicate 3 (.op 2 0) ++ List.replicate 3 (.op 0 1)) = some r ∧
      (List.range 3).map r.state.phase = [.done (some 1), .done (some 2), .done (some 2)] := by
    refine ⟨_, rfl, by decide +kernel, ?_⟩
    refine Option.map_eq_some_iff.mp (?_ : Option.map (fun r : Running ℕ =>
      (List.range 3).map r.state.phase) _ = _)
    decide +kernel
  simp only [List.range, List.range.loop, List.map_cons, List.map_nil, List.cons.injEq, and_true] at hph
  obtain ⟨h0, h1, h2⟩ := hph
  have hst : ∀ t, (countStart t).Stages (countProgram.cfg t) 1
      (countProgram.deleted 1 (countProgram.work.logs 0) t)
      (countProgram.needed 1 (countProgram.work.logs 0) t)
      (countProgram.created 1 (countProgram.work.logs 0) t) ((countStart ()).admitAt 1 p []) := by
    rintro ⟨⟩
    have hneeded : countProgram.needed 1 (countProgram.work.logs 0) () = [4, 4, 4] := by decide +kernel
    have hcreated : countProgram.created 1 (countProgram.work.logs 0) () = [4, 4, kNoRecord] := by
      decide +kernel
    have hdeleted : countProgram.deleted 1 (countProgram.work.logs 0) () = [] := by decide +kernel
    rw [hneeded, hcreated, hdeleted]
    have hcomplete : (⟨[4], [], []⟩ : Schedule).Complete oneSlot [4, 4, 4] (countStart ()).cache :=
      ⟨by decide, fun hlt => absurd hlt (by decide)⟩
    exact ⟨_, p, [], hcomplete, hp, by rw [hf]; exact List.Perm.refl _, rfl⟩
  have hr₂ := hr₁.stage rfl hproc hst
  have hcases : ∀ {i : ℕ} {o : Op}, insertTwiceOps[i]? = some o →
      i = 0 ∨ i = 1 ∨ (i = 2 ∧ o = ⟨4, 0, false, 42⟩) := by
    intro i o hget
    have hlt : i < 3 := (List.getElem?_eq_some_iff.mp hget).1
    obtain rfl | rfl | rfl : i = 0 ∨ i = 1 ∨ i = 2 := by omega
    · exact Or.inl rfl
    · exact Or.inr (Or.inl rfl)
    · exact Or.inr (Or.inr ⟨rfl, (Option.some.inj hget).symm⟩)
  have hdone : ∀ i < insertTwiceOps.length, ∃ x, r.state.phase i = .done x := by
    intro i hi
    obtain rfl | rfl | ⟨rfl, -⟩ := hcases (List.getElem?_eq_getElem hi)
    exacts [⟨_, h0⟩, ⟨_, h1⟩, ⟨_, h2⟩]
  have hdata : ∀ i o, insertTwiceOps[i]? = some o → o.isWrite = true → written r.state.phase i =
      some (countData 1 i fun j => if j < i then written r.state.phase j else none) := by
    intro i o hget hw
    obtain rfl | rfl | ⟨rfl, rfl⟩ := hcases hget
    · simp [written, h0, Phase.result, countData]
    · simp [written, h0, h1, Phase.result, countData]
    · cases hw
  have hr₃ := ycsb_interleaving countInputs_ok (fun _ _ => ⟨rfl, rfl⟩) countStart_started
    countStart_warm (fun _ _ => ⟨Nat.one_pos, Nat.one_pos⟩) hr₂ rfl hproc (by decide +kernel)
    (fun _ => Nat.one_pos) (hops.symm ▸ hrun) (hops.symm ▸ hdone) (hops.symm ▸ hdata)
  refine ⟨sys, r.finish, _, hr₃, ?_⟩
  have hlw : lastWriteBefore insertTwiceOps 4 3 = some 1 := by decide +kernel
  have hval : lastValue insertTwiceOps r.state.phase 4 = some 2 := by
    change (lastWriteBefore insertTwiceOps 4 3).bind _ = _
    rw [hlw, Option.bind_some, h1]
    rfl
  exact (congrArg (fun ops => lastValue ops r.state.phase 4) hops).trans hval

section
variable {V : Type} {ycsb : Config} {cfg : Stager.Config} {splitField : Bool} {inputs : ℕ → List Slot}
  {data : ℕ → ℕ → (ℕ → Option V) → V} {blank : V} {epochs : ℕ} {fits : epochs + 1 < 2 ^ 32}
  {start : Unit → Hybrid V} {loaded : Unit → ℕ → Rec V}

/-! ### Its runs, with a crash and without -/

/-- Epochs that the index takes and whose records fit the cache can be run. -/
theorem ycsbProgram_runs (hi : InputsOk ycsb cfg splitField inputs)
    (hindexed : ∀ e < epochs, (indexedEpoch ycsb inputs (e + 1)
      ((ycsbWorkload ycsb inputs epochs fits).logs e)).isSome)
    (hfits : ∀ e < epochs, (buildNeeded ((opsOf ycsb splitField inputs (e + 1)
      ((ycsbWorkload ycsb inputs epochs fits).logs e)).map Op.record)).length ≤ cfg.capacity)
    (hne : ∀ e < epochs, opsOf ycsb splitField inputs (e + 1)
      ((ycsbWorkload ycsb inputs epochs fits).logs e) ≠ []) :
    (ycsbProgram ycsb cfg splitField inputs data blank epochs fits).Runs where
  fits e he t := (ycsb_needed hi e t).symm ▸ hfits e he
  some e he _ := Or.inl fun h => hne e he (List.map_eq_nil_iff.mp h)
  outcome e he ρ := by
    have hout := @serialResults_outcome V (data (e + 1)) (opsOf ycsb splitField inputs (e + 1)
      ((ycsbWorkload ycsb inputs epochs fits).logs e)) fun u => (ρ () u).getD blank
    obtain ⟨ws, hp⟩ := exists_performs ((opsOf ycsb splitField inputs (e + 1)
      ((ycsbWorkload ycsb inputs epochs fits).logs e)).map Op.record) fun _ _ hu => mem_of_lastWritten hu
    exact ⟨_, fun _ => _, ⟨hindexed e he, _, hout, rfl⟩, fun _ => hp⟩

/-- A crash at any point of a YCSB run, under any marker `E`: the rollback gives the rows the values of
    the serial execution of the first `E - 2` epochs. And each process, the one that has recovered like
    the one before it, has the values of the serial execution at the start of every epoch that it
    comes to. -/
theorem ycsb_crash_serial (hi : InputsOk ycsb cfg splitField inputs)
    (hclean : ∀ t u, (loaded t u).version1 = 0 ∧ (loaded t u).version2 = 0)
    (hstart : ∀ t, (start t).Started cfg (loaded t)) (hwarm : ∀ t, (start t).Warm cfg) :
    (∀ s hist, (ycsbProgram ycsb cfg splitField inputs data blank epochs fits).Reach start false s hist →
      ∀ e bank, s.sys.marker.file.read = some (e, bank) → ∀ u,
        ((ycsbProgram ycsb cfg splitField inputs data blank epochs fits).recoverStore
          s.sys.marker.file () (s.tables ()).store u).latest =
        serialStore ycsb splitField inputs data epochs fits (fun u => (loaded () u).latest) (e - 2) u) ∧
    ∀ b s hist n, (ycsbProgram ycsb cfg splitField inputs data blank epochs fits).Reach start b s hist →
      s.phase = .ready → s.sys.proc.map Proc.epoch = some (n + 1) → ∀ u,
        s.landedValues () u =
          serialStore ycsb splitField inputs data epochs fits (fun u => (loaded () u).latest) n u := by
  have hP : (ycsbProgram ycsb cfg splitField inputs data blank epochs fits).WellFormed :=
    ycsbProgram_wellFormed hi
  refine ⟨fun s hist hr e bank hread u => ?_, fun b s hist n hr hready hepoch u => ?_⟩
  · have hok := reach_ok hP hclean hstart hwarm hr
    obtain ⟨h2, newer, older, hsplit, hlen, hrolled⟩ := machineOk_published hP hok hread
    have hh := hok.history
    rw [hsplit] at hh
    rw [Program.recoverStore, hread]
    simp only [if_neg (Nat.not_lt.mpr h2)]
    rw [(hrolled ()).2.value u, ycsb_valuesAfter hi hh.suffix, hlen]
    rfl
  · have hok := reach_ok hP hclean hstart hwarm hr
    have hn := (machineOk_ready hok hready).symm.trans hepoch
    have ht := hok.tables ()
    rw [hready] at ht
    have hv : s.landedValues () u = _ := ht.based.value u
    rw [hv, ycsb_valuesAfter hi hok.history, Nat.succ.inj (Option.some.inj hn)]
    rfl

end

/-- A crash after the third marker: key 9 is back at its value of the end of epoch 2, one more than
    after its two INSERTs. -/
theorem ycsb_crash_serial_count : ∃ s hist bank, countProgram.Reach countStart false s hist ∧
    s.sys.marker.file.read = some (4, bank) ∧
    (countProgram.recoverStore s.sys.marker.file () (s.tables ()).store 4).latest = 3 := by
  obtain ⟨sys, hr₀⟩ := count_ready
  have hP : countProgram.WellFormed := ycsbProgram_wellFormed countInputs_ok
  have hruns : countProgram.Runs := ycsbProgram_runs countInputs_ok (by decide +kernel) (by decide +kernel)
    (by decide +kernel)
  obtain ⟨s, hist, hr, hready, hlen⟩ := reach_epochs hP hruns (fun _ _ => ⟨rfl, rfl⟩) countStart_started
    countStart_warm hr₀ rfl 3 (by decide)
  have hlen : hist.length = 3 := hlen
  have hok := reach_ok hP (fun _ _ => ⟨rfl, rfl⟩) countStart_started countStart_warm hr
  obtain ⟨bank, hread⟩ := machineOk_marker hok hready (by omega)
  rw [hlen] at hread
  refine ⟨s, hist, bank, hr, hread, ((ycsb_crash_serial countInputs_ok (fun _ _ => ⟨rfl, rfl⟩)
    countStart_started countStart_warm).1 s hist hr 4 bank hread 4).trans ?_⟩
  decide +kernel

end Egad.Ycsb
