import Egad.Tpcc.WarpTxns
import Egad.Execution.StagedPrograms

/-! # TPC-C epochs on the hybrid executor

    The warps of an epoch run their transactions at the same time, on cache slots, through scratch
    versions and the two values of a record, and a Delivery writes its order lines to record B
    without asking the plan. Whatever they do in between, they leave the tables as one transaction
    after the other does:

        tables      T ──── serialTables ───▶ T'
                    │ grid, latest           │ grid, latest
        memory      m ──── any warpRun ────▶ m'           -/

namespace Egad.Tpcc.Exec
open Egad.Planner Egad.Execution

variable {txns : List HybridTxn}

def epochParams (txns : List HybridTxn) : List ExecParams := txns.map HybridTxn.execParams

/-- `num_low_stock` as a StockLevel stores it at its end. -/
def numLowStock (X : Executor TableName) (s : Sys TableName Lanes)
    (prog : WarpProgram TableName Registers) : Word :=
  (replay tpccCoop X s prog.register prog.instrs).numLowStock sQuantityOffset

theorem programPieces_tpcc (junk : ℕ → Registers) :
    programPieces (tpccPrograms junk txns) = tpccPieces (epochParams txns) := by
  rw [programPieces, tpccPrograms, tpccPieces, epochParams, List.map_map, List.zipIdx_map, List.map_map]
  refine List.map_congr_left fun x _ => ?_
  rw [Function.comp_apply, accessesOf_program]
  rfl

theorem tpccPrograms_take (junk : ℕ → Registers) (n : ℕ) :
    (tpccPrograms junk txns).take n = tpccPrograms junk (txns.take n) := by
  rw [tpccPrograms, tpccPrograms, ← List.map_take]
  congr 1
  refine List.ext_getElem? fun i => ?_
  rw [List.getElem?_take, List.getElem?_zipIdx, List.getElem?_zipIdx, List.getElem?_take]
  split <;> rfl

/-- The executor's locations are the plan's: every order line that a Delivery writes was planned to
    be written to record B. -/
theorem tpccExecutor_planned {params : List ExecParams} (hlen : params.length ≤ 2 ^ 20)
    (hok : ∀ p ∈ params, p.Ok) (hlast : DeliveryLast (params.map ExecParams.growing)) (plan : ExecPlan)
    (epoch numWarps : ℕ) (t : TableName) (o : Op) (ho : o ∈ submitTpccTxns params t)
    (hr : o.record ≠ kNoRecord) : (tpccExecutor params plan epoch numWarps).loc t o =
      planAll (submitTpccTxns params) TableName.all plan (o.txn, o.offset) := by
  have horder : ∀ t, submitTpccTxns params t = accessesTo (tpccPieces params) t :=
    fun t => (accessesTo_tpccPieces params t).symm
  have hb := accesses_batch hlen hok
  have hbatch : ∀ t, Batch (submitTpccTxns params t) := fun t => horder t ▸ Batch.accessesTo hb t
  have hlines := submitTpccTxns_orderLine params
  by_cases ht : t = .orderLine
  · subst ht
    have hplanned := (sound_of_last (hlines ▸ hbatch .orderLine) hlast plan).planned o (hlines ▸ ho) hr
    have hown := planAll_eq_locOf hbatch (fun hne o ho o' ho' => words_of_batch horder hb hne ho ho')
      (by decide : TableName.all.Nodup) (by decide : TableName.orderLine ∈ TableName.all) plan ho
    simp only [tpccExecutor, if_true]
    rw [execLoc] at hplanned ⊢
    split
    · next hd =>
      rw [if_pos hd, ← hlines] at hplanned
      exact hplanned.trans hown.symm
    · rfl
  · simp only [tpccExecutor, if_neg ht]

/-- The planned executor with the programs of its warps. -/
theorem tpccExecutor_runs {params : List ExecParams} (hb : ∀ t, Batch (submitTpccTxns params t))
    (hparams : params = epochParams txns) (junk : ℕ → Registers) (plan : ExecPlan) (epoch numWarps : ℕ) :
    Runs (tpccExecutor params plan epoch numWarps) (tpccPrograms junk txns) where
  pieces := by rw [programPieces_tpcc, ← hparams]; rfl
  matched :=
    { order := fun t => (accessesTo_tpccPieces params t).symm
      nodup := fun t => (hb t).nodup
      lanes := fun piece hpiece g hg => by
        obtain ⟨x, -, rfl⟩ := List.mem_map.mp hpiece
        obtain ⟨a, -, rfl⟩ := List.mem_map.mp hg
        exact Or.inl le_rfl }

/-- Every epoch of TPC-C that the index resolved and the stagers brought into the cache, whatever the
    order in which its warps make their accesses: they can always be brought to their end; when they
    are there, the slots of the epoch's records hold what the transactions leave in the records one
    after the other, every StockLevel has counted what it counts there, and no other slot has
    changed. -/
theorem interleaving_serial {cfg : Tpcc.Config} {out : EpochOut} {stager : TableName → Stager.Config}
    {grid : TableName → ℕ → ℕ} {plan : ExecPlan} {epoch numWarps : ℕ} {junk : ℕ → Registers}
    {m : TableName → Memory Lanes} {T : Tables} (hwh : cfg.numWarehouses < 2 ^ 8)
    (hidx : IndexedEpoch cfg out) (hparams : (epochParams txns).map ExecParams.growing = out.params)
    (hok : ∀ tx ∈ txns, tx.execParams.Ok)
    (hst : ∀ t, Staged (stager t) (submitTpccTxns (epochParams txns) t) (grid t))
    (hstart : ∀ t c, (m t).tag c < epoch) (hW : 0 < numWarps)
    (hm : ∀ t, ∀ o ∈ submitTpccTxns (epochParams txns) t, o.record ≠ kNoRecord →
      (m t).latest (grid t o.record) = T.words t o.record) {evs : List WarpEvent}
    {s : Sys TableName Lanes}
    (hrun : warpRun tpccCoop ((tpccExecutor (epochParams txns) plan epoch numWarps).remap grid)
      ((tpccPrograms junk txns).map (WarpProgram.remap grid)) (.start m) evs = some s) :
    (∃ more s', warpRun tpccCoop ((tpccExecutor (epochParams txns) plan epoch numWarps).remap grid)
        ((tpccPrograms junk txns).map (WarpProgram.remap grid)) (.start m) (evs ++ more) = some s' ∧
      returned ((tpccExecutor (epochParams txns) plan epoch numWarps).remap grid) s' = true) ∧
    (returned ((tpccExecutor (epochParams txns) plan epoch numWarps).remap grid) s = true →
      (∀ t, ∀ o ∈ submitTpccTxns (epochParams txns) t, o.record ≠ kNoRecord →
        (s.table t).mem.latest (grid t o.record) = (serialTables junk txns T).words t o.record) ∧
      (∀ tid p, txns[tid]? = some (.stockLevel p) →
        numLowStock ((tpccExecutor (epochParams txns) plan epoch numWarps).remap grid) s
            (((HybridTxn.stockLevel p).program tid (junk tid)).remap grid) =
          (gpuStockLevel p (junk tid).result (serialTables junk (txns.take tid) T)).2) ∧
      (∀ t g, g ≠ kNoRecord → (∀ o ∈ submitTpccTxns (epochParams txns) t, o.isWrite = true →
        grid t o.record ≠ g) → (s.table t).mem.latest g = (m t).latest g) ∧
      ∀ t c, (s.table t).mem.tag c < epoch + 1) := by
  obtain ⟨hlast, hlen⟩ := hidx.deliveryLast hwh
  rw [← hparams] at hlast hlen
  rw [List.length_map] at hlen
  have hoks : ∀ p ∈ epochParams txns, p.Ok := by
    intro p hp
    obtain ⟨tx, htx, rfl⟩ := List.mem_map.mp hp
    exact hok tx htx
  have hb := accesses_batch hlen hoks
  have hbatch : ∀ t, Batch (submitTpccTxns (epochParams txns) t) := fun t =>
    accessesTo_tpccPieces (epochParams txns) t ▸ Batch.accessesTo hb t
  have hr := tpccExecutor_runs hbatch rfl junk plan epoch numWarps
  have hslots : ∀ t, Slots (grid t) (submitTpccTxns (epochParams txns) t) := fun t => (hst t).slots (hbatch t)
  have hno := noDeadlock_tpcc hlen hoks hlast (fun t => (hslots t).toRemaps) plan hstart hW
  refine ⟨exists_returned (hr.remap hbatch) hno hrun, fun hret => ?_⟩
  have hloc := tpccExecutor_planned hlen hoks hlast plan epoch numWarps
  obtain ⟨hrows, hregs, hothers, htags⟩ := warpRun_staged hr hb (by decide : TableName.all.Nodup)
    (fun t => by cases t <;> decide) hloc hslots (fun _ _ => rfl) hstart hm hrun hret
  refine ⟨fun t o ho hne => ?_, fun tid p hp => ?_, hothers, htags⟩
  · exact (hrows t o ho hne).trans (congrFun (congrFun (serialRows_tpcc junk txns T) t) o.record)
  · have hprog : (tpccPrograms junk txns)[tid]? =
        some ((HybridTxn.stockLevel p).program tid (junk tid)) := by
      rw [tpccPrograms, List.getElem?_map, List.getElem?_zipIdx, hp, Nat.zero_add]
      rfl
    have hreg := hregs hprog
    rw [tpccPrograms_take, serialRows_tpcc] at hreg
    rw [numLowStock, ← exec_stockLevel p _ tid]
    exact congrArg (fun R : Registers => R.numLowStock sQuantityOffset) hreg

/-- Two payments of one customer, on tables of zeros. -/
def twoPaymentTxns : List HybridTxn := [.payment ⟨0, 0, 0, 5⟩, .payment ⟨0, 0, 0, 5⟩]

def noRegisters : Registers := ⟨fun _ => 0, fun _ => 0, fun _ => 0⟩

/-- Tables whose words are all zero. -/
def zeroTables : Tables where
  warehouse := ⟨fun _ => warehouseLayout.ofWords fun _ => 0, []⟩
  district := ⟨fun _ => districtLayout.ofWords fun _ => 0, []⟩
  customer := ⟨fun _ => customerLayout.ofWords fun _ => 0, []⟩
  newOrder := ⟨fun _ => newOrderLayout.ofWords fun _ => 0, []⟩
  order := ⟨fun _ => orderLayout.ofWords fun _ => 0, []⟩
  orderLine := ⟨fun _ => orderLineLayout.ofWords fun _ => 0, []⟩
  item := ⟨fun _ => itemLayout.ofWords fun _ => 0, []⟩
  stock := ⟨fun _ => stockLayout.ofWords fun _ => 0, []⟩

theorem zeroTables_words (t : TableName) (r : ℕ) : zeroTables.words t r = fun _ => 0 := by
  have hrows : (zeroTables.table t).rows r = (layoutOf t).ofWords fun _ => 0 := by cases t <;> rfl
  rw [Tables.words, hrows, lanes_ofWords]
  funext lane
  split_ifs <;> rfl

theorem interleaving_serial_two : ∃ grid schedule s,
    warpRun tpccCoop ((tpccExecutor (epochParams twoPaymentTxns) (fun _ => 0) 1 4).remap grid)
      ((tpccPrograms (fun _ => noRegisters) twoPaymentTxns).map (WarpProgram.remap grid))
      (.start fun _ => ⟨fun _ => 0, fun _ _ => 0⟩) schedule = some s ∧
    (s.table .warehouse).mem.latest (grid .warehouse 0) wYtdOffset = 10 := by
  have hstaged : ∀ t, ∃ g, Staged (smallCache true) (submitTpccTxns (epochParams twoPaymentTxns) t) g :=
    fun t => exists_staged (fun k hk => Or.inl (by cases t <;> revert k <;> decide))
      (by cases t <;> decide) (by cases t <;> decide)
  choose grid hgrid using hstaged
  obtain ⟨out, hidx, hparams⟩ := twoPayments_indexed
  have hok : ∀ tx ∈ twoPaymentTxns, tx.execParams.Ok := by
    simp [twoPaymentTxns, HybridTxn.execParams, ExecParams.Ok]
  have hm : ∀ t, ∀ o ∈ submitTpccTxns (epochParams twoPaymentTxns) t, o.record ≠ kNoRecord →
      (⟨fun _ => 0, fun _ _ => 0⟩ : Memory Lanes).latest (grid t o.record) = zeroTables.words t o.record :=
    fun t o _ _ => (zeroTables_words t o.record).symm
  have hepoch := fun {evs s} => @interleaving_serial twoPaymentTxns _ out _ grid (fun _ => 0) 1 4
    (fun _ => noRegisters) (fun _ => ⟨fun _ => 0, fun _ _ => 0⟩) zeroTables (by decide) hidx hparams hok
    hgrid (fun _ _ => Nat.one_pos) (by decide) hm evs s
  obtain ⟨schedule, s, hrun, hret⟩ := (hepoch (rfl : warpRun _ _ _ _ [] = _)).1
  refine ⟨grid, schedule, s, hrun, ?_⟩
  have hrows := ((hepoch hrun).2 hret).1 .warehouse (readOp 0 0 0) (by decide) (by decide)
  exact (congrFun hrows wYtdOffset).trans (by decide +kernel)

end Egad.Tpcc.Exec
