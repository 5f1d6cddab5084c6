import Egad.Lib.Blocks
import Egad.Tpcc.Pieces
import Mathlib.Algebra.BigOperators.Ring.List

/-! # The submission of a TPC-C epoch (`benchmarks/tpcc_gpu_submitter.cu`)

    The kernel `prepareSubmitTpccTxn` counts, table by table, the operations of every transaction;
    `submitTpccTxn` writes them from the transaction's prefix sum on. The arrays they are written to
    have a fixed number of entries for each transaction of the epoch (`initGpuPlannersAndSubmitter`):

                        W   D   C   H   N   O   L        I   S
        NewOrder        1   2   1   -   1   1   n        n   2n        n ≤ 15
        Payment         2   2   2   -   -   -   -        -   -
        OrderStatus     -   -   1   -   -   1   n        -   -         n ≤ 15
        Delivery        -   -  20   -  10  20   2Σnᵢ     -   -         ten districts, nᵢ ≤ 15
        StockLevel      -   -   -   -   -   -   -        -   n         n ≤ 300
        allocated       2   2  20   1  10  20  30       15  30

    Two columns have entries above their allocation: a Delivery can submit 300 operations on order
    lines, a StockLevel 300 on stock. -/

namespace Egad.Tpcc
open Egad.Lib Egad.Planner

/-- The tables with a planner. -/
inductive PlannedTable where
  | records (t : TableName)
  | history
deriving DecidableEq, Repr

/-- `prepareSubmitTpccTxn`. -/
def prepareSubmitTpccTxn : ExecParams → PlannedTable → ℕ
  | .newOrder _ _ _ _ _ items, .records t =>
    match t with
    | .warehouse => 1
    | .district => 2
    | .customer => 1
    | .order => 1
    | .newOrder => 1
    | .orderLine => items.length
    | .item => items.length
    | .stock => items.length * 2
  | .payment .., .records t =>
    match t with
    | .warehouse => 2
    | .district => 2
    | .customer => 2
    | _ => 0
  | .orderStatus _ _ lines, .records t =>
    match t with
    | .customer => 1
    | .order => 1
    | .orderLine => lines.length
    | _ => 0
  | .delivery ds, .records t =>
    match t with
    | .customer => 20
    | .order => 20
    | .newOrder => 10
    | .orderLine => (ds.map fun d => d.orderlineIds.length).sum * 2
    | _ => 0
  | .stockLevel ss, .records t =>
    match t with
    | .stock => ss.length
    | _ => 0
  | _, .history => 0

/-- What `submitTpccTxn` writes for a table. -/
def submitOps (txnId : ℕ) (p : ExecParams) : PlannedTable → List Op
  | .records t => submitTpccTxn txnId p t
  | .history => []

/-- `max_ops_per_txn` of a table's planner. -/
def maxOpsPerTxn : PlannedTable → ℕ
  | .records .warehouse => 2
  | .records .district => 2
  | .records .customer => 20
  | .history => 1
  | .records .newOrder => 10
  | .records .order => 20
  | .records .orderLine => 30
  | .records .item => 15
  | .records .stock => 15 * 2

/-- `max_num_ops`. -/
def maxNumOps (numTxns : ℕ) (t : PlannedTable) : ℕ := numTxns * maxOpsPerTxn t

/-- `d_num_ops`. -/
def numOps (params : List ExecParams) (t : PlannedTable) : List ℕ :=
  params.map fun p => prepareSubmitTpccTxn p t

/-- `curr_num_ops`. -/
def currNumOps (params : List ExecParams) (t : PlannedTable) : ℕ := (numOps params t).sum

/-- The writes of the submit kernel to `d_submitted_ops`. -/
def submitWrites (params : List ExecParams) (t : PlannedTable) : List (ℕ × ℕ) :=
  scatterBlocks (numOps params t)
    (params.zipIdx.map fun x => (submitOps x.2 x.1 t).map Op.encode)

/-- Parameters as the kernels receive them: a Delivery has its ten districts. -/
def ExecParams.Complete (p : ExecParams) : Prop :=
  p.Ok ∧ ∀ ds, p = .delivery ds → ds.length = 10

/-- The order lines of the NewOrders, OrderStatuses and Deliveries of an epoch, and the stock rows
    of its StockLevels. -/
def newOrderItems (params : List ExecParams) : ℕ :=
  (params.map fun p => match p with
    | .newOrder _ _ _ _ _ items => items.length
    | _ => 0).sum
def orderStatusLines (params : List ExecParams) : ℕ :=
  (params.map fun p => match p with
    | .orderStatus _ _ lines => lines.length
    | _ => 0).sum
def deliveryLines (params : List ExecParams) : ℕ :=
  (params.map fun p => match p with
    | .delivery ds => (ds.map fun d => d.orderlineIds.length).sum
    | _ => 0).sum
def stockLevelItems (params : List ExecParams) : ℕ :=
  (params.map fun p => match p with
    | .stockLevel ss => ss.length
    | _ => 0).sum

/-! ### The two kernels agree -/

theorem length_submitOrderLines (txnId : ℕ) (ds : List DeliveryParam) :
    (submitOrderLines txnId (ExecParams.delivery ds).growing).length =
      (ds.map fun d => d.orderlineIds.length).sum * 2 := by
  have hline : ∀ x : List ℕ × ℕ, (x.1.zipIdx.flatMap fun y =>
      [(⟨y.1, txnId, false, deliveryReadLoc x.2 y.2⟩ : Op),
        ⟨y.1, txnId, true, deliveryWriteLoc x.2 y.2⟩]).length = x.1.length * 2 := by
    intro x
    simp [List.length_flatMap]
  have hfst := congrArg (fun l => (l.map fun x : List ℕ => x.length * 2).sum)
    (List.zipIdx_map_fst 0 (ds.map DeliveryParam.orderlineIds))
  simp only [List.map_map, Function.comp_def] at hfst
  simp only [submitOrderLines, ExecParams.growing]
  rw [List.length_flatMap, List.map_congr_left fun x _ => hline x, hfst, List.sum_map_mul_right]

theorem length_submitOps (txnId : ℕ) {p : ExecParams} (hp : p.Complete) (t : PlannedTable) :
    (submitOps txnId p t).length = prepareSubmitTpccTxn p t := by
  cases t with
  | history => cases p <;> rfl
  | records t =>
    cases p with
    | newOrder w d c n o items =>
      cases t <;> simp [submitOps, submitTpccTxn, prepareSubmitTpccTxn, submitOrderLines,
        ExecParams.growing, List.length_flatMap]
    | payment w d c => cases t <;> rfl
    | orderStatus c o lines =>
      cases t <;> simp [submitOps, submitTpccTxn, prepareSubmitTpccTxn, submitOrderLines,
        ExecParams.growing]
    | delivery ds =>
      have hlen := hp.2 ds rfl
      cases t
      case orderLine => exact length_submitOrderLines txnId ds
      all_goals simp [submitOps, submitTpccTxn, prepareSubmitTpccTxn, List.length_flatMap, hlen]
    | stockLevel ss =>
      cases t <;> simp [submitOps, submitTpccTxn, prepareSubmitTpccTxn, submitOrderLines,
        ExecParams.growing]

section
variable {params : List ExecParams} (hcomplete : ∀ p ∈ params, p.Complete)
include hcomplete

theorem numOps_eq (t : PlannedTable) : numOps params t =
    (params.zipIdx.map fun x => (submitOps x.2 x.1 t).map Op.encode).map List.length := by
  rw [numOps, List.map_map]
  conv_lhs => rw [← List.zipIdx_map_fst 0 params, List.map_map]
  refine List.map_congr_left fun x hx => ?_
  rw [Function.comp_apply, Function.comp_apply, List.length_map,
    length_submitOps x.2 (hcomplete x.1 (zipIdx_lt hx).1)]

/-- The writes of the epoch are those of one block: the transactions' regions stand one behind the
    other. -/
theorem submitWrites_eq (t : PlannedTable) : submitWrites params t =
    blockWrites 0 (params.zipIdx.flatMap fun x => (submitOps x.2 x.1 t).map Op.encode) := by
  rw [submitWrites, scatterBlocks_exact (numOps_eq hcomplete t), List.flatMap_def]

theorem submitWrites_nodup (t : PlannedTable) : ((submitWrites params t).map Prod.fst).Nodup := by
  rw [submitWrites_eq hcomplete t, blockWrites_fst]
  exact List.nodup_range'

end

/-! ### Totals -/

theorem prepareSubmit_le {p : ExecParams} (hp : p.Complete) {t : PlannedTable}
    (hline : t ≠ .records .orderLine) (hstock : t ≠ .records .stock) :
    prepareSubmitTpccTxn p t ≤ maxOpsPerTxn t := by
  cases t with
  | history => cases p <;> exact Nat.zero_le _
  | records t =>
    cases p with
    | newOrder w d c n o items =>
      have hlen : items.length ≤ 15 := hp.1.2.1
      cases t <;> simp_all [prepareSubmitTpccTxn, maxOpsPerTxn]
    | payment w d c => cases t <;> simp [prepareSubmitTpccTxn, maxOpsPerTxn]
    | orderStatus c o lines => cases t <;> simp_all [prepareSubmitTpccTxn, maxOpsPerTxn]
    | delivery ds => cases t <;> simp_all [prepareSubmitTpccTxn, maxOpsPerTxn]
    | stockLevel ss => cases t <;> simp_all [prepareSubmitTpccTxn, maxOpsPerTxn]

/-- Seven of the nine tables have an allocation that no transaction exceeds. -/
theorem currNumOps_le {params : List ExecParams} {numTxns : ℕ} (hlen : params.length ≤ numTxns)
    (hcomplete : ∀ p ∈ params, p.Complete) {t : PlannedTable}
    (hline : t ≠ .records .orderLine) (hstock : t ≠ .records .stock) :
    currNumOps params t ≤ maxNumOps numTxns t := by
  have hle := List.sum_le_card_nsmul (numOps params t) (maxOpsPerTxn t) (by
    intro c hc
    obtain ⟨p, hp, rfl⟩ := List.mem_map.mp hc
    exact prepareSubmit_le (hcomplete p hp) hline hstock)
  rw [nsmul_eq_mul, Nat.cast_id, ← currNumOps, numOps, List.length_map] at hle
  exact hle.trans (Nat.mul_le_mul_right _ hlen)

theorem currNumOps_orderLine (params : List ExecParams) :
    currNumOps params (.records .orderLine) =
      newOrderItems params + orderStatusLines params + 2 * deliveryLines params := by
  induction params with
  | nil => rfl
  | cons p params ih =>
    simp only [currNumOps, numOps, newOrderItems, orderStatusLines, deliveryLines, List.map_cons,
      List.sum_cons] at ih ⊢
    rw [ih]
    cases p <;> simp only [prepareSubmitTpccTxn] <;> omega

theorem currNumOps_stock (params : List ExecParams) :
    currNumOps params (.records .stock) = 2 * newOrderItems params + stockLevelItems params := by
  induction params with
  | nil => rfl
  | cons p params ih =>
    simp only [currNumOps, numOps, newOrderItems, stockLevelItems, List.map_cons,
      List.sum_cons] at ih ⊢
    rw [ih]
    cases p <;> simp only [prepareSubmitTpccTxn] <;> omega

/-- Counts are exact and regions disjoint in every epoch. Its operations fit the arrays of all
    tables exactly when the order lines it touches (a Delivery touches each of its lines twice) and
    the stock rows it touches (a NewOrder touches each of its rows twice) are at most 30 for each
    transaction the arrays were allocated for. -/
theorem tpcc_submission_fits {params : List ExecParams} {numTxns : ℕ}
    (hlen : params.length ≤ numTxns) (hcomplete : ∀ p ∈ params, p.Complete) :
    ((∀ x ∈ params.zipIdx, ∀ t, prepareSubmitTpccTxn x.1 t = (submitOps x.2 x.1 t).length) ∧
      (∀ t, ((submitWrites params t).map Prod.fst).Nodup) ∧
      ∀ t, currNumOps params t ≤ maxNumOps numTxns t) ↔
    newOrderItems params + orderStatusLines params + 2 * deliveryLines params ≤ 30 * numTxns ∧
      2 * newOrderItems params + stockLevelItems params ≤ 30 * numTxns := by
  have hexact : ∀ x ∈ params.zipIdx, ∀ t,
      prepareSubmitTpccTxn x.1 t = (submitOps x.2 x.1 t).length :=
    fun x hx t => (length_submitOps x.2 (hcomplete x.1 (zipIdx_lt hx).1) t).symm
  have hlines : maxNumOps numTxns (.records .orderLine) = 30 * numTxns := Nat.mul_comm _ _
  have hstocks : maxNumOps numTxns (.records .stock) = 30 * numTxns := Nat.mul_comm _ _
  constructor
  · rintro ⟨-, -, hfits⟩
    have hline := hfits (.records .orderLine)
    have hstock := hfits (.records .stock)
    rw [currNumOps_orderLine, hlines] at hline
    rw [currNumOps_stock, hstocks] at hstock
    exact ⟨hline, hstock⟩
  · rintro ⟨hline, hstock⟩
    refine ⟨hexact, submitWrites_nodup hcomplete, fun t => ?_⟩
    by_cases htl : t = .records .orderLine
    · rw [htl, currNumOps_orderLine, hlines]
      exact hline
    by_cases hts : t = .records .stock
    · rw [hts, currNumOps_stock, hstocks]
      exact hstock
    exact currNumOps_le hlen hcomplete htl hts

/-- A Delivery of ten districts with the same number of order lines in each. -/
def deliveryOf (linesPerDistrict : ℕ) : ExecParams :=
  .delivery ((List.range 10).map fun i =>
    ⟨i, i, i, (List.range linesPerDistrict).map fun j => 15 * i + j⟩)

theorem deliveryOf_complete {linesPerDistrict : ℕ} (h : linesPerDistrict ≤ 15) :
    (deliveryOf linesPerDistrict).Complete := by
  refine ⟨⟨by simp, ?_⟩, ?_⟩
  · intro x hx
    obtain ⟨i, hi, rfl⟩ := List.mem_map.mp hx
    have hi := List.mem_range.mp hi
    refine ⟨?_, by simpa using h, ?_⟩
    · simp only [List.mem_cons, List.not_mem_nil, or_false, or_self, forall_eq]
      omega
    · intro r hr
      obtain ⟨j, hj, rfl⟩ := List.mem_map.mp hr
      have hj := List.mem_range.mp hj
      omega
  · rintro ds ⟨⟩
    simp

/-- A Delivery of orders with ten lines among seven transactions that touch few rows. -/
theorem tpcc_submission_fits_delivery :
    currNumOps (deliveryOf 10 :: List.replicate 6 (.payment 0 0 0)) (.records .orderLine) ≤
      maxNumOps 7 (.records .orderLine) :=
  ((tpcc_submission_fits (by decide) (by
    intro p hp
    rcases List.mem_cons.mp hp with rfl | hp
    · exact deliveryOf_complete (by decide)
    · rw [List.eq_of_mem_replicate hp]
      exact ⟨by simp [ExecParams.Ok], by simp⟩)).mpr ⟨by decide, by decide⟩).2.2 _

/-- An epoch of one Delivery of loaded orders, which have fifteen lines each, submits 300 operations
    to arrays of 30. -/
theorem tpcc_submission_overflows : (deliveryOf 15).Complete ∧
    ¬ currNumOps [deliveryOf 15] (.records .orderLine) ≤ maxNumOps 1 (.records .orderLine) :=
  ⟨deliveryOf_complete (by decide), by decide⟩

end Egad.Tpcc
