import Egad.Tpcc.Delivery
import Egad.Tpcc.Executors
import Egad.Tpcc.Pieces
import Egad.Execution.WarpPrograms
import Mathlib.Tactic.IntervalCases

/-! # The TPC-C transactions as warp programs (`benchmarks/tpcc_hybrid_executor.cu`)

    Every `gpuExecTpccTxn` is a list of cooperative accesses with changes of single lanes between
    them. Its accesses are the ones the epoch was planned for, and on tables that nobody else
    touches it is the transaction as it runs alone:

        program     read W │ lane 1 += amount │ write W │ read D │ …
        accesses    read W                      write W   read D   …    gpuExecTpccTxn
        words      ──────────────────────────────────────────────────▶  gpuPayment -/

namespace Egad.Tpcc.Exec
open Egad.Lib Egad.Planner Egad.Execution

/-! ### Records as words -/

def TableValue : TableName → Type
  | .warehouse => WarehouseValue
  | .district => DistrictValue
  | .customer => CustomerValue
  | .newOrder => NewOrderValue
  | .order => OrderValue
  | .orderLine => OrderLineValue
  | .item => ItemValue
  | .stock => StockValue

def layoutOf : (t : TableName) → Layout (TableValue t) Word
  | .warehouse => warehouseLayout
  | .district => districtLayout
  | .customer => customerLayout
  | .newOrder => newOrderLayout
  | .order => orderLayout
  | .orderLine => orderLineLayout
  | .item => itemLayout
  | .stock => stockLayout

def Tables.table (T : Tables) : (t : TableName) → Table (TableValue t)
  | .warehouse => T.warehouse
  | .district => T.district
  | .customer => T.customer
  | .newOrder => T.newOrder
  | .order => T.order
  | .orderLine => T.orderLine
  | .item => T.item
  | .stock => T.stock

def Tables.withTable (T : Tables) : (t : TableName) → Table (TableValue t) → Tables
  | .warehouse, x => { T with warehouse := x }
  | .district, x => { T with district := x }
  | .customer, x => { T with customer := x }
  | .newOrder, x => { T with newOrder := x }
  | .order, x => { T with order := x }
  | .orderLine, x => { T with orderLine := x }
  | .item, x => { T with item := x }
  | .stock, x => { T with stock := x }

/-- The words of all records. -/
def Tables.words (T : Tables) (t : TableName) (r : ℕ) : Lanes := (layoutOf t).lanes ((T.table t).rows r)

/-! ### Programs -/

/-- The registers of a warp's lanes. -/
structure Registers where
  result : Lanes
  amount : Lanes
  numLowStock : Lanes

/-- The lanes behind a record read zero and write nothing. -/
def tpccCoop : Coop TableName Lanes Registers where
  load t v R := { R with result := fun lane => if lane < (layoutOf t).size then v lane else 0 }
  store t R := fun lane => if lane < (layoutOf t).size then R.result lane else 0

/-- `OrderStatusTxnParams`; `num_items` is the length of `orderlineIds`. -/
structure OrderStatusTxnParams where
  customerId : ℕ
  orderId : ℕ
  orderlineIds : List ℕ

/-- `StockLevelTxnParams`; `num_items` is the length of `stockIds`. -/
structure StockLevelTxnParams where
  threshold : Word
  stockIds : List ℕ

inductive HybridTxn where
  | newOrder (p : NewOrderTxnParams)
  | payment (p : PaymentTxnParams)
  | orderStatus (p : OrderStatusTxnParams)
  | delivery (p : DeliveryTxnParams)
  | stockLevel (p : StockLevelTxnParams)

section
variable (txnId : ℕ)

def readRecord (t : TableName) (record offset : ℕ) : Instr TableName Registers :=
  .access (t, readOp txnId record offset)

def writeRecord (t : TableName) (record offset : ℕ) : Instr TableName Registers :=
  .access (t, writeOp txnId record offset)

def onResult (f : Lanes → Lanes) : Instr TableName Registers :=
  .compute fun R => { R with result := f R.result }

/-- One item of a NewOrder. -/
def itemInstrs (x : ItemParams × ℕ) : List (Instr TableName Registers) :=
  [readRecord txnId .item x.1.itemId (6 + 4 * x.2), readRecord txnId .stock x.1.stockId (7 + 4 * x.2),
    onResult fun result => setLane sQuantityOffset
      (gpuQuantity (result sQuantityOffset) x.1.orderQuantities) result,
    writeRecord txnId .stock x.1.stockId (8 + 4 * x.2),
    onResult (setLane olIIdOffset x.1.iId), onResult (setLane olAmountOffset x.1.orderQuantities),
    onResult (setLane olSupplyWIdOffset x.1.supplyWId),
    onResult (setLane olQuantityOffset x.1.orderQuantities),
    writeRecord txnId .orderLine x.1.orderLineId (newOrderLineLoc x.2)]

def newOrderInstrs (p : NewOrderTxnParams) : List (Instr TableName Registers) :=
  [readRecord txnId .warehouse p.warehouseId 0, readRecord txnId .district p.districtId 1,
    onResult (setLane dNextOIdOffset p.nextOrderId), writeRecord txnId .district p.districtId 2,
    readRecord txnId .customer p.customerId 3, onResult (setLane oCIdOffset p.cId),
    onResult (setLane oOlCntOffset p.numItems), writeRecord txnId .order p.orderId 5,
    writeRecord txnId .newOrder p.newOrderId 4] ++
  p.items.zipIdx.flatMap (itemInstrs txnId)

def paymentInstrs (p : PaymentTxnParams) : List (Instr TableName Registers) :=
  [readRecord txnId .warehouse p.warehouseId 0, onResult (addLane wYtdOffset p.paymentAmount),
    writeRecord txnId .warehouse p.warehouseId 1,
    readRecord txnId .district p.districtId 2, onResult (addLane dYtdOffset p.paymentAmount),
    writeRecord txnId .district p.districtId 3,
    readRecord txnId .customer p.customerId 4, onResult (addLane cBalanceOffset (-p.paymentAmount)),
    onResult (addLane cYtdPaymentOffset p.paymentAmount), onResult (addLane cPaymentCntOffset 1),
    writeRecord txnId .customer p.customerId 5]

def orderStatusInstrs (p : OrderStatusTxnParams) : List (Instr TableName Registers) :=
  [readRecord txnId .customer p.customerId 0, readRecord txnId .order p.orderId 1] ++
  p.orderlineIds.zipIdx.map fun x => readRecord txnId .orderLine x.1 (orderStatusLineLoc x.2)

/-- One order line of a Delivery. -/
def deliverLineInstrs (deliveryD : Word) (i : ℕ) (y : ℕ × ℕ) : List (Instr TableName Registers) :=
  [readRecord txnId .orderLine y.1 (deliveryReadLoc i y.2),
    .compute fun R => { R with amount := addLane olAmountOffset (R.result olAmountOffset) R.amount },
    onResult (setLane olDeliveryDOffset deliveryD),
    writeRecord txnId .orderLine y.1 (deliveryWriteLoc i y.2)]

/-- One district of a Delivery; no register takes the value of the shuffle. -/
def deliverSlotInstrs (p : DeliveryTxnParams) (x : DeliverySlot × ℕ) :
    List (Instr TableName Registers) :=
  [readRecord txnId .newOrder x.1.newOrderId x.2, readRecord txnId .order x.1.orderId (10 + x.2),
    onResult (setLane oCarrierIdOffset p.carrierId), writeRecord txnId .order x.1.orderId (20 + x.2),
    .compute fun R => { R with amount := fun _ => 0 }] ++
  x.1.orderlineIds.zipIdx.flatMap (deliverLineInstrs txnId p.deliveryD x.2) ++
  [readRecord txnId .customer x.1.customerId (30 + x.2),
    .compute fun R => { R with result := addLane cBalanceOffset (R.amount cBalanceOffset) R.result },
    onResult (addLane cDeliveryCntOffset 1),
    writeRecord txnId .customer x.1.customerId (40 + x.2)]

def deliveryInstrs (p : DeliveryTxnParams) : List (Instr TableName Registers) :=
  (List.ofFn p.slots).zipIdx.flatMap (deliverSlotInstrs txnId p)

/-- One stock record of a StockLevel. -/
def lowStockInstrs (threshold : Word) (x : ℕ × ℕ) : List (Instr TableName Registers) :=
  [readRecord txnId .stock x.1 x.2,
    .compute fun R => if R.result sQuantityOffset < threshold then
      { R with numLowStock := addLane sQuantityOffset 1 R.numLowStock } else R]

def stockLevelInstrs (p : StockLevelTxnParams) : List (Instr TableName Registers) :=
  p.stockIds.zipIdx.flatMap (lowStockInstrs txnId p.threshold)

/-- `gpuExecTpccTxn`; `junk` is what the registers hold before. A NewOrder clears `result`, a
    StockLevel `num_low_stock`. -/
def HybridTxn.program (junk : Registers) : HybridTxn → WarpProgram TableName Registers
  | .newOrder p => ⟨{ junk with result := fun _ => 0 }, newOrderInstrs txnId p⟩
  | .payment p => ⟨junk, paymentInstrs txnId p⟩
  | .orderStatus p => ⟨junk, orderStatusInstrs txnId p⟩
  | .delivery p => ⟨junk, deliveryInstrs txnId p⟩
  | .stockLevel p => ⟨{ junk with numLowStock := fun _ => 0 }, stockLevelInstrs txnId p⟩

end

/-- The warps of an epoch. -/
def tpccPrograms (junk : ℕ → Registers) (txns : List HybridTxn) : List (WarpProgram TableName Registers) :=
  txns.zipIdx.map fun x => x.1.program x.2 (junk x.2)

/-! ### A transaction alone -/

/-- `num_low_stock` of a StockLevel that runs alone. -/
def gpuStockLevel (p : StockLevelTxnParams) (junk : Lanes) (t : Tables) : Lanes × Word :=
  p.stockIds.foldl (fun s id =>
    let result := gpuReadFromTableCoop stockLayout t.stock id s.1
    (result, if result sQuantityOffset < p.threshold then s.2 + 1 else s.2)) (junk, 0)

/-- The tables after a transaction that runs alone. -/
def HybridTxn.gpu (junk : Registers) (t : Tables) : HybridTxn → Tables
  | .newOrder p => gpuNewOrder p t
  | .payment p => gpuPayment p junk.result t
  | .orderStatus _ => t
  | .delivery p => (gpuDelivery p ⟨t, none, junk.result, junk.amount⟩).tables
  | .stockLevel _ => t

/-- The transactions of an epoch one after the other. -/
def serialTables (junk : ℕ → Registers) (txns : List HybridTxn) (t : Tables) : Tables :=
  txns.zipIdx.foldl (fun t x => x.1.gpu (junk x.2) t) t

/-! ### The accesses are the planned ones -/

/-- The record ids of a transaction. -/
def HybridTxn.execParams : HybridTxn → ExecParams
  | .newOrder p => .newOrder p.warehouseId p.districtId p.customerId p.newOrderId p.orderId
      (p.items.map fun x => ⟨x.itemId, x.stockId, x.orderLineId⟩)
  | .payment p => .payment p.warehouseId p.districtId p.customerId
  | .orderStatus p => .orderStatus p.customerId p.orderId p.orderlineIds
  | .delivery p => .delivery
      ((List.ofFn p.slots).map fun d => ⟨d.newOrderId, d.orderId, d.customerId, d.orderlineIds⟩)
  | .stockLevel p => .stockLevel p.stockIds

theorem accessesOf_flatMap {α T R : Type} (f : α → List (Instr T R)) (l : List α) :
    accessesOf (l.flatMap f) = l.flatMap fun x => accessesOf (f x) := by
  induction l with
  | nil => rfl
  | cons x l ih => rw [List.flatMap_cons, List.flatMap_cons, accessesOf_append, ih]

theorem accessesOf_program (txnId : ℕ) (junk : Registers) (tx : HybridTxn) :
    accessesOf (tx.program txnId junk).instrs = gpuExecTpccTxn txnId tx.execParams := by
  cases tx with
  | newOrder p =>
    show accessesOf (newOrderInstrs txnId p) = _
    rw [newOrderInstrs, accessesOf_append, accessesOf_flatMap, HybridTxn.execParams, gpuExecTpccTxn,
      List.zipIdx_map, List.flatMap_map]
    rfl
  | payment p => rfl
  | orderStatus p =>
    show accessesOf (orderStatusInstrs txnId p) = _
    rw [orderStatusInstrs, List.map_eq_flatMap, accessesOf_append, accessesOf_flatMap,
      HybridTxn.execParams, gpuExecTpccTxn, List.map_eq_flatMap]
    rfl
  | delivery p =>
    show accessesOf (deliveryInstrs txnId p) = _
    rw [deliveryInstrs, accessesOf_flatMap, HybridTxn.execParams, gpuExecTpccTxn, List.zipIdx_map,
      List.flatMap_map]
    refine List.flatMap_congr fun x _ => ?_
    rw [deliverSlotInstrs, accessesOf_append, accessesOf_append, accessesOf_flatMap]
    rfl
  | stockLevel p =>
    show accessesOf (stockLevelInstrs txnId p) = _
    rw [stockLevelInstrs, accessesOf_flatMap, HybridTxn.execParams, gpuExecTpccTxn,
      List.map_eq_flatMap]
    rfl

/-! ### A program on tables that nobody else touches -/

theorem Address.word_ofWords (f : ℕ → Word) {i : ℕ} (hi : i < 22) : (ofWords f).word i = f i := by
  simp only [word, ofWords]
  split_ifs <;> first | rfl | omega | (congr 1; omega)

theorem wordBefore_ofWords (f : ℕ → Word) {i : ℕ} (hi : i < 25) :
    wordBefore (f 0) (f 1) (f 2) (Address.ofWords fun j => f (j + 3)) i = f i := by
  match i, hi with
  | 0, _ => rfl
  | 1, _ => rfl
  | 2, _ => rfl
  | i + 3, hi => exact Address.word_ofWords (fun j => f (j + 3)) (by omega)

/-- The words of a value are the lanes it was made of. -/
theorem word_ofWords (t : TableName) (f : Lanes) {lane : ℕ} (h : lane < (layoutOf t).size) :
    (layoutOf t).word ((layoutOf t).ofWords f) lane = f lane := by
  cases t with
  | warehouse => exact wordBefore_ofWords f h
  | district => exact wordBefore_ofWords f h
  | item =>
    have h : lane < 21 := h
    simp only [layoutOf, itemLayout]
    split_ifs <;> first | rfl | (congr 1; omega)
  | customer =>
    have h : lane < 7 := h
    interval_cases lane <;> rfl
  | stock =>
    have h : lane < 4 := h
    interval_cases lane <;> rfl
  | newOrder =>
    have h : lane < 1 := h
    interval_cases lane
    rfl
  | _ =>
    have h : lane < 5 := h
    interval_cases lane <;> rfl

theorem lanes_ofWords (t : TableName) (f : Lanes) : (layoutOf t).lanes ((layoutOf t).ofWords f) =
    fun lane => if lane < (layoutOf t).size then f lane else 0 := by
  funext lane
  rw [Layout.lanes]
  split_ifs with hlane
  · exact word_ofWords t f hlane
  · rfl

section
variable (T : Tables) (R : Registers) (t : TableName) (txnId r offset : ℕ)

theorem withTable_table_self (x : Table (TableValue t)) : (T.withTable t x).table t = x := by
  cases t <;> rfl

theorem withTable_table_of_ne {t' : TableName} (h : t' ≠ t) (x : Table (TableValue t)) :
    (T.withTable t x).table t' = T.table t' := by
  cases t <;> cases t' <;> first | rfl | exact absurd rfl h

theorem withTable_table : T.withTable t (T.table t) = T := by
  cases t <;> rfl

theorem exec_readRecord : Instr.exec tpccCoop (T.words, R) (readRecord txnId t r offset) =
    (T.words, { R with result := gpuReadFromTableCoop (layoutOf t) (T.table t) r R.result }) := by
  by_cases hr : r = kNoRecord
  · rw [readRecord, Instr.exec_skip hr, hr, show kNoRecord = Stager.absent from rfl, gpuRead_absent]
  · rw [readRecord, Instr.exec_read hr rfl, gpuRead_of_ne hr]
    have hlanes : (fun lane => if lane < (layoutOf t).size then T.words t r lane else 0) = T.words t r := by
      funext lane
      rw [Tables.words, Layout.lanes]
      split_ifs <;> rfl
    exact congrArg (fun f => (T.words, { R with result := f })) hlanes

theorem exec_writeRecord : Instr.exec tpccCoop (T.words, R) (writeRecord txnId t r offset) =
    ((T.withTable t (gpuWriteToTableCoop (layoutOf t) (T.table t) r R.result)).words, R) := by
  by_cases hr : r = kNoRecord
  · rw [writeRecord, Instr.exec_skip hr, hr, show kNoRecord = Stager.absent from rfl, gpuWrite_absent,
      withTable_table]
  · rw [writeRecord, Instr.exec_write hr rfl, gpuWrite_of_ne hr]
    refine Prod.ext (funext fun t' => ?_) rfl
    dsimp only [writeOp]
    by_cases ht : t' = t
    · subst ht
      rw [Function.update_self]
      funext r'
      unfold Tables.words
      rw [withTable_table_self, Table.write]
      dsimp only
      by_cases hr' : r' = r
      · rw [hr', Function.update_self, Function.update_self, lanes_ofWords]
        rfl
      · rw [Function.update_of_ne hr', Function.update_of_ne hr']
    · rw [Function.update_of_ne ht]
      unfold Tables.words
      rw [withTable_table_of_ne T t ht]

theorem exec_onResult (s : (TableName → ℕ → Lanes) × Registers) (f : Lanes → Lanes) :
    Instr.exec tpccCoop s (onResult f) = (s.1, { s.2 with result := f s.2.result }) := rfl

end

/-! ### The transactions -/

section
variable {txnId : ℕ}

theorem exec_items (items : List ItemParams) (k : ℕ) (T : Tables) (R : Registers) :
    ((items.zipIdx k).flatMap (itemInstrs txnId)).foldl (Instr.exec tpccCoop) (T.words, R) =
      ((items.foldl gpuLine (T, R.result)).1.words,
        { R with result := (items.foldl gpuLine (T, R.result)).2 }) := by
  induction items generalizing k T R with
  | nil => rfl
  | cons x items ih =>
    rw [List.zipIdx_cons, List.flatMap_cons, List.foldl_append, List.foldl_cons]
    have hitem : (itemInstrs txnId (x, k)).foldl (Instr.exec tpccCoop) (T.words, R) =
        ((gpuLine (T, R.result) x).1.words, { R with result := (gpuLine (T, R.result) x).2 }) := by
      simp only [itemInstrs, List.foldl_cons, List.foldl_nil, exec_readRecord, exec_writeRecord,
        exec_onResult]
      rfl
    rw [hitem, ih]

theorem exec_newOrder (p : NewOrderTxnParams) (T : Tables) (junk : Registers) :
    (runProgram tpccCoop T.words ((HybridTxn.newOrder p).program txnId junk)).1 =
      (gpuNewOrder p T).words := by
  rw [runProgram, HybridTxn.program, newOrderInstrs, List.foldl_append]
  simp only [List.foldl_cons, List.foldl_nil, exec_readRecord, exec_writeRecord, exec_onResult, exec_items]
  rfl

theorem exec_payment (p : PaymentTxnParams) (T : Tables) (junk : Registers) :
    (runProgram tpccCoop T.words ((HybridTxn.payment p).program txnId junk)).1 =
      (gpuPayment p junk.result T).words := by
  simp only [runProgram, HybridTxn.program, paymentInstrs, List.foldl_cons, List.foldl_nil,
    exec_readRecord, exec_writeRecord, exec_onResult]
  rfl

/-- A warp in a Delivery and the registers it has. -/
def Warp.registers (w : Warp) (R : Registers) : Registers :=
  { R with result := w.result, amount := w.amount }

theorem exec_deliverLines (ids : List ℕ) (deliveryD : Word) (i k : ℕ) (w : Warp) (R : Registers) :
    ((ids.zipIdx k).flatMap (deliverLineInstrs txnId deliveryD i)).foldl (Instr.exec tpccCoop)
        (w.tables.words, w.registers R) =
      ((ids.foldl (gpuDeliverLine deliveryD) w).tables.words,
        (ids.foldl (gpuDeliverLine deliveryD) w).registers R) := by
  induction ids generalizing k w with
  | nil => rfl
  | cons id ids ih =>
    rw [List.zipIdx_cons, List.flatMap_cons, List.foldl_append, List.foldl_cons, ← ih]
    congr 1
    simp only [deliverLineInstrs, List.foldl_cons, List.foldl_nil, exec_readRecord, exec_writeRecord,
      exec_onResult, Instr.exec_compute]
    rfl

theorem exec_deliverSlot (p : DeliveryTxnParams) (d : DeliverySlot) (k : ℕ) (w : Warp) (R : Registers) :
    (deliverSlotInstrs txnId p (d, k)).foldl (Instr.exec tpccCoop) (w.tables.words, w.registers R) =
      ((gpuDeliverSlot p.carrierId p.deliveryD w d).tables.words,
        (gpuDeliverSlot p.carrierId p.deliveryD w d).registers R) := by
  have horder : ([readRecord txnId .newOrder d.newOrderId k, readRecord txnId .order d.orderId (10 + k),
      onResult (setLane oCarrierIdOffset p.carrierId), writeRecord txnId .order d.orderId (20 + k),
      .compute fun R => { R with amount := fun _ => 0 }] : List (Instr TableName Registers)).foldl
        (Instr.exec tpccCoop) (w.tables.words, w.registers R) =
      ((gpuDeliverOrder p.carrierId w d).tables.words, (gpuDeliverOrder p.carrierId w d).registers R) := by
    simp only [List.foldl_cons, List.foldl_nil, exec_readRecord, exec_writeRecord, exec_onResult,
      Instr.exec_compute]
    rfl
  rw [deliverSlotInstrs, List.foldl_append, List.foldl_append, horder, exec_deliverLines, gpuDeliverSlot]
  simp only [List.foldl_cons, List.foldl_nil, exec_readRecord, exec_writeRecord, exec_onResult,
    Instr.exec_compute]
  rfl

theorem exec_delivery (p : DeliveryTxnParams) (T : Tables) (junk : Registers) :
    (runProgram tpccCoop T.words ((HybridTxn.delivery p).program txnId junk)).1 =
      (gpuDelivery p ⟨T, none, junk.result, junk.amount⟩).tables.words := by
  have hslots : ∀ (ds : List DeliverySlot) (k : ℕ) (w : Warp),
      ((ds.zipIdx k).flatMap (deliverSlotInstrs txnId p)).foldl (Instr.exec tpccCoop)
          (w.tables.words, w.registers junk) =
        ((ds.foldl (gpuDeliverSlot p.carrierId p.deliveryD) w).tables.words,
          (ds.foldl (gpuDeliverSlot p.carrierId p.deliveryD) w).registers junk) := by
    intro ds
    induction ds with
    | nil => exact fun _ _ => rfl
    | cons d ds ih =>
      intro k w
      rw [List.zipIdx_cons, List.flatMap_cons, List.foldl_append, exec_deliverSlot, ih]
      rfl
  exact congrArg Prod.fst (hslots (List.ofFn p.slots) 0 ⟨T, none, junk.result, junk.amount⟩)

theorem exec_stockLevel (p : StockLevelTxnParams) (T : Tables) (txnId : ℕ) (junk : Registers) :
    (runProgram tpccCoop T.words ((HybridTxn.stockLevel p).program txnId junk)).2.numLowStock
      sQuantityOffset = (gpuStockLevel p junk.result T).2 := by
  have hids : ∀ (ids : List ℕ) (k : ℕ) (R : Registers),
      ((((ids.zipIdx k).flatMap (lowStockInstrs txnId p.threshold)).foldl (Instr.exec tpccCoop)
        (T.words, R)).2.result, (((ids.zipIdx k).flatMap (lowStockInstrs txnId p.threshold)).foldl
          (Instr.exec tpccCoop) (T.words, R)).2.numLowStock sQuantityOffset) =
      ids.foldl (fun s id =>
        let result := gpuReadFromTableCoop stockLayout T.stock id s.1
        (result, if result sQuantityOffset < p.threshold then s.2 + 1 else s.2))
          (R.result, R.numLowStock sQuantityOffset) := by
    intro ids
    induction ids with
    | nil => exact fun _ _ => rfl
    | cons id ids ih =>
      intro k R
      rw [List.zipIdx_cons, List.flatMap_cons, List.foldl_append, List.foldl_cons]
      by_cases hlow : gpuReadFromTableCoop stockLayout T.stock id R.result sQuantityOffset < p.threshold
      · have hstep : (lowStockInstrs txnId p.threshold (id, k)).foldl (Instr.exec tpccCoop) (T.words, R) =
            (T.words, { R with
              result := gpuReadFromTableCoop stockLayout T.stock id R.result
              numLowStock := addLane sQuantityOffset 1 R.numLowStock }) := by
          simp only [lowStockInstrs, List.foldl_cons, List.foldl_nil, exec_readRecord, Instr.exec_compute]
          exact congrArg (Prod.mk T.words) (if_pos hlow)
        rw [hstep, ih]
        dsimp only
        rw [if_pos hlow, addLane, Function.update_self]
      · have hstep : (lowStockInstrs txnId p.threshold (id, k)).foldl (Instr.exec tpccCoop) (T.words, R) =
            (T.words, { R with result := gpuReadFromTableCoop stockLayout T.stock id R.result }) := by
          simp only [lowStockInstrs, List.foldl_cons, List.foldl_nil, exec_readRecord, Instr.exec_compute]
          exact congrArg (Prod.mk T.words) (if_neg hlow)
        rw [hstep, ih]
        dsimp only
        rw [if_neg hlow]
  exact congrArg Prod.snd (hids p.stockIds 0 { junk with numLowStock := fun _ => 0 })

/-- A program that only reads leaves the tables. -/
theorem exec_reads {l : List (Instr TableName Registers)} (h : ∀ a ∈ accessesOf l, a.2.isWrite = false)
    (rows : TableName → ℕ → Lanes) (R : Registers) :
    (l.foldl (Instr.exec tpccCoop) (rows, R)).1 = rows := by
  induction l generalizing R with
  | nil => rfl
  | cons x l ih =>
    cases x with
    | compute f => exact ih h (f R)
    | access a =>
      have hrest : ∀ b ∈ accessesOf l, b.2.isWrite = false := fun b hb => h b (List.mem_cons_of_mem _ hb)
      rw [List.foldl_cons]
      by_cases hr : a.2.record = kNoRecord
      · rw [Instr.exec_skip hr]
        exact ih hrest R
      · rw [Instr.exec_read hr (h a List.mem_cons_self)]
        exact ih hrest _

/-- A transaction's program on the words of tables is the transaction alone. -/
theorem exec_program_words (tx : HybridTxn) (T : Tables) (junk : Registers) :
    (runProgram tpccCoop T.words (tx.program txnId junk)).1 = (tx.gpu junk T).words := by
  cases tx with
  | newOrder p => exact exec_newOrder p T junk
  | payment p => exact exec_payment p T junk
  | delivery p => exact exec_delivery p T junk
  | orderStatus p =>
    refine exec_reads (fun a ha => ?_) _ _
    rw [accessesOf_program] at ha
    rcases List.mem_append.mp ha with ha | ha
    · rcases List.mem_pair.mp ha with rfl | rfl <;> rfl
    · obtain ⟨x, -, rfl⟩ := List.mem_map.mp ha
      rfl
  | stockLevel p =>
    refine exec_reads (fun a ha => ?_) _ _
    rw [accessesOf_program] at ha
    obtain ⟨x, -, rfl⟩ := List.mem_map.mp ha
    rfl

/-- The programs of an epoch, one after the other. -/
theorem serialRows_tpcc (junk : ℕ → Registers) (txns : List HybridTxn) (T : Tables) :
    serialRows tpccCoop T.words (tpccPrograms junk txns) = (serialTables junk txns T).words := by
  rw [serialRows, tpccPrograms, List.foldl_map, serialTables]
  generalize txns.zipIdx = xs
  induction xs generalizing T with
  | nil => rfl
  | cons x xs ih => rw [List.foldl_cons, List.foldl_cons, exec_program_words, ih]

end

end Egad.Tpcc.Exec
