import Egad.Tpcc.Values

/-! # NewOrder and Payment on the GPU and on the CPU

    The hybrid executor runs a transaction on a warp whose lanes hold one word of the current value
    each, and one register is reused for every table; the CPU executor works on the fields of the
    structures. They write the same values but for one rule: a stock row with exactly ten more than
    the ordered quantity is restocked by the GPU (`>`) and not by the CPU (`>=`).

        s_quantity    …  q + 9    q + 10    q + 11  …
        GPU           restock    restock   subtract
        CPU           restock    subtract  subtract -/

namespace Egad.Tpcc.Exec
open Egad.Lib

structure ItemParams where
  itemId : ℕ
  stockId : ℕ
  orderLineId : ℕ
  orderQuantities : Word
  iId : Word
  supplyWId : Word

/-- `NewOrderTxnParams`; `num_items` is the length of `items`. -/
structure NewOrderTxnParams where
  warehouseId : ℕ
  districtId : ℕ
  customerId : ℕ
  newOrderId : ℕ
  orderId : ℕ
  nextOrderId : Word
  cId : Word
  allLocal : Word
  items : List ItemParams

def NewOrderTxnParams.numItems (p : NewOrderTxnParams) : Word := BitVec.ofNat 32 p.items.length

structure PaymentTxnParams where
  warehouseId : ℕ
  districtId : ℕ
  customerId : ℕ
  paymentAmount : Word

/-! ### The hybrid executor -/

/-- The restock rule of the GPU. -/
def gpuQuantity (s q : Word) : Word := if q + 10 < s then s - q else s + 91 - q

/-- One line of a NewOrder on the GPU. -/
def gpuLine (state : Tables × Lanes) (x : ItemParams) : Tables × Lanes :=
  let t := state.1
  let result := gpuReadFromTableCoop itemLayout t.item x.itemId state.2
  let result := gpuReadFromTableCoop stockLayout t.stock x.stockId result
  let result := setLane sQuantityOffset
    (gpuQuantity (result sQuantityOffset) x.orderQuantities) result
  let stock := gpuWriteToTableCoop stockLayout t.stock x.stockId result
  let result := setLane olIIdOffset x.iId result
  let result := setLane olAmountOffset x.orderQuantities result
  let result := setLane olSupplyWIdOffset x.supplyWId result
  let result := setLane olQuantityOffset x.orderQuantities result
  let orderLine := gpuWriteToTableCoop orderLineLayout t.orderLine x.orderLineId result
  ({ t with stock := stock, orderLine := orderLine }, result)

/-- `gpuExecTpccTxn` of a NewOrder. -/
def gpuNewOrder (p : NewOrderTxnParams) (t : Tables) : Tables :=
  let result : Lanes := fun _ => 0
  let result := gpuReadFromTableCoop warehouseLayout t.warehouse p.warehouseId result
  let result := gpuReadFromTableCoop districtLayout t.district p.districtId result
  let result := setLane dNextOIdOffset p.nextOrderId result
  let t := { t with district := gpuWriteToTableCoop districtLayout t.district p.districtId result }
  let result := gpuReadFromTableCoop customerLayout t.customer p.customerId result
  let result := setLane oCIdOffset p.cId result
  let result := setLane oOlCntOffset p.numItems result
  let t := { t with
    order := gpuWriteToTableCoop orderLayout t.order p.orderId result
    newOrder := gpuWriteToTableCoop newOrderLayout t.newOrder p.newOrderId result }
  (p.items.foldl gpuLine (t, result)).1

/-- `gpuExecTpccTxn` of a Payment; `junk` is what the register holds before the first read. -/
def gpuPayment (p : PaymentTxnParams) (junk : Lanes) (t : Tables) : Tables :=
  let result := gpuReadFromTableCoop warehouseLayout t.warehouse p.warehouseId junk
  let result := addLane wYtdOffset p.paymentAmount result
  let warehouse := gpuWriteToTableCoop warehouseLayout t.warehouse p.warehouseId result
  let result := gpuReadFromTableCoop districtLayout t.district p.districtId result
  let result := addLane dYtdOffset p.paymentAmount result
  let district := gpuWriteToTableCoop districtLayout t.district p.districtId result
  let result := gpuReadFromTableCoop customerLayout t.customer p.customerId result
  let result := addLane cBalanceOffset (-p.paymentAmount) result
  let result := addLane cYtdPaymentOffset p.paymentAmount result
  let result := addLane cPaymentCntOffset 1 result
  let customer := gpuWriteToTableCoop customerLayout t.customer p.customerId result
  { t with warehouse := warehouse, district := district, customer := customer }

/-! ### The CPU executor -/

/-- The restock rule of the CPU. -/
def cpuQuantity (s q : Word) : Word := if q + 10 ≤ s then s - q else s + 91 - q

/-- One line of a NewOrder on the CPU; `ol x` is the uninitialised order line of the iteration. -/
def cpuLine (ol : ItemParams → OrderLineValue) (t : Tables) (x : ItemParams) : Tables :=
  let orderLine := t.orderLine.write x.orderLineId { ol x with olAmount := x.orderQuantities }
  let s := t.stock.rows x.stockId
  let stock := t.stock.write x.stockId
    { s with sQuantity := cpuQuantity s.sQuantity x.orderQuantities }
  { t with orderLine := orderLine, stock := stock }

/-- `CpuExecutor::executeTxn` of a NewOrder; `o` and `ol` are the uninitialised locals. The price it
    adds up in floating point goes to no record. -/
def cpuNewOrder (p : NewOrderTxnParams) (epoch : Word) (o : OrderValue)
    (ol : ItemParams → OrderLineValue) (t : Tables) : Tables :=
  let d := t.district.rows p.districtId
  let t := { t with
    district := t.district.write p.districtId { d with dNextOId := p.nextOrderId }
    order := t.order.write p.orderId { o with oAllLocal := p.allLocal, oOlCnt := p.numItems }
    newOrder := t.newOrder.write p.newOrderId ⟨epoch⟩ }
  p.items.foldl (cpuLine ol) t

/-- `CpuExecutor::executeTxn` of a Payment. -/
def cpuPayment (p : PaymentTxnParams) (t : Tables) : Tables :=
  let w := t.warehouse.rows p.warehouseId
  let d := t.district.rows p.districtId
  let c := t.customer.rows p.customerId
  { t with
    warehouse := t.warehouse.write p.warehouseId { w with wYtd := w.wYtd + p.paymentAmount }
    district := t.district.write p.districtId { d with dYtd := d.dYtd + p.paymentAmount }
    customer := t.customer.write p.customerId { c with
      cBalance := c.cBalance - p.paymentAmount
      cYtdPayment := c.cYtdPayment + p.paymentAmount
      cPaymentCnt := c.cPaymentCnt + 1 } }

/-! ### Transactions -/

inductive Txn where
  | newOrder (p : NewOrderTxnParams)
  | payment (p : PaymentTxnParams)

/-- The index has resolved every record of the transaction. -/
def Txn.Resolved : Txn → Prop
  | .newOrder p => p.warehouseId ≠ Stager.absent ∧ p.districtId ≠ Stager.absent ∧
      p.customerId ≠ Stager.absent ∧ p.newOrderId ≠ Stager.absent ∧ p.orderId ≠ Stager.absent ∧
      ∀ x ∈ p.items, x.itemId ≠ Stager.absent ∧ x.stockId ≠ Stager.absent ∧
        x.orderLineId ≠ Stager.absent
  | .payment p => p.warehouseId ≠ Stager.absent ∧ p.districtId ≠ Stager.absent ∧
      p.customerId ≠ Stager.absent

/-- What is in memory the executors have not written: the registers of the warp and the locals of
    the CPU. -/
structure Junk where
  lanes : Lanes
  order : OrderValue
  orderLine : ItemParams → OrderLineValue

def Txn.gpu (junk : Junk) (t : Tables) : Txn → Tables
  | .newOrder p => gpuNewOrder p t
  | .payment p => gpuPayment p junk.lanes t

def Txn.cpu (epoch : Word) (junk : Junk) (t : Tables) : Txn → Tables
  | .newOrder p => cpuNewOrder p epoch junk.order junk.orderLine t
  | .payment p => cpuPayment p t

/-- The two executors wrote the same full values, the same line count in the order and the same
    amounts in the order lines, write by write. -/
structure Agree (g c : Tables) : Prop where
  warehouse : g.warehouse.log = c.warehouse.log
  district : g.district.log = c.district.log
  customer : g.customer.log = c.customer.log
  stock : g.stock.log = c.stock.log
  order : (g.order.log.map fun x => (x.1, x.2.oOlCnt)) = c.order.log.map fun x => (x.1, x.2.oOlCnt)
  orderLine : (g.orderLine.log.map fun x => (x.1, x.2.olAmount)) =
    c.orderLine.log.map fun x => (x.1, x.2.olAmount)

/-- No line finds its stock row at the threshold, where `quantity` is what the rows hold before the
    first of the lines. -/
def OffThreshold (quantity : ℕ → Word) : List ItemParams → Prop
  | [] => True
  | x :: xs => quantity x.stockId ≠ x.orderQuantities + 10 ∧
      OffThreshold (Function.update quantity x.stockId
        (cpuQuantity (quantity x.stockId) x.orderQuantities)) xs

def Txn.OffThreshold (t : Tables) : Txn → Prop
  | .newOrder p => Exec.OffThreshold (fun id => (t.stock.rows id).sQuantity) p.items
  | .payment _ => True

/-! ### The stock rows -/

/-- The values a rule writes to the stock rows of a list of lines. -/
def stockWrites (rule : Word → Word → Word) (rows : ℕ → StockValue) :
    List ItemParams → List (ℕ × StockValue)
  | [] => []
  | x :: xs =>
    let v := { rows x.stockId with
      sQuantity := rule (rows x.stockId).sQuantity x.orderQuantities }
    (x.stockId, v) :: stockWrites rule (Function.update rows x.stockId v) xs

/-- The rules differ at the threshold only. -/
theorem gpuQuantity_eq_iff (s q : Word) : gpuQuantity s q = cpuQuantity s q ↔ s ≠ q + 10 := by
  rw [gpuQuantity, cpuQuantity]
  split_ifs with hlt hle hle <;> constructor <;> intro h <;> bv_omega

theorem stockWrites_eq_iff (rows : ℕ → StockValue) (xs : List ItemParams) :
    stockWrites gpuQuantity rows xs = stockWrites cpuQuantity rows xs ↔
      OffThreshold (fun id => (rows id).sQuantity) xs := by
  induction xs generalizing rows with
  | nil => exact iff_of_true rfl trivial
  | cons x xs ih =>
    have hrows : ∀ v : StockValue, (fun id => (Function.update rows x.stockId v id).sQuantity) =
        Function.update (fun id => (rows id).sQuantity) x.stockId v.sQuantity := by
      intro v
      funext id
      rcases eq_or_ne id x.stockId with rfl | hne
      · rw [Function.update_self, Function.update_self]
      · rw [Function.update_of_ne hne, Function.update_of_ne hne]
    rw [stockWrites, stockWrites, OffThreshold, List.cons.injEq, Prod.mk.injEq,
      StockValue.mk.injEq, ← gpuQuantity_eq_iff]
    constructor
    · rintro ⟨⟨-, hq, -⟩, hxs⟩
      refine ⟨hq, ?_⟩
      rw [hq, ih, hrows] at hxs
      exact hxs
    · rintro ⟨hq, hxs⟩
      refine ⟨⟨rfl, hq, rfl, rfl, rfl⟩, ?_⟩
      rw [hq, ih, hrows]
      exact hxs

/-! ### The lines of a NewOrder -/

/-- One line under a restock rule. -/
structure LineStep (rule : Word → Word → Word) (t : Tables) (x : ItemParams) (t' : Tables) :
    Prop where
  warehouse : t'.warehouse = t.warehouse
  district : t'.district = t.district
  customer : t'.customer = t.customer
  order : t'.order = t.order
  stock : t'.stock = t.stock.write x.stockId { t.stock.rows x.stockId with
    sQuantity := rule (t.stock.rows x.stockId).sQuantity x.orderQuantities }
  orderLine : (t'.orderLine.log.map fun y => (y.1, y.2.olAmount)) =
    (t.orderLine.log.map fun y => (y.1, y.2.olAmount)) ++ [(x.orderLineId, x.orderQuantities)]

/-- All lines under a restock rule. -/
structure Lines (rule : Word → Word → Word) (t : Tables) (xs : List ItemParams) (t' : Tables) :
    Prop where
  warehouse : t'.warehouse = t.warehouse
  district : t'.district = t.district
  customer : t'.customer = t.customer
  order : t'.order = t.order
  stock : t'.stock.log = t.stock.log ++ stockWrites rule t.stock.rows xs
  orderLine : (t'.orderLine.log.map fun y => (y.1, y.2.olAmount)) =
    (t.orderLine.log.map fun y => (y.1, y.2.olAmount)) ++
      xs.map fun x => (x.orderLineId, x.orderQuantities)

section
variable {rule : Word → Word → Word} {t t₁ t₂ : Tables} {x : ItemParams} {xs : List ItemParams}

theorem Lines.nil : Lines rule t [] t :=
  ⟨rfl, rfl, rfl, rfl, (List.append_nil _).symm, (List.append_nil _).symm⟩

theorem LineStep.cons (h : LineStep rule t x t₁) (hs : Lines rule t₁ xs t₂) :
    Lines rule t (x :: xs) t₂ where
  warehouse := hs.warehouse.trans h.warehouse
  district := hs.district.trans h.district
  customer := hs.customer.trans h.customer
  order := hs.order.trans h.order
  stock := by
    rw [hs.stock, h.stock, stockWrites, Table.write, List.append_assoc]
    rfl
  orderLine := by
    rw [hs.orderLine, h.orderLine, List.append_assoc]
    rfl

theorem gpuLine_step (r : Lanes) (hs : x.stockId ≠ Stager.absent)
    (hl : x.orderLineId ≠ Stager.absent) : LineStep gpuQuantity t x (gpuLine (t, r) x).1 := by
  refine ⟨rfl, rfl, rfl, rfl, ?_, ?_⟩
  · rw [gpuLine]
    simp only [gpuRead_of_ne hs, gpuWrite_of_ne hs, setLane]
    rw [stockLayout.ofWords_update_lanes]
    rfl
  · rw [gpuLine]
    simp only [gpuWrite_of_ne hl, Table.write, List.map_append]
    rfl

theorem gpuLines (r : Lanes)
    (hxs : ∀ x ∈ xs, x.itemId ≠ Stager.absent ∧ x.stockId ≠ Stager.absent ∧
      x.orderLineId ≠ Stager.absent) :
    Lines gpuQuantity t xs (xs.foldl gpuLine (t, r)).1 := by
  induction xs generalizing t r with
  | nil => exact .nil
  | cons x xs ih =>
    obtain ⟨-, hs, hl⟩ := hxs x List.mem_cons_self
    exact (gpuLine_step r hs hl).cons (ih _ fun y hy => hxs y (List.mem_cons_of_mem _ hy))

theorem cpuLine_step (ol : ItemParams → OrderLineValue) :
    LineStep cpuQuantity t x (cpuLine ol t x) :=
  ⟨rfl, rfl, rfl, rfl, rfl, List.map_append⟩

theorem cpuLines (ol : ItemParams → OrderLineValue) :
    Lines cpuQuantity t xs (xs.foldl (cpuLine ol) t) := by
  induction xs generalizing t with
  | nil => exact .nil
  | cons x xs ih => exact (cpuLine_step ol).cons ih

end

/-! ### The executors -/

/-- What both executors do before the lines, in the tables that are compared. -/
structure Header (p : NewOrderTxnParams) (t t' : Tables) : Prop where
  warehouse : t'.warehouse = t.warehouse
  district : t'.district = t.district.write p.districtId
    { t.district.rows p.districtId with dNextOId := p.nextOrderId }
  customer : t'.customer = t.customer
  stock : t'.stock = t.stock
  order : (t'.order.log.map fun x => (x.1, x.2.oOlCnt)) =
    (t.order.log.map fun x => (x.1, x.2.oOlCnt)) ++ [(p.orderId, p.numItems)]
  orderLine : t'.orderLine = t.orderLine

theorem gpuNewOrder_spec {p : NewOrderTxnParams} (t : Tables)
    (hp : (Txn.newOrder p).Resolved) :
    ∃ t', Header p t t' ∧ Lines gpuQuantity t' p.items (gpuNewOrder p t) := by
  obtain ⟨-, hd, -, -, ho, hxs⟩ := hp
  have hdistrict : districtLayout.ofWords (setLane dNextOIdOffset p.nextOrderId
      (districtLayout.lanes (t.district.rows p.districtId))) =
      { t.district.rows p.districtId with dNextOId := p.nextOrderId } := by
    rw [setLane, districtLayout.ofWords_update_lanes, district_setWord_dNextOId]
  refine ⟨_, ?_, gpuLines _ hxs⟩
  refine ⟨rfl, ?_, rfl, rfl, ?_, rfl⟩
  · simp only [gpuRead_of_ne hd, gpuWrite_of_ne hd, hdistrict]
  · simp only [gpuWrite_of_ne ho, Table.write, List.map_append]
    rfl

theorem cpuNewOrder_spec (p : NewOrderTxnParams) (epoch : Word) (o : OrderValue)
    (ol : ItemParams → OrderLineValue) (t : Tables) :
    ∃ t', Header p t t' ∧ Lines cpuQuantity t' p.items (cpuNewOrder p epoch o ol t) := by
  refine ⟨_, ?_, cpuLines ol⟩
  exact ⟨rfl, rfl, rfl, rfl, List.map_append, rfl⟩

theorem newOrder_agree_iff {p : NewOrderTxnParams} (epoch : Word) (junk : Junk) (t : Tables)
    (hp : (Txn.newOrder p).Resolved) :
    Agree (gpuNewOrder p t) (cpuNewOrder p epoch junk.order junk.orderLine t) ↔
      OffThreshold (fun id => (t.stock.rows id).sQuantity) p.items := by
  obtain ⟨g, hg, hgl⟩ := gpuNewOrder_spec t hp
  obtain ⟨c, hc, hcl⟩ := cpuNewOrder_spec p epoch junk.order junk.orderLine t
  have hstock : (gpuNewOrder p t).stock.log =
      (cpuNewOrder p epoch junk.order junk.orderLine t).stock.log ↔
        OffThreshold (fun id => (t.stock.rows id).sQuantity) p.items := by
    rw [hgl.stock, hcl.stock, hg.stock, hc.stock, List.append_cancel_left_eq, stockWrites_eq_iff]
  refine ⟨fun h => hstock.mp h.stock, fun h => ⟨?_, ?_, ?_, hstock.mpr h, ?_, ?_⟩⟩
  · rw [hgl.warehouse, hcl.warehouse, hg.warehouse, hc.warehouse]
  · rw [hgl.district, hcl.district, hg.district, hc.district]
  · rw [hgl.customer, hcl.customer, hg.customer, hc.customer]
  · rw [hgl.order, hcl.order, hg.order, hc.order]
  · rw [hgl.orderLine, hcl.orderLine, hg.orderLine, hc.orderLine]

theorem payment_agree {p : PaymentTxnParams} (junk : Lanes) (t : Tables)
    (hp : (Txn.payment p).Resolved) : Agree (gpuPayment p junk t) (cpuPayment p t) := by
  obtain ⟨hw, hd, hc⟩ := hp
  have hwarehouse : warehouseLayout.ofWords (addLane wYtdOffset p.paymentAmount
      (warehouseLayout.lanes (t.warehouse.rows p.warehouseId))) =
      { t.warehouse.rows p.warehouseId with
        wYtd := (t.warehouse.rows p.warehouseId).wYtd + p.paymentAmount } := by
    rw [addLane, warehouseLayout.ofWords_update_lanes, warehouse_setWord_wYtd]
    rfl
  have hdistrict : districtLayout.ofWords (addLane dYtdOffset p.paymentAmount
      (districtLayout.lanes (t.district.rows p.districtId))) =
      { t.district.rows p.districtId with
        dYtd := (t.district.rows p.districtId).dYtd + p.paymentAmount } := by
    rw [addLane, districtLayout.ofWords_update_lanes, district_setWord_dYtd]
    rfl
  refine ⟨?_, ?_, ?_, rfl, rfl, rfl⟩
  · simp only [gpuPayment, gpuRead_of_ne hw, gpuWrite_of_ne hw, hwarehouse]
    rfl
  · simp only [gpuPayment, gpuRead_of_ne hd, gpuWrite_of_ne hd, hdistrict]
    rfl
  · simp only [gpuPayment, gpuRead_of_ne hc, gpuWrite_of_ne hc, cpuPayment,
      BitVec.sub_eq_add_neg]
    rfl

/-- The executors write the same values exactly when no line of the transaction meets a stock row
    at the threshold. -/
theorem executors_agree_iff (tx : Txn) (epoch : Word) (junk : Junk) (t : Tables)
    (h : tx.Resolved) : Agree (tx.gpu junk t) (tx.cpu epoch junk t) ↔ tx.OffThreshold t := by
  rcases tx with p | p
  · exact newOrder_agree_iff epoch junk t h
  · exact iff_of_true (payment_agree junk.lanes t h) trivial

/-- Tables of zeros but for the stock quantities. -/
def stocked (quantity : Word) : Tables where
  warehouse := ⟨fun _ => warehouseLayout.ofWords fun _ => 0, []⟩
  district := ⟨fun _ => districtLayout.ofWords fun _ => 0, []⟩
  customer := ⟨fun _ => customerLayout.ofWords fun _ => 0, []⟩
  newOrder := ⟨fun _ => ⟨0⟩, []⟩
  order := ⟨fun _ => orderLayout.ofWords fun _ => 0, []⟩
  orderLine := ⟨fun _ => orderLineLayout.ofWords fun _ => 0, []⟩
  item := ⟨fun _ => itemLayout.ofWords fun _ => 0, []⟩
  stock := ⟨fun _ => ⟨quantity, 0, 0, 0⟩, []⟩

def noJunk : Junk where
  lanes _ := 0
  order := orderLayout.ofWords fun _ => 0
  orderLine _ := orderLineLayout.ofWords fun _ => 0

/-- A NewOrder of five lines, five pieces of each item. -/
def fiveLines : Txn := .newOrder
  { warehouseId := 0, districtId := 0, customerId := 0, newOrderId := 0, orderId := 0
    nextOrderId := 3002, cId := 1, allLocal := 1
    items := (List.range 5).map fun i => ⟨i, i, i, 5, BitVec.ofNat 32 (i + 1), 1⟩ }

theorem fiveLines_resolved : fiveLines.Resolved := by
  refine ⟨by decide, by decide, by decide, by decide, by decide, ?_⟩
  intro x hx
  obtain ⟨i, hi, rfl⟩ := List.mem_map.mp hx
  have hne : i ≠ Stager.absent := by
    have := List.mem_range.mp hi
    have : 5 < Stager.absent := by decide
    omega
  exact ⟨hne, hne, hne⟩

theorem executors_agree_iff_fiveLines : Agree (fiveLines.gpu noJunk (stocked 14))
    (fiveLines.cpu 2 noJunk (stocked 14)) := by
  refine (executors_agree_iff fiveLines 2 noJunk (stocked 14) fiveLines_resolved).mpr ?_
  simp only [fiveLines, Txn.OffThreshold, List.range, List.range.loop, List.map, OffThreshold]
  decide

/-- Fifteen pieces in stock and five ordered: the GPU restocks to 101, the CPU leaves 10. -/
theorem executors_disagree : ¬ ∀ (tx : Txn) (epoch : Word) (junk : Junk) (t : Tables),
    tx.Resolved → Agree (tx.gpu junk t) (tx.cpu epoch junk t) := by
  intro h
  have hoff := (newOrder_agree_iff 2 noJunk (stocked 15) fiveLines_resolved).mp
    (h fiveLines 2 noJunk (stocked 15) fiveLines_resolved)
  exact hoff.1 rfl

end Egad.Tpcc.Exec
