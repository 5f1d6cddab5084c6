import Egad.Tpcc.Values

/-! # Delivery

    A Delivery pays the customer of the oldest order of each of the ten districts. The hybrid
    executor sums the amounts of the lines in the lane that holds `ol_amount` and needs the sum in
    the lane that holds `c_balance`:

        lane       0           1    2                3
        line       ol_i_id     …    ol_amount        …
        amount     0           0    Σ ol_amount      0
        customer   c_balance   …    c_payment_cnt    c_delivery_cnt

    `__shfl_sync` returns lane 2 to every lane, but what it returns is discarded, so the balance
    stays as it was. The CPU executor adds the sum. -/

namespace Egad.Tpcc.Exec
open Egad.Lib

/-- The entries of one district in `DeliveryTxnParams`; `num_items` is the length of
    `orderlineIds`. -/
structure DeliverySlot where
  newOrderId : ℕ
  orderId : ℕ
  customerId : ℕ
  orderlineIds : List ℕ

structure DeliveryTxnParams where
  carrierId : Word
  deliveryD : Word
  slots : Fin 10 → DeliverySlot

/-! ### The hybrid executor -/

/-- A warp in a Delivery: the tables, the delivered flags when the stager asked for them, and the
    registers `result` and `amount` of its lanes. -/
structure Warp where
  tables : Tables
  deliveredFlag : Option (ℕ → Bool)
  result : Lanes
  amount : Lanes

/-- `__shfl_sync`: what each lane gets when all of them ask for the register of one. -/
def shflSync (x : Lanes) (lane : ℕ) : Lanes := fun _ => x lane

/-- One order line of a Delivery. -/
def gpuDeliverLine (deliveryD : Word) (w : Warp) (id : ℕ) : Warp :=
  let result := gpuReadFromTableCoop orderLineLayout w.tables.orderLine id w.result
  let amount := addLane olAmountOffset (result olAmountOffset) w.amount
  let result := setLane olDeliveryDOffset deliveryD result
  let orderLine := gpuWriteToTableCoop orderLineLayout w.tables.orderLine id result
  { tables := { w.tables with orderLine := orderLine }
    deliveredFlag := if id = Stager.absent then w.deliveredFlag
      else w.deliveredFlag.map fun flag => Function.update flag id true
    result := result
    amount := amount }

/-- A district up to its lines: the order gets its carrier and `amount` is cleared. -/
def gpuDeliverOrder (carrierId : Word) (w : Warp) (d : DeliverySlot) : Warp :=
  let t := w.tables
  let result := gpuReadFromTableCoop newOrderLayout t.newOrder d.newOrderId w.result
  let result := gpuReadFromTableCoop orderLayout t.order d.orderId result
  let result := setLane oCarrierIdOffset carrierId result
  let order := gpuWriteToTableCoop orderLayout t.order d.orderId result
  { w with tables := { t with order := order }, result := result, amount := fun _ => 0 }

/-- A district after its lines. The shuffle is a statement of its own: no register takes its
    value. -/
def gpuDeliverCustomer (w : Warp) (d : DeliverySlot) : Warp :=
  let _ := shflSync w.amount olAmountOffset
  let t := w.tables
  let result := gpuReadFromTableCoop customerLayout t.customer d.customerId w.result
  let result := addLane cBalanceOffset (w.amount cBalanceOffset) result
  let result := addLane cDeliveryCntOffset 1 result
  let customer := gpuWriteToTableCoop customerLayout t.customer d.customerId result
  { w with tables := { t with customer := customer }, result := result }

/-- One district of a Delivery. -/
def gpuDeliverSlot (carrierId deliveryD : Word) (w : Warp) (d : DeliverySlot) : Warp :=
  gpuDeliverCustomer
    (d.orderlineIds.foldl (gpuDeliverLine deliveryD) (gpuDeliverOrder carrierId w d)) d

/-- `gpuExecTpccTxn` of a Delivery. -/
def gpuDelivery (p : DeliveryTxnParams) (w : Warp) : Warp :=
  (List.ofFn p.slots).foldl (gpuDeliverSlot p.carrierId p.deliveryD) w

/-! ### The CPU executor -/

/-- One order line on the CPU, with the amount so far. -/
def cpuDeliverLine (deliveryD : Word) (s : Table OrderLineValue × Word) (id : ℕ) :
    Table OrderLineValue × Word :=
  let olv := s.1.rows id
  (s.1.write id { olv with olDeliveryD := deliveryD }, s.2 + olv.olAmount)

/-- One district on the CPU. -/
def cpuDeliverSlot (carrierId deliveryD : Word) (t : Tables) (d : DeliverySlot) : Tables :=
  if d.newOrderId = Stager.absent then t
  else
    let ov := t.order.rows d.orderId
    let order := t.order.write d.orderId { ov with oCarrierId := carrierId }
    let lines := d.orderlineIds.foldl (cpuDeliverLine deliveryD) (t.orderLine, 0)
    let cv := t.customer.rows d.customerId
    let customer := t.customer.write d.customerId { cv with
      cBalance := cv.cBalance + lines.2
      cDeliveryCnt := cv.cDeliveryCnt + 1 }
    { t with order := order, orderLine := lines.1, customer := customer }

/-- `CpuExecutor::executeTxn` of a Delivery. -/
def cpuDelivery (p : DeliveryTxnParams) (t : Tables) : Tables :=
  (List.ofFn p.slots).foldl (cpuDeliverSlot p.carrierId p.deliveryD) t

/-! ### What a Delivery is for -/

/-- The ids that are not the sentinel of a district with nothing to deliver. -/
def present (ids : List ℕ) : List ℕ := ids.filter (· ≠ Stager.absent)

/-- The rows `ids` have gone through `f` and the others are as they were. -/
def Touched {α : Type} (f : α → α) (ids : List ℕ) (rows rows' : ℕ → α) : Prop :=
  ∀ i, rows' i = if i ∈ ids then f (rows i) else rows i

/-- The amounts of the lines of a district. -/
def slotAmount (t : Tables) (d : DeliverySlot) : Word :=
  ((present d.orderlineIds).map fun l => (t.orderLine.rows l).olAmount).sum

/-- What a Delivery owes a customer: the amounts of the lines of the orders it delivers to it. -/
def due (t : Tables) (ds : List DeliverySlot) (c : ℕ) : Word :=
  (ds.map fun d => if c ∈ present [d.customerId] then slotAmount t d else 0).sum

/-- A Delivery to the districts `ds` that adds `paid` to the balances. -/
structure Delivered (carrierId deliveryD : Word) (ds : List DeliverySlot) (paid : ℕ → Word)
    (t t' : Tables) : Prop where
  warehouse : t'.warehouse = t.warehouse
  district : t'.district = t.district
  newOrder : t'.newOrder = t.newOrder
  item : t'.item = t.item
  stock : t'.stock = t.stock
  order : Touched (fun v => { v with oCarrierId := carrierId })
    (present (ds.map (·.orderId))) t.order.rows t'.order.rows
  orderLine : Touched (fun v => { v with olDeliveryD := deliveryD })
    (present (ds.flatMap (·.orderlineIds))) t.orderLine.rows t'.orderLine.rows
  customer : ∀ c, t'.customer.rows c = { t.customer.rows c with
    cBalance := (t.customer.rows c).cBalance + paid c
    cDeliveryCnt := (t.customer.rows c).cDeliveryCnt +
      BitVec.ofNat 32 ((present (ds.map (·.customerId))).count c) }

/-! ### Rows that are touched -/

theorem present_append (xs ys : List ℕ) : present (xs ++ ys) = present xs ++ present ys :=
  List.filter_append ..

theorem present_absent : present [Stager.absent] = [] := rfl

theorem present_single {id : ℕ} (h : id ≠ Stager.absent) : present [id] = [id] := by
  rw [present, List.filter_cons_of_pos (by simpa using h), List.filter_nil]

section
variable {α : Type} {f : α → α} {rows rows₁ rows₂ : ℕ → α} {xs ys : List ℕ}

theorem Touched.nil : Touched f [] rows rows := fun _ => (if_neg List.not_mem_nil).symm

theorem touched_update (id : ℕ) : Touched f [id] rows (Function.update rows id (f (rows id))) := by
  intro i
  rcases eq_or_ne i id with rfl | hne
  · rw [Function.update_self, if_pos (List.mem_singleton_self _)]
  · rw [Function.update_of_ne hne, if_neg (mt List.mem_singleton.mp hne)]

theorem Touched.append (hf : ∀ v, f (f v) = f v) (h₁ : Touched f xs rows rows₁)
    (h₂ : Touched f ys rows₁ rows₂) : Touched f (xs ++ ys) rows rows₂ := by
  intro i
  rw [h₂ i, h₁ i]
  simp only [List.mem_append]
  split_ifs <;> grind

/-- A field that `f` leaves alone. -/
theorem Touched.field {β : Type} {g : α → β} (h : Touched f xs rows rows₁)
    (hg : ∀ v, g (f v) = g v) (i : ℕ) : g (rows₁ i) = g (rows i) := by
  rw [h i]
  split_ifs
  · exact hg _
  · rfl

theorem gpuWrite_touched {L : Layout α Word} {t : Table α} {id : ℕ} {data : Lanes}
    (h : id ≠ Stager.absent → L.ofWords data = f (t.rows id)) :
    Touched f (present [id]) t.rows (gpuWriteToTableCoop L t id data).rows := by
  rcases eq_or_ne id Stager.absent with rfl | hne
  · rw [present_absent, gpuWrite_absent]
    exact .nil
  · rw [present_single hne, gpuWrite_of_ne hne, h hne]
    exact touched_update id

end

section
variable {carrierId deliveryD : Word} {paid paid' : ℕ → Word} {t t₁ t₂ : Tables}

theorem Delivered.nil : Delivered carrierId deliveryD [] (fun _ => 0) t t where
  warehouse := rfl
  district := rfl
  newOrder := rfl
  item := rfl
  stock := rfl
  order := .nil
  orderLine := .nil
  customer c := by simp [present]

theorem Delivered.append {ds es : List DeliverySlot}
    (h : Delivered carrierId deliveryD ds paid t t₁)
    (h' : Delivered carrierId deliveryD es paid' t₁ t₂) :
    Delivered carrierId deliveryD (ds ++ es) (fun c => paid c + paid' c) t t₂ where
  warehouse := h'.warehouse.trans h.warehouse
  district := h'.district.trans h.district
  newOrder := h'.newOrder.trans h.newOrder
  item := h'.item.trans h.item
  stock := h'.stock.trans h.stock
  order := by
    rw [List.map_append, present_append]
    exact h.order.append (fun _ => rfl) h'.order
  orderLine := by
    rw [List.flatMap_append, present_append]
    exact h.orderLine.append (fun _ => rfl) h'.orderLine
  customer c := by
    rw [h'.customer, h.customer, List.map_append, present_append, List.count_append,
      BitVec.ofNat_add, BitVec.add_assoc, BitVec.add_assoc]

end

/-! ### The hybrid executor pays nothing -/

section
variable {carrierId deliveryD : Word} {w : Warp}

/-- What the lines of a district do. -/
structure LinesDelivered (deliveryD : Word) (xs : List ℕ) (w w' : Warp) : Prop where
  orderLine : Touched (fun v => { v with olDeliveryD := deliveryD }) (present xs)
    w.tables.orderLine.rows w'.tables.orderLine.rows
  others : w'.tables = { w.tables with orderLine := w'.tables.orderLine }
  amount : ∀ lane, lane ≠ olAmountOffset → w'.amount lane = w.amount lane

theorem gpuDeliverLine_spec (id : ℕ) :
    LinesDelivered deliveryD [id] w (gpuDeliverLine deliveryD w id) := by
  refine ⟨gpuWrite_touched fun hne => ?_, rfl, fun lane hlane => ?_⟩
  · rw [gpuRead_of_ne hne, setLane, orderLineLayout.ofWords_update_lanes]
    rfl
  · exact Function.update_of_ne hlane ..

theorem gpuDeliverLines_spec (xs : List ℕ) :
    LinesDelivered deliveryD xs w (xs.foldl (gpuDeliverLine deliveryD) w) := by
  induction xs generalizing w with
  | nil => exact ⟨.nil, rfl, fun _ _ => rfl⟩
  | cons id xs ih =>
    have h : LinesDelivered deliveryD [id] w _ := gpuDeliverLine_spec id
    have h' : LinesDelivered deliveryD xs (gpuDeliverLine deliveryD w id) _ := ih
    refine ⟨?_, ?_, fun lane hlane => (h'.amount lane hlane).trans (h.amount lane hlane)⟩
    · rw [← List.singleton_append, present_append]
      exact h.orderLine.append (fun _ => rfl) h'.orderLine
    · rw [List.foldl_cons, h'.others, h.others]

theorem gpuDeliverOrder_touched (d : DeliverySlot) :
    Touched (fun v => { v with oCarrierId := carrierId }) (present [d.orderId])
      w.tables.order.rows (gpuDeliverOrder carrierId w d).tables.order.rows := by
  refine gpuWrite_touched fun hne => ?_
  rw [gpuRead_of_ne hne, setLane, orderLayout.ofWords_update_lanes]
  rfl

/-- One payment, on a record that may be absent. -/
theorem customer_paid (t : Table CustomerValue) (id : ℕ) (x : Word) (c : ℕ) :
    (if id = Stager.absent then t else t.write id { t.rows id with
        cBalance := (t.rows id).cBalance + x
        cDeliveryCnt := (t.rows id).cDeliveryCnt + 1 }).rows c = { t.rows c with
      cBalance := (t.rows c).cBalance + if c ∈ present [id] then x else 0
      cDeliveryCnt := (t.rows c).cDeliveryCnt + BitVec.ofNat 32 ((present [id]).count c) } := by
  rcases eq_or_ne id Stager.absent with rfl | hne
  · simp [present_absent]
  · rw [if_neg hne, present_single hne]
    rcases eq_or_ne c id with rfl | hc
    · simp [Table.write]
    · simp [Table.write, hc, hc.symm]

/-- Only the lane of `c_balance` adds to the balance. -/
theorem gpuDeliverCustomer_rows (d : DeliverySlot) (c : ℕ) :
    (gpuDeliverCustomer w d).tables.customer.rows c = { w.tables.customer.rows c with
      cBalance := (w.tables.customer.rows c).cBalance +
        if c ∈ present [d.customerId] then w.amount cBalanceOffset else 0
      cDeliveryCnt := (w.tables.customer.rows c).cDeliveryCnt +
        BitVec.ofNat 32 ((present [d.customerId]).count c) } := by
  rw [← customer_paid, gpuDeliverCustomer]
  refine congrArg (fun t : Table CustomerValue => t.rows c)
    (ite_congr rfl (fun _ => rfl) fun hne => ?_)
  rw [gpuRead_of_ne hne]
  rfl

theorem gpuDeliverSlot_spec (d : DeliverySlot) : Delivered carrierId deliveryD [d] (fun _ => 0)
    w.tables (gpuDeliverSlot carrierId deliveryD w d).tables := by
  have hlines : LinesDelivered deliveryD d.orderlineIds (gpuDeliverOrder carrierId w d) _ :=
    gpuDeliverLines_spec d.orderlineIds
  -- the sum is in another lane than the balance
  have hamount := hlines.amount cBalanceOffset (by decide)
  have hothers := hlines.others
  rw [gpuDeliverSlot]
  generalize d.orderlineIds.foldl (gpuDeliverLine deliveryD) (gpuDeliverOrder carrierId w d) = w'
    at hlines hamount hothers ⊢
  have hothers' : (gpuDeliverCustomer w' d).tables =
      { w'.tables with customer := (gpuDeliverCustomer w' d).tables.customer } := rfl
  refine ⟨?_, ?_, ?_, ?_, ?_, ?_, ?_, ?_⟩
  all_goals try rw [hothers', hothers]; rfl
  · rw [hothers', hothers]
    exact gpuDeliverOrder_touched d
  · rw [List.flatMap_singleton]
    exact hlines.orderLine
  · intro c
    rw [gpuDeliverCustomer_rows, hamount, hothers]
    simp only [gpuDeliverOrder, ite_self, List.map_cons, List.map_nil]

theorem gpuDelivery_spec (p : DeliveryTxnParams) :
    Delivered p.carrierId p.deliveryD (List.ofFn p.slots) (fun _ => 0) w.tables
      (gpuDelivery p w).tables := by
  rw [gpuDelivery]
  generalize List.ofFn p.slots = ds
  induction ds generalizing w with
  | nil => exact .nil
  | cons d ds ih =>
    exact (gpuDeliverSlot_spec d).append ih

end

/-! ### The CPU executor pays what is due -/

section
variable {carrierId deliveryD : Word} {t t₁ : Tables}

theorem due_congr {ds : List DeliverySlot} {c : ℕ}
    (h : ∀ l, (t₁.orderLine.rows l).olAmount = (t.orderLine.rows l).olAmount) :
    due t₁ ds c = due t ds c := by
  simp only [due, slotAmount, h]

theorem cpuDeliverLines_spec (s : Table OrderLineValue × Word) {xs : List ℕ}
    (hxs : ∀ x ∈ xs, x ≠ Stager.absent) :
    Touched (fun v => { v with olDeliveryD := deliveryD }) (present xs) s.1.rows
        (xs.foldl (cpuDeliverLine deliveryD) s).1.rows ∧
      (xs.foldl (cpuDeliverLine deliveryD) s).2 =
        s.2 + ((present xs).map fun l => (s.1.rows l).olAmount).sum := by
  induction xs generalizing s with
  | nil => exact ⟨.nil, (BitVec.add_zero _).symm⟩
  | cons x xs ih =>
    have hne := hxs x List.mem_cons_self
    obtain ⟨htouch, hsum⟩ := ih (cpuDeliverLine deliveryD s x)
      fun y hy => hxs y (List.mem_cons_of_mem _ hy)
    have hx : Touched (fun v => { v with olDeliveryD := deliveryD }) [x] s.1.rows
        (cpuDeliverLine deliveryD s x).1.rows := touched_update x
    rw [← List.singleton_append, present_append, present_single hne]
    refine ⟨hx.append (fun _ => rfl) htouch, ?_⟩
    have hamount : ∀ l, ((cpuDeliverLine deliveryD s x).1.rows l).olAmount =
        (s.1.rows l).olAmount := hx.field fun _ => rfl
    rw [List.singleton_append, List.foldl_cons, hsum]
    simp only [hamount]
    rw [List.singleton_append, List.map_cons, List.sum_cons, ← BitVec.add_assoc]
    rfl

/-- The index gives a district with nothing to deliver no record, and resolves all the records of
    the others. -/
def DeliverySlot.Resolved (d : DeliverySlot) : Prop :=
  (d.newOrderId = Stager.absent ∧ d.orderId = Stager.absent ∧ d.customerId = Stager.absent ∧
    d.orderlineIds = []) ∨
  (d.newOrderId ≠ Stager.absent ∧ d.orderId ≠ Stager.absent ∧ d.customerId ≠ Stager.absent ∧
    ∀ l ∈ d.orderlineIds, l ≠ Stager.absent)

theorem cpuDeliverSlot_spec {d : DeliverySlot} (hd : d.Resolved) :
    Delivered carrierId deliveryD [d] (due t [d]) t (cpuDeliverSlot carrierId deliveryD t d) := by
  rcases hd with ⟨hno, ho, hc, hl⟩ | ⟨hno, ho, hc, hl⟩
  · rw [cpuDeliverSlot, if_pos hno]
    refine ⟨rfl, rfl, rfl, rfl, rfl, ?_, ?_, fun c => ?_⟩
    · rw [List.map_singleton, ho, present_absent]
      exact .nil
    · rw [List.flatMap_singleton, hl]
      exact .nil
    · simp [hc, due, present_absent]
  · obtain ⟨htouch, hsum⟩ := @cpuDeliverLines_spec deliveryD (t.orderLine, 0) _ hl
    rw [cpuDeliverSlot, if_neg hno]
    refine ⟨rfl, rfl, rfl, rfl, rfl, ?_, ?_, ?_⟩
    · rw [List.map_singleton, present_single ho]
      exact touched_update d.orderId
    · rw [List.flatMap_singleton]
      exact htouch
    · intro c
      have hpaid := customer_paid t.customer d.customerId (slotAmount t d) c
      rw [if_neg hc] at hpaid
      simp only [hsum, zero_add, due, List.map_singleton, List.sum_singleton]
      exact hpaid

/-- The amounts a Delivery pays are those of the start, since it changes none. -/
theorem cpuDelivery_spec (p : DeliveryTxnParams) (hp : ∀ i, (p.slots i).Resolved) :
    Delivered p.carrierId p.deliveryD (List.ofFn p.slots) (due t (List.ofFn p.slots)) t
      (cpuDelivery p t) := by
  rw [cpuDelivery]
  have hds : ∀ d ∈ List.ofFn p.slots, d.Resolved := List.forall_mem_ofFn_iff.mpr hp
  generalize List.ofFn p.slots = ds at hds ⊢
  induction ds generalizing t with
  | nil => exact .nil
  | cons d ds ih =>
    have h : Delivered p.carrierId p.deliveryD [d] (due t [d]) t _ :=
      cpuDeliverSlot_spec (hds d List.mem_cons_self)
    have h' := h.append (ih fun e he => hds e (List.mem_cons_of_mem _ he))
    have hdue : ∀ c, due t [d] c +
        due (cpuDeliverSlot p.carrierId p.deliveryD t d) ds c = due t (d :: ds) c := by
      intro c
      rw [due_congr (h.orderLine.field fun _ => rfl)]
      simp only [due, List.map_cons, List.map_nil, List.sum_cons, List.sum_nil, add_zero]
    simp only [hdue] at h'
    exact h'

end

/-! ### Delivery meets its meaning exactly when nothing is due -/

/-- The hybrid executor adds to every balance what is due, counts the delivery, sets the carrier and
    the delivery date and changes nothing else, exactly when nothing is due to any customer. -/
theorem gpuDelivery_delivered_iff (p : DeliveryTxnParams) (w : Warp) :
    Delivered p.carrierId p.deliveryD (List.ofFn p.slots) (due w.tables (List.ofFn p.slots))
      w.tables (gpuDelivery p w).tables ↔ ∀ c, due w.tables (List.ofFn p.slots) c = 0 := by
  have h : Delivered p.carrierId p.deliveryD (List.ofFn p.slots) (fun _ => 0) w.tables
    (gpuDelivery p w).tables := gpuDelivery_spec p
  constructor
  · intro hdue c
    have hbalance := congrArg CustomerValue.cBalance ((hdue.customer c).symm.trans (h.customer c))
    exact add_left_cancel hbalance
  · intro hzero
    rw [funext hzero]
    exact h

/-- An order of five lines in the first district and nothing to deliver in the others. -/
def oneOrder : DeliveryTxnParams where
  carrierId := 7
  deliveryD := 1
  slots i := if i = 0 then ⟨0, 0, 0, [0, 1, 2, 3, 4]⟩
    else ⟨Stager.absent, Stager.absent, Stager.absent, []⟩

/-- Every order line has amount 5, everything else is zero. -/
def fiveEach : Warp where
  tables :=
    { warehouse := ⟨fun _ => warehouseLayout.ofWords fun _ => 0, []⟩
      district := ⟨fun _ => districtLayout.ofWords fun _ => 0, []⟩
      customer := ⟨fun _ => customerLayout.ofWords fun _ => 0, []⟩
      newOrder := ⟨fun _ => ⟨0⟩, []⟩
      order := ⟨fun _ => orderLayout.ofWords fun _ => 0, []⟩
      orderLine := ⟨fun _ => ⟨0, 0, 5, 0, 0⟩, []⟩
      item := ⟨fun _ => itemLayout.ofWords fun _ => 0, []⟩
      stock := ⟨fun _ => stockLayout.ofWords fun _ => 0, []⟩ }
  deliveredFlag := none
  result _ := 0
  amount _ := 0

/-- The customer of the order is owed 25 and gets nothing. -/
theorem gpuDelivery_unpaid : ¬ ∀ (p : DeliveryTxnParams) (w : Warp),
    Delivered p.carrierId p.deliveryD (List.ofFn p.slots) (due w.tables (List.ofFn p.slots))
      w.tables (gpuDelivery p w).tables := by
  intro h
  have hzero : Delivered oneOrder.carrierId oneOrder.deliveryD (List.ofFn oneOrder.slots)
    (fun _ => 0) fiveEach.tables (gpuDelivery oneOrder fiveEach).tables := gpuDelivery_spec oneOrder
  have hbalance := congrArg CustomerValue.cBalance
    (((h oneOrder fiveEach).customer 0).symm.trans (hzero.customer 0))
  have hdue : due fiveEach.tables (List.ofFn oneOrder.slots) 0 = 25 := by decide
  rw [hdue] at hbalance
  exact absurd (add_left_cancel hbalance) (by decide)

end Egad.Tpcc.Exec
