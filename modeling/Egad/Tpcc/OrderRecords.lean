import Egad.Tpcc.SameRecords
import Egad.Tpcc.Executors
import Egad.Tpcc.Delivery

/-! # The rows of an order

    A NewOrder writes one Order row and one OrderLine row for each item. The index gives the rows, and
    the executor leaves out a row that lies behind the end of its table:

        (w, d, o)         o_c_id   o_ol_cnt          at index.order[(w, d, o)]
        (w, d, o, i + 1)  ol_i_id                    at index.orderLine[(w, d, o, i + 1)]

    No later transaction changes these words: another NewOrder has other keys and so other rows, a
    Delivery writes the carrier and the delivery date, a Payment neither table. -/

namespace Egad.Tpcc
open Egad.Lib Egad.Timeline

/-! ### Execution -/

/-- What the executor reads beside the growing tables' ids and the words of an order: the other fields
    of the parameters and the registers of the warp. -/
structure Rest where
  newOrder : Exec.NewOrderTxnParams
  item : ℕ → Exec.ItemParams
  payment : Exec.PaymentTxnParams
  customerId : ℕ → ℕ
  deliveredFlag : Option (ℕ → Bool)
  result : Exec.Lanes
  amount : Exec.Lanes

section
variable (fl : ℚ → ℚ) (rc : RunConfig)

/-- The ids the executor works on; records go by their CRIDs. -/
def newOrderRow (crid : ℕ) : ℕ := remapLookup (rc.config fl).newOrderTableSize id crid
def orderRow (crid : ℕ) : ℕ := remapLookup (rc.config fl).orderTableSize id crid
def orderLineRow (crid : ℕ) : ℕ := remapLookup (rc.orderLineTableSize fl) id crid

/-- The parameters of a NewOrder. -/
def newOrderParams (r : Rest) (c : ℕ) (items : List OrderItem) (oId noId : ℕ) (ids : List ℕ) :
    Exec.NewOrderTxnParams :=
  { r.newOrder with
    newOrderId := newOrderRow fl rc noId
    orderId := orderRow fl rc oId
    cId := BitVec.ofNat 32 c
    items := (items.zip ids).zipIdx.map fun x => { r.item x.2 with
      orderLineId := orderLineRow fl rc x.1.2
      iId := BitVec.ofNat 32 x.1.1.iId } }

/-- The parameters of a Delivery. -/
def deliveryParams (r : Rest) (carrierId deliveryD : ℕ) (nos os : List ℕ) (ids : List (List ℕ)) :
    Exec.DeliveryTxnParams where
  carrierId := BitVec.ofNat 32 carrierId
  deliveryD := BitVec.ofNat 32 deliveryD
  slots i :=
    { newOrderId := newOrderRow fl rc (nos.getD i.val kAbsent)
      orderId := orderRow fl rc (os.getD i.val kAbsent)
      customerId := r.customerId i.val
      orderlineIds := (ids.getD i.val []).map (orderLineRow fl rc) }

/-- `gpuExecTpccTxn`: OrderStatus and StockLevel write nothing. -/
def execTxn (r : Rest) (t : Exec.Tables) : TxnInput → TxnParams → Exec.Tables
  | .newOrder _ _ _ c items, .newOrder oId noId ids =>
    Exec.gpuNewOrder (newOrderParams fl rc r c items oId noId ids) t
  | .payment .., _ => Exec.gpuPayment r.payment r.result t
  | .delivery _ carrier date _, .delivery nos os ids =>
    (Exec.gpuDelivery (deliveryParams fl rc r carrier date nos os ids)
      ⟨t, r.deliveredFlag, r.result, r.amount⟩).tables
  | _, _ => t

/-- The transactions of an epoch in their serial order. -/
inductive Executes : List (TxnInput × TxnParams) → Exec.Tables → Exec.Tables → Prop
  | nil {t} : Executes [] t t
  | cons {x xs t t'} (r : Rest) : Executes xs (execTxn fl rc r t x.1 x.2) t' → Executes (x :: xs) t t'

/-- The index and the tables after a history of epochs. -/
inductive OrderRun (durable : Durable) (entryCrid : ℕ → ℕ) (deletePath : Bool) :
    List (List (TxnInput × Aux)) → GpuIndex → Exec.Tables → Prop
  | start {t} : OrderRun durable entryCrid deletePath [] (.init (rc.config fl) durable entryCrid) t
  | epoch {done e g g' idx out t t'} : OrderRun durable entryCrid deletePath done g t →
      indexTxns deletePath g.index (fillAll e) = .ok (idx, out) →
      g.indexTxns deletePath (fillAll e) = .ok g' →
      Executes fl rc ((e.map Prod.fst).zip out.params) t t' →
      OrderRun durable entryCrid deletePath (done ++ [e]) g' t'

/-- A row of the Order table holds the customer and the number of lines of an order. -/
structure OrderRow (t : Exec.Tables) (row c n : ℕ) : Prop where
  present : row ≠ kAbsent
  words : row < (rc.config fl).orderTableSize → (t.order.rows row).oCId = BitVec.ofNat 32 c ∧
    (t.order.rows row).oOlCnt = BitVec.ofNat 32 n

/-- A row of the OrderLine table holds the item of a line. -/
structure LineRow (t : Exec.Tables) (row iId : ℕ) : Prop where
  present : row ≠ kAbsent
  word : row < rc.orderLineTableSize fl → (t.orderLine.rows row).olIId = BitVec.ofNat 32 iId

/-- The rows of a NewOrder's order and lines hold its customer, its number of lines and its items. -/
def OrderStored (g : GpuIndex) (t : Exec.Tables) : TxnInput → Prop
  | .newOrder w d o c items =>
    OrderRow fl rc t (g.index.order.store.lookup (orderKey o d w)) c items.length ∧
    ∀ i x, items[i]? = some x →
      LineRow fl rc t (g.index.orderLine.store.lookup (orderLineKey o d w (i + 1))) x.iId
  | _ => True

end

/-! ### What the executor leaves in the rows -/

namespace Exec

theorem gpuWrite_of_row_ne {α : Type} {L : Layout α Word} {t : Table α} {id row : ℕ} (h : row ≠ id)
    (data : Lanes) : (gpuWriteToTableCoop L t id data).rows row = t.rows row := by
  rw [gpuWriteToTableCoop]
  split
  · rfl
  · exact Function.update_of_ne h ..

section
variable {xs : List ItemParams} {row : ℕ}

theorem gpuLines_order (s : Tables × Lanes) : (xs.foldl gpuLine s).1.order = s.1.order := by
  induction xs generalizing s with
  | nil => rfl
  | cons x xs ih => exact ih (gpuLine s x)

theorem gpuLines_of_notMem (h : ∀ x ∈ xs, x.orderLineId ≠ row) (s : Tables × Lanes) :
    (xs.foldl gpuLine s).1.orderLine.rows row = s.1.orderLine.rows row := by
  induction xs generalizing s with
  | nil => rfl
  | cons x xs ih =>
    rw [List.foldl_cons, ih fun y hy => h y (List.mem_cons_of_mem _ hy)]
    exact gpuWrite_of_row_ne (h x List.mem_cons_self).symm _

/-- A row that one of the lines writes has the item of that line. -/
theorem gpuLines_item {v : Word} (hrow : row ≠ Stager.absent)
    (hval : ∀ x ∈ xs, x.orderLineId = row → x.iId = v) (hex : ∃ x ∈ xs, x.orderLineId = row)
    (s : Tables × Lanes) : ((xs.foldl gpuLine s).1.orderLine.rows row).olIId = v := by
  induction xs generalizing s with
  | nil => exact absurd hex (by simp)
  | cons x xs ih =>
    rw [List.foldl_cons]
    by_cases hlater : ∃ y ∈ xs, y.orderLineId = row
    · exact ih (fun y hy => hval y (List.mem_cons_of_mem _ hy)) hlater _
    · have hx : x.orderLineId = row := by
        obtain ⟨y, hy, hyr⟩ := hex
        rcases List.mem_cons.mp hy with rfl | hy
        · exact hyr
        · exact absurd ⟨y, hy, hyr⟩ hlater
      rw [gpuLines_of_notMem fun y hy hyr => hlater ⟨y, hy, hyr⟩]
      rw [← hval x List.mem_cons_self hx, ← hx, gpuLine]
      simp only
      rw [gpuWrite_of_ne (hx ▸ hrow), Table.write]
      simp only [Function.update_self]
      rfl

end

section
variable {p : NewOrderTxnParams} {t : Tables} {row : ℕ}

theorem gpuNewOrder_order (h : p.orderId ≠ Stager.absent) :
    ((gpuNewOrder p t).order.rows p.orderId).oCId = p.cId ∧
      ((gpuNewOrder p t).order.rows p.orderId).oOlCnt = p.numItems := by
  rw [gpuNewOrder]
  simp only [gpuLines_order, gpuWrite_of_ne h, Table.write, Function.update_self]
  exact ⟨rfl, rfl⟩

theorem gpuNewOrder_order_of_ne (h : row ≠ p.orderId) :
    (gpuNewOrder p t).order.rows row = t.order.rows row := by
  rw [gpuNewOrder]
  simp only [gpuLines_order]
  exact gpuWrite_of_row_ne h _

theorem gpuNewOrder_line {v : Word} (hrow : row ≠ Stager.absent)
    (hval : ∀ x ∈ p.items, x.orderLineId = row → x.iId = v)
    (hex : ∃ x ∈ p.items, x.orderLineId = row) :
    ((gpuNewOrder p t).orderLine.rows row).olIId = v :=
  gpuLines_item hrow hval hex _

theorem gpuNewOrder_line_of_ne (h : ∀ x ∈ p.items, x.orderLineId ≠ row) :
    (gpuNewOrder p t).orderLine.rows row = t.orderLine.rows row :=
  gpuLines_of_notMem h _

end

end Exec

section
variable {fl : ℚ → ℚ} {rc : RunConfig} {r : Rest} {t : Exec.Tables} {x : TxnInput × TxnParams} {row : ℕ}

theorem remapLookup_id_eq {n crid : ℕ} (hrow : row ≠ kAbsent) (h : remapLookup n id crid = row) :
    crid = row ∧ crid < n := by
  rw [remapLookup] at h
  split at h
  · next hlt => exact ⟨h, hlt⟩
  · exact absurd h.symm hrow

/-- The customer and the number of lines in a row change only in the NewOrder that has the row. -/
theorem execTxn_order (hrow : row ≠ kAbsent) (h : ∀ w d o c items oId noId ids,
      x = (.newOrder w d o c items, .newOrder oId noId ids) → oId ≠ row) :
    ((execTxn fl rc r t x.1 x.2).order.rows row).oCId = (t.order.rows row).oCId ∧
      ((execTxn fl rc r t x.1 x.2).order.rows row).oOlCnt = (t.order.rows row).oOlCnt := by
  obtain ⟨u, p⟩ := x
  cases u with
  | newOrder w d o c items =>
    cases p with
    | newOrder oId noId ids =>
      have hne : row ≠ (newOrderParams fl rc r c items oId noId ids).orderId := fun he =>
        h w d o c items oId noId ids rfl (remapLookup_id_eq hrow he.symm).1
      rw [execTxn, Exec.gpuNewOrder_order_of_ne hne]
      exact ⟨rfl, rfl⟩
    | orderStatus => exact ⟨rfl, rfl⟩
    | delivery => exact ⟨rfl, rfl⟩
    | other => exact ⟨rfl, rfl⟩
  | payment => exact ⟨rfl, rfl⟩
  | orderStatus => exact ⟨rfl, rfl⟩
  | delivery w carrier date os =>
    cases p with
    | newOrder => exact ⟨rfl, rfl⟩
    | orderStatus => exact ⟨rfl, rfl⟩
    | delivery nos oIds ids =>
      have hspec := @Exec.gpuDelivery_spec ⟨t, r.deliveredFlag, r.result, r.amount⟩
        (deliveryParams fl rc r carrier date nos oIds ids)
      exact ⟨hspec.order.field (fun _ => rfl) row, hspec.order.field (fun _ => rfl) row⟩
    | other => exact ⟨rfl, rfl⟩
  | stockLevel => exact ⟨rfl, rfl⟩

/-- The item of a line changes only in the NewOrder that has the row. -/
theorem execTxn_line (hrow : row ≠ kAbsent) (h : ∀ w d o c items oId noId ids,
      x = (.newOrder w d o c items, .newOrder oId noId ids) → row ∉ ids) :
    ((execTxn fl rc r t x.1 x.2).orderLine.rows row).olIId = (t.orderLine.rows row).olIId := by
  obtain ⟨u, p⟩ := x
  cases u with
  | newOrder w d o c items =>
    cases p with
    | newOrder oId noId ids =>
      have hne : ∀ y ∈ (newOrderParams fl rc r c items oId noId ids).items, y.orderLineId ≠ row := by
        intro y hy he
        obtain ⟨z, hz, rfl⟩ := List.mem_map.mp hy
        refine h w d o c items oId noId ids rfl ?_
        rw [← (remapLookup_id_eq hrow he).1]
        exact (List.of_mem_zip (List.fst_mem_of_mem_zipIdx hz)).2
      rw [execTxn, Exec.gpuNewOrder_line_of_ne hne]
    | orderStatus => rfl
    | delivery => rfl
    | other => rfl
  | payment => rfl
  | orderStatus => rfl
  | delivery w carrier date os =>
    cases p with
    | newOrder => rfl
    | orderStatus => rfl
    | delivery nos oIds ids =>
      have hspec := @Exec.gpuDelivery_spec ⟨t, r.deliveredFlag, r.result, r.amount⟩
        (deliveryParams fl rc r carrier date nos oIds ids)
      exact hspec.orderLine.field (fun _ => rfl) row
    | other => rfl
  | stockLevel => rfl

end

/-! ### One epoch -/

/-- The index has given a NewOrder the rows of its order and lines. -/
def Placed (g : GpuIndex) (x : TxnInput × TxnParams) : Prop :=
  match x.1 with
  | .newOrder w d o _ items => OrderOk o d w ∧ items.length ≤ 15 ∧
    g.index.order.store.lookup (orderKey o d w) ≠ kAbsent ∧
    (∀ i < items.length, g.index.orderLine.store.lookup (orderLineKey o d w (i + 1)) ≠ kAbsent) ∧
    ∃ noId, x.2 = .newOrder (g.index.order.store.lookup (orderKey o d w)) noId
      ((List.range items.length).map fun i =>
        g.index.orderLine.store.lookup (orderLineKey o d w (i + 1)))
  | _ => True

/-- The ids of a NewOrder fit the fields of its keys. -/
def TxnInput.OrderFits : TxnInput → Prop
  | .newOrder w d o _ items => OrderOk o d w ∧ items.length ≤ 15
  | _ => True

/-- Two transactions insert different orders. -/
def OtherOrder (t u : TxnInput) : Prop := ∀ w d o, t.Inserts w d o → ¬ u.Inserts w d o

section
variable {cfg : Config} {fl : ℚ → ℚ} {rc : RunConfig} {g : GpuIndex} {js : Journals} {r : Rest}
  {t t' : Exec.Tables} {x : TxnInput × TxnParams} {u : TxnInput}

theorem Placed.fits (h : Placed g x) : x.1.OrderFits := by
  obtain ⟨u, p⟩ := x
  cases u with
  | newOrder => exact ⟨h.1, h.2.1⟩
  | payment | orderStatus | delivery | stockLevel => trivial

/-- A transaction leaves the rows of other orders. -/
theorem execTxn_keeps (hg : Logged cfg g js) (hx : Placed g x) (hu : u.OrderFits)
    (hne : OtherOrder x.1 u) (h : OrderStored fl rc g t u) :
    OrderStored fl rc g (execTxn fl rc r t x.1 x.2) u := by
  cases u with
  | newOrder w d o c items =>
    obtain ⟨hok, hlen⟩ := hu
    obtain ⟨hrow, hlines⟩ := h
    refine ⟨⟨hrow.present, fun hlt => ?_⟩, fun i y hy => ⟨(hlines i y hy).present, fun hlt => ?_⟩⟩
    · obtain ⟨h1, h2⟩ := hrow.words hlt
      have hother := @execTxn_order fl rc r t x _ hrow.present fun w' d' o' c' items' oId noId ids hx' he => by
        subst hx'
        obtain ⟨hok', -, hpres, -, noId', hp⟩ := hx
        injection hp with hp
        rw [hp] at he
        obtain ⟨rfl, rfl, rfl⟩ := orderFields_inj hok' hok (hg.order.ok.rows.inj _ _ hpres he)
        exact hne w' d' o' ⟨rfl, rfl, rfl⟩ ⟨rfl, rfl, rfl⟩
      exact ⟨hother.1.trans h1, hother.2.trans h2⟩
    · have hline := hlines i y hy
      rw [← hline.word hlt]
      refine execTxn_line hline.present fun w' d' o' c' items' oId noId ids hx' he => ?_
      subst hx'
      obtain ⟨hok', hlen', -, hpres, noId', hp⟩ := hx
      injection hp with _ _ hp
      rw [hp] at he
      obtain ⟨j, hj, hje⟩ := List.mem_map.mp he
      rw [List.mem_range] at hj
      have hi := (List.getElem?_eq_some_iff.mp hy).1
      obtain ⟨rfl, rfl, rfl, -⟩ := orderLineKey_inj hok' (by omega) hok (by omega)
        (hg.orderLine.ok.rows.inj _ _ (hpres j hj) hje)
      exact hne w' d' o' ⟨rfl, rfl, rfl⟩ ⟨rfl, rfl, rfl⟩
  | payment | orderStatus | delivery | stockLevel => trivial

/-- A NewOrder fills its own rows. -/
theorem execTxn_stores (hg : Logged cfg g js) (hx : Placed g x) :
    OrderStored fl rc g (execTxn fl rc r t x.1 x.2) x.1 := by
  obtain ⟨u, p⟩ := x
  cases u with
  | newOrder w d o c items =>
    obtain ⟨hok, hlen, hpres, hlines, noId, rfl⟩ := hx
    refine ⟨⟨hpres, fun hlt => ?_⟩, fun i y hy => ?_⟩
    · rw [execTxn]
      have hcount : (newOrderParams fl rc r c items (g.index.order.store.lookup (orderKey o d w)) noId
          ((List.range items.length).map fun i =>
            g.index.orderLine.store.lookup (orderLineKey o d w (i + 1)))).numItems =
          BitVec.ofNat 32 items.length := by
        simp [Exec.NewOrderTxnParams.numItems, newOrderParams]
      have hid : (newOrderParams fl rc r c items (g.index.order.store.lookup (orderKey o d w)) noId
          ((List.range items.length).map fun i =>
            g.index.orderLine.store.lookup (orderLineKey o d w (i + 1)))).orderId =
          g.index.order.store.lookup (orderKey o d w) := if_pos hlt
      have h := Exec.gpuNewOrder_order (t := t) (hid ▸ hpres)
      rw [hcount, hid] at h
      exact h
    · have hi := (List.getElem?_eq_some_iff.mp hy).1
      refine ⟨hlines i hi, fun hlt => Exec.gpuNewOrder_line (hlines i hi) ?_ ?_⟩
      · -- another line of the order has another key and so another row
        intro z hz hzr
        obtain ⟨⟨⟨y', crid⟩, j⟩, hj, rfl⟩ := List.mem_map.mp hz
        rw [List.mk_mem_zipIdx_iff_getElem?, List.getElem?_zip_eq_some] at hj
        obtain ⟨hj, hcrid⟩ := hj
        obtain ⟨hjlt, rfl⟩ := getElem?_map_range hcrid
        have hkey := hg.orderLine.ok.rows.inj _ _ (hlines j hjlt) (remapLookup_id_eq (hlines i hi) hzr).1
        obtain ⟨-, -, -, he⟩ := orderLineKey_inj hok (by omega) hok (by omega) hkey
        obtain rfl : j = i := by omega
        rw [hy] at hj
        cases hj
        rfl
      · refine ⟨_, List.mem_map.mpr ⟨((y, _), i), List.mk_mem_zipIdx_iff_getElem?.mpr
          (List.getElem?_zip_eq_some.mpr ⟨hy, ?_⟩), rfl⟩, if_pos hlt⟩
        rw [List.getElem?_map, List.getElem?_range hi]
        rfl
  | payment | orderStatus | delivery | stockLevel => trivial

/-- One epoch: the orders stored before stay, and those of the epoch are stored. -/
theorem executes_stored (hg : Logged cfg g js) {xs : List (TxnInput × TxnParams)}
    (h : Executes fl rc xs t t') (hxs : ∀ x ∈ xs, Placed g x)
    (hpw : xs.Pairwise fun x y => OtherOrder x.1 y.1) :
    (∀ u, u.OrderFits → (∀ x ∈ xs, OtherOrder x.1 u) → OrderStored fl rc g t u →
      OrderStored fl rc g t' u) ∧ ∀ x ∈ xs, OrderStored fl rc g t' x.1 := by
  induction h with
  | nil => exact ⟨fun _ _ _ hu => hu, fun x hx => absurd hx List.not_mem_nil⟩
  | @cons x xs t t' r hrest ih =>
    obtain ⟨hfirst, hpw'⟩ := List.pairwise_cons.mp hpw
    have hx := hxs x List.mem_cons_self
    obtain ⟨hkeep, hnew⟩ := ih (fun y hy => hxs y (List.mem_cons_of_mem _ hy)) hpw'
    refine ⟨fun u hu hne hst => ?_, fun y hy => ?_⟩
    · exact hkeep u hu (fun y hy => hne y (List.mem_cons_of_mem _ hy))
        (execTxn_keeps hg hx hu (hne x List.mem_cons_self) hst)
    · rcases List.mem_cons.mp hy with rfl | hy
      · -- the later transactions insert other orders
        refine hkeep y.1 hx.fits (fun z hz w d o hi hi' => ?_) (execTxn_stores hg hx)
        exact hfirst z hz w d o hi' hi
      · exact hnew y hy

end

section
variable {cfg : Config} {deletePath : Bool} {g g' : GpuIndex} {js : Journals}
  {e : List (TxnInput × Aux)} {idx : Index} {out : EpochOut}

/-- The rows of the later index are those of the earlier one. -/
structure RowsStay (g g' : GpuIndex) : Prop where
  order : ∀ k, g.index.order.store.lookup k ≠ kAbsent →
    g'.index.order.store.lookup k = g.index.order.store.lookup k
  orderLine : ∀ k, g.index.orderLine.store.lookup k ≠ kAbsent →
    g'.index.orderLine.store.lookup k = g.index.orderLine.store.lookup k

/-- The index phase keeps the rows of Order and OrderLine and places the NewOrders of the epoch. -/
theorem epoch_placed (hg : Logged cfg g js) (hgen : Generated cfg deletePath (fillAll e))
    (hroom : Room g.index (fillAll e).length)
    (hout : indexTxns deletePath g.index (fillAll e) = .ok (idx, out))
    (h : g.indexTxns deletePath (fillAll e) = .ok g') :
    RowsStay g g' ∧ ∀ x ∈ (e.map Prod.fst).zip out.params, Placed g' x := by
  obtain ⟨⟨o, oout⟩, ⟨no, nout⟩, ⟨ol, lout⟩, ho, hno, hol, rfl⟩ := indexTxns_tables h
  obtain ⟨o', no', ol', ho', hno', hol', hr⟩ := indexTxns_ok hout
  obtain rfl := Except.ok.inj (ho.symm.trans ho')
  obtain rfl := Except.ok.inj (hno.symm.trans hno')
  obtain rfl := Except.ok.inj (hol.symm.trans hol')
  have hleO := @order_inserts_le (fillAll e)
  have hleL := @line_inserts_le (fillAll e)
  have hinO := orderInput_ok hgen.numbered.count hg.orderCuco
  have hinL : InputOk (orderLineInput (fillAll e)) g.index.orderLine.store (fillAll e).length :=
    orderLineInput_ok (fun t ht => (hgen.each t ht).1) hgen.numbered.count
  have hmO : RowsFit (orderInput (fillAll e)) g.index.order := by
    have := hroom.order
    unfold RowsFit; omega
  have hmL : RowsFit (orderLineInput (fillAll e)) g.index.orderLine := by
    have := hroom.orderLine
    unfold RowsFit; omega
  obtain ⟨hsO, -⟩ := tableEpoch_spec hinO hg.order.ok hmO ho
  obtain ⟨hsL, -⟩ := tableEpoch_spec hinL hg.orderLine.ok hmL hol
  have hiO := hinO.insert_of_no_deletes rfl
  have hiL := hinL.insert_of_no_deletes rfl
  refine ⟨⟨fun k hk => lookup_persists hsO hiO hk, fun k hk => lookup_persists hsL hiL hk⟩, ?_⟩
  intro x hx
  obtain ⟨tid, hx⟩ := List.mem_iff_getElem?.mp hx
  rw [(Prod.mk.inj hr).2] at hx
  obtain ⟨ht, hp⟩ := List.getElem?_zip_eq_some.mp hx
  rw [List.getElem?_map, Option.map_eq_some_iff] at ht
  obtain ⟨⟨u, a⟩, hu, hux⟩ := ht
  have hfill : (fillAll e)[tid]? = some (u.fill a) := by rw [fillAll, List.getElem?_map, hu]; rfl
  have hp' : x.2 = indexTpccTxn nout.resolve oout.resolve lout.resolve tid (u.fill a) := by
    rw [epochOut, List.getElem?_map, List.getElem?_zipIdx, hfill] at hp
    simpa using hp.symm
  obtain ⟨v, q⟩ := x
  simp only at hp' hux
  subst hp' hux
  cases u with
  | newOrder w d o c items =>
    have hok := (hgen.each _ (List.mem_of_getElem? hfill)).1
    obtain ⟨v, hv, hk, hpos⟩ := order_event hfill
    obtain ⟨hrow, hpres⟩ := resolve_inserted hinO hmO hsO hiO hv hpos
    rw [hk] at hrow hpres
    have hline : ∀ i < items.length, lout.resolve (orderLineKey o d w (i + 1)) tid =
        ol.store.lookup (orderLineKey o d w (i + 1)) ∧
          ol.store.lookup (orderLineKey o d w (i + 1)) ≠ kAbsent := by
      intro i hi
      obtain ⟨v, hv, hk, hpos⟩ := line_event hfill hok.2 hi
      have h := resolve_inserted hinL hmL hsL hiL hv hpos
      rwa [hk] at h
    refine ⟨hok.1, hok.2, hpres, fun i hi => (hline i hi).2, nout.resolve (newOrderKey o d w) tid, ?_⟩
    have hids : ((List.range items.length).map fun i => lout.resolve (orderLineKey o d w (i + 1)) tid) =
        (List.range items.length).map fun i => ol.store.lookup (orderLineKey o d w (i + 1)) :=
      List.map_congr_left fun i hi => (hline i (List.mem_range.mp hi)).1
    rw [TxnInput.fill, indexTpccTxn, hrow, hids]
  | payment | orderStatus | delivery | stockLevel => trivial

end

/-! ### Whole runs -/

theorem OrderStored.later {fl : ℚ → ℚ} {rc : RunConfig} {g g' : GpuIndex} {t : Exec.Tables}
    {u : TxnInput} (hs : RowsStay g g') (h : OrderStored fl rc g t u) : OrderStored fl rc g' t u := by
  cases u with
  | newOrder w d o c items =>
    obtain ⟨hrow, hlines⟩ := h
    refine ⟨?_, fun i x hx => ?_⟩
    · rw [hs.order _ hrow.present]
      exact hrow
    · rw [hs.orderLine _ (hlines i x hx).present]
      exact hlines i x hx
  | payment | orderStatus | delivery | stockLevel => trivial

section
variable {fl : ℚ → ℚ} {rc : RunConfig} {durable : Durable} {entryCrid : ℕ → ℕ} {deletePath : Bool}
  {done : List (List (TxnInput × Aux))} {g : GpuIndex} {t : Exec.Tables}

theorem OrderRun.run (h : OrderRun fl rc durable entryCrid deletePath done g t) :
    (GpuIndex.init (rc.config fl) durable entryCrid).run deletePath (done.map fillAll) = .ok g := by
  induction h with
  | start => rfl
  | @epoch done e g g' idx out t t' _ _ hstep _ ih =>
    rw [GpuIndex.run, List.map_append, List.foldlM_append]
    rw [GpuIndex.run] at ih
    rw [ih]
    simp only [List.map_cons, List.map_nil, List.foldlM_cons, List.foldlM_nil, hstep, bind,
      Except.bind, pure, Except.pure]

theorem orderFits_of_generated {e : List (TxnInput × Aux)}
    (hgen : Generated (rc.config fl) deletePath (fillAll e)) : ∀ x ∈ e, x.1.OrderFits := by
  intro x hx
  have h := (hgen.each _ (List.mem_map_of_mem hx)).1
  obtain ⟨u, a⟩ := x
  cases u with
  | newOrder => exact h
  | payment | orderStatus | delivery | stockLevel => trivial

/-- After every history the rows of all its orders hold what their NewOrders put there. -/
theorem orderRun_stored (h : OrderRun fl rc durable entryCrid deletePath done g t)
    (hstart : Logged (rc.config fl) (GpuIndex.init (rc.config fl) durable entryCrid)
      (loadJournals (rc.config fl).numWarehouses))
    (hgen : ∀ e ∈ done, Generated (rc.config fl) deletePath (fillAll e))
    (hroom : Room (GpuIndex.init (rc.config fl) durable entryCrid).index
      ((done.map fillAll).map List.length).sum)
    (hpw : (done.flatten.map Prod.fst).Pairwise OtherOrder) :
    ∀ x ∈ done.flatten, OrderStored fl rc g t x.1 := by
  induction h with
  | start => exact fun x hx => absurd hx (by simp)
  | @epoch done e g g' idx out t t' hrun hout hstep hexec ih =>
    have hgen₀ : ∀ txns ∈ done.map fillAll, Generated (rc.config fl) deletePath txns := by
      intro txns ht
      obtain ⟨e', he', rfl⟩ := List.mem_map.mp ht
      exact hgen e' (List.mem_append_left _ he')
    have hgen₁ := hgen e (List.mem_append_right _ (List.mem_singleton_self _))
    rw [List.map_append, List.map_append, List.sum_append] at hroom
    simp only [List.map_cons, List.map_nil, List.sum_cons, List.sum_nil, Nat.add_zero] at hroom
    obtain ⟨js, hlog, hroom₁, -, -⟩ := logged_run hstart (fun t ht => (hgen₀ t ht).numbered) hroom hrun.run
    obtain ⟨js', hlog', -, -, -⟩ := logged_step hlog hgen₁.numbered (n := 0) hroom₁ hstep
    obtain ⟨hstay, hplaced⟩ := epoch_placed hlog hgen₁ hroom₁ hout hstep
    rw [List.flatten_append, List.flatten_cons, List.flatten_nil, List.append_nil, List.map_append,
      List.pairwise_append] at hpw
    obtain ⟨hpw₀, hpw₁, hacross⟩ := hpw
    have hroom₀ : Room (GpuIndex.init (rc.config fl) durable entryCrid).index
        ((done.map fillAll).map List.length).sum := by
      obtain ⟨r1, r2, r3⟩ := hroom
      exact ⟨by omega, by omega, by omega⟩
    have hlen : out.params.length = e.length := by
      obtain ⟨o, no, ol, -, -, -, hr⟩ := indexTxns_ok hout
      rw [(Prod.mk.inj hr).2, epochOut]
      simp [fillAll]
    have hfst : ((e.map Prod.fst).zip out.params).map Prod.fst = e.map Prod.fst :=
      List.map_fst_zip (by rw [List.length_map, hlen])
    have hpw' : ((e.map Prod.fst).zip out.params).Pairwise fun x y => OtherOrder x.1 y.1 := by
      rw [← hfst, List.pairwise_map] at hpw₁
      exact hpw₁
    obtain ⟨hkeep, hnew⟩ := executes_stored hlog' hexec hplaced hpw'
    have hold := ih (fun e' he' => hgen e' (List.mem_append_left _ he')) hroom₀ hpw₀
    intro x hx
    rw [List.flatten_append, List.flatten_cons, List.flatten_nil, List.append_nil] at hx
    rcases List.mem_append.mp hx with hx | hx
    · obtain ⟨e', he', hxe⟩ := List.mem_flatten.mp hx
      refine hkeep x.1 (orderFits_of_generated (hgen e' (List.mem_append_left _ he')) x hxe) ?_
        ((hold x hx).later hstay)
      intro y hy w d o hi hi'
      have hy' : y.1 ∈ e.map Prod.fst := by
        rw [← hfst]
        exact List.mem_map_of_mem hy
      exact hacross x.1 (List.mem_map_of_mem hx) y.1 hy' w d o hi' hi
    · have hx' : x.1 ∈ ((e.map Prod.fst).zip out.params).map Prod.fst := by
        rw [hfst]
        exact List.mem_map_of_mem hx
      obtain ⟨y, hy, hyx⟩ := List.mem_map.mp hx'
      rw [← hyx]
      exact hnew y hy

end

end Egad.Tpcc
