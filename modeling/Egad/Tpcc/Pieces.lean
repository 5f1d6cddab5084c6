import Egad.Execution.Progress
import Egad.Tpcc.OrderLines

/-! # The work pieces of a TPC-C epoch

    `submitTpccTxn` (`benchmarks/tpcc_gpu_submitter.cu`) gives every table its operations of a
    transaction; `gpuExecTpccTxn` (`benchmarks/tpcc_hybrid_executor.cu`) runs the transaction as one
    piece that goes from table to table.

        NewOrder     W  D D  C  O  N  (I S S L) (I S S L) …
        Payment      W W  D D  C C
        OrderStatus  C  O  L L …
        Delivery     (N O O (L L) (L L) … C C) …
        StockLevel   S S …

    Read down one table, a piece is what was submitted for that table. -/

namespace Egad.Tpcc
open Egad.Lib Egad.Planner Egad.Execution

/-- The tables with records that transactions touch. -/
inductive TableName where
  | warehouse
  | district
  | customer
  | newOrder
  | order
  | orderLine
  | item
  | stock
deriving DecidableEq, Repr

/-- The planners' order in `runEpoch`. -/
def TableName.all : List TableName :=
  [.warehouse, .district, .customer, .newOrder, .order, .orderLine, .item, .stock]

structure ItemParam where
  itemId : ℕ
  stockId : ℕ
  orderLineId : ℕ

structure DeliveryParam where
  newOrderId : ℕ
  orderId : ℕ
  customerId : ℕ
  orderlineIds : List ℕ

/-- The record ids of a transaction's parameters, all tables. -/
inductive ExecParams where
  | newOrder (warehouseId districtId customerId newOrderId orderId : ℕ) (items : List ItemParam)
  | payment (warehouseId districtId customerId : ℕ)
  | orderStatus (customerId orderId : ℕ) (orderlineIds : List ℕ)
  | delivery (districts : List DeliveryParam)
  | stockLevel (stockIds : List ℕ)

/-- The part of the parameters that the index resolves in the growing tables. -/
def ExecParams.growing : ExecParams → TxnParams
  | .newOrder _ _ _ n o items => .newOrder o n (items.map ItemParam.orderLineId)
  | .payment .. => .other
  | .orderStatus _ o lines => .orderStatus o lines
  | .delivery ds => .delivery (ds.map DeliveryParam.newOrderId) (ds.map DeliveryParam.orderId)
      (ds.map DeliveryParam.orderlineIds)
  | .stockLevel _ => .other

/-! ### Submission -/

def readOp (txnId record offset : ℕ) : Op := ⟨record, txnId, false, offset⟩
def writeOp (txnId record offset : ℕ) : Op := ⟨record, txnId, true, offset⟩

/-- The operations of `submitTpccTxn` for one table. -/
def submitTpccTxn (txnId : ℕ) (p : ExecParams) : TableName → List Op
  | .warehouse =>
    match p with
    | .newOrder w .. => [readOp txnId w 0]
    | .payment w .. => [readOp txnId w 0, writeOp txnId w 1]
    | _ => []
  | .district =>
    match p with
    | .newOrder _ d .. => [readOp txnId d 1, writeOp txnId d 2]
    | .payment _ d _ => [readOp txnId d 2, writeOp txnId d 3]
    | _ => []
  | .customer =>
    match p with
    | .newOrder _ _ c .. => [readOp txnId c 3]
    | .payment _ _ c => [readOp txnId c 4, writeOp txnId c 5]
    | .orderStatus c .. => [readOp txnId c 0]
    | .delivery ds => ds.zipIdx.flatMap fun x =>
        [readOp txnId x.1.customerId (30 + x.2), writeOp txnId x.1.customerId (40 + x.2)]
    | .stockLevel _ => []
  | .newOrder =>
    match p with
    | .newOrder _ _ _ n .. => [writeOp txnId n 4]
    | .delivery ds => ds.zipIdx.map fun x => readOp txnId x.1.newOrderId x.2
    | _ => []
  | .order =>
    match p with
    | .newOrder _ _ _ _ o _ => [writeOp txnId o 5]
    | .orderStatus _ o _ => [readOp txnId o 1]
    | .delivery ds => ds.zipIdx.flatMap fun x =>
        [readOp txnId x.1.orderId (10 + x.2), writeOp txnId x.1.orderId (20 + x.2)]
    | _ => []
  | .orderLine => submitOrderLines txnId p.growing
  | .item =>
    match p with
    | .newOrder _ _ _ _ _ items => items.zipIdx.map fun x => readOp txnId x.1.itemId (6 + 4 * x.2)
    | _ => []
  | .stock =>
    match p with
    | .newOrder _ _ _ _ _ items => items.zipIdx.flatMap fun x =>
        [readOp txnId x.1.stockId (7 + 4 * x.2), writeOp txnId x.1.stockId (8 + 4 * x.2)]
    | .stockLevel ss => ss.zipIdx.map fun x => readOp txnId x.1 x.2
    | _ => []

/-- The batches of an epoch. -/
def submitTpccTxns (params : List ExecParams) (t : TableName) : List Op :=
  params.zipIdx.flatMap fun x => submitTpccTxn x.2 x.1 t

/-! ### Execution -/

/-- One item of a NewOrder. -/
def execItem (txnId : ℕ) (x : ItemParam × ℕ) : List (TableName × Op) :=
  [(.item, readOp txnId x.1.itemId (6 + 4 * x.2)),
    (.stock, readOp txnId x.1.stockId (7 + 4 * x.2)),
    (.stock, writeOp txnId x.1.stockId (8 + 4 * x.2)),
    (.orderLine, writeOp txnId x.1.orderLineId (newOrderLineLoc x.2))]

/-- One order line of a Delivery. -/
def execDeliveryLine (txnId i : ℕ) (y : ℕ × ℕ) : List (TableName × Op) :=
  [(.orderLine, readOp txnId y.1 (deliveryReadLoc i y.2)),
    (.orderLine, writeOp txnId y.1 (deliveryWriteLoc i y.2))]

/-- One district of a Delivery. -/
def execDistrict (txnId : ℕ) (x : DeliveryParam × ℕ) : List (TableName × Op) :=
  [(.newOrder, readOp txnId x.1.newOrderId x.2),
    (.order, readOp txnId x.1.orderId (10 + x.2)),
    (.order, writeOp txnId x.1.orderId (20 + x.2))] ++
  x.1.orderlineIds.zipIdx.flatMap (execDeliveryLine txnId x.2) ++
  [(.customer, readOp txnId x.1.customerId (30 + x.2)),
    (.customer, writeOp txnId x.1.customerId (40 + x.2))]

/-- `gpuExecTpccTxn`: the accesses of a transaction in program order. -/
def gpuExecTpccTxn (txnId : ℕ) : ExecParams → List (TableName × Op)
  | .newOrder w d c n o items =>
    [(.warehouse, readOp txnId w 0), (.district, readOp txnId d 1), (.district, writeOp txnId d 2),
      (.customer, readOp txnId c 3), (.order, writeOp txnId o 5), (.newOrder, writeOp txnId n 4)] ++
    items.zipIdx.flatMap (execItem txnId)
  | .payment w d c =>
    [(.warehouse, readOp txnId w 0), (.warehouse, writeOp txnId w 1),
      (.district, readOp txnId d 2), (.district, writeOp txnId d 3),
      (.customer, readOp txnId c 4), (.customer, writeOp txnId c 5)]
  | .orderStatus c o lines =>
    [(.customer, readOp txnId c 0), (.order, readOp txnId o 1)] ++
    lines.zipIdx.map fun x => (.orderLine, readOp txnId x.1 (orderStatusLineLoc x.2))
  | .delivery ds => ds.zipIdx.flatMap (execDistrict txnId)
  | .stockLevel ss => ss.zipIdx.map fun x => (.stock, readOp txnId x.1 x.2)

/-- The pieces of an epoch; the warp of a piece makes one access at a time. -/
def tpccPieces (params : List ExecParams) : Pieces TableName :=
  params.zipIdx.map fun x => (gpuExecTpccTxn x.2 x.1).map fun a => [a]

/-- The hybrid TPC-C executor on an epoch's plan. -/
def tpccExecutor (params : List ExecParams) (plan : ExecPlan) (epoch numWarps : ℕ) :
    Executor TableName where
  submitted := submitTpccTxns params
  pieces := tpccPieces params
  loc t o :=
    let planned := planAll (submitTpccTxns params) TableName.all plan
    if t = .orderLine then execLoc (params.map ExecParams.growing) planned o
    else planned (o.txn, o.offset)
  epoch := epoch
  numWarps := numWarps

/-! ### Pieces and batches agree -/

theorem flatMap_nil_fun {α β : Type} (l : List α) : (l.flatMap fun _ => ([] : List β)) = [] :=
  List.flatMap_eq_nil_iff.mpr fun _ _ => rfl

/-- The accesses of a transaction to one table are what was submitted for the table. -/
theorem gpuExecTpccTxn_filter (txnId : ℕ) (p : ExecParams) (t : TableName) :
    ((gpuExecTpccTxn txnId p).filter fun a => a.1 = t).map Prod.snd = submitTpccTxn txnId p t := by
  cases p with
  | newOrder w d c n o items =>
    cases t <;> simp [gpuExecTpccTxn, submitTpccTxn, submitOrderLines, ExecParams.growing, execItem,
      List.filter_flatMap, List.map_flatMap, List.zipIdx_map, writeOp, Function.comp_def, ← List.map_eq_flatMap]
  | payment w d c => cases t <;> rfl
  | orderStatus c o lines =>
    cases t <;> simp [gpuExecTpccTxn, submitTpccTxn, submitOrderLines, ExecParams.growing,
      List.filter_map, readOp, Function.comp_def]
  | delivery ds =>
    cases t <;> simp [gpuExecTpccTxn, submitTpccTxn, submitOrderLines, ExecParams.growing,
      execDistrict, execDeliveryLine, List.filter_flatMap, List.map_flatMap, List.zipIdx_map,
      List.flatMap_map, readOp, writeOp, flatMap_nil_fun, ← List.map_eq_flatMap]
  | stockLevel ss =>
    cases t <;> simp [gpuExecTpccTxn, submitTpccTxn, submitOrderLines, ExecParams.growing,
      List.filter_map, Function.comp_def]

theorem accesses_tpccPieces (params : List ExecParams) :
    accesses (tpccPieces params) = params.zipIdx.flatMap fun x => gpuExecTpccTxn x.2 x.1 := by
  rw [accesses, tpccPieces]
  induction params.zipIdx with
  | nil => rfl
  | cons x xs ih =>
    rw [List.map_cons, List.flatten_cons, List.flatten_append, ih, List.flatMap_cons]
    simp [← List.flatMap_def]

theorem accessesTo_tpccPieces (params : List ExecParams) (t : TableName) :
    accessesTo (tpccPieces params) t = submitTpccTxns params t := by
  rw [accessesTo, accesses_tpccPieces, List.filter_flatMap, List.map_flatMap]
  exact List.flatMap_congr fun x _ => gpuExecTpccTxn_filter x.2 x.1 t

theorem submitTpccTxns_orderLine (params : List ExecParams) :
    submitTpccTxns params .orderLine = orderLineOps (params.map ExecParams.growing) := by
  rw [submitTpccTxns, orderLineOps, List.zipIdx_map, List.flatMap_map]
  rfl

/-! ### The batch of all tables -/

/-- Parameters that fit their arrays, with 32-bit record ids. -/
def ExecParams.Ok : ExecParams → Prop
  | .newOrder w d c n o items => (∀ r ∈ [w, d, c, n, o], r < 2 ^ 32) ∧ items.length ≤ 15 ∧
      ∀ x ∈ items, x.itemId < 2 ^ 32 ∧ x.stockId < 2 ^ 32 ∧ x.orderLineId < 2 ^ 32
  | .payment w d c => ∀ r ∈ [w, d, c], r < 2 ^ 32
  | .orderStatus c o lines => (∀ r ∈ [c, o], r < 2 ^ 32) ∧ lines.length ≤ 15 ∧ ∀ r ∈ lines, r < 2 ^ 32
  | .delivery ds => ds.length ≤ 10 ∧ ∀ x ∈ ds, (∀ r ∈ [x.newOrderId, x.orderId, x.customerId],
      r < 2 ^ 32) ∧ x.orderlineIds.length ≤ 15 ∧ ∀ r ∈ x.orderlineIds, r < 2 ^ 32
  | .stockLevel ss => ss.length ≤ 300 ∧ ∀ r ∈ ss, r < 2 ^ 32

section
variable {txnId : ℕ}

/-- The plan words of one item. -/
theorem mem_execItem {x : ItemParam × ℕ} {a : TableName × Op} (h : a ∈ execItem txnId x) :
    6 + 4 * x.2 ≤ a.2.offset ∧ a.2.offset < 10 + 4 * x.2 := by
  simp only [execItem, List.mem_cons, List.not_mem_nil, or_false] at h
  rcases h with rfl | rfl | rfl | rfl <;> simp only [readOp, writeOp, newOrderLineLoc] <;> omega

theorem mem_execDeliveryLine {i : ℕ} {y : ℕ × ℕ} {a : TableName × Op}
    (h : a ∈ execDeliveryLine txnId i y) :
    a.2.offset = deliveryReadLoc i y.2 ∨ a.2.offset = deliveryWriteLoc i y.2 := by
  simp only [execDeliveryLine, List.mem_cons, List.not_mem_nil, or_false] at h
  rcases h with rfl | rfl
  · exact Or.inl rfl
  · exact Or.inr rfl

/-- The plan words of one district. -/
theorem mem_execDistrict {x : DeliveryParam × ℕ} (hlen : x.1.orderlineIds.length ≤ 15)
    {a : TableName × Op} (h : a ∈ execDistrict txnId x) :
    (∃ b < 5, a.2.offset = 10 * b + x.2) ∨
      ∃ j < 15, a.2.offset = deliveryReadLoc x.2 j ∨ a.2.offset = deliveryWriteLoc x.2 j := by
  rw [execDistrict, List.mem_append, List.mem_append] at h
  rcases h with (h | h) | h
  · simp only [List.mem_cons, List.not_mem_nil, or_false] at h
    rcases h with rfl | rfl | rfl
    · exact Or.inl ⟨0, by decide, by simp [readOp]⟩
    · exact Or.inl ⟨1, by decide, rfl⟩
    · exact Or.inl ⟨2, by decide, rfl⟩
  · obtain ⟨y, hy, h⟩ := List.mem_flatMap.mp h
    have hlt := (zipIdx_lt hy).2
    exact Or.inr ⟨y.2, by omega, mem_execDeliveryLine h⟩
  · simp only [List.mem_cons, List.not_mem_nil, or_false] at h
    rcases h with rfl | rfl
    · exact Or.inl ⟨3, by decide, rfl⟩
    · exact Or.inl ⟨4, by decide, rfl⟩

theorem execDistrict_words {x : DeliveryParam × ℕ} (hi : x.2 < 10)
    (hlen : x.1.orderlineIds.length ≤ 15) :
    (execDistrict txnId x).Pairwise fun a b => a.2.offset ≠ b.2.offset := by
  -- the words of order lines start at 50
  have hline : ∀ a ∈ x.1.orderlineIds.zipIdx.flatMap (execDeliveryLine txnId x.2), 50 ≤ a.2.offset := by
    intro a ha
    obtain ⟨y, -, ha⟩ := List.mem_flatMap.mp ha
    have := mem_execDeliveryLine ha
    simp only [deliveryReadLoc, deliveryWriteLoc] at this
    omega
  refine List.pairwise_append.mpr ⟨List.pairwise_append.mpr ⟨?_, ?_, fun a ha b hb => ?_⟩, ?_,
    fun a ha b hb => ?_⟩
  · simp [readOp, writeOp]
  · refine List.pairwise_flatMap.mpr ⟨fun y hy => ?_, ?_⟩
    · have := (zipIdx_lt hy).2
      simp only [execDeliveryLine, readOp, writeOp, deliveryReadLoc, deliveryWriteLoc,
        List.pairwise_cons, List.mem_cons, List.not_mem_nil, or_false, forall_eq, false_imp_iff,
        implies_true, List.Pairwise.nil, and_true]
      omega
    · refine (zipIdx_increasing _).imp_of_mem fun {y z} hy hz hyz a ha b hb => ?_
      have := (zipIdx_lt hy).2
      have := (zipIdx_lt hz).2
      have h1 := mem_execDeliveryLine ha
      have h2 := mem_execDeliveryLine hb
      simp only [deliveryReadLoc, deliveryWriteLoc] at h1 h2
      omega
  · have := hline b hb
    simp only [List.mem_cons, List.not_mem_nil, or_false] at ha
    rcases ha with rfl | rfl | rfl <;> simp only [readOp, writeOp] <;> omega
  · simp [readOp, writeOp]
  · simp only [List.mem_cons, List.not_mem_nil, or_false] at hb
    rcases List.mem_append.mp ha with ha | ha
    · simp only [List.mem_cons, List.not_mem_nil, or_false] at ha
      rcases ha with rfl | rfl | rfl <;> rcases hb with rfl | rfl <;>
        simp only [readOp, writeOp] <;> omega
    · have := hline a ha
      rcases hb with rfl | rfl <;> simp only [readOp, writeOp] <;> omega

/-- Every access of a transaction has a plan word of its own. -/
theorem gpuExecTpccTxn_words {p : ExecParams} (hp : p.Ok) :
    (gpuExecTpccTxn txnId p).Pairwise fun a b => a.2.offset ≠ b.2.offset := by
  cases p with
  | newOrder w d c n o items =>
    refine List.pairwise_append.mpr ⟨by simp [readOp, writeOp], ?_, fun a ha b hb => ?_⟩
    · refine List.pairwise_flatMap.mpr ⟨fun x _ => ?_, ?_⟩
      · simp only [execItem, readOp, writeOp, newOrderLineLoc, List.pairwise_cons, List.mem_cons,
          List.not_mem_nil, or_false, forall_eq_or_imp, forall_eq, false_imp_iff, implies_true,
          List.Pairwise.nil, and_true]
        omega
      · refine (zipIdx_increasing items).imp fun {x y} hxy a ha b hb => ?_
        have := mem_execItem ha
        have := mem_execItem hb
        omega
    · obtain ⟨x, -, hb⟩ := List.mem_flatMap.mp hb
      have hlow := (mem_execItem hb).1
      have hhigh : a.2.offset < 6 := by
        simp only [List.mem_cons, List.not_mem_nil, or_false] at ha
        rcases ha with rfl | rfl | rfl | rfl | rfl | rfl <;> simp [readOp, writeOp]
      omega
  | payment w d c => simp [gpuExecTpccTxn, readOp, writeOp]
  | orderStatus c o lines =>
    refine List.pairwise_append.mpr ⟨by simp [readOp], ?_, fun a ha b hb => ?_⟩
    · refine List.pairwise_map.mpr ((zipIdx_increasing lines).imp fun {x y} hxy => ?_)
      simp only [readOp, orderStatusLineLoc]
      omega
    · obtain ⟨x, -, rfl⟩ := List.mem_map.mp hb
      simp only [List.mem_cons, List.not_mem_nil, or_false] at ha
      rcases ha with rfl | rfl <;> simp only [readOp, orderStatusLineLoc] <;> omega
  | delivery ds =>
    obtain ⟨hlen, hds⟩ := hp
    have hlines : ∀ x ∈ ds.zipIdx, x.2 < 10 ∧ x.1.orderlineIds.length ≤ 15 := by
      intro x hx
      obtain ⟨hmem, hlt⟩ := zipIdx_lt hx
      exact ⟨by omega, (hds _ hmem).2.1⟩
    refine List.pairwise_flatMap.mpr ⟨fun x hx => ?_, ?_⟩
    · exact execDistrict_words (hlines x hx).1 (hlines x hx).2
    · refine (zipIdx_increasing ds).imp_of_mem fun {x y} hx hy hxy a ha b hb => ?_
      obtain ⟨hi, hlx⟩ := hlines x hx
      obtain ⟨hj, hly⟩ := hlines y hy
      have h1 := mem_execDistrict hlx ha
      have h2 := mem_execDistrict hly hb
      simp only [deliveryReadLoc, deliveryWriteLoc] at h1 h2
      rcases h1 with ⟨u, hu, h1⟩ | ⟨u, hu, h1 | h1⟩ <;>
        rcases h2 with ⟨v, hv, h2⟩ | ⟨v, hv, h2 | h2⟩ <;> omega
  | stockLevel ss =>
    refine List.pairwise_map.mpr ((zipIdx_increasing ss).imp fun {x y} hxy => ?_)
    simp only [readOp]
    omega

/-- Every access of a transaction fits the submitted word. -/
theorem gpuExecTpccTxn_fits (htxn : txnId < 2 ^ 20) {p : ExecParams} (hp : p.Ok) :
    ∀ a ∈ gpuExecTpccTxn txnId p, a.2.txn = txnId ∧ a.2.Fits := by
  have hread : ∀ {r off : ℕ}, r < 2 ^ 32 → off < 2 ^ 11 →
      (readOp txnId r off).txn = txnId ∧ (readOp txnId r off).Fits :=
    fun hr hoff => ⟨rfl, hr, htxn, hoff⟩
  have hwrite : ∀ {r off : ℕ}, r < 2 ^ 32 → off < 2 ^ 11 →
      (writeOp txnId r off).txn = txnId ∧ (writeOp txnId r off).Fits :=
    fun hr hoff => ⟨rfl, hr, htxn, hoff⟩
  cases p with
  | newOrder w d c n o items =>
    obtain ⟨hids, hlen, hitems⟩ := hp
    simp only [List.forall_mem_cons, List.not_mem_nil, false_imp_iff, implies_true, and_true] at hids
    obtain ⟨hw, hd, hc, hn, ho⟩ := hids
    refine List.forall_mem_append.mpr ⟨?_, List.forall_mem_flatMap.mpr fun x hx => ?_⟩
    · simp only [List.forall_mem_cons, List.not_mem_nil, false_imp_iff, implies_true, and_true]
      exact ⟨hread hw (by decide), hread hd (by decide), hwrite hd (by decide), hread hc (by decide),
        hwrite ho (by decide), hwrite hn (by decide)⟩
    · obtain ⟨hmem, hlt⟩ := zipIdx_lt hx
      obtain ⟨hi, hs, hl⟩ := hitems _ hmem
      simp only [execItem, List.forall_mem_cons, List.not_mem_nil, false_imp_iff, implies_true,
        and_true]
      exact ⟨hread hi (by omega), hread hs (by omega), hwrite hs (by omega),
        hwrite hl (by rw [newOrderLineLoc]; omega)⟩
  | payment w d c =>
    simp only [ExecParams.Ok, List.forall_mem_cons, List.not_mem_nil, false_imp_iff, implies_true,
      and_true] at hp
    obtain ⟨hw, hd, hc⟩ := hp
    simp only [gpuExecTpccTxn, List.forall_mem_cons, List.not_mem_nil, false_imp_iff, implies_true,
      and_true]
    exact ⟨hread hw (by decide), hwrite hw (by decide), hread hd (by decide), hwrite hd (by decide),
      hread hc (by decide), hwrite hc (by decide)⟩
  | orderStatus c o lines =>
    obtain ⟨hids, hlen, hlines⟩ := hp
    simp only [List.forall_mem_cons, List.not_mem_nil, false_imp_iff, implies_true, and_true] at hids
    refine List.forall_mem_append.mpr ⟨?_, fun a ha => ?_⟩
    · simp only [List.forall_mem_cons, List.not_mem_nil, false_imp_iff, implies_true, and_true]
      exact ⟨hread hids.1 (by decide), hread hids.2 (by decide)⟩
    · obtain ⟨x, hx, rfl⟩ := List.mem_map.mp ha
      obtain ⟨hmem, hlt⟩ := zipIdx_lt hx
      exact hread (hlines _ hmem) (by rw [orderStatusLineLoc]; omega)
  | delivery ds =>
    obtain ⟨hlen, hds⟩ := hp
    refine List.forall_mem_flatMap.mpr fun x hx => ?_
    obtain ⟨hmem, hlt⟩ := zipIdx_lt hx
    obtain ⟨hids, hlen', hlines⟩ := hds _ hmem
    simp only [List.forall_mem_cons, List.not_mem_nil, false_imp_iff, implies_true, and_true] at hids
    obtain ⟨hn, ho, hc⟩ := hids
    refine List.forall_mem_append.mpr ⟨List.forall_mem_append.mpr
      ⟨?_, List.forall_mem_flatMap.mpr fun y hy => ?_⟩, ?_⟩
    · simp only [List.forall_mem_cons, List.not_mem_nil, false_imp_iff, implies_true, and_true]
      exact ⟨hread hn (by omega), hread ho (by omega), hwrite ho (by omega)⟩
    · obtain ⟨hmem', hlt'⟩ := zipIdx_lt hy
      simp only [execDeliveryLine, List.forall_mem_cons, List.not_mem_nil, false_imp_iff,
        implies_true, and_true]
      exact ⟨hread (hlines _ hmem') (by rw [deliveryReadLoc]; omega),
        hwrite (hlines _ hmem') (by rw [deliveryWriteLoc]; omega)⟩
    · simp only [List.forall_mem_cons, List.not_mem_nil, false_imp_iff, implies_true, and_true]
      exact ⟨hread hc (by omega), hwrite hc (by omega)⟩
  | stockLevel ss =>
    obtain ⟨hlen, hss⟩ := hp
    intro a ha
    obtain ⟨x, hx, rfl⟩ := List.mem_map.mp ha
    obtain ⟨hmem, hlt⟩ := zipIdx_lt hx
    exact hread (hss _ hmem) (by omega)

end

theorem accesses_batch {params : List ExecParams} (hlen : params.length ≤ 2 ^ 20)
    (hok : ∀ p ∈ params, p.Ok) : Batch ((accesses (tpccPieces params)).map Prod.snd) := by
  rw [accesses_tpccPieces, List.map_flatMap]
  have hfits : ∀ x ∈ params.zipIdx, ∀ o ∈ (gpuExecTpccTxn x.2 x.1).map Prod.snd,
      o.txn = x.2 ∧ o.Fits := by
    intro x hx o ho
    obtain ⟨hmem, hlt⟩ := zipIdx_lt hx
    obtain ⟨a, ha, rfl⟩ := List.mem_map.mp ho
    exact gpuExecTpccTxn_fits (by omega) (hok _ hmem) a ha
  exact batch_of_blocks (fun k p => (gpuExecTpccTxn k p).map Prod.snd) Prod.fst monotone_id (fun x hx o ho => (hfits x hx o ho).2)
    (fun x hx o ho => ⟨(hfits x hx o ho).1, (hfits x hx o ho).1⟩)
    fun x hx => List.pairwise_map.mpr (gpuExecTpccTxn_words (hok _ (zipIdx_lt hx).1))

/-- No reader of the hybrid TPC-C executor waits forever, if no write of an order line follows a
    Delivery's. -/
theorem noDeadlock_tpcc {V : Type} {params : List ExecParams} (hlen : params.length ≤ 2 ^ 20)
    (hok : ∀ p ∈ params, p.Ok) (hlast : DeliveryLast (params.map ExecParams.growing))
    {grid : TableName → ℕ → ℕ} (hgrid : ∀ t, Remaps (grid t) (submitTpccTxns params t))
    (plan : ExecPlan) {epoch numWarps : ℕ} {m : TableName → Memory V}
    (hstart : ∀ t c, (m t).tag c < epoch) (hW : 0 < numWarps) :
    NoDeadlock ((tpccExecutor params plan epoch numWarps).remap grid) m := by
  have horder : ∀ t, submitTpccTxns params t = accessesTo (tpccPieces params) t :=
    fun t => (accessesTo_tpccPieces params t).symm
  have hb := accesses_batch hlen hok
  have hall : ∀ t, t ∈ TableName.all := fun t => by cases t <;> decide
  have hlanes : ∀ piece ∈ tpccPieces params, ∀ g ∈ piece,
      g.length ≤ 1 ∨ ∀ a ∈ g, a.2.isWrite = false := by
    intro piece hpiece g hg
    obtain ⟨x, -, rfl⟩ := List.mem_map.mp hpiece
    obtain ⟨a, -, rfl⟩ := List.mem_map.mp hg
    exact Or.inl le_rfl
  have hlines := submitTpccTxns_orderLine params
  have hbatch : ∀ t, Batch (submitTpccTxns params t) := fun t => horder t ▸ Batch.accessesTo hb t
  have hloc : ∀ t, ∀ o ∈ submitTpccTxns params t, o.record ≠ kNoRecord →
      (tpccExecutor params plan epoch numWarps).loc t o =
        planAll (submitTpccTxns params) TableName.all plan (o.txn, o.offset) := by
    intro t o ho hr
    simp only [tpccExecutor]
    split
    · next ht =>
      -- the hard-coded record B is the planned location
      subst ht
      have hplanned := (sound_of_last (hlines ▸ hbatch .orderLine) hlast plan).planned o
        (hlines ▸ ho) hr
      rw [execLoc] at hplanned ⊢
      split
      · next hd =>
        rw [if_pos hd, ← hlines] at hplanned
        rw [hplanned]
        exact (planAll_eq_locOf hbatch (fun hne o ho o' ho' => words_of_batch horder hb hne ho ho')
          (by decide) (hall _) plan ho).symm
      · rfl
    · rfl
  exact noDeadlock_of_plan horder hb hlanes (by decide : TableName.all.Nodup) hall hloc hgrid
    (fun t o => rfl) hstart hW

end Egad.Tpcc
