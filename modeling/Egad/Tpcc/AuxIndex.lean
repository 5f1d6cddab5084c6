import Egad.Tpcc.Generator
import Mathlib.Order.Bounds.Basic
import Mathlib.Tactic.Ring

/-! # The auxiliary index (`benchmarks/tpcc_gpu_aux_index.cu`)

    An OrderStatus asks for the newest order of a customer. Before the queries of an epoch run, both
    forms of the auxiliary index take in all NewOrders of the epoch:

        flat      latest[(w, d, c)]         the largest order id, by `atomicMax`
        B-tree    w:6 | d:4 | c:12 | o:20   one key an order, with 2^20 - 1 - o for o

    The flat form answers with the entry of the customer. The B-tree form answers with the first key
    from the bound of the query on, which is the newest order not above it: it honours the bound, and
    only sees ids and warehouses through the bits of the key. -/

namespace Egad.Tpcc

/-! ### The order log -/

/-- `order_num_items`, `order_customers` and `order_items`. -/
structure OrderLog where
  numItems : ℕ → ℕ
  customers : ℕ → ℕ
  items : ℕ → ℕ → ℕ

def districtId (w d : ℕ) : ℕ := d - 1 + (w - 1) * 10

/-- `cache_idx`. -/
def cacheIdx (numSlotsPerDistrict w d o : ℕ) : ℕ := districtId w d * numSlotsPerDistrict + o

/-- What both insert kernels write for a NewOrder. -/
def OrderLog.insert (numSlotsPerDistrict : ℕ) (log : OrderLog) : TxnInput → OrderLog
  | .newOrder w d o c items =>
    let idx := cacheIdx numSlotsPerDistrict w d o
    { numItems := Function.update log.numItems idx items.length
      customers := Function.update log.customers idx c
      items := Function.update log.items idx fun i => (items[i]?.map OrderItem.iId).getD (log.items idx i) }
  | _ => log

/-- An order of a customer. -/
structure CustomerOrder where
  wId : ℕ
  dId : ℕ
  cId : ℕ
  oId : ℕ
deriving DecidableEq, Repr

/-- The orders of the loader, one for each customer. -/
def loadedOrders (numWarehouses : ℕ) : List CustomerOrder :=
  (List.range numWarehouses).flatMap fun w => (List.range 10).flatMap fun d =>
    (List.range 3000).map fun o => ⟨w + 1, d + 1, o + 1, o + 1⟩

/-- The log of `loadInitialData`; the items are drawn at random. -/
def initialLog (numSlotsPerDistrict numWarehouses : ℕ) (items : ℕ → ℕ → ℕ) : OrderLog :=
  (loadedOrders numWarehouses).foldl (fun log x =>
    let idx := cacheIdx numSlotsPerDistrict x.wId x.dId x.oId
    { log with
      numItems := Function.update log.numItems idx 15
      customers := Function.update log.customers idx x.cId }) ⟨fun _ => 0, fun _ => 0, items⟩

/-! ### The flat form -/

structure FlatAux where
  log : OrderLog
  latestOid : ℕ → ℕ

/-- `latest_slot`, with 3000 customers in a district. -/
def latestSlot (w d c : ℕ) : ℕ := districtId w d * 3000 + (c - 1)

/-- `k_init_latest_oid_initial`, over whatever the allocation holds. -/
def initLatestOid (numWarehouses : ℕ) (mem : ℕ → ℕ) : ℕ → ℕ := fun tid =>
  if tid < numWarehouses * 10 * 3000 then tid % 3000 + 1 else mem tid

def FlatAux.load (numSlotsPerDistrict numWarehouses : ℕ) (items : ℕ → ℕ → ℕ) (mem : ℕ → ℕ) : FlatAux :=
  ⟨initialLog numSlotsPerDistrict numWarehouses items, initLatestOid numWarehouses mem⟩

/-- One thread of `insert_txn_updates_flat_kernel`. -/
def FlatAux.insert (numSlotsPerDistrict : ℕ) (f : FlatAux) (t : TxnInput) : FlatAux where
  log := f.log.insert numSlotsPerDistrict t
  latestOid := match t with
    | .newOrder w d o c _ =>
      Function.update f.latestOid (latestSlot w d c) (max (f.latestOid (latestSlot w d c)) o)
    | _ => f.latestOid

/-! ### The B-tree form -/

structure BTreeAux where
  log : OrderLog
  keys : List ℕ

def maxOId : ℕ := 2 ^ 20 - 1

/-- `PackedCustomerOrderKey`. -/
def packedCustomerOrderKey (o c d w : ℕ) : ℕ :=
  o % 2 ^ 20 + 2 ^ 20 * (c % 2 ^ 12) + 2 ^ 32 * (d % 2 ^ 4) + 2 ^ 36 * (w % 2 ^ 6)

/-- `max_o_id - o_id` in 64 bits. -/
def hackedOId (o : ℕ) : ℕ := (2 ^ 64 + maxOId - o % 2 ^ 64) % 2 ^ 64

def CustomerOrder.key (x : CustomerOrder) : ℕ :=
  packedCustomerOrderKey (hackedOId x.oId) x.cId x.dId x.wId

def BTreeAux.load (numSlotsPerDistrict numWarehouses : ℕ) (items : ℕ → ℕ → ℕ) : BTreeAux :=
  ⟨initialLog numSlotsPerDistrict numWarehouses items, (loadedOrders numWarehouses).map CustomerOrder.key⟩

/-- One turn of the loop of `insert_txn_updates_kernel`. -/
def BTreeAux.insert (numSlotsPerDistrict : ℕ) (b : BTreeAux) (t : TxnInput) : BTreeAux where
  log := b.log.insert numSlotsPerDistrict t
  keys := match t with
    | .newOrder w d o c _ => b.keys ++ [packedCustomerOrderKey (hackedOId o) c d w]
    | _ => b.keys

/-! ### Queries -/

/-- What `performRangeQueries` fills in. -/
inductive QueryOut where
  | orderStatus (oId numItems : ℕ)
  | delivery (numItems customers : List ℕ)
  | stockLevel (stockIds : List ℕ)
  | none
deriving DecidableEq

/-- The stock ids of the last twenty orders up to `o`; `o - 20` is unsigned. -/
def stockIds (numSlotsPerDistrict : ℕ) (log : OrderLog) (w d o : ℕ) : List ℕ :=
  if o < 20 then []
  else ((List.range 20).flatMap fun i =>
    let idx := cacheIdx numSlotsPerDistrict w d (o - i)
    (List.range (log.numItems idx)).map (log.items idx)).mergeSort

/-- The range queries of one transaction; `find` looks up the order of an OrderStatus. -/
def performRangeQuery (numSlotsPerDistrict : ℕ) (log : OrderLog) (find : ℕ → ℕ → ℕ → ℕ → ℕ) :
    TxnInput → QueryOut
  | .orderStatus w d c o =>
    let oId := find w d c o
    .orderStatus oId (log.numItems (cacheIdx numSlotsPerDistrict w d oId))
  | .delivery w _ _ os =>
    let slots := os.zipIdx.map fun x =>
      if x.1 = 0 then (0, 0xffffffff)
      else
        let idx := (x.2 + (w - 1) * 10) * numSlotsPerDistrict + x.1
        (log.numItems idx, log.customers idx)
    .delivery (slots.map Prod.fst) (slots.map Prod.snd)
  | .stockLevel w d o _ => .stockLevel (stockIds numSlotsPerDistrict log w d o)
  | _ => .none

/-- The order id of the flat kernel. -/
def FlatAux.find (f : FlatAux) (w d c _o : ℕ) : ℕ := f.latestOid (latestSlot w d c)

/-- The order id of the B-tree kernel; `findNext` is the tree's `cooperative_find_next`. -/
def BTreeAux.find (findNext : List ℕ → ℕ → ℕ → ℕ) (b : BTreeAux) (w d c o : ℕ) : ℕ :=
  let lower := packedCustomerOrderKey (hackedOId o) c d w
  let upper := lower - lower % 2 ^ 20 + maxOId
  maxOId - findNext b.keys lower upper % 2 ^ 20

/-- `perform_range_queries_flat_kernel`. -/
def FlatAux.query (numSlotsPerDistrict : ℕ) (f : FlatAux) : TxnInput → QueryOut :=
  performRangeQuery numSlotsPerDistrict f.log f.find

/-- `perform_range_queries_kernel`. -/
def BTreeAux.query (findNext : List ℕ → ℕ → ℕ → ℕ) (numSlotsPerDistrict : ℕ) (b : BTreeAux) :
    TxnInput → QueryOut :=
  performRangeQuery numSlotsPerDistrict b.log (b.find findNext)

/-! ### Runs -/

section
variable (numSlotsPerDistrict numWarehouses : ℕ) (items : ℕ → ℕ → ℕ)

/-- The flat index when the queries of the last epoch run; the threads of a kernel take effect in
    the order of the list. -/
def FlatAux.run (mem : ℕ → ℕ) (epochs : List (List TxnInput)) : FlatAux :=
  epochs.foldl (fun f txns => txns.foldl (FlatAux.insert numSlotsPerDistrict) f)
    (.load numSlotsPerDistrict numWarehouses items mem)

def BTreeAux.run (epochs : List (List TxnInput)) : BTreeAux :=
  epochs.foldl (fun b txns => txns.foldl (BTreeAux.insert numSlotsPerDistrict) b)
    (.load numSlotsPerDistrict numWarehouses items)

end

def TxnInput.order : TxnInput → Option CustomerOrder
  | .newOrder w d o c _ => some ⟨w, d, c, o⟩
  | _ => none

/-- Every order of a history: the loader's and those of all epochs. -/
def allOrders (numWarehouses : ℕ) (epochs : List (List TxnInput)) : List CustomerOrder :=
  loadedOrders numWarehouses ++ epochs.flatten.filterMap TxnInput.order

/-- A customer that exists. -/
def CustomerOk (numWarehouses w d c : ℕ) : Prop :=
  (1 ≤ w ∧ w ≤ numWarehouses) ∧ (1 ≤ d ∧ d ≤ 10) ∧ 1 ≤ c ∧ c ≤ 3000

/-- What `cooperative_find_next` promises: the smallest stored key of the range. -/
def FindsNext (findNext : List ℕ → ℕ → ℕ → ℕ) : Prop :=
  ∀ keys lo hi, (∃ k ∈ keys, lo ≤ k ∧ k ≤ hi) →
    IsLeast {k | k ∈ keys ∧ lo ≤ k ∧ k ≤ hi} (findNext keys lo hi)

/-! ### Keys -/

/-- The customer part of a key. -/
def customerBits (w d c : ℕ) : ℕ := c % 2 ^ 12 + 2 ^ 12 * (d % 2 ^ 4) + 2 ^ 16 * (w % 2 ^ 6)

theorem hackedOId_mod (o : ℕ) : hackedOId o % 2 ^ 20 = maxOId - o % 2 ^ 20 := by
  simp only [hackedOId, maxOId]
  omega

/-- A key is the customer's bits over the reversed order id. -/
theorem key_split (o w d c : ℕ) :
    packedCustomerOrderKey (hackedOId o) c d w = (maxOId - o % 2 ^ 20) + 2 ^ 20 * customerBits w d c := by
  rw [packedCustomerOrderKey, hackedOId_mod, customerBits]
  ring

theorem customerBits_eq_iff {w d c w' d' c' : ℕ} (hd : d ≤ 10) (hd' : d' ≤ 10) (hc : c ≤ 3000)
    (hc' : c' ≤ 3000) :
    customerBits w' d' c' = customerBits w d c ↔ w' % 2 ^ 6 = w % 2 ^ 6 ∧ d' = d ∧ c' = c := by
  simp only [customerBits]
  omega

/-- A stored key lies in the range of a query when it is of the same customer and its order id is not
    above the bound, as far as the bits of the key go. -/
theorem key_mem_range {x : CustomerOrder} {w d c o : ℕ} :
    (packedCustomerOrderKey (hackedOId o) c d w ≤ x.key ∧
      x.key ≤ packedCustomerOrderKey (hackedOId o) c d w -
        packedCustomerOrderKey (hackedOId o) c d w % 2 ^ 20 + maxOId) ↔
    customerBits x.wId x.dId x.cId = customerBits w d c ∧ x.oId % 2 ^ 20 ≤ o % 2 ^ 20 := by
  rw [CustomerOrder.key, key_split, key_split]
  simp only [maxOId]
  omega

/-- The order id of a key. -/
theorem key_oId (x : CustomerOrder) : maxOId - x.key % 2 ^ 20 = x.oId % 2 ^ 20 := by
  rw [CustomerOrder.key, key_split]
  simp only [maxOId]
  omega

/-- Of two keys of a customer, the smaller one has the newer order. -/
theorem key_le_iff {x y : CustomerOrder}
    (h : customerBits x.wId x.dId x.cId = customerBits y.wId y.dId y.cId) :
    x.key ≤ y.key ↔ y.oId % 2 ^ 20 ≤ x.oId % 2 ^ 20 := by
  rw [CustomerOrder.key, CustomerOrder.key, key_split, key_split, h]
  simp only [maxOId]
  omega

/-! ### What the two forms hold -/

theorem mem_loadedOrders {W : ℕ} {x : CustomerOrder} :
    x ∈ loadedOrders W ↔ CustomerOk W x.wId x.dId x.cId ∧ x.oId = x.cId := by
  obtain ⟨w, d, c, o⟩ := x
  simp only [loadedOrders, List.mem_flatMap, List.mem_map, List.mem_range, CustomerOrder.mk.injEq,
    CustomerOk]
  constructor
  · rintro ⟨a, ha, b, hb, i, hi, rfl, rfl, rfl, rfl⟩
    omega
  · rintro ⟨⟨⟨hw, hW⟩, ⟨hd, hD⟩, hc, hC⟩, rfl⟩
    exact ⟨w - 1, by omega, d - 1, by omega, o - 1, by omega, by omega, by omega, by omega, by omega⟩

/-- The entries of the flat form are the customers. -/
theorem latestSlot_inj {W w d c w' d' c' : ℕ} (h : CustomerOk W w d c) (h' : CustomerOk W w' d' c') :
    latestSlot w' d' c' = latestSlot w d c ↔ w' = w ∧ d' = d ∧ c' = c := by
  simp only [CustomerOk] at h h'
  simp only [latestSlot, districtId]
  omega

theorem latestSlot_lt {W w d c : ℕ} (h : CustomerOk W w d c) : latestSlot w d c < W * 10 * 3000 := by
  simp only [CustomerOk] at h
  simp only [latestSlot, districtId]
  omega

section
variable {numSlotsPerDistrict W : ℕ} {items : ℕ → ℕ → ℕ} {mem : ℕ → ℕ}

/-- The entry of each customer is the largest id among the customer's orders. -/
def Latest (W : ℕ) (orders : List CustomerOrder) (latest : ℕ → ℕ) : Prop :=
  ∀ w d c, CustomerOk W w d c →
    IsGreatest {o | (⟨w, d, c, o⟩ : CustomerOrder) ∈ orders} (latest (latestSlot w d c))

/-- NewOrders are of customers that exist. -/
def TxnInput.CustomerOk (W : ℕ) : TxnInput → Prop
  | .newOrder w d _ c _ => Tpcc.CustomerOk W w d c
  | _ => True

theorem latest_load : Latest W (loadedOrders W) (initLatestOid W mem) := by
  intro w d c h
  have hlt := latestSlot_lt h
  have hval : initLatestOid W mem (latestSlot w d c) = c := by
    rw [initLatestOid, if_pos hlt]
    simp only [CustomerOk] at h
    simp only [latestSlot]
    omega
  rw [hval]
  exact ⟨mem_loadedOrders.mpr ⟨h, rfl⟩, fun o ho => (mem_loadedOrders.mp ho).2.le⟩

theorem latest_insert {orders : List CustomerOrder} {f : FlatAux} {t : TxnInput}
    (h : Latest W orders f.latestOid) (ht : t.CustomerOk W) :
    Latest W (orders ++ t.order.toList) (f.insert numSlotsPerDistrict t).latestOid := by
  cases t with
  | newOrder w d o c its =>
    intro w' d' c' hc'
    obtain ⟨hmem, hub⟩ := h w' d' c' hc'
    simp only [FlatAux.insert, TxnInput.order, Option.toList_some]
    rcases Classical.em (w' = w ∧ d' = d ∧ c' = c) with ⟨rfl, rfl, rfl⟩ | hne
    · rw [Function.update_self]
      refine ⟨?_, fun x hx => ?_⟩
      · rcases le_total o (f.latestOid (latestSlot w' d' c')) with hle | hle
        · rw [max_eq_left hle]
          exact List.mem_append_left _ hmem
        · rw [max_eq_right hle]
          exact List.mem_append_right _ (List.mem_singleton_self _)
      · rcases List.mem_append.mp hx with hx | hx
        · exact (hub hx).trans (le_max_left _ _)
        · cases List.mem_singleton.mp hx
          exact le_max_right _ _
    · rw [Function.update_of_ne fun heq => hne ((latestSlot_inj ht hc').mp heq)]
      refine ⟨List.mem_append_left _ hmem, fun x hx => ?_⟩
      rcases List.mem_append.mp hx with hx | hx
      · exact hub hx
      · cases List.mem_singleton.mp hx
        exact absurd ⟨rfl, rfl, rfl⟩ hne
  | payment | orderStatus | delivery | stockLevel =>
    simpa only [FlatAux.insert, TxnInput.order, Option.toList_none, List.append_nil] using h

theorem keys_insert {orders : List CustomerOrder} {b : BTreeAux} (h : b.keys = orders.map CustomerOrder.key)
    (t : TxnInput) :
    (b.insert numSlotsPerDistrict t).keys = (orders ++ t.order.toList).map CustomerOrder.key := by
  rw [List.map_append, ← h]
  cases t with
  | newOrder w d o c its => rfl
  | payment | orderStatus | delivery | stockLevel => exact (List.append_nil _).symm

/-- One epoch of both forms. -/
theorem epoch_orders {txns : List TxnInput} (ht : ∀ t ∈ txns, t.CustomerOk W) :
    ∀ {orders : List CustomerOrder} {f : FlatAux} {b : BTreeAux}, Latest W orders f.latestOid →
      b.keys = orders.map CustomerOrder.key → f.log = b.log →
      Latest W (orders ++ txns.filterMap TxnInput.order)
        (txns.foldl (FlatAux.insert numSlotsPerDistrict) f).latestOid ∧
      (txns.foldl (BTreeAux.insert numSlotsPerDistrict) b).keys =
        (orders ++ txns.filterMap TxnInput.order).map CustomerOrder.key ∧
      (txns.foldl (FlatAux.insert numSlotsPerDistrict) f).log =
        (txns.foldl (BTreeAux.insert numSlotsPerDistrict) b).log := by
  induction txns with
  | nil =>
    intro orders f b hf hb hl
    rw [List.filterMap_nil, List.append_nil]
    exact ⟨hf, hb, hl⟩
  | cons t txns ih =>
    intro orders f b hf hb hl
    have hcons : (t :: txns).filterMap TxnInput.order =
        t.order.toList ++ txns.filterMap TxnInput.order := by
      cases ho : t.order with
      | none => rw [List.filterMap_cons_none ho, Option.toList_none, List.nil_append]
      | some x => rw [List.filterMap_cons_some ho, Option.toList_some, List.singleton_append]
    rw [List.foldl_cons, List.foldl_cons, hcons, ← List.append_assoc]
    refine ih (fun u hu => ht u (List.mem_cons_of_mem _ hu))
      (latest_insert hf (ht t List.mem_cons_self)) (keys_insert hb t) ?_
    simp only [FlatAux.insert, BTreeAux.insert, hl]

/-- Whole histories: the flat form has the largest id of each customer, the B-tree form has the key of
    every order, and the logs are the same. -/
theorem run_orders {epochs : List (List TxnInput)} (ht : ∀ txns ∈ epochs, ∀ t ∈ txns, t.CustomerOk W) :
    Latest W (allOrders W epochs) (FlatAux.run numSlotsPerDistrict W items mem epochs).latestOid ∧
    (BTreeAux.run numSlotsPerDistrict W items epochs).keys =
      (allOrders W epochs).map CustomerOrder.key ∧
    (FlatAux.run numSlotsPerDistrict W items mem epochs).log =
      (BTreeAux.run numSlotsPerDistrict W items epochs).log := by
  rw [FlatAux.run, BTreeAux.run, ← List.foldl_flatten, ← List.foldl_flatten]
  refine epoch_orders (fun t h => ?_) latest_load rfl rfl
  obtain ⟨txns, hmem, h⟩ := List.mem_flatten.mp h
  exact ht txns hmem t h

/-! ### The answers -/

/-- The orders a query of customer `(w, d, c)` with bound `o` finds in the tree. -/
def InRange (orders : List CustomerOrder) (w d c o : ℕ) (x : CustomerOrder) : Prop :=
  x ∈ orders ∧ customerBits x.wId x.dId x.cId = customerBits w d c ∧ x.oId % 2 ^ 20 ≤ o % 2 ^ 20

/-- The B-tree form answers with the newest order in the range of the query. -/
theorem btree_find {findNext : List ℕ → ℕ → ℕ → ℕ} (hf : FindsNext findNext) {b : BTreeAux}
    {orders : List CustomerOrder} (hb : b.keys = orders.map CustomerOrder.key) {w d c o : ℕ}
    (hex : ∃ x, InRange orders w d c o x) :
    IsGreatest {n | ∃ x, InRange orders w d c o x ∧ x.oId % 2 ^ 20 = n} (b.find findNext w d c o) := by
  obtain ⟨x, hx⟩ := hex
  have hkey : ∀ y, InRange orders w d c o y → y.key ∈ b.keys := fun y hy => by
    rw [hb]
    exact List.mem_map_of_mem hy.1
  obtain ⟨⟨hmem, hrange⟩, hlow⟩ := hf b.keys _ _ ⟨x.key, hkey x hx, key_mem_range.mpr hx.2⟩
  rw [BTreeAux.find]
  generalize findNext b.keys _ _ = k at hmem hrange hlow ⊢
  rw [hb] at hmem
  obtain ⟨y, hy, rfl⟩ := List.mem_map.mp hmem
  have hyr : InRange orders w d c o y := ⟨hy, key_mem_range.mp hrange⟩
  rw [key_oId]
  refine ⟨⟨y, hyr, rfl⟩, ?_⟩
  rintro n ⟨z, hz, rfl⟩
  exact (key_le_iff (hyr.2.1.trans hz.2.1.symm)).mp (hlow ⟨hkey z hz, key_mem_range.mpr hz.2⟩)

/-- The smallest stored key of a range, with `dflt` where there is none. -/
def leastKey (dflt : ℕ) (keys : List ℕ) (lo hi : ℕ) : ℕ :=
  ((keys.filter fun k => lo ≤ k ∧ k ≤ hi).min?).getD dflt

theorem leastKey_findsNext (dflt : ℕ) : FindsNext (leastKey dflt) := by
  rintro keys lo hi ⟨k, hk, hlo, hhi⟩
  cases hm : (keys.filter fun k => lo ≤ k ∧ k ≤ hi).min? with
  | none =>
    have hnil := List.min?_eq_none_iff.mp hm
    have : k ∈ keys.filter fun k => lo ≤ k ∧ k ≤ hi := List.mem_filter.mpr ⟨hk, by simp [hlo, hhi]⟩
    rw [hnil] at this
    exact absurd this List.not_mem_nil
  | some m =>
    obtain ⟨hmem, hle⟩ := List.min?_eq_some_iff.mp hm
    rw [leastKey, hm]
    have hm' := List.mem_filter.mp hmem
    refine ⟨⟨hm'.1, by simpa using hm'.2⟩, fun n hn => ?_⟩
    exact hle n (List.mem_filter.mpr ⟨hn.1, by simpa using hn.2⟩)

/-- Where the range of a query is empty, the answer of the B-tree form is not determined. -/
theorem btree_find_default {b : BTreeAux} {orders : List CustomerOrder}
    (hb : b.keys = orders.map CustomerOrder.key) {w d c o : ℕ}
    (hex : ¬ ∃ x, InRange orders w d c o x) (dflt : ℕ) :
    b.find (leastKey dflt) w d c o = maxOId - dflt % 2 ^ 20 := by
  have hnil : ∀ lo hi, lo = packedCustomerOrderKey (hackedOId o) c d w →
      hi = lo - lo % 2 ^ 20 + maxOId → leastKey dflt b.keys lo hi = dflt := by
    rintro lo hi rfl rfl
    rw [leastKey, List.filter_eq_nil_iff.mpr, List.min?_nil, Option.getD_none]
    intro k hk hr
    rw [hb] at hk
    obtain ⟨x, hx, rfl⟩ := List.mem_map.mp hk
    exact hex ⟨x, hx, key_mem_range.mp (by simpa using hr)⟩
  rw [BTreeAux.find, hnil _ _ rfl rfl]

theorem range_own {orders : List CustomerOrder} {w d c o n : ℕ} (hn : ⟨w, d, c, n⟩ ∈ orders)
    (hle : n ≤ o % 2 ^ 20) : InRange orders w d c o ⟨w, d, c, n⟩ ∧ n % 2 ^ 20 = n := by
  have hmod : n % 2 ^ 20 = n := Nat.mod_eq_of_lt (by omega)
  exact ⟨⟨hn, rfl, hmod.symm ▸ hle⟩, hmod⟩

theorem mem_allOrders_ok {epochs : List (List TxnInput)} (ht : ∀ txns ∈ epochs, ∀ t ∈ txns, t.CustomerOk W)
    {x : CustomerOrder} (hx : x ∈ allOrders W epochs) : CustomerOk W x.wId x.dId x.cId := by
  rcases List.mem_append.mp hx with hx | hx
  · exact (mem_loadedOrders.mp hx).1
  · obtain ⟨t, hmem, ho⟩ := List.mem_filterMap.mp hx
    obtain ⟨txns, htxns, hmem⟩ := List.mem_flatten.mp hmem
    have hok := ht txns htxns t hmem
    cases t with
    | newOrder w d o c its =>
      cases ho
      exact hok
    | payment | orderStatus | delivery | stockLevel => cases ho

/-- The two forms answer an OrderStatus alike, with the newest order of the customer not above the
    bound, exactly when no order of the customer is above the bound, not even one of a later
    transaction of the epoch, and no order that looks like one of the customer's in the bits of the key
    comes between. -/
theorem orderStatus_agree_iff {epochs : List (List TxnInput)}
    (ht : ∀ txns ∈ epochs, ∀ t ∈ txns, t.CustomerOk W) {w d c o : ℕ} (hq : CustomerOk W w d c) :
    (∀ findNext, FindsNext findNext → ∃ oId n,
      (FlatAux.run numSlotsPerDistrict W items mem epochs).query numSlotsPerDistrict
        (.orderStatus w d c o) = .orderStatus oId n ∧
      (BTreeAux.run numSlotsPerDistrict W items epochs).query findNext numSlotsPerDistrict
        (.orderStatus w d c o) = .orderStatus oId n ∧
      IsGreatest {m | ⟨w, d, c, m⟩ ∈ allOrders W epochs ∧ m ≤ o} oId) ↔
    (∀ n, ⟨w, d, c, n⟩ ∈ allOrders W epochs → n ≤ o % 2 ^ 20) ∧
    ∀ x ∈ allOrders W epochs, x.wId % 2 ^ 6 = w % 2 ^ 6 → x.dId = d → x.cId = c →
      x.oId % 2 ^ 20 ≤ o % 2 ^ 20 → ∃ n, ⟨w, d, c, n⟩ ∈ allOrders W epochs ∧ x.oId % 2 ^ 20 ≤ n := by
  obtain ⟨hlatest, hkeys, hlog⟩ := @run_orders numSlotsPerDistrict W items mem epochs ht
  obtain ⟨hown, hub⟩ := hlatest w d c hq
  have hbits : ∀ x ∈ allOrders W epochs, customerBits x.wId x.dId x.cId = customerBits w d c ↔
      x.wId % 2 ^ 6 = w % 2 ^ 6 ∧ x.dId = d ∧ x.cId = c := fun x hx => by
    obtain ⟨-, ⟨-, hd⟩, -, hc⟩ := mem_allOrders_ok ht hx
    exact customerBits_eq_iff hq.2.1.2 hd hq.2.2.2 hc
  constructor
  · intro hall
    have hfind : ∀ findNext, FindsNext findNext →
        (BTreeAux.run numSlotsPerDistrict W items epochs).find findNext w d c o =
          (FlatAux.run numSlotsPerDistrict W items mem epochs).latestOid (latestSlot w d c) := by
      intro findNext hf
      obtain ⟨oId, n, h1, h2, -⟩ := hall findNext hf
      injection h1 with h1
      injection h2 with h2
      exact h2.trans h1.symm
    -- an empty range would leave the answer open
    have hex : ∃ x, InRange (allOrders W epochs) w d c o x := by
      by_contra hex
      have h0 := hfind _ (leastKey_findsNext 0)
      have h1 := hfind _ (leastKey_findsNext 1)
      rw [btree_find_default hkeys hex] at h0 h1
      rw [← h0] at h1
      simp [maxOId] at h1
    obtain ⟨⟨x, hx, hxo⟩, hmax⟩ := btree_find (leastKey_findsNext 0) hkeys hex
    rw [hfind _ (leastKey_findsNext 0)] at hxo hmax
    refine ⟨fun n hn => (hub hn).trans (hxo ▸ hx.2.2), fun y hy hw hd hc hle => ?_⟩
    exact ⟨_, hown, hmax ⟨y, ⟨hy, (hbits y hy).mpr ⟨hw, hd, hc⟩, hle⟩, rfl⟩⟩
  · rintro ⟨hle, halias⟩ findNext hf
    obtain ⟨hr, hmod⟩ := range_own hown (hle _ hown)
    obtain ⟨⟨x, hx, hxo⟩, hmax⟩ := btree_find hf hkeys ⟨_, hr⟩
    have hfind : (BTreeAux.run numSlotsPerDistrict W items epochs).find findNext w d c o =
        (FlatAux.run numSlotsPerDistrict W items mem epochs).latestOid (latestSlot w d c) := by
      refine le_antisymm ?_ (hmax ⟨_, hr, hmod⟩)
      obtain ⟨hw, hd, hc⟩ := (hbits x hx.1).mp hx.2.1
      obtain ⟨n, hn, hxn⟩ := halias x hx.1 hw hd hc hx.2.2
      exact hxo ▸ hxn.trans (hub hn)
    refine ⟨_, _, rfl, ?_, ⟨hown, (hle _ hown).trans (Nat.mod_le _ _)⟩, fun n hn => hub hn.1⟩
    simp only [BTreeAux.query, performRangeQuery, hfind, hlog]
    rfl

end

/-! ### An OrderStatus before and after a NewOrder of its customer -/

def someItems : List OrderItem := List.replicate 5 ⟨1, 1, 1⟩

/-- Customer 1 of the only warehouse asks for the newest order and then orders. -/
def askThenOrder : List Draw := [.orderStatus 1 1 1, .newOrder 1 1 1 someItems]

/-- The same in the other order. -/
def orderThenAsk : List Draw := [.newOrder 1 1 1 someItems, .orderStatus 1 1 1]

theorem mem_oneOrder {n : ℕ} {draws : List Draw}
    (hd : (generateTxns draws).1.filterMap TxnInput.order = [⟨1, 1, 1, 3001⟩]) :
    ⟨1, 1, 1, n⟩ ∈ allOrders 1 [(generateTxns draws).1] ↔ n = 1 ∨ n = 3001 := by
  have hflat : [(generateTxns draws).1].flatten = (generateTxns draws).1 := by simp
  rw [allOrders, List.mem_append, hflat, hd, mem_loadedOrders, List.mem_singleton]
  simp [CustomerOk]

theorem oneOrder_ok {draws : List Draw}
    (hd : (generateTxns draws).1.filterMap TxnInput.order = [⟨1, 1, 1, 3001⟩]) :
    ∀ txns ∈ [(generateTxns draws).1], ∀ t ∈ txns, t.CustomerOk 1 := by
  intro txns htxns t hmem
  cases List.mem_singleton.mp htxns
  cases t with
  | newOrder w d o c its =>
    have hx : ⟨w, d, c, o⟩ ∈ (generateTxns draws).1.filterMap TxnInput.order :=
      List.mem_filterMap.mpr ⟨_, hmem, rfl⟩
    rw [hd] at hx
    cases List.mem_singleton.mp hx
    exact ⟨by decide, by decide, by decide⟩
  | payment | orderStatus | delivery | stockLevel => trivial

/-- After the NewOrder both forms answer with it. -/
theorem orderStatus_agree_after_newOrder :
    FindsNext (leastKey 0) ∧ ∃ oId n,
      (FlatAux.run 4000 1 (fun _ _ => 0) (fun _ => 0) [(generateTxns orderThenAsk).1]).query 4000
        (.orderStatus 1 1 1 3001) = .orderStatus oId n ∧
      (BTreeAux.run 4000 1 (fun _ _ => 0) [(generateTxns orderThenAsk).1]).query (leastKey 0) 4000
        (.orderStatus 1 1 1 3001) = .orderStatus oId n ∧
      IsGreatest {m | ⟨1, 1, 1, m⟩ ∈ allOrders 1 [(generateTxns orderThenAsk).1] ∧ m ≤ 3001} oId := by
  have hcond : (∀ n, ⟨1, 1, 1, n⟩ ∈ allOrders 1 [(generateTxns orderThenAsk).1] → n ≤ 3001 % 2 ^ 20) ∧
      ∀ x ∈ allOrders 1 [(generateTxns orderThenAsk).1], x.wId % 2 ^ 6 = 1 % 2 ^ 6 → x.dId = 1 →
        x.cId = 1 → x.oId % 2 ^ 20 ≤ 3001 % 2 ^ 20 →
        ∃ n, ⟨1, 1, 1, n⟩ ∈ allOrders 1 [(generateTxns orderThenAsk).1] ∧ x.oId % 2 ^ 20 ≤ n := by
    refine ⟨fun n hn => ?_, fun x _ _ _ _ hle => ?_⟩
    · rcases (mem_oneOrder rfl).mp hn with rfl | rfl <;> decide
    · exact ⟨3001, (mem_oneOrder rfl).mpr (Or.inr rfl), hle⟩
  exact ⟨leastKey_findsNext 0, (orderStatus_agree_iff (oneOrder_ok rfl)
    ⟨by decide, by decide, by decide⟩).mpr hcond _ (leastKey_findsNext 0)⟩

/-- Before the NewOrder the flat form answers with the order that is still to come, the B-tree form
    with the loaded one. -/
theorem flat_answers_later_order :
    (generateTxns askThenOrder).1 = [.orderStatus 1 1 1 3000, .newOrder 1 1 3001 1 someItems] ∧
    (FlatAux.run 4000 1 (fun _ _ => 0) (fun _ => 0) [(generateTxns askThenOrder).1]).find 1 1 1 3000 =
      3001 ∧
    ∀ findNext, FindsNext findNext →
      (BTreeAux.run 4000 1 (fun _ _ => 0) [(generateTxns askThenOrder).1]).find findNext 1 1 1 3000 =
        1 ∧
      IsGreatest {m | ⟨1, 1, 1, m⟩ ∈ allOrders 1 [(generateTxns askThenOrder).1] ∧ m ≤ 3000} 1 := by
  have ht : ∀ txns ∈ [(generateTxns askThenOrder).1], ∀ t ∈ txns, t.CustomerOk 1 := oneOrder_ok rfl
  have hgreatest : IsGreatest {m | ⟨1, 1, 1, m⟩ ∈ allOrders 1 [(generateTxns askThenOrder).1] ∧ m ≤ 3000}
      1 := by
    refine ⟨⟨(mem_oneOrder rfl).mpr (Or.inl rfl), by decide⟩, fun m hm => ?_⟩
    have hle := hm.2
    rcases (mem_oneOrder rfl).mp hm.1 with rfl | rfl <;> omega
  refine ⟨rfl, rfl, fun findNext hf => ⟨?_, hgreatest⟩⟩
  obtain ⟨-, hkeys, -⟩ := @run_orders 4000 1 (fun _ _ => 0) (fun _ => 0) _ ht
  obtain ⟨⟨x, ⟨hx, hbits, hle⟩, hxo⟩, -⟩ :=
    btree_find hf hkeys ⟨_, (range_own hgreatest.1.1 (o := 3000) (by decide)).1⟩
  obtain ⟨⟨hw, hW⟩, ⟨-, hd⟩, -, hc⟩ := mem_allOrders_ok ht hx
  obtain ⟨-, hd, hc⟩ := (customerBits_eq_iff (by decide) hd (by decide) hc).mp hbits
  obtain ⟨w, d, c, n⟩ := x
  obtain rfl : w = 1 := le_antisymm hW hw
  subst hd hc
  rw [← hxo]
  rcases (mem_oneOrder rfl).mp hx with rfl | rfl
  · rfl
  · exact absurd hle (by decide)

/-- With at most 64 warehouses and a bound of twenty bits only the bound matters. -/
theorem agree_condition_small {W w d c o : ℕ} {epochs : List (List TxnInput)}
    (ht : ∀ txns ∈ epochs, ∀ t ∈ txns, t.CustomerOk W) (hW : W ≤ 64) (hq : CustomerOk W w d c)
    (ho : o < 2 ^ 20) :
    ((∀ n, ⟨w, d, c, n⟩ ∈ allOrders W epochs → n ≤ o % 2 ^ 20) ∧
      ∀ x ∈ allOrders W epochs, x.wId % 2 ^ 6 = w % 2 ^ 6 → x.dId = d → x.cId = c →
        x.oId % 2 ^ 20 ≤ o % 2 ^ 20 → ∃ n, ⟨w, d, c, n⟩ ∈ allOrders W epochs ∧ x.oId % 2 ^ 20 ≤ n) ↔
    ∀ n, ⟨w, d, c, n⟩ ∈ allOrders W epochs → n ≤ o := by
  rw [Nat.mod_eq_of_lt ho]
  refine ⟨fun h => h.1, fun h => ⟨h, fun x hx hw hd hc _ => ⟨x.oId, ?_, Nat.mod_le _ _⟩⟩⟩
  obtain ⟨⟨h1, h2⟩, -⟩ := mem_allOrders_ok ht hx
  obtain ⟨⟨h3, h4⟩, -⟩ := hq
  have hw' : x.wId = w := by omega
  rw [← hw', ← hd, ← hc]
  exact hx

end Egad.Tpcc
