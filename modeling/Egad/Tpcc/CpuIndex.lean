import Egad.Lib.Naming
import Egad.Tpcc.Minted
import Egad.Tpcc.Pieces

/-! # The CPU index (`benchmarks/tpcc_index.cpp`, `std_unordered_map_index.h`)

    One hash map for each table, with a queue of free rows. `searchOrInsert` gives a key that is not
    there the row at the front of the queue. An epoch is indexed in two passes, the writes of all its
    transactions and then the reads:

        NewOrder   writes: Order, NewOrder, Stock, OrderLine     reads: Customer, District, Warehouse, Item
        Payment    writes: Warehouse, District, Customer         reads: none

    The key of an order line has the warehouse that supplies the item in the place of the order's own
    warehouse. -/

namespace Egad.Tpcc
open Egad.Lib

/-! ### `StdUnorderedMapIndex` -/

structure StdUnorderedMapIndex where
  freeList : List ℕ
  map : ℕ → Option ℕ

def StdUnorderedMapIndex.new (maxRowId : ℕ) : StdUnorderedMapIndex :=
  ⟨List.range maxRowId, fun _ => none⟩

/-- `searchOrInsert` looks at the front of the queue first; without a free row it is undefined. -/
def StdUnorderedMapIndex.searchOrInsert (x : StdUnorderedMapIndex) (key : ℕ) :
    Option (ℕ × StdUnorderedMapIndex) :=
  match x.freeList with
  | [] => none
  | value :: rest =>
    match x.map key with
    | some v => some (v, x)
    | none => some (value, ⟨rest, Function.update x.map key (some value)⟩)

def StdUnorderedMapIndex.search (x : StdUnorderedMapIndex) (key : ℕ) : ℕ :=
  (x.map key).getD 0xffffffff

/-! ### Keys -/

/-- `WarehouseKey`, `DistrictKey`, `CustomerKey`, `ItemKey` and `StockKey`. -/
def warehouseKey (w : ℕ) : ℕ := w % 2 ^ 8
def districtKey (d w : ℕ) : ℕ := d % 2 ^ 5 + w % 2 ^ 8 * 2 ^ 5
def customerKey (c d w : ℕ) : ℕ := c % 2 ^ 17 + d % 2 ^ 5 * 2 ^ 17 + w % 2 ^ 8 * 2 ^ 22
def itemKey (i : ℕ) : ℕ := i % 2 ^ 18
def stockKey (i w : ℕ) : ℕ := i % 2 ^ 18 + w % 2 ^ 8 * 2 ^ 18

/-- The keys that `loadInitialData` loads, in its order. -/
def warehouseKeys (W : ℕ) : List ℕ := (List.range W).map fun w => warehouseKey (w + 1)

def districtKeys (W : ℕ) : List ℕ :=
  (List.range W).flatMap fun w => (List.range 10).map fun d => districtKey (d + 1) (w + 1)

def customerKeys (W : ℕ) : List ℕ :=
  (List.range W).flatMap fun w => (List.range 10).flatMap fun d =>
    (List.range 3000).map fun c => customerKey (c + 1) (d + 1) (w + 1)

def itemKeys : List ℕ := (List.range 100000).map fun i => itemKey (i + 1)

def stockKeys (W : ℕ) : List ℕ :=
  (List.range W).flatMap fun w => (List.range 100000).map fun i => stockKey (i + 1) (w + 1)

/-! ### Record ids of a transaction -/

/-- The record ids that an index writes into a transaction's parameters. -/
inductive RecordIds where
  | newOrder (warehouseId districtId customerId orderId newOrderId : ℕ) (items : List ItemParam)
  | payment (warehouseId districtId customerId : ℕ)
  | other

/-- The references of a transaction: the table and the record id of each. -/
def RecordIds.refs : RecordIds → List (TableName × ℕ)
  | .newOrder w d c o no items =>
    [(.warehouse, w), (.district, d), (.customer, c), (.order, o), (.newOrder, no)] ++
      items.flatMap fun x => [(.item, x.itemId), (.stock, x.stockId), (.orderLine, x.orderLineId)]
  | .payment w d c => [(.warehouse, w), (.district, d), (.customer, c)]
  | .other => []

/-! ### `TpccCpuIndex` -/

/-- The maps `g_*_index`. -/
abbrev CpuIndex : Type := TableName → StdUnorderedMapIndex

def CpuIndex.searchOrInsert (g : CpuIndex) (T : TableName) (key : ℕ) : Option (ℕ × CpuIndex) := do
  let (v, x) ← (g T).searchOrInsert key
  return (v, Function.update g T x)

/-- The ids that the pass over the writes leaves in the parameters. -/
inductive WriteIds where
  | newOrder (orderId newOrderId : ℕ) (items : List (ℕ × ℕ))
  | payment (warehouseId districtId customerId : ℕ)
  | other

/-- The loop over the items, from item `i` on: the stock and the order line of each. -/
def CpuIndex.indexItems (o d : ℕ) : CpuIndex → ℕ → List OrderItem → Option (List (ℕ × ℕ) × CpuIndex)
  | g, _, [] => some ([], g)
  | g, i, x :: xs => do
    let (s, g) ← g.searchOrInsert .stock (stockKey x.iId x.wId)
    let (l, g) ← g.searchOrInsert .orderLine (orderLineKey o d x.wId (i + 1))
    let (rest, g) ← indexItems o d g (i + 1) xs
    return ((s, l) :: rest, g)

/-- `indexTxnWrites`. -/
def CpuIndex.indexTxnWrites (g : CpuIndex) : TxnInput → Option (WriteIds × CpuIndex)
  | .newOrder w d o _ items => do
    let (oId, g) ← g.searchOrInsert .order (orderKey o d w)
    let (noId, g) ← g.searchOrInsert .newOrder (newOrderKey o d w)
    let (ids, g) ← g.indexItems o d 0 items
    return (.newOrder oId noId ids, g)
  | .payment w d cw cd c _ => do
    let (wId, g) ← g.searchOrInsert .warehouse (warehouseKey w)
    let dId := (g .district).search (districtKey d w)
    let (cId, g) ← g.searchOrInsert .customer (customerKey c cd cw)
    return (.payment wId dId cId, g)
  | _ => some (.other, g)

/-- `indexTxnReads`. -/
def CpuIndex.indexTxnReads (g : CpuIndex) : TxnInput → WriteIds → RecordIds
  | .newOrder w d _ c items, .newOrder oId noId ids =>
    .newOrder ((g .warehouse).search (warehouseKey w)) ((g .district).search (districtKey d w))
      ((g .customer).search (customerKey c d w)) oId noId
      (List.zipWith (fun x (s : ℕ × ℕ) => ⟨(g .item).search (itemKey x.iId), s.1, s.2⟩) items ids)
  | _, .payment wId dId cId => .payment wId dId cId
  | _, _ => .other

/-- The pass over the writes of an epoch. -/
def CpuIndex.indexWrites : CpuIndex → List TxnInput → Option (List WriteIds × CpuIndex)
  | g, [] => some ([], g)
  | g, t :: txns => do
    let (ids, g) ← g.indexTxnWrites t
    let (rest, g) ← indexWrites g txns
    return (ids :: rest, g)

/-- `indexTxns`: the writes of the epoch before its reads. -/
def CpuIndex.indexTxns (g : CpuIndex) (txns : List TxnInput) : Option (List RecordIds × CpuIndex) := do
  let (ids, g) ← g.indexWrites txns
  return (List.zipWith g.indexTxnReads txns ids, g)

/-- The index phases of a history of epochs, with the ids of all its transactions. -/
def CpuIndex.run : CpuIndex → List (List TxnInput) → Option (List RecordIds × CpuIndex)
  | g, [] => some ([], g)
  | g, txns :: epochs => do
    let (ids, g) ← g.indexTxns txns
    let (rest, g) ← run g epochs
    return (ids ++ rest, g)

/-! ### The initial population -/

/-- Load a table with keys. -/
def StdUnorderedMapIndex.load (x : StdUnorderedMapIndex) : List ℕ → Option StdUnorderedMapIndex
  | [] => some x
  | key :: keys => do
    let (_, x) ← x.searchOrInsert key
    load x keys

def initialKeys (W : ℕ) : TableName → List ℕ
  | .warehouse => warehouseKeys W
  | .district => districtKeys W
  | .customer => customerKeys W
  | .newOrder => initialNewOrderKeys W
  | .order => initialOrderKeys W
  | .orderLine => initialLineKeys W
  | .item => itemKeys
  | .stock => stockKeys W

/-- The record counts of the tables. -/
def RunConfig.tableSize (fl : ℚ → ℚ) (rc : RunConfig) : TableName → ℕ
  | .warehouse => rc.numWarehouses * 2
  | .district => rc.numWarehouses * 2 * 10
  | .customer => rc.numWarehouses * 2 * 10 * 3000
  | .newOrder => (rc.config fl).newOrderTableSize
  | .order => (rc.config fl).orderTableSize
  | .orderLine => rc.orderLineTableSize fl
  | .item => 200000
  | .stock => 200000 * rc.numWarehouses

/-- `loadInitialData`. -/
def CpuIndex.loadInitialData (fl : ℚ → ℚ) (rc : RunConfig) : Option CpuIndex := do
  let table (T : TableName) : Option StdUnorderedMapIndex :=
    (StdUnorderedMapIndex.new (rc.tableSize fl T)).load (initialKeys rc.numWarehouses T)
  let w ← table .warehouse
  let d ← table .district
  let c ← table .customer
  let no ← table .newOrder
  let o ← table .order
  let ol ← table .orderLine
  let i ← table .item
  let s ← table .stock
  return fun
    | .warehouse => w
    | .district => d
    | .customer => c
    | .newOrder => no
    | .order => o
    | .orderLine => ol
    | .item => i
    | .stock => s

/-! ### A row belongs to one key -/

namespace StdUnorderedMapIndex

/-- The rows in use are not free, and each has one key. -/
structure Inv (x : StdUnorderedMapIndex) : Prop where
  nodup : x.freeList.Nodup
  used : ∀ k v, x.map k = some v → v ∉ x.freeList
  inj : ∀ k k' v, x.map k = some v → x.map k' = some v → k = k'

theorem inv_new (n : ℕ) : (StdUnorderedMapIndex.new n).Inv :=
  ⟨List.nodup_range, fun _ _ h => absurd h (by simp [StdUnorderedMapIndex.new]),
    fun _ _ _ h => absurd h (by simp [StdUnorderedMapIndex.new])⟩

variable {x y : StdUnorderedMapIndex} {key v : ℕ}

theorem searchOrInsert_spec (hx : x.Inv) (h : x.searchOrInsert key = some (v, y)) :
    y.Inv ∧ y.map key = some v ∧ ∀ k u, x.map k = some u → y.map k = some u := by
  obtain ⟨free, map⟩ := x
  obtain ⟨hnd, hused, hinj⟩ := hx
  cases free with
  | nil => exact absurd h (by simp [searchOrInsert])
  | cons value rest =>
    simp only at hnd hused hinj
    cases hk : map key with
    | some u =>
      simp only [searchOrInsert, hk, Option.some.injEq, Prod.mk.injEq] at h
      obtain ⟨rfl, rfl⟩ := h
      exact ⟨⟨hnd, hused, hinj⟩, hk, fun _ _ hu => hu⟩
    | none =>
      simp only [searchOrInsert, hk, Option.some.injEq, Prod.mk.injEq] at h
      obtain ⟨rfl, rfl⟩ := h
      obtain ⟨hfresh, hnd'⟩ := List.nodup_cons.mp hnd
      -- the new row was free, so no key had it
      have hnew : ∀ k, map k ≠ some value := fun k hv => hused k value hv List.mem_cons_self
      have hkeep : ∀ k u, map k = some u → Function.update map key (some value) k = some u := by
        intro k u hu
        rwa [Function.update_of_ne]
        rintro rfl
        rw [hk] at hu
        exact absurd hu (by simp)
      refine ⟨⟨hnd', fun k u hu => ?_, fun k k' u hu hu' => ?_⟩, Function.update_self .., hkeep⟩
      · simp only at hu
        by_cases hkk : k = key
        · rw [hkk, Function.update_self, Option.some.injEq] at hu
          exact hu ▸ hfresh
        · rw [Function.update_of_ne hkk] at hu
          exact fun hmem => hused k u hu (List.mem_cons_of_mem _ hmem)
      · simp only at hu hu'
        by_cases hkk : k = key <;> by_cases hkk' : k' = key
        · rw [hkk, hkk']
        · rw [hkk, Function.update_self, Option.some.injEq] at hu
          rw [Function.update_of_ne hkk', ← hu] at hu'
          exact absurd hu' (hnew k')
        · rw [hkk', Function.update_self, Option.some.injEq] at hu'
          rw [Function.update_of_ne hkk, ← hu'] at hu
          exact absurd hu (hnew k)
        · rw [Function.update_of_ne hkk] at hu
          rw [Function.update_of_ne hkk'] at hu'
          exact hinj k k' u hu hu'

/-- A loaded table has a row for every key. -/
theorem load_spec {keys : List ℕ} (hx : x.Inv) (h : x.load keys = some y) :
    y.Inv ∧ (∀ k u, x.map k = some u → y.map k = some u) ∧ ∀ k ∈ keys, ∃ u, y.map k = some u := by
  induction keys generalizing x with
  | nil =>
    obtain rfl := Option.some.inj h
    exact ⟨hx, fun _ _ hu => hu, fun k hk => absurd hk List.not_mem_nil⟩
  | cons key keys ih =>
    rw [load, Option.bind_eq_bind, Option.bind_eq_some_iff] at h
    obtain ⟨⟨u, z⟩, hz, hload⟩ := h
    obtain ⟨hinv, hkey, hgrow⟩ := searchOrInsert_spec hx hz
    obtain ⟨hinv', hgrow', hall⟩ := ih hinv hload
    refine ⟨hinv', fun k v hv => hgrow' k v (hgrow k v hv), fun k hk => ?_⟩
    rcases List.mem_cons.mp hk with rfl | hk
    · exact ⟨u, hgrow' _ _ hkey⟩
    · exact hall k hk

end StdUnorderedMapIndex

namespace CpuIndex

/-- The rows of the tables. -/
def naming (g : CpuIndex) : Naming TableName ℕ ℕ := fun T k => (g T).map k

def Inv (g : CpuIndex) : Prop := ∀ T, (g T).Inv

/-- Keys keep their rows. -/
def Extends (g g' : CpuIndex) : Prop := ∀ T k v, g.naming T k = some v → g'.naming T k = some v

variable {g g' : CpuIndex}

theorem Extends.trans {g₁ g₂ g₃ : CpuIndex} (h : g₁.Extends g₂) (h' : g₂.Extends g₃) : g₁.Extends g₃ :=
  fun T k v hv => h' T k v (h T k v hv)

theorem Inv.injective (h : g.Inv) : g.naming.Injective := fun T k k' v hv hv' =>
  (h T).inj k k' v hv hv'

/-- The keys of the initial population have rows. -/
def Loaded (W : ℕ) (g : CpuIndex) : Prop := ∀ T, ∀ k ∈ initialKeys W T, ∃ v, g.naming T k = some v

theorem Loaded.mono {W : ℕ} (h : g.Loaded W) (hg : g.Extends g') : g'.Loaded W := by
  intro T k hk
  obtain ⟨v, hv⟩ := h T k hk
  exact ⟨v, hg T k v hv⟩

theorem search_of_naming {T : TableName} {k v : ℕ} (h : g.naming T k = some v) :
    (g T).search k = v := by
  rw [StdUnorderedMapIndex.search, show (g T).map k = some v from h]
  rfl

theorem searchOrInsert_spec {T : TableName} {key v : ℕ} (hg : g.Inv)
    (h : g.searchOrInsert T key = some (v, g')) :
    g'.Inv ∧ g.Extends g' ∧ g'.naming T key = some v := by
  rw [searchOrInsert, Option.bind_eq_bind, Option.bind_eq_some_iff] at h
  obtain ⟨⟨u, y⟩, hy, h⟩ := h
  simp only [Option.pure_def, Option.some.injEq, Prod.mk.injEq] at h
  obtain ⟨rfl, rfl⟩ := h
  obtain ⟨hinv, hkey, hgrow⟩ := StdUnorderedMapIndex.searchOrInsert_spec (hg T) hy
  refine ⟨fun T' => ?_, fun T' k v hv => ?_, ?_⟩
  · by_cases hT : T' = T
    · subst hT
      rwa [Function.update_self]
    · rw [Function.update_of_ne hT]
      exact hg T'
  · rw [naming] at hv ⊢
    by_cases hT : T' = T
    · subst hT
      rw [Function.update_self]
      exact hgrow k v hv
    · rwa [Function.update_of_ne hT]
  · rw [naming, Function.update_self]
    exact hkey

/-! ### The pass over the writes -/

/-- The rows of a NewOrder's items, the first of them number `i`. -/
def ItemsNamed (g : CpuIndex) (o d : ℕ) (items : List (OrderItem × ℕ)) (ids : List (ℕ × ℕ)) : Prop :=
  List.Forall₂ (fun x s => g.naming .stock (stockKey x.1.iId x.1.wId) = some s.1 ∧
    g.naming .orderLine (orderLineKey o d x.1.wId (x.2 + 1)) = some s.2) items ids

/-- The rows of a transaction's writes. -/
def Written (g : CpuIndex) : TxnInput → WriteIds → Prop
  | .newOrder w d o _ items, .newOrder oId noId ids =>
    g.naming .order (orderKey o d w) = some oId ∧ g.naming .newOrder (newOrderKey o d w) = some noId ∧
      g.ItemsNamed o d items.zipIdx ids
  | .payment w d cw cd c _, .payment wId dId cId =>
    g.naming .warehouse (warehouseKey w) = some wId ∧ g.naming .district (districtKey d w) = some dId ∧
      g.naming .customer (customerKey c cd cw) = some cId
  | _, _ => False

theorem ItemsNamed.mono {o d : ℕ} {items : List (OrderItem × ℕ)} {ids : List (ℕ × ℕ)}
    (h : g.ItemsNamed o d items ids) (hg : g.Extends g') : g'.ItemsNamed o d items ids :=
  List.Forall₂.imp (fun _ _ hx => ⟨hg _ _ _ hx.1, hg _ _ _ hx.2⟩) h

theorem Written.mono {t : TxnInput} {ids : WriteIds} (h : g.Written t ids) (hg : g.Extends g') :
    g'.Written t ids := by
  cases t with
  | newOrder w d o c items =>
    cases ids with
    | newOrder oId noId ids => exact ⟨hg _ _ _ h.1, hg _ _ _ h.2.1, h.2.2.mono hg⟩
    | payment => exact h.elim
    | other => exact h.elim
  | payment w d cw cd c a =>
    cases ids with
    | newOrder => exact h.elim
    | payment wId dId cId => exact ⟨hg _ _ _ h.1, hg _ _ _ h.2.1, hg _ _ _ h.2.2⟩
    | other => exact h.elim
  | orderStatus => exact h.elim
  | delivery => exact h.elim
  | stockLevel => exact h.elim

theorem indexItems_spec {o d i : ℕ} {items : List OrderItem} {ids : List (ℕ × ℕ)} (hg : g.Inv)
    (h : indexItems o d g i items = some (ids, g')) :
    g'.Inv ∧ g.Extends g' ∧ g'.ItemsNamed o d (items.zipIdx i) ids := by
  induction items generalizing g i ids with
  | nil =>
    simp only [indexItems, Option.some.injEq, Prod.mk.injEq] at h
    obtain ⟨rfl, rfl⟩ := h
    exact ⟨hg, fun _ _ _ hv => hv, .nil⟩
  | cons x items ih =>
    simp only [indexItems, Option.bind_eq_bind, Option.bind_eq_some_iff, Option.pure_def,
      Option.some.injEq, Prod.mk.injEq, Prod.exists] at h
    obtain ⟨s, g₁, hs, l, g₂, hl, rest, g₃, hrest, rfl, rfl⟩ := h
    obtain ⟨hinv₁, hext₁, hstock⟩ := searchOrInsert_spec hg hs
    obtain ⟨hinv₂, hext₂, hline⟩ := searchOrInsert_spec hinv₁ hl
    obtain ⟨hinv₃, hext₃, hnamed⟩ := ih hinv₂ hrest
    rw [List.zipIdx_cons]
    exact ⟨hinv₃, (hext₁.trans hext₂).trans hext₃,
      .cons ⟨hext₃ _ _ _ (hext₂ _ _ _ hstock), hext₃ _ _ _ hline⟩ hnamed⟩

end CpuIndex

/-! ### Transactions with ids in range -/

/-- A NewOrder or a Payment of warehouses, districts, customers and items that exist. -/
def TxnInput.Indexed (W : ℕ) : TxnInput → Prop
  | .newOrder w d o c items => OrderOk o d w ∧ w ≤ W ∧ (1 ≤ c ∧ c ≤ 3000) ∧ items.length ≤ 15 ∧
      ∀ x ∈ items, (1 ≤ x.iId ∧ x.iId ≤ 100000) ∧ 1 ≤ x.wId ∧ x.wId ≤ W
  | .payment w d cw cd c _ => (1 ≤ w ∧ w ≤ W) ∧ (1 ≤ d ∧ d ≤ 10) ∧ (1 ≤ cw ∧ cw ≤ W) ∧
      (1 ≤ cd ∧ cd ≤ 10) ∧ 1 ≤ c ∧ c ≤ 3000
  | _ => False

section
variable {W w d c i : ℕ}

theorem mem_warehouseKeys (hw : 1 ≤ w ∧ w ≤ W) : warehouseKey w ∈ warehouseKeys W :=
  List.mem_map.mpr ⟨w - 1, List.mem_range.mpr (by omega), by rw [Nat.sub_add_cancel hw.1]⟩

theorem mem_districtKeys (hw : 1 ≤ w ∧ w ≤ W) (hd : 1 ≤ d ∧ d ≤ 10) :
    districtKey d w ∈ districtKeys W :=
  List.mem_flatMap.mpr ⟨w - 1, List.mem_range.mpr (by omega), List.mem_map.mpr
    ⟨d - 1, List.mem_range.mpr (by omega), by rw [Nat.sub_add_cancel hw.1, Nat.sub_add_cancel hd.1]⟩⟩

theorem mem_customerKeys (hw : 1 ≤ w ∧ w ≤ W) (hd : 1 ≤ d ∧ d ≤ 10) (hc : 1 ≤ c ∧ c ≤ 3000) :
    customerKey c d w ∈ customerKeys W :=
  List.mem_flatMap.mpr ⟨w - 1, List.mem_range.mpr (by omega), List.mem_flatMap.mpr
    ⟨d - 1, List.mem_range.mpr (by omega), List.mem_map.mpr ⟨c - 1, List.mem_range.mpr (by omega), by
      rw [Nat.sub_add_cancel hw.1, Nat.sub_add_cancel hd.1, Nat.sub_add_cancel hc.1]⟩⟩⟩

theorem mem_itemKeys (hi : 1 ≤ i ∧ i ≤ 100000) : itemKey i ∈ itemKeys :=
  List.mem_map.mpr ⟨i - 1, List.mem_range.mpr (by omega), by rw [Nat.sub_add_cancel hi.1]⟩

theorem mem_stockKeys (hi : 1 ≤ i ∧ i ≤ 100000) (hw : 1 ≤ w ∧ w ≤ W) : stockKey i w ∈ stockKeys W :=
  List.mem_flatMap.mpr ⟨w - 1, List.mem_range.mpr (by omega), List.mem_map.mpr
    ⟨i - 1, List.mem_range.mpr (by omega), by rw [Nat.sub_add_cancel hi.1, Nat.sub_add_cancel hw.1]⟩⟩

end

/-! ### The keys of a transaction's references -/

/-- The references of an item: the table, the key in the CPU index and the key in the GPU index. -/
def itemRefKeys (o d w : ℕ) (x : OrderItem × ℕ) : List (TableName × ℕ × ℕ) :=
  [(.item, itemKey x.1.iId, itemKey x.1.iId),
    (.stock, stockKey x.1.iId x.1.wId, stockKey x.1.iId x.1.wId),
    (.orderLine, orderLineKey o d x.1.wId (x.2 + 1), orderLineKey o d w (x.2 + 1))]

/-- The references of a transaction; the two indexes take the key of an order line from different
    fields. -/
def TxnInput.refKeys : TxnInput → List (TableName × ℕ × ℕ)
  | .newOrder w d o c items =>
    [(.warehouse, warehouseKey w, warehouseKey w), (.district, districtKey d w, districtKey d w),
      (.customer, customerKey c d w, customerKey c d w), (.order, orderKey o d w, orderKey o d w),
      (.newOrder, newOrderKey o d w, newOrderKey o d w)] ++ items.zipIdx.flatMap (itemRefKeys o d w)
  | .payment w d cw cd c _ =>
    [(.warehouse, warehouseKey w, warehouseKey w), (.district, districtKey d w, districtKey d w),
      (.customer, customerKey c cd cw, customerKey c cd cw)]
  | _ => []

def cpuKeys (t : TxnInput) : List (TableName × ℕ) := t.refKeys.map fun x => (x.1, x.2.1)

namespace CpuIndex
variable {W : ℕ} {g g' : CpuIndex}

theorem indexTxnWrites_spec {t : TxnInput} {ids : WriteIds} (ht : t.Indexed W) (hg : g.Inv)
    (hload : g.Loaded W) (h : g.indexTxnWrites t = some (ids, g')) :
    g'.Inv ∧ g.Extends g' ∧ g'.Written t ids := by
  cases t with
  | newOrder w d o c items =>
    simp only [indexTxnWrites, Option.bind_eq_bind, Option.bind_eq_some_iff, Option.pure_def,
      Option.some.injEq, Prod.mk.injEq, Prod.exists] at h
    obtain ⟨oId, g₁, ho, noId, g₂, hno, its, g₃, hits, rfl, rfl⟩ := h
    obtain ⟨hinv₁, hext₁, hord⟩ := searchOrInsert_spec hg ho
    obtain ⟨hinv₂, hext₂, hnew⟩ := searchOrInsert_spec hinv₁ hno
    obtain ⟨hinv₃, hext₃, hitems⟩ := indexItems_spec hinv₂ hits
    exact ⟨hinv₃, (hext₁.trans hext₂).trans hext₃,
      hext₃ _ _ _ (hext₂ _ _ _ hord), hext₃ _ _ _ hnew, hitems⟩
  | payment w d cw cd c a =>
    simp only [indexTxnWrites, Option.bind_eq_bind, Option.bind_eq_some_iff, Option.pure_def,
      Option.some.injEq, Prod.mk.injEq, Prod.exists] at h
    obtain ⟨wId, g₁, hw, cId, g₂, hc, rfl, rfl⟩ := h
    obtain ⟨hinv₁, hext₁, hware⟩ := searchOrInsert_spec hg hw
    obtain ⟨hinv₂, hext₂, hcust⟩ := searchOrInsert_spec hinv₁ hc
    obtain ⟨v, hv⟩ := (hload.mono hext₁) .district _ (mem_districtKeys ht.1 ht.2.1)
    refine ⟨hinv₂, hext₁.trans hext₂, hext₂ _ _ _ hware, ?_, hcust⟩
    rw [search_of_naming hv]
    exact hext₂ _ _ _ hv
  | orderStatus => exact ht.elim
  | delivery => exact ht.elim
  | stockLevel => exact ht.elim

theorem indexWrites_spec {txns : List TxnInput} {ids : List WriteIds} (ht : ∀ t ∈ txns, t.Indexed W)
    (hg : g.Inv) (hload : g.Loaded W) (h : g.indexWrites txns = some (ids, g')) :
    g'.Inv ∧ g.Extends g' ∧ List.Forall₂ g'.Written txns ids := by
  induction txns generalizing g ids with
  | nil =>
    simp only [indexWrites, Option.some.injEq, Prod.mk.injEq] at h
    obtain ⟨rfl, rfl⟩ := h
    exact ⟨hg, fun _ _ _ hv => hv, .nil⟩
  | cons t txns ih =>
    simp only [indexWrites, Option.bind_eq_bind, Option.bind_eq_some_iff, Option.pure_def,
      Option.some.injEq, Prod.mk.injEq, Prod.exists] at h
    obtain ⟨w, g₁, hw, rest, g₂, hrest, rfl, rfl⟩ := h
    obtain ⟨hinv₁, hext₁, hwritten⟩ := indexTxnWrites_spec (ht t List.mem_cons_self) hg hload hw
    obtain ⟨hinv₂, hext₂, hall⟩ := ih (fun u hu => ht u (List.mem_cons_of_mem _ hu)) hinv₁
      (hload.mono hext₁) hrest
    exact ⟨hinv₂, hext₁.trans hext₂, .cons (hwritten.mono hext₂) hall⟩

/-! ### The pass over the reads -/

theorem items_names {o d w : ℕ} {items : List (OrderItem × ℕ)} {ids : List (ℕ × ℕ)}
    (hload : g.Loaded W) (hitems : ∀ x ∈ items, 1 ≤ x.1.iId ∧ x.1.iId ≤ 100000)
    (h : g.ItemsNamed o d items ids) :
    g.naming.Names ((items.flatMap (itemRefKeys o d w)).map fun x => (x.1, x.2.1))
      ((List.zipWith (fun x (s : ℕ × ℕ) => (⟨(g .item).search (itemKey x.iId), s.1, s.2⟩ : ItemParam))
        (items.map Prod.fst) ids).flatMap fun x =>
          [(.item, x.itemId), (.stock, x.stockId), (.orderLine, x.orderLineId)]) := by
  induction h with
  | nil => exact .nil
  | @cons x s items ids hx _ ih =>
    obtain ⟨v, hv⟩ := hload .item _ (mem_itemKeys (hitems x List.mem_cons_self))
    have hrest := ih fun y hy => hitems y (List.mem_cons_of_mem _ hy)
    rw [List.flatMap_cons, List.map_append, List.map_cons, List.zipWith_cons_cons, List.flatMap_cons,
      search_of_naming hv]
    exact Naming.Names.append (.cons hv (.cons hx.1 (.cons hx.2 .nil))) hrest

/-- The reads give every reference of the transaction the row of its key. -/
theorem indexTxnReads_names {t : TxnInput} {ids : WriteIds} (ht : t.Indexed W) (hload : g.Loaded W)
    (h : g.Written t ids) : g.naming.Names (cpuKeys t) (g.indexTxnReads t ids).refs := by
  cases t with
  | newOrder w d o c items =>
    cases ids with
    | newOrder oId noId ids =>
      obtain ⟨hok, hw, hc, -, hitems⟩ := ht
      have hw' : 1 ≤ w ∧ w ≤ W := ⟨hok.w.1, hw⟩
      obtain ⟨u, hu⟩ := hload .warehouse _ (mem_warehouseKeys hw')
      obtain ⟨v, hv⟩ := hload .district _ (mem_districtKeys hw' hok.d)
      obtain ⟨x, hx⟩ := hload .customer _ (mem_customerKeys hw' hok.d hc)
      rw [cpuKeys, TxnInput.refKeys, List.map_append, indexTxnReads, RecordIds.refs,
        search_of_naming hu, search_of_naming hv, search_of_naming hx]
      refine Naming.Names.append
        (.cons hu (.cons hv (.cons hx (.cons h.1 (.cons h.2.1 .nil))))) ?_
      have hnames := items_names (w := w) hload (fun y hy => ?_) h.2.2
      · rwa [List.zipIdx_map_fst] at hnames
      · exact (hitems y.1 (List.fst_mem_of_mem_zipIdx hy)).1
    | payment => exact h.elim
    | other => exact h.elim
  | payment w d cw cd c a =>
    cases ids with
    | newOrder => exact h.elim
    | payment wId dId cId => exact .cons h.1 (.cons h.2.1 (.cons h.2.2 .nil))
    | other => exact h.elim
  | orderStatus => exact h.elim
  | delivery => exact h.elim
  | stockLevel => exact h.elim

theorem indexTxns_names {txns : List TxnInput} {ids : List RecordIds} (ht : ∀ t ∈ txns, t.Indexed W)
    (hg : g.Inv) (hload : g.Loaded W) (h : g.indexTxns txns = some (ids, g')) :
    g'.Inv ∧ g.Extends g' ∧
      g'.naming.Names (txns.flatMap cpuKeys) (ids.flatMap RecordIds.refs) := by
  simp only [indexTxns, Option.bind_eq_bind, Option.bind_eq_some_iff, Option.pure_def,
    Option.some.injEq, Prod.mk.injEq, Prod.exists] at h
  obtain ⟨ws, g₁, hws, rfl, rfl⟩ := h
  obtain ⟨hinv, hext, hall⟩ := indexWrites_spec ht hg hload hws
  refine ⟨hinv, hext, ?_⟩
  have hload₁ := hload.mono hext
  clear hws
  induction hall with
  | nil => exact .nil
  | @cons t w txns ws hw _ ih =>
    rw [List.flatMap_cons, List.zipWith_cons_cons, List.flatMap_cons]
    exact Naming.Names.append (indexTxnReads_names (ht t List.mem_cons_self) hload₁ hw)
      (ih fun u hu => ht u (List.mem_cons_of_mem _ hu))

/-- Along a run every reference has the row of its key at the end. -/
theorem run_names {epochs : List (List TxnInput)} {ids : List RecordIds}
    (ht : ∀ txns ∈ epochs, ∀ t ∈ txns, t.Indexed W) (hg : g.Inv) (hload : g.Loaded W)
    (h : g.run epochs = some (ids, g')) :
    g'.Inv ∧ g.Extends g' ∧
      g'.naming.Names (epochs.flatten.flatMap cpuKeys) (ids.flatMap RecordIds.refs) := by
  induction epochs generalizing g ids with
  | nil =>
    simp only [run, Option.some.injEq, Prod.mk.injEq] at h
    obtain ⟨rfl, rfl⟩ := h
    exact ⟨hg, fun _ _ _ hv => hv, .nil⟩
  | cons txns epochs ih =>
    simp only [run, Option.bind_eq_bind, Option.bind_eq_some_iff, Option.pure_def,
      Option.some.injEq, Prod.mk.injEq, Prod.exists] at h
    obtain ⟨here, g₁, hhere, rest, g₂, hrest, rfl, rfl⟩ := h
    obtain ⟨hinv₁, hext₁, hnames₁⟩ := indexTxns_names (ht txns List.mem_cons_self) hg hload hhere
    obtain ⟨hinv₂, hext₂, hnames₂⟩ := ih (fun e he => ht e (List.mem_cons_of_mem _ he)) hinv₁
      (hload.mono hext₁) hrest
    rw [List.flatten_cons, List.flatMap_append, List.flatMap_append]
    exact ⟨hinv₂, hext₁.trans hext₂, (hnames₁.mono hext₂).append hnames₂⟩

/-- The index after `loadInitialData`. -/
theorem loadInitialData_spec {fl : ℚ → ℚ} {rc : RunConfig} (h : loadInitialData fl rc = some g) :
    g.Inv ∧ g.Loaded rc.numWarehouses := by
  simp only [loadInitialData, Option.bind_eq_bind, Option.bind_eq_some_iff, Option.pure_def,
    Option.some.injEq] at h
  obtain ⟨w, hw, d, hd, c, hc, no, hno, o, ho, ol, hol, i, hi, s, hs, rfl⟩ := h
  have htable : ∀ T x, (StdUnorderedMapIndex.new (rc.tableSize fl T)).load
      (initialKeys rc.numWarehouses T) = some x →
      x.Inv ∧ ∀ k ∈ initialKeys rc.numWarehouses T, ∃ v, x.map k = some v := by
    intro T x hx
    obtain ⟨h1, -, h2⟩ := StdUnorderedMapIndex.load_spec (StdUnorderedMapIndex.inv_new _) hx
    exact ⟨h1, h2⟩
  constructor
  · intro T
    cases T with
    | warehouse => exact (htable _ _ hw).1
    | district => exact (htable _ _ hd).1
    | customer => exact (htable _ _ hc).1
    | newOrder => exact (htable _ _ hno).1
    | order => exact (htable _ _ ho).1
    | orderLine => exact (htable _ _ hol).1
    | item => exact (htable _ _ hi).1
    | stock => exact (htable _ _ hs).1
  · intro T
    cases T with
    | warehouse => exact (htable _ _ hw).2
    | district => exact (htable _ _ hd).2
    | customer => exact (htable _ _ hc).2
    | newOrder => exact (htable _ _ hno).2
    | order => exact (htable _ _ ho).2
    | orderLine => exact (htable _ _ hol).2
    | item => exact (htable _ _ hi).2
    | stock => exact (htable _ _ hs).2

end CpuIndex

end Egad.Tpcc
