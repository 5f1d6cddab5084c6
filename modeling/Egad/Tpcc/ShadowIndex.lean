import Egad.Tpcc.FastPath
import Egad.Timeline.JournalRun

/-! # The durable shadow of the growing tables (`benchmarks/tpcc_cpu_shadow_index.cpp`)

    Every epoch appends the minted keys of the three tables to their durable arrays, and the effective
    NewOrder deletes to the delete log. A recover process fills three dense arrays from the initial
    population and the durable arrays up to the marker's cursors, then rebuilds the GPU indexes from
    the dense arrays.

        durable keys ─▶ shadow[denseIdx(key)] = base + j ─▶ delete log ─▶ upload: decode(slot) ↦ CRID

    The dense layouts have a stride of order ids for each district: `max_o_orders` for NewOrder and
    Order, `maxO_ol` for OrderLine, which is the flat index's stride when OrderLine is flat and 3000
    when it is a hash map. -/

namespace Egad.Tpcc
open Egad.Lib Egad.Timeline

/-! ### Sizes -/

/-- What the sizes of the growing tables depend on: the insert pool and a district's share of the
    run's new orders are computed in floating point from the transaction mix. -/
structure Config where
  numWarehouses : ℕ
  newOrderInsertPoolSize : ℕ
  perDistrict : ℕ
  flatOL : Bool

def Config.newOrderTableSize (cfg : Config) : ℕ :=
  cfg.numWarehouses * 2 * 10 * 900 + cfg.newOrderInsertPoolSize

def Config.orderTableSize (cfg : Config) : ℕ :=
  cfg.numWarehouses * 2 * 10 * 3000 + cfg.newOrderInsertPoolSize

def Config.auxNumSlotsPerDistrict (cfg : Config) : ℕ := cfg.perDistrict * 3 / 2 + 3000

/-- `computeOrdersMaxO`: `max_o_orders_`. -/
def computeOrdersMaxO (cfg : Config) : ℕ :=
  (max cfg.orderTableSize cfg.newOrderTableSize + cfg.numWarehouses * 10 - 1) /
    (cfg.numWarehouses * 10)

/-- `computeOLMaxO`: the stride of the flat OrderLine index. -/
def computeOLMaxO (cfg : Config) : ℕ := cfg.auxNumSlotsPerDistrict

/-- `maxO_ol`, as `TpccDb` hands it to the shadow. -/
def maxOOl (cfg : Config) : ℕ := if cfg.flatOL then computeOLMaxO cfg else 3000

/-- `denseIdxNO` and `denseIdxO`; their 32 bits hold every index as long as `W * 10 * max_o` is at
    most `2 ^ 32`. -/
def denseIdxO (w d o maxO : ℕ) : ℕ := ((w - 1) * 10 + (d - 1)) * maxO + (o - 1)

/-- The slot of a NewOrder or Order key. -/
def denseOfOrder (maxO key : ℕ) : ℕ := denseIdxO (orderWId key) (orderDId key) (orderOId key) maxO

/-! ### The initial population -/

structure OrderId where
  w : ℕ
  d : ℕ
  o : ℕ

/-- The loaded orders, in load order. -/
def initialOrders (W : ℕ) : List OrderId :=
  (List.range W).flatMap fun w => (List.range 10).flatMap fun d =>
    (List.range 3000).map fun o => ⟨w + 1, d + 1, o + 1⟩

/-- The orders of it that NewOrder holds. -/
def initialNewOrders (W : ℕ) : List OrderId := (initialOrders W).filter fun x => 2100 < x.o

/-- Their lines. -/
def initialLines (W : ℕ) : List (OrderId × ℕ) :=
  (initialOrders W).flatMap fun x => (List.range 15).map fun ol => (x, ol + 1)

def initialOrderKeys (W : ℕ) : List ℕ := (initialOrders W).map fun x => orderKey x.o x.d x.w
def initialNewOrderKeys (W : ℕ) : List ℕ := (initialNewOrders W).map fun x => newOrderKey x.o x.d x.w
def initialLineKeys (W : ℕ) : List ℕ :=
  (initialLines W).map fun x => orderLineKey x.1.o x.1.d x.1.w x.2

/-- A cuco map loaded with keys, the j-th with CRID j. -/
def loadCuco (keys : List ℕ) : Store := .cuco (insertAll kAbsent (fun _ => kAbsent) keys.zipIdx) false

/-- `k_flat_ol_init_initial_pop`. -/
def flatInitialPop (W maxO : ℕ) : ℕ → ℕ :=
  (List.range (W * 10 * 3000 * 15)).foldl (fun a tid =>
    Function.update a ((tid / (15 * 3000 * 10) * 10 + tid / (15 * 3000) % 10) * maxO * 15 +
      tid / 15 % 3000 * 15 + tid % 15) tid) fun _ => kAbsent

/-- `TpccGpuIndex::loadInitialData` for one table; the CRID buffer is uninitialised memory. -/
def loadTable (store : Store) (init : ℕ) (entryCrid : ℕ → ℕ) : Table :=
  ⟨store, init, 0, fun _ => kAbsent, entryCrid⟩

/-- The growing-table indexes after `loadInitialData`. -/
def loadIndex (cfg : Config) (entryCrid : ℕ → ℕ) : Index :=
  { newOrder := loadTable (loadCuco (initialNewOrderKeys cfg.numWarehouses))
      (cfg.numWarehouses * 10 * 900) entryCrid
    order := loadTable (loadCuco (initialOrderKeys cfg.numWarehouses))
      (cfg.numWarehouses * 10 * 3000) entryCrid
    orderLine := loadTable
      (if cfg.flatOL then .flat (flatInitialPop cfg.numWarehouses (computeOLMaxO cfg)) (computeOLMaxO cfg)
        else loadCuco (initialLineKeys cfg.numWarehouses))
      (cfg.numWarehouses * 10 * 3000 * 15) entryCrid }

/-! ### The durable arrays -/

/-- `durable_no_keys_`, `durable_o_keys_`, `durable_ol_keys_` and the NewOrder delete log. -/
structure Durable where
  noKeys : ℕ → ℕ
  oKeys : ℕ → ℕ
  olKeys : ℕ → ℕ
  noDeleteKeys : ℕ → ℕ
  noDeleteCrids : ℕ → ℕ

/-- `TpccFreeStarts`. -/
structure FreeStarts where
  newOrder : ℕ
  order : ℕ
  orderLine : ℕ

/-- `mirrorEpoch`. -/
def mirrorEpoch (log : Durable) (no o ol : List ℕ) (old : FreeStarts) : Durable :=
  { log with
    noKeys := copyAt log.noKeys old.newOrder no
    oKeys := copyAt log.oKeys old.order o
    olKeys := copyAt log.olKeys old.orderLine ol }

/-- `mirrorEpochNoDeletes`. -/
def mirrorEpochNoDeletes (log : Durable) (keys crids : List ℕ) (oldDeleteCount : ℕ) : Durable :=
  { log with
    noDeleteKeys := copyAt log.noDeleteKeys oldDeleteCount keys
    noDeleteCrids := copyAt log.noDeleteCrids oldDeleteCount crids }

/-- The GPU indexes with the durable arrays. -/
structure GpuIndex where
  index : Index
  noDeleteCount : ℕ
  durable : Durable

/-- The free-row cursors. -/
def Index.freeStarts (idx : Index) : FreeStarts :=
  ⟨idx.newOrder.freeStart, idx.order.freeStart, idx.orderLine.freeStart⟩

/-- `indexTxns` with its appends. -/
def GpuIndex.indexTxns (deletePath : Bool) (g : GpuIndex) (txns : List TpccTxn) :
    Except String GpuIndex := do
  let (idx, out) ← Tpcc.indexTxns deletePath g.index txns
  return {
    index := idx
    noDeleteCount := g.noDeleteCount + out.edelKeys.length
    durable := mirrorEpochNoDeletes
      (mirrorEpoch g.durable out.newOrderMinted out.orderMinted out.orderLineMinted g.index.freeStarts)
      out.edelKeys out.edelCrids g.noDeleteCount }

/-- The index phases of a history of epochs. -/
def GpuIndex.run (deletePath : Bool) (g : GpuIndex) (epochs : List (List TpccTxn)) :
    Except String GpuIndex :=
  epochs.foldlM (GpuIndex.indexTxns deletePath) g

/-- The start of a run; `durable` and `entryCrid` are uninitialised memory. -/
def GpuIndex.init (cfg : Config) (durable : Durable) (entryCrid : ℕ → ℕ) : GpuIndex :=
  ⟨loadIndex cfg entryCrid, 0, durable⟩

/-! ### The dense arrays -/

/-- `shadow_no_`, `shadow_o_` and `shadow_ol_`. -/
structure Shadow where
  no : ℕ → ℕ
  o : ℕ → ℕ
  ol : ℕ → ℕ

/-- `TpccCpuShadowIndex::loadInitialData`. -/
def loadInitialData (cfg : Config) : Shadow :=
  let W := cfg.numWarehouses
  { no := (initialNewOrders W).foldl (fun a x =>
      Function.update a (denseIdxO x.w x.d x.o (computeOrdersMaxO cfg))
        (((x.w - 1) * 10 + (x.d - 1)) * 900 + (x.o - 2101))) fun _ => kAbsent
    o := (initialOrders W).foldl (fun a x =>
      Function.update a (denseIdxO x.w x.d x.o (computeOrdersMaxO cfg))
        (((x.w - 1) * 10 + (x.d - 1)) * 3000 + (x.o - 1))) fun _ => kAbsent
    ol := (initialLines W).foldl (fun a x =>
      Function.update a (denseIdxOL x.1.w x.1.d x.1.o x.2 (maxOOl cfg))
        (((x.1.w - 1) * 10 + (x.1.d - 1)) * 3000 * 15 + (x.1.o - 1) * 15 + (x.2 - 1))) fun _ => kAbsent }

/-- One table of `reconstructInsertsFromDurable`. -/
def reconstructTable (slot : ℕ → ℕ) (base : ℕ) (keys : ℕ → ℕ) (count : ℕ) (a : ℕ → ℕ) : ℕ → ℕ :=
  (List.range count).foldl (fun a j => Function.update a (slot (keys j)) (base + j)) a

/-- `reconstructInsertsFromDurable`. -/
def reconstructInsertsFromDurable (cfg : Config) (log : Durable) (f : FreeStarts) (s : Shadow) : Shadow :=
  { no := reconstructTable (denseOfOrder (computeOrdersMaxO cfg)) (cfg.numWarehouses * 10 * 900)
      log.noKeys f.newOrder s.no
    o := reconstructTable (denseOfOrder (computeOrdersMaxO cfg)) (cfg.numWarehouses * 10 * 3000)
      log.oKeys f.order s.o
    ol := reconstructTable (denseOf (maxOOl cfg)) (cfg.numWarehouses * 10 * 3000 * 15)
      log.olKeys f.orderLine s.ol }

/-- `applyNoDeletesFromDurable`. -/
def applyNoDeletesFromDurable (cfg : Config) (log : Durable) (count : ℕ) (s : Shadow) : Shadow :=
  { s with
    no := (List.range count).foldl (fun a j =>
      let slot := denseOfOrder (computeOrdersMaxO cfg) (log.noDeleteKeys j)
      if a slot = log.noDeleteCrids j then Function.update a slot kAbsent else a) s.no }

/-! ### `rebuildIndexesFromShadow` -/

/-- `eraseStragglers` of one table. -/
def eraseStragglers (a : ℕ → ℕ) (max : ℕ) : ℕ → ℕ :=
  fun i => if a i ≠ kAbsent ∧ max ≤ a i then kAbsent else a i

/-- `uploadShadowToCuco_`. -/
def uploadShadowToCuco (a : ℕ → ℕ) (size : ℕ) (decode : ℕ → ℕ) : Store :=
  .cuco (insertAll kAbsent (fun _ => kAbsent)
    (((List.range size).filter fun i => a i ≠ kAbsent).map fun i => (decode i, a i))) false

/-- The key of a NewOrder or Order slot. -/
def decodeOrder (maxO i : ℕ) : ℕ :=
  orderFields (i % (10 * maxO) % maxO + 1) (i % (10 * maxO) / maxO + 1) (i / (10 * maxO) + 1)

/-- The key of an OrderLine slot in hash mode. -/
def decodeOL (i : ℕ) : ℕ :=
  let perWd := 3000 * 15
  let perW := 10 * perWd
  orderLineKey (i % perW % perWd / 15 + 1) (i % perW / perWd + 1) (i / perW + 1)
    (i % perW % perWd % 15 + 1)

/-- The three indexes a recover process rebuilds from a shadow, for the cursors `f`. -/
def rebuildIndexesFromShadow (cfg : Config) (s : Shadow) (f : FreeStarts) : Store × Store × Store :=
  let W := cfg.numWarehouses
  let maxO := computeOrdersMaxO cfg
  let no := eraseStragglers s.no (W * 10 * 900 + f.newOrder)
  let o := eraseStragglers s.o (W * 10 * 3000 + f.order)
  let ol := eraseStragglers s.ol (W * 10 * 3000 * 15 + f.orderLine)
  (uploadShadowToCuco no (W * 10 * maxO) (decodeOrder maxO),
    uploadShadowToCuco o (W * 10 * maxO) (decodeOrder maxO),
    if cfg.flatOL then .flat ol (computeOLMaxO cfg)
      else uploadShadowToCuco ol (W * 10 * maxOOl cfg * 15) decodeOL)

/-- Recovery of the growing-table indexes from the durable arrays cut at the cursors. -/
def recoverIndexes (cfg : Config) (log : Durable) (f : FreeStarts) (deleteCount : ℕ) :
    Store × Store × Store :=
  rebuildIndexesFromShadow cfg
    (applyNoDeletesFromDurable cfg log deleteCount
      (reconstructInsertsFromDurable cfg log f (loadInitialData cfg))) f

end Egad.Tpcc
