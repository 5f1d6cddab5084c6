import Egad.Tpcc.Keys
import Egad.Timeline.Model
import Egad.Timeline.InsertFresh

/-! # The growing-table index phase of TPC-C (`benchmarks/tpcc_gpu_index.cu`)

    NewOrder, Order and OrderLine grow while the run inserts orders. An epoch resolves each table on
    its own path: bulk insert of fresh keys and `GrowingTableView` over it, or the timeline when an
    insert is not of a fresh key. Transaction `tid` has serial position `tid * 4` for its inserts,
    `tid * 4 + 1` for its reads and writes, `tid * 4 + 2` for its deletes.

        table       entries on the fast path   entries of the timeline           deletes
        NewOrder    tid                        tid*11 (insert), tid*11+1+i       Delivery, district i
        Order       tid                        tid                               none
        OrderLine   tid*15+i                   tid*15+i                          none -/

namespace Egad.Tpcc
open Egad.Lib Egad.Timeline

/-! ### Transactions -/

/-- The fields of the five transaction inputs that the growing tables read; the arrays of a Delivery
    have one entry for each district. -/
inductive TpccTxn where
  | newOrder (oId dId originWId numItems : ℕ)
  | payment
  | orderStatus (oId dId wId numItems : ℕ)
  | delivery (wId : ℕ) (oId numItems : ℕ → ℕ)
  | stockLevel

/-- `new_order_insert[tid]`. -/
def TpccTxn.newOrderInsert : TpccTxn → Option ℕ
  | .newOrder o d w _ => some (newOrderKey o d w)
  | _ => none

/-- `order_insert[tid]`. -/
def TpccTxn.orderInsert : TpccTxn → Option ℕ
  | .newOrder o d w _ => some (orderKey o d w)
  | _ => none

/-- `orderline_insert[tid * 15 + i]`. -/
def TpccTxn.orderLineInsert (i : ℕ) : TpccTxn → Option ℕ
  | .newOrder o d w n => if i < n then some (orderLineKey o d w (i + 1)) else none
  | _ => none

/-- The NewOrder key that district `i` of a Delivery delivers; `o_id[i] == 0` delivers nothing. -/
def TpccTxn.newOrderDelete (i : ℕ) : TpccTxn → Option ℕ
  | .delivery w o _ => if o i = 0 then none else some (newOrderKey (o i) (i + 1) w)
  | _ => none

/-! ### Index stores -/

/-- A table's index: a cuco map, with whether anything was ever erased from it, or the flat
    OrderLine array with its stride. -/
inductive Store where
  | cuco (map : ℕ → ℕ) (hasErased : Bool)
  | flat (array : ℕ → ℕ) (maxO : ℕ)

/-- `findOrAbsent` / `OrderLineFlatView::find`. -/
def Store.find : Store → ℕ → ℕ
  | .cuco m _, k => m k
  | .flat a maxO, k => if maxO < olOId k then kAbsent else a (denseOf maxO k)

/-- `k_flat_ol_bulk_insert_checked` on one in-range key: compare and swap. -/
def flatInsert (maxO : ℕ) (acc : (ℕ → ℕ) × ℕ) (x : ℕ × ℕ) : (ℕ → ℕ) × ℕ :=
  if acc.1 (denseOf maxO x.1) = kAbsent then (Function.update acc.1 (denseOf maxO x.1) x.2, acc.2)
  else (acc.1, acc.2 + 1)

/-- The bulk insert of an epoch's keys with tentative CRIDs, and whether all of them were fresh. -/
def Store.insertFresh (s : Store) (keys : List ℕ) (cridBegin : ℕ) : Except String (Bool × Store) :=
  match s with
  | .cuco m e =>
    let r := Timeline.insertFresh m e keys cridBegin
    .ok (r.1, .cuco r.2 e)
  | .flat a maxO =>
    if (keys.filter fun k => maxO < olOId k).length ≠ 0 then
      .error "OrderLine flat index: order ids exceed the per-district stride"
    else
      let r := (tentative keys cridBegin).foldl (flatInsert maxO) (a, 0)
      .ok (r.2 = 0, .flat r.1 maxO)

/-- `k_flat_ol_assign_many`. -/
def flatAssign (maxO : ℕ) (a : ℕ → ℕ) (kvs : List (ℕ × ℕ)) : ℕ → ℕ :=
  kvs.foldl (fun a x => if maxO < olOId x.1 then a else Function.update a (denseOf maxO x.1) x.2) a

/-- `eraseTentative` / `undoAcceptedFlatOL`. -/
def Store.undo (s : Store) (keys : List ℕ) (cridBegin : ℕ) : Store :=
  match s with
  | .cuco m e =>
    let r := eraseTentative m keys cridBegin
    .cuco r.1 (e || r.2 ≠ 0)
  | .flat a maxO =>
    let erase := keys.filter fun k => sub32 (s.find k) cridBegin < keys.length
    .flat (flatAssign maxO a (erase.map fun k => (k, kAbsent))) maxO

/-- `finalizeCuco`, or the flat index's assignment. -/
def Store.finalize (s : Store) (t : Built) : Except String Store :=
  match s with
  | .cuco m e => .ok (.cuco (t.finalize m) (e || t.eraseKeys.length ≠ 0))
  | .flat a maxO =>
    if 0 < t.eraseKeys.length then .error "OrderLine timeline produced an erase; the table has no deletes"
    else .ok (.flat (flatAssign maxO a (t.insertKeys.zip t.insertCrids)) maxO)

/-- `new_order_index->erase`. -/
def Store.erase (s : Store) (keys : List ℕ) : Store :=
  match s with
  | .cuco m e => .cuco (eraseAll kAbsent m keys) (e || keys.length ≠ 0)
  | .flat a maxO => .flat a maxO

/-! ### `GrowingTableView` -/

/-- `GrowingTableView`; `tl` is there on the general path. -/
structure GrowingTableView where
  mintedBegin : ℕ
  numMinted : ℕ
  insEntry : List ℕ
  entriesPerTxn : ℕ
  delPos : Option (ℕ → ℕ)
  tl : Option Built

/-- `GrowingTableView::visible`. -/
def GrowingTableView.visible (v : GrowingTableView) (found tid : ℕ) : ℕ :=
  if found ≠ kAbsent ∧ sub32 found v.mintedBegin < v.numMinted ∧
      tid < v.insEntry.getD (sub32 found v.mintedBegin) 0 / v.entriesPerTxn then kAbsent
  else found

/-- The lookup of the fast path: visibility, then the delete positions. -/
def GrowingTableView.resolveFast (v : GrowingTableView) (found tid : ℕ) : ℕ :=
  match v.delPos with
  | none => v.visible found tid
  | some d =>
    if v.visible found tid ≠ kAbsent ∧ d (v.visible found tid) < tid * 4 + 1 then kAbsent
    else v.visible found tid

/-- `GrowingTableView::resolve`. -/
def GrowingTableView.resolve (v : GrowingTableView) (key found tid : ℕ) : ℕ :=
  match v.tl with
  | some t => if t.sorted.length ≠ 0 then t.resolve key (tid * 4 + 1) 0 false found
    else v.resolveFast found tid
  | none => v.resolveFast found tid

/-! ### One table's epoch -/

/-- What an epoch puts into one table. -/
structure TableInput where
  posBits : ℕ
  /-- the fast path's insert array and its entries per transaction -/
  insert : List (Option ℕ)
  entriesPerTxn : ℕ
  /-- the timeline's input arrays and its entries per transaction -/
  entries : List Entry
  tlEntriesPerTxn : ℕ
  /-- the Delivery deletes (key, transaction), in slot order; `none` outside the delete path -/
  deletes : Option (List (ℕ × ℕ))

/-- `d_*_valid_insert`. -/
def TableInput.validInsert (inp : TableInput) : List ℕ := inp.insert.filterMap id

/-- `d_*_ins_entry`. -/
def TableInput.insEntry (inp : TableInput) : List ℕ :=
  (inp.insert.zipIdx.filter fun x => x.1.isSome).map Prod.snd

/-- A table's state between epochs: its index, the rows used, the delete positions, the timeline's
    CRID buffer; `init` is the number of rows of the initial population. -/
structure Table where
  store : Store
  init : ℕ
  freeStart : ℕ
  delPos : ℕ → ℕ
  entryCrid : ℕ → ℕ

/-- What an epoch's index phase takes from a table: how a key resolves for a transaction, the minted
    keys and the effective deletes. -/
structure TableOut where
  resolve : ℕ → ℕ → ℕ
  mintedKeys : List ℕ
  edelKeys : List ℕ
  edelCrids : List ℕ

/-- `k_record_no_deletes`: one delete of a Delivery. -/
def recordNoDelete (visible : ℕ → ℕ → ℕ) (d : ℕ → ℕ) (x : ℕ × ℕ) : ℕ → ℕ :=
  if visible x.1 x.2 ≠ kAbsent then
    Function.update d (visible x.1 x.2) (min (d (visible x.1 x.2)) (x.2 * 4 + 2))
  else d

/-- The view the fast path sets up. -/
def fastView (inp : TableInput) (cridBegin : ℕ) (delPos : Option (ℕ → ℕ)) : GrowingTableView :=
  { mintedBegin := cridBegin
    numMinted := inp.validInsert.length
    insEntry := inp.insEntry
    entriesPerTxn := inp.entriesPerTxn
    delPos := delPos
    tl := none }

/-- A key's record for a transaction on the fast path; `store` holds the epoch's inserts. -/
def fastResolve (inp : TableInput) (store : Store) (cridBegin : ℕ) (delPos : Option (ℕ → ℕ))
    (key tid : ℕ) : ℕ :=
  (fastView inp cridBegin delPos).resolve key (store.find key) tid

/-- `k_record_no_deletes`. -/
def recordNoDeletes (inp : TableInput) (store : Store) (cridBegin : ℕ) (dels : List (ℕ × ℕ))
    (d : ℕ → ℕ) : ℕ → ℕ :=
  dels.foldl (recordNoDelete fun key tid =>
    (fastView inp cridBegin none).visible (store.find key) tid) d

/-- `k_no_effective_deletes`: the flagged slots, in slot order. -/
def noEffectiveDeletes (resolve : ℕ → ℕ → ℕ) (d : ℕ → ℕ) (dels : List (ℕ × ℕ)) : List (ℕ × ℕ) :=
  dels.filter fun x => resolve x.1 x.2 ≠ kAbsent ∧ d (resolve x.1 x.2) = x.2 * 4 + 2

/-- The fast path of a table. -/
def fastTable (inp : TableInput) (tbl : Table) (store : Store) : Table × TableOut :=
  let cridBegin := tbl.init + tbl.freeStart
  match inp.deletes with
  | none =>
    ({ tbl with store := store, freeStart := tbl.freeStart + inp.validInsert.length },
      { resolve := fastResolve inp store cridBegin none
        mintedKeys := inp.validInsert
        edelKeys := []
        edelCrids := [] })
  | some dels =>
    let d := recordNoDeletes inp store cridBegin dels tbl.delPos
    let resolve := fastResolve inp store cridBegin (some d)
    let edel := noEffectiveDeletes resolve d dels
    let edelCrids := edel.map fun x => resolve x.1 x.2
    ({ tbl with
        store := store.erase (edel.map Prod.fst)
        freeStart := tbl.freeStart + inp.validInsert.length
        delPos := eraseAll kAbsent d edelCrids },
      { resolve := resolve
        mintedKeys := inp.validInsert
        edelKeys := edel.map Prod.fst
        edelCrids := edelCrids })

/-- The view of the timeline path. -/
def generalView (inp : TableInput) (tbl : Table) (t : Built) : GrowingTableView :=
  { mintedBegin := tbl.init + tbl.freeStart
    numMinted := t.numMinted
    insEntry := t.insEntries
    entriesPerTxn := inp.tlEntriesPerTxn
    delPos := none
    tl := some t }

/-- What the timeline path hands on; the effective deletes only on the delete path. -/
def generalOut (inp : TableInput) (tbl : Table) (t : Built) : TableOut :=
  { resolve := fun key tid => (generalView inp tbl t).resolve key (tbl.store.find key) tid
    mintedKeys := t.mintedKeys
    edelKeys := if inp.deletes.isSome then t.edelKeys else []
    edelCrids := if inp.deletes.isSome then t.edelCrids else [] }

/-- The timeline path of a table. -/
def generalTable (inp : TableInput) (tbl : Table) : Except String (Table × TableOut) := do
  let t := build inp.posBits tbl.store.find (tbl.init + tbl.freeStart) tbl.entryCrid inp.entries
  let store ← tbl.store.finalize t
  return ({ tbl with
            store := store
            freeStart := tbl.freeStart + t.numMinted
            entryCrid := t.entryCrid }, generalOut inp tbl t)

/-- One table's epoch: the path is chosen by whether every insert is of a fresh key. -/
def tableEpoch (inp : TableInput) (tbl : Table) : Except String (Table × TableOut) := do
  if inp.validInsert.length = 0 then return fastTable inp tbl tbl.store
  else
    match ← tbl.store.insertFresh inp.validInsert (tbl.init + tbl.freeStart) with
    | (true, store) => return fastTable inp tbl store
    | (false, store) =>
      generalTable inp { tbl with store := store.undo inp.validInsert (tbl.init + tbl.freeStart) }

/-! ### The inputs of the three tables -/

/-- NewOrder. `deletePath` is `HYBRID_STAGING && txn_mix.delivery > 0`. -/
def newOrderInput (deletePath : Bool) (txns : List TpccTxn) : TableInput :=
  { posBits := 24
    insert := txns.map TpccTxn.newOrderInsert
    entriesPerTxn := 1
    entries := txns.zipIdx.flatMap fun x => ⟨x.1.newOrderInsert, none, x.2 * 4⟩ ::
      (List.range 10).map fun i => ⟨none, x.1.newOrderDelete i, x.2 * 4 + 2⟩
    tlEntriesPerTxn := 11
    deletes := if deletePath then
        some (txns.zipIdx.flatMap fun x =>
          (List.range 10).filterMap fun i => (x.1.newOrderDelete i).map fun k => (k, x.2))
      else none }

/-- Order. -/
def orderInput (txns : List TpccTxn) : TableInput :=
  { posBits := 24
    insert := txns.map TpccTxn.orderInsert
    entriesPerTxn := 1
    entries := txns.zipIdx.map fun x => ⟨x.1.orderInsert, none, x.2 * 4⟩
    tlEntriesPerTxn := 1
    deletes := none }

/-- OrderLine. -/
def orderLineInput (txns : List TpccTxn) : TableInput :=
  { posBits := 22
    insert := txns.flatMap fun t => (List.range 15).map fun i => t.orderLineInsert i
    entriesPerTxn := 15
    entries := txns.zipIdx.flatMap fun x =>
      (List.range 15).map fun i => ⟨x.1.orderLineInsert i, none, x.2 * 4⟩
    tlEntriesPerTxn := 15
    deletes := none }

/-! ### `indexTxns` -/

/-- The three growing tables. -/
structure Index where
  newOrder : Table
  order : Table
  orderLine : Table

/-- The growing-table record ids of a transaction's parameters. -/
inductive TxnParams where
  | newOrder (orderId newOrderId : ℕ) (orderLineIds : List ℕ)
  | orderStatus (orderId : ℕ) (orderLineIds : List ℕ)
  | delivery (newOrderId orderId : List ℕ) (orderLineIds : List (List ℕ))
  | other
  deriving DecidableEq

/-- `indexTpccTxn` of transaction `tid`, from the resolution of the three tables. -/
def indexTpccTxn (no o ol : ℕ → ℕ → ℕ) (tid : ℕ) : TpccTxn → TxnParams
  | .newOrder oId d w n =>
    .newOrder (o (orderKey oId d w) tid) (no (newOrderKey oId d w) tid)
      ((List.range n).map fun i => ol (orderLineKey oId d w (i + 1)) tid)
  | .orderStatus oId d w n =>
    .orderStatus (o (orderKey oId d w) tid)
      ((List.range n).map fun i => ol (orderLineKey oId d w (i + 1)) tid)
  | .delivery w oId n =>
    .delivery
      ((List.range 10).map fun i =>
        if oId i = 0 then kAbsent else no (newOrderKey (oId i) (i + 1) w) tid)
      ((List.range 10).map fun i =>
        if oId i = 0 then kAbsent else o (orderKey (oId i) (i + 1) w) tid)
      ((List.range 10).map fun i => if oId i = 0 then [] else
        (List.range (n i)).map fun j => ol (orderLineKey (oId i) (i + 1) w (j + 1)) tid)
  | _ => .other

/-- What the epoch hands on: the parameters, the minted keys of the three tables and the effective
    NewOrder deletes. -/
structure EpochOut where
  params : List TxnParams
  newOrderMinted : List ℕ
  orderMinted : List ℕ
  orderLineMinted : List ℕ
  edelKeys : List ℕ
  edelCrids : List ℕ
  deriving DecidableEq

/-- The epoch from the outcomes of the three tables. -/
def epochOut (txns : List TpccTxn) (no o ol : TableOut) : EpochOut :=
  { params := txns.zipIdx.map fun x => indexTpccTxn no.resolve o.resolve ol.resolve x.2 x.1
    newOrderMinted := no.mintedKeys
    orderMinted := o.mintedKeys
    orderLineMinted := ol.mintedKeys
    edelKeys := no.edelKeys
    edelCrids := no.edelCrids }

/-- `indexTxns`, with the function that runs one table's epoch. -/
def indexWith (table : TableInput → Table → Except String (Table × TableOut)) (deletePath : Bool)
    (idx : Index) (txns : List TpccTxn) : Except String (Index × EpochOut) := do
  let o ← table (orderInput txns) idx.order
  let no ← table (newOrderInput deletePath txns) idx.newOrder
  let ol ← table (orderLineInput txns) idx.orderLine
  return (⟨no.1, o.1, ol.1⟩, epochOut txns no.2 o.2 ol.2)

/-- `indexTxns`: each table on the path its inserts allow. -/
def indexTxns := indexWith tableEpoch

/-- The same epoch with every table on the timeline. -/
def timelineTxns := indexWith generalTable

end Egad.Tpcc
