import Egad.Stager.Mapping

/-! # Records, dirty marks and the asynchronous writeback

    A slot of the cache and a row of the primary store are both a record with two versions. In every
    epoch a written record gets its new value in the slot with the older tag; the executor marks that
    slot, and at the end of the epoch the marked slots are collected, unmarked and packed, and a
    worker scatters the packed values to the primary store while the next epoch runs:

        prepareEpoch(e) ─► writes, marks ─► sync_flush(e-1) ─► start_flush_epoch_async(e) ─► …
                                                               collect, clear, pack │
                                                                                    └─► worker -/

namespace Egad.Stager
open Egad.Lib

variable {V : Type*}

structure Rec (V : Type*) where
  version1 : ℕ
  version2 : ℕ
  value1 : V
  value2 : V

/-- The slot of a record: `slot1` is the source's slot 0. -/
inductive Slot where
  | slot1
  | slot2
deriving DecidableEq

/-- `classify_prev_slot_host`: the slot with the value before `epoch`. -/
def classifyPrevSlotHost (v1 v2 epoch : ℕ) : Slot :=
  if v1 = epoch then .slot2
  else if v2 = epoch then .slot1
  else if v1 < v2 then .slot2
  else .slot1

/-- The slot a record-B write takes. -/
def Rec.recordBSlot (r : Rec V) : Slot := if r.version1 < r.version2 then .slot1 else .slot2

def Rec.value (r : Rec V) : Slot → V
  | .slot1 => r.value1
  | .slot2 => r.value2

def Rec.version (r : Rec V) : Slot → ℕ
  | .slot1 => r.version1
  | .slot2 => r.version2

/-- Store a value and its tag in one slot. -/
def Rec.put (r : Rec V) (version : ℕ) (value : V) : Slot → Rec V
  | .slot1 => { r with version1 := version, value1 := value }
  | .slot2 => { r with version2 := version, value2 := value }

/-- One element of the flush set, with the value packed for the worker. -/
structure Entry (V : Type*) where
  grid : ℕ
  slot : Slot
  crid : ℕ
  version : ℕ
  value : V

structure Hybrid (V : Type*) where
  cache : Cache
  records : ℕ → Rec V
  dirty : Slot → ℕ → Bool
  store : ℕ → Rec V
  inflight : List (Entry V)

variable (cfg : Config)

/-- The stager over a loaded primary store. -/
def Hybrid.initial (records store : ℕ → Rec V) : Hybrid V :=
  ⟨Cache.initial cfg, records, fun _ _ => false, store, []⟩

/-! ### Admission -/

/-- `transfer_versions`: both tags, and the value of the slot that is current before the epoch. -/
def transferVersion (epoch : ℕ) (src dst : Rec V) : Rec V :=
  match classifyPrevSlotHost src.version1 src.version2 epoch with
  | .slot1 => { dst with
      version1 := src.version1, version2 := src.version2, value1 := src.value1 }
  | .slot2 => { dst with
      version1 := src.version1, version2 := src.version2, value2 := src.value2 }

/-- `sg_transfer_versions`. -/
def sgTransferVersions (epoch : ℕ) (pairs : List (ℕ × ℕ)) (store records : ℕ → Rec V) :
    ℕ → Rec V :=
  pairs.foldl (fun (m : ℕ → Rec V) (x : ℕ × ℕ) =>
    Function.update m x.2 (transferVersion epoch (store x.1) (m x.2))) records

/-- `k_zero_insert_slot_tags`. -/
def zeroInsertSlotTags (grids : List ℕ) (records : ℕ → Rec V) : ℕ → Rec V :=
  grids.foldl (fun (m : ℕ → Rec V) g =>
    Function.update m g { m g with version1 := 0, version2 := 0 }) records

/-- `prepareEpoch` with the records it moves. -/
def Hybrid.prepare (epoch : ℕ) (sched : Schedule) (keys insertKeys : List ℕ) (h : Hybrid V) :
    Except Failure (Hybrid V) :=
  match prepareEpoch cfg sched keys insertKeys h.cache with
  | .error e => .error e
  | .ok p => .ok { h with
    cache := p.cache
    records := zeroInsertSlotTags p.cleared
      (sgTransferVersions epoch p.fetched h.store h.records) }

/-- The pre-warm with the records it fetches. -/
def Hybrid.prewarm (W : ℕ) (h : Hybrid V) : Hybrid V :=
  let c := Stager.prewarm cfg W h.cache
  { h with
    cache := c
    records := if cfg.capacity ≤ W * 10 * 13500 then h.records
      else sgTransferVersions 0 ((undeliveredOrderLines W).map fun r => (r, c.cridToGrid r))
        h.store h.records }

/-! ### Execution -/

/-- A record-B write of `gpuWriteToTableCoop` to the record at `grid`. -/
def Hybrid.writeRecordB (epoch grid : ℕ) (value : V) (h : Hybrid V) : Hybrid V :=
  if grid = absent then h
  else
    let slot := (h.records grid).recordBSlot
    { h with
      records := Function.update h.records grid ((h.records grid).put epoch value slot)
      dirty := Function.update h.dirty slot (Function.update (h.dirty slot) grid true) }

/-- One entry of the flush set scattered to the primary store. -/
def scatterEntry (store : ℕ → Rec V) (x : Entry V) : ℕ → Rec V :=
  if x.crid = absent then store
  else Function.update store x.crid ((store x.crid).put x.version x.value x.slot)

/-- What can happen between `prepareEpoch` and the flush of the epoch: a record-B write of the
    executor, which finds the record through the remapped id; a step of the worker on the previous
    flush set; and its retirement by `sync_flush`, which waits for the worker. -/
inductive Event (V : Type*) where
  | write (crid : ℕ) (value : V)
  | scatter
  | syncFlush

def Hybrid.event (epoch : ℕ) (h : Hybrid V) : Event V → Hybrid V
  | .write crid value => h.writeRecordB epoch (lookup cfg h.cache.cridToGrid crid) value
  | .scatter =>
    match h.inflight with
    | [] => h
    | x :: rest => { h with store := scatterEntry h.store x, inflight := rest }
  | .syncFlush => { h with store := h.inflight.foldl scatterEntry h.store, inflight := [] }

def Hybrid.execute (epoch : ℕ) (h : Hybrid V) (es : List (Event V)) : Hybrid V :=
  es.foldl (Hybrid.event cfg epoch) h

/-! ### Collection -/

/-- `collect_dirty_grids_v1` and `_v2`. -/
def Hybrid.collectDirtyGrids (h : Hybrid V) (slot : Slot) : List ℕ :=
  (List.range cfg.capacity).filter fun g => h.dirty slot g

/-- The flush set of one slot: the GRIDs with their CRIDs, which the TPC-C stager sorts by CRID. -/
def Hybrid.flushSlot (h : Hybrid V) (slot : Slot) : List (ℕ × ℕ) :=
  let pairs := (h.collectDirtyGrids cfg slot).map fun g => (g, h.cache.resident g)
  if cfg.tpcc then pairs.insertionSort (fun x y => x.2 ≤ y.2) else pairs

/-- `wb_async_queue_pack`: the packed tag and value of each element. -/
def Hybrid.pack (h : Hybrid V) (slot : Slot) (x : ℕ × ℕ) : Entry V :=
  ⟨x.1, slot, x.2, (h.records x.1).version slot, (h.records x.1).value slot⟩

def Hybrid.flushSet (h : Hybrid V) : List (Entry V) :=
  (h.flushSlot cfg .slot1).map (h.pack .slot1) ++ (h.flushSlot cfg .slot2).map (h.pack .slot2)

/-- `k_clear_dirty`. -/
def clearDirtyByGrids (set : List (Entry V)) (dirty : Slot → ℕ → Bool) : Slot → ℕ → Bool :=
  set.foldl (fun d x => Function.update d x.slot (Function.update (d x.slot) x.grid false)) dirty

/-- `start_flush_epoch_async`: the previous worker is joined, the marked slots are collected, their
    marks cleared and their values packed for the next worker. -/
def Hybrid.startFlushEpochAsync (h : Hybrid V) : Hybrid V :=
  { h with
    store := h.inflight.foldl scatterEntry h.store
    dirty := clearDirtyByGrids (h.flushSet cfg) h.dirty
    inflight := h.flushSet cfg }

/-! ### Runs -/

/-- What one epoch does: how far the worker of the previous flush gets before `prepareEpoch`, the
    records flagged as dead, the needed records and the inserted ones, the interleaving of its
    kernels, and the events up to its flush. -/
structure EpochInput (V : Type*) where
  scattered : ℕ
  reclaim : List ℕ
  sched : Schedule
  keys : List ℕ
  insertKeys : List ℕ
  events : List (Event V)

/-- The state as `prepareEpoch` finds it. -/
def EpochInput.before (i : EpochInput V) (h : Hybrid V) : Hybrid V :=
  { h with
    cache := markReclaimable cfg i.reclaim h.cache
    store := (h.inflight.take i.scattered).foldl scatterEntry h.store
    inflight := h.inflight.drop i.scattered }

/-- `runEpoch` up to and including the start of its flush. -/
def Hybrid.runEpoch (epoch : ℕ) (i : EpochInput V) (h : Hybrid V) : Except Failure (Hybrid V) :=
  match (i.before cfg h).prepare cfg epoch i.sched i.keys i.insertKeys with
  | .error e => .error e
  | .ok h => .ok ((h.execute cfg epoch i.events).startFlushEpochAsync cfg)

/-- The keys of an epoch are records and its kernels run to their end. -/
structure EpochInput.Legal (i : EpochInput V) (h : Hybrid V) : Prop where
  keys : Keys cfg i.keys
  complete : i.sched.Complete cfg i.keys (markReclaimable cfg i.reclaim h.cache)

/-- The states between epochs: a loaded store, perhaps a pre-warmed cache, then any number of
    epochs. -/
inductive Hybrid.Run : ℕ → Hybrid V → Prop
  | initial (records store : ℕ → Rec V) : Hybrid.Run 1 (Hybrid.initial cfg records store)
  | prewarm (records store : ℕ → Rec V) {W : ℕ} : W * 10 * 45000 ≤ cfg.numUnits →
    Hybrid.Run 1 ((Hybrid.initial cfg records store).prewarm cfg W)
  | epoch {e : ℕ} {h h' : Hybrid V} {i : EpochInput V} : Hybrid.Run e h → i.Legal cfg h →
    h.runEpoch cfg e i = .ok h' → Hybrid.Run (e + 1) h'

end Egad.Stager
