import Egad.Ycsb.Oracle
import Egad.Timeline.InsertFresh

/-! # The YCSB index phase (`benchmarks/ycsb_gpu_index.cu`)

    `indexTxns` resolves one epoch. The fast path bulk-inserts the epoch's insert keys and hides a
    record minted at slot `s` from the slots before `s` (`fastLookup`) and a deleted record from the
    slots after its first delete (`delPos`). An epoch whose inserts are not all of fresh keys goes
    through the timeline instead.

        checkFreeRows ─▶ insertFresh ──accept──▶ fastEpoch
                              └──reject──▶ eraseTentative ─▶ generalEpoch -/

namespace Egad.Ycsb
open Egad.Lib Egad.Timeline

/-- The part of `YcsbConfig` the index reads. -/
structure Config where
  numRecords : ℕ
  startingNumRecords : ℕ
  /-- `txn_mix.num_deletes` -/
  numDeletes : ℕ

/-- The index state carried from epoch to epoch: the cuco map through its lookup, whether anything
    was ever erased from it, the rows used, the delete positions and the timeline's CRID buffer. -/
structure Index where
  map : ℕ → ℕ
  hasErased : Bool
  freeStart : ℕ
  delPos : ℕ → ℕ
  entryCrid : ℕ → ℕ

/-- What an epoch's index phase produces: the transaction parameters of every slot, the insert-log
    keys, the delete-log pairs and the key->CRID map it leaves. -/
structure EpochOut where
  recordIds : List ℕ
  ops : List YcsbOpType
  fieldIds : List ℕ
  mintedKeys : List ℕ
  edelKeys : List ℕ
  edelCrids : List ℕ
  map : ℕ → ℕ

/-- The keys of the epoch's inserts (`d_valid_inserts`), in slot order. -/
def insKeys (slots : List Slot) : List ℕ := (slots.filter fun s => s.op = .insert).map Slot.key

/-- The slots of the epoch's inserts (`d_ins_slot`). -/
def insSlots (slots : List Slot) : List ℕ :=
  (slots.zipIdx.filter fun x => x.1.op = .insert).map Prod.snd

/-- `minted_begin`. -/
def mintedBegin (cfg : Config) (idx : Index) : ℕ := cfg.startingNumRecords + idx.freeStart

/-- `checkFreeRows`. -/
def checkFreeRows (cfg : Config) (freeStart want : ℕ) : Except String Unit :=
  let freeTotal := cfg.numRecords - cfg.startingNumRecords
  let have_ := if freeStart < freeTotal then freeTotal - freeStart else 0
  if have_ < want then .error "Out of free rows for inserts" else .ok ()

/-- `ops[i]` of the executor-facing parameters. -/
def paramOp (rid : ℕ) (op : YcsbOpType) : YcsbOpType := if rid = kAbsent then .noop else op

/-! ### Fast path -/

/-- `fastLookup`. -/
def fastLookup (map : ℕ → ℕ) (mintedBegin numMinted : ℕ) (insSlot : List ℕ) (key slot : ℕ) : ℕ :=
  let rid := map key
  if rid ≠ kAbsent ∧ sub32 rid mintedBegin < numMinted ∧
      slot < insSlot.getD (sub32 rid mintedBegin) 0 then kAbsent
  else rid

/-- One slot of `k_record_deletes`. -/
def recordDelete (look : ℕ → ℕ → ℕ) (delPos : ℕ → ℕ) (x : Slot × ℕ) : ℕ → ℕ :=
  if x.1.op = .delete ∧ look x.1.key x.2 ≠ kAbsent then
    Function.update delPos (look x.1.key x.2) (min (delPos (look x.1.key x.2)) x.2)
  else delPos

/-- `k_record_deletes`: the earliest slot at which each record is deleted. -/
def recordDeletes (look : ℕ → ℕ → ℕ) (slots : List Slot) (delPos : ℕ → ℕ) : ℕ → ℕ :=
  slots.zipIdx.foldl (recordDelete look) delPos

/-- One slot of `indexYcsbKernel`; `delPos` is null when the mix has no deletes. -/
def fastRecordId (look : ℕ → ℕ → ℕ) (delPos : Option (ℕ → ℕ)) (x : Slot × ℕ) : ℕ :=
  let rid := look x.1.key x.2
  match delPos with
  | none => rid
  | some d => if rid ≠ kAbsent ∧ d rid < x.2 then kAbsent else rid

/-- `k_effective_deletes`: the flag of one slot. -/
def isEffectiveDelete (look : ℕ → ℕ → ℕ) (d : ℕ → ℕ) (x : Slot × ℕ) : Bool :=
  x.1.op = .delete ∧ fastRecordId look (some d) x ≠ kAbsent ∧ d (fastRecordId look (some d) x) = x.2

/-- The fast path after an accepted `insertFresh`; `map` is the index with this epoch's inserts. -/
def fastEpoch (cfg : Config) (idx : Index) (map : ℕ → ℕ) (slots : List Slot) : Index × EpochOut :=
  let numMinted := (insKeys slots).length
  let look := fastLookup map (mintedBegin cfg idx) numMinted (insSlots slots)
  if 0 < cfg.numDeletes then
    let d := recordDeletes look slots idx.delPos
    let rids := slots.zipIdx.map (fastRecordId look (some d))
    let edel := slots.zipIdx.filter (isEffectiveDelete look d)
    let edelCrids := edel.map (fastRecordId look (some d))
    let edelKeys := edel.map fun x => x.1.key
    let map' := eraseAll kAbsent map edelKeys
    ({ idx with
        map := map'
        hasErased := idx.hasErased || edel.length ≠ 0
        freeStart := idx.freeStart + numMinted
        delPos := eraseAll kAbsent d edelCrids },
      { recordIds := rids
        ops := rids.zipWith paramOp (slots.map Slot.op)
        fieldIds := slots.map Slot.field
        mintedKeys := insKeys slots
        edelKeys := edelKeys
        edelCrids := edelCrids
        map := map' })
  else
    let rids := slots.zipIdx.map (fastRecordId look none)
    ({ idx with map := map, freeStart := idx.freeStart + numMinted },
      { recordIds := rids
        ops := rids.zipWith paramOp (slots.map Slot.op)
        fieldIds := slots.map Slot.field
        mintedKeys := insKeys slots
        edelKeys := []
        edelCrids := []
        map := map })

/-! ### General path -/

/-- `PosBits` of the YCSB timeline. -/
def posBits : ℕ := 32

/-- `resolveThroughTimeline`. -/
def generalEpoch (cfg : Config) (idx : Index) (slots : List Slot) :
    Except String (Index × EpochOut) := do
  let t := build posBits idx.map (mintedBegin cfg idx) idx.entryCrid (entriesOf slots)
  checkFreeRows cfg idx.freeStart t.numMinted
  let rids := slots.zipIdx.map fun x =>
    t.resolve x.1.key x.2 x.2 (x.1.op = .insert) (idx.map x.1.key)
  return ({ idx with
            map := t.finalize idx.map
            hasErased := idx.hasErased || t.eraseKeys.length ≠ 0
            freeStart := idx.freeStart + t.numMinted
            entryCrid := t.entryCrid },
    { recordIds := rids
      ops := rids.zipWith paramOp (slots.map Slot.op)
      fieldIds := slots.map Slot.field
      mintedKeys := t.mintedKeys
      edelKeys := t.edelKeys
      edelCrids := t.edelCrids
      map := t.finalize idx.map })

/-! ### `indexTxns` -/

/-- `indexTxns`: one epoch. -/
def indexTxns (cfg : Config) (idx : Index) (slots : List Slot) : Except String (Index × EpochOut) := do
  let keys := insKeys slots
  checkFreeRows cfg idx.freeStart keys.length
  if keys.length = 0 then return fastEpoch cfg idx idx.map slots
  else
    match insertFresh idx.map idx.hasErased keys (mintedBegin cfg idx) with
    | (true, map) => return fastEpoch cfg idx map slots
    | (false, map) =>
      let undone := eraseTentative map keys (mintedBegin cfg idx)
      generalEpoch cfg { idx with map := undone.1, hasErased := idx.hasErased || undone.2 ≠ 0 } slots

end Egad.Ycsb
