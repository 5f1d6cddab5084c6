import Egad.Timeline.Serial
import Egad.Lib.AbsentMap

/-! # The epoch timeline (`benchmarks/epoch_timeline.cuh`)

    Inserts and deletes of one epoch, resolved in serial order. `build` follows
    `EpochTimeline::build`: compact the entries that carry a key, look up their epoch-start records,
    sort by (key, position), flag the life-creating inserts and the effective deletes (`k_walk`),
    mint CRIDs in entry order (`k_scatter_minted`), then walk again for the ended CRIDs and the index
    updates (`k_assign`). `Built.resolve` is `TimelineView::resolve`.

        entries ─▶ events ─▶ sorted ─▶ runs (one per key)
                                        │ walk        life / edel flags
                                        │ assignWalk  ended CRIDs, final life
        resolve: binary search for the key's first event, then walk up to (pos, self_entry)

    A key array's `kNoKey` is `none`. A CRID is a number, `kAbsent` the absent one. -/

namespace Egad.Timeline
open Egad.Lib

/-- One input entry: `insKeys()[e]`, `delKeys()[e]` and `pos()[e]`. -/
structure Entry where
  insKey : Option ℕ
  delKey : Option ℕ
  pos : ℕ
  deriving DecidableEq, Repr

/-- One sorted event (`d_sorted_`, `d_s_entry_`, `d_s_type_`, `d_s_c0_`). -/
structure SEvent where
  packed : ℕ
  entry : ℕ
  type : EvType
  c0 : ℕ
  deriving DecidableEq, Repr

/-! ### Packing a key with a position -/

/-- `packEvent<PosBits>`: 64-bit `(key << PosBits) | pos`. -/
def packEvent (posBits key pos : ℕ) : ℕ := (key <<< posBits) % 2 ^ 64 ||| pos

/-- `eventKey<PosBits>`. -/
def eventKey (posBits packed : ℕ) : ℕ := packed >>> posBits

/-- `eventPos<PosBits>`. -/
def eventPos (posBits packed : ℕ) : ℕ := packed &&& (2 ^ posBits - 1)

/-- The key of a sorted event. -/
abbrev SEvent.key (posBits : ℕ) (s : SEvent) : ℕ := eventKey posBits s.packed

/-! ### `EpochTimeline::build` -/

/-- `EntryIsEvent` with `k_gather_events`: an entry with an insert key is an insert even if it
    carries a delete key as well. -/
def gatherEvent (x : Entry) (e : ℕ) : Option Event :=
  match x.insKey, x.delKey with
  | some k, _ => some ⟨e, k, .insert, x.pos⟩
  | none, some k => some ⟨e, k, .delete, x.pos⟩
  | none, none => none

/-- The epoch's events in entry order. -/
def events (entries : List Entry) : List Event :=
  entries.zipIdx.filterMap fun x => gatherEvent x.1 x.2

/-- `k_pack_events`, with the epoch-start record the lookup wrote for the event's key. -/
def pack (posBits : ℕ) (lookup : ℕ → ℕ) (v : Event) : SEvent :=
  ⟨packEvent posBits v.key v.pos, v.entry, v.type, lookup v.key⟩

/-- `SortPairs` on the packed keys and `k_permute_events`. -/
def sortEvents (posBits : ℕ) (lookup : ℕ → ℕ) (evs : List Event) : List SEvent :=
  stableSort SEvent.packed (evs.map (pack posBits lookup))

/-- `k_walk` over one key's timeline: the entries of its life-creating inserts and of its effective
    deletes. -/
def walk (live : Bool) : List SEvent → List ℕ × List ℕ
  | [] => ([], [])
  | s :: ss =>
    match s.type with
    | .delete =>
      if live then ((walk false ss).1, s.entry :: (walk false ss).2) else walk live ss
    | .insert =>
      if live then walk live ss else (s.entry :: (walk true ss).1, (walk true ss).2)

/-- The epoch-start record the thread of a key's first event reads. -/
def startOf (run : List SEvent) : ℕ := (run.head?.map SEvent.c0).getD kAbsent

/-- Both flag arrays after `k_walk`, as the entries flagged. -/
def walkFlags (posBits : ℕ) (sorted : List SEvent) : List ℕ × List ℕ :=
  let walks := (runs (SEvent.key posBits) sorted).map fun r => walk (startOf r ≠ kAbsent) r
  (walks.flatMap Prod.fst, walks.flatMap Prod.snd)

/-- `k_scatter_minted`: `entry_crid[ins_entry[j]] = crid_begin + j`. -/
def scatterMinted (cridBegin : ℕ) (insEntry : List ℕ) (entryCrid : ℕ → ℕ) : ℕ → ℕ :=
  insEntry.zipIdx.foldl (fun f x => Function.update f x.1 (cridBegin + x.2)) entryCrid

/-- `k_assign` over one key's timeline: store the CRID each effective delete ends at the delete's
    entry; the second component is the key's final life. -/
def assignWalk : (ℕ → ℕ) → ℕ → List SEvent → (ℕ → ℕ) × ℕ
  | f, state, [] => (f, state)
  | f, state, s :: ss =>
    match s.type with
    | .delete =>
      if state ≠ kAbsent then assignWalk (Function.update f s.entry state) kAbsent ss
      else assignWalk f state ss
    | .insert =>
      if state = kAbsent then assignWalk f (f s.entry) ss else assignWalk f state ss

/-- `fin_key`, `fin_crid` and the two flags, written at a key's first event. -/
structure Fin where
  key : ℕ
  crid : ℕ
  erase : Bool
  insert : Bool
  deriving DecidableEq, Repr

/-- One thread of `k_assign` that does not return early. -/
def assignRun (posBits : ℕ) (acc : (ℕ → ℕ) × List Fin) (r : List SEvent) : (ℕ → ℕ) × List Fin :=
  let start := startOf r
  let out := assignWalk acc.1 start r
  (out.1, acc.2 ++ [{ key := (r.head?.map (SEvent.key posBits)).getD 0, crid := out.2,
                      erase := start ≠ kAbsent ∧ out.2 ≠ start,
                      insert := out.2 ≠ kAbsent ∧ out.2 ≠ start }])

/-- What `build` leaves on the device. -/
structure Built where
  posBits : ℕ
  sorted : List SEvent
  entryCrid : ℕ → ℕ
  insEntries : List ℕ
  mintedKeys : List ℕ
  edelKeys : List ℕ
  edelCrids : List ℕ
  eraseKeys : List ℕ
  insertKeys : List ℕ
  insertCrids : List ℕ

/-- `EpochTimeline::build`. `old` is what `d_entry_crid_` held before (the buffer is reused and
    never cleared). -/
def build (posBits : ℕ) (lookup : ℕ → ℕ) (cridBegin : ℕ) (old : ℕ → ℕ) (entries : List Entry) :
    Built :=
  let evs := events entries
  let sorted := sortEvents posBits lookup evs
  let flags := walkFlags posBits sorted
  let life := evs.filter fun v => v.entry ∈ flags.1
  let edel := evs.filter fun v => v.entry ∈ flags.2
  let minted := scatterMinted cridBegin (life.map Event.entry) old
  let fin := (runs (SEvent.key posBits) sorted).foldl (assignRun posBits) (minted, [])
  { posBits := posBits
    sorted := sorted
    entryCrid := fin.1
    insEntries := life.map Event.entry
    mintedKeys := life.map Event.key
    edelKeys := edel.map Event.key
    edelCrids := edel.map fun v => fin.1 v.entry
    eraseKeys := (fin.2.filter Fin.erase).map Fin.key
    insertKeys := (fin.2.filter Fin.insert).map Fin.key
    insertCrids := (fin.2.filter Fin.insert).map Fin.crid }

/-- `numMinted()`. -/
def Built.numMinted (t : Built) : ℕ := t.insEntries.length

/-! ### `TimelineView::resolve` -/

/-- The binary search: the first index in `[lo, hi)` whose packed value is not below `probe`. -/
def lowerBound (packed : List ℕ) (probe lo hi : ℕ) : ℕ :=
  if lo < hi then
    let mid := lo + ((hi - lo) >>> 1)
    if packed.getD mid 0 < probe then lowerBound packed probe (mid + 1) hi
    else lowerBound packed probe lo mid
  else lo
termination_by hi - lo
decreasing_by
  · rw [Nat.shiftRight_eq_div_pow]; omega
  · rw [Nat.shiftRight_eq_div_pow]; omega

/-- The walk over the key's events ordered before `(pos, self)`. -/
def resolveWalk (posBits : ℕ) (entryCrid : ℕ → ℕ) (key pos self : ℕ) : ℕ → List SEvent → ℕ
  | state, [] => state
  | state, s :: ss =>
    if s.key posBits ≠ key then state
    else if pos < eventPos posBits s.packed ∨ (eventPos posBits s.packed = pos ∧ self ≤ s.entry) then
      state
    else
      resolveWalk posBits entryCrid key pos self
        (match s.type with
          | .delete => kAbsent
          | .insert => if state = kAbsent then entryCrid s.entry else state) ss

/-- `TimelineView::resolve`. -/
def Built.resolve (t : Built) (key pos self : ℕ) (isInsert : Bool) (fallback : ℕ) : ℕ :=
  if t.sorted.length = 0 then fallback
  else
    let lo := lowerBound (t.sorted.map SEvent.packed) (packEvent t.posBits key 0) 0 t.sorted.length
    match t.sorted.drop lo with
    | [] => fallback
    | s :: ss =>
      if s.key t.posBits ≠ key then fallback
      else
        let state := resolveWalk t.posBits t.entryCrid key pos self s.c0 (s :: ss)
        if isInsert ∧ state = kAbsent then t.entryCrid self else state

/-! ### The index update at the epoch boundary -/

/-- `finalizeCuco`: erase the keys that end absent or replaced, then insert the final lives minted
    this epoch. -/
def Built.finalize (t : Built) (m : ℕ → ℕ) : ℕ → ℕ :=
  insertAll kAbsent (eraseAll kAbsent m t.eraseKeys) (t.insertKeys.zip t.insertCrids)

end Egad.Timeline
