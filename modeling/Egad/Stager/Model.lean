import Egad.Lib.Claim
import Mathlib.Data.List.Destutter
import Mathlib.Data.List.Sort

/-! # The GPU record cache (`ycsb_hybrid_stager.cu`, `tpcc_hybrid_stager.cu`, `crid_grid_index.cu`)

    The primary store on the CPU holds every record under its CRID; the GPU holds `capacity` of them,
    each in a slot called a GRID. Two flat arrays map one to the other, and the GRIDs that have never
    held a record wait in a ring:

        cridToGrid : CRID ──► GRID          resident : GRID ──► CRID
        ring       : buffer[head % cap], …, buffer[(tail - 1) % cap]

    `prepareEpoch` brings in every record the epoch needs. It takes GRIDs from the ring, and when the
    ring does not hold enough it evicts residents the epoch does not need: first those flagged as
    dead, then in FIFO order. Both collecting kernels are passes of many threads that claim output
    positions through one counter. -/

namespace Egad.Stager
open Egad.Lib

/-- The 32-bit word that stands for no record and for no slot. -/
def absent : ℕ := 2 ^ 32 - 1

/-- What a stager is built with. The two stagers differ in little: the TPC-C stager drops `absent`
    from the needed records it misses (the YCSB submitter emits no such record), and it also clears
    the reclaim flags of the slots of the second pop. The capacity is what the device memory holds,
    far fewer slots than half of what 32 bits can count. -/
structure Config where
  capacity : ℕ
  numUnits : ℕ
  tpcc : Bool
  reclaimActive : Bool
  capacity_le : capacity ≤ 2 ^ 31
  numUnits_le : numUnits ≤ absent

theorem Config.capacity_lt_absent (cfg : Config) : cfg.capacity < absent :=
  Nat.lt_of_le_of_lt cfg.capacity_le (by decide)

structure Cache where
  cridToGrid : ℕ → ℕ
  resident : ℕ → ℕ
  ringBuffer : ℕ → ℕ
  ringHead : ℕ
  ringTail : ℕ
  reclaimFlag : ℕ → Bool
  fifoNextGrid : ℕ

variable (cfg : Config)

/-- The constructor: no record resident, every GRID in the ring. -/
def Cache.initial : Cache where
  cridToGrid := fun _ => absent
  resident := fun _ => absent
  ringBuffer := fun i => i
  ringHead := 0
  ringTail := cfg.capacity
  reclaimFlag := fun _ => false
  fifoNextGrid := 0

/-! ### The kernels of the index and of the ring -/

/-- `k_flat_insert`. -/
def bulkInsert (crids grids : List ℕ) (m : ℕ → ℕ) : ℕ → ℕ :=
  (crids.zip grids).foldl (fun m x =>
    if x.1 ≠ absent ∧ x.1 < cfg.numUnits then Function.update m x.1 x.2 else m) m

/-- The lookup of `k_flat_lookup_and_mark_needed`. -/
def lookup (m : ℕ → ℕ) (crid : ℕ) : ℕ := if crid < cfg.numUnits then m crid else absent

/-- The marks of `k_flat_lookup_and_mark_needed`, on flags that start cleared. -/
def markNeeded (m : ℕ → ℕ) (needed : List ℕ) : ℕ → Bool :=
  needed.foldl (fun f crid =>
    if lookup cfg m crid ≠ absent ∧ lookup cfg m crid < cfg.capacity
    then Function.update f (lookup cfg m crid) true else f) fun _ => false

/-- One thread of `k_flat_rename_crids`. -/
def renameOne (m : ℕ → ℕ) (x : (ℕ × ℕ) × ℕ) : ℕ → ℕ :=
  let m := if x.1.2 ≠ absent ∧ x.1.2 < cfg.numUnits then Function.update m x.1.2 absent else m
  if x.2 ≠ absent ∧ x.2 < cfg.numUnits then Function.update m x.2 x.1.1 else m

/-- `bulk_update_crid`: the victims, as pairs of GRID and old CRID, and the CRIDs that replace
    them. -/
def bulkUpdateCrid (victims : List (ℕ × ℕ)) (news : List ℕ) (m : ℕ → ℕ) : ℕ → ℕ :=
  (victims.zip news).foldl (renameOne cfg) m

/-- `k_set_grid2crid`. -/
def setGridToCrid (grids crids : List ℕ) (resident : ℕ → ℕ) : ℕ → ℕ :=
  (grids.zip crids).foldl (fun r x => Function.update r x.1 x.2) resident

/-- `k_clear_reclaim_by_grids`. -/
def clearReclaimByGrids (grids : List ℕ) (flag : ℕ → Bool) : ℕ → Bool :=
  grids.foldl (fun f g => if g ≠ absent ∧ g < cfg.capacity then Function.update f g false else f) flag

/-- `k_mark_reclaim_by_crids`. -/
def markReclaimByCrids (crids : List ℕ) (m : ℕ → ℕ) (flag : ℕ → Bool) : ℕ → Bool :=
  crids.foldl (fun f crid =>
    if crid = absent ∨ cfg.numUnits ≤ crid then f
    else if m crid ≠ absent ∧ m crid < cfg.capacity then Function.update f (m crid) true
    else f) flag

/-- `tail - head`. -/
def Cache.freeSlots (c : Cache) : ℕ := c.ringTail - c.ringHead

/-- The GRIDs still in the ring, in the order they will be popped. -/
def Cache.ring (c : Cache) : List ℕ :=
  (List.range c.freeSlots).map fun i => c.ringBuffer ((c.ringHead + i) % cfg.capacity)

/-- The count `k_ring_pop_reserve` grants. -/
def Cache.granted (c : Cache) (n : ℕ) : ℕ := if c.freeSlots < n then c.freeSlots else n

/-- `launch_ring_pop_parallel`: the reservation moves the head by `n` and gives back what is not
    there, the copy reads from the old head. -/
def ringPop (n : ℕ) (c : Cache) : List ℕ × Cache :=
  ((List.range (c.granted n)).map fun i => c.ringBuffer ((c.ringHead + i) % cfg.capacity),
    { c with ringHead := c.ringHead + n - (n - c.granted n) })

/-! ### Collecting victims -/

/-- The threads of a launch: 256 blocks of 256. -/
def stride : ℕ := 256 * 256

/-- The iterations of `for (g = tid; g < cap; g += stride)` from `g` on. -/
def strided (cap g : ℕ) : List ℕ :=
  if g < cap then g :: strided cap (g + stride) else []
termination_by cap - g
decreasing_by simp only [stride]; omega

/-- The items of thread `tid` of a launch. -/
def items (cap tid : ℕ) : List ℕ := if tid < stride then strided cap tid else []

/-- `k_collect_evictions_reclaim_first`: it scans GRIDs, and its memory is the needed flags. -/
def reclaimPass (resident : ℕ → ℕ) (reclaimFlag : ℕ → Bool) : Claim.Pass ℕ (ℕ → Bool) (ℕ × ℕ) where
  cand needed g := resident g != absent && !needed g && reclaimFlag g
  emit _ g := (g, resident g)
  mark needed g := Function.update needed g true

/-- The GRID at offset `i` of the FIFO scan, in 32-bit arithmetic. -/
def fifoGrid (cap start i : ℕ) : ℕ :=
  let g := (start + i) % 2 ^ 32
  if cap ≤ g then g - cap else g

/-- `k_fifo_collect_evictions`: it scans offsets, and its memory is the largest offset written. -/
def fifoPass (cap start : ℕ) (resident : ℕ → ℕ) (needed : ℕ → Bool) :
    Claim.Pass ℕ ℕ (ℕ × ℕ) where
  cand _ i := resident (fifoGrid cap start i) != absent && !needed (fifoGrid cap start i)
  emit _ i := (fifoGrid cap start i, resident (fifoGrid cap start i))
  mark maxOffset i := max maxOffset i

abbrev ReclaimState := Claim.State ℕ (ℕ → Bool) (ℕ × ℕ)
abbrev FifoState := Claim.State ℕ ℕ (ℕ × ℕ)

/-- The reclaim-first kernel as it is launched. -/
def reclaimStart (needed : ℕ → Bool) : ReclaimState :=
  Claim.start stride (items cfg.capacity) 0 (fun _ => none) needed

/-- The reclaim-first kernel under a schedule. -/
def runReclaim (c : Cache) (needed : ℕ → Bool) (deficit : ℕ) (sched : List ℕ) :
    Option ReclaimState :=
  Claim.run (reclaimPass c.resident c.reclaimFlag) deficit sched (reclaimStart cfg needed)

/-- The reclaim-first kernel, which a stager without reclaim flags does not launch. -/
def afterReclaim (c : Cache) (needed : ℕ → Bool) (deficit : ℕ) (sched : List ℕ) :
    Option ReclaimState :=
  if cfg.reclaimActive then runReclaim cfg c needed deficit sched else some (reclaimStart cfg needed)

/-- The FIFO kernel as it is launched, on the counter and the output the reclaim-first kernel
    leaves. -/
def fifoStart (s : ReclaimState) : FifoState :=
  Claim.start stride (items cfg.capacity) s.count s.out 0

def runFifo (c : Cache) (s : ReclaimState) (deficit : ℕ) (sched : List ℕ) : Option FifoState :=
  Claim.run (fifoPass cfg.capacity c.fifoNextGrid c.resident s.mem) deficit sched (fifoStart cfg s)

/-- The cursor after a FIFO pass. -/
def advanceCursor (c : Cache) (s : FifoState) : ℕ :=
  (c.fifoNextGrid + (s.mem + 1)) % 2 ^ 32 % cfg.capacity

/-- The first `deficit` entries of the victim list, if all of them are filled. -/
def victims (deficit : ℕ) (out : ℕ → Option (ℕ × ℕ)) : Option (List (ℕ × ℕ)) :=
  (List.range deficit).mapM out

/-! ### Preparing an epoch -/

/-- `buildNeededOnDevice`: sort, then keep the first of equal neighbours. -/
def buildNeeded (keys : List ℕ) : List ℕ :=
  (keys.insertionSort (· ≤ ·)).destutter (· ≠ ·)

/-- The needed records whose lookup misses, in the order of `d_needed_`. -/
def missed (c : Cache) (needed : List ℕ) : List ℕ :=
  needed.filter fun crid =>
    lookup cfg c.cridToGrid crid = absent ∧ (cfg.tpcc = true → crid ≠ absent)

/-- `k_set_insert_bitmap` and `k_lookup_insert_flag_for_new`. -/
def isInsert (insertKeys : List ℕ) (crid : ℕ) : Bool :=
  insertKeys.any fun k => k != absent && decide (k < cfg.numUnits) && k == crid

/-- How the threads of an epoch's kernels are interleaved: the order in which the threads of
    `k_copy_if_stencil_eq` place the missed records, and the schedules of the two collecting
    kernels. -/
structure Schedule where
  order : List ℕ
  reclaim : List ℕ
  fifo : List ℕ

inductive Failure where
  | neededExceedsCapacity
  | emptyLaunch
  | grantedMismatch
  | notEnoughEvictable
  | badSchedule
deriving DecidableEq

/-- What `prepareEpoch` leaves: the cache, the pairs of CRID and GRID it copies from the primary
    store and the GRIDs of inserted records, whose tags it clears instead. -/
structure Prepared where
  cache : Cache
  fetched : List (ℕ × ℕ)
  cleared : List ℕ

/-- The pairs admitted without being fetched, and those fetched. -/
def Prepared.of (cache : Cache) (insertKeys : List ℕ) (pairs : List (ℕ × ℕ)) : Prepared where
  cache := cache
  fetched := pairs.filter fun x => !isInsert cfg insertKeys x.1
  cleared := (pairs.filter fun x => isInsert cfg insertKeys x.1).map Prod.snd

/-- The branch with enough free slots. -/
def admitFree (new : List ℕ) (insertKeys : List ℕ) (c : Cache) : Except Failure Prepared :=
  let grids := (ringPop cfg new.length c).1
  if grids.length ≠ new.length then .error .grantedMismatch
  else
    .ok (.of cfg
      { (ringPop cfg new.length c).2 with
        cridToGrid := bulkInsert cfg new grids c.cridToGrid
        resident := setGridToCrid grids new c.resident }
      insertKeys (new.zip grids))

/-- The victims of an epoch with their cursor: the reclaim-first kernel if it is active, then the
    FIFO kernel. -/
def collect (sched : Schedule) (needed : ℕ → Bool) (deficit : ℕ) (c : Cache) :
    Except Failure (List (ℕ × ℕ) × ℕ) :=
  match afterReclaim cfg c needed deficit sched.reclaim with
  | none => .error .badSchedule
  | some s₁ =>
    match runFifo cfg c s₁ deficit sched.fifo with
    | none => .error .badSchedule
    | some s₂ =>
      if s₂.count < deficit then .error .notEnoughEvictable
      else
        match victims deficit s₂.out with
        | none => .error .badSchedule
        | some vs => .ok (vs, advanceCursor cfg c s₂)

/-- Rename the victims' slots to the first new records. -/
def rename (vs : List (ℕ × ℕ)) (new : List ℕ) (c : Cache) : Cache :=
  { c with
    cridToGrid := bulkUpdateCrid cfg vs new c.cridToGrid
    resident := setGridToCrid (vs.map Prod.fst) new c.resident
    reclaimFlag := if cfg.reclaimActive then clearReclaimByGrids cfg (vs.map Prod.fst) c.reclaimFlag
      else c.reclaimFlag }

/-- The second pop: what the ring still holds goes to the remaining new records. A short grant is
    only logged. -/
def admitRest (new : List ℕ) (c : Cache) : List ℕ × Cache :=
  let grids := (ringPop cfg new.length c).1
  (grids, { (ringPop cfg new.length c).2 with
    cridToGrid := bulkInsert cfg (new.take grids.length) grids c.cridToGrid
    resident := setGridToCrid grids (new.take grids.length) c.resident
    reclaimFlag := if cfg.reclaimActive && cfg.tpcc then
        clearReclaimByGrids cfg grids c.reclaimFlag
      else c.reclaimFlag })

/-- The branch that evicts. -/
def evict (sched : Schedule) (needed : ℕ → Bool) (new : List ℕ) (insertKeys : List ℕ) (c : Cache) :
    Except Failure Prepared :=
  let deficit := new.length - c.freeSlots
  match collect cfg sched needed deficit c with
  | .error e => .error e
  | .ok (vs, cursor) =>
    let c := rename cfg vs (new.take deficit) { c with fifoNextGrid := cursor }
    if new.length - deficit = 0 then
      .ok (.of cfg c insertKeys ((new.take deficit).zip (vs.map Prod.fst)))
    else
      let rest := admitRest cfg (new.drop deficit) c
      .ok (.of cfg rest.2 insertKeys
        ((new.take deficit).zip (vs.map Prod.fst) ++ (new.drop deficit).zip rest.1))

/-- `prepareEpoch`. The YCSB stager launches the selection of missed records without testing that
    there are any needed ones, and a launch of no blocks is an error of the device. -/
def prepareEpoch (sched : Schedule) (keys insertKeys : List ℕ) (c : Cache) :
    Except Failure Prepared :=
  let needed := buildNeeded keys
  if cfg.capacity < needed.length then .error .neededExceedsCapacity
  else if needed.length = 0 ∧ cfg.tpcc = false then .error .emptyLaunch
  else
    let flags := markNeeded cfg c.cridToGrid needed
    let new := sched.order
    if new.length = 0 then .ok (.of cfg c insertKeys [])
    else if new.length ≤ c.freeSlots then admitFree cfg new insertKeys c
    else evict cfg sched flags new insertKeys c

/-- `mark_reclaimable`. -/
def markReclaimable (crids : List ℕ) (c : Cache) : Cache :=
  if cfg.reclaimActive then
    { c with reclaimFlag := markReclaimByCrids cfg crids c.cridToGrid c.reclaimFlag }
  else c

/-- The CRIDs of the undelivered orders the loader leaves, 900 orders of 15 lines a district. -/
def undeliveredOrderLines (numWarehouses : ℕ) : List ℕ :=
  (List.range numWarehouses).flatMap fun w => (List.range 10).flatMap fun d =>
    (List.range 13500).map fun i => (w * 10 + d) * 45000 + 2100 * 15 + i

/-- `prewarm_initial_undelivered_orderline`. -/
def prewarm (numWarehouses : ℕ) (c : Cache) : Cache :=
  if cfg.capacity ≤ numWarehouses * 10 * 13500 then c
  else
    let crids := undeliveredOrderLines numWarehouses
    let grids := (ringPop cfg crids.length c).1
    if grids.length ≠ crids.length then (ringPop cfg crids.length c).2
    else { (ringPop cfg crids.length c).2 with
      cridToGrid := bulkInsert cfg crids grids c.cridToGrid
      resident := setGridToCrid grids crids c.resident }

end Egad.Stager
