import Egad.Execution.WarpPrograms
import Egad.Execution.ScratchVersions

/-! # The micro benchmark (`benchmarks/micro.cu`, `micro_index.h`, `micro_submitter.h`, `micro_executor.h`)

    An epoch has `2 * num_txns` slots: the transactions of the epoch before that aborted, and the
    epoch's own. Two buffers take turns; a buffer keeps its transactions for one more epoch.

                  slots 0 … n-1          slots n … 2n-1
        epoch 1   (nothing aborted)      transactions of epoch 1       buffer 1
        epoch 2   aborted in epoch 1     transactions of epoch 2       buffer 0
        epoch 3   aborted in epoch 2     transactions of epoch 3       buffer 1

    A slot reads ten records and writes each back. One that does not abort changes the value by its
    slot number first; one that aborts writes what it has read, also when it is tried again. -/

namespace Egad.Micro
open Egad.Planner Egad.Execution

structure MicroConfig where
  numRecords : ℕ
  numTxns : ℕ
deriving DecidableEq, Repr

/-- The bits the planner's operations have for the slots and the records. -/
structure MicroConfig.Fits (cfg : MicroConfig) : Prop where
  numTxns : 2 * cfg.numTxns ≤ 2 ^ 20
  numRecords : cfg.numRecords ≤ kNoRecord

/-- The 25 words of a record. -/
abbrev MicroValue := Fin 25 → BitVec 32

structure MicroTxn where
  keys : Fin 10 → ℕ
  abort : Bool

structure MicroTxnParams where
  recordIds : Fin 10 → ℕ
  abort : Bool

/-- `EpochTxnData`; `initialization_input` and `execution_param_input` are linked to
    `index_output`. -/
structure EpochTxnData where
  indexInput : ℕ → MicroTxn
  indexOutput : ℕ → MicroTxnParams
  retry : ℕ → Bool

variable (cfg : MicroConfig)

/-! ### Index -/

/-- `MicroIndex::loadInitialData`: record `i` gets key `i`. -/
def loadInitialData : ℕ → Option ℕ :=
  (List.range cfg.numRecords).foldl (fun index i => Function.update index i (some i)) fun _ => none

/-- `indexMicroKernel` on one transaction; a key that is not found leaves the record id. -/
def indexTxn (txn : MicroTxn) (param : MicroTxnParams) : MicroTxnParams where
  recordIds i := (loadInitialData cfg (txn.keys i)).getD (param.recordIds i)
  abort := txn.abort

/-- `MicroIndex::indexTxns`. -/
def indexTxns (prev curr : EpochTxnData) : EpochTxnData × EpochTxnData :=
  ({ prev with indexOutput := fun tid =>
      if tid < cfg.numTxns ∧ prev.retry tid = true then
        indexTxn cfg (prev.indexInput tid) (prev.indexOutput tid)
      else prev.indexOutput tid },
    { curr with indexOutput := fun tid =>
      if tid < cfg.numTxns then indexTxn cfg (curr.indexInput tid) (curr.indexOutput tid)
      else curr.indexOutput tid })

/-! ### Submission -/

/-- The parameters a slot works on; a transaction of the epoch before that is not retried has
    none. -/
def slotParams (prev curr : EpochTxnData) (tid : ℕ) : Option MicroTxnParams :=
  if tid < cfg.numTxns then if prev.retry tid then some (prev.indexOutput tid) else none
  else some (curr.indexOutput (tid - cfg.numTxns))

def slots (prev curr : EpochTxnData) : List (Option MicroTxnParams) :=
  (List.range (2 * cfg.numTxns)).map (slotParams cfg prev curr)

/-- The word of `read_locs[i]` in a `MicroTxnExecPlan`. -/
def readLoc (i : Fin 10) : ℕ := i

/-- The word of `write_locs[i]`. -/
def writeLoc (i : Fin 10) : ℕ := 10 + i

def readOp (tid : ℕ) (p : MicroTxnParams) (i : Fin 10) : Op := ⟨p.recordIds i, tid, false, readLoc i⟩

def writeOp (tid : ℕ) (p : MicroTxnParams) (i : Fin 10) : Op := ⟨p.recordIds i, tid, true, writeLoc i⟩

/-- `submitMicroTxn`. -/
def submitMicroTxn (tid : ℕ) : Option MicroTxnParams → List Op
  | none => []
  | some p => (List.finRange 10).flatMap fun i => [readOp tid p i, writeOp tid p i]

/-- `MicroSubmitter::submit`. -/
def submit (slots : List (Option MicroTxnParams)) : List Op :=
  slots.zipIdx.flatMap fun x => submitMicroTxn x.2 x.1

/-! ### Execution -/

/-- A warp has a record in its lanes. -/
def microCoop : Coop Unit MicroValue MicroValue where
  load _ v _ := v
  store _ data := data

/-- The data operation of a slot. -/
def dataOp (tid : ℕ) (p : MicroTxnParams) (data : MicroValue) : MicroValue :=
  if p.abort then data else fun lane => data lane ^^^ BitVec.ofNat 32 tid

/-- `microExecKernel` in one slot; `junk` is `data` before the first read. -/
def microExecKernel (junk : MicroValue) (tid : ℕ) :
    Option MicroTxnParams → WarpProgram Unit MicroValue
  | none => ⟨junk, []⟩
  | some p => ⟨junk, (List.finRange 10).flatMap fun i =>
      [.access ((), readOp tid p i), .compute (dataOp tid p), .access ((), writeOp tid p i)]⟩

variable (junk : ℕ → MicroValue)

def microPrograms (slots : List (Option MicroTxnParams)) : List (WarpProgram Unit MicroValue) :=
  slots.zipIdx.map fun x => microExecKernel (junk x.2) x.2 x.1

/-- `MicroExecutor::execute`: 16 warps a block. -/
def microExecutor (slots : List (Option MicroTxnParams)) (plan : ExecPlan) (epoch : ℕ) :
    Executor Unit where
  submitted _ := submit slots
  pieces := programPieces (microPrograms junk slots)
  loc _ := locOf (submit slots) plan
  epoch := epoch
  numWarps := 16

/-! ### Epochs -/

structure MicroBenchmark where
  epochTxnData : ℕ → EpochTxnData
  memory : Memory MicroValue
  plan : ExecPlan

/-- The benchmark as constructed: every device array is zeroed. -/
def MicroBenchmark.init : MicroBenchmark where
  epochTxnData _ := ⟨fun _ => ⟨fun _ => 0, false⟩, fun _ => ⟨fun _ => 0, false⟩, fun _ => false⟩
  memory := ⟨fun _ => 0, fun _ _ => 0⟩
  plan _ := 0

/-- The transfer and indexing of an epoch: the buffers of the epoch before and of this one. -/
def MicroBenchmark.prepare (b : MicroBenchmark) (txns : ℕ → MicroTxn) (epochId : ℕ) :
    EpochTxnData × EpochTxnData :=
  indexTxns cfg (b.epochTxnData ((epochId + 1) % 2))
    { b.epochTxnData (epochId % 2) with indexInput := txns }

/-- The state an epoch leaves: a slot of this epoch sets its flag at the end. -/
def MicroBenchmark.finish (b : MicroBenchmark) (ready : EpochTxnData × EpochTxnData) (epochId : ℕ)
    (s : Sys Unit MicroValue) : MicroBenchmark where
  epochTxnData := Function.update (Function.update b.epochTxnData ((epochId + 1) % 2) ready.1)
    (epochId % 2) { ready.2 with retry := fun tid =>
      if tid < cfg.numTxns then (ready.2.indexOutput tid).abort else ready.2.retry tid }
  memory := (s.table ()).mem
  plan := planOf (submit (slots cfg ready.1 ready.2)) b.plan

/-- One iteration of `runBenchmark` under a schedule of the warps; none when a warp has not
    returned. -/
def MicroBenchmark.runEpoch (txns : ℕ → MicroTxn) (epochId : ℕ) (schedule : List WarpEvent)
    (b : MicroBenchmark) : Option MicroBenchmark :=
  let ready := b.prepare cfg txns epochId
  let xs := slots cfg ready.1 ready.2
  let X := microExecutor junk xs b.plan epochId
  (warpRun microCoop X (microPrograms junk xs) (.start fun _ => b.memory) schedule).bind fun s =>
    if returned X s then some (b.finish cfg ready epochId s) else none

/-- The first `epochs` epochs of `runBenchmark`: the transactions generated for an epoch and the
    schedule of its warps. -/
def runBenchmark (txnArray : ℕ → ℕ → MicroTxn) (schedule : ℕ → List WarpEvent) :
    ℕ → Option MicroBenchmark
  | 0 => some .init
  | e + 1 => (runBenchmark txnArray schedule e).bind
      (MicroBenchmark.runEpoch cfg junk (txnArray e) (e + 1) (schedule (e + 1)))

end Egad.Micro
