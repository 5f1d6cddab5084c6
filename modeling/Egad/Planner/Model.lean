import Egad.Lib.StableSort
import Egad.Lib.Scan
import Egad.Timeline.InsertFresh

/-! # The execution planner (`execution_planner.h`, `gpu_execution_planner.cu`)

    A submitted operation is one 64-bit word:

        | record id : 32 | txn id : 20 | r/w : 1 | offset : 11 |

    The planner sorts the words by their record bits alone, counts for every operation the writes of
    the same record before and after it, and from the two counts chooses where the operation goes:
    record A (the value the epoch starts with), record B (the value the epoch leaves) or a scratch
    version. The location is scattered into word `offset` of the transaction's plan. -/

namespace Egad.Planner
open Egad.Lib

def locRecordA : ℕ := 2 ^ 32 - 1
def locRecordB : ℕ := 2 ^ 32 - 2

/-- `CREATE_OP`. -/
def createOp (recordId txnId rw offset : ℕ) : ℕ :=
  recordId <<< 32 ||| txnId <<< 12 ||| rw <<< 11 ||| offset <<< 0

/-- `GET_RECORD_ID`. -/
def getRecordId (op : ℕ) : ℕ := (op &&& 0xFFFFFFFF00000000) >>> 32

/-- `GET_TXN_ID`. -/
def getTxnId (op : ℕ) : ℕ := (op &&& 0x00000000FFFFF000) >>> 12

/-- `GET_R_W`. -/
def getRW (op : ℕ) : ℕ := (op &&& 0x0000000000000800) >>> 11

/-- `GET_OFFSET`. -/
def getOffset (op : ℕ) : ℕ := (op &&& 0x00000000000007FF) >>> 0

/-- `WriteExtractor`. -/
def writeExtractor (op : ℕ) : ℕ := if getRW op = 1 then 1 else 0

inductive OperationT where
  | versionRead
  | versionWrite
  | recordARead
  | recordBRead
  | recordAWrite
  | recordBWrite
deriving DecidableEq, Repr

/-- `VersionWriteExtractor`. -/
def versionWriteExtractor (ty : OperationT) : ℕ := if ty = .versionWrite then 1 else 0

/-- One thread of `calcOperationType`. -/
def calcOperationType (op wBefore wAfter : ℕ) : OperationT :=
  if getRW op = 1 then
    if wAfter = 0 then .recordBWrite else .versionWrite
  else if wBefore = 0 then .recordARead
  else if wAfter = 0 then .recordBRead
  else .versionRead

/-- The location switch of `scatterRWLocation`. -/
def rwLocation (ty : OperationT) (verWritesBefore : ℕ) : ℕ :=
  match ty with
  | .recordARead | .recordAWrite => locRecordA
  | .recordBRead | .recordBWrite => locRecordB
  | .versionRead => Timeline.sub32 verWritesBefore 1
  | .versionWrite => verWritesBefore

/-- The plan words: `getTxn(txn)->data[offset]`. -/
abbrev ExecPlan := ℕ × ℕ → ℕ

/-- One thread of `scatterRWLocation`. -/
def scatterRWLocation (plan : ExecPlan) (x : ℕ × OperationT × ℕ) : ExecPlan :=
  Function.update plan (getTxnId x.1, getOffset x.1) (rwLocation x.2.1 x.2.2)

/-- `d_sorted_ops`: a stable radix sort on bits 32 to 64. -/
def sortedOps (ops : List ℕ) : List ℕ := stableSort getRecordId ops

/-- `d_write_ops_before`. -/
def writeOpsBefore (ops : List ℕ) : List ℕ := exclusiveSumByKey getRecordId writeExtractor ops

/-- `d_write_ops_after`: the same scan through reverse iterators. -/
def writeOpsAfter (ops : List ℕ) : List ℕ :=
  (exclusiveSumByKey getRecordId writeExtractor ops.reverse).reverse

/-- `d_rw_ops_type`. -/
def rwOpsType (ops : List ℕ) : List OperationT :=
  List.zipWith (fun op w => calcOperationType op w.1 w.2) ops
    ((writeOpsBefore ops).zip (writeOpsAfter ops))

/-- `d_tver_write_ops_before`. -/
def tverWriteOpsBefore (types : List OperationT) : List ℕ :=
  exclusiveSum (types.map versionWriteExtractor)

/-- `InitializeExecutionPlan`. -/
def initializeExecutionPlan (submitted : List ℕ) (plan : ExecPlan) : ExecPlan :=
  if submitted.length = 0 then plan
  else
    let sorted := sortedOps submitted
    let types := rwOpsType sorted
    (sorted.zip (types.zip (tverWriteOpsBefore types))).foldl scatterRWLocation plan

/-- An operation as the submitters produce it. -/
structure Op where
  record : ℕ
  txn : ℕ
  isWrite : Bool
  offset : ℕ
deriving DecidableEq, Repr

/-- The submitted word of an operation. -/
def Op.encode (o : Op) : ℕ := createOp o.record o.txn (if o.isWrite then 1 else 0) o.offset

/-- The key that `deriveStagerKeys` reads back off the word of an operation. -/
def keyOf (o : Op) : ℕ := getRecordId o.encode

/-- A submitted batch: every field fits its bits, the operations stand in transaction order (each
    transaction's block starts at the prefix sum of the blocks before it), and every operation has a
    plan word of its own. -/
structure Batch (ops : List Op) : Prop where
  record_lt : ∀ o ∈ ops, o.record < 2 ^ 32
  txn_lt : ∀ o ∈ ops, o.txn < 2 ^ 20
  offset_lt : ∀ o ∈ ops, o.offset < 2 ^ 11
  ordered : ops.Pairwise fun o p => o.txn ≤ p.txn
  words : ops.Pairwise fun o p => (o.txn, o.offset) ≠ (p.txn, p.offset)

/-- The plan of a batch. -/
def planOf (ops : List Op) (plan : ExecPlan) : ExecPlan :=
  initializeExecutionPlan (ops.map Op.encode) plan

/-- The location the executor finds for operation `o`. -/
def locOf (ops : List Op) (plan : ExecPlan) (o : Op) : ℕ := planOf ops plan (o.txn, o.offset)

end Egad.Planner
