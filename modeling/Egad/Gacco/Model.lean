import Egad.Lib.QueueLock
import Egad.Lib.Scan
import Egad.Lib.StableSort
import Egad.Lib.Journal
import Egad.Tpcc.Pieces
import Mathlib.Data.List.SplitBy

/-! # Gacco: locks handed out in transaction order (`gacco/`)

    The baseline executor runs NewOrder and Payment under one lock for each record. The submitter
    lists, table by table, the records whose locks a transaction will take; the planner sorts the list
    by record and turns it into queues; the executor spins until a record's lock word is its own
    transaction id, and passes the lock on along the queue.

        submitted    (7,0) (3,0) (7,1) (3,2) (7,2)          record, transaction
        access         0  2  |  0  1  2
        offset[3] = 0          offset[7] = 2
        lock[3] = 0            lock[7] = 0

    Two options let the executor go without locks: `gacco_use_atomic` for all tables but stock, and
    `gacco_tpcc_stock_use_atomic` for stock. -/

namespace Egad.Gacco
open Egad.Lib
open Egad.Tpcc (TableName ItemParam)

structure Config where
  /-- `gacco_use_atomic`. -/
  useAtomic : Bool
  /-- `gacco_tpcc_stock_use_atomic`. -/
  stockUseAtomic : Bool

/-- The transactions that run on the GPU, with the record ids of their parameters. -/
inductive TxnParams where
  | newOrder (warehouseId districtId customerId newOrderId orderId : ℕ) (items : List ItemParam)
  | payment (warehouseId districtId customerId : ℕ)

/-! ### Submission (`tpcc_gpu_submitter.cu`) -/

/-- `GACCO_CREATE_OP`. -/
def createOp (recordId txnId : ℕ) : ℕ := recordId <<< 32 ||| txnId <<< 0

/-- `GACCO_GET_RECORD_ID`. -/
def getRecordId (op : ℕ) : ℕ := (op &&& 0xFFFFFFFF00000000) >>> 32

/-- `GACCO_GET_TXN_ID`. -/
def getTxnId (op : ℕ) : ℕ := (op &&& 0x00000000FFFFFFFF) >>> 0

/-- `prepareSubmitTpccTxn`: the number of entries of a transaction in a table. -/
def prepareSubmitTpccTxn (cfg : Config) (p : TxnParams) : TableName → ℕ :=
  match p with
  | .newOrder _ _ _ _ _ items =>
    if cfg.useAtomic then fun
      | .stock => if cfg.stockUseAtomic then 0 else items.length
      | _ => 0
    else fun
      | .warehouse | .district | .customer | .order | .newOrder => 1
      | .orderLine | .item | .stock => items.length
  | .payment .. =>
    if cfg.useAtomic then fun _ => 0
    else fun
      | .warehouse | .district | .customer => 1
      | _ => 0

/-- The records whose entries `submitTpccTxn` writes for a table, in order. -/
def submitRecords (cfg : Config) (p : TxnParams) : TableName → List ℕ :=
  match p with
  | .newOrder w d c no o items =>
    if !cfg.useAtomic then fun
      | .warehouse => [w]
      | .district => [d]
      | .customer => [c]
      | .order => [o]
      | .newOrder => [no]
      | .orderLine => items.map ItemParam.orderLineId
      | .item => items.map ItemParam.itemId
      | .stock => items.map ItemParam.stockId
    else if !cfg.stockUseAtomic then fun
      | .stock => items.map ItemParam.stockId
      | _ => []
    else fun _ => []
  | .payment w d c =>
    if !cfg.useAtomic then fun
      | .warehouse => [w]
      | .district => [d]
      | .customer => [c]
      | _ => []
    else fun _ => []

/-- `submitTpccTxn`. -/
def submitTpccTxn (cfg : Config) (t : TableName) (txnId : ℕ) (p : TxnParams) : List ℕ :=
  (submitRecords cfg p t).map fun r => createOp r txnId

section
variable (cfg : Config) (t : TableName)

/-- `d_op_offsets`: zero, and the inclusive sums of `d_num_ops`. -/
def opOffsets (txns : List TxnParams) : List ℕ :=
  exclusiveSum ((txns.map fun p => prepareSubmitTpccTxn cfg p t) ++ [0])

/-- `submit`: `d_submitted_ops` over what it held before. -/
def submitTpccTxns (old : ℕ → ℕ) (txns : List TxnParams) : ℕ → ℕ :=
  (txns.zipIdx.zip (opOffsets cfg t txns)).foldl
    (fun dest x => copyAt dest x.2 (submitTpccTxn cfg t x.1.2 x.1.1)) old

/-- `curr_num_ops`. -/
def currNumOps (txns : List TxnParams) : ℕ := (opOffsets cfg t txns).getD txns.length 0

end

/-! ### Planning (`gpu_execution_planner.cu`) -/

/-- `GaccoTableLock`. -/
structure TableLock where
  access : ℕ → ℕ
  offset : ℕ → ℕ
  lock : ℕ → ℕ

/-- `DeviceRunLengthEncode` of the record ids: `d_unique_rows` and `d_unique_access`. -/
def uniqueRows (sorted : List ℕ) : List (ℕ × ℕ) :=
  (sorted.splitBy fun a b => getRecordId a == getRecordId b).map fun run =>
    ((run.head?.map getRecordId).getD 0, run.length)

/-- One thread of `buildAuxArrayKernel`. -/
def buildAuxArray (l : TableLock) (x : ℕ × ℕ) : TableLock where
  access := l.access
  offset := Function.update l.offset x.1 x.2
  lock := Function.update l.lock x.1 (l.access x.2)

/-- `InitializeExecutionPlan`; `submitted` is the front of `d_submitted_ops`. -/
def initializeExecutionPlan (submitted : List ℕ) (l : TableLock) : TableLock :=
  if submitted.length = 0 then l
  else
    let sorted := stableSort getRecordId submitted
    let unique := uniqueRows sorted
    ((unique.map Prod.fst).zip (exclusiveSum (unique.map Prod.snd))).foldl buildAuxArray
      { l with access := copyAt l.access 0 (sorted.map getTxnId) }

/-! ### Execution (`tpcc_gpu_executor.cu`) -/

/-- A lock. -/
abbrev Key := TableName × ℕ

/-- What `gpuExecTpccTxn` locks and unlocks for an item under `gacco_use_atomic`. -/
def atomicItem (cfg : Config) (x : ItemParam) : List (LockOp Key) :=
  if cfg.stockUseAtomic then []
  else [.acquire (.stock, x.stockId), .release (.stock, x.stockId)]

/-- The same without it. -/
def lockedItem (x : ItemParam) : List (LockOp Key) :=
  [.acquire (.orderLine, x.orderLineId), .acquire (.stock, x.stockId),
    .release (.orderLine, x.orderLineId), .release (.stock, x.stockId),
    .acquire (.item, x.itemId), .release (.item, x.itemId)]

/-- The calls of `acquireLock` and `releaseLock` of `gpuExecTpccTxn`. -/
def gpuExecTpccTxn (cfg : Config) : TxnParams → List (LockOp Key)
  | .newOrder w d c no o items =>
    if cfg.useAtomic then items.flatMap (atomicItem cfg)
    else
      [.acquire (.warehouse, w), .release (.warehouse, w),
        .acquire (.district, d), .release (.district, d),
        .acquire (.customer, c), .release (.customer, c),
        .acquire (.newOrder, no), .acquire (.order, o),
        .release (.newOrder, no), .release (.order, o)] ++ items.flatMap lockedItem
  | .payment w d c =>
    if cfg.useAtomic then []
    else
      [.acquire (.warehouse, w), .acquire (.district, d), .acquire (.customer, c),
        .release (.warehouse, w), .release (.district, d), .release (.customer, c)]

/-- A transaction in execution: the calls still to make, the locks it holds, and, inside a
    `releaseLock`, the lock with its `new_lock_offset`. -/
structure Thread where
  rest : List (LockOp Key)
  held : Finset Key
  passing : Option (Key × ℕ)

/-- `held` and `grants` are not in memory: they record what was granted. -/
structure State where
  locks : TableName → TableLock
  threads : ℕ → Thread
  grants : Key → List ℕ
  /-- `txn_counter`, in blocks. -/
  started : ℕ

def Thread.Finished (t : Thread) : Prop := t.rest = [] ∧ t.passing = none

instance (t : Thread) : Decidable t.Finished := inferInstanceAs (Decidable (_ ∧ _))

/-- `acquireLock` has found its transaction id in the lock word. -/
def State.acquireLock (s : State) (x : ℕ) (k : Key) (t : Thread) : State where
  locks := s.locks
  threads := Function.update s.threads x t
  grants := Function.update s.grants k (s.grants k ++ [x])
  started := s.started

/-- The `atomicAdd` of `releaseLock`. -/
def State.addOffset (s : State) (x : ℕ) (k : Key) (t : Thread) : State where
  locks := Function.update s.locks k.1 { s.locks k.1 with
    offset := Function.update (s.locks k.1).offset k.2 ((s.locks k.1).offset k.2 + 1) }
  threads := Function.update s.threads x t
  grants := s.grants
  started := s.started

/-- The `atomicExch` of `releaseLock`. -/
def State.exchLock (s : State) (x : ℕ) (k : Key) (newLockOffset : ℕ) (t : Thread) : State where
  locks := Function.update s.locks k.1 { s.locks k.1 with
    lock := Function.update (s.locks k.1).lock k.2 ((s.locks k.1).access newLockOffset) }
  threads := Function.update s.threads x t
  grants := s.grants
  started := s.started

/-- One turn of transaction `x`: a look at the lock word, or one half of a release. -/
def stepTxn (s : State) (x : ℕ) : Option State :=
  match s.threads x with
  | ⟨rest, held, some (k, newLockOffset)⟩ => some (s.exchLock x k newLockOffset ⟨rest, held, none⟩)
  | ⟨.acquire k :: rest, held, none⟩ =>
    if (s.locks k.1).lock k.2 = x then some (s.acquireLock x k ⟨rest, insert k held, none⟩) else none
  | ⟨.release k :: rest, held, none⟩ =>
    some (s.addOffset x k ⟨rest, held.erase k, some (k, (s.locks k.1).offset k.2 + 1)⟩)
  | ⟨[], _, none⟩ => none

/-- Threads of a block. -/
def blockSize : ℕ := 256

/-- The blocks that have started and still have a thread running. -/
def resident (numTxns : ℕ) (s : State) : List ℕ :=
  (List.range s.started).filter fun b =>
    (List.range blockSize).any fun i =>
      b * blockSize + i < numTxns ∧ ¬ (s.threads (b * blockSize + i)).Finished

/-- The executor: a running transaction makes a turn, or the device starts the next block, of which it
    runs `maxBlocks` at a time. -/
inductive Step (numTxns maxBlocks : ℕ) : State → State → Prop
  | txn {s s' : State} {x : ℕ} : x < numTxns → x < s.started * blockSize → stepTxn s x = some s' →
    Step numTxns maxBlocks s s'
  | block {s : State} : s.started * blockSize < numTxns → (resident numTxns s).length < maxBlocks →
    Step numTxns maxBlocks s { s with started := s.started + 1 }

/-- The state in which `execute` finds a planned batch; `old` is what the arrays held before. -/
def State.init (cfg : Config) (ops : TableName → ℕ → ℕ) (old : TableName → TableLock)
    (txns : List TxnParams) : State where
  locks t := initializeExecutionPlan
    ((List.range (currNumOps cfg t txns)).map (submitTpccTxns cfg t (ops t) txns)) (old t)
  threads x := ⟨(txns[x]?.map (gpuExecTpccTxn cfg)).getD [], ∅, none⟩
  grants _ := []
  started := 0

end Egad.Gacco
