import Egad.Gacco.Model
import Egad.Lib.LockData
import Egad.Tpcc.Values

/-! # What the transactions do to the records (`gacco/benchmarks/tpcc_gpu_executor.cu`)

    There is one copy of every record, and all threads of the device read and write it word by word.
    In the locked mode a record is touched between `acquireLock` and `releaseLock`; the exception is
    Payment, which reads its customer twice before it has the lock, into a sum that ends in its own
    parameters.

        newOrder   w  d  c   no+o   (ol+s  i) (ol+s  i) …        locks, one after another
        payment    w         d           c                      and all three given back at the end

    With `gacco_use_atomic` Payment adds with atomics, NewOrder reads and writes as it goes, and the
    quantity in stock is changed under the stock's lock or by a loop around `atomicCAS`.

    A load, a store and an atomic operation are one step each, in whatever order the threads make
    them. The last store of a transaction, into its own parameters, is left out. -/

namespace Egad.Gacco.Exec
open Egad.Lib
open Egad.Tpcc (TableName ItemParam)
open Egad.Tpcc.Exec (Word warehouseLayout districtLayout customerLayout newOrderLayout orderLayout
  orderLineLayout itemLayout stockLayout)

/-- A record, seen as words. -/
abbrev Record := ℕ → Word

/-- `sizeof` of a table's value, in words. -/
def words : TableName → ℕ
  | .warehouse => warehouseLayout.size
  | .district => districtLayout.size
  | .customer => customerLayout.size
  | .newOrder => newOrderLayout.size
  | .order => orderLayout.size
  | .orderLine => orderLineLayout.size
  | .item => itemLayout.size
  | .stock => stockLayout.size

/-- An item of a NewOrder, with the quantity ordered. -/
structure Item where
  param : ItemParam
  orderQuantities : Word

/-- The parameters of a transaction, with the data that its accesses use. -/
inductive Txn where
  | newOrder (warehouseId districtId customerId newOrderId orderId : ℕ) (items : List Item)
  | payment (warehouseId districtId customerId : ℕ) (paymentAmount : Word)

/-- The record ids. -/
def Txn.params : Txn → TxnParams
  | .newOrder w d c no o items => .newOrder w d c no o (items.map Item.param)
  | .payment w d c _ => .payment w d c

/-- `data`, and the word that a read-modify-write has read (`old_quantity` of the stock). -/
structure Locals where
  data : Word
  reg : Word

/-- A step of a transaction. -/
inductive Op where
  | lock (op : LockOp Key)
  | access (k : Key) (f : Locals → Record → Locals × Record)
  /-- The loop around `atomicCAS` on `s_quantity`, until it succeeds. -/
  | cas (k : Key) (orderQuantity : Word)

def acquireLock (k : Key) : Op := .lock (.acquire k)

def releaseLock (k : Key) : Op := .lock (.release k)

/-- `readData`: adds up the words of a record. -/
def readData (k : Key) : List Op :=
  (List.range (words k.1)).map fun i => .access k fun l r => ({ l with data := l.data + r i }, r)

/-- `writeData`: `data` and the numbers below it. -/
def writeData (k : Key) : List Op :=
  (List.range (words k.1)).map fun i => .access k fun l r =>
    (l, Function.update r i (l.data - BitVec.ofNat 32 i))

/-- A plain load of a word. -/
def load (k : Key) (i : ℕ) : Op := .access k fun l r => ({ l with reg := r i }, r)

/-- The store that makes a load a read-modify-write. -/
def store (k : Key) (i : ℕ) (g : Word → Word) : Op :=
  .access k fun l r => (l, Function.update r i (g l.reg))

/-- `atomicAdd` and `atomicSub`. -/
def atomic (k : Key) (i : ℕ) (g : Word → Word) : Op :=
  .access k fun l r => (l, Function.update r i (g (r i)))

/-- The quantity left in stock, or what it is filled up to. -/
def adjustedQuantity (orderQuantity oldQuantity : Word) : Word :=
  if orderQuantity + 10 ≤ oldQuantity then oldQuantity - orderQuantity
  else oldQuantity + 91 - orderQuantity

/-- What a NewOrder does for an item under `gacco_use_atomic`. -/
def atomicItem (cfg : Config) (x : Item) : List Op :=
  let stock : Key := (.stock, x.param.stockId)
  writeData (.orderLine, x.param.orderLineId) ++
    (if cfg.stockUseAtomic then
      readData stock ++ [load stock 0, .cas stock x.orderQuantities]
    else
      acquireLock stock :: readData stock ++
        [load stock 0, store stock 0 (adjustedQuantity x.orderQuantities), releaseLock stock]) ++
    readData (.item, x.param.itemId)

/-- The same without it. -/
def lockedItem (x : Item) : List Op :=
  let orderLine : Key := (.orderLine, x.param.orderLineId)
  let stock : Key := (.stock, x.param.stockId)
  let item : Key := (.item, x.param.itemId)
  acquireLock orderLine :: writeData orderLine ++
    acquireLock stock :: writeData stock ++
    [releaseLock orderLine, releaseLock stock] ++
    acquireLock item :: readData item ++ [releaseLock item]

/-- `gpuExecTpccTxn` of a Payment. -/
def payment (cfg : Config) (warehouse district customer : Key) (amount : Word) : List Op :=
  if cfg.useAtomic then
    readData warehouse ++ [atomic warehouse 1 (· + amount)] ++
    readData customer ++ [atomic district 0 (· + amount)] ++
    readData customer ++ [atomic customer 0 (· - amount), atomic customer 1 (· + amount),
      atomic customer 2 (· + 1)]
  else
    acquireLock warehouse :: readData customer ++ [load warehouse 1, store warehouse 1 (· + amount)] ++
    acquireLock district :: readData customer ++ [load district 0, store district 0 (· + amount)] ++
    acquireLock customer :: readData customer ++
      [load customer 0, store customer 0 (· - amount), load customer 1, store customer 1 (· + amount),
        load customer 2, store customer 2 (· + 1)] ++
    [releaseLock warehouse, releaseLock district, releaseLock customer]

/-- `gpuExecTpccTxn`. -/
def gpuExecTpccTxn (cfg : Config) : Txn → List Op
  | .newOrder w d c no o items =>
    if cfg.useAtomic then
      readData (.warehouse, w) ++ readData (.district, d) ++ readData (.customer, c) ++
      writeData (.newOrder, no) ++ writeData (.order, o) ++ items.flatMap (atomicItem cfg)
    else
      acquireLock (.warehouse, w) :: readData (.warehouse, w) ++ [releaseLock (.warehouse, w)] ++
      acquireLock (.district, d) :: readData (.district, d) ++ [releaseLock (.district, d)] ++
      acquireLock (.customer, c) :: readData (.customer, c) ++ [releaseLock (.customer, c)] ++
      [acquireLock (.newOrder, no), acquireLock (.order, o)] ++
      writeData (.newOrder, no) ++ writeData (.order, o) ++
      [releaseLock (.newOrder, no), releaseLock (.order, o)] ++ items.flatMap lockedItem
  | .payment w d c amount => payment cfg (.warehouse, w) (.district, d) (.customer, c) amount

/-! ### The device -/

/-- `base` has the locks and what a thread's calls of `acquireLock` and `releaseLock` have still to
    do; `todo` has all its steps. -/
structure State where
  base : Gacco.State
  todo : ℕ → List Op
  locals : ℕ → Locals
  mem : Key → Record

def State.Finished (s : State) (x : ℕ) : Prop := s.todo x = [] ∧ (s.base.threads x).passing = none

instance (s : State) (x : ℕ) : Decidable (s.Finished x) := inferInstanceAs (Decidable (_ ∧ _))

/-- One step of transaction `x`. -/
def State.stepTxn (s : State) (x : ℕ) : Option State :=
  match (s.base.threads x).passing, s.todo x with
  | some _, _ => (Gacco.stepTxn s.base x).map fun b => { s with base := b }
  | none, .lock _ :: rest =>
    (Gacco.stepTxn s.base x).map fun b => { s with base := b, todo := Function.update s.todo x rest }
  | none, .access k f :: rest =>
    some { s with
      todo := Function.update s.todo x rest
      locals := Function.update s.locals x (f (s.locals x) (s.mem k)).1
      mem := Function.update s.mem k (f (s.locals x) (s.mem k)).2 }
  | none, .cas k orderQuantity :: rest =>
    if s.mem k 0 = (s.locals x).reg then
      some { s with
        todo := Function.update s.todo x rest
        mem := Function.update s.mem k
          (Function.update (s.mem k) 0 (adjustedQuantity orderQuantity (s.mem k 0))) }
    else some { s with locals := Function.update s.locals x { s.locals x with reg := s.mem k 0 } }
  | none, [] => none

/-- The blocks that have started and still have a thread running. -/
def State.resident (numTxns : ℕ) (s : State) : List ℕ :=
  (List.range s.base.started).filter fun b =>
    (List.range blockSize).any fun i => b * blockSize + i < numTxns ∧ ¬ s.Finished (b * blockSize + i)

/-- `gpuExecKernel`: a running transaction makes a step, or the device starts the next block. -/
inductive Step (numTxns maxBlocks : ℕ) : State → State → Prop
  | txn {s s' : State} {x : ℕ} : x < numTxns → x < s.base.started * blockSize →
    s.stepTxn x = some s' → Step numTxns maxBlocks s s'
  | block {s : State} : s.base.started * blockSize < numTxns →
    (s.resident numTxns).length < maxBlocks →
    Step numTxns maxBlocks s { s with base := { s.base with started := s.base.started + 1 } }

/-- The state in which `execute` finds a planned batch over the records `mem`. -/
def State.init (cfg : Config) (ops : TableName → ℕ → ℕ) (old : TableName → TableLock)
    (txns : List Txn) (mem : Key → Record) : State where
  base := Gacco.State.init cfg ops old (txns.map Txn.params)
  todo x := (txns[x]?.map (gpuExecTpccTxn cfg)).getD []
  locals _ := ⟨0, 0⟩
  mem := mem

/-! ### One transaction after another -/

/-- The step as a step of the library's memory; alone, a compare-and-swap succeeds. -/
def Op.toData : Op → DataOp Key Record Locals
  | .lock op => .lock op
  | .access k f => .access k f
  | .cas k orderQuantity => .access k fun l r =>
    ({ l with reg := r 0 }, Function.update r 0 (adjustedQuantity orderQuantity (r 0)))

/-- A transaction that has the device to itself. -/
def runAlone (cfg : Config) (mem : Key → Record) (p : Txn) : Key → Record :=
  (execOps (⟨0, 0⟩, mem) ((gpuExecTpccTxn cfg p).map Op.toData)).2

/-- The batch, one transaction after another. -/
def serial (cfg : Config) (mem : Key → Record) (txns : List Txn) : Key → Record :=
  txns.foldl (runAlone cfg) mem

end Egad.Gacco.Exec
