import Egad.Planner.Versions
import Egad.Ycsb.Submission
import Egad.Tpcc.PlanArray

/-! # Scratch versions and the arrays that hold them

    The version arrays have a fixed number of entries (`YcsbBenchmark`, `TpccDb`):

        YCSB, hybrid               10 · num_txns
        YCSB, GPU or CPU only      num_records, ten times as many with split fields
        TPC-C                      num_txns: warehouse, district, customer, new order, order
                                   15 · num_txns: order line, item, stock

    Nothing relates them to the writes of a batch: outside the hybrid mode YCSB counts records, and
    a Delivery writes ten customers, ten orders and all their lines. -/

namespace Egad.Execution
open Egad.Lib Egad.Planner

/-- `ExecMode`. -/
inductive ExecMode where
  | gpuOnly
  | cpuOnly
  | hybridStaging
deriving DecidableEq, Repr

/-- The entries of the YCSB version array. -/
def ycsbVersionEntries (mode : ExecMode) (splitField : Bool) (numRecords numTxns : ℕ) : ℕ :=
  match mode with
  | .gpuOnly | .cpuOnly => if splitField then numRecords * 10 else numRecords
  | .hybridStaging => numTxns * 10

/-- The entries of a TPC-C table's version array. -/
def tpccVersionEntries (numTxns : ℕ) : Tpcc.TableName → ℕ
  | .warehouse | .district | .customer | .newOrder | .order => numTxns
  | .orderLine | .item | .stock => numTxns * 15

/-- `d_submitted_ops` of a YCSB epoch. -/
def ycsbWords (splitField : Bool) (mintedBegin numMinted : ℕ) (txns : List Ycsb.YcsbTxnParam) :
    List ℕ :=
  (Ycsb.emittedOps splitField mintedBegin numMinted txns).map fun e => e.op.encode

/-- `d_submitted_ops` of a TPC-C table. -/
def tpccWords (params : List Tpcc.ExecParams) (t : Tpcc.TableName) : List ℕ :=
  (Tpcc.submitTpccTxns params t).map Op.encode

/-- Every scratch version of a batch has an entry. -/
def VersionsFit (words : List ℕ) (entries : ℕ) : Prop :=
  ∀ x ∈ plannedOps words, x.2.1.isScratch → rwLocation x.2.1 x.2.2 < entries

/-! ### Writes of a batch -/

/-- The kind of an operation is read back from its word, whatever its record and transaction. -/
theorem getRW_encode_of_offset {o : Op} (h : o.offset < 2 ^ 11) :
    getRW o.encode = if o.isWrite then 1 else 0 := by
  have hbit : (o.encode).testBit 11 = o.isWrite := by
    have hoff : o.offset.testBit 11 = false := Nat.testBit_lt_two_pow h
    simp only [Op.encode, createOp, Nat.testBit_or, Nat.testBit_shiftLeft, Nat.shiftLeft_zero, hoff]
    cases o.isWrite <;> simp
  have hmask : 0x0000000000000800 >>> 11 = 2 ^ 1 - 1 := by decide
  rw [getRW, Nat.shiftRight_and_distrib, hmask, Nat.and_two_pow_sub_one_eq_mod, pow_one]
  rw [Nat.testBit, Nat.and_comm, Nat.and_one_is_mod] at hbit
  cases hw : o.isWrite with
  | true => simpa [hw] using hbit
  | false => simpa [hw] using hbit

theorem length_writeWords {ops : List Op} (h : ∀ o ∈ ops, o.offset < 2 ^ 11) :
    (writeWords (ops.map Op.encode)).length = ops.countP fun o => o.isWrite := by
  rw [writeWords, ← List.countP_eq_length_filter, List.countP_map]
  refine List.countP_congr fun o ho => ?_
  rw [Function.comp_apply, getRW_encode_of_offset (h o ho)]
  cases o.isWrite <;> simp

theorem versionsFit_iff (words : List ℕ) (entries : ℕ) : VersionsFit words entries ↔
    (writeWords words).length ≤ entries + (writtenRecords words).length :=
  scratch_lt_iff words entries

/-- Blocks with at most `c` writes each fit an array with `c` entries for each block. -/
theorem versionsFit_of_blocks {α : Type} (block : ℕ → α → List Op) (xs : List α) {c : ℕ}
    (hoffset : ∀ x ∈ xs.zipIdx, ∀ o ∈ block x.2 x.1, o.offset < 2 ^ 11)
    (hwrites : ∀ x ∈ xs.zipIdx, ((block x.2 x.1).countP fun o => o.isWrite) ≤ c) :
    VersionsFit ((xs.zipIdx.flatMap fun x => block x.2 x.1).map Op.encode) (xs.length * c) := by
  have hle := List.sum_le_card_nsmul
    (xs.zipIdx.map fun x => (block x.2 x.1).countP fun o => o.isWrite) c (by
      intro n hn
      obtain ⟨x, hx, rfl⟩ := List.mem_map.mp hn
      exact hwrites x hx)
  rw [nsmul_eq_mul, Nat.cast_id, List.length_map, List.length_zipIdx] at hle
  rw [versionsFit_iff, length_writeWords (List.forall_mem_flatMap.mpr hoffset), List.countP_flatMap,
    Function.comp_def]
  exact Nat.le_add_right_of_le hle

/-! ### TPC-C -/

/-- The tables of which a transaction can write more records than the array has entries for it. -/
def deliveryTables : List Tpcc.TableName := [.customer, .order, .orderLine]

theorem tpcc_writes_le (txnId : ℕ) {p : Tpcc.ExecParams} (hp : p.Ok) {t : Tpcc.TableName}
    (ht : t ∉ deliveryTables) :
    ((Tpcc.submitTpccTxn txnId p t).countP fun o => o.isWrite) ≤ tpccVersionEntries 1 t := by
  cases p with
  | newOrder w d c n o items =>
    have hlen : items.length ≤ 15 := hp.2.1
    cases t
    case stock =>
      simpa [Tpcc.submitTpccTxn, List.countP_flatMap, Function.comp_def, Tpcc.readOp, Tpcc.writeOp,
        tpccVersionEntries] using hlen
    case item => simp [Tpcc.submitTpccTxn, List.countP_map, Function.comp_def, Tpcc.readOp]
    all_goals simp [Tpcc.submitTpccTxn, Tpcc.readOp, Tpcc.writeOp, tpccVersionEntries] at ht ⊢
    all_goals simp [deliveryTables] at ht
  | payment w d c =>
    cases t
    case customer => simp [deliveryTables] at ht
    all_goals simp [Tpcc.submitTpccTxn, Tpcc.readOp, Tpcc.writeOp, tpccVersionEntries,
      Tpcc.submitOrderLines, Tpcc.ExecParams.growing]
  | orderStatus c o lines =>
    cases t
    case customer => simp [deliveryTables] at ht
    case order => simp [deliveryTables] at ht
    case orderLine => simp [deliveryTables] at ht
    all_goals simp [Tpcc.submitTpccTxn]
  | delivery ds =>
    cases t
    case customer => simp [deliveryTables] at ht
    case order => simp [deliveryTables] at ht
    case orderLine => simp [deliveryTables] at ht
    all_goals simp [Tpcc.submitTpccTxn, List.countP_map, Function.comp_def, Tpcc.readOp]
  | stockLevel ss =>
    cases t
    case orderLine => simp [deliveryTables] at ht
    all_goals simp [Tpcc.submitTpccTxn, List.countP_map, Function.comp_def, Tpcc.readOp]

theorem tpcc_offset_lt {txnId : ℕ} {p : Tpcc.ExecParams} (hp : p.Ok) {t : Tpcc.TableName} {o : Op}
    (ho : o ∈ Tpcc.submitTpccTxn txnId p t) : o.offset < 2 ^ 11 := by
  have hoff := Tpcc.gpuExecTpccTxn_offset hp _ (Tpcc.mem_submitTpccTxn.mp ho)
  have hsize := Tpcc.execPlanSize_le p
  simp only at hoff
  omega

/-- The other five tables always have enough versions. -/
theorem tpcc_others_fit {params : List Tpcc.ExecParams} (hok : ∀ p ∈ params, p.Ok)
    {t : Tpcc.TableName} (ht : t ∉ deliveryTables) :
    VersionsFit (tpccWords params t) (tpccVersionEntries params.length t) := by
  have hentries : tpccVersionEntries params.length t = params.length * tpccVersionEntries 1 t := by
    cases t <;> simp [tpccVersionEntries]
  rw [hentries, tpccWords, Tpcc.submitTpccTxns]
  exact versionsFit_of_blocks (fun k p => Tpcc.submitTpccTxn k p t) params
    (fun x hx o ho => tpcc_offset_lt (hok _ (zipIdx_lt hx).1) ho)
    (fun x hx => tpcc_writes_le x.2 (hok _ (zipIdx_lt hx).1) ht)

/-! ### YCSB -/

theorem ycsb_writes_le (mintedBegin numMinted tid : ℕ) (txn : Ycsb.YcsbTxnParam) :
    ((Ycsb.submitYcsbTxn false mintedBegin numMinted tid txn).countP fun e => e.op.isWrite) ≤ 10 := by
  have hle := List.sum_le_card_nsmul ((List.finRange 10).map fun i =>
    (Ycsb.submitOp false mintedBegin numMinted tid txn i).countP fun e => e.op.isWrite) 1 (by
      intro n hn
      obtain ⟨i, -, rfl⟩ := List.mem_map.mp hn
      simp only [Ycsb.submitOp]
      split
      · simp
      · cases txn.ops i <;> simp)
  rw [Ycsb.submitYcsbTxn, List.countP_flatMap, Function.comp_def]
  simpa using hle

/-- Whole records in the hybrid mode always have enough versions. -/
theorem ycsb_hybrid_fits (mintedBegin numMinted numRecords : ℕ) (txns : List Ycsb.YcsbTxnParam) :
    VersionsFit (ycsbWords false mintedBegin numMinted txns)
      (ycsbVersionEntries .hybridStaging false numRecords txns.length) := by
  have hfit := versionsFit_of_blocks
    (fun k txn => (Ycsb.submitYcsbTxn false mintedBegin numMinted k txn).map Ycsb.Emitted.op) txns
    (c := 10) (fun x hx o ho => ?_) (fun x hx => ?_)
  · rw [← List.map_flatMap, ← Ycsb.emittedOps, List.map_map] at hfit
    exact hfit
  · obtain ⟨e, he, rfl⟩ := List.mem_map.mp ho
    exact Ycsb.offset_lt he
  · rw [List.countP_map]
    exact ycsb_writes_le mintedBegin numMinted x.2 x.1

/-! ### All batches -/

/-- Scratch locations stay inside the version array exactly when the batch's writes, less the
    records it writes, are no more than the entries: for YCSB in every mode, and for TPC-C on the
    three tables that a Delivery writes. -/
theorem scratch_versions_fit (mode : ExecMode) (splitField : Bool)
    (mintedBegin numMinted numRecords : ℕ) (txns : List Ycsb.YcsbTxnParam)
    (params : List Tpcc.ExecParams) :
    (VersionsFit (ycsbWords splitField mintedBegin numMinted txns)
        (ycsbVersionEntries mode splitField numRecords txns.length) ↔
      (writeWords (ycsbWords splitField mintedBegin numMinted txns)).length ≤
        ycsbVersionEntries mode splitField numRecords txns.length +
          (writtenRecords (ycsbWords splitField mintedBegin numMinted txns)).length) ∧
    ((∀ p ∈ params, p.Complete) →
      ((∀ t, VersionsFit (tpccWords params t) (tpccVersionEntries params.length t)) ↔
        ∀ t ∈ deliveryTables, (writeWords (tpccWords params t)).length ≤
          tpccVersionEntries params.length t + (writtenRecords (tpccWords params t)).length)) := by
  refine ⟨versionsFit_iff _ _,
    fun hcomplete => ⟨fun h t _ => (versionsFit_iff _ _).mp (h t), fun h t => ?_⟩⟩
  by_cases ht : t ∈ deliveryTables
  · exact (versionsFit_iff _ _).mpr (h t ht)
  · exact tpcc_others_fit (fun p hp => (hcomplete p hp).1) ht

/-- Deliveries for the same ten customers. -/
def sameCustomers (orders : ℕ) : Tpcc.ExecParams :=
  .delivery ((List.range 10).map fun i => ⟨orders + i, orders + i, i, [10 * orders + i]⟩)

theorem sameCustomers_complete {orders : ℕ} (h : orders ≤ 10) : (sameCustomers orders).Complete := by
  refine ⟨⟨by simp, ?_⟩, ?_⟩
  · intro x hx
    obtain ⟨i, hi, rfl⟩ := List.mem_map.mp hx
    have hi := List.mem_range.mp hi
    refine ⟨?_, by simp, ?_⟩
    · simp only [List.mem_cons, List.not_mem_nil, or_false, forall_eq_or_imp, forall_eq]
      omega
    · simp only [List.mem_singleton, forall_eq]
      omega
  · rintro ds ⟨⟩
    simp

/-- A Payment and then a Delivery for its customer and nine others: the Payment's write goes to a
    scratch version, and it fits. -/
theorem scratch_versions_fit_delivery :
    VersionsFit (tpccWords [.payment 0 0 0, sameCustomers 0] .customer) 2 ∧
      ∃ x ∈ plannedOps (tpccWords [.payment 0 0 0, sameCustomers 0] .customer), x.2.1.isScratch := by
  have hcomplete : ∀ p ∈ [.payment 0 0 0, sameCustomers 0], p.Complete := by
    simp only [List.forall_mem_cons, List.not_mem_nil, false_imp_iff, implies_true, and_true]
    exact ⟨⟨by simp [Tpcc.ExecParams.Ok], fun _ h => by cases h⟩, sameCustomers_complete (by decide)⟩
  refine ⟨?_, by decide +kernel⟩
  exact (((scratch_versions_fit .hybridStaging false 0 0 0 [] [.payment 0 0 0, sameCustomers 0]).2
    hcomplete).mpr (by decide +kernel)) .customer

/-- Two Deliveries for the same ten customers send ten writes to versions, and the array has two
    entries. -/
theorem scratch_versions_overrun :
    (∀ p ∈ [sameCustomers 0, sameCustomers 10], p.Complete) ∧
      ¬ VersionsFit (tpccWords [sameCustomers 0, sameCustomers 10] .customer)
        (tpccVersionEntries 2 .customer) := by
  refine ⟨?_, ?_⟩
  · simp only [List.forall_mem_cons, List.not_mem_nil, false_imp_iff, implies_true, and_true]
    exact ⟨sameCustomers_complete (by decide), sameCustomers_complete (by decide)⟩
  · rw [versionsFit_iff]
    decide +kernel

end Egad.Execution
