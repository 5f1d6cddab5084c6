import Egad.Execution.Progress
import Egad.Ycsb.Index

/-! # The work pieces of a YCSB epoch

    `submitYcsbTxn` (`benchmarks/ycsb_gpu_submitter.cu`) turns the ten operations of a transaction
    into record operations; a kernel of `benchmarks/ycsb_hybrid_executor.cu` runs every one of the
    ten as a piece of its own.

        slot k = 10 · txn + i      submitted            executed
        READ                       r                    [r]
        UPDATE, one record         r w                  [r] [w]
        FULL_READ, ten fields      r0 … r9              [r0 … r9]        the lanes of a warp
        INSERT, ten fields         w0 … w9              [w0] … [w9]

    The plan of a transaction has 21 words for each of its operations. -/

namespace Egad.Ycsb
open Egad.Execution Egad.Planner

/-- `ops[i]`, `record_ids[i]` and `field_ids[i]` of a `YcsbTxnParam`, as the index leaves them: an
    operation without a record is a `NOOP` (`paramOp`). -/
structure SlotParam where
  op : YcsbOpType
  recordId : ℕ
  fieldId : ℕ
  noop : recordId = kNoRecord → op = .noop

/-- The plan word of `plans[i]`, by its place in the union. -/
def planWord (i word : ℕ) : ℕ := 21 * i + word

/-- `emit`: an operation of slot `k`. -/
def emit (k key word : ℕ) (kind : Bool) : Op := ⟨key, k / 10, kind, planWord (k % 10) word⟩

/-- The places in the union: `read_loc` and `write_loc` of the small plans, and the arrays of the
    split ones. -/
def readLoc : ℕ := 0
def writeLocAlone : ℕ := 0
def writeLocAfterRead : ℕ := 1
def readLocs (j : ℕ) : ℕ := j
def writeLocAfterReads : ℕ := 10
def writeLocs (j : ℕ) : ℕ := j

section
variable (splitField : Bool)

/-- The record an operation of one field touches. -/
def SlotParam.key (x : SlotParam) : ℕ :=
  if splitField then x.recordId * 10 + x.fieldId else x.recordId

/-- `submitYcsbTxn`, one operation of a transaction. -/
def submitSlot (k : ℕ) (x : SlotParam) : List Op :=
  if x.recordId = kNoRecord then []
  else
    match x.op with
    | .read => [emit k (x.key splitField) readLoc false]
    | .update =>
      if splitField then [emit k (x.key splitField) writeLocAlone true]
      else [emit k x.recordId readLoc false, emit k x.recordId writeLocAfterRead true]
    | .readModifyWrite =>
      [emit k (x.key splitField) readLoc false, emit k (x.key splitField) writeLocAfterRead true]
    | .fullRead =>
      if splitField then (List.range 10).map fun j => emit k (x.recordId * 10 + j) (readLocs j) false
      else [emit k x.recordId readLoc false]
    | .fullReadModifyWrite =>
      if splitField then
        ((List.range 10).map fun j => emit k (x.recordId * 10 + j) (readLocs j) false) ++
          [emit k (x.recordId * 10 + x.fieldId) writeLocAfterReads true]
      else [emit k x.recordId readLoc false, emit k x.recordId writeLocAfterRead true]
    | .insert =>
      if splitField then (List.range 10).map fun j => emit k (x.recordId * 10 + j) (writeLocs j) true
      else [emit k x.recordId writeLocAlone true]
    | .delete => []
    | .noop => []

/-- A piece of `gpuPiecewiseExecKernel`. -/
def gpuPiecewiseExecKernel (k : ℕ) (x : SlotParam) : List (List Op) :=
  match x.op with
  | .read => [[emit k (x.recordId * 10 + x.fieldId) readLoc false]]
  | .fullRead => [(List.range 10).map fun j => emit k (x.recordId * 10 + j) (readLocs j) false]
  | .update => [[emit k (x.recordId * 10 + x.fieldId) writeLocAlone true]]
  | .readModifyWrite =>
    [[emit k (x.recordId * 10 + x.fieldId) readLoc false],
      [emit k (x.recordId * 10 + x.fieldId) writeLocAfterRead true]]
  | .fullReadModifyWrite =>
    [(List.range 10).map fun j => emit k (x.recordId * 10 + j) (readLocs j) false,
      [emit k (x.recordId * 10 + x.fieldId) writeLocAfterReads true]]
  | .insert => (List.range 10).map fun j => [emit k (x.recordId * 10 + j) (writeLocs j) true]
  | .delete => []
  | .noop => []

/-- A piece of `gpuNoSplitPiecewiseExecKernel`. -/
def gpuNoSplitPiecewiseExecKernel (k : ℕ) (x : SlotParam) : List (List Op) :=
  match x.op with
  | .read => [[emit k x.recordId readLoc false]]
  | .fullRead => [[emit k x.recordId readLoc false]]
  | .update => [[emit k x.recordId readLoc false], [emit k x.recordId writeLocAfterRead true]]
  | .readModifyWrite =>
    [[emit k x.recordId readLoc false], [emit k x.recordId writeLocAfterRead true]]
  | .fullReadModifyWrite =>
    [[emit k x.recordId readLoc false], [emit k x.recordId writeLocAfterRead true]]
  | .insert => [[emit k x.recordId writeLocAlone true]]
  | .delete => []
  | .noop => []

/-- The kernel that `HybridExecutor::execute` launches. -/
def execPiece (k : ℕ) (x : SlotParam) : List (List Op) :=
  if splitField then gpuPiecewiseExecKernel k x else gpuNoSplitPiecewiseExecKernel k x

/-- `d_submitted_ops` of an epoch. -/
def submitYcsbTxns (params : List SlotParam) : List Op :=
  params.zipIdx.flatMap fun x => submitSlot splitField x.2 x.1

/-- The pieces of an epoch. -/
def ycsbPieces (params : List SlotParam) : Pieces Unit :=
  params.zipIdx.map fun x => (execPiece splitField x.2 x.1).map fun g => g.map fun o => ((), o)

/-- The hybrid YCSB executor on an epoch's plan. -/
def ycsbExecutor (params : List SlotParam) (plan : ExecPlan) (epoch numWarps : ℕ) : Executor Unit where
  submitted _ := submitYcsbTxns splitField params
  pieces := ycsbPieces splitField params
  loc _ o := planAll (fun _ => submitYcsbTxns splitField params) [()] plan (o.txn, o.offset)
  epoch := epoch
  numWarps := numWarps

/-! ### Pieces and batch agree -/

variable {splitField}

/-- A piece makes the accesses that were submitted for it, in the same order. -/
theorem execPiece_flatten (k : ℕ) (x : SlotParam) :
    (execPiece splitField k x).flatten = submitSlot splitField k x := by
  by_cases hr : x.recordId = kNoRecord
  · rw [submitSlot, if_pos hr, execPiece, gpuPiecewiseExecKernel, gpuNoSplitPiecewiseExecKernel,
      x.noop hr]
    cases splitField <;> rfl
  · rw [submitSlot, if_neg hr, execPiece]
    cases splitField with
    | true =>
      simp only [if_true, gpuPiecewiseExecKernel, SlotParam.key]
      cases x.op <;> simp [List.range_succ]
    | false =>
      simp only [Bool.false_eq_true, if_false, gpuNoSplitPiecewiseExecKernel, SlotParam.key]
      cases x.op <;> simp

theorem accesses_ycsbPieces (params : List SlotParam) :
    accesses (ycsbPieces splitField params) =
      (submitYcsbTxns splitField params).map fun o => ((), o) := by
  rw [accesses, ycsbPieces, submitYcsbTxns]
  generalize params.zipIdx = xs
  induction xs with
  | nil => rfl
  | cons x xs ih =>
    rw [List.map_cons, List.flatten_cons, List.flatten_append, ih, List.flatMap_cons, List.map_append,
      ← execPiece_flatten, List.map_flatten]

theorem accessesTo_ycsbPieces (params : List SlotParam) (t : Unit) :
    accessesTo (ycsbPieces splitField params) t = submitYcsbTxns splitField params := by
  rw [accessesTo, accesses_ycsbPieces, List.filter_eq_self.mpr (by simp), List.map_map]
  exact List.map_id _

/-! ### The batch -/

/-- Parameters in range: ten fields, and records (units of ten fields, when they are split) that are
    numbered in 32 bits. -/
structure SlotParam.Ok (splitField : Bool) (x : SlotParam) : Prop where
  field : x.fieldId < 10
  record : x.recordId ≠ kNoRecord →
    if splitField then x.recordId * 10 + 9 < 2 ^ 32 else x.recordId < 2 ^ 32

theorem mem_submitSlot {k : ℕ} {x : SlotParam} (hx : x.Ok splitField) {o : Op}
    (ho : o ∈ submitSlot splitField k x) :
    ∃ key word kind, key < 2 ^ 32 ∧ word < 21 ∧ o = emit k key word kind := by
  have hfield := hx.field
  rw [submitSlot] at ho
  split at ho
  · exact absurd ho List.not_mem_nil
  · next hr =>
    have hrec := hx.record hr
    have hrange : ∀ {word : ℕ → ℕ} {kind : Bool}, splitField = true → (∀ j < 10, word j < 21) →
        o ∈ (List.range 10).map (fun j => emit k (x.recordId * 10 + j) (word j) kind) →
        ∃ key word kind, key < 2 ^ 32 ∧ word < 21 ∧ o = emit k key word kind := by
      intro word kind hs hword ho
      obtain ⟨j, hj, rfl⟩ := List.mem_map.mp ho
      have hj := List.mem_range.mp hj
      rw [hs, if_pos rfl] at hrec
      exact ⟨_, _, _, by omega, hword j hj, rfl⟩
    have hone : ∀ {key word : ℕ} {kind : Bool}, key = x.key splitField → word < 21 →
        o = emit k key word kind →
        ∃ key word kind, key < 2 ^ 32 ∧ word < 21 ∧ o = emit k key word kind := by
      rintro key word kind rfl hword rfl
      refine ⟨_, _, _, ?_, hword, rfl⟩
      rw [SlotParam.key]
      split at hrec
      · next hs => rw [if_pos hs]; omega
      · next hs => rw [if_neg hs]; exact hrec
    have htwo : ∀ {key word word' : ℕ} {kind kind' : Bool}, key = x.key splitField → word < 21 →
        word' < 21 → o ∈ [emit k key word kind, emit k key word' kind'] →
        ∃ key word kind, key < 2 ^ 32 ∧ word < 21 ∧ o = emit k key word kind := by
      intro key word word' kind kind' hkey hword hword' ho
      rcases List.mem_cons.mp ho with ho | ho
      · exact hone hkey hword ho
      · exact hone hkey hword' (List.mem_singleton.mp ho)
    have hw : ∀ j < 10, j < 21 := fun j hj => by omega
    cases splitField with
    | true =>
      simp only [if_true] at ho
      cases hop : x.op with
      | read => rw [hop] at ho; exact hone rfl (by decide) (List.mem_singleton.mp ho)
      | update => rw [hop] at ho; exact hone rfl (by decide) (List.mem_singleton.mp ho)
      | readModifyWrite => rw [hop] at ho; exact htwo rfl (by decide) (by decide) ho
      | fullRead => rw [hop] at ho; exact hrange rfl hw ho
      | fullReadModifyWrite =>
        rw [hop] at ho
        rcases List.mem_append.mp ho with ho | ho
        · exact hrange rfl hw ho
        · exact hone rfl (by decide) (List.mem_singleton.mp ho)
      | insert => rw [hop] at ho; exact hrange rfl hw ho
      | delete => rw [hop] at ho; exact absurd ho List.not_mem_nil
      | noop => rw [hop] at ho; exact absurd ho List.not_mem_nil
    | false =>
      simp only [Bool.false_eq_true, if_false] at ho
      cases hop : x.op with
      | read => rw [hop] at ho; exact hone rfl (by decide) (List.mem_singleton.mp ho)
      | update => rw [hop] at ho; exact htwo rfl (by decide) (by decide) ho
      | readModifyWrite => rw [hop] at ho; exact htwo rfl (by decide) (by decide) ho
      | fullRead => rw [hop] at ho; exact hone rfl (by decide) (List.mem_singleton.mp ho)
      | fullReadModifyWrite => rw [hop] at ho; exact htwo rfl (by decide) (by decide) ho
      | insert => rw [hop] at ho; exact hone rfl (by decide) (List.mem_singleton.mp ho)
      | delete => rw [hop] at ho; exact absurd ho List.not_mem_nil
      | noop => rw [hop] at ho; exact absurd ho List.not_mem_nil

/-- Every operation of a slot has a plan word of its own. -/
theorem submitSlot_words (k : ℕ) (x : SlotParam) :
    (submitSlot splitField k x).Pairwise fun o q => o.offset ≠ q.offset := by
  rw [submitSlot]
  split
  · exact List.Pairwise.nil
  · cases splitField with
    | true =>
      cases x.op <;> simp [List.range_succ, emit, planWord, readLoc, writeLocAfterRead, readLocs,
        writeLocs, writeLocAfterReads]
    | false =>
      cases x.op <;> simp [emit, planWord, readLoc, writeLocAfterRead]

/-- The batch of an epoch whose transaction numbers fit the operation words. -/
theorem submitYcsbTxns_batch_of_fit {params : List SlotParam} (hok : ∀ x ∈ params, x.Ok splitField)
    (hfit : ∀ o ∈ submitYcsbTxns splitField params, o.txn < 2 ^ 20) :
    Batch (submitYcsbTxns splitField params) := by
  have hemit : ∀ x ∈ params.zipIdx, ∀ o ∈ submitSlot splitField x.2 x.1,
      ∃ key word kind, key < 2 ^ 32 ∧ word < 21 ∧ o = emit x.2 key word kind := fun x hx _ ho =>
    mem_submitSlot (hok x.1 (List.fst_mem_of_mem_zipIdx hx)) ho
  refine batch_of_blocks (submitSlot splitField) (fun w => 10 * w.1 + w.2 / 21)
    (fun a b h => Nat.div_le_div_right (c := 10) h) (fun x hx o ho => ?_) (fun x hx o ho => ?_)
    fun x _ => submitSlot_words x.2 x.1
  · have htxn := hfit o (List.mem_flatMap.mpr ⟨x, hx, ho⟩)
    obtain ⟨key, word, kind, hkey, hword, rfl⟩ := hemit x hx o ho
    refine ⟨hkey, htxn, ?_⟩
    simp only [emit, planWord]
    omega
  · obtain ⟨key, word, kind, -, hword, rfl⟩ := hemit x hx o ho
    refine ⟨?_, rfl⟩
    simp only [emit, planWord]
    omega

theorem submitYcsbTxns_batch {params : List SlotParam} (hlen : params.length ≤ 10 * 2 ^ 20)
    (hok : ∀ x ∈ params, x.Ok splitField) : Batch (submitYcsbTxns splitField params) := by
  refine submitYcsbTxns_batch_of_fit hok fun o ho => ?_
  obtain ⟨x, hx, ho⟩ := List.mem_flatMap.mp ho
  have hlt := (List.mem_zipIdx (show (x.1, x.2) ∈ params.zipIdx from hx)).2.1
  obtain ⟨key, word, kind, -, -, rfl⟩ := mem_submitSlot (hok x.1 (List.fst_mem_of_mem_zipIdx hx)) ho
  simp only [emit]
  omega

/-- Operations of absent records submit nothing. -/
theorem submitYcsbTxns_padded {pad : SlotParam} (hpad : pad.recordId = kNoRecord)
    (a b : List SlotParam) (n : ℕ) :
    submitYcsbTxns splitField (a ++ (List.replicate n pad ++ b)) = submitYcsbTxns splitField a ++
      (b.zipIdx (a.length + n)).flatMap fun x => submitSlot splitField x.2 x.1 := by
  have hnone : ((List.replicate n pad).zipIdx a.length).flatMap
      (fun x => submitSlot splitField x.2 x.1) = [] := by
    refine List.flatMap_eq_nil_iff.mpr fun x hx => ?_
    have hx' : x.1 = pad := List.eq_of_mem_replicate (List.fst_mem_of_mem_zipIdx hx)
    rw [hx', submitSlot, if_pos hpad]
  simp only [submitYcsbTxns, List.zipIdx_append, List.flatMap_append, Nat.zero_add,
    List.length_replicate, hnone, List.nil_append]

/-- The lanes of a warp work side by side on reads only. -/
theorem ycsbPieces_lanes (params : List SlotParam) : ∀ piece ∈ ycsbPieces splitField params,
    ∀ g ∈ piece, g.length ≤ 1 ∨ ∀ a ∈ g, a.2.isWrite = false := by
  intro piece hpiece g hg
  obtain ⟨⟨x, k⟩, -, rfl⟩ := List.mem_map.mp hpiece
  obtain ⟨g, hg, rfl⟩ := List.mem_map.mp hg
  have h : g.length ≤ 1 ∨ ∀ o ∈ g, o.isWrite = false := by
    revert g
    rw [execPiece, gpuPiecewiseExecKernel, gpuNoSplitPiecewiseExecKernel]
    cases splitField <;> cases x.op <;> simp [emit]
  refine h.imp (fun h => by rwa [List.length_map]) fun h a ha => ?_
  obtain ⟨o, ho, rfl⟩ := List.mem_map.mp ha
  exact h o ho

/-- No reader of the hybrid YCSB executor waits forever, whatever the operations of the epoch. -/
theorem noDeadlock_ycsb {V : Type} {params : List SlotParam} (hlen : params.length ≤ 10 * 2 ^ 20)
    (hok : ∀ x ∈ params, x.Ok splitField) {grid : ℕ → ℕ}
    (hgrid : Remaps grid (submitYcsbTxns splitField params)) (plan : ExecPlan) {epoch numWarps : ℕ}
    {m : Memory V} (hstart : ∀ c, m.tag c < epoch) (hW : 0 < numWarps) :
    NoDeadlock ((ycsbExecutor splitField params plan epoch numWarps).remap fun _ => grid)
      fun _ => m := by
  refine noDeadlock_of_plan (fun t => (accessesTo_ycsbPieces params t).symm) ?_
    (ycsbPieces_lanes params) (List.nodup_singleton ()) (fun t => by simp) (fun t o _ _ => rfl)
    (fun _ => hgrid) (fun _ _ => rfl) (fun _ => hstart) hW
  have hacc : (accesses (ycsbPieces splitField params)).map Prod.snd =
      submitYcsbTxns splitField params := by
    rw [accesses_ycsbPieces, List.map_map]
    exact List.map_id _
  exact hacc.symm ▸ submitYcsbTxns_batch hlen hok

end

end Egad.Ycsb
