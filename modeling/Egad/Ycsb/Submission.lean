import Egad.Lib.Blocks
import Egad.Planner.Encoding
import Egad.Ycsb.Pieces

/-! # The submission of a YCSB epoch (`benchmarks/ycsb_gpu_submitter.cu`)

    Two kernels walk the ten operations of every transaction. The first counts the record operations
    a transaction expands into, the counts are summed, and the second writes the operations from the
    transaction's sum on:

        prepareSubmitYcsbTxn   d_num_ops         c₀      c₁       c₂
        InclusiveSum           d_op_offsets      0       c₀       c₀+c₁     c₀+c₁+c₂
        submitYcsbTxn          d_submitted_ops   o o …   o o o …  o …

    Each operation carries the plan word that the planner will fill: `plans[i]` is a union of 21
    words, and the arrays `field_grids` of its large members are filled by the stager instead. The
    word of an operation has 20 bits for its transaction, so transactions whose ids agree in those
    bits have one plan as far as the planner can see. -/

namespace Egad.Ycsb
open Egad.Lib Egad.Execution Egad.Planner

/-- `YcsbTxnParam`. -/
structure YcsbTxnParam where
  recordIds : Fin 10 → ℕ
  fieldIds : Fin 10 → ℕ
  ops : Fin 10 → YcsbOpType

/-- What `emit` writes: the operation, and its entry of `op_is_insert`. -/
structure Emitted where
  op : Op
  isInsert : Bool

/-- The words of the plan member that an operation's record accesses get. -/
def planWords (splitField : Bool) : YcsbOpType → List ℕ
  | .read => [readLoc]
  | .update => if splitField then [writeLocAlone] else [readLoc, writeLocAfterRead]
  | .readModifyWrite => [readLoc, writeLocAfterRead]
  | .fullRead => if splitField then (List.range 10).map readLocs else [readLoc]
  | .fullReadModifyWrite =>
    if splitField then (List.range 10).map readLocs ++ [writeLocAfterReads]
    else [readLoc, writeLocAfterRead]
  | .insert => if splitField then (List.range 10).map writeLocs else [writeLocAlone]
  | .delete => []
  | .noop => []

/-- Those of operation `i` of a transaction; an absent record is not accessed. -/
def YcsbTxnParam.words (splitField : Bool) (txn : YcsbTxnParam) (i : Fin 10) : List ℕ :=
  if txn.recordIds i = kNoRecord then [] else planWords splitField (txn.ops i)

/-- `field_grids` of the plan member an operation uses. -/
def fieldGrids (splitField : Bool) : YcsbOpType → List ℕ
  | .fullRead => if splitField then List.range' 10 10 else []
  | .fullReadModifyWrite => if splitField then List.range' 11 10 else []
  | .insert => if splitField then List.range' 10 10 else []
  | _ => []

section
variable (splitField : Bool) (mintedBegin numMinted : ℕ)

/-- `prepareSubmitYcsbTxn`, operation `i` of a transaction. -/
def prepareSubmitOp (txn : YcsbTxnParam) (i : Fin 10) : ℕ :=
  if txn.recordIds i = kNoRecord then 0
  else
    match txn.ops i with
    | .read => 1
    | .update => if splitField then 1 else 2
    | .readModifyWrite => 2
    | .fullRead => if splitField then 10 else 1
    | .fullReadModifyWrite => if splitField then 11 else 2
    | .insert => if splitField then 10 else 1
    | .delete => 0
    | .noop => 0

/-- `prepareSubmitYcsbTxn`. -/
def prepareSubmitYcsbTxn (txn : YcsbTxnParam) : ℕ :=
  (List.finRange 10).foldl (fun ops i => ops + prepareSubmitOp splitField txn i) 0

/-- The key of a record or, when fields are split, of one of its fields. -/
def fieldKey (recordId fieldId : ℕ) : ℕ :=
  if splitField then (recordId * 10 + fieldId) % 2 ^ 32 else recordId

/-- `submitYcsbTxn`, operation `i` of transaction `tid`. -/
def submitOp (tid : ℕ) (txn : YcsbTxnParam) (i : Fin 10) : List Emitted :=
  let recordId := txn.recordIds i
  let isInsertKind := txn.ops i = .insert ∧ Timeline.sub32 recordId mintedBegin < numMinted
  let emit (key word : ℕ) (kind : Bool) : Emitted :=
    ⟨⟨key, tid, kind, planWord i word⟩, isInsertKind⟩
  let key := fieldKey splitField recordId (txn.fieldIds i)
  let field (j : ℕ) := fieldKey splitField recordId j
  if recordId = kNoRecord then []
  else
    match txn.ops i with
    | .read => [emit key readLoc false]
    | .update =>
      if splitField then [emit key writeLocAlone true]
      else [emit recordId readLoc false, emit recordId writeLocAfterRead true]
    | .readModifyWrite => [emit key readLoc false, emit key writeLocAfterRead true]
    | .fullRead =>
      if splitField then (List.range 10).map fun j => emit (field j) (readLocs j) false
      else [emit recordId readLoc false]
    | .fullReadModifyWrite =>
      if splitField then
        ((List.range 10).map fun j => emit (field j) (readLocs j) false) ++
          [emit key writeLocAfterReads true]
      else [emit recordId readLoc false, emit recordId writeLocAfterRead true]
    | .insert =>
      if splitField then (List.range 10).map fun j => emit (field j) (writeLocs j) true
      else [emit recordId writeLocAlone true]
    | .delete => []
    | .noop => []

/-- `submitYcsbTxn`: what thread `tid` emits, in order. -/
def submitYcsbTxn (tid : ℕ) (txn : YcsbTxnParam) : List Emitted :=
  (List.finRange 10).flatMap (submitOp splitField mintedBegin numMinted tid txn)

/-- The operations of a batch, one transaction behind the other. -/
def emittedOps (txns : List YcsbTxnParam) : List Emitted :=
  txns.zipIdx.flatMap fun x => submitYcsbTxn splitField mintedBegin numMinted x.2 x.1

/-- `d_num_ops`. -/
def numOps (txns : List YcsbTxnParam) : List ℕ := txns.map (prepareSubmitYcsbTxn splitField)

/-- `curr_num_ops`: the last of the sums. -/
def currNumOps (txns : List YcsbTxnParam) : ℕ := (numOps splitField txns).sum

/-- The blocks of `submitYcsbTxn`, as entries of one of its two arrays. -/
def submitBlocks {β : Type} (entry : Emitted → β) (txns : List YcsbTxnParam) : List (List β) :=
  txns.zipIdx.map fun x => (submitYcsbTxn splitField mintedBegin numMinted x.2 x.1).map entry

/-- The writes of the kernel to one of its two arrays. -/
def submitWrites {β : Type} (entry : Emitted → β) (txns : List YcsbTxnParam) : List (ℕ × β) :=
  scatterBlocks (numOps splitField txns) (submitBlocks splitField mintedBegin numMinted entry txns)

/-! ### The two kernels agree -/

variable {splitField mintedBegin numMinted}

theorem length_submitOp (tid : ℕ) (txn : YcsbTxnParam) (i : Fin 10) :
    (submitOp splitField mintedBegin numMinted tid txn i).length =
      prepareSubmitOp splitField txn i := by
  simp only [submitOp, prepareSubmitOp]
  split
  · rfl
  · cases splitField <;> cases txn.ops i <;> simp

/-- The count of a transaction is the number of its operations. -/
theorem length_submitYcsbTxn (tid : ℕ) (txn : YcsbTxnParam) :
    (submitYcsbTxn splitField mintedBegin numMinted tid txn).length =
      prepareSubmitYcsbTxn splitField txn := by
  rw [submitYcsbTxn, List.length_flatMap, prepareSubmitYcsbTxn, List.sum_eq_foldl,
    List.foldl_map]
  congr 1
  funext ops i
  rw [length_submitOp]

theorem numOps_eq {β : Type} (entry : Emitted → β) (txns : List YcsbTxnParam) :
    numOps splitField txns =
      (submitBlocks splitField mintedBegin numMinted entry txns).map List.length := by
  rw [numOps, submitBlocks, List.map_map]
  conv_lhs => rw [← List.zipIdx_map_fst 0 txns, List.map_map]
  refine List.map_congr_left fun x _ => ?_
  rw [Function.comp_apply, Function.comp_apply, List.length_map, length_submitYcsbTxn]

theorem flatten_submitBlocks {β : Type} (entry : Emitted → β) (txns : List YcsbTxnParam) :
    (submitBlocks splitField mintedBegin numMinted entry txns).flatten =
      (emittedOps splitField mintedBegin numMinted txns).map entry := by
  rw [submitBlocks, emittedOps, List.map_flatMap, List.flatMap_def]

theorem length_emittedOps (txns : List YcsbTxnParam) :
    (emittedOps splitField mintedBegin numMinted txns).length = currNumOps splitField txns := by
  rw [← List.length_map Emitted.op, ← flatten_submitBlocks, List.length_flatten, ← numOps_eq,
    currNumOps]

/-- In whatever order the threads' writes arrive, an array ends as its entries in transaction
    order. -/
theorem submitted_array {β : Type} (entry : Emitted → β) (txns : List YcsbTxnParam) (old : ℕ → β)
    {ws : List (ℕ × β)}
    (hws : ws.Perm (submitWrites splitField mintedBegin numMinted entry txns)) :
    (List.range (currNumOps splitField txns)).map (writeAll old ws) =
      (emittedOps splitField mintedBegin numMinted txns).map entry := by
  rw [submitWrites, scatterBlocks_exact (numOps_eq entry txns), flatten_submitBlocks] at hws
  have h := writeAll_block hws old
  rwa [List.length_map, length_emittedOps] at h

theorem prepareSubmitOp_le (txn : YcsbTxnParam) (i : Fin 10) :
    prepareSubmitOp splitField txn i ≤ 11 := by
  rw [prepareSubmitOp]
  split
  · exact Nat.zero_le _
  · cases splitField <;> cases txn.ops i <;> simp

theorem prepareSubmitYcsbTxn_le (txn : YcsbTxnParam) :
    prepareSubmitYcsbTxn splitField txn ≤ 110 := by
  have hsum : prepareSubmitYcsbTxn splitField txn =
      ((List.finRange 10).map (prepareSubmitOp splitField txn)).sum := by
    rw [prepareSubmitYcsbTxn, List.sum_eq_foldl, List.foldl_map]
  have hle := List.sum_le_card_nsmul ((List.finRange 10).map (prepareSubmitOp splitField txn)) 11
    (by simpa using prepareSubmitOp_le txn)
  rw [hsum]
  simpa using hle

/-- A batch fits the arrays, which the planner allocates for `11 * 10` operations a transaction. -/
theorem currNumOps_le (txns : List YcsbTxnParam) :
    currNumOps splitField txns ≤ txns.length * (11 * 10) := by
  have hle := List.sum_le_card_nsmul (numOps splitField txns) (11 * 10) (by
    intro c hc
    obtain ⟨txn, -, rfl⟩ := List.mem_map.mp hc
    exact prepareSubmitYcsbTxn_le txn)
  rwa [nsmul_eq_mul, Nat.cast_id, ← currNumOps, numOps, List.length_map] at hle

/-- The operations of a slot are those the executors' model starts from. -/
theorem submitOp_eq_submitSlot {tid : ℕ} {txn : YcsbTxnParam} {i : Fin 10} {x : SlotParam}
    (hx : x.Ok splitField) (hop : txn.ops i = x.op) (hrecord : txn.recordIds i = x.recordId)
    (hfield : txn.fieldIds i = x.fieldId) :
    (submitOp splitField mintedBegin numMinted tid txn i).map Emitted.op =
      submitSlot splitField (10 * tid + i) x := by
  have htid : (10 * tid + (i : ℕ)) / 10 = tid := by omega
  have hi : (10 * tid + (i : ℕ)) % 10 = i := by omega
  rw [submitOp, submitSlot, hrecord, hop, hfield]
  simp only [emit, htid, hi]
  split
  · rfl
  · next hr =>
    have hrec := hx.record hr
    have hf := hx.field
    cases splitField with
    | false => cases x.op <;> rfl
    | true =>
      have hkey : ∀ j < 10, fieldKey true x.recordId j = x.recordId * 10 + j := by
        intro j hj
        rw [if_pos rfl] at hrec
        rw [fieldKey, if_pos rfl, Nat.mod_eq_of_lt (by omega)]
      have hall : ∀ j ∈ List.range 10, fieldKey true x.recordId j = x.recordId * 10 + j :=
        fun j hj => hkey j (List.mem_range.mp hj)
      cases x.op <;> simp_all [SlotParam.key]

/-! ### Plan words -/

/-- The places of the operations of one plan member. -/
theorem submitOp_words (begin count tid : ℕ) (txn : YcsbTxnParam) (i : Fin 10) :
    (submitOp splitField begin count tid txn i).map (fun e => (e.op.txn, e.op.offset)) =
      (txn.words splitField i).map fun w => (tid, planWord i w) := by
  rw [submitOp, YcsbTxnParam.words]
  split
  · rfl
  · cases splitField <;> cases txn.ops i <;> rfl

theorem planWords_lt (op : YcsbOpType) : ∀ w ∈ planWords splitField op, w < 21 := by
  cases splitField <;> cases op <;> decide

theorem words_lt {txn : YcsbTxnParam} {i : Fin 10} {w : ℕ} (hw : w ∈ txn.words splitField i) : w < 21 := by
  rw [YcsbTxnParam.words] at hw
  split at hw
  · cases hw
  · exact planWords_lt _ w hw

theorem words_nodup (txn : YcsbTxnParam) (i : Fin 10) : (txn.words splitField i).Nodup := by
  rw [YcsbTxnParam.words]
  split
  · exact List.nodup_nil
  · cases splitField <;> cases txn.ops i <;> decide

/-- No operation of a plan member is in the member's `field_grids`. -/
theorem words_disjoint_fieldGrids (txn : YcsbTxnParam) (i : Fin 10) :
    (txn.words splitField i).Disjoint (fieldGrids splitField (txn.ops i)) := by
  rw [YcsbTxnParam.words]
  split
  · exact List.disjoint_nil_left _
  · have hall : ∀ w ∈ planWords splitField (txn.ops i), w ∉ fieldGrids splitField (txn.ops i) := by
      cases splitField <;> cases txn.ops i <;> decide
    exact fun w hw => hall w hw

theorem planWord_inj {i j : Fin 10} {v w : ℕ} (hv : v < 21) (hw : w < 21)
    (h : planWord i v = planWord j w) : i = j ∧ v = w := by
  simp only [planWord] at h
  exact ⟨Fin.ext (by omega), by omega⟩

/-- Where the planner puts the location of an emitted operation. -/
def Emitted.destination (e : Emitted) : ℕ × ℕ := Planner.destination e.op

theorem planWord_lt (i : Fin 10) {w : ℕ} (hw : w < 21) : planWord i w < 210 := by
  rw [planWord]
  omega

/-- An emitted operation names its transaction, and a word of the plan member it was emitted for. -/
theorem mem_submitOp {tid : ℕ} {txn : YcsbTxnParam} {i : Fin 10} {e : Emitted}
    (he : e ∈ submitOp splitField mintedBegin numMinted tid txn i) :
    e.op.txn = tid ∧ ∃ w ∈ txn.words splitField i, e.op.offset = planWord i w := by
  have hmem := List.mem_map_of_mem (f := fun e : Emitted => (e.op.txn, e.op.offset)) he
  rw [submitOp_words] at hmem
  obtain ⟨w, hw, heq⟩ := List.mem_map.mp hmem
  obtain ⟨htid, hoff⟩ := Prod.mk.inj heq
  exact ⟨htid.symm, w, hw, hoff.symm⟩

theorem offset_lt {tid : ℕ} {txn : YcsbTxnParam} {e : Emitted}
    (he : e ∈ submitYcsbTxn splitField mintedBegin numMinted tid txn) : e.op.offset < 2 ^ 11 := by
  obtain ⟨i, -, he⟩ := List.mem_flatMap.mp he
  obtain ⟨-, w, hw, hoff⟩ := mem_submitOp he
  have hlt := planWord_lt i (words_lt hw)
  omega

theorem submitOp_destinations (tid : ℕ) (txn : YcsbTxnParam) (i : Fin 10) :
    (submitOp splitField mintedBegin numMinted tid txn i).map Emitted.destination =
      (txn.words splitField i).map fun w => (tid % 2 ^ 20, planWord i w) := by
  have hwords := @submitOp_words splitField mintedBegin numMinted tid txn i
  have hlow : (txn.words splitField i).map (fun w => (tid % 2 ^ 20, planWord i w)) =
      ((submitOp splitField mintedBegin numMinted tid txn i).map fun e =>
        (e.op.txn, e.op.offset)).map fun d => (d.1 % 2 ^ 20, d.2) := by
    rw [hwords, List.map_map]
    rfl
  rw [hlow, List.map_map]
  exact List.map_congr_left fun e he => destination_eq
    (offset_lt (List.mem_flatMap.mpr ⟨i, List.mem_finRange i, he⟩))

/-- The plan words of a transaction, as the planner sees them. -/
theorem mem_destinations {tid : ℕ} {txn : YcsbTxnParam} {d : ℕ × ℕ} :
    d ∈ (submitYcsbTxn splitField mintedBegin numMinted tid txn).map Emitted.destination ↔
      ∃ i : Fin 10, ∃ w ∈ txn.words splitField i, d = (tid % 2 ^ 20, planWord i w) := by
  simp only [submitYcsbTxn, List.map_flatMap, submitOp_destinations, List.mem_flatMap, List.mem_finRange,
    true_and, List.mem_map, eq_comm]

theorem nodup_destinations (tid : ℕ) (txn : YcsbTxnParam) :
    ((submitYcsbTxn splitField mintedBegin numMinted tid txn).map Emitted.destination).Nodup := by
  simp only [submitYcsbTxn, List.map_flatMap, submitOp_destinations]
  rw [List.nodup_flatMap]
  refine ⟨fun i _ => (words_nodup txn i).map_on fun v hv w hw heq => ?_, (List.nodup_finRange 10).imp ?_⟩
  · exact (planWord_inj (words_lt hv) (words_lt hw) (Prod.mk.inj heq).2).2
  · intro i j hij d hi hj
    obtain ⟨v, hv, rfl⟩ := List.mem_map.mp hi
    obtain ⟨w, hw, heq⟩ := List.mem_map.mp hj
    exact hij (planWord_inj (words_lt hv) (words_lt hw) (Prod.mk.inj heq).2.symm).1

/-- Transactions whose ids agree in the bits of the operation word keep to different words of their
    plans. -/
def WordsApart (splitField : Bool) (txns : List YcsbTxnParam) : Prop :=
  ∀ (a b : ℕ) (x y : YcsbTxnParam), txns[a]? = some x → txns[b]? = some y → a < b →
    a % 2 ^ 20 = b % 2 ^ 20 → ∀ i, (x.words splitField i).Disjoint (y.words splitField i)

/-- A transaction keeps to no `field_grids` word of the one that its id is read back as. -/
def GridsApart (splitField : Bool) (txns : List YcsbTxnParam) : Prop :=
  ∀ (a b : ℕ) (x y : YcsbTxnParam), txns[a]? = some x → txns[b]? = some y → b % 2 ^ 20 = a →
    ∀ i, (y.words splitField i).Disjoint (fieldGrids splitField (x.ops i))

/-- The operations of a batch go to plan words of their own exactly when the transactions' words are
    apart. -/
theorem emittedOps_distinct_iff (txns : List YcsbTxnParam) :
    ((emittedOps splitField mintedBegin numMinted txns).map Emitted.destination).Nodup ↔
      WordsApart splitField txns := by
  rw [emittedOps, List.map_flatMap, List.nodup_flatMap]
  refine (and_iff_right fun (x : YcsbTxnParam × ℕ) _ => nodup_destinations x.2 x.1).trans ?_
  rw [List.pairwise_iff_getElem]
  constructor
  · intro h a b x y ha hb hab hmod i w hx hy
    have hab' : a < b ∧ b < txns.length := ⟨hab, (List.getElem?_eq_some_iff.mp hb).1⟩
    refine h a b (by simpa using hab'.1.trans hab'.2) (by simpa using hab'.2) hab
      (mem_destinations.mpr ⟨i, w, ?_, rfl⟩) (mem_destinations.mpr ⟨i, w, ?_, ?_⟩)
    · simpa [(List.getElem?_eq_some_iff.mp ha).2] using hx
    · simpa [(List.getElem?_eq_some_iff.mp hb).2] using hy
    · simpa using hmod
  · intro h a b ha hb hab d hx hy
    obtain ⟨i, v, hv, rfl⟩ := mem_destinations.mp hx
    obtain ⟨j, w, hw, heq⟩ := mem_destinations.mp hy
    obtain ⟨hmod, hword⟩ := Prod.mk.inj heq
    obtain ⟨rfl, rfl⟩ := planWord_inj (words_lt hv) (words_lt hw) hword
    simp only [List.getElem_zipIdx, Nat.zero_add] at hmod hv hw
    rw [List.length_zipIdx] at ha hb
    exact h a b _ _ (List.getElem?_eq_getElem ha) (List.getElem?_eq_getElem hb) hab hmod i hv hw

theorem fieldGrids_lt (op : YcsbOpType) : ∀ w ∈ fieldGrids splitField op, w < 21 := by
  cases splitField <;> cases op <;> decide

/-- The operations of a batch go to no `field_grids` word exactly when the transactions keep to no
    such word of each other. -/
theorem emittedOps_not_grid_iff (txns : List YcsbTxnParam) :
    (∀ e ∈ emittedOps splitField mintedBegin numMinted txns,
      ∃ txn, txns[e.destination.1]? = some txn ∧ e.destination.2 < 210 ∧
        ∀ i : Fin 10, ∀ w ∈ fieldGrids splitField (txn.ops i), e.destination.2 ≠ planWord i w) ↔
      GridsApart splitField txns := by
  have hdest : ∀ {b : ℕ} {y : YcsbTxnParam}, txns[b]? = some y → ∀ {i : Fin 10} {w : ℕ},
      w ∈ y.words splitField i → ∃ e ∈ emittedOps splitField mintedBegin numMinted txns,
        e.destination = (b % 2 ^ 20, planWord i w) := by
    intro b y hb i w hw
    obtain ⟨e, he, hd⟩ := List.mem_map.mp (mem_destinations.mpr ⟨i, w, hw, rfl⟩)
    exact ⟨e, List.mem_flatMap.mpr ⟨(y, b), List.mk_mem_zipIdx_iff_getElem?.mpr hb, he⟩, hd⟩
  constructor
  · rintro h a b x y ha hb rfl i w hy hx
    obtain ⟨e, he, hd⟩ := hdest hb hy
    obtain ⟨txn, htxn, -, hgrid⟩ := h e he
    rw [hd] at htxn hgrid
    obtain rfl := Option.some.inj (ha.symm.trans htxn)
    exact hgrid i w hx rfl
  · intro h e he
    obtain ⟨⟨y, b⟩, hx, he⟩ := List.mem_flatMap.mp he
    have hb : txns[b]? = some y := List.mk_mem_zipIdx_iff_getElem?.mp hx
    obtain ⟨i, w, hw, hd⟩ := mem_destinations.mp (List.mem_map_of_mem (f := Emitted.destination) he)
    have hlt : b % 2 ^ 20 < txns.length :=
      (Nat.mod_le b (2 ^ 20)).trans_lt (List.getElem?_eq_some_iff.mp hb).1
    rw [hd]
    refine ⟨txns[b % 2 ^ 20], List.getElem?_eq_getElem hlt, planWord_lt i (words_lt hw), fun j v hv heq => ?_⟩
    obtain ⟨rfl, rfl⟩ := planWord_inj (words_lt hw) (fieldGrids_lt _ v hv) heq
    exact h _ b _ y (List.getElem?_eq_getElem hlt) hb rfl i hw hv

/-- In an epoch whose ids all fit, no two agree. -/
theorem apart_of_length {txns : List YcsbTxnParam} (h : txns.length ≤ 2 ^ 20) :
    WordsApart splitField txns ∧ GridsApart splitField txns := by
  have hlt : ∀ {b : ℕ} {y : YcsbTxnParam}, txns[b]? = some y → b % 2 ^ 20 = b := fun hb =>
    Nat.mod_eq_of_lt ((List.getElem?_eq_some_iff.mp hb).1.trans_le h)
  refine ⟨fun a b x y ha hb hab hmod => ?_, fun a b x y ha hb hmod i => ?_⟩
  · rw [hlt ha, hlt hb] at hmod
    exact absurd hmod (Nat.ne_of_lt hab)
  · rw [hlt hb] at hmod
    obtain rfl := Option.some.inj (ha.symm.trans (hmod ▸ hb))
    exact words_disjoint_fieldGrids x i

end

/-- An insert of a minted record, a read of an absent key and full reads behind them. -/
def mixedTxn (first : YcsbOpType) : YcsbTxnParam where
  recordIds i := if i.val = 1 then kNoRecord else 100 + i.val
  fieldIds i := i.val
  ops i := if i.val = 0 then first else .fullRead

end Egad.Ycsb
