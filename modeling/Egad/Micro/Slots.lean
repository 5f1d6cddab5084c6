import Egad.Micro.Model

/-! # The slots of a micro epoch

    The submitter and the kernel make the same accesses in slot order, so that the plan fits what is
    executed.

        slot 0              slot 1              …
        r w  r w  …  r w    r w  r w  …  r w

    One after the other on the plain records, a slot puts each of its ten records through its data
    operation. -/

namespace Egad.Micro
open Egad.Planner Egad.Execution

variable {cfg : MicroConfig}

/-! ### Index -/

theorem loadInitialData_of_lt {key : ℕ} (h : key < cfg.numRecords) :
    loadInitialData cfg key = some key := by
  have hload : ∀ n, key < n → (List.range n).foldl
      (fun index i => Function.update index i (some i)) (fun _ => none) key = some key := by
    intro n
    induction n with
    | zero => exact fun hlt => absurd hlt (Nat.not_lt_zero key)
    | succ n ih =>
      intro hlt
      rw [List.range_succ, List.foldl_append, List.foldl_cons, List.foldl_nil]
      rcases eq_or_ne key n with rfl | hne
      · exact Function.update_self ..
      · rw [Function.update_of_ne hne]
        exact ih (by omega)
  exact hload cfg.numRecords h

/-- A transaction with its record ids. -/
def MicroTxn.params (txn : MicroTxn) : MicroTxnParams := ⟨txn.keys, txn.abort⟩

theorem indexTxn_eq {txn : MicroTxn} (h : ∀ i, txn.keys i < cfg.numRecords) (param : MicroTxnParams) :
    indexTxn cfg txn param = txn.params := by
  rw [indexTxn, MicroTxn.params]
  congr 1
  funext i
  rw [loadInitialData_of_lt (h i), Option.getD_some]

/-! ### The batch -/

section
variable {xs : List (Option MicroTxnParams)} {tid : ℕ} {p : MicroTxnParams}

/-- The slots' records are in the table. -/
def InTable (cfg : MicroConfig) (xs : List (Option MicroTxnParams)) : Prop :=
  ∀ p, some p ∈ xs → ∀ i, p.recordIds i < cfg.numRecords

theorem mem_submitMicroTxn {x : Option MicroTxnParams} {o : Op} (ho : o ∈ submitMicroTxn tid x) :
    ∃ p i, x = some p ∧ (o = readOp tid p i ∨ o = writeOp tid p i) := by
  cases x with
  | none => exact absurd ho List.not_mem_nil
  | some p =>
    obtain ⟨i, -, hi⟩ := List.mem_flatMap.mp ho
    refine ⟨p, i, rfl, ?_⟩
    simpa using hi

theorem submitMicroTxn_offsets (x : Option MicroTxnParams) :
    ((submitMicroTxn tid x).map Op.offset).Nodup := by
  cases x with
  | none => exact List.nodup_nil
  | some p =>
    have hoffsets : (submitMicroTxn tid (some p)).map Op.offset =
        (List.finRange 10).flatMap fun i => [readLoc i, writeLoc i] := by
      rw [submitMicroTxn, List.map_flatMap]
      rfl
    rw [hoffsets]
    decide

theorem submit_batch (hcfg : cfg.Fits) (hlen : xs.length = 2 * cfg.numTxns) (hin : InTable cfg xs) :
    Batch (submit xs) := by
  have hslot : ∀ x ∈ xs.zipIdx, x.2 < 2 ^ 20 := by
    intro x hx
    have hlt := (List.mem_zipIdx (show (x.1, x.2) ∈ xs.zipIdx from hx)).2.1
    have hn := hcfg.numTxns
    omega
  refine batch_of_blocks (fun tid x => submitMicroTxn tid x) Prod.fst monotone_id
    (fun x hx o ho => ?_) (fun x hx o ho => ?_) fun x _ => ?_
  · obtain ⟨p, i, hp, hcase⟩ := mem_submitMicroTxn ho
    have hrec := hin p (hp ▸ List.fst_mem_of_mem_zipIdx hx) i
    have hmax := hcfg.numRecords
    have hno : kNoRecord < 2 ^ 32 := by decide
    have hi := i.isLt
    have htxn := hslot x hx
    rcases hcase with rfl | rfl
    · exact ⟨show p.recordIds i < 2 ^ 32 by omega, htxn, show readLoc i < 2 ^ 11 by
        rw [readLoc]; omega⟩
    · exact ⟨show p.recordIds i < 2 ^ 32 by omega, htxn, show writeLoc i < 2 ^ 11 by
        rw [writeLoc]; omega⟩
  · obtain ⟨p, i, -, rfl | rfl⟩ := mem_submitMicroTxn ho <;> exact ⟨rfl, rfl⟩
  · exact List.pairwise_map.mp (submitMicroTxn_offsets x.1)

/-- The scratch versions of an epoch fit the array. -/
theorem submit_versionsFit : VersionsFit ((submit xs).map Op.encode) (xs.length * 10) := by
  refine versionsFit_of_blocks (fun tid x => submitMicroTxn tid x) xs (fun x hx o ho => ?_)
    fun x hx => ?_
  · obtain ⟨p, i, -, rfl | rfl⟩ := mem_submitMicroTxn ho
    · exact show readLoc i < 2 ^ 11 by rw [readLoc]; omega
    · exact show writeLoc i < 2 ^ 11 by rw [writeLoc]; omega
  · cases x.1 with
    | none => exact Nat.zero_le _
    | some p =>
      rw [submitMicroTxn, List.countP_flatMap]
      exact Nat.le_refl _

theorem submit_length_le : (submit xs).length ≤ xs.length * 20 := by
  rw [submit, List.length_flatMap]
  refine (List.sum_le_card_nsmul _ 20 fun n hn => ?_).trans
    (by rw [List.length_map, List.length_zipIdx, nsmul_eq_mul, Nat.cast_id])
  obtain ⟨x, -, rfl⟩ := List.mem_map.mp hn
  cases x.1 with
  | none => exact Nat.zero_le 20
  | some p => exact Nat.le_refl 20

/-! ### Programs and batch agree -/

variable {junk : ℕ → MicroValue}

theorem accessesOf_microExecKernel (data : MicroValue) (x : Option MicroTxnParams) :
    accessesOf (microExecKernel data tid x).instrs = (submitMicroTxn tid x).map fun o => ((), o) := by
  cases x with
  | none => rfl
  | some p => rfl

theorem accesses_microExecutor (plan : ExecPlan) (epoch : ℕ) :
    accesses (microExecutor junk xs plan epoch).pieces = (submit xs).map fun o => ((), o) := by
  rw [microExecutor, accesses_programPieces, microPrograms, List.flatMap_map, submit, List.map_flatMap]
  exact List.flatMap_congr fun x _ => accessesOf_microExecKernel _ x.1

theorem microExecutor_runs (hb : Batch (submit xs)) (plan : ExecPlan) (epoch : ℕ) :
    Runs (microExecutor junk xs plan epoch) (microPrograms junk xs) where
  pieces := rfl
  matched :=
    { order := fun t => by
        rw [accessesTo, accesses_microExecutor, List.filter_eq_self.mpr (by simp), List.map_map]
        exact (List.map_id _).symm
      nodup := fun _ => hb.nodup
      lanes := fun piece hpiece g hg => by
        obtain ⟨prog, -, rfl⟩ := List.mem_map.mp hpiece
        obtain ⟨a, -, rfl⟩ := List.mem_map.mp hg
        exact Or.inl Nat.le.refl }

/-! ### The slots one after the other -/

/-- A slot on the plain records. -/
def applySlot (store : ℕ → MicroValue) (tid : ℕ) : Option MicroTxnParams → ℕ → MicroValue
  | none => store
  | some p => (List.finRange 10).foldl (fun store i =>
      Function.update store (p.recordIds i) (dataOp tid p (store (p.recordIds i)))) store

theorem runProgram_microExecKernel {rows : Unit → ℕ → MicroValue} {data : MicroValue}
    (hno : ∀ i, p.recordIds i ≠ kNoRecord) :
    (runProgram microCoop rows (microExecKernel data tid (some p))).1 =
      fun _ => applySlot (rows ()) tid (some p) := by
  rw [runProgram, microExecKernel, applySlot]
  generalize List.finRange 10 = l
  induction l generalizing rows data with
  | nil => rfl
  | cons i l ih =>
    have hiter : ([.access ((), readOp tid p i), .compute (dataOp tid p), .access ((), writeOp tid p i)] :
        List (Instr Unit MicroValue)).foldl (Instr.exec microCoop) (rows, data) =
        (fun _ => Function.update (rows ()) (p.recordIds i) (dataOp tid p (rows () (p.recordIds i))),
          dataOp tid p (rows () (p.recordIds i))) := by
      simp only [List.foldl_cons, List.foldl_nil, Instr.exec, readOp, writeOp, if_neg (hno i),
        Bool.false_eq_true, if_false, if_true, microCoop]
      refine Prod.ext (funext fun t => ?_) rfl
      exact Function.update_self () _ rows
    rw [List.flatMap_cons, List.foldl_append, hiter, List.foldl_cons]
    exact ih

theorem serialRows_micro (hno : ∀ p, some p ∈ xs → ∀ i, p.recordIds i ≠ kNoRecord)
    (rows : Unit → ℕ → MicroValue) : serialRows microCoop rows (microPrograms junk xs) () =
      xs.zipIdx.foldl (fun store x => applySlot store x.2 x.1) (rows ()) := by
  rw [serialRows, microPrograms, List.foldl_map]
  have hslots : ∀ x ∈ xs.zipIdx, ∀ p, x.1 = some p → ∀ i, p.recordIds i ≠ kNoRecord := fun x hx p hp =>
    hno p (hp ▸ List.fst_mem_of_mem_zipIdx hx)
  generalize xs.zipIdx = ys at hslots
  induction ys generalizing rows with
  | nil => rfl
  | cons y ys ih =>
    rw [List.foldl_cons, List.foldl_cons, ih _ fun x hx => hslots x (List.mem_cons_of_mem _ hx)]
    congr 1
    obtain ⟨x, tid⟩ := y
    cases x with
    | none => rfl
    | some p => rw [runProgram_microExecKernel (hslots _ List.mem_cons_self p rfl)]

end

end Egad.Micro
