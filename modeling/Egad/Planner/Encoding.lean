import Egad.Planner.Locations

/-! # The packed operation word

    `CREATE_OP` shifts four fields into one 64-bit word and masks none of them:

        | record id : 32 | txn id : 20 | r/w : 1 | offset : 11 |
                       ◀── a transaction id of 2^20 or more spills into the record id

    Record ids are 32-bit and the largest plan (Delivery, 350 words) stays below the 2^11 of the
    offset field, so the transaction id alone can leave its field. The option `-s` sets the number
    of transactions of an epoch to any number `strtoul` reads, and the ids of an epoch are the
    numbers below it. -/

namespace Egad.Planner
open Egad.Lib

/-- The fields `scatterRWLocation` and the extractors read off a word. -/
def decodeOp (op : ℕ) : Op := ⟨getRecordId op, getTxnId op, getRW op = 1, getOffset op⟩

/-- The operations an epoch of `n` transactions can submit on a table of `numRecords` records. -/
structure Op.In (numRecords n : ℕ) (o : Op) : Prop where
  record_lt : o.record < numRecords
  txn_lt : o.txn < n
  offset_lt : o.offset < 2 ^ 11

theorem Op.In.fits {numRecords n : ℕ} {o : Op} (h : o.In numRecords n)
    (hrecords : numRecords ≤ 2 ^ 32) (hn : n ≤ 2 ^ 20) : o.Fits :=
  ⟨h.record_lt.trans_le hrecords, h.txn_lt.trans_le hn, h.offset_lt⟩

/-- The sorted words of a batch are its operations by record id and, within a record, by transaction
    id and in the order they were submitted. -/
def InRecordOrder (ops : List Op) : Prop :=
  ∃ sorted : List Op, sortedOps (ops.map Op.encode) = sorted.map Op.encode ∧ sorted.Perm ops ∧
    (sorted.Pairwise fun o p => o.record < p.record ∨ o.record = p.record ∧ o.txn ≤ p.txn) ∧
    ∀ r, sorted.filter (fun o => o.record = r) = ops.filter (fun o => o.record = r)

/-! ### Words whose fields fit -/

theorem decodeOp_encode {o : Op} (h : o.Fits) : decodeOp o.encode = o := by
  rw [decodeOp, Op.getRecordId_encode h, Op.getTxnId_encode h, Op.getRW_encode h,
    Op.getOffset_encode h]
  cases hw : o.isWrite <;> simp [← hw]

/-- Sorting the words by their record bits sorts the operations by record id. -/
theorem sortedOps_encode_of_fits {ops : List Op} (h : ∀ o ∈ ops, o.Fits) :
    sortedOps (ops.map Op.encode) = (sortedBatch ops).map Op.encode := by
  rw [sortedOps, stableSort_map, sortedBatch]
  congr 1
  refine stableSort_congr _ _ _ fun o ho p hp => ?_
  rw [Op.getRecordId_encode (h o ho), Op.getRecordId_encode (h p hp)]

theorem inRecordOrder_of_fits {ops : List Op} (h : ∀ o ∈ ops, o.Fits)
    (hordered : ops.Pairwise fun o p => o.txn ≤ p.txn) : InRecordOrder ops :=
  ⟨sortedBatch ops, sortedOps_encode_of_fits h, stableSort_perm Op.record ops,
    stableSort_lex Op.record _ hordered, fun r => filter_key_stableSort Op.record r ops⟩

/-! ### The words a planner scatters -/

/-- The sorted words of a table with the types and version counts `scatterRWLocation` reads. -/
def plannedOps (submitted : List ℕ) : List (ℕ × OperationT × ℕ) :=
  let sorted := sortedOps submitted
  let types := rwOpsType sorted
  sorted.zip (types.zip (tverWriteOpsBefore types))

theorem initializeExecutionPlan_eq (submitted : List ℕ) (plan : ExecPlan) :
    initializeExecutionPlan submitted plan = (plannedOps submitted).foldl scatterRWLocation plan := by
  rw [initializeExecutionPlan]
  split
  · next h =>
    rw [List.eq_nil_of_length_eq_zero h]
    rfl
  · rfl

theorem plannedOps_batch {ops : List Op} (hb : Batch ops) : plannedOps (ops.map Op.encode) =
    (sortedBatch ops).map fun o => (o.encode, opType ops o, verRank ops o) := by
  simp only [plannedOps]
  rw [sortedOps_encode hb, rwOpsType_eq hb, tverWriteOpsBefore_eq hb, List.zip_map', List.zip_map']

theorem getTxnId_lt (op : ℕ) : getTxnId op < 2 ^ 20 := by
  have hmask : 0x00000000FFFFF000 >>> 12 = 2 ^ 20 - 1 := by decide
  rw [getTxnId, Nat.shiftRight_and_distrib, hmask, Nat.and_two_pow_sub_one_eq_mod]
  exact Nat.mod_lt _ (Nat.two_pow_pos 20)

/-! ### Transaction ids that do not fit -/

/-- Of a transaction id that is too large the planner reads back the lowest 20 bits. -/
theorem getTxnId_encode_mod {o : Op} (h : o.offset < 2 ^ 11) : getTxnId o.encode = o.txn % 2 ^ 20 := by
  have hmask : 0x00000000FFFFF000 >>> 12 = 2 ^ 20 - 1 := by decide
  have hrec : (o.record <<< 32) >>> 12 = 2 ^ 20 * o.record := by
    rw [Nat.shiftLeft_eq, Nat.shiftRight_eq_div_pow]
    omega
  have htxn : (o.txn <<< 12) >>> 12 = o.txn := by
    rw [Nat.shiftLeft_eq, Nat.shiftRight_eq_div_pow]
    omega
  have hrw : ((if o.isWrite then 1 else 0) <<< 11) >>> 12 = 0 := by cases o.isWrite <;> decide
  have hoffset : (o.offset <<< 0) >>> 12 = 0 := by
    rw [Nat.shiftLeft_zero, Nat.shiftRight_eq_div_pow]
    omega
  rw [getTxnId, Nat.shiftRight_and_distrib, hmask, Nat.and_two_pow_sub_one_eq_mod, Op.encode, createOp,
    Nat.shiftRight_or_distrib, Nat.shiftRight_or_distrib, Nat.shiftRight_or_distrib, hrec, htxn, hrw,
    hoffset, Nat.or_zero, Nat.or_zero, Nat.or_mod_two_pow, Nat.mul_mod_right, Nat.zero_or]

theorem getOffset_encode_of_lt {o : Op} (h : o.offset < 2 ^ 11) : getOffset o.encode = o.offset := by
  have hmask : (0x00000000000007FF : ℕ) = 2 ^ 11 - 1 := by decide
  have hrec : (o.record <<< 32) % 2 ^ 11 = 0 := by
    rw [Nat.shiftLeft_eq]
    omega
  have htxn : (o.txn <<< 12) % 2 ^ 11 = 0 := by
    rw [Nat.shiftLeft_eq]
    omega
  have hrw : ((if o.isWrite then 1 else 0) <<< 11) % 2 ^ 11 = 0 := by cases o.isWrite <;> decide
  rw [getOffset, hmask, Nat.and_two_pow_sub_one_eq_mod, Nat.shiftRight_zero, Op.encode, createOp,
    Nat.or_mod_two_pow, Nat.or_mod_two_pow, Nat.or_mod_two_pow, hrec, htxn, hrw, Nat.shiftLeft_zero,
    Nat.zero_or, Nat.zero_or, Nat.zero_or, Nat.mod_eq_of_lt h]

/-- The plan word that `scatterRWLocation` fills for an operation: both of its parts are read off the
    word. -/
def destination (o : Op) : ℕ × ℕ := (getTxnId o.encode, getOffset o.encode)

theorem destination_eq {o : Op} (h : o.offset < 2 ^ 11) : destination o = (o.txn % 2 ^ 20, o.offset) := by
  rw [destination, getTxnId_encode_mod h, getOffset_encode_of_lt h]

/-- The planner never fills a plan word of a transaction whose id does not fit. -/
theorem initializeExecutionPlan_wide (submitted : List ℕ) (plan : ExecPlan) {txnId : ℕ}
    (h : 2 ^ 20 ≤ txnId) (offset : ℕ) :
    initializeExecutionPlan submitted plan (txnId, offset) = plan (txnId, offset) := by
  rw [initializeExecutionPlan_eq]
  induction plannedOps submitted generalizing plan with
  | nil => rfl
  | cons x xs ih =>
    have hne : (txnId, offset) ≠ (getTxnId x.1, getOffset x.1) := fun he =>
      absurd (getTxnId_lt x.1) (Nat.not_lt.mpr ((Prod.mk.inj he).1 ▸ h))
    rw [List.foldl_cons, ih, scatterRWLocation, Function.update_of_ne hne]

/-- Transaction 2^20 of record `r` and transaction 0 of record `r + 1` have the same word when `r`
    is even: the spilled bit is the record's lowest. -/
theorem encode_spills (r : ℕ) (w : Bool) (o : ℕ) :
    (⟨2 * r, 2 ^ 20, w, o⟩ : Op).encode = (⟨2 * r + 1, 0, w, o⟩ : Op).encode := by
  have hshift : (2 * r) <<< 32 ||| (2 ^ 20) <<< 12 = (2 * r + 1) <<< 32 := by
    have h := Nat.shiftLeft_add_eq_or_of_lt (show 1 < 2 ^ 1 by decide) r
    rw [Nat.shiftLeft_eq] at h
    have hone : (2 ^ 20) <<< 12 = 1 <<< 32 := by decide
    rw [hone, ← Nat.shiftLeft_or_distrib, Nat.mul_comm, ← h, Nat.pow_one]
  simp only [Op.encode, createOp]
  rw [hshift, Nat.zero_shiftLeft, Nat.or_zero]

/-- Every operation of an epoch decodes to itself, and every batch submitted in transaction order
    sorts by record id, transaction id and submission order, exactly when the epoch has no more
    transactions than the id field has values. -/
theorem operation_round_trip {numRecords : ℕ} (hpos : 0 < numRecords)
    (hrecords : numRecords ≤ 2 ^ 32) (n : ℕ) :
    ((∀ o : Op, o.In numRecords n → decodeOp o.encode = o) ∧
      ∀ ops : List Op, (∀ o ∈ ops, o.In numRecords n) →
        (ops.Pairwise fun o p => o.txn ≤ p.txn) → InRecordOrder ops) ↔ n ≤ 2 ^ 20 := by
  constructor
  · rintro ⟨hround, -⟩
    by_contra hn
    have hin : (⟨2 * 0, 2 ^ 20, true, 0⟩ : Op).In numRecords n :=
      ⟨hpos, Nat.lt_of_not_le hn, by decide⟩
    have hid := congrArg Op.txn (hround _ hin)
    rw [encode_spills, decodeOp_encode ⟨by decide, by decide, by decide⟩] at hid
    exact absurd hid (by decide)
  · intro hn
    have hfits : ∀ o : Op, o.In numRecords n → o.Fits := fun o ho => ho.fits hrecords hn
    exact ⟨fun o ho => decodeOp_encode (hfits o ho),
      fun ops hops hordered => inRecordOrder_of_fits (fun o ho => hfits o (hops o ho)) hordered⟩

/-- The default epoch of 100000 transactions on a table of two million records. -/
theorem operation_round_trip_default :
    (∀ o : Op, o.In 2000000 100000 → decodeOp o.encode = o) ∧
      ∀ ops : List Op, (∀ o ∈ ops, o.In 2000000 100000) →
        (ops.Pairwise fun o p => o.txn ≤ p.txn) → InRecordOrder ops :=
  (operation_round_trip (by decide) (by decide) 100000).mpr (by decide)

/-- With 2^20 + 1 transactions the last one's write of record 0 is read back as transaction 0's
    write of record 1. -/
theorem operation_round_trip_fails :
    ¬ ∀ o : Op, o.In 2 (2 ^ 20 + 1) → decodeOp o.encode = o := by
  intro hround
  have hin : (⟨0, 2 ^ 20, true, 0⟩ : Op).In 2 (2 ^ 20 + 1) := ⟨by decide, by decide, by decide⟩
  have hdecoded : decodeOp (⟨0, 2 ^ 20, true, 0⟩ : Op).encode = ⟨1, 0, true, 0⟩ := by decide
  have htxn := congrArg Op.txn ((hround _ hin).symm.trans hdecoded)
  exact absurd htxn (by decide)

end Egad.Planner
