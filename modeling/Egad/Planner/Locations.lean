import Egad.Planner.Model
import Egad.Lib.KeyedFold
import Mathlib.Data.Finset.Prod
import Mathlib.Data.Finset.Card

/-! # Where the planner sends every operation

    The counts the planner scans are taken over the sorted words. The sort is stable and keeps a
    record's operations in submission order, so each count is a count over the submitted batch:

        submitted   … w₁ … r₁ … w₂ … r₂ …        (one record, other records between)
        location      v    v    B    B           v = the scratch version of w₁

    A write goes to record B when it is the record's last and to a scratch version of its own
    otherwise. A read goes to record A when no write precedes it and to the location of the last
    write before it otherwise. -/

namespace Egad.Planner
open Egad.Lib

/-! ### Packed fields -/

theorem createOp_eq {r t w o : ℕ} (ht : t < 2 ^ 20) (hw : w < 2) (ho : o < 2 ^ 11) :
    createOp r t w o = r * 2 ^ 32 + t * 2 ^ 12 + w * 2 ^ 11 + o := by
  have h₁ : w <<< 11 ||| o = w <<< 11 + o := (Nat.shiftLeft_add_eq_or_of_lt ho w).symm
  have hlt₁ : w <<< 11 + o < 2 ^ 12 := by rw [Nat.shiftLeft_eq]; omega
  have h₂ : t <<< 12 ||| (w <<< 11 + o) = t <<< 12 + (w <<< 11 + o) :=
    (Nat.shiftLeft_add_eq_or_of_lt hlt₁ t).symm
  have hlt₂ : t <<< 12 + (w <<< 11 + o) < 2 ^ 32 := by
    clear hlt₁ h₁ h₂
    rw [Nat.shiftLeft_eq, Nat.shiftLeft_eq]
    omega
  rw [createOp, Nat.shiftLeft_zero, Nat.or_assoc, Nat.or_assoc, h₁, h₂,
    ← Nat.shiftLeft_add_eq_or_of_lt hlt₂ r]
  simp only [Nat.shiftLeft_eq, Nat.add_assoc]

/-- The fields of an operation fit their bits. -/
structure Op.Fits (o : Op) : Prop where
  record_lt : o.record < 2 ^ 32
  txn_lt : o.txn < 2 ^ 20
  offset_lt : o.offset < 2 ^ 11

theorem Op.encode_eq {o : Op} (h : o.Fits) : o.encode =
    o.record * 2 ^ 32 + o.txn * 2 ^ 12 + (if o.isWrite then 1 else 0) * 2 ^ 11 + o.offset :=
  createOp_eq h.txn_lt (by split <;> omega) h.offset_lt

theorem Op.getRecordId_encode {o : Op} (h : o.Fits) : getRecordId o.encode = o.record := by
  obtain ⟨hr, ht, ho⟩ := h
  have hmask : 0xFFFFFFFF00000000 >>> 32 = 2 ^ 32 - 1 := by decide
  rw [getRecordId, Nat.shiftRight_and_distrib, hmask, Nat.and_two_pow_sub_one_eq_mod,
    Nat.shiftRight_eq_div_pow, Op.encode_eq ⟨hr, ht, ho⟩]
  split <;> omega

theorem Op.getTxnId_encode {o : Op} (h : o.Fits) : getTxnId o.encode = o.txn := by
  obtain ⟨hr, ht, ho⟩ := h
  have hmask : 0x00000000FFFFF000 >>> 12 = 2 ^ 20 - 1 := by decide
  rw [getTxnId, Nat.shiftRight_and_distrib, hmask, Nat.and_two_pow_sub_one_eq_mod,
    Nat.shiftRight_eq_div_pow, Op.encode_eq ⟨hr, ht, ho⟩]
  split <;> omega

theorem Op.getRW_encode {o : Op} (h : o.Fits) : getRW o.encode = if o.isWrite then 1 else 0 := by
  obtain ⟨hr, ht, ho⟩ := h
  have hmask : 0x0000000000000800 >>> 11 = 2 ^ 1 - 1 := by decide
  rw [getRW, Nat.shiftRight_and_distrib, hmask, Nat.and_two_pow_sub_one_eq_mod,
    Nat.shiftRight_eq_div_pow, Op.encode_eq ⟨hr, ht, ho⟩]
  split <;> omega

theorem Op.getOffset_encode {o : Op} (h : o.Fits) : getOffset o.encode = o.offset := by
  obtain ⟨hr, ht, ho⟩ := h
  have hmask : (0x00000000000007FF : ℕ) = 2 ^ 11 - 1 := by decide
  rw [getOffset, hmask, Nat.and_two_pow_sub_one_eq_mod, Nat.shiftRight_zero,
    Op.encode_eq ⟨hr, ht, ho⟩]
  split <;> omega

theorem Op.writeExtractor_encode {o : Op} (h : o.Fits) :
    writeExtractor o.encode = if o.isWrite then 1 else 0 := by
  rw [writeExtractor, Op.getRW_encode h]
  cases o.isWrite <;> simp

/-! ### Counts over the sorted batch -/

/-- The number of writes of record `r` in a list of operations. -/
def writesIn (r : ℕ) (l : List Op) : ℕ := l.countP fun p => p.isWrite && decide (p.record = r)

/-- The operations before `o`. -/
def before (l : List Op) (o : Op) : List Op := l.takeWhile (· ≠ o)

/-- The operations after `o`. -/
def after (l : List Op) (o : Op) : List Op := (l.dropWhile (· ≠ o)).drop 1

theorem ne_of_split {l r : List Op} {o : Op} (h : (l ++ o :: r).Nodup) :
    ∀ p ∈ l, decide (p ≠ o) = true := by
  intro p hp
  have hne : p ≠ o := by
    rintro rfl
    exact (List.nodup_append.mp h).2.2 p hp p (by simp) rfl
  simpa using hne

theorem before_split {l r : List Op} {o : Op} (h : (l ++ o :: r).Nodup) :
    before (l ++ o :: r) o = l := by
  rw [before, List.takeWhile_append_of_pos (ne_of_split h)]
  simp

theorem after_split {l r : List Op} {o : Op} (h : (l ++ o :: r).Nodup) :
    after (l ++ o :: r) o = r := by
  rw [after, List.dropWhile_append_of_pos (ne_of_split h)]
  simp

/-- The batch in the order of the sorted words. -/
def sortedBatch (ops : List Op) : List Op := stableSort Op.record ops

/-- The type the planner gives an operation, from the counts over the submitted batch. -/
def opType (ops : List Op) (o : Op) : OperationT :=
  calcOperationType o.encode (writesIn o.record (before ops o)) (writesIn o.record (after ops o))

/-- The version writes that the sort puts before an operation. -/
def verRank (ops : List Op) (o : Op) : ℕ :=
  (before (sortedBatch ops) o).countP fun p => opType ops p = .versionWrite

section
variable {ops : List Op} (hb : Batch ops)
include hb

theorem Batch.fits {o : Op} (h : o ∈ ops) : o.Fits := ⟨hb.record_lt o h, hb.txn_lt o h, hb.offset_lt o h⟩

/-- The stager's keys of a batch are its records. -/
theorem Batch.keys : ops.map keyOf = ops.map Op.record :=
  List.map_congr_left fun _ ho => Op.getRecordId_encode (hb.fits ho)

theorem Batch.nodup : ops.Nodup := hb.words.imp fun h he => h (by rw [he])

theorem Batch.nodup_sorted : (sortedBatch ops).Nodup :=
  (stableSort_perm Op.record ops).nodup_iff.mpr hb.nodup

theorem sortedOps_encode : sortedOps (ops.map Op.encode) = (sortedBatch ops).map Op.encode := by
  rw [sortedOps, stableSort_map, sortedBatch]
  congr 1
  refine stableSort_congr _ _ _ fun o ho p hp => ?_
  rw [Op.getRecordId_encode (hb.fits ho), Op.getRecordId_encode (hb.fits hp)]

/-- The writes of a record that the sort puts before an operation are those submitted before it. -/
theorem filter_split {l r l' r' : List Op} {o : Op} (hs : sortedBatch ops = l ++ o :: r)
    (ho : ops = l' ++ o :: r') :
    l.filter (fun p => p.record = o.record) = l'.filter (fun p => p.record = o.record) ∧
      r.filter (fun p => p.record = o.record) = r'.filter (fun p => p.record = o.record) := by
  have hsame := filter_key_stableSort Op.record o.record ops
  rw [← sortedBatch, hs, ho] at hsame
  simp only [List.filter_append, List.filter_cons, decide_true, if_true] at hsame
  have hnl : o ∉ l := by
    have := hb.nodup_sorted
    rw [hs] at this
    exact fun h => (List.nodup_append.mp this).2.2 o h o (by simp) rfl
  have hnr : o ∉ r := by
    have := hb.nodup_sorted
    rw [hs] at this
    exact (List.nodup_cons.mp (List.nodup_append.mp this).2.1).1
  have hsplit := List.append_cons_inj_of_notMem (fun h => hnl (List.mem_of_mem_filter h))
    (fun h => hnr (List.mem_of_mem_filter h)) |>.mp hsame
  exact ⟨hsplit.1, hsplit.2.2⟩

omit hb in
theorem writesIn_eq_of_filter {r : ℕ} {l l' : List Op}
    (h : l.filter (fun p => p.record = r) = l'.filter (fun p => p.record = r)) :
    writesIn r l = writesIn r l' := by
  have hcount : ∀ l : List Op, writesIn r l =
      (l.filter fun p => p.record = r).countP (fun p => p.isWrite) := by
    intro l
    rw [writesIn, List.countP_filter]
  rw [hcount, hcount, h]

omit hb in
theorem sum_writeExtractor {l : List Op} (hf : ∀ p ∈ l, p.Fits) (r : ℕ) :
    (((l.map Op.encode).filter fun w => getRecordId w = r).map writeExtractor).sum =
      writesIn r l := by
  induction l with
  | nil => rfl
  | cons p l ih =>
    have hp := hf p (by simp)
    have ih' := ih fun q hq => hf q (by simp [hq])
    rw [List.map_cons, List.filter_cons, Op.getRecordId_encode hp, writesIn, List.countP_cons,
      ← writesIn]
    by_cases hr : p.record = r
    · cases hw : p.isWrite <;>
        simp [hr, ih', Op.writeExtractor_encode hp, hw, Nat.add_comm]
    · simp [hr, ih']

theorem fits_sorted {p : Op} (h : p ∈ sortedBatch ops) : p.Fits :=
  hb.fits (mem_stableSort.mp h)

theorem sorted_encode :
    ((sortedBatch ops).map Op.encode).Pairwise fun a b => getRecordId a ≤ getRecordId b := by
  rw [← sortedOps_encode hb]
  exact stableSort_sorted getRecordId _

theorem writeOpsBefore_split {l r : List Op} {o : Op} (hs : sortedBatch ops = l ++ o :: r) :
    (writeOpsBefore ((sortedBatch ops).map Op.encode))[l.length]? = some (writesIn o.record l) := by
  have hmap : (sortedBatch ops).map Op.encode = l.map Op.encode ++ o.encode :: r.map Op.encode := by
    rw [hs, List.map_append, List.map_cons]
  have hget := getElem?_exclusiveSumByKey writeExtractor
    (fun a b c hab hbc hac => le_antisymm hbc (hac ▸ hab)) (l.map Op.encode) o.encode
    (r.map Op.encode) (hmap ▸ sorted_encode hb)
  have hfits : ∀ p ∈ l, p.Fits := fun p hp => fits_sorted hb (by rw [hs]; simp [hp])
  rw [Op.getRecordId_encode (fits_sorted hb (by rw [hs]; simp)), sum_writeExtractor hfits,
    List.length_map] at hget
  rw [writeOpsBefore, hmap, hget]

theorem writeOpsAfter_split {l r : List Op} {o : Op} (hs : sortedBatch ops = l ++ o :: r) :
    (writeOpsAfter ((sortedBatch ops).map Op.encode))[l.length]? = some (writesIn o.record r) := by
  have hmap : ((sortedBatch ops).map Op.encode).reverse =
      r.reverse.map Op.encode ++ o.encode :: l.reverse.map Op.encode := by
    rw [hs, List.map_append, List.map_cons, List.reverse_append, List.reverse_cons,
      List.map_reverse, List.map_reverse, List.append_assoc, List.singleton_append]
  have hget := getElem?_exclusiveSumByKey writeExtractor
    (fun a b c (hab : getRecordId b ≤ getRecordId a) hbc hac => le_antisymm (hac ▸ hab) hbc)
    (r.reverse.map Op.encode) o.encode (l.reverse.map Op.encode)
    (hmap ▸ List.pairwise_reverse.mpr (sorted_encode hb))
  have hfits : ∀ p ∈ r.reverse, p.Fits := fun p hp =>
    fits_sorted hb (by rw [hs]; simp [List.mem_reverse.mp hp])
  rw [Op.getRecordId_encode (fits_sorted hb (by rw [hs]; simp)), sum_writeExtractor hfits,
    List.length_map, List.length_reverse, writesIn, List.countP_reverse, ← writesIn] at hget
  have hlen : ((sortedBatch ops).map Op.encode).length = l.length + (r.length + 1) := by
    rw [hs]; simp
  rw [writeOpsAfter, List.getElem?_reverse (by simp [hlen]), length_exclusiveSumByKey,
    List.length_reverse, hlen, hmap, ← hget]
  congr 1
  omega

theorem opType_eq {l r : List Op} {o : Op} (hs : sortedBatch ops = l ++ o :: r) :
    opType ops o = calcOperationType o.encode (writesIn o.record l) (writesIn o.record r) := by
  have hmem : o ∈ ops := mem_stableSort.mp (by rw [← sortedBatch, hs]; simp)
  obtain ⟨l', r', ho⟩ := List.append_of_mem hmem
  obtain ⟨hl, hr⟩ := filter_split hb hs ho
  have hnd := hb.nodup
  rw [writesIn_eq_of_filter hl, writesIn_eq_of_filter hr, opType]
  rw [ho] at hnd ⊢
  rw [before_split hnd, after_split hnd]

theorem rwOpsType_eq :
    rwOpsType ((sortedBatch ops).map Op.encode) = (sortedBatch ops).map (opType ops) := by
  refine eq_map_of_split (opType ops) ?_ fun l o r hs => ?_
  · simp [rwOpsType, writeOpsBefore, writeOpsAfter]
  · have henc : ((sortedBatch ops).map Op.encode)[l.length]? = some o.encode := by
      rw [hs]; simp
    have hzip : ((writeOpsBefore ((sortedBatch ops).map Op.encode)).zip
        (writeOpsAfter ((sortedBatch ops).map Op.encode)))[l.length]? =
          some (writesIn o.record l, writesIn o.record r) := by
      rw [List.getElem?_zip_eq_some]
      exact ⟨writeOpsBefore_split hb hs, writeOpsAfter_split hb hs⟩
    rw [rwOpsType, List.getElem?_zipWith, henc, hzip, opType_eq hb hs]

theorem verRank_eq {l r : List Op} {o : Op} (hs : sortedBatch ops = l ++ o :: r) :
    verRank ops o = l.countP fun p => opType ops p = .versionWrite := by
  rw [verRank, hs, before_split (hs ▸ hb.nodup_sorted)]

theorem tverWriteOpsBefore_eq : tverWriteOpsBefore ((sortedBatch ops).map (opType ops)) =
    (sortedBatch ops).map (verRank ops) := by
  refine eq_map_of_split (verRank ops) (by simp [tverWriteOpsBefore]) fun l o r hs => ?_
  have hsum : ∀ l : List Op, ((l.map (opType ops)).map versionWriteExtractor).sum =
      l.countP fun p => opType ops p = .versionWrite := by
    intro l
    induction l with
    | nil => rfl
    | cons p l ih =>
      simp only [List.map_cons, List.sum_cons, ih, List.countP_cons, versionWriteExtractor]
      by_cases h : opType ops p = .versionWrite <;> simp [h, Nat.add_comm]
  have hget := getElem?_exclusiveSum ((l.map (opType ops)).map versionWriteExtractor)
    (versionWriteExtractor (opType ops o)) ((r.map (opType ops)).map versionWriteExtractor)
  rw [hsum, List.length_map, List.length_map] at hget
  rw [tverWriteOpsBefore, verRank_eq hb hs, ← hget, hs]
  simp only [List.map_append, List.map_cons]

omit hb in
theorem exists_split {o : Op} (ho : o ∈ ops) : ∃ l r, sortedBatch ops = l ++ o :: r :=
  List.append_of_mem (mem_stableSort.mpr ho)

/-- The word scattered for an operation. -/
theorem locOf_eq (plan : ExecPlan) {o : Op} (ho : o ∈ ops) :
    locOf ops plan o = rwLocation (opType ops o) (verRank ops o) := by
  have hne : ¬ (ops.map Op.encode).length = 0 := by
    rw [List.length_map, List.length_eq_zero_iff]
    rintro rfl
    simp at ho
  obtain ⟨l, r, hs⟩ := exists_split ho
  have hwords : ∀ p ∈ r, (p.txn, p.offset) ≠ (o.txn, o.offset) := by
    have hpw : (sortedBatch ops).Pairwise fun o p => (o.txn, o.offset) ≠ (p.txn, p.offset) :=
      ((stableSort_perm Op.record ops).pairwise_iff fun h => Ne.symm h).mpr hb.words
    rw [hs] at hpw
    exact fun p hp => ((List.pairwise_cons.mp (List.pairwise_append.mp hpw).2.1).1 p hp).symm
  -- no operation after `o` in the sorted order has its plan word
  have hlast : r.filter (fun p => (getTxnId p.encode, getOffset p.encode) = (o.txn, o.offset)) = [] := by
    rw [List.filter_eq_nil_iff]
    intro p hp
    have hfits : p.Fits := fits_sorted hb (by rw [hs]; simp [hp])
    rw [Op.getTxnId_encode hfits, Op.getOffset_encode hfits]
    simpa using hwords p hp
  have hfits := hb.fits ho
  rw [locOf, planOf, initializeExecutionPlan, if_neg hne]
  simp only [sortedOps_encode hb, rwOpsType_eq hb, tverWriteOpsBefore_eq hb]
  rw [List.zip_map', List.zip_map', List.foldl_map]
  have hfold := foldl_keyedStep (fun p : Op => (getTxnId p.encode, getOffset p.encode))
    (fun p _ => rwLocation (opType ops p) (verRank ops p)) (o.txn, o.offset) (sortedBatch ops) plan
  refine hfold.trans ?_
  rw [hs, List.filter_append, List.filter_cons, hlast, Op.getTxnId_encode hfits,
    Op.getOffset_encode hfits]
  simp

end

/-! ### Locations -/

/-- Operation `j` of the batch writes record `r`. -/
def writesAt (ops : List Op) (r j : ℕ) : Bool :=
  match ops[j]? with
  | some p => p.isWrite && decide (p.record = r)
  | none => false

/-- The last write of record `r` before position `i`. -/
def lastWriteBefore (ops : List Op) (r i : ℕ) : Option ℕ :=
  ((List.range i).filter (writesAt ops r)).getLast?

theorem writesAt_iff {ops : List Op} {r j : ℕ} :
    writesAt ops r j = true ↔ ∃ p, ops[j]? = some p ∧ p.isWrite = true ∧ p.record = r := by
  rw [writesAt]
  cases ops[j]? <;> simp

theorem lastWriteBefore_eq_none {ops : List Op} {r i : ℕ} :
    lastWriteBefore ops r i = none ↔ ∀ j < i, writesAt ops r j = false := by
  simp [lastWriteBefore]

theorem lastWriteBefore_eq_some {ops : List Op} {r i j : ℕ} :
    lastWriteBefore ops r i = some j ↔
      j < i ∧ writesAt ops r j = true ∧ ∀ k, j < k → k < i → writesAt ops r k = false := by
  induction i with
  | zero => simp [lastWriteBefore]
  | succ i ih =>
    rw [lastWriteBefore, List.range_succ, List.filter_append]
    cases hw : writesAt ops r i with
    | true =>
      simp only [List.filter_cons, hw, if_true, List.filter_nil, List.getLast?_append,
        List.getLast?_singleton, Option.some_or, Option.some.injEq]
      constructor
      · rintro rfl
        exact ⟨by omega, hw, fun k h₁ h₂ => by omega⟩
      · rintro ⟨hji, hj, hk⟩
        by_contra hne
        have hfalse := hk i (by omega) (by omega)
        rw [hw] at hfalse
        exact absurd hfalse (by simp)
    | false =>
      simp only [List.filter_cons, hw, Bool.false_eq_true, if_false, List.filter_nil,
        List.append_nil]
      rw [← lastWriteBefore, ih]
      constructor
      · rintro ⟨hji, hj, hk⟩
        refine ⟨by omega, hj, fun k h₁ h₂ => ?_⟩
        rcases Nat.lt_succ_iff_lt_or_eq.mp h₂ with h | rfl
        · exact hk k h₁ h
        · exact hw
      · rintro ⟨hji, hj, hk⟩
        have hne : j ≠ i := by
          rintro rfl
          rw [hw] at hj
          exact absurd hj (by simp)
        exact ⟨by omega, hj, fun k h₁ h₂ => hk k h₁ (by omega)⟩

/-- Where a plan sends the operations of a batch. -/
structure Located (ops : List Op) (loc : Op → ℕ) : Prop where
  write_last : ∀ {i : ℕ} {o : Op}, ops[i]? = some o → o.isWrite = true →
    (∀ j, i < j → writesAt ops o.record j = false) → loc o = locRecordB
  write_version : ∀ {i j : ℕ} {o : Op}, ops[i]? = some o → o.isWrite = true → i < j →
    writesAt ops o.record j = true → loc o < 2 ^ 31
  write_inj : ∀ {i j : ℕ} {o p : Op}, ops[i]? = some o → ops[j]? = some p → o.isWrite = true →
    p.isWrite = true → loc o < 2 ^ 31 → loc o = loc p → i = j
  read_first : ∀ {i : ℕ} {o : Op}, ops[i]? = some o → o.isWrite = false →
    lastWriteBefore ops o.record i = none → loc o = locRecordA
  read_after : ∀ {i j : ℕ} {o p : Op}, ops[i]? = some o → o.isWrite = false →
    lastWriteBefore ops o.record i = some j → ops[j]? = some p → loc o = loc p

theorem split_at {ops : List Op} {i : ℕ} {o : Op} (h : ops[i]? = some o) :
    ops = ops.take i ++ o :: ops.drop (i + 1) := by
  obtain ⟨hi, rfl⟩ := List.getElem?_eq_some_iff.mp h
  rw [← List.drop_eq_getElem_cons hi, List.take_append_drop]

theorem writesIn_eq_zero {r : ℕ} {l : List Op} :
    writesIn r l = 0 ↔ ∀ p ∈ l, ¬ (p.isWrite = true ∧ p.record = r) := by
  simp [writesIn, List.countP_eq_zero]

theorem writesIn_take_eq_zero {ops : List Op} {r i : ℕ} :
    writesIn r (ops.take i) = 0 ↔ ∀ j < i, writesAt ops r j = false := by
  rw [writesIn_eq_zero]
  constructor
  · intro h j hj
    rw [← Bool.not_eq_true, writesAt_iff]
    rintro ⟨p, hp, hw⟩
    exact h p (List.mem_iff_getElem?.mpr ⟨j, by rw [List.getElem?_take_of_lt hj, hp]⟩) hw
  · intro h p hp hw
    obtain ⟨j, hj⟩ := List.mem_iff_getElem?.mp hp
    rw [List.getElem?_take] at hj
    split at hj
    · rename_i hji
      have := writesAt_iff.mpr ⟨p, hj, hw⟩
      rw [h j hji] at this
      exact absurd this (by simp)
    · exact absurd hj (by simp)

theorem writesIn_drop_eq_zero {ops : List Op} {r i : ℕ} :
    writesIn r (ops.drop (i + 1)) = 0 ↔ ∀ j, i < j → writesAt ops r j = false := by
  rw [writesIn_eq_zero]
  constructor
  · intro h j hj
    rw [← Bool.not_eq_true, writesAt_iff]
    rintro ⟨p, hp, hw⟩
    refine h p (List.mem_iff_getElem?.mpr ⟨j - (i + 1), ?_⟩) hw
    rw [List.getElem?_drop, show i + 1 + (j - (i + 1)) = j by omega, hp]
  · intro h p hp hw
    obtain ⟨j, hj⟩ := List.mem_iff_getElem?.mp hp
    rw [List.getElem?_drop] at hj
    have := writesAt_iff.mpr ⟨p, hj, hw⟩
    rw [h (i + 1 + j) (by omega)] at this
    exact absurd this (by simp)

section
variable {ops : List Op} (hb : Batch ops)
include hb

theorem opType_at {i : ℕ} {o : Op} (h : ops[i]? = some o) :
    opType ops o = calcOperationType o.encode (writesIn o.record (ops.take i))
      (writesIn o.record (ops.drop (i + 1))) := by
  have hnd := hb.nodup
  have hsplit := split_at h
  rw [opType]
  generalize ops.take i = l at hsplit ⊢
  generalize ops.drop (i + 1) = r at hsplit ⊢
  subst hsplit
  rw [before_split hnd, after_split hnd]

theorem opType_write {i : ℕ} {o : Op} (h : ops[i]? = some o) (hw : o.isWrite = true) :
    opType ops o = if writesIn o.record (ops.drop (i + 1)) = 0 then .recordBWrite
      else .versionWrite := by
  rw [opType_at hb h, calcOperationType, Op.getRW_encode (hb.fits (List.mem_of_getElem? h)), hw]
  simp

theorem opType_read {i : ℕ} {o : Op} (h : ops[i]? = some o) (hw : o.isWrite = false) :
    opType ops o = if writesIn o.record (ops.take i) = 0 then .recordARead
      else if writesIn o.record (ops.drop (i + 1)) = 0 then .recordBRead
      else .versionRead := by
  rw [opType_at hb h, calcOperationType, Op.getRW_encode (hb.fits (List.mem_of_getElem? h)), hw]
  simp

theorem isWrite_of_versionWrite {o : Op} (ho : o ∈ ops) (h : opType ops o = .versionWrite) :
    o.isWrite = true := by
  obtain ⟨i, hi⟩ := List.mem_iff_getElem?.mp ho
  cases hw : o.isWrite with
  | true => rfl
  | false =>
    rw [opType_read hb hi hw] at h
    split at h
    · exact absurd h (by simp)
    · split at h <;> exact absurd h (by simp)

omit hb in
theorem length_le_mul {n m : ℕ} (hn : ∀ o ∈ ops, o.txn < n) (hm : ∀ o ∈ ops, o.offset < m)
    (hw : ops.Pairwise fun o p => (o.txn, o.offset) ≠ (p.txn, p.offset)) : ops.length ≤ n * m := by
  have hnd : (ops.map fun o => (o.txn, o.offset)).Nodup := List.pairwise_map.mpr hw
  have hsub : (ops.map fun o => (o.txn, o.offset)).toFinset ⊆
      Finset.range n ×ˢ Finset.range m := by
    intro w hw
    rw [List.mem_toFinset, List.mem_map] at hw
    obtain ⟨o, ho, rfl⟩ := hw
    rw [Finset.mem_product, Finset.mem_range, Finset.mem_range]
    exact ⟨hn o ho, hm o ho⟩
  have hcard := Finset.card_le_card hsub
  rwa [List.toFinset_card_of_nodup hnd, List.length_map, Finset.card_product, Finset.card_range,
    Finset.card_range] at hcard

/-- Twenty transaction bits and eleven offset bits bound the batch. -/
theorem Batch.length_le : ops.length ≤ 2 ^ 31 := by
  have hle := length_le_mul hb.txn_lt hb.offset_lt hb.words
  rwa [← Nat.pow_add] at hle

theorem verRank_lt {o : Op} (ho : o ∈ ops) : verRank ops o < 2 ^ 31 := by
  obtain ⟨l, r, hs⟩ := exists_split ho
  have hlen := (stableSort_perm Op.record ops).length_eq
  rw [← sortedBatch, hs, List.length_append, List.length_cons] at hlen
  have hle := List.countP_le_length (p := fun p => decide (opType ops p = .versionWrite)) (l := l)
  have := hb.length_le
  rw [verRank_eq hb hs]
  omega

/-- A version write gets a version that no other write has. -/
theorem verRank_inj {o p : Op} (ho : o ∈ ops) (hp : p ∈ ops) (hto : opType ops o = .versionWrite)
    (htp : opType ops p = .versionWrite) (h : verRank ops o = verRank ops p) : o = p := by
  obtain ⟨l, r, hs⟩ := exists_split ho
  have hmem : p ∈ l ++ o :: r := hs ▸ mem_stableSort.mpr hp
  rw [List.mem_append, List.mem_cons] at hmem
  rcases hmem with hpl | rfl | hpr
  · obtain ⟨u, v, rfl⟩ := List.append_of_mem hpl
    have hp' : sortedBatch ops = u ++ p :: (v ++ o :: r) := by simpa using hs
    rw [verRank_eq hb hs, verRank_eq hb hp', List.countP_append, List.countP_cons] at h
    simp [htp] at h
  · rfl
  · obtain ⟨u, v, rfl⟩ := List.append_of_mem hpr
    have hp' : sortedBatch ops = (l ++ o :: u) ++ p :: v := by simpa using hs
    rw [verRank_eq hb hs, verRank_eq hb hp', List.countP_append, List.countP_cons] at h
    simp [hto] at h

/-- Between a write and a later operation of its record with no write of the record between them,
    the sort leaves nothing but reads of that record. -/
theorem verRank_succ {i j : ℕ} {o p : Op} (hi : ops[i]? = some o) (hj : ops[j]? = some p)
    (hrec : p.record = o.record) (hji : j < i) (htp : opType ops p = .versionWrite)
    (hbetween : ∀ k, j < k → k < i → writesAt ops o.record k = false) :
    verRank ops o = verRank ops p + 1 := by
  have ho := List.mem_of_getElem? hi
  obtain ⟨l, r, hs⟩ := exists_split ho
  obtain ⟨hl, -⟩ := filter_split hb hs (split_at hi)
  -- the operations submitted before `o`, split at `p`
  have hpt : (ops.take i)[j]? = some p := by rw [List.getElem?_take_of_lt hji, hj]
  have htake := split_at hpt
  have hpl : p ∈ l := by
    have hmem : p ∈ (ops.take i).filter fun q => q.record = o.record :=
      List.mem_filter.mpr ⟨List.mem_of_getElem? hpt, by simp [hrec]⟩
    rw [← hl] at hmem
    exact List.mem_of_mem_filter hmem
  obtain ⟨u, v, rfl⟩ := List.append_of_mem hpl
  have hsp : sortedBatch ops = u ++ p :: (v ++ o :: r) := by simpa using hs
  have hvrec : ∀ q ∈ v, q.record = o.record := by
    have hsorted := stableSort_sorted Op.record ops
    rw [← sortedBatch, hsp] at hsorted
    obtain ⟨hpq, hrest⟩ := List.pairwise_cons.mp (List.pairwise_append.mp hsorted).2.1
    intro q hq
    refine le_antisymm ((List.pairwise_append.mp hrest).2.2 q hq o (by simp)) ?_
    rw [← hrec]
    exact hpq q (by simp [hq])
  have hvfil : v.filter (fun q => q.record = o.record) =
      ((ops.take i).drop (j + 1)).filter fun q => q.record = o.record := by
    rw [htake] at hl
    simp only [List.filter_append, List.filter_cons, hrec, decide_true, if_true] at hl
    have hnd := hb.nodup_sorted
    rw [hsp] at hnd
    have hnu : p ∉ u := fun h => (List.nodup_append.mp hnd).2.2 p h p (by simp) rfl
    have hnv : p ∉ v := fun h =>
      (List.nodup_cons.mp (List.nodup_append.mp hnd).2.1).1 (by simp [h])
    exact ((List.append_cons_inj_of_notMem (fun h => hnu (List.mem_of_mem_filter h))
      (fun h => hnv (List.mem_of_mem_filter h))).mp hl).2.2
  have hnone : v.countP (fun q => opType ops q = .versionWrite) = 0 := by
    rw [List.countP_eq_zero]
    intro q hq
    simp only [decide_eq_true_eq]
    intro htq
    have hqs : q ∈ sortedBatch ops := by rw [hsp]; simp [hq]
    have hwq := isWrite_of_versionWrite hb (mem_stableSort.mp hqs) htq
    have hmem : q ∈ v.filter fun q => q.record = o.record :=
      List.mem_filter.mpr ⟨hq, by simp [hvrec q hq]⟩
    rw [hvfil] at hmem
    obtain ⟨k, hk⟩ := List.mem_iff_getElem?.mp (List.mem_of_mem_filter hmem)
    rw [List.getElem?_drop, List.getElem?_take] at hk
    split at hk
    · rename_i hki
      have := writesAt_iff.mpr ⟨q, hk, hwq, hvrec q hq⟩
      rw [hbetween _ (by omega) hki] at this
      exact absurd this (by simp)
    · exact absurd hk (by simp)
  rw [verRank_eq hb hs, verRank_eq hb hsp, List.countP_append, List.countP_cons, hnone, htp]
  simp

/-- `InitializeExecutionPlan` followed by the executor's lookup. -/
theorem located (plan : ExecPlan) : Located ops (locOf ops plan) where
  write_last := by
    intro i o hi hw hlast
    rw [locOf_eq hb plan (List.mem_of_getElem? hi), opType_write hb hi hw,
      if_pos (writesIn_drop_eq_zero.mpr hlast)]
    rfl
  write_version := by
    intro i j o hi hw hij hj
    have hne : ¬ writesIn o.record (ops.drop (i + 1)) = 0 := by
      rw [writesIn_drop_eq_zero]
      intro h
      rw [h j hij] at hj
      exact absurd hj (by simp)
    rw [locOf_eq hb plan (List.mem_of_getElem? hi), opType_write hb hi hw, if_neg hne]
    exact verRank_lt hb (List.mem_of_getElem? hi)
  write_inj := by
    intro i j o p hi hj hwo hwp hlt heq
    have ho := List.mem_of_getElem? hi
    have hp := List.mem_of_getElem? hj
    have hver : ∀ {k : ℕ} {q : Op}, ops[k]? = some q → q.isWrite = true → locOf ops plan q < 2 ^ 31 →
        opType ops q = .versionWrite ∧ locOf ops plan q = verRank ops q := by
      intro k q hk hwq hq
      have hty := opType_write hb hk hwq
      rw [locOf_eq hb plan (List.mem_of_getElem? hk)] at hq ⊢
      split at hty
      · rw [hty, rwLocation, locRecordB] at hq
        omega
      · exact ⟨hty, by rw [hty, rwLocation]⟩
    obtain ⟨hto, hlo⟩ := hver hi hwo hlt
    obtain ⟨htp, hlp⟩ := hver hj hwp (heq ▸ hlt)
    have hop : o = p := verRank_inj hb ho hp hto htp (by rw [← hlo, ← hlp, heq])
    subst hop
    exact (hb.nodup.getElem_inj_iff).mp (by
      rw [(List.getElem?_eq_some_iff.mp hi).2, (List.getElem?_eq_some_iff.mp hj).2])
  read_first := by
    intro i o hi hw hnone
    rw [lastWriteBefore_eq_none] at hnone
    rw [locOf_eq hb plan (List.mem_of_getElem? hi), opType_read hb hi hw,
      if_pos (writesIn_take_eq_zero.mpr hnone)]
    rfl
  read_after := by
    intro i j o p hi hw hlast hj
    obtain ⟨hji, hwj, hbetween⟩ := lastWriteBefore_eq_some.mp hlast
    obtain ⟨p', hj', hwp, hrec⟩ := writesAt_iff.mp hwj
    obtain rfl : p' = p := Option.some.inj (hj'.symm.trans hj)
    have hbefore : ¬ writesIn o.record (ops.take i) = 0 := by
      rw [writesIn_take_eq_zero]
      intro h
      rw [h j hji] at hwj
      exact absurd hwj (by simp)
    rw [locOf_eq hb plan (List.mem_of_getElem? hi), locOf_eq hb plan (List.mem_of_getElem? hj),
      opType_read hb hi hw, opType_write hb hj hwp, if_neg hbefore]
    -- the write is its record's last exactly when no write follows the read
    have hafter : writesIn p'.record (ops.drop (j + 1)) = 0 ↔
        writesIn o.record (ops.drop (i + 1)) = 0 := by
      rw [writesIn_drop_eq_zero, writesIn_drop_eq_zero, hrec]
      constructor
      · exact fun h k hk => h k (by omega)
      · intro h k hk
        rcases Nat.lt_trichotomy k i with hki | rfl | hki
        · exact hbetween k hk hki
        · rw [writesAt, hi]
          simp [hw]
        · exact h k hki
    by_cases hz : writesIn o.record (ops.drop (i + 1)) = 0
    · rw [if_pos hz, if_pos (hafter.mpr hz)]
      rfl
    · have htp : opType ops p' = .versionWrite := by
        rw [opType_write hb hj hwp, if_neg (fun h => hz (hafter.mp h))]
      have hsucc := verRank_succ hb hi hj hrec hji htp hbetween
      have hlt := verRank_lt hb (List.mem_of_getElem? hi)
      rw [if_neg hz, if_neg (fun h => hz (hafter.mp h)), rwLocation, rwLocation, hsucc,
        Timeline.sub32]
      omega

end

/-! ### Several planners and one plan

    The planners of all tables scatter into the same plan. -/

theorem Batch.sublist {ops ops' : List Op} (hb : Batch ops) (h : ops'.Sublist ops) : Batch ops' :=
  ⟨fun o ho => hb.record_lt o (h.subset ho), fun o ho => hb.txn_lt o (h.subset ho),
    fun o ho => hb.offset_lt o (h.subset ho), hb.ordered.sublist h, hb.words.sublist h⟩

/-- A planner writes the plan words of its own batch only. -/
theorem planOf_of_notMem {ops : List Op} (hb : Batch ops) (plan : ExecPlan) {w : ℕ × ℕ}
    (hw : ∀ o ∈ ops, (o.txn, o.offset) ≠ w) : planOf ops plan w = plan w := by
  rw [planOf, initializeExecutionPlan]
  split
  · rfl
  · simp only [sortedOps_encode hb, rwOpsType_eq hb, tverWriteOpsBefore_eq hb]
    rw [List.zip_map', List.zip_map', List.foldl_map]
    have hfold := foldl_keyedStep (fun p : Op => (getTxnId p.encode, getOffset p.encode))
      (fun p _ => rwLocation (opType ops p) (verRank ops p)) w (sortedBatch ops) plan
    have hnil : (sortedBatch ops).filter
        (fun p => (getTxnId p.encode, getOffset p.encode) = w) = [] := by
      rw [List.filter_eq_nil_iff]
      intro p hp
      have hfits := fits_sorted hb hp
      rw [Op.getTxnId_encode hfits, Op.getOffset_encode hfits]
      simpa using hw p (mem_stableSort.mp hp)
    rw [hnil] at hfold
    exact hfold

theorem Located.congr {ops : List Op} {loc loc' : Op → ℕ} (h : Located ops loc)
    (heq : ∀ o ∈ ops, loc' o = loc o) : Located ops loc' where
  write_last hi hw hl := (heq _ (List.mem_of_getElem? hi)).trans (h.write_last hi hw hl)
  write_version hi hw hij hj := by
    rw [heq _ (List.mem_of_getElem? hi)]
    exact h.write_version hi hw hij hj
  write_inj hi hj hw hw' hlt he := by
    rw [heq _ (List.mem_of_getElem? hi)] at hlt he
    rw [heq _ (List.mem_of_getElem? hj)] at he
    exact h.write_inj hi hj hw hw' hlt he
  read_first hi hw hl := (heq _ (List.mem_of_getElem? hi)).trans (h.read_first hi hw hl)
  read_after hi hw hl hj := by
    rw [heq _ (List.mem_of_getElem? hi), heq _ (List.mem_of_getElem? hj)]
    exact h.read_after hi hw hl hj

section
variable {T : Type} {submitted : T → List Op}

/-- The plan after the planners of all tables. -/
def planAll (submitted : T → List Op) (tables : List T) (plan : ExecPlan) : ExecPlan :=
  tables.foldl (fun plan t => planOf (submitted t) plan) plan

theorem planAll_of_notMem (hb : ∀ t, Batch (submitted t)) {w : ℕ × ℕ} {tables : List T}
    (hw : ∀ t ∈ tables, ∀ o ∈ submitted t, (o.txn, o.offset) ≠ w) (plan : ExecPlan) :
    planAll submitted tables plan w = plan w := by
  induction tables generalizing plan with
  | nil => rfl
  | cons t ts ih =>
    rw [planAll, List.foldl_cons]
    refine (ih (fun t' ht' => hw t' (by simp [ht'])) _).trans ?_
    exact planOf_of_notMem (hb t) plan (hw t (by simp))

/-- Tables with separate plan words: the common plan locates every table's batch. -/
theorem planAll_eq_locOf (hb : ∀ t, Batch (submitted t))
    (hwords : ∀ {t t'}, t ≠ t' → ∀ o ∈ submitted t, ∀ o' ∈ submitted t',
      (o'.txn, o'.offset) ≠ (o.txn, o.offset))
    {tables : List T} (hnd : tables.Nodup) {t : T} (ht : t ∈ tables) (plan : ExecPlan) {o : Op}
    (ho : o ∈ submitted t) :
    planAll submitted tables plan (o.txn, o.offset) = locOf (submitted t) plan o := by
  obtain ⟨l, r, rfl⟩ := List.append_of_mem ht
  have hr : ∀ t' ∈ r, t ≠ t' := by
    rintro t' ht' rfl
    exact (List.nodup_cons.mp (List.nodup_append.mp hnd).2.1).1 ht'
  rw [planAll, List.foldl_append, List.foldl_cons]
  refine (planAll_of_notMem hb (fun t' ht' o' ho' => hwords (hr t' ht') o ho o' ho') _).trans ?_
  exact (locOf_eq (hb t) _ ho).trans (locOf_eq (hb t) plan ho).symm

theorem located_planAll (hb : ∀ t, Batch (submitted t))
    (hwords : ∀ {t t'}, t ≠ t' → ∀ o ∈ submitted t, ∀ o' ∈ submitted t',
      (o'.txn, o'.offset) ≠ (o.txn, o.offset))
    {tables : List T} (hnd : tables.Nodup) {t : T} (ht : t ∈ tables) (plan : ExecPlan) :
    Located (submitted t) fun o => planAll submitted tables plan (o.txn, o.offset) :=
  (located (hb t) plan).congr fun _ ho => planAll_eq_locOf hb hwords hnd ht plan ho

end

/-! ### Cache slots for records

    A batch is planned with the records' own ids and executed with their slots in the cache. -/

/-- An operation with the slot of its record. -/
def Op.remap (grid : ℕ → ℕ) (o : Op) : Op := { o with record := grid o.record }

section
variable {ops : List Op} {grid : ℕ → ℕ}
  (hinj : ∀ o ∈ ops, ∀ q ∈ ops, grid o.record = grid q.record → o.record = q.record)
include hinj

theorem writesAt_remap {o : Op} (ho : o ∈ ops) (j : ℕ) :
    writesAt (ops.map (Op.remap grid)) (grid o.record) j = writesAt ops o.record j := by
  rw [Bool.eq_iff_iff, writesAt_iff, writesAt_iff]
  constructor
  · rintro ⟨p, hp, hw, hr⟩
    rw [List.getElem?_map] at hp
    obtain ⟨q, hq, rfl⟩ := Option.map_eq_some_iff.mp hp
    exact ⟨q, hq, hw, hinj q (List.mem_of_getElem? hq) o ho hr⟩
  · rintro ⟨q, hq, hw, hr⟩
    exact ⟨q.remap grid, by rw [List.getElem?_map, hq]; rfl, hw, congrArg grid hr⟩

theorem lastWriteBefore_remap {o : Op} (ho : o ∈ ops) (i : ℕ) :
    lastWriteBefore (ops.map (Op.remap grid)) (grid o.record) i =
      lastWriteBefore ops o.record i := by
  rw [lastWriteBefore, lastWriteBefore]
  exact congrArg List.getLast? (List.filter_congr fun j _ => writesAt_remap hinj ho j)

/-- Distinct slots for distinct records: the locations serve the remapped batch as well. -/
theorem Located.remap {loc : Op → ℕ} (h : Located ops fun o => loc (o.remap grid)) :
    Located (ops.map (Op.remap grid)) loc := by
  have hget : ∀ {i : ℕ} {x : Op}, (ops.map (Op.remap grid))[i]? = some x →
      ∃ o, ops[i]? = some o ∧ x = o.remap grid := by
    intro i x hx
    rw [List.getElem?_map] at hx
    obtain ⟨o, ho, rfl⟩ := Option.map_eq_some_iff.mp hx
    exact ⟨o, ho, rfl⟩
  refine ⟨?_, ?_, ?_, ?_, ?_⟩
  · intro i x hx hw hl
    obtain ⟨o, ho, rfl⟩ := hget hx
    refine h.write_last ho hw fun j hj => ?_
    rw [← writesAt_remap hinj (List.mem_of_getElem? ho)]
    exact hl j hj
  · intro i j x hx hw hij hj
    obtain ⟨o, ho, rfl⟩ := hget hx
    exact h.write_version ho hw hij ((writesAt_remap hinj (List.mem_of_getElem? ho) j).symm.trans hj)
  · intro i j x y hx hy hw hw' hlt he
    obtain ⟨o, ho, rfl⟩ := hget hx
    obtain ⟨q, hq, rfl⟩ := hget hy
    exact h.write_inj ho hq hw hw' hlt he
  · intro i x hx hw hl
    obtain ⟨o, ho, rfl⟩ := hget hx
    exact h.read_first ho hw ((lastWriteBefore_remap hinj (List.mem_of_getElem? ho) i).symm.trans hl)
  · intro i j x y hx hw hl hy
    obtain ⟨o, ho, rfl⟩ := hget hx
    obtain ⟨q, hq, rfl⟩ := hget hy
    exact h.read_after ho hw
      ((lastWriteBefore_remap hinj (List.mem_of_getElem? ho) i).symm.trans hl) hq

end

/-! ### Batches made of blocks -/

/-- The blocks of a batch, one after another: each has its own part of the plan words, and its
    operations belong to one transaction. -/
theorem batch_of_blocks {α : Type} {params : List α} (block : ℕ → α → List Op)
    (part : ℕ × ℕ → ℕ) {txnOf : ℕ → ℕ} (hmono : Monotone txnOf)
    (hfits : ∀ x ∈ params.zipIdx, ∀ o ∈ block x.2 x.1, o.Fits)
    (hpart : ∀ x ∈ params.zipIdx, ∀ o ∈ block x.2 x.1,
      part (o.txn, o.offset) = x.2 ∧ o.txn = txnOf x.2)
    (hwords : ∀ x ∈ params.zipIdx, (block x.2 x.1).Pairwise fun o q => o.offset ≠ q.offset) :
    Batch (params.zipIdx.flatMap fun x => block x.2 x.1) := by
  have hmem : ∀ {o}, o ∈ params.zipIdx.flatMap (fun x => block x.2 x.1) → o.Fits := by
    intro o ho
    obtain ⟨x, hx, ho⟩ := List.mem_flatMap.mp ho
    exact hfits x hx o ho
  refine ⟨fun o ho => (hmem ho).record_lt, fun o ho => (hmem ho).txn_lt,
    fun o ho => (hmem ho).offset_lt, ?_, ?_⟩
  · refine List.pairwise_flatMap.mpr ⟨fun x hx => ?_, ?_⟩
    · refine List.pairwise_of_forall_mem_list fun o ho q hq => ?_
      rw [(hpart x hx o ho).2, (hpart x hx q hq).2]
    · refine (zipIdx_increasing params).imp_of_mem fun {x y} hx hy hxy o ho q hq => ?_
      rw [(hpart x hx o ho).2, (hpart y hy q hq).2]
      exact hmono hxy.le
  · refine List.pairwise_flatMap.mpr ⟨fun x hx => ?_, ?_⟩
    · exact (hwords x hx).imp fun hne he => hne (Prod.mk.inj he).2
    · refine (zipIdx_increasing params).imp_of_mem fun {x y} hx hy hxy o ho q hq he => ?_
      have h := (hpart x hx o ho).1
      rw [he, (hpart y hy q hq).1] at h
      omega

end Egad.Planner
