import Egad.Planner.Encoding

/-! # How many scratch versions a batch needs

    A write goes to a scratch version when another write of its record follows it, and the planner
    numbers these writes from 0. So a batch needs

        writes − records written

    versions, its largest version location is one less, and a reader's location is that of a write
    before it. All of it is about the words as the planner decodes them, whatever they were made
    from. -/

namespace Egad.Planner
open Egad.Lib

/-- The writes of the record of `a` in a list of words. -/
def writesLike (a : ℕ) (l : List ℕ) : ℕ :=
  ((l.filter fun b => getRecordId b = getRecordId a).map writeExtractor).sum

/-- The words that write. -/
def writeWords (l : List ℕ) : List ℕ := l.filter fun w => getRW w = 1

/-- The records that are written. -/
def writtenRecords (l : List ℕ) : List ℕ := ((writeWords l).map getRecordId).dedup

/-- The types of the words behind `pre`. -/
def typesFrom (pre : List ℕ) : List ℕ → List OperationT
  | [] => []
  | a :: l => calcOperationType a (writesLike a pre) (writesLike a l) :: typesFrom (pre ++ [a]) l

/-- The version writes of a list of words. -/
def versionWrites (l : List ℕ) : ℕ := (typesFrom [] l).countP fun ty => ty = .versionWrite

/-! ### Types of the sorted words -/

theorem writesLike_pos {a : ℕ} {l : List ℕ} :
    writesLike a l ≠ 0 ↔ ∃ b ∈ l, getRecordId b = getRecordId a ∧ getRW b = 1 := by
  induction l with
  | nil => simp [writesLike]
  | cons b l ih =>
    rw [writesLike] at ih ⊢
    by_cases hr : getRecordId b = getRecordId a
    · by_cases hw : getRW b = 1
      · simp [hr, hw, writeExtractor]
      · simp only [List.filter_cons, hr, decide_true, if_true, List.map_cons, List.sum_cons,
          writeExtractor, if_false, Nat.zero_add, List.exists_mem_cons_iff, hw, and_false, false_or]
        exact ih
    · simp only [List.filter_cons, hr, decide_false, Bool.false_eq_true, if_false,
        List.exists_mem_cons_iff, false_and, false_or]
      exact ih

@[simp] theorem length_typesFrom (l : List ℕ) : ∀ pre, (typesFrom pre l).length = l.length := by
  induction l with
  | nil => intro pre; rfl
  | cons a l ih => intro pre; rw [typesFrom, List.length_cons, ih, List.length_cons]

theorem typesFrom_append (r : List ℕ) (l : List ℕ) : ∀ (pre : List ℕ) (a : ℕ),
    (typesFrom pre (l ++ a :: r))[l.length]? =
      some (calcOperationType a (writesLike a (pre ++ l)) (writesLike a r)) := by
  induction l with
  | nil =>
    intro pre a
    simp [typesFrom]
  | cons b l ih =>
    intro pre a
    rw [List.cons_append, typesFrom, List.length_cons, List.getElem?_cons_succ, ih,
      List.append_assoc, List.singleton_append]

theorem rwOpsType_sorted {ws : List ℕ}
    (hs : ws.Pairwise fun a b => getRecordId a ≤ getRecordId b) : rwOpsType ws = typesFrom [] ws := by
  have hsplit : ∀ l a r, ws = l ++ a :: r → (rwOpsType ws)[l.length]? = (typesFrom [] ws)[l.length]? := by
    intro l a r hws
    have hbefore : (writeOpsBefore ws)[l.length]? = some (writesLike a l) := by
      rw [writeOpsBefore, hws]
      exact getElem?_exclusiveSumByKey writeExtractor
        (fun a b c hab hbc hac => le_antisymm hbc (hac ▸ hab)) l a r (hws ▸ hs)
    have hafter : (writeOpsAfter ws)[l.length]? = some (writesLike a r) := by
      have hrev : ws.reverse = r.reverse ++ a :: l.reverse := by
        rw [hws, List.reverse_append, List.reverse_cons, List.append_assoc, List.singleton_append]
      have hget := getElem?_exclusiveSumByKey writeExtractor
        (fun a b c (hab : getRecordId b ≤ getRecordId a) hbc hac => le_antisymm (hac ▸ hab) hbc)
        r.reverse a l.reverse (hrev ▸ List.pairwise_reverse.mpr hs)
      have hlen : ws.length = l.length + (r.length + 1) := by rw [hws]; simp
      have hperm := (List.reverse_perm (r.filter fun b => getRecordId b = getRecordId a)).map writeExtractor
      rw [List.filter_reverse, hperm.sum_eq, List.length_reverse] at hget
      rw [writeOpsAfter, List.getElem?_reverse (by simp [hlen]), length_exclusiveSumByKey,
        List.length_reverse, hlen, hrev, writesLike, ← hget]
      congr 1
      omega
    have hzip : ((writeOpsBefore ws).zip (writeOpsAfter ws))[l.length]? =
        some (writesLike a l, writesLike a r) := by
      rw [List.getElem?_zip_eq_some]
      exact ⟨hbefore, hafter⟩
    have hword : ws[l.length]? = some a := by rw [hws]; simp
    rw [rwOpsType, List.getElem?_zipWith, hword, hzip, hws, typesFrom_append, List.nil_append]
  refine List.ext_getElem? fun i => ?_
  rcases Nat.lt_or_ge i ws.length with hi | hi
  · have hws : ws = ws.take i ++ ws[i] :: ws.drop (i + 1) := by
      rw [← List.drop_eq_getElem_cons hi, List.take_append_drop]
    have h := hsplit _ _ _ hws
    rwa [List.length_take, Nat.min_eq_left hi.le] at h
  · rw [List.getElem?_eq_none (by simpa [rwOpsType, writeOpsBefore, writeOpsAfter] using hi),
      List.getElem?_eq_none (by simpa using hi)]

/-! ### The number of version writes -/

theorem calcOperationType_versionWrite {op before after : ℕ} :
    calcOperationType op before after = .versionWrite ↔ getRW op = 1 ∧ after ≠ 0 := by
  rw [calcOperationType]
  split_ifs <;> simp_all

/-- Of a record's writes all but the last are version writes. -/
theorem versionWrites_from (l : List ℕ) : ∀ pre,
    ((typesFrom pre l).countP fun ty => ty = .versionWrite) + (writtenRecords l).length =
      (writeWords l).length := by
  induction l with
  | nil => intro pre; rfl
  | cons a l ih =>
    intro pre
    have ih := ih (pre ++ [a])
    rw [typesFrom, List.countP_cons]
    simp only [writtenRecords, writeWords, List.filter_cons, decide_eq_true_eq,
      calcOperationType_versionWrite] at ih ⊢
    by_cases hw : getRW a = 1
    · have hmem : getRecordId a ∈ (l.filter fun w => getRW w = 1).map getRecordId ↔
          writesLike a l ≠ 0 := by
        rw [writesLike_pos]
        simp only [List.mem_map, List.mem_filter, decide_eq_true_eq]
        exact ⟨fun ⟨b, ⟨hb, hbw⟩, he⟩ => ⟨b, hb, he, hbw⟩, fun ⟨b, hb, he, hbw⟩ => ⟨b, ⟨hb, hbw⟩, he⟩⟩
      simp only [hw, if_true, List.map_cons, true_and, List.length_cons]
      by_cases hm : getRecordId a ∈ (l.filter fun w => getRW w = 1).map getRecordId
      · rw [List.dedup_cons_of_mem hm, if_pos (hmem.mp hm)]
        omega
      · rw [List.dedup_cons_of_notMem hm, if_neg (fun h => hm (hmem.mpr h)), List.length_cons]
        omega
    · simp only [hw, if_false, false_and, Nat.add_zero]
      exact ih

/-- Sorting changes neither the writes nor the written records of a batch. -/
theorem versionWrites_sortedOps (submitted : List ℕ) :
    versionWrites (sortedOps submitted) + (writtenRecords submitted).length =
      (writeWords submitted).length := by
  have hperm : (writeWords (sortedOps submitted)).Perm (writeWords submitted) :=
    (stableSort_perm getRecordId submitted).filter _
  have hrecords : (writtenRecords (sortedOps submitted)).length = (writtenRecords submitted).length :=
    (hperm.map getRecordId).dedup.length_eq
  rw [← hrecords, ← hperm.length_eq, versionWrites]
  exact versionWrites_from _ []

/-! ### Locations -/

theorem sum_versionWriteExtractor (l : List OperationT) :
    (l.map versionWriteExtractor).sum = l.countP fun ty => ty = .versionWrite := by
  induction l with
  | nil => rfl
  | cons ty l ih =>
    rw [List.map_cons, List.sum_cons, ih, List.countP_cons, versionWriteExtractor]
    by_cases h : ty = .versionWrite <;> simp [h, Nat.add_comm]

theorem tverWriteOpsBefore_append (l : List OperationT) (ty : OperationT) (r : List OperationT) :
    (tverWriteOpsBefore (l ++ ty :: r))[l.length]? =
      some (l.countP fun ty => ty = .versionWrite) := by
  have hget := getElem?_exclusiveSum (l.map versionWriteExtractor) (versionWriteExtractor ty)
    (r.map versionWriteExtractor)
  rw [sum_versionWriteExtractor, List.length_map] at hget
  rw [tverWriteOpsBefore, List.map_append, List.map_cons, hget]

/-- A planned word with its type and its count: the types before it and behind it. -/
theorem mem_plannedOps {submitted : List ℕ} {x : ℕ × OperationT × ℕ} :
    x ∈ plannedOps submitted ↔ ∃ i, (sortedOps submitted)[i]? = some x.1 ∧
      ∃ l r, typesFrom [] (sortedOps submitted) = l ++ x.2.1 :: r ∧ l.length = i ∧
        x.2.2 = l.countP fun ty => ty = .versionWrite := by
  have hsorted : (sortedOps submitted).Pairwise fun a b => getRecordId a ≤ getRecordId b :=
    stableSort_sorted getRecordId submitted
  simp only [plannedOps]
  rw [rwOpsType_sorted hsorted, List.mem_iff_getElem?]
  refine exists_congr fun i => ?_
  rw [List.getElem?_zip_eq_some, List.getElem?_zip_eq_some]
  refine and_congr_right fun _ => ?_
  constructor
  · rintro ⟨htype, hver⟩
    obtain ⟨hi, hget⟩ := List.getElem?_eq_some_iff.mp htype
    have hsplit : typesFrom [] (sortedOps submitted) =
        (typesFrom [] (sortedOps submitted)).take i ++ x.2.1 ::
          (typesFrom [] (sortedOps submitted)).drop (i + 1) := by
      rw [← hget, ← List.drop_eq_getElem_cons hi, List.take_append_drop]
    have hlen : ((typesFrom [] (sortedOps submitted)).take i).length = i := by
      rw [List.length_take, Nat.min_eq_left hi.le]
    have happ := tverWriteOpsBefore_append ((typesFrom [] (sortedOps submitted)).take i) x.2.1
      ((typesFrom [] (sortedOps submitted)).drop (i + 1))
    rw [← hsplit, hlen, hver] at happ
    exact ⟨_, _, hsplit, hlen, Option.some.inj happ⟩
  · rintro ⟨l, r, htypes, rfl, hver⟩
    rw [htypes, tverWriteOpsBefore_append, hver]
    exact ⟨by simp, rfl⟩

/-- A read of a scratch version follows the write of that version. -/
theorem versionRead_follows {ws : List ℕ} {l r : List OperationT}
    (h : typesFrom [] ws = l ++ .versionRead :: r) : OperationT.versionWrite ∈ l := by
  have hlen : l.length < ws.length := by
    have := congrArg List.length h
    rw [length_typesFrom, List.length_append, List.length_cons] at this
    omega
  have hws : ws = ws.take l.length ++ ws[l.length] :: ws.drop (l.length + 1) := by
    rw [← List.drop_eq_getElem_cons hlen, List.take_append_drop]
  have htake : (ws.take l.length).length = l.length := by
    rw [List.length_take, Nat.min_eq_left hlen.le]
  generalize ws.take l.length = pre, ws[l.length] = a, ws.drop (l.length + 1) = post at hws htake
  have htype : some OperationT.versionRead =
      some (calcOperationType a (writesLike a pre) (writesLike a post)) := by
    rw [← List.nil_append pre, ← typesFrom_append post pre [] a, ← hws, htake, h]
    simp
  -- the record is written before the read and behind it
  have hboth : writesLike a pre ≠ 0 ∧ writesLike a post ≠ 0 := by
    have htype := Option.some.inj htype
    rw [calcOperationType] at htype
    split_ifs at htype
    exact ⟨‹_›, ‹_›⟩
  obtain ⟨b, hb, hrec, hwrite⟩ := writesLike_pos.mp hboth.1
  obtain ⟨c, hc, hrec', hwrite'⟩ := writesLike_pos.mp hboth.2
  obtain ⟨u, v, rfl⟩ := List.append_of_mem hb
  have hver : (typesFrom [] ws)[u.length]? = some .versionWrite := by
    rw [hws, List.append_assoc, List.cons_append, typesFrom_append, Option.some.injEq,
      calcOperationType_versionWrite, writesLike_pos]
    exact ⟨hwrite, c, by simp [hc], by rw [hrec', hrec], hwrite'⟩
  have hlt : u.length < l.length := by
    rw [← htake, List.length_append, List.length_cons]
    omega
  rw [h, List.getElem?_append_left hlt] at hver
  exact List.mem_of_getElem? hver

/-- The last element with a property has all others before it. -/
theorem exists_last_of_countP {α : Type*} {p : α → Bool} : ∀ {l : List α}, 0 < l.countP p →
    ∃ u a v, l = u ++ a :: v ∧ p a = true ∧ u.countP p + 1 = l.countP p
  | [], h => absurd h (by simp)
  | a :: l, h => by
    by_cases hl : 0 < l.countP p
    · obtain ⟨u, b, v, rfl, hb, hcount⟩ := exists_last_of_countP hl
      refine ⟨a :: u, b, v, rfl, hb, ?_⟩
      rw [List.countP_cons, List.countP_cons, ← hcount]
      omega
    · have hzero : l.countP p = 0 := Nat.eq_zero_of_not_pos hl
      rw [List.countP_cons, hzero] at h ⊢
      have hp : p a = true := by
        by_contra hp
        rw [if_neg hp] at h
        exact absurd h (by simp)
      exact ⟨[], a, l, rfl, hp, by rw [if_pos hp]; rfl⟩

/-- A word that is sent to a scratch version. -/
def OperationT.isScratch (ty : OperationT) : Bool := ty = .versionWrite ∨ ty = .versionRead

/-- Every version location of a batch is below `entries` exactly when the writes of the batch,
    without one for each record it writes, are at most `entries`. -/
theorem scratch_lt_iff (submitted : List ℕ) (entries : ℕ) :
    (∀ x ∈ plannedOps submitted, x.2.1.isScratch → rwLocation x.2.1 x.2.2 < entries) ↔
      (writeWords submitted).length ≤ entries + (writtenRecords submitted).length := by
  have hcount := versionWrites_sortedOps submitted
  have hversions : (∀ x ∈ plannedOps submitted, x.2.1.isScratch → rwLocation x.2.1 x.2.2 < entries) ↔
      versionWrites (sortedOps submitted) ≤ entries := by
    constructor
    · intro h
      by_contra hlt
      have hpos : 0 < (typesFrom [] (sortedOps submitted)).countP fun ty => ty = .versionWrite :=
        Nat.lt_of_le_of_lt (Nat.zero_le _) (Nat.lt_of_not_le hlt)
      obtain ⟨u, ty, v, hsplit, hty, hlast⟩ := exists_last_of_countP hpos
      have hty := of_decide_eq_true hty
      subst hty
      have hi : u.length < (sortedOps submitted).length := by
        have := congrArg List.length hsplit
        rw [length_typesFrom, List.length_append, List.length_cons] at this
        omega
      have hloc := h ((sortedOps submitted)[u.length], .versionWrite, _)
        (mem_plannedOps.mpr ⟨u.length, List.getElem?_eq_getElem hi, u, v, hsplit, rfl, rfl⟩) rfl
      have hlast : (u.countP fun ty => ty = .versionWrite) + 1 =
          versionWrites (sortedOps submitted) := hlast
      have hloc : (u.countP fun ty => ty = .versionWrite) < entries := hloc
      omega
    · rintro hle ⟨w, ty, ver⟩ hx hscratch
      obtain ⟨i, -, l, r, htypes, -, hver⟩ := mem_plannedOps.mp hx
      simp only at htypes hver
      have htotal : versionWrites (sortedOps submitted) =
          (l.countP fun ty => ty = .versionWrite) + (if ty = .versionWrite then 1 else 0) +
            r.countP fun ty => ty = .versionWrite := by
        rw [versionWrites, htypes, List.countP_append, List.countP_cons]
        simp only [decide_eq_true_eq]
        omega
      rcases of_decide_eq_true hscratch with rfl | rfl
      · simp only [rwLocation, hver]
        rw [if_pos rfl] at htotal
        omega
      · have hpos : 0 < l.countP fun ty => ty = .versionWrite :=
          List.countP_pos_iff.mpr ⟨_, versionRead_follows htypes, by simp⟩
        simp only [rwLocation, Timeline.sub32, hver]
        have hmod : (l.countP (fun ty => ty = .versionWrite) + 2 ^ 32 - 1) % 2 ^ 32 ≤
            l.countP (fun ty => ty = .versionWrite) - 1 := by
          rw [show l.countP (fun ty => ty = .versionWrite) + 2 ^ 32 - 1 =
            l.countP (fun ty => ty = .versionWrite) - 1 + 2 ^ 32 by omega, Nat.add_mod_right]
          exact Nat.mod_le _ _
        omega
  rw [hversions]
  omega

end Egad.Planner
