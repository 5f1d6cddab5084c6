import Egad.Gacco.Model

/-! # The lock queues of a batch

    What the submitter writes for a table is, transaction after transaction, the records of the
    transaction. Sorting it by record and cutting it into runs lays the queues of the records one behind
    the other in `access`; `offset` and `lock` point at their fronts. -/

namespace Egad.Gacco
open Egad.Lib
open Egad.Tpcc (TableName ItemParam)

/-! ### Words -/

theorem createOp_eq {r x : ℕ} (hx : x < 2 ^ 32) : createOp r x = 2 ^ 32 * r + x := by
  rw [createOp, Nat.shiftLeft_zero, Nat.shiftLeft_eq, Nat.mul_comm, Nat.two_pow_add_eq_or_of_lt hx]

theorem getRecordId_createOp {r x : ℕ} (hr : r < 2 ^ 32) (hx : x < 2 ^ 32) :
    getRecordId (createOp r x) = r := by
  have hmask : 0xFFFFFFFF00000000 >>> 32 = 2 ^ 32 - 1 := by decide
  rw [getRecordId, Nat.shiftRight_and_distrib, hmask, Nat.and_two_pow_sub_one_eq_mod, createOp_eq hx,
    Nat.shiftRight_eq_div_pow]
  omega

theorem getTxnId_createOp {r x : ℕ} (hx : x < 2 ^ 32) : getTxnId (createOp r x) = x := by
  have hmask : 0x00000000FFFFFFFF = 2 ^ 32 - 1 := by decide
  rw [getTxnId, Nat.shiftRight_zero, hmask, Nat.and_two_pow_sub_one_eq_mod, createOp_eq hx]
  omega

/-! ### What is submitted -/

/-- Record ids of 32 bits. -/
def TxnParams.Ok : TxnParams → Prop
  | .newOrder w d c no o items => w < 2 ^ 32 ∧ d < 2 ^ 32 ∧ c < 2 ^ 32 ∧ no < 2 ^ 32 ∧ o < 2 ^ 32 ∧
    ∀ x ∈ items, x.itemId < 2 ^ 32 ∧ x.stockId < 2 ^ 32 ∧ x.orderLineId < 2 ^ 32
  | .payment w d c => w < 2 ^ 32 ∧ d < 2 ^ 32 ∧ c < 2 ^ 32

/-- The entries of a table, as records with transaction ids. -/
def entries (cfg : Config) (t : TableName) (txns : List TxnParams) : List (ℕ × ℕ) :=
  txns.zipIdx.flatMap fun x => (submitRecords cfg x.1 t).map fun r => (r, x.2)

/-- The queue of a lock: the transactions that submitted it, in the order of submission. -/
def queue (cfg : Config) (txns : List TxnParams) (k : Key) : List ℕ :=
  ((entries cfg k.1 txns).filter fun e => e.1 = k.2).map Prod.snd

/-- The transaction ids of the operations that were submitted for a record, as they stand in
    `d_submitted_ops`. -/
def submittedFor (cfg : Config) (t : TableName) (old : ℕ → ℕ) (txns : List TxnParams) (r : ℕ) : List ℕ :=
  (((List.range (currNumOps cfg t txns)).map (submitTpccTxns cfg t old txns)).filter fun op =>
    getRecordId op = r).map getTxnId

theorem submitRecords_lt {cfg : Config} {p : TxnParams} (hp : p.Ok) {t : TableName} {r : ℕ}
    (hr : r ∈ submitRecords cfg p t) : r < 2 ^ 32 := by
  cases p with
  | newOrder w d c no o items =>
    obtain ⟨hw, hd, hc, hno, ho, hitems⟩ := hp
    simp only [submitRecords] at hr
    split at hr
    · cases t
      case orderLine | item | stock =>
        obtain ⟨x, hx, rfl⟩ := List.mem_map.mp hr
        exact (by have := hitems x hx; omega)
      all_goals
        rw [List.mem_singleton.mp hr]
        assumption
    · split at hr
      · cases t
        case stock =>
          obtain ⟨x, hx, rfl⟩ := List.mem_map.mp hr
          exact (hitems x hx).2.1
        all_goals exact absurd hr List.not_mem_nil
      · exact absurd hr List.not_mem_nil
  | payment w d c =>
    obtain ⟨hw, hd, hc⟩ := hp
    simp only [submitRecords] at hr
    split at hr
    · cases t
      case warehouse | district | customer =>
        rw [List.mem_singleton.mp hr]
        assumption
      all_goals exact absurd hr List.not_mem_nil
    · exact absurd hr List.not_mem_nil

/-- The space that is counted is the space that is written. -/
theorem prepareSubmit_eq (cfg : Config) (p : TxnParams) (t : TableName) :
    prepareSubmitTpccTxn cfg p t = (submitRecords cfg p t).length := by
  obtain ⟨useAtomic, stockUseAtomic⟩ := cfg
  cases p <;> cases useAtomic <;> cases stockUseAtomic <;> cases t <;>
    simp [prepareSubmitTpccTxn, submitRecords]

/-- Blocks copied to the sums of the lengths before them stand one behind the other. -/
theorem copyAt_blocks {α : Type} (f : α → List ℕ) (xs : List α) :
    ∀ (acc : ℕ) (dest : ℕ → ℕ),
      (List.range (acc + (xs.map fun x => (f x).length).sum)).map
        ((xs.zip (exclusiveSumFrom acc ((xs.map fun x => (f x).length) ++ [0]))).foldl
          (fun dest x => copyAt dest x.2 (f x.1)) dest) =
      (List.range acc).map dest ++ xs.flatMap f := by
  induction xs with
  | nil =>
    intro acc dest
    simp
  | cons x xs ih =>
    intro acc dest
    rw [List.map_cons, List.cons_append, exclusiveSumFrom, List.zip_cons_cons, List.foldl_cons,
      List.sum_cons, ← Nat.add_assoc, ih, copyAt_range, List.flatMap_cons, List.append_assoc]

theorem submitted_eq (cfg : Config) (t : TableName) (old : ℕ → ℕ) (txns : List TxnParams) :
    (List.range (currNumOps cfg t txns)).map (submitTpccTxns cfg t old txns) =
      (entries cfg t txns).map fun e => createOp e.1 e.2 := by
  have hlen : (txns.map fun p => prepareSubmitTpccTxn cfg p t) =
      txns.zipIdx.map fun x => (submitTpccTxn cfg t x.2 x.1).length := by
    conv_lhs => rw [← List.zipIdx_map_fst 0 txns, List.map_map]
    refine List.map_congr_left fun x _ => ?_
    rw [Function.comp_apply, prepareSubmit_eq, submitTpccTxn, List.length_map]
  have hcount : currNumOps cfg t txns =
      0 + (txns.zipIdx.map fun x => (submitTpccTxn cfg t x.2 x.1).length).sum := by
    have hget := getElem?_exclusiveSum (txns.zipIdx.map fun x => (submitTpccTxn cfg t x.2 x.1).length) 0 []
    rw [List.length_map, List.length_zipIdx] at hget
    rw [currNumOps, opOffsets, hlen, List.getD_eq_getElem?_getD, hget, Option.getD_some, Nat.zero_add]
  have hblocks := copyAt_blocks (fun x : TxnParams × ℕ => submitTpccTxn cfg t x.2 x.1) txns.zipIdx 0 old
  rw [hcount, submitTpccTxns, opOffsets, hlen, exclusiveSum, hblocks, List.range_zero, List.map_nil,
    List.nil_append, entries, List.map_flatMap]
  refine List.flatMap_congr fun x _ => ?_
  rw [submitTpccTxn, List.map_map]
  rfl

/-! ### The queues in memory -/

@[simp] theorem buildAux_access (zs : List (ℕ × ℕ)) (l : TableLock) :
    (zs.foldl buildAuxArray l).access = l.access := by
  induction zs generalizing l with
  | nil => rfl
  | cons z zs ih =>
    rw [List.foldl_cons, ih]
    rfl

theorem buildAux_of_notMem {zs : List (ℕ × ℕ)} {r : ℕ} (h : r ∉ zs.map Prod.fst) (l : TableLock) :
    (zs.foldl buildAuxArray l).offset r = l.offset r ∧ (zs.foldl buildAuxArray l).lock r = l.lock r := by
  induction zs generalizing l with
  | nil => exact ⟨rfl, rfl⟩
  | cons z zs ih =>
    rw [List.map_cons, List.mem_cons, not_or] at h
    obtain ⟨h1, h2⟩ := ih h.2 (buildAuxArray l z)
    rw [List.foldl_cons, h1, h2]
    exact ⟨Function.update_of_ne h.1 .., Function.update_of_ne h.1 ..⟩

/-- Every row gets its own entry. -/
theorem buildAux_of_mem {pre post : List (ℕ × ℕ)} {r off : ℕ} (h : r ∉ post.map Prod.fst)
    (l : TableLock) :
    ((pre ++ (r, off) :: post).foldl buildAuxArray l).offset r = off ∧
      ((pre ++ (r, off) :: post).foldl buildAuxArray l).lock r = l.access off := by
  obtain ⟨h1, h2⟩ := buildAux_of_notMem h (buildAuxArray (pre.foldl buildAuxArray l) (r, off))
  rw [List.foldl_append, List.foldl_cons, h1, h2]
  simp [buildAuxArray]

theorem exclusiveSumFrom_append (l r : List ℕ) (n : ℕ) : ∀ acc,
    exclusiveSumFrom acc (l ++ n :: r) =
      exclusiveSumFrom acc l ++ (acc + l.sum) :: exclusiveSumFrom (acc + l.sum + n) r := by
  induction l with
  | nil =>
    intro acc
    simp [exclusiveSumFrom]
  | cons m l ih =>
    intro acc
    rw [List.cons_append, exclusiveSumFrom, ih, exclusiveSumFrom, List.sum_cons, Nat.add_assoc,
      List.cons_append]

/-- The row of a run stands beside the sum of the lengths of the runs before it. -/
theorem zip_rows (row : List ℕ → ℕ) (pre post : List (List ℕ)) (run : List ℕ) :
    ∃ pre' post', (post'.map Prod.fst : List ℕ) = post.map row ∧
      ((pre ++ run :: post).map row).zip (exclusiveSum ((pre ++ run :: post).map List.length)) =
        pre' ++ (row run, pre.flatten.length) :: post' := by
  refine ⟨(pre.map row).zip (exclusiveSumFrom 0 (pre.map List.length)), (post.map row).zip
    (exclusiveSumFrom (0 + (pre.map List.length).sum + run.length) (post.map List.length)), ?_, ?_⟩
  · rw [List.map_fst_zip]
    rw [length_exclusiveSumFrom, List.length_map, List.length_map]
  · rw [exclusiveSum, List.map_append, List.map_append, List.map_cons, List.map_cons,
      exclusiveSumFrom_append, List.zip_append, List.zip_cons_cons, Nat.zero_add, List.length_flatten]
    rw [length_exclusiveSumFrom, List.length_map, List.length_map]

/-- `offset` and `lock` point at the front of a queue that stands in `access`. -/
structure Laid (l : TableLock) (r : ℕ) (Q : List ℕ) (base : ℕ) : Prop where
  offset : l.offset r = base
  lock : l.lock r = l.access base
  access : ∀ j q, Q[j]? = some q → l.access (base + j) = q

/-- The run of a record in the sorted list: its row in the plan is the last one of the record, and its
    offset is where the run stands. -/
theorem unique_run {sorted : List ℕ} (hsorted : sorted.Pairwise fun a b => getRecordId a ≤ getRecordId b)
    {w : ℕ} (hw : w ∈ sorted) :
    ∃ pre post base, getRecordId w ∉ post.map Prod.fst ∧
      ((uniqueRows sorted).map Prod.fst).zip (exclusiveSum ((uniqueRows sorted).map Prod.snd)) =
        pre ++ (getRecordId w, base) :: post ∧
      ∀ j v, (sorted.filter fun v => getRecordId v = getRecordId w)[j]? = some v →
        sorted[base + j]? = some v := by
  have hflat := List.flatten_splitBy (fun a b => getRecordId a == getRecordId b) sorted
  rw [← hflat] at hw
  obtain ⟨run, hrun, hw⟩ := List.mem_flatten.mp hw
  obtain ⟨pre, post, hsplit⟩ := List.append_of_mem hrun
  obtain ⟨hl, hfilter⟩ := splitBy_run hsorted hsplit hw
  have hinc := splitBy_increasing hsorted
  rw [hsplit] at hinc
  have hkey : ∀ r ∈ pre ++ run :: post, ∀ a ∈ r, (r.head?.map getRecordId).getD 0 = getRecordId a := by
    intro r hr a ha
    cases r with
    | nil => exact absurd ha List.not_mem_nil
    | cons b r => exact splitBy_const (hsplit ▸ hr) List.mem_cons_self ha
  obtain ⟨pre', post', hpost, hzip⟩ :=
    zip_rows (fun run => (run.head?.map getRecordId).getD 0) pre post run
  refine ⟨pre', post', pre.flatten.length, ?_, ?_, fun j v hj => ?_⟩
  · rw [hpost]
    intro hin
    obtain ⟨run', hrun', heq⟩ := List.mem_map.mp hin
    have hmem : run' ∈ pre ++ run :: post := List.mem_append_right _ (List.mem_cons_of_mem _ hrun')
    obtain ⟨b, hb⟩ := List.exists_mem_of_ne_nil run' (List.ne_nil_of_mem_splitBy (hsplit ▸ hmem))
    have hlt := (List.pairwise_cons.mp (List.pairwise_append.mp hinc).2.1).1 run' hrun' w hw b hb
    rw [← heq, hkey run' hmem b hb] at hlt
    exact lt_irrefl _ hlt
  · rw [hkey run (List.mem_append_right _ List.mem_cons_self) w hw] at hzip
    rw [uniqueRows, hsplit, List.map_map, List.map_map]
    exact hzip
  · rw [hfilter] at hj
    rw [hl, List.getElem?_append_right (Nat.le_add_right _ _), Nat.add_sub_cancel_left,
      List.getElem?_append_left (List.getElem?_eq_some_iff.mp hj).1, hj]

/-- The plan lays out the queue of every record that was submitted. -/
theorem plan_laid {ws : List ℕ} {w : ℕ} (hw : w ∈ ws) (l : TableLock) :
    ∃ base, Laid (initializeExecutionPlan ws l) (getRecordId w)
      ((ws.filter fun v => getRecordId v = getRecordId w).map getTxnId) base := by
  have hne : ws.length ≠ 0 := (List.length_pos_of_mem hw).ne'
  obtain ⟨pre, post, base, hnot, hzip, hrun⟩ :=
    unique_run (stableSort_sorted getRecordId ws) (mem_stableSort.mpr hw)
  rw [filter_key_stableSort] at hrun
  have haccess : (initializeExecutionPlan ws l).access =
      copyAt l.access 0 ((stableSort getRecordId ws).map getTxnId) := by
    rw [initializeExecutionPlan, if_neg hne]
    exact buildAux_access _ _
  obtain ⟨hoff, hlock⟩ := @buildAux_of_mem pre post _ base hnot
    { l with access := copyAt l.access 0 ((stableSort getRecordId ws).map getTxnId) }
  rw [← hzip] at hoff hlock
  refine ⟨base, ?_, ?_, fun j q hj => ?_⟩
  · rw [initializeExecutionPlan, if_neg hne]
    exact hoff
  · rw [haccess, initializeExecutionPlan, if_neg hne]
    exact hlock
  · rw [List.getElem?_map] at hj
    obtain ⟨v, hv, rfl⟩ := Option.map_eq_some_iff.mp hj
    rw [haccess, copyAt, if_pos (Nat.zero_le _), Nat.sub_zero, List.getD_eq_getElem?_getD,
      List.getElem?_map, hrun j v hv, Option.map_some, Option.getD_some]

/-- The entries fit their words. -/
theorem entries_fit {cfg : Config} {txns : List TxnParams} (hok : ∀ p ∈ txns, p.Ok)
    (hlen : txns.length ≤ 2 ^ 32) {t : TableName} {e : ℕ × ℕ} (he : e ∈ entries cfg t txns) :
    getRecordId (createOp e.1 e.2) = e.1 ∧ getTxnId (createOp e.1 e.2) = e.2 := by
  obtain ⟨x, hx, he⟩ := List.mem_flatMap.mp he
  obtain ⟨r, hr, rfl⟩ := List.mem_map.mp he
  obtain ⟨hmem, hlt⟩ := zipIdx_lt hx
  have hx : x.2 < 2 ^ 32 := hlt.trans_le hlen
  exact ⟨getRecordId_createOp (submitRecords_lt (hok _ hmem) hr) hx, getTxnId_createOp hx⟩

/-- The submitted operations of a record carry the transactions of its queue. -/
theorem submittedFor_eq (cfg : Config) {txns : List TxnParams} (hok : ∀ p ∈ txns, p.Ok)
    (hlen : txns.length ≤ 2 ^ 32) (old : ℕ → ℕ) (k : Key) :
    submittedFor cfg k.1 old txns k.2 = queue cfg txns k := by
  have hfilter : (entries cfg k.1 txns).filter
      ((fun v => decide (getRecordId v = k.2)) ∘ fun e => createOp e.1 e.2) =
      (entries cfg k.1 txns).filter fun e => e.1 = k.2 :=
    List.filter_congr fun e he => by rw [Function.comp_apply, (entries_fit hok hlen he).1]
  rw [submittedFor, submitted_eq, List.filter_map, List.map_map, queue, hfilter]
  exact List.map_congr_left fun e he => (entries_fit hok hlen (List.mem_filter.mp he).1).2

/-- The queue of a lock that some transaction submits stands in its table's plan. -/
theorem queue_laid {cfg : Config} {txns : List TxnParams} (hok : ∀ p ∈ txns, p.Ok)
    (hlen : txns.length ≤ 2 ^ 32) {k : Key} (hne : queue cfg txns k ≠ []) (ops : TableName → ℕ → ℕ)
    (old : TableName → TableLock) :
    ∃ base, Laid ((State.init cfg ops old txns).locks k.1) k.2 (queue cfg txns k) base := by
  have hq := submittedFor_eq cfg hok hlen (ops k.1) k
  rw [← hq] at hne ⊢
  obtain ⟨x, hx⟩ := List.exists_mem_of_ne_nil _ hne
  obtain ⟨w, hw, -⟩ := List.mem_map.mp hx
  obtain ⟨hw, hwk⟩ := List.mem_filter.mp hw
  obtain ⟨base, hbase⟩ := plan_laid hw (old k.1)
  rw [of_decide_eq_true hwk] at hbase
  exact ⟨base, hbase⟩

/-! ### What is locked -/

/-- The queues stand in transaction order. -/
theorem queue_sorted (cfg : Config) (txns : List TxnParams) (k : Key) :
    (queue cfg txns k).Pairwise (· ≤ ·) := by
  have hentries : (entries cfg k.1 txns).Pairwise fun e e' => e.2 ≤ e'.2 := by
    rw [entries, List.pairwise_flatMap]
    refine ⟨fun x _ => ?_, ?_⟩
    · refine List.pairwise_map.mpr (List.pairwise_of_forall_mem_list fun r _ r' _ => le_rfl)
    · refine (zipIdx_increasing txns).imp fun {x y} hlt e he e' he' => ?_
      obtain ⟨r, -, rfl⟩ := List.mem_map.mp he
      obtain ⟨r', -, rfl⟩ := List.mem_map.mp he'
      exact hlt.le
  exact List.pairwise_map.mpr (hentries.filter _)

/-- The records of a table whose locks a program acquires, in order. -/
def acquired (t : TableName) (ops : List (LockOp Key)) : List ℕ :=
  ops.filterMap fun
    | .acquire k => if k.1 = t then some k.2 else none
    | .release _ => none

/-- The records of a table whose locks a program releases, in order. -/
def released (t : TableName) (ops : List (LockOp Key)) : List ℕ :=
  ops.filterMap fun
    | .acquire _ => none
    | .release k => if k.1 = t then some k.2 else none

theorem acquired_append (t : TableName) (l l' : List (LockOp Key)) :
    acquired t (l ++ l') = acquired t l ++ acquired t l' := List.filterMap_append

theorem released_append (t : TableName) (l l' : List (LockOp Key)) :
    released t (l ++ l') = released t l ++ released t l' := List.filterMap_append

theorem acquired_flatMap {α : Type} (t : TableName) (f : α → List (LockOp Key)) (l : List α) :
    acquired t (l.flatMap f) = l.flatMap fun x => acquired t (f x) := List.filterMap_flatMap ..

theorem released_flatMap {α : Type} (t : TableName) (f : α → List (LockOp Key)) (l : List α) :
    released t (l.flatMap f) = l.flatMap fun x => released t (f x) := List.filterMap_flatMap ..

/-- In every mode a transaction acquires the locks it submitted, and releases the same. -/
theorem locked_eq_submitted (cfg : Config) (p : TxnParams) (t : TableName) :
    acquired t (gpuExecTpccTxn cfg p) = submitRecords cfg p t ∧
      released t (gpuExecTpccTxn cfg p) = submitRecords cfg p t := by
  obtain ⟨useAtomic, stockUseAtomic⟩ := cfg
  cases p with
  | newOrder w d c no o items =>
    cases useAtomic with
    | true =>
      simp only [gpuExecTpccTxn, if_true, acquired_flatMap, released_flatMap]
      cases stockUseAtomic <;> cases t <;>
        simp [submitRecords, atomicItem, acquired, released, List.map_eq_flatMap]
    | false =>
      simp only [gpuExecTpccTxn, Bool.false_eq_true, if_false, acquired_append, released_append,
        acquired_flatMap, released_flatMap]
      cases t <;>
        simp [submitRecords, lockedItem, acquired, released, List.map_eq_flatMap]
  | payment w d c =>
    cases useAtomic <;> cases t <;> simp [gpuExecTpccTxn, submitRecords, acquired, released]

theorem bracketed_program (cfg : Config) (p : TxnParams) : Bracketed ∅ (gpuExecTpccTxn cfg p) := by
  have hatomic : ∀ x, Bracketed ∅ (atomicItem cfg x) := fun x => by
    rw [atomicItem]
    split <;> simp [Bracketed]
  have hlocked : ∀ x, Bracketed ∅ (lockedItem x) := fun x => by
    simp [lockedItem, Bracketed, Finset.ext_iff]
    tauto
  cases p with
  | newOrder w d c no o items =>
    rw [gpuExecTpccTxn]
    split
    · exact Bracketed.flatMap hatomic items
    · refine Bracketed.append (Bracketed.flatMap hlocked items) ?_
      simp [Bracketed, Finset.ext_iff]
      tauto
  | payment w d c =>
    rw [gpuExecTpccTxn]
    split
    · rfl
    · simp [Bracketed, Finset.ext_iff]
      tauto

theorem count_acquire (t : TableName) (r : ℕ) (ops : List (LockOp Key)) :
    ops.count (.acquire (t, r)) = (acquired t ops).count r := by
  induction ops with
  | nil => rfl
  | cons op ops ih =>
    cases op with
    | release k => rw [List.count_cons_of_ne (by simp), ih, acquired, acquired, List.filterMap_cons_none rfl]
    | acquire k =>
      obtain ⟨t', r'⟩ := k
      by_cases ht : t' = t
      · have hcons : acquired t (.acquire (t', r') :: ops) = r' :: acquired t ops := by
          simp [acquired, ht]
        rw [hcons, List.count_cons, List.count_cons, ih, ht]
        simp
      · have hcons : acquired t (.acquire (t', r') :: ops) = acquired t ops := by
          simp [acquired, ht]
        rw [hcons, List.count_cons_of_ne (by simpa using fun h => absurd h ht), ih]

theorem count_filter_fst (es : List (ℕ × ℕ)) (r x : ℕ) :
    ((es.filter fun e => e.1 = r).map Prod.snd).count x = es.count (r, x) := by
  induction es with
  | nil => rfl
  | cons e es ih =>
    obtain ⟨r', x'⟩ := e
    by_cases hr : r' = r
    · rw [List.filter_cons_of_pos (by simpa using hr), List.map_cons, List.count_cons, List.count_cons, ih, hr]
      simp
    · rw [List.filter_cons_of_neg (by simpa using hr), ih, List.count_cons_of_ne (by simp [hr])]

theorem count_entries (f : TxnParams → List ℕ) (txns : List TxnParams) (r x : ℕ) : ∀ n,
    ((txns.zipIdx n).flatMap fun y => (f y.1).map fun r => (r, y.2)).count (r, x) =
      if x < n then 0 else ((txns[x - n]?.map f).getD []).count r := by
  induction txns with
  | nil =>
    intro n
    simp
  | cons p txns ih =>
    intro n
    have hhead : ((f p).map fun r => (r, n)).count (r, x) = if x = n then (f p).count r else 0 := by
      split
      · next hx =>
        rw [hx]
        exact List.count_map_of_injective _ _ (fun a b hab => (Prod.mk.inj hab).1) r
      · next hx =>
        refine List.count_eq_zero.mpr fun hmem => ?_
        obtain ⟨a, -, ha⟩ := List.mem_map.mp hmem
        exact hx (Prod.mk.inj ha).2.symm
    rw [List.zipIdx_cons, List.flatMap_cons, List.count_append, ih, hhead]
    rcases Nat.lt_trichotomy x n with hlt | rfl | hgt
    · rw [if_neg hlt.ne, if_pos (by omega), if_pos hlt]
    · rw [if_pos rfl, if_pos (Nat.lt_succ_self x), if_neg (lt_irrefl x), Nat.sub_self]
      rfl
    · have hsub : x - n = (x - (n + 1)) + 1 := by omega
      rw [if_neg hgt.ne', if_neg (by omega), if_neg (by omega), hsub, List.getElem?_cons_succ,
        Nat.zero_add]

/-- A transaction stands in a queue as often as its program takes the lock. -/
theorem count_program (cfg : Config) (txns : List TxnParams) (x : ℕ) (k : Key) :
    ((txns[x]?.map (gpuExecTpccTxn cfg)).getD []).count (.acquire k) = (queue cfg txns k).count x := by
  rw [queue, count_filter_fst, entries, count_entries fun p => submitRecords cfg p k.1,
    if_neg (Nat.not_lt_zero x), Nat.sub_zero, count_acquire]
  cases txns[x]? with
  | none => rfl
  | some p => rw [Option.map_some, Option.map_some, Option.getD_some, Option.getD_some,
      (locked_eq_submitted cfg p k.1).1]

end Egad.Gacco
