import Egad.Tpcc.Generator
import Egad.Tpcc.RecoverIndexes
import Egad.Planner.Encoding

/-! # Where a Delivery writes its order lines

    The planner gives every order-line write of an epoch a location; the hybrid executor takes the
    planned location for all accesses but one, the write of a Delivery, where it has record B written
    in:

        transaction    submitted            executed at
        NewOrder       w w w …              the planned locations
        OrderStatus    r r r …              the planned locations
        Delivery       (r w) (r w) …        r: the planned one, w: record B

    The planner sends the last write of a record to record B. A Delivery's write is the last one: the
    generator delivers an order once and after it was inserted, and distinct order lines have distinct
    records. -/

namespace Egad.Tpcc
open Egad.Lib Egad.Timeline Egad.Planner

/-! ### From the generator to the index -/

/-- What the auxiliary index finds for a transaction: the order of an OrderStatus with its number of
    lines, and the numbers of lines of a Delivery's orders. -/
structure Aux where
  oId : ℕ
  numItems : ℕ
  deliverItems : ℕ → ℕ

/-- The arrays of the auxiliary index hold order ids and at most fifteen lines for each. -/
structure Aux.Ok (a : Aux) : Prop where
  oId : 1 ≤ a.oId ∧ a.oId < 2 ^ 24
  numItems : a.numItems ≤ 15
  deliverItems : ∀ i, a.deliverItems i ≤ 15

/-- The input of a transaction as the index reads it. -/
def TxnInput.fill (a : Aux) : TxnInput → TpccTxn
  | .newOrder w d o _ items => .newOrder o d w items.length
  | .payment .. => .payment
  | .orderStatus w d _ _ => .orderStatus a.oId d w a.numItems
  | .delivery w _ _ os => .delivery w (fun i => os.getD i 0) a.deliverItems
  | .stockLevel .. => .stockLevel

/-! ### Submission and execution -/

/-- The plan words of the order-line locations. -/
def newOrderLineLoc (i : ℕ) : ℕ := 6 + 4 * i + 3
def orderStatusLineLoc (i : ℕ) : ℕ := 2 + i
def deliveryReadLoc (i j : ℕ) : ℕ := 50 + 15 * i + j
def deliveryWriteLoc (i j : ℕ) : ℕ := 200 + 15 * i + j

/-- The order-line operations that `submitTpccTxn` emits. -/
def submitOrderLines (txnId : ℕ) : TxnParams → List Op
  | .newOrder _ _ ids => ids.zipIdx.map fun x => ⟨x.1, txnId, true, newOrderLineLoc x.2⟩
  | .orderStatus _ ids => ids.zipIdx.map fun x => ⟨x.1, txnId, false, orderStatusLineLoc x.2⟩
  | .delivery _ _ ids => ids.zipIdx.flatMap fun x => x.1.zipIdx.flatMap fun y =>
      [⟨y.1, txnId, false, deliveryReadLoc x.2 y.2⟩, ⟨y.1, txnId, true, deliveryWriteLoc x.2 y.2⟩]
  | .other => []

/-- `order_line_submit_dest.d_submitted_ops` of an epoch. -/
def orderLineOps (params : List TxnParams) : List Op :=
  params.zipIdx.flatMap fun x => submitOrderLines x.2 x.1

def TxnParams.isDelivery : TxnParams → Bool
  | .delivery .. => true
  | _ => false

/-- The operation is a Delivery's write. -/
def deliveryWrite (params : List TxnParams) (o : Op) : Bool :=
  o.isWrite && (params[o.txn]?.any TxnParams.isDelivery)

/-- The location at which the hybrid executor accesses an order line. -/
def execLoc (params : List TxnParams) (plan : ExecPlan) (o : Op) : ℕ :=
  if deliveryWrite params o then locRecordB else plan (o.txn, o.offset)

/-! ### The submitted batch -/

/-- Parameters that fit their arrays. -/
def TxnParams.Ok : TxnParams → Prop
  | .newOrder _ _ ids => ids.length ≤ 15 ∧ ∀ r ∈ ids, r < 2 ^ 32
  | .orderStatus _ ids => ids.length ≤ 15 ∧ ∀ r ∈ ids, r < 2 ^ 32
  | .delivery _ _ ids => ids.length ≤ 10 ∧ ∀ l ∈ ids, l.length ≤ 15 ∧ ∀ r ∈ l, r < 2 ^ 32
  | .other => True

/-- An operation of an order line, by the transaction that submits it. -/
theorem mem_submitOrderLines {txnId : ℕ} {p : TxnParams} {o : Op} (h : o ∈ submitOrderLines txnId p) :
    o.txn = txnId ∧
      ((∃ oId noId ids i, p = .newOrder oId noId ids ∧ ids[i]? = some o.record ∧
          o.isWrite = true ∧ o.offset = newOrderLineLoc i) ∨
        (∃ oId ids i, p = .orderStatus oId ids ∧ ids[i]? = some o.record ∧ o.isWrite = false ∧
          o.offset = orderStatusLineLoc i) ∨
        ∃ noIds oIds ids i l j, p = .delivery noIds oIds ids ∧ ids[i]? = some l ∧
          l[j]? = some o.record ∧
          o.offset = if o.isWrite then deliveryWriteLoc i j else deliveryReadLoc i j) := by
  cases p with
  | newOrder oId noId ids =>
    obtain ⟨⟨r, i⟩, hx, rfl⟩ := List.mem_map.mp h
    exact ⟨rfl, Or.inl ⟨oId, noId, ids, i, rfl, List.mk_mem_zipIdx_iff_getElem?.mp hx, rfl, rfl⟩⟩
  | orderStatus oId ids =>
    obtain ⟨⟨r, i⟩, hx, rfl⟩ := List.mem_map.mp h
    exact ⟨rfl, Or.inr (Or.inl ⟨oId, ids, i, rfl, List.mk_mem_zipIdx_iff_getElem?.mp hx, rfl, rfl⟩)⟩
  | delivery noIds oIds ids =>
    obtain ⟨⟨l, i⟩, hx, h⟩ := List.mem_flatMap.mp h
    obtain ⟨⟨r, j⟩, hy, h⟩ := List.mem_flatMap.mp h
    have hl := List.mk_mem_zipIdx_iff_getElem?.mp hx
    have hr := List.mk_mem_zipIdx_iff_getElem?.mp hy
    simp only [List.mem_cons, List.not_mem_nil, or_false] at h
    rcases h with rfl | rfl
    · exact ⟨rfl, Or.inr (Or.inr ⟨noIds, oIds, ids, i, l, j, rfl, hl, hr, rfl⟩)⟩
    · exact ⟨rfl, Or.inr (Or.inr ⟨noIds, oIds, ids, i, l, j, rfl, hl, hr, rfl⟩)⟩
  | other => exact absurd h List.not_mem_nil

theorem submitOrderLines_fits {txnId : ℕ} {p : TxnParams} (hp : p.Ok) (htxn : txnId < 2 ^ 20) {o : Op}
    (h : o ∈ submitOrderLines txnId p) : o.Fits := by
  obtain ⟨rfl, ⟨oId, noId, ids, i, rfl, hr, -, hoff⟩ | ⟨oId, ids, i, rfl, hr, -, hoff⟩ |
    ⟨noIds, oIds, ids, i, l, j, rfl, hl, hr, hoff⟩⟩ := mem_submitOrderLines h
  · have hi := (List.getElem?_eq_some_iff.mp hr).1
    have hlen := hp.1
    refine ⟨hp.2 _ (List.mem_of_getElem? hr), htxn, ?_⟩
    rw [hoff, newOrderLineLoc]
    omega
  · have hi := (List.getElem?_eq_some_iff.mp hr).1
    have hlen := hp.1
    refine ⟨hp.2 _ (List.mem_of_getElem? hr), htxn, ?_⟩
    rw [hoff, orderStatusLineLoc]
    omega
  · have hi := (List.getElem?_eq_some_iff.mp hl).1
    have hj := (List.getElem?_eq_some_iff.mp hr).1
    obtain ⟨hlen, hline⟩ := hp
    obtain ⟨hlen', hrec⟩ := hline l (List.mem_of_getElem? hl)
    refine ⟨hrec _ (List.mem_of_getElem? hr), htxn, ?_⟩
    rw [hoff, deliveryWriteLoc, deliveryReadLoc]
    split <;> omega

/-- Every operation of a transaction has a plan word of its own. -/
theorem submitOrderLines_words {txnId : ℕ} {p : TxnParams} (hp : p.Ok) :
    (submitOrderLines txnId p).Pairwise fun o q => o.offset ≠ q.offset := by
  cases p with
  | newOrder oId noId ids =>
    refine List.pairwise_map.mpr ((zipIdx_increasing ids).imp fun {x y} hxy => ?_)
    simp only [newOrderLineLoc]
    omega
  | orderStatus oId ids =>
    refine List.pairwise_map.mpr ((zipIdx_increasing ids).imp fun {x y} hxy => ?_)
    simp only [orderStatusLineLoc]
    omega
  | delivery noIds oIds ids =>
    obtain ⟨hlen, hline⟩ := hp
    have hrow : ∀ x ∈ ids.zipIdx, x.2 < 10 ∧ ∀ y ∈ x.1.zipIdx, y.2 < 15 := by
      rintro ⟨l, i⟩ hx
      have hl := List.mk_mem_zipIdx_iff_getElem?.mp hx
      have hi := (List.getElem?_eq_some_iff.mp hl).1
      refine ⟨by simp only; omega, ?_⟩
      rintro ⟨r, j⟩ hy
      have hj := (List.getElem?_eq_some_iff.mp (List.mk_mem_zipIdx_iff_getElem?.mp hy)).1
      have hlen' := (hline l (List.mem_of_getElem? hl)).1
      simp only at hj ⊢
      omega
    have hblock : ∀ {i j i' j' : ℕ} {r r' : ℕ}, i < 10 → j < 15 → i' < 10 → j' < 15 →
        i < i' ∨ i = i' ∧ j < j' →
        ∀ o ∈ [Op.mk r txnId false (deliveryReadLoc i j), Op.mk r txnId true (deliveryWriteLoc i j)],
        ∀ q ∈ [Op.mk r' txnId false (deliveryReadLoc i' j'),
            Op.mk r' txnId true (deliveryWriteLoc i' j')],
          o.offset ≠ q.offset := by
      intro i j i' j' r r' hi hj hi' hj' hlt
      simp only [List.mem_cons, List.not_mem_nil, or_false, forall_eq_or_imp, forall_eq,
        deliveryReadLoc, deliveryWriteLoc]
      omega
    refine List.pairwise_flatMap.mpr ⟨fun x hx => List.pairwise_flatMap.mpr ⟨fun y hy => ?_, ?_⟩, ?_⟩
    · obtain ⟨hi, hj⟩ := hrow x hx
      have := hj y hy
      simp only [List.pairwise_cons, List.mem_singleton, forall_eq, List.not_mem_nil, false_imp_iff,
        implies_true, List.Pairwise.nil, and_true, deliveryReadLoc, deliveryWriteLoc]
      omega
    · obtain ⟨hi, hj⟩ := hrow x hx
      exact (zipIdx_increasing x.1).imp_of_mem fun ha hb hab =>
        hblock hi (hj _ ha) hi (hj _ hb) (Or.inr ⟨rfl, hab⟩)
    · refine (zipIdx_increasing ids).imp_of_mem fun ha hb hab o ho q hq => ?_
      obtain ⟨y, hy, ho⟩ := List.mem_flatMap.mp ho
      obtain ⟨y', hy', hq⟩ := List.mem_flatMap.mp hq
      exact hblock (hrow _ ha).1 ((hrow _ ha).2 y hy) (hrow _ hb).1 ((hrow _ hb).2 y' hy')
        (Or.inl hab) o ho q hq
  | other => exact List.Pairwise.nil

theorem mem_orderLineOps {params : List TxnParams} {o : Op} (h : o ∈ orderLineOps params) :
    ∃ p, params[o.txn]? = some p ∧ o ∈ submitOrderLines o.txn p := by
  obtain ⟨⟨p, txnId⟩, hx, ho⟩ := List.mem_flatMap.mp h
  obtain ⟨rfl, -⟩ := mem_submitOrderLines ho
  exact ⟨p, List.mk_mem_zipIdx_iff_getElem?.mp hx, ho⟩

theorem orderLineOps_batch {params : List TxnParams} (hlen : params.length ≤ 2 ^ 20)
    (hp : ∀ p ∈ params, p.Ok) : Batch (orderLineOps params) := by
  refine batch_of_blocks submitOrderLines Prod.fst monotone_id (fun x hx o ho => ?_) (fun x _ o ho => ?_)
    fun x hx => submitOrderLines_words (hp x.1 (List.fst_mem_of_mem_zipIdx hx))
  · have hlt := (List.mem_zipIdx (show (x.1, x.2) ∈ params.zipIdx from hx)).2.1
    exact submitOrderLines_fits (hp x.1 (List.fst_mem_of_mem_zipIdx hx)) (by omega) ho
  · exact ⟨(mem_submitOrderLines ho).1, (mem_submitOrderLines ho).1⟩

/-! ### What the hard-coded location needs -/

/-- The executor accesses the order lines where the planner says; nothing is written twice to record
    B, and a reader waits for a location only if an earlier writer fills it. Operations on the absent
    record are skipped. -/
structure Sound (ops : List Op) (planned executed : Op → ℕ) : Prop where
  planned : ∀ o ∈ ops, o.record ≠ kAbsent → executed o = planned o
  once : ops.Pairwise fun o q => o.isWrite = true → q.isWrite = true → o.record = q.record →
    o.record ≠ kAbsent → ¬ (executed o = locRecordB ∧ executed q = locRecordB)
  served : ∀ {i : ℕ} {o : Op}, ops[i]? = some o → o.isWrite = false → o.record ≠ kAbsent →
    executed o ≠ locRecordA → ∃ j q, j < i ∧ ops[j]? = some q ∧ q.isWrite = true ∧
      q.record = o.record ∧ executed q = executed o

/-- No write of a record follows a Delivery's. -/
def DeliveryLast (params : List TxnParams) : Prop :=
  (orderLineOps params).Pairwise fun o q => deliveryWrite params o = true → q.isWrite = true →
    o.record = q.record → o.record = kAbsent

theorem sound_of_last {params : List TxnParams} (hb : Batch (orderLineOps params))
    (hlast : DeliveryLast params) (plan : ExecPlan) :
    Sound (orderLineOps params) (locOf (orderLineOps params) plan)
      (execLoc params (planOf (orderLineOps params) plan)) := by
  have hloc := located hb plan
  have hplanned : ∀ o ∈ orderLineOps params, o.record ≠ kAbsent →
      execLoc params (planOf (orderLineOps params) plan) o = locOf (orderLineOps params) plan o := by
    intro o ho hrec
    rw [execLoc]
    split
    · next hd =>
      have hw : o.isWrite = true := (Bool.and_eq_true_iff.mp hd).1
      obtain ⟨i, hi⟩ := List.mem_iff_getElem?.mp ho
      refine (hloc.write_last hi hw fun j hij => ?_).symm
      rw [← Bool.not_eq_true, writesAt_iff]
      rintro ⟨q, hj, hq, hsame⟩
      obtain ⟨hilt, rfl⟩ := List.getElem?_eq_some_iff.mp hi
      obtain ⟨hjlt, rfl⟩ := List.getElem?_eq_some_iff.mp hj
      exact hrec (List.pairwise_iff_getElem.mp hlast i j hilt hjlt hij hd hq hsame.symm)
    · rfl
  refine ⟨hplanned, ?_, fun {i o} hi hr hrec hA => ?_⟩
  · refine List.pairwise_iff_getElem.mpr fun i j hi hj hij ho hq hsame hrec hB => ?_
    have hi' := List.getElem?_eq_getElem hi
    have hj' := List.getElem?_eq_getElem hj
    have hlt := hloc.write_version hi' ho hij (writesAt_iff.mpr ⟨_, hj', hq, hsame.symm⟩)
    rw [← hplanned _ (List.getElem_mem hi) hrec, hB.1] at hlt
    exact absurd hlt (by decide)
  · rw [hplanned o (List.mem_of_getElem? hi) hrec] at hA ⊢
    cases hlw : lastWriteBefore (orderLineOps params) o.record i with
    | none => exact absurd (hloc.read_first hi hr hlw) hA
    | some j =>
      obtain ⟨hji, hw, -⟩ := lastWriteBefore_eq_some.mp hlw
      obtain ⟨q, hj, hq, hsame⟩ := writesAt_iff.mp hw
      refine ⟨j, q, hji, hj, hq, hsame, ?_⟩
      rw [hplanned q (List.mem_of_getElem? hj) (hsame ▸ hrec)]
      exact (hloc.read_after hi hr hlw hj).symm

/-! ### The index gives distinct order lines distinct records -/

/-- The key of an order line that exists in the benchmark. -/
def LineKey (k : ℕ) : Prop :=
  ∃ o d w n, OrderOk o d w ∧ 1 ≤ n ∧ n ≤ 15 ∧ k = orderLineKey o d w n

/-- Resolution that never gives two order lines one record. -/
def Separates (numTxns : ℕ) (ol : ℕ → ℕ → ℕ) : Prop :=
  ∀ {k tid k' tid'}, LineKey k → LineKey k' → tid < numTxns → tid' < numTxns →
    ol k tid = ol k' tid' → ol k tid ≠ kAbsent → k = k'

theorem line_lt_posBits (txns : List TpccTxn) (o d w n : ℕ) :
    orderLineKey o d w n < 2 ^ (64 - (orderLineInput txns).posBits) :=
  (orderLineKey_lt o d w n).trans (show 2 ^ 41 < 2 ^ (64 - 22) by decide)

theorem separates_of_spec {txns : List TpccTxn} {tbl tbl' : Table} {out : TableOut}
    (htbl : TableOk tbl) (hspec : TableSpec (orderLineInput txns) txns.length tbl tbl' out) :
    Separates txns.length out.resolve := by
  rintro k tid k' tid' ⟨o, d, w, n, hord, h1, h15, rfl⟩ ⟨o', d', w', n', hord', h1', h15', rfl⟩
    htid htid' heq hne
  have hr := hspec.resolve _ tid (named_line tbl.store hord h1 h15) (line_lt_posBits _ _ _ _ _) htid
  have hr' := hspec.resolve _ tid' (named_line tbl.store hord' h1' h15') (line_lt_posBits _ _ _ _ _) htid'
  rw [hr] at hne
  rw [hr, hr'] at heq
  exact serialCrid_livesAt_inj (events_ordered _) htbl.rows.lookup_below htbl.rows.inj hne heq

theorem resolve_lt {txns : List TpccTxn} {tbl tbl' : Table} {out : TableOut} (htbl : TableOk tbl)
    (hin : InputOk (orderLineInput txns) tbl.store txns.length)
    (hm : RowsFit (orderLineInput txns) tbl)
    (hspec : TableSpec (orderLineInput txns) txns.length tbl tbl' out) (k tid : ℕ) (hk : LineKey k)
    (htid : tid < txns.length) : out.resolve k tid < 2 ^ 32 := by
  obtain ⟨o, d, w, n, hord, h1, h15, rfl⟩ := hk
  rw [hspec.resolve _ tid (named_line tbl.store hord h1 h15) (line_lt_posBits _ _ _ _ _) htid]
  exact (serialCrid_livesAt_le (events_ordered _) (mintFits_of_rows hin hm) htbl.rows.lookup_below
    _ _ _).trans_lt (by decide)

/-! ### A Delivery's write is its record's last -/

def TpccTxn.InsertsOrder (w d o : ℕ) : TpccTxn → Prop
  | .newOrder o' d' w' _ => w' = w ∧ d' = d ∧ o' = o
  | _ => False

def TpccTxn.DeliversOrder (w d o : ℕ) : TpccTxn → Prop
  | .delivery w' os _ => w' = w ∧ ∃ i < 10, d = i + 1 ∧ os i = o ∧ o ≠ 0
  | _ => False

/-- An order is not delivered or inserted after its delivery. -/
def DeliveredOnce (t u : TpccTxn) : Prop :=
  ∀ w d o, t.DeliversOrder w d o → ¬ u.DeliversOrder w d o ∧ ¬ u.InsertsOrder w d o

section
variable {deletePath : Bool} {txns : List TpccTxn} {no ord ol : ℕ → ℕ → ℕ}

/-- The parameters of an epoch. -/
def paramsOf (txns : List TpccTxn) (no ord ol : ℕ → ℕ → ℕ) : List TxnParams :=
  txns.zipIdx.map fun x => indexTpccTxn no ord ol x.2 x.1

theorem getElem?_paramsOf (tid : ℕ) :
    (paramsOf txns no ord ol)[tid]? = txns[tid]?.map fun t => indexTpccTxn no ord ol tid t := by
  rw [paramsOf, List.getElem?_map, List.getElem?_zipIdx]
  cases txns[tid]? <;> simp

theorem getElem?_map_range {α : Type} {f : ℕ → α} {n i : ℕ} {x : α}
    (h : ((List.range n).map f)[i]? = some x) : i < n ∧ f i = x := by
  obtain ⟨hi, hx⟩ := List.getElem?_eq_some_iff.mp h
  rw [List.length_map, List.length_range] at hi
  exact ⟨hi, by simpa using hx⟩

/-- A write of an order line, by the transaction that makes it. -/
theorem write_of_op {q : Op} (h : q ∈ orderLineOps (paramsOf txns no ord ol)) (hw : q.isWrite = true) :
    ∃ t, txns[q.txn]? = some t ∧
      ((∃ o d w n i, t = .newOrder o d w n ∧ i < n ∧
          q.record = ol (orderLineKey o d w (i + 1)) q.txn) ∨
        ∃ w os n i j, t = .delivery w os n ∧ i < 10 ∧ os i ≠ 0 ∧ j < n i ∧
          q.record = ol (orderLineKey (os i) (i + 1) w (j + 1)) q.txn ∧
          q.offset = deliveryWriteLoc i j) := by
  obtain ⟨p, hget, hq⟩ := mem_orderLineOps h
  rw [getElem?_paramsOf] at hget
  obtain ⟨t, ht, rfl⟩ := Option.map_eq_some_iff.mp hget
  refine ⟨t, ht, ?_⟩
  obtain ⟨-, ⟨oId, noId, ids, i, hp, hr, -, -⟩ | ⟨oId, ids, i, hp, hr, hw', -⟩ |
    ⟨noIds, oIds, ids, i, l, j, hp, hl, hr, hoff⟩⟩ := mem_submitOrderLines hq
  · cases t <;> simp only [indexTpccTxn, reduceCtorEq, TxnParams.newOrder.injEq] at hp
    obtain ⟨-, -, rfl⟩ := hp
    obtain ⟨hlt, hrec⟩ := getElem?_map_range hr
    exact Or.inl ⟨_, _, _, _, i, rfl, hlt, hrec.symm⟩
  · rw [hw] at hw'
    exact absurd hw' (by simp)
  · cases t <;> simp only [indexTpccTxn, reduceCtorEq, TxnParams.delivery.injEq] at hp
    obtain ⟨-, -, rfl⟩ := hp
    obtain ⟨hi, rfl⟩ := getElem?_map_range hl
    rw [hw, if_pos rfl] at hoff
    split at hr
    · simp at hr
    · next hne =>
      obtain ⟨hj, hrec⟩ := getElem?_map_range hr
      exact Or.inr ⟨_, _, _, i, j, rfl, hi, hne, hj, hrec.symm, hoff⟩

/-- The parameters of an epoch fit their arrays, if the records do. -/
theorem paramsOf_ok (hok : ∀ t ∈ txns, t.Ok deletePath)
    (hol : ∀ k tid, LineKey k → tid < txns.length → ol k tid < 2 ^ 32) :
    ∀ p ∈ paramsOf txns no ord ol, p.Ok := by
  intro p hp
  obtain ⟨⟨t, tid⟩, hx, rfl⟩ := List.mem_map.mp hp
  obtain ⟨hmem, htid⟩ := zipIdx_lt hx
  have ht := hok t hmem
  have hline : ∀ {o d w n : ℕ}, OrderOk o d w → n ≤ 15 →
      ∀ r ∈ (List.range n).map fun i => ol (orderLineKey o d w (i + 1)) tid, r < 2 ^ 32 := by
    intro o d w n hord hn r hr
    obtain ⟨i, hi, rfl⟩ := List.mem_map.mp hr
    have hi := List.mem_range.mp hi
    exact hol _ _ ⟨o, d, w, i + 1, hord, by omega, by omega, rfl⟩ htid
  cases t with
  | newOrder o d w n => exact ⟨by simpa using ht.2, hline ht.1 ht.2⟩
  | orderStatus o d w n => exact ⟨by simpa using ht.2, hline ht.1 ht.2⟩
  | delivery w os n =>
    refine ⟨by simp, fun l hl => ?_⟩
    obtain ⟨i, hi, rfl⟩ := List.mem_map.mp hl
    split
    · simp
    · next hne =>
      obtain ⟨hord, hn⟩ := ht.2 i (List.mem_range.mp hi) hne
      exact ⟨by simpa using hn, hline hord hn⟩
  | payment => trivial
  | stockLevel => trivial

/-- Equal keys are lines of one order with one number. -/
theorem orderLineKey_inj {o d w n o' d' w' n' : ℕ} (h : OrderOk o d w) (hn : n ≤ 15)
    (h' : OrderOk o' d' w') (hn' : n' ≤ 15) (he : orderLineKey o d w n = orderLineKey o' d' w' n') :
    o = o' ∧ d = d' ∧ w = w' ∧ n = n' := by
  obtain ⟨h1, h2, h3, h4⟩ := orderLineKey_decode h (show n < 2 ^ 4 by omega)
  obtain ⟨h1', h2', h3', h4'⟩ := orderLineKey_decode h' (show n' < 2 ^ 4 by omega)
  rw [he] at h1 h2 h3 h4
  exact ⟨h1.symm.trans h1', h2.symm.trans h2', h3.symm.trans h3', h4.symm.trans h4'⟩

/-- The order lines a transaction writes are of orders it inserts or delivers. -/
theorem line_of_write (hok : ∀ t ∈ txns, t.Ok deletePath) {q : Op}
    (h : q ∈ orderLineOps (paramsOf txns no ord ol)) (hw : q.isWrite = true) :
    ∃ t o d w n, txns[q.txn]? = some t ∧ OrderOk o d w ∧ 1 ≤ n ∧ n ≤ 15 ∧
      q.record = ol (orderLineKey o d w n) q.txn ∧
      (t.InsertsOrder w d o ∨ t.DeliversOrder w d o ∧ q.offset = deliveryWriteLoc (d - 1) (n - 1)) := by
  obtain ⟨t, ht, ⟨o, d, w, n, i, rfl, hi, hrec⟩ |
    ⟨w, os, n, i, j, rfl, hi, hne, hj, hrec, hoff⟩⟩ := write_of_op h hw
  · obtain ⟨hord, hn⟩ := hok _ (List.mem_of_getElem? ht)
    exact ⟨_, o, d, w, i + 1, ht, hord, by omega, by omega, hrec, Or.inl ⟨rfl, rfl, rfl⟩⟩
  · obtain ⟨-, hslot⟩ := hok _ (List.mem_of_getElem? ht)
    obtain ⟨hord, hn⟩ := hslot i hi hne
    exact ⟨_, os i, i + 1, w, j + 1, ht, hord, by omega, by omega, hrec,
      Or.inr ⟨⟨rfl, i, hi, rfl, rfl, hne⟩, hoff⟩⟩

theorem delivers_of_deliveryWrite {q : Op} {t : TpccTxn} (ht : txns[q.txn]? = some t)
    (hd : deliveryWrite (paramsOf txns no ord ol) q = true) {w d o : ℕ} :
    ¬ t.InsertsOrder w d o := by
  intro hins
  have hany := (Bool.and_eq_true_iff.mp hd).2
  rw [getElem?_paramsOf, ht] at hany
  cases t with
  | newOrder => exact absurd hany (by simp [indexTpccTxn, TxnParams.isDelivery])
  | payment => exact hins
  | orderStatus => exact hins
  | delivery => exact hins
  | stockLevel => exact hins

theorem deliveryLast_of_separates (hok : ∀ t ∈ txns, t.Ok deletePath)
    (honce : txns.Pairwise DeliveredOnce) (hsep : Separates txns.length ol)
    (hb : Batch (orderLineOps (paramsOf txns no ord ol))) :
    DeliveryLast (paramsOf txns no ord ol) := by
  refine (hb.words.and hb.ordered).imp_of_mem ?_
  rintro x y hx hy ⟨hword, hle⟩ hdel hyw hsame
  by_contra hne
  obtain ⟨t, o, d, w, n, ht, hord, h1, h15, hrec, hkind⟩ :=
    line_of_write hok hx (Bool.and_eq_true_iff.mp hdel).1
  obtain ⟨u, o', d', w', n', hu, hord', h1', h15', hrec', hkind'⟩ := line_of_write hok hy hyw
  have hlt := (List.getElem?_eq_some_iff.mp ht).1
  have hlt' := (List.getElem?_eq_some_iff.mp hu).1
  -- one record, so one line of one order
  have hkey := hsep ⟨o, d, w, n, hord, h1, h15, rfl⟩ ⟨o', d', w', n', hord', h1', h15', rfl⟩ hlt hlt'
    (hrec ▸ hrec' ▸ hsame) (hrec ▸ hne)
  obtain ⟨rfl, rfl, rfl, rfl⟩ := orderLineKey_inj hord h15 hord' h15' hkey
  obtain ⟨hdelivers, hoff⟩ := hkind.resolve_left (delivers_of_deliveryWrite ht hdel)
  rcases Nat.lt_or_eq_of_le hle with hlt'' | heq
  · obtain ⟨hi, rfl⟩ := List.getElem?_eq_some_iff.mp ht
    obtain ⟨hj, rfl⟩ := List.getElem?_eq_some_iff.mp hu
    have honce' := List.pairwise_iff_getElem.mp honce _ _ hi hj hlt'' _ _ _ hdelivers
    exact hkind'.elim honce'.2 fun h => honce'.1 h.1
  · rw [← heq, ht] at hu
    obtain rfl := Option.some.inj hu
    have hoff' := (hkind'.resolve_left (delivers_of_deliveryWrite ht hdel)).2
    exact hword (by rw [heq, hoff, hoff'])

end

/-! ### Epochs of the generator -/

/-- The transactions of an epoch as the index reads them. -/
def fillAll (epoch : List (TxnInput × Aux)) : List TpccTxn := epoch.map fun x => x.1.fill x.2

theorem mem_generateTxns {draws : List Draw} {t : TxnInput} (h : t ∈ (generateTxns draws).1) :
    ∃ g ts, ∃ draw ∈ draws, t = (generateTxn g ts draw).1 := by
  induction draws using List.reverseRecOn with
  | nil => simp [generateTxns] at h
  | append_singleton draws x ih =>
    rw [generateTxns, List.foldl_append] at h
    rcases List.mem_append.mp h with h | h
    · obtain ⟨g, ts, draw, hmem, rfl⟩ := ih h
      exact ⟨g, ts, draw, by simp [hmem], rfl⟩
    · exact ⟨_, _, x, by simp, List.mem_singleton.mp h⟩

theorem getElem?_of_getD_ne {os : List ℕ} {i : ℕ} (h : os.getD i 0 ≠ 0) :
    os[i]? = some (os.getD i 0) := by
  rw [List.getD_eq_getElem?_getD] at h ⊢
  cases hget : os[i]? with
  | none => rw [hget] at h; exact absurd rfl h
  | some o => rfl

theorem inserts_of_fill {t : TxnInput} {a : Aux} {w d o : ℕ} (h : (t.fill a).InsertsOrder w d o) :
    t.Inserts w d o := by
  cases t with
  | newOrder => exact h
  | payment => exact h
  | orderStatus => exact h
  | delivery => exact h
  | stockLevel => exact h

theorem delivers_of_fill {t : TxnInput} {a : Aux} {w d o : ℕ} (h : (t.fill a).DeliversOrder w d o) :
    t.Delivers w d o := by
  cases t with
  | delivery w' carrier ts os =>
    obtain ⟨rfl, i, -, rfl, rfl, hne⟩ := h
    exact ⟨rfl, Nat.succ_pos i, getElem?_of_getD_ne hne, hne⟩
  | newOrder => exact h.elim
  | payment => exact h.elim
  | orderStatus => exact h.elim
  | stockLevel => exact h.elim

section
variable {W : ℕ} {deletePath : Bool} {draws : List Draw} (hdraws : ∀ x ∈ draws, x.InRange W)
include hdraws

/-- The order ids of a run that stays within the key's 24 bits. -/
theorem orderOk_of_carries (hW : W < 2 ^ 8) (hids : ∀ w d, (generateTxns draws).2.nextOid w d < 2 ^ 24)
    {t : TxnInput} (ht : t ∈ (generateTxns draws).1) {w d o : ℕ} (h : t.Carries w d o) :
    OrderOk o d w ∧ w ≤ W := by
  obtain ⟨⟨hw, hwW⟩, hd, hd10⟩ := inRange_run hdraws ht h
  obtain ⟨v, rfl⟩ : ∃ v, w = v + 1 := ⟨w - 1, (Nat.sub_add_cancel hw).symm⟩
  obtain ⟨e, rfl⟩ : ∃ e, d = e + 1 := ⟨d - 1, (Nat.sub_add_cancel hd).symm⟩
  obtain ⟨h1, hle⟩ := (counted_run hdraws).carried v e o t ht h
  have := hids v e
  exact ⟨⟨⟨h1, by omega⟩, ⟨hd, hd10⟩, ⟨hw, by omega⟩⟩, hwW⟩

theorem fill_ok (hW : W < 2 ^ 8) (hids : ∀ w d, (generateTxns draws).2.nextOid w d < 2 ^ 24)
    (hmix : ∀ w carrier, .delivery w carrier ∈ draws → deletePath = true) {t : TxnInput} {a : Aux}
    (ht : t ∈ (generateTxns draws).1) (ha : a.Ok) :
    (t.fill a).Ok deletePath ∧ (t.fill a).InWarehouses W := by
  have hcarry : ∀ {w d o : ℕ}, t.Carries w d o → OrderOk o d w ∧ w ≤ W :=
    orderOk_of_carries hdraws hW hids ht
  obtain ⟨g, ts, draw, hmem, hgen⟩ := mem_generateTxns ht
  have hr := hdraws draw hmem
  cases t with
  | newOrder w d o c items =>
    obtain ⟨hord, hle⟩ := hcarry ⟨rfl, rfl, rfl⟩
    refine ⟨⟨hord, ?_⟩, hle⟩
    cases draw <;> simp only [generateTxn, reduceCtorEq, TxnInput.newOrder.injEq] at hgen
    obtain ⟨-, -, -, -, rfl⟩ := hgen
    exact hr.2.2.2
  | payment => exact ⟨trivial, trivial⟩
  | orderStatus w d c o =>
    obtain ⟨hord, hle⟩ := hcarry ⟨rfl, rfl, rfl⟩
    exact ⟨⟨⟨ha.oId, hord.d, hord.w⟩, ha.numItems⟩, hle⟩
  | delivery w carrier ts' os =>
    cases draw <;> simp only [generateTxn, reduceCtorEq, TxnInput.delivery.injEq] at hgen
    refine ⟨⟨hmix _ _ hmem, fun i hi hne => ⟨?_, ha.deliverItems i⟩⟩, ?_⟩
    · exact (hcarry ⟨rfl, Nat.succ_pos i, getElem?_of_getD_ne hne, hne⟩).1
    · obtain ⟨rfl, -⟩ := hgen
      exact hr.2
  | stockLevel => exact ⟨trivial, trivial⟩

theorem fillAll_numbered {cfg : Config} (hcfg : cfg.numWarehouses = W) (hW : W < 2 ^ 8)
    (hids : ∀ w d, (generateTxns draws).2.nextOid w d < 2 ^ 24)
    (hmix : ∀ w carrier, .delivery w carrier ∈ draws → deletePath = true)
    {epoch : List (TxnInput × Aux)} (hmem : ∀ x ∈ epoch, x.1 ∈ (generateTxns draws).1)
    (haux : ∀ x ∈ epoch, x.2.Ok) (hcount : epoch.length ≤ 2 ^ 20) :
    Numbered cfg deletePath (fillAll epoch) := by
  refine ⟨fun t ht => ?_, by rwa [fillAll, List.length_map]⟩
  obtain ⟨x, hx, rfl⟩ := List.mem_map.mp ht
  rw [hcfg]
  exact fill_ok hdraws hW hids hmix (hmem x hx) (haux x hx)

theorem fillAll_generated {cfg : Config} (hcfg : cfg.numWarehouses = W) (hW : W < 2 ^ 8)
    (hids : ∀ w d, (generateTxns draws).2.nextOid w d < 2 ^ 24)
    (hmix : ∀ w carrier, .delivery w carrier ∈ draws → deletePath = true)
    {epoch : List (TxnInput × Aux)} (hmem : ∀ x ∈ epoch, x.1 ∈ (generateTxns draws).1)
    (haux : ∀ x ∈ epoch, x.2.Ok) (hcount : 4 * epoch.length + 2 < 2 ^ 22) :
    Generated cfg deletePath (fillAll epoch) :=
  ⟨(fillAll_numbered hdraws hcfg hW hids hmix hmem haux (by omega)).each,
    by rwa [fillAll, List.length_map]⟩

/-- Along a run an order is delivered once, and after it was inserted. -/
theorem deliveredOnce_epoch {before after : List (List (TxnInput × Aux))}
    {epoch : List (TxnInput × Aux)}
    (hrun : (before ++ epoch :: after).flatten.map Prod.fst = (generateTxns draws).1) :
    (fillAll epoch).Pairwise DeliveredOnce := by
  have hpw := (counted_run hdraws).once
  rw [← hrun, List.pairwise_map] at hpw
  have hsub : epoch.Sublist (before ++ epoch :: after).flatten :=
    List.sublist_flatten_of_mem (by simp)
  rw [fillAll, List.pairwise_map]
  refine (hpw.sublist hsub).imp fun hex w d o hd => ?_
  obtain ⟨h1, h2⟩ := (hex w d o).2 (delivers_of_fill hd)
  exact ⟨fun h => h1 (delivers_of_fill h), fun h => h2 (inserts_of_fill h)⟩

end

/-! ### The hard-coded location -/

/-- In every epoch of every run, the order-line operations are a batch and no write of an order line
    follows a Delivery's. -/
theorem orderLines_of_run {cfg : Config} (hW : cfg.numWarehouses < 2 ^ 8) {durable : Durable}
    {entryCrid : ℕ → ℕ} {deletePath : Bool} {draws : List Draw}
    (hdraws : ∀ x ∈ draws, x.InRange cfg.numWarehouses)
    (hmix : ∀ w carrier, .delivery w carrier ∈ draws → deletePath = true)
    (hids : ∀ w d, (generateTxns draws).2.nextOid w d < 2 ^ 24)
    {before after : List (List (TxnInput × Aux))} {epoch : List (TxnInput × Aux)}
    (hrun : (before ++ epoch :: after).flatten.map Prod.fst = (generateTxns draws).1)
    (haux : ∀ e ∈ before ++ [epoch], ∀ x ∈ e, x.2.Ok)
    (hcount : ∀ e ∈ before ++ [epoch], e.length ≤ 2 ^ 20)
    (hrows : cfg.numWarehouses * 10 * 3000 * 15 +
      15 * ((before.map List.length).sum + epoch.length) ≤ kAbsent)
    {g : GpuIndex}
    (hbefore : (GpuIndex.init cfg durable entryCrid).run deletePath (before.map fillAll) = .ok g)
    {idx : Index} {out : EpochOut}
    (hindex : indexTxns deletePath g.index (fillAll epoch) = .ok (idx, out)) :
    Batch (orderLineOps out.params) ∧ DeliveryLast out.params := by
  have hgen : ∀ e ∈ before ++ [epoch], Numbered cfg deletePath (fillAll e) := by
    intro e he
    refine fillAll_numbered hdraws rfl hW hids hmix (fun x hx => ?_) (haux e he) (hcount e he)
    rw [← hrun]
    refine List.mem_map_of_mem (List.mem_flatten.mpr ⟨e, ?_, hx⟩)
    rcases List.mem_append.mp he with he | he
    · exact List.mem_append_left _ he
    · rw [List.mem_singleton.mp he]
      exact List.mem_append_right _ List.mem_cons_self
  have hgen' := hgen epoch (by simp)
  have hok : ∀ t ∈ fillAll epoch, t.Ok deletePath := fun t ht => (hgen'.each t ht).1
  have hlens : ((before.map fillAll).map List.length).sum = (before.map List.length).sum := by
    rw [List.map_map]
    exact congrArg List.sum (List.map_congr_left fun e _ => List.length_map _)
  obtain ⟨js, hlog, hroom, -, -⟩ := logged_run (logged_init hW (by omega) durable entryCrid)
    (fun txns ht => by
      obtain ⟨e, he, rfl⟩ := List.mem_map.mp ht
      exact hgen e (by simp [he]))
    (room_init (hlens ▸ hrows) durable entryCrid) hbefore
  obtain ⟨o, no, ⟨ol, lout⟩, -, -, hol, hr⟩ := indexTxns_ok hindex
  have hlen : (fillAll epoch).length = epoch.length := List.length_map _
  have hm : RowsFit (orderLineInput (fillAll epoch)) g.index.orderLine := by
    have := hroom.orderLine
    have := @line_inserts_le (fillAll epoch)
    unfold RowsFit
    omega
  have hin : InputOk (orderLineInput (fillAll epoch)) g.index.orderLine.store (fillAll epoch).length :=
    orderLineInput_ok hok hgen'.count
  obtain ⟨hspec, -⟩ := tableEpoch_spec hin hlog.orderLine.ok hm hol
  have hparams : out.params =
      paramsOf (fillAll epoch) no.2.resolve o.2.resolve lout.resolve := by
    rw [(Prod.mk.inj hr).2]
    rfl
  rw [hparams]
  have hfits := resolve_lt hlog.orderLine.ok hin hm hspec
  have hb : Batch (orderLineOps (paramsOf (fillAll epoch) no.2.resolve o.2.resolve lout.resolve)) := by
    refine orderLineOps_batch ?_ (paramsOf_ok hok hfits)
    have := hgen'.count
    rw [paramsOf, List.length_map, List.length_zipIdx]
    omega
  exact ⟨hb, deliveryLast_of_separates hok (deliveredOnce_epoch hdraws hrun)
    (separates_of_spec hlog.orderLine.ok hspec) hb⟩

/-- In every epoch of every run, the hybrid executor's accesses to order lines are the planned ones:
    record B, which it has written in for the writes of a Delivery, is where the planner sends them.
    So no order line is written twice to record B, and no reader waits for a location that nobody
    writes. -/
theorem delivery_location_planned {cfg : Config} (hW : cfg.numWarehouses < 2 ^ 8) {durable : Durable}
    {entryCrid : ℕ → ℕ} {deletePath : Bool} {draws : List Draw}
    (hdraws : ∀ x ∈ draws, x.InRange cfg.numWarehouses)
    (hmix : ∀ w carrier, .delivery w carrier ∈ draws → deletePath = true)
    (hids : ∀ w d, (generateTxns draws).2.nextOid w d < 2 ^ 24)
    {before after : List (List (TxnInput × Aux))} {epoch : List (TxnInput × Aux)}
    (hrun : (before ++ epoch :: after).flatten.map Prod.fst = (generateTxns draws).1)
    (haux : ∀ e ∈ before ++ [epoch], ∀ x ∈ e, x.2.Ok)
    (hcount : ∀ e ∈ before ++ [epoch], e.length ≤ 2 ^ 20)
    (hrows : cfg.numWarehouses * 10 * 3000 * 15 +
      15 * ((before.map List.length).sum + epoch.length) ≤ kAbsent)
    {g : GpuIndex}
    (hbefore : (GpuIndex.init cfg durable entryCrid).run deletePath (before.map fillAll) = .ok g)
    {idx : Index} {out : EpochOut}
    (hindex : indexTxns deletePath g.index (fillAll epoch) = .ok (idx, out)) (plan : ExecPlan) :
    Sound (orderLineOps out.params) (locOf (orderLineOps out.params) plan)
      (execLoc out.params (planOf (orderLineOps out.params) plan)) := by
  obtain ⟨hb, hlast⟩ :=
    orderLines_of_run hW hdraws hmix hids hrun haux hcount hrows hbefore hindex
  exact sound_of_last hb hlast plan

theorem length_generateTxns (draws : List Draw) : (generateTxns draws).1.length = draws.length := by
  induction draws using List.reverseRecOn with
  | nil => rfl
  | append_singleton draws x ih =>
    rw [generateTxns_concat, List.length_append, List.length_append, ih]
    rfl

/-- An epoch of generated transactions, all orders with fifteen lines. -/
def fifteenLines (draws : List Draw) : List (TxnInput × Aux) :=
  (generateTxns draws).1.map fun t => (t, ⟨1, 15, fun _ => 15⟩)

theorem fifteenLines_run (draws : List Draw) :
    ([] ++ fifteenLines draws :: []).flatten.map Prod.fst = (generateTxns draws).1 := by
  simp [fifteenLines, Function.comp_def]

theorem fifteenLines_aux (draws : List Draw) : ∀ x ∈ fifteenLines draws, x.2.Ok := by
  intro x hx
  obtain ⟨t, -, rfl⟩ := List.mem_map.mp hx
  exact ⟨⟨Nat.le_refl 1, Nat.one_lt_two_pow (by decide)⟩, Nat.le_refl 15, fun _ => Nat.le_refl 15⟩

section
variable {draws : List Draw} (hdraws : ∀ x ∈ draws, x.InRange 1) (hcount : draws.length ≤ 100)
include hdraws hcount

theorem nextOid_few (w d : ℕ) : (generateTxns draws).2.nextOid w d < 2 ^ 24 := by
  rw [nextOid_run _ _ _ fun x hx => ⟨1, hdraws x hx⟩]
  have hle : draws.countP (Draw.ordersIn (w + 1) (d + 1)) ≤ draws.length := List.countP_le_length
  omega

omit hdraws in
theorem fifteenLines_few : (fifteenLines draws).length ≤ 100 := by
  rwa [fifteenLines, List.length_map, length_generateTxns]

/-- The first epoch of a short run with one warehouse is indexed. -/
theorem indexTxns_first : ∃ idx out,
    indexTxns true (GpuIndex.init (oneWarehouse false) noDurable fun _ => 0).index
      (fillAll (fifteenLines draws)) = .ok (idx, out) := by
  have hlen := fifteenLines_few hcount
  have hgen : Generated (oneWarehouse false) true (fillAll (fifteenLines draws)) := by
    refine fillAll_generated hdraws rfl (by decide) (nextOid_few hdraws hcount) (fun _ _ _ => rfl)
      (fun x hx => ?_) (fifteenLines_aux draws) (by omega)
    rw [← fifteenLines_run draws]
    exact List.mem_map_of_mem (by simpa using hx)
  have hrows : (oneWarehouse false).numWarehouses * 10 * 3000 * 15 +
      15 * (fillAll (fifteenLines draws)).length ≤ kAbsent := by
    rw [fillAll, List.length_map]
    simp only [oneWarehouse, kAbsent]
    omega
  have hlog : Logged (oneWarehouse false) _ _ := logged_init (show 1 < 2 ^ 8 by decide)
    (Nat.le_of_add_right_le (oneWarehouse_rows false)) noDurable fun _ => 0
  obtain ⟨g', hg'⟩ := indexTxns_returns hlog hgen (room_init hrows noDurable fun _ => 0)
    fun _ _ => trivial
  cases hindex : indexTxns true (GpuIndex.init (oneWarehouse false) noDurable fun _ => 0).index
      (fillAll (fifteenLines draws)) with
  | error e =>
    rw [GpuIndex.indexTxns, hindex] at hg'
    exact absurd hg' (by simp [bind, Except.bind])
  | ok r => exact ⟨r.1, r.2, rfl⟩

end

/-- A NewOrder, and a Delivery of the oldest order of every district. -/
def orderAndDeliver : List Draw :=
  [.newOrder 1 1 7 (List.replicate 5 ⟨1, 1, 5⟩), .delivery 1 3]

/-- Their epoch; every order has fifteen lines. -/
def orderAndDeliverEpoch : List (TxnInput × Aux) :=
  (generateTxns orderAndDeliver).1.map fun t => (t, ⟨1, 15, fun _ => 15⟩)

theorem delivery_location_planned_one : ∃ idx out,
    indexTxns true (GpuIndex.init (oneWarehouse false) noDurable fun _ => 0).index
      (fillAll orderAndDeliverEpoch) = .ok (idx, out) ∧
    Sound (orderLineOps out.params) (locOf (orderLineOps out.params) fun _ => 0)
      (execLoc out.params (planOf (orderLineOps out.params) fun _ => 0)) := by
  have hdraws : ∀ x ∈ orderAndDeliver, x.InRange 1 := by simp [orderAndDeliver, Draw.InRange]
  have hfew : orderAndDeliver.length ≤ 100 := by decide
  have hlen := fifteenLines_few hfew
  obtain ⟨idx, out, hindex⟩ := indexTxns_first hdraws hfew
  refine ⟨idx, out, hindex, ?_⟩
  refine delivery_location_planned (show 1 < 2 ^ 8 by decide) hdraws (fun _ _ _ => rfl)
    (nextOid_few hdraws hfew) (fifteenLines_run _) (by simpa using fifteenLines_aux _)
    (fun e he => ?_) ?_ rfl hindex _
  · rw [List.nil_append, List.mem_singleton] at he
    rw [he]
    omega
  · simp only [List.map_nil, List.sum_nil, oneWarehouse, kAbsent]
    omega

/-! ### A transaction id past the operation word -/

theorem tableEpoch_no_inserts {inp : TableInput} {tbl : Table} (h : inp.validInsert = []) :
    tableEpoch inp tbl = .ok (fastTable inp tbl tbl.store) := by
  rw [tableEpoch, h]
  rfl

/-- Without inserts every record the index finds is visible. -/
theorem fastResolve_no_inserts {inp : TableInput} (h : inp.validInsert = []) (store : Store)
    (cridBegin key tid : ℕ) : fastResolve inp store cridBegin none key tid = store.find key := by
  simp [fastResolve, fastView, GrowingTableView.resolve, GrowingTableView.resolveFast,
    GrowingTableView.visible, h]

/-- An epoch without inserts takes the fast path on every table. -/
theorem indexTxns_no_inserts {deletePath : Bool} {idx : Index} {txns : List TpccTxn}
    (ho : (orderInput txns).validInsert = []) (hno : (newOrderInput deletePath txns).validInsert = [])
    (hol : (orderLineInput txns).validInsert = []) : ∃ idx' out no ord,
      indexTxns deletePath idx txns = .ok (idx', out) ∧
      out.params = paramsOf txns no ord fun key _ => idx.orderLine.store.find key := by
  have hline : (fastTable (orderLineInput txns) idx.orderLine idx.orderLine.store).2.resolve =
      fun key _ => idx.orderLine.store.find key :=
    funext fun key => funext fun tid => fastResolve_no_inserts hol _ _ _ _
  refine ⟨_, _, (fastTable (newOrderInput deletePath txns) idx.newOrder idx.newOrder.store).2.resolve,
    (fastTable (orderInput txns) idx.order idx.order.store).2.resolve, by
    rw [indexTxns, indexWith, tableEpoch_no_inserts ho, tableEpoch_no_inserts hno,
      tableEpoch_no_inserts hol]
    rfl, ?_⟩
  exact congrArg (paramsOf txns _ _) hline

/-- Payments, and a Delivery behind them. -/
def lateDelivery (n : ℕ) : List Draw := List.replicate n (.payment 1 1 1 1 1 5) ++ [.delivery 1 3]

theorem generateTxns_payments (n : ℕ) : generateTxns (List.replicate n (.payment 1 1 1 1 1 5)) =
    (List.replicate n (.payment 1 1 1 1 1 5), .init) := by
  induction n with
  | zero => rfl
  | succ n ih =>
    rw [List.replicate_succ', generateTxns_concat, ih, List.replicate_succ']
    rfl

/-- What the index sees of them. -/
def lateDeliveryTxns (n : ℕ) : List TpccTxn :=
  List.replicate n .payment ++ [.delivery 1 (fun i => (List.replicate 10 2101).getD i 0) fun _ => 15]

theorem fillAll_lateDelivery (n : ℕ) :
    fillAll (fifteenLines (lateDelivery n)) = lateDeliveryTxns n := by
  have hos : (deliverAll .init 0 (List.range 10)).1 = List.replicate 10 2101 := by decide
  have hgen : (generateTxns (lateDelivery n)).1 =
      List.replicate n (.payment 1 1 1 1 1 5) ++ [.delivery 1 3 n (List.replicate 10 2101)] := by
    rw [lateDelivery, generateTxns_concat, generateTxns_payments]
    simp only [generateTxn, List.length_replicate, Nat.sub_self, hos]
  rw [fillAll, fifteenLines, hgen, List.map_map, List.map_append, List.map_replicate]
  rfl

theorem lateDelivery_no_inserts (n : ℕ) :
    (orderInput (lateDeliveryTxns n)).validInsert = [] ∧
    (newOrderInput true (lateDeliveryTxns n)).validInsert = [] ∧
    (orderLineInput (lateDeliveryTxns n)).validInsert = [] := by
  have hmem : ∀ t ∈ lateDeliveryTxns n, t.orderInsert = none ∧ t.newOrderInsert = none ∧
      ∀ i, t.orderLineInsert i = none := by
    intro t ht
    rcases List.mem_append.mp ht with ht | ht
    · rw [List.eq_of_mem_replicate ht]
      exact ⟨rfl, rfl, fun _ => rfl⟩
    · rw [List.mem_singleton.mp ht]
      exact ⟨rfl, rfl, fun _ => rfl⟩
  refine ⟨List.filterMap_eq_nil_iff.mpr fun x hx => ?_, List.filterMap_eq_nil_iff.mpr fun x hx => ?_,
    List.filterMap_eq_nil_iff.mpr fun x hx => ?_⟩
  · obtain ⟨t, ht, rfl⟩ := List.mem_map.mp hx
    exact (hmem t ht).1
  · obtain ⟨t, ht, rfl⟩ := List.mem_map.mp hx
    exact (hmem t ht).2.1
  · obtain ⟨t, ht, hx⟩ := List.mem_flatMap.mp hx
    obtain ⟨i, -, rfl⟩ := List.mem_map.mp hx
    exact (hmem t ht).2.2 i

/-- A loaded order line is found. -/
theorem find_loadedLine {W w d o n : ℕ} (hW : W < 2 ^ 8) (hw : w < W) (hd : d < 10) (ho : o < 3000)
    (hn : n < 15) (hfits : W * 10 * 3000 * 15 ≤ kAbsent) :
    (loadCuco (initialLineKeys W)).find (orderLineKey (o + 1) (d + 1) (w + 1) (n + 1)) ≠ kAbsent := by
  have hmem : orderLineKey (o + 1) (d + 1) (w + 1) (n + 1) ∈ initialLineKeys W :=
    List.mem_map.mpr ⟨(⟨w + 1, d + 1, o + 1⟩, n + 1), List.mem_flatMap.mpr ⟨_, List.mem_flatMap.mpr
      ⟨w, List.mem_range.mpr hw, List.mem_flatMap.mpr ⟨d, List.mem_range.mpr hd,
        List.mem_map_of_mem (List.mem_range.mpr ho)⟩⟩, List.mem_map_of_mem (List.mem_range.mpr hn)⟩, rfl⟩
  obtain ⟨j, hj⟩ := List.mem_iff_getElem?.mp hmem
  have hlt := (List.getElem?_eq_some_iff.mp hj).1
  rw [length_initialLineKeys] at hlt
  have hfind : (loadCuco (initialLineKeys W)).find (orderLineKey (o + 1) (d + 1) (w + 1) (n + 1)) = j := by
    refine insertAll_of_mem _ _ ?_ (List.mk_mem_zipIdx_iff_getElem?.mpr hj) rfl
    rw [List.zipIdx_map_fst]
    exact initialLineKeys_nodup hW
  omega

theorem mem_deliveryWrite {txns : List TpccTxn} {no ord ol : ℕ → ℕ → ℕ} {tid w : ℕ} {os n : ℕ → ℕ}
    (ht : txns[tid]? = some (.delivery w os n)) {i j : ℕ} (hi : i < 10) (hos : os i ≠ 0) (hj : j < n i) :
    ⟨ol (orderLineKey (os i) (i + 1) w (j + 1)) tid, tid, true, deliveryWriteLoc i j⟩ ∈
      orderLineOps (paramsOf txns no ord ol) := by
  have hp : (paramsOf txns no ord ol)[tid]? = some (indexTpccTxn no ord ol tid (.delivery w os n)) := by
    rw [getElem?_paramsOf, ht]
    rfl
  have hlines : ((List.range 10).map fun i => if os i = 0 then [] else
      (List.range (n i)).map fun j => ol (orderLineKey (os i) (i + 1) w (j + 1)) tid)[i]? =
        some ((List.range (n i)).map fun j => ol (orderLineKey (os i) (i + 1) w (j + 1)) tid) := by
    rw [List.getElem?_map, List.getElem?_range hi, Option.map_some, if_neg hos]
  have hline : ((List.range (n i)).map fun j => ol (orderLineKey (os i) (i + 1) w (j + 1)) tid)[j]? =
      some (ol (orderLineKey (os i) (i + 1) w (j + 1)) tid) := by
    rw [List.getElem?_map, List.getElem?_range hj, Option.map_some]
  exact List.mem_flatMap.mpr ⟨_, List.mk_mem_zipIdx_iff_getElem?.mpr hp,
    List.mem_flatMap.mpr ⟨_, List.mk_mem_zipIdx_iff_getElem?.mpr hlines,
      List.mem_flatMap.mpr ⟨_, List.mk_mem_zipIdx_iff_getElem?.mpr hline,
        List.mem_cons_of_mem _ (List.mem_singleton_self _)⟩⟩⟩

/-- A Delivery's writes have no location in the plan when their transaction's id does not fit the
    operation word. -/
theorem not_sound_of_late {txns : List TpccTxn} {no ord ol : ℕ → ℕ → ℕ} {tid w : ℕ} {os n : ℕ → ℕ}
    (ht : txns[tid]? = some (.delivery w os n)) (htid : 2 ^ 20 ≤ tid) {i j : ℕ} (hi : i < 10)
    (hos : os i ≠ 0) (hj : j < n i) (hrec : ol (orderLineKey (os i) (i + 1) w (j + 1)) tid ≠ kAbsent) :
    ¬ Sound (orderLineOps (paramsOf txns no ord ol))
      (locOf (orderLineOps (paramsOf txns no ord ol)) fun _ => 0)
      (execLoc (paramsOf txns no ord ol) (planOf (orderLineOps (paramsOf txns no ord ol)) fun _ => 0)) := by
  intro hsound
  have hplan := hsound.planned _ (mem_deliveryWrite ht hi hos hj) hrec
  have hdel : deliveryWrite (paramsOf txns no ord ol)
      ⟨ol (orderLineKey (os i) (i + 1) w (j + 1)) tid, tid, true, deliveryWriteLoc i j⟩ = true := by
    rw [deliveryWrite, getElem?_paramsOf, ht]
    rfl
  rw [execLoc, if_pos hdel, locOf, planOf, initializeExecutionPlan_wide _ _ htid] at hplan
  cases hplan

/-- With `2 ^ 20` Payments before it, a Delivery has such an id. -/
theorem delivery_location_late : ∃ idx out,
    indexTxns true (GpuIndex.init (oneWarehouse false) noDurable fun _ => 0).index
      (fillAll (fifteenLines (lateDelivery (2 ^ 20)))) = .ok (idx, out) ∧
    ¬ Sound (orderLineOps out.params) (locOf (orderLineOps out.params) fun _ => 0)
      (execLoc out.params (planOf (orderLineOps out.params) fun _ => 0)) := by
  rw [fillAll_lateDelivery]
  obtain ⟨ho, hno, hol⟩ := lateDelivery_no_inserts (2 ^ 20)
  have hlast : (lateDeliveryTxns (2 ^ 20))[2 ^ 20]? =
      some (.delivery 1 (fun i => (List.replicate 10 2101).getD i 0) fun _ => 15) := by
    rw [lateDeliveryTxns, List.getElem?_append_right (by rw [List.length_replicate]),
      List.length_replicate, Nat.sub_self]
    rfl
  have hfind : (loadCuco (initialLineKeys 1)).find (orderLineKey 2101 1 1 1) ≠ kAbsent :=
    @find_loadedLine 1 0 0 2100 0 (by decide) (by decide) (by decide) (by decide) (by decide) (by decide)
  obtain ⟨idx, out, no, ord, hindex, hparams⟩ :=
    @indexTxns_no_inserts true (GpuIndex.init (oneWarehouse false) noDurable fun _ => 0).index _ ho hno hol
  refine ⟨idx, out, hindex, ?_⟩
  rw [hparams]
  exact @not_sound_of_late _ _ _ _ _ _ _ _ hlast le_rfl 0 0 (by decide) (by decide) (by decide) hfind

end Egad.Tpcc
