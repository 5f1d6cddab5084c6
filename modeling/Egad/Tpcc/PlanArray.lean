import Egad.Planner.Encoding
import Egad.Tpcc.Submission

/-! # The packed plan array of a TPC-C epoch (`benchmarks/tpcc_gpu_txn.cu`, `txn.h`)

    Every transaction has a plan of the size its type needs. The sizes are summed into 32-bit byte
    offsets, and the planners of all tables scatter their locations through them:

        index   0          268               296
                | type  NewOrder plan | type  Payment plan | …        capacity 1404 · num_txns
                  4     264             4     24

        write of an operation   index[GET_TXN_ID] + 4 + 4 · GET_OFFSET
        read of an access       index[txn]        + 4 + 4 · word of the field -/

namespace Egad.Tpcc
open Egad.Lib Egad.Planner Egad.Execution

/-- `BaseTxnSize` of a transaction's plan, in bytes. -/
def execPlanSize : ExecParams → ℕ
  | .newOrder .. => 4 + 264
  | .payment .. => 4 + 24
  | .orderStatus .. => 4 + 68
  | .delivery _ => 4 + 1400
  | .stockLevel _ => 4 + 1200

/-- `index` after `buildPackedTxnArrayGpu`: zero, and the inclusive sums of the sizes. -/
def packedIndex (params : List ExecParams) : List ℕ :=
  (exclusiveSum (params.map execPlanSize ++ [0])).map (· % 2 ^ 32)

/-- `capacity` of a `PackedTxnArray<TpccExecPlan>`, in bytes. -/
def packedCapacity (numTxns : ℕ) : ℕ := (1404 * numTxns) % 2 ^ 32

/-- The address of `getTxn(txn)->data[offset]`. -/
def planAddr (index : List ℕ) (txn offset : ℕ) : ℕ := index.getD txn 0 + 4 + 4 * offset

/-- The writes of `scatterRWLocation` on one table's operations. -/
def scatterWrites (index : List ℕ) (submitted : List ℕ) : List (ℕ × ℕ) :=
  (plannedOps submitted).map fun x =>
    (planAddr index (getTxnId x.1) (getOffset x.1), rwLocation x.2.1 x.2.2)

/-- The writes of all planners. -/
def scatterAll (params : List ExecParams) : List (ℕ × ℕ) :=
  TableName.all.flatMap fun t =>
    scatterWrites (packedIndex params) ((submitTpccTxns params t).map Op.encode)

/-- The accesses whose location the hybrid executor reads from the plan: all but the order-line
    writes of a Delivery. -/
def ExecParams.planRead (p : ExecParams) (a : TableName × Op) : Bool :=
  !(p.growing.isDelivery && a.1 = .orderLine && a.2.isWrite)

/-! ### Plan words -/

theorem gpuExecTpccTxn_offset {txnId : ℕ} {p : ExecParams} (hp : p.Ok) :
    ∀ a ∈ gpuExecTpccTxn txnId p, 4 + 4 * (a.2.offset + 1) ≤ execPlanSize p := by
  cases p with
  | newOrder w d c n o items =>
    obtain ⟨-, hlen, -⟩ := hp
    refine List.forall_mem_append.mpr ⟨?_, List.forall_mem_flatMap.mpr fun x hx a ha => ?_⟩
    · simp [readOp, writeOp, execPlanSize]
    · have hlt := (zipIdx_lt hx).2
      have hhigh := (mem_execItem ha).2
      simp only [execPlanSize]
      omega
  | payment w d c => simp [gpuExecTpccTxn, readOp, writeOp, execPlanSize]
  | orderStatus c o lines =>
    obtain ⟨-, hlen, -⟩ := hp
    refine List.forall_mem_append.mpr ⟨by simp [readOp, execPlanSize], fun a ha => ?_⟩
    obtain ⟨x, hx, rfl⟩ := List.mem_map.mp ha
    have hlt := (zipIdx_lt hx).2
    simp only [readOp, orderStatusLineLoc, execPlanSize]
    omega
  | delivery ds =>
    obtain ⟨hlen, hds⟩ := hp
    refine List.forall_mem_flatMap.mpr fun x hx a ha => ?_
    obtain ⟨hmem, hlt⟩ := zipIdx_lt hx
    have h := mem_execDistrict (hds _ hmem).2.1 ha
    simp only [deliveryReadLoc, deliveryWriteLoc] at h
    simp only [execPlanSize]
    rcases h with ⟨b, hb, h⟩ | ⟨j, hj, h | h⟩ <;> omega
  | stockLevel ss =>
    obtain ⟨hlen, -⟩ := hp
    intro a ha
    obtain ⟨x, hx, rfl⟩ := List.mem_map.mp ha
    have hlt := (zipIdx_lt hx).2
    simp only [readOp, execPlanSize]
    omega

theorem mem_submitTpccTxn {txnId : ℕ} {p : ExecParams} {t : TableName} {o : Op} :
    o ∈ submitTpccTxn txnId p t ↔ (t, o) ∈ gpuExecTpccTxn txnId p := by
  rw [← gpuExecTpccTxn_filter, List.mem_map]
  constructor
  · rintro ⟨⟨t', o'⟩, ha, rfl⟩
    obtain ⟨ha, ht⟩ := List.mem_filter.mp ha
    rw [← of_decide_eq_true ht]
    exact ha
  · exact fun ha => ⟨(t, o), List.mem_filter.mpr ⟨ha, by simp⟩, rfl⟩

/-- No two operations of a transaction, on whatever tables, have one plan word. -/
theorem submitTpccTxn_offsets {txnId : ℕ} {p : ExecParams} (hp : p.Ok) :
    ((TableName.all.flatMap (submitTpccTxn txnId p)).map Op.offset).Nodup := by
  have hwords : (gpuExecTpccTxn txnId p).Pairwise fun a b => a.2.offset ≠ b.2.offset :=
    gpuExecTpccTxn_words hp
  have hsymm : Std.Symm fun a b : TableName × Op => a.2.offset ≠ b.2.offset := ⟨fun _ _ => Ne.symm⟩
  rw [List.Nodup, List.pairwise_map, List.pairwise_flatMap]
  refine ⟨fun t _ => ?_, ?_⟩
  · rw [← gpuExecTpccTxn_filter, List.pairwise_map]
    exact hwords.sublist List.filter_sublist
  · have hnodup : TableName.all.Nodup := by decide
    refine hnodup.imp fun {t t'} hne o ho o' ho' => ?_
    have hneq : (t, o) ≠ (t', o') := fun he => hne (Prod.mk.inj he).1
    exact hwords.forall (mem_submitTpccTxn.mp ho) (mem_submitTpccTxn.mp ho') hneq

/-! ### Regions -/

/-- The bytes of the plans before transaction `i`. -/
def planStart (params : List ExecParams) (i : ℕ) : ℕ := ((params.take i).map execPlanSize).sum

theorem planStart_succ {params : List ExecParams} {i : ℕ} {p : ExecParams}
    (h : params[i]? = some p) : planStart params (i + 1) = planStart params i + execPlanSize p := by
  rw [planStart, List.take_add_one, h, List.map_append, List.sum_append, ← planStart]
  simp

theorem planStart_mono (params : List ExecParams) : Monotone (planStart params) := by
  refine monotone_nat_of_le_succ fun i => ?_
  cases h : params[i]? with
  | some p =>
    rw [planStart_succ h]
    exact Nat.le_add_right _ _
  | none =>
    rw [planStart, planStart, List.take_add_one, h]
    simp

theorem planStart_length (params : List ExecParams) :
    planStart params params.length = (params.map execPlanSize).sum := by
  rw [planStart, List.take_length]

theorem packedIndex_getD {params : List ExecParams} {i : ℕ} (hi : i ≤ params.length) :
    (packedIndex params).getD i 0 = planStart params i % 2 ^ 32 := by
  have hsplit : params.map execPlanSize ++ [0] = (params.take i).map execPlanSize ++
      ((params.drop i).map execPlanSize ++ [0]) := by
    rw [← List.append_assoc, ← List.map_append, List.take_append_drop]
  obtain ⟨n, r, hr⟩ : ∃ n r, (params.drop i).map execPlanSize ++ [0] = n :: r := by
    cases (params.drop i).map execPlanSize with
    | nil => exact ⟨0, [], rfl⟩
    | cons n r => exact ⟨n, r ++ [0], rfl⟩
  have hget := getElem?_exclusiveSum ((params.take i).map execPlanSize) n r
  rw [← hr, ← hsplit, List.length_map, List.length_take, Nat.min_eq_left hi] at hget
  rw [packedIndex, List.getD_eq_getElem?_getD, List.getElem?_map, hget]
  rfl

/-- The packed plans lie one behind the other inside the array. -/
def PackedPlans (params : List ExecParams) : Prop :=
  (∀ i p, params[i]? = some p →
    (packedIndex params).getD (i + 1) 0 = (packedIndex params).getD i 0 + execPlanSize p) ∧
  (packedIndex params).getD params.length 0 ≤ packedCapacity params.length

/-- The offsets are sums of 32 bits, and so is the capacity: the plans lie in the array exactly when
    their sizes do. -/
theorem packedPlans_iff (params : List ExecParams) : PackedPlans params ↔
    (params.map execPlanSize).sum ≤ packedCapacity params.length := by
  have hcap : packedCapacity params.length < 2 ^ 32 := Nat.mod_lt _ (Nat.two_pow_pos 32)
  constructor
  · rintro ⟨hstep, hlast⟩
    -- without a wrapped step the offsets are the sums themselves
    have hexact : ∀ i ≤ params.length, (packedIndex params).getD i 0 = planStart params i := by
      intro i
      induction i with
      | zero =>
        intro hi
        rw [packedIndex_getD hi]
        rfl
      | succ i ih =>
        intro hi
        obtain ⟨p, hp⟩ : ∃ p, params[i]? = some p := ⟨_, List.getElem?_eq_getElem hi⟩
        rw [hstep i p hp, ih (by omega), planStart_succ hp]
    rw [hexact _ le_rfl, planStart_length] at hlast
    exact hlast
  · intro hfit
    have hexact : ∀ i ≤ params.length, (packedIndex params).getD i 0 = planStart params i := by
      intro i hi
      have hle := planStart_mono params hi
      rw [planStart_length] at hle
      rw [packedIndex_getD hi, Nat.mod_eq_of_lt (by omega)]
    refine ⟨fun i p hp => ?_, ?_⟩
    · have hi : i < params.length := (List.getElem?_eq_some_iff.mp hp).1
      rw [hexact _ hi, hexact _ hi.le, planStart_succ hp]
    · rw [hexact _ le_rfl, planStart_length]
      exact hfit

/-- Plan words of the array have addresses of their own. -/
theorem planAddr_inj {params : List ExecParams} (h : PackedPlans params) {i j : ℕ}
    {p q : ExecParams} (hp : params[i]? = some p) (hq : params[j]? = some q) {v w : ℕ}
    (hv : 4 + 4 * (v + 1) ≤ execPlanSize p) (hw : 4 + 4 * (w + 1) ≤ execPlanSize q)
    (heq : planAddr (packedIndex params) i v = planAddr (packedIndex params) j w) :
    i = j ∧ v = w := by
  have hfit := (packedPlans_iff params).mp h
  have hcap : packedCapacity params.length < 2 ^ 32 := Nat.mod_lt _ (Nat.two_pow_pos 32)
  have hexact : ∀ {k r}, params[k]? = some r →
      (packedIndex params).getD k 0 = planStart params k := by
    intro k r hr
    have hk : k < params.length := (List.getElem?_eq_some_iff.mp hr).1
    have hle := planStart_mono params hk.le
    rw [planStart_length] at hle
    rw [packedIndex_getD hk.le, Nat.mod_eq_of_lt (by omega)]
  rw [planAddr, planAddr, hexact hp, hexact hq] at heq
  have hsp := planStart_succ hp
  have hsq := planStart_succ hq
  rcases Nat.lt_trichotomy i j with hij | rfl | hij
  · have hle : planStart params (i + 1) ≤ planStart params j := planStart_mono params hij
    omega
  · exact ⟨rfl, by omega⟩
  · have hle : planStart params (j + 1) ≤ planStart params i := planStart_mono params hij
    omega

/-! ### Delivery of the locations -/

/-- The location that is read for an access is the one planned for an operation of the access's
    table with its record, transaction and kind, whatever the plan array held and in whatever order
    the planners' writes arrive. -/
def Delivered (params : List ExecParams) : Prop :=
  ∀ (old : ℕ → ℕ) (ws : List (ℕ × ℕ)), ws.Perm (scatterAll params) →
    ∀ x ∈ params.zipIdx, ∀ a ∈ gpuExecTpccTxn x.2 x.1, x.1.planRead a →
      ∃ op ty ver, (op, ty, ver) ∈ plannedOps ((submitTpccTxns params a.1).map Op.encode) ∧
        decodeOp op = a.2 ∧
        writeAll old ws (planAddr (packedIndex params) x.2 a.2.offset) = rwLocation ty ver

/-- The transactions whose ids do not fit the submitted word make no access. -/
def IdsFit (params : List ExecParams) : Prop :=
  ∀ x ∈ params.zipIdx, 2 ^ 20 ≤ x.2 → x.1 = .stockLevel []

section
variable {params : List ExecParams} (hok : ∀ p ∈ params, p.Ok) (hids : IdsFit params)
include hok hids

theorem accesses_fit {x : ExecParams × ℕ} (hx : x ∈ params.zipIdx) :
    ∀ a ∈ gpuExecTpccTxn x.2 x.1, a.2.txn = x.2 ∧ a.2.Fits := by
  rcases Nat.lt_or_ge x.2 (2 ^ 20) with hlt | hge
  · exact gpuExecTpccTxn_fits hlt (hok _ (zipIdx_lt hx).1)
  · rw [hids x hx hge]
    exact fun a ha => absurd ha List.not_mem_nil

theorem accesses_batch_of_ids : Batch ((accesses (tpccPieces params)).map Prod.snd) := by
  rw [accesses_tpccPieces, List.map_flatMap]
  have hfits : ∀ x ∈ params.zipIdx, ∀ o ∈ (gpuExecTpccTxn x.2 x.1).map Prod.snd,
      o.txn = x.2 ∧ o.Fits := by
    intro x hx o ho
    obtain ⟨a, ha, rfl⟩ := List.mem_map.mp ho
    exact accesses_fit hok hids hx a ha
  exact batch_of_blocks (fun k p => (gpuExecTpccTxn k p).map Prod.snd) Prod.fst monotone_id
    (fun x hx o ho => (hfits x hx o ho).2)
    (fun x hx o ho => ⟨(hfits x hx o ho).1, (hfits x hx o ho).1⟩)
    fun x hx => List.pairwise_map.mpr (gpuExecTpccTxn_words (hok _ (zipIdx_lt hx).1))

theorem submitTpccTxns_batch (t : TableName) : Batch (submitTpccTxns params t) :=
  accessesTo_tpccPieces params t ▸ Batch.accessesTo (accesses_batch_of_ids hok hids) t

/-- Where an operation of the epoch belongs. -/
theorem mem_submitTpccTxns {t : TableName} {o : Op} (ho : o ∈ submitTpccTxns params t) :
    ∃ p, params[o.txn]? = some p ∧ 4 + 4 * (o.offset + 1) ≤ execPlanSize p := by
  obtain ⟨x, hx, ho⟩ := List.mem_flatMap.mp ho
  have ha := mem_submitTpccTxn.mp ho
  refine ⟨x.1, ?_, gpuExecTpccTxn_offset (hok _ (zipIdx_lt hx).1) _ ha⟩
  rw [(accesses_fit hok hids hx _ ha).1]
  exact List.mk_mem_zipIdx_iff_getElem?.mp hx

theorem scatterWrites_batch (t : TableName) :
    scatterWrites (packedIndex params) ((submitTpccTxns params t).map Op.encode) =
      (sortedBatch (submitTpccTxns params t)).map fun o =>
        (planAddr (packedIndex params) o.txn o.offset,
          rwLocation (opType (submitTpccTxns params t) o) (verRank (submitTpccTxns params t) o)) := by
  have hb := submitTpccTxns_batch hok hids t
  rw [scatterWrites, plannedOps_batch hb, List.map_map]
  refine List.map_congr_left fun o ho => ?_
  have hfits := fits_sorted hb ho
  rw [Function.comp_apply, Op.getTxnId_encode hfits, Op.getOffset_encode hfits]

/-- The writes of all planners go to different words. -/
theorem scatterAll_nodup (hpacked : PackedPlans params) :
    ((scatterAll params).map Prod.fst).Nodup := by
  have hsplit : ∀ {t t' : TableName} {o o' : Op}, o ∈ submitTpccTxns params t →
      o' ∈ submitTpccTxns params t' → (o.txn, o.offset) ≠ (o'.txn, o'.offset) →
      planAddr (packedIndex params) o.txn o.offset ≠
        planAddr (packedIndex params) o'.txn o'.offset := by
    intro t t' o o' ho ho' hne heq
    obtain ⟨p, hp, hv⟩ := mem_submitTpccTxns hok hids ho
    obtain ⟨q, hq, hw⟩ := mem_submitTpccTxns hok hids ho'
    obtain ⟨htxn, hoff⟩ := planAddr_inj hpacked hp hq hv hw heq
    exact hne (Prod.ext htxn hoff)
  rw [scatterAll, List.Nodup, List.pairwise_map, List.pairwise_flatMap]
  refine ⟨fun t _ => ?_, ?_⟩
  · have hb := submitTpccTxns_batch hok hids t
    rw [scatterWrites_batch hok hids, List.pairwise_map]
    have hwords : (sortedBatch (submitTpccTxns params t)).Pairwise fun o p =>
        (o.txn, o.offset) ≠ (p.txn, p.offset) :=
      ((stableSort_perm Op.record _).pairwise_iff fun h => Ne.symm h).mpr hb.words
    exact hwords.imp_of_mem fun ho hp hne =>
      hsplit (mem_stableSort.mp ho) (mem_stableSort.mp hp) hne
  · have hnodup : TableName.all.Nodup := by decide
    refine hnodup.imp fun {t t'} hne w hw w' hw' => ?_
    rw [scatterWrites_batch hok hids] at hw hw'
    obtain ⟨o, ho, rfl⟩ := List.mem_map.mp hw
    obtain ⟨o', ho', rfl⟩ := List.mem_map.mp hw'
    have ho := mem_stableSort.mp ho
    have ho' := mem_stableSort.mp ho'
    exact hsplit ho ho' (words_of_batch (fun t => (accessesTo_tpccPieces params t).symm)
      (accesses_batch_of_ids hok hids) hne.symm ho' ho)

/-- A planned location is found at the word its access reads. -/
theorem planned_at (hpacked : PackedPlans params) (old : ℕ → ℕ) {ws : List (ℕ × ℕ)}
    (hws : ws.Perm (scatterAll params)) {t : TableName} {o : Op}
    (ho : o ∈ submitTpccTxns params t) :
    writeAll old ws (planAddr (packedIndex params) o.txn o.offset) =
      rwLocation (opType (submitTpccTxns params t) o) (verRank (submitTpccTxns params t) o) := by
  have hall : ∀ t, t ∈ TableName.all := fun t => by cases t <;> decide
  refine writeAll_of_mem old ((hws.map Prod.fst).nodup_iff.mpr
    (scatterAll_nodup hok hids hpacked)) (hws.mem_iff.mpr ?_)
  refine List.mem_flatMap.mpr ⟨t, hall t, ?_⟩
  rw [scatterWrites_batch hok hids]
  exact List.mem_map.mpr ⟨o, mem_stableSort.mpr ho, rfl⟩

/-- The array delivers what the executors' model reads from the common plan. -/
theorem planned_eq_planAll (hpacked : PackedPlans params) (old : ℕ → ℕ) (plan : ExecPlan)
    {ws : List (ℕ × ℕ)} (hws : ws.Perm (scatterAll params)) {t : TableName} {o : Op}
    (ho : o ∈ submitTpccTxns params t) :
    writeAll old ws (planAddr (packedIndex params) o.txn o.offset) =
      planAll (submitTpccTxns params) TableName.all plan (o.txn, o.offset) := by
  have horder : ∀ t, submitTpccTxns params t = accessesTo (tpccPieces params) t :=
    fun t => (accessesTo_tpccPieces params t).symm
  have hwords : ∀ {t t'}, t ≠ t' → ∀ o ∈ submitTpccTxns params t, ∀ o' ∈ submitTpccTxns params t',
      (o'.txn, o'.offset) ≠ (o.txn, o.offset) := fun hne o ho o' ho' =>
    words_of_batch horder (accesses_batch_of_ids hok hids) hne ho ho'
  rw [planned_at hok hids hpacked old hws ho, planAll_eq_locOf (submitTpccTxns_batch hok hids) hwords
    (by decide) (by cases t <;> decide) plan ho, locOf_eq (submitTpccTxns_batch hok hids t) plan ho]

theorem delivered_of_ids (hpacked : PackedPlans params) : Delivered params := by
  intro old ws hws x hx a ha _
  have hb := submitTpccTxns_batch hok hids a.1
  have ho : a.2 ∈ submitTpccTxns params a.1 :=
    List.mem_flatMap.mpr ⟨x, hx, mem_submitTpccTxn.mpr ha⟩
  have hread := planned_at hok hids hpacked old hws ho
  rw [(accesses_fit hok hids hx a ha).1] at hread
  refine ⟨_, _, _, ?_, decodeOp_encode (hb.fits ho), hread⟩
  rw [plannedOps_batch hb]
  exact List.mem_map.mpr ⟨a.2, mem_stableSort.mpr ho, rfl⟩

end

/-- Every transaction but a StockLevel of no items reads a location from its plan. -/
theorem exists_planRead (txnId : ℕ) {p : ExecParams} (hp : p.Complete) (hne : p ≠ .stockLevel []) :
    ∃ a ∈ gpuExecTpccTxn txnId p, p.planRead a = true ∧ a.2.txn = txnId := by
  cases p with
  | newOrder w d c n o items => exact ⟨(.warehouse, readOp txnId w 0), by simp [gpuExecTpccTxn], rfl, rfl⟩
  | payment w d c => exact ⟨(.warehouse, readOp txnId w 0), by simp [gpuExecTpccTxn], rfl, rfl⟩
  | orderStatus c o lines =>
    exact ⟨(.customer, readOp txnId c 0), by simp [gpuExecTpccTxn], rfl, rfl⟩
  | delivery ds =>
    have hlen := hp.2 ds rfl
    cases ds with
    | nil => exact absurd hlen (by simp)
    | cons d ds =>
      exact ⟨(.newOrder, readOp txnId d.newOrderId 0), by simp [gpuExecTpccTxn, execDistrict], rfl,
        rfl⟩
  | stockLevel ss =>
    cases ss with
    | nil => exact absurd rfl hne
    | cons r ss => exact ⟨(.stock, readOp txnId r 0), by simp [gpuExecTpccTxn], rfl, rfl⟩

/-- A location is planned for transaction ids below 2^20 only. -/
theorem ids_of_delivered {params : List ExecParams} (hcomplete : ∀ p ∈ params, p.Complete)
    (h : Delivered params) : IdsFit params := by
  intro x hx hge
  by_contra hne
  obtain ⟨a, ha, hread, htxn⟩ := exists_planRead x.2 (hcomplete x.1 (zipIdx_lt hx).1) hne
  obtain ⟨op, ty, ver, -, hdecode, -⟩ := h (fun _ => 0) _ (List.Perm.refl _) x hx a ha hread
  have hlt := getTxnId_lt op
  rw [show getTxnId op = x.2 from (congrArg Op.txn hdecode).trans htxn] at hlt
  omega

theorem execPlanSize_le (p : ExecParams) : execPlanSize p ≤ 1404 := by
  cases p <;> simp [execPlanSize]

/-- Epochs of at most 2^20 transactions fit in both respects. -/
theorem fits_of_length {params : List ExecParams} (hlen : params.length ≤ 2 ^ 20) :
    IdsFit params ∧ (params.map execPlanSize).sum ≤ packedCapacity params.length := by
  constructor
  · intro x hx hge
    have hlt := (zipIdx_lt hx).2
    omega
  · have hle := List.sum_le_card_nsmul (params.map execPlanSize) 1404 (by
      intro c hc
      obtain ⟨p, -, rfl⟩ := List.mem_map.mp hc
      exact execPlanSize_le p)
    rw [nsmul_eq_mul, Nat.cast_id, List.length_map] at hle
    rw [packedCapacity, Nat.mod_eq_of_lt (by omega)]
    omega

/-- Plans lie in disjoint regions of the array, operations have words of their own inside the
    region of their transaction and every access reads the location planned for it, exactly when no
    transaction from 2^20 on makes an access and the plans' sizes fit the array's 32-bit capacity. -/
theorem plans_delivered {params : List ExecParams} (hcomplete : ∀ p ∈ params, p.Complete) :
    (PackedPlans params ∧
      (∀ x ∈ params.zipIdx,
        (∀ t, ∀ o ∈ submitTpccTxn x.2 x.1 t, 4 + 4 * (o.offset + 1) ≤ execPlanSize x.1) ∧
        ((TableName.all.flatMap (submitTpccTxn x.2 x.1)).map Op.offset).Nodup) ∧
      Delivered params) ↔
    IdsFit params ∧ (params.map execPlanSize).sum ≤ packedCapacity params.length := by
  have hok : ∀ p ∈ params, p.Ok := fun p hp => (hcomplete p hp).1
  constructor
  · rintro ⟨hpacked, -, hdelivered⟩
    exact ⟨ids_of_delivered hcomplete hdelivered, (packedPlans_iff params).mp hpacked⟩
  · rintro ⟨hids, hsize⟩
    have hpacked := (packedPlans_iff params).mpr hsize
    refine ⟨hpacked, fun x hx => ?_, delivered_of_ids hok hids hpacked⟩
    have hp := hok x.1 (zipIdx_lt hx).1
    exact ⟨fun t o ho => gpuExecTpccTxn_offset hp _ (mem_submitTpccTxn.mp ho),
      submitTpccTxn_offsets hp⟩

/-- A Payment and the Delivery behind it. -/
theorem plans_delivered_two : Delivered [.payment 0 0 0, deliveryOf 10] :=
  ((plans_delivered (by
    simp only [List.forall_mem_cons, List.not_mem_nil, false_imp_iff, implies_true, and_true]
    exact ⟨⟨by simp [ExecParams.Ok], by simp⟩, deliveryOf_complete (by decide)⟩)).mpr
      (fits_of_length (by decide))).2.2

/-- Transaction 2^20 of an epoch of 2^20 + 1 Payments reads no location planned for it. -/
theorem plans_delivered_fails : ¬ Delivered (List.replicate (2 ^ 20 + 1) (.payment 0 0 0)) := by
  intro h
  have hcomplete : ∀ p ∈ List.replicate (2 ^ 20 + 1) (ExecParams.payment 0 0 0), p.Complete := by
    intro p hp
    rw [List.eq_of_mem_replicate hp]
    exact ⟨by simp [ExecParams.Ok], by simp⟩
  have hmem : (ExecParams.payment 0 0 0, 2 ^ 20) ∈
      (List.replicate (2 ^ 20 + 1) (ExecParams.payment 0 0 0)).zipIdx := by
    rw [List.mk_mem_zipIdx_iff_getElem?, List.getElem?_replicate, if_pos (Nat.lt_succ_self _)]
  exact absurd (ids_of_delivered hcomplete h _ hmem le_rfl) (by simp)

end Egad.Tpcc
