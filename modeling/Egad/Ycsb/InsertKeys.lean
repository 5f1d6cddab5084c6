import Egad.Ycsb.Pieces
import Egad.Ycsb.ShadowIndex

/-! # The insert keys of a YCSB epoch (`benchmarks/ycsb_gpu_submitter.cu`)

    The submitter tells the stager which records of the epoch are created by it. It decides operation
    by operation: an INSERT counts when its record id lies in the range the index minted this epoch.

        index       record_ids[i]            mintedBegin ≤ id < mintedBegin + numMinted
        submitter   op_is_insert             INSERT and id in the minted range
        derive      insert_keys[op]          the record id in the word of the op, or absent

    The decision per operation and the one per record are the same: a record of the minted range is
    first touched by its INSERT, which writes all of its fields, and an INSERT of a live key has an
    id below the range. -/

namespace Egad.Ycsb
open Egad.Lib Egad.Timeline Egad.Execution Egad.Planner

/-! ### The lists -/

/-- The executor-facing parameters of an epoch. -/
def slotParams (recordIds : List ℕ) (slots : List Slot) : List SlotParam :=
  recordIds.zipWith (fun rid s => ⟨paramOp rid s.op, rid, s.field, fun h => if_pos h⟩) slots

/-- `op_is_insert_kind` of `submitYcsbTxn`. -/
def isInsertKind (mintedBegin numMinted : ℕ) (x : SlotParam) : Bool :=
  x.op = .insert ∧ sub32 x.recordId mintedBegin < numMinted

section
variable (splitField : Bool)

/-- `all_keys` of `deriveStagerKeys`. -/
def allKeys (params : List SlotParam) : List ℕ := (submitYcsbTxns splitField params).map keyOf

/-- `insert_keys` of `deriveStagerKeys`, with the flags of `submitYcsbTxn`. -/
def insertKeys (mintedBegin numMinted : ℕ) (params : List SlotParam) : List ℕ :=
  params.zipIdx.flatMap fun x => (submitSlot splitField x.2 x.1).map fun o =>
    if isInsertKind mintedBegin numMinted x.1 then keyOf o else kNoRecord

/-- The record a unit of the cache belongs to. -/
def recordOf (unit : ℕ) : ℕ := if splitField then unit / 10 else unit

end

/-- The transactions of a batch have numbers that fit the operation words. -/
def TxnsFit (ops : List Op) : Prop := ∀ o ∈ ops, o.txn < 2 ^ 20

/-! ### Record ids of an epoch -/

section
variable {cridBegin : ℕ}

variable (cridBegin) in
/-- What an operation's replay does to the ids: a new one is the next of the range, any other was
    live or is absent. -/
theorem replayOp_cases (o : Oracle) (s : Slot) :
    (s.op = .insert ∧ (replayOp cridBegin o s).2 = cridBegin + o.minted ∧
      (replayOp cridBegin o s).1.minted = o.minted + 1 ∧
      (replayOp cridBegin o s).1.live = Function.update o.live s.key (cridBegin + o.minted)) ∨
    ((replayOp cridBegin o s).2 = o.live s.key ∧ (replayOp cridBegin o s).1.minted = o.minted ∧
      ∀ k, (replayOp cridBegin o s).1.live k = o.live k ∨
        (replayOp cridBegin o s).1.live k = kAbsent) := by
  unfold replayOp
  cases hop : s.op with
  | insert =>
    dsimp only
    split
    · exact Or.inl ⟨rfl, rfl, rfl, rfl⟩
    · exact Or.inr ⟨rfl, rfl, fun _ => Or.inl rfl⟩
  | delete =>
    dsimp only
    split
    · refine Or.inr ⟨rfl, rfl, fun k => ?_⟩
      dsimp only
      rcases eq_or_ne k s.key with rfl | hne
      · exact Or.inr (Function.update_self ..)
      · exact Or.inl (Function.update_of_ne hne ..)
    · rename_i hl
      exact Or.inr ⟨(not_not.mp hl).symm, rfl, fun _ => Or.inl rfl⟩
  | _ => exact Or.inr ⟨rfl, rfl, fun _ => Or.inl rfl⟩

/-- The ids of the lives are below the counter. -/
def Oracle.Below (cridBegin : ℕ) (o : Oracle) : Prop :=
  ∀ k, o.live k ≠ kAbsent → o.live k < cridBegin + o.minted

theorem Oracle.Below.step {o : Oracle} (h : o.Below cridBegin) (s : Slot) :
    (replayOp cridBegin o s).1.Below cridBegin := by
  intro k hk
  rcases replayOp_cases cridBegin o s with ⟨-, -, hm, hl⟩ | ⟨-, hm, hl⟩
  · rw [hl] at hk ⊢
    rw [hm]
    rcases eq_or_ne k s.key with rfl | hne
    · rw [Function.update_self]
      omega
    · rw [Function.update_of_ne hne] at hk ⊢
      have := h k hk
      omega
  · rw [hm]
    rcases hl k with he | he
    · rw [he] at hk ⊢
      exact h k hk
    · exact absurd he hk

/-- The first operation with an id of the range is the INSERT that created it. -/
theorem exists_creator : ∀ {slots : List Slot} {o : Oracle}, o.Below cridBegin → ∀ {i c : ℕ},
    (replayEpoch cridBegin o slots)[i]? = some c → c ≠ kAbsent → cridBegin + o.minted ≤ c →
    ∃ i₀ s, i₀ ≤ i ∧ slots[i₀]? = some s ∧ s.op = .insert ∧
      (replayEpoch cridBegin o slots)[i₀]? = some c ∧
      ∀ j, (replayEpoch cridBegin o slots)[j]? = some c → i₀ ≤ j
  | [], _, _, i, c, hi, _, _ => by simp [replayEpoch] at hi
  | s :: slots, o, hb, i, c, hi, hne, hge => by
    rw [replayEpoch] at hi ⊢
    rcases replayOp_cases cridBegin o s with ⟨hop, hrid, hm, -⟩ | ⟨hrid, hm, -⟩
    · rcases eq_or_ne c (cridBegin + o.minted) with rfl | hc
      · exact ⟨0, s, Nat.zero_le i, rfl, hop, by rw [List.getElem?_cons_zero, hrid], fun _ _ => Nat.zero_le _⟩
      · -- a later id is created later
        cases i with
        | zero =>
          rw [List.getElem?_cons_zero, hrid] at hi
          exact absurd (Option.some.inj hi).symm hc
        | succ i =>
          obtain ⟨i₀, s₀, hle, hs, hins, hat, hfirst⟩ := exists_creator (hb.step s) hi hne (by omega)
          refine ⟨i₀ + 1, s₀, by omega, hs, hins, hat, fun j hj => ?_⟩
          cases j with
          | zero =>
            rw [List.getElem?_cons_zero, hrid] at hj
            exact absurd (Option.some.inj hj).symm hc
          | succ j => exact Nat.succ_le_succ (hfirst j hj)
    · have hold : (replayOp cridBegin o s).2 ≠ c := by
        rw [hrid]
        rintro rfl
        have := hb s.key hne
        omega
      cases i with
      | zero =>
        rw [List.getElem?_cons_zero] at hi
        exact absurd (Option.some.inj hi) hold
      | succ i =>
        obtain ⟨i₀, s₀, hle, hs, hins, hat, hfirst⟩ := exists_creator (hb.step s) hi hne (by omega)
        refine ⟨i₀ + 1, s₀, by omega, hs, hins, hat, fun j hj => ?_⟩
        cases j with
        | zero =>
          rw [List.getElem?_cons_zero] at hj
          exact absurd (Option.some.inj hj) hold
        | succ j => exact Nat.succ_le_succ (hfirst j hj)

/-- Every id of the epoch is below what the counter ends at. -/
theorem replayEpoch_lt : ∀ {slots : List Slot} {o : Oracle}, o.Below cridBegin → ∀ {c : ℕ},
    c ∈ replayEpoch cridBegin o slots → c ≠ kAbsent → c < cridBegin + (replay cridBegin o slots).minted
  | [], _, _, c, hc, _ => by simp [replayEpoch] at hc
  | s :: slots, o, hb, c, hc, hne => by
    have hmono : ∀ (slots : List Slot) (o : Oracle), o.minted ≤ (replay cridBegin o slots).minted := by
      intro slots
      induction slots with
      | nil => exact fun _ => le_rfl
      | cons s slots ih =>
        intro o
        refine le_trans ?_ (ih (replayOp cridBegin o s).1)
        rcases replayOp_cases cridBegin o s with ⟨-, -, hm, -⟩ | ⟨-, hm, -⟩ <;> omega
    have htail : replay cridBegin o (s :: slots) = replay cridBegin (replayOp cridBegin o s).1 slots := rfl
    rw [htail]
    rcases List.mem_cons.mp hc with rfl | hc
    · have := hmono slots (replayOp cridBegin o s).1
      rcases replayOp_cases cridBegin o s with ⟨-, hrid, hm, -⟩ | ⟨hrid, hm, -⟩
      · omega
      · rw [hrid] at hne ⊢
        have := hb s.key hne
        omega
    · exact replayEpoch_lt (hb.step s) hc hne

end

section
variable {cfg : Config} {idx idx' : Index} {slots : List Slot} {out : EpochOut}

/-- The ids an epoch's index phase gives out, on either path. -/
theorem recordIds_eq (hwf : IndexWf cfg idx) (hok : EpochOk cfg slots)
    (h : indexTxns cfg idx slots = .ok (idx', out)) :
    out.recordIds = replayEpoch (mintedBegin cfg idx) ⟨idx.map, 0, []⟩ slots ∧
    idx'.freeStart = idx.freeStart + (replay (mintedBegin cfg idx) ⟨idx.map, 0, []⟩ slots).minted := by
  have hspec := indexTxns_spec hwf hok h
  have hm := mintFits_of_rows hwf hspec.rows
  obtain ⟨hag, -⟩ := timeline_agrees hwf hok hspec.rows
  have hbits : kAbsent < 2 ^ (64 - posBits) := by decide
  refine ⟨?_, ?_⟩
  · rw [hspec.out]
    simp only [serialOut]
    apply List.ext_getElem
    · simp [replayEpoch_length]
    · intro i hi hi'
      have hlt : i < slots.length := by simpa using hi
      have hs : slots[i]? = some slots[i] := List.getElem?_eq_getElem hlt
      have hkey := (hok.keys _ (List.getElem_mem hlt)).trans hbits
      have hsl : slots = slots.take i ++ slots[i] :: slots.drop (i + 1) := by
        rw [← List.drop_eq_getElem_cons hlt, List.take_append_drop]
      have hres := resolve_eq_replayOp hm hag hsl hkey
      rw [List.length_take, Nat.min_eq_left hlt.le] at hres
      rw [replayEpoch_getElem slots _ i hlt hi', ← hres, List.getElem_map, List.getElem_zipIdx]
      simp only [slotCrid, Nat.zero_add]
      by_cases hop : slots[i].op = .insert
      · simp only [hop, decide_true, if_true]
        exact (hag.resolveInsert _ (event_of_insert hs hop) rfl).symm
      · simp only [hop, decide_false, if_false]
        exact (hag.resolve _ i i hkey).symm
  · rw [hspec.freeStart, (replay_run hm slots [] (by simp)).minted, created]

/-- The ids minted in an epoch. -/
def Minted (cfg : Config) (idx idx' : Index) (c : ℕ) : Prop :=
  mintedBegin cfg idx ≤ c ∧ c < mintedBegin cfg idx'

/-- `num_minted_this_epoch`. -/
def numMinted (idx idx' : Index) : ℕ := idx'.freeStart - idx.freeStart

/-- What the index phase says about the ids of an epoch: they are below the next epoch's range, and
    one of this epoch's range is first used by the INSERT that created it. -/
structure Ids (cfg : Config) (idx idx' : Index) (slots : List Slot) (recordIds : List ℕ) : Prop where
  length : recordIds.length = slots.length
  begin_le : mintedBegin cfg idx ≤ mintedBegin cfg idx'
  end_le : mintedBegin cfg idx' ≤ kAbsent
  lt : ∀ c ∈ recordIds, c ≠ kAbsent → c < mintedBegin cfg idx'
  creator : ∀ {i c : ℕ}, recordIds[i]? = some c → Minted cfg idx idx' c →
    ∃ i₀ s, i₀ ≤ i ∧ slots[i₀]? = some s ∧ s.op = .insert ∧ recordIds[i₀]? = some c ∧
      ∀ j, recordIds[j]? = some c → i₀ ≤ j

theorem indexTxns_ids (hwf : IndexWf cfg idx) (hok : EpochOk cfg slots)
    (h : indexTxns cfg idx slots = .ok (idx', out)) : Ids cfg idx idx' slots out.recordIds := by
  obtain ⟨hrids, hfree⟩ := recordIds_eq hwf hok h
  have hspec := indexTxns_spec hwf hok h
  have hbelow : (⟨idx.map, 0, []⟩ : Oracle).Below (mintedBegin cfg idx) := hwf.below
  have hend : mintedBegin cfg idx' =
      mintedBegin cfg idx + (replay (mintedBegin cfg idx) ⟨idx.map, 0, []⟩ slots).minted := by
    simp only [mintedBegin] at hfree ⊢
    omega
  have hrows := (checkFreeRows_ok hwf.rows).mp hspec.rows
  have hle := created_length_le idx.map slots
  have hmb : mintedBegin cfg idx' = mintedBegin cfg idx + (created idx.map (slotEvents slots)).length := by
    have := hspec.freeStart
    simp only [mintedBegin]
    omega
  have hids := hwf.ids
  rw [hrids]
  refine ⟨replayEpoch_length _ _, by omega, by omega, fun c hc hne => ?_, fun hi hc => ?_⟩
  · rw [hend]
    exact replayEpoch_lt hbelow hc hne
  · have := hc.2
    exact exists_creator hbelow hi (by omega) hc.1

end

/-! ### Classification -/

section
variable {splitField : Bool} {cfg : Config} {idx idx' : Index} {slots : List Slot}
  {recordIds : List ℕ}

theorem getElem?_slotParams {i : ℕ} {x : SlotParam} (h : (slotParams recordIds slots)[i]? = some x) :
    ∃ s, slots[i]? = some s ∧ recordIds[i]? = some x.recordId ∧ x.op = paramOp x.recordId s.op ∧
      x.fieldId = s.field := by
  rw [slotParams, List.getElem?_zipWith] at h
  cases hr : recordIds[i]? with
  | none => simp [hr] at h
  | some rid =>
    cases hs : slots[i]? with
    | none => simp [hr, hs] at h
    | some s =>
      rw [hr, hs] at h
      obtain rfl := Option.some.inj h
      exact ⟨s, rfl, rfl, rfl, rfl⟩

/-- An INSERT counts exactly when its id was minted this epoch. -/
theorem Ids.insertKind_iff (h : Ids cfg idx idx' slots recordIds) {x : SlotParam}
    (hx : x ∈ slotParams recordIds slots) (hne : x.recordId ≠ kNoRecord) :
    isInsertKind (mintedBegin cfg idx) (numMinted idx idx') x = true ↔
      x.op = .insert ∧ Minted cfg idx idx' x.recordId := by
  obtain ⟨i, hi⟩ := List.mem_iff_getElem?.mp hx
  obtain ⟨s, -, hr, -, -⟩ := getElem?_slotParams hi
  have hlt := h.lt _ (List.mem_of_getElem? hr) hne
  have hb := h.begin_le
  have he := h.end_le
  have hk : kAbsent < 2 ^ 32 := by decide
  have hn : mintedBegin cfg idx' = mintedBegin cfg idx + numMinted idx idx' := by
    simp only [mintedBegin, numMinted] at hb ⊢
    omega
  rw [isInsertKind, decide_eq_true_iff, Minted, sub32]
  refine and_congr_right fun _ => ?_
  constructor
  · intro hsub
    refine ⟨?_, hlt⟩
    by_contra hlo
    rw [Nat.mod_eq_of_lt (by omega)] at hsub
    omega
  · rintro ⟨hlo, -⟩
    rw [show x.recordId + 2 ^ 32 - mintedBegin cfg idx = x.recordId - mintedBegin cfg idx + 2 ^ 32 by omega,
      Nat.add_mod_right, Nat.mod_eq_of_lt (by omega)]
    omega

/-- The operation of an epoch that a record operation belongs to. -/
def slotOf (o : Op) : ℕ := 10 * o.txn + o.offset / 21

theorem slotOf_submitSlot {k : ℕ} {x : SlotParam} (hx : x.Ok splitField) {o : Op}
    (ho : o ∈ submitSlot splitField k x) : slotOf o = k := by
  obtain ⟨key, word, kind, -, hword, rfl⟩ := mem_submitSlot hx ho
  simp only [slotOf, emit, planWord]
  omega

/-- An operation touches units of its record, and an INSERT only writes. -/
theorem recordOf_submitSlot {k : ℕ} {x : SlotParam} (hx : x.Ok splitField) {o : Op}
    (ho : o ∈ submitSlot splitField k x) :
    x.recordId ≠ kNoRecord ∧ recordOf splitField o.record = x.recordId ∧
      (x.op = .insert → o.isWrite = true) := by
  have hfield := hx.field
  rw [submitSlot] at ho
  split at ho
  · exact absurd ho List.not_mem_nil
  · rename_i hr
    refine ⟨hr, ?_⟩
    cases splitField with
    | true =>
      cases hop : x.op <;> simp [hop, emit, SlotParam.key] at ho <;> simp only [recordOf, if_true]
      case read => subst ho; exact ⟨by dsimp only; omega, by simp⟩
      case update => subst ho; exact ⟨by dsimp only; omega, by simp⟩
      case readModifyWrite =>
        rcases ho with rfl | rfl <;> exact ⟨by dsimp only; omega, by simp⟩
      case fullRead => obtain ⟨j, hj, rfl⟩ := ho; exact ⟨by dsimp only; omega, by simp⟩
      case fullReadModifyWrite =>
        rcases ho with ⟨j, hj, rfl⟩ | rfl <;> exact ⟨by dsimp only; omega, by simp⟩
      case insert => obtain ⟨j, hj, rfl⟩ := ho; exact ⟨by dsimp only; omega, fun _ => rfl⟩
    | false =>
      cases hop : x.op <;> simp [hop, emit, SlotParam.key] at ho <;> simp only [recordOf]
      case read => subst ho; exact ⟨rfl, by simp⟩
      case update => rcases ho with rfl | rfl <;> exact ⟨rfl, by simp⟩
      case readModifyWrite => rcases ho with rfl | rfl <;> exact ⟨rfl, by simp⟩
      case fullRead => subst ho; exact ⟨rfl, by simp⟩
      case fullReadModifyWrite => rcases ho with rfl | rfl <;> exact ⟨rfl, by simp⟩
      case insert => subst ho; exact ⟨rfl, fun _ => rfl⟩

/-- An INSERT writes every unit of its record. -/
theorem insert_writes (k : ℕ) {x : SlotParam} (hop : x.op = .insert) (hne : x.recordId ≠ kNoRecord)
    {u : ℕ} (hu : recordOf splitField u = x.recordId) :
    ∃ o ∈ submitSlot splitField k x, o.record = u ∧ o.isWrite = true := by
  rw [submitSlot, if_neg hne, hop]
  cases splitField with
  | true =>
    simp only [recordOf, if_true] at hu
    refine ⟨emit k u (writeLocs (u % 10)) true, ?_, rfl, rfl⟩
    simp only [if_true]
    refine List.mem_map.mpr ⟨u % 10, List.mem_range.mpr (by omega), ?_⟩
    rw [show x.recordId * 10 + u % 10 = u by omega]
  | false =>
    simp only [recordOf, Bool.false_eq_true, if_false] at hu
    refine ⟨emit k u writeLocAlone true, ?_, rfl, rfl⟩
    simp only [Bool.false_eq_true, if_false, hu]
    exact List.mem_singleton.mpr rfl

variable {params : List SlotParam}

theorem mem_submitYcsbTxns {o : Op} : o ∈ submitYcsbTxns splitField params ↔
    ∃ k x, params[k]? = some x ∧ o ∈ submitSlot splitField k x := by
  rw [submitYcsbTxns, List.mem_flatMap]
  constructor
  · rintro ⟨y, hy, ho⟩
    exact ⟨y.2, y.1, List.mk_mem_zipIdx_iff_getElem?.mp hy, ho⟩
  · rintro ⟨k, x, hk, ho⟩
    exact ⟨(x, k), List.mk_mem_zipIdx_iff_getElem?.mpr hk, ho⟩

/-- The batch is in the order of the operations. -/
theorem submitYcsbTxns_ordered (hok : ∀ x ∈ params, x.Ok splitField) :
    (submitYcsbTxns splitField params).Pairwise fun o q => slotOf o ≤ slotOf q := by
  have hslot : ∀ y ∈ params.zipIdx, ∀ o ∈ submitSlot splitField y.2 y.1, slotOf o = y.2 :=
    fun y hy o ho => slotOf_submitSlot (hok y.1 (List.fst_mem_of_mem_zipIdx hy)) ho
  rw [submitYcsbTxns, List.pairwise_flatMap]
  refine ⟨fun y hy => ?_, ?_⟩
  · refine List.pairwise_of_forall_mem_list fun o ho q hq => ?_
    rw [hslot y hy o ho, hslot y hy q hq]
  · refine (zipIdx_increasing params).imp_of_mem fun {y z} hy hz hlt o ho q hq => ?_
    rw [hslot y hy o ho, hslot z hz q hq]
    exact hlt.le

section
variable (hids : Ids cfg idx idx' slots recordIds)
  (hok : ∀ x ∈ slotParams recordIds slots, x.Ok splitField)
include hids hok

/-- Only units of minted records are insert keys. -/
theorem Ids.minted_of_insertKey (hfit : TxnsFit (submitYcsbTxns splitField (slotParams recordIds slots)))
    {u : ℕ} (hu : u ∈ insertKeys splitField (mintedBegin cfg idx) (numMinted idx idx')
      (slotParams recordIds slots)) (hne : u ≠ kNoRecord) :
    Minted cfg idx idx' (recordOf splitField u) := by
  obtain ⟨y, hy, hu⟩ := List.mem_flatMap.mp hu
  obtain ⟨o, ho, hu⟩ := List.mem_map.mp hu
  have hx : y.1 ∈ slotParams recordIds slots := List.fst_mem_of_mem_zipIdx hy
  obtain ⟨hrec, hunit, -⟩ := recordOf_submitSlot (hok _ hx) ho
  have hb := submitYcsbTxns_batch_of_fit hok hfit
  have hkey : keyOf o = o.record := Op.getRecordId_encode (hb.fits (List.mem_flatMap.mpr ⟨y, hy, ho⟩))
  split at hu
  · rename_i hkind
    rw [← hu, hkey, hunit]
    exact ((hids.insertKind_iff hx hrec).mp hkind).2
  · exact absurd hu.symm hne

omit hok in
/-- The INSERT that created a minted record, among the operations' parameters. -/
theorem Ids.creatorParam {k : ℕ} {x : SlotParam} (hk : (slotParams recordIds slots)[k]? = some x)
    (hm : Minted cfg idx idx' x.recordId) :
    ∃ k₀ x₀, k₀ ≤ k ∧ (slotParams recordIds slots)[k₀]? = some x₀ ∧ x₀.op = .insert ∧
      x₀.recordId = x.recordId := by
  obtain ⟨-, -, hr, -, -⟩ := getElem?_slotParams hk
  obtain ⟨k₀, s, hle, hs, hop, hr₀, -⟩ := hids.creator hr hm
  have hne : x.recordId ≠ kAbsent := by
    have := hm.2
    have := hids.end_le
    omega
  refine ⟨k₀, ⟨paramOp x.recordId s.op, x.recordId, s.field, fun h => if_pos h⟩, hle, ?_, ?_, rfl⟩
  · rw [slotParams, List.getElem?_zipWith, hr₀, hs]
  · simp only [paramOp, if_neg hne, hop]

/-- A unit of a minted record is written by the INSERT that created it, before every other operation
    on it. -/
theorem Ids.creator_write {k : ℕ} {x : SlotParam} (hk : (slotParams recordIds slots)[k]? = some x)
    {u : ℕ} (hu : recordOf splitField u = x.recordId) (hm : Minted cfg idx idx' x.recordId) :
    ∃ k₀ x₀, k₀ ≤ k ∧ (slotParams recordIds slots)[k₀]? = some x₀ ∧ x₀.op = .insert ∧
      x₀.recordId = x.recordId ∧
      ∃ o ∈ submitSlot splitField k₀ x₀, o.record = u ∧ o.isWrite = true ∧ slotOf o = k₀ := by
  obtain ⟨k₀, x₀, hle, hk₀, hop, hrec⟩ := hids.creatorParam hk hm
  have hne : x₀.recordId ≠ kNoRecord := by
    have h1 := hm.2
    have h2 := hids.end_le
    have h3 : kAbsent = kNoRecord := rfl
    omega
  obtain ⟨o, ho, hou, hw⟩ := insert_writes k₀ hop hne (hu.trans hrec.symm)
  exact ⟨k₀, x₀, hle, hk₀, hop, hrec, o, ho, hou, hw,
    slotOf_submitSlot (hok _ (List.mem_of_getElem? hk₀)) ho⟩

/-- A unit of a minted record that an epoch needs is written by it. -/
theorem Ids.written_of_minted {u : ℕ}
    (hu : u ∈ (submitYcsbTxns splitField (slotParams recordIds slots)).map Op.record)
    (hm : Minted cfg idx idx' (recordOf splitField u)) :
    ∃ o ∈ submitYcsbTxns splitField (slotParams recordIds slots), o.isWrite = true ∧ o.record = u := by
  obtain ⟨q, hq, rfl⟩ := List.mem_map.mp hu
  obtain ⟨k, x, hk, hqk⟩ := mem_submitYcsbTxns.mp hq
  obtain ⟨-, hunit, -⟩ := recordOf_submitSlot (hok _ (List.mem_of_getElem? hk)) hqk
  rw [hunit] at hm
  obtain ⟨k₀, x₀, -, hk₀, -, -, o, ho, hou, hw, -⟩ := hids.creator_write hok hk hunit hm
  exact ⟨o, mem_submitYcsbTxns.mpr ⟨k₀, x₀, hk₀, ho⟩, hw, hou⟩

/-- A read of a minted record comes after a write of the same unit in the batch. -/
theorem Ids.write_before_read {i : ℕ} {o : Op}
    (hi : (submitYcsbTxns splitField (slotParams recordIds slots))[i]? = some o)
    (hr : o.isWrite = false) (hm : Minted cfg idx idx' (recordOf splitField o.record)) :
    ∃ j < i, writesAt (submitYcsbTxns splitField (slotParams recordIds slots)) o.record j = true := by
  obtain ⟨k, x, hk, hok'⟩ := mem_submitYcsbTxns.mp (List.mem_of_getElem? hi)
  obtain ⟨-, hunit, hins⟩ := recordOf_submitSlot (hok _ (List.mem_of_getElem? hk)) hok'
  rw [hunit] at hm
  obtain ⟨k₀, x₀, hle, hk₀, hop, hrec, w, hw, hwu, hww, hslot⟩ := hids.creator_write hok hk hunit hm
  have hlt : k₀ < k := by
    refine lt_of_le_of_ne hle fun he => ?_
    -- the INSERT itself has no read
    rw [he, hk] at hk₀
    obtain rfl := Option.some.inj hk₀
    exact absurd (hr.symm.trans (hins hop)) Bool.false_ne_true
  obtain ⟨j, hj⟩ := List.mem_iff_getElem?.mp (mem_submitYcsbTxns.mpr ⟨k₀, x₀, hk₀, hw⟩)
  refine ⟨j, ?_, writesAt_iff.mpr ⟨w, hj, hww, hwu⟩⟩
  by_contra hge
  rcases (Nat.le_of_not_lt hge).lt_or_eq with hij | rfl
  · obtain ⟨hi', rfl⟩ := List.getElem?_eq_some_iff.mp hi
    obtain ⟨hj', rfl⟩ := List.getElem?_eq_some_iff.mp hj
    have hord := List.pairwise_iff_getElem.mp (submitYcsbTxns_ordered hok) i j hi' hj' hij
    rw [hslot, slotOf_submitSlot (hok _ (List.mem_of_getElem? hk)) hok'] at hord
    omega
  · rw [hi] at hj
    obtain rfl := Option.some.inj hj
    exact absurd (hr.symm.trans hww) Bool.false_ne_true

end

end

end Egad.Ycsb
