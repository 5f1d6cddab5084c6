import Egad.Tpcc.TableEpoch

/-! # The inputs of the three tables

    An epoch fills the fast path's insert arrays and the timeline's input arrays from the same
    transactions. Block `tid` of either array belongs to transaction `tid`, so the inserts come out
    in the same order and of the same transactions, and a Delivery's ten districts are ten distinct
    keys. -/

namespace Egad.Tpcc
open Egad.Lib Egad.Timeline

/-! ### Arrays with a block for each transaction -/

theorem zipIdx_flatMap {α β : Type} {n : ℕ} {f : α → List β} (hf : ∀ x, (f x).length = n)
    (xs : List α) (k : ℕ) :
    (xs.flatMap f).zipIdx (k * n) = (xs.zipIdx k).flatMap fun x => (f x.1).zipIdx (x.2 * n) := by
  induction xs generalizing k with
  | nil => rfl
  | cons x xs ih =>
    have hnext : k * n + (f x).length = (k + 1) * n := by rw [hf, Nat.succ_mul]
    rw [List.flatMap_cons, List.zipIdx_append, hnext, ih, List.zipIdx_cons, List.flatMap_cons]

/-- An entry of block `tid` is transaction `tid`'s. -/
theorem block_txn {n : ℕ} {l : List (Option ℕ)} (hl : l.length = n) (tid : ℕ) :
    (l.zipIdx (tid * n)).filterMap (fun y => y.1.map fun _ => y.2 / n) =
      l.filterMap fun o => o.map fun _ => tid := by
  have hdiv : ∀ y ∈ l.zipIdx (tid * n), y.2 / n = tid := by
    rintro ⟨o, i⟩ hy
    obtain ⟨h1, h2, -⟩ := List.mem_zipIdx hy
    rw [hl] at h2
    exact Nat.div_eq_of_lt_le h1 (by rw [Nat.succ_mul]; exact h2)
  have hfst : l = (l.zipIdx (tid * n)).map Prod.fst := by rw [List.zipIdx_map_fst]
  rw [List.filterMap_congr (g := fun y => y.1.map fun _ => tid)
    fun y hy => by rw [hdiv y hy]]
  conv_rhs => rw [hfst, List.filterMap_map]
  rfl

theorem insEntry_map {n : ℕ} (l : List (Option ℕ)) :
    ((l.zipIdx.filter fun x => x.1.isSome).map Prod.snd).map (fun e => e / n) =
      l.zipIdx.filterMap fun y => y.1.map fun _ => y.2 / n := by
  generalize l.zipIdx = zs
  induction zs with
  | nil => rfl
  | cons z zs ih =>
    obtain ⟨o, i⟩ := z
    cases o with
    | none => simpa using ih
    | some k => simpa using ih

/-- The transactions of the entries of an insert array. -/
theorem insEntry_txns {n : ℕ} {f : TpccTxn → List (Option ℕ)} (hf : ∀ t, (f t).length = n)
    (txns : List TpccTxn) :
    ((((txns.flatMap f).zipIdx.filter fun x => x.1.isSome).map Prod.snd).map fun e => e / n) =
      txns.zipIdx.flatMap fun x => (f x.1).filterMap fun o => o.map fun _ => x.2 := by
  have hzip := zipIdx_flatMap hf txns 0
  rw [Nat.zero_mul] at hzip
  rw [insEntry_map, hzip, List.filterMap_flatMap]
  exact List.flatMap_congr fun x _ => block_txn (hf x.1) x.2

/-! ### Events of the timeline's arrays -/

theorem map_inserts {β : Type} (g : ℕ → ℕ → β) (entries : List Entry) :
    (inserts (events entries)).map (fun v => g v.key v.pos) =
      entries.filterMap fun e => e.insKey.map fun k => g k e.pos := by
  rw [events]
  generalize 0 = n
  induction entries generalizing n with
  | nil => rfl
  | cons e es ih =>
    obtain ⟨ik, dk, pos⟩ := e
    rw [List.zipIdx_cons, List.filterMap_cons, List.filterMap_cons, ← ih (n + 1)]
    rcases ik with _ | k <;> rcases dk with _ | k' <;> simp [gatherEvent, inserts]

theorem map_deletes {β : Type} (g : ℕ → ℕ → β) (entries : List Entry) :
    ((events entries).filter fun v => v.type = .delete).map (fun v => g v.key v.pos) =
      entries.filterMap fun e =>
        if e.insKey.isSome then none else e.delKey.map fun k => g k e.pos := by
  rw [events]
  generalize 0 = n
  induction entries generalizing n with
  | nil => rfl
  | cons e es ih =>
    obtain ⟨ik, dk, pos⟩ := e
    rw [List.zipIdx_cons, List.filterMap_cons, List.filterMap_cons, ← ih (n + 1)]
    rcases ik with _ | k <;> rcases dk with _ | k' <;> simp [gatherEvent]

theorem entry_of_event {entries : List Entry} {v : Event} (hv : v ∈ events entries) :
    ∃ x ∈ entries, x.pos = v.pos ∧ (v.type = .insert ∧ x.insKey = some v.key ∨
      v.type = .delete ∧ x.insKey = none ∧ x.delKey = some v.key) := by
  obtain ⟨⟨x, e⟩, hmem, h⟩ := List.mem_filterMap.mp hv
  refine ⟨x, List.fst_mem_of_mem_zipIdx hmem, ?_⟩
  obtain ⟨ik, dk, pos⟩ := x
  rcases ik with _ | k <;> rcases dk with _ | k' <;> simp [gatherEvent] at h <;> subst h <;> simp

/-- Where the entries of a transaction carry the inserts of its block, the timeline's inserts are the
    insert array's, in the same order and of the same transactions. -/
theorem inserts_of_blocks {n : ℕ} {f : TpccTxn → List (Option ℕ)} {g : TpccTxn × ℕ → List Entry}
    (hf : ∀ t, (f t).length = n)
    (hg : ∀ x, ((g x).filterMap fun e => e.insKey.map fun k => (k, e.pos / 4)) =
      (f x.1).filterMap fun o => o.map fun k => (k, x.2)) (txns : List TpccTxn) :
    (inserts (events (txns.zipIdx.flatMap g))).map Event.key = (txns.flatMap f).filterMap id ∧
    ((inserts (events (txns.zipIdx.flatMap g))).map fun v => v.pos / 4) =
      ((((txns.flatMap f).zipIdx.filter fun x => x.1.isSome).map Prod.snd).map fun e => e / n) := by
  have hboth : ((inserts (events (txns.zipIdx.flatMap g))).map fun v => (v.key, v.pos / 4)) =
      txns.zipIdx.flatMap fun x => (f x.1).filterMap fun o => o.map fun k => (k, x.2) := by
    rw [map_inserts fun k pos => (k, pos / 4), List.filterMap_flatMap]
    exact List.flatMap_congr fun x _ => hg x
  constructor
  · have h := congrArg (List.map Prod.fst) hboth
    rw [List.map_map, List.map_flatMap] at h
    have hfst : (txns.flatMap fun t => (f t).filterMap id) =
        txns.zipIdx.flatMap fun x => (f x.1).filterMap id := by
      conv_lhs => rw [← List.zipIdx_map_fst 0 txns, List.flatMap_map]
    rw [List.filterMap_flatMap, hfst]
    refine Eq.trans h (List.flatMap_congr fun x _ => ?_)
    rw [List.map_filterMap]
    refine List.filterMap_congr fun o _ => ?_
    cases o <;> rfl
  · have h := congrArg (List.map Prod.snd) hboth
    rw [List.map_map, List.map_flatMap] at h
    rw [insEntry_txns hf]
    refine Eq.trans h (List.flatMap_congr fun x _ => ?_)
    rw [List.map_filterMap]
    refine List.filterMap_congr fun o _ => ?_
    cases o <;> rfl

/-! ### What an epoch's transactions promise -/

/-- Ids of a transaction that the generator draws: orders of the warehouses and districts that exist,
    at most fifteen lines each, Delivery only when the mix has it. -/
def TpccTxn.Ok (deletePath : Bool) : TpccTxn → Prop
  | .newOrder o d w n => OrderOk o d w ∧ n ≤ 15
  | .orderStatus o d w n => OrderOk o d w ∧ n ≤ 15
  | .delivery w o n =>
    deletePath = true ∧ ∀ i < 10, o i ≠ 0 → OrderOk (o i) (i + 1) w ∧ n i ≤ 15
  | _ => True

section
variable {deletePath : Bool} {txns : List TpccTxn} {store : Store}

theorem newOrderInsert_lt {t : TpccTxn} {k : ℕ} (h : t.newOrderInsert = some k) : k < 2 ^ 37 := by
  cases t <;> simp only [TpccTxn.newOrderInsert, Option.some.injEq, reduceCtorEq] at h
  subst h
  exact orderFields_lt _ _ _

theorem newOrderDelete_lt {t : TpccTxn} {i k : ℕ} (h : t.newOrderDelete i = some k) : k < 2 ^ 37 := by
  cases t <;> simp only [TpccTxn.newOrderDelete, Option.ite_none_left_eq_some, Option.some.injEq,
    reduceCtorEq] at h
  rw [← h.2]
  exact orderFields_lt _ _ _

theorem newOrderDelete_district {t : TpccTxn} {i j k : ℕ} (hi : i < 10) (hj : j < 10)
    (h : t.newOrderDelete i = some k) (h' : t.newOrderDelete j = some k) : i = j := by
  cases t <;> simp only [TpccTxn.newOrderDelete, Option.ite_none_left_eq_some, Option.some.injEq,
    reduceCtorEq] at h h'
  by_contra hne
  exact orderFields_ne_of_district (by omega) (by omega) (by omega) (h.2.trans h'.2.symm)

/-! ### NewOrder -/

theorem newOrder_entry {x : Entry} (hx : x ∈ (newOrderInput deletePath txns).entries) :
    ∃ y ∈ txns.zipIdx, x = ⟨y.1.newOrderInsert, none, y.2 * 4⟩ ∨
      ∃ i < 10, x = ⟨none, y.1.newOrderDelete i, y.2 * 4 + 2⟩ := by
  obtain ⟨y, hy, hx⟩ := List.mem_flatMap.mp hx
  refine ⟨y, hy, ?_⟩
  rcases List.mem_cons.mp hx with rfl | hx
  · exact Or.inl rfl
  · obtain ⟨i, hi, rfl⟩ := List.mem_map.mp hx
    exact Or.inr ⟨i, List.mem_range.mp hi, rfl⟩

/-- An event of NewOrder's timeline: an insert at its transaction's first position, or a delete at
    its third one. -/
theorem newOrder_event {v : Event} (hv : v ∈ (newOrderInput deletePath txns).evs) :
    ∃ y ∈ txns.zipIdx, v.key < 2 ^ 37 ∧
      (v.type = .insert ∧ v.pos = y.2 * 4 ∨
        v.type = .delete ∧ v.pos = y.2 * 4 + 2 ∧ ∃ i < 10, y.1.newOrderDelete i = some v.key) := by
  obtain ⟨x, hx, hpos, h⟩ := entry_of_event hv
  obtain ⟨y, hy, rfl | ⟨i, hi, rfl⟩⟩ := newOrder_entry hx
  · rcases h with ⟨ht, hk⟩ | ⟨-, -, hk⟩
    · exact ⟨y, hy, newOrderInsert_lt hk, Or.inl ⟨ht, hpos.symm⟩⟩
    · simp at hk
  · rcases h with ⟨-, hk⟩ | ⟨ht, -, hk⟩
    · simp at hk
    · exact ⟨y, hy, newOrderDelete_lt hk, Or.inr ⟨ht, hpos.symm, i, hi, hk⟩⟩

/-- The deletes of NewOrder's timeline, in slot order. -/
theorem newOrder_deletes {β : Type} (g : ℕ → ℕ → β) :
    (((newOrderInput deletePath txns).evs.filter fun v => v.type = .delete).map
        fun v => g v.key v.pos) =
      txns.zipIdx.flatMap fun x => (List.range 10).filterMap fun i =>
        (x.1.newOrderDelete i).map fun k => g k (x.2 * 4 + 2) := by
  rw [map_deletes, newOrderInput, List.filterMap_flatMap]
  refine List.flatMap_congr fun x _ => ?_
  rw [List.filterMap_cons, List.filterMap_map]
  cases h : x.1.newOrderInsert <;> rfl

theorem newOrder_deleteOnce : (((newOrderInput deletePath txns).evs.filter
    fun v => v.type = .delete).map fun v => (v.key, v.pos)).Nodup := by
  rw [newOrder_deletes Prod.mk, List.nodup_flatMap]
  constructor
  · rintro x -
    rw [List.Nodup, List.pairwise_filterMap]
    refine List.pairwise_lt_range.imp_of_mem fun {i j} hi hj hij b hb b' hb' heq => ?_
    obtain ⟨k, hk, rfl⟩ := Option.map_eq_some_iff.mp hb
    obtain ⟨k', hk', rfl⟩ := Option.map_eq_some_iff.mp hb'
    obtain rfl : k = k' := (Prod.ext_iff.mp heq).1
    have := newOrderDelete_district (List.mem_range.mp hi) (List.mem_range.mp hj) hk hk'
    omega
  · -- blocks of different transactions differ in the position
    rw [List.pairwise_iff_getElem]
    intro i j hi hj hij b hb hb'
    obtain ⟨_, _, h⟩ := List.mem_filterMap.mp hb
    obtain ⟨_, _, h'⟩ := List.mem_filterMap.mp hb'
    obtain ⟨k, -, rfl⟩ := Option.map_eq_some_iff.mp h
    obtain ⟨k', -, heq⟩ := Option.map_eq_some_iff.mp h'
    have hpos := (Prod.ext_iff.mp heq).2
    simp only [List.getElem_zipIdx] at hpos
    omega

theorem newOrder_block (x : TpccTxn × ℕ) :
    ((⟨x.1.newOrderInsert, none, x.2 * 4⟩ ::
      (List.range 10).map fun i => ⟨none, x.1.newOrderDelete i, x.2 * 4 + 2⟩ : List Entry).filterMap
        fun e => e.insKey.map fun k => (k, e.pos / 4)) =
      [x.1.newOrderInsert].filterMap fun o => o.map fun k => (k, x.2) := by
  cases h : x.1.newOrderInsert <;> simp [List.filterMap_map]

theorem newOrderInput_ok (htxns : ∀ t ∈ txns, t.Ok deletePath) (hcount : txns.length ≤ 2 ^ 20)
    (hstore : ∃ m e, store = .cuco m e) :
    InputOk (newOrderInput deletePath txns) store txns.length := by
  have hdel : ∀ x ∈ txns.zipIdx, ∀ i < 10, ∀ k, x.1.newOrderDelete i = some k → deletePath = true := by
    rintro ⟨t, tid⟩ hx i - k hk
    have hok := htxns t (zipIdx_lt hx).1
    cases t <;> simp only [TpccTxn.newOrderDelete, reduceCtorEq] at hk
    exact hok.1
  have hins := inserts_of_blocks (f := fun t => [t.newOrderInsert]) (n := 1)
    (g := fun x => ⟨x.1.newOrderInsert, none, x.2 * 4⟩ ::
      (List.range 10).map fun i => ⟨none, x.1.newOrderDelete i, x.2 * 4 + 2⟩)
    (fun _ => rfl) newOrder_block txns
  rw [← List.map_eq_flatMap] at hins
  refine ⟨?_, ?_, fun v hv ht => ?_, ?_, fun v hv ht => ?_, fun v hv w hw hvt hwt hpos hk => ?_,
    ⟨show 24 ≤ 64 by decide, fun v hv => ?_, fun v hv => ?_⟩, fun v hv => ?_, ?_, fun v _ => ?_,
    fun _ => hstore⟩
  · exact hins.1
  · exact hins.2
  · obtain ⟨y, -, -, ⟨-, hp⟩ | ⟨hd, -⟩⟩ := newOrder_event hv
    · rw [hp]; omega
    · simp [ht] at hd
  · rw [newOrder_deletes fun k pos => (k, pos / 4)]
    cases hd : deletePath with
    | true =>
      refine List.flatMap_congr fun x _ => List.filterMap_congr fun i _ => ?_
      rw [show (x.2 * 4 + 2) / 4 = x.2 by omega]
    | false =>
      refine List.flatMap_eq_nil_iff.mpr fun x hx => List.filterMap_eq_nil_iff.mpr fun i hi => ?_
      cases hk : x.1.newOrderDelete i with
      | none => rfl
      | some k => simp [hdel x hx i (List.mem_range.mp hi) k hk] at hd
  · obtain ⟨y, -, -, ⟨hi, -⟩ | ⟨-, hp, -⟩⟩ := newOrder_event hv
    · simp [ht] at hi
    · rw [hp]; omega
  · exact List.inj_on_of_nodup_map newOrder_deleteOnce
      (List.mem_filter.mpr ⟨hv, decide_eq_true hvt⟩) (List.mem_filter.mpr ⟨hw, decide_eq_true hwt⟩)
      (Prod.ext hk hpos)
  · obtain ⟨-, -, hlt, -⟩ := newOrder_event hv
    exact hlt.trans (show 2 ^ 37 < 2 ^ (64 - 24) by decide)
  · obtain ⟨y, hy, -, h⟩ := newOrder_event hv
    have := (zipIdx_lt hy).2
    simp only [newOrderInput]
    omega
  · obtain ⟨y, hy, -, h⟩ := newOrder_event hv
    have := (zipIdx_lt hy).2
    omega
  · simp only [kAbsent]; omega
  · obtain ⟨m, e, rfl⟩ := hstore
    trivial

/-! ### Order and OrderLine -/

/-- The two tables without deletes: block `tid` of the timeline's array is the block of the insert
    array, at position `tid * 4`. -/
theorem insertOnly_ok {inp : TableInput} {n : ℕ} {f : TpccTxn → List (Option ℕ)}
    (hf : ∀ t, (f t).length = n) (hinsert : inp.insert = txns.flatMap f) (hper : inp.entriesPerTxn = n)
    (hentries : inp.entries = txns.zipIdx.flatMap fun x => (f x.1).map fun o => ⟨o, none, x.2 * 4⟩)
    (hdel : inp.deletes = none) (hbits : 22 ≤ inp.posBits ∧ inp.posBits ≤ 64)
    (hkeys : ∀ t ∈ txns, ∀ k, some k ∈ f t → k < 2 ^ (64 - inp.posBits) ∧ store.Named k)
    (hcount : txns.length ≤ 2 ^ 20) : InputOk inp store txns.length := by
  have hins := inserts_of_blocks hf (g := fun x => (f x.1).map fun o => ⟨o, none, x.2 * 4⟩)
    (fun x => by simp [List.filterMap_map]) txns
  rw [← hentries, ← hinsert] at hins
  have hevent : ∀ v ∈ inp.evs, v.type = .insert ∧ v.key < 2 ^ (64 - inp.posBits) ∧
      store.Named v.key ∧ ∃ tid < txns.length, v.pos = tid * 4 := by
    intro v hv
    obtain ⟨x, hx, hpos, h⟩ := entry_of_event hv
    rw [hentries] at hx
    obtain ⟨y, hy, hx⟩ := List.mem_flatMap.mp hx
    obtain ⟨o, ho, rfl⟩ := List.mem_map.mp hx
    rcases h with ⟨ht, rfl⟩ | ⟨-, -, hk⟩
    · obtain ⟨hlt, hnamed⟩ := hkeys y.1 (zipIdx_lt hy).1 v.key ho
      exact ⟨ht, hlt, hnamed, y.2, (zipIdx_lt hy).2, hpos.symm⟩
    · simp at hk
  have hno : ∀ v ∈ inp.evs, v.type ≠ .delete := by
    intro v hv
    rw [(hevent v hv).1]
    decide
  have hpow : 2 ^ 22 ≤ 2 ^ inp.posBits := Nat.pow_le_pow_right (by decide) hbits.1
  refine ⟨hins.1, by rw [hper]; exact hins.2, fun v hv _ => ?_, ?_, fun v hv ht => absurd ht (hno v hv),
    fun v hv _ _ ht => absurd ht (hno v hv), ⟨hbits.2, fun v hv => (hevent v hv).2.1, fun v hv => ?_⟩,
    fun v hv => ?_, ?_, fun v hv => (hevent v hv).2.2.1, fun h => by simp [hdel] at h⟩
  · obtain ⟨-, -, -, tid, -, hpos⟩ := hevent v hv
    rw [hpos]; omega
  · rw [hdel, List.filter_eq_nil_iff.mpr fun v hv => by simpa using hno v hv]; rfl
  · obtain ⟨-, -, -, tid, htid, hpos⟩ := hevent v hv
    omega
  · obtain ⟨-, -, -, tid, htid, hpos⟩ := hevent v hv
    omega
  · simp only [kAbsent]; omega

theorem orderInput_ok (hcount : txns.length ≤ 2 ^ 20) (hstore : ∃ m e, store = .cuco m e) :
    InputOk (orderInput txns) store txns.length := by
  refine insertOnly_ok (n := 1) (f := fun t => [t.orderInsert]) (fun _ => rfl) List.map_eq_flatMap rfl
    List.map_eq_flatMap rfl ⟨show 22 ≤ 24 by decide, show 24 ≤ 64 by decide⟩ (fun t _ k hk => ?_) hcount
  have hk : t.orderInsert = some k := (List.mem_singleton.mp hk).symm
  obtain ⟨m, e, rfl⟩ := hstore
  cases t <;> simp only [TpccTxn.orderInsert, Option.some.injEq, reduceCtorEq] at hk
  subst hk
  exact ⟨(orderFields_lt _ _ _).trans (show 2 ^ 37 < 2 ^ (64 - 24) by decide), trivial⟩

/-- A line of an order can be named in either index. -/
theorem named_line (store : Store) {o d w ol : ℕ} (h : OrderOk o d w) (h1 : 1 ≤ ol) (h15 : ol ≤ 15) :
    store.Named (orderLineKey o d w ol) := by
  cases store with
  | cuco m e => trivial
  | flat a maxO =>
    obtain ⟨ho, hd, hw, hol⟩ := orderLineKey_decode h (show ol < 2 ^ 4 by omega)
    rcases Nat.lt_or_ge maxO o with hlt | hle
    · exact Or.inr (by rw [ho]; exact hlt)
    · refine Or.inl ⟨orderLineKey_lt _ _ _ _, ?_, ?_, ?_, ?_⟩
      · rw [ho]; exact ⟨h.o.1, hle⟩
      · rw [hd]; exact h.d
      · rw [hw]; exact h.w.1
      · rw [hol]; exact ⟨h1, h15⟩

theorem orderLineInput_ok (htxns : ∀ t ∈ txns, t.Ok deletePath)
    (hcount : txns.length ≤ 2 ^ 20) : InputOk (orderLineInput txns) store txns.length := by
  refine insertOnly_ok (n := 15) (f := fun t => (List.range 15).map fun i => t.orderLineInsert i)
    (fun _ => by simp) rfl rfl ?_ rfl ⟨show 22 ≤ 22 by decide, show 22 ≤ 64 by decide⟩
    (fun t ht k hk => ?_) hcount
  · simp only [List.map_map]
    rfl
  · have hok := htxns t ht
    obtain ⟨i, hi, hk⟩ := List.mem_map.mp hk
    have hi := List.mem_range.mp hi
    cases t <;> simp only [TpccTxn.orderLineInsert, Option.ite_none_right_eq_some, Option.some.injEq,
      reduceCtorEq] at hk
    obtain ⟨-, rfl⟩ := hk
    exact ⟨(orderLineKey_lt _ _ _ _).trans (show 2 ^ 41 < 2 ^ (64 - 22) by decide),
      named_line store hok.1 (by omega) (by omega)⟩

end

end Egad.Tpcc
