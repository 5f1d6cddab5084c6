import Egad.Tpcc.Presence
import Egad.Tpcc.AuxRecovery
import Egad.Tpcc.SameRecords
import Egad.Tpcc.StockLevel

/-! # What the index holds along a run

    The two counters of a district say which of its orders the tables hold, before and after every
    epoch and in between, transaction by transaction:

        1 … 2100 … ────────▶ next_deliver ──────────▶ next_oid
        Order, OrderLine      Order, OrderLine, NewOrder

    So the index never misses: a NewOrder finds the rows it inserts, a Delivery finds the rows of every
    order it delivers with all of their lines, and each of its deletes is effective. An OrderStatus
    finds its order when the order was there before it; the flat auxiliary index may name a later one. -/

namespace Egad.Tpcc
open Egad.Lib Egad.Timeline

/-! ### Histories -/

/-- NewOrder holds the orders of the run that were not delivered. -/
def Open (W : ℕ) (txns : List TxnInput) (w d o : ℕ) : Prop :=
  Exists W txns w d o ∧ 2100 < o ∧ ∀ t ∈ txns, ¬ t.Delivers w d o

/-- The lines of an order: fifteen of a loaded one, the items of its NewOrder else. -/
def HasLines (W : ℕ) (txns : List TxnInput) (w d o n : ℕ) : Prop :=
  Exists W txns w d o ∧ (o ≤ 3000 ∧ n = 15 ∨ ∃ c items, .newOrder w d o c items ∈ txns ∧ n = items.length)

/-- A transaction inserts a new order, delivers open ones and asks for the newest. -/
structure Continues (W : ℕ) (txns : List TxnInput) (t : TxnInput) : Prop where
  inserts : ∀ {w d o}, t.Inserts w d o →
    ((1 ≤ w ∧ w ≤ W) ∧ 1 ≤ d ∧ d ≤ 10) ∧ 3000 < o ∧ ¬ Exists W txns w d o
  delivers : ∀ {w d o}, t.Delivers w d o → Open W txns w d o
  asks : ∀ {w d c o}, t = .orderStatus w d c o → ∀ x, Exists W txns w d x ↔ 1 ≤ x ∧ x ≤ o

/-- Every transaction of the history follows from those before it. -/
def Legal (W : ℕ) (txns : List TxnInput) : Prop :=
  ∀ pre t post, txns = pre ++ t :: post → Continues W pre t

section
variable {W w d o n : ℕ} {txns txns' : List TxnInput}

theorem exists_append : Exists W (txns ++ txns') w d o ↔
    Exists W txns w d o ∨ ((1 ≤ w ∧ w ≤ W) ∧ 1 ≤ d ∧ d ≤ 10) ∧ 1 ≤ o ∧ ∃ t ∈ txns', t.Inserts w d o := by
  simp only [Exists, List.mem_append, or_and_right, exists_or]
  constructor
  · rintro ⟨hw, hd, h1, h | h | h⟩
    · exact Or.inl ⟨hw, hd, h1, Or.inl h⟩
    · exact Or.inl ⟨hw, hd, h1, Or.inr h⟩
    · exact Or.inr ⟨⟨hw, hd⟩, h1, h⟩
  · rintro (⟨hw, hd, h1, h⟩ | ⟨⟨hw, hd⟩, h1, h⟩)
    · exact ⟨hw, hd, h1, h.imp_right Or.inl⟩
    · exact ⟨hw, hd, h1, Or.inr (Or.inr h)⟩

theorem Exists.append (h : Exists W txns w d o) : Exists W (txns ++ txns') w d o :=
  exists_append.mpr (Or.inl h)

theorem inserts_iff {t : TxnInput} :
    t.Inserts w d o ↔ ∃ c items, t = .newOrder w d o c items := by
  cases t with
  | newOrder w' d' o' c' items' =>
    constructor
    · rintro ⟨rfl, rfl, rfl⟩
      exact ⟨_, _, rfl⟩
    · rintro ⟨c, items, he⟩
      cases he
      exact ⟨rfl, rfl, rfl⟩
  | payment | orderStatus | delivery | stockLevel =>
    exact ⟨fun h => h.elim, by rintro ⟨c, items, he⟩; cases he⟩

theorem delivers_carries {t : TxnInput} (h : t.Delivers w d o) : t.Carries w d o := by
  cases t with
  | delivery => exact h
  | newOrder | payment | orderStatus | stockLevel => exact h.elim

theorem not_inserts_of_delivers {t : TxnInput} (h : t.Delivers w d o) {w' d' o' : ℕ} :
    ¬ t.Inserts w' d' o' := by
  cases t with
  | delivery => exact fun hi => hi
  | newOrder | payment | orderStatus | stockLevel => exact h.elim

/-- An order of a legal history is inserted once. -/
theorem Legal.inserted_once (h : Legal W (txns ++ txns')) (he : Exists W txns w d o) {t : TxnInput}
    (ht : t ∈ txns') : ¬ t.Inserts w d o := by
  intro hi
  obtain ⟨pre, post, rfl⟩ := List.append_of_mem ht
  rw [← List.append_assoc] at h
  exact ((h _ t post rfl).inserts hi).2.2 he.append

/-- The lines of an order do not change once it is there. -/
theorem HasLines.before (h : HasLines W (txns ++ txns') w d o n) (hl : Legal W (txns ++ txns'))
    (he : Exists W txns w d o) : HasLines W txns w d o n := by
  refine ⟨he, h.2.imp id ?_⟩
  rintro ⟨c, items, hm, hn⟩
  rcases List.mem_append.mp hm with hm | hm
  · exact ⟨c, items, hm, hn⟩
  · exact absurd (inserts_iff.mpr ⟨c, items, rfl⟩) (hl.inserted_once he hm)

theorem HasLines.append (h : HasLines W txns w d o n) : HasLines W (txns ++ txns') w d o n := by
  refine ⟨h.1.append, h.2.imp id ?_⟩
  rintro ⟨c, items, hm, hn⟩
  exact ⟨c, items, List.mem_append_left _ hm, hn⟩

end

/-! ### The generator's history -/

section
variable {W : ℕ} {draws : List Draw} (hr : ∀ x ∈ draws, x.InRange W)
include hr

/-- Deliveries start behind the loaded orders that are delivered already. -/
theorem nextDeliver_ge (w d : ℕ) : 2100 ≤ (generateTxns draws).2.nextDeliver w d := by
  induction draws using List.reverseRecOn with
  | nil => simp [generateTxns, OIdGenerator.init]
  | append_singleton draws x ih =>
    have hprev : ∀ y ∈ draws, y.InRange W := fun y hy => hr y (by simp [hy])
    have hm := @generateTxn_moves (generateTxns draws).2 W (generateTxns draws).1.length x
      (hr x (by simp)) (counted_run hprev).behind
    rw [generateTxns_concat]
    exact (ih hprev).trans (hm.nextDeliver w d)

theorem exists_run (w d o : ℕ) : Exists W (generateTxns draws).1 (w + 1) (d + 1) o ↔
    (w + 1 ≤ W ∧ d + 1 ≤ 10) ∧ 1 ≤ o ∧ o ≤ (generateTxns draws).2.nextOid w d := by
  have hc := counted_run hr
  have hbase := hc.base w d
  rw [Exists, hc.inserted]
  omega

/-- What a draw makes of the counters follows from the history that they count. -/
theorem continues_run {x : Draw} (hx : x.InRange W) (ts : ℕ) :
    Continues W (generateTxns draws).1 (generateTxn (generateTxns draws).2 ts x).1 := by
  have hc := counted_run hr
  have hm := @generateTxn_moves (generateTxns draws).2 W ts x hx hc.behind
  refine ⟨fun {w d o} hi => ?_, fun {w d o} hd => ?_, fun {w d c o} he y => ?_⟩
  · obtain ⟨hw, hd⟩ := generateTxn_inRange hx (inserts_carries hi)
    obtain ⟨w, rfl⟩ : ∃ v, w = v + 1 := ⟨w - 1, (Nat.sub_add_cancel hw.1).symm⟩
    obtain ⟨d, rfl⟩ : ∃ v, d = v + 1 := ⟨d - 1, (Nat.sub_add_cancel hd.1).symm⟩
    have hlow := ((hm.inserts w d o).mp hi).1
    have hbase := hc.base w d
    refine ⟨⟨hw, hd⟩, by omega, fun he => ?_⟩
    have := ((exists_run hr w d o).mp he).2.2
    omega
  · obtain ⟨hw1, hd1⟩ := hm.pos w d o (Or.inr hd)
    obtain ⟨w, rfl⟩ : ∃ v, w = v + 1 := ⟨w - 1, (Nat.sub_add_cancel hw1).symm⟩
    obtain ⟨d, rfl⟩ : ∃ v, d = v + 1 := ⟨d - 1, (Nat.sub_add_cancel hd1).symm⟩
    obtain ⟨hlow, hhigh⟩ := hm.delivers w d o hd
    have hbehind := hm.behind w d
    have hge := nextDeliver_ge hr w d
    -- a Delivery takes no order id
    have hsame : (generateTxn (generateTxns draws).2 ts x).2.nextOid w d ≤
        (generateTxns draws).2.nextOid w d := by
      by_contra hlt
      exact not_inserts_of_delivers hd
        ((hm.inserts w d ((generateTxns draws).2.nextOid w d + 1)).mpr (by omega))
    obtain ⟨hw, hd10⟩ := generateTxn_inRange hx (delivers_carries hd)
    refine ⟨(exists_run hr w d o).mpr ⟨⟨hw.2, hd10.2⟩, by omega, by omega⟩, by omega, ?_⟩
    intro t ht hdt
    have := hc.delivered w d o t ht hdt
    omega
  · cases x with
    | orderStatus w' d' c' =>
      simp only [generateTxn, TxnInput.orderStatus.injEq] at he
      obtain ⟨rfl, rfl, rfl, rfl⟩ := he
      obtain ⟨⟨hw, hwW⟩, hd, hd10⟩ := hx
      obtain ⟨w, rfl⟩ : ∃ v, w' = v + 1 := ⟨w' - 1, (Nat.sub_add_cancel hw).symm⟩
      obtain ⟨d, rfl⟩ : ∃ v, d' = v + 1 := ⟨d' - 1, (Nat.sub_add_cancel hd).symm⟩
      rw [exists_run hr]
      exact and_iff_right ⟨hwW, hd10⟩
    | newOrder | payment | delivery | stockLevel =>
      simp [generateTxn] at he

theorem legal_run : Legal W (generateTxns draws).1 := by
  intro pre t post he
  obtain ⟨ds, x, hpre, rfl, rfl⟩ := generated_prefix draws he
  exact continues_run (fun y hy => hr y (hpre.subset (List.mem_append_left _ hy)))
    (hr x (hpre.subset (by simp))) _

end

/-! ### The keys of the three tables -/

/-- The keys of a transaction's block of an input array. -/
def blockKeys (f : TpccTxn → List (Option ℕ)) (t : TpccTxn) : List ℕ := (f t).filterMap id

def newOrderInserts : TpccTxn → List ℕ := blockKeys fun t => [t.newOrderInsert]
def newOrderDeletes : TpccTxn → List ℕ := blockKeys fun t => (List.range 10).map fun i => t.newOrderDelete i
def orderInserts : TpccTxn → List ℕ := blockKeys fun t => [t.orderInsert]
def lineInserts : TpccTxn → List ℕ := blockKeys fun t => (List.range 15).map fun i => t.orderLineInsert i
def deletesNothing : TpccTxn → List ℕ := fun _ => []

theorem mem_blockKeys {f : TpccTxn → List (Option ℕ)} {t : TpccTxn} {k : ℕ} :
    k ∈ blockKeys f t ↔ some k ∈ f t := by
  rw [blockKeys, List.mem_filterMap]
  constructor
  · rintro ⟨x, hx, rfl⟩
    exact hx
  · intro h
    exact ⟨some k, h, rfl⟩

theorem keyed_newOrder (deletePath : Bool) (txns : List TpccTxn) :
    Keyed (newOrderInput deletePath txns).evs txns newOrderInserts newOrderDeletes := by
  constructor
  · rw [TableInput.evs, map_inserts Prod.mk, newOrderInput, List.filterMap_flatMap]
    refine List.flatMap_congr fun x _ => ?_
    rw [newOrderInserts, blockKeys, List.filterMap_cons, List.filterMap_map]
    cases h : x.1.newOrderInsert <;> simp
  · rw [newOrder_deletes Prod.mk]
    refine List.flatMap_congr fun x _ => ?_
    rw [newOrderDeletes, blockKeys, List.filterMap_map, List.map_filterMap]
    rfl

/-- The two tables without deletes. -/
theorem keyed_insertOnly {inp : TableInput} {txns : List TpccTxn} {f : TpccTxn → List (Option ℕ)}
    (h : inp.entries = txns.zipIdx.flatMap fun x => (f x.1).map fun o => ⟨o, none, x.2 * 4⟩) :
    Keyed inp.evs txns (blockKeys f) deletesNothing := by
  constructor
  · rw [TableInput.evs, map_inserts Prod.mk, h, List.filterMap_flatMap]
    refine List.flatMap_congr fun x _ => ?_
    rw [blockKeys, List.filterMap_map, List.map_filterMap]
    rfl
  · rw [TableInput.evs, map_deletes Prod.mk, h, List.filterMap_flatMap]
    refine List.flatMap_congr fun x _ => ?_
    rw [List.filterMap_map]
    simp [deletesNothing]

theorem keyed_order (txns : List TpccTxn) :
    Keyed (orderInput txns).evs txns orderInserts deletesNothing :=
  @keyed_insertOnly (orderInput txns) txns _ List.map_eq_flatMap

theorem keyed_line (txns : List TpccTxn) :
    Keyed (orderLineInput txns).evs txns lineInserts deletesNothing := by
  refine @keyed_insertOnly (orderLineInput txns) txns _ ?_
  simp only [orderLineInput, List.map_map]
  rfl

/-! ### Keys and orders -/

section
variable {deletePath : Bool} {x : TxnInput × Aux} (hx : (x.1.fill x.2).Ok deletePath) {w d o : ℕ}
  (h : OrderOk o d w)
include hx h

theorem mem_newOrderInserts :
    newOrderKey o d w ∈ newOrderInserts (x.1.fill x.2) ↔ x.1.Inserts w d o := by
  obtain ⟨t, a⟩ := x
  rw [newOrderInserts, mem_blockKeys, List.mem_singleton]
  cases t with
  | newOrder w' d' o' c items =>
    simp only [TxnInput.fill, TpccTxn.newOrderInsert, Option.some.injEq, TxnInput.Inserts]
    constructor
    · intro he
      obtain ⟨h1, h2, h3⟩ := orderFields_inj h hx.1 he
      exact ⟨h3.symm, h2.symm, h1.symm⟩
    · rintro ⟨rfl, rfl, rfl⟩
      rfl
  | payment | orderStatus | delivery | stockLevel =>
    simp [TxnInput.fill, TpccTxn.newOrderInsert, TxnInput.Inserts]

theorem mem_orderInserts : orderKey o d w ∈ orderInserts (x.1.fill x.2) ↔ x.1.Inserts w d o :=
  mem_newOrderInserts hx h

theorem mem_newOrderDeletes :
    newOrderKey o d w ∈ newOrderDeletes (x.1.fill x.2) ↔ x.1.Delivers w d o := by
  obtain ⟨t, a⟩ := x
  rw [newOrderDeletes, mem_blockKeys]
  cases t with
  | delivery w' carrier ts os =>
    simp only [TxnInput.fill, List.mem_map, List.mem_range, TpccTxn.newOrderDelete,
      Option.ite_none_left_eq_some, Option.some.injEq, TxnInput.Delivers]
    constructor
    · rintro ⟨i, hi, hne, he⟩
      obtain ⟨h1, h2, h3⟩ := orderFields_inj (hx.2 i hi hne).1 h he
      subst h1 h2 h3
      exact ⟨rfl, Nat.succ_pos i, getElem?_of_getD_ne hne, hne⟩
    · rintro ⟨rfl, hd, ho, hne⟩
      have hget : os.getD (d - 1) 0 = o := by
        rw [List.getD_eq_getElem?_getD, ho, Option.getD_some]
      have hd10 := h.d.2
      refine ⟨d - 1, by omega, by rwa [hget], ?_⟩
      rw [hget, Nat.sub_add_cancel hd]
  | newOrder | payment | orderStatus | stockLevel =>
    simp [TxnInput.fill, TpccTxn.newOrderDelete, TxnInput.Delivers]

theorem mem_lineInserts {i : ℕ} (h1 : 1 ≤ i) (h15 : i ≤ 15) :
    orderLineKey o d w i ∈ lineInserts (x.1.fill x.2) ↔
      ∃ c items, x.1 = .newOrder w d o c items ∧ i ≤ items.length := by
  obtain ⟨t, a⟩ := x
  rw [lineInserts, mem_blockKeys]
  cases t with
  | newOrder w' d' o' c items =>
    simp only [TxnInput.fill, List.mem_map, List.mem_range, TpccTxn.orderLineInsert,
      Option.ite_none_right_eq_some, Option.some.injEq, TxnInput.newOrder.injEq]
    constructor
    · rintro ⟨j, hj, hlt, he⟩
      obtain ⟨rfl, rfl, rfl, hji⟩ := orderLineKey_inj hx.1 (by omega) h h15 he
      exact ⟨c, items, ⟨rfl, rfl, rfl, rfl, rfl⟩, by omega⟩
    · rintro ⟨c', items', ⟨rfl, rfl, rfl, rfl, rfl⟩, hle⟩
      exact ⟨i - 1, by omega, by omega, by rw [Nat.sub_add_cancel h1]⟩
  | payment | orderStatus | delivery | stockLevel =>
    simp [TxnInput.fill, TpccTxn.orderLineInsert]

end

/-! ### One epoch -/

/-- The tables hold what the history says. -/
structure Holds (W : ℕ) (txns : List TxnInput) (idx : Index) : Prop where
  newOrder : ∀ {w d o}, OrderOk o d w →
    (idx.newOrder.store.lookup (newOrderKey o d w) ≠ kAbsent ↔ Open W txns w d o)
  order : ∀ {w d o}, OrderOk o d w →
    (idx.order.store.lookup (orderKey o d w) ≠ kAbsent ↔ Exists W txns w d o)
  line : ∀ {w d o i}, OrderOk o d w → 1 ≤ i → i ≤ 15 →
    (idx.orderLine.store.lookup (orderLineKey o d w i) ≠ kAbsent ↔ ∃ n, HasLines W txns w d o n ∧ i ≤ n)

/-- The history when transaction `tid` of an epoch begins. -/
def historyAt (txns : List TxnInput) (epoch : List (TxnInput × Aux)) (tid : ℕ) : List TxnInput :=
  txns ++ (epoch.take tid).map Prod.fst

theorem getElem?_fillAll {epoch : List (TxnInput × Aux)} {tid : ℕ} {t : TpccTxn}
    (h : (fillAll epoch)[tid]? = some t) : ∃ x, epoch[tid]? = some x ∧ t = x.1.fill x.2 := by
  rw [fillAll, List.getElem?_map, Option.map_eq_some_iff] at h
  obtain ⟨x, hx, rfl⟩ := h
  exact ⟨x, hx, rfl⟩

theorem keyBefore_iff {τ : Type} {txns : List τ} {keys : τ → List ℕ} {tid k : ℕ} :
    KeyBefore txns keys tid k ↔ ∃ u ∈ txns.take tid, k ∈ keys u := by
  constructor
  · rintro ⟨j, hj, u, hu, hk⟩
    refine ⟨u, List.mem_of_getElem? (i := j) ?_, hk⟩
    rwa [List.getElem?_take_of_lt hj]
  · rintro ⟨u, hu, hk⟩
    obtain ⟨j, hj⟩ := List.mem_iff_getElem?.mp hu
    rw [List.getElem?_take] at hj
    split at hj
    · next hlt => exact ⟨j, hlt, u, hj, hk⟩
    · cases hj

section
variable {W : ℕ} {deletePath : Bool} {done : List TxnInput} {epoch : List (TxnInput × Aux)} {k tid : ℕ}

theorem Legal.at (hl : Legal W (done ++ epoch.map Prod.fst)) {x : TxnInput × Aux}
    (hx : epoch[tid]? = some x) : Continues W (historyAt done epoch tid) x.1 := by
  obtain ⟨hlt, rfl⟩ := List.getElem?_eq_some_iff.mp hx
  refine hl _ _ ((epoch.drop (tid + 1)).map Prod.fst) ?_
  conv_lhs => rw [← List.take_append_drop tid epoch, List.drop_eq_getElem_cons hlt, List.map_append]
  rw [historyAt, List.append_assoc, List.map_cons]

variable (hok : ∀ x ∈ epoch, (x.1.fill x.2).Ok deletePath)
include hok

/-- What the transactions of an epoch before `tid` do with an order's key. -/
theorem keyBefore_fill {keys : TpccTxn → List ℕ} {P : TxnInput → Prop}
    (hP : ∀ x : TxnInput × Aux, (x.1.fill x.2).Ok deletePath → (k ∈ keys (x.1.fill x.2) ↔ P x.1)) :
    KeyBefore (fillAll epoch) keys tid k ↔ ∃ t ∈ (epoch.take tid).map Prod.fst, P t := by
  have htake : (fillAll epoch).take tid = (epoch.take tid).map fun x => x.1.fill x.2 :=
    List.map_take.symm
  rw [keyBefore_iff, htake]
  constructor
  · rintro ⟨u, hu, hk⟩
    obtain ⟨x, hx, rfl⟩ := List.mem_map.mp hu
    exact ⟨x.1, List.mem_map_of_mem hx, (hP x (hok x (List.mem_of_mem_take hx))).mp hk⟩
  · rintro ⟨t, ht, hp⟩
    obtain ⟨x, hx, rfl⟩ := List.mem_map.mp ht
    exact ⟨_, List.mem_map_of_mem hx, (hP x (hok x (List.mem_of_mem_take hx))).mpr hp⟩

/-- What an epoch does with an order's key. -/
theorem key_fillAll {keys : TpccTxn → List ℕ} {P : TxnInput → Prop}
    (hP : ∀ x : TxnInput × Aux, (x.1.fill x.2).Ok deletePath → (k ∈ keys (x.1.fill x.2) ↔ P x.1)) :
    (∃ u ∈ fillAll epoch, k ∈ keys u) ↔ ∃ t ∈ epoch.map Prod.fst, P t := by
  have h := @keyBefore_fill deletePath epoch k epoch.length hok keys P hP
  have hlen : (fillAll epoch).length = epoch.length := List.length_map _
  rwa [keyBefore_iff, List.take_of_length_le hlen.le, List.take_length] at h

omit hok in
/-- A key that a NewOrder inserts is of its order. -/
theorem inserts_of_key {x : TxnInput × Aux} (hx : (x.1.fill x.2).Ok deletePath)
    (hk : k ∈ newOrderInserts (x.1.fill x.2)) :
    ∃ w d o, OrderOk o d w ∧ x.1.Inserts w d o ∧ k = newOrderKey o d w := by
  obtain ⟨t, a⟩ := x
  rw [newOrderInserts, mem_blockKeys, List.mem_singleton] at hk
  cases t with
  | newOrder w d o c items =>
    exact ⟨w, d, o, hx.1, ⟨rfl, rfl, rfl⟩, Option.some.inj hk⟩
  | payment | orderStatus | delivery | stockLevel => cases hk

omit hok in
theorem delivers_of_key {x : TxnInput × Aux} (hx : (x.1.fill x.2).Ok deletePath)
    (hk : k ∈ newOrderDeletes (x.1.fill x.2)) :
    ∃ w d o, OrderOk o d w ∧ x.1.Delivers w d o ∧ k = newOrderKey o d w := by
  obtain ⟨t, a⟩ := x
  rw [newOrderDeletes, mem_blockKeys, List.mem_map] at hk
  obtain ⟨i, hi, hk⟩ := hk
  cases t with
  | delivery w carrier ts os =>
    simp only [TxnInput.fill, TpccTxn.newOrderDelete, Option.ite_none_left_eq_some,
      Option.some.injEq] at hk
    obtain ⟨hne, rfl⟩ := hk
    have hord := (hx.2 i (List.mem_range.mp hi) hne).1
    exact ⟨w, i + 1, os.getD i 0, hord, ⟨rfl, Nat.succ_pos i, getElem?_of_getD_ne hne, hne⟩, rfl⟩
  | newOrder | payment | orderStatus | stockLevel => cases hk

omit hok in
theorem line_of_key {x : TxnInput × Aux} (hx : (x.1.fill x.2).Ok deletePath)
    (hk : k ∈ lineInserts (x.1.fill x.2)) : ∃ w d o i, OrderOk o d w ∧ (1 ≤ i ∧ i ≤ 15) ∧
      x.1.Inserts w d o ∧ k = orderLineKey o d w i := by
  obtain ⟨t, a⟩ := x
  rw [lineInserts, mem_blockKeys, List.mem_map] at hk
  obtain ⟨i, hi, hk⟩ := hk
  have hi := List.mem_range.mp hi
  cases t with
  | newOrder w d o c items =>
    simp only [TxnInput.fill, TpccTxn.orderLineInsert, Option.ite_none_right_eq_some,
      Option.some.injEq] at hk
    exact ⟨w, d, o, i + 1, hx.1, ⟨by omega, by omega⟩, ⟨rfl, rfl, rfl⟩, hk.2.symm⟩
  | payment | orderStatus | delivery | stockLevel => cases hk

variable {idx : Index} (hl : Legal W (done ++ epoch.map Prod.fst))
include hl

/-- No order is inserted that is there already. -/
theorem fresh_key {lookup : ℕ → ℕ} {keys : TpccTxn → List ℕ} {x : TxnInput × Aux}
    (hx : epoch[tid]? = some x) {w d o : ℕ} (hord : OrderOk o d w) (hi : x.1.Inserts w d o)
    (hlook : lookup k ≠ kAbsent → Exists W done w d o)
    (hkeys : ∀ y : TxnInput × Aux, (y.1.fill y.2).Ok deletePath → k ∈ keys (y.1.fill y.2) →
      y.1.Inserts w d o) :
    lookup k = kAbsent ∧ ¬ KeyBefore (fillAll epoch) keys tid k := by
  obtain ⟨hrange, -, hnew⟩ := (hl.at hx).inserts hi
  constructor
  · by_contra hne
    exact hnew (hlook hne).append
  · intro hb
    obtain ⟨u, hu, hk⟩ := keyBefore_iff.mp hb
    have htake : (fillAll epoch).take tid = (epoch.take tid).map fun x => x.1.fill x.2 :=
      List.map_take.symm
    rw [htake] at hu
    obtain ⟨y, hy, rfl⟩ := List.mem_map.mp hu
    refine hnew (exists_append.mpr (Or.inr ⟨hrange, hord.o.1, y.1, List.mem_map_of_mem hy, ?_⟩))
    exact hkeys y (hok y (List.mem_of_mem_take hy)) hk

variable (hh : Holds W done idx)
include hh

theorem inOrder_newOrder :
    InOrder idx.newOrder.store.lookup (fillAll epoch) newOrderInserts newOrderDeletes where
  insNodup t _ := by
    rw [newOrderInserts, blockKeys]
    exact (List.nodup_singleton t.newOrderInsert).filterMap fun a b k ha hb => by
      simp only [id_eq, Option.mem_def] at ha hb
      rw [ha, hb]
  delNodup t _ := by
    rw [newOrderDeletes, blockKeys, List.filterMap_map, List.Nodup, List.pairwise_filterMap]
    refine List.pairwise_lt_range.imp_of_mem fun {i j} hi hj hij b hb b' hb' heq => ?_
    subst heq
    have := newOrderDelete_district (List.mem_range.mp hi) (List.mem_range.mp hj) hb hb'
    omega
  inserts := by
    intro tid t ht k hk
    obtain ⟨x, hx, rfl⟩ := getElem?_fillAll ht
    obtain ⟨w, d, o, hord, hi, rfl⟩ := inserts_of_key (hok x (List.mem_of_getElem? hx)) hk
    exact fresh_key hok hl hx hord hi (fun hne => ((hh.newOrder hord).mp hne).1)
      fun y hy hky => (mem_newOrderInserts hy hord).mp hky
  deletes := by
    intro tid t ht k hk
    obtain ⟨x, hx, rfl⟩ := getElem?_fillAll ht
    obtain ⟨w, d, o, hord, hdel, rfl⟩ := delivers_of_key (hok x (List.mem_of_getElem? hx)) hk
    obtain ⟨hex, hnew, hnone⟩ := (hl.at hx).delivers hdel
    rw [keyBefore_fill hok fun y hy => mem_newOrderInserts hy hord,
      keyBefore_fill hok fun y hy => mem_newOrderDeletes hy hord]
    constructor
    · rcases exists_append.mp hex with he | ⟨-, -, hi⟩
      · refine Or.inl ((hh.newOrder hord).mpr ⟨he, hnew, fun u hu => ?_⟩)
        exact hnone u (List.mem_append_left _ hu)
      · exact Or.inr hi
    · rintro ⟨u, hu, hud⟩
      exact hnone u (List.mem_append_right _ hu) hud

theorem inOrder_order : InOrder idx.order.store.lookup (fillAll epoch) orderInserts deletesNothing where
  insNodup := (inOrder_newOrder hok hl hh).insNodup
  delNodup _ _ := List.nodup_nil
  inserts := by
    intro tid t ht k hk
    obtain ⟨x, hx, rfl⟩ := getElem?_fillAll ht
    obtain ⟨w, d, o, hord, hi, rfl⟩ := inserts_of_key (hok x (List.mem_of_getElem? hx)) hk
    exact fresh_key hok hl hx hord hi (hh.order hord).mp
      fun y hy hky => (mem_orderInserts hy hord).mp hky
  deletes := by
    intro tid t ht k hk
    exact absurd hk List.not_mem_nil

theorem inOrder_line : InOrder idx.orderLine.store.lookup (fillAll epoch) lineInserts deletesNothing where
  insNodup t ht := by
    obtain ⟨x, hx, rfl⟩ := List.mem_map.mp ht
    obtain ⟨u, a⟩ := x
    rw [lineInserts, blockKeys, List.filterMap_map, List.Nodup, List.pairwise_filterMap]
    refine List.pairwise_lt_range.imp_of_mem fun {i j} hi hj hij b hb b' hb' heq => ?_
    subst heq
    have hi := List.mem_range.mp hi
    have hj := List.mem_range.mp hj
    cases u with
    | newOrder w d o c items =>
      simp only [TxnInput.fill, Function.comp_apply, id_eq, TpccTxn.orderLineInsert,
        Option.ite_none_right_eq_some, Option.some.injEq] at hb hb'
      have hord := (hok _ hx).1
      have := (orderLineKey_inj hord (by omega) hord (by omega) (hb.2.trans hb'.2.symm)).2.2.2
      omega
    | payment | orderStatus | delivery | stockLevel => cases hb
  delNodup _ _ := List.nodup_nil
  inserts := by
    intro tid t ht k hk
    obtain ⟨x, hx, rfl⟩ := getElem?_fillAll ht
    obtain ⟨w, d, o, i, hord, ⟨h1, h15⟩, hi, rfl⟩ := line_of_key (hok x (List.mem_of_getElem? hx)) hk
    refine fresh_key hok hl hx hord hi (fun hne => ?_) fun y hy hky => ?_
    · obtain ⟨n, hn, -⟩ := (hh.line hord h1 h15).mp hne
      exact hn.1
    · obtain ⟨c, items, he, -⟩ := (mem_lineInserts hy hord h1 h15).mp hky
      exact inserts_iff.mpr ⟨c, items, he⟩
  deletes := by
    intro tid t ht k hk
    exact absurd hk List.not_mem_nil

end

/-! ### What the transactions of an epoch find -/

/-- The auxiliary index knows the number of lines of each order it names. -/
structure AuxAnswers (W : ℕ) (txns : List TxnInput) (x : TxnInput × Aux) : Prop where
  delivers : ∀ {w d o}, x.1.Delivers w d o → HasLines W txns w d o (x.2.deliverItems (d - 1))
  asks : ∀ {w d c o}, x.1 = .orderStatus w d c o → HasLines W txns w d x.2.oId x.2.numItems

/-- What a transaction that begins after the history finds: nothing of a NewOrder or a Delivery is
    missing, an OrderStatus finds all or nothing of the order that the auxiliary index names. -/
def Finds (W : ℕ) (txns : List TxnInput) (a : Aux) : TxnInput → TxnParams → Prop
  | .newOrder _ _ _ _ items, .newOrder o no ls =>
    o ≠ kAbsent ∧ no ≠ kAbsent ∧ ls.length = items.length ∧ kAbsent ∉ ls
  | .orderStatus w d _ bound, .orderStatus o ls =>
    if a.oId ≤ bound then o ≠ kAbsent ∧ HasLines W txns w d a.oId ls.length ∧ kAbsent ∉ ls
    else o = kAbsent ∧ ∀ l ∈ ls, l = kAbsent
  | .delivery w _ _ os, .delivery nos ords ls => ∀ i < 10, os.getD i 0 ≠ 0 →
    nos.getD i kAbsent ≠ kAbsent ∧ ords.getD i kAbsent ≠ kAbsent ∧
      HasLines W txns w (i + 1) (os.getD i 0) (ls.getD i []).length ∧ kAbsent ∉ ls.getD i []
  | .payment .., .other => True
  | .stockLevel .., .other => True
  | _, _ => False

theorem historyAt_succ {done : List TxnInput} {epoch : List (TxnInput × Aux)} {tid : ℕ}
    {x : TxnInput × Aux} (hx : epoch[tid]? = some x) :
    historyAt done epoch (tid + 1) = historyAt done epoch tid ++ [x.1] := by
  rw [historyAt, historyAt, List.take_add_one, hx, List.map_append, List.append_assoc]
  rfl

theorem historyAt_length (done : List TxnInput) (epoch : List (TxnInput × Aux)) :
    historyAt done epoch epoch.length = done ++ epoch.map Prod.fst := by
  rw [historyAt, List.take_length]

/-- The three tables of an epoch. -/
structure EpochRun (W : ℕ) (deletePath : Bool) (done : List TxnInput) (epoch : List (TxnInput × Aux))
    (idx idx' : Index) (no ord ol : TableOut) : Prop where
  ok : ∀ x ∈ epoch, (x.1.fill x.2).Ok deletePath
  legal : Legal W (done ++ epoch.map Prod.fst)
  holds : Holds W done idx
  newOrder : TableRun (newOrderInput deletePath (fillAll epoch)) (fillAll epoch) newOrderInserts
    newOrderDeletes idx.newOrder idx'.newOrder no
  order : TableRun (orderInput (fillAll epoch)) (fillAll epoch) orderInserts deletesNothing idx.order
    idx'.order ord
  orderLine : TableRun (orderLineInput (fillAll epoch)) (fillAll epoch) lineInserts deletesNothing
    idx.orderLine idx'.orderLine ol
  cuco : (∃ m e, idx.newOrder.store = .cuco m e) ∧ ∃ m e, idx.order.store = .cuco m e

theorem epochRun_of_index {cfg : Config} {W : ℕ} {deletePath : Bool} {g : GpuIndex} {js : Journals}
    {done : List TxnInput} {epoch : List (TxnInput × Aux)} (hg : Logged cfg g js)
    (hgen : Generated cfg deletePath (fillAll epoch)) (hroom : Room g.index epoch.length)
    (hl : Legal W (done ++ epoch.map Prod.fst)) (hh : Holds W done g.index) {idx : Index}
    {out : EpochOut} (h : indexTxns deletePath g.index (fillAll epoch) = .ok (idx, out)) :
    ∃ no ord ol, out = epochOut (fillAll epoch) no ord ol ∧
      EpochRun W deletePath done epoch g.index idx no ord ol := by
  obtain ⟨⟨o, oout⟩, ⟨no, nout⟩, ⟨ol, lout⟩, ho, hno, hol, hr⟩ := indexTxns_ok h
  obtain ⟨rfl, rfl⟩ := Prod.mk.inj hr
  obtain ⟨hroomN, hroomO, hroomL⟩ := hroom
  have hlen : (fillAll epoch).length = epoch.length := List.length_map _
  have hleN := @newOrder_inserts_le deletePath (fillAll epoch)
  have hleO := @order_inserts_le (fillAll epoch)
  have hleL := @line_inserts_le (fillAll epoch)
  have hok : ∀ t ∈ fillAll epoch, t.Ok deletePath := fun t ht => (hgen.each t ht).1
  have hokx : ∀ x ∈ epoch, (x.1.fill x.2).Ok deletePath := fun x hx => hok _ (List.mem_map_of_mem hx)
  have hinN := newOrderInput_ok hok hgen.numbered.count hg.newOrderCuco
  have hinO := orderInput_ok hgen.numbered.count hg.orderCuco
  have hinL : InputOk (orderLineInput (fillAll epoch)) g.index.orderLine.store (fillAll epoch).length :=
    orderLineInput_ok hok hgen.numbered.count
  have hmN : RowsFit (newOrderInput deletePath (fillAll epoch)) g.index.newOrder := by
    unfold RowsFit
    omega
  have hmO : RowsFit (orderInput (fillAll epoch)) g.index.order := by
    unfold RowsFit
    omega
  have hmL : RowsFit (orderLineInput (fillAll epoch)) g.index.orderLine := by
    unfold RowsFit
    omega
  obtain ⟨hsN, -⟩ := tableEpoch_spec hinN hg.newOrder.ok hmN hno
  obtain ⟨hsO, -⟩ := tableEpoch_spec hinO hg.order.ok hmO ho
  obtain ⟨hsL, -⟩ := tableEpoch_spec hinL hg.orderLine.ok hmL hol
  exact ⟨nout, oout, lout, rfl, hokx, hl, hh,
    ⟨hinN, hmN, hsN, keyed_newOrder deletePath _, inOrder_newOrder hokx hl hh⟩,
    ⟨hinO, hmO, hsO, keyed_order _, inOrder_order hokx hl hh⟩,
    ⟨hinL, hmL, hsL, keyed_line _, inOrder_line hokx hl hh⟩, hg.newOrderCuco, hg.orderCuco⟩

section
variable {W : ℕ} {deletePath : Bool} {done : List TxnInput} {epoch : List (TxnInput × Aux)}
  {idx idx' : Index} {no ord ol : TableOut} {w d o i tid : ℕ}

theorem exists_historyAt (hl : Legal W (done ++ epoch.map Prod.fst)) (hord : OrderOk o d w) :
    Exists W (historyAt done epoch tid) w d o ↔
      Exists W done w d o ∨ ∃ t ∈ (epoch.take tid).map Prod.fst, t.Inserts w d o := by
  rw [historyAt, exists_append]
  refine or_congr_right ⟨fun h => h.2.2, ?_⟩
  rintro ⟨t, ht, hi⟩
  obtain ⟨x, hx, rfl⟩ := List.mem_map.mp ht
  obtain ⟨j, hj⟩ := List.mem_iff_getElem?.mp (List.mem_of_mem_take hx)
  exact ⟨((hl.at hj).inserts hi).1, hord.o.1, x.1, ht, hi⟩

theorem lines_historyAt (hl : Legal W (done ++ epoch.map Prod.fst)) (hord : OrderOk o d w)
    (h15 : i ≤ 15) : (∃ n, HasLines W (historyAt done epoch tid) w d o n ∧ i ≤ n) ↔
      (∃ n, HasLines W done w d o n ∧ i ≤ n) ∨ ∃ t ∈ (epoch.take tid).map Prod.fst,
        ∃ c items, t = .newOrder w d o c items ∧ i ≤ items.length := by
  constructor
  · rintro ⟨n, ⟨he, hn⟩, hi⟩
    rcases hn with ⟨hload, rfl⟩ | ⟨c, items, hm, rfl⟩
    · exact Or.inl ⟨15, ⟨⟨he.1, he.2.1, he.2.2.1, Or.inl hload⟩, Or.inl ⟨hload, rfl⟩⟩, h15⟩
    · rcases List.mem_append.mp hm with hm | hm
      · have hex : Exists W done w d o :=
          ⟨he.1, he.2.1, he.2.2.1, Or.inr ⟨_, hm, ⟨rfl, rfl, rfl⟩⟩⟩
        exact Or.inl ⟨_, ⟨hex, Or.inr ⟨c, items, hm, rfl⟩⟩, hi⟩
      · exact Or.inr ⟨_, hm, c, items, rfl, hi⟩
  · rintro (⟨n, hn, hi⟩ | ⟨t, ht, c, items, rfl, hi⟩)
    · exact ⟨n, hn.append, hi⟩
    · refine ⟨items.length, ⟨?_, Or.inr ⟨c, items, List.mem_append_right _ ht, rfl⟩⟩, hi⟩
      exact (exists_historyAt hl hord).mpr (Or.inr ⟨_, ht, ⟨rfl, rfl, rfl⟩⟩)

theorem length_fillAll (epoch : List (TxnInput × Aux)) : (fillAll epoch).length = epoch.length :=
  List.length_map _

variable (h : EpochRun W deletePath done epoch idx idx' no ord ol)
include h

/-- A transaction finds the orders that are there after its own inserts. -/
theorem EpochRun.order_found (hord : OrderOk o d w) (htid : tid < epoch.length) :
    ord.resolve (orderKey o d w) tid ≠ kAbsent ↔ Exists W (historyAt done epoch (tid + 1)) w d o := by
  obtain ⟨m, e, hs⟩ := h.cuco.2
  have hlt : orderKey o d w < 2 ^ (64 - (orderInput (fillAll epoch)).posBits) :=
    (orderFields_lt o d w).trans (show 2 ^ 37 < 2 ^ (64 - 24) by decide)
  rw [h.order.resolve_ne_absent (by rw [hs]; trivial) hlt ((length_fillAll epoch).symm ▸ htid),
    h.holds.order hord, keyBefore_fill h.ok fun y hy => mem_orderInserts hy hord, exists_historyAt h.legal hord]
  refine and_iff_left ?_
  rintro ⟨j, -, u, -, hu⟩
  exact List.not_mem_nil hu

/-- And the NewOrder rows of those that were not delivered before it. -/
theorem EpochRun.newOrder_found (hord : OrderOk o d w) (htid : tid < epoch.length) :
    no.resolve (newOrderKey o d w) tid ≠ kAbsent ↔
      (Open W done w d o ∨ ∃ t ∈ (epoch.take (tid + 1)).map Prod.fst, t.Inserts w d o) ∧
        ¬ ∃ t ∈ (epoch.take tid).map Prod.fst, t.Delivers w d o := by
  obtain ⟨m, e, hs⟩ := h.cuco.1
  have hlt : newOrderKey o d w < 2 ^ (64 - (newOrderInput deletePath (fillAll epoch)).posBits) :=
    (orderFields_lt o d w).trans (show 2 ^ 37 < 2 ^ (64 - 24) by decide)
  rw [h.newOrder.resolve_ne_absent (by rw [hs]; trivial) hlt ((length_fillAll epoch).symm ▸ htid),
    h.holds.newOrder hord, keyBefore_fill h.ok fun y hy => mem_newOrderInserts hy hord,
    keyBefore_fill h.ok fun y hy => mem_newOrderDeletes hy hord]

/-- And all of their lines. -/
theorem EpochRun.line_found (hord : OrderOk o d w) (h1 : 1 ≤ i) (h15 : i ≤ 15)
    (htid : tid < epoch.length) : ol.resolve (orderLineKey o d w i) tid ≠ kAbsent ↔
      ∃ n, HasLines W (historyAt done epoch (tid + 1)) w d o n ∧ i ≤ n := by
  have hlt : orderLineKey o d w i < 2 ^ (64 - (orderLineInput (fillAll epoch)).posBits) :=
    (orderLineKey_lt o d w i).trans (show 2 ^ 41 < 2 ^ (64 - 22) by decide)
  rw [h.orderLine.resolve_ne_absent (named_line _ hord h1 h15) hlt ((length_fillAll epoch).symm ▸ htid),
    h.holds.line hord h1 h15,
    keyBefore_fill (P := fun t => ∃ c items, t = .newOrder w d o c items ∧ i ≤ items.length) h.ok
      fun y hy => mem_lineInserts hy hord h1 h15,
    lines_historyAt h.legal hord h15]
  refine and_iff_left ?_
  rintro ⟨j, -, u, -, hu⟩
  exact List.not_mem_nil hu

/-- The tables after the epoch. -/
theorem EpochRun.next : Holds W (done ++ epoch.map Prod.fst) idx' where
  newOrder := by
    intro w d o hord
    rw [h.newOrder.lookup_ne_absent, h.holds.newOrder hord,
      key_fillAll h.ok fun y hy => mem_newOrderInserts hy hord,
      key_fillAll h.ok fun y hy => mem_newOrderDeletes hy hord]
    have hex := @exists_historyAt W done epoch w d o epoch.length h.legal hord
    rw [historyAt_length, List.take_length] at hex
    constructor
    · rintro ⟨ho | ⟨t, ht, hi⟩, hnone⟩
      · refine ⟨ho.1.append, ho.2.1, fun t ht hd => ?_⟩
        rcases List.mem_append.mp ht with ht | ht
        · exact ho.2.2 t ht hd
        · exact hnone ⟨t, ht, hd⟩
      · obtain ⟨pre, post, hsplit⟩ := List.append_of_mem ht
        have hf := h.legal (done ++ pre) t post (by rw [hsplit, List.append_assoc])
        refine ⟨hex.mpr (Or.inr ⟨t, ht, hi⟩), by have := (hf.inserts hi).2.1; omega, fun u hu hd => ?_⟩
        rcases List.mem_append.mp hu with hu | hu
        · -- delivered earlier, the order was there before its insert
          obtain ⟨pre', post', rfl⟩ := List.append_of_mem hu
          have hdel := h.legal pre' u (post' ++ epoch.map Prod.fst) (by simp)
          have hthere : Exists W ((pre' ++ u :: post') ++ pre) w d o := by
            rw [List.append_assoc]
            exact (hdel.delivers hd).1.append
          exact (hf.inserts hi).2.2 hthere
        · exact hnone ⟨u, hu, hd⟩
    · rintro ⟨he, hlow, hnone⟩
      refine ⟨?_, fun ⟨t, ht, hd⟩ => hnone t (List.mem_append_right _ ht) hd⟩
      exact (hex.mp he).imp_left fun he => ⟨he, hlow, fun t ht => hnone t (List.mem_append_left _ ht)⟩
  order := by
    intro w d o hord
    have hex := @exists_historyAt W done epoch w d o epoch.length h.legal hord
    rw [historyAt_length, List.take_length] at hex
    rw [h.order.lookup_ne_absent, h.holds.order hord,
      key_fillAll h.ok fun y hy => mem_orderInserts hy hord, hex]
    refine and_iff_left ?_
    rintro ⟨u, -, hu⟩
    exact List.not_mem_nil hu
  line := by
    intro w d o i hord h1 h15
    have hex := @lines_historyAt W done epoch w d o i epoch.length h.legal hord h15
    rw [historyAt_length, List.take_length] at hex
    rw [h.orderLine.lookup_ne_absent, h.holds.line hord h1 h15,
      key_fillAll (P := fun t => ∃ c items, t = .newOrder w d o c items ∧ i ≤ items.length) h.ok
        fun y hy => mem_lineInserts hy hord h1 h15, hex]
    refine and_iff_left ?_
    rintro ⟨u, -, hu⟩
    exact List.not_mem_nil hu

end

section
variable {W : ℕ} {deletePath : Bool} {done : List TxnInput} {epoch : List (TxnInput × Aux)}
  {idx idx' : Index} {no ord ol : TableOut} {tid : ℕ}

theorem getD_map_range {α : Type} (f : ℕ → α) (dflt : α) {n i : ℕ} (h : i < n) :
    ((List.range n).map f).getD i dflt = f i := by
  rw [List.getD_eq_getElem?_getD, List.getElem?_map, List.getElem?_range h, Option.map_some,
    Option.getD_some]

variable (h : EpochRun W deletePath done epoch idx idx' no ord ol)
include h

/-- The lines of an order that is there are found, as many as it has. -/
theorem EpochRun.lines_found {w d o n : ℕ} (hord : OrderOk o d w) (htid : tid < epoch.length)
    (hn : HasLines W (historyAt done epoch (tid + 1)) w d o n) (h15 : n ≤ 15) :
    kAbsent ∉ (List.range n).map fun i => ol.resolve (orderLineKey o d w (i + 1)) tid := by
  intro hm
  obtain ⟨i, hi, he⟩ := List.mem_map.mp hm
  have hi := List.mem_range.mp hi
  exact (h.line_found hord (by omega) (by omega) htid).mpr ⟨n, hn, hi⟩ he

theorem EpochRun.finds_newOrder {w d o c : ℕ} {items : List OrderItem} {a : Aux}
    (hx : epoch[tid]? = some (.newOrder w d o c items, a)) :
    Finds W (historyAt done epoch tid) a (.newOrder w d o c items)
      (indexTpccTxn no.resolve ord.resolve ol.resolve tid (.newOrder o d w items.length)) := by
  obtain ⟨hord, h15⟩ := h.ok _ (List.mem_of_getElem? hx)
  have htid := (List.getElem?_eq_some_iff.mp hx).1
  obtain ⟨hrange, -, hnew⟩ := (h.legal.at hx).inserts (w := w) (d := d) (o := o) ⟨rfl, rfl, rfl⟩
  have hself : (TxnInput.newOrder w d o c items) ∈ (epoch.take (tid + 1)).map Prod.fst := by
    rw [List.take_add_one, hx]
    simp
  have hex : Exists W (historyAt done epoch (tid + 1)) w d o :=
    (exists_historyAt h.legal hord).mpr (Or.inr ⟨_, hself, ⟨rfl, rfl, rfl⟩⟩)
  refine ⟨(h.order_found hord htid).mpr hex, (h.newOrder_found hord htid).mpr
    ⟨Or.inr ⟨_, hself, ⟨rfl, rfl, rfl⟩⟩, ?_⟩, by rw [List.length_map, List.length_range], ?_⟩
  · -- nobody delivers an order that is not there
    rintro ⟨t, ht, hd⟩
    obtain ⟨y, hy, rfl⟩ := List.mem_map.mp ht
    obtain ⟨j, hj⟩ := List.mem_iff_getElem?.mp hy
    rw [List.getElem?_take] at hj
    split at hj
    · next hlt =>
      obtain ⟨k, rfl⟩ := Nat.exists_eq_add_of_lt hlt
      have hopen := ((h.legal.at hj).delivers hd).1
      refine hnew ((exists_historyAt h.legal hord).mpr ?_)
      refine ((exists_historyAt h.legal hord).mp hopen).imp_right ?_
      rintro ⟨u, hu, hi⟩
      obtain ⟨z, hz, rfl⟩ := List.mem_map.mp hu
      exact ⟨z.1, List.mem_map_of_mem (List.take_subset_take_left epoch (by omega) hz), hi⟩
    · cases hj
  · refine h.lines_found hord htid ⟨hex, Or.inr ⟨c, items, ?_, rfl⟩⟩ h15
    exact List.mem_append_right _ hself

variable (haux : ∀ x ∈ epoch, AuxAnswers W (done ++ epoch.map Prod.fst) x)
include haux

omit haux in
/-- The lines that the auxiliary index knows at the end of the epoch are those of the order now. -/
theorem EpochRun.lines_now {w d o n : ℕ} (hn : HasLines W (done ++ epoch.map Prod.fst) w d o n)
    (he : Exists W (historyAt done epoch tid) w d o) :
    HasLines W (historyAt done epoch tid) w d o n := by
  have hsplit : done ++ epoch.map Prod.fst =
      historyAt done epoch tid ++ (epoch.drop tid).map Prod.fst := by
    rw [historyAt, List.append_assoc, ← List.map_append, List.take_append_drop]
  rw [hsplit] at hn
  exact hn.before (hsplit ▸ h.legal) he

theorem EpochRun.finds_delivery {w carrier ts : ℕ} {os : List ℕ} {a : Aux}
    (hx : epoch[tid]? = some (.delivery w carrier ts os, a)) :
    Finds W (historyAt done epoch tid) a (.delivery w carrier ts os)
      (indexTpccTxn no.resolve ord.resolve ol.resolve tid
        (.delivery w (fun i => os.getD i 0) a.deliverItems)) := by
  have htid := (List.getElem?_eq_some_iff.mp hx).1
  intro i hi hne
  obtain ⟨hord, h15⟩ := (h.ok _ (List.mem_of_getElem? hx)).2 i hi hne
  have hdel : (TxnInput.delivery w carrier ts os).Delivers w (i + 1) (os.getD i 0) :=
    ⟨rfl, Nat.succ_pos i, getElem?_of_getD_ne hne, hne⟩
  obtain ⟨hex, hlow, hnone⟩ := (h.legal.at hx).delivers hdel
  have hlines := h.lines_now ((haux _ (List.mem_of_getElem? hx)).delivers hdel) hex
  rw [Nat.add_sub_cancel] at hlines
  have hnext : HasLines W (historyAt done epoch (tid + 1)) w (i + 1) (os.getD i 0)
      (a.deliverItems i) := by
    rw [historyAt_succ hx]
    exact hlines.append
  simp only [getD_map_range _ _ hi, if_neg hne, List.length_map, List.length_range]
  refine ⟨(h.newOrder_found hord htid).mpr ⟨?_, ?_⟩, (h.order_found hord htid).mpr hnext.1, hlines,
    h.lines_found hord htid hnext h15⟩
  · refine ((exists_historyAt h.legal hord).mp hex).imp (fun he => ?_) ?_
    · exact ⟨he, hlow, fun t ht => hnone t (List.mem_append_left _ ht)⟩
    · rintro ⟨t, ht, hi⟩
      obtain ⟨z, hz, rfl⟩ := List.mem_map.mp ht
      exact ⟨z.1, List.mem_map_of_mem (List.take_subset_take_left epoch (Nat.le_succ tid) hz), hi⟩
  · rintro ⟨t, ht, hd⟩
    exact hnone t (List.mem_append_right _ ht) hd

theorem EpochRun.finds_orderStatus {w d c bound : ℕ} {a : Aux}
    (hx : epoch[tid]? = some (.orderStatus w d c bound, a)) :
    Finds W (historyAt done epoch tid) a (.orderStatus w d c bound)
      (indexTpccTxn no.resolve ord.resolve ol.resolve tid (.orderStatus a.oId d w a.numItems)) := by
  have htid := (List.getElem?_eq_some_iff.mp hx).1
  have hord : OrderOk a.oId d w := (h.ok _ (List.mem_of_getElem? hx)).1
  have h15 : a.numItems ≤ 15 := (h.ok _ (List.mem_of_getElem? hx)).2
  have hlines := (haux _ (List.mem_of_getElem? hx)).asks rfl
  have hthere := (h.legal.at hx).asks rfl a.oId
  simp only [Finds, indexTpccTxn, List.length_map, List.length_range]
  split
  · next hle =>
    have hnow := h.lines_now hlines (hthere.mpr ⟨hord.o.1, hle⟩)
    have hnext : HasLines W (historyAt done epoch (tid + 1)) w d a.oId a.numItems := by
      rw [historyAt_succ hx]
      exact hnow.append
    exact ⟨(h.order_found hord htid).mpr hnext.1, hnow, h.lines_found hord htid hnext h15⟩
  · next hlt =>
    -- an OrderStatus inserts nothing, so the order is not there after it either
    have hno : ¬ Exists W (historyAt done epoch (tid + 1)) w d a.oId := by
      rw [historyAt_succ hx, exists_append]
      rintro (he | ⟨-, -, t, ht, hi⟩)
      · exact hlt (hthere.mp he).2
      · rw [List.mem_singleton.mp ht] at hi
        exact hi
    refine ⟨by_contra fun hne => hno ((h.order_found hord htid).mp hne), fun l hl => ?_⟩
    obtain ⟨i, hi, rfl⟩ := List.mem_map.mp hl
    have hi := List.mem_range.mp hi
    by_contra hne
    obtain ⟨n, hn, -⟩ := (h.line_found hord (by omega) (by omega) htid).mp hne
    exact hno hn.1

/-- Every transaction of an epoch finds what it must. -/
theorem EpochRun.finds {x : TxnInput × Aux} (hx : epoch[tid]? = some x) :
    Finds W (historyAt done epoch tid) x.2 x.1
      (indexTpccTxn no.resolve ord.resolve ol.resolve tid (x.1.fill x.2)) := by
  obtain ⟨t, a⟩ := x
  cases t with
  | newOrder w d o c items => exact h.finds_newOrder hx
  | payment => trivial
  | orderStatus w d c bound => exact h.finds_orderStatus haux hx
  | delivery w carrier ts os => exact h.finds_delivery haux hx
  | stockLevel => trivial

end

end Egad.Tpcc
