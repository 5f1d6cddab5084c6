import Mathlib.Logic.Function.Basic
import Mathlib.Data.List.Basic
import Mathlib.Data.List.Induction
import Mathlib.Order.Basic
import Mathlib.Tactic.Common

/-! # The transaction generator (`benchmarks/tpcc_txn_gen.h`, `benchmarks/tpcc_txn_gen.cpp`)

    The order ids of a run come from two counters for each district:

        delivered            undelivered              next
        1 … 2100 … ────────▶ next_deliver ──────────▶ next_oid

    NewOrder takes the next order id. Delivery takes, in each district, the oldest order that was not
    delivered, and 0 where it would reach the newest one. OrderStatus and StockLevel look at the newest
    order. What the random generators draw is the input of the model. -/

namespace Egad.Tpcc

/-! ### Order ids -/

/-- `TpccOIdGenerator`, indexed from zero by warehouse and district. -/
structure OIdGenerator where
  nextOid : ℕ → ℕ → ℕ
  nextDeliver : ℕ → ℕ → ℕ

/-- Write one entry of a table of counters. -/
def setAt (c : ℕ → ℕ → ℕ) (w d n : ℕ) : ℕ → ℕ → ℕ :=
  Function.update c w (Function.update (c w) d n)

@[simp] theorem setAt_self (c : ℕ → ℕ → ℕ) (w d n : ℕ) : setAt c w d n w d = n := by
  rw [setAt, Function.update_self, Function.update_self]

theorem setAt_of_ne {c : ℕ → ℕ → ℕ} {w d n w' d' : ℕ} (h : ¬ (w' = w ∧ d' = d)) :
    setAt c w d n w' d' = c w' d' := by
  rw [setAt]
  by_cases hw : w' = w
  · subst hw
    rw [Function.update_self, Function.update_of_ne fun hd => h ⟨rfl, hd⟩]
  · rw [Function.update_of_ne hw]

/-- The constructor with its default arguments. -/
def OIdGenerator.init : OIdGenerator := ⟨fun _ _ => 3000, fun _ _ => 2100⟩

def OIdGenerator.nextOId (g : OIdGenerator) (w d : ℕ) : ℕ × OIdGenerator :=
  (g.nextOid w d + 1, { g with nextOid := setAt g.nextOid w d (g.nextOid w d + 1) })

def OIdGenerator.currOId (g : OIdGenerator) (w d : ℕ) : ℕ := g.nextOid w d

def OIdGenerator.nextDeliverOId (g : OIdGenerator) (w d : ℕ) : ℕ × OIdGenerator :=
  if g.nextDeliver w d + 1 < g.nextOid w d then
    (g.nextDeliver w d + 1,
      { g with nextDeliver := setAt g.nextDeliver w d (g.nextDeliver w d + 1) })
  else (0, g)

/-! ### Transactions -/

structure OrderItem where
  iId : ℕ
  wId : ℕ
  orderQuantities : ℕ
deriving DecidableEq, Repr

/-- The generated inputs; a Delivery has one order id for each of the ten districts. -/
inductive TxnInput where
  | newOrder (originWId dId oId cId : ℕ) (items : List OrderItem)
  | payment (warehouseId districtId customerWarehouseId customerDistrictId customerId amount : ℕ)
  | orderStatus (wId dId cId oId : ℕ)
  | delivery (wId carrierId deliveryD : ℕ) (oId : List ℕ)
  | stockLevel (wId dId oId threshold : ℕ)
deriving DecidableEq, Repr

/-- What `getTxnType` and the distributions draw for one transaction. -/
inductive Draw where
  | newOrder (originWId dId cId : ℕ) (items : List OrderItem)
  | payment (warehouseId districtId customerWarehouseId customerDistrictId customerId amount : ℕ)
  | orderStatus (wId dId cId : ℕ)
  | delivery (wId carrierId : ℕ)
  | stockLevel (wId dId threshold : ℕ)

/-- The order ids of a Delivery in warehouse `w`, district by district. -/
def deliverAll (g : OIdGenerator) (w : ℕ) : List ℕ → List ℕ × OIdGenerator
  | [] => ([], g)
  | d :: ds =>
    let (o, g') := g.nextDeliverOId w d
    let (os, g'') := deliverAll g' w ds
    (o :: os, g'')

/-- `generateTxn`. -/
def generateTxn (g : OIdGenerator) (timestamp : ℕ) : Draw → TxnInput × OIdGenerator
  | .newOrder w d c items =>
    let (o, g') := g.nextOId (w - 1) (d - 1)
    (.newOrder w d o c items, g')
  | .payment w d cw cd c a => (.payment w d cw cd c a, g)
  | .orderStatus w d c => (.orderStatus w d c (g.currOId (w - 1) (d - 1)), g)
  | .delivery w carrier =>
    let (os, g') := deliverAll g (w - 1) (List.range 10)
    (.delivery w carrier timestamp os, g')
  | .stockLevel w d threshold => (.stockLevel w d (g.currOId (w - 1) (d - 1)) threshold, g)

/-- One more transaction of the run, with its logical timestamp. -/
def generateStep (s : List TxnInput × OIdGenerator) (draw : Draw) : List TxnInput × OIdGenerator :=
  let (txn, g') := generateTxn s.2 s.1.length draw
  (s.1 ++ [txn], g')

/-- `generateTxns`: the transactions of all epochs, in order. -/
def generateTxns (draws : List Draw) : List TxnInput × OIdGenerator :=
  draws.foldl generateStep ([], .init)

theorem generateTxns_concat (draws : List Draw) (x : Draw) : generateTxns (draws ++ [x]) =
    ((generateTxns draws).1 ++ [(generateTxn (generateTxns draws).2 (generateTxns draws).1.length x).1],
      (generateTxn (generateTxns draws).2 (generateTxns draws).1.length x).2) := by
  rw [generateTxns, List.foldl_append, List.foldl_cons, List.foldl_nil, ← generateTxns]
  generalize generateTxns draws = s
  rfl

/-- Values that the distributions can draw. -/
def Draw.InRange (W : ℕ) : Draw → Prop
  | .newOrder w d _ items => (1 ≤ w ∧ w ≤ W) ∧ (1 ≤ d ∧ d ≤ 10) ∧ 5 ≤ items.length ∧ items.length ≤ 15
  | .payment w d cw cd _ _ =>
    (1 ≤ w ∧ w ≤ W) ∧ (1 ≤ d ∧ d ≤ 10) ∧ (1 ≤ cw ∧ cw ≤ W) ∧ (1 ≤ cd ∧ cd ≤ 10)
  | .orderStatus w d _ => (1 ≤ w ∧ w ≤ W) ∧ (1 ≤ d ∧ d ≤ 10)
  | .delivery w _ => 1 ≤ w ∧ w ≤ W
  | .stockLevel w d _ => (1 ≤ w ∧ w ≤ W) ∧ (1 ≤ d ∧ d ≤ 10)

/-! ### What the counters count -/

/-- The transaction inserts order `o` of district `(w, d)`. -/
def TxnInput.Inserts (w d o : ℕ) : TxnInput → Prop
  | .newOrder w' d' o' _ _ => w' = w ∧ d' = d ∧ o' = o
  | _ => False

/-- The transaction delivers order `o` of district `(w, d)`. -/
def TxnInput.Delivers (w d o : ℕ) : TxnInput → Prop
  | .delivery w' _ _ os => w' = w ∧ 1 ≤ d ∧ os[d - 1]? = some o ∧ o ≠ 0
  | _ => False

/-- The draw is a NewOrder of district `(w, d)`. -/
def Draw.ordersIn (w d : ℕ) : Draw → Bool
  | .newOrder w' d' _ _ => w' = w ∧ d' = d
  | _ => false

section Deliver
variable {g : OIdGenerator} {w : ℕ}

theorem nextDeliverOId_nextOid (d : ℕ) : (g.nextDeliverOId w d).2.nextOid = g.nextOid := by
  rw [OIdGenerator.nextDeliverOId]
  split <;> rfl

theorem nextDeliverOId_of_ne {d w' d' : ℕ} (h : ¬ (w' = w ∧ d' = d)) :
    (g.nextDeliverOId w d).2.nextDeliver w' d' = g.nextDeliver w' d' := by
  rw [OIdGenerator.nextDeliverOId]
  split
  · exact setAt_of_ne h
  · rfl

theorem deliverAll_nextOid (ds : List ℕ) : (deliverAll g w ds).2.nextOid = g.nextOid := by
  induction ds generalizing g with
  | nil => rfl
  | cons d ds ih => rw [deliverAll, ih, nextDeliverOId_nextOid]

theorem deliverAll_of_notMem {ds : List ℕ} {w' d' : ℕ} (h : ¬ (w' = w ∧ d' ∈ ds)) :
    (deliverAll g w ds).2.nextDeliver w' d' = g.nextDeliver w' d' := by
  induction ds generalizing g with
  | nil => rfl
  | cons d ds ih =>
    rw [deliverAll, ih fun hd => h ⟨hd.1, by simp [hd.2]⟩]
    exact nextDeliverOId_of_ne fun hd => h ⟨hd.1, by simp [hd.2]⟩

@[simp] theorem length_deliverAll (ds : List ℕ) : (deliverAll g w ds).1.length = ds.length := by
  induction ds generalizing g with
  | nil => rfl
  | cons d ds ih => simp [deliverAll, ih]

/-- A district's delivery looks at its own two counters. -/
theorem nextDeliverOId_congr {g' : OIdGenerator} {d : ℕ} (ho : g'.nextOid w d = g.nextOid w d)
    (hd : g'.nextDeliver w d = g.nextDeliver w d) :
    (g'.nextDeliverOId w d).1 = (g.nextDeliverOId w d).1 ∧
      (g'.nextDeliverOId w d).2.nextDeliver w d = (g.nextDeliverOId w d).2.nextDeliver w d := by
  rw [OIdGenerator.nextDeliverOId, OIdGenerator.nextDeliverOId, ho, hd]
  split
  · exact ⟨rfl, (setAt_self ..).trans (setAt_self ..).symm⟩
  · exact ⟨rfl, hd⟩

/-- Each district of a Delivery takes its own next order, whatever the other districts do. -/
theorem deliverAll_at {ds : List ℕ} (hnd : ds.Nodup) {i d : ℕ} (hi : ds[i]? = some d) :
    (deliverAll g w ds).1[i]? = some (g.nextDeliverOId w d).1 ∧
      (deliverAll g w ds).2.nextDeliver w d = (g.nextDeliverOId w d).2.nextDeliver w d := by
  induction ds generalizing g i with
  | nil => simp at hi
  | cons e ds ih =>
    obtain ⟨he, hnd'⟩ := List.nodup_cons.mp hnd
    cases i with
    | zero =>
      obtain rfl : e = d := by simpa using hi
      exact ⟨rfl, deliverAll_of_notMem fun h => he h.2⟩
    | succ i =>
      have hi' : ds[i]? = some d := by simpa using hi
      have hne : ¬ (w = w ∧ d = e) := by
        rintro ⟨-, rfl⟩
        exact he (List.mem_of_getElem? hi')
      obtain ⟨h₁, h₂⟩ := ih (g := (g.nextDeliverOId w e).2) hnd' hi'
      obtain ⟨hc₁, hc₂⟩ := @nextDeliverOId_congr g w (g.nextDeliverOId w e).2 d
        (by rw [nextDeliverOId_nextOid]) (nextDeliverOId_of_ne hne)
      exact ⟨h₁.trans (by rw [hc₁]), h₂.trans hc₂⟩

end Deliver

/-! ### Invariants of the run -/

/-- The transaction carries order id `o` of district `(w, d)`. -/
def TxnInput.Carries (w d o : ℕ) : TxnInput → Prop
  | .newOrder w' d' o' _ _ => w' = w ∧ d' = d ∧ o' = o
  | .payment .. => False
  | .orderStatus w' d' _ o' => w' = w ∧ d' = d ∧ o' = o
  | .delivery w' _ _ os => w' = w ∧ 1 ≤ d ∧ os[d - 1]? = some o ∧ o ≠ 0
  | .stockLevel w' d' o' _ => w' = w ∧ d' = d ∧ o' = o

/-- An order is inserted once and delivered once, and not inserted after its delivery. -/
def Exclusive (t u : TxnInput) : Prop :=
  ∀ w d o, (t.Inserts w d o → ¬ u.Inserts w d o) ∧
    (t.Delivers w d o → ¬ u.Delivers w d o ∧ ¬ u.Inserts w d o)

/-- What the counters say about the transactions generated so far. -/
structure Counted (s : List TxnInput × OIdGenerator) : Prop where
  base : ∀ w d, 3000 ≤ s.2.nextOid w d
  behind : ∀ w d, s.2.nextDeliver w d < s.2.nextOid w d
  inserted : ∀ w d o, (∃ t ∈ s.1, t.Inserts (w + 1) (d + 1) o) ↔ 3000 < o ∧ o ≤ s.2.nextOid w d
  delivered : ∀ w d o, ∀ t ∈ s.1, t.Delivers (w + 1) (d + 1) o → o ≤ s.2.nextDeliver w d
  carried : ∀ w d o, ∀ t ∈ s.1, t.Carries (w + 1) (d + 1) o → 1 ≤ o ∧ o ≤ s.2.nextOid w d
  once : s.1.Pairwise Exclusive

theorem counted_init : Counted ([], .init) where
  base _ _ := Nat.le_refl _
  behind _ _ := by simp [OIdGenerator.init]
  inserted w d o := by simp [OIdGenerator.init]
  delivered := by simp
  carried := by simp
  once := List.Pairwise.nil

/-- A transaction that inserts and delivers exactly the orders by which it moves the counters. -/
structure Moves (g g' : OIdGenerator) (t : TxnInput) : Prop where
  nextOid : ∀ w d, g.nextOid w d ≤ g'.nextOid w d
  nextDeliver : ∀ w d, g.nextDeliver w d ≤ g'.nextDeliver w d
  behind : ∀ w d, g'.nextDeliver w d < g'.nextOid w d
  inserts : ∀ w d o, t.Inserts (w + 1) (d + 1) o ↔ g.nextOid w d < o ∧ o ≤ g'.nextOid w d
  delivers : ∀ w d o, t.Delivers (w + 1) (d + 1) o → g.nextDeliver w d < o ∧ o ≤ g'.nextDeliver w d
  carries : ∀ w d o, t.Carries (w + 1) (d + 1) o → 1 ≤ o ∧ o ≤ g'.nextOid w d
  pos : ∀ w d o, t.Inserts w d o ∨ t.Delivers w d o → 1 ≤ w ∧ 1 ≤ d

theorem Counted.snoc {l : List TxnInput} {g g' : OIdGenerator} {t : TxnInput} (h : Counted (l, g))
    (hm : Moves g g' t) : Counted (l ++ [t], g') where
  base w d := Nat.le_trans (h.base w d) (hm.nextOid w d)
  behind := hm.behind
  inserted w d o := by
    have hbase := h.base w d
    have hold := h.inserted w d o
    have hnew := hm.inserts w d o
    have hle := hm.nextOid w d
    simp only [List.mem_append, List.mem_singleton, or_and_right, exists_or, exists_eq_left] at *
    rw [hold, hnew]
    omega
  delivered w d o u hu hd := by
    rcases List.mem_append.mp hu with hu | hu
    · exact Nat.le_trans (h.delivered w d o u hu hd) (hm.nextDeliver w d)
    · rw [List.mem_singleton.mp hu] at hd
      exact (hm.delivers w d o hd).2
  carried w d o u hu hc := by
    rcases List.mem_append.mp hu with hu | hu
    · obtain ⟨hpos, hle⟩ := h.carried w d o u hu hc
      exact ⟨hpos, Nat.le_trans hle (hm.nextOid w d)⟩
    · rw [List.mem_singleton.mp hu] at hc
      exact hm.carries w d o hc
  once := by
    refine List.pairwise_append.mpr ⟨h.once, List.pairwise_singleton _ _, ?_⟩
    intro u hu t' ht' w d o
    obtain rfl := List.mem_singleton.mp ht'
    -- the earlier transaction lies below the counters, this one above them
    have hdist : ∀ {P : Prop}, (t'.Inserts w d o ∨ t'.Delivers w d o) →
        (∀ w' d', w = w' + 1 → d = d' + 1 → P) → P := by
      intro P ht hP
      obtain ⟨hw, hd⟩ := hm.pos w d o ht
      exact hP (w - 1) (d - 1) (by omega) (by omega)
    refine ⟨fun hui hti => hdist (Or.inl hti) ?_, fun hud => ⟨fun htd => hdist (Or.inr htd) ?_,
      fun hti => hdist (Or.inl hti) ?_⟩⟩
    · rintro w' d' rfl rfl
      have hlow := ((h.inserted w' d' o).mp ⟨u, hu, hui⟩).2
      have hhigh := ((hm.inserts w' d' o).mp hti).1
      exact absurd hlow (by simpa using hhigh)
    · rintro w' d' rfl rfl
      have hlow := h.delivered w' d' o u hu hud
      have hhigh := (hm.delivers w' d' o htd).1
      exact absurd hlow (by simpa using hhigh)
    · rintro w' d' rfl rfl
      have hlow := h.delivered w' d' o u hu hud
      have hbehind := h.behind w' d'
      have hhigh := ((hm.inserts w' d' o).mp hti).1
      simp only at hlow hbehind
      omega

/-- A transaction that only reads the counters. -/
theorem moves_reads {g : OIdGenerator} {t : TxnInput} (hb : ∀ w d, g.nextDeliver w d < g.nextOid w d)
    (hi : ∀ w d o, ¬ t.Inserts w d o) (hd : ∀ w d o, ¬ t.Delivers w d o)
    (hc : ∀ w d o, t.Carries (w + 1) (d + 1) o → o = g.nextOid w d) : Moves g g t where
  nextOid _ _ := Nat.le_refl _
  nextDeliver _ _ := Nat.le_refl _
  behind := hb
  inserts w d o := by
    constructor
    · exact fun h => absurd h (hi _ _ _)
    · intro h
      omega
  delivers w d o h := absurd h (hd _ _ _)
  carries w d o h := by
    have := hb w d
    rw [hc w d o h]
    omega
  pos w d o h := (h.elim (hi w d o) (hd w d o)).elim

theorem moves_newOrder {g : OIdGenerator} {w d c : ℕ} {items : List OrderItem}
    (hb : ∀ w d, g.nextDeliver w d < g.nextOid w d) (hw : 1 ≤ w) (hd : 1 ≤ d) :
    Moves g (g.nextOId (w - 1) (d - 1)).2
      (.newOrder w d (g.nextOId (w - 1) (d - 1)).1 c items) := by
  have hcount : ∀ w' d', (g.nextOId (w - 1) (d - 1)).2.nextOid w' d' =
      if w' = w - 1 ∧ d' = d - 1 then g.nextOid w' d' + 1 else g.nextOid w' d' := by
    intro w' d'
    split
    · rename_i h
      obtain ⟨rfl, rfl⟩ := h
      exact setAt_self ..
    · rename_i h
      exact setAt_of_ne h
  have hins : ∀ w' d' o, (w = w' + 1 ∧ d = d' + 1 ∧ g.nextOid (w - 1) (d - 1) + 1 = o) ↔
      g.nextOid w' d' < o ∧ o ≤ (g.nextOId (w - 1) (d - 1)).2.nextOid w' d' := by
    intro w' d' o
    rw [hcount]
    constructor
    · rintro ⟨rfl, rfl, rfl⟩
      simp
    · split
      · rename_i h
        obtain ⟨rfl, rfl⟩ := h
        rintro ⟨h₁, h₂⟩
        exact ⟨by omega, by omega, by omega⟩
      · rintro ⟨h₁, h₂⟩
        omega
  refine ⟨fun w' d' => ?_, fun _ _ => Nat.le_refl _, fun w' d' => ?_, hins, fun w' d' o h => h.elim,
    fun w' d' o h => ?_, ?_⟩
  · rw [hcount]
    split <;> omega
  · have := hb w' d'
    rw [hcount]
    split
    · exact Nat.lt_succ_of_lt this
    · exact this
  · have := (hins w' d' o).mp h
    omega
  · rintro w' d' o (⟨rfl, rfl, -⟩ | h)
    · exact ⟨hw, hd⟩
    · exact h.elim

theorem moves_delivery {g : OIdGenerator} {v n carrier ts : ℕ}
    (hb : ∀ w d, g.nextDeliver w d < g.nextOid w d) :
    Moves g (deliverAll g v (List.range n)).2
      (.delivery (v + 1) carrier ts (deliverAll g v (List.range n)).1) := by
  have hoid : (deliverAll g v (List.range n)).2.nextOid = g.nextOid := deliverAll_nextOid _
  have hone : ∀ d, g.nextDeliver v d ≤ (g.nextDeliverOId v d).2.nextDeliver v d ∧
      (g.nextDeliverOId v d).2.nextDeliver v d < g.nextOid v d ∧
      ((g.nextDeliverOId v d).1 ≠ 0 → g.nextDeliver v d < (g.nextDeliverOId v d).1 ∧
        (g.nextDeliverOId v d).1 ≤ (g.nextDeliverOId v d).2.nextDeliver v d) := by
    intro d
    have := hb v d
    rw [OIdGenerator.nextDeliverOId]
    split
    · simp only [setAt_self]
      omega
    · exact ⟨Nat.le_refl _, this, fun h => absurd rfl h⟩
  have hat : ∀ d < n, (deliverAll g v (List.range n)).1[d]? = some (g.nextDeliverOId v d).1 ∧
      (deliverAll g v (List.range n)).2.nextDeliver v d =
        (g.nextDeliverOId v d).2.nextDeliver v d :=
    fun d hd => deliverAll_at List.nodup_range (by simp [hd])
  have hother : ∀ w d, ¬ (w = v ∧ d < n) →
      (deliverAll g v (List.range n)).2.nextDeliver w d = g.nextDeliver w d :=
    fun w d h => deliverAll_of_notMem (by rwa [List.mem_range])
  have hstep : ∀ w d, g.nextDeliver w d ≤ (deliverAll g v (List.range n)).2.nextDeliver w d ∧
      (deliverAll g v (List.range n)).2.nextDeliver w d < g.nextOid w d := by
    intro w d
    by_cases h : w = v ∧ d < n
    · obtain ⟨rfl, hd⟩ := h
      rw [(hat d hd).2]
      exact ⟨(hone d).1, (hone d).2.1⟩
    · rw [hother w d h]
      exact ⟨Nat.le_refl _, hb w d⟩
  have hdel : ∀ w d o, TxnInput.Delivers (w + 1) (d + 1) o
      (.delivery (v + 1) carrier ts (deliverAll g v (List.range n)).1) →
      g.nextDeliver w d < o ∧ o ≤ (deliverAll g v (List.range n)).2.nextDeliver w d := by
    rintro w d o ⟨hw, -, ho, hne⟩
    obtain rfl : v = w := by omega
    have hlen := (List.getElem?_eq_some_iff.mp ho).1
    rw [length_deliverAll, List.length_range] at hlen
    obtain ⟨h₁, h₂⟩ := hat d hlen
    obtain rfl := Option.some.inj (h₁.symm.trans ho)
    rw [h₂]
    exact (hone d).2.2 hne
  refine ⟨fun w d => hoid ▸ Nat.le_refl _, fun w d => (hstep w d).1, fun w d => ?_, fun w d o => ?_,
    hdel, fun w d o h => ?_, ?_⟩
  · rw [hoid]
    exact (hstep w d).2
  · rw [hoid]
    constructor
    · exact fun h => h.elim
    · intro h
      omega
  · have := hdel w d o h
    have := (hstep w d).2
    rw [hoid]
    omega
  · rintro w d o (h | ⟨rfl, hd, -⟩)
    · exact h.elim
    · exact ⟨by omega, hd⟩

/-- One transaction moves the counters by what it inserts and delivers. -/
theorem generateTxn_moves {g : OIdGenerator} {W ts : ℕ} {draw : Draw} (hr : draw.InRange W)
    (hb : ∀ w d, g.nextDeliver w d < g.nextOid w d) :
    Moves g (generateTxn g ts draw).2 (generateTxn g ts draw).1 := by
  cases draw with
  | newOrder w d c items =>
    simp only [generateTxn]
    exact moves_newOrder hb hr.1.1 hr.2.1.1
  | payment w d cw cd c a =>
    exact moves_reads hb (fun _ _ _ h => h) (fun _ _ _ h => h) (fun _ _ _ h => h.elim)
  | orderStatus w d c =>
    refine moves_reads hb (fun _ _ _ h => h) (fun _ _ _ h => h) ?_
    rintro w' d' o ⟨rfl, rfl, rfl⟩
    rfl
  | delivery w carrier =>
    obtain ⟨v, rfl⟩ : ∃ v, w = v + 1 := ⟨w - 1, (Nat.sub_add_cancel hr.1).symm⟩
    simp only [generateTxn, Nat.add_sub_cancel]
    exact moves_delivery hb
  | stockLevel w d threshold =>
    refine moves_reads hb (fun _ _ _ h => h) (fun _ _ _ h => h) ?_
    rintro w' d' o ⟨rfl, rfl, rfl⟩
    rfl

theorem counted_step {s : List TxnInput × OIdGenerator} {W : ℕ} {draw : Draw} (h : Counted s)
    (hr : draw.InRange W) : Counted (generateStep s draw) :=
  h.snoc (generateTxn_moves hr h.behind)

/-- The counters and the transactions agree along every run. -/
theorem counted_run {W : ℕ} {draws : List Draw} (hr : ∀ x ∈ draws, x.InRange W) :
    Counted (generateTxns draws) := by
  induction draws using List.reverseRecOn with
  | nil => exact counted_init
  | append_singleton draws x ih =>
    rw [generateTxns, List.foldl_append]
    exact counted_step (ih fun y hy => hr y (by simp [hy])) (hr x (by simp))

theorem generateTxn_inRange {g : OIdGenerator} {W ts : ℕ} {draw : Draw} (hr : draw.InRange W)
    {w d o : ℕ} (h : (generateTxn g ts draw).1.Carries w d o) :
    (1 ≤ w ∧ w ≤ W) ∧ (1 ≤ d ∧ d ≤ 10) := by
  cases draw with
  | newOrder w' d' c items =>
    obtain ⟨rfl, rfl, -⟩ := h
    exact ⟨hr.1, hr.2.1⟩
  | payment w' d' cw cd c a => exact h.elim
  | orderStatus w' d' c =>
    obtain ⟨rfl, rfl, -⟩ := h
    exact hr
  | delivery w' carrier =>
    simp only [generateTxn] at h
    obtain ⟨rfl, hd, ho, -⟩ := h
    have hlen := (List.getElem?_eq_some_iff.mp ho).1
    rw [length_deliverAll, List.length_range] at hlen
    exact ⟨hr, hd, by omega⟩
  | stockLevel w' d' threshold =>
    obtain ⟨rfl, rfl, -⟩ := h
    exact hr

/-- The districts that transactions of a run name exist. -/
theorem inRange_run {W : ℕ} {draws : List Draw} (hr : ∀ x ∈ draws, x.InRange W) {t : TxnInput}
    (ht : t ∈ (generateTxns draws).1) {w d o : ℕ} (h : t.Carries w d o) :
    (1 ≤ w ∧ w ≤ W) ∧ (1 ≤ d ∧ d ≤ 10) := by
  induction draws using List.reverseRecOn with
  | nil => simp [generateTxns] at ht
  | append_singleton draws x ih =>
    rw [generateTxns, List.foldl_append] at ht
    rcases List.mem_append.mp ht with ht | ht
    · exact ih (fun y hy => hr y (by simp [hy])) ht
    · rw [List.mem_singleton.mp ht] at h
      exact generateTxn_inRange (hr x (by simp)) h

theorem inserts_carries {t : TxnInput} {w d o : ℕ} (h : t.Inserts w d o) : t.Carries w d o := by
  cases t with
  | newOrder => exact h
  | payment => exact h.elim
  | orderStatus => exact h.elim
  | delivery => exact h.elim
  | stockLevel => exact h.elim

/-- Every order id of a run is a loaded one or one that the run inserts. -/
theorem carried_run {W : ℕ} {draws : List Draw} (hr : ∀ x ∈ draws, x.InRange W) {t : TxnInput}
    (ht : t ∈ (generateTxns draws).1) {w d o : ℕ} (h : t.Carries w d o) :
    1 ≤ o ∧ (o ≤ 3000 ∨ ∃ u ∈ (generateTxns draws).1, u.Inserts w d o) := by
  have hc := counted_run hr
  obtain ⟨⟨hw, -⟩, hd, -⟩ := inRange_run hr ht h
  obtain ⟨w, rfl⟩ : ∃ v, w = v + 1 := ⟨w - 1, (Nat.sub_add_cancel hw).symm⟩
  obtain ⟨d, rfl⟩ : ∃ v, d = v + 1 := ⟨d - 1, (Nat.sub_add_cancel hd).symm⟩
  obtain ⟨hpos, hle⟩ := hc.carried w d o t ht h
  refine ⟨hpos, ?_⟩
  rcases Nat.lt_or_ge 3000 o with ho | ho
  · exact Or.inr ((hc.inserted w d o).mpr ⟨ho, hle⟩)
  · exact Or.inl ho

/-- A district's counter has counted its NewOrders. -/
theorem nextOid_run (draws : List Draw) (w d : ℕ) (hr : ∀ x ∈ draws, ∃ W, x.InRange W) :
    (generateTxns draws).2.nextOid w d = 3000 + draws.countP (Draw.ordersIn (w + 1) (d + 1)) := by
  induction draws using List.reverseRecOn with
  | nil => rfl
  | append_singleton draws x ih =>
    have ih' := ih fun y hy => hr y (by simp [hy])
    obtain ⟨W, hx⟩ := hr x (by simp)
    rw [List.countP_append, List.countP_singleton, ← Nat.add_assoc, ← ih', generateTxns,
      List.foldl_append, List.foldl_cons, List.foldl_nil, ← generateTxns]
    generalize generateTxns draws = s
    cases x with
    | newOrder w' d' c items =>
      simp only [generateStep, generateTxn, OIdGenerator.nextOId]
      obtain ⟨⟨hw, -⟩, ⟨hd, -⟩, -⟩ := hx
      have hin : Draw.ordersIn (w + 1) (d + 1) (.newOrder w' d' c items) = true ↔
          w = w' - 1 ∧ d = d' - 1 := by
        simp only [Draw.ordersIn, decide_eq_true_eq]
        omega
      by_cases h : w = w' - 1 ∧ d = d' - 1
      · rw [if_pos (hin.mpr h)]
        obtain ⟨rfl, rfl⟩ := h
        rw [setAt_self]
      · rw [setAt_of_ne h, if_neg (fun hT => h (hin.mp hT)), Nat.add_zero]
    | payment => rfl
    | orderStatus => rfl
    | delivery w' carrier =>
      simp only [generateStep, generateTxn, deliverAll_nextOid]
      rfl
    | stockLevel => rfl

end Egad.Tpcc
