import Egad.Tpcc.Generator
import Mathlib.Algebra.Group.Nat.Defs
import Mathlib.Algebra.Order.Monoid.Canonical.Defs

/-! # Which order a Delivery gets (`TpccOIdGenerator`)

    `nextDeliverOId` is to return the oldest order that exists and was not delivered. Its two counters
    are 32-bit words, and it compares the order after the last delivered one with the newest order:

        delivered          pending                      not created
        … next_deliver │ next_deliver + 1 … next_oid │ next_oid + 1 …
                                ╰── 0 when they are the same order

    So a district's only pending order is not delivered until a newer one exists. The calls are
    recorded with what they return, and an order exists, or was delivered, by what is recorded. -/

namespace Egad.Tpcc

/-! ### Calls -/

/-- A call of the generator for a warehouse and a district, both from zero. -/
inductive OIdCall where
  | nextOId (w d : ℕ)
  | currOId (w d : ℕ)
  | nextDeliverOId (w d : ℕ)
deriving DecidableEq

/-- A call on counters of 32 bits: what it returns, and the counters after it. -/
def OIdGenerator.call (g : OIdGenerator) : OIdCall → ℕ × OIdGenerator
  | .nextOId w d =>
    let n := (g.nextOid w d + 1) % 2 ^ 32
    (n, { g with nextOid := setAt g.nextOid w d n })
  | .currOId w d => (g.nextOid w d, g)
  | .nextDeliverOId w d =>
    let n := (g.nextDeliver w d + 1) % 2 ^ 32
    if n < g.nextOid w d then (n, { g with nextDeliver := setAt g.nextDeliver w d n }) else (0, g)

/-- The calls with what they returned, and the counters. -/
abbrev Recorded := List (OIdCall × ℕ) × OIdGenerator

def recordCall (s : Recorded) (c : OIdCall) : Recorded :=
  (s.1 ++ [(c, (s.2.call c).1)], (s.2.call c).2)

/-- A sequence of calls on the generator as constructed. -/
def recordCalls (calls : List OIdCall) : Recorded := calls.foldl recordCall ([], .init)

/-! ### Orders -/

section
variable (h : List (OIdCall × ℕ)) (w d : ℕ)

/-- The order was loaded as undelivered, or generated. -/
def Created (o : ℕ) : Prop := 2101 ≤ o ∧ o ≤ 3000 ∨ (OIdCall.nextOId w d, o) ∈ h

def WasDelivered (o : ℕ) : Prop := o ≠ 0 ∧ (OIdCall.nextDeliverOId w d, o) ∈ h

def Pending (o : ℕ) : Prop := Created h w d o ∧ ¬ WasDelivered h w d o

/-- The answer of `nextDeliverOId` after the calls `h`: the smallest pending order, and 0 exactly when
    there is none. -/
def AnswersOldest (r : ℕ) : Prop :=
  (r ≠ 0 → Pending h w d r ∧ ∀ o, Pending h w d o → r ≤ o) ∧
    (r = 0 ↔ ∀ o, ¬ Pending h w d o)

/-- Every order that is delivered exists by then and is newer than all delivered before it. -/
def DeliveredInOrder : Prop :=
  ∀ p q o, h = p ++ (OIdCall.nextDeliverOId w d, o) :: q → o ≠ 0 →
    Created p w d o ∧ ∀ x, WasDelivered p w d x → x < o

end

/-- The orders generated for a district. -/
def ordersIn (calls : List OIdCall) (w d : ℕ) : ℕ := calls.count (.nextOId w d)

/-- What the counters of a district say about its calls, of which `n` generated an order. -/
structure Tracks (h : List (OIdCall × ℕ)) (g : OIdGenerator) (w d n : ℕ) : Prop where
  nextOid : g.nextOid w d = (3000 + n) % 2 ^ 32
  created : ∀ o, Created h w d o ↔ 2101 ≤ o ∧ o ≤ 3000 ∨ ∃ j < n, o = (3001 + j) % 2 ^ 32
  bound : 3000 + n < 2 ^ 32 → 2100 ≤ g.nextDeliver w d ∧ g.nextDeliver w d < 3000 + n
  delivered : 3000 + n < 2 ^ 32 →
    ∀ o, WasDelivered h w d o ↔ 2101 ≤ o ∧ o ≤ g.nextDeliver w d
  order : 3000 + n < 2 ^ 32 → DeliveredInOrder h w d

section
variable {h : List (OIdCall × ℕ)} {g : OIdGenerator} {w d n : ℕ}

theorem tracks_init (w d : ℕ) : Tracks [] .init w d 0 := by
  refine ⟨rfl, fun o => ?_, fun _ => ⟨le_rfl, ?_⟩, fun _ o => ?_, fun _ p q o he => ?_⟩
  · simp [Created]
  · exact Nat.lt_of_sub_pos (n := 3000) (m := 2100) (by decide)
  · simp only [WasDelivered, List.not_mem_nil, and_false, OIdGenerator.init, false_iff]
    omega
  · simp at he

/-- Before the counter wraps, the orders that exist are those up to the newest. -/
theorem Tracks.created_iff (ht : Tracks h g w d n) (hn : 3000 + n < 2 ^ 32) (o : ℕ) :
    Created h w d o ↔ 2101 ≤ o ∧ o ≤ 3000 + n := by
  rw [ht.created]
  constructor
  · rintro (ho | ⟨j, hj, rfl⟩)
    · omega
    · rw [Nat.mod_eq_of_lt (by omega)]
      omega
  · rintro ⟨h1, h2⟩
    rcases Nat.lt_or_ge 3000 o with ho | ho
    · refine Or.inr ⟨o - 3001, by omega, ?_⟩
      rw [Nat.mod_eq_of_lt (by omega)]
      omega
    · exact Or.inl ⟨h1, ho⟩

theorem Tracks.pending_iff (ht : Tracks h g w d n) (hn : 3000 + n < 2 ^ 32) (o : ℕ) :
    Pending h w d o ↔ g.nextDeliver w d < o ∧ o ≤ 3000 + n := by
  have hb := ht.bound hn
  rw [Pending, ht.created_iff hn, ht.delivered hn]
  omega

/-- What one more call adds. -/
theorem created_snoc (c : OIdCall) (r o : ℕ) : Created (h ++ [(c, r)]) w d o ↔
    Created h w d o ∨ c = .nextOId w d ∧ o = r := by
  simp only [Created, List.mem_append, List.mem_singleton, Prod.mk.injEq, or_assoc]
  rw [eq_comm (a := c)]

theorem delivered_snoc (c : OIdCall) (r o : ℕ) : WasDelivered (h ++ [(c, r)]) w d o ↔
    WasDelivered h w d o ∨ o ≠ 0 ∧ c = .nextDeliverOId w d ∧ o = r := by
  simp only [WasDelivered, List.mem_append, List.mem_singleton, Prod.mk.injEq, and_or_left]
  rw [eq_comm (a := c)]

theorem inOrder_snoc {c : OIdCall} {r : ℕ} (ho : DeliveredInOrder h w d)
    (hc : c = .nextDeliverOId w d → r ≠ 0 →
      Created h w d r ∧ ∀ x, WasDelivered h w d x → x < r) :
    DeliveredInOrder (h ++ [(c, r)]) w d := by
  intro p q o he hne
  rcases List.eq_nil_or_concat q with rfl | ⟨q, y, rfl⟩
  · obtain ⟨rfl, hlast⟩ := List.append_inj' he rfl
    obtain ⟨rfl, rfl⟩ := Prod.mk.inj (List.singleton_inj.mp hlast)
    exact hc rfl hne
  · have he' : h ++ [(c, r)] = (p ++ (OIdCall.nextDeliverOId w d, o) :: q) ++ [y] := by simpa using he
    exact ho p q o (List.append_inj' he' rfl).1 hne

/-- A call that concerns another district, or generates nothing. -/
theorem Tracks.frame (ht : Tracks h g w d n) {c : OIdCall} {r : ℕ} {g' : OIdGenerator}
    (hc : c ≠ .nextOId w d) (hr : c = .nextDeliverOId w d → r = 0)
    (ho : g'.nextOid w d = g.nextOid w d) (hd : g'.nextDeliver w d = g.nextDeliver w d) :
    Tracks (h ++ [(c, r)]) g' w d n := by
  refine ⟨ho.trans ht.nextOid, fun o => ?_, fun hn => hd ▸ ht.bound hn, fun hn o => ?_, fun hn => ?_⟩
  · rw [created_snoc, ← ht.created o]
    exact or_iff_left fun hx => hc hx.1
  · rw [delivered_snoc, hd, ← ht.delivered hn o]
    refine or_iff_left ?_
    rintro ⟨hne, hcd, rfl⟩
    exact hne (hr hcd)
  · exact inOrder_snoc (ht.order hn) fun hcd hne => absurd (hr hcd) hne

theorem Tracks.next (ht : Tracks h g w d n) :
    Tracks (h ++ [(.nextOId w d, (g.call (.nextOId w d)).1)]) (g.call (.nextOId w d)).2 w d (n + 1) := by
  have hr : (g.call (.nextOId w d)).1 = (3001 + n) % 2 ^ 32 := by
    simp only [OIdGenerator.call, ht.nextOid]
    omega
  refine ⟨?_, fun o => ?_, fun hn => ?_, fun hn o => ?_, fun hn => ?_⟩
  · simp only [OIdGenerator.call, setAt_self, ht.nextOid]
    omega
  · rw [created_snoc, ht.created, hr]
    constructor
    · rintro ((ho | ⟨j, hj, rfl⟩) | ⟨-, rfl⟩)
      · exact Or.inl ho
      · exact Or.inr ⟨j, by omega, rfl⟩
      · exact Or.inr ⟨n, Nat.lt_succ_self n, rfl⟩
    · rintro (ho | ⟨j, hj, rfl⟩)
      · exact Or.inl (Or.inl ho)
      · rcases Nat.lt_succ_iff_lt_or_eq.mp hj with hj | rfl
        · exact Or.inl (Or.inr ⟨j, hj, rfl⟩)
        · exact Or.inr ⟨rfl, rfl⟩
  · have := ht.bound (by omega)
    exact ⟨this.1, this.2.trans (by omega)⟩
  · rw [delivered_snoc]
    exact (or_iff_left fun hx => by cases hx.2.1).trans (ht.delivered (by omega) o)
  · exact inOrder_snoc (ht.order (by omega)) fun hc => by cases hc

/-- Before the counter wraps, `nextDeliverOId` advances when the order after the last delivered one
    is not the newest. -/
theorem Tracks.deliver_eq (ht : Tracks h g w d n) (hn : 3000 + n < 2 ^ 32) :
    g.call (.nextDeliverOId w d) =
      if g.nextDeliver w d + 1 < 3000 + n then
        (g.nextDeliver w d + 1,
          { g with nextDeliver := setAt g.nextDeliver w d (g.nextDeliver w d + 1) })
      else (0, g) := by
  have hb := ht.bound hn
  simp only [OIdGenerator.call, ht.nextOid, Nat.mod_eq_of_lt hn,
    Nat.mod_eq_of_lt (show g.nextDeliver w d + 1 < 2 ^ 32 by omega)]

theorem Tracks.deliver (ht : Tracks h g w d n) :
    Tracks (h ++ [(.nextDeliverOId w d, (g.call (.nextDeliverOId w d)).1)])
      (g.call (.nextDeliverOId w d)).2 w d n := by
  have hcreated : ∀ r o, Created (h ++ [(.nextDeliverOId w d, r)]) w d o ↔ Created h w d o :=
    fun r o => (created_snoc _ r o).trans (or_iff_left fun hx => by cases hx.1)
  have hoid : (g.call (.nextDeliverOId w d)).2.nextOid w d = g.nextOid w d := by
    simp only [OIdGenerator.call]
    split <;> rfl
  by_cases hn : 3000 + n < 2 ^ 32
  · rw [ht.deliver_eq hn]
    split
    · rename_i hlt
      have hb := ht.bound hn
      refine ⟨ht.nextOid, fun o => (hcreated _ o).trans (ht.created o), fun _ => ?_, fun _ o => ?_,
        fun _ => ?_⟩
      · simp only [setAt_self]
        omega
      · rw [delivered_snoc, ht.delivered hn]
        simp only [setAt_self, true_and]
        omega
      · refine inOrder_snoc (ht.order hn) fun _ _ => ⟨(ht.created_iff hn _).mpr ⟨by omega, hlt.le⟩, ?_⟩
        intro x hx
        have := (ht.delivered hn x).mp hx
        omega
    · exact ht.frame (by simp) (fun _ => rfl) rfl rfl
  · exact ⟨hoid.trans ht.nextOid, fun o => (hcreated _ o).trans (ht.created o), fun hn' => absurd hn' hn,
      fun hn' => absurd hn' hn, fun hn' => absurd hn' hn⟩

theorem Tracks.step (ht : Tracks h g w d n) (c : OIdCall) :
    Tracks (h ++ [(c, (g.call c).1)]) (g.call c).2 w d (n + if c = .nextOId w d then 1 else 0) := by
  cases c with
  | nextOId w' d' =>
    by_cases hc : OIdCall.nextOId w' d' = .nextOId w d
    · rw [if_pos hc, hc]
      exact ht.next
    · rw [if_neg hc]
      have hne : ¬ (w = w' ∧ d = d') := fun hx => hc (by rw [hx.1, hx.2])
      exact ht.frame hc (fun hx => by cases hx) (setAt_of_ne hne) rfl
  | currOId w' d' => exact ht.frame (by simp) (fun hx => by cases hx) rfl rfl
  | nextDeliverOId w' d' =>
    rw [if_neg (by simp)]
    by_cases hc : OIdCall.nextDeliverOId w' d' = .nextDeliverOId w d
    · rw [hc]
      exact ht.deliver
    · have hne : ¬ (w = w' ∧ d = d') := fun hx => hc (by rw [hx.1, hx.2])
      refine ht.frame (by simp) (fun hx => absurd hx hc) ?_ ?_ <;> simp only [OIdGenerator.call]
      · split <;> rfl
      · split
        · exact setAt_of_ne hne
        · rfl

end

/-! ### Every sequence of calls -/

theorem tracks_calls (calls : List OIdCall) (w d : ℕ) :
    Tracks (recordCalls calls).1 (recordCalls calls).2 w d (ordersIn calls w d) := by
  induction calls using List.reverseRecOn with
  | nil => exact tracks_init w d
  | append_singleton calls c ih =>
    have hcalls : recordCalls (calls ++ [c]) = recordCall (recordCalls calls) c := by
      rw [recordCalls, List.foldl_append]
      rfl
    have hcount : ordersIn (calls ++ [c]) w d =
        ordersIn calls w d + if c = .nextOId w d then 1 else 0 := by
      rw [ordersIn, List.count_append, List.count_singleton, ordersIn]
      simp only [beq_iff_eq]
    rw [hcalls, hcount]
    exact ih.step c

/-- After any calls, `nextDeliverOId` returns the smallest pending order, and 0 exactly when there is
    none, if and only if the district has not exactly one pending order and no order id has wrapped to
    0. While none has, each order is delivered at most once, in order and after it was generated. -/
theorem nextDeliverOId_oldest_iff (calls : List OIdCall) (w d : ℕ) :
    (AnswersOldest (recordCalls calls).1 w d ((recordCalls calls).2.call (.nextDeliverOId w d)).1 ↔
      3000 + ordersIn calls w d < 2 ^ 32 ∧ ¬ ∃! o, Pending (recordCalls calls).1 w d o) ∧
    (3000 + ordersIn calls w d < 2 ^ 32 → DeliveredInOrder (recordCalls calls).1 w d) := by
  have ht := tracks_calls calls w d
  generalize recordCalls calls = s at ht ⊢
  generalize ordersIn calls w d = n at ht ⊢
  refine ⟨?_, ht.order⟩
  by_cases hn : 3000 + n < 2 ^ 32
  · have hb := ht.bound hn
    have hpend := ht.pending_iff hn
    rw [ht.deliver_eq hn]
    constructor
    · rintro ⟨-, hzero⟩
      refine ⟨hn, fun ⟨o, ho, huniq⟩ => ?_⟩
      -- the only pending order is the newest, and it is not delivered
      have hfirst := huniq (s.2.nextDeliver w d + 1) ((hpend _).mpr (by omega))
      have hlast := huniq (3000 + n) ((hpend _).mpr (by omega))
      rw [if_neg (by omega)] at hzero
      exact hzero.mp rfl o ho
    · rintro ⟨-, hone⟩
      have hlt : s.2.nextDeliver w d + 1 < 3000 + n := by
        by_contra hle
        refine hone ⟨3000 + n, (hpend _).mpr (by omega), fun o ho => ?_⟩
        have := (hpend o).mp ho
        omega
      rw [if_pos hlt]
      refine ⟨fun _ => ⟨(hpend _).mpr (by omega), fun o ho => ?_⟩, ?_⟩
      · have := (hpend o).mp ho
        omega
      · refine iff_of_false (Nat.succ_ne_zero _) fun hnone => ?_
        exact hnone (3000 + n) ((hpend _).mpr (by omega))
  · -- the order with id 0 is pending, and no answer can be right
    have hzero : Pending s.1 w d 0 := by
      refine ⟨(ht.created 0).mpr (Or.inr ⟨2 ^ 32 - 3001, by omega, by decide⟩), fun hd => hd.1 rfl⟩
    refine iff_of_false (fun hans => ?_) fun hx => hn hx.1
    by_cases hr : (s.2.call (.nextDeliverOId w d)).1 = 0
    · exact hans.2.mp hr 0 hzero
    · exact hr (Nat.le_zero.mp ((hans.1 hr).2 0 hzero))

/-- The loaded orders but the last can be delivered. -/
theorem deliver_loaded (k : ℕ) (hk : k ≤ 899) :
    (recordCalls (List.replicate k (.nextDeliverOId 0 0))).2.nextDeliver 0 0 = 2100 + k := by
  induction k with
  | zero => rfl
  | succ k ih =>
    have ht := tracks_calls (List.replicate k (.nextDeliverOId 0 0)) 0 0
    have hzero : ordersIn (List.replicate k (.nextDeliverOId 0 0)) 0 0 = 0 := by
      rw [ordersIn, List.count_replicate]
      rfl
    rw [hzero] at ht
    have hcalls : recordCalls (List.replicate (k + 1) (.nextDeliverOId 0 0)) =
        recordCall (recordCalls (List.replicate k (.nextDeliverOId 0 0))) (.nextDeliverOId 0 0) := by
      rw [List.replicate_succ', recordCalls, List.foldl_append]
      rfl
    rw [hcalls, recordCall, ht.deliver_eq (by decide), if_pos (by rw [ih (by omega)]; omega)]
    dsimp only
    rw [setAt_self, ih (by omega), Nat.add_assoc]

/-- After 899 deliveries of a district without new orders, its order 3000 is pending and the next call
    returns 0. -/
theorem nextDeliverOId_leaves_newest : ¬ ∀ calls w d,
    AnswersOldest (recordCalls calls).1 w d ((recordCalls calls).2.call (.nextDeliverOId w d)).1 := by
  intro hall
  have hans := hall (List.replicate 899 (.nextDeliverOId 0 0)) 0 0
  have ht := tracks_calls (List.replicate 899 (.nextDeliverOId 0 0)) 0 0
  have hzero : ordersIn (List.replicate 899 (.nextDeliverOId 0 0)) 0 0 = 0 := by
    rw [ordersIn, List.count_replicate]
    rfl
  rw [hzero] at ht
  have hnext := deliver_loaded 899 le_rfl
  rw [ht.deliver_eq (by decide), hnext, if_neg (by decide)] at hans
  refine hans.2.mp rfl 3000 ((ht.pending_iff (by decide) 3000).mpr ?_)
  rw [hnext]
  decide

end Egad.Tpcc
