import Egad.Tpcc.OrderLines
import Egad.Tpcc.Sizing
import Mathlib.Algebra.Order.BigOperators.Group.Finset
import Mathlib.Tactic.IntervalCases

/-! # Minted rows and record counts (`benchmarks/tpcc_config.h`, `benchmarks/tpcc_gpu_index.cu`)

    A growing table has rows for its initial population and for an estimated number of inserts:

        NewOrder    | W·10·900     | W·10·900  + insert pool              |
        Order       | W·10·3000    | W·10·3000 + insert pool              |
        OrderLine   | W·10·3000·15 | order line pool                      |
                      loaded         minted: init, init + 1, …

    The pools are the expected inserts of the mix with a factor of 3/2, or the worst case when that is
    smaller. `indexTxns` advances the cursors by what the epoch inserts and compares them with nothing;
    the hybrid remap turns a CRID past the last row into the absent sentinel. The guard of
    `runBenchmark` on order ids bounds the NewOrders of every district, which keeps the first two
    tables within their rows. Nothing bounds the lines. -/

namespace Egad.Tpcc
open Egad.Lib Egad.Timeline

/-! ### Record counts -/

section
variable (fl : ℚ → ℚ)

def RunConfig.orderLineInsertPoolSize (cfg : RunConfig) : ℕ :=
  let worst := cfg.numTxns * (cfg.epochs + 1) * 15
  if !cfg.mixRealisticSizing then worst
  else
    let realistic := ⌊fl (fl (fl (fl (cfg.numTxns * (cfg.epochs + 1)) *
      cfg.txnMix.newOrderShare fl) * 10) * (3 / 2))⌋₊
    if realistic < worst then realistic else worst

def RunConfig.orderLineTableSize (cfg : RunConfig) : ℕ :=
  cfg.numWarehouses * 10 * 15 * 3000 + cfg.orderLineInsertPoolSize fl

end

/-- `lookup` of the hybrid remap. -/
def remapLookup (numUnits : ℕ) (cridToGrid : ℕ → ℕ) (crid : ℕ) : ℕ :=
  if crid < numUnits then cridToGrid crid else kAbsent

/-- Every CRID the table has minted is a row of it, and the remap looks it up. -/
def Table.MintsWithin (tbl : Table) (numUnits : ℕ) : Prop :=
  ∀ i < tbl.freeStart, tbl.init + i < numUnits ∧
    ∀ cridToGrid, remapLookup numUnits cridToGrid (tbl.init + i) = cridToGrid (tbl.init + i)

theorem mintsWithin_iff {tbl : Table} {n : ℕ} (hinit : tbl.init ≤ n) :
    tbl.MintsWithin n ↔ tbl.init + tbl.freeStart ≤ n := by
  constructor
  · intro h
    rcases Nat.eq_zero_or_pos tbl.freeStart with h0 | hpos
    · omega
    · have := (h (tbl.freeStart - 1) (by omega)).1
      omega
  · intro h i hi
    have hlt : tbl.init + i < n := by omega
    exact ⟨hlt, fun _ => if_pos hlt⟩

/-! ### How far an epoch moves a cursor -/

/-- The walk flags entries of inserts as lives. -/
theorem walk_inserts (live : Bool) (l : List SEvent) :
    ∀ e ∈ (walk live l).1, ∃ s ∈ l, s.type = .insert ∧ s.entry = e := by
  induction l generalizing live with
  | nil => simp [walk]
  | cons s ss ih =>
    intro e he
    have hrest : ∀ b, e ∈ (walk b ss).1 → ∃ s' ∈ s :: ss, s'.type = .insert ∧ s'.entry = e := by
      intro b hb
      obtain ⟨s', hs', h⟩ := ih b e hb
      exact ⟨s', List.mem_cons_of_mem _ hs', h⟩
    rw [walk] at he
    cases ht : s.type with
    | delete =>
      simp only [ht] at he
      split at he
      · exact hrest _ he
      · exact hrest _ he
    | insert =>
      simp only [ht] at he
      split at he
      · exact hrest _ he
      · rcases List.mem_cons.mp he with rfl | he
        · exact ⟨s, List.mem_cons_self, ht, rfl⟩
        · exact hrest _ he

/-- A timeline mints at most one row for each insert, whatever its keys are. -/
theorem numMinted_le (b : ℕ) (lookup : ℕ → ℕ) (cridBegin : ℕ) (old : ℕ → ℕ) (entries : List Entry) :
    (build b lookup cridBegin old entries).numMinted ≤ (inserts (events entries)).length := by
  have hev := events_ordered entries
  rw [Built.numMinted, build, List.length_map, inserts, ← List.countP_eq_length_filter,
    ← List.countP_eq_length_filter]
  refine List.countP_mono_left fun v hv hflag => ?_
  obtain ⟨w, hw, he⟩ := List.mem_flatMap.mp (of_decide_eq_true hflag)
  obtain ⟨r, hr, rfl⟩ := List.mem_map.mp hw
  obtain ⟨s, hs, ht, he⟩ := walk_inserts _ r _ he
  have hs := mem_stableSort.mp (mem_of_mem_runs hr hs)
  obtain ⟨u, hu, rfl⟩ := List.mem_map.mp hs
  rw [entry_injective hev hv hu he.symm]
  exact decide_eq_true ht

theorem generalTable_freeStart {inp : TableInput} {tbl : Table} {r : Table × TableOut}
    (h : generalTable inp tbl = .ok r) :
    r.1.init = tbl.init ∧ tbl.freeStart ≤ r.1.freeStart ∧
      r.1.freeStart ≤ tbl.freeStart + (inserts inp.evs).length := by
  rw [generalTable] at h
  have hle := numMinted_le inp.posBits tbl.store.find (tbl.init + tbl.freeStart) tbl.entryCrid
    inp.entries
  set t := build inp.posBits tbl.store.find (tbl.init + tbl.freeStart) tbl.entryCrid inp.entries
  cases hfin : tbl.store.finalize t with
  | error e => rw [hfin] at h; simp [bind, Except.bind] at h
  | ok store =>
    rw [hfin] at h
    obtain rfl := Except.ok.inj h
    exact ⟨rfl, Nat.le_add_right _ _, Nat.add_le_add_left hle _⟩

/-- One epoch of a table takes at most one row for each insert. -/
theorem tableEpoch_freeStart {inp : TableInput} {tbl : Table} {r : Table × TableOut}
    (hins : (inserts inp.evs).length = inp.validInsert.length) (h : tableEpoch inp tbl = .ok r) :
    r.1.init = tbl.init ∧ tbl.freeStart ≤ r.1.freeStart ∧
      r.1.freeStart ≤ tbl.freeStart + inp.validInsert.length := by
  have hfast : ∀ store, (fastTable inp tbl store).1.init = tbl.init ∧
      (fastTable inp tbl store).1.freeStart = tbl.freeStart + inp.validInsert.length := by
    intro store
    rw [fastTable]
    split <;> exact ⟨rfl, rfl⟩
  rw [tableEpoch] at h
  split at h
  · obtain rfl := Except.ok.inj h
    obtain ⟨h1, h2⟩ := hfast tbl.store
    exact ⟨h1, by omega, by omega⟩
  · cases hfresh : tbl.store.insertFresh inp.validInsert (tbl.init + tbl.freeStart) with
    | error e => rw [hfresh] at h; simp [bind, Except.bind] at h
    | ok p =>
      obtain ⟨fresh, store⟩ := p
      rw [hfresh] at h
      cases fresh with
      | true =>
        obtain rfl := Except.ok.inj h
        obtain ⟨h1, h2⟩ := hfast store
        exact ⟨h1, by omega, by omega⟩
      | false =>
        rw [← hins]
        exact @generalTable_freeStart inp
          { tbl with store := store.undo inp.validInsert (tbl.init + tbl.freeStart) } r h

/-! ### What a run inserts -/

/-- The transaction is a NewOrder. -/
def TxnInput.isNewOrder : TxnInput → Bool
  | .newOrder .. => true
  | _ => false

/-- `num_items` of a NewOrder; the other transactions insert no lines. -/
def TxnInput.numLines : TxnInput → ℕ
  | .newOrder _ _ _ _ items => items.length
  | _ => 0

def numNewOrders (txns : List TxnInput) : ℕ := txns.countP TxnInput.isNewOrder

def numOrderLines (txns : List TxnInput) : ℕ := (txns.map TxnInput.numLines).sum

/-- `num_items` as it is drawn. -/
def Draw.numLines : Draw → ℕ
  | .newOrder _ _ _ items => items.length
  | _ => 0

theorem numOrderLines_run (draws : List Draw) :
    numOrderLines (generateTxns draws).1 = (draws.map Draw.numLines).sum := by
  induction draws using List.reverseRecOn with
  | nil => rfl
  | append_singleton draws x ih =>
    rw [generateTxns, List.foldl_append, ← generateTxns, List.map_append, List.sum_append, ← ih,
      numOrderLines, List.foldl_cons, List.foldl_nil, generateStep, List.map_append, List.sum_append]
    congr 1
    cases x <;> simp [generateTxn, TxnInput.numLines, Draw.numLines]

section
variable (deletePath : Bool) (epoch : List (TxnInput × Aux))

theorem length_newOrder_inserts : (newOrderInput deletePath (fillAll epoch)).validInsert.length =
    numNewOrders (epoch.map Prod.fst) := by
  rw [TableInput.validInsert, List.length_filterMap_eq_countP, newOrderInput, fillAll, numNewOrders,
    List.countP_map, List.countP_map, List.countP_map]
  refine List.countP_congr fun x _ => ?_
  obtain ⟨t, a⟩ := x
  cases t <;> rfl

theorem length_order_inserts : (orderInput (fillAll epoch)).validInsert.length =
    numNewOrders (epoch.map Prod.fst) := by
  rw [TableInput.validInsert, List.length_filterMap_eq_countP, orderInput, fillAll, numNewOrders,
    List.countP_map, List.countP_map, List.countP_map]
  refine List.countP_congr fun x _ => ?_
  obtain ⟨t, a⟩ := x
  cases t <;> rfl

variable {epoch} in
theorem length_line_inserts (hlines : ∀ x ∈ epoch, x.1.numLines ≤ 15) :
    (orderLineInput (fillAll epoch)).validInsert.length = numOrderLines (epoch.map Prod.fst) := by
  simp only [TableInput.validInsert, orderLineInput, fillAll, numOrderLines]
  induction epoch with
  | nil => rfl
  | cons x epoch ih =>
    have ih' := ih fun y hy => hlines y (List.mem_cons_of_mem _ hy)
    have hx := hlines x List.mem_cons_self
    obtain ⟨t, a⟩ := x
    rw [List.map_cons, List.flatMap_cons, List.filterMap_append, List.length_append, ih',
      List.map_cons, List.map_cons, List.sum_cons]
    congr 1
    cases t with
    | newOrder w d o c items =>
      have hn : items.length ≤ 15 := hx
      rw [List.length_filterMap_eq_countP, List.countP_map, TxnInput.numLines]
      refine Eq.trans (List.countP_congr (q := fun i => decide (i < items.length)) fun i _ => ?_) ?_
      · simp [TxnInput.fill, TpccTxn.orderLineInsert]
      · generalize items.length = n at hn
        interval_cases n <;> rfl
    | payment => rfl
    | orderStatus => rfl
    | delivery => rfl
    | stockLevel => rfl

end

/-! ### The cursors of a run -/

section
variable {deletePath : Bool} {txns : List TpccTxn}

theorem length_inserts_newOrder : (inserts (newOrderInput deletePath txns).evs).length =
    (newOrderInput deletePath txns).validInsert.length := by
  have hins := (inserts_of_blocks (f := fun t => [t.newOrderInsert]) (n := 1)
    (g := fun x => ⟨x.1.newOrderInsert, none, x.2 * 4⟩ ::
      (List.range 10).map fun i => ⟨none, x.1.newOrderDelete i, x.2 * 4 + 2⟩)
    (fun _ => rfl) newOrder_block txns).1
  rw [← List.map_eq_flatMap] at hins
  have h := congrArg List.length hins
  rwa [List.length_map] at h

theorem length_inserts_order : (inserts (orderInput txns).evs).length =
    (orderInput txns).validInsert.length := by
  have hins := (inserts_of_blocks (f := fun t => [t.orderInsert]) (n := 1)
    (g := fun x => [⟨x.1.orderInsert, none, x.2 * 4⟩]) (fun _ => rfl)
    (fun x => by cases x.1.orderInsert <;> simp) txns).1
  rw [← List.map_eq_flatMap, ← List.map_eq_flatMap] at hins
  have h := congrArg List.length hins
  rwa [List.length_map] at h

theorem length_inserts_line : (inserts (orderLineInput txns).evs).length =
    (orderLineInput txns).validInsert.length := by
  have hins := (inserts_of_blocks (f := fun t => (List.range 15).map fun i => t.orderLineInsert i)
    (n := 15) (g := fun x => (List.range 15).map fun i => ⟨x.1.orderLineInsert i, none, x.2 * 4⟩)
    (fun _ => by simp) (fun x => by simp [List.filterMap_map]) txns).1
  have h := congrArg List.length hins
  rwa [List.length_map] at h

end

/-- A table's cursor moved by at most `n` rows. -/
structure Table.Advances (tbl tbl' : Table) (n : ℕ) : Prop where
  init : tbl'.init = tbl.init
  le : tbl.freeStart ≤ tbl'.freeStart
  ge : tbl'.freeStart ≤ tbl.freeStart + n

theorem Table.Advances.trans {t₁ t₂ t₃ : Table} {n m : ℕ} (h : t₁.Advances t₂ n)
    (h' : t₂.Advances t₃ m) : t₁.Advances t₃ (n + m) := by
  obtain ⟨h1, h2, h3⟩ := h
  obtain ⟨h1', h2', h3'⟩ := h'
  exact ⟨h1'.trans h1, by omega, by omega⟩

/-- The three cursors moved by at most the orders and lines of `txns`. -/
structure Advances (idx idx' : Index) (txns : List TxnInput) : Prop where
  newOrder : idx.newOrder.Advances idx'.newOrder (numNewOrders txns)
  order : idx.order.Advances idx'.order (numNewOrders txns)
  orderLine : idx.orderLine.Advances idx'.orderLine (numOrderLines txns)

section
variable {deletePath : Bool} {g g' : GpuIndex}

theorem advances_step {epoch : List (TxnInput × Aux)} (hlines : ∀ x ∈ epoch, x.1.numLines ≤ 15)
    (h : g.indexTxns deletePath (fillAll epoch) = .ok g') :
    Advances g.index g'.index (epoch.map Prod.fst) := by
  obtain ⟨o, no, ol, ho, hno, hol, rfl⟩ := indexTxns_tables h
  obtain ⟨n1, n2, n3⟩ := tableEpoch_freeStart length_inserts_newOrder hno
  obtain ⟨o1, o2, o3⟩ := tableEpoch_freeStart length_inserts_order ho
  obtain ⟨l1, l2, l3⟩ := tableEpoch_freeStart length_inserts_line hol
  rw [length_newOrder_inserts] at n3
  rw [length_order_inserts] at o3
  rw [length_line_inserts hlines] at l3
  exact ⟨⟨n1, n2, n3⟩, ⟨o1, o2, o3⟩, ⟨l1, l2, l3⟩⟩

theorem advances_run {epochs : List (List (TxnInput × Aux))}
    (hlines : ∀ e ∈ epochs, ∀ x ∈ e, x.1.numLines ≤ 15)
    (h : g.run deletePath (epochs.map fillAll) = .ok g') :
    Advances g.index g'.index (epochs.flatten.map Prod.fst) := by
  induction epochs generalizing g with
  | nil =>
    obtain rfl : g = g' := by simpa [GpuIndex.run, pure, Except.pure] using h
    exact ⟨⟨rfl, le_refl _, le_refl _⟩, ⟨rfl, le_refl _, le_refl _⟩, ⟨rfl, le_refl _, le_refl _⟩⟩
  | cons epoch epochs ih =>
    obtain ⟨g₁, h1, h2⟩ := run_cons h
    have hs := advances_step (hlines epoch List.mem_cons_self) h1
    have hr := ih (fun e he => hlines e (List.mem_cons_of_mem _ he)) h2
    rw [List.flatten_cons, List.map_append]
    refine ⟨?_, ?_, ?_⟩
    · rw [numNewOrders, List.countP_append]
      exact hs.newOrder.trans hr.newOrder
    · rw [numNewOrders, List.countP_append]
      exact hs.order.trans hr.order
    · rw [numOrderLines, List.map_append, List.sum_append]
      exact hs.orderLine.trans hr.orderLine

end

/-! ### The guard bounds the new orders -/

/-- What the sizes rely on of double arithmetic: it rounds monotonically, and whole numbers up to
    2^53 are exact. -/
structure Rounds (fl : ℚ → ℚ) : Prop where
  mono : Monotone fl
  exact : ∀ n : ℕ, n ≤ 2 ^ 53 → fl n = n

theorem numNewOrders_eq_sum {W : ℕ} {draws : List Draw} (hr : ∀ x ∈ draws, x.InRange W) :
    numNewOrders (generateTxns draws).1 = ∑ w ∈ Finset.range W, ∑ d ∈ Finset.range 10,
      draws.countP (Draw.ordersIn (w + 1) (d + 1)) := by
  induction draws using List.reverseRecOn with
  | nil => simp [generateTxns, numNewOrders]
  | append_singleton draws x ih =>
    have ih' := ih fun y hy => hr y (by simp [hy])
    have hx := hr x (by simp)
    simp only [List.countP_append, Finset.sum_add_distrib]
    rw [generateTxns, List.foldl_append, ← generateTxns, ← ih']
    simp only [List.foldl_cons, List.foldl_nil, generateStep, numNewOrders, List.countP_append,
      List.countP_singleton]
    congr 1
    cases x with
    | newOrder w d c items =>
      obtain ⟨⟨hw, hwW⟩, ⟨hd, hd10⟩, -⟩ := hx
      -- the order counts in its own district only
      have hone : ∀ w' d', Draw.ordersIn (w' + 1) (d' + 1) (.newOrder w d c items) = true ↔
          w' = w - 1 ∧ d' = d - 1 := by
        intro w' d'
        simp only [Draw.ordersIn, decide_eq_true_eq]
        omega
      simp only [hone]
      rw [Finset.sum_eq_single (w - 1), Finset.sum_eq_single (d - 1)]
      · exact (if_pos ⟨rfl, rfl⟩).symm
      · exact fun d' _ hne => if_neg fun h => hne h.2
      · exact fun hd' => absurd (Finset.mem_range.mpr (by omega)) hd'
      · exact fun w' _ hne => Finset.sum_eq_zero fun d' _ => if_neg fun h => hne h.1
      · exact fun hw' => absurd (Finset.mem_range.mpr (by omega)) hw'
    | payment => simp [generateTxn, TxnInput.isNewOrder, Draw.ordersIn]
    | orderStatus => simp [generateTxn, TxnInput.isNewOrder, Draw.ordersIn]
    | delivery => simp [generateTxn, TxnInput.isNewOrder, Draw.ordersIn]
    | stockLevel => simp [generateTxn, TxnInput.isNewOrder, Draw.ordersIn]

/-- A district of an accepted run has fewer new orders than the aux index has slots for. -/
theorem district_orders_le {cfg : Config} {draws : List Draw}
    (hr : ∀ x ∈ draws, x.InRange cfg.numWarehouses)
    (hg : guardPasses cfg (generateTxns draws).1 = true) (w d : ℕ) :
    draws.countP (Draw.ordersIn (w + 1) (d + 1)) ≤ cfg.perDistrict * 3 / 2 - 1 := by
  have hcount := nextOid_run draws w d fun x hx => ⟨_, hr x hx⟩
  rcases Nat.eq_zero_or_pos (draws.countP (Draw.ordersIn (w + 1) (d + 1))) with h0 | hpos
  · omega
  · obtain ⟨t, ht, hi⟩ := ((counted_run hr).inserted w d _).mpr
      ⟨by omega, le_refl ((generateTxns draws).2.nextOid w d)⟩
    have hlt := inserted_lt_aux hg ht hi
    rw [Config.auxNumSlotsPerDistrict] at hlt
    omega

theorem twice_orders_le {D pd tot n : ℕ} (hD : 0 < D) (hpd : pd = (tot + D - 1) / D)
    (hn : n ≤ D * (pd * 3 / 2 - 1)) : 2 * n ≤ 3 * tot + D := by
  have hmul : D * pd ≤ tot + D - 1 := by
    rw [hpd]
    exact Nat.mul_div_le _ _
  rcases Nat.eq_zero_or_pos pd with h0 | hpos
  · rw [h0, Nat.zero_mul, Nat.zero_div, Nat.zero_sub, Nat.mul_zero] at hn
    omega
  · have hx : D * (2 * (pd * 3 / 2 - 1)) ≤ D * (3 * pd - 2) := Nat.mul_le_mul_left _ (by omega)
    have hl : D * (2 * (pd * 3 / 2 - 1)) = 2 * (D * (pd * 3 / 2 - 1)) := by ring
    have hr : D * (3 * pd - 2) = 3 * (D * pd) - 2 * D := by
      rw [Nat.mul_sub]
      ring_nf
    omega

/-- The realistic pool holds half as many again as the guard's estimate of the run's new orders. -/
theorem realistic_ge {fl : ℚ → ℚ} (hfl : Rounds fl) (a b : ℕ) (hab : a ≤ b) {share : ℚ}
    (hshare : 0 ≤ share) {tot : ℕ} (htot : tot = ⌊fl (fl a * share)⌋₊)
    (hsmall : ⌊fl (fl (fl b * share) * (3 / 2))⌋₊ < 2 ^ 53) :
    3 * tot / 2 ≤ ⌊fl (fl (fl b * share) * (3 / 2))⌋₊ := by
  have hz : (0 : ℚ) ≤ fl (fl a * share) := by
    have ha : (0 : ℚ) ≤ fl a := by
      have h0 := hfl.mono (show ((0 : ℕ) : ℚ) ≤ a by exact_mod_cast Nat.zero_le a)
      rwa [hfl.exact 0 (Nat.zero_le _), Nat.cast_zero] at h0
    have h0 := hfl.mono (show ((0 : ℕ) : ℚ) ≤ fl a * share by simpa using mul_nonneg ha hshare)
    rwa [hfl.exact 0 (Nat.zero_le _), Nat.cast_zero] at h0
  have hle : (tot : ℚ) ≤ fl (fl b * share) := by
    rw [htot]
    refine (Nat.floor_le hz).trans (hfl.mono (mul_le_mul_of_nonneg_right ?_ hshare))
    exact hfl.mono (by exact_mod_cast hab)
  have hhalf : ∀ n : ℕ, n ≤ 3 * tot / 2 → n ≤ 2 ^ 53 →
      n ≤ ⌊fl (fl (fl b * share) * (3 / 2))⌋₊ := by
    intro n hn hn53
    refine Nat.le_floor ?_
    rw [← hfl.exact n hn53]
    refine hfl.mono ?_
    have h2 : 2 * n ≤ 3 * tot := by omega
    have h2' : (2 : ℚ) * n ≤ 3 * tot := by exact_mod_cast h2
    linarith
  by_contra hlt
  have := hhalf (min (3 * tot / 2) (2 ^ 53)) (Nat.min_le_left _ _) (Nat.min_le_right _ _)
  omega

/-- The new orders of an accepted run fit the rows kept for them. -/
theorem orders_fit {fl : ℚ → ℚ} (hfl : Rounds fl) {rc : RunConfig} {draws : List Draw}
    (hr : ∀ x ∈ draws, x.InRange rc.numWarehouses) (hlen : draws.length = rc.numTxns * rc.epochs)
    (hsize : (rc.config fl).newOrderTableSize < 2 ^ 32)
    (hg : guardPasses (rc.config fl) (generateTxns draws).1 = true) :
    numNewOrders (generateTxns draws).1 ≤
      rc.numWarehouses * 10 * 900 + rc.newOrderInsertPoolSize fl := by
  have hle : numNewOrders (generateTxns draws).1 ≤ rc.numTxns * (rc.epochs + 1) := by
    have h := List.countP_le_length (p := TxnInput.isNewOrder) (l := (generateTxns draws).1)
    rw [length_generateTxns, hlen] at h
    exact h.trans (Nat.mul_le_mul_left _ (Nat.le_succ _))
  have hsum : numNewOrders (generateTxns draws).1 ≤
      rc.numWarehouses * 10 * (rc.perDistrict fl * 3 / 2 - 1) := by
    rw [numNewOrders_eq_sum hr]
    refine (Finset.sum_le_sum fun w _ => Finset.sum_le_sum fun d _ =>
      district_orders_le hr hg w d).trans_eq ?_
    rw [Finset.sum_const, Finset.sum_const, Finset.card_range, Finset.card_range, nsmul_eq_mul,
      nsmul_eq_mul, ← mul_assoc]
    rfl
  have hpool : rc.newOrderInsertPoolSize fl < 2 ^ 32 := by
    have : (rc.config fl).newOrderTableSize =
      rc.numWarehouses * 2 * 10 * 900 + rc.newOrderInsertPoolSize fl := rfl
    omega
  rcases Nat.eq_zero_or_pos rc.numWarehouses with hW | hW
  · rw [hW, Nat.zero_mul] at hsum
    exact hsum.trans (Nat.zero_le _)
  · rw [RunConfig.newOrderInsertPoolSize] at hpool ⊢
    simp only [Bool.not_eq_true'] at hpool ⊢
    split at hpool
    · next hmix => rw [if_pos hmix]; omega
    · next hmix =>
      rw [if_neg hmix]
      split at hpool
      · next hlt =>
        rw [if_pos hlt]
        have hshare : 0 ≤ rc.txnMix.newOrderShare fl := by
          have h0 := hfl.mono (show ((0 : ℕ) : ℚ) ≤ rc.txnMix.newOrder / rc.txnMix.totalWeight by
            positivity)
          rwa [hfl.exact 0 (Nat.zero_le _), Nat.cast_zero] at h0
        have htot : rc.perDistrict fl = (⌊fl (fl (rc.numTxns * rc.epochs : ℕ) *
            rc.txnMix.newOrderShare fl)⌋₊ + rc.numWarehouses * 10 - 1) / (rc.numWarehouses * 10) := by
          rw [RunConfig.perDistrict, if_pos (by simpa using hmix), Nat.cast_mul]
        have hge := realistic_ge hfl _ (rc.numTxns * (rc.epochs + 1))
          (Nat.mul_le_mul_left _ (Nat.le_succ rc.epochs)) hshare rfl (by push_cast; omega)
        have htwice := twice_orders_le (by omega) htot hsum
        push_cast at hge htwice ⊢
        omega
      · next hlt => rw [if_neg hlt]; omega

/-! ### Lines of fresh orders all take rows -/

/-- Every key of an epoch's lines is new: the cursor moves by all of them. -/
theorem fresh_step {cfg : Config} {deletePath : Bool} {txns : List TpccTxn} {g g' : GpuIndex}
    {js : Journals} (hg : Logged cfg g js) (hgen : Generated cfg deletePath txns)
    (hroom : Room g.index txns.length) (h : g.indexTxns deletePath txns = .ok g')
    (hnd : (orderLineInput txns).validInsert.Nodup)
    (hnew : ∀ k ∈ (orderLineInput txns).validInsert, k ∉ js.ol.minted) :
    g'.index.orderLine.freeStart =
      g.index.orderLine.freeStart + (orderLineInput txns).validInsert.length := by
  obtain ⟨-, -, ⟨ol, lout⟩, -, -, hol, rfl⟩ := indexTxns_tables h
  have hleL := @line_inserts_le txns
  have hm : RowsFit (orderLineInput txns) g.index.orderLine := by
    have := hroom.orderLine
    unfold RowsFit; omega
  have hin : InputOk (orderLineInput txns) g.index.orderLine.store txns.length :=
    orderLineInput_ok (fun t ht => (hgen.each t ht).1) hgen.numbered.count
  obtain ⟨hspec, -⟩ := tableEpoch_spec hin hg.orderLine.ok hm hol
  have hkeys := hin.insertKeys
  have hfresh : Fresh g.index.orderLine.store.lookup (orderLineInput txns).evs := by
    rw [← hkeys] at hnd hnew
    refine ⟨fun v hv w hw hvt hwt hk => ?_, fun v hv hvt => ?_⟩
    · exact List.inj_on_of_nodup_map hnd (mem_inserts.mpr ⟨hv, hvt⟩) (mem_inserts.mpr ⟨hw, hwt⟩) hk
    · by_contra hlive
      rw [hg.orderLine.live] at hlive
      exact hnew v.key (List.mem_map_of_mem (mem_inserts.mpr ⟨hv, hvt⟩))
        (List.mem_of_getElem? (hg.orderLine.inv.owner v.key hlive))
  simp only [hspec.freeStart]
  rw [created_fresh (events_ordered _) hfresh, ← hkeys, List.length_map]
  rfl

/-- The lines a list of transactions inserts. -/
theorem line_inserts_append (txns txns' : List TpccTxn) :
    (orderLineInput (txns ++ txns')).validInsert =
      (orderLineInput txns).validInsert ++ (orderLineInput txns').validInsert := by
  simp [TableInput.validInsert, orderLineInput]

/-- Every line of a run is new: the cursor has moved by all of them. -/
theorem fresh_run {cfg : Config} {deletePath : Bool} {epochs : List (List TpccTxn)} {g g' : GpuIndex}
    {js : Journals} (hg : Logged cfg g js) (hgen : ∀ txns ∈ epochs, Generated cfg deletePath txns)
    (hroom : Room g.index (epochs.map List.length).sum) (h : g.run deletePath epochs = .ok g')
    (hnd : (orderLineInput epochs.flatten).validInsert.Nodup)
    (hnew : ∀ k ∈ (orderLineInput epochs.flatten).validInsert, k ∉ js.ol.minted) :
    g'.index.orderLine.freeStart =
      g.index.orderLine.freeStart + (orderLineInput epochs.flatten).validInsert.length := by
  induction epochs generalizing g js with
  | nil =>
    obtain rfl : g = g' := by simpa [GpuIndex.run, pure, Except.pure] using h
    rfl
  | cons txns epochs ih =>
    obtain ⟨g₁, h1, h2⟩ := run_cons h
    have hgen1 := hgen txns List.mem_cons_self
    rw [List.map_cons, List.sum_cons] at hroom
    rw [List.flatten_cons, line_inserts_append] at hnd hnew ⊢
    obtain ⟨hnd1, hnd2, hdisj⟩ := List.nodup_append.mp hnd
    obtain ⟨js₁, hlog, hgrow, hroom1, -⟩ := logged_step hg hgen1.numbered hroom h1
    have hroom0 : Room g.index txns.length := by
      obtain ⟨r1, r2, r3⟩ := hroom
      exact ⟨by omega, by omega, by omega⟩
    have hs := fresh_step hg hgen1 hroom0 h1 hnd1 fun k hk => hnew k (List.mem_append_left _ hk)
    have hr := ih hlog (fun t ht => hgen t (List.mem_cons_of_mem _ ht)) hroom1 h2 hnd2
      fun k hk hmem => by
        rcases hgrow.ol k hmem with hold | ⟨hthis, -⟩
        · exact hnew k (List.mem_append_right _ hk) hold
        · exact hdisj k hthis k hk rfl
    rw [hr, hs, List.length_append, Nat.add_assoc]

section
variable {W : ℕ} {draws : List Draw} (hr : ∀ x ∈ draws, x.InRange W)
include hr

theorem numLines_run {t : TxnInput} (ht : t ∈ (generateTxns draws).1) : t.numLines ≤ 15 := by
  obtain ⟨g, ts, draw, hmem, rfl⟩ := mem_generateTxns ht
  have hx := hr draw hmem
  cases draw with
  | newOrder w d c items =>
    simp only [generateTxn, TxnInput.numLines]
    exact hx.2.2.2
  | payment => simp [generateTxn, TxnInput.numLines]
  | orderStatus => simp [generateTxn, TxnInput.numLines]
  | delivery => simp [generateTxn, TxnInput.numLines]
  | stockLevel => simp [generateTxn, TxnInput.numLines]

/-- The order of a line that a run inserts. -/
theorem line_of_run (hW : W < 2 ^ 8) (hids : ∀ w d, (generateTxns draws).2.nextOid w d < 2 ^ 24)
    {x : TxnInput × Aux} (hx : x.1 ∈ (generateTxns draws).1) {i k : ℕ}
    (hk : TpccTxn.orderLineInsert i (x.1.fill x.2) = some k) :
    ∃ o d w, x.1.Inserts w d o ∧ OrderOk o d w ∧ 3000 < o ∧ i < 15 ∧
      k = orderLineKey o d w (i + 1) := by
  have hlines := numLines_run hr hx
  obtain ⟨t, a⟩ := x
  cases t with
  | newOrder w d o c items =>
    simp only [TxnInput.fill, TpccTxn.orderLineInsert, Option.ite_none_right_eq_some,
      Option.some.injEq] at hk
    obtain ⟨hi, rfl⟩ := hk
    have hins : (TxnInput.newOrder w d o c items).Inserts w d o := ⟨rfl, rfl, rfl⟩
    obtain ⟨hok, -⟩ := orderOk_of_carries hr hW hids hx (inserts_carries hins)
    refine ⟨o, d, w, hins, hok, ?_, hi.trans_le hlines, rfl⟩
    obtain ⟨v, rfl⟩ : ∃ v, w = v + 1 := ⟨w - 1, (Nat.sub_add_cancel hok.w.1).symm⟩
    obtain ⟨e, rfl⟩ : ∃ e, d = e + 1 := ⟨d - 1, (Nat.sub_add_cancel hok.d.1).symm⟩
    exact (((counted_run hr).inserted v e o).mp ⟨_, hx, hins⟩).1
  | payment => exact absurd hk (by simp [TxnInput.fill, TpccTxn.orderLineInsert])
  | orderStatus => exact absurd hk (by simp [TxnInput.fill, TpccTxn.orderLineInsert])
  | delivery => exact absurd hk (by simp [TxnInput.fill, TpccTxn.orderLineInsert])
  | stockLevel => exact absurd hk (by simp [TxnInput.fill, TpccTxn.orderLineInsert])

/-- A run inserts a line once, and none that was loaded. -/
theorem run_lines_fresh (hW : W < 2 ^ 8)
    (hids : ∀ w d, (generateTxns draws).2.nextOid w d < 2 ^ 24) {flat : List (TxnInput × Aux)}
    (hrun : flat.map Prod.fst = (generateTxns draws).1) :
    (orderLineInput (fillAll flat)).validInsert.Nodup ∧
      ∀ k ∈ (orderLineInput (fillAll flat)).validInsert, k ∉ initialLineKeys W := by
  have hmem : ∀ x ∈ flat, x.1 ∈ (generateTxns draws).1 := fun x hx =>
    hrun ▸ List.mem_map_of_mem hx
  have heq : (orderLineInput (fillAll flat)).validInsert =
      flat.flatMap fun x => (List.range 15).filterMap fun i =>
        TpccTxn.orderLineInsert i (x.1.fill x.2) := by
    simp only [TableInput.validInsert, orderLineInput, fillAll, List.filterMap_flatMap,
      List.flatMap_map, List.filterMap_map]
    rfl
  rw [heq]
  constructor
  · refine List.nodup_flatMap.mpr ⟨fun x hx => ?_, ?_⟩
    · refine List.nodup_range.filterMap fun i j k hi hj => ?_
      obtain ⟨o, d, w, -, hok, -, hi15, rfl⟩ := line_of_run hr hW hids (hmem x hx) hi
      obtain ⟨o', d', w', -, hok', -, hj15, he⟩ := line_of_run hr hW hids (hmem x hx) hj
      have := orderLineKey_inj hok (by omega) hok' (by omega) he
      omega
    · have hpw := (counted_run hr).once
      rw [← hrun, List.pairwise_map] at hpw
      refine hpw.imp_of_mem fun {x y} hx hy hex k hkx hky => ?_
      obtain ⟨i, -, hi⟩ := List.mem_filterMap.mp hkx
      obtain ⟨j, -, hj⟩ := List.mem_filterMap.mp hky
      obtain ⟨o, d, w, hins, hok, -, hi15, rfl⟩ := line_of_run hr hW hids (hmem x hx) hi
      obtain ⟨o', d', w', hins', hok', -, hj15, he⟩ := line_of_run hr hW hids (hmem y hy) hj
      obtain ⟨rfl, rfl, rfl, -⟩ := orderLineKey_inj hok (by omega) hok' (by omega) he
      exact (hex w d o).1 hins hins'
  · intro k hk hinit
    obtain ⟨x, hx, hk⟩ := List.mem_flatMap.mp hk
    obtain ⟨i, -, hi⟩ := List.mem_filterMap.mp hk
    obtain ⟨o, d, w, -, hok, ho, hi15, rfl⟩ := line_of_run hr hW hids (hmem x hx) hi
    obtain ⟨y, hy, he⟩ := List.mem_map.mp hinit
    obtain ⟨hord, -, hy15⟩ := mem_initialLines hy
    obtain ⟨hok', -, ho'⟩ := initialOrder_ok hW hord
    have := (orderLineKey_inj hok' hy15 hok (by omega) he).1
    omega

end

/-! ### Rows of a run -/

/-- Every CRID minted for an inserted row of the three tables is below the table's record count. -/
structure MintsInside (fl : ℚ → ℚ) (rc : RunConfig) (idx : Index) : Prop where
  newOrder : idx.newOrder.MintsWithin (rc.config fl).newOrderTableSize
  order : idx.order.MintsWithin (rc.config fl).orderTableSize
  orderLine : idx.orderLine.MintsWithin (rc.orderLineTableSize fl)

/-- The ids of a run fit the bitfields of the keys and its rows 32 bits. -/
structure FieldsFit (rc : RunConfig) (deletePath : Bool) (draws : List Draw)
    (epochs : List (List (TxnInput × Aux))) : Prop where
  warehouses : rc.numWarehouses < 2 ^ 8
  ids : ∀ w d, (generateTxns draws).2.nextOid w d < 2 ^ 24
  mix : ∀ w carrier, .delivery w carrier ∈ draws → deletePath = true
  aux : ∀ e ∈ epochs, ∀ x ∈ e, x.2.Ok
  count : ∀ e ∈ epochs, 4 * e.length + 2 < 2 ^ 22
  rows : rc.numWarehouses * 10 * 3000 * 15 + 15 * (epochs.map List.length).sum ≤ kAbsent

section
variable {fl : ℚ → ℚ} {rc : RunConfig} {draws : List Draw} {deletePath : Bool}
  {epochs : List (List (TxnInput × Aux))} {durable : Durable} {entryCrid : ℕ → ℕ}

/-- The start of a run whose ids fit. -/
theorem FieldsFit.start (hr : ∀ x ∈ draws, x.InRange rc.numWarehouses)
    (hf : FieldsFit rc deletePath draws epochs)
    (hrun : epochs.flatten.map Prod.fst = (generateTxns draws).1) :
    Logged (rc.config fl) (GpuIndex.init (rc.config fl) durable entryCrid)
      (loadJournals (rc.config fl).numWarehouses) ∧
    (∀ txns ∈ epochs.map fillAll, Generated (rc.config fl) deletePath txns) ∧
    Room (GpuIndex.init (rc.config fl) durable entryCrid).index
      ((epochs.map fillAll).map List.length).sum := by
  have hW : (rc.config fl).numWarehouses = rc.numWarehouses := rfl
  have hrows := hf.rows
  rw [← hW] at hrows
  have hlens : ((epochs.map fillAll).map List.length).sum = (epochs.map List.length).sum := by
    rw [List.map_map]
    exact congrArg List.sum (List.map_congr_left fun e _ => List.length_map _)
  refine ⟨logged_init hf.warehouses (by omega) durable entryCrid, fun txns ht => ?_,
    room_init (by rwa [hlens]) durable entryCrid⟩
  obtain ⟨e, he, rfl⟩ := List.mem_map.mp ht
  refine fillAll_generated hr rfl hf.warehouses hf.ids hf.mix (fun x hx => ?_) (hf.aux e he)
    (hf.count e he)
  exact hrun ▸ List.mem_map_of_mem (List.mem_flatten.mpr ⟨e, he, hx⟩)

/-- At the end of a run whose ids fit, the OrderLine cursor has counted every line. -/
theorem line_cursor_run (hr : ∀ x ∈ draws, x.InRange rc.numWarehouses)
    (hf : FieldsFit rc deletePath draws epochs)
    (hrun : epochs.flatten.map Prod.fst = (generateTxns draws).1) {g : GpuIndex}
    (h : (GpuIndex.init (rc.config fl) durable entryCrid).run deletePath (epochs.map fillAll) =
      .ok g) :
    g.index.orderLine.freeStart = numOrderLines (generateTxns draws).1 := by
  have hflat : (epochs.map fillAll).flatten = fillAll epochs.flatten := by
    rw [fillAll, List.map_flatten]
    rfl
  obtain ⟨hlog, hgen, hroom⟩ := @FieldsFit.start fl _ _ _ _ durable entryCrid hr hf hrun
  obtain ⟨hnd, hnew⟩ := run_lines_fresh hr hf.warehouses hf.ids hrun
  have hfresh := fresh_run hlog hgen hroom h (by rwa [hflat]) (by rw [hflat]; exact hnew)
  rw [hflat, length_line_inserts (fun x hx => numLines_run hr (hrun ▸ List.mem_map_of_mem hx)),
    hrun] at hfresh
  rw [hfresh]
  exact Nat.zero_add _

end

theorem mintsInside_iff {fl : ℚ → ℚ} {rc : RunConfig} {durable : Durable} {entryCrid : ℕ → ℕ}
    {idx : Index} {txns : List TxnInput}
    (h : Advances (GpuIndex.init (rc.config fl) durable entryCrid).index idx txns)
    (hfit : numNewOrders txns ≤ rc.numWarehouses * 10 * 900 + rc.newOrderInsertPoolSize fl) :
    MintsInside fl rc idx ↔ idx.orderLine.freeStart ≤ rc.orderLineInsertPoolSize fl := by
  obtain ⟨⟨n1, -, n3⟩, ⟨o1, -, o3⟩, ⟨l1, -, -⟩⟩ := h
  simp only [GpuIndex.init, loadIndex, loadTable] at n1 n3 o1 o3 l1
  have hW : (rc.config fl).numWarehouses = rc.numWarehouses := rfl
  have hN : (rc.config fl).newOrderTableSize =
      rc.numWarehouses * 2 * 10 * 900 + rc.newOrderInsertPoolSize fl := rfl
  have hO : (rc.config fl).orderTableSize =
      rc.numWarehouses * 2 * 10 * 3000 + rc.newOrderInsertPoolSize fl := rfl
  have hL : rc.orderLineTableSize fl =
      rc.numWarehouses * 10 * 15 * 3000 + rc.orderLineInsertPoolSize fl := rfl
  have hline := @mintsWithin_iff idx.orderLine (rc.orderLineTableSize fl) (by omega)
  constructor
  · intro hin
    have := hline.mp hin.orderLine
    omega
  · intro hle
    exact ⟨(mintsWithin_iff (by omega)).mpr (by omega), (mintsWithin_iff (by omega)).mpr (by omega),
      hline.mpr (by omega)⟩

/-- Runs under an accepted configuration: when the lines of the run's NewOrders number at most the
    order line pool, every CRID minted up to any epoch is a row of its table, and where ids fit their
    fields that is necessary. -/
theorem minted_inside_of_lines {fl : ℚ → ℚ} (hfl : Rounds fl) {rc : RunConfig} {draws : List Draw}
    (hr : ∀ x ∈ draws, x.InRange rc.numWarehouses) (hlen : draws.length = rc.numTxns * rc.epochs)
    (hsize : (rc.config fl).newOrderTableSize < 2 ^ 32)
    (hg : guardPasses (rc.config fl) (generateTxns draws).1 = true) {durable : Durable}
    {entryCrid : ℕ → ℕ} {deletePath : Bool} {epochs : List (List (TxnInput × Aux))}
    (hrun : epochs.flatten.map Prod.fst = (generateTxns draws).1) :
    (numOrderLines (generateTxns draws).1 ≤ rc.orderLineInsertPoolSize fl →
      ∀ done rest g, epochs = done ++ rest →
        (GpuIndex.init (rc.config fl) durable entryCrid).run deletePath (done.map fillAll) = .ok g →
          MintsInside fl rc g.index) ∧
    (FieldsFit rc deletePath draws epochs →
      ∀ g, (GpuIndex.init (rc.config fl) durable entryCrid).run deletePath (epochs.map fillAll) =
          .ok g → MintsInside fl rc g.index →
        numOrderLines (generateTxns draws).1 ≤ rc.orderLineInsertPoolSize fl) := by
  have hlines : ∀ e ∈ epochs, ∀ x ∈ e, x.1.numLines ≤ 15 := fun e he x hx =>
    numLines_run hr (hrun ▸ List.mem_map_of_mem (List.mem_flatten.mpr ⟨e, he, hx⟩))
  have hfit := orders_fit hfl hr hlen hsize hg
  constructor
  · rintro hle done rest g rfl hdone
    have hadv := advances_run (fun e he => hlines e (List.mem_append_left _ he)) hdone
    rw [← hrun, List.flatten_append, List.map_append] at hfit hle
    rw [numNewOrders, List.countP_append] at hfit
    rw [numOrderLines, List.map_append, List.sum_append] at hle
    refine (mintsInside_iff hadv ((Nat.le_add_right _ _).trans hfit)).mpr ?_
    have hge := hadv.orderLine.ge
    have h0 : (GpuIndex.init (rc.config fl) durable entryCrid).index.orderLine.freeStart = 0 := rfl
    rw [h0, Nat.zero_add] at hge
    exact hge.trans ((Nat.le_add_right _ _).trans hle)
  · intro hf g hrunG hin
    have hadv := advances_run hlines hrunG
    rw [hrun] at hadv
    have hcursor := (mintsInside_iff hadv hfit).mp hin
    rwa [line_cursor_run hr hf hrun hrunG] at hcursor

/-! ### A busy run -/

/-- With the hash index an epoch of generated transactions does not throw. -/
theorem run_returns {cfg : Config} {deletePath : Bool} (hmode : cfg.flatOL = false)
    {epochs : List (List TpccTxn)} {g : GpuIndex} {js : Journals} (hg : Logged cfg g js)
    (hgen : ∀ txns ∈ epochs, Generated cfg deletePath txns)
    (hroom : Room g.index (epochs.map List.length).sum) : ∃ g', g.run deletePath epochs = .ok g' := by
  induction epochs generalizing g js with
  | nil => exact ⟨g, rfl⟩
  | cons txns epochs ih =>
    have hgen1 := hgen txns List.mem_cons_self
    rw [List.map_cons, List.sum_cons] at hroom
    obtain ⟨g₁, h1⟩ := indexTxns_returns hg hgen1 (by
        obtain ⟨r1, r2, r3⟩ := hroom
        exact ⟨by omega, by omega, by omega⟩) fun k _ => by
      have hm := hg.mode
      rw [OfMode, hmode, if_neg Bool.false_ne_true] at hm
      obtain ⟨m, e, hs⟩ := hm
      rw [hs]
      trivial
    obtain ⟨js₁, hlog, -, hroom1, -⟩ := logged_step hg hgen1.numbered hroom h1
    obtain ⟨g', h2⟩ := ih hlog (fun t ht => hgen t (List.mem_cons_of_mem _ ht)) hroom1
    refine ⟨g', ?_⟩
    rw [GpuIndex.run, List.foldlM_cons, h1]
    exact h2

/-- Two epochs of eleven transactions, half of them NewOrders by the mix. -/
def busyRun : RunConfig := ⟨⟨1, 1, 0, 0, 0⟩, 11, 2, 1, true, false⟩

/-- Two NewOrders of `n` lines in every district, and two Payments. -/
def busyDraws (n : ℕ) : List Draw :=
  (List.range 10).flatMap (fun d =>
    [.newOrder 1 (d + 1) 1 (List.replicate n ⟨1, 1, 1⟩),
      .newOrder 1 (d + 1) 1 (List.replicate n ⟨1, 1, 1⟩)]) ++
    [.payment 1 1 1 1 1 1, .payment 1 1 1 1 1 1]

def busyEpochs (n : ℕ) : List (List (TxnInput × Aux)) :=
  [(fifteenLines (busyDraws n)).take 11, (fifteenLines (busyDraws n)).drop 11]

theorem busyRun_config : busyRun.config id = ⟨1, 24, 2, false⟩ := by
  have hpool : busyRun.newOrderInsertPoolSize id = 24 := by
    have hfloor : ⌊((99 : ℚ) / 4)⌋₊ = 24 := by rw [Nat.floor_eq_iff (by norm_num)]; norm_num
    simp only [RunConfig.newOrderInsertPoolSize, TxnMix.newOrderShare, TxnMix.totalWeight, busyRun,
      id]
    norm_num [hfloor]
  have hper : busyRun.perDistrict id = 2 := by
    simp only [RunConfig.perDistrict, TxnMix.newOrderShare, TxnMix.totalWeight, busyRun, id]
    norm_num
  rw [RunConfig.config, hpool, hper]
  rfl

theorem busyRun_lines : busyRun.orderLineInsertPoolSize id = 247 := by
  have hfloor : ⌊((495 : ℚ) / 2)⌋₊ = 247 := by rw [Nat.floor_eq_iff (by norm_num)]; norm_num
  simp only [RunConfig.orderLineInsertPoolSize, TxnMix.newOrderShare, TxnMix.totalWeight, busyRun, id]
  norm_num [hfloor]

theorem rounds_id : Rounds id := ⟨monotone_id, fun _ _ => rfl⟩

section
variable {n : ℕ}

theorem busyDraws_inRange (hn : 5 ≤ n ∧ n ≤ 15) : ∀ x ∈ busyDraws n, x.InRange 1 := by
  intro x hx
  rcases List.mem_append.mp hx with hx | hx
  · obtain ⟨d, hd, hx⟩ := List.mem_flatMap.mp hx
    have hd := List.mem_range.mp hd
    have hnew : (Draw.newOrder 1 (d + 1) 1 (List.replicate n ⟨1, 1, 1⟩)).InRange 1 := by
      simp only [Draw.InRange, List.length_replicate]
      omega
    simp only [List.mem_cons, List.not_mem_nil, or_false, or_self] at hx
    exact hx ▸ hnew
  · simp only [List.mem_cons, List.not_mem_nil, or_false, or_self] at hx
    rw [hx]
    simp [Draw.InRange]

theorem length_busyDraws (n : ℕ) : (busyDraws n).length = 22 := rfl

/-- The generated orders do not depend on the number of lines. -/
theorem busyDraws_guard (hn : 5 ≤ n ∧ n ≤ 15) :
    guardPasses (busyRun.config id) (generateTxns (busyDraws n)).1 = true := by
  have hA : auxCapacity (busyRun.config id) = 3003 := by rw [busyRun_config]; rfl
  have hr := busyDraws_inRange hn
  rw [guardPasses_iff, hA]
  refine ⟨by omega, fun t ht w d o hi => ?_⟩
  obtain ⟨⟨hw, hw1⟩, hd, hd10⟩ := inRange_run hr ht (inserts_carries hi)
  obtain rfl : w = 0 + 1 := by omega
  obtain ⟨d, rfl⟩ : ∃ v, d = v + 1 := ⟨d - 1, (Nat.sub_add_cancel hd).symm⟩
  have hle := (((counted_run hr).inserted 0 d o).mp ⟨t, ht, hi⟩).2
  rw [nextOid_run _ _ _ fun x hx => ⟨1, hr x hx⟩] at hle
  have hcount : (busyDraws n).countP (Draw.ordersIn (0 + 1) (d + 1)) = 2 := by
    have hd9 : d ≤ 9 := by omega
    interval_cases d <;> rfl
  omega

theorem busyDraws_lines (n : ℕ) : numOrderLines (generateTxns (busyDraws n)).1 = 20 * n := by
  rw [numOrderLines_run]
  simp only [busyDraws, List.range_succ, List.range_zero, List.nil_append,
    List.flatMap_cons, List.flatMap_nil, List.append_nil, List.cons_append, List.map_cons,
    List.map_nil, List.sum_cons, List.sum_nil, Draw.numLines, List.length_replicate]
  omega

theorem busyEpochs_run (n : ℕ) :
    (busyEpochs n).flatten.map Prod.fst = (generateTxns (busyDraws n)).1 := by
  simp [busyEpochs, fifteenLines, Function.comp_def]

theorem busyEpochs_fit (hn : 5 ≤ n ∧ n ≤ 15) : FieldsFit busyRun true (busyDraws n) (busyEpochs n) := by
  have hr := busyDraws_inRange hn
  have hlen : (fifteenLines (busyDraws n)).length = 22 := by
    rw [fifteenLines, List.length_map, length_generateTxns, length_busyDraws]
  have hmem : ∀ e ∈ busyEpochs n, e.length = 11 ∧ ∀ x ∈ e, x ∈ fifteenLines (busyDraws n) := by
    intro e he
    rw [busyEpochs] at he
    generalize fifteenLines (busyDraws n) = l at he hlen ⊢
    simp only [List.mem_cons, List.not_mem_nil, or_false] at he
    rcases he with rfl | rfl
    · exact ⟨by simp [hlen], fun x hx => List.mem_of_mem_take hx⟩
    · exact ⟨by simp [hlen], fun x hx => List.mem_of_mem_drop hx⟩
  refine ⟨by decide, nextOid_few hr (by rw [length_busyDraws]; decide), fun _ _ _ => rfl,
    fun e he x hx => fifteenLines_aux _ x ((hmem e he).2 x hx), fun e he => ?_, ?_⟩
  · rw [(hmem e he).1]
    decide
  · simp only [busyEpochs, List.map_cons, List.map_nil, List.length_take, List.length_drop, hlen]
    decide

theorem busyEpochs_returns (hn : 5 ≤ n ∧ n ≤ 15) :
    ∃ g, (GpuIndex.init (busyRun.config id) noDurable fun _ => 0).run true
      ((busyEpochs n).map fillAll) = .ok g := by
  obtain ⟨hlog, hgen, hroom⟩ := (busyEpochs_fit hn).start (busyDraws_inRange hn) (busyEpochs_run n)
  exact run_returns rfl hlog hgen hroom

end

/-- With orders of five lines every minted CRID is a row. -/
theorem minted_inside_five : ∃ g, (GpuIndex.init (busyRun.config id) noDurable fun _ => 0).run true
    ((busyEpochs 5).map fillAll) = .ok g ∧ MintsInside id busyRun g.index := by
  have hn : 5 ≤ 5 ∧ 5 ≤ 15 := by decide
  obtain ⟨g, hg⟩ := busyEpochs_returns hn
  refine ⟨g, hg, ?_⟩
  refine (minted_inside_of_lines rounds_id (busyDraws_inRange hn) (length_busyDraws 5)
    (by rw [busyRun_config]; decide) (busyDraws_guard hn) (busyEpochs_run 5)).1 ?_ _ [] g
    (List.append_nil _).symm hg
  rw [busyDraws_lines, busyRun_lines]
  decide

/-- The same run with orders of fifteen lines passes the guard, mints an order line past the last row
    of its table, and the remap makes it absent. -/
theorem minted_line_outside :
    guardPasses (busyRun.config id) (generateTxns (busyDraws 15)).1 = true ∧
    ∃ g, (GpuIndex.init (busyRun.config id) noDurable fun _ => 0).run true
        ((busyEpochs 15).map fillAll) = .ok g ∧
      ∃ i < g.index.orderLine.freeStart,
        busyRun.orderLineTableSize id ≤ g.index.orderLine.init + i ∧
        ∀ cridToGrid, remapLookup (busyRun.orderLineTableSize id) cridToGrid
          (g.index.orderLine.init + i) = kAbsent := by
  have hn : 5 ≤ 15 ∧ 15 ≤ 15 := by decide
  have hguard := busyDraws_guard hn
  obtain ⟨g, hg⟩ := busyEpochs_returns hn
  refine ⟨hguard, g, hg, ?_⟩
  have hcursor := line_cursor_run (busyDraws_inRange hn) (busyEpochs_fit hn) (busyEpochs_run 15) hg
  have hinit := (advances_run (fun e he x hx => numLines_run (busyDraws_inRange hn)
    (busyEpochs_run 15 ▸ List.mem_map_of_mem (List.mem_flatten.mpr ⟨e, he, hx⟩))) hg).orderLine.init
  have hsize : busyRun.orderLineTableSize id = 450247 := by
    rw [RunConfig.orderLineTableSize, busyRun_lines]
    rfl
  rw [busyDraws_lines] at hcursor
  have hloaded : g.index.orderLine.init = 450000 := hinit
  rw [hsize, hcursor, hloaded]
  exact ⟨247, by decide, by decide, fun _ => if_neg (by decide)⟩

end Egad.Tpcc
