import Egad.Tpcc.ShadowIndex
import Egad.Tpcc.Generator
import Mathlib.Data.Rat.Floor
import Mathlib.Tactic.IntervalCases
import Mathlib.Tactic.NormNum

/-! # Per-district capacities (`benchmarks/tpcc_config.h`, `benchmarks/tpcc.cpp`)

    Three structures give every district a range of order ids:

        aux index          district * A + o                    A = auxNumSlotsPerDistrict()
        flat OrderLine     (district * A + (o - 1)) * 15 + ol - 1
        shadow NO / O      district * M + (o - 1)              M = computeOrdersMaxO()

    `runBenchmark` scans the generated NewOrders once and stops the run when an order id reaches `A`.
    The scan says nothing about `M`, nothing about the loaded orders, the last of which needs
    `3000 < A`, and nothing about slot numbers, which are taken modulo `2 ^ 32`. -/

namespace Egad.Tpcc

/-! ### Sizes from the configuration -/

/-- `TpccTxnMix`. -/
structure TxnMix where
  newOrder : ℕ
  payment : ℕ
  orderStatus : ℕ
  delivery : ℕ
  stockLevel : ℕ

def TxnMix.totalWeight (m : TxnMix) : ℕ :=
  m.newOrder + m.payment + m.orderStatus + m.delivery + m.stockLevel

/-- `TpccConfig`, as far as the sizes depend on it. -/
structure RunConfig where
  txnMix : TxnMix
  numTxns : ℕ
  epochs : ℕ
  numWarehouses : ℕ
  mixRealisticSizing : Bool
  flatOL : Bool

section
variable (fl : ℚ → ℚ)

/-- `newOrderShare`; `fl` is the rounding of a double operation. -/
def TxnMix.newOrderShare (m : TxnMix) : ℚ := fl (m.newOrder / m.totalWeight)

def RunConfig.newOrderInsertPoolSize (cfg : RunConfig) : ℕ :=
  let worst := cfg.numTxns * (cfg.epochs + 1)
  if !cfg.mixRealisticSizing then worst
  else
    let realistic := ⌊fl (fl (fl (cfg.numTxns * (cfg.epochs + 1)) *
      cfg.txnMix.newOrderShare fl) * (3 / 2))⌋₊
    if realistic < worst then realistic else worst

/-- The expected new orders of a district, rounded up, in `auxNumSlotsPerDistrict`. -/
def RunConfig.perDistrict (cfg : RunConfig) : ℕ :=
  let denom := cfg.numWarehouses * 10
  let share := if cfg.mixRealisticSizing then cfg.txnMix.newOrderShare fl else 1
  let totalNewOrders := ⌊fl (fl (cfg.numTxns * cfg.epochs) * share)⌋₊
  (totalNewOrders + denom - 1) / denom

def RunConfig.config (cfg : RunConfig) : Config where
  numWarehouses := cfg.numWarehouses
  newOrderInsertPoolSize := cfg.newOrderInsertPoolSize fl
  perDistrict := cfg.perDistrict fl
  flatOL := cfg.flatOL

end

/-! ### The guard and the three layouts -/

/-- `global_max_oid`. -/
def globalMaxOid (txns : List TxnInput) : ℕ :=
  txns.foldl (fun m t => match t with | .newOrder _ _ o _ _ => max m o | _ => m) 0

/-- The 32-bit numbers that `auxNumSlotsPerDistrict`, `computeOLMaxO` and `computeOrdersMaxO` return. -/
def auxCapacity (cfg : Config) : ℕ := cfg.auxNumSlotsPerDistrict % 2 ^ 32
def flatCapacity (cfg : Config) : ℕ := computeOLMaxO cfg % 2 ^ 32
def ordersCapacity (cfg : Config) : ℕ := computeOrdersMaxO cfg % 2 ^ 32

/-- The run goes on after the scan. -/
def guardPasses (cfg : Config) (txns : List TxnInput) : Bool :=
  decide (globalMaxOid txns < auxCapacity cfg)

/-- `cache_idx`, a 32-bit number. -/
def auxSlot (cfg : Config) (w d o : ℕ) : ℕ :=
  ((d - 1 + (w - 1) * 10) * cfg.auxNumSlotsPerDistrict + o) % 2 ^ 32

/-- `num_slots`. -/
def auxNumSlots (cfg : Config) : ℕ := cfg.auxNumSlotsPerDistrict * cfg.numWarehouses * 10 % 2 ^ 32

/-- The 32-bit `denseIdxOL` with the flat stride. -/
def flatSlot (cfg : Config) (w d o ol : ℕ) : ℕ := denseIdxOL w d o ol (flatCapacity cfg) % 2 ^ 32

/-- `order_line_flat_size_`. -/
def flatSize (cfg : Config) : ℕ := cfg.numWarehouses * 10 * flatCapacity cfg * 15

/-- The 32-bit `denseIdxNO` and `denseIdxO`. -/
def shadowSlot (cfg : Config) (w d o : ℕ) : ℕ := denseIdxO w d o (ordersCapacity cfg) % 2 ^ 32

/-- The size of `shadow_no_` and `shadow_o_`. -/
def shadowSize (cfg : Config) : ℕ := cfg.numWarehouses * 10 * ordersCapacity cfg

/-- The orders of a run: loaded, or inserted by one of its transactions. -/
def Exists (W : ℕ) (txns : List TxnInput) (w d o : ℕ) : Prop :=
  (1 ≤ w ∧ w ≤ W) ∧ (1 ≤ d ∧ d ≤ 10) ∧ 1 ≤ o ∧ (o ≤ 3000 ∨ ∃ t ∈ txns, t.Inserts w d o)

/-- Every order id a transaction carries is below the three capacities, and the orders of the run
    and their lines have slots of their own in the three structures. -/
structure Addressed (cfg : Config) (txns : List TxnInput) : Prop where
  ids : ∀ t ∈ txns, ∀ w d o, t.Carries w d o → Exists cfg.numWarehouses txns w d o ∧
    o < auxCapacity cfg ∧ o ≤ flatCapacity cfg ∧ o ≤ ordersCapacity cfg
  aux_lt : ∀ {w d o}, Exists cfg.numWarehouses txns w d o → auxSlot cfg w d o < auxNumSlots cfg
  aux_inj : ∀ {w d o w' d' o'}, Exists cfg.numWarehouses txns w d o →
    Exists cfg.numWarehouses txns w' d' o' → auxSlot cfg w d o = auxSlot cfg w' d' o' →
    w = w' ∧ d = d' ∧ o = o'
  flat_lt : ∀ {w d o ol}, Exists cfg.numWarehouses txns w d o → 1 ≤ ol ∧ ol ≤ 15 →
    flatSlot cfg w d o ol < flatSize cfg
  flat_inj : ∀ {w d o ol w' d' o' ol'}, Exists cfg.numWarehouses txns w d o →
    Exists cfg.numWarehouses txns w' d' o' → 1 ≤ ol ∧ ol ≤ 15 → 1 ≤ ol' ∧ ol' ≤ 15 →
    flatSlot cfg w d o ol = flatSlot cfg w' d' o' ol' → w = w' ∧ d = d' ∧ o = o' ∧ ol = ol'
  shadow_lt : ∀ {w d o}, Exists cfg.numWarehouses txns w d o →
    shadowSlot cfg w d o < shadowSize cfg
  shadow_inj : ∀ {w d o w' d' o'}, Exists cfg.numWarehouses txns w d o →
    Exists cfg.numWarehouses txns w' d' o' → shadowSlot cfg w d o = shadowSlot cfg w' d' o' →
    w = w' ∧ d = d' ∧ o = o'

/-- The 32-bit slot numbers of the three structures do not wrap. -/
structure NoWrap (cfg : Config) : Prop where
  aux : cfg.auxNumSlotsPerDistrict * cfg.numWarehouses * 10 < 2 ^ 32
  flat : cfg.numWarehouses * 10 * computeOLMaxO cfg * 15 ≤ 2 ^ 32
  shadow : cfg.numWarehouses * 10 * computeOrdersMaxO cfg ≤ 2 ^ 32

/-! ### Layout arithmetic -/

theorem district_lt {W w d : ℕ} (hw : 1 ≤ w ∧ w ≤ W) (hd : 1 ≤ d ∧ d ≤ 10) :
    (w - 1) * 10 + (d - 1) < W * 10 := by omega

theorem dense_lt {W stride w d i : ℕ} (hw : 1 ≤ w ∧ w ≤ W) (hd : 1 ≤ d ∧ d ≤ 10) (hi : i < stride) :
    ((w - 1) * 10 + (d - 1)) * stride + i < W * 10 * stride := by
  have hle := Nat.mul_le_mul_right stride (Nat.succ_le_of_lt (district_lt hw hd))
  rw [Nat.succ_mul] at hle
  omega

theorem dense_inj {stride w d i w' d' i' : ℕ} (hw : 1 ≤ w) (hw' : 1 ≤ w') (hd : 1 ≤ d ∧ d ≤ 10)
    (hd' : 1 ≤ d' ∧ d' ≤ 10) (hi : i < stride) (hi' : i' < stride)
    (h : ((w - 1) * 10 + (d - 1)) * stride + i = ((w' - 1) * 10 + (d' - 1)) * stride + i') :
    w = w' ∧ d = d' ∧ i = i' := by
  obtain ⟨h₁, h₂⟩ := mul_add_inj hi hi' h
  obtain ⟨h₃, h₄⟩ := mul_add_inj (by omega) (by omega) h₁
  omega

section
variable {cfg : Config} {w d o ol : ℕ}

theorem auxSlot_eq (hn : NoWrap cfg) (hw : 1 ≤ w ∧ w ≤ cfg.numWarehouses) (hd : 1 ≤ d ∧ d ≤ 10)
    (ho : o < cfg.auxNumSlotsPerDistrict) :
    auxSlot cfg w d o = ((w - 1) * 10 + (d - 1)) * cfg.auxNumSlotsPerDistrict + o := by
  have hlt := dense_lt hw hd ho
  have hwrap := hn.aux
  have hcomm : cfg.auxNumSlotsPerDistrict * cfg.numWarehouses * 10 =
      cfg.numWarehouses * 10 * cfg.auxNumSlotsPerDistrict := by ring
  rw [auxSlot, Nat.add_comm (d - 1), Nat.mod_eq_of_lt (by omega)]

theorem auxNumSlots_eq (hn : NoWrap cfg) :
    auxNumSlots cfg = cfg.numWarehouses * 10 * cfg.auxNumSlotsPerDistrict := by
  rw [auxNumSlots, Nat.mod_eq_of_lt hn.aux]
  ring

theorem auxCapacity_eq (hn : NoWrap cfg) (hW : 1 ≤ cfg.numWarehouses) :
    auxCapacity cfg = cfg.auxNumSlotsPerDistrict := by
  have hle := Nat.mul_le_mul_left cfg.auxNumSlotsPerDistrict (Nat.mul_le_mul_right 10 hW)
  have hwrap := hn.aux
  rw [Nat.mul_assoc] at hwrap
  exact Nat.mod_eq_of_lt (by omega)

theorem ordersCapacity_eq (hn : NoWrap cfg) (hW : 1 ≤ cfg.numWarehouses) :
    ordersCapacity cfg = computeOrdersMaxO cfg := by
  have hle := Nat.mul_le_mul_right (computeOrdersMaxO cfg) (Nat.mul_le_mul_right 10 hW)
  have hwrap := hn.shadow
  exact Nat.mod_eq_of_lt (by omega)

/-- The 32-bit strides give the slot numbers of the full ones. -/
theorem auxSlot_mod (cfg : Config) (w d o : ℕ) :
    auxSlot cfg w d o = (((w - 1) * 10 + (d - 1)) * auxCapacity cfg + o) % 2 ^ 32 := by
  rw [auxSlot, auxCapacity, Nat.add_comm (d - 1)]
  exact ((Nat.mod_modEq cfg.auxNumSlotsPerDistrict _).symm.mul_left _).add_right o

theorem auxNumSlots_mod (cfg : Config) :
    auxNumSlots cfg = cfg.numWarehouses * 10 * auxCapacity cfg % 2 ^ 32 := by
  rw [auxNumSlots, auxCapacity, Nat.mul_assoc, Nat.mul_comm]
  exact (Nat.mod_modEq cfg.auxNumSlotsPerDistrict _).symm.mul_left _

theorem denseIdxOL_row (w d o ol maxO : ℕ) : denseIdxOL w d o ol maxO =
    ((w - 1) * 10 + (d - 1)) * (maxO * 15) + ((o - 1) * 15 + (ol - 1)) := by
  rw [denseIdxOL, Nat.mul_assoc, Nat.add_assoc]

end

/-! ### What the guard decides -/

theorem foldl_max_lt (txns : List TxnInput) (m n : ℕ) :
    txns.foldl (fun m t => match t with | .newOrder _ _ o _ _ => max m o | _ => m) m < n ↔
      m < n ∧ ∀ t ∈ txns, ∀ w d o, t.Inserts w d o → o < n := by
  induction txns generalizing m with
  | nil => simp
  | cons u txns ih =>
    rw [List.foldl_cons, ih]
    simp only [List.mem_cons, forall_eq_or_imp, ← and_assoc]
    refine and_congr_left fun _ => ?_
    cases u with
    | newOrder w d o c items =>
      simp only [TxnInput.Inserts]
      rw [max_lt_iff]
      refine and_congr_right fun _ => ⟨?_, fun h => h w d o ⟨rfl, rfl, rfl⟩⟩
      rintro ho w' d' o' ⟨-, -, rfl⟩
      exact ho
    | payment => simp [TxnInput.Inserts]
    | orderStatus => simp [TxnInput.Inserts]
    | delivery => simp [TxnInput.Inserts]
    | stockLevel => simp [TxnInput.Inserts]

/-- The scan compares every inserted order with the capacity. -/
theorem guardPasses_iff {cfg : Config} {txns : List TxnInput} : guardPasses cfg txns = true ↔
    0 < auxCapacity cfg ∧ ∀ t ∈ txns, ∀ w d o, t.Inserts w d o → o < auxCapacity cfg := by
  rw [guardPasses, decide_eq_true_eq, globalMaxOid, foldl_max_lt]

theorem inserted_lt_aux {cfg : Config} {txns : List TxnInput} (h : guardPasses cfg txns = true)
    {t : TxnInput} (ht : t ∈ txns) {w d o : ℕ} (hi : t.Inserts w d o) :
    o < cfg.auxNumSlotsPerDistrict :=
  ((guardPasses_iff.mp h).2 t ht w d o hi).trans_le (Nat.mod_le _ _)

/-! ### Slot numbers of 32 bits -/

/-- Rows of `stride` numbers of which row `r` uses the first `used r`: no number in use lies a multiple
    of `2 ^ 32` above another. -/
def NotAliased (rows stride : ℕ) (used : ℕ → ℕ) : Prop :=
  ∀ r < rows, ∀ r' < rows, ∀ i < used r, ∀ j < used r', ∀ k,
    r * stride + i ≠ r' * stride + j + (k + 1) * 2 ^ 32

section
variable {rows stride : ℕ} {used : ℕ → ℕ}

theorem NotAliased.eq_of_mod (h : NotAliased rows stride used) {r r' i j : ℕ} (hr : r < rows)
    (hr' : r' < rows) (hi : i < used r) (hj : j < used r')
    (heq : (r * stride + i) % 2 ^ 32 = (r' * stride + j) % 2 ^ 32) :
    r * stride + i = r' * stride + j := by
  have hup := h r hr r' hr' i hi j hj
  have hdown := h r' hr' r hr j hj i hi
  generalize r * stride + i = a at *
  generalize r' * stride + j = b at *
  rcases Nat.lt_trichotomy a b with hlt | rfl | hlt
  · exact absurd (by omega) (hdown (b / 2 ^ 32 - a / 2 ^ 32 - 1))
  · rfl
  · exact absurd (by omega) (hup (a / 2 ^ 32 - b / 2 ^ 32 - 1))

theorem notAliased_of_inj (h : ∀ {r r' i j}, r < rows → r' < rows → i < used r → j < used r' →
    (r * stride + i) % 2 ^ 32 = (r' * stride + j) % 2 ^ 32 → r = r' ∧ i = j) :
    NotAliased rows stride used := by
  intro r hr r' hr' i hi j hj k heq
  obtain ⟨rfl, rfl⟩ := h hr hr' hi hj (by rw [heq, Nat.add_mul_mod_self_right])
  omega

/-- Numbers below `2 ^ 32` are not aliased. -/
theorem notAliased_of_le (h : ∀ r < rows, r * stride + used r ≤ 2 ^ 32) :
    NotAliased rows stride used := by
  intro r hr r' hr' i hi j hj k heq
  have := h r hr
  omega

end

/-! ### The condition -/

/-- The orders of a district, counted in the order of the slots: the loaded ones and one for each
    NewOrder drawn for it. -/
def ordersOf (draws : List Draw) (row : ℕ) : ℕ :=
  3000 + draws.countP (Draw.ordersIn (row / 10 + 1) (row % 10 + 1))

/-- The aux index has room for the loaded orders and the shadow for all orders of every district, and
    where 32-bit slot numbers wrap, they stay below the wrapped size and apart from each other. -/
structure Separated (cfg : Config) (orders : ℕ → ℕ) : Prop where
  loaded : 3000 < auxCapacity cfg
  shadowed : ∀ r < cfg.numWarehouses * 10, orders r ≤ ordersCapacity cfg
  counted : ∀ r < cfg.numWarehouses * 10, ∀ i < orders r,
    (r * auxCapacity cfg + (i + 1)) % 2 ^ 32 < cfg.numWarehouses * 10 * auxCapacity cfg % 2 ^ 32
  aux : NotAliased (cfg.numWarehouses * 10) (auxCapacity cfg) orders
  flat : NotAliased (cfg.numWarehouses * 10) (flatCapacity cfg * 15) fun r => orders r * 15
  shadow : NotAliased (cfg.numWarehouses * 10) (ordersCapacity cfg) orders

section
variable {W : ℕ} {draws : List Draw} (hr : ∀ x ∈ draws, x.InRange W)
include hr

theorem exists_iff {w d o : ℕ} : Exists W (generateTxns draws).1 w d o ↔
    (1 ≤ w ∧ w ≤ W) ∧ (1 ≤ d ∧ d ≤ 10) ∧ 1 ≤ o ∧ o ≤ ordersOf draws ((w - 1) * 10 + (d - 1)) := by
  refine and_congr_right fun hw => and_congr_right fun hd => and_congr_right fun _ => ?_
  obtain ⟨v, rfl⟩ : ∃ v, w = v + 1 := ⟨w - 1, by omega⟩
  obtain ⟨e, rfl⟩ : ∃ e, d = e + 1 := ⟨d - 1, by omega⟩
  have hrow : ordersOf draws ((v + 1 - 1) * 10 + (e + 1 - 1)) = (generateTxns draws).2.nextOid v e := by
    rw [nextOid_run _ _ _ fun x hx => ⟨W, hr x hx⟩, ordersOf,
      show ((v + 1 - 1) * 10 + (e + 1 - 1)) / 10 = v by omega,
      show ((v + 1 - 1) * 10 + (e + 1 - 1)) % 10 = e by omega]
  have hbase := (counted_run hr).base v e
  rw [(counted_run hr).inserted, hrow]
  omega

/-- The order at place `i` of row `r`. -/
theorem exists_row {r i : ℕ} (hrow : r < W * 10) (hi : i < ordersOf draws r) :
    Exists W (generateTxns draws).1 (r / 10 + 1) (r % 10 + 1) (i + 1) := by
  refine (exists_iff hr).mpr ⟨by omega, by omega, by omega, ?_⟩
  rw [show (r / 10 + 1 - 1) * 10 + (r % 10 + 1 - 1) = r by omega]
  exact hi

end

theorem auxSlot_row (cfg : Config) (r o : ℕ) : auxSlot cfg (r / 10 + 1) (r % 10 + 1) o =
    (r * auxCapacity cfg + o) % 2 ^ 32 := by
  rw [auxSlot_mod, show (r / 10 + 1 - 1) * 10 + (r % 10 + 1 - 1) = r by omega]

theorem shadowSlot_row (cfg : Config) (r i : ℕ) :
    shadowSlot cfg (r / 10 + 1) (r % 10 + 1) (i + 1) = (r * ordersCapacity cfg + i) % 2 ^ 32 := by
  rw [shadowSlot, denseIdxO, show (r / 10 + 1 - 1) * 10 + (r % 10 + 1 - 1) = r by omega,
    Nat.add_sub_cancel]

theorem flatSlot_row (cfg : Config) (r i : ℕ) :
    flatSlot cfg (r / 10 + 1) (r % 10 + 1) (i / 15 + 1) (i % 15 + 1) =
      (r * (flatCapacity cfg * 15) + i) % 2 ^ 32 := by
  rw [flatSlot, denseIdxOL_row, show (r / 10 + 1 - 1) * 10 + (r % 10 + 1 - 1) = r by omega,
    show (i / 15 + 1 - 1) * 15 + (i % 15 + 1 - 1) = i by omega]

/-- A row of at most 3000 slots has none for the last loaded order: it has the slot of the next row's
    first order or a number past the arrays. -/
theorem loaded_of_counted {rows cap : ℕ} {orders : ℕ → ℕ} (hrows : 2 ≤ rows)
    (hbase : ∀ r, 3000 ≤ orders r)
    (hinj : ∀ {r r' i j}, r < rows → r' < rows → i < orders r → j < orders r' →
      (r * cap + (i + 1)) % 2 ^ 32 = (r' * cap + (j + 1)) % 2 ^ 32 → r = r' ∧ i = j)
    (hcount : ∀ r < rows, ∀ i < orders r, (r * cap + (i + 1)) % 2 ^ 32 < rows * cap % 2 ^ 32) :
    3000 < cap := by
  have hfirst : ∀ r, 0 < orders r := fun r => Nat.lt_of_lt_of_le (by decide) (hbase r)
  by_contra hle
  rcases Nat.lt_or_eq_of_le (Nat.le_of_not_lt hle) with hlt | rfl
  · -- order `cap + 1` of the first row and order 1 of the second
    have := hbase 0
    have := @hinj 0 1 cap 0 (by omega) (by omega) (by omega) (hfirst 1)
      (by rw [Nat.zero_mul, Nat.one_mul, Nat.zero_add, Nat.zero_add])
    omega
  · -- the orders in use have all slot numbers up to the unwrapped size
    obtain ⟨size, hsize⟩ : ∃ n, n = rows * 3000 % 2 ^ 32 := ⟨_, rfl⟩
    rw [← hsize] at hcount
    rcases Nat.eq_zero_or_pos size with h0 | hpos
    · have := hcount 0 (by omega) 0 (hfirst 0)
      omega
    · have hmod := Nat.mod_le (rows * 3000) (2 ^ 32)
      have := hbase ((size - 1) / 3000)
      have := hcount ((size - 1) / 3000) (by omega) ((size - 1) % 3000) (by omega)
      omega

section
variable {cfg : Config} {draws : List Draw} (hr : ∀ x ∈ draws, x.InRange cfg.numWarehouses)
  (hg : guardPasses cfg (generateTxns draws).1 = true)
include hr

/-- With slots of their own the orders satisfy the condition. -/
theorem separated_of_addressed (hW : 1 ≤ cfg.numWarehouses)
    (h : Addressed cfg (generateTxns draws).1) : Separated cfg (ordersOf draws) := by
  have hrow : ∀ {r i}, r < cfg.numWarehouses * 10 → i < ordersOf draws r →
      Exists cfg.numWarehouses (generateTxns draws).1 (r / 10 + 1) (r % 10 + 1) (i + 1) :=
    fun hrow hi => exists_row hr hrow hi
  have hbase : ∀ r, 3000 ≤ ordersOf draws r := fun r => Nat.le_add_right _ _
  have hfirst : ∀ r, 0 < ordersOf draws r := fun r => Nat.lt_of_lt_of_le (by decide) (hbase r)
  have haux : ∀ {r r' i j}, r < cfg.numWarehouses * 10 → r' < cfg.numWarehouses * 10 →
      i < ordersOf draws r → j < ordersOf draws r' →
      (r * auxCapacity cfg + (i + 1)) % 2 ^ 32 = (r' * auxCapacity cfg + (j + 1)) % 2 ^ 32 →
      r = r' ∧ i = j := by
    intro r r' i j h₁ h₂ hi hj heq
    rw [← auxSlot_row, ← auxSlot_row] at heq
    have := h.aux_inj (hrow h₁ hi) (hrow h₂ hj) heq
    omega
  have hshadow : ∀ {r r' i j}, r < cfg.numWarehouses * 10 → r' < cfg.numWarehouses * 10 →
      i < ordersOf draws r → j < ordersOf draws r' →
      (r * ordersCapacity cfg + i) % 2 ^ 32 = (r' * ordersCapacity cfg + j) % 2 ^ 32 →
      r = r' ∧ i = j := by
    intro r r' i j h₁ h₂ hi hj heq
    rw [← shadowSlot_row, ← shadowSlot_row] at heq
    have := h.shadow_inj (hrow h₁ hi) (hrow h₂ hj) heq
    omega
  have hcount : ∀ r < cfg.numWarehouses * 10, ∀ i < ordersOf draws r,
      (r * auxCapacity cfg + (i + 1)) % 2 ^ 32 <
        cfg.numWarehouses * 10 * auxCapacity cfg % 2 ^ 32 := by
    intro r h₁ i hi
    rw [← auxNumSlots_mod, ← auxSlot_row]
    exact h.aux_lt (hrow h₁ hi)
  have hlow : 3000 ≤ ordersCapacity cfg := by
    by_contra hlt
    have := hbase 0
    have := @hshadow 0 1 (ordersCapacity cfg) 0 (by omega) (by omega) (by omega) (hfirst 1) (by simp)
    omega
  refine ⟨?_, fun r h₁ => ?_, hcount, notAliased_of_inj fun h₁ h₂ hi hj heq => ?_,
    notAliased_of_inj fun {r r' i j} h₁ h₂ hi hj heq => ?_, notAliased_of_inj hshadow⟩
  · exact loaded_of_counted (by omega) hbase haux hcount
  · rcases Nat.lt_or_ge 3000 (ordersOf draws r) with hlt | hle
    · have hex := hrow h₁ (Nat.sub_lt (hfirst r) Nat.one_pos)
      rw [Nat.sub_add_cancel (hfirst r)] at hex
      obtain ⟨-, -, -, hload | ⟨t, ht, hi⟩⟩ := hex
      · omega
      · exact (h.ids t ht _ _ _ (inserts_carries hi)).2.2.2
    · omega
  · exact haux h₁ h₂ hi hj (by omega)
  · rw [← flatSlot_row, ← flatSlot_row] at heq
    have := h.flat_inj (hrow h₁ (show i / 15 < _ by omega)) (hrow h₂ (show j / 15 < _ by omega))
      ⟨by omega, by omega⟩ ⟨by omega, by omega⟩ heq
    omega

include hg

/-- Under the condition every order and every line has a slot of its own. -/
theorem addressed_of_separated (hs : Separated cfg (ordersOf draws)) :
    Addressed cfg (generateTxns draws).1 := by
  have hle : ∀ {w d o}, Exists cfg.numWarehouses (generateTxns draws).1 w d o →
      (w - 1) * 10 + (d - 1) < cfg.numWarehouses * 10 ∧ o < auxCapacity cfg ∧
        o ≤ ordersOf draws ((w - 1) * 10 + (d - 1)) := by
    intro w d o h
    have hrow := district_lt h.1 h.2.1
    obtain ⟨-, -, -, ho⟩ := (exists_iff hr).mp h
    refine ⟨hrow, ?_, ho⟩
    rcases h.2.2.2 with hload | ⟨t, ht, hi⟩
    · exact hload.trans_lt hs.loaded
    · exact (guardPasses_iff.mp hg).2 t ht w d o hi
  refine ⟨fun t ht w d o hc => ?_, fun {w d o} h => ?_, fun {w d o w' d' o'} h h' heq => ?_,
    fun {w d o ol} h hol => ?_, fun {w d o ol w' d' o' ol'} h h' hol hol' heq => ?_, fun {w d o} h => ?_,
    fun {w d o w' d' o'} h h' heq => ?_⟩
  · obtain ⟨hw, hd⟩ := inRange_run hr ht hc
    obtain ⟨hpos, ho⟩ := carried_run hr ht hc
    have hex : Exists cfg.numWarehouses (generateTxns draws).1 w d o := ⟨hw, hd, hpos, ho⟩
    obtain ⟨hrow, hlt, ho'⟩ := hle hex
    exact ⟨hex, hlt, hlt.le, ho'.trans (hs.shadowed _ hrow)⟩
  · obtain ⟨hrow, -, ho⟩ := hle h
    have hpos := h.2.2.1
    have := hs.counted _ hrow (o - 1) (by omega)
    rwa [Nat.sub_add_cancel hpos, ← auxNumSlots_mod, ← auxSlot_mod] at this
  · obtain ⟨hrow, hlt, ho⟩ := hle h
    obtain ⟨hrow', hlt', ho'⟩ := hle h'
    have hpos := h.2.2.1
    have hpos' := h'.2.2.1
    rw [auxSlot_mod, auxSlot_mod] at heq
    have heq' := @NotAliased.eq_of_mod _ _ _ hs.aux _ _ (o - 1) (o' - 1) hrow hrow' (by omega) (by omega)
      (Nat.ModEq.add_right_cancel' 1 (by
        rw [Nat.add_assoc, Nat.add_assoc, Nat.sub_add_cancel hpos, Nat.sub_add_cancel hpos']
        exact heq))
    exact dense_inj h.1.1 h'.1.1 h.2.1 h'.2.1 hlt hlt' (by omega)
  · obtain ⟨hrow, hlt, -⟩ := hle h
    have hpos := h.2.2.1
    refine (Nat.mod_le _ _).trans_lt ?_
    have hdense := dense_lt h.1 h.2.1 (show (o - 1) * 15 + (ol - 1) < flatCapacity cfg * 15 by
      have : o < flatCapacity cfg := hlt
      omega)
    rwa [denseIdxOL_row, flatSize, Nat.mul_assoc _ (flatCapacity cfg)]
  · obtain ⟨hrow, hlt, ho⟩ := hle h
    obtain ⟨hrow', hlt', ho'⟩ := hle h'
    have hpos := h.2.2.1
    have hpos' := h'.2.2.1
    rw [flatSlot, flatSlot, denseIdxOL_row, denseIdxOL_row] at heq
    have heq' := hs.flat.eq_of_mod hrow hrow' (by omega) (by omega) heq
    rw [← denseIdxOL_row, ← denseIdxOL_row] at heq'
    exact denseIdxOL_inj h.1.1 h'.1.1 h.2.1 h'.2.1 ⟨hpos, hlt.le⟩ ⟨hpos', hlt'.le⟩ hol hol' heq'
  · obtain ⟨hrow, -, ho⟩ := hle h
    have hcap := hs.shadowed _ hrow
    have hpos := h.2.2.1
    exact (Nat.mod_le _ _).trans_lt (dense_lt h.1 h.2.1 (by omega))
  · obtain ⟨hrow, -, ho⟩ := hle h
    obtain ⟨hrow', -, ho'⟩ := hle h'
    have hcap := hs.shadowed _ hrow
    have hcap' := hs.shadowed _ hrow'
    have hpos := h.2.2.1
    have hpos' := h'.2.2.1
    have heq' := hs.shadow.eq_of_mod hrow hrow' (show o - 1 < _ by omega) (show o' - 1 < _ by omega) heq
    obtain ⟨h₁, h₂, h₃⟩ := dense_inj h.1.1 h'.1.1 h.2.1 h'.2.1 (by omega) (by omega) heq'
    exact ⟨h₁, h₂, by omega⟩

end

/-- A run that passes the guard has a slot of its own for every order in every structure exactly
    when the aux index has room for the loaded orders, the shadow's stride for every district's
    orders, and the 32-bit slot numbers that wrap stay below the wrapped size and apart. -/
theorem guard_addressed_iff (fl : ℚ → ℚ) {rc : RunConfig} {draws : List Draw}
    (hW : 1 ≤ rc.numWarehouses) (hr : ∀ x ∈ draws, x.InRange rc.numWarehouses)
    (hg : guardPasses (rc.config fl) (generateTxns draws).1 = true) :
    Addressed (rc.config fl) (generateTxns draws).1 ↔ Separated (rc.config fl) (ordersOf draws) :=
  ⟨separated_of_addressed hr hW, addressed_of_separated hr hg⟩

/-- Where no slot number of the run reaches `2 ^ 32`, the capacities decide. -/
theorem separated_of_lt {cfg : Config} {orders : ℕ → ℕ} (hload : 3000 < auxCapacity cfg)
    (haux : ∀ r < cfg.numWarehouses * 10, orders r < auxCapacity cfg)
    (hsh : ∀ r < cfg.numWarehouses * 10, orders r ≤ ordersCapacity cfg)
    (hN : cfg.numWarehouses * 10 * auxCapacity cfg < 2 ^ 32)
    (hflat : ∀ r < cfg.numWarehouses * 10, (r * flatCapacity cfg + orders r) * 15 ≤ 2 ^ 32)
    (hshadow : ∀ r < cfg.numWarehouses * 10, r * ordersCapacity cfg + orders r ≤ 2 ^ 32) :
    Separated cfg orders := by
  have hrow : ∀ r < cfg.numWarehouses * 10,
      r * auxCapacity cfg + orders r < cfg.numWarehouses * 10 * auxCapacity cfg := by
    intro r hr
    have hle := Nat.mul_le_mul_right (auxCapacity cfg) (Nat.succ_le_of_lt hr)
    have := haux r hr
    rw [Nat.succ_mul] at hle
    omega
  refine ⟨hload, hsh, fun r hr i hi => ?_, notAliased_of_le fun r hr => ?_,
    notAliased_of_le fun r hr => ?_, notAliased_of_le hshadow⟩
  · have := hrow r hr
    rw [Nat.mod_eq_of_lt (by omega), Nat.mod_eq_of_lt hN]
    omega
  · have := hrow r hr
    omega
  · rw [← Nat.mul_assoc, ← Nat.add_mul]
    exact hflat r hr

/-- When the aux capacity stays within the shadow's stride, the guard decides for all three. -/
theorem addressed_of_aux_le {cfg : Config} {draws : List Draw} (hW : 1 ≤ cfg.numWarehouses)
    (hr : ∀ x ∈ draws, x.InRange cfg.numWarehouses) (hn : NoWrap cfg)
    (hg : guardPasses cfg (generateTxns draws).1 = true) (haux : 3000 < cfg.auxNumSlotsPerDistrict)
    (hle : cfg.auxNumSlotsPerDistrict ≤ computeOrdersMaxO cfg + 1) :
    Addressed cfg (generateTxns draws).1 := by
  have hcap := auxCapacity_eq hn hW
  have hcapF : flatCapacity cfg = cfg.auxNumSlotsPerDistrict := hcap
  have hcapM := ordersCapacity_eq hn hW
  obtain ⟨hnAux, hnFlat, hnShadow⟩ := hn
  have hN : cfg.auxNumSlotsPerDistrict * cfg.numWarehouses * 10 =
      cfg.numWarehouses * 10 * cfg.auxNumSlotsPerDistrict := by ring
  have horders : ∀ r < cfg.numWarehouses * 10, ordersOf draws r < cfg.auxNumSlotsPerDistrict := by
    intro r hrow
    have hlast : 0 < ordersOf draws r := Nat.add_pos_left (by decide) _
    obtain ⟨-, -, -, hload | ⟨t, ht, hi⟩⟩ := exists_row hr hrow (Nat.sub_lt hlast Nat.one_pos)
    · omega
    · have := inserted_lt_aux hg ht hi
      omega
  refine addressed_of_separated hr hg (separated_of_lt (hcap ▸ haux) (fun r hrow => ?_) (fun r hrow => ?_)
    (by rw [hcap]; omega) (fun r hrow => ?_) fun r hrow => ?_)
  · rw [hcap]
    exact horders r hrow
  · have := horders r hrow
    omega
  · have hstep := Nat.mul_le_mul_right cfg.auxNumSlotsPerDistrict (Nat.succ_le_of_lt hrow)
    have := horders r hrow
    rw [Nat.succ_mul] at hstep
    rw [computeOLMaxO] at hnFlat
    rw [hcapF]
    omega
  · have hstep := Nat.mul_le_mul_right (computeOrdersMaxO cfg) (Nat.succ_le_of_lt hrow)
    have := horders r hrow
    rw [Nat.succ_mul] at hstep
    rw [hcapM]
    omega

/-! ### Runs on both sides of the condition -/

/-- Five items, drawn from the home warehouse. -/
def fiveItems : List OrderItem := List.replicate 5 ⟨1, 1, 1⟩

/-- NewOrders of one warehouse, `f d` of them in district `d + 1`. -/
def newOrders (f : ℕ → ℕ) : List Draw :=
  (List.range 10).flatMap fun d => List.replicate (f d) (.newOrder 1 (d + 1) 7 fiveItems)

theorem newOrders_inRange (f : ℕ → ℕ) : ∀ x ∈ newOrders f, x.InRange 1 := by
  intro x hx
  obtain ⟨d, hd, hx⟩ := List.mem_flatMap.mp hx
  have hd := List.mem_range.mp hd
  rw [List.eq_of_mem_replicate hx]
  exact ⟨by decide, ⟨by omega, by omega⟩, by decide⟩

theorem ordersOf_newOrders (f : ℕ → ℕ) {r : ℕ} (hr : r < 10) : ordersOf (newOrders f) r = 3000 + f r := by
  have hcount : ∀ d, (List.replicate (f d) (Draw.newOrder 1 (d + 1) 7 fiveItems)).countP
      (Draw.ordersIn 1 (r + 1)) = if d = r then f d else 0 := by
    intro d
    rw [List.countP_replicate]
    simp [Draw.ordersIn]
  rw [ordersOf, newOrders, List.countP_flatMap, Nat.div_eq_of_lt hr, Nat.mod_eq_of_lt hr]
  simp only [Function.comp_def, Nat.zero_add, hcount]
  interval_cases r <;> simp [List.range_succ]

theorem newOrders_guard {cfg : Config} {f : ℕ → ℕ}
    (hcap : 0 < auxCapacity cfg) (hf : ∀ d < 10, 3000 + f d < auxCapacity cfg) :
    guardPasses cfg (generateTxns (newOrders f)).1 = true := by
  refine guardPasses_iff.mpr ⟨hcap, fun t ht w d o hi => ?_⟩
  have hin := newOrders_inRange f
  obtain ⟨hw, hd⟩ := inRange_run hin ht (inserts_carries hi)
  obtain ⟨hpos, -⟩ := carried_run hin ht (inserts_carries hi)
  obtain ⟨-, -, -, ho⟩ := (exists_iff hin).mp ⟨hw, hd, hpos, Or.inr ⟨t, ht, hi⟩⟩
  rw [ordersOf_newOrders f (by omega)] at ho
  exact ho.trans_lt (hf _ (by omega))

/-- One warehouse and twenty NewOrders. -/
def smallRun : RunConfig := ⟨⟨100, 0, 0, 0, 0⟩, 20, 1, 1, true, true⟩

theorem smallRun_config : smallRun.config id = ⟨1, 40, 2, true⟩ := by
  simp only [RunConfig.config, RunConfig.newOrderInsertPoolSize, RunConfig.perDistrict,
    TxnMix.newOrderShare, TxnMix.totalWeight, smallRun, id]
  norm_num

/-- Two of them in every district. -/
theorem guard_addressed_iff_small :
    Addressed (smallRun.config id) (generateTxns (newOrders fun _ => 2)).1 := by
  refine (guard_addressed_iff id (show 1 ≤ 1 by decide) (newOrders_inRange _) ?_).mpr ?_
  · rw [smallRun_config]
    exact newOrders_guard (by decide) fun _ _ => by decide
  · rw [smallRun_config]
    have horders : ∀ r < 1 * 10, ordersOf (newOrders fun _ => 2) r = 3002 := fun r hr =>
      ordersOf_newOrders _ hr
    have haux : auxCapacity ⟨1, 40, 2, true⟩ = 3003 := by decide
    have hflat : flatCapacity ⟨1, 40, 2, true⟩ = 3003 := by decide
    have hshadow : ordersCapacity ⟨1, 40, 2, true⟩ = 6004 := by decide
    refine separated_of_lt (by decide) (fun r hr => ?_) (fun r hr => ?_) (by decide) (fun r hr => ?_)
      fun r hr => ?_
    · rw [horders r hr, haux]
      decide
    · rw [horders r hr, hshadow]
      decide
    · have hr : r < 10 := hr
      rw [horders r hr, hflat]
      omega
    · have hr : r < 10 := hr
      rw [horders r hr, hshadow]
      omega

/-- One warehouse, ten thousand epochs of ten thousand NewOrders. -/
def longRun : RunConfig := ⟨⟨100, 0, 0, 0, 0⟩, 10000, 10000, 1, true, true⟩

/-- How many fall into each district. -/
def longOrders (d : ℕ) : ℕ := if d = 0 then 10004001 else if d = 9 then 9999559 else 9999555

/-- One warehouse, and one transaction of the full mix. -/
def singleRun : RunConfig := ⟨⟨45, 43, 4, 4, 4⟩, 1, 1, 1, true, true⟩

theorem longRun_config : longRun.config id = ⟨1, 100010000, 10000000, true⟩ := by
  simp only [RunConfig.config, RunConfig.newOrderInsertPoolSize, RunConfig.perDistrict,
    TxnMix.newOrderShare, TxnMix.totalWeight, longRun, id]
  norm_num

theorem singleRun_config : singleRun.config id = ⟨1, 1, 0, true⟩ := by
  simp only [RunConfig.config, RunConfig.newOrderInsertPoolSize, RunConfig.perDistrict,
    TxnMix.newOrderShare, TxnMix.totalWeight, singleRun, id]
  norm_num [show ⌊(27 : ℚ) / 20⌋₊ = 1 by norm_num [Nat.floor_eq_iff],
    show ⌊(9 : ℚ) / 20⌋₊ = 0 by norm_num]

theorem length_longDraws : (newOrders longOrders).length = longRun.numTxns * longRun.epochs := by
  rw [newOrders, List.length_flatMap]
  simp only [List.length_replicate]
  decide

/-- Two runs that pass the guard: in the first a district's last order lies past the shadow's
    stride, in the second the aux index has no slot for the last loaded order. -/
theorem guard_not_sufficient :
    ((newOrders longOrders).length = longRun.numTxns * longRun.epochs ∧
      guardPasses (longRun.config id) (generateTxns (newOrders longOrders)).1 = true ∧
      ¬ Addressed (longRun.config id) (generateTxns (newOrders longOrders)).1) ∧
    (guardPasses (singleRun.config id) (generateTxns [.orderStatus 1 10 7]).1 = true ∧
      ¬ Addressed (singleRun.config id) (generateTxns [.orderStatus 1 10 7]).1) := by
  rw [longRun_config, singleRun_config]
  have hin := newOrders_inRange longOrders
  refine ⟨⟨length_longDraws, ?_, fun h => ?_⟩, by decide, fun h => ?_⟩
  · refine newOrders_guard (by decide) fun d _ => ?_
    have hcap : auxCapacity ⟨1, 100010000, 10000000, true⟩ = 15003000 := by decide
    rw [hcap, longOrders]
    split
    · decide
    · split <;> decide
  · have hfit := (separated_of_addressed hin (show 1 ≤ 1 by decide) h).shadowed 0 (by decide)
    have hcap : ordersCapacity ⟨1, 100010000, 10000000, true⟩ = 10007000 := by decide
    rw [ordersOf_newOrders _ (by decide), hcap] at hfit
    exact absurd hfit (by decide)
  · have hlt := (h.ids (.orderStatus 1 10 7 3000) (by decide) 1 10 3000 ⟨rfl, rfl, rfl⟩).2.1
    exact absurd hlt (by decide)

end Egad.Tpcc
