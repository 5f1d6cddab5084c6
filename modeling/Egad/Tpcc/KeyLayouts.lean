import Egad.Lib.BitFields
import Egad.Tpcc.AuxIndex
import Egad.Tpcc.AuxRebuild
import Egad.Tpcc.CpuIndex
import Egad.Timeline.Packing

/-! # The layouts of the packed keys (`benchmarks/tpcc_table.h`, `benchmarks/tpcc_gpu_aux_index.cu`)

    A key is a word of bit-fields, the warehouse highest. The widths come from `ceilLog2` of bounds
    chosen by hand:

        DistrictKey              w:8 | d:5                      32 bits
        CustomerKey              w:8 | d:5 | c:17               32 bits
        StockKey                 w:8 | i:18                     32 bits
        NewOrderKey, OrderKey    w:8 | d:5 | o:24               64 bits, and 24 bits of position
        OrderLineKey             w:8 | d:5 | o:24 | ol:4        64 bits, and 22 bits of position
        PackedCustomerOrderKey   w:6 | d:4 | c:12 | max - o:20  64 bits

    All of them leave room for `kMaxWarehouses` warehouses, but the last. No one bounds the order
    ids of a run by the widths of their fields. -/

namespace Egad.Tpcc
open Egad.Lib Egad.Timeline

/-! ### The source -/

/-- `floorLog2`, which the source never calls with 0. -/
def floorLog2 (x : ℕ) : ℕ := if x ≤ 1 then 0 else 1 + floorLog2 (x / 2)

def ceilLog2 (x : ℕ) : ℕ := if x = 1 then 0 else floorLog2 (x - 1) + 1

def kMaxWarehouses : ℕ := 128

/-- The tables with packed keys. -/
inductive KeyTable where
  | district | customer | newOrder | order | orderLine | stock

namespace KeyTable

/-- The widths of a key's fields, the lowest first. -/
def widths : KeyTable → List ℕ
  | district => [ceilLog2 20, ceilLog2 (2 * kMaxWarehouses)]
  | customer => [ceilLog2 96000, ceilLog2 20, ceilLog2 (2 * kMaxWarehouses)]
  | newOrder | order => [ceilLog2 10000000, ceilLog2 20, ceilLog2 (2 * kMaxWarehouses)]
  | orderLine => [ceilLog2 15, ceilLog2 10000000, ceilLog2 20, ceilLog2 (2 * kMaxWarehouses)]
  | stock => [ceilLog2 200000, ceilLog2 (2 * kMaxWarehouses)]

/-- `ChooseBitfieldBaseType`: the bits of the word. -/
def baseBits (t : KeyTable) : ℕ := if t.widths.sum ≤ 32 then 32 else 64

/-- `base_key`. -/
def baseKey (t : KeyTable) (ids : List ℕ) : ℕ := packFields t.widths ids

/-- The empty-key sentinel, `static_cast<baseType>(-1)`. -/
def emptyKey (t : KeyTable) : ℕ := 2 ^ t.baseBits - 1

/-- The erased-key sentinel, `static_cast<baseType>(-2)`. -/
def erasedKey (t : KeyTable) : ℕ := 2 ^ t.baseBits - 2

/-- `PosBits` of a table's timeline; only the growing tables have one. -/
def posBits : KeyTable → Option ℕ
  | newOrder | order => some 24
  | orderLine => some 22
  | _ => none

/-- The largest ids of a run with `W` warehouses whose largest order id is `N`. -/
def maxIds (W N : ℕ) : KeyTable → List ℕ
  | district => [10, W]
  | customer => [3000, 10, W]
  | newOrder | order => [N, 10, W]
  | orderLine => [15, N, 10, W]
  | stock => [100000, W]

end KeyTable

/-- `denseIdxOL` in 32 bits. -/
def denseIdxOL32 (w d o ol maxO : ℕ) : ℕ := denseIdxOL w d o ol maxO % 2 ^ 32

/-- The decoding of an index of the flat array, its strides in 32 bits. -/
def decodeLineId32 (maxO i : ℕ) : OrderId × ℕ :=
  let perDistrict := maxO * 15 % 2 ^ 32
  let perWarehouse := 10 * perDistrict % 2 ^ 32
  let rem1 := i % perWarehouse
  let rem2 := rem1 % perDistrict
  (⟨i / perWarehouse + 1, rem1 / perDistrict + 1, rem2 / 15 + 1⟩, rem2 % 15 + 1)

/-! ### What the layouts are for -/

/-- Ids that a run can produce. -/
def KeyTable.InRun (t : KeyTable) (W N : ℕ) (ids : List ℕ) : Prop :=
  List.Forall₂ (fun m id => 1 ≤ id ∧ id ≤ m) (t.maxIds W N) ids

/-- The keys of the run's ids are distinct, compare from the warehouse down, and are no sentinel. -/
def KeysSound (W N : ℕ) : Prop :=
  ∀ (t : KeyTable) (x y : List ℕ), t.InRun W N x → t.InRun W N y →
    (t.baseKey x = t.baseKey y → x = y) ∧ (t.baseKey x < t.baseKey y ↔ FieldsLt x y) ∧
      t.baseKey x ≠ t.emptyKey ∧ t.baseKey x ≠ t.erasedKey

/-- A key and a position that fits its bits pack into 64, and compare as the pair. -/
def EventsPack (W N : ℕ) : Prop :=
  ∀ (t : KeyTable) (b : ℕ) (x y : List ℕ) (p q : ℕ), t.posBits = some b → t.InRun W N x →
    t.InRun W N y → p < 2 ^ b → q < 2 ^ b →
    packEvent b (t.baseKey x) p < 2 ^ 64 ∧
      (packEvent b (t.baseKey x) p < packEvent b (t.baseKey y) q ↔
        t.baseKey x < t.baseKey y ∨ (t.baseKey x = t.baseKey y ∧ p < q))

/-- An order line with a slot in the flat index. -/
def LineInRun (W maxO : ℕ) (id : OrderId) (ol : ℕ) : Prop :=
  (1 ≤ id.w ∧ id.w ≤ W) ∧ (1 ≤ id.d ∧ id.d ≤ 10) ∧ (1 ≤ id.o ∧ id.o ≤ maxO) ∧ 1 ≤ ol ∧ ol ≤ 15

/-- Encoding and decoding of the flat index undo each other on its lines and its slots. -/
def DenseInverse (W maxO : ℕ) : Prop :=
  (∀ id ol, LineInRun W maxO id ol →
    decodeLineId32 maxO (denseIdxOL32 id.w id.d id.o ol maxO) = (id, ol)) ∧
  ∀ i < W * 10 * maxO * 15, LineInRun W maxO (decodeLineId32 maxO i).1 (decodeLineId32 maxO i).2 ∧
    denseIdxOL32 (decodeLineId32 maxO i).1.w (decodeLineId32 maxO i).1.d (decodeLineId32 maxO i).1.o
      (decodeLineId32 maxO i).2 maxO = i

/-! ### Widths -/

theorem widths_eq (t : KeyTable) : t.widths = match t with
    | .district => [5, 8]
    | .customer => [17, 5, 8]
    | .newOrder | .order => [24, 5, 8]
    | .orderLine => [4, 24, 5, 8]
    | .stock => [18, 8] := by
  cases t <;> decide +kernel

/-- The keys of the indexes are these words. -/
theorem baseKey_eq (o d w ol c i : ℕ) :
    KeyTable.district.baseKey [d, w] = districtKey d w ∧
    KeyTable.customer.baseKey [c, d, w] = customerKey c d w ∧
    KeyTable.newOrder.baseKey [o, d, w] = newOrderKey o d w ∧
    KeyTable.order.baseKey [o, d, w] = orderKey o d w ∧
    KeyTable.orderLine.baseKey [ol, o, d, w] = orderLineKey o d w ol ∧
    KeyTable.stock.baseKey [i, w] = stockKey i w := by
  simp only [KeyTable.baseKey, widths_eq, packFields, districtKey, customerKey, newOrderKey, orderKey,
    orderFields, orderLineKey, stockKey]
  omega

/-- No key comes near the sentinels: its word has bits to spare. -/
theorem baseKey_lt_erasedKey (t : KeyTable) (ids : List ℕ) :
    t.baseKey ids < t.erasedKey ∧ t.erasedKey < t.emptyKey := by
  have hlt := packFields_lt t.widths ids
  rw [KeyTable.baseKey, KeyTable.erasedKey, KeyTable.emptyKey, KeyTable.baseBits]
  rw [widths_eq] at hlt ⊢
  cases t <;> refine ⟨lt_of_lt_of_le hlt ?_, ?_⟩ <;> decide

/-- The key and the position of a growing table share 64 bits. -/
theorem baseKey_lt_posBits {t : KeyTable} {b : ℕ} (hb : t.posBits = some b) (ids : List ℕ) :
    b ≤ 64 ∧ t.baseKey ids < 2 ^ (64 - b) := by
  have hlt := packFields_lt t.widths ids
  rw [KeyTable.baseKey]
  rw [widths_eq] at hlt ⊢
  cases t <;> cases hb <;> exact ⟨by decide, lt_of_lt_of_le hlt (by decide)⟩

/-- The fields hold the ids of up to `kMaxWarehouses` warehouses and order ids below 2^24. -/
theorem within_of_inRun {t : KeyTable} {W N : ℕ} {ids : List ℕ} (hW : W ≤ kMaxWarehouses)
    (hN : N < 2 ^ 24) (h : t.InRun W N ids) : WithinFields t.widths ids := by
  have hmax : WithinFields t.widths (t.maxIds W N) := by
    rw [widths_eq]
    rw [kMaxWarehouses] at hW
    cases t <;> simp only [KeyTable.maxIds, List.forall₂_cons, List.Forall₂.nil, and_true] <;> omega
  exact hmax.of_bounds (h.imp fun _ _ hid => hid.2)

/-! ### Keys and events -/

theorem keysSound_of_lt {W N : ℕ} (hW : W ≤ kMaxWarehouses) (hN : N < 2 ^ 24) : KeysSound W N := by
  rintro t x y hx hy
  have hx := within_of_inRun hW hN hx
  have hy := within_of_inRun hW hN hy
  obtain ⟨herased, hempty⟩ := baseKey_lt_erasedKey t x
  exact ⟨packFields_inj hx hy, packFields_lt_iff hx hy, (herased.trans hempty).ne, herased.ne⟩

/-- Order 2^24 has the key of an order 0. -/
theorem lt_of_keysSound {W N : ℕ} (hW : 0 < W) (h : KeysSound W N) : N < 2 ^ 24 := by
  by_contra hN
  have hpos : 0 < 2 ^ 24 := by decide
  have hrun : ∀ o, 1 ≤ o → o ≤ N → KeyTable.order.InRun W N [o, 1, 1] := fun o h1 hle =>
    .cons ⟨h1, hle⟩ (.cons ⟨le_rfl, by decide⟩ (.cons ⟨le_rfl, hW⟩ .nil))
  have hlt := (h .order _ _ (hrun 1 le_rfl (by omega)) (hrun (2 ^ 24) hpos (by omega))).2.1
  have hkeys : ¬ KeyTable.order.baseKey [1, 1, 1] < KeyTable.order.baseKey [2 ^ 24, 1, 1] := by
    simp only [KeyTable.baseKey, widths_eq, packFields]
    decide
  exact hkeys (hlt.mpr (.inr ⟨rfl, by decide⟩))

/-- The layouts leave the position its bits, whatever the ids. -/
theorem eventsPack (W N : ℕ) : EventsPack W N := by
  rintro t b x y p q hb - - hp hq
  obtain ⟨hle, hx⟩ := baseKey_lt_posBits hb x
  have hy := (baseKey_lt_posBits hb y).2
  rw [packEvent_eq hle hx hp, packEvent_eq hle hy hq]
  constructor
  · have hpow : (2 : ℕ) ^ 64 = 2 ^ (64 - b) * 2 ^ b := by
      rw [← Nat.pow_add, Nat.sub_add_cancel hle]
    have := Nat.mul_le_mul_right (2 ^ b) (Nat.succ_le_of_lt hx)
    rw [Nat.succ_mul] at this
    omega
  · rw [Nat.add_comm _ p, Nat.add_comm _ q, Nat.mul_comm, Nat.mul_comm (t.baseKey y)]
    exact digit_lt_iff hp hq

/-! ### The flat index -/

theorem decodeLineId32_eq {maxO : ℕ} (h : 10 * (maxO * 15) < 2 ^ 32) (i : ℕ) :
    decodeLineId32 maxO i = decodeLineId maxO i := by
  simp only [decodeLineId32, decodeLineId, Nat.mod_eq_of_lt h,
    Nat.mod_eq_of_lt (show maxO * 15 < 2 ^ 32 by omega)]

/-- Every index decodes to a line whose index it is. -/
theorem denseIdxOL_decode {W maxO i : ℕ} (hi : i < W * 10 * maxO * 15) :
    LineInRun W maxO (decodeLineId maxO i).1 (decodeLineId maxO i).2 ∧
      denseIdxOL (decodeLineId maxO i).1.w (decodeLineId maxO i).1.d (decodeLineId maxO i).1.o
        (decodeLineId maxO i).2 maxO = i := by
  have hsize : W * 10 * maxO * 15 = W * (10 * (maxO * 15)) := by ring
  rw [hsize] at hi
  have hpos : 0 < maxO * 15 := by
    rcases Nat.eq_zero_or_pos (maxO * 15) with hz | hpos
    · rw [hz] at hi
      exact absurd hi (Nat.not_lt_zero i)
    · exact hpos
  have hw : i / (10 * (maxO * 15)) < W := Nat.div_lt_of_lt_mul (by rwa [Nat.mul_comm])
  have hd : i % (10 * (maxO * 15)) / (maxO * 15) < 10 := by
    refine Nat.div_lt_of_lt_mul ?_
    rw [Nat.mul_comm (maxO * 15) 10]
    exact Nat.mod_lt i (by omega)
  have ho : i % (10 * (maxO * 15)) % (maxO * 15) / 15 < maxO := by
    refine Nat.div_lt_of_lt_mul ?_
    rw [Nat.mul_comm 15 maxO]
    exact Nat.mod_lt _ hpos
  have hol := Nat.mod_lt (i % (10 * (maxO * 15)) % (maxO * 15)) (show 0 < 15 by decide)
  refine ⟨⟨⟨Nat.le_add_left .., hw⟩, ⟨Nat.le_add_left .., hd⟩, ⟨Nat.le_add_left .., ho⟩,
    Nat.le_add_left .., hol⟩, ?_⟩
  simp only [decodeLineId, denseIdxOL, Nat.add_sub_cancel]
  have hline := Nat.div_add_mod (i % (10 * (maxO * 15)) % (maxO * 15)) 15
  have hdistrict := Nat.div_add_mod (i % (10 * (maxO * 15))) (maxO * 15)
  have hwarehouse := Nat.div_add_mod i (10 * (maxO * 15))
  calc (i / (10 * (maxO * 15)) * 10 + i % (10 * (maxO * 15)) / (maxO * 15)) * maxO * 15 +
        i % (10 * (maxO * 15)) % (maxO * 15) / 15 * 15 + i % (10 * (maxO * 15)) % (maxO * 15) % 15
      = 10 * (maxO * 15) * (i / (10 * (maxO * 15))) +
          (maxO * 15 * (i % (10 * (maxO * 15)) / (maxO * 15)) +
            (15 * (i % (10 * (maxO * 15)) % (maxO * 15) / 15) +
              i % (10 * (maxO * 15)) % (maxO * 15) % 15)) := by ring
    _ = i := by rw [hline, hdistrict, hwarehouse]

/-- 32 bits hold the index of every line of an array of at most `2 ^ 32` cells. -/
theorem denseIdxOL32_eq {W maxO ol : ℕ} {id : OrderId} (hle : W * 10 * maxO * 15 ≤ 2 ^ 32)
    (h : LineInRun W maxO id ol) :
    denseIdxOL32 id.w id.d id.o ol maxO = denseIdxOL id.w id.d id.o ol maxO :=
  Nat.mod_eq_of_lt ((denseIdxOL_lt h.1 h.2.1 h.2.2.1 h.2.2.2).trans_le hle)

/-- The two directions are inverse as long as 32 bits number the slots. -/
theorem denseInverse_iff {W maxO : ℕ} (hW : 0 < W) :
    DenseInverse W maxO ↔ W * 10 * maxO * 15 ≤ 2 ^ 32 := by
  constructor
  · rintro ⟨-, hdecode⟩
    by_contra hgt
    have hself := (hdecode (2 ^ 32) (by omega)).2
    have hlt := Nat.mod_lt (denseIdxOL (decodeLineId32 maxO (2 ^ 32)).1.w
      (decodeLineId32 maxO (2 ^ 32)).1.d (decodeLineId32 maxO (2 ^ 32)).1.o
      (decodeLineId32 maxO (2 ^ 32)).2 maxO) (show 0 < 2 ^ 32 by decide)
    exact hlt.ne hself
  · rintro hle
    have hstride : 10 * (maxO * 15) < 2 ^ 32 := by
      have hone := Nat.mul_le_mul_right (10 * maxO * 15) hW
      have hassoc : W * (10 * maxO * 15) = W * 10 * maxO * 15 := by ring
      rw [hassoc, Nat.one_mul] at hone
      omega
    refine ⟨fun id ol h => ?_, fun i hi => ?_⟩
    · rw [decodeLineId32_eq hstride, denseIdxOL32_eq hle h]
      exact decodeLineId_dense h.1.1 h.2.1 h.2.2.1 h.2.2.2
    · obtain ⟨hrun, hself⟩ := denseIdxOL_decode hi
      rw [decodeLineId32_eq hstride, denseIdxOL32_eq hle hrun]
      exact ⟨hrun, hself⟩

/-- For any number of warehouses the layouts allow, the keys are sound, events pack and the flat index
    is a bijection if and only if the run's order ids stay below 2^24 and 32 bits number the slots of
    the flat index. -/
theorem keyLayouts_iff (W N maxO : ℕ) (hpos : 0 < W) (hW : W ≤ kMaxWarehouses) :
    KeysSound W N ∧ EventsPack W N ∧ DenseInverse W maxO ↔
      N < 2 ^ 24 ∧ W * 10 * maxO * 15 ≤ 2 ^ 32 := by
  rw [denseInverse_iff hpos]
  constructor
  · exact fun h => ⟨lt_of_keysSound hpos h.1, h.2.2⟩
  · exact fun h => ⟨keysSound_of_lt hW h.1, eventsPack W N, h.2⟩

/-- Eight warehouses with room for 200000 orders a district. -/
theorem keyLayouts_eight : KeysSound 8 150000 ∧ EventsPack 8 150000 ∧ DenseInverse 8 200000 :=
  (keyLayouts_iff 8 150000 200000 (by decide) (by decide)).mpr ⟨by decide, by decide⟩

/-- One warehouse whose district gives out order 2^24. -/
theorem keyLayouts_wide_order : ¬ ∀ W N maxO, 0 < W → W ≤ kMaxWarehouses →
    KeysSound W N ∧ EventsPack W N ∧ DenseInverse W maxO := fun hall =>
  absurd (lt_of_keysSound (by decide) (hall 1 (2 ^ 24) 3000 (by decide) (by decide)).1) (by decide)

/-! ### `PackedCustomerOrderKey` -/

/-- An order of a run with `W` warehouses whose largest order id is `N`. -/
def CustomerOrder.InRun (W N : ℕ) (x : CustomerOrder) : Prop :=
  CustomerOk W x.wId x.dId x.cId ∧ 1 ≤ x.oId ∧ x.oId ≤ N

/-- `lower_bound` of an OrderStatus. -/
def lowerBound (w d c o : ℕ) : ℕ := packedCustomerOrderKey (hackedOId o) c d w

/-- `upper_bound`: the same key with the order field at `max_o_id`. -/
def upperBound (w d c o : ℕ) : ℕ := lowerBound w d c o - lowerBound w d c o % 2 ^ 20 + maxOId

/-- Keys tell orders apart, run backwards through a customer's orders, and the range of a query holds
    only that customer's orders up to the bound. -/
structure CustomerKeysSound (W N : ℕ) : Prop where
  inj : ∀ x y : CustomerOrder, x.InRun W N → y.InRun W N → x.key = y.key → x = y
  reversed : ∀ x y : CustomerOrder, x.InRun W N → y.InRun W N → x.wId = y.wId → x.dId = y.dId →
    x.cId = y.cId → (x.key < y.key ↔ y.oId < x.oId)
  range : ∀ (x : CustomerOrder) (w d c o : ℕ), x.InRun W N → CustomerOk W w d c → o ≤ N →
    lowerBound w d c o ≤ x.key → x.key ≤ upperBound w d c o →
    x.wId = w ∧ x.dId = d ∧ x.cId = c ∧ x.oId ≤ o

/-- Two stored keys are of one customer when their upper bits agree, with up to 64 warehouses. -/
theorem customer_of_bits {W w d c w' d' c' : ℕ} (hW : W ≤ 64) (h : CustomerOk W w d c)
    (h' : CustomerOk W w' d' c') (hbits : customerBits w' d' c' = customerBits w d c) :
    w' = w ∧ d' = d ∧ c' = c := by
  obtain ⟨hw, hd, hc⟩ := (customerBits_eq_iff h.2.1.2 h'.2.1.2 h.2.2.2 h'.2.2.2).mp hbits
  have := h.1
  have := h'.1
  exact ⟨by omega, hd, hc⟩

theorem customerKeysSound_of_le {W N : ℕ} (hW : W ≤ 64) (hN : N < 2 ^ 20) :
    CustomerKeysSound W N where
  inj x y hx hy hkey := by
    have hbits : customerBits x.wId x.dId x.cId = customerBits y.wId y.dId y.cId := by
      rw [CustomerOrder.key, CustomerOrder.key, key_split, key_split] at hkey
      simp only [maxOId] at hkey
      omega
    obtain ⟨hw, hd, hc⟩ := customer_of_bits hW hy.1 hx.1 hbits
    have hxy := (key_le_iff hbits).mp hkey.le
    have hyx := (key_le_iff hbits.symm).mp hkey.ge
    have := hx.2.2
    have := hy.2.2
    obtain ⟨xw, xd, xc, xo⟩ := x
    obtain ⟨yw, yd, yc, yo⟩ := y
    simp only [CustomerOrder.mk.injEq] at *
    exact ⟨hw, hd, hc, by omega⟩
  reversed x y hx hy hw hd hc := by
    have hbits : customerBits y.wId y.dId y.cId = customerBits x.wId x.dId x.cId := by
      rw [hw, hd, hc]
    rw [← Nat.not_le, key_le_iff hbits]
    have := hx.2.2
    have := hy.2.2
    omega
  range x w d c o hx hq ho hlow hhigh := by
    obtain ⟨hbits, hle⟩ := key_mem_range.mp ⟨hlow, hhigh⟩
    obtain ⟨hw, hd, hc⟩ := customer_of_bits hW hq hx.1 hbits
    have := hx.2.2
    exact ⟨hw, hd, hc, by omega⟩

theorem customerOk_first {W w : ℕ} (h1 : 1 ≤ w) (hW : w ≤ W) : CustomerOk W w 1 1 :=
  ⟨⟨h1, hW⟩, ⟨le_rfl, by decide⟩, le_rfl, by decide⟩

/-- Warehouses 1 and 65 share their keys. -/
theorem le_of_customerKeysSound {W N : ℕ} (hN : 0 < N) (h : CustomerKeysSound W N) : W ≤ 64 := by
  by_contra hW
  have hrun : ∀ w, 1 ≤ w → w ≤ 65 → CustomerOrder.InRun W N ⟨w, 1, 1, 1⟩ := fun w h1 h2 =>
    ⟨customerOk_first h1 (h2.trans (Nat.lt_of_not_le hW)), le_rfl, hN⟩
  have heq := h.inj _ _ (hrun 1 le_rfl (by decide)) (hrun 65 (by decide) le_rfl) (by decide)
  exact absurd (congrArg CustomerOrder.wId heq) (by decide)

/-- Order 2^20 is stored as the oldest of its customer. -/
theorem lt_of_customerKeysSound {W N : ℕ} (hW : 0 < W) (h : CustomerKeysSound W N) :
    N < 2 ^ 20 := by
  by_contra hN
  have hrun : ∀ o, 1 ≤ o → o ≤ 2 ^ 20 → CustomerOrder.InRun W N ⟨1, 1, 1, o⟩ := fun o h1 h2 =>
    ⟨customerOk_first le_rfl hW, h1, h2.trans (Nat.le_of_not_lt hN)⟩
  have hback := (h.reversed _ _ (hrun (2 ^ 20) (by decide) le_rfl) (hrun 1 le_rfl (by decide))
    rfl rfl rfl).mpr (by decide)
  exact absurd hback (by decide)

/-- `PackedCustomerOrderKey` does its work in a run if and only if the run has at most 64 warehouses
    and no order id reaches 2^20. -/
theorem packedCustomerOrderKey_iff (W N : ℕ) (hW : 0 < W) (hN : 0 < N) :
    CustomerKeysSound W N ↔ W ≤ 64 ∧ N < 2 ^ 20 :=
  ⟨fun h => ⟨le_of_customerKeysSound hN h, lt_of_customerKeysSound hW h⟩,
    fun h => customerKeysSound_of_le h.1 h.2⟩

/-- The largest run the key is wide enough for. -/
theorem packedCustomerOrderKey_full : CustomerKeysSound 64 (2 ^ 20 - 1) :=
  (packedCustomerOrderKey_iff 64 (2 ^ 20 - 1) (by decide) (by decide)).mpr ⟨by decide, by decide⟩

/-- With `kMaxWarehouses` warehouses two customers have the same keys. -/
theorem packedCustomerOrderKey_aliases : ¬ ∀ W N, 0 < W → W ≤ kMaxWarehouses → 0 < N →
    CustomerKeysSound W N := fun hall =>
  absurd (le_of_customerKeysSound (by decide)
    (hall kMaxWarehouses 3000 (by decide) le_rfl (by decide))) (by decide)

end Egad.Tpcc
