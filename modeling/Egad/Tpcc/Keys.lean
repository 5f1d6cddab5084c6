import Mathlib.Tactic.Ring
import Mathlib.Data.Nat.Notation

/-! # Keys of the growing tables (`benchmarks/tpcc_table.h`, `benchmarks/tpcc_flat_index.h`)

    `NewOrderKey` and `OrderKey` are bitfields of a 64-bit word, `OrderLineKey` has the line number
    below them:

        NewOrderKey, OrderKey   | w_id : 8 | d_id : 5 | o_id : 24 |
        OrderLineKey            | w_id : 8 | d_id : 5 | o_id : 24 | ol_number : 4 |

    The flat OrderLine index lays the same fields out densely, with a stride of `max_o` orders for
    each district (`denseIdxOL`). -/

namespace Egad.Tpcc

/-- The common layout of `NewOrderKey` and `OrderKey`. -/
def orderFields (o d w : ℕ) : ℕ := o % 2 ^ 24 + d % 2 ^ 5 * 2 ^ 24 + w % 2 ^ 8 * 2 ^ 29

/-- `NewOrderKey(no_o_id, no_d_id, no_w_id).base_key`. -/
def newOrderKey (o d w : ℕ) : ℕ := orderFields o d w

/-- `OrderKey(o_id, o_d_id, o_w_id).base_key`. -/
def orderKey (o d w : ℕ) : ℕ := orderFields o d w

/-- `OrderLineKey(ol_o_id, ol_d_id, ol_w_id, ol_number).base_key`. -/
def orderLineKey (o d w ol : ℕ) : ℕ :=
  ol % 2 ^ 4 + o % 2 ^ 24 * 2 ^ 4 + d % 2 ^ 5 * 2 ^ 28 + w % 2 ^ 8 * 2 ^ 33

/-! ### Reading the fields back -/

def olNumber (key : ℕ) : ℕ := key % 2 ^ 4
def olOId (key : ℕ) : ℕ := key / 2 ^ 4 % 2 ^ 24
def olDId (key : ℕ) : ℕ := key / 2 ^ 28 % 2 ^ 5
def olWId (key : ℕ) : ℕ := key / 2 ^ 33 % 2 ^ 8

def orderOId (key : ℕ) : ℕ := key % 2 ^ 24
def orderDId (key : ℕ) : ℕ := key / 2 ^ 24 % 2 ^ 5
def orderWId (key : ℕ) : ℕ := key / 2 ^ 29 % 2 ^ 8

/-- Ids of an order that the bitfields hold. -/
structure OrderOk (o d w : ℕ) : Prop where
  o : 1 ≤ o ∧ o < 2 ^ 24
  d : 1 ≤ d ∧ d ≤ 10
  w : 1 ≤ w ∧ w < 2 ^ 8

theorem orderFields_lt (o d w : ℕ) : orderFields o d w < 2 ^ 37 := by
  unfold orderFields; omega

theorem orderLineKey_lt (o d w ol : ℕ) : orderLineKey o d w ol < 2 ^ 41 := by
  unfold orderLineKey; omega

/-- An order key holds its fields. -/
theorem orderFields_decode {o d w : ℕ} (h : OrderOk o d w) :
    orderOId (orderFields o d w) = o ∧ orderDId (orderFields o d w) = d ∧
      orderWId (orderFields o d w) = w := by
  obtain ⟨⟨-, ho⟩, ⟨-, hd⟩, ⟨-, hw⟩⟩ := h
  unfold orderOId orderDId orderWId orderFields
  refine ⟨?_, ?_, ?_⟩ <;> omega

/-- An order line key holds its fields. -/
theorem orderLineKey_decode {o d w ol : ℕ} (h : OrderOk o d w) (hol : ol < 2 ^ 4) :
    olOId (orderLineKey o d w ol) = o ∧ olDId (orderLineKey o d w ol) = d ∧
      olWId (orderLineKey o d w ol) = w ∧ olNumber (orderLineKey o d w ol) = ol := by
  obtain ⟨⟨-, ho⟩, ⟨-, hd⟩, ⟨-, hw⟩⟩ := h
  unfold olOId olDId olWId olNumber orderLineKey
  refine ⟨?_, ?_, ?_, ?_⟩ <;> omega

/-- A district's field alone separates two order keys. -/
theorem orderFields_ne_of_district {o d w o' d' w' : ℕ} (hd : d ≤ 10) (hd' : d' ≤ 10) (hne : d ≠ d') :
    orderFields o d w ≠ orderFields o' d' w' := by
  unfold orderFields; omega

/-! ### The dense layout -/

/-- `denseIdxOL(w, d, o, ol, max_o)`; its 32 bits hold the index of every line as long as
    `W * 10 * max_o * 15` is at most `2 ^ 32`. -/
def denseIdxOL (w d o ol maxO : ℕ) : ℕ :=
  ((w - 1) * 10 + (d - 1)) * maxO * 15 + (o - 1) * 15 + (ol - 1)

/-- `denseIdxOL(key, max_o)`. -/
def denseOf (maxO key : ℕ) : ℕ := denseIdxOL (olWId key) (olDId key) (olOId key) (olNumber key) maxO

/-- An order line key whose fields are in range and whose order has a slot. -/
structure LineOk (maxO key : ℕ) : Prop where
  lt : key < 2 ^ 41
  o : 1 ≤ olOId key ∧ olOId key ≤ maxO
  d : 1 ≤ olDId key ∧ olDId key ≤ 10
  w : 1 ≤ olWId key
  ol : 1 ≤ olNumber key ∧ olNumber key ≤ 15

instance (maxO key : ℕ) : Decidable (LineOk maxO key) :=
  decidable_of_iff (key < 2 ^ 41 ∧ (1 ≤ olOId key ∧ olOId key ≤ maxO) ∧
      (1 ≤ olDId key ∧ olDId key ≤ 10) ∧ 1 ≤ olWId key ∧ (1 ≤ olNumber key ∧ olNumber key ≤ 15))
    ⟨fun ⟨h1, h2, h3, h4, h5⟩ => ⟨h1, h2, h3, h4, h5⟩, fun h => ⟨h.lt, h.o, h.d, h.w, h.ol⟩⟩

/-- A key is its fields. -/
theorem key_of_fields {key : ℕ} (h : key < 2 ^ 41) :
    key = orderLineKey (olOId key) (olDId key) (olWId key) (olNumber key) := by
  unfold orderLineKey olOId olDId olWId olNumber; omega

theorem mul_add_inj {m q q' r r' : ℕ} (hr : r < m) (hr' : r' < m) (h : q * m + r = q' * m + r') :
    q = q' ∧ r = r' := by
  rcases Nat.lt_trichotomy q q' with hlt | rfl | hlt
  · have := Nat.mul_le_mul_right m (Nat.succ_le_of_lt hlt)
    rw [Nat.succ_mul] at this
    omega
  · exact ⟨rfl, by omega⟩
  · have := Nat.mul_le_mul_right m (Nat.succ_le_of_lt hlt)
    rw [Nat.succ_mul] at this
    omega

/-- Fields in range are determined by the slot. -/
theorem denseIdxOL_inj {w d o ol w' d' o' ol' maxO : ℕ} (hw : 1 ≤ w) (hw' : 1 ≤ w')
    (hd : 1 ≤ d ∧ d ≤ 10) (hd' : 1 ≤ d' ∧ d' ≤ 10) (ho : 1 ≤ o ∧ o ≤ maxO) (ho' : 1 ≤ o' ∧ o' ≤ maxO)
    (hol : 1 ≤ ol ∧ ol ≤ 15) (hol' : 1 ≤ ol' ∧ ol' ≤ 15)
    (h : denseIdxOL w d o ol maxO = denseIdxOL w' d' o' ol' maxO) :
    w = w' ∧ d = d' ∧ o = o' ∧ ol = ol' := by
  have hsplit : ∀ w d o ol, denseIdxOL w d o ol maxO =
      (((w - 1) * 10 + (d - 1)) * maxO + (o - 1)) * 15 + (ol - 1) := by
    intro w d o ol; unfold denseIdxOL; ring
  rw [hsplit, hsplit] at h
  obtain ⟨h1, h2⟩ := mul_add_inj (by omega) (by omega) h
  obtain ⟨h3, h4⟩ := mul_add_inj (by omega) (by omega) h1
  obtain ⟨h5, h6⟩ := mul_add_inj (by omega) (by omega) h3
  omega

/-- Two order lines with a slot never share it. -/
theorem denseOf_inj {maxO k k' : ℕ} (hk : LineOk maxO k) (hk' : LineOk maxO k')
    (h : denseOf maxO k = denseOf maxO k') : k = k' := by
  obtain ⟨h1, h2, h3, h4⟩ := denseIdxOL_inj hk.w hk'.w hk.d hk'.d hk.o hk'.o hk.ol hk'.ol h
  rw [key_of_fields hk.lt, key_of_fields hk'.lt, h1, h2, h3, h4]

end Egad.Tpcc
