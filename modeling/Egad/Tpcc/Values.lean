import Egad.Lib.Layout
import Egad.Stager.Model
import Mathlib.Data.Fin.VecNotation
import Mathlib.Data.BitVec

/-! # The record values (`tpcc_table.h`) and the cooperative accesses of a warp (`gpu_storage.cuh`)

    Every value fits in the 32 words a warp reads at once. Byte arrays fill whole words and are kept
    as words. -/

namespace Egad.Tpcc.Exec
open Egad.Lib

abbrev Word := BitVec 32

/-- The name and address that end a warehouse and a district: 22 words. -/
structure Address where
  name : Fin 3 → Word
  street1 : Fin 5 → Word
  street2 : Fin 5 → Word
  city : Fin 5 → Word
  state : Fin 1 → Word
  zip : Fin 3 → Word

structure WarehouseValue where
  placeholder : Word
  wYtd : Word
  wTax : Word
  address : Address

structure DistrictValue where
  dYtd : Word
  dTax : Word
  dNextOId : Word
  address : Address

structure CustomerValue where
  cBalance : Word
  cYtdPayment : Word
  cPaymentCnt : Word
  cDeliveryCnt : Word
  cDiscount : Word
  cCreditLim : Word
  cCredit : Word

structure NewOrderValue where
  dummy : Word

structure OrderValue where
  oCId : Word
  oCarrierId : Word
  oOlCnt : Word
  oAllLocal : Word
  oEntryD : Word

structure OrderLineValue where
  olIId : Word
  olDeliveryD : Word
  olAmount : Word
  olSupplyWId : Word
  olQuantity : Word

structure ItemValue where
  iName : Fin 6 → Word
  iPrice : Word
  iData : Fin 13 → Word
  iImId : Word

structure StockValue where
  sQuantity : Word
  sYtd : Word
  sOrderCnt : Word
  sRemoteCnt : Word

/-! ### Layouts -/

def Address.word (v : Address) (i : ℕ) : Word :=
  if h : i < 3 then v.name ⟨i, h⟩
  else if h : i - 3 < 5 then v.street1 ⟨i - 3, h⟩
  else if h : i - 8 < 5 then v.street2 ⟨i - 8, h⟩
  else if h : i - 13 < 5 then v.city ⟨i - 13, h⟩
  else if h : i - 18 < 1 then v.state ⟨i - 18, h⟩
  else if h : i - 19 < 3 then v.zip ⟨i - 19, h⟩
  else 0

def Address.ofWords (f : ℕ → Word) : Address where
  name i := f i
  street1 i := f (3 + i)
  street2 i := f (8 + i)
  city i := f (13 + i)
  state i := f (18 + i)
  zip i := f (19 + i)

theorem Address.ofWords_word (v : Address) : ofWords v.word = v := by
  obtain ⟨name, street1, street2, city, state, zip⟩ := v
  simp only [ofWords, word, mk.injEq]
  refine ⟨?_, ?_, ?_, ?_, ?_, ?_⟩ <;>
  · funext i
    have := i.isLt
    simp (disch := omega) only [dif_pos, dif_neg, Fin.eta, Nat.add_sub_cancel_left]

theorem Address.ofWords_congr {f g : ℕ → Word} (h : ∀ i < 22, f i = g i) : ofWords f = ofWords g := by
  simp only [ofWords, mk.injEq]
  refine ⟨?_, ?_, ?_, ?_, ?_, ?_⟩ <;>
  · funext i
    exact h _ (by omega)

/-- Three words and an address: a warehouse or a district. -/
def wordBefore (a b c : Word) (v : Address) : ℕ → Word
  | 0 => a
  | 1 => b
  | 2 => c
  | i + 3 => v.word i

def warehouseLayout : Layout WarehouseValue Word where
  size := 25
  word v := wordBefore v.placeholder v.wYtd v.wTax v.address
  ofWords f := ⟨f 0, f 1, f 2, Address.ofWords fun i => f (i + 3)⟩
  ofWords_word v := by simp only [wordBefore, Address.ofWords_word]
  ofWords_congr h := by
    rw [h 0 (by decide), h 1 (by decide), h 2 (by decide),
      Address.ofWords_congr fun i hi => h (i + 3) (by omega)]

def districtLayout : Layout DistrictValue Word where
  size := 25
  word v := wordBefore v.dYtd v.dTax v.dNextOId v.address
  ofWords f := ⟨f 0, f 1, f 2, Address.ofWords fun i => f (i + 3)⟩
  ofWords_word v := by simp only [wordBefore, Address.ofWords_word]
  ofWords_congr h := by
    rw [h 0 (by decide), h 1 (by decide), h 2 (by decide),
      Address.ofWords_congr fun i hi => h (i + 3) (by omega)]

def customerLayout : Layout CustomerValue Word where
  size := 7
  word v i := [v.cBalance, v.cYtdPayment, v.cPaymentCnt, v.cDeliveryCnt, v.cDiscount, v.cCreditLim,
    v.cCredit].getD i 0
  ofWords f := ⟨f 0, f 1, f 2, f 3, f 4, f 5, f 6⟩
  ofWords_word _ := rfl
  ofWords_congr h := by
    rw [h 0 (by decide), h 1 (by decide), h 2 (by decide), h 3 (by decide), h 4 (by decide),
      h 5 (by decide), h 6 (by decide)]

def newOrderLayout : Layout NewOrderValue Word where
  size := 1
  word v i := [v.dummy].getD i 0
  ofWords f := ⟨f 0⟩
  ofWords_word _ := rfl
  ofWords_congr h := by rw [h 0 (by decide)]

def orderLayout : Layout OrderValue Word where
  size := 5
  word v i := [v.oCId, v.oCarrierId, v.oOlCnt, v.oAllLocal, v.oEntryD].getD i 0
  ofWords f := ⟨f 0, f 1, f 2, f 3, f 4⟩
  ofWords_word _ := rfl
  ofWords_congr h := by
    rw [h 0 (by decide), h 1 (by decide), h 2 (by decide), h 3 (by decide), h 4 (by decide)]

def orderLineLayout : Layout OrderLineValue Word where
  size := 5
  word v i := [v.olIId, v.olDeliveryD, v.olAmount, v.olSupplyWId, v.olQuantity].getD i 0
  ofWords f := ⟨f 0, f 1, f 2, f 3, f 4⟩
  ofWords_word _ := rfl
  ofWords_congr h := by
    rw [h 0 (by decide), h 1 (by decide), h 2 (by decide), h 3 (by decide), h 4 (by decide)]

def stockLayout : Layout StockValue Word where
  size := 4
  word v i := [v.sQuantity, v.sYtd, v.sOrderCnt, v.sRemoteCnt].getD i 0
  ofWords f := ⟨f 0, f 1, f 2, f 3⟩
  ofWords_word _ := rfl
  ofWords_congr h := by rw [h 0 (by decide), h 1 (by decide), h 2 (by decide), h 3 (by decide)]

/-- Read for the price the CPU executor adds up; no word of it is written anywhere. -/
def itemLayout : Layout ItemValue Word where
  size := 21
  word v i :=
    if h : i < 6 then v.iName ⟨i, h⟩
    else if i = 6 then v.iPrice
    else if h : i - 7 < 13 then v.iData ⟨i - 7, h⟩
    else v.iImId
  ofWords f := ⟨fun i => f i, f 6, fun i => f (7 + i), f 20⟩
  ofWords_word v := by
    obtain ⟨iName, iPrice, iData, iImId⟩ := v
    simp only [ItemValue.mk.injEq]
    refine ⟨?_, rfl, ?_, rfl⟩
    · funext i
      simp only [i.isLt, dif_pos, Fin.eta]
    · funext i
      have := i.isLt
      simp (disch := omega) only [dif_pos, dif_neg, if_neg, Fin.eta, Nat.add_sub_cancel_left]
  ofWords_congr h := by
    simp only [ItemValue.mk.injEq]
    exact ⟨funext fun i => h _ (by omega), h 6 (by decide), funext fun i => h _ (by omega),
      h 20 (by decide)⟩

/-! ### Tables and accesses -/

/-- A table as a transaction sees it, with the values written to it in order. -/
structure Table (α : Type) where
  rows : ℕ → α
  log : List (ℕ × α)

/-- `writeToTable`. -/
def Table.write {α : Type} (t : Table α) (id : ℕ) (v : α) : Table α :=
  ⟨Function.update t.rows id v, t.log ++ [(id, v)]⟩

structure Tables where
  warehouse : Table WarehouseValue
  district : Table DistrictValue
  customer : Table CustomerValue
  newOrder : Table NewOrderValue
  order : Table OrderValue
  orderLine : Table OrderLineValue
  item : Table ItemValue
  stock : Table StockValue

/-- The `result` registers of the lanes of a warp. -/
abbrev Lanes := ℕ → Word

section
variable {α : Type} (L : Layout α Word)

/-- `gpuReadFromTableCoop`: an absent record leaves the registers as they are. -/
def gpuReadFromTableCoop (t : Table α) (id : ℕ) (result : Lanes) : Lanes :=
  if id = Stager.absent then result else L.lanes (t.rows id)

/-- `gpuWriteToTableCoop`. -/
def gpuWriteToTableCoop (t : Table α) (id : ℕ) (data : Lanes) : Table α :=
  if id = Stager.absent then t else t.write id (L.ofWords data)

variable {L} {t : Table α} {id : ℕ}

theorem gpuRead_of_ne (h : id ≠ Stager.absent) (result : Lanes) :
    gpuReadFromTableCoop L t id result = L.lanes (t.rows id) := if_neg h

theorem gpuWrite_of_ne (h : id ≠ Stager.absent) (data : Lanes) :
    gpuWriteToTableCoop L t id data = t.write id (L.ofWords data) := if_neg h

theorem gpuRead_absent (result : Lanes) :
    gpuReadFromTableCoop L t Stager.absent result = result := if_pos rfl

theorem gpuWrite_absent (data : Lanes) :
    gpuWriteToTableCoop L t Stager.absent data = t := if_pos rfl

end

/-- `if (lane_id == lane) result = x;` -/
def setLane (lane : ℕ) (x : Word) (result : Lanes) : Lanes := Function.update result lane x

/-- `if (lane_id == lane) result += x;` -/
def addLane (lane : ℕ) (x : Word) (result : Lanes) : Lanes :=
  Function.update result lane (result lane + x)

/-! ### Word offsets of the fields -/

def wYtdOffset : ℕ := 1
def dYtdOffset : ℕ := 0
def dNextOIdOffset : ℕ := 2
def cBalanceOffset : ℕ := 0
def cYtdPaymentOffset : ℕ := 1
def cPaymentCntOffset : ℕ := 2
def cDeliveryCntOffset : ℕ := 3
def oCIdOffset : ℕ := 0
def oCarrierIdOffset : ℕ := 1
def oOlCntOffset : ℕ := 2
def olIIdOffset : ℕ := 0
def olDeliveryDOffset : ℕ := 1
def olAmountOffset : ℕ := 2
def olSupplyWIdOffset : ℕ := 3
def olQuantityOffset : ℕ := 4
def sQuantityOffset : ℕ := 0

/-! ### Changing one word is changing one field -/

theorem address_update {k : ℕ} (hk : k < 3) (a b c x : Word) (v : Address) :
    Address.ofWords (fun i => Function.update (wordBefore a b c v) k x (i + 3)) = v := by
  conv_rhs => rw [← v.ofWords_word]
  refine Address.ofWords_congr fun i _ => ?_
  rw [Function.update_of_ne (by omega), wordBefore]

theorem warehouse_setWord_wYtd (v : WarehouseValue) (x : Word) :
    warehouseLayout.setWord v wYtdOffset x = { v with wYtd := x } :=
  congrArg (WarehouseValue.mk v.placeholder x v.wTax) (address_update (by decide) _ _ _ _ _)

theorem district_setWord_dYtd (v : DistrictValue) (x : Word) :
    districtLayout.setWord v dYtdOffset x = { v with dYtd := x } :=
  congrArg (DistrictValue.mk x v.dTax v.dNextOId) (address_update (by decide) _ _ _ _ _)

theorem district_setWord_dNextOId (v : DistrictValue) (x : Word) :
    districtLayout.setWord v dNextOIdOffset x = { v with dNextOId := x } :=
  congrArg (DistrictValue.mk v.dYtd v.dTax x) (address_update (by decide) _ _ _ _ _)

end Egad.Tpcc.Exec
