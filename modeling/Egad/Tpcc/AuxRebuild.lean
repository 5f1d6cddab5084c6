import Egad.Tpcc.OrderRecords
import Egad.Tpcc.AuxIndex
import Egad.Stager.Slots
import Egad.Lib.Blocks

/-! # Rebuilding the auxiliary index (`rebuildFromShadow` in `benchmarks/tpcc_gpu_aux_index.cu`)

    A recover process loads the initial orders again and reads the orders of the run from the shadow
    and the rolled-back primary store:

        shadow_o[i]   ──▶ crid ──▶ o_c_id, o_ol_cnt ──▶ order_customers, order_num_items
        shadow_ol[i]  ──▶ crid ──▶ ol_i_id          ──▶ order_items
        order_customers ──atomicMax──▶ d_latest_oid

    The number `i` decides the order: with the strides of the shadow it is decoded to `(w, d, o)`, and
    the values go to `(w, d)`'s slot `o`. A line whose order id is behind the stride is decoded as a
    line of the next district. -/

namespace Egad.Tpcc
open Egad.Lib Egad.Timeline

/-! ### The loops of `rebuildFromShadow` -/

/-- `(rec.version1 >= rec.version2) ? rec.value1 : rec.value2`. -/
def latestValue {V : Type} (rec : Stager.Rec V) : V :=
  if rec.version2 ≤ rec.version1 then rec.value1 else rec.value2

/-- `(w, d, o)` of a number in `shadow_o`. -/
def decodeOrderId (maxO i : ℕ) : OrderId :=
  let perWarehouse := 10 * maxO
  let rem := i % perWarehouse
  ⟨i / perWarehouse + 1, rem / maxO + 1, rem % maxO + 1⟩

/-- `(w, d, o)` and the line of a number in `shadow_ol`. -/
def decodeLineId (maxO i : ℕ) : OrderId × ℕ :=
  let perDistrict := maxO * 15
  let perWarehouse := 10 * perDistrict
  let rem1 := i % perWarehouse
  let rem2 := rem1 % perDistrict
  (⟨i / perWarehouse + 1, rem1 / perDistrict + 1, rem2 / 15 + 1⟩, rem2 % 15 + 1)

/-- A turn of the loop over `shadow_o` that writes. -/
structure OrderWrite where
  id : OrderId
  crid : ℕ
  slot : ℕ
  oCId : ℕ
  oOlCnt : ℕ

/-- A turn of the loop over `shadow_ol` that writes. -/
structure LineWrite where
  id : OrderId
  ol : ℕ
  crid : ℕ
  slot : ℕ
  olIId : ℕ

section
variable (cfg : Config)

/-- One turn of the loop over `shadow_o`; `none` is a `continue`. -/
def orderWrite (shadowO : ℕ → ℕ) (cpuOrders : ℕ → Stager.Rec Exec.OrderValue) (i : ℕ) :
    Option OrderWrite :=
  let crid := shadowO i
  if crid = kAbsent then none
  else if crid < cfg.numWarehouses * 10 * 3000 then none
  else
    let id := decodeOrderId (computeOrdersMaxO cfg) i
    let slot := auxSlot cfg id.w id.d id.o
    if auxNumSlots cfg ≤ slot then none
    else
      let v := latestValue (cpuOrders crid)
      some ⟨id, crid, slot, v.oCId.toNat, v.oOlCnt.toNat⟩

/-- One turn of the loop over `shadow_ol`. -/
def lineWrite (shadowOl : ℕ → ℕ) (cpuOls : ℕ → Stager.Rec Exec.OrderLineValue) (i : ℕ) :
    Option LineWrite :=
  let crid := shadowOl i
  if crid = kAbsent then none
  else if crid < cfg.numWarehouses * 10 * 3000 * 15 then none
  else
    let (id, ol) := decodeLineId (maxOOl cfg) i
    let slot := auxSlot cfg id.w id.d id.o
    if auxNumSlots cfg ≤ slot then none
    else if ol < 1 ∨ 15 < ol then none
    else some ⟨id, ol, crid, slot, (latestValue (cpuOls crid)).olIId.toNat⟩

def orderWrites (s : Shadow) (cpuOrders : ℕ → Stager.Rec Exec.OrderValue) : List OrderWrite :=
  (List.range (shadowSize cfg)).filterMap (orderWrite cfg s.o cpuOrders)

def lineWrites (s : Shadow) (cpuOls : ℕ → Stager.Rec Exec.OrderLineValue) : List LineWrite :=
  (List.range (cfg.numWarehouses * 10 * maxOOl cfg * 15)).filterMap (lineWrite cfg s.ol cpuOls)

end

def OrderLog.writeOrder (log : OrderLog) (x : OrderWrite) : OrderLog :=
  { log with
    customers := Function.update log.customers x.slot x.oCId
    numItems := Function.update log.numItems x.slot x.oOlCnt }

def OrderLog.writeLine (log : OrderLog) (x : LineWrite) : OrderLog :=
  { log with
    items := Function.update log.items x.slot
      (Function.update (log.items x.slot) (x.ol - 1) x.olIId) }

/-- The host arrays after the two loops. -/
def rebuildLog (cfg : Config) (s : Shadow) (cpuOrders : ℕ → Stager.Rec Exec.OrderValue)
    (cpuOls : ℕ → Stager.Rec Exec.OrderLineValue) (log : OrderLog) : OrderLog :=
  (lineWrites cfg s cpuOls).foldl OrderLog.writeLine
    ((orderWrites cfg s cpuOrders).foldl OrderLog.writeOrder log)

/-- The entry that thread `tid` of `k_update_latest_oid_from_order_customers` raises to `o_id`. -/
def latestWrite (numSlotsPerDistrict : ℕ) (orderCustomers : ℕ → ℕ) (tid : ℕ) : Option ℕ :=
  let c := orderCustomers tid
  if c = 0 ∨ 3000 < c then none else some (tid / numSlotsPerDistrict * 3000 + (c - 1))

/-- `rebuildFromShadow`; `threads` is the order in which the atomic maxima take effect. -/
def rebuildFromShadow (cfg : Config) (useFlatAux : Bool) (items : ℕ → ℕ → ℕ) (mem : ℕ → ℕ)
    (threads : List ℕ) (s : Shadow) (cpuOrders : ℕ → Stager.Rec Exec.OrderValue)
    (cpuOls : ℕ → Stager.Rec Exec.OrderLineValue) : Except String FlatAux :=
  if !useFlatAux then
    .error "TpccGpuAuxIndex::rebuildFromShadow: only flat-aux path is supported; set EPIC_FLAT_AUX_INDEX=1 for the recovery path."
  else
    let f := FlatAux.load cfg.auxNumSlotsPerDistrict cfg.numWarehouses items mem
    let log := rebuildLog cfg s cpuOrders cpuOls f.log
    .ok ⟨log, threads.foldl (maxStep (latestWrite cfg.auxNumSlotsPerDistrict log.customers)
      (· % cfg.auxNumSlotsPerDistrict)) f.latestOid⟩

/-- With the flat form there is no error, and the arrays are those of the two loops. -/
theorem rebuildFromShadow_flat (cfg : Config) (items : ℕ → ℕ → ℕ) (mem : ℕ → ℕ) (threads : List ℕ)
    (s : Shadow) (cpuOrders : ℕ → Stager.Rec Exec.OrderValue)
    (cpuOls : ℕ → Stager.Rec Exec.OrderLineValue) :
    ∃ f, rebuildFromShadow cfg true items mem threads s cpuOrders cpuOls = .ok f ∧
      f.log = rebuildLog cfg s cpuOrders cpuOls
        (initialLog cfg.auxNumSlotsPerDistrict cfg.numWarehouses items) := ⟨_, rfl, rfl⟩

/-- The shadow of a recover process: the cursors of the cut over the durable arrays. -/
def recoverShadow (cfg : Config) (log : Durable) (f : FreeStarts) (deleteCount : ℕ) : Shadow :=
  applyNoDeletesFromDurable cfg log deleteCount
    (reconstructInsertsFromDurable cfg log f (loadInitialData cfg))

/-! ### Slots -/

section
variable {cfg : Config} {maxO w d o ol : ℕ}

theorem decodeOrderId_dense (hw : 1 ≤ w) (hd : 1 ≤ d ∧ d ≤ 10) (ho : 1 ≤ o ∧ o ≤ maxO) :
    decodeOrderId maxO (denseIdxO w d o maxO) = ⟨w, d, o⟩ := by
  have hblock : (d - 1) * maxO + (o - 1) < 10 * maxO := by
    have := Nat.mul_le_mul_right maxO (show d - 1 ≤ 9 by omega)
    omega
  have hsplit : denseIdxO w d o maxO = (w - 1) * (10 * maxO) + ((d - 1) * maxO + (o - 1)) := by
    rw [denseIdxO]
    ring
  obtain ⟨hdiv, hmod⟩ := div_mod_of_lt (q := w - 1) hblock
  obtain ⟨hdiv', hmod'⟩ := div_mod_of_lt (q := d - 1) (show o - 1 < maxO by omega)
  rw [decodeOrderId, hsplit, hdiv, hmod, hdiv', hmod', Nat.sub_add_cancel hw, Nat.sub_add_cancel hd.1,
    Nat.sub_add_cancel ho.1]

theorem decodeLineId_dense (hw : 1 ≤ w) (hd : 1 ≤ d ∧ d ≤ 10) (ho : 1 ≤ o ∧ o ≤ maxO)
    (hol : 1 ≤ ol ∧ ol ≤ 15) :
    decodeLineId maxO (denseIdxOL w d o ol maxO) = (⟨w, d, o⟩, ol) := by
  have hline : (o - 1) * 15 + (ol - 1) < maxO * 15 := by omega
  have hblock : (d - 1) * (maxO * 15) + ((o - 1) * 15 + (ol - 1)) < 10 * (maxO * 15) := by
    have := Nat.mul_le_mul_right (maxO * 15) (show d - 1 ≤ 9 by omega)
    omega
  have hsplit : denseIdxOL w d o ol maxO =
      (w - 1) * (10 * (maxO * 15)) + ((d - 1) * (maxO * 15) + ((o - 1) * 15 + (ol - 1))) := by
    rw [denseIdxOL]
    ring
  obtain ⟨hdiv, hmod⟩ := div_mod_of_lt (q := w - 1) hblock
  obtain ⟨hdiv', hmod'⟩ := div_mod_of_lt (q := d - 1) hline
  obtain ⟨hdiv'', hmod''⟩ := div_mod_of_lt (q := o - 1) (show ol - 1 < 15 by omega)
  simp only [decodeLineId]
  rw [hsplit, hdiv, hmod, hdiv', hmod', hdiv'', hmod'', Nat.sub_add_cancel hw, Nat.sub_add_cancel hd.1,
    Nat.sub_add_cancel ho.1, Nat.sub_add_cancel hol.1]

theorem auxSlot_eq_cacheIdx (hn : NoWrap cfg) (hw : 1 ≤ w ∧ w ≤ cfg.numWarehouses)
    (hd : 1 ≤ d ∧ d ≤ 10) (ho : o < cfg.auxNumSlotsPerDistrict) :
    auxSlot cfg w d o = cacheIdx cfg.auxNumSlotsPerDistrict w d o := by
  rw [auxSlot_eq hn hw hd ho, cacheIdx, districtId, Nat.add_comm (d - 1)]

theorem cacheIdx_inj {stride w' d' o' : ℕ} (hw : 1 ≤ w) (hd : 1 ≤ d ∧ d ≤ 10) (ho : o < stride)
    (hw' : 1 ≤ w') (hd' : 1 ≤ d' ∧ d' ≤ 10) (ho' : o' < stride)
    (h : cacheIdx stride w d o = cacheIdx stride w' d' o') : w = w' ∧ d = d' ∧ o = o' := by
  rw [cacheIdx, cacheIdx, districtId, districtId, Nat.add_comm (d - 1), Nat.add_comm (d' - 1)] at h
  exact dense_inj hw hw' hd hd' ho ho' h

/-- The slots of a district. -/
def InDistrict (cfg : Config) (w d slot : ℕ) : Prop :=
  districtId w d * cfg.auxNumSlotsPerDistrict ≤ slot ∧
    slot < (districtId w d + 1) * cfg.auxNumSlotsPerDistrict

theorem inDistrict_cacheIdx (ho : o < cfg.auxNumSlotsPerDistrict) :
    InDistrict cfg w d (cacheIdx cfg.auxNumSlotsPerDistrict w d o) := by
  rw [InDistrict, cacheIdx, Nat.add_mul, Nat.one_mul]
  omega

end

/-! ### The shadow at the cut -/

/-- NewOrders whose orders have slots in the shadow and in the auxiliary arrays, each inserted once. -/
structure OrdersOk (cfg : Config) (txns : List TxnInput) : Prop where
  order : ∀ {w d o c items}, .newOrder w d o c items ∈ txns →
    CustomerOk cfg.numWarehouses w d c ∧ (3000 < o ∧ o < cfg.auxNumSlotsPerDistrict) ∧
    o ≤ computeOrdersMaxO cfg ∧ o ≤ maxOOl cfg
  lines : ∀ {w d o c items}, .newOrder w d o c items ∈ txns →
    items.length ≤ 15 ∧ ∀ y ∈ items, y.iId < 2 ^ 32
  once : ∀ {w d o c items c' items'}, .newOrder w d o c items ∈ txns →
    .newOrder w d o c' items' ∈ txns → c = c' ∧ items = items'

/-- NewOrders whose orders have slots of their own in the auxiliary arrays. -/
structure OrdersPlaced (stride : ℕ) (txns : List TxnInput) : Prop where
  order : ∀ {w d o c items}, .newOrder w d o c items ∈ txns → 1 ≤ w ∧ (1 ≤ d ∧ d ≤ 10) ∧ o < stride
  once : ∀ {w d o c items c' items'}, .newOrder w d o c items ∈ txns →
    .newOrder w d o c' items' ∈ txns → c = c' ∧ items = items'

/-- Transactions that insert different orders insert each order once. -/
theorem once_of_pairwise {txns : List TxnInput} (hpw : txns.Pairwise OtherOrder)
    {w d o c items c' items'} (h : .newOrder w d o c items ∈ txns)
    (h' : .newOrder w d o c' items' ∈ txns) : c = c' ∧ items = items' := by
  by_contra hne
  have hsymm : Std.Symm OtherOrder := ⟨fun a b hab w d o hb ha => hab w d o ha hb⟩
  have hdiff : TxnInput.newOrder w d o c items ≠ .newOrder w d o c' items' := fun he => by
    obtain ⟨-, -, -, rfl, rfl⟩ := TxnInput.newOrder.inj he
    exact hne ⟨rfl, rfl⟩
  exact hpw.forall h h' hdiff w d o ⟨rfl, rfl, rfl⟩ ⟨rfl, rfl, rfl⟩

/-- The numbers in use in the shadow are those of the loaded orders and of the NewOrders, and a
    NewOrder's lead to the rows of its order and lines. -/
structure Mirrors (cfg : Config) (g : GpuIndex) (txns : List TxnInput) (s : Shadow) : Prop where
  order : ∀ {w d o c items}, .newOrder w d o c items ∈ txns →
    let row := g.index.order.store.lookup (orderKey o d w)
    s.o (denseIdxO w d o (computeOrdersMaxO cfg)) = row ∧ row ≠ kAbsent ∧
      cfg.numWarehouses * 10 * 3000 ≤ row
  orderUsed : ∀ {i}, s.o i ≠ kAbsent →
    (s.o i < cfg.numWarehouses * 10 * 3000 ∧ ∃ x ∈ initialOrders cfg.numWarehouses,
      i = denseIdxO x.w x.d x.o (computeOrdersMaxO cfg)) ∨
    ∃ w d o c items, .newOrder w d o c items ∈ txns ∧ i = denseIdxO w d o (computeOrdersMaxO cfg)
  line : ∀ {w d o c items}, .newOrder w d o c items ∈ txns → ∀ {j y}, items[j]? = some y →
    let row := g.index.orderLine.store.lookup (orderLineKey o d w (j + 1))
    s.ol (denseIdxOL w d o (j + 1) (maxOOl cfg)) = row ∧ row ≠ kAbsent ∧
      cfg.numWarehouses * 10 * 3000 * 15 ≤ row
  lineUsed : ∀ {i}, s.ol i ≠ kAbsent → s.ol i < cfg.numWarehouses * 10 * 3000 * 15 ∨
    ∃ w d o c items j y, .newOrder w d o c items ∈ txns ∧ items[j]? = some y ∧
      i = denseIdxOL w d o (j + 1) (maxOOl cfg)

section
variable {cfg : Config} {g : GpuIndex} {txns : List TxnInput} {s : Shadow}
  {cpuOrders : ℕ → Stager.Rec Exec.OrderValue} {cpuOls : ℕ → Stager.Rec Exec.OrderLineValue}

/-- The turn of the loop over `shadow_o` that reads a NewOrder's order. -/
def orderWriteOf (cfg : Config) (g : GpuIndex) (cpuOrders : ℕ → Stager.Rec Exec.OrderValue)
    (w d o : ℕ) : OrderWrite :=
  let row := g.index.order.store.lookup (orderKey o d w)
  ⟨⟨w, d, o⟩, row, cacheIdx cfg.auxNumSlotsPerDistrict w d o, (latestValue (cpuOrders row)).oCId.toNat,
    (latestValue (cpuOrders row)).oOlCnt.toNat⟩

/-- The turn of the loop over `shadow_ol` that reads line `j` of a NewOrder. -/
def lineWriteOf (cfg : Config) (g : GpuIndex) (cpuOls : ℕ → Stager.Rec Exec.OrderLineValue)
    (w d o j : ℕ) : LineWrite :=
  let row := g.index.orderLine.store.lookup (orderLineKey o d w (j + 1))
  ⟨⟨w, d, o⟩, j + 1, row, cacheIdx cfg.auxNumSlotsPerDistrict w d o, (latestValue (cpuOls row)).olIId.toNat⟩

theorem auxSlot_lt {w d o : ℕ} (hn : NoWrap cfg) (hw : 1 ≤ w ∧ w ≤ cfg.numWarehouses)
    (hd : 1 ≤ d ∧ d ≤ 10) (ho : o < cfg.auxNumSlotsPerDistrict) :
    ¬ auxNumSlots cfg ≤ auxSlot cfg w d o := by
  rw [auxNumSlots_eq hn, auxSlot_eq hn hw hd ho, not_le]
  exact dense_lt hw hd ho

/-- The loop over `shadow_o` has one writing turn for each NewOrder up to the cut, and no others. -/
theorem mem_orderWrites (hn : NoWrap cfg) (ho : OrdersOk cfg txns) (hm : Mirrors cfg g txns s)
    {x : OrderWrite} : x ∈ orderWrites cfg s cpuOrders ↔ ∃ w d o c items,
      .newOrder w d o c items ∈ txns ∧ x = orderWriteOf cfg g cpuOrders w d o := by
  have hturn : ∀ {w d o c items}, .newOrder w d o c items ∈ txns →
      orderWrite cfg s.o cpuOrders (denseIdxO w d o (computeOrdersMaxO cfg)) =
        some (orderWriteOf cfg g cpuOrders w d o) := by
    intro w d o c items hmem
    obtain ⟨⟨hw, hd, -⟩, ⟨h3000, haux⟩, hmax, -⟩ := ho.order hmem
    obtain ⟨hrow, hpres, hnew⟩ := hm.order hmem
    rw [orderWrite, hrow]
    simp only
    rw [if_neg hpres, if_neg (by omega), decodeOrderId_dense hw.1 hd (by omega),
      if_neg (auxSlot_lt hn hw hd haux), auxSlot_eq_cacheIdx hn hw hd haux]
    rfl
  rw [orderWrites, List.mem_filterMap]
  constructor
  · rintro ⟨i, -, hi⟩
    have hused : s.o i ≠ kAbsent := fun h => by simp [orderWrite, h] at hi
    rcases hm.orderUsed hused with ⟨hlt, -⟩ | ⟨w, d, o, c, items, hmem, rfl⟩
    · simp [orderWrite, hlt] at hi
    · rw [hturn hmem] at hi
      exact ⟨w, d, o, c, items, hmem, (Option.some.inj hi).symm⟩
  · rintro ⟨w, d, o, c, items, hmem, rfl⟩
    obtain ⟨⟨hw, hd, -⟩, ⟨h3000, -⟩, hmax, -⟩ := ho.order hmem
    refine ⟨_, List.mem_range.mpr ?_, hturn hmem⟩
    rw [shadowSize, ordersCapacity_eq hn (hw.1.trans hw.2)]
    exact dense_lt hw hd (by omega)

theorem denseIdxOL_lt {W maxO w d o ol : ℕ} (hw : 1 ≤ w ∧ w ≤ W) (hd : 1 ≤ d ∧ d ≤ 10)
    (ho : 1 ≤ o ∧ o ≤ maxO) (hol : 1 ≤ ol ∧ ol ≤ 15) :
    denseIdxOL w d o ol maxO < W * 10 * maxO * 15 := by
  have h := dense_lt hw hd (show (o - 1) * 15 + (ol - 1) < maxO * 15 by omega)
  rwa [denseIdxOL_row, Nat.mul_assoc (W * 10)]

/-- The loop over `shadow_ol` has one writing turn for each line of these NewOrders. -/
theorem mem_lineWrites (hn : NoWrap cfg) (ho : OrdersOk cfg txns) (hm : Mirrors cfg g txns s)
    {x : LineWrite} : x ∈ lineWrites cfg s cpuOls ↔ ∃ w d o c items j y,
      .newOrder w d o c items ∈ txns ∧ items[j]? = some y ∧
        x = lineWriteOf cfg g cpuOls w d o j := by
  have hline : ∀ {w d o c items j y}, .newOrder w d o c items ∈ txns → items[j]? = some y →
      1 ≤ j + 1 ∧ j + 1 ≤ 15 := by
    intro w d o c items j y hmem hy
    have hj := (List.getElem?_eq_some_iff.mp hy).1
    have := (ho.lines hmem).1
    omega
  have hturn : ∀ {w d o c items j y}, .newOrder w d o c items ∈ txns → items[j]? = some y →
      lineWrite cfg s.ol cpuOls (denseIdxOL w d o (j + 1) (maxOOl cfg)) =
        some (lineWriteOf cfg g cpuOls w d o j) := by
    intro w d o c items j y hmem hy
    obtain ⟨⟨hw, hd, -⟩, ⟨h3000, haux⟩, -, hmax⟩ := ho.order hmem
    obtain ⟨hrow, hpres, hnew⟩ := hm.line hmem hy
    have hol := hline hmem hy
    rw [lineWrite, hrow]
    simp only
    rw [if_neg hpres, if_neg (by omega), decodeLineId_dense hw.1 hd (by omega) hol]
    simp only
    rw [if_neg (auxSlot_lt hn hw hd haux), if_neg (by omega), auxSlot_eq_cacheIdx hn hw hd haux]
    rfl
  rw [lineWrites, List.mem_filterMap]
  constructor
  · rintro ⟨i, -, hi⟩
    have hused : s.ol i ≠ kAbsent := fun h => by simp [lineWrite, h] at hi
    rcases hm.lineUsed hused with hlt | ⟨w, d, o, c, items, j, y, hmem, hy, rfl⟩
    · simp [lineWrite, hlt] at hi
    · rw [hturn hmem hy] at hi
      exact ⟨w, d, o, c, items, j, y, hmem, hy, (Option.some.inj hi).symm⟩
  · rintro ⟨w, d, o, c, items, j, y, hmem, hy, rfl⟩
    obtain ⟨⟨hw, hd, -⟩, ⟨h3000, -⟩, -, hmax⟩ := ho.order hmem
    refine ⟨_, List.mem_range.mpr (denseIdxOL_lt hw hd (by omega) (hline hmem hy)), hturn hmem hy⟩

end

/-! ### The order log -/

/-- A log that holds the orders of `txns` at their slots and is `log₀` elsewhere. -/
structure LogOf (stride : ℕ) (txns : List TxnInput) (log₀ log : OrderLog) : Prop where
  order : ∀ {w d o c items}, .newOrder w d o c items ∈ txns →
    log.numItems (cacheIdx stride w d o) = items.length ∧ log.customers (cacheIdx stride w d o) = c ∧
    ∀ j y, items[j]? = some y → log.items (cacheIdx stride w d o) j = y.iId
  other : ∀ {idx}, (∀ {w d o c items}, .newOrder w d o c items ∈ txns → cacheIdx stride w d o ≠ idx) →
    log.numItems idx = log₀.numItems idx ∧ log.customers idx = log₀.customers idx ∧
    log.items idx = log₀.items idx

section
variable {log : OrderLog}

theorem writeOrders_customers (xs : List OrderWrite) : (xs.foldl OrderLog.writeOrder log).customers =
    writeAll log.customers (xs.map fun x => (x.slot, x.oCId)) := by
  induction xs generalizing log with
  | nil => rfl
  | cons x xs ih => exact ih

theorem writeOrders_numItems (xs : List OrderWrite) : (xs.foldl OrderLog.writeOrder log).numItems =
    writeAll log.numItems (xs.map fun x => (x.slot, x.oOlCnt)) := by
  induction xs generalizing log with
  | nil => rfl
  | cons x xs ih => exact ih

theorem writeOrders_items (xs : List OrderWrite) :
    (xs.foldl OrderLog.writeOrder log).items = log.items := by
  induction xs generalizing log with
  | nil => rfl
  | cons x xs ih => exact ih

theorem writeLines_others (xs : List LineWrite) :
    (xs.foldl OrderLog.writeLine log).customers = log.customers ∧
      (xs.foldl OrderLog.writeLine log).numItems = log.numItems := by
  induction xs generalizing log with
  | nil => exact ⟨rfl, rfl⟩
  | cons x xs ih => exact ih

theorem writeLines_items (xs : List LineWrite) (idx j : ℕ) :
    (xs.foldl OrderLog.writeLine log).items idx j =
      writeAll (fun p : ℕ × ℕ => log.items p.1 p.2)
        (xs.map fun x => ((x.slot, x.ol - 1), x.olIId)) (idx, j) := by
  induction xs generalizing log with
  | nil => rfl
  | cons x xs ih =>
    rw [List.foldl_cons, ih, List.map_cons]
    conv_rhs => rw [writeAll, List.foldl_cons, ← writeAll]
    congr 1
    funext p
    obtain ⟨a, b⟩ := p
    simp only [OrderLog.writeLine]
    by_cases ha : a = x.slot
    · subst ha
      rw [Function.update_self]
      by_cases hb : b = x.ol - 1
      · subst hb
        rw [Function.update_self, Function.update_self]
      · rw [Function.update_of_ne hb, Function.update_of_ne fun h => hb (Prod.mk.inj h).2]
    · rw [Function.update_of_ne ha, Function.update_of_ne fun h => ha (Prod.mk.inj h).1]

end

/-- The rows of the NewOrders hold their words in the primary store. -/
structure Reads (g : GpuIndex) (txns : List TxnInput) (cpuOrders : ℕ → Stager.Rec Exec.OrderValue)
    (cpuOls : ℕ → Stager.Rec Exec.OrderLineValue) : Prop where
  order : ∀ {w d o c items}, .newOrder w d o c items ∈ txns →
    let v := latestValue (cpuOrders (g.index.order.store.lookup (orderKey o d w)))
    v.oCId.toNat = c ∧ v.oOlCnt.toNat = items.length
  line : ∀ {w d o c items}, .newOrder w d o c items ∈ txns → ∀ {j y}, items[j]? = some y →
    (latestValue (cpuOls (g.index.orderLine.store.lookup
      (orderLineKey o d w (j + 1))))).olIId.toNat = y.iId

section
variable {stride : ℕ} {txns : List TxnInput}

/-- Two NewOrders with one slot are the same. -/
theorem OrdersPlaced.slot_inj (ho : OrdersPlaced stride txns) {w d o c items w' d' o' c' items'}
    (h : .newOrder w d o c items ∈ txns) (h' : .newOrder w' d' o' c' items' ∈ txns)
    (he : cacheIdx stride w' d' o' = cacheIdx stride w d o) :
    (w' = w ∧ d' = d ∧ o' = o) ∧ c' = c ∧ items' = items := by
  obtain ⟨hw, hd, haux⟩ := ho.order h
  obtain ⟨hw', hd', haux'⟩ := ho.order h'
  obtain ⟨rfl, rfl, rfl⟩ := cacheIdx_inj hw' hd' haux' hw hd haux he
  exact ⟨⟨rfl, rfl, rfl⟩, ho.once h' h⟩

theorem OrdersPlaced.of_append {txns' : List TxnInput} (ho : OrdersPlaced stride (txns ++ txns')) :
    OrdersPlaced stride txns :=
  ⟨fun h => ho.order (List.mem_append_left _ h),
    fun h h' => ho.once (List.mem_append_left _ h) (List.mem_append_left _ h')⟩

end

section
variable {cfg : Config} {g : GpuIndex} {txns : List TxnInput} {s : Shadow} {log : OrderLog}
  {cpuOrders : ℕ → Stager.Rec Exec.OrderValue} {cpuOls : ℕ → Stager.Rec Exec.OrderLineValue}

theorem OrdersOk.placed (ho : OrdersOk cfg txns) : OrdersPlaced cfg.auxNumSlotsPerDistrict txns where
  order h := ⟨(ho.order h).1.1.1, (ho.order h).1.2.1, (ho.order h).2.1.2⟩
  once := ho.once

/-- The loops leave every order of the history in its slot. -/
theorem rebuildLog_logOf (hn : NoWrap cfg) (ho : OrdersOk cfg txns) (hm : Mirrors cfg g txns s)
    (hr : Reads g txns cpuOrders cpuOls) :
    LogOf cfg.auxNumSlotsPerDistrict txns log (rebuildLog cfg s cpuOrders cpuOls log) := by
  obtain ⟨hcust, hnum⟩ := @writeLines_others ((orderWrites cfg s cpuOrders).foldl OrderLog.writeOrder log)
    (lineWrites cfg s cpuOls)
  refine ⟨fun {w d o c items} hmem => ⟨?_, ?_, fun j y hy => ?_⟩, fun {idx} hidx => ⟨?_, ?_, ?_⟩⟩
  · rw [rebuildLog, hnum, writeOrders_numItems]
    refine writeAll_of_agree _ (fun v hv hvs => ?_) (List.mem_map.mpr ⟨_, List.mem_map.mpr
      ⟨_, (mem_orderWrites hn ho hm).mpr ⟨w, d, o, c, items, hmem, rfl⟩, rfl⟩, rfl⟩)
    obtain ⟨x, hx, rfl⟩ := List.mem_map.mp hv
    obtain ⟨w', d', o', c', items', hmem', rfl⟩ := (mem_orderWrites hn ho hm).mp hx
    obtain ⟨⟨rfl, rfl, rfl⟩, rfl, rfl⟩ := ho.placed.slot_inj hmem hmem' hvs
    exact (hr.order hmem').2
  · rw [rebuildLog, hcust, writeOrders_customers]
    refine writeAll_of_agree _ (fun v hv hvs => ?_) (List.mem_map.mpr ⟨_, List.mem_map.mpr
      ⟨_, (mem_orderWrites hn ho hm).mpr ⟨w, d, o, c, items, hmem, rfl⟩, rfl⟩, rfl⟩)
    obtain ⟨x, hx, rfl⟩ := List.mem_map.mp hv
    obtain ⟨w', d', o', c', items', hmem', rfl⟩ := (mem_orderWrites hn ho hm).mp hx
    obtain ⟨⟨rfl, rfl, rfl⟩, rfl, rfl⟩ := ho.placed.slot_inj hmem hmem' hvs
    exact (hr.order hmem').1
  · rw [rebuildLog, writeLines_items]
    refine writeAll_of_agree _ (fun v hv hvs => ?_) (List.mem_map.mpr ⟨_, List.mem_map.mpr
      ⟨_, (mem_lineWrites hn ho hm).mpr ⟨w, d, o, c, items, j, y, hmem, hy, rfl⟩, rfl⟩, rfl⟩)
    obtain ⟨x, hx, rfl⟩ := List.mem_map.mp hv
    obtain ⟨w', d', o', c', items', j', y', hmem', hy', rfl⟩ := (mem_lineWrites hn ho hm).mp hx
    obtain ⟨hslot, hj⟩ := Prod.mk.inj hvs
    obtain rfl : j' = j := hj
    obtain ⟨⟨rfl, rfl, rfl⟩, rfl, rfl⟩ := ho.placed.slot_inj hmem hmem' hslot
    rw [hy] at hy'
    obtain rfl := Option.some.inj hy'
    exact hr.line hmem hy
  · rw [rebuildLog, hnum, writeOrders_numItems]
    refine writeAll_of_notMem _ fun hmem => ?_
    simp only [List.map_map, List.mem_map] at hmem
    obtain ⟨x, hx, rfl⟩ := hmem
    obtain ⟨w, d, o, c, items, hmem, rfl⟩ := (mem_orderWrites hn ho hm).mp hx
    exact hidx hmem rfl
  · rw [rebuildLog, hcust, writeOrders_customers]
    refine writeAll_of_notMem _ fun hmem => ?_
    simp only [List.map_map, List.mem_map] at hmem
    obtain ⟨x, hx, rfl⟩ := hmem
    obtain ⟨w, d, o, c, items, hmem, rfl⟩ := (mem_orderWrites hn ho hm).mp hx
    exact hidx hmem rfl
  · funext j
    rw [rebuildLog, writeLines_items, writeAll_of_notMem, writeOrders_items]
    intro hmem
    simp only [List.map_map, List.mem_map] at hmem
    obtain ⟨x, hx, he⟩ := hmem
    obtain ⟨w, d, o, c, items, j', y, hmem, -, rfl⟩ := (mem_lineWrites hn ho hm).mp hx
    exact hidx hmem (Prod.mk.inj he).1

end

section
variable {stride : ℕ} {txns : List TxnInput} {log : OrderLog}

/-- So does the insert kernel, one transaction after the other. -/
theorem insertAll_logOf (ho : OrdersPlaced stride txns) :
    LogOf stride txns log (txns.foldl (OrderLog.insert stride) log) := by
  induction txns using List.reverseRecOn with
  | nil => exact ⟨fun h => absurd h List.not_mem_nil, fun _ => ⟨rfl, rfl, rfl⟩⟩
  | append_singleton txns t ih =>
    obtain ⟨hord, hoth⟩ := ih ho.of_append
    rw [List.foldl_append, List.foldl_cons, List.foldl_nil]
    generalize txns.foldl (OrderLog.insert stride) log = log' at hord hoth
    have hlast : t ∈ txns ++ [t] := List.mem_append_right _ (List.mem_singleton_self _)
    cases t with
    | newOrder w d o c items =>
      refine ⟨fun {w' d' o' c' items'} hmem => ?_, fun {idx} hidx => ?_⟩
      · by_cases he : cacheIdx stride w' d' o' = cacheIdx stride w d o
        · obtain ⟨⟨rfl, rfl, rfl⟩, rfl, rfl⟩ := ho.slot_inj hlast hmem he
          refine ⟨Function.update_self .., Function.update_self .., fun j y hy => ?_⟩
          simp only [OrderLog.insert, Function.update_self, hy, Option.map_some, Option.getD_some]
        · have hold : .newOrder w' d' o' c' items' ∈ txns := by
            rcases List.mem_append.mp hmem with h | h
            · exact h
            · rw [List.mem_singleton, TxnInput.newOrder.injEq] at h
              obtain ⟨rfl, rfl, rfl, -, -⟩ := h
              exact absurd rfl he
          simp only [OrderLog.insert, Function.update_of_ne he]
          exact hord hold
      · have hne : idx ≠ cacheIdx stride w d o := (hidx hlast).symm
        simp only [OrderLog.insert, Function.update_of_ne hne]
        exact hoth fun h => hidx (List.mem_append_left _ h)
    | payment | orderStatus | delivery | stockLevel =>
      refine ⟨fun hmem => hord ?_, fun hidx => hoth fun h => hidx (List.mem_append_left _ h)⟩
      simpa using hmem

end

/-! ### The loaded orders -/

section
variable {stride W : ℕ} {items : ℕ → ℕ → ℕ}

theorem initialLog_eq (stride W : ℕ) (items : ℕ → ℕ → ℕ) : initialLog stride W items =
    ⟨writeAll (fun _ => 0) ((loadedOrders W).map fun x => (cacheIdx stride x.wId x.dId x.oId, 15)),
      writeAll (fun _ => 0) ((loadedOrders W).map fun x => (cacheIdx stride x.wId x.dId x.oId, x.cId)),
      items⟩ := by
  rw [initialLog]
  generalize (fun _ => 0 : ℕ → ℕ) = a
  suffices h : ∀ (l : List CustomerOrder) (n c : ℕ → ℕ), l.foldl (fun log x =>
      { log with
        numItems := Function.update log.numItems (cacheIdx stride x.wId x.dId x.oId) 15
        customers := Function.update log.customers (cacheIdx stride x.wId x.dId x.oId) x.cId })
      (⟨n, c, items⟩ : OrderLog) =
      ⟨writeAll n (l.map fun x => (cacheIdx stride x.wId x.dId x.oId, 15)),
        writeAll c (l.map fun x => (cacheIdx stride x.wId x.dId x.oId, x.cId)), items⟩ from h _ a a
  intro l
  induction l with
  | nil => exact fun _ _ => rfl
  | cons x l ih => exact fun n c => ih _ _

theorem initialLog_items : (initialLog stride W items).items = items := by rw [initialLog_eq]

theorem loaded_cases {x : CustomerOrder} (hx : x ∈ loadedOrders W) :
    (1 ≤ x.wId ∧ x.wId ≤ W) ∧ (1 ≤ x.dId ∧ x.dId ≤ 10) ∧ (1 ≤ x.oId ∧ x.oId ≤ 3000) ∧ x.cId = x.oId := by
  obtain ⟨⟨hw, hd, hc⟩, ho⟩ := mem_loadedOrders.mp hx
  exact ⟨hw, hd, ho ▸ hc, ho.symm⟩

/-- With more than 3000 slots in a district every loaded order has its own. -/
theorem initialLog_loaded (hA : 3000 < stride) {x : CustomerOrder} (hx : x ∈ loadedOrders W) :
    (initialLog stride W items).numItems (cacheIdx stride x.wId x.dId x.oId) = 15 ∧
      (initialLog stride W items).customers (cacheIdx stride x.wId x.dId x.oId) = x.cId := by
  rw [initialLog_eq]
  obtain ⟨hw, hd, ho, hc⟩ := loaded_cases hx
  constructor
  · refine writeAll_of_agree _ (fun v hv _ => ?_) (List.mem_map.mpr ⟨_, List.mem_map_of_mem hx, rfl⟩)
    obtain ⟨y, -, rfl⟩ := List.mem_map.mp hv
    rfl
  · refine writeAll_of_agree _ (fun v hv hvs => ?_) (List.mem_map.mpr ⟨_, List.mem_map_of_mem hx, rfl⟩)
    obtain ⟨y, hy, rfl⟩ := List.mem_map.mp hv
    obtain ⟨hw', hd', ho', hc'⟩ := loaded_cases hy
    have := cacheIdx_inj hw'.1 hd' (show y.oId < stride by omega) hw.1 hd (by omega) hvs
    rw [hc, hc', this.2.2]

theorem flatAux_run_log {mem : ℕ → ℕ} {epochs : List (List TxnInput)} :
    (FlatAux.run stride W items mem epochs).log =
      epochs.flatten.foldl (OrderLog.insert stride) (initialLog stride W items) := by
  rw [FlatAux.run, ← List.foldl_flatten]
  suffices h : ∀ (l : List TxnInput) (f : FlatAux),
      (l.foldl (FlatAux.insert stride) f).log = l.foldl (OrderLog.insert stride) f.log from h _ _
  intro l
  induction l with
  | nil => exact fun _ => rfl
  | cons t l ih => exact fun f => ih _

/-- A slot with a customer is one of a loaded order. -/
theorem initialLog_used {idx : ℕ} (h : (initialLog stride W items).customers idx ≠ 0) :
    ∃ x ∈ loadedOrders W, cacheIdx stride x.wId x.dId x.oId = idx := by
  by_contra hnone
  rw [initialLog_eq] at h
  refine h (writeAll_of_notMem _ fun hmem => hnone ?_)
  simp only [List.map_map, List.mem_map] at hmem
  obtain ⟨x, hx, he⟩ := hmem
  exact ⟨x, hx, he⟩

end

/-! ### The newest order of each customer -/

section
variable {cfg : Config} {txns : List TxnInput} {log : OrderLog} {items : ℕ → ℕ → ℕ} {w d c o : ℕ}

/-- The slots that have a customer are those of the orders. -/
theorem customers_iff (hA : 3000 < cfg.auxNumSlotsPerDistrict) (ho : OrdersOk cfg txns)
    (hlog : LogOf cfg.auxNumSlotsPerDistrict txns
      (initialLog cfg.auxNumSlotsPerDistrict cfg.numWarehouses items) log)
    (hc : CustomerOk cfg.numWarehouses w d c) (hlt : o < cfg.auxNumSlotsPerDistrict) :
    log.customers (cacheIdx cfg.auxNumSlotsPerDistrict w d o) = c ↔
      (⟨w, d, c, o⟩ : CustomerOrder) ∈ loadedOrders cfg.numWarehouses ++ txns.filterMap TxnInput.order := by
  obtain ⟨hw, hd, hc1, hc3000⟩ := hc
  rw [List.mem_append, List.mem_filterMap]
  by_cases hnew : ∃ c' its, .newOrder w d o c' its ∈ txns
  · obtain ⟨c', its, hmem⟩ := hnew
    rw [(hlog.order hmem).2.1]
    constructor
    · rintro rfl
      exact Or.inr ⟨_, hmem, rfl⟩
    · rintro (h | ⟨t, ht, he⟩)
      · have h3000 := (ho.order hmem).2.1.1
        have := (loaded_cases h).2.2.1.2
        simp only at this
        omega
      · cases t with
        | newOrder w' d' o' c'' its' =>
          simp only [TxnInput.order, Option.some.injEq, CustomerOrder.mk.injEq] at he
          obtain ⟨rfl, rfl, rfl, rfl⟩ := he
          exact (ho.once hmem ht).1
        | payment | orderStatus | delivery | stockLevel => exact absurd he (by simp [TxnInput.order])
  · -- no NewOrder of the history: what the loader put there
    have hslot : ∀ {w' d' o' c' its}, .newOrder w' d' o' c' its ∈ txns →
        cacheIdx cfg.auxNumSlotsPerDistrict w' d' o' ≠ cacheIdx cfg.auxNumSlotsPerDistrict w d o := by
      intro w' d' o' c' its hmem he
      obtain ⟨⟨hw', hd', -⟩, ⟨-, haux⟩, -⟩ := ho.order hmem
      obtain ⟨rfl, rfl, rfl⟩ := cacheIdx_inj hw'.1 hd' haux hw.1 hd hlt he
      exact hnew ⟨c', its, hmem⟩
    rw [(hlog.other hslot).2.1]
    constructor
    · intro he
      obtain ⟨x, hx, hxs⟩ := @initialLog_used cfg.auxNumSlotsPerDistrict cfg.numWarehouses items _
        (show _ ≠ 0 by rw [he]; omega)
      obtain ⟨hxw, hxd, hxo, hxc⟩ := loaded_cases hx
      have hin := cacheIdx_inj hxw.1 hxd (by omega) hw.1 hd hlt hxs
      have hval := (@initialLog_loaded _ _ items hA _ hx).2
      rw [hxs, he] at hval
      obtain ⟨xw, xd, xc, xo⟩ := x
      obtain ⟨rfl, rfl, rfl⟩ := hin
      obtain rfl : c = xc := hval
      exact Or.inl hx
    · rintro (h | ⟨t, ht, he⟩)
      · exact (@initialLog_loaded _ _ items hA _ h).2
      · cases t with
        | newOrder w' d' o' c'' its' =>
          simp only [TxnInput.order, Option.some.injEq, CustomerOrder.mk.injEq] at he
          obtain ⟨rfl, rfl, rfl, rfl⟩ := he
          exact absurd ⟨_, _, ht⟩ hnew
        | payment | orderStatus | delivery | stockLevel => exact absurd he (by simp [TxnInput.order])

/-- The threads of the update kernel, in any order, leave the largest order id of each customer. -/
theorem latest_rebuilt (hA : 3000 < cfg.auxNumSlotsPerDistrict) (ho : OrdersOk cfg txns)
    (hlog : LogOf cfg.auxNumSlotsPerDistrict txns
      (initialLog cfg.auxNumSlotsPerDistrict cfg.numWarehouses items) log) {mem : ℕ → ℕ}
    {threads : List ℕ}
    (hth : threads.Perm (List.range (cfg.numWarehouses * 10 * cfg.auxNumSlotsPerDistrict))) :
    Latest cfg.numWarehouses (loadedOrders cfg.numWarehouses ++ txns.filterMap TxnInput.order)
      (threads.foldl (maxStep (latestWrite cfg.auxNumSlotsPerDistrict log.customers)
        (· % cfg.auxNumSlotsPerDistrict)) (initLatestOid cfg.numWarehouses mem)) := by
  intro w d c hc
  obtain ⟨hbase, hbaseUb⟩ := @latest_load cfg.numWarehouses mem w d c hc
  obtain ⟨hw, hd, hc1, hc3000⟩ := id hc
  obtain ⟨hmem, hub⟩ := foldl_maxStep (latestWrite cfg.auxNumSlotsPerDistrict log.customers)
    (· % cfg.auxNumSlotsPerDistrict) (latestSlot w d c) threads (initLatestOid cfg.numWarehouses mem)
  have hApos : 0 < cfg.auxNumSlotsPerDistrict := by omega
  constructor
  · rcases hmem with hn | ⟨tid, -, hkey, hn⟩
    · rw [hn]
      exact List.mem_append_left _ hbase
    · rw [← hn]
      rw [latestWrite] at hkey
      split at hkey
      · exact absurd hkey (by simp)
      · next hcust =>
        have hslot := Option.some.inj hkey
        rw [latestSlot] at hslot
        have htid : tid = cacheIdx cfg.auxNumSlotsPerDistrict w d (tid % cfg.auxNumSlotsPerDistrict) := by
          have hdist : tid / cfg.auxNumSlotsPerDistrict = districtId w d := by omega
          rw [cacheIdx, ← hdist]
          exact (Nat.div_add_mod' tid _).symm
        have hcval : log.customers tid = c := by omega
        rw [htid] at hcval
        exact (customers_iff hA ho hlog hc (Nat.mod_lt _ hApos)).mp hcval
  · intro o' ho'
    have hlt : o' < cfg.auxNumSlotsPerDistrict := by
      rcases List.mem_append.mp ho' with h | h
      · have := (loaded_cases h).2.2.1.2
        simp only at this
        omega
      · obtain ⟨t, ht, he⟩ := List.mem_filterMap.mp h
        cases t with
        | newOrder w' d' oo c'' its' =>
          simp only [TxnInput.order, Option.some.injEq, CustomerOrder.mk.injEq] at he
          obtain ⟨rfl, rfl, rfl, rfl⟩ := he
          exact (ho.order ht).2.1.2
        | payment | orderStatus | delivery | stockLevel => exact absurd he (by simp [TxnInput.order])
    have hcval := (customers_iff hA ho hlog hc hlt).mpr ho'
    obtain ⟨hdiv, hmod⟩ := div_mod_of_lt (q := districtId w d) hlt
    refine hub (Or.inr ⟨cacheIdx _ w d o', hth.mem_iff.mpr (List.mem_range.mpr ?_), ?_, hmod⟩)
    · rw [cacheIdx, districtId, Nat.add_comm (d - 1)]
      exact dense_lt hw hd hlt
    · rw [latestWrite]
      simp only [hcval]
      rw [if_neg (by omega), latestSlot, cacheIdx, hdiv]

end

end Egad.Tpcc
