import Egad.Tpcc.AuxRebuild

/-! # The auxiliary index after a recovery

    Whatever the history and the cut, a recover process finds the orders of the cut in the shadow and
    their words in the primary store, and the rebuilt auxiliary index is the one the run had there:

        run       loadInitialData ──insert kernels of the epochs up to the cut──▶ log, latest
        recover   loadInitialData ──loops over the shadow, update kernel──▶       log, latest

    provided every order up to the cut has its own slots. In hash mode the shadow has none for the
    lines of an order above 3000: the loop takes them for lines of the next district's first orders. -/

namespace Egad.Tpcc
open Egad.Lib Egad.Timeline

/-! ### The shadow of a run -/

/-- The rows of the initial keys are the first ones. -/
theorem TableLogged.loaded_iff {initial : List ℕ} {tbl : Table} {keys : ℕ → ℕ} {j : Journal ℕ}
    (h : TableLogged initial tbl keys [] j) {k : ℕ} (hk : tbl.store.lookup k ≠ kAbsent) :
    tbl.store.lookup k < tbl.init ↔ k ∈ initial := by
  rw [h.live] at hk ⊢
  rw [h.init]
  have howner := h.inv.owner k hk
  constructor
  · intro hlt
    rw [h.minted, List.getElem?_append_left hlt] at howner
    exact List.mem_of_getElem? howner
  · intro hmem
    obtain ⟨c, hc⟩ := List.mem_iff_getElem?.mp hmem
    have hlt := (List.getElem?_eq_some_iff.mp hc).1
    have hminted : j.minted[c]? = some k := by rw [h.minted, List.getElem?_append_left hlt, hc]
    have hlive := (h.inv.split c k hminted).mpr (by rw [h.ended]; exact List.not_mem_nil)
    rw [hlive]
    exact hlt

/-- A slot of a logged key is in use. -/
theorem dense_ne_absent {slot : ℕ → ℕ} {j : Journal ℕ} (hj : j.Inv kAbsent) (hend : j.ended = [])
    {c k : ℕ} (hk : j.minted[c]? = some k) :
    c ≤ dense slot j (slot k) ∧ dense slot j (slot k) ≠ kAbsent := by
  rw [dense_of_no_deletes hend]
  have hmem : (j.minted.map slot)[c]? = some (slot k) := by rw [List.getElem?_map, hk]; rfl
  rcases Journal.mintAll_spec kAbsent (j.minted.map slot) (slot k) with ⟨-, hnot⟩ | ⟨hat, hlast⟩
  · exact absurd (List.mem_of_getElem? hmem) hnot
  · refine ⟨hlast c hmem, fun habs => ?_⟩
    have hlt := (List.getElem?_eq_some_iff.mp hat).1
    have hfits := hj.fits
    rw [List.length_map] at hlt
    omega

/-- What a number in use leads to: the record of a key with that slot. -/
theorem dense_record {slot : ℕ → ℕ} {j : Journal ℕ} (hj : j.Inv kAbsent) (hend : j.ended = []) {i : ℕ}
    (hi : dense slot j i ≠ kAbsent) : ∃ k ∈ j.minted, slot k = i ∧ j.live k = dense slot j i := by
  rw [dense_of_no_deletes hend] at hi ⊢
  rcases Journal.mintAll_spec kAbsent (j.minted.map slot) i with ⟨habs, -⟩ | ⟨hat, -⟩
  · exact absurd habs hi
  · rw [List.getElem?_map, Option.map_eq_some_iff] at hat
    obtain ⟨k, hk, he⟩ := hat
    refine ⟨k, List.mem_of_getElem? hk, he, (hj.split _ k hk).mpr ?_⟩
    rw [hend]
    exact List.not_mem_nil

theorem order_inserts_append (txns txns' : List TpccTxn) :
    (orderInput (txns ++ txns')).validInsert =
      (orderInput txns).validInsert ++ (orderInput txns').validInsert := by
  simp [TableInput.validInsert, orderInput]

section
variable {cfg : Config} {deletePath : Bool}

/-- The keys of Order and OrderLine that a run logs are those its transactions insert. -/
theorem grown_run {epochs : List (List TpccTxn)} {g g' : GpuIndex} {js : Journals}
    (hg : Logged cfg g js) (hgen : ∀ txns ∈ epochs, Generated cfg deletePath txns)
    (hroom : Room g.index (epochs.map List.length).sum) (h : g.run deletePath epochs = .ok g') :
    ∃ js', Logged cfg g' js' ∧
      (Slotted cfg js → (∀ txns ∈ epochs, ∀ t ∈ txns, t.WithinStride cfg) → Slotted cfg js') ∧
      (∀ k ∈ js'.o.minted, k ∈ js.o.minted ∨ k ∈ (orderInput epochs.flatten).validInsert) ∧
      ∀ k ∈ js'.ol.minted, k ∈ js.ol.minted ∨ k ∈ (orderLineInput epochs.flatten).validInsert := by
  induction epochs generalizing g js with
  | nil =>
    obtain rfl : g = g' := by simpa [GpuIndex.run, pure, Except.pure] using h
    exact ⟨js, hg, fun hs _ => hs, fun k hk => Or.inl hk, fun k hk => Or.inl hk⟩
  | cons txns epochs ih =>
    obtain ⟨g₁, h1, h2⟩ := run_cons h
    have hgen1 := hgen txns List.mem_cons_self
    rw [List.map_cons, List.sum_cons] at hroom
    obtain ⟨js₁, hlog, hgrow, hroom1, -⟩ := logged_step hg hgen1.numbered hroom h1
    obtain ⟨js', hlog', hs', ho, hol⟩ := ih hlog (fun t ht => hgen t (List.mem_cons_of_mem _ ht)) hroom1
      h2
    refine ⟨js', hlog', fun hs hstride => hs' ?_ ?_, fun k hk => ?_, fun k hk => ?_⟩
    · exact slotted_step hs hgrow hgen1.numbered hg.mode (hstride txns List.mem_cons_self)
    · exact fun t ht => hstride t (List.mem_cons_of_mem _ ht)
    · rw [List.flatten_cons, order_inserts_append, List.mem_append]
      rcases ho k hk with hk | hk
      · exact (hgrow.o k hk).imp_right Or.inl
      · exact Or.inr (Or.inr hk)
    · rw [List.flatten_cons, line_inserts_append, List.mem_append]
      rcases hol k hk with hk | hk
      · exact (hgrow.ol k hk).imp_right fun h => Or.inl h.1
      · exact Or.inr (Or.inr hk)

end

section
variable {epoch : List (TxnInput × Aux)} {k : ℕ}

theorem order_of_insert (h : k ∈ (orderInput (fillAll epoch)).validInsert) :
    ∃ w d o c items, .newOrder w d o c items ∈ epoch.map Prod.fst ∧ k = orderKey o d w := by
  obtain ⟨o, d, w, n, hmem, rfl⟩ := mem_order_insert h
  obtain ⟨⟨t, a⟩, hx, he⟩ := List.mem_map.mp hmem
  cases t with
  | newOrder w' d' o' c items =>
    simp only [TxnInput.fill, TpccTxn.newOrder.injEq] at he
    obtain ⟨rfl, rfl, rfl, -⟩ := he
    exact ⟨w', d', o', c, items, List.mem_map.mpr ⟨_, hx, rfl⟩, rfl⟩
  | payment | orderStatus | delivery | stockLevel => exact absurd he (by simp [TxnInput.fill])

theorem line_of_insert (h : k ∈ (orderLineInput (fillAll epoch)).validInsert) :
    ∃ w d o c items j y, .newOrder w d o c items ∈ epoch.map Prod.fst ∧ items[j]? = some y ∧
      k = orderLineKey o d w (j + 1) := by
  obtain ⟨x, hx, hk⟩ := List.mem_filterMap.mp h
  obtain ⟨t, ht, hx⟩ := List.mem_flatMap.mp hx
  obtain ⟨j, -, rfl⟩ := List.mem_map.mp hx
  obtain ⟨⟨u, a⟩, hu, rfl⟩ := List.mem_map.mp ht
  cases u with
  | newOrder w d o c items =>
    simp only [TxnInput.fill, TpccTxn.orderLineInsert, id_eq, Option.ite_none_right_eq_some,
      Option.some.injEq] at hk
    obtain ⟨hj, rfl⟩ := hk
    exact ⟨w, d, o, c, items, j, items[j], List.mem_map.mpr ⟨_, hu, rfl⟩,
      List.getElem?_eq_getElem hj, rfl⟩
  | payment | orderStatus | delivery | stockLevel =>
    exact absurd hk (by simp [TxnInput.fill, TpccTxn.orderLineInsert])

end

section
variable {cfg : Config} {g g' : GpuIndex} {js : Journals}

theorem Slotted.order_inj (h : Slotted cfg js) {k k' : ℕ} (hk : k ∈ js.o.minted) (hk' : k' ∈ js.o.minted)
    (he : denseOfOrder (computeOrdersMaxO cfg) k' = denseOfOrder (computeOrdersMaxO cfg) k) : k' = k := by
  rw [← (h.o k hk).2, ← he, (h.o k' hk').2]

theorem Slotted.line_inj (h : Slotted cfg js) {k k' : ℕ} (hk : k ∈ js.ol.minted)
    (hk' : k' ∈ js.ol.minted) (he : denseOf (maxOOl cfg) k' = denseOf (maxOOl cfg) k) : k' = k := by
  have hs := h.ol k hk
  have hs' := h.ol k' hk'
  rw [LineSlot] at hs hs'
  cases hf : cfg.flatOL with
  | true =>
    rw [hf, if_pos rfl] at hs hs'
    rw [maxOOl, hf, if_pos rfl] at he
    exact denseOf_inj hs' hs he
  | false =>
    rw [hf, if_neg Bool.false_ne_true] at hs hs'
    rw [← hs.2, ← he, hs'.2]

/-- The shadow that recovery reconstructs for a cut mirrors the orders up to it. -/
theorem mirrors_cut (hW : cfg.numWarehouses < 2 ^ 8) {epoch : List (TxnInput × Aux)}
    (hg : Logged cfg g js) (hs : Slotted cfg js) (hkeep : Keeps g g')
    (hgo : ∀ k ∈ js.o.minted, k ∈ initialOrderKeys cfg.numWarehouses ∨
      k ∈ (orderInput (fillAll epoch)).validInsert)
    (hgl : ∀ k ∈ js.ol.minted, k ∈ initialLineKeys cfg.numWarehouses ∨
      k ∈ (orderLineInput (fillAll epoch)).validInsert)
    (hok : ∀ {w d o c items}, .newOrder w d o c items ∈ epoch.map Prod.fst →
      OrderOk o d w ∧ 3000 < o ∧ items.length ≤ 15)
    (hrow : ∀ {w d o c items}, .newOrder w d o c items ∈ epoch.map Prod.fst →
      g.index.order.store.lookup (orderKey o d w) ≠ kAbsent ∧ ∀ {j y}, items[j]? = some y →
        g.index.orderLine.store.lookup (orderLineKey o d w (j + 1)) ≠ kAbsent) :
    Mirrors cfg g (epoch.map Prod.fst)
      (recoverShadow cfg g'.durable g.index.freeStarts g.noDeleteCount) := by
  have hso : (recoverShadow cfg g'.durable g.index.freeStarts g.noDeleteCount).o =
      dense (denseOfOrder (computeOrdersMaxO cfg)) js.o := reconstruct_o hW hg hkeep
  have hsol : (recoverShadow cfg g'.durable g.index.freeStarts g.noDeleteCount).ol =
      dense (denseOf (maxOOl cfg)) js.ol := reconstruct_ol hW hg hkeep
  have hinitO : g.index.order.init = cfg.numWarehouses * 10 * 3000 := by
    rw [hg.order.init, length_initialOrderKeys]
  have hinitL : g.index.orderLine.init = cfg.numWarehouses * 10 * 3000 * 15 := by
    rw [hg.orderLine.init, length_initialLineKeys]
  refine ⟨fun {w d o c items} hmem => ?_, fun {i} hi => ?_, fun {w d o c items} hmem {j y} hy => ?_,
    fun {i} hi => ?_⟩
  · obtain ⟨horder, h3000, -⟩ := hok hmem
    have hpres := (hrow hmem).1
    have hlive := hpres
    rw [hg.order.live] at hlive
    have hminted := List.mem_of_getElem? (hg.order.inv.owner _ hlive)
    refine ⟨?_, hpres, ?_⟩
    · rw [hso, ← denseOfOrder_key horder, hg.order.live]
      exact dense_slot hg.order.inv fun k' hk' he => hs.order_inj hminted hk' he
    · rw [← hinitO, ← not_lt, hg.order.loaded_iff hpres]
      intro hinit
      obtain ⟨x, hx, he⟩ := List.mem_map.mp hinit
      obtain ⟨hxok, -, hx3000⟩ := initialOrder_ok hW hx
      have := (orderFields_inj hxok horder he).1
      omega
  · rw [hso] at hi ⊢
    obtain ⟨k, hk, rfl, hlive⟩ := dense_record hg.order.inv hg.order.ended hi
    rw [← hlive, ← hg.order.live] at hi ⊢
    rcases hgo k hk with hinit | hins
    · refine Or.inl ⟨hinitO ▸ (hg.order.loaded_iff hi).mpr hinit, ?_⟩
      obtain ⟨x, hx, rfl⟩ := List.mem_map.mp hinit
      exact ⟨x, hx, denseOfOrder_key (initialOrder_ok hW hx).1 _⟩
    · obtain ⟨w, d, o, c, items, hmem, rfl⟩ := order_of_insert hins
      exact Or.inr ⟨w, d, o, c, items, hmem, denseOfOrder_key (hok hmem).1 _⟩
  · obtain ⟨horder, h3000, hlen⟩ := hok hmem
    have hj := (List.getElem?_eq_some_iff.mp hy).1
    have hpres := (hrow hmem).2 hy
    have hlive := hpres
    rw [hg.orderLine.live] at hlive
    have hminted := List.mem_of_getElem? (hg.orderLine.inv.owner _ hlive)
    refine ⟨?_, hpres, ?_⟩
    · rw [hsol, ← denseOf_key horder (show j + 1 < 2 ^ 4 by omega), hg.orderLine.live]
      exact dense_slot hg.orderLine.inv fun k' hk' he => hs.line_inj hminted hk' he
    · rw [← hinitL, ← not_lt, hg.orderLine.loaded_iff hpres]
      intro hinit
      obtain ⟨x, hx, he⟩ := List.mem_map.mp hinit
      obtain ⟨hxo, hx1, hx15⟩ := mem_initialLines hx
      obtain ⟨hxok, -, hx3000⟩ := initialOrder_ok hW hxo
      have := (orderLineKey_inj hxok hx15 horder (show j + 1 ≤ 15 by omega) he).1
      omega
  · rw [hsol] at hi ⊢
    obtain ⟨k, hk, rfl, hlive⟩ := dense_record hg.orderLine.inv hg.orderLine.ended hi
    rw [← hlive, ← hg.orderLine.live] at hi ⊢
    rcases hgl k hk with hinit | hins
    · exact Or.inl (hinitL ▸ (hg.orderLine.loaded_iff hi).mpr hinit)
    · obtain ⟨w, d, o, c, items, j, y, hmem, hy, rfl⟩ := line_of_insert hins
      obtain ⟨horder, -, hlen⟩ := hok hmem
      have hj := (List.getElem?_eq_some_iff.mp hy).1
      exact Or.inr ⟨w, d, o, c, items, j, y, hmem, hy,
        denseOf_key horder (show j + 1 < 2 ^ 4 by omega) _⟩

end

/-! ### Equal indexes -/

/-- The order is live in the shadow. -/
def LiveOrder (cfg : Config) (s : Shadow) (w d o : ℕ) : Prop :=
  (1 ≤ w ∧ w ≤ cfg.numWarehouses) ∧ (1 ≤ d ∧ d ≤ 10) ∧ (1 ≤ o ∧ o ≤ computeOrdersMaxO cfg) ∧
    s.o (denseIdxO w d o (computeOrdersMaxO cfg)) ≠ kAbsent

/-- Two auxiliary indexes are the same for the live orders and all customers. -/
structure SameAux (cfg : Config) (s : Shadow) (f f' : FlatAux) : Prop where
  numItems : ∀ w d o, LiveOrder cfg s w d o →
    f.log.numItems (cacheIdx cfg.auxNumSlotsPerDistrict w d o) =
      f'.log.numItems (cacheIdx cfg.auxNumSlotsPerDistrict w d o)
  customers : ∀ w d o, LiveOrder cfg s w d o →
    f.log.customers (cacheIdx cfg.auxNumSlotsPerDistrict w d o) =
      f'.log.customers (cacheIdx cfg.auxNumSlotsPerDistrict w d o)
  items : ∀ w d o, LiveOrder cfg s w d o →
    ∀ i < f'.log.numItems (cacheIdx cfg.auxNumSlotsPerDistrict w d o),
      f.log.items (cacheIdx cfg.auxNumSlotsPerDistrict w d o) i =
        f'.log.items (cacheIdx cfg.auxNumSlotsPerDistrict w d o) i
  latest : ∀ w d c, CustomerOk cfg.numWarehouses w d c →
    f.latestOid (latestSlot w d c) = f'.latestOid (latestSlot w d c)

/-- Every write of a rebuild goes to a slot of the district whose order it is about. -/
structure WritesInside (cfg : Config) (g : GpuIndex) (txns : List TxnInput) (s : Shadow)
    (cpuOrders : ℕ → Stager.Rec Exec.OrderValue) (cpuOls : ℕ → Stager.Rec Exec.OrderLineValue)
    (orderCustomers : ℕ → ℕ) : Prop where
  loaded : ∀ x ∈ loadedOrders cfg.numWarehouses,
    InDistrict cfg x.wId x.dId (cacheIdx cfg.auxNumSlotsPerDistrict x.wId x.dId x.oId)
  order : ∀ x ∈ orderWrites cfg s cpuOrders, ∃ w d o c items, .newOrder w d o c items ∈ txns ∧
    x.crid = g.index.order.store.lookup (orderKey o d w) ∧ InDistrict cfg w d x.slot
  line : ∀ x ∈ lineWrites cfg s cpuOls, ∃ w d o c items j y, .newOrder w d o c items ∈ txns ∧
    items[j]? = some y ∧ x.crid = g.index.orderLine.store.lookup (orderLineKey o d w (j + 1)) ∧
    InDistrict cfg w d x.slot
  latest : ∀ tid k, latestWrite cfg.auxNumSlotsPerDistrict orderCustomers tid = some k →
    tid / cfg.auxNumSlotsPerDistrict * 3000 ≤ k ∧ k < (tid / cfg.auxNumSlotsPerDistrict + 1) * 3000

section
variable {cfg : Config} {g : GpuIndex} {epochs : List (List TxnInput)} {s : Shadow}
  {cpuOrders : ℕ → Stager.Rec Exec.OrderValue} {cpuOls : ℕ → Stager.Rec Exec.OrderLineValue}
  {items items' : ℕ → ℕ → ℕ} {mem mem' : ℕ → ℕ} {threads : List ℕ}

theorem rebuilt_writes (hn : NoWrap cfg) (hA : 3000 < cfg.auxNumSlotsPerDistrict)
    (ho : OrdersOk cfg epochs.flatten) (hm : Mirrors cfg g epochs.flatten s) (customers : ℕ → ℕ) :
    WritesInside cfg g epochs.flatten s cpuOrders cpuOls customers := by
  refine ⟨fun x hx => inDistrict_cacheIdx ?_, fun x hx => ?_, fun x hx => ?_, fun tid k hk => ?_⟩
  · have := (loaded_cases hx).2.2.1.2
    omega
  · obtain ⟨w, d, o, c, its, hmem, rfl⟩ := (mem_orderWrites hn ho hm).mp hx
    exact ⟨w, d, o, c, its, hmem, rfl, inDistrict_cacheIdx (ho.order hmem).2.1.2⟩
  · obtain ⟨w, d, o, c, its, j, y, hmem, hy, rfl⟩ := (mem_lineWrites hn ho hm).mp hx
    exact ⟨w, d, o, c, its, j, y, hmem, hy, rfl, inDistrict_cacheIdx (ho.order hmem).2.1.2⟩
  · rw [latestWrite] at hk
    split at hk
    · exact absurd hk (by simp)
    · have := Option.some.inj hk
      omega

/-- A rebuild from a shadow that mirrors the orders of the epochs gives their auxiliary index. -/
theorem rebuilt_same (hn : NoWrap cfg) (hA : 3000 < cfg.auxNumSlotsPerDistrict)
    (ho : OrdersOk cfg epochs.flatten) (hm : Mirrors cfg g epochs.flatten s)
    (hr : Reads g epochs.flatten cpuOrders cpuOls)
    (hitems : ∀ x ∈ loadedOrders cfg.numWarehouses, ∀ i < 15,
      items' (cacheIdx cfg.auxNumSlotsPerDistrict x.wId x.dId x.oId) i =
        items (cacheIdx cfg.auxNumSlotsPerDistrict x.wId x.dId x.oId) i)
    (hth : threads.Perm (List.range (cfg.numWarehouses * 10 * cfg.auxNumSlotsPerDistrict))) :
    ∃ f, rebuildFromShadow cfg true items' mem' threads s cpuOrders cpuOls = .ok f ∧
      SameAux cfg s f
        (FlatAux.run cfg.auxNumSlotsPerDistrict cfg.numWarehouses items mem epochs) ∧
      WritesInside cfg g epochs.flatten s cpuOrders cpuOls f.log.customers := by
  have hreb : LogOf cfg.auxNumSlotsPerDistrict epochs.flatten
      (initialLog cfg.auxNumSlotsPerDistrict cfg.numWarehouses items')
      (rebuildLog cfg s cpuOrders cpuOls _) := rebuildLog_logOf hn ho hm hr
  have hrun : LogOf cfg.auxNumSlotsPerDistrict epochs.flatten
      (initialLog cfg.auxNumSlotsPerDistrict cfg.numWarehouses items)
      (FlatAux.run cfg.auxNumSlotsPerDistrict cfg.numWarehouses items mem epochs).log := by
    rw [flatAux_run_log]
    exact insertAll_logOf ho.placed
  -- a live order is a loaded one or one of the run
  have hlive : ∀ {w d o}, LiveOrder cfg s w d o →
      ((⟨w, d, o, o⟩ : CustomerOrder) ∈ loadedOrders cfg.numWarehouses ∧
        ∀ {w' d' o' c its}, .newOrder w' d' o' c its ∈ epochs.flatten →
          cacheIdx cfg.auxNumSlotsPerDistrict w' d' o' ≠ cacheIdx cfg.auxNumSlotsPerDistrict w d o) ∨
      ∃ c its, .newOrder w d o c its ∈ epochs.flatten := by
    rintro w d o ⟨hw, hd, ho', hused⟩
    rcases hm.orderUsed hused with ⟨-, x, hx, he⟩ | ⟨w', d', o', c, its, hmem, he⟩
    · obtain ⟨t, ht, rfl⟩ := mem_initialOrders hx
      have h3000 : (orderAt t).o ≤ 3000 := by simp only [orderAt]; omega
      have hmax := @computeOrdersMaxO_ge cfg (by omega)
      have hid := decodeOrderId_dense hw.1 hd ho'
      rw [he, decodeOrderId_dense (by simp [orderAt]) (by simp only [orderAt]; omega)
        ⟨by simp [orderAt], by omega⟩] at hid
      obtain ⟨rfl, rfl, rfl⟩ := OrderId.mk.inj hid
      refine Or.inl ⟨mem_loadedOrders.mpr ⟨⟨hw, hd, by simp only [orderAt] at h3000 ⊢; omega⟩, rfl⟩, ?_⟩
      intro w' d' o' c its hmem he'
      obtain ⟨⟨hw', hd', -⟩, ⟨hnew, haux⟩, -⟩ := ho.order hmem
      have := (cacheIdx_inj hw'.1 hd' haux hw.1 hd (by omega) he').2.2
      omega
    · obtain ⟨⟨hw', hd', -⟩, ⟨hnew, -⟩, hmax, -⟩ := ho.order hmem
      have hid := decodeOrderId_dense hw.1 hd ho'
      rw [he, decodeOrderId_dense hw'.1 hd' ⟨by omega, hmax⟩] at hid
      obtain ⟨rfl, rfl, rfl⟩ := OrderId.mk.inj hid
      exact Or.inr ⟨c, its, hmem⟩
  refine ⟨_, rfl, ⟨fun w d o h => ?_, fun w d o h => ?_, fun w d o h i hi => ?_, fun w d c hc => ?_⟩,
    rebuilt_writes hn hA ho hm _⟩
  · rcases hlive h with ⟨hload, hslot⟩ | ⟨c, its, hmem⟩
    · exact ((hreb.other hslot).1.trans (initialLog_loaded hA hload).1).trans
        ((hrun.other hslot).1.trans (initialLog_loaded hA hload).1).symm
    · exact (hreb.order hmem).1.trans (hrun.order hmem).1.symm
  · rcases hlive h with ⟨hload, hslot⟩ | ⟨c, its, hmem⟩
    · exact ((hreb.other hslot).2.1.trans (initialLog_loaded hA hload).2).trans
        ((hrun.other hslot).2.1.trans (initialLog_loaded hA hload).2).symm
    · exact (hreb.order hmem).2.1.trans (hrun.order hmem).2.1.symm
  · rcases hlive h with ⟨hload, hslot⟩ | ⟨c, its, hmem⟩
    · rw [(hrun.other hslot).1, (initialLog_loaded hA hload).1] at hi
      have hleft := congrFun ((hreb.other hslot).2.2.trans (congrFun initialLog_items _)) i
      have hright := congrFun ((hrun.other hslot).2.2.trans (congrFun initialLog_items _)) i
      exact (hleft.trans (hitems _ hload i hi)).trans hright.symm
    · rw [(hrun.order hmem).1] at hi
      exact ((hreb.order hmem).2.2 i _ (List.getElem?_eq_getElem hi)).trans
        ((hrun.order hmem).2.2 i _ (List.getElem?_eq_getElem hi)).symm
  · have hcust : ∀ txns ∈ epochs, ∀ t ∈ txns, t.CustomerOk cfg.numWarehouses := by
      intro txns htx t ht
      have hmem : t ∈ epochs.flatten := List.mem_flatten.mpr ⟨txns, htx, ht⟩
      cases t with
      | newOrder => exact (ho.order hmem).1
      | payment | orderStatus | delivery | stockLevel => trivial
    have hnew := @latest_rebuilt cfg epochs.flatten _ items' hA ho hreb mem' threads hth w d c hc
    have hold := (@run_orders cfg.auxNumSlotsPerDistrict cfg.numWarehouses items mem epochs hcust).1 w d c hc
    exact hnew.unique hold

end

/-! ### Every history and every cut -/

/-- A customer that exists and items with 32-bit ids. -/
def TxnInput.Drawn (W : ℕ) : TxnInput → Prop
  | .newOrder w d _ c items => Tpcc.CustomerOk W w d c ∧ ∀ y ∈ items, y.iId < 2 ^ 32
  | _ => True

/-- What `rollbackPrimaryStoreVersions` leaves before the rebuild: the latest values of the rows that
    are live at the cut are those of the end of the cut epoch. -/
structure RolledBack (fl : ℚ → ℚ) (rc : RunConfig) (g : GpuIndex) (t : Exec.Tables)
    (cpuOrders : ℕ → Stager.Rec Exec.OrderValue) (cpuOls : ℕ → Stager.Rec Exec.OrderLineValue) :
    Prop where
  order : ∀ k, g.index.order.store.lookup k < (rc.config fl).orderTableSize →
    latestValue (cpuOrders (g.index.order.store.lookup k)) =
      t.order.rows (g.index.order.store.lookup k)
  orderLine : ∀ k, g.index.orderLine.store.lookup k < rc.orderLineTableSize fl →
    latestValue (cpuOls (g.index.orderLine.store.lookup k)) =
      t.orderLine.rows (g.index.orderLine.store.lookup k)

/-- A row the index has minted is one of the table when all are. -/
theorem TableLogged.row_lt {initial : List ℕ} {tbl : Table} {keys : ℕ → ℕ} {dels : List (ℕ × ℕ)}
    {j : Journal ℕ} {n : ℕ} (h : TableLogged initial tbl keys dels j) (hin : tbl.MintsWithin n) {k : ℕ}
    (hk : tbl.store.lookup k ≠ kAbsent) (hnew : tbl.init ≤ tbl.store.lookup k) :
    tbl.store.lookup k < n := by
  have hlt : tbl.store.lookup k < tbl.init + tbl.freeStart := by
    rw [← h.length]
    rw [h.live] at hk ⊢
    exact (List.getElem?_eq_some_iff.mp (h.inv.owner k hk)).1
  have := (hin (tbl.store.lookup k - tbl.init) (by omega)).1
  omega

section
variable {fl : ℚ → ℚ} {rc : RunConfig} {draws : List Draw} {deletePath : Bool}
  {epochs done after rest : List (List (TxnInput × Aux))} {durable : Durable} {entryCrid : ℕ → ℕ}
  {g g' : GpuIndex} {t : Exec.Tables} {cpuOrders : ℕ → Stager.Rec Exec.OrderValue}
  {cpuOls : ℕ → Stager.Rec Exec.OrderLineValue}

theorem otherOrder_run (hr : ∀ x ∈ draws, x.InRange rc.numWarehouses)
    (hrun : (done ++ after ++ rest).flatten.map Prod.fst = (generateTxns draws).1) :
    (done.flatten.map Prod.fst).Pairwise OtherOrder := by
  have hpw := (counted_run hr).once
  rw [← hrun, List.append_assoc, List.flatten_append, List.map_append] at hpw
  exact (List.pairwise_append.mp hpw).1.imp fun h w d o => (h w d o).1

theorem ordersOk_of_run (hr : ∀ x ∈ draws, x.InRange rc.numWarehouses)
    (hf : FieldsFit rc deletePath draws (done ++ after ++ rest))
    (hrun : (done ++ after ++ rest).flatten.map Prod.fst = (generateTxns draws).1)
    (hdrawn : ∀ u ∈ (generateTxns draws).1, u.Drawn rc.numWarehouses)
    (hguard : guardPasses (rc.config fl) (generateTxns draws).1 = true)
    (hstride : ∀ x ∈ done.flatten, (x.1.fill x.2).WithinStride (rc.config fl)) :
    OrdersOk (rc.config fl) (done.flatten.map Prod.fst) ∧
      ∀ {w d o c items}, .newOrder w d o c items ∈ done.flatten.map Prod.fst →
        OrderOk o d w ∧ 3000 < o ∧ items.length ≤ 15 := by
  have hsub : ∀ u ∈ done.flatten.map Prod.fst, u ∈ (generateTxns draws).1 := by
    intro u hu
    rw [← hrun, List.append_assoc, List.flatten_append, List.map_append]
    exact List.mem_append_left _ hu
  have hok : ∀ {w d o c items}, .newOrder w d o c items ∈ done.flatten.map Prod.fst →
      OrderOk o d w ∧ 3000 < o ∧ items.length ≤ 15 := by
    intro w d o c items hmem
    have hgen := hsub _ hmem
    have hins : (TxnInput.newOrder w d o c items).Inserts w d o := ⟨rfl, rfl, rfl⟩
    obtain ⟨hok, -⟩ := orderOk_of_carries hr hf.warehouses hf.ids hgen (inserts_carries hins)
    obtain ⟨v, rfl⟩ : ∃ v, w = v + 1 := ⟨w - 1, (Nat.sub_add_cancel hok.w.1).symm⟩
    obtain ⟨e, rfl⟩ : ∃ e, d = e + 1 := ⟨d - 1, (Nat.sub_add_cancel hok.d.1).symm⟩
    exact ⟨hok, (((counted_run hr).inserted v e o).mp ⟨_, hgen, hins⟩).1, numLines_run hr hgen⟩
  refine ⟨⟨fun {w d o c items} hmem => ?_, fun {w d o c items} hmem => ?_,
    fun {w d o c items c' items'} hmem hmem' => ?_⟩, hok⟩
  · obtain ⟨-, h3000, -⟩ := hok hmem
    have haux := inserted_lt_aux hguard (hsub _ hmem) (show TxnInput.Inserts w d o _ from ⟨rfl, rfl, rfl⟩)
    obtain ⟨x, hx, he⟩ := List.mem_map.mp hmem
    have hst := hstride x hx
    rw [he] at hst
    refine ⟨(hdrawn _ (hsub _ hmem)).1, ⟨h3000, haux⟩, hst.1, ?_⟩
    cases hflat : (rc.config fl).flatOL with
    | true =>
      rw [maxOOl, hflat, if_pos rfl, computeOLMaxO]
      exact haux.le
    | false =>
      have := hst.2 hflat
      omega
  · exact ⟨(hok hmem).2.2, (hdrawn _ (hsub _ hmem)).2⟩
  · exact once_of_pairwise (otherOrder_run hr hrun) hmem hmem'

/-- The words of every order up to the cut are in the rolled-back rows. -/
theorem reads_of_run {js : Journals} (hg : Logged (rc.config fl) g js)
    (hin : MintsInside fl rc g.index) (hback : RolledBack fl rc g t cpuOrders cpuOls)
    (ho : OrdersOk (rc.config fl) (done.flatten.map Prod.fst)) {s : Shadow}
    (hm : Mirrors (rc.config fl) g (done.flatten.map Prod.fst) s)
    (hst : ∀ x ∈ done.flatten, OrderStored fl rc g t x.1) :
    Reads g (done.flatten.map Prod.fst) cpuOrders cpuOls := by
  have hinitO : g.index.order.init = (rc.config fl).numWarehouses * 10 * 3000 := by
    rw [hg.order.init, length_initialOrderKeys]
  have hinitL : g.index.orderLine.init = (rc.config fl).numWarehouses * 10 * 3000 * 15 := by
    rw [hg.orderLine.init, length_initialLineKeys]
  have hstored : ∀ u ∈ done.flatten.map Prod.fst, OrderStored fl rc g t u := by
    intro u hu
    obtain ⟨x, hx, rfl⟩ := List.mem_map.mp hu
    exact hst x hx
  refine ⟨fun {w d o c items} hmem => ?_, fun {w d o c items} hmem {j y} hy => ?_⟩
  · obtain ⟨-, hpres, hnew⟩ := hm.order hmem
    have hlt := hg.order.row_lt hin.order hpres (hinitO.le.trans hnew)
    obtain ⟨hc, hn⟩ := (hstored _ hmem).1.words hlt
    obtain ⟨⟨-, -, -, hc3000⟩, -⟩ := ho.order hmem
    have hlen := (ho.lines hmem).1
    simp only
    rw [hback.order _ hlt, hc, hn, BitVec.toNat_ofNat, BitVec.toNat_ofNat, Nat.mod_eq_of_lt (by omega),
      Nat.mod_eq_of_lt (by omega)]
    exact ⟨rfl, rfl⟩
  · obtain ⟨-, hpres, hnew⟩ := hm.line hmem hy
    have hlt := hg.orderLine.row_lt hin.orderLine hpres (hinitL.le.trans hnew)
    rw [hback.orderLine _ hlt, ((hstored _ hmem).2 j y hy).word hlt, BitVec.toNat_ofNat]
    exact Nat.mod_eq_of_lt ((ho.lines hmem).2 y (List.mem_of_getElem? hy))

/-- For every history and every cut in it: when the orders up to the cut have their slots in the shadow
    and in the auxiliary arrays and their rows in the tables, `rebuildFromShadow` gives the auxiliary
    index the run had at the end of the cut epoch, and writes to the slots of each order's own district
    only. -/
theorem aux_rebuild_of_slots (hW1 : 1 ≤ rc.numWarehouses)
    (hr : ∀ x ∈ draws, x.InRange rc.numWarehouses)
    (hf : FieldsFit rc deletePath draws (done ++ after ++ rest))
    (hrun : (done ++ after ++ rest).flatten.map Prod.fst = (generateTxns draws).1)
    (hdrawn : ∀ u ∈ (generateTxns draws).1, u.Drawn rc.numWarehouses)
    (hguard : guardPasses (rc.config fl) (generateTxns draws).1 = true)
    (hcut : OrderRun fl rc durable entryCrid deletePath done g t)
    (hafter : g.run deletePath (after.map fillAll) = .ok g')
    (hback : RolledBack fl rc g t cpuOrders cpuOls)
    (hn : NoWrap (rc.config fl)) (hA : 3000 < (rc.config fl).auxNumSlotsPerDistrict)
    (hstride : ∀ x ∈ done.flatten, (x.1.fill x.2).WithinStride (rc.config fl))
    (hin : MintsInside fl rc g.index) {items items' : ℕ → ℕ → ℕ}
    (hitems : ∀ x ∈ loadedOrders rc.numWarehouses, ∀ i < 15,
      items' (cacheIdx (rc.config fl).auxNumSlotsPerDistrict x.wId x.dId x.oId) i =
        items (cacheIdx (rc.config fl).auxNumSlotsPerDistrict x.wId x.dId x.oId) i)
    {mem mem' : ℕ → ℕ} {threads : List ℕ} (hth : threads.Perm
      (List.range (rc.numWarehouses * 10 * (rc.config fl).auxNumSlotsPerDistrict))) :
    let s := recoverShadow (rc.config fl) g'.durable g.index.freeStarts g.noDeleteCount
    ∃ f, rebuildFromShadow (rc.config fl) true items' mem' threads s cpuOrders cpuOls = .ok f ∧
      SameAux (rc.config fl) s f (FlatAux.run (rc.config fl).auxNumSlotsPerDistrict rc.numWarehouses
        items mem (done.map fun e => e.map Prod.fst)) ∧
      WritesInside (rc.config fl) g (done.flatten.map Prod.fst) s cpuOrders cpuOls f.log.customers := by
  obtain ⟨hlog₀, hgen, hroom⟩ := @FieldsFit.start fl _ _ _ _ durable entryCrid hr hf hrun
  obtain ⟨ho, hok⟩ := ordersOk_of_run hr hf hrun hdrawn hguard hstride
  have hgenD : ∀ txns ∈ done.map fillAll, Generated (rc.config fl) deletePath txns := fun txns ht =>
    hgen txns (by simp only [List.map_append, List.mem_append]; exact Or.inl (Or.inl ht))
  have hgenA : ∀ txns ∈ after.map fillAll, Generated (rc.config fl) deletePath txns := fun txns ht =>
    hgen txns (by simp only [List.map_append, List.mem_append]; exact Or.inl (Or.inr ht))
  rw [List.append_assoc, List.map_append, List.map_append, List.map_append, List.map_append,
    List.sum_append, List.sum_append] at hroom
  have hroomD : Room (GpuIndex.init (rc.config fl) durable entryCrid).index
      ((done.map fillAll).map List.length).sum := by
    obtain ⟨r1, r2, r3⟩ := hroom
    exact ⟨by omega, by omega, by omega⟩
  have hstrideD : ∀ txns ∈ done.map fillAll, ∀ u ∈ txns, u.WithinStride (rc.config fl) := by
    intro txns ht u hu
    obtain ⟨e, he, rfl⟩ := List.mem_map.mp ht
    obtain ⟨x, hx, rfl⟩ := List.mem_map.mp hu
    exact hstride x (List.mem_flatten.mpr ⟨e, he, hx⟩)
  have hflat : (done.map fillAll).flatten = fillAll done.flatten := by
    rw [fillAll, List.map_flatten]
    rfl
  obtain ⟨js, hlog, hslot, hgo, hgl⟩ := grown_run hlog₀ hgenD hroomD hcut.run
  obtain ⟨js₁, hlog₁, hroom₁, -, -⟩ := logged_run hlog₀ (fun t ht => (hgenD t ht).numbered) hroom hcut.run
  obtain ⟨-, -, -, hkeep, -⟩ := logged_run hlog₁ (fun t ht => (hgenA t ht).numbered) hroom₁ hafter
  have hst := orderRun_stored hcut hlog₀ (fun e he => hgenD _ (List.mem_map_of_mem he)) hroomD
    (otherOrder_run hr hrun)
  rw [hflat] at hgo hgl
  have hm : Mirrors (rc.config fl) g (done.flatten.map Prod.fst)
      (recoverShadow (rc.config fl) g'.durable g.index.freeStarts g.noDeleteCount) := by
    refine mirrors_cut hf.warehouses hlog (hslot (slotted_init hW1 hf.warehouses) hstrideD) hkeep hgo hgl hok fun {w d o c its} hmem => ?_
    obtain ⟨x, hx, he⟩ := List.mem_map.mp hmem
    have hstored := hst x hx
    rw [he] at hstored
    exact ⟨hstored.1.present, fun {j y} hy => (hstored.2 j y hy).present⟩
  have hreads := reads_of_run hlog hin hback ho hm hst
  have hmap : done.flatten.map Prod.fst = (done.map fun e => e.map Prod.fst).flatten := by
    rw [List.map_flatten]
  rw [hmap] at ho hm hreads ⊢
  exact rebuilt_same hn hA ho hm hreads hitems hth

end

/-! ### One new order -/

/-- A run of one warehouse in either mode of the OrderLine index, of forty epochs of one transaction. -/
def oneOrderRun (flatOL : Bool) : RunConfig := ⟨⟨45, 43, 4, 4, 4⟩, 1, 40, 1, true, flatOL⟩

/-- Customer 7 of district 1 orders item 8 five times; Payments follow. -/
def oneOrderDraws : List Draw :=
  .newOrder 1 1 7 (List.replicate 5 ⟨8, 1, 1⟩) :: List.replicate 39 (.payment 1 1 1 1 7 5)

def oneOrderEpoch : List (TxnInput × Aux) :=
  [(.newOrder 1 1 3001 7 (List.replicate 5 ⟨8, 1, 1⟩), ⟨1, 0, fun _ => 0⟩)]

/-- The epochs after it. -/
def paymentEpochs : List (List (TxnInput × Aux)) :=
  List.replicate 39 [(.payment 1 1 1 1 7 5, ⟨1, 0, fun _ => 0⟩)]

/-- Parameters and registers that hold nothing. -/
def noRest : Rest where
  newOrder := ⟨0, 0, 0, 0, 0, 0, 0, 0, []⟩
  item _ := ⟨0, 0, 0, 0, 0, 0⟩
  payment := ⟨0, 0, 0, 0⟩
  customerId _ := 0
  deliveredFlag := none
  result _ := 0
  amount _ := 0

theorem executes_exists (fl : ℚ → ℚ) (rc : RunConfig) (xs : List (TxnInput × TxnParams))
    (t : Exec.Tables) : ∃ t', Executes fl rc xs t t' := by
  induction xs generalizing t with
  | nil => exact ⟨t, .nil⟩
  | cons x xs ih =>
    obtain ⟨t', h⟩ := ih (execTxn fl rc noRest t x.1 x.2)
    exact ⟨t', .cons noRest h⟩

section
variable {flatOL : Bool}

theorem oneOrderRun_config : (oneOrderRun flatOL).config id = ⟨1, 27, 2, flatOL⟩ := by
  simp only [RunConfig.config, RunConfig.newOrderInsertPoolSize, RunConfig.perDistrict,
    TxnMix.newOrderShare, TxnMix.totalWeight, oneOrderRun, id]
  norm_num [show ⌊(1107 : ℚ) / 40⌋₊ = 27 by norm_num [Nat.floor_eq_iff]]

theorem oneOrderRun_lines : (oneOrderRun flatOL).orderLineInsertPoolSize id = 276 := by
  simp only [RunConfig.orderLineInsertPoolSize, TxnMix.newOrderShare, TxnMix.totalWeight, oneOrderRun,
    id]
  norm_num [show ⌊(1107 : ℚ) / 4⌋₊ = 276 by norm_num [Nat.floor_eq_iff]]

theorem oneOrderDraws_inRange : ∀ x ∈ oneOrderDraws, x.InRange (oneOrderRun flatOL).numWarehouses := by
  simp [Draw.InRange, oneOrderRun, oneOrderDraws]

theorem oneOrder_txns : (generateTxns oneOrderDraws).1 =
    .newOrder 1 1 3001 7 (List.replicate 5 ⟨8, 1, 1⟩) :: List.replicate 39 (.payment 1 1 1 1 7 5) := by
  decide

theorem oneOrderEpoch_run : ([oneOrderEpoch] ++ [] ++ paymentEpochs).flatten.map Prod.fst =
    (generateTxns oneOrderDraws).1 := by decide

theorem oneOrderEpoch_fit :
    FieldsFit (oneOrderRun flatOL) true oneOrderDraws ([oneOrderEpoch] ++ [] ++ paymentEpochs) := by
  have hepoch : ∀ e ∈ [oneOrderEpoch] ++ [] ++ paymentEpochs, e.length = 1 ∧ ∀ x ∈ e, x.2.Ok := by
    intro e he
    have hok : (⟨1, 0, fun _ => 0⟩ : Aux).Ok := ⟨by decide, by decide, fun _ => Nat.zero_le _⟩
    rw [List.append_nil] at he
    rcases List.mem_append.mp he with he | he
    · rw [List.mem_singleton.mp he]
      exact ⟨rfl, List.forall_mem_singleton.mpr hok⟩
    · rw [List.eq_of_mem_replicate he]
      exact ⟨rfl, List.forall_mem_singleton.mpr hok⟩
  exact ⟨show 1 < 2 ^ 8 by decide, nextOid_few (@oneOrderDraws_inRange flatOL) (by decide),
    fun _ _ _ => rfl, fun e he => (hepoch e he).2, fun e he => by rw [(hepoch e he).1]; decide,
    show 1 * 10 * 3000 * 15 + 15 * 40 ≤ kAbsent by decide⟩

/-- What the run of the first epoch starts from. -/
theorem oneOrder_start :
    Logged ((oneOrderRun flatOL).config id)
      (GpuIndex.init ((oneOrderRun flatOL).config id) noDurable fun _ => 0) (loadJournals 1) ∧
    (∀ txns ∈ [oneOrderEpoch].map fillAll, Generated ((oneOrderRun flatOL).config id) true txns) ∧
    Room (GpuIndex.init ((oneOrderRun flatOL).config id) noDurable fun _ => 0).index
      (([oneOrderEpoch].map fillAll).map List.length).sum := by
  obtain ⟨hlog, hgen, -⟩ := @FieldsFit.start id _ _ _ _ noDurable (fun _ => 0)
    (@oneOrderDraws_inRange flatOL) oneOrderEpoch_fit oneOrderEpoch_run
  refine ⟨hlog, fun txns ht => hgen txns ?_, room_init ?_ noDurable fun _ => 0⟩
  · rw [List.map_append]
    exact List.mem_append_left _ ht
  · exact show 1 * 10 * 3000 * 15 + 15 * 1 ≤ kAbsent by decide

theorem oneOrder_guard :
    guardPasses ((oneOrderRun flatOL).config id) (generateTxns oneOrderDraws).1 = true := by
  rw [oneOrderRun_config]
  cases flatOL <;> decide

/-- The run of the epoch over any tables. -/
theorem oneOrder_runs (t₀ : Exec.Tables) : ∃ g t, OrderRun id (oneOrderRun flatOL) noDurable (fun _ => 0)
    true [oneOrderEpoch] g t := by
  obtain ⟨hlog, hgen, hroom⟩ := @oneOrder_start flatOL
  obtain ⟨g, hg⟩ := indexTxns_returns hlog (hgen _ (List.mem_singleton_self _)) hroom fun k hk => by
    have hkeys : (orderLineInput (fillAll oneOrderEpoch)).validInsert =
        [1, 2, 3, 4, 5].map (orderLineKey 3001 1 1) := by decide
    rw [hkeys] at hk
    obtain ⟨ol, hol, rfl⟩ := List.mem_map.mp hk
    cases flatOL with
    | true =>
      have hline : LineOk 3003 (orderLineKey 3001 1 1 ol) := by
        revert ol
        decide
      rw [show (GpuIndex.init ((oneOrderRun true).config id) noDurable fun _ => 0).index.orderLine.store =
        .flat (flatInitialPop 1 3003) 3003 by rw [oneOrderRun_config]; rfl]
      exact hline
    | false => trivial
  cases hout : indexTxns true (GpuIndex.init ((oneOrderRun flatOL).config id) noDurable
      fun _ => 0).index (fillAll oneOrderEpoch) with
  | error e => rw [GpuIndex.indexTxns, hout] at hg; exact absurd hg (by simp [bind, Except.bind])
  | ok r =>
    obtain ⟨t, ht⟩ := executes_exists id (oneOrderRun flatOL)
      ((oneOrderEpoch.map Prod.fst).zip r.2.params) t₀
    have hstart : OrderRun id (oneOrderRun flatOL) noDurable (fun _ => 0) true [] _ t₀ := .start
    exact ⟨g, t, hstart.epoch hout hg ht⟩

theorem oneOrder_inside {g : GpuIndex} {t : Exec.Tables}
    (h : OrderRun id (oneOrderRun flatOL) noDurable (fun _ => 0) true [oneOrderEpoch] g t) :
    MintsInside id (oneOrderRun flatOL) g.index := by
  have hadv := advances_run (fun e he x hx => by
    rw [List.mem_singleton.mp he] at hx
    rw [List.mem_singleton.mp hx]
    decide) h.run
  have hlines : numOrderLines ([oneOrderEpoch].flatten.map Prod.fst) = 5 := by decide
  have hge := hadv.orderLine.ge
  rw [hlines] at hge
  refine (mintsInside_iff hadv ?_).mpr ?_
  · exact (show numNewOrders ([oneOrderEpoch].flatten.map Prod.fst) ≤ 1 * 10 * 900 by decide).trans
      (Nat.le_add_right _ _)
  · rw [oneOrderRun_lines]
    exact hge.trans (show 0 + 5 ≤ 276 by decide)

end

/-- A rolled-back store that holds the values of the cut. -/
def keptRows {V : Type} (rows : ℕ → V) (row : ℕ) : Stager.Rec V := ⟨1, 0, rows row, rows row⟩

theorem latestValue_keptRows {V : Type} {rows : ℕ → V} {row : ℕ} :
    latestValue (keptRows rows row) = rows row := if_pos (Nat.zero_le _)

/-- With the flat OrderLine index the rebuilt auxiliary index is that of the run. -/
theorem aux_rebuild_flat : ∃ g t f,
    OrderRun id (oneOrderRun true) noDurable (fun _ => 0) true [oneOrderEpoch] g t ∧
    rebuildFromShadow ((oneOrderRun true).config id) true (fun _ _ => 5) (fun _ => 0)
      (List.range ((oneOrderRun true).numWarehouses * 10 *
        ((oneOrderRun true).config id).auxNumSlotsPerDistrict))
      (recoverShadow ((oneOrderRun true).config id) g.durable g.index.freeStarts g.noDeleteCount)
      (keptRows t.order.rows) (keptRows t.orderLine.rows) = .ok f ∧
    SameAux ((oneOrderRun true).config id)
      (recoverShadow ((oneOrderRun true).config id) g.durable g.index.freeStarts g.noDeleteCount) f
      (FlatAux.run ((oneOrderRun true).config id).auxNumSlotsPerDistrict
        (oneOrderRun true).numWarehouses (fun _ _ => 5) (fun _ => 0)
        ([oneOrderEpoch].map fun e => e.map Prod.fst)) := by
  obtain ⟨g, t, hcut⟩ := @oneOrder_runs true (Exec.stocked 0)
  have hback : RolledBack id (oneOrderRun true) g t (keptRows t.order.rows)
      (keptRows t.orderLine.rows) := ⟨fun _ _ => latestValue_keptRows, fun _ _ => latestValue_keptRows⟩
  have hdrawn : ∀ u ∈ (generateTxns oneOrderDraws).1, u.Drawn (oneOrderRun true).numWarehouses := by
    have horder : (TxnInput.newOrder 1 1 3001 7 (List.replicate 5 ⟨8, 1, 1⟩)).Drawn 1 :=
      ⟨⟨by decide, by decide, by decide⟩, by decide⟩
    intro u hu
    rw [oneOrder_txns] at hu
    rcases List.mem_cons.mp hu with rfl | hu
    · exact horder
    · rw [List.eq_of_mem_replicate hu]
      trivial
  have hn : NoWrap ((oneOrderRun true).config id) := by
    rw [oneOrderRun_config]
    exact ⟨by decide, by decide, by decide⟩
  have hA : 3000 < ((oneOrderRun true).config id).auxNumSlotsPerDistrict := by
    rw [oneOrderRun_config]
    decide
  have hstride : ∀ x ∈ [oneOrderEpoch].flatten,
      (x.1.fill x.2).WithinStride ((oneOrderRun true).config id) := by
    intro x hx
    rw [List.flatten_cons, List.flatten_nil, List.append_nil] at hx
    rw [List.mem_singleton.mp hx, oneOrderRun_config]
    exact ⟨by decide, fun h => absurd h (by decide)⟩
  obtain ⟨f, hf, hsame, -⟩ := @aux_rebuild_of_slots id (oneOrderRun true) oneOrderDraws true
    [oneOrderEpoch] [] paymentEpochs noDurable (fun _ => 0) g g t _ _ (by decide) oneOrderDraws_inRange
    oneOrderEpoch_fit oneOrderEpoch_run hdrawn oneOrder_guard hcut rfl hback hn hA hstride
    (oneOrder_inside hcut) (fun _ _ => 5) (fun _ _ => 5) (fun _ _ _ _ => rfl) (fun _ => 0) (fun _ => 0) _
    (List.Perm.refl _)
  exact ⟨g, t, f, hcut, hf, hsame⟩

/-! ### Hash mode -/

section
variable {cfg : Config} {shadowOl : ℕ → ℕ} {cpuOls : ℕ → Stager.Rec Exec.OrderLineValue} {i : ℕ}

theorem lineWrite_some {x : LineWrite} (h : lineWrite cfg shadowOl cpuOls i = some x) :
    shadowOl i ≠ kAbsent ∧ cfg.numWarehouses * 10 * 3000 * 15 ≤ shadowOl i ∧
      x.olIId = (latestValue (cpuOls (shadowOl i))).olIId.toNat := by
  simp only [lineWrite] at h
  split_ifs at h with h1 h2 h3 h4
  rw [← Option.some.inj h]
  exact ⟨h1, by omega, rfl⟩

end

/-- What is known of the run of one order in hash mode. -/
structure HashRun (g : GpuIndex) (t : Exec.Tables) (js : Journals) : Prop where
  logged : Logged ((oneOrderRun false).config id) g js
  lines : ∀ k ∈ js.ol.minted, k ∈ initialLineKeys ((oneOrderRun false).config id).numWarehouses ∨
    k ∈ (orderLineInput (fillAll oneOrderEpoch)).validInsert
  stored : OrderStored id (oneOrderRun false) g t
    (.newOrder 1 1 3001 7 (List.replicate 5 ⟨8, 1, 1⟩))
  inside : MintsInside id (oneOrderRun false) g.index

theorem loadJournals_ol (W : ℕ) : (loadJournals W).ol.minted = initialLineKeys W := rfl

theorem initialLog_numItems {stride W w d o : ℕ} (hA : 3000 < stride)
    (h : (⟨w, d, o, o⟩ : CustomerOrder) ∈ loadedOrders W) (items : ℕ → ℕ → ℕ) :
    (initialLog stride W items).numItems (cacheIdx stride w d o) = 15 := (initialLog_loaded hA h).1

theorem hashRun_exists : ∃ g t js,
    OrderRun id (oneOrderRun false) noDurable (fun _ => 0) true [oneOrderEpoch] g t ∧ HashRun g t js := by
  obtain ⟨g, t, hcut⟩ := @oneOrder_runs false (Exec.stocked 0)
  obtain ⟨hlog₀, hgen, hroom⟩ := @oneOrder_start false
  obtain ⟨js, hlog, -, -, hgl⟩ := grown_run hlog₀ hgen hroom hcut.run
  have hstored := orderRun_stored hcut hlog₀ (fun e he => hgen _ (List.mem_map_of_mem he)) hroom
    (otherOrder_run (@oneOrderDraws_inRange false) oneOrderEpoch_run) _ List.mem_cons_self
  have hflat : ([oneOrderEpoch].map fillAll).flatten = fillAll oneOrderEpoch := by simp
  rw [hflat, loadJournals_ol] at hgl
  exact ⟨g, t, js, hcut, hlog, hgl, hstored, oneOrder_inside hcut⟩

section
variable {g : GpuIndex} {t : Exec.Tables} {js : Journals} (h : HashRun g t js)
include h

theorem HashRun.shadow_ol : (recoverShadow ((oneOrderRun false).config id) g.durable g.index.freeStarts
    g.noDeleteCount).ol = dense (denseOf 3000) js.ol := by
  have h3000 : maxOOl ((oneOrderRun false).config id) = 3000 := rfl
  rw [← h3000]
  exact reconstruct_ol (show 1 < 2 ^ 8 by decide) h.logged (Keeps.refl g)

theorem HashRun.init : g.index.orderLine.init = 450000 := by
  rw [h.logged.orderLine.init, length_initialLineKeys]
  rfl

/-- Every line the loop writes has item 8. -/
theorem HashRun.item {x : LineWrite} (hx : x ∈ lineWrites ((oneOrderRun false).config id)
      (recoverShadow ((oneOrderRun false).config id) g.durable g.index.freeStarts g.noDeleteCount)
      (keptRows t.orderLine.rows)) : x.olIId = 8 := by
  obtain ⟨i, -, hi⟩ := List.mem_filterMap.mp hx
  obtain ⟨hne, hnew, hval⟩ := lineWrite_some hi
  rw [h.shadow_ol] at hne hnew hval
  obtain ⟨k, hk, -, hlive⟩ := dense_record h.logged.orderLine.inv h.logged.orderLine.ended hne
  rw [← hlive, ← h.logged.orderLine.live] at hne hnew hval
  have hnew' : g.index.orderLine.init ≤ g.index.orderLine.store.lookup k := h.init.le.trans hnew
  rcases h.lines k hk with hinit | hins
  · exact absurd ((h.logged.orderLine.loaded_iff hne).mpr hinit) hnew'.not_gt
  · obtain ⟨w, d, o, c, items, j, y, hmem, hy, rfl⟩ := line_of_insert hins
    obtain ⟨rfl, rfl, rfl, rfl, rfl⟩ := TxnInput.newOrder.inj (List.mem_singleton.mp hmem)
    obtain rfl := List.eq_of_mem_replicate (List.mem_of_getElem? hy)
    have hlt := h.logged.orderLine.row_lt h.inside.orderLine hne hnew'
    rw [hval, latestValue_keptRows, (h.stored.2 j _ hy).word hlt]
    rfl

/-- The first line is written to the slot of order 1 of district 2. -/
theorem HashRun.line : ∃ x ∈ lineWrites ((oneOrderRun false).config id)
      (recoverShadow ((oneOrderRun false).config id) g.durable g.index.freeStarts g.noDeleteCount)
      (keptRows t.orderLine.rows), x.slot = cacheIdx 3003 1 2 1 ∧ x.ol = 1 := by
  have hpres := (h.stored.2 0 ⟨8, 1, 1⟩ rfl).present
  have hnew : 450000 ≤ g.index.orderLine.store.lookup (orderLineKey 3001 1 1 1) := by
    rw [← h.init, ← not_lt, h.logged.orderLine.loaded_iff hpres]
    intro hinit
    obtain ⟨x, hx, he⟩ := List.mem_map.mp hinit
    obtain ⟨hxo, -, hx15⟩ := mem_initialLines hx
    obtain ⟨hxok, -, hx3000⟩ := initialOrder_ok (show 1 < 2 ^ 8 by decide) hxo
    have := (orderLineKey_inj hxok hx15 ⟨by decide, by decide, by decide⟩ (by decide) he).1
    omega
  rw [h.logged.orderLine.live] at hpres hnew
  have hslot : denseOf 3000 (orderLineKey 3001 1 1 1) = 45000 := by decide
  obtain ⟨hle, hne⟩ := @dense_ne_absent (denseOf 3000) js.ol h.logged.orderLine.inv
    h.logged.orderLine.ended _ _ (h.logged.orderLine.inv.owner _ hpres)
  rw [hslot, ← h.shadow_ol] at hle hne
  have hcfg : (oneOrderRun false).config id = ⟨1, 27, 2, false⟩ := oneOrderRun_config
  generalize recoverShadow ((oneOrderRun false).config id) g.durable g.index.freeStarts
    g.noDeleteCount = s at hle hne ⊢
  rw [hcfg]
  have hturn : lineWrite ⟨1, 27, 2, false⟩ s.ol (keptRows t.orderLine.rows) 45000 =
      some ⟨⟨1, 2, 1⟩, 1, s.ol 45000, 3004,
        (latestValue (keptRows t.orderLine.rows (s.ol 45000))).olIId.toNat⟩ := by
    have hdecode : decodeLineId (maxOOl ⟨1, 27, 2, false⟩) 45000 = (⟨1, 2, 1⟩, 1) := rfl
    have hnum : auxNumSlots ⟨1, 27, 2, false⟩ = 30030 := by decide
    have haux : auxSlot ⟨1, 27, 2, false⟩ 1 2 1 = 3004 := by decide
    have hge : 450000 ≤ s.ol 45000 := hnew.trans hle
    simp only [lineWrite, hdecode, hnum, haux]
    rw [if_neg hne, if_neg (by omega), if_neg (by decide), if_neg (by decide)]
  exact ⟨_, List.mem_filterMap.mpr ⟨45000, List.mem_range.mpr (by decide), hturn⟩, rfl, rfl⟩

theorem HashRun.items (log : OrderLog) : (rebuildLog ((oneOrderRun false).config id)
      (recoverShadow ((oneOrderRun false).config id) g.durable g.index.freeStarts g.noDeleteCount)
      (keptRows t.order.rows) (keptRows t.orderLine.rows) log).items (cacheIdx 3003 1 2 1) 0 = 8 := by
  rw [rebuildLog, writeLines_items]
  obtain ⟨x, hx, hslot, hol⟩ := h.line
  refine writeAll_of_agree _ (fun v hv _ => ?_) (List.mem_map.mpr ⟨_, List.mem_map_of_mem hx, ?_⟩)
  · obtain ⟨y, hy, rfl⟩ := List.mem_map.mp hv
    exact h.item hy
  · rw [hslot, hol]

theorem HashRun.live : LiveOrder ((oneOrderRun false).config id)
    (recoverShadow ((oneOrderRun false).config id) g.durable g.index.freeStarts g.noDeleteCount)
    1 2 1 := by
  have hso : (recoverShadow ((oneOrderRun false).config id) g.durable g.index.freeStarts
      g.noDeleteCount).o = dense (denseOfOrder (computeOrdersMaxO ((oneOrderRun false).config id))) js.o :=
    reconstruct_o (show 1 < 2 ^ 8 by decide) h.logged (Keeps.refl g)
  have hmax := @computeOrdersMaxO_ge ((oneOrderRun false).config id) (by decide)
  have hmem : orderKey 1 2 1 ∈ js.o.minted := by
    rw [h.logged.order.minted]
    refine List.mem_append_left _ (List.mem_map.mpr ⟨⟨1, 2, 1⟩, ?_, rfl⟩)
    rw [initialOrders_eq]
    exact List.mem_map.mpr ⟨3000, List.mem_range.mpr (show 3000 < 1 * 10 * 3000 by decide), rfl⟩
  obtain ⟨c, hc⟩ := List.mem_iff_getElem?.mp hmem
  refine ⟨by decide, by decide, by omega, ?_⟩
  rw [hso, ← denseOfOrder_key ⟨by decide, by decide, by decide⟩]
  exact (dense_ne_absent h.logged.order.inv h.logged.order.ended hc).2

end

/-- In hash mode the lines of order 3001 of district 1 are taken for those of order 1 of district 2:
    the rebuilt index has item 8 there, the run has what the loader drew. -/
theorem aux_rebuild_hash : ∃ g t f,
    guardPasses ((oneOrderRun false).config id) (generateTxns oneOrderDraws).1 = true ∧
    OrderRun id (oneOrderRun false) noDurable (fun _ => 0) true [oneOrderEpoch] g t ∧
    rebuildFromShadow ((oneOrderRun false).config id) true (fun _ _ => 5) (fun _ => 0)
      (List.range ((oneOrderRun false).numWarehouses * 10 *
        ((oneOrderRun false).config id).auxNumSlotsPerDistrict))
      (recoverShadow ((oneOrderRun false).config id) g.durable g.index.freeStarts g.noDeleteCount)
      (keptRows t.order.rows) (keptRows t.orderLine.rows) = .ok f ∧
    ¬ SameAux ((oneOrderRun false).config id)
      (recoverShadow ((oneOrderRun false).config id) g.durable g.index.freeStarts g.noDeleteCount) f
      (FlatAux.run ((oneOrderRun false).config id).auxNumSlotsPerDistrict
        (oneOrderRun false).numWarehouses (fun _ _ => 5) (fun _ => 0)
        ([oneOrderEpoch].map fun e => e.map Prod.fst)) := by
  obtain ⟨g, t, js, hcut, h⟩ := hashRun_exists
  obtain ⟨f, hf, hflog⟩ := rebuildFromShadow_flat ((oneOrderRun false).config id) (fun _ _ => 5)
    (fun _ => 0) (List.range ((oneOrderRun false).numWarehouses * 10 *
      ((oneOrderRun false).config id).auxNumSlotsPerDistrict))
    (recoverShadow ((oneOrderRun false).config id) g.durable g.index.freeStarts g.noDeleteCount)
    (keptRows t.order.rows) (keptRows t.orderLine.rows)
  refine ⟨g, t, f, oneOrder_guard, hcut, hf, fun hsame => ?_⟩
  have hA : ((oneOrderRun false).config id).auxNumSlotsPerDistrict = 3003 := by
    rw [oneOrderRun_config]
    rfl
  have hloaded : (⟨1, 2, 1, 1⟩ : CustomerOrder) ∈ loadedOrders (oneOrderRun false).numWarehouses :=
    mem_loadedOrders.mpr ⟨⟨by decide, by decide, by decide⟩, rfl⟩
  have hlog : (FlatAux.run 3003 (oneOrderRun false).numWarehouses (fun _ _ => 5) (fun _ => 0)
      ([oneOrderEpoch].map fun e => e.map Prod.fst)).log = (initialLog 3003
        (oneOrderRun false).numWarehouses fun _ _ => 5).insert 3003
          (.newOrder 1 1 3001 7 (List.replicate 5 ⟨8, 1, 1⟩)) := by
    rw [flatAux_run_log]
    simp only [oneOrderEpoch, List.map_cons, List.map_nil, List.flatten_cons, List.flatten_nil,
      List.append_nil, List.foldl_cons, List.foldl_nil]
  have hne : cacheIdx 3003 1 2 1 ≠ cacheIdx 3003 1 1 3001 := by decide
  have hfifteen : (initialLog 3003 (oneOrderRun false).numWarehouses fun _ _ => 5).numItems
      (cacheIdx 3003 1 2 1) = 15 := initialLog_numItems (by decide) hloaded _
  have hitems := hsame.items 1 2 1 h.live 0
  rw [hflog, hA] at hitems
  simp only [hlog, OrderLog.insert, Function.update_of_ne hne] at hitems
  rw [hfifteen, initialLog_items, h.items] at hitems
  exact absurd (hitems (by decide)) (by decide)

end Egad.Tpcc
