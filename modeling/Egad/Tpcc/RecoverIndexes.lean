import Egad.Tpcc.ShadowRun

/-! # The rebuilt indexes

    For every history and every cut in it, recovery rebuilds the three indexes of the cut from the
    durable arrays at the end of the history, whenever the NewOrder transactions up to the cut have
    order ids within the strides. In hash mode an order id past the 3000 loaded ones is not: its lines
    take the slots of the next district's first orders. -/

namespace Egad.Tpcc
open Egad.Lib Egad.Timeline

/-! ### The initial population -/

section
variable {cfg : Config}

/-- The journal of a load. -/
def loadJournal (keys : List ℕ) : Journal ℕ := ⟨Journal.mintAll (fun _ => kAbsent) 0 keys, keys, []⟩

theorem dense_load (slot : ℕ → ℕ) (keys : List ℕ) :
    dense slot (loadJournal keys) = Journal.mintAll (fun _ => kAbsent) 0 (keys.map slot) := rfl

theorem loadCuco_cells {keys : List ℕ} (hnd : keys.Nodup) :
    (loadCuco keys).cells = Journal.mintAll (fun _ => kAbsent) 0 keys :=
  Journal.insertAll_zipIdx keys _ 0 hnd fun _ _ => rfl

theorem load_below (keys : List ℕ) (c : ℕ) (hc : Journal.mintAll (fun _ => kAbsent) 0 keys c ≠ kAbsent) :
    Journal.mintAll (fun _ => kAbsent) 0 keys c < keys.length :=
  (Journal.mintAll_lt keys c).resolve_left hc

theorem loadCuco_logged {keys : List ℕ} (hnd : keys.Nodup) (hfits : keys.length ≤ kAbsent)
    (entryCrid : ℕ → ℕ) (log : ℕ → ℕ) :
    TableLogged keys (loadTable (loadCuco keys) keys.length entryCrid) log [] (loadJournal keys) := by
  refine ⟨Journal.Inv.load hnd hfits, ?_, by simp [loadTable, loadJournal], rfl, rfl, fun c hc => ?_,
    fun _ => rfl⟩
  · funext k
    exact congrFun (loadCuco_cells hnd) k
  · simp only [loadTable, loadCuco_cells hnd] at hc ⊢
    exact load_below keys c hc

theorem loadFlat_logged {W maxO : ℕ} (hW : W < 2 ^ 8) (hmax : 3000 ≤ maxO)
    (hfits : W * 10 * 3000 * 15 ≤ kAbsent) (entryCrid : ℕ → ℕ) (log : ℕ → ℕ) :
    TableLogged (initialLineKeys W)
      (loadTable (.flat (flatInitialPop W maxO) maxO) (W * 10 * 3000 * 15) entryCrid) log []
      (loadJournal (initialLineKeys W)) := by
  have hlen := length_initialLineKeys W
  have hinv : (loadJournal (initialLineKeys W)).Inv kAbsent :=
    Journal.Inv.load (initialLineKeys_nodup hW) (by rw [hlen]; exact hfits)
  refine ⟨hinv, ?_, by simp [loadTable, loadJournal], rfl, hlen.symm, fun c hc => ?_, fun _ => rfl⟩
  · funext k
    simp only [loadTable]
    rw [flatInitialPop_eq hW, ← dense_load]
    exact flat_dense hinv (fun k hk => initialLine_ok hW hmax hk) k
  · simp only [loadTable, Store.cells, flatInitialPop_eq hW] at hc ⊢
    have := load_below _ c hc
    rw [List.length_map, hlen] at this
    exact this

theorem computeOrdersMaxO_ge (hW : 1 ≤ cfg.numWarehouses) : 3000 ≤ computeOrdersMaxO cfg := by
  have hsize : cfg.numWarehouses * 2 * 10 * 3000 ≤ max cfg.orderTableSize cfg.newOrderTableSize := by
    refine le_trans ?_ (le_max_left _ _)
    rw [Config.orderTableSize]
    omega
  rw [computeOrdersMaxO, Nat.le_div_iff_mul_le (by omega)]
  omega

theorem computeOLMaxO_ge (cfg : Config) : 3000 ≤ computeOLMaxO cfg := by
  rw [computeOLMaxO, Config.auxNumSlotsPerDistrict]
  omega

/-- The journals of the initial population. -/
def loadJournals (W : ℕ) : Journals :=
  ⟨loadJournal (initialNewOrderKeys W), loadJournal (initialOrderKeys W), loadJournal (initialLineKeys W)⟩

theorem logged_init (hW : cfg.numWarehouses < 2 ^ 8)
    (hfits : cfg.numWarehouses * 10 * 3000 * 15 ≤ kAbsent) (durable : Durable) (entryCrid : ℕ → ℕ) :
    Logged cfg (GpuIndex.init cfg durable entryCrid) (loadJournals cfg.numWarehouses) := by
  have hlenN := length_initialNewOrderKeys cfg.numWarehouses
  have hlenO := length_initialOrderKeys cfg.numWarehouses
  have hlenL := length_initialLineKeys cfg.numWarehouses
  refine ⟨?_, ?_, ?_, ⟨_, _, rfl⟩, ⟨_, _, rfl⟩, ?_⟩
  · have h := loadCuco_logged (initialNewOrderKeys_nodup hW) (by omega) entryCrid durable.noKeys
    rw [hlenN] at h
    exact h
  · have h := loadCuco_logged (initialOrderKeys_nodup hW) (by omega) entryCrid durable.oKeys
    rw [hlenO] at h
    exact h
  · simp only [GpuIndex.init, loadIndex]
    split
    · exact loadFlat_logged hW (computeOLMaxO_ge cfg) hfits entryCrid durable.olKeys
    · have h := loadCuco_logged (initialLineKeys_nodup hW) (by omega) entryCrid durable.olKeys
      rw [hlenL] at h
      exact h
  · simp only [GpuIndex.init, loadIndex, OfMode]
    split
    · exact ⟨_, rfl⟩
    · exact ⟨_, _, rfl⟩

theorem slotted_init (hW1 : 1 ≤ cfg.numWarehouses) (hW : cfg.numWarehouses < 2 ^ 8) :
    Slotted cfg (loadJournals cfg.numWarehouses) := by
  have hmax := computeOrdersMaxO_ge hW1
  refine ⟨fun k hk => ?_, fun k hk => ?_, fun k hk => ?_⟩
  · obtain ⟨x, hx, rfl⟩ := List.mem_map.mp hk
    obtain ⟨hok, hw, ho⟩ := initialOrder_ok hW (List.mem_of_mem_filter hx)
    exact orderSlot_of_stride hok hw (ho.trans hmax)
  · obtain ⟨x, hx, rfl⟩ := List.mem_map.mp hk
    obtain ⟨hok, hw, ho⟩ := initialOrder_ok hW hx
    exact orderSlot_of_stride hok hw (ho.trans hmax)
  · cases hf : cfg.flatOL with
    | true =>
      rw [LineSlot, hf, if_pos rfl]
      exact initialLine_ok hW (computeOLMaxO_ge cfg) hk
    | false =>
      obtain ⟨x, hx, rfl⟩ := List.mem_map.mp hk
      obtain ⟨hx, h1, h15⟩ := mem_initialLines hx
      obtain ⟨hok, hw, ho⟩ := initialOrder_ok hW hx
      exact lineSlot_of_stride hf hok hw ho h1 h15

theorem room_init {n : ℕ} (hfits : cfg.numWarehouses * 10 * 3000 * 15 + 15 * n ≤ kAbsent)
    (durable : Durable) (entryCrid : ℕ → ℕ) : Room (GpuIndex.init cfg durable entryCrid).index n := by
  refine ⟨?_, ?_, ?_⟩ <;> simp only [GpuIndex.init, loadIndex, loadTable] <;> omega

/-! ### The dense arrays at a cut -/

/-- A table's array, reconstructed from later durable keys, replays the journal of the cut. -/
theorem reconstruct_dense {initial : List ℕ} {tbl : Table} {keys keys' : ℕ → ℕ} {dels : List (ℕ × ℕ)}
    {j : Journal ℕ} {slot : ℕ → ℕ} {base : ℕ} (h : TableLogged initial tbl keys dels j)
    (hbase : initial.length = base) (hkeep : ∀ i < tbl.freeStart, keys' i = keys i) :
    reconstructTable slot base keys' tbl.freeStart
        (Journal.mintAll (fun _ => kAbsent) 0 (initial.map slot)) =
      Journal.mintAll (fun _ => kAbsent) 0 (j.minted.map slot) := by
  have hkeys : (List.range tbl.freeStart).map keys' = (List.range tbl.freeStart).map keys :=
    List.map_congr_left fun i hi => hkeep i (List.mem_range.mp hi)
  rw [reconstructTable_eq, hkeys, h.minted, List.map_append, Journal.mintAll_append, List.length_map,
    hbase, Nat.zero_add]

theorem dense_of_no_deletes {j : Journal ℕ} (h : j.ended = []) (slot : ℕ → ℕ) :
    dense slot j = Journal.mintAll (fun _ => kAbsent) 0 (j.minted.map slot) := by
  rw [dense, h]; rfl

variable {g g' : GpuIndex} {js : Journals}

theorem reconstruct_no (hW : cfg.numWarehouses < 2 ^ 8) (hg : Logged cfg g js) (hkeep : Keeps g g') :
    (applyNoDeletesFromDurable cfg g'.durable g.noDeleteCount (reconstructInsertsFromDurable cfg
      g'.durable g.index.freeStarts (loadInitialData cfg))).no =
        dense (denseOfOrder (computeOrdersMaxO cfg)) js.no := by
  have hdel : ((List.range g.noDeleteCount).map fun i =>
      (g'.durable.noDeleteKeys i, g'.durable.noDeleteCrids i)) =
        (List.range g.noDeleteCount).map fun i =>
          (g.durable.noDeleteKeys i, g.durable.noDeleteCrids i) := by
    refine List.map_congr_left fun i hi => ?_
    obtain ⟨h1, h2⟩ := hkeep.del i (List.mem_range.mp hi)
    rw [h1, h2]
  rw [applyNoDeletes_eq, hdel, ← hg.newOrder.ended, dense, ← reconstruct_dense hg.newOrder
    (length_initialNewOrderKeys _) hkeep.no, ← loadInitialData_no hW]
  rfl

theorem reconstruct_o (hW : cfg.numWarehouses < 2 ^ 8) (hg : Logged cfg g js) (hkeep : Keeps g g') :
    (reconstructInsertsFromDurable cfg g'.durable g.index.freeStarts (loadInitialData cfg)).o =
      dense (denseOfOrder (computeOrdersMaxO cfg)) js.o := by
  rw [dense_of_no_deletes hg.order.ended, ← reconstruct_dense hg.order (length_initialOrderKeys _) hkeep.o,
    ← loadInitialData_o hW]
  rfl

theorem reconstruct_ol (hW : cfg.numWarehouses < 2 ^ 8) (hg : Logged cfg g js) (hkeep : Keeps g g') :
    (reconstructInsertsFromDurable cfg g'.durable g.index.freeStarts (loadInitialData cfg)).ol =
      dense (denseOf (maxOOl cfg)) js.ol := by
  rw [dense_of_no_deletes hg.orderLine.ended,
    ← reconstruct_dense hg.orderLine (length_initialLineKeys _) hkeep.ol, ← loadInitialData_ol hW]
  rfl

/-- The rebuilt indexes of a state whose logged keys have their slots. -/
theorem recover_eq (hW : cfg.numWarehouses < 2 ^ 8) (hg : Logged cfg g js) (hs : Slotted cfg js)
    (hkeep : Keeps g g') :
    let r := recoverIndexes cfg g'.durable g.index.freeStarts g.noDeleteCount
    r.1.lookup = g.index.newOrder.store.lookup ∧ r.2.1.lookup = g.index.order.store.lookup ∧
      r.2.2.lookup = g.index.orderLine.store.lookup := by
  have hlenN := hg.newOrder.length
  have hlenO := hg.order.length
  have hlenL := hg.orderLine.length
  rw [hg.newOrder.init, length_initialNewOrderKeys] at hlenN
  rw [hg.order.init, length_initialOrderKeys] at hlenO
  rw [hg.orderLine.init, length_initialLineKeys] at hlenL
  simp only [recoverIndexes, rebuildIndexesFromShadow]
  refine ⟨?_, ?_, ?_⟩
  · rw [reconstruct_no hW hg hkeep, eraseStragglers_dense (by rw [hlenN]; exact le_refl _), hg.newOrder.live]
    exact funext (upload_dense hg.newOrder.inv hs.no)
  · have ho : (applyNoDeletesFromDurable cfg g'.durable g.noDeleteCount (reconstructInsertsFromDurable cfg
        g'.durable g.index.freeStarts (loadInitialData cfg))).o = _ := reconstruct_o hW hg hkeep
    rw [ho, eraseStragglers_dense (by rw [hlenO]; exact le_refl _), hg.order.live]
    exact funext (upload_dense hg.order.inv hs.o)
  · have hol : (applyNoDeletesFromDurable cfg g'.durable g.noDeleteCount (reconstructInsertsFromDurable cfg
        g'.durable g.index.freeStarts (loadInitialData cfg))).ol = _ := reconstruct_ol hW hg hkeep
    rw [hol, eraseStragglers_dense (by rw [hlenL]; exact le_refl _), hg.orderLine.live]
    have hslots := hs.ol
    cases hf : cfg.flatOL with
    | true =>
      simp only [LineSlot, hf, if_true] at hslots
      rw [if_pos rfl, show maxOOl cfg = computeOLMaxO cfg by rw [maxOOl, hf]; rfl]
      exact funext (flat_dense hg.orderLine.inv hslots)
    | false =>
      simp only [LineSlot, hf, Bool.false_eq_true, if_false] at hslots
      rw [if_neg Bool.false_ne_true]
      exact funext (upload_dense hg.orderLine.inv hslots)

/-- For every history of epochs and every cut in it, the durable arrays at the end of the history
    rebuild the three key->CRID maps of the cut, provided the NewOrder transactions up to the cut have
    order ids within the shadow's strides. -/
theorem recoverIndexes_eq_index (hW1 : 1 ≤ cfg.numWarehouses) (hW : cfg.numWarehouses < 2 ^ 8)
    {durable : Durable} {entryCrid : ℕ → ℕ} {deletePath : Bool} {before after : List (List TpccTxn)}
    (hrows : cfg.numWarehouses * 10 * 3000 * 15 +
      15 * ((before.map List.length).sum + (after.map List.length).sum) ≤ kAbsent)
    (hgen : ∀ txns ∈ before ++ after, Generated cfg deletePath txns)
    (hstride : ∀ txns ∈ before, ∀ t ∈ txns, t.WithinStride cfg)
    (hbefore : (GpuIndex.init cfg durable entryCrid).run deletePath before = .ok g)
    (hafter : g.run deletePath after = .ok g') :
    let r := recoverIndexes cfg g'.durable g.index.freeStarts g.noDeleteCount
    r.1.lookup = g.index.newOrder.store.lookup ∧ r.2.1.lookup = g.index.order.store.lookup ∧
      r.2.2.lookup = g.index.orderLine.store.lookup := by
  obtain ⟨js, hlog, hroom, -, hslot⟩ := logged_run (logged_init hW (by omega) durable entryCrid)
    (fun t ht => (hgen t (by simp [ht])).numbered) (room_init hrows durable entryCrid) hbefore
  obtain ⟨-, -, -, hkeep, -⟩ :=
    logged_run (n := 0) hlog (fun t ht => (hgen t (by simp [ht])).numbered) hroom hafter
  exact recover_eq hW hlog (hslot (slotted_init hW1 hW) hstride) hkeep

/-- An epoch whose order lines all have a cell in the index does not throw. -/
theorem indexTxns_returns {deletePath : Bool} {txns : List TpccTxn} (hg : Logged cfg g js)
    (hgen : Generated cfg deletePath txns) (hroom : Room g.index txns.length)
    (hkeyed : ∀ k ∈ (orderLineInput txns).validInsert, g.index.orderLine.store.Keyed k) :
    ∃ g', g.indexTxns deletePath txns = .ok g' := by
  obtain ⟨hroomN, hroomO, hroomL⟩ := hroom
  have hleN := @newOrder_inserts_le deletePath txns
  have hleO := @order_inserts_le txns
  have hleL := @line_inserts_le txns
  have hinL : InputOk (orderLineInput txns) g.index.orderLine.store txns.length :=
    orderLineInput_ok (fun t ht => (hgen.each t ht).1) hgen.numbered.count
  obtain ⟨o, ho⟩ := tableEpoch_returns (orderInput_ok hgen.numbered.count hg.orderCuco) hg.order.ok
    (by unfold RowsFit; omega) fun v _ => by obtain ⟨m, e, h⟩ := hg.orderCuco; rw [h]; trivial
  obtain ⟨no, hno⟩ := tableEpoch_returns
    (newOrderInput_ok (fun t ht => (hgen.each t ht).1) hgen.numbered.count hg.newOrderCuco) hg.newOrder.ok
    (by unfold RowsFit; omega) fun v _ => by obtain ⟨m, e, h⟩ := hg.newOrderCuco; rw [h]; trivial
  obtain ⟨ol, hol⟩ := tableEpoch_returns hinL hg.orderLine.ok (by unfold RowsFit; omega)
    fun v hv => hkeyed v.key <| by
      rw [← hinL.insertKeys]
      exact List.mem_map_of_mem (mem_inserts.mpr ⟨hv, hinL.insert_of_no_deletes rfl v hv⟩)
  exact ⟨_, by rw [GpuIndex.indexTxns, Tpcc.indexTxns, indexWith, ho, hno, hol]; rfl⟩

/-- A table without deletes holds every key an epoch inserts. -/
theorem inserted_live {inp : TableInput} {numTxns : ℕ} {tbl tbl' : Table} {out : TableOut}
    (hin : InputOk inp tbl.store numTxns) (hno : inp.deletes = none) (hm : RowsFit inp tbl)
    (hspec : TableSpec inp numTxns tbl tbl' out) {v : Event} (hv : v ∈ inp.evs) :
    tbl'.store.lookup v.key ≠ kAbsent := by
  have hev := events_ordered inp.entries
  have hmem : v ∈ timelineOf inp.evs v.key := mem_timelineOf.mpr ⟨hv, rfl⟩
  have hins : ∀ w ∈ timelineOf inp.evs v.key, w.type = .insert := fun w hw =>
    hin.insert_of_no_deletes hno w (mem_timelineOf.mp hw).1
  rw [hspec.lookup, finalLives_eq]
  refine (serialCrid_eq_absent_iff hev (mintFits_of_rows hin hm) (List.append_nil _).symm).not.mpr ?_
  generalize timelineOf inp.evs v.key = l at hmem hins
  cases l using List.reverseRecOn with
  | nil => simp at hmem
  | append_singleton l w =>
    rw [lifeFold_append, lifeFold_cons, lifeFold_nil, lifeStep, hins w (by simp)]
    simp

theorem line_live {deletePath : Bool} {txns : List TpccTxn} (hg : Logged cfg g js)
    (hgen : Generated cfg deletePath txns) (hroom : Room g.index txns.length)
    (h : g.indexTxns deletePath txns = .ok g') {k : ℕ} (hk : k ∈ (orderLineInput txns).validInsert) :
    g'.index.orderLine.store.lookup k ≠ kAbsent := by
  obtain ⟨-, -, ⟨ol, lout⟩, -, -, hol, rfl⟩ := indexTxns_tables h
  have hleL := @line_inserts_le txns
  have hm : RowsFit (orderLineInput txns) g.index.orderLine := by
    have := hroom.orderLine
    unfold RowsFit; omega
  have hinL : InputOk (orderLineInput txns) g.index.orderLine.store txns.length :=
    orderLineInput_ok (fun t ht => (hgen.each t ht).1) hgen.numbered.count
  obtain ⟨hspec, -⟩ := tableEpoch_spec hinL hg.orderLine.ok hm hol
  rw [← hinL.insertKeys] at hk
  obtain ⟨v, hv, rfl⟩ := List.mem_map.mp hk
  exact inserted_live hinL rfl hm hspec (mem_inserts.mp hv).1

theorem olOId_orderLineKey (o d w ol : ℕ) : olOId (orderLineKey o d w ol) = o % 2 ^ 24 := by
  unfold olOId orderLineKey; omega

/-- No slot is decoded as an order past the loaded ones in hash mode. -/
theorem decodeOL_oId (i : ℕ) : olOId (decodeOL i) ≤ 3000 := by
  rw [decodeOL, olOId_orderLineKey]
  exact (Nat.mod_le _ _).trans (by omega)

/-- In hash mode recovery loses every line of such an order. -/
theorem recover_line_absent (hmode : cfg.flatOL = false) (log : Durable) (f : FreeStarts)
    (deleteCount : ℕ) {k : ℕ} (hk : 3000 < olOId k) :
    (recoverIndexes cfg log f deleteCount).2.2.lookup k = kAbsent := by
  simp only [recoverIndexes, rebuildIndexesFromShadow, hmode, Bool.false_eq_true, if_false]
  rw [uploadShadowToCuco, Store.lookup_cuco]
  refine insertAll_of_notMem _ _ fun hmem => ?_
  obtain ⟨x, hx, rfl⟩ := List.mem_map.mp hmem
  obtain ⟨i, -, rfl⟩ := List.mem_map.mp hx
  exact absurd hk (not_lt.mpr (decodeOL_oId i))

end

/-! ### A district's first new order -/

/-- One warehouse. -/
def oneWarehouse (flatOL : Bool) : Config := ⟨1, 10, 10, flatOL⟩

def noDurable : Durable := ⟨fun _ => 0, fun _ => 0, fun _ => 0, fun _ => 0, fun _ => 0⟩

/-- The first order a run adds to district 1, with one line. -/
def firstNewOrder : List TpccTxn := [.newOrder 3001 1 1 1]

theorem firstNewOrder_generated (flatOL : Bool) : Generated (oneWarehouse flatOL) true firstNewOrder := by
  refine ⟨fun t ht => ?_, by decide⟩
  rw [List.mem_singleton.mp ht]
  exact ⟨⟨⟨by decide, by decide, by decide⟩, by decide⟩, show 1 ≤ 1 from le_refl _⟩

theorem oneWarehouse_rows (flatOL : Bool) :
    (oneWarehouse flatOL).numWarehouses * 10 * 3000 * 15 + 15 * 1 ≤ kAbsent := by
  simp only [oneWarehouse, kAbsent]; omega

theorem firstNewOrder_inserts :
    (orderLineInput firstNewOrder).validInsert = [orderLineKey 3001 1 1 1] := by decide

theorem firstNewOrder_returns (flatOL : Bool) : ∃ g, (GpuIndex.init (oneWarehouse flatOL) noDurable
    fun _ => 0).run true [firstNewOrder] = .ok g := by
  have hlog : Logged (oneWarehouse flatOL) _ _ := logged_init (show 1 < 2 ^ 8 by decide)
    (by simp only [oneWarehouse, kAbsent]; omega) noDurable fun _ => 0
  obtain ⟨g, hg⟩ := indexTxns_returns hlog (firstNewOrder_generated flatOL)
    (room_init (oneWarehouse_rows flatOL) noDurable fun _ => 0) <| by
      rw [firstNewOrder_inserts]
      intro k hk
      rw [List.mem_singleton.mp hk]
      cases flatOL with
      | true => exact (by decide : LineOk 3015 (orderLineKey 3001 1 1 1))
      | false => trivial
  refine ⟨g, ?_⟩
  rw [GpuIndex.run, List.foldlM_cons, hg]
  rfl

theorem recoverIndexes_eq_index_flat : ∃ g,
    (GpuIndex.init (oneWarehouse true) noDurable fun _ => 0).run true [firstNewOrder] = .ok g ∧
    (recoverIndexes (oneWarehouse true) g.durable g.index.freeStarts g.noDeleteCount).2.2.lookup =
      g.index.orderLine.store.lookup := by
  obtain ⟨g, hg⟩ := firstNewOrder_returns true
  have hstride : ∀ txns ∈ [firstNewOrder], ∀ t ∈ txns, t.WithinStride (oneWarehouse true) := by
    intro txns htxns t ht
    rw [List.mem_singleton.mp htxns] at ht
    rw [List.mem_singleton.mp ht]
    exact ⟨show 3001 ≤ 6001 by decide, fun h => absurd h (by decide)⟩
  have h := recoverIndexes_eq_index (by decide) (by decide)
    (oneWarehouse_rows true) (fun txns htxns => by
      rw [List.append_nil] at htxns
      rw [List.mem_singleton.mp htxns]
      exact firstNewOrder_generated true)
    hstride hg (show g.run true [] = .ok g from rfl)
  exact ⟨g, hg, h.2.2⟩

/-- In hash mode the line of that order is indexed, and lost by recovery. -/
theorem recoverIndexes_ne_hash : ∃ g,
    (GpuIndex.init (oneWarehouse false) noDurable fun _ => 0).run true [firstNewOrder] = .ok g ∧
    (recoverIndexes (oneWarehouse false) g.durable g.index.freeStarts g.noDeleteCount).2.2.lookup
        (orderLineKey 3001 1 1 1) = kAbsent ∧
    g.index.orderLine.store.lookup (orderLineKey 3001 1 1 1) ≠ kAbsent := by
  obtain ⟨g, hg⟩ := firstNewOrder_returns false
  obtain ⟨g₁, hstep, hrun⟩ := run_cons hg
  obtain rfl : g₁ = g := by simpa [GpuIndex.run, pure, Except.pure] using hrun
  have hlog : Logged (oneWarehouse false) _ _ := logged_init (show 1 < 2 ^ 8 by decide)
    (by simp only [oneWarehouse, kAbsent]; omega) noDurable fun _ => 0
  have hlive := line_live hlog (firstNewOrder_generated false)
    (room_init (oneWarehouse_rows false) noDurable fun _ => 0) hstep
    (show orderLineKey 3001 1 1 1 ∈ _ by rw [firstNewOrder_inserts]; simp)
  exact ⟨g₁, hg, recover_line_absent rfl _ _ _ (by decide), hlive⟩

end Egad.Tpcc
