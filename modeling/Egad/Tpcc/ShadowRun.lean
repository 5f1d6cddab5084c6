import Egad.Tpcc.DenseShadow

/-! # Recovering the growing-table indexes

    Along every run each table's index is the live map of a journal, and its durable arrays hold the
    journal's logs after the initial population. Cut at the cursors of an epoch boundary they give the
    journal of that boundary; the dense arrays replay it, provided every logged order id is within the
    stride its array was laid out for.

        flat OrderLine index   stride = the index's own, which `indexTxns` checks
        hash OrderLine index   stride = 3000, the initially loaded orders -/

namespace Egad.Tpcc
open Egad.Lib Egad.Timeline

/-! ### The events of a table stand in serial order -/

theorem events_serial {entries : List Entry} (h : entries.Pairwise fun a b => a.pos ≤ b.pos) :
    InSerialOrder (events entries) := by
  refine ⟨events_ordered entries, ?_⟩
  have hpos : ∀ {x : Entry} {e : ℕ} {v : Event}, gatherEvent x e = some v → v.pos = x.pos := by
    intro x e v hv
    obtain ⟨ik, dk, pos⟩ := x
    rcases ik with _ | k <;> rcases dk with _ | k' <;> simp [gatherEvent] at hv <;> subst hv <;> rfl
  rw [events, List.pairwise_filterMap, List.pairwise_iff_getElem]
  intro i j hi hj hij v hv w hw
  rw [List.getElem_zipIdx] at hv hw
  rw [hpos hv, hpos hw]
  exact List.pairwise_iff_getElem.mp h i j _ _ hij

/-- Blocks at increasing positions. -/
theorem blocks_serial {txns : List TpccTxn} {g : TpccTxn × ℕ → List Entry}
    (hblock : ∀ x, (g x).Pairwise fun a b => a.pos ≤ b.pos)
    (hpos : ∀ x, ∀ e ∈ g x, x.2 * 4 ≤ e.pos ∧ e.pos ≤ x.2 * 4 + 2) :
    InSerialOrder (events (txns.zipIdx.flatMap g)) := by
  refine events_serial (List.pairwise_flatMap.mpr ⟨fun x _ => hblock x, ?_⟩)
  refine (zipIdx_increasing txns).imp fun {x y} hxy e he e' he' => ?_
  have h1 := hpos x e he
  have h2 := hpos y e' he'
  omega

theorem newOrder_serial (deletePath : Bool) (txns : List TpccTxn) :
    InSerialOrder (newOrderInput deletePath txns).evs := by
  refine blocks_serial (fun x => ?_) fun x e he => ?_
  · rw [List.pairwise_cons, List.pairwise_map]
    refine ⟨fun e he => ?_, List.pairwise_of_forall fun _ _ => le_refl _⟩
    obtain ⟨i, -, rfl⟩ := List.mem_map.mp he
    simp only; omega
  · rcases List.mem_cons.mp he with rfl | he
    · simp only; omega
    · obtain ⟨i, -, rfl⟩ := List.mem_map.mp he
      simp only; omega

theorem order_serial (txns : List TpccTxn) : InSerialOrder (orderInput txns).evs := by
  have h : (orderInput txns).entries =
    txns.zipIdx.flatMap fun x => [⟨x.1.orderInsert, none, x.2 * 4⟩] := List.map_eq_flatMap
  rw [TableInput.evs, h]
  refine blocks_serial (fun x => List.pairwise_singleton _ _) fun x e he => ?_
  rw [List.mem_singleton.mp he]
  simp only; omega

theorem orderLine_serial (txns : List TpccTxn) : InSerialOrder (orderLineInput txns).evs := by
  refine blocks_serial (fun x => ?_) fun x e he => ?_
  · rw [List.pairwise_map]
    exact List.pairwise_of_forall fun _ _ => le_refl _
  · obtain ⟨i, -, rfl⟩ := List.mem_map.mp he
    simp only; omega

/-! ### One table -/

/-- A table's index and durable keys against the journal of its inserts and deletes since the
    start. -/
structure TableLogged (initial : List ℕ) (tbl : Table) (keys : ℕ → ℕ) (dels : List (ℕ × ℕ))
    (j : Journal ℕ) : Prop where
  inv : j.Inv kAbsent
  live : tbl.store.lookup = j.live
  minted : j.minted = initial ++ (List.range tbl.freeStart).map keys
  ended : j.ended = dels
  init : tbl.init = initial.length
  below : ∀ c, tbl.store.cells c ≠ kAbsent → tbl.store.cells c < tbl.init + tbl.freeStart
  clean : ∀ c, tbl.delPos c = kAbsent

section
variable {initial : List ℕ} {inp : TableInput} {numTxns : ℕ} {tbl tbl' : Table} {keys : ℕ → ℕ}
  {dels : List (ℕ × ℕ)} {j : Journal ℕ} {out : TableOut}

theorem TableLogged.length (h : TableLogged initial tbl keys dels j) :
    j.minted.length = tbl.init + tbl.freeStart := by
  rw [h.minted, h.init]; simp

theorem TableLogged.ok (h : TableLogged initial tbl keys dels j) : TableOk tbl := by
  refine ⟨⟨h.below, fun k k' hk heq => ?_⟩, h.clean⟩
  rw [h.live] at hk heq
  have h1 := h.inv.owner k hk
  rw [heq, h.inv.owner k' (heq ▸ hk)] at h1
  exact (Option.some.inj h1).symm

/-- One epoch: the index and the logs move as the journal does, and every new key of the log is one
    the epoch inserts. -/
theorem table_step (hlog : TableLogged initial tbl keys dels j) (hin : InputOk inp tbl.store numTxns)
    (hserial : InSerialOrder inp.evs) (hm : RowsFit inp tbl) (hspec : TableSpec inp numTxns tbl tbl' out) :
    ∃ j', TableLogged initial tbl' (copyAt keys tbl.freeStart out.mintedKeys)
        (dels ++ out.edelKeys.zip out.edelCrids) j' ∧
      ∀ k ∈ j'.minted, k ∈ j.minted ∨ k ∈ inp.validInsert := by
  have hlook := hlog.live
  have hlen := hlog.length
  have hmint : MintFits j.live inp.evs j.minted.length := by
    rw [hlen, ← hlook]; exact mintFits_of_rows hin hm
  obtain ⟨hlive, hminted, hended⟩ := journal_run hserial rfl hmint inp.evs [] (by simp)
  rw [hlen] at hlive hended
  have hins : (inp.evs.filter fun v => decide (v.type = .insert)).length = inp.validInsert.length := by
    rw [← hin.insertKeys, List.length_map]; rfl
  have hinv : (inp.evs.foldl applyEvent j).Inv kAbsent := by
    refine journal_inv hlog.inv _ ?_
    rw [hins, hlen]
    exact hm
  have hm' : out.mintedKeys = (inp.evs.filter (createsLife j.live inp.evs)).map Event.key := by
    rw [hspec.mintedKeys, hlook]; rfl
  have hfree : tbl'.freeStart = tbl.freeStart + out.mintedKeys.length := by
    rw [hspec.freeStart, hspec.mintedKeys, List.length_map]
  have hlive' : tbl'.store.lookup = (inp.evs.foldl applyEvent j).live := by
    funext k
    rw [hspec.lookup, hlive k, finalLives, hserial.serialOrder_eq, hlook]
  have hminted' : (inp.evs.foldl applyEvent j).minted = initial ++
      (List.range tbl'.freeStart).map (copyAt keys tbl.freeStart out.mintedKeys) := by
    rw [hfree, copyAt_range, hminted, hlog.minted, List.append_assoc, hm']
  refine ⟨inp.evs.foldl applyEvent j, ⟨hinv, hlive', hminted', ?_, ?_, ?_, hspec.clean⟩, ?_⟩
  · rw [hended, hlog.ended, hspec.edelKeys, hspec.edelCrids, hlook, List.zip_map']
    rfl
  · rw [hspec.init, hlog.init]
  · refine hspec.touches.below hlog.ok.rows (by rw [hspec.init, hfree]; omega) fun k hk => ?_
    rw [hlive'] at hk ⊢
    have hlt := (List.getElem?_eq_some_iff.mp (hinv.owner k hk)).1
    rw [hminted'] at hlt
    rw [hspec.init, hlog.init]
    simpa using hlt
  · intro k hk
    rw [hminted] at hk
    rcases List.mem_append.mp hk with hk | hk
    · exact Or.inl hk
    · right
      obtain ⟨v, hv, rfl⟩ := List.mem_map.mp hk
      obtain ⟨hv, hc⟩ := List.mem_filter.mp hv
      simp only [createsLife, decide_eq_true_eq] at hc
      rw [← hin.insertKeys]
      exact List.mem_map_of_mem (mem_inserts.mpr ⟨hv, hc.1⟩)

end

/-! ### Keys an epoch inserts -/

section
variable {deletePath : Bool} {txns : List TpccTxn} {k : ℕ}

theorem mem_newOrder_insert (h : k ∈ (newOrderInput deletePath txns).validInsert) :
    ∃ o d w n, .newOrder o d w n ∈ txns ∧ k = newOrderKey o d w := by
  obtain ⟨x, hx, hk⟩ := List.mem_filterMap.mp h
  obtain ⟨t, ht, rfl⟩ := List.mem_map.mp hx
  cases t <;> simp only [id_eq, TpccTxn.newOrderInsert, Option.some.injEq, reduceCtorEq] at hk
  exact ⟨_, _, _, _, ht, hk.symm⟩

theorem mem_order_insert (h : k ∈ (orderInput txns).validInsert) :
    ∃ o d w n, .newOrder o d w n ∈ txns ∧ k = orderKey o d w := by
  obtain ⟨x, hx, hk⟩ := List.mem_filterMap.mp h
  obtain ⟨t, ht, rfl⟩ := List.mem_map.mp hx
  cases t <;> simp only [id_eq, TpccTxn.orderInsert, Option.some.injEq, reduceCtorEq] at hk
  exact ⟨_, _, _, _, ht, hk.symm⟩

theorem mem_line_insert (h : k ∈ (orderLineInput txns).validInsert) :
    ∃ o d w n ol, .newOrder o d w n ∈ txns ∧ 1 ≤ ol ∧ ol ≤ 15 ∧ k = orderLineKey o d w ol := by
  obtain ⟨x, hx, hk⟩ := List.mem_filterMap.mp h
  obtain ⟨t, ht, hx⟩ := List.mem_flatMap.mp hx
  obtain ⟨i, hi, rfl⟩ := List.mem_map.mp hx
  have hi := List.mem_range.mp hi
  cases t <;> simp only [id_eq, TpccTxn.orderLineInsert, Option.ite_none_right_eq_some,
    Option.some.injEq, reduceCtorEq] at hk
  exact ⟨_, _, _, _, i + 1, ht, by omega, by omega, hk.2.symm⟩

theorem newOrder_inserts_le : (newOrderInput deletePath txns).validInsert.length ≤ 15 * txns.length := by
  have h := List.length_filterMap_le id (newOrderInput deletePath txns).insert
  simp only [newOrderInput, List.length_map] at h
  simp only [TableInput.validInsert, newOrderInput]
  omega

theorem order_inserts_le : (orderInput txns).validInsert.length ≤ 15 * txns.length := by
  have h := List.length_filterMap_le id (orderInput txns).insert
  simp only [orderInput, List.length_map] at h
  simp only [TableInput.validInsert, orderInput]
  omega

theorem line_inserts_le : (orderLineInput txns).validInsert.length ≤ 15 * txns.length := by
  have h := List.length_filterMap_le id (orderLineInput txns).insert
  have hlen : (orderLineInput txns).insert.length = 15 * txns.length := by
    simp [orderLineInput, List.length_flatMap, Nat.mul_comm]
  rwa [hlen] at h

end

/-! ### The three tables -/

/-- Warehouses that exist. -/
def TpccTxn.InWarehouses (W : ℕ) : TpccTxn → Prop
  | .newOrder _ _ w _ => w ≤ W
  | .orderStatus _ _ w _ => w ≤ W
  | .delivery w _ _ => w ≤ W
  | _ => True

/-- An epoch as the generator makes it. -/
structure Generated (cfg : Config) (deletePath : Bool) (txns : List TpccTxn) : Prop where
  each : ∀ t ∈ txns, t.Ok deletePath ∧ t.InWarehouses cfg.numWarehouses
  count : 4 * txns.length + 2 < 2 ^ 22

/-- An epoch whose transaction ids fit the operation words; the timeline's `ensure` asks for one
    transaction less. -/
structure Numbered (cfg : Config) (deletePath : Bool) (txns : List TpccTxn) : Prop where
  each : ∀ t ∈ txns, t.Ok deletePath ∧ t.InWarehouses cfg.numWarehouses
  count : txns.length ≤ 2 ^ 20

theorem Generated.numbered {cfg : Config} {deletePath : Bool} {txns : List TpccTxn}
    (h : Generated cfg deletePath txns) : Numbered cfg deletePath txns :=
  ⟨h.each, by have := h.count; omega⟩

/-- CRIDs are 32-bit numbers: each table has rows for the inserts of `n` more transactions. -/
structure Room (idx : Index) (n : ℕ) : Prop where
  newOrder : idx.newOrder.init + idx.newOrder.freeStart + 15 * n ≤ kAbsent
  order : idx.order.init + idx.order.freeStart + 15 * n ≤ kAbsent
  orderLine : idx.orderLine.init + idx.orderLine.freeStart + 15 * n ≤ kAbsent

/-- The OrderLine index is of the kind the mode selects. -/
def OfMode (cfg : Config) (s : Store) : Prop :=
  if cfg.flatOL then ∃ a, s = .flat a (computeOLMaxO cfg) else ∃ m e, s = .cuco m e

/-- The journals of the three tables. -/
structure Journals where
  no : Journal ℕ
  o : Journal ℕ
  ol : Journal ℕ

/-- The indexes and the durable arrays against the journals. -/
structure Logged (cfg : Config) (g : GpuIndex) (js : Journals) : Prop where
  newOrder : TableLogged (initialNewOrderKeys cfg.numWarehouses) g.index.newOrder g.durable.noKeys
    ((List.range g.noDeleteCount).map fun i => (g.durable.noDeleteKeys i, g.durable.noDeleteCrids i)) js.no
  order : TableLogged (initialOrderKeys cfg.numWarehouses) g.index.order g.durable.oKeys [] js.o
  orderLine : TableLogged (initialLineKeys cfg.numWarehouses) g.index.orderLine g.durable.olKeys [] js.ol
  newOrderCuco : ∃ m e, g.index.newOrder.store = .cuco m e
  orderCuco : ∃ m e, g.index.order.store = .cuco m e
  mode : OfMode cfg g.index.orderLine.store

theorem Logged.indexOk {cfg : Config} {g : GpuIndex} {js : Journals} (h : Logged cfg g js) :
    IndexOk g.index :=
  ⟨h.newOrder.ok, h.order.ok, h.orderLine.ok, h.newOrderCuco, h.orderCuco⟩

/-- A later state keeps the durable entries below the cursors of an earlier one. -/
structure Keeps (g g' : GpuIndex) : Prop where
  no : ∀ i < g.index.newOrder.freeStart, g'.durable.noKeys i = g.durable.noKeys i
  o : ∀ i < g.index.order.freeStart, g'.durable.oKeys i = g.durable.oKeys i
  ol : ∀ i < g.index.orderLine.freeStart, g'.durable.olKeys i = g.durable.olKeys i
  del : ∀ i < g.noDeleteCount, g'.durable.noDeleteKeys i = g.durable.noDeleteKeys i ∧
    g'.durable.noDeleteCrids i = g.durable.noDeleteCrids i
  noStart : g.index.newOrder.freeStart ≤ g'.index.newOrder.freeStart
  oStart : g.index.order.freeStart ≤ g'.index.order.freeStart
  olStart : g.index.orderLine.freeStart ≤ g'.index.orderLine.freeStart
  delStart : g.noDeleteCount ≤ g'.noDeleteCount

theorem Keeps.refl (g : GpuIndex) : Keeps g g :=
  ⟨fun _ _ => rfl, fun _ _ => rfl, fun _ _ => rfl, fun _ _ => ⟨rfl, rfl⟩, le_refl _, le_refl _,
    le_refl _, le_refl _⟩

theorem Keeps.trans {g₁ g₂ g₃ : GpuIndex} (h : Keeps g₁ g₂) (h' : Keeps g₂ g₃) : Keeps g₁ g₃ := by
  refine ⟨fun i hi => ?_, fun i hi => ?_, fun i hi => ?_, fun i hi => ?_, h.noStart.trans h'.noStart,
    h.oStart.trans h'.oStart, h.olStart.trans h'.olStart, h.delStart.trans h'.delStart⟩
  · rw [h'.no i (hi.trans_le h.noStart), h.no i hi]
  · rw [h'.o i (hi.trans_le h.oStart), h.o i hi]
  · rw [h'.ol i (hi.trans_le h.olStart), h.ol i hi]
  · obtain ⟨h1, h2⟩ := h.del i hi
    obtain ⟨h1', h2'⟩ := h'.del i (hi.trans_le h.delStart)
    exact ⟨h1'.trans h1, h2'.trans h2⟩

/-- The new keys of a step are keys its transactions insert; order lines have a cell of the index. -/
structure Grows (deletePath : Bool) (txns : List TpccTxn) (g : GpuIndex) (js js' : Journals) : Prop where
  no : ∀ k ∈ js'.no.minted, k ∈ js.no.minted ∨ k ∈ (newOrderInput deletePath txns).validInsert
  o : ∀ k ∈ js'.o.minted, k ∈ js.o.minted ∨ k ∈ (orderInput txns).validInsert
  ol : ∀ k ∈ js'.ol.minted, k ∈ js.ol.minted ∨
    k ∈ (orderLineInput txns).validInsert ∧ g.index.orderLine.store.Keyed k

section
variable {cfg : Config} {deletePath : Bool} {txns : List TpccTxn} {g g' : GpuIndex} {js : Journals} {n : ℕ}

/-- An index phase that does not throw has run the three tables. -/
theorem indexTxns_ok {idx : Index} {r : Index × EpochOut} (h : Tpcc.indexTxns deletePath idx txns = .ok r) :
    ∃ o no ol : Table × TableOut, tableEpoch (orderInput txns) idx.order = .ok o ∧
      tableEpoch (newOrderInput deletePath txns) idx.newOrder = .ok no ∧
      tableEpoch (orderLineInput txns) idx.orderLine = .ok ol ∧
      r = (⟨no.1, o.1, ol.1⟩, epochOut txns no.2 o.2 ol.2) := by
  rw [Tpcc.indexTxns, indexWith] at h
  cases ho : tableEpoch (orderInput txns) idx.order with
  | error e => rw [ho] at h; simp [bind, Except.bind] at h
  | ok o =>
    cases hno : tableEpoch (newOrderInput deletePath txns) idx.newOrder with
    | error e => rw [ho, hno] at h; simp [bind, Except.bind] at h
    | ok no =>
      cases hol : tableEpoch (orderLineInput txns) idx.orderLine with
      | error e => rw [ho, hno, hol] at h; simp [bind, Except.bind] at h
      | ok ol =>
        rw [ho, hno, hol] at h
        exact ⟨o, no, ol, rfl, rfl, rfl, (Except.ok.inj h).symm⟩

theorem indexTxns_tables (h : g.indexTxns deletePath txns = .ok g') :
    ∃ o no ol : Table × TableOut, tableEpoch (orderInput txns) g.index.order = .ok o ∧
      tableEpoch (newOrderInput deletePath txns) g.index.newOrder = .ok no ∧
      tableEpoch (orderLineInput txns) g.index.orderLine = .ok ol ∧
      g' = {
        index := ⟨no.1, o.1, ol.1⟩
        noDeleteCount := g.noDeleteCount + no.2.edelKeys.length
        durable := mirrorEpochNoDeletes
          (mirrorEpoch g.durable no.2.mintedKeys o.2.mintedKeys ol.2.mintedKeys g.index.freeStarts)
          no.2.edelKeys no.2.edelCrids g.noDeleteCount } := by
  rw [GpuIndex.indexTxns] at h
  cases hidx : Tpcc.indexTxns deletePath g.index txns with
  | error e => rw [hidx] at h; simp [bind, Except.bind] at h
  | ok r =>
    obtain ⟨o, no, ol, ho, hno, hol, rfl⟩ := indexTxns_ok hidx
    rw [hidx] at h
    exact ⟨o, no, ol, ho, hno, hol, (Except.ok.inj h).symm⟩

theorem cuco_of_alike {s s' : Store} (h : ∃ m e, s = .cuco m e) (ha : s.Alike s') :
    ∃ m e, s' = .cuco m e := by
  obtain ⟨m, e, rfl⟩ := h
  cases s' with
  | cuco m e => exact ⟨m, e, rfl⟩
  | flat a' maxO => simp [Store.Alike] at ha

theorem OfMode.of_alike {s s' : Store} (h : OfMode cfg s) (ha : s.Alike s') : OfMode cfg s' := by
  rw [OfMode] at h ⊢
  cases hf : cfg.flatOL with
  | true =>
    rw [hf, if_pos rfl] at h
    obtain ⟨a, rfl⟩ := h
    rw [if_pos rfl]
    cases s' with
    | cuco m e => simp [Store.Alike] at ha
    | flat a' maxO => exact ⟨a', by rw [show computeOLMaxO cfg = maxO from ha]⟩
  | false =>
    rw [hf, if_neg Bool.false_ne_true] at h
    rw [if_neg Bool.false_ne_true]
    exact cuco_of_alike h ha

/-- One epoch of the three tables. -/
theorem logged_step (hg : Logged cfg g js) (hgen : Numbered cfg deletePath txns)
    (hroom : Room g.index (txns.length + n)) (h : g.indexTxns deletePath txns = .ok g') :
    ∃ js', Logged cfg g' js' ∧ Grows deletePath txns g js js' ∧ Room g'.index n ∧ Keeps g g' := by
  obtain ⟨⟨o, oout⟩, ⟨no, nout⟩, ⟨ol, lout⟩, ho, hno, hol, rfl⟩ := indexTxns_tables h
  obtain ⟨hroomN, hroomO, hroomL⟩ := hroom
  have hleN := @newOrder_inserts_le deletePath txns
  have hleO := @order_inserts_le txns
  have hleL := @line_inserts_le txns
  have hinN := newOrderInput_ok (fun t ht => (hgen.each t ht).1) hgen.count hg.newOrderCuco
  have hinO := orderInput_ok hgen.count hg.orderCuco
  have hinL : InputOk (orderLineInput txns) g.index.orderLine.store txns.length :=
    orderLineInput_ok (fun t ht => (hgen.each t ht).1) hgen.count
  have hmN : RowsFit (newOrderInput deletePath txns) g.index.newOrder := by unfold RowsFit; omega
  have hmO : RowsFit (orderInput txns) g.index.order := by unfold RowsFit; omega
  have hmL : RowsFit (orderLineInput txns) g.index.orderLine := by unfold RowsFit; omega
  obtain ⟨hsN, -⟩ := tableEpoch_spec hinN hg.newOrder.ok hmN hno
  obtain ⟨hsO, -⟩ := tableEpoch_spec hinO hg.order.ok hmO ho
  obtain ⟨hsL, hkeyed⟩ := tableEpoch_spec hinL hg.orderLine.ok hmL hol
  obtain ⟨jn, hjn, hgn⟩ := table_step hg.newOrder hinN (newOrder_serial _ _) hmN hsN
  obtain ⟨jo, hjo, hgo⟩ := table_step hg.order hinO (order_serial _) hmO hsO
  obtain ⟨jl, hjl, hgl⟩ := table_step hg.orderLine hinL (orderLine_serial _) hmL hsL
  have hcN := created_length_le hinN g.index.newOrder.store.lookup
  have hcO := created_length_le hinO g.index.order.store.lookup
  have hcL := created_length_le hinL g.index.orderLine.store.lookup
  have hfN := hsN.freeStart
  have hfO := hsO.freeStart
  have hfL := hsL.freeStart
  have hedelO : oout.edelKeys = [] := by
    rw [hsO.edelKeys, ended_eq_nil hinO rfl]; rfl
  have hedelL : lout.edelKeys = [] := by
    rw [hsL.edelKeys, ended_eq_nil hinL rfl]; rfl
  have hdel : ((List.range g.noDeleteCount).map fun i =>
      (g.durable.noDeleteKeys i, g.durable.noDeleteCrids i)) ++ nout.edelKeys.zip nout.edelCrids =
        (List.range (g.noDeleteCount + nout.edelKeys.length)).map fun i =>
          (copyAt g.durable.noDeleteKeys g.noDeleteCount nout.edelKeys i,
            copyAt g.durable.noDeleteCrids g.noDeleteCount nout.edelCrids i) := by
    have hlen : nout.edelCrids.length = nout.edelKeys.length := by
      rw [hsN.edelKeys, hsN.edelCrids]; simp
    rw [← List.zip_map', ← List.zip_map', copyAt_range, ← hlen, copyAt_range, List.zip_append (by simp)]
  rw [hdel] at hjn
  rw [hedelO, List.zip_nil_left, List.append_nil] at hjo
  rw [hedelL, List.zip_nil_left, List.append_nil] at hjl
  refine ⟨⟨jn, jo, jl⟩, ⟨hjn, hjo, hjl, cuco_of_alike hg.newOrderCuco hsN.alike,
    cuco_of_alike hg.orderCuco hsO.alike, hg.mode.of_alike hsL.alike⟩, ⟨hgn, hgo, fun k hk => ?_⟩,
    ⟨?_, ?_, ?_⟩, ⟨fun i hi => copyAt_of_lt _ hi, fun i hi => copyAt_of_lt _ hi,
      fun i hi => copyAt_of_lt _ hi, fun i hi => ⟨copyAt_of_lt _ hi, copyAt_of_lt _ hi⟩,
      ?_, ?_, ?_, ?_⟩⟩
  · refine (hgl k hk).imp_right fun hk => ⟨hk, ?_⟩
    rw [← hinL.insertKeys] at hk
    obtain ⟨v, hv, rfl⟩ := List.mem_map.mp hk
    exact hkeyed v (mem_inserts.mp hv).1
  · simp only [hsN.init, hfN]; omega
  · simp only [hsO.init, hfO]; omega
  · simp only [hsL.init, hfL]; omega
  · simp only [hfN]; omega
  · simp only [hfO]; omega
  · simp only [hfL]; omega
  · simp only; omega

end

/-! ### Slots of keys within the stride -/

/-- A NewOrder or Order key's slot is in range and decoded back to the key. -/
def OrderSlot (cfg : Config) (k : ℕ) : Prop :=
  denseOfOrder (computeOrdersMaxO cfg) k < cfg.numWarehouses * 10 * computeOrdersMaxO cfg ∧
    decodeOrder (computeOrdersMaxO cfg) (denseOfOrder (computeOrdersMaxO cfg) k) = k

/-- So is an OrderLine key's in hash mode; in flat mode the key owns its slot. -/
def LineSlot (cfg : Config) (k : ℕ) : Prop :=
  if cfg.flatOL then LineOk (computeOLMaxO cfg) k
  else denseOf (maxOOl cfg) k < cfg.numWarehouses * 10 * maxOOl cfg * 15 ∧
    decodeOL (denseOf (maxOOl cfg) k) = k

/-- Order ids that the shadow's strides have slots for. -/
def TpccTxn.WithinStride (cfg : Config) : TpccTxn → Prop
  | .newOrder o _ _ _ => o ≤ computeOrdersMaxO cfg ∧ (cfg.flatOL = false → o ≤ 3000)
  | _ => True

/-- Every logged key has its slot. -/
structure Slotted (cfg : Config) (js : Journals) : Prop where
  no : ∀ k ∈ js.no.minted, OrderSlot cfg k
  o : ∀ k ∈ js.o.minted, OrderSlot cfg k
  ol : ∀ k ∈ js.ol.minted, LineSlot cfg k

section
variable {cfg : Config}

theorem div_mod_of_lt {q m r : ℕ} (hr : r < m) : (q * m + r) / m = q ∧ (q * m + r) % m = r := by
  rw [Nat.mul_comm, Nat.mul_add_div (by omega), Nat.mul_add_mod, Nat.div_eq_of_lt hr, Nat.mod_eq_of_lt hr]
  exact ⟨rfl, rfl⟩

theorem orderSlot_of_stride {o d w : ℕ} (h : OrderOk o d w) (hw : w ≤ cfg.numWarehouses)
    (ho : o ≤ computeOrdersMaxO cfg) : OrderSlot cfg (orderFields o d w) := by
  obtain ⟨⟨h1, -⟩, ⟨hd1, hd⟩, ⟨hw1, -⟩⟩ := id h
  rw [OrderSlot, denseOfOrder_key h, denseIdxO]
  generalize computeOrdersMaxO cfg = m at ho
  have hblock : (d - 1) * m + (o - 1) < 10 * m := by
    have := Nat.mul_le_mul_right m (show d - 1 ≤ 9 by omega)
    omega
  have hsplit : ((w - 1) * 10 + (d - 1)) * m + (o - 1) = (w - 1) * (10 * m) + ((d - 1) * m + (o - 1)) := by
    rw [Nat.add_mul, Nat.mul_assoc, Nat.add_assoc]
  obtain ⟨hdiv, hmod⟩ := div_mod_of_lt (q := w - 1) hblock
  obtain ⟨hdiv', hmod'⟩ := div_mod_of_lt (q := d - 1) (show o - 1 < m by omega)
  rw [hsplit]
  constructor
  · have := Nat.mul_le_mul_right (10 * m) (show w ≤ cfg.numWarehouses from hw)
    have hw' : (w - 1) * (10 * m) + 10 * m = w * (10 * m) := by
      rw [← Nat.succ_mul, show (w - 1).succ = w by omega]
    rw [Nat.mul_assoc]
    omega
  · rw [decodeOrder, hdiv, hmod, hdiv', hmod', Nat.sub_add_cancel hw1, Nat.sub_add_cancel hd1,
      Nat.sub_add_cancel h1]

theorem lineSlot_of_stride {o d w ol : ℕ} (hmode : cfg.flatOL = false) (h : OrderOk o d w)
    (hw : w ≤ cfg.numWarehouses) (ho : o ≤ 3000) (h1 : 1 ≤ ol) (h15 : ol ≤ 15) :
    LineSlot cfg (orderLineKey o d w ol) := by
  have hmax : maxOOl cfg = 3000 := by rw [maxOOl, hmode]; rfl
  rw [LineSlot, hmode, if_neg Bool.false_ne_true, hmax, denseOf_key h (show ol < 2 ^ 4 by omega), denseIdxOL]
  obtain ⟨⟨ho1, -⟩, ⟨hd1, hd⟩, ⟨hw1, -⟩⟩ := h
  refine ⟨by omega, ?_⟩
  have e1 : (((w - 1) * 10 + (d - 1)) * 3000 * 15 + (o - 1) * 15 + (ol - 1)) %
      (10 * (3000 * 15)) % (3000 * 15) / 15 + 1 = o := by omega
  have e2 : (((w - 1) * 10 + (d - 1)) * 3000 * 15 + (o - 1) * 15 + (ol - 1)) %
      (10 * (3000 * 15)) / (3000 * 15) + 1 = d := by omega
  have e3 : (((w - 1) * 10 + (d - 1)) * 3000 * 15 + (o - 1) * 15 + (ol - 1)) /
      (10 * (3000 * 15)) + 1 = w := by omega
  have e4 : (((w - 1) * 10 + (d - 1)) * 3000 * 15 + (o - 1) * 15 + (ol - 1)) %
      (10 * (3000 * 15)) % (3000 * 15) % 15 + 1 = ol := by omega
  rw [decodeOL, e1, e2, e3, e4]

theorem lineSlot_of_keyed {s : Store} {k : ℕ} (hmode : cfg.flatOL = true) (hs : OfMode cfg s)
    (hk : s.Keyed k) : LineSlot cfg k := by
  rw [OfMode, hmode, if_pos rfl] at hs
  obtain ⟨a, rfl⟩ := hs
  rw [LineSlot, hmode, if_pos rfl]
  exact hk

theorem slotted_step {deletePath : Bool} {txns : List TpccTxn} {g : GpuIndex} {js js' : Journals}
    (hs : Slotted cfg js) (hgrow : Grows deletePath txns g js js') (hgen : Numbered cfg deletePath txns)
    (hmode : OfMode cfg g.index.orderLine.store) (hstride : ∀ t ∈ txns, t.WithinStride cfg) :
    Slotted cfg js' := by
  refine ⟨fun k hk => ?_, fun k hk => ?_, fun k hk => ?_⟩
  · rcases hgrow.no k hk with hk | hk
    · exact hs.no k hk
    · obtain ⟨o, d, w, n, ht, rfl⟩ := mem_newOrder_insert hk
      obtain ⟨⟨hok, -⟩, hw⟩ := hgen.each _ ht
      exact orderSlot_of_stride hok hw (hstride _ ht).1
  · rcases hgrow.o k hk with hk | hk
    · exact hs.o k hk
    · obtain ⟨o, d, w, n, ht, rfl⟩ := mem_order_insert hk
      obtain ⟨⟨hok, -⟩, hw⟩ := hgen.each _ ht
      exact orderSlot_of_stride hok hw (hstride _ ht).1
  · rcases hgrow.ol k hk with hk | ⟨hk, hkeyed⟩
    · exact hs.ol k hk
    · cases hf : cfg.flatOL with
      | true => exact lineSlot_of_keyed hf hmode hkeyed
      | false =>
        obtain ⟨o, d, w, n, ol, ht, h1, h15, rfl⟩ := mem_line_insert hk
        obtain ⟨⟨hok, -⟩, hw⟩ := hgen.each _ ht
        exact lineSlot_of_stride hf hok hw ((hstride _ ht).2 hf) h1 h15

end

/-! ### Runs -/

section
variable {cfg : Config} {deletePath : Bool}

theorem run_cons {g g' : GpuIndex} {txns : List TpccTxn} {epochs : List (List TpccTxn)}
    (h : g.run deletePath (txns :: epochs) = .ok g') :
    ∃ g₁, g.indexTxns deletePath txns = .ok g₁ ∧ g₁.run deletePath epochs = .ok g' := by
  rw [GpuIndex.run, List.foldlM_cons] at h
  cases h1 : g.indexTxns deletePath txns with
  | error e => rw [h1] at h; simp [bind, Except.bind] at h
  | ok g₁ => rw [h1] at h; exact ⟨g₁, rfl, h⟩

/-- A run of epochs: the logs still hold the journals and nothing below the old cursors moved; keys
    within the stride keep every logged key at its slot. -/
theorem logged_run {n : ℕ} : ∀ {epochs : List (List TpccTxn)} {g g' : GpuIndex} {js : Journals},
    Logged cfg g js → (∀ txns ∈ epochs, Numbered cfg deletePath txns) →
    Room g.index ((epochs.map List.length).sum + n) → g.run deletePath epochs = .ok g' →
    ∃ js', Logged cfg g' js' ∧ Room g'.index n ∧ Keeps g g' ∧
      (Slotted cfg js → (∀ txns ∈ epochs, ∀ t ∈ txns, t.WithinStride cfg) → Slotted cfg js')
  | [], g, g', js, hg, _, hroom, h => by
    obtain rfl : g = g' := by simpa [GpuIndex.run, pure, Except.pure] using h
    exact ⟨js, hg, by simpa using hroom, Keeps.refl g, fun hs _ => hs⟩
  | txns :: epochs, g, g', js, hg, hgen, hroom, h => by
    obtain ⟨g₁, h1, h2⟩ := run_cons h
    have hgen1 := hgen txns (by simp)
    have hroom1 : Room g.index (txns.length + ((epochs.map List.length).sum + n)) := by
      rw [← Nat.add_assoc]; simpa using hroom
    obtain ⟨js₁, hlog1, hgrow, hroom2, hkeep1⟩ := logged_step hg hgen1 hroom1 h1
    obtain ⟨js', hlog, hroom', hkeep, hslot⟩ := logged_run hlog1 (fun t ht => hgen t (by simp [ht]))
      hroom2 h2
    refine ⟨js', hlog, hroom', hkeep1.trans hkeep, fun hs hstride => hslot ?_ ?_⟩
    · exact slotted_step hs hgrow hgen1 hg.mode (hstride txns (by simp))
    · exact fun t ht => hstride t (by simp [ht])

end

end Egad.Tpcc
