import Egad.Tpcc.Inputs

/-! # The growing tables' fast path is the timeline path

    Every table's epoch is the serial run of its events, on the bulk insert with `GrowingTableView` as
    on the timeline. `indexTxns` chooses between the two for each table; the choice cannot be seen in
    what the epoch hands on nor in the key->CRID maps it leaves. -/

namespace Egad.Tpcc
open Egad.Lib Egad.Timeline

/-- Invariant of the growing-table index between epochs. -/
structure IndexOk (idx : Index) : Prop where
  newOrder : TableOk idx.newOrder
  order : TableOk idx.order
  orderLine : TableOk idx.orderLine
  newOrderCuco : ∃ m e, idx.newOrder.store = .cuco m e
  orderCuco : ∃ m e, idx.order.store = .cuco m e

/-- The table has rows for the epoch's inserts, and CRIDs are 32-bit numbers. -/
def RowsFit (inp : TableInput) (tbl : Table) : Prop :=
  tbl.init + tbl.freeStart + inp.validInsert.length ≤ kAbsent

/-- An epoch the index accepts: ids as the generator draws them, positions that
    `EpochTimeline::ensure` takes, rows for every insert, and order ids within the flat stride. -/
structure EpochOk (deletePath : Bool) (idx : Index) (txns : List TpccTxn) : Prop where
  each : ∀ t ∈ txns, t.Ok deletePath
  count : 4 * txns.length + 2 < 2 ^ 22
  newOrderRows : RowsFit (newOrderInput deletePath txns) idx.newOrder
  orderRows : RowsFit (orderInput txns) idx.order
  orderLineRows : RowsFit (orderLineInput txns) idx.orderLine
  stride : ∀ k ∈ (orderLineInput txns).validInsert, idx.orderLine.store.Keyed k

section
variable {inp : TableInput} {numTxns : ℕ} {tbl tbl₁ tbl₂ : Table} {out₁ out₂ : TableOut}

/-- `tableEpoch` throws only at order ids past the stride. -/
theorem tableEpoch_returns (hin : InputOk inp tbl.store numTxns) (htbl : TableOk tbl)
    (hm : RowsFit inp tbl) (hkeyed : ∀ v ∈ inp.evs, tbl.store.Keyed v.key) :
    ∃ r, tableEpoch inp tbl = .ok r := by
  rw [tableEpoch]
  split
  · exact ⟨_, rfl⟩
  · cases hfr : tbl.store.insertFresh inp.validInsert (tbl.init + tbl.freeStart) with
    | error e =>
      exfalso
      cases hs : tbl.store with
      | cuco m er => simp [hs, Store.insertFresh] at hfr
      | flat a maxO =>
        have hnil : (inp.validInsert.filter fun k => maxO < olOId k) = [] := by
          rw [List.filter_eq_nil_iff, ← hin.insertKeys]
          intro k hk
          obtain ⟨v, hv, rfl⟩ := List.mem_map.mp hk
          have hline := hkeyed v (mem_inserts.mp hv).1
          rw [hs] at hline
          have hle : olOId v.key ≤ maxO := LineOk.o hline |>.2
          simpa using hle
        simp [hs, Store.insertFresh, hnil] at hfr
    | ok r =>
      obtain ⟨ok, store⟩ := r
      cases ok with
      | true => exact ⟨_, rfl⟩
      | false =>
        obtain ⟨halike, hcells⟩ := undo_reject hm htbl.rows hfr
        have hok := htbl.of_undo halike hcells
        obtain ⟨tbl', out, hgen, -⟩ := generalTable_spec (hin.of_alike halike) hok hm
          fun v hv => (halike.keyed v.key).mpr (hkeyed v hv)
        exact ⟨_, hgen⟩

/-- A table's epoch on the chosen path and on the timeline: both return, both are the serial run. -/
theorem table_both (hin : InputOk inp tbl.store numTxns) (htbl : TableOk tbl) (hm : RowsFit inp tbl)
    (hkeyed : ∀ v ∈ inp.evs, tbl.store.Keyed v.key) :
    ∃ tbl₁ out₁ tbl₂ out₂, tableEpoch inp tbl = .ok (tbl₁, out₁) ∧
      generalTable inp tbl = .ok (tbl₂, out₂) ∧ TableSpec inp numTxns tbl tbl₁ out₁ ∧
      TableSpec inp numTxns tbl tbl₂ out₂ := by
  obtain ⟨⟨tbl₁, out₁⟩, h₁⟩ := tableEpoch_returns hin htbl hm hkeyed
  obtain ⟨tbl₂, out₂, h₂, hspec₂⟩ := generalTable_spec hin htbl hm hkeyed
  exact ⟨tbl₁, out₁, tbl₂, out₂, h₁, h₂, (tableEpoch_spec hin htbl hm h₁).1, hspec₂⟩

/-- Two tables with the same key->CRID map and row counter. -/
def Table.Same (tbl tbl' : Table) : Prop :=
  (∀ k, tbl.store.lookup k = tbl'.store.lookup k) ∧ tbl.init = tbl'.init ∧
    tbl.freeStart = tbl'.freeStart

theorem TableSpec.same (h₁ : TableSpec inp numTxns tbl tbl₁ out₁)
    (h₂ : TableSpec inp numTxns tbl tbl₂ out₂) : tbl₁.Same tbl₂ :=
  ⟨fun k => by rw [h₁.lookup, h₂.lookup], by rw [h₁.init, h₂.init],
    by rw [h₁.freeStart, h₂.freeStart]⟩

theorem TableSpec.resolve_eq (h₁ : TableSpec inp numTxns tbl tbl₁ out₁)
    (h₂ : TableSpec inp numTxns tbl tbl₂ out₂) {k tid : ℕ} (hk : tbl.store.Named k)
    (hlt : k < 2 ^ (64 - inp.posBits)) (htid : tid < numTxns) :
    out₁.resolve k tid = out₂.resolve k tid := by
  rw [h₁.resolve k tid hk hlt htid, h₂.resolve k tid hk hlt htid]

end

theorem key_lt (o d w : ℕ) : orderFields o d w < 2 ^ (64 - 24) :=
  (orderFields_lt o d w).trans (by decide)

/-- A transaction's parameters depend on the resolution of the keys it names only. -/
theorem indexTpccTxn_congr {deletePath : Bool} {t : TpccTxn} {tid : ℕ} (ht : t.Ok deletePath)
    {no no' o o' ol ol' : ℕ → ℕ → ℕ}
    (hno : ∀ oId d w, no (newOrderKey oId d w) tid = no' (newOrderKey oId d w) tid)
    (ho : ∀ oId d w, o (orderKey oId d w) tid = o' (orderKey oId d w) tid)
    (hol : ∀ oId d w n, OrderOk oId d w → 1 ≤ n → n ≤ 15 →
      ol (orderLineKey oId d w n) tid = ol' (orderLineKey oId d w n) tid) :
    indexTpccTxn no o ol tid t = indexTpccTxn no' o' ol' tid t := by
  have hlines : ∀ oId d w n, OrderOk oId d w → n ≤ 15 →
      ((List.range n).map fun i => ol (orderLineKey oId d w (i + 1)) tid) =
        (List.range n).map fun i => ol' (orderLineKey oId d w (i + 1)) tid := by
    intro oId d w n hok hn
    refine List.map_congr_left fun i hi => ?_
    have := List.mem_range.mp hi
    exact hol oId d w (i + 1) hok (by omega) (by omega)
  cases t with
  | newOrder oId d w n =>
    simp only [indexTpccTxn]
    rw [hlines oId d w n ht.1 ht.2, ho, hno]
  | payment => rfl
  | orderStatus oId d w n =>
    simp only [indexTpccTxn]
    rw [hlines oId d w n ht.1 ht.2, ho]
  | delivery w oId n =>
    simp only [indexTpccTxn]
    have hdistrict := ht.2
    congr 1
    · refine List.map_congr_left fun i _ => ?_
      rw [hno]
    · refine List.map_congr_left fun i _ => ?_
      rw [ho]
    · refine List.map_congr_left fun i hi => ?_
      split
      · rfl
      · next h0 =>
        obtain ⟨hok, hn⟩ := hdistrict i (List.mem_range.mp hi) h0
        exact hlines _ _ _ _ hok hn
  | stockLevel => rfl

/-- Whatever path each table takes, the epoch hands out the record ids, mints the CRIDs, makes the
    effective deletes and leaves the key->CRID maps of the epoch that resolves every table through
    the timeline. -/
theorem growingTables_eq_timeline {deletePath : Bool} {idx : Index} {txns : List TpccTxn}
    (hidx : IndexOk idx) (hok : EpochOk deletePath idx txns) :
    ∃ idx₁ idx₂ out, indexTxns deletePath idx txns = .ok (idx₁, out) ∧
      timelineTxns deletePath idx txns = .ok (idx₂, out) ∧
      idx₁.newOrder.Same idx₂.newOrder ∧ idx₁.order.Same idx₂.order ∧
      idx₁.orderLine.Same idx₂.orderLine := by
  have hcount : txns.length ≤ 2 ^ 20 := by
    have := hok.count
    omega
  obtain ⟨no₁, nout₁, no₂, nout₂, hn₁, hn₂, hns₁, hns₂⟩ := table_both
    (newOrderInput_ok hok.each hcount hidx.newOrderCuco) hidx.newOrder hok.newOrderRows
    (fun v _ => by obtain ⟨m, e, h⟩ := hidx.newOrderCuco; rw [h]; trivial)
  obtain ⟨o₁, oout₁, o₂, oout₂, ho₁, ho₂, hos₁, hos₂⟩ := table_both
    (orderInput_ok hcount hidx.orderCuco) hidx.order hok.orderRows
    (fun v _ => by obtain ⟨m, e, h⟩ := hidx.orderCuco; rw [h]; trivial)
  have hline : InputOk (orderLineInput txns) idx.orderLine.store txns.length :=
    orderLineInput_ok hok.each hcount
  obtain ⟨ol₁, lout₁, ol₂, lout₂, hl₁, hl₂, hls₁, hls₂⟩ := table_both hline hidx.orderLine
    hok.orderLineRows fun v hv => hok.stride v.key <| by
      rw [← hline.insertKeys]
      exact List.mem_map_of_mem (mem_inserts.mpr ⟨hv, hline.insert_of_no_deletes rfl v hv⟩)
  have hparams : epochOut txns nout₁ oout₁ lout₁ = epochOut txns nout₂ oout₂ lout₂ := by
    simp only [epochOut, EpochOut.mk.injEq]
    refine ⟨List.map_congr_left fun x hx => ?_, by rw [hns₁.mintedKeys, hns₂.mintedKeys],
      by rw [hos₁.mintedKeys, hos₂.mintedKeys], by rw [hls₁.mintedKeys, hls₂.mintedKeys],
      by rw [hns₁.edelKeys, hns₂.edelKeys], by rw [hns₁.edelCrids, hns₂.edelCrids]⟩
    obtain ⟨hmem, htid⟩ := zipIdx_lt hx
    refine indexTpccTxn_congr (hok.each x.1 hmem) (fun oId d w => ?_) (fun oId d w => ?_)
      (fun oId d w n hord h1 h15 => ?_)
    · refine hns₁.resolve_eq hns₂ ?_ (key_lt oId d w) htid
      obtain ⟨m, e, h⟩ := hidx.newOrderCuco
      rw [h]; trivial
    · refine hos₁.resolve_eq hos₂ ?_ (key_lt oId d w) htid
      obtain ⟨m, e, h⟩ := hidx.orderCuco
      rw [h]; trivial
    · exact hls₁.resolve_eq hls₂ (named_line _ hord h1 h15)
        ((orderLineKey_lt _ _ _ _).trans (show 2 ^ 41 < 2 ^ (64 - 22) by decide)) htid
  refine ⟨⟨no₁, o₁, ol₁⟩, ⟨no₂, o₂, ol₂⟩, epochOut txns nout₁ oout₁ lout₁, ?_, ?_, hns₁.same hns₂,
    hos₁.same hos₂, hls₁.same hls₂⟩
  · simp only [indexTxns, indexWith, ho₁, hn₁, hl₁]; rfl
  · simp only [timelineTxns, indexWith, ho₂, hn₂, hl₂, hparams]; rfl

/-- One loaded order with one line, three order ids a district in the flat index. -/
def smallIndex : Index :=
  { newOrder := ⟨.cuco (fun k => if k = newOrderKey 1 1 1 then 0 else kAbsent) false, 1, 0,
      fun _ => kAbsent, fun _ => 0⟩
    order := ⟨.cuco (fun k => if k = orderKey 1 1 1 then 0 else kAbsent) false, 1, 0,
      fun _ => kAbsent, fun _ => 0⟩
    orderLine := ⟨.flat (fun c => if c = 0 then 0 else kAbsent) 3, 1, 0, fun _ => kAbsent, fun _ => 0⟩ }

theorem tableOk_of_single {s : Store} {a : ℕ} (hs : ∀ c, s.cells c = if c = a then 0 else kAbsent) :
    TableOk ⟨s, 1, 0, fun _ => kAbsent, fun _ => 0⟩ := by
  refine ⟨⟨fun c hc => ?_, fun k k' hk hkk => ?_⟩, fun _ => rfl⟩
  · simp only [hs] at hc ⊢
    split at hc
    · next h => rw [if_pos h]; decide
    · exact absurd rfl hc
  · -- both keys are at the one cell that is not absent
    have hat : ∀ k, s.lookup k ≠ kAbsent → s.Keyed k ∧ s.addr k = a := by
      intro k hk
      rw [Store.lookup] at hk
      split at hk
      · next h =>
        rw [hs] at hk
        split at hk
        · next ha => exact ⟨h, ha⟩
        · exact absurd rfl hk
      · exact absurd rfl hk
    obtain ⟨h1, h2⟩ := hat k hk
    obtain ⟨h3, h4⟩ := hat k' (hkk ▸ hk)
    exact Store.addr_inj h1 h3 (h2.trans h4.symm)

theorem smallIndex_ok : IndexOk smallIndex :=
  ⟨tableOk_of_single fun _ => rfl, tableOk_of_single fun _ => rfl, tableOk_of_single fun _ => rfl,
    ⟨_, _, rfl⟩, ⟨_, _, rfl⟩⟩

/-- A Delivery of one order of district 1. -/
def deliverOne (o : ℕ) : TpccTxn := .delivery 1 (fun i => if i = 0 then o else 0) fun _ => 1

/-- Order 2 is inserted, read and delivered; order 1 is delivered twice. -/
def smallEpoch : List TpccTxn :=
  [.orderStatus 2 1 1 1, .newOrder 2 1 1 1, deliverOne 1, deliverOne 1, .orderStatus 2 1 1 1,
    deliverOne 2, deliverOne 2]

theorem growingTables_eq_timeline_small : ∃ idx₁ idx₂ out,
    indexTxns true smallIndex smallEpoch = .ok (idx₁, out) ∧
    timelineTxns true smallIndex smallEpoch = .ok (idx₂, out) ∧
    out.edelKeys = [newOrderKey 1 1 1, newOrderKey 2 1 1] ∧ out.edelCrids = [0, 1] := by
  have hok : EpochOk true smallIndex smallEpoch := by
    refine ⟨?_, by decide, by unfold RowsFit; decide, by unfold RowsFit; decide,
      by unfold RowsFit; decide, by decide⟩
    have hdel : ∀ o, 1 ≤ o → o ≤ 2 → (deliverOne o).Ok true := by
      intro o h1 h2
      refine ⟨rfl, fun i _ h => ?_⟩
      by_cases hi : i = 0
      · subst hi
        exact ⟨⟨⟨h1, by simp only [if_pos]; omega⟩, by decide, by decide⟩, by decide⟩
      · simp [hi] at h
    have hord : OrderOk 2 1 1 := ⟨by decide, by decide, by decide⟩
    simp only [smallEpoch, List.forall_mem_cons, List.not_mem_nil, false_imp_iff, implies_true, and_true]
    exact ⟨⟨hord, by decide⟩, ⟨hord, by decide⟩, hdel 1 (by decide) (by decide),
      hdel 1 (by decide) (by decide), ⟨hord, by decide⟩, hdel 2 (by decide) (by decide),
      hdel 2 (by decide) (by decide)⟩
  obtain ⟨idx₁, idx₂, out, h₁, h₂, -⟩ := growingTables_eq_timeline smallIndex_ok hok
  have hedel : (indexTxns true smallIndex smallEpoch).toOption.map
      (fun r => (r.2.edelKeys, r.2.edelCrids)) =
        some ([newOrderKey 1 1 1, newOrderKey 2 1 1], [0, 1]) := by decide +kernel
  rw [h₁] at hedel
  have hedel := Prod.ext_iff.mp (Option.some.inj hedel)
  exact ⟨idx₁, idx₂, out, h₁, h₂, hedel.1, hedel.2⟩

end Egad.Tpcc
