import Egad.Tpcc.RecoverIndexes
import Egad.Ycsb.DeletePositions

/-! # NewOrder delete positions between epochs

    `d_no_del_pos` is to the NewOrder table what `d_del_pos` is to YCSB, with the Deliveries of an
    epoch in the place of its delete slots. Two Deliveries of one transaction share a position, so
    that no record is reset twice rests on the index holding one key for a record. The last section
    states the property of both workloads' runs. -/

namespace Egad.Tpcc
open Egad.Lib Egad.Timeline
open Egad.Ycsb (ResetCovers)

/-- The store a table's fast path resolves an epoch on; `none` when the table falls back. -/
def fastStore (inp : TableInput) (tbl : Table) : Option Store :=
  if inp.validInsert.length = 0 then some tbl.store
  else
    match tbl.store.insertFresh inp.validInsert (tbl.init + tbl.freeStart) with
    | .ok (true, store) => some store
    | _ => none

/-- `d_no_del_pos` after `k_record_no_deletes`, the deletes taken in the order of the threads; it is
    left as it was outside the delete path and when the table falls back. -/
def recordedPositions (inp : TableInput) (tbl : Table) (order : List (ℕ × ℕ)) : ℕ → ℕ :=
  if inp.deletes.isSome then
    match fastStore inp tbl with
    | some store => recordNoDeletes inp store (tbl.init + tbl.freeStart) order tbl.delPos
    | none => tbl.delPos
  else tbl.delPos

section
variable {inp : TableInput} {tbl tbl' : Table} {out : TableOut} {store s : Store}
  {numTxns cridBegin : ℕ} {dels : List (ℕ × ℕ)} {d : ℕ → ℕ}

/-! ### The two paths -/

theorem generalTable_delPos (h : generalTable inp tbl = .ok (tbl', out)) :
    tbl'.delPos = tbl.delPos := by
  simp only [generalTable] at h
  cases hf : tbl.store.finalize (build inp.posBits tbl.store.find (tbl.init + tbl.freeStart)
    tbl.entryCrid inp.entries) with
  | error e => rw [hf] at h; simp [bind, Except.bind] at h
  | ok store =>
    rw [hf] at h
    obtain ⟨rfl, -⟩ := Prod.mk.inj (Except.ok.inj h)
    rfl

/-- A table takes the fast path on the store that `insertFresh` accepted, or leaves the array to the
    timeline path, which has no use for it. -/
theorem tableEpoch_path (h : tableEpoch inp tbl = .ok (tbl', out)) :
    (∃ store, fastStore inp tbl = some store ∧ fastTable inp tbl store = (tbl', out)) ∨
      fastStore inp tbl = none ∧ tbl'.delPos = tbl.delPos := by
  rw [tableEpoch] at h
  rw [fastStore]
  split at h
  · next h0 => exact Or.inl ⟨tbl.store, if_pos h0, by simpa [pure, Except.pure] using h⟩
  · next h0 =>
    rw [if_neg h0]
    cases hfr : tbl.store.insertFresh inp.validInsert (tbl.init + tbl.freeStart) with
    | error e => rw [hfr] at h; simp [bind, Except.bind] at h
    | ok r =>
      obtain ⟨ok, store⟩ := r
      rw [hfr] at h
      cases ok with
      | true => exact Or.inl ⟨store, rfl, by simpa [bind, Except.bind, pure, Except.pure] using h⟩
      | false =>
        have hgen : generalTable inp { tbl with
            store := store.undo inp.validInsert (tbl.init + tbl.freeStart) } = .ok (tbl', out) := h
        have hsame := generalTable_delPos hgen
        exact Or.inr ⟨rfl, hsame⟩

/-- The fast path's store holds the epoch's inserts. -/
theorem entered_of_fastStore (hin : InputOk inp tbl.store numTxns) (htbl : TableOk tbl)
    (hm : RowsFit inp tbl) (h : fastStore inp tbl = some store) :
    Entered inp tbl.store store numTxns (tbl.init + tbl.freeStart) := by
  rw [fastStore] at h
  split at h
  · next h0 =>
    have hnil := List.length_eq_zero_iff.mp h0
    obtain rfl := Option.some.inj h
    exact entered_of_fresh hin htbl hm (by rw [hnil]; exact List.nodup_nil)
      (by rw [hnil]; simp) (Store.Alike.refl _) (fun k => by rw [hnil]; simp)
  · split at h
    · next store' hfr =>
      obtain rfl := Option.some.inj h
      have hnamed : ∀ k ∈ inp.validInsert, tbl.store.Named k := by
        rw [← hin.insertKeys]
        intro k hk
        obtain ⟨v, hv, rfl⟩ := List.mem_map.mp hk
        exact hin.named v (mem_inserts.mp hv).1
      obtain ⟨hnd, habs, halike, -, hlook⟩ := insertFresh_accept hm hnamed hfr
      exact entered_of_fresh hin htbl hm hnd habs halike hlook
    · exact absurd h (by simp)

/-! ### Positions and flags -/

/-- What a transaction's access resolves to is what its delete finds. -/
theorem fastResolve_ne {k tid : ℕ} (hne : fastResolve inp store cridBegin (some d) k tid ≠ kAbsent) :
    fastResolve inp store cridBegin (some d) k tid =
      (fastView inp cridBegin none).visible (store.find k) tid := by
  rw [fastResolve_some] at hne ⊢
  split at hne
  · exact absurd rfl hne
  · next h => rw [if_neg h]; rfl

theorem visible_ne {v : GrowingTableView} {found tid : ℕ} (hne : v.visible found tid ≠ kAbsent) :
    v.visible found tid = found := by
  rw [GrowingTableView.visible] at hne ⊢
  split at hne
  · exact absurd rfl hne
  · next h => rw [if_neg h]

/-- The delete that holds its record's position is the effective one. -/
theorem effective_of_holds {x : ℕ × ℕ} {c : ℕ}
    (hx : delivered (fun key tid => (fastView inp cridBegin none).visible (store.find key) tid) x =
      some c) (hd : d c = deletePosition x) :
    c ≠ kAbsent ∧ fastResolve inp store cridBegin (some d) x.1 x.2 = c := by
  obtain ⟨rfl, hne⟩ := delivered_eq_some.mp hx
  refine ⟨hne, ?_⟩
  rw [fastResolve_some]
  rw [deletePosition] at hd
  exact if_neg fun h => absurd h.2 (by
    change ¬ d ((fastView inp cridBegin none).visible (store.find x.1) x.2) < x.2 * 4 + 1
    omega)

/-- An epoch delivers a key once in a transaction. -/
theorem deletes_nodup (hin : InputOk inp s numTxns) (hdel : inp.deletes = some dels) : dels.Nodup := by
  have hd := hin.deletes
  rw [hdel, Option.getD_some] at hd
  rw [← hd]
  have hevs : inp.evs.Nodup := (events_ordered inp.entries).imp fun {v w} hlt heq => by
    rw [heq] at hlt
    exact lt_irrefl _ hlt
  refine (hevs.filter _).map_on fun v hv w hw heq => ?_
  obtain ⟨hv, hvt⟩ := List.mem_filter.mp hv
  obtain ⟨hw, hwt⟩ := List.mem_filter.mp hw
  have hvt : v.type = .delete := by simpa using hvt
  have hwt : w.type = .delete := by simpa using hwt
  obtain ⟨hkey, hpos⟩ := Prod.mk.inj heq
  have hv2 := hin.deletePos v hv hvt
  have hw2 := hin.deletePos w hw hwt
  exact hin.deleteOnce v hv w hw hvt hwt (by omega) hkey

/-- The effective deletes of an epoch end distinct records. -/
theorem noEffective_nodup (he : Entered inp s store numTxns cridBegin)
    (hdel : inp.deletes = some dels) :
    ((noEffectiveDeletes (fastResolve inp store cridBegin (some d)) d dels).map fun x =>
      fastResolve inp store cridBegin (some d) x.1 x.2).Nodup := by
  have hmem : ∀ x ∈ noEffectiveDeletes (fastResolve inp store cridBegin (some d)) d dels,
      x ∈ dels ∧ fastResolve inp store cridBegin (some d) x.1 x.2 ≠ kAbsent ∧
        d (fastResolve inp store cridBegin (some d) x.1 x.2) = deletePosition x := by
    intro x hx
    obtain ⟨hx, heff⟩ := List.mem_filter.mp hx
    rw [decide_eq_true_eq] at heff
    exact ⟨hx, heff⟩
  refine nodup_flagged d deletePosition ((deletes_nodup he.input hdel).filter _)
    (fun x hx => (hmem x hx).2.2) fun x hx y hy heq hpos => ?_
  obtain ⟨hx, hnex, -⟩ := hmem x hx
  obtain ⟨hy, hney, -⟩ := hmem y hy
  have hfind : ∀ z : ℕ × ℕ, fastResolve inp store cridBegin (some d) z.1 z.2 ≠ kAbsent →
      fastResolve inp store cridBegin (some d) z.1 z.2 = store.find z.1 := by
    intro z hne
    have hvis := fastResolve_ne hne
    rw [hvis] at hne ⊢
    exact visible_ne hne
  have hnamed : ∀ z ∈ dels, s.Named z.1 := by
    intro z hz
    obtain ⟨w, hw, -, rfl⟩ := (mem_deletes he.input hdel).mp hz
    exact he.input.named w hw
  rw [hfind x hnex] at heq hnex
  rw [hfind y hney] at heq
  rw [he.found x.1 (hnamed x hx)] at heq hnex
  rw [he.found y.1 (hnamed y hy)] at heq
  have hkey := born_inj (events_ordered inp.entries) he.fresh he.rows hnex heq
  rw [deletePosition, deletePosition] at hpos
  exact Prod.ext hkey (by omega)

/-! ### One epoch -/

/-- From a clean array an epoch of the table records the positions of its effective deletes and
    resets them. -/
theorem resetCovers_table (hin : InputOk inp tbl.store numTxns) (htbl : TableOk tbl)
    (hm : RowsFit inp tbl) (h : tableEpoch inp tbl = .ok (tbl', out)) {order : List (ℕ × ℕ)}
    (hord : ∀ dels, inp.deletes = some dels → order.Perm dels) :
    ResetCovers (recordedPositions inp tbl order) out.edelCrids tbl'.delPos := by
  rw [recordedPositions]
  obtain ⟨store, hstore, hfast⟩ | ⟨hstore, hsame⟩ := tableEpoch_path h
  · rw [hstore]
    have he := entered_of_fastStore hin htbl hm hstore
    cases hdel : inp.deletes with
    | none =>
      simp only [fastTable, hdel] at hfast
      obtain ⟨rfl, rfl⟩ := Prod.mk.inj hfast
      exact ⟨fun c hc => absurd (htbl.clean c) hc, htbl.clean⟩
    | some dels =>
      simp only [fastTable, hdel] at hfast
      obtain ⟨rfl, rfl⟩ := Prod.mk.inj hfast
      simp only [Option.isSome_some, if_true]
      set d := recordNoDeletes inp store (tbl.init + tbl.freeStart) dels tbl.delPos with hd
      set visible : ℕ → ℕ → ℕ := fun key tid =>
        (fastView inp (tbl.init + tbl.freeStart) none).visible (store.find key) tid with hvis
      have hmark : d = mark (delivered visible) deletePosition dels tbl.delPos :=
        recordNoDelete_mark _ _ _
      have horder : recordNoDeletes inp store (tbl.init + tbl.freeStart) order tbl.delPos = d := by
        rw [recordNoDeletes, recordNoDelete_mark, mark_perm (hord dels hdel), hmark]
      -- a delete that holds its record's position is in the reset list
      have hlist : ∀ x ∈ dels, ∀ c, delivered visible x = some c → d c = deletePosition x →
          c ∈ (noEffectiveDeletes (fastResolve inp store (tbl.init + tbl.freeStart) (some d)) d
            dels).map fun x => fastResolve inp store (tbl.init + tbl.freeStart) (some d) x.1 x.2 := by
        intro x hx c hxc hdc
        obtain ⟨hne, hrid⟩ := effective_of_holds hxc hdc
        refine List.mem_map.mpr ⟨x, List.mem_filter.mpr ⟨hx, ?_⟩, hrid⟩
        rw [decide_eq_true_eq, hrid]
        exact ⟨hne, hdc⟩
      refine ⟨fun c hc => ?_, fun c => ?_⟩
      · rw [horder, hmark] at hc
        obtain ⟨x, hx, hxc, hpos⟩ := exists_flagged htbl.clean hc
        rw [← hmark] at hpos
        exact List.count_eq_one_of_mem (noEffective_nodup he hdel) (hlist x hx c hxc hpos)
      · rw [hmark]
        refine eraseAll_mark htbl.clean (fun x hx c hxc hpos => ?_) c
        rw [← hmark] at hpos ⊢
        exact hlist x hx c hxc hpos
  · rw [hstore]
    simp only [ite_self]
    exact ⟨fun c hc => absurd (htbl.clean c) hc, fun c => by rw [hsame, htbl.clean]⟩

end

/-! ### Runs of both workloads -/

section
variable {cfg : Config} {g : GpuIndex} {deletePath : Bool} {epochs : List (List TpccTxn)}
  {txns : List TpccTxn}

/-- The epoch after any history of generated epochs. -/
theorem resetCovers_next (hW : cfg.numWarehouses < 2 ^ 8) {durable : Durable} {entryCrid : ℕ → ℕ}
    (hrows : cfg.numWarehouses * 10 * 3000 * 15 +
      15 * ((epochs.map List.length).sum + txns.length) ≤ kAbsent)
    (hgen : ∀ e ∈ epochs ++ [txns], Generated cfg deletePath e)
    (hrun : (GpuIndex.init cfg durable entryCrid).run deletePath epochs = .ok g)
    {idx : Index} {out : EpochOut} (h : indexTxns deletePath g.index txns = .ok (idx, out))
    {order : List (ℕ × ℕ)}
    (hord : ∀ dels, (newOrderInput deletePath txns).deletes = some dels → order.Perm dels) :
    ResetCovers (recordedPositions (newOrderInput deletePath txns) g.index.newOrder order)
      out.edelCrids idx.newOrder.delPos := by
  obtain ⟨js, hlog, hroom, -, -⟩ := logged_run (logged_init hW (by omega) durable entryCrid)
    (fun e he => (hgen e (by simp [he])).numbered) (room_init hrows durable entryCrid) hrun
  obtain ⟨o, no, ol, -, hno, -, hr⟩ := indexTxns_ok h
  obtain ⟨rfl, rfl⟩ := Prod.mk.inj hr
  have hnext := hgen txns (by simp)
  have hle := @newOrder_inserts_le deletePath txns
  have hm : RowsFit (newOrderInput deletePath txns) g.index.newOrder := by
    have := hroom.newOrder
    unfold RowsFit
    omega
  exact resetCovers_table
    (newOrderInput_ok (fun t ht => (hnext.each t ht).1) hnext.numbered.count hlog.newOrderCuco)
    hlog.newOrder.ok hm hno hord

end

/-- After any history of a run of either workload, with the atomics of the delete kernel in any order:
    every CRID whose position the next epoch records is the CRID of one effective delete of it, and
    the epoch ends with the whole array absent, on the fast path as on the fallback to the timeline. -/
theorem delPos_resetCovers :
    (∀ (cfg : Ycsb.Config) (log : Ycsb.DurableLog) (entryCrid : ℕ → ℕ)
      (epochs : List (List Ycsb.Slot)) (slots : List Ycsb.Slot) (g : Ycsb.GpuIndex)
      (idx : Ycsb.Index) (out : Ycsb.EpochOut) (order : List (Ycsb.Slot × ℕ)),
      (Ycsb.GpuIndex.init cfg log entryCrid).run cfg epochs = .ok g →
      Ycsb.indexTxns cfg g.index slots = .ok (idx, out) → order.Perm slots.zipIdx →
      ResetCovers (Ycsb.recordedPositions cfg g.index slots order) out.edelCrids idx.delPos) ∧
    ∀ (cfg : Config) (durable : Durable) (entryCrid : ℕ → ℕ) (deletePath : Bool)
      (epochs : List (List TpccTxn)) (txns : List TpccTxn) (g : GpuIndex) (idx : Index)
      (out : EpochOut) (order : List (ℕ × ℕ)), cfg.numWarehouses < 2 ^ 8 →
      cfg.numWarehouses * 10 * 3000 * 15 + 15 * ((epochs.map List.length).sum + txns.length) ≤
        kAbsent →
      (∀ e ∈ epochs ++ [txns], Generated cfg deletePath e) →
      (GpuIndex.init cfg durable entryCrid).run deletePath epochs = .ok g →
      indexTxns deletePath g.index txns = .ok (idx, out) →
      (∀ dels, (newOrderInput deletePath txns).deletes = some dels → order.Perm dels) →
      ResetCovers (recordedPositions (newOrderInput deletePath txns) g.index.newOrder order)
        out.edelCrids idx.newOrder.delPos := by
  constructor
  · intro cfg log entryCrid epochs slots g idx out order hrun h hord
    exact Ycsb.resetCovers_step (Ycsb.delPos_run (fun _ => rfl) hrun) h hord
  · intro cfg durable entryCrid deletePath epochs txns g idx out order hW hrows hgen hrun h hord
    exact resetCovers_next hW hrows hgen hrun h hord

/-- A Delivery of the order that `firstNewOrder` added. -/
def deliverFirst : List TpccTxn := [deliverOne 3001]

theorem deliverFirst_generated (flatOL : Bool) : Generated (oneWarehouse flatOL) true deliverFirst := by
  refine ⟨fun t ht => ?_, by decide⟩
  rw [List.mem_singleton.mp ht]
  refine ⟨⟨rfl, fun i _ h => ?_⟩, show 1 ≤ 1 from le_refl _⟩
  by_cases hi : i = 0
  · subst hi
    exact ⟨⟨by decide, by decide, by decide⟩, by decide⟩
  · simp [hi] at h

/-- Key 2 is deleted twice in an epoch whose slots record backwards: its position is that of the first
    delete, the one effective delete of record 2. In TPC-C an order is added and then delivered. -/
theorem delPos_resetCovers_small :
    (∃ idx out, Ycsb.indexTxns Ycsb.smallConfig
        (Ycsb.GpuIndex.init Ycsb.smallConfig ⟨id, id, id⟩ id).index Ycsb.smallEpoch = .ok (idx, out) ∧
      Ycsb.recordedPositions Ycsb.smallConfig
        (Ycsb.GpuIndex.init Ycsb.smallConfig ⟨id, id, id⟩ id).index Ycsb.smallEpoch
          Ycsb.smallEpoch.zipIdx.reverse 2 = 2 ∧
      out.edelCrids.count 2 = 1 ∧ idx.delPos 2 = kAbsent) ∧
    ∃ g idx out, (GpuIndex.init (oneWarehouse true) noDurable fun _ => 0).run true [firstNewOrder] =
        .ok g ∧ indexTxns true g.index deliverFirst = .ok (idx, out) ∧
      ∀ c, idx.newOrder.delPos c = kAbsent := by
  constructor
  · obtain ⟨⟨idx, out⟩, h⟩ : ∃ r, Ycsb.indexTxns Ycsb.smallConfig
        (Ycsb.GpuIndex.init Ycsb.smallConfig ⟨id, id, id⟩ id).index Ycsb.smallEpoch = .ok r := ⟨_, rfl⟩
    have hrec : Ycsb.recordedPositions Ycsb.smallConfig
        (Ycsb.GpuIndex.init Ycsb.smallConfig ⟨id, id, id⟩ id).index Ycsb.smallEpoch
          Ycsb.smallEpoch.zipIdx.reverse 2 = 2 := by decide +kernel
    have hcov := delPos_resetCovers.1 Ycsb.smallConfig ⟨id, id, id⟩ id [] Ycsb.smallEpoch _ idx out
      _ rfl h (List.reverse_perm _)
    exact ⟨idx, out, h, hrec, hcov.once 2 (by rw [hrec]; decide), hcov.clean 2⟩
  · obtain ⟨g, hg⟩ := firstNewOrder_returns true
    have hgen : ∀ e ∈ [firstNewOrder] ++ [deliverFirst], Generated (oneWarehouse true) true e := by
      intro e he
      rcases List.mem_cons.mp he with rfl | he
      · exact firstNewOrder_generated true
      · rw [List.mem_singleton.mp he]
        exact deliverFirst_generated true
    have hrows : (oneWarehouse true).numWarehouses * 10 * 3000 * 15 +
        15 * (([firstNewOrder].map List.length).sum + deliverFirst.length) ≤ kAbsent := by
      simp only [oneWarehouse, firstNewOrder, deliverFirst, List.map_cons, List.map_nil, List.sum_cons,
        List.sum_nil, List.length_singleton, kAbsent]
      omega
    have hinit : Logged (oneWarehouse true) _ _ := logged_init (show 1 < 2 ^ 8 by decide)
      ((Nat.le_add_right _ _).trans (oneWarehouse_rows true)) noDurable fun _ => 0
    obtain ⟨js, hlog, hroom, -, -⟩ := logged_run hinit
      (fun e he => (hgen e (by simp [List.mem_singleton.mp he])).numbered)
      (room_init hrows noDurable fun _ => 0) hg
    obtain ⟨g', hg'⟩ := indexTxns_returns hlog (deliverFirst_generated true) hroom fun k hk => by
      rw [show (orderLineInput deliverFirst).validInsert = [] by decide] at hk
      exact absurd hk (List.not_mem_nil)
    obtain ⟨⟨idx, out⟩, h⟩ : ∃ r, indexTxns true g.index deliverFirst = .ok r := by
      obtain ⟨o, no, ol, ho, hno, hol, -⟩ := indexTxns_tables hg'
      exact ⟨_, by rw [indexTxns, indexWith, ho, hno, hol]; rfl⟩
    have hcov := delPos_resetCovers.2 (oneWarehouse true) noDurable (fun _ => 0) true [firstNewOrder]
      deliverFirst g idx out ((newOrderInput true deliverFirst).deletes.getD []) (by decide) hrows hgen
      hg h fun dels hdels => by rw [hdels]; exact List.Perm.refl _
    exact ⟨g, idx, out, hg, h, hcov.clean⟩

end Egad.Tpcc
