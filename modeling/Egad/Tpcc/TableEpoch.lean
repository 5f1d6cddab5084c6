import Egad.Tpcc.FastTable

/-! # One table's epoch

    `TableSpec` is what the serial run of a table's events gives: the record every key resolves to at
    a transaction's accesses, the minted keys, the effective deletes and the store at the end.
    `tableEpoch` meets it on whichever path it takes, and so does the timeline path on its own. -/

namespace Egad.Tpcc
open Egad.Lib Egad.Timeline

/-- Invariant of a table between epochs. -/
structure TableOk (tbl : Table) : Prop where
  rows : tbl.store.Rows (tbl.init + tbl.freeStart)
  clean : ∀ c, tbl.delPos c = kAbsent

/-- The serial run of a table's epoch. -/
structure TableSpec (inp : TableInput) (numTxns : ℕ) (tbl tbl' : Table) (out : TableOut) : Prop where
  resolve : ∀ k tid, tbl.store.Named k → k < 2 ^ (64 - inp.posBits) → tid < numTxns →
    out.resolve k tid = serialCrid tbl.store.lookup inp.evs (tbl.init + tbl.freeStart)
      (livesAt tbl.store.lookup inp.evs (tid * 4 + 1) 0 k)
  mintedKeys : out.mintedKeys = (created tbl.store.lookup inp.evs).map Event.key
  edelKeys : out.edelKeys = (ended tbl.store.lookup inp.evs).map Event.key
  edelCrids : out.edelCrids = (ended tbl.store.lookup inp.evs).map fun v =>
    serialCrid tbl.store.lookup inp.evs (tbl.init + tbl.freeStart) (found tbl.store.lookup inp.evs v)
  alike : tbl.store.Alike tbl'.store
  touches : tbl.store.Touches tbl'.store
  lookup : ∀ k, tbl'.store.lookup k = serialCrid tbl.store.lookup inp.evs (tbl.init + tbl.freeStart)
    (finalLives tbl.store.lookup inp.evs k)
  init : tbl'.init = tbl.init
  freeStart : tbl'.freeStart = tbl.freeStart + (created tbl.store.lookup inp.evs).length
  clean : ∀ c, tbl'.delPos c = kAbsent

section
variable {inp : TableInput} {numTxns : ℕ} {tbl tbl' : Table} {out : TableOut} {store : Store}

theorem created_length_le (hin : InputOk inp store numTxns) (lookup : ℕ → ℕ) :
    (created lookup inp.evs).length ≤ inp.validInsert.length := by
  rw [← hin.insertKeys, List.length_map, inserts]
  refine (List.monotone_filter_right _ fun v hv => ?_).length_le
  simp only [createsLife, decide_eq_true_eq] at hv ⊢
  exact hv.1

theorem ended_eq_nil (hin : InputOk inp store numTxns) (hno : inp.deletes = none) (lookup : ℕ → ℕ) :
    ended lookup inp.evs = [] := by
  rw [ended, List.filter_eq_nil_iff]
  intro v hv h
  simp [endsLife, hin.insert_of_no_deletes hno v hv] at h

/-! ### The fast path -/

/-- What the bulk insert of fresh keys establishes. -/
theorem entered_of_fresh (hin : InputOk inp tbl.store numTxns) (htbl : TableOk tbl)
    (hm : tbl.init + tbl.freeStart + inp.validInsert.length ≤ kAbsent)
    (hnd : inp.validInsert.Nodup) (habs : ∀ k ∈ inp.validInsert, tbl.store.lookup k = kAbsent)
    (halike : tbl.store.Alike store)
    (hlook : ∀ k, store.lookup k = if k ∈ inp.validInsert then
      tbl.init + tbl.freeStart + inp.validInsert.idxOf k else tbl.store.lookup k) :
    Entered inp tbl.store store numTxns (tbl.init + tbl.freeStart) := by
  have hkeys := hin.insertKeys
  have hfresh : Fresh tbl.store.lookup inp.evs := by
    rw [← hkeys] at hnd habs
    refine ⟨fun v hv w hw hvt hwt hk => ?_, fun v hv hvt => ?_⟩
    · exact List.inj_on_of_nodup_map hnd (mem_inserts.mpr ⟨hv, hvt⟩) (mem_inserts.mpr ⟨hw, hwt⟩) hk
    · exact habs v.key (List.mem_map_of_mem (mem_inserts.mpr ⟨hv, hvt⟩))
  refine ⟨hin, hfresh, ⟨htbl.rows.lookup_below, htbl.rows.inj, ?_⟩, fun k hk => ?_⟩
  · rw [← hkeys, List.length_map] at hm
    exact hm
  · rw [Store.find_eq_lookup ((halike.named k).mpr hk), hlook, ← born_map _ (events_ordered _) hfresh,
      hkeys]

theorem fastTable_spec (he : Entered inp tbl.store store numTxns (tbl.init + tbl.freeStart))
    (htbl : TableOk tbl) (halike : tbl.store.Alike store) (htouch : tbl.store.Touches store) :
    TableSpec inp numTxns tbl (fastTable inp tbl store).1 (fastTable inp tbl store).2 := by
  have hev := events_ordered inp.entries
  have hcreated : created tbl.store.lookup inp.evs = inserts inp.evs := created_fresh hev he.fresh
  have hlen : inp.validInsert.length = (inserts inp.evs).length := by
    rw [← he.input.insertKeys, List.length_map]
  have hborn : ∀ k, store.lookup k = serialCrid tbl.store.lookup inp.evs (tbl.init + tbl.freeStart)
      (bornLife tbl.store.lookup inp.evs k) := by
    intro k
    by_cases hk : tbl.store.Named k
    · rw [← he.found k hk, Store.find_eq_lookup ((halike.named k).mpr hk)]
    · -- a key without a cell has no events and no record
      have hnk : ¬ tbl.store.Keyed k := fun h => hk h.named
      have hi : insertOf inp.evs k = none := by
        cases h : insertOf inp.evs k with
        | none => rfl
        | some v =>
          obtain ⟨hv, -, rfl⟩ := insertOf_some h
          exact absurd (he.input.named v hv) hk
      rw [bornLife, hi]
      simp only
      rw [serialCrid_startLife, Store.lookup, if_neg (fun h => hnk ((halike.keyed k).mp h)),
        Store.lookup, if_neg hnk]
  have hfinal := final_fresh (tbl.init + tbl.freeStart) hev he.fresh he.input.pos
  cases hdel : inp.deletes with
  | none =>
    simp only [fastTable, hdel]
    refine ⟨fun k tid hk _ _ => resolve_no_deletes he hdel hk tid, ?_, ?_, ?_, halike, htouch,
      fun k => ?_, rfl, by rw [hcreated, hlen], htbl.clean⟩
    · rw [hcreated, he.input.insertKeys]
    · rw [ended_eq_nil he.input hdel]; rfl
    · rw [ended_eq_nil he.input hdel]; rfl
    · rw [hborn, ← hfinal k, ended_eq_nil he.input hdel]; simp
  | some dels =>
    obtain ⟨m, e, hs⟩ := he.input.cuco (by rw [hdel]; rfl)
    obtain ⟨m', e', rfl⟩ : ∃ m' e', store = .cuco m' e' := by
      rw [hs] at halike
      cases store with
      | cuco m' e' => exact ⟨m', e', rfl⟩
      | flat a maxO => simp [Store.Alike] at halike
    have hedel := noEffectiveDeletes_eq he hdel htbl.clean rfl
    have hcrids : ((ended tbl.store.lookup inp.evs).map fun w => (w.key, w.pos / 4)).map (fun x =>
        fastResolve inp (.cuco m' e') (tbl.init + tbl.freeStart) (some (recordNoDeletes inp
          (.cuco m' e') (tbl.init + tbl.freeStart) dels tbl.delPos)) x.1 x.2) =
        (ended tbl.store.lookup inp.evs).map fun w => serialCrid tbl.store.lookup inp.evs
          (tbl.init + tbl.freeStart) (found tbl.store.lookup inp.evs w) := by
      rw [List.map_map]
      refine List.map_congr_left fun w hw => ?_
      obtain ⟨hw, hwe⟩ := List.mem_filter.mp hw
      have hwt : w.type = .delete := by
        simp only [endsLife, decide_eq_true_eq] at hwe; exact hwe.1
      rw [Function.comp_apply, resolve_deletes he hdel htbl.clean (he.input.named w hw)
        (delete_txn he.input hw), found_delete he hw hwt]
    have hkeys : ((ended tbl.store.lookup inp.evs).map fun w => (w.key, w.pos / 4)).map Prod.fst =
        (ended tbl.store.lookup inp.evs).map Event.key := by
      rw [List.map_map]; rfl
    simp only [fastTable, hdel]
    rw [hedel, hcrids, hkeys]
    refine ⟨fun k tid hk _ htid => resolve_deletes he hdel htbl.clean hk htid, ?_, rfl, rfl, ?_, ?_,
      fun k => ?_, rfl, ?_, recordNoDeletes_clean he hdel htbl.clean⟩
    · simp only; rw [hcreated, he.input.insertKeys]
    · rw [hs]; trivial
    · exact Store.touches_cuco _ _ _
    · simp only [Store.erase]
      rw [Store.lookup_cuco, eraseAll_apply, ← hfinal k, ← hborn k, Store.lookup_cuco]
    · simp only; rw [hcreated, hlen]

/-! ### The timeline path -/

theorem mintFits_of_rows (hin : InputOk inp tbl.store numTxns)
    (hm : tbl.init + tbl.freeStart + inp.validInsert.length ≤ kAbsent) :
    MintFits tbl.store.lookup inp.evs (tbl.init + tbl.freeStart) := by
  have := created_length_le hin tbl.store.lookup
  rw [MintFits]
  omega

theorem generalTable_spec (hin : InputOk inp tbl.store numTxns) (htbl : TableOk tbl)
    (hm : tbl.init + tbl.freeStart + inp.validInsert.length ≤ kAbsent)
    (hkeyed : ∀ v ∈ inp.evs, tbl.store.Keyed v.key) :
    ∃ tbl' out, generalTable inp tbl = .ok (tbl', out) ∧ TableSpec inp numTxns tbl tbl' out := by
  have hmint := mintFits_of_rows hin hm
  have hbuild : build inp.posBits tbl.store.find (tbl.init + tbl.freeStart) tbl.entryCrid inp.entries =
      build inp.posBits tbl.store.lookup (tbl.init + tbl.freeStart) tbl.entryCrid inp.entries :=
    build_congr fun v hv => Store.find_eq_lookup (hin.named v hv)
  have hag := build_agrees tbl.entryCrid hin.fits hmint
  have hnum := build_numMinted tbl.store.lookup (tbl.init + tbl.freeStart) tbl.entryCrid hin.fits
  have hdel : (∃ m e, tbl.store = .cuco m e) ∨ ∀ v ∈ inp.evs, v.type = .insert := by
    cases hd : inp.deletes with
    | none => exact Or.inr (hin.insert_of_no_deletes hd)
    | some dels => exact Or.inl (hin.cuco (by rw [hd]; rfl))
  obtain ⟨store, hfin, halike, htouch, hlook⟩ := finalize_spec tbl.entryCrid hin.fits hmint hkeyed hdel
  rw [← hbuild] at hag hnum hfin
  set t := build inp.posBits tbl.store.find (tbl.init + tbl.freeStart) tbl.entryCrid inp.entries with ht
  refine ⟨{ tbl with
      store := store, freeStart := tbl.freeStart + t.numMinted, entryCrid := t.entryCrid },
    generalOut inp tbl t, ?_, ?_⟩
  · rw [generalTable, ← ht, hfin]; rfl
  · refine ⟨fun k tid hk hlt htid => ?_, hag.mintedKeys, ?_, ?_, halike, htouch, hlook, rfl, ?_,
      htbl.clean⟩
    · simp only [generalOut, generalView, GrowingTableView.resolve]
      split
      · rw [Store.find_eq_lookup hk]
        exact hag.resolve k (tid * 4 + 1) 0 hlt
      · next hempty =>
        -- no events: nothing is minted and the epoch-start record stands
        have hnil : inp.evs = [] := by
          have h0 : t.sorted.length = inp.evs.length := by
            rw [ht]; simp [build, sortEvents, length_stableSort]
          rw [not_not, h0] at hempty
          exact List.length_eq_zero_iff.mp hempty
        have hevents : events inp.entries = [] := hnil
        have h0 : t.numMinted = 0 := by rw [hnum, hevents]; rfl
        simp only [GrowingTableView.resolveFast, GrowingTableView.visible, h0]
        rw [if_neg (fun h => absurd h.2.1 (Nat.not_lt_zero _)), Store.find_eq_lookup hk, hnil]
        exact (serialCrid_startLife k).symm
    · cases hd : inp.deletes with
      | none =>
        rw [ended_eq_nil hin hd]
        simp [generalOut, hd]
      | some dels =>
        rw [← hag.edelKeys]
        simp [generalOut, hd]
    · cases hd : inp.deletes with
      | none =>
        rw [ended_eq_nil hin hd]
        simp [generalOut, hd]
      | some dels =>
        rw [← hag.edelCrids]
        simp [generalOut, hd]
    · simp only; rw [hnum]

/-! ### Either path -/

/-- A bulk insert that did not throw had a cell for every key. -/
theorem keyed_of_ok (hin : InputOk inp tbl.store numTxns) {r : Bool × Store} {cridBegin : ℕ}
    (h : tbl.store.insertFresh inp.validInsert cridBegin = .ok r) :
    ∀ v ∈ inp.evs, tbl.store.Keyed v.key := by
  intro v hv
  have hnamed := hin.named v hv
  cases hs : tbl.store with
  | cuco m e => trivial
  | flat a maxO =>
    rw [hs] at h hnamed
    obtain ⟨hstride, -, -⟩ := flat_insertFresh (show _ = Except.ok (r.1, r.2) from h)
    have hno : inp.deletes = none := by
      cases hd : inp.deletes with
      | none => rfl
      | some dels =>
        obtain ⟨m, e, hs'⟩ := hin.cuco (by rw [hd]; rfl)
        rw [hs] at hs'
        simp at hs'
    have hmem : v.key ∈ inp.validInsert := by
      rw [← hin.insertKeys]
      exact List.mem_map_of_mem (mem_inserts.mpr ⟨hv, hin.insert_of_no_deletes hno v hv⟩)
    exact hnamed.resolve_right (hstride v.key hmem)

theorem keyed_of_no_inserts (hin : InputOk inp tbl.store numTxns) (h0 : inp.validInsert = []) :
    ∀ v ∈ inp.evs, tbl.store.Keyed v.key := by
  intro v hv
  cases hs : tbl.store with
  | cuco m e => trivial
  | flat a maxO =>
    have hins : inserts inp.evs = [] := by
      rw [← List.map_eq_nil_iff, hin.insertKeys, h0]
    cases hd : inp.deletes with
    | none =>
      have hmem := mem_inserts.mpr ⟨hv, hin.insert_of_no_deletes hd v hv⟩
      rw [hins] at hmem
      simp at hmem
    | some dels =>
      obtain ⟨m, e, hs'⟩ := hin.cuco (by rw [hd]; rfl)
      rw [hs] at hs'
      simp at hs'

theorem InputOk.of_alike {s s' : Store} (hin : InputOk inp s numTxns) (h : s.Alike s') :
    InputOk inp s' numTxns := by
  refine ⟨hin.insertKeys, hin.insertTxns, hin.insertPos, hin.deletes, hin.deletePos, hin.deleteOnce,
    hin.fits, hin.pos, hin.txns, fun v hv => (h.named v.key).mpr (hin.named v hv), fun hd => ?_⟩
  obtain ⟨m, e, rfl⟩ := hin.cuco hd
  cases s' with
  | cuco m' e' => exact ⟨m', e', rfl⟩
  | flat a maxO => simp [Store.Alike] at h

theorem lookup_of_cells {s s' : Store} (h : s.Alike s') (hcells : s'.cells = s.cells) :
    s'.lookup = s.lookup := by
  funext k
  simp only [Store.lookup, h.keyed, h.addr, hcells]

theorem TableOk.of_undo {undone : Store} (h : TableOk tbl) (halike : tbl.store.Alike undone)
    (hcells : undone.cells = tbl.store.cells) : TableOk { tbl with store := undone } := by
  have hlookup := lookup_of_cells halike hcells
  refine ⟨⟨fun c hc => ?_, fun k k' hk hkk => ?_⟩, h.clean⟩
  · simp only [hcells] at hc ⊢
    exact h.rows.below c hc
  · simp only [hlookup] at hk hkk
    exact h.rows.inj k k' hk hkk

/-- An undone attempt leaves the epoch-start store, so the epoch is the one from there. -/
theorem TableSpec.of_undo {undone : Store} (h : TableSpec inp numTxns { tbl with store := undone } tbl' out)
    (halike : tbl.store.Alike undone) (hcells : undone.cells = tbl.store.cells)
    (hlookup : undone.lookup = tbl.store.lookup) : TableSpec inp numTxns tbl tbl' out := by
  obtain ⟨h1, h2, h3, h4, h5, h6, h7, h8, h9, h10⟩ := h
  simp only [hlookup] at h1 h2 h3 h4 h7 h9
  refine ⟨fun k tid hk => h1 k tid ((halike.named k).mpr hk), h2, h3, h4, halike.trans h5,
    fun c => ?_, h7, h8, h9, h10⟩
  rcases h6 c with h | h
  · exact Or.inl (by rw [h]; exact congrFun hcells c)
  · exact Or.inr h

/-- Whatever path the table takes, its epoch is the serial run's; so is the timeline path's. -/
theorem tableEpoch_spec (hin : InputOk inp tbl.store numTxns) (htbl : TableOk tbl)
    (hm : tbl.init + tbl.freeStart + inp.validInsert.length ≤ kAbsent)
    (h : tableEpoch inp tbl = .ok (tbl', out)) :
    TableSpec inp numTxns tbl tbl' out ∧ ∀ v ∈ inp.evs, tbl.store.Keyed v.key := by
  rw [tableEpoch] at h
  split at h
  · next h0 =>
    have hnil := List.length_eq_zero_iff.mp h0
    have he := entered_of_fresh hin htbl hm (by rw [hnil]; exact List.nodup_nil)
      (by rw [hnil]; simp) (Store.Alike.refl _) (fun k => by rw [hnil]; simp)
    obtain ⟨rfl, rfl⟩ : (fastTable inp tbl tbl.store).1 = tbl' ∧
        (fastTable inp tbl tbl.store).2 = out := by
      simpa [pure, Except.pure, Prod.ext_iff] using h
    exact ⟨fastTable_spec he htbl (Store.Alike.refl _) (fun c => Or.inl rfl),
      keyed_of_no_inserts hin hnil⟩
  · cases hfr : tbl.store.insertFresh inp.validInsert (tbl.init + tbl.freeStart) with
    | error e => rw [hfr] at h; simp [bind, Except.bind] at h
    | ok r =>
      obtain ⟨ok, store⟩ := r
      have hkeyed := keyed_of_ok hin hfr
      refine ⟨?_, hkeyed⟩
      rw [hfr] at h
      have hnamed : ∀ k ∈ inp.validInsert, tbl.store.Named k := by
        rw [← hin.insertKeys]
        intro k hk
        obtain ⟨v, hv, rfl⟩ := List.mem_map.mp hk
        exact hin.named v (mem_inserts.mp hv).1
      cases ok with
      | true =>
        obtain ⟨hnd, habs, halike, htouch, hlook⟩ := insertFresh_accept hm hnamed hfr
        obtain ⟨rfl, rfl⟩ : (fastTable inp tbl store).1 = tbl' ∧ (fastTable inp tbl store).2 = out := by
          simpa [bind, Except.bind, pure, Except.pure, Prod.ext_iff] using h
        exact fastTable_spec (entered_of_fresh hin htbl hm hnd habs halike hlook) htbl halike htouch
      | false =>
        obtain ⟨halike, hcells⟩ := undo_reject hm htbl.rows hfr
        set tbl₀ : Table :=
          { tbl with store := store.undo inp.validInsert (tbl.init + tbl.freeStart) } with htbl₀
        have hlookup : tbl₀.store.lookup = tbl.store.lookup := lookup_of_cells halike hcells
        have hok₀ : TableOk tbl₀ := htbl.of_undo halike hcells
        have hkeyed₀ : ∀ v ∈ inp.evs, tbl₀.store.Keyed v.key := fun v hv =>
          (halike.keyed v.key).mpr (hkeyed v hv)
        obtain ⟨tbl'', out', hgen, hspec⟩ := generalTable_spec (hin.of_alike halike) hok₀ hm hkeyed₀
        obtain ⟨rfl, rfl⟩ : tbl'' = tbl' ∧ out' = out := by
          have : generalTable inp tbl₀ = .ok (tbl', out) := h
          rw [hgen] at this
          simpa using this
        exact hspec.of_undo halike hcells hlookup

end

end Egad.Tpcc
