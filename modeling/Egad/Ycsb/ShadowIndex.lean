import Egad.Ycsb.FastPath

/-! # The durable index log (`benchmarks/ycsb_cpu_shadow_index.cpp`)

    Every epoch appends its minted keys to the insert log at `[old_free_start, free_start)` and its
    effective deletes, key and CRID, to the delete log at `[old_delete_count, delete_count)`. Recovery
    rebuilds the map from the initial population, the insert log up to a cursor and the delete log up
    to a cursor, in this order.

        insert log   key j  ─▶ CRID starting + j, a later entry of a key replaces an earlier one
        delete log   (key, CRID) ─▶ erased only while the key still maps to that CRID

    A shard holds the keys that hash to it and applies its own entries in log order, so the shards
    together are one map. -/

namespace Egad.Ycsb
open Egad.Lib Egad.Timeline

/-- The durable arrays. -/
structure DurableLog where
  insertKeys : ℕ → ℕ
  deleteKeys : ℕ → ℕ
  deleteCrids : ℕ → ℕ

/-- `mirrorEpoch`. -/
def mirrorEpoch (log : DurableLog) (keys : List ℕ) (oldFreeStart : ℕ) : DurableLog :=
  { log with insertKeys := copyAt log.insertKeys oldFreeStart keys }

/-- `mirrorEpochDeletes`. -/
def mirrorEpochDeletes (log : DurableLog) (keys crids : List ℕ) (oldDeleteCount : ℕ) : DurableLog :=
  { log with
    deleteKeys := copyAt log.deleteKeys oldDeleteCount keys
    deleteCrids := copyAt log.deleteCrids oldDeleteCount crids }

/-- `loadInitialData`: CRID = key. -/
def loadInitialData (cfg : Config) : ℕ → ℕ := fun k => if k < cfg.startingNumRecords then k else kAbsent

/-- `reconstructInsertsFromDurable`. -/
def reconstructInsertsFromDurable (cfg : Config) (log : DurableLog) (count : ℕ) (m : ℕ → ℕ) : ℕ → ℕ :=
  (List.range count).foldl
    (fun m j => Function.update m (log.insertKeys j) (cfg.startingNumRecords + j)) m

/-- `applyDeletesFromDurable`. -/
def applyDeletesFromDurable (log : DurableLog) (count : ℕ) (m : ℕ → ℕ) : ℕ → ℕ :=
  (List.range count).foldl
    (fun m j => if m (log.deleteKeys j) = log.deleteCrids j then
      Function.update m (log.deleteKeys j) kAbsent else m) m

/-- What recovery rebuilds from the logs cut at the two cursors. -/
def reconstruct (cfg : Config) (log : DurableLog) (insCursor delCursor : ℕ) : ℕ → ℕ :=
  applyDeletesFromDurable log delCursor
    (reconstructInsertsFromDurable cfg log insCursor (loadInitialData cfg))

/-- The GPU index with its durable log. -/
structure GpuIndex where
  index : Index
  deleteCount : ℕ
  log : DurableLog

/-- `indexTxns` with its log appends. -/
def GpuIndex.indexTxns (cfg : Config) (g : GpuIndex) (slots : List Slot) : Except String GpuIndex := do
  let (idx, out) ← Ycsb.indexTxns cfg g.index slots
  return {
    index := idx
    deleteCount := g.deleteCount + out.edelKeys.length
    log := mirrorEpochDeletes (mirrorEpoch g.log out.mintedKeys g.index.freeStart)
      out.edelKeys out.edelCrids g.deleteCount }

/-- The index phases of a sequence of epochs. -/
def GpuIndex.run (cfg : Config) (g : GpuIndex) (epochs : List (List Slot)) : Except String GpuIndex :=
  epochs.foldlM (GpuIndex.indexTxns cfg) g

/-- The index after `loadInitialData`; `log` and `entryCrid` are uninitialised memory. -/
def GpuIndex.init (cfg : Config) (log : DurableLog) (entryCrid : ℕ → ℕ) : GpuIndex :=
  { index := { map := loadInitialData cfg, hasErased := false, freeStart := 0,
               delPos := fun _ => kAbsent, entryCrid := entryCrid }
    deleteCount := 0
    log := log }

/-! ### One epoch on either path -/

section
variable {cfg : Config} {idx idx' : Index} {slots : List Slot} {out : EpochOut}

/-- What the index phase guarantees, whichever path it took. -/
structure EpochSpec (cfg : Config) (idx : Index) (slots : List Slot) (idx' : Index)
    (out : EpochOut) : Prop where
  rows : checkFreeRows cfg idx.freeStart (insKeys slots).length = .ok ()
  out : out = serialOut idx.map slots (mintedBegin cfg idx)
  map : idx'.map = (serialOut idx.map slots (mintedBegin cfg idx)).map
  freeStart : idx'.freeStart = idx.freeStart + (created idx.map (slotEvents slots)).length
  clean : ∀ c, idx'.delPos c = kAbsent

theorem indexTxns_spec (hwf : IndexWf cfg idx) (hok : EpochOk cfg slots)
    (h : indexTxns cfg idx slots = .ok (idx', out)) : EpochSpec cfg idx slots idx' out := by
  have hrows : checkFreeRows cfg idx.freeStart (insKeys slots).length = .ok () := by
    cases hc : checkFreeRows cfg idx.freeStart (insKeys slots).length with
    | error e => simp [indexTxns, hc, bind, Except.bind] at h
    | ok u => rfl
  have hfits : mintedBegin cfg idx + (insKeys slots).length ≤ kAbsent :=
    ((checkFreeRows_ok hwf.rows).mp hrows).trans hwf.ids
  have hfast : ∀ map, Entered idx.map slots (mintedBegin cfg idx) map →
      fastEpoch cfg idx map slots = (idx', out) → EpochSpec cfg idx slots idx' out := by
    intro map he hf
    obtain ⟨h1, h2, h3, h4⟩ := fastEpoch_eq hwf hok he
    rw [hf] at h1 h2 h3 h4
    exact ⟨hrows, h1, h2, h3, h4⟩
  simp only [indexTxns, hrows, bind, Except.bind, pure, Except.pure] at h
  split at h
  · next hlen =>
    -- no inserts: the fast path on the epoch-start map
    have hnil : insKeys slots = [] := List.length_eq_zero_iff.mp hlen
    have hacc : (insertFresh idx.map idx.hasErased (insKeys slots) (mintedBegin cfg idx)) =
        (true, idx.map) := by
      rw [hnil]; cases idx.hasErased <;> rfl
    have he := entered_of_accept hwf hok hrows (by rw [hacc])
    rw [hacc] at he
    exact hfast _ he (by simpa using h)
  · split at h
    · next map hacc =>
      have he := entered_of_accept hwf hok hrows (by rw [hacc])
      rw [hacc] at he
      exact hfast _ he (by simpa using h)
    · next map hrej =>
      have hundo := eraseTentative_insertFresh idx.hasErased hfits hwf.below
      rw [hrej] at hundo
      simp only [hundo] at h
      set idx₀ : Index := { idx with
        hasErased := idx.hasErased ||
          (eraseTentative map (insKeys slots) (mintedBegin cfg idx)).2 ≠ 0 } with hidx₀
      have hwf₀ : IndexWf cfg idx₀ := ⟨hwf.rows, hwf.ids, hwf.below, hwf.inj, hwf.clean⟩
      change generalEpoch cfg idx₀ slots = _ at h
      rw [generalEpoch_eq hwf₀ hok hrows] at h
      obtain ⟨rfl, rfl⟩ : generalIndex cfg idx₀ slots = idx' ∧
          serialOut idx₀.map slots (mintedBegin cfg idx₀) = out := by simpa using h
      obtain ⟨h1, h2⟩ := generalIndex_spec hwf₀ hok hrows
      exact ⟨hrows, rfl, h1, h2, hwf.clean⟩

/-- The index phase throws only for want of rows. -/
theorem indexTxns_returns (hwf : IndexWf cfg idx) (hok : EpochOk cfg slots)
    (hrows : checkFreeRows cfg idx.freeStart (insKeys slots).length = .ok ()) :
    ∃ r, indexTxns cfg idx slots = .ok r := by
  have hfits : mintedBegin cfg idx + (insKeys slots).length ≤ kAbsent :=
    ((checkFreeRows_ok hwf.rows).mp hrows).trans hwf.ids
  simp only [indexTxns, hrows, bind, Except.bind, pure, Except.pure]
  split
  · exact ⟨_, rfl⟩
  · split
    · exact ⟨_, rfl⟩
    · next map hrej =>
      have hundo := eraseTentative_insertFresh idx.hasErased hfits hwf.below
      rw [hrej] at hundo
      simp only [hundo]
      exact ⟨_, generalEpoch_eq ⟨hwf.rows, hwf.ids, hwf.below, hwf.inj, hwf.clean⟩ hok hrows⟩

end

/-! ### The logs hold the journal -/

/-- The GPU index and its log against the journal of every insert and delete since the start. -/
structure Logged (cfg : Config) (g : GpuIndex) (j : Journal ℕ) : Prop where
  inv : j.Inv kAbsent
  live : g.index.map = j.live
  minted : j.minted = List.range cfg.startingNumRecords ++
    (List.range g.index.freeStart).map g.log.insertKeys
  ended : j.ended =
    (List.range g.deleteCount).map fun i => (g.log.deleteKeys i, g.log.deleteCrids i)
  rows : mintedBegin cfg g.index ≤ cfg.numRecords
  ids : cfg.numRecords ≤ kAbsent
  clean : ∀ c, g.index.delPos c = kAbsent

section
variable {cfg : Config} {g g' : GpuIndex} {j : Journal ℕ} {slots : List Slot}

theorem Logged.length (h : Logged cfg g j) : j.minted.length = mintedBegin cfg g.index := by
  rw [h.minted]; simp [mintedBegin]

theorem Logged.wf (h : Logged cfg g j) : IndexWf cfg g.index := by
  refine ⟨h.rows, h.ids, fun k hk => ?_, fun k k' hk heq => ?_, h.clean⟩
  · rw [h.live] at hk ⊢
    rw [← h.length]
    exact (List.getElem?_eq_some_iff.mp (h.inv.owner k hk)).1
  · rw [h.live] at hk heq
    have h1 := h.inv.owner k hk
    rw [heq, h.inv.owner k' (heq ▸ hk)] at h1
    exact (Option.some.inj h1).symm

theorem indexTxns_ok (h : g.indexTxns cfg slots = .ok g') : ∃ idx out,
    Ycsb.indexTxns cfg g.index slots = .ok (idx, out) ∧
    g' = { index := idx, deleteCount := g.deleteCount + out.edelKeys.length,
           log := mirrorEpochDeletes (mirrorEpoch g.log out.mintedKeys g.index.freeStart)
            out.edelKeys out.edelCrids g.deleteCount } := by
  rw [GpuIndex.indexTxns] at h
  cases hi : Ycsb.indexTxns cfg g.index slots with
  | error e => rw [hi] at h; simp [bind, Except.bind] at h
  | ok x =>
    rw [hi] at h
    exact ⟨x.1, x.2, rfl, by simpa [bind, Except.bind, pure, Except.pure] using h.symm⟩

/-- One epoch: the logs grow by what its events do to the journal. -/
theorem logged_step (hg : Logged cfg g j) (hok : EpochOk cfg slots)
    (h : g.indexTxns cfg slots = .ok g') :
    Logged cfg g' ((slotEvents slots).foldl applyEvent j) := by
  obtain ⟨idx, out, hidx, rfl⟩ := indexTxns_ok h
  have hspec := indexTxns_spec hg.wf hok hidx
  have hrows := (checkFreeRows_ok hg.rows).mp hspec.rows
  have hmint : MintFits j.live (slotEvents slots) j.minted.length := by
    rw [hg.length, ← hg.live]; exact mintFits_of_rows hg.wf hspec.rows
  obtain ⟨hlive, hminted, hended⟩ := journal_run (slotEvents_inSerialOrder slots) rfl hmint
    (slotEvents slots) [] (by simp)
  have hids := hg.ids
  rw [hg.length] at hlive hended
  have hout := hspec.out
  rw [hg.live] at hout
  refine ⟨?_, ?_, ?_, ?_, ?_, hids, hspec.clean⟩
  · refine journal_inv hg.inv _ ?_
    have : ((slotEvents slots).filter fun v => decide (v.type = .insert)).length =
        (insKeys slots).length := inserts_length slots
    rw [this, hg.length]
    omega
  · simp only
    rw [hspec.map, hg.live]
    funext k
    rw [hlive k, ← (slotEvents_inSerialOrder slots).serialOrder_eq]
    simp only [serialOut]
    rw [finalLives, (slotEvents_inSerialOrder slots).serialOrder_eq]
  · have hm : out.mintedKeys = ((slotEvents slots).filter
        (createsLife j.live (slotEvents slots))).map Event.key := by rw [hout]; rfl
    have hlen : idx.freeStart = g.index.freeStart + out.mintedKeys.length := by
      rw [hspec.freeStart, hm, hg.live, List.length_map]; rfl
    simp only [mirrorEpochDeletes, mirrorEpoch]
    rw [hlen, copyAt_range, hminted, hg.minted, List.append_assoc, hm]
  · have hk : out.edelKeys = ((slotEvents slots).filter
        (endsLife j.live (slotEvents slots))).map Event.key := by rw [hout]; rfl
    have hc : out.edelCrids = ((slotEvents slots).filter
        (endsLife j.live (slotEvents slots))).map fun v =>
          serialCrid j.live (slotEvents slots) (mintedBegin cfg g.index)
            (found j.live (slotEvents slots) v) := by rw [hout]; rfl
    have hlen : out.edelCrids.length = out.edelKeys.length := by rw [hk, hc]; simp
    simp only [mirrorEpochDeletes, mirrorEpoch]
    rw [← List.zip_map', copyAt_range, ← hlen, copyAt_range, List.zip_append (by simp),
      List.zip_map', hended, hg.ended, hk, hc, List.zip_map']
  · simp only [mintedBegin] at hrows ⊢
    have := created_length_le g.index.map slots
    rw [hspec.freeStart]
    omega

/-- A run keeps the log entries below the cursors it started from. -/
def Keeps (g g' : GpuIndex) : Prop :=
  (∀ i < g.index.freeStart, g'.log.insertKeys i = g.log.insertKeys i) ∧
  (∀ i < g.deleteCount, g'.log.deleteKeys i = g.log.deleteKeys i ∧
    g'.log.deleteCrids i = g.log.deleteCrids i) ∧
  g.index.freeStart ≤ g'.index.freeStart ∧ g.deleteCount ≤ g'.deleteCount

theorem keeps_step (hg : Logged cfg g j) (hok : EpochOk cfg slots)
    (h : g.indexTxns cfg slots = .ok g') : Keeps g g' := by
  obtain ⟨idx, out, hidx, rfl⟩ := indexTxns_ok h
  have hspec := indexTxns_spec hg.wf hok hidx
  refine ⟨fun i hi => copyAt_of_lt _ hi, fun i hi => ⟨copyAt_of_lt _ hi, copyAt_of_lt _ hi⟩, ?_, ?_⟩
  · simp only; rw [hspec.freeStart]; omega
  · simp only; omega

theorem Keeps.trans {g₁ g₂ g₃ : GpuIndex} (h : Keeps g₁ g₂) (h' : Keeps g₂ g₃) : Keeps g₁ g₃ := by
  obtain ⟨hi, hd, hf, hc⟩ := h
  obtain ⟨hi', hd', hf', hc'⟩ := h'
  refine ⟨fun i hlt => ?_, fun i hlt => ?_, hf.trans hf', hc.trans hc'⟩
  · rw [hi' i (by omega), hi i hlt]
  · obtain ⟨h1, h2⟩ := hd i hlt
    obtain ⟨h1', h2'⟩ := hd' i (by omega)
    exact ⟨h1'.trans h1, h2'.trans h2⟩

theorem run_cons {epochs : List (List Slot)} (h : g.run cfg (slots :: epochs) = .ok g') :
    ∃ g₁, g.indexTxns cfg slots = .ok g₁ ∧ g₁.run cfg epochs = .ok g' := by
  rw [GpuIndex.run, List.foldlM_cons] at h
  cases h1 : g.indexTxns cfg slots with
  | error e => rw [h1] at h; simp [bind, Except.bind] at h
  | ok g₁ => rw [h1] at h; exact ⟨g₁, rfl, h⟩

/-- A run of epochs: the logs still hold the journal, and nothing below the old cursors moved. -/
theorem logged_run : ∀ {epochs : List (List Slot)} {g g' : GpuIndex} {j : Journal ℕ},
    Logged cfg g j → (∀ slots ∈ epochs, EpochOk cfg slots) → g.run cfg epochs = .ok g' →
    (∃ j', Logged cfg g' j') ∧ Keeps g g'
  | [], g, g', j, hg, _, h => by
    obtain rfl : g = g' := by simpa [GpuIndex.run, pure, Except.pure] using h
    exact ⟨⟨j, hg⟩, fun _ _ => rfl, fun _ _ => ⟨rfl, rfl⟩, le_refl _, le_refl _⟩
  | slots :: epochs, g, g', j, hg, hok, h => by
    obtain ⟨g₁, h1, h2⟩ := run_cons h
    have hok1 := hok slots (by simp)
    obtain ⟨hlog, hkeep⟩ := logged_run (logged_step hg hok1 h1) (fun s hs => hok s (by simp [hs])) h2
    exact ⟨hlog, (keeps_step hg hok1 h1).trans hkeep⟩

end

/-! ### Reconstruction -/

section
variable {cfg : Config}

theorem loadInitialData_eq : ∀ n,
    (fun k => if k < n then k else kAbsent) = Journal.mintAll (fun _ => kAbsent) 0 (List.range n)
  | 0 => by funext k; simp [Journal.mintAll]
  | n + 1 => by
    rw [List.range_succ, Journal.mintAll_append, ← loadInitialData_eq n]
    funext k
    simp only [Journal.mintAll, List.zipIdx_singleton, List.foldl_cons, List.foldl_nil, List.length_range,
      Nat.zero_add]
    by_cases hk : k = n
    · subst hk; simp
    · rw [Function.update_of_ne hk]
      simp only [show (k < n + 1) = (k < n) by simp; omega]

theorem reconstructInserts_eq (log : DurableLog) (m : ℕ → ℕ) : ∀ count,
    reconstructInsertsFromDurable cfg log count m =
      Journal.mintAll m cfg.startingNumRecords ((List.range count).map log.insertKeys)
  | 0 => rfl
  | count + 1 => by
    rw [reconstructInsertsFromDurable, List.range_succ, List.map_append, Journal.mintAll_append,
      ← reconstructInserts_eq log m count, List.foldl_append]
    simp [Journal.mintAll, reconstructInsertsFromDurable]

theorem applyDeletes_eq (log : DurableLog) (count : ℕ) (m : ℕ → ℕ) :
    applyDeletesFromDurable log count m = Journal.endAll kAbsent m
      ((List.range count).map fun i => (log.deleteKeys i, log.deleteCrids i)) := by
  rw [applyDeletesFromDurable, Journal.endAll, List.foldl_map]

/-- Logs that hold the journal rebuild its live map. -/
theorem Logged.reconstruct {g : GpuIndex} {j : Journal ℕ} (h : Logged cfg g j) :
    Ycsb.reconstruct cfg g.log g.index.freeStart g.deleteCount = g.index.map := by
  have hmint : reconstructInsertsFromDurable cfg g.log g.index.freeStart (loadInitialData cfg) =
      Journal.mintAll (fun _ => kAbsent) 0 j.minted := by
    rw [reconstructInserts_eq, h.minted, Journal.mintAll_append, ← loadInitialData_eq, List.length_range,
      Nat.zero_add]
    rfl
  rw [Ycsb.reconstruct, hmint, applyDeletes_eq, ← h.ended, h.inv.replay, h.live]

/-- Recovery reads only what lies below its cursors. -/
theorem reconstruct_congr {g g' : GpuIndex} (h : Keeps g g') :
    reconstruct cfg g'.log g.index.freeStart g.deleteCount =
      reconstruct cfg g.log g.index.freeStart g.deleteCount := by
  obtain ⟨hins, hdel, -, -⟩ := h
  have h1 : (List.range g.index.freeStart).map g'.log.insertKeys =
      (List.range g.index.freeStart).map g.log.insertKeys :=
    List.map_congr_left fun i hi => hins i (List.mem_range.mp hi)
  have h2 : ((List.range g.deleteCount).map fun i => (g'.log.deleteKeys i, g'.log.deleteCrids i)) =
      (List.range g.deleteCount).map fun i => (g.log.deleteKeys i, g.log.deleteCrids i) := by
    refine List.map_congr_left fun i hi => ?_
    obtain ⟨hk, hc⟩ := hdel i (List.mem_range.mp hi)
    rw [hk, hc]
  rw [reconstruct, reconstruct, applyDeletes_eq, applyDeletes_eq, reconstructInserts_eq,
    reconstructInserts_eq, h1, h2]

theorem getElem?_range {n c k : ℕ} (h : (List.range n)[c]? = some k) : c < n ∧ c = k := by
  obtain ⟨hlt, heq⟩ := List.getElem?_eq_some_iff.mp h
  exact ⟨by simpa using hlt, by simpa using heq⟩

theorem logged_init (hrows : cfg.startingNumRecords ≤ cfg.numRecords) (hids : cfg.numRecords ≤ kAbsent)
    (log : DurableLog) (entryCrid : ℕ → ℕ) :
    Logged cfg (GpuIndex.init cfg log entryCrid)
      ⟨loadInitialData cfg, List.range cfg.startingNumRecords, []⟩ := by
  refine ⟨⟨?_, fun k hk => ?_, by simp, by simp, fun c k hc => ?_, fun c k hc hk => ?_⟩, rfl,
    by simp [GpuIndex.init], by simp [GpuIndex.init], ?_, hids, fun _ => rfl⟩
  · simp only [List.length_range]; omega
  · simp only [loadInitialData] at hk ⊢
    split at hk
    · next hlt => simp [hlt]
    · exact absurd rfl hk
  · obtain ⟨hlt, rfl⟩ := getElem?_range hc
    simp [loadInitialData, hlt]
  · obtain ⟨hlt, rfl⟩ := getElem?_range hc
    simp [loadInitialData, hlt]
  · simp only [GpuIndex.init, mintedBegin]; omega

/-- For every history of epochs and every boundary in it, the durable logs cut at the boundary's
    cursors rebuild the index of that boundary, however many epochs appended to them since; the index
    holds initial + inserts − effective deletes keys; and the delete log stays within `num_records`
    entries. -/
theorem reconstruct_eq_index (hrows : cfg.startingNumRecords ≤ cfg.numRecords)
    (hids : cfg.numRecords ≤ kAbsent) {log : DurableLog} {entryCrid : ℕ → ℕ}
    {before after : List (List Slot)} {g g' : GpuIndex}
    (hok : ∀ slots ∈ before ++ after, EpochOk cfg slots)
    (hbefore : (GpuIndex.init cfg log entryCrid).run cfg before = .ok g)
    (hafter : g.run cfg after = .ok g') :
    reconstruct cfg g'.log g.index.freeStart g.deleteCount = g.index.map ∧
    Set.ncard {k | g.index.map k ≠ kAbsent} + g.deleteCount =
      cfg.startingNumRecords + g.index.freeStart ∧
    g'.deleteCount ≤ cfg.numRecords := by
  obtain ⟨⟨j, hj⟩, -⟩ := logged_run (logged_init hrows hids log entryCrid)
    (fun s hs => hok s (by simp [hs])) hbefore
  obtain ⟨⟨j', hj'⟩, hkeep⟩ := logged_run hj (fun s hs => hok s (by simp [hs])) hafter
  have hsize := hj.inv.size
  have hsize' := hj'.inv.size
  rw [hj.length, ← hj.live, hj.ended, List.length_map, List.length_range] at hsize
  rw [hj'.length, hj'.ended, List.length_map, List.length_range] at hsize'
  refine ⟨?_, hsize, ?_⟩
  · rw [reconstruct_congr hkeep, hj.reconstruct]
  · have := hj'.rows
    omega

end

/-- Key 9 comes back in later epochs, once through the timeline path (it is inserted twice). -/
def reinsertHistory : List (List Slot) :=
  [[⟨.insert, 9, 0⟩], [⟨.delete, 9, 0⟩, ⟨.insert, 9, 0⟩, ⟨.insert, 9, 0⟩]]

theorem reconstruct_eq_index_reinsert : ∃ g g',
    (GpuIndex.init smallConfig ⟨id, id, id⟩ id).run smallConfig [smallEpoch] = .ok g ∧
    g.run smallConfig reinsertHistory = .ok g' ∧
    reconstruct smallConfig g'.log g.index.freeStart g.deleteCount = g.index.map ∧
    g'.deleteCount ≤ 8 := by
  obtain ⟨g, hg⟩ : ∃ g, (GpuIndex.init smallConfig ⟨id, id, id⟩ id).run smallConfig [smallEpoch] =
    .ok g := ⟨_, rfl⟩
  obtain ⟨g', hg'⟩ : ∃ g', g.run smallConfig reinsertHistory = .ok g' := by
    obtain rfl := Except.ok.inj hg
    exact ⟨_, rfl⟩
  have hok : ∀ slots ∈ [smallEpoch] ++ reinsertHistory, EpochOk smallConfig slots := by
    intro slots hs
    rcases List.mem_cons.mp hs with rfl | hs
    · exact ⟨by decide, by decide, by decide⟩
    · rcases List.mem_cons.mp hs with rfl | hs
      · exact ⟨by decide, by decide, by decide⟩
      · rw [List.mem_singleton.mp hs]
        exact ⟨by decide, by decide, by decide⟩
  have h := reconstruct_eq_index (by decide) (by decide) hok hg hg'
  exact ⟨g, g', hg, hg', h.1, h.2.2⟩

end Egad.Ycsb
