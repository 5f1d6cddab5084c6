import Egad.Stager.Hybrid

/-! # Dirty tracking is complete and exact

    Between two epochs no slot is marked. The writes of an epoch mark exactly the slots they take,
    nothing else touches a mark before the flush of the same epoch collects it, and collecting clears
    what it collects:

        no marks ─► prepareEpoch ─► no marks ─► writes, worker, sync_flush ─► marks = writes
            ▲                                                                     │
            └──────────── start_flush_epoch_async: set = marks, then clear ◄──────┘ -/

namespace Egad.Stager
open Egad.Lib

variable {V : Type*} (cfg : Config)

/-- The slot a record-B write takes: its GRID, the slot, and the record resident there at the time. -/
def Hybrid.writes (h : Hybrid V) : Event V → List (ℕ × Slot × ℕ)
  | .write crid _ =>
    let g := lookup cfg h.cache.cridToGrid crid
    if g = absent then [] else [(g, (h.records g).recordBSlot, h.cache.resident g)]
  | .scatter => []
  | .syncFlush => []

/-- The slots written by a run of events, each seen in the state it is written in. -/
def Hybrid.written (epoch : ℕ) : Hybrid V → List (Event V) → List (ℕ × Slot × ℕ)
  | _, [] => []
  | h, e :: es => h.writes cfg e ++ Hybrid.written epoch (h.event cfg epoch e) es

/-- No slot is marked. -/
def Hybrid.Unmarked (h : Hybrid V) : Prop := ∀ slot g, h.dirty slot g = false

variable {cfg} {h : Hybrid V} {epoch : ℕ}

/-! ### Events -/

theorem writeRecordB_cache (grid : ℕ) (value : V) :
    (h.writeRecordB epoch grid value).cache = h.cache := by
  rw [Hybrid.writeRecordB]
  split <;> rfl

theorem event_cache (e : Event V) : (h.event cfg epoch e).cache = h.cache := by
  cases e with
  | write crid value => exact writeRecordB_cache _ _
  | scatter =>
    rw [Hybrid.event]
    split <;> rfl
  | syncFlush => rfl

theorem execute_cache (es : List (Event V)) : (h.execute cfg epoch es).cache = h.cache := by
  induction es generalizing h with
  | nil => rfl
  | cons e es ih =>
    rw [Hybrid.execute, List.foldl_cons, ← Hybrid.execute, ih, event_cache]

/-- An event marks the slots it writes and clears none. -/
theorem event_dirty {slot : Slot} {g : ℕ} (e : Event V) :
    (h.event cfg epoch e).dirty slot g = true ↔
      h.dirty slot g = true ∨ ∃ r, (g, slot, r) ∈ h.writes cfg e := by
  cases e with
  | write crid value =>
    simp only [Hybrid.event, Hybrid.writeRecordB, Hybrid.writes]
    generalize lookup cfg h.cache.cridToGrid crid = grid
    split
    · simp
    · rcases eq_or_ne slot (h.records grid).recordBSlot with rfl | hs
      · rcases eq_or_ne g grid with rfl | hg
        · simp
        · simp [hg]
      · simp [hs]
  | scatter =>
    simp only [Hybrid.event, Hybrid.writes]
    split <;> simp
  | syncFlush => simp [Hybrid.event, Hybrid.writes]

/-- Whatever the order of the writes, the worker and `sync_flush`, the marks are the earlier ones and
    those of the writes. -/
theorem execute_dirty {slot : Slot} {g : ℕ} (es : List (Event V)) :
    (h.execute cfg epoch es).dirty slot g = true ↔
      h.dirty slot g = true ∨ ∃ r, (g, slot, r) ∈ h.written cfg epoch es := by
  induction es generalizing h with
  | nil => simp [Hybrid.execute, Hybrid.written]
  | cons e es ih =>
    rw [Hybrid.execute, List.foldl_cons, ← Hybrid.execute, ih, event_dirty, Hybrid.written]
    simp only [List.mem_append, exists_or, or_assoc]

theorem writes_spec (hm : Mapped cfg h.cache) {e : Event V} {x : ℕ × Slot × ℕ}
    (hx : x ∈ h.writes cfg e) : x.1 < cfg.capacity ∧ x.2.2 = h.cache.resident x.1 := by
  cases e with
  | write crid value =>
    simp only [Hybrid.writes] at hx
    split at hx
    · cases hx
    · rename_i hne
      rw [List.mem_singleton] at hx
      subst hx
      refine ⟨?_, rfl⟩
      rw [lookup] at hne ⊢
      split at hne
      · rename_i hlt
        rw [if_pos hlt]
        exact (hm.grid_of_crid crid hlt hne).1
      · exact absurd rfl hne
  | scatter => cases hx
  | syncFlush => cases hx

/-- A written slot is a slot of the cache, and its record stays in it for the whole epoch. -/
theorem written_spec (hm : Mapped cfg h.cache) (es : List (Event V)) {x : ℕ × Slot × ℕ}
    (hx : x ∈ h.written cfg epoch es) : x.1 < cfg.capacity ∧ x.2.2 = h.cache.resident x.1 := by
  induction es generalizing h with
  | nil => cases hx
  | cons e es ih =>
    rw [Hybrid.written, List.mem_append] at hx
    rcases hx with hx | hx
    · exact writes_spec hm hx
    · have hm' : Mapped cfg (h.event cfg epoch e).cache := by rw [event_cache]; exact hm
      have := ih hm' hx
      rwa [event_cache] at this

/-! ### Collection -/

variable (cfg h) in
theorem flushSlot_perm (slot : Slot) : (h.flushSlot cfg slot).Perm
    ((h.collectDirtyGrids cfg slot).map fun g => (g, h.cache.resident g)) := by
  rw [Hybrid.flushSlot]
  split
  · exact List.perm_insertionSort _ _
  · exact List.Perm.refl _

theorem mem_flushSlot {slot : Slot} {x : ℕ × ℕ} : x ∈ h.flushSlot cfg slot ↔
    x.1 < cfg.capacity ∧ h.dirty slot x.1 = true ∧ x.2 = h.cache.resident x.1 := by
  rw [(flushSlot_perm cfg h slot).mem_iff, List.mem_map]
  constructor
  · rintro ⟨g, hg, rfl⟩
    obtain ⟨hlt, hd⟩ := List.mem_filter.mp hg
    exact ⟨List.mem_range.mp hlt, hd, rfl⟩
  · rintro ⟨hlt, hd, hr⟩
    exact ⟨x.1, List.mem_filter.mpr ⟨List.mem_range.mpr hlt, hd⟩, Prod.ext rfl hr.symm⟩

theorem flushSlot_nodup (slot : Slot) : ((h.flushSlot cfg slot).map Prod.fst).Nodup := by
  rw [((flushSlot_perm cfg h slot).map Prod.fst).nodup_iff, List.map_map]
  exact (List.nodup_range.filter _).map fun a b hab => hab

/-- What an element of the flush set names. -/
def Entry.key (x : Entry V) : ℕ × Slot × ℕ := (x.grid, x.slot, x.crid)

/-- The flush set names the marked slots with the records resident in them. -/
theorem mem_flushSet_key {g r : ℕ} {slot : Slot} :
    (g, slot, r) ∈ (h.flushSet cfg).map Entry.key ↔
      g < cfg.capacity ∧ h.dirty slot g = true ∧ r = h.cache.resident g := by
  have hslot : ∀ s, (g, slot, r) ∈ ((h.flushSlot cfg s).map (h.pack s)).map Entry.key ↔
      s = slot ∧ (g, r) ∈ h.flushSlot cfg s := by
    intro s
    rw [List.map_map, List.mem_map]
    constructor
    · rintro ⟨⟨g', r'⟩, hx, he⟩
      simp only [Function.comp_apply, Entry.key, Hybrid.pack, Prod.mk.injEq] at he
      obtain ⟨rfl, rfl, rfl⟩ := he
      exact ⟨rfl, hx⟩
    · rintro ⟨rfl, hx⟩
      exact ⟨(g, r), hx, rfl⟩
  rw [Hybrid.flushSet, List.map_append, List.mem_append, hslot, hslot]
  cases slot with
  | slot1 => simp [mem_flushSlot]
  | slot2 => simp [mem_flushSlot]

theorem flushSet_nodup :
    ((h.flushSet cfg).map fun x => (x.grid, x.slot)).Nodup := by
  have hmap : ∀ s, ((h.flushSlot cfg s).map (h.pack s)).map (fun x => (x.grid, x.slot)) =
      ((h.flushSlot cfg s).map Prod.fst).map fun g => (g, s) := by
    intro s
    rw [List.map_map, List.map_map]
    rfl
  rw [Hybrid.flushSet, List.map_append, hmap, hmap]
  refine List.nodup_append'.mpr ⟨?_, ?_, ?_⟩
  · exact (flushSlot_nodup _).map fun a b hab => (Prod.mk.inj hab).1
  · exact (flushSlot_nodup _).map fun a b hab => (Prod.mk.inj hab).1
  · intro x hx hy
    obtain ⟨g, -, rfl⟩ := List.mem_map.mp hx
    obtain ⟨g', -, he⟩ := List.mem_map.mp hy
    cases he

theorem clearDirtyByGrids_iff {slot : Slot} {g : ℕ} : ∀ (set : List (Entry V))
    (dirty : Slot → ℕ → Bool), clearDirtyByGrids set dirty slot g = true ↔
      dirty slot g = true ∧ (g, slot) ∉ set.map fun x => (x.grid, x.slot)
  | [], dirty => by simp [clearDirtyByGrids]
  | x :: set, dirty => by
    rw [clearDirtyByGrids, List.foldl_cons, ← clearDirtyByGrids, clearDirtyByGrids_iff set]
    rcases eq_or_ne slot x.slot with rfl | hs
    · rcases eq_or_ne g x.grid with rfl | hg
      · simp
      · simp [hg]
    · simp [hs]

theorem startFlush_unmarked (hlt : ∀ slot g, h.dirty slot g = true → g < cfg.capacity) :
    (h.startFlushEpochAsync cfg).Unmarked := by
  intro slot g
  rw [← Bool.not_eq_true, Hybrid.startFlushEpochAsync, clearDirtyByGrids_iff]
  rintro ⟨hd, hn⟩
  have hmem : (g, slot, h.cache.resident g) ∈ (h.flushSet cfg).map Entry.key :=
    mem_flushSet_key.mpr ⟨hlt slot g hd, hd, rfl⟩
  obtain ⟨x, hx, he⟩ := List.mem_map.mp hmem
  simp only [Entry.key, Prod.mk.injEq] at he
  exact hn (List.mem_map.mpr ⟨x, hx, by rw [he.1, he.2.1]⟩)

/-! ### Runs -/

/-- `prepareEpoch` moves slots and records but no marks, and reaches a mapped cache. -/
theorem prepare_spec {i : EpochInput V} {h₁ : Hybrid V} (hc : Reachable cfg h.cache)
    (hl : i.Legal cfg h)
    (hp : (i.before cfg h).prepare cfg epoch i.sched i.keys i.insertKeys = .ok h₁) :
    Reachable cfg h₁.cache ∧ h₁.dirty = h.dirty := by
  rw [Hybrid.prepare] at hp
  split at hp
  · cases hp
  · rename_i p hprep
    cases hp
    exact ⟨.prepare (.reclaim i.reclaim hc) hl.keys hl.complete hprep, rfl⟩

/-- What is marked after the events of an epoch is a slot of the cache. -/
theorem execute_dirty_lt {h₁ : Hybrid V} (hm : Mapped cfg h₁.cache) (hu : h₁.Unmarked)
    (es : List (Event V)) {slot : Slot} {g : ℕ}
    (hd : (h₁.execute cfg epoch es).dirty slot g = true) : g < cfg.capacity := by
  rcases (execute_dirty es).mp hd with h | ⟨r, hr⟩
  · rw [hu slot g] at h
    cases h
  · exact (written_spec hm es hr).1

/-- Between epochs the cache is mapped and no slot is marked. -/
theorem run_unmarked {e : ℕ} (hr : Hybrid.Run cfg e h) : Reachable cfg h.cache ∧ h.Unmarked := by
  induction hr with
  | initial records store => exact ⟨.initial, fun _ _ => rfl⟩
  | prewarm records store hW => exact ⟨.prewarm hW, fun _ _ => rfl⟩
  | @epoch e h h' i _ hl hrun ih =>
    rw [Hybrid.runEpoch] at hrun
    split at hrun
    · cases hrun
    · rename_i h₁ hp
      cases hrun
      obtain ⟨hc₁, hd₁⟩ := prepare_spec ih.1 hl hp
      have hu₁ : h₁.Unmarked := fun slot g => by rw [hd₁]; exact ih.2 slot g
      refine ⟨?_, startFlush_unmarked fun slot g hd => ?_⟩
      · exact (execute_cache i.events).symm ▸ hc₁
      · exact execute_dirty_lt (reachable_mapped hc₁).1 hu₁ i.events hd

/-- In every epoch of every run: the slots that change their record carry no mark; after any order of
    the epoch's writes with the worker and the retirement of the previous flush, the marks are those
    of the writes; the flush set names each written slot once, with the record it held when it was
    written, and nothing else; and after collection no mark is left. -/
theorem flush_exact {e : ℕ} (hr : Hybrid.Run cfg e h) {i : EpochInput V} (hl : i.Legal cfg h)
    {h₁ : Hybrid V} (hp : (i.before cfg h).prepare cfg e i.sched i.keys i.insertKeys = .ok h₁) :
    h.Unmarked ∧
    (∀ g, h₁.cache.resident g ≠ h.cache.resident g → ∀ slot, h₁.dirty slot g = false) ∧
    ∀ es : List (Event V),
      let h₂ := h₁.execute cfg e es
      (∀ slot g, h₂.dirty slot g = true ↔ ∃ r, (g, slot, r) ∈ h₁.written cfg e es) ∧
      ((h₂.flushSet cfg).map fun x => (x.grid, x.slot)).Nodup ∧
      (∀ x, x ∈ (h₂.flushSet cfg).map Entry.key ↔ x ∈ h₁.written cfg e es) ∧
      (h₂.startFlushEpochAsync cfg).Unmarked := by
  obtain ⟨hc, hu⟩ := run_unmarked hr
  obtain ⟨hc₁, hd₁⟩ := prepare_spec hc hl hp
  have hm₁ := (reachable_mapped hc₁).1
  have hu₁ : h₁.Unmarked := fun slot g => by rw [hd₁]; exact hu slot g
  refine ⟨hu, fun g _ slot => hu₁ slot g, fun es => ?_⟩
  intro h₂
  have hmarks : ∀ slot g, h₂.dirty slot g = true ↔ ∃ r, (g, slot, r) ∈ h₁.written cfg e es := by
    intro slot g
    rw [execute_dirty, hu₁ slot g]
    simp
  refine ⟨hmarks, flushSet_nodup, ?_, startFlush_unmarked fun slot g hd => ?_⟩
  · rintro ⟨g, slot, r⟩
    rw [mem_flushSet_key, hmarks, execute_cache]
    constructor
    · rintro ⟨-, ⟨r', hr'⟩, rfl⟩
      have := (written_spec hm₁ es hr').2
      exact this ▸ hr'
    · intro hx
      obtain ⟨hlt, hres⟩ := written_spec hm₁ es hx
      exact ⟨hlt, ⟨r, hx⟩, hres⟩
  · exact execute_dirty_lt hm₁ hu₁ es hd

/-- A cache of one slot: record 0 is fetched and written, and the flush set names it. -/
theorem flush_exact_one_write :
    let cfg : Config := ⟨1, 2, false, true, by decide, by decide⟩
    let i : EpochInput ℕ := ⟨0, [], ⟨[0], [], []⟩, [0], [], [.write 0 5]⟩
    let h : Hybrid ℕ := Hybrid.initial cfg (fun _ => ⟨0, 0, 0, 0⟩) fun _ => ⟨0, 0, 7, 7⟩
    ∃ h₁, (i.before cfg h).prepare cfg 1 i.sched i.keys i.insertKeys = .ok h₁ ∧
      (0, .slot2, 0) ∈ ((h₁.execute cfg 1 i.events).flushSet cfg).map Entry.key := by
  intro cfg i h
  have hl : i.Legal cfg h :=
    ⟨fun k hk => Or.inl (by simp_all [cfg, i]), ⟨by decide, fun hlt => absurd hlt (by decide)⟩⟩
  refine ⟨_, rfl, ?_⟩
  have hall := (flush_exact (.initial _ _) hl rfl).2.2 i.events
  exact (hall.2.2.1 (0, .slot2, 0)).mpr (by decide)

end Egad.Stager
