import Egad.Stager.Admitted

/-! # Values stay with their records

    A slot of the cache passes from record to record, and what its last occupant left stays in it:
    an admission overwrites one value of the two at most. `own u t v` says that `v` is a value of
    record `u` with tag `t`. The halves of a slot that can be seen are its occupant's own:

        primary store      both values
        cached record      the latest value, once the record has been fetched or written
        marked slot        the value a flush packs

    A slot admitted for an inserted record is exempt until the record's first write. -/

namespace Egad.Stager
open Egad.Lib

variable {V : Type*} {cfg : Config}

/-! ### Records under the kernels of an admission -/

section
variable {epoch g : ℕ} {store : ℕ → Rec V} {pairs : List (ℕ × ℕ)} {grids : List ℕ}

theorem sgTransfer_cons (x : ℕ × ℕ) (records : ℕ → Rec V) :
    sgTransferVersions epoch (x :: pairs) store records = sgTransferVersions epoch pairs store
      (Function.update records x.2 (transferVersion epoch (store x.1) (records x.2))) := rfl

theorem sgTransfer_of_notMem (h : g ∉ pairs.map Prod.snd) (records : ℕ → Rec V) :
    sgTransferVersions epoch pairs store records g = records g := by
  induction pairs generalizing records with
  | nil => rfl
  | cons x pairs ih =>
    rw [List.map_cons, List.mem_cons, not_or] at h
    rw [sgTransfer_cons, ih h.2, Function.update_of_ne h.1]

theorem sgTransfer_of_mem {x : ℕ × ℕ} (hnd : (pairs.map Prod.snd).Nodup) (hx : x ∈ pairs)
    (records : ℕ → Rec V) :
    sgTransferVersions epoch pairs store records x.2 =
      transferVersion epoch (store x.1) (records x.2) := by
  induction pairs generalizing records with
  | nil => cases hx
  | cons y pairs ih =>
    rw [List.map_cons, List.nodup_cons] at hnd
    rw [sgTransfer_cons]
    rcases List.mem_cons.mp hx with rfl | hx
    · rw [sgTransfer_of_notMem hnd.1, Function.update_self]
    · have hne : x.2 ≠ y.2 := fun he => hnd.1 (he ▸ List.mem_map_of_mem hx)
      rw [ih hnd.2 hx, Function.update_of_ne hne]

theorem zeroTags_cons (x : ℕ) (records : ℕ → Rec V) :
    zeroInsertSlotTags (x :: grids) records = zeroInsertSlotTags grids
      (Function.update records x { records x with version1 := 0, version2 := 0 }) := rfl

theorem zeroTags_of_notMem (h : g ∉ grids) (records : ℕ → Rec V) :
    zeroInsertSlotTags grids records g = records g := by
  induction grids generalizing records with
  | nil => rfl
  | cons x grids ih =>
    rw [List.mem_cons, not_or] at h
    rw [zeroTags_cons, ih h.2, Function.update_of_ne h.1]

theorem zeroTags_of_mem (h : g ∈ grids) (records : ℕ → Rec V) :
    (zeroInsertSlotTags grids records g).version1 = 0 ∧
      (zeroInsertSlotTags grids records g).version2 = 0 := by
  induction grids generalizing records with
  | nil => cases h
  | cons x grids ih =>
    rw [zeroTags_cons]
    by_cases hg : g ∈ grids
    · exact ih hg _
    · obtain rfl : g = x := (List.mem_cons.mp h).resolve_right hg
      rw [zeroTags_of_notMem hg, Function.update_self]
      exact ⟨rfl, rfl⟩

end

/-! ### The invariant -/

section
variable (cfg) (own : ℕ → ℕ → V → Prop)

/-- The primary store and the flush in flight hold values of their own records, from before `e`. -/
structure StoreOwned (e : ℕ) (h : Hybrid V) : Prop where
  value : ∀ u slot, own u ((h.store u).version slot) ((h.store u).value slot)
  tags : ∀ u, (h.store u).TagsBelow e
  inflight : ∀ x ∈ h.inflight, own x.crid x.version x.value
  inflightTags : ∀ x ∈ h.inflight, x.version < e

/-- Every occupied slot has tags from before `e`, and its latest value is its occupant's own unless
    the slot is one of `stale`. -/
structure CacheOwned (e : ℕ) (stale : Set ℕ) (h : Hybrid V) : Prop where
  tags : ∀ g < cfg.capacity, h.cache.resident g ≠ absent → (h.records g).TagsBelow e
  value : ∀ g < cfg.capacity, h.cache.resident g ≠ absent → g ∉ stale →
    own (h.cache.resident g) ((h.records g).version (h.records g).latestSlot)
      ((h.records g).value (h.records g).latestSlot)

/-- The cache inside epoch `e` while the records of `rest` are still to be written. -/
structure ExecOwned (e : ℕ) (stale : Set ℕ) (rest : List ℕ) (h : Hybrid V) : Prop where
  unwritten : ∀ g < cfg.capacity, h.cache.resident g ∈ rest → (h.records g).TagsBelow e
  tags : ∀ g < cfg.capacity, h.cache.resident g ≠ absent → (h.records g).TagsBelow (e + 1)
  value : ∀ g < cfg.capacity, h.cache.resident g ≠ absent → (g ∈ stale → h.cache.resident g ∉ rest) →
    own (h.cache.resident g) ((h.records g).version (h.records g).latestSlot)
      ((h.records g).value (h.records g).latestSlot)
  dirty : ∀ slot g, h.dirty slot g = true → g < cfg.capacity ∧ h.cache.resident g ≠ absent ∧
    own (h.cache.resident g) ((h.records g).version slot) ((h.records g).value slot)

end

variable {own : ℕ → ℕ → V → Prop} {e : ℕ} {h : Hybrid V}

theorem Rec.TagsBelow.mono {r : Rec V} {e e' : ℕ} (h : r.TagsBelow e) (hle : e ≤ e') : r.TagsBelow e' :=
  ⟨h.1.trans_le hle, h.2.trans_le hle⟩

theorem Rec.TagsBelow.put {r : Rec V} {e v : ℕ} (h : r.TagsBelow e) (hv : v < e) (x : V) (slot : Slot) :
    (r.put v x slot).TagsBelow e := by
  cases slot
  · exact ⟨hv, h.2⟩
  · exact ⟨h.1, hv⟩

theorem Rec.TagsBelow.version {r : Rec V} {e : ℕ} (h : r.TagsBelow e) (slot : Slot) :
    r.version slot < e := by
  cases slot
  · exact h.1
  · exact h.2

/-! ### The worker -/

/-- One entry reaches the primary store. -/
theorem scatterEntry_owned {store : ℕ → Rec V} (hv : ∀ u slot, own u ((store u).version slot) ((store u).value slot))
    (ht : ∀ u, (store u).TagsBelow e) {x : Entry V} (hx : own x.crid x.version x.value) (hxe : x.version < e) :
    (∀ u slot, own u ((scatterEntry store x u).version slot) ((scatterEntry store x u).value slot)) ∧
      ∀ u, (scatterEntry store x u).TagsBelow e := by
  rw [scatterEntry]
  split
  · exact ⟨hv, ht⟩
  · refine ⟨fun u slot => ?_, fun u => ?_⟩
    · rcases eq_or_ne u x.crid with rfl | hne
      · rw [Function.update_self]
        rcases eq_or_ne slot x.slot with rfl | hslot
        · rw [Rec.version_put, Rec.value_put]
          exact hx
        · have hother : x.slot = slot.other := by
            revert hslot
            cases slot <;> cases x.slot <;> simp [Slot.other]
          rw [hother, Rec.version_put_other, Rec.value_put_other]
          exact hv _ _
      · rw [Function.update_of_ne hne]
        exact hv _ _
    · rcases eq_or_ne u x.crid with rfl | hne
      · rw [Function.update_self]
        exact (ht _).put hxe _ _
      · rw [Function.update_of_ne hne]
        exact ht _

theorem foldl_scatterEntry_owned : ∀ {xs : List (Entry V)} {store : ℕ → Rec V},
    (∀ u slot, own u ((store u).version slot) ((store u).value slot)) → (∀ u, (store u).TagsBelow e) →
    (∀ x ∈ xs, own x.crid x.version x.value ∧ x.version < e) →
    (∀ u slot, own u ((xs.foldl scatterEntry store u).version slot)
        ((xs.foldl scatterEntry store u).value slot)) ∧
      ∀ u, (xs.foldl scatterEntry store u).TagsBelow e
  | [], _, hv, ht, _ => ⟨hv, ht⟩
  | x :: xs, store, hv, ht, hx => by
    obtain ⟨hx₁, hxs⟩ := List.forall_mem_cons.mp hx
    obtain ⟨hv', ht'⟩ := scatterEntry_owned hv ht hx₁.1 hx₁.2
    rw [List.foldl_cons]
    exact foldl_scatterEntry_owned hv' ht' hxs

theorem StoreOwned.entries (hs : StoreOwned own e h) {x : Entry V} (hx : x ∈ h.inflight) :
    own x.crid x.version x.value ∧ x.version < e :=
  ⟨hs.inflight x hx, hs.inflightTags x hx⟩

theorem StoreOwned.before (hs : StoreOwned own e h) (i : EpochInput V) :
    StoreOwned own e (i.before cfg h) := by
  obtain ⟨hv, ht⟩ := foldl_scatterEntry_owned hs.value hs.tags fun x hx =>
    hs.entries (List.mem_of_mem_take (i := i.scattered) hx)
  exact ⟨hv, ht, fun x hx => hs.inflight x (List.mem_of_mem_drop hx),
    fun x hx => hs.inflightTags x (List.mem_of_mem_drop hx)⟩

theorem markReclaimable_resident (crids : List ℕ) (c : Cache) :
    (markReclaimable cfg crids c).resident = c.resident := by
  rw [markReclaimable]
  split <;> rfl

theorem CacheOwned.before {stale : Set ℕ} (hc : CacheOwned cfg own e stale h) (i : EpochInput V) :
    CacheOwned cfg own e stale (i.before cfg h) := by
  have hres : (i.before cfg h).cache.resident = h.cache.resident := markReclaimable_resident _ _
  refine ⟨fun g hg hne => ?_, fun g hg hne hst => ?_⟩
  · rw [hres] at hne
    exact hc.tags g hg hne
  · rw [hres] at hne ⊢
    exact hc.value g hg hne hst

/-! ### Preparing an epoch -/

/-- A fetched slot has the record's own latest value and its tags; the slots of inserted records have
    cleared tags; all others are as they were. -/
theorem CacheOwned.prepare (hs : StoreOwned own e h) (hc : CacheOwned cfg own e ∅ h) (he : 0 < e)
    {p : Prepared} {insertKeys new : List ℕ} {pairs : List (ℕ × ℕ)}
    (hp : p = Prepared.of cfg p.cache insertKeys pairs) (hb : Bound cfg h.cache p.cache new pairs) :
    CacheOwned cfg own e {g | g ∈ p.cleared} { h with
      cache := p.cache
      records := zeroInsertSlotTags p.cleared (sgTransferVersions e p.fetched h.store h.records) } := by
  have hfetched : p.fetched = pairs.filter fun x => !isInsert cfg insertKeys x.1 := by rw [hp]; rfl
  have hcleared : p.cleared = (pairs.filter fun x => isInsert cfg insertKeys x.1).map Prod.snd := by
    rw [hp]; rfl
  have hnd : (p.fetched.map Prod.snd).Nodup := by
    rw [hfetched]
    exact hb.nodup.sublist (List.filter_sublist.map _)
  -- what an occupied slot holds that is not an inserted record's
  have hslot : ∀ g < cfg.capacity, p.cache.resident g ≠ absent → g ∉ p.cleared →
      (sgTransferVersions e p.fetched h.store h.records g).TagsBelow e ∧
        own (p.cache.resident g) ((sgTransferVersions e p.fetched h.store h.records g).version
          (sgTransferVersions e p.fetched h.store h.records g).latestSlot)
          ((sgTransferVersions e p.fetched h.store h.records g).value
            (sgTransferVersions e p.fetched h.store h.records g).latestSlot) := by
    intro g hg hne hnot
    by_cases hmem : g ∈ pairs.map Prod.snd
    · obtain ⟨x, hx, rfl⟩ := List.mem_map.mp hmem
      have hins : isInsert cfg insertKeys x.1 = false := by
        by_contra hi
        refine hnot ?_
        rw [hcleared]
        exact List.mem_map_of_mem (List.mem_filter.mpr ⟨hx, by simpa using hi⟩)
      have hfx : x ∈ p.fetched := by
        rw [hfetched]
        exact List.mem_filter.mpr ⟨hx, by simp [hins]⟩
      obtain ⟨h1, h2, h3⟩ := @transferVersion_of_below _ e (h.store x.1) (h.records x.2) (hs.tags x.1)
      have h4 : (transferVersion e (h.store x.1) (h.records x.2)).version (h.store x.1).latestSlot =
          (h.store x.1).version (h.store x.1).latestSlot := by
        cases (h.store x.1).latestSlot
        · exact h1
        · exact h2
      rw [sgTransfer_of_mem hnd hfx, hb.resident x hx, Rec.latestSlot_congr h1 h2, h3, h4]
      refine ⟨⟨?_, ?_⟩, hs.value _ _⟩
      · rw [h1]
        exact (hs.tags x.1).1
      · rw [h2]
        exact (hs.tags x.1).2
    · have hkeep := hb.kept g hmem
      have hnf : g ∉ p.fetched.map Prod.snd := by
        rw [hfetched]
        exact fun hm => hmem ((List.filter_sublist.map _).subset hm)
      rw [hkeep] at hne ⊢
      rw [sgTransfer_of_notMem hnf]
      exact ⟨hc.tags g hg hne, hc.value g hg hne (Set.notMem_empty g)⟩
  refine ⟨fun g hg hne => ?_, fun g hg hne hst => ?_⟩
  · by_cases hmem : g ∈ p.cleared
    · obtain ⟨h1, h2⟩ := zeroTags_of_mem hmem (sgTransferVersions e p.fetched h.store h.records)
      exact ⟨h1.symm ▸ he, h2.symm ▸ he⟩
    · dsimp only
      rw [zeroTags_of_notMem hmem]
      exact (hslot g hg hne hmem).1
  · have hst : g ∉ p.cleared := hst
    dsimp only
    rw [zeroTags_of_notMem hst]
    exact (hslot g hg hne hst).2

/-! ### Executing an epoch -/

/-- The records an epoch's events write. -/
def writtenCrids (es : List (Event V)) : List ℕ :=
  es.filterMap fun | .write crid _ => some crid | _ => none

theorem CacheOwned.exec {stale : Set ℕ} (hc : CacheOwned cfg own e stale h) (hu : h.Unmarked)
    {rest : List ℕ} (hrest : ∀ u ∈ rest, u ≠ absent)
    (hstale : ∀ g ∈ stale, g < cfg.capacity → h.cache.resident g ∈ rest) :
    ExecOwned cfg own e stale rest h := by
  refine ⟨fun g hg hr => hc.tags g hg (hrest _ hr), fun g hg hne => (hc.tags g hg hne).mono (by omega),
    fun g hg hne hs => hc.value g hg hne fun hst => hs hst (hstale g hst hg), fun slot g hd => ?_⟩
  rw [hu slot g] at hd
  exact absurd hd Bool.false_ne_true

section
variable {stale : Set ℕ} {rest : List ℕ}

/-- The write of a record that has not been written in this epoch. -/
theorem ExecOwned.write (hm : Mapped cfg h.cache) {u : ℕ} {v : V} (hv : own u e v)
    (hx : ExecOwned cfg own e stale (u :: rest) h) (hu : u ∉ rest) :
    ExecOwned cfg own e stale rest (h.writeRecordB e (lookup cfg h.cache.cridToGrid u) v) := by
  -- the slot of the record, if it has one
  have hslot : ∀ g < cfg.capacity, h.cache.resident g ≠ absent → h.cache.resident g = u →
      lookup cfg h.cache.cridToGrid u = g := by
    intro g hg hne he
    obtain ⟨hlt, hmap⟩ := hm.crid_of_grid g hg hne
    rw [lookup, ← he, if_pos hlt, hmap]
  rw [Hybrid.writeRecordB]
  split
  · rename_i habs
    refine ⟨fun g hg hr => hx.unwritten g hg (List.mem_cons_of_mem _ hr), hx.tags,
      fun g hg hne hs => hx.value g hg hne fun hst hr => ?_, hx.dirty⟩
    rcases List.mem_cons.mp hr with hr | hr
    · have hg' := hslot g hg hne hr
      have := cfg.capacity_lt_absent
      omega
    · exact hs hst hr
  · rename_i hpres
    have hlt : u < cfg.numUnits := by
      by_contra hge
      exact hpres (if_neg hge)
    generalize hgrid : lookup cfg h.cache.cridToGrid u = gu at hpres hslot ⊢
    have hmap : h.cache.cridToGrid u = gu := by rw [← hgrid, lookup, if_pos hlt]
    obtain ⟨hcap, hres⟩ := hm.grid_of_crid u hlt (hmap ▸ hpres)
    rw [hmap] at hcap hres
    have hbelow : (h.records gu).TagsBelow e :=
      hx.unwritten gu hcap (hres.symm ▸ List.mem_cons_self ..)
    have hother : ∀ g, g ≠ gu → Function.update h.records gu
        ((h.records gu).put e v (h.records gu).recordBSlot) g = h.records g := fun g hg =>
      Function.update_of_ne hg ..
    refine ⟨fun g hg hr => ?_, fun g hg hne => ?_, fun g hg hne hs => ?_, fun slot g hd => ?_⟩
    · have hne : g ≠ gu := by
        rintro rfl
        rw [hres] at hr
        exact hu hr
      dsimp only
      rw [hother g hne]
      exact hx.unwritten g hg (List.mem_cons_of_mem _ hr)
    · dsimp only
      rcases eq_or_ne g gu with rfl | hg'
      · rw [Function.update_self]
        exact (hbelow.mono (Nat.le_succ e)).put (Nat.lt_succ_self e) v _
      · rw [hother g hg']
        exact hx.tags g hg hne
    · dsimp only
      rcases eq_or_ne g gu with rfl | hg'
      · rw [Function.update_self, Rec.latestSlot_put hbelow, Rec.version_put, Rec.value_put, hres]
        exact hv
      · rw [hother g hg']
        refine hx.value g hg hne fun hst hr => ?_
        rcases List.mem_cons.mp hr with hr | hr
        · exact hg' (hslot g hg hne hr).symm
        · exact hs hst hr
    · dsimp only at hd ⊢
      have hocc : h.cache.resident gu ≠ absent := by
        rw [hres]
        have := cfg.numUnits_le
        omega
      rcases eq_or_ne g gu with rfl | hg'
      · refine ⟨hcap, hocc, ?_⟩
        rw [Function.update_self]
        rcases eq_or_ne slot (h.records g).recordBSlot with hs | hs
        · rw [hs, Rec.version_put, Rec.value_put, hres]
          exact hv
        · have hs' : (h.records g).recordBSlot = slot.other := by
            revert hs
            cases slot <;> cases (h.records g).recordBSlot <;> simp [Slot.other]
          rw [Function.update_of_ne hs] at hd
          rw [hs', Rec.version_put_other, Rec.value_put_other]
          exact (hx.dirty slot g hd).2.2
      · have hd' : h.dirty slot g = true := by
          rcases eq_or_ne slot (h.records gu).recordBSlot with rfl | hs
          · rwa [Function.update_self, Function.update_of_ne hg'] at hd
          · rwa [Function.update_of_ne hs] at hd
        obtain ⟨h1, h2, h3⟩ := hx.dirty slot g hd'
        rw [hother g hg']
        exact ⟨h1, h2, h3⟩

/-- The events of an epoch, each record written once with a value of its own. -/
theorem execute_owned (hm : Mapped cfg h.cache) {es : List (Event V)}
    (hs : StoreOwned own e h) (hx : ExecOwned cfg own e stale (writtenCrids es) h)
    (hnd : (writtenCrids es).Nodup) (hown : ∀ u v, Event.write u v ∈ es → own u e v) :
    StoreOwned own e (h.execute cfg e es) ∧ ExecOwned cfg own e stale [] (h.execute cfg e es) := by
  induction es generalizing h with
  | nil => exact ⟨hs, hx⟩
  | cons x es ih =>
    have hown' : ∀ u v, Event.write u v ∈ es → own u e v := fun u v hw =>
      hown u v (List.mem_cons_of_mem _ hw)
    have hcache : (h.event cfg e x).cache = h.cache := event_cache x
    refine ih (hcache.symm ▸ hm) ?_ ?_ ?_ hown'
    · cases x with
      | write u v =>
        simp only [Hybrid.event, Hybrid.writeRecordB]
        split
        · exact hs
        · exact ⟨hs.value, hs.tags, hs.inflight, hs.inflightTags⟩
      | scatter =>
        simp only [Hybrid.event]
        split
        · exact hs
        · rename_i y ys hin
          have hy := hs.entries (hin ▸ List.mem_cons_self ..)
          obtain ⟨hv, ht⟩ := scatterEntry_owned hs.value hs.tags hy.1 hy.2
          exact ⟨hv, ht, fun z hz => hs.inflight z (hin ▸ List.mem_cons_of_mem _ hz),
            fun z hz => hs.inflightTags z (hin ▸ List.mem_cons_of_mem _ hz)⟩
      | syncFlush =>
        obtain ⟨hv, ht⟩ := foldl_scatterEntry_owned hs.value hs.tags fun z hz => hs.entries hz
        exact ⟨hv, ht, by simp [Hybrid.event], by simp [Hybrid.event]⟩
    · cases x with
      | write u v =>
        have hcons : writtenCrids (Event.write u v :: es) = u :: writtenCrids es := rfl
        rw [hcons] at hx hnd
        exact hx.write hm (hown u v (List.mem_cons_self ..)) (List.nodup_cons.mp hnd).1
      | scatter =>
        simp only [Hybrid.event]
        split
        · exact hx
        · exact ⟨hx.unwritten, hx.tags, hx.value, hx.dirty⟩
      | syncFlush => exact ⟨hx.unwritten, hx.tags, hx.value, hx.dirty⟩
    · cases x with
      | write u v => exact (List.nodup_cons.mp (show (u :: writtenCrids es).Nodup from hnd)).2
      | scatter => exact hnd
      | syncFlush => exact hnd

/-- The flush of an epoch: what it packs is its records' own. -/
theorem startFlush_owned (hs : StoreOwned own e h) (hx : ExecOwned cfg own e stale [] h) :
    StoreOwned own (e + 1) (h.startFlushEpochAsync cfg) ∧
      CacheOwned cfg own (e + 1) ∅ (h.startFlushEpochAsync cfg) := by
  obtain ⟨hv, ht⟩ := foldl_scatterEntry_owned hs.value hs.tags fun z hz => hs.entries hz
  have hentry : ∀ x ∈ h.flushSet cfg, own x.crid x.version x.value ∧ x.version < e + 1 := by
    have hone : ∀ slot, ∀ x ∈ (h.flushSlot cfg slot).map (h.pack slot),
        own x.crid x.version x.value ∧ x.version < e + 1 := by
      intro slot x hx'
      obtain ⟨y, hy, rfl⟩ := List.mem_map.mp hx'
      obtain ⟨-, hd, hres⟩ := mem_flushSlot.mp hy
      obtain ⟨hcap, hne, hval⟩ := hx.dirty slot y.1 hd
      rw [← hres] at hval
      exact ⟨hval, (hx.tags y.1 hcap hne).version slot⟩
    intro x hx'
    rcases List.mem_append.mp hx' with hx' | hx'
    · exact hone .slot1 x hx'
    · exact hone .slot2 x hx'
  refine ⟨⟨hv, fun u => (ht u).mono (Nat.le_succ e), fun x hx' => (hentry x hx').1,
    fun x hx' => (hentry x hx').2⟩, ⟨hx.tags, fun g hg hne _ => ?_⟩⟩
  exact hx.value g hg hne fun _ => List.not_mem_nil

end

end Egad.Stager
