import Egad.Stager.Owned

/-! # Writing back while the next epoch runs

    The worker of a flush is joined at the end of the next epoch only, so its stores fall between the
    copies of that epoch's admission and between the steps of its executor. What every such order has
    in common is the store as it will be once the flush has landed:

        store ──scatter──► … ──scatter──► landed          unchanged by the worker
          │                                 ║
          └─ fetch: records not in flight   ╚═ latest values of the occupied slots

    An admission copies only records that are not in flight, because what is in flight was written in
    the last epoch and has its slot still. The flush of an epoch replaces the landed record of each
    written unit by the one with the new value in its older slot. -/

namespace Egad.Stager
open Egad.Lib

variable {V : Type*}

/-! ### The landed store -/

/-- The latest value of a record. -/
def Rec.latest (r : Rec V) : V := r.value r.latestSlot

/-- The primary store once the flush in flight has landed. -/
def Hybrid.landed (h : Hybrid V) : ℕ → Rec V := h.inflight.foldl scatterEntry h.store

/-- One store of the worker. -/
def Hybrid.scatterNext (h : Hybrid V) : Hybrid V :=
  match h.inflight with
  | [] => h
  | x :: rest => { h with store := scatterEntry h.store x, inflight := rest }

theorem scatterNext_landed (h : Hybrid V) : h.scatterNext.landed = h.landed := by
  rw [Hybrid.scatterNext]
  split
  · rfl
  · rename_i x rest hin
    rw [Hybrid.landed, Hybrid.landed, hin]
    rfl

theorem scatterNext_frame (h : Hybrid V) : h.scatterNext.cache = h.cache ∧
    h.scatterNext.records = h.records ∧ h.scatterNext.dirty = h.dirty := by
  rw [Hybrid.scatterNext]
  split <;> exact ⟨rfl, rfl, rfl⟩

theorem scatterNext_inflight {h : Hybrid V} {x : Entry V} (hx : x ∈ h.scatterNext.inflight) :
    x ∈ h.inflight := by
  rw [Hybrid.scatterNext] at hx
  split at hx
  · exact hx
  · rename_i y rest hin
    rw [hin]
    exact List.mem_cons_of_mem y hx

/-- A record that is not in flight is as in the store. -/
theorem foldl_scatter_of_notMem {xs : List (Entry V)} {u : ℕ} (hu : u ∉ xs.map Entry.crid)
    (store : ℕ → Rec V) : xs.foldl scatterEntry store u = store u := by
  induction xs generalizing store with
  | nil => rfl
  | cons x xs ih =>
    rw [List.map_cons, List.mem_cons, not_or] at hu
    rw [List.foldl_cons, ih hu.2, scatterEntry]
    split
    · rfl
    · rw [Function.update_of_ne hu.1]

@[simp] theorem Rec.put_put (r : Rec V) (e : ℕ) (v : V) (s : Slot) :
    (r.put e v s).put e v s = r.put e v s := by cases s <;> rfl

/-- The entries of a flush name each record with one slot, tag and value. -/
def OneEach (xs : List (Entry V)) : Prop := ∀ x ∈ xs, ∀ y ∈ xs, x.crid = y.crid →
  x.slot = y.slot ∧ x.version = y.version ∧ x.value = y.value

/-- A record in flight gets its entry, however often the worker stores it. -/
theorem foldl_scatter_of_mem {xs : List (Entry V)} (hone : OneEach xs) {x : Entry V} (hx : x ∈ xs)
    (hne : x.crid ≠ absent) (store : ℕ → Rec V) :
    xs.foldl scatterEntry store x.crid = (store x.crid).put x.version x.value x.slot := by
  induction xs generalizing store x with
  | nil => cases hx
  | cons y xs ih =>
    have hone' : OneEach xs := fun a ha b hb =>
      hone a (List.mem_cons_of_mem y ha) b (List.mem_cons_of_mem y hb)
    rw [List.foldl_cons]
    by_cases hxy : x.crid = y.crid
    · -- the first entry is of the same record
      obtain ⟨hs, hv, hval⟩ := hone x hx y List.mem_cons_self hxy
      have hput : scatterEntry store y x.crid = (store x.crid).put x.version x.value x.slot := by
        rw [scatterEntry, if_neg (hxy ▸ hne), hxy, Function.update_self, hs, hv, hval]
      by_cases hmem : x.crid ∈ xs.map Entry.crid
      · obtain ⟨z, hz, hzx⟩ := List.mem_map.mp hmem
        obtain ⟨hs', hv', hval'⟩ :=
          hone x hx z (List.mem_cons_of_mem y hz) hzx.symm
        have hrest := ih hone' hz (hzx.symm ▸ hne) (scatterEntry store y)
        rw [hzx] at hrest
        rw [hrest, hput, hs', hv', hval', Rec.put_put]
      · rw [foldl_scatter_of_notMem hmem, hput]
    · have hx' : x ∈ xs := (List.mem_cons.mp hx).resolve_left fun he => hxy (congrArg Entry.crid he)
      rw [ih hone' hx' hne (scatterEntry store y)]
      congr 1
      rw [scatterEntry]
      split
      · rfl
      · rw [Function.update_of_ne hxy]

/-! ### An admission beside the worker -/

/-- What happens while `prepareEpoch` copies records: one of its copies, or a store of the worker. -/
inductive CopyStep where
  | fetch (crid grid : ℕ)
  | scatter

def Hybrid.move (epoch : ℕ) (h : Hybrid V) : CopyStep → Hybrid V
  | .fetch crid grid => { h with
      records := Function.update h.records grid
        (transferVersion epoch (h.store crid) (h.records grid)) }
  | .scatter => h.scatterNext

/-- The copies, in the order they are made. -/
def fetches (ms : List CopyStep) : List (ℕ × ℕ) :=
  ms.filterMap fun | .fetch crid grid => some (crid, grid) | .scatter => none

/-- `prepareEpoch` with its copies and the worker's stores interleaved. -/
def Hybrid.admitAt (epoch : ℕ) (p : Prepared) (ms : List CopyStep) (h : Hybrid V) : Hybrid V :=
  let h := ms.foldl (Hybrid.move epoch) h
  { h with cache := p.cache, records := zeroInsertSlotTags p.cleared h.records }

section
variable {epoch : ℕ} {h : Hybrid V}

theorem moves_frame (ms : List CopyStep) :
    (ms.foldl (Hybrid.move epoch) h).cache = h.cache ∧
      (ms.foldl (Hybrid.move epoch) h).dirty = h.dirty ∧
      (ms.foldl (Hybrid.move epoch) h).landed = h.landed := by
  induction ms generalizing h with
  | nil => exact ⟨rfl, rfl, rfl⟩
  | cons m ms ih =>
    rw [List.foldl_cons]
    obtain ⟨h1, h2, h3⟩ := @ih (h.move epoch m)
    rw [h1, h2, h3]
    cases m with
    | fetch crid grid => exact ⟨rfl, rfl, rfl⟩
    | scatter =>
      obtain ⟨hc, -, hd⟩ := scatterNext_frame h
      exact ⟨hc, hd, scatterNext_landed h⟩

/-- A slot no copy goes to. -/
theorem moves_of_notMem {g : ℕ} (ms : List CopyStep) (hg : g ∉ (fetches ms).map Prod.snd) :
    (ms.foldl (Hybrid.move epoch) h).records g = h.records g := by
  induction ms generalizing h with
  | nil => rfl
  | cons m ms ih =>
    rw [List.foldl_cons]
    cases m with
    | fetch crid grid =>
      have hcons : fetches (.fetch crid grid :: ms) = (crid, grid) :: fetches ms := rfl
      rw [hcons, List.map_cons, List.mem_cons, not_or] at hg
      rw [ih hg.2]
      exact Function.update_of_ne hg.1 ..
    | scatter =>
      rw [ih hg]
      exact congrFun (scatterNext_frame h).2.1 g

/-- A copy takes the landed record, whenever it is made. -/
theorem moves_of_mem (ms : List CopyStep) {x : ℕ × ℕ} (hx : x ∈ fetches ms)
    (hnd : ((fetches ms).map Prod.snd).Nodup) (hfree : x.1 ∉ h.inflight.map Entry.crid) :
    (ms.foldl (Hybrid.move epoch) h).records x.2 =
      transferVersion epoch (h.landed x.1) (h.records x.2) := by
  induction ms generalizing h with
  | nil => cases hx
  | cons m ms ih =>
    rw [List.foldl_cons]
    cases m with
    | fetch crid grid =>
      have hcons : fetches (.fetch crid grid :: ms) = (crid, grid) :: fetches ms := rfl
      rw [hcons] at hx
      rw [hcons, List.map_cons, List.nodup_cons] at hnd
      rcases List.mem_cons.mp hx with rfl | hx
      · rw [moves_of_notMem ms hnd.1, Hybrid.landed, foldl_scatter_of_notMem hfree]
        exact Function.update_self ..
      · have hne : x.2 ≠ grid := fun he => hnd.1 (List.mem_map.mpr ⟨x, hx, he⟩)
        have hrest := @ih (h.move epoch (.fetch crid grid)) hx hnd.2 hfree
        rw [hrest]
        congr 1
        exact Function.update_of_ne hne ..
    | scatter =>
      have hfree' : x.1 ∉ h.scatterNext.inflight.map Entry.crid := by
        intro hm
        obtain ⟨y, hy, he⟩ := List.mem_map.mp hm
        exact hfree (List.mem_map.mpr ⟨y, scatterNext_inflight hy, he⟩)
      rw [Hybrid.move, ih hx hnd hfree', scatterNext_landed, (scatterNext_frame h).2.1]

end

/-! ### The cache against the landed store -/

section
variable (cfg : Config)

/-- Both tags are those of the other record. -/
def Rec.SameTags (r r' : Rec V) : Prop := r.version1 = r'.version1 ∧ r.version2 = r'.version2

/-- The occupied slots have the landed tags, and the landed latest value unless they are `stale`. -/
structure Cached (e : ℕ) (stale : Set ℕ) (h : Hybrid V) : Prop where
  landed : ∀ u, (h.landed u).TagsBelow e
  tags : ∀ g < cfg.capacity, h.cache.resident g ≠ absent →
    (h.records g).SameTags (h.landed (h.cache.resident g))
  value : ∀ g < cfg.capacity, h.cache.resident g ≠ absent → g ∉ stale →
    (h.records g).latest = (h.landed (h.cache.resident g)).latest

/-- What is in flight has its slot. -/
def Hybrid.FlightResident (h : Hybrid V) : Prop :=
  ∀ x ∈ h.inflight, x.crid < cfg.numUnits ∧ h.cache.cridToGrid x.crid ≠ absent

/-- An epoch's executor has run: the records of `W` have got their new values, in their older slots,
    which are marked, and nothing else has changed. -/
structure Executed (e : ℕ) (W : ℕ → Option V) (h h' : Hybrid V) : Prop where
  cache : h'.cache = h.cache
  landed : h'.landed = h.landed
  kept : ∀ g < cfg.capacity, h.cache.resident g ≠ absent → W (h.cache.resident g) = none →
    h'.records g = h.records g
  written : ∀ g < cfg.capacity, h.cache.resident g ≠ absent → ∀ v, W (h.cache.resident g) = some v →
    h'.records g = (h.records g).put e v (h.records g).recordBSlot
  dirty : ∀ slot g, h'.dirty slot g = true ↔ g < cfg.capacity ∧ h.cache.resident g ≠ absent ∧
    (W (h.cache.resident g)).isSome ∧ slot = (h.records g).recordBSlot
  resident : ∀ u v, W u = some v → u < cfg.numUnits ∧ h.cache.cridToGrid u ≠ absent

/-- `start_flush_epoch_async`, with the order in which its worker will store the entries: any order,
    and an entry may come twice, as the only one of a flush set does. -/
def Hybrid.flushInOrder (order : List (Entry V)) (h : Hybrid V) : Hybrid V :=
  { h.startFlushEpochAsync cfg with inflight := order }

/-- The landed store after the epoch's flush. -/
def writeBack (e : ℕ) (W : ℕ → Option V) (store : ℕ → Rec V) (u : ℕ) : Rec V :=
  match W u with
  | none => store u
  | some v => (store u).put e v (store u).recordBSlot

end

variable {cfg : Config} {e : ℕ} {h h' : Hybrid V}

theorem Rec.SameTags.latestSlot {r r' : Rec V} (h : r.SameTags r') : r.latestSlot = r'.latestSlot :=
  Rec.latestSlot_congr h.1 h.2

theorem Rec.SameTags.recordBSlot {r r' : Rec V} (h : r.SameTags r') :
    r.recordBSlot = r'.recordBSlot := by
  rw [Rec.recordBSlot_eq, Rec.recordBSlot_eq, h.latestSlot]

theorem Rec.SameTags.below {r r' : Rec V} (h : r.SameTags r') (hb : r'.TagsBelow e) :
    r.TagsBelow e := ⟨h.1 ▸ hb.1, h.2 ▸ hb.2⟩

theorem Rec.SameTags.put {r r' : Rec V} (h : r.SameTags r') (e : ℕ) (v v' : V) (s : Slot) :
    (r.put e v s).SameTags (r'.put e v' s) := by
  cases s
  · exact ⟨rfl, h.2⟩
  · exact ⟨h.1, rfl⟩

/-- A fetched copy has the record's tags and latest value. -/
theorem transferVersion_cached {src dst : Rec V} (hb : src.TagsBelow e) :
    (transferVersion e src dst).SameTags src ∧ (transferVersion e src dst).latest = src.latest := by
  obtain ⟨h1, h2, h3⟩ := @transferVersion_of_below _ e src dst hb
  refine ⟨⟨h1, h2⟩, ?_⟩
  rw [Rec.latest, Rec.latestSlot_congr h1 h2, h3, Rec.latest]

/-- The copies of an admission go to distinct slots, and none is of a record in flight. -/
theorem admit_fetches (hfl : h.FlightResident cfg) {p : Prepared} {insertKeys new : List ℕ}
    {pairs : List (ℕ × ℕ)} (hp : p = Prepared.of cfg p.cache insertKeys pairs)
    (hb : Bound cfg h.cache p.cache new pairs) (hnew : ∀ u ∈ new, h.cache.cridToGrid u = absent)
    {ms : List CopyStep} (hms : (fetches ms).Perm p.fetched) :
    ((fetches ms).map Prod.snd).Nodup ∧
      ∀ x ∈ fetches ms, x ∈ pairs ∧ x.1 ∉ h.inflight.map Entry.crid := by
  have hfetched : p.fetched = pairs.filter fun x => !isInsert cfg insertKeys x.1 := by rw [hp]; rfl
  refine ⟨?_, fun x hx => ?_⟩
  · rw [(hms.map Prod.snd).nodup_iff, hfetched]
    exact hb.nodup.sublist (List.filter_sublist.map _)
  · have hx' := hms.mem_iff.mp hx
    rw [hfetched] at hx'
    have hpair := (List.mem_filter.mp hx').1
    refine ⟨hpair, fun hm => ?_⟩
    obtain ⟨y, hy, he⟩ := List.mem_map.mp hm
    have hmiss := hnew x.1 (hb.crids ▸ List.mem_map_of_mem hpair)
    exact (hfl y hy).2 (he.symm ▸ hmiss)

/-- The tags of all slots are old after an admission. -/
theorem admit_tags (he : 0 < e) (hland : ∀ u, (h.landed u).TagsBelow e)
    (hrec : ∀ g, (h.records g).TagsBelow e) {p : Prepared} {ms : List CopyStep}
    (hnd : ((fetches ms).map Prod.snd).Nodup)
    (hfree : ∀ x ∈ fetches ms, x.1 ∉ h.inflight.map Entry.crid) (g : ℕ) :
    ((h.admitAt e p ms).records g).TagsBelow e := by
  have hmoved : ((ms.foldl (Hybrid.move e) h).records g).TagsBelow e := by
    by_cases hg : g ∈ (fetches ms).map Prod.snd
    · obtain ⟨x, hx, rfl⟩ := List.mem_map.mp hg
      rw [moves_of_mem ms hx hnd (hfree x hx)]
      exact (transferVersion_cached (hland x.1)).1.below (hland x.1)
    · rw [moves_of_notMem ms hg]
      exact hrec g
  simp only [Hybrid.admitAt]
  by_cases hc : g ∈ p.cleared
  · obtain ⟨h1, h2⟩ := zeroTags_of_mem hc (ms.foldl (Hybrid.move e) h).records
    exact ⟨by rw [h1]; exact he, by rw [h2]; exact he⟩
  · rw [zeroTags_of_notMem hc]
    exact hmoved

/-- The slots of an admission: fetched ones are as landed, those of inserted records are stale with
    cleared tags, which the store's record must have, too; the others are as they were. -/
theorem Cached.admitAt (hc : Cached cfg e ∅ h) (hfl : h.FlightResident cfg) {p : Prepared}
    {insertKeys new : List ℕ} {pairs : List (ℕ × ℕ)} (hp : p = Prepared.of cfg p.cache insertKeys pairs)
    (hb : Bound cfg h.cache p.cache new pairs)
    (hnew : ∀ u ∈ new, h.cache.cridToGrid u = absent)
    (hfresh : ∀ x ∈ pairs, isInsert cfg insertKeys x.1 = true →
      (h.landed x.1).version1 = 0 ∧ (h.landed x.1).version2 = 0)
    {ms : List CopyStep} (hms : (fetches ms).Perm p.fetched) :
    Cached cfg e {g | g ∈ p.cleared} (h.admitAt e p ms) := by
  obtain ⟨-, -, hland⟩ := @moves_frame _ e h ms
  have hfetched : p.fetched = pairs.filter fun x => !isInsert cfg insertKeys x.1 := by rw [hp]; rfl
  have hcleared : p.cleared = (pairs.filter fun x => isInsert cfg insertKeys x.1).map Prod.snd := by
    rw [hp]; rfl
  obtain ⟨hnd, hfree⟩ := admit_fetches hfl hp hb hnew hms
  have hland' : (h.admitAt e p ms).landed = h.landed := hland
  -- a slot that is not one of an inserted record
  have hslot : ∀ g < cfg.capacity, p.cache.resident g ≠ absent → g ∉ p.cleared →
      ((ms.foldl (Hybrid.move e) h).records g).SameTags (h.landed (p.cache.resident g)) ∧
        ((ms.foldl (Hybrid.move e) h).records g).latest = (h.landed (p.cache.resident g)).latest := by
    intro g hg hne hnot
    by_cases hmem : g ∈ pairs.map Prod.snd
    · obtain ⟨x, hx, rfl⟩ := List.mem_map.mp hmem
      have hins : isInsert cfg insertKeys x.1 = false := by
        by_contra hi
        refine hnot ?_
        rw [hcleared]
        exact List.mem_map_of_mem (List.mem_filter.mpr ⟨hx, by simpa using hi⟩)
      have hfx : x ∈ fetches ms := by
        rw [hms.mem_iff, hfetched]
        exact List.mem_filter.mpr ⟨hx, by simp [hins]⟩
      rw [moves_of_mem ms hfx hnd (hfree x hfx).2, hb.resident x hx]
      exact transferVersion_cached (hc.landed x.1)
    · have hnf : g ∉ (fetches ms).map Prod.snd := by
        intro hm
        refine hmem ?_
        have hm' := (hms.map Prod.snd).mem_iff.mp hm
        rw [hfetched] at hm'
        exact (List.filter_sublist.map _).subset hm'
      rw [hb.kept g hmem] at hne ⊢
      rw [moves_of_notMem ms hnf]
      exact ⟨hc.tags g hg hne, hc.value g hg hne (Set.notMem_empty g)⟩
  refine ⟨fun u => hland' ▸ hc.landed u, fun g hg hne => ?_, fun g hg hne hst => ?_⟩
  · rw [hland']
    have hne : p.cache.resident g ≠ absent := hne
    simp only [Hybrid.admitAt]
    by_cases hmem : g ∈ p.cleared
    · obtain ⟨h1, h2⟩ := zeroTags_of_mem hmem (ms.foldl (Hybrid.move e) h).records
      rw [hcleared] at hmem
      obtain ⟨x, hx, rfl⟩ := List.mem_map.mp hmem
      obtain ⟨hx, hins⟩ := List.mem_filter.mp hx
      obtain ⟨h1', h2'⟩ := hfresh x hx hins
      rw [hb.resident x hx]
      exact ⟨h1.trans h1'.symm, h2.trans h2'.symm⟩
    · rw [zeroTags_of_notMem hmem]
      exact (hslot g hg hne hmem).1
  · rw [hland']
    have hst : g ∉ p.cleared := hst
    have hne : p.cache.resident g ≠ absent := hne
    simp only [Hybrid.admitAt]
    rw [zeroTags_of_notMem hst]
    exact (hslot g hg hne hst).2

/-! ### The flush of an epoch -/

section
variable {stale : Set ℕ} {W : ℕ → Option V} {order : List (Entry V)}

/-- What the flush set holds: the written records, each with its older slot and its new value. -/
theorem Executed.mem_flushSet (hx : Executed cfg e W h h') (hm : Mapped cfg h.cache) {x : Entry V} :
    x ∈ h'.flushSet cfg ↔ ∃ v, W x.crid = some v ∧ x.grid = h.cache.cridToGrid x.crid ∧
      x.slot = (h.records x.grid).recordBSlot ∧ x.version = e ∧ x.value = v := by
  have hpack : ∀ {slot : Slot} {y : ℕ × ℕ}, y ∈ h'.flushSlot cfg slot ↔
      ∃ v, W y.2 = some v ∧ y.1 = h.cache.cridToGrid y.2 ∧ slot = (h.records y.1).recordBSlot ∧
        (h'.records y.1).version slot = e ∧ (h'.records y.1).value slot = v := by
    intro slot y
    rw [mem_flushSlot, hx.dirty, hx.cache]
    constructor
    · rintro ⟨-, ⟨hcap, hne, hsome, hslot⟩, hres⟩
      obtain ⟨v, hv⟩ := Option.isSome_iff_exists.mp hsome
      refine ⟨v, hres ▸ hv, ?_, hslot, ?_⟩
      · rw [hres]
        exact (hm.crid_of_grid y.1 hcap hne).2.symm
      · rw [hx.written y.1 hcap hne v hv, hslot, Rec.version_put, Rec.value_put]
        exact ⟨rfl, rfl⟩
    · rintro ⟨v, hv, hg, hslot, -⟩
      obtain ⟨hlt, hne⟩ := hx.resident y.2 v hv
      obtain ⟨hcap, hres⟩ := hm.grid_of_crid y.2 hlt hne
      rw [← hg] at hcap hres
      have hocc : h.cache.resident y.1 ≠ absent := by
        have := cfg.numUnits_le
        omega
      exact ⟨hcap, ⟨hcap, hocc, by rw [hres, hv]; rfl, hslot⟩, hres.symm⟩
  constructor
  · intro hx'
    rcases List.mem_append.mp hx' with hx' | hx' <;> obtain ⟨y, hy, rfl⟩ := List.mem_map.mp hx' <;>
      obtain ⟨v, hv, hg, hslot, hver, hval⟩ := hpack.mp hy <;> exact ⟨v, hv, hg, hslot, hver, hval⟩
  · rintro ⟨v, hv, hg, hslot, hver, hval⟩
    have hone : x.slot = (h.records x.grid).recordBSlot →
        x ∈ (h'.flushSlot cfg x.slot).map (h'.pack x.slot) := by
      intro _
      obtain ⟨hlt, hne⟩ := hx.resident x.crid v hv
      obtain ⟨hcap, hres⟩ := hm.grid_of_crid x.crid hlt hne
      rw [← hg] at hcap hres
      have hocc : h.cache.resident x.grid ≠ absent := by
        have := cfg.numUnits_le
        omega
      have hrec := hx.written x.grid hcap hocc v (by rw [hres, hv])
      refine List.mem_map.mpr ⟨(x.grid, x.crid), hpack.mpr ⟨v, hv, hg, hslot, ?_, ?_⟩, ?_⟩
      · rw [hrec, hslot, Rec.version_put]
      · rw [hrec, hslot, Rec.value_put]
      · rw [Hybrid.pack]
        cases x
        simp only at hver hval hslot hrec ⊢
        rw [hrec, hslot, Rec.version_put, Rec.value_put, hver, hval]
    cases hs : x.slot with
    | slot1 => exact List.mem_append_left _ (hs ▸ hone hslot)
    | slot2 => exact List.mem_append_right _ (hs ▸ hone hslot)

theorem Executed.oneEach (hx : Executed cfg e W h h') (hm : Mapped cfg h.cache)
    (horder : ∀ x, x ∈ order ↔ x ∈ h'.flushSet cfg) : OneEach order := by
  intro x hx' y hy hxy
  obtain ⟨v, hv, hg, hs, hver, hval⟩ := (hx.mem_flushSet hm).mp ((horder x).mp hx')
  obtain ⟨w, hw, hg', hs', hver', hval'⟩ := (hx.mem_flushSet hm).mp ((horder y).mp hy)
  rw [hxy] at hv hg
  rw [hv] at hw
  obtain rfl := Option.some.inj hw
  have hgrid : x.grid = y.grid := hg.trans hg'.symm
  exact ⟨by rw [hs, hs', hgrid], hver.trans hver'.symm, hval.trans hval'.symm⟩

/-- The landed store after the flush of an epoch, in whatever order its worker stores the entries. -/
theorem Executed.landed_flush (hx : Executed cfg e W h h') (hm : Mapped cfg h.cache)
    (hc : Cached cfg e stale h) (horder : ∀ x, x ∈ order ↔ x ∈ h'.flushSet cfg) :
    (h'.flushInOrder cfg order).landed = writeBack e W h.landed := by
  have hstore : (h'.flushInOrder cfg order).landed = order.foldl scatterEntry h.landed := by
    rw [← hx.landed]
    rfl
  funext u
  rw [hstore, writeBack]
  cases hW : W u with
  | none =>
    refine foldl_scatter_of_notMem (fun hmem => ?_) _
    obtain ⟨x, hx', rfl⟩ := List.mem_map.mp hmem
    obtain ⟨v, hv, -⟩ := (hx.mem_flushSet hm).mp ((horder x).mp hx')
    rw [hW] at hv
    cases hv
  | some v =>
    obtain ⟨hlt, hne⟩ := hx.resident u v hW
    obtain ⟨hcap, hres⟩ := hm.grid_of_crid u hlt hne
    have hu : u ≠ absent := by
      have := cfg.numUnits_le
      omega
    have hslot := (hc.tags _ hcap (hres.symm ▸ hu)).recordBSlot
    rw [hres] at hslot
    have hmem : (⟨h.cache.cridToGrid u, (h.landed u).recordBSlot, u, e, v⟩ : Entry V) ∈ order :=
      (horder _).mpr ((hx.mem_flushSet hm).mpr ⟨v, hW, rfl, hslot.symm, rfl, rfl⟩)
    exact foldl_scatter_of_mem (hx.oneEach hm horder) hmem hu _

/-- After its flush an epoch leaves a cache that agrees with the landed store, stale slots and all,
    as long as those were written. -/
theorem Executed.cached (hx : Executed cfg e W h h') (hm : Mapped cfg h.cache)
    (hc : Cached cfg e stale h) (horder : ∀ x, x ∈ order ↔ x ∈ h'.flushSet cfg)
    (hstale : ∀ g < cfg.capacity, h.cache.resident g ≠ absent → g ∈ stale →
      (W (h.cache.resident g)).isSome) :
    Cached cfg (e + 1) ∅ (h'.flushInOrder cfg order) := by
  have hland := hx.landed_flush hm hc horder
  have hres : (h'.flushInOrder cfg order).cache.resident = h.cache.resident := by
    rw [← hx.cache]
    rfl
  have hrec : (h'.flushInOrder cfg order).records = h'.records := rfl
  refine ⟨fun u => ?_, fun g hg hne => ?_, fun g hg hne _ => ?_⟩
  · rw [hland, writeBack]
    cases W u with
    | none => exact (hc.landed u).mono (Nat.le_succ e)
    | some v => exact ((hc.landed u).mono (Nat.le_succ e)).put (Nat.lt_succ_self e) v _
  · rw [hres] at hne ⊢
    rw [hland, hrec, writeBack]
    cases hW : W (h.cache.resident g) with
    | none =>
      rw [hx.kept g hg hne hW]
      exact hc.tags g hg hne
    | some v =>
      have htags := hc.tags g hg hne
      rw [hx.written g hg hne v hW, htags.recordBSlot]
      exact htags.put e v v _
  · rw [hres] at hne ⊢
    rw [hland, hrec, writeBack]
    cases hW : W (h.cache.resident g) with
    | none =>
      have hst : g ∉ stale := fun hst => by
        have hsome := hstale g hg hne hst
        rw [hW] at hsome
        cases hsome
      rw [hx.kept g hg hne hW]
      exact hc.value g hg hne hst
    | some v =>
      have htags := hc.tags g hg hne
      have hb := hc.landed (h.cache.resident g)
      rw [hx.written g hg hne v hW]
      simp only [Rec.latest, Rec.latestSlot_put hb, Rec.latestSlot_put (htags.below hb), Rec.value_put]

theorem Executed.flightResident (hx : Executed cfg e W h h') (hm : Mapped cfg h.cache)
    (horder : ∀ x, x ∈ order ↔ x ∈ h'.flushSet cfg) :
    (h'.flushInOrder cfg order).FlightResident cfg := by
  intro x hx'
  obtain ⟨v, hv, -⟩ := (hx.mem_flushSet hm).mp ((horder x).mp hx')
  have hres := hx.resident x.crid v hv
  rwa [← hx.cache] at hres

end

end Egad.Stager
