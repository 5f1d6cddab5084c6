import Egad.Stager.Overlap

/-! # One epoch of a stager

    An admission beside the worker of the last flush, and the writes of the executor, of which only the
    last one of a record goes to its slot:

        resting ──mark, admit──► staged ──write, scatter, write──► executed ──flush──► resting
        Cached e ∅               Cached e stale                    Executed e W        Cached (e+1) ∅

    The slots of the records that the epoch creates are stale until they are written. What the worker
    of the next flush has stored at any moment is, row by row, the store before the flush or after it. -/

namespace Egad.Stager
open Egad.Lib

variable {V : Type*}

section
variable (cfg : Config)

/-- `mark_reclaimable` and `prepareEpoch`, under any schedule of its kernels and with its copies and
    the worker's stores in any order. -/
def Hybrid.Stages (e : ℕ) (dead keys insertKeys : List ℕ) (h h' : Hybrid V) : Prop :=
  ∃ sched p ms, sched.Complete cfg keys (markReclaimable cfg dead h.cache) ∧
    prepareEpoch cfg sched keys insertKeys (markReclaimable cfg dead h.cache) = .ok p ∧
    (fetches ms).Perm p.fetched ∧
    h' = ({ h with cache := markReclaimable cfg dead h.cache } : Hybrid V).admitAt e p ms

/-- The stager of a process that has just started over a store: empty, or pre-warmed. -/
def Hybrid.Started (store : ℕ → Rec V) (h : Hybrid V) : Prop :=
  ∃ records, h = Hybrid.initial cfg records store ∨
    ∃ W, W * 10 * 45000 ≤ cfg.numUnits ∧ h = (Hybrid.initial cfg records store).prewarm cfg W

/-- The slots that the pre-warm has filled read as their rows. -/
def Hybrid.Warm (h : Hybrid V) : Prop := ∀ g < cfg.capacity, h.cache.resident g ≠ absent →
  (h.records g).latest = (h.store (h.cache.resident g)).latest

/-- What an admission makes of a stager `h`. The stale slots are those of created records. -/
structure Staged (e : ℕ) (keys insertKeys : List ℕ) (stale : Set ℕ) (h h' : Hybrid V) : Prop where
  reachable : Reachable cfg h'.cache
  unmarked : h'.Unmarked
  landed : h'.landed = h.landed
  cached : Cached cfg e stale h'
  resident : ∀ u ∈ keys, u ≠ absent → h'.cache.cridToGrid u ≠ absent
  records : 0 < e → (∀ g, (h.records g).TagsBelow e) → ∀ g, (h'.records g).TagsBelow e
  stale : ∀ g ∈ stale, h'.cache.resident g < cfg.numUnits ∧ h'.cache.resident g ∈ keys ∧
    h'.cache.resident g ∈ insertKeys

/-- The writes among the events of an epoch. -/
def writesOf (es : List (Event V)) : List (ℕ × V) :=
  es.filterMap fun | .write crid value => some (crid, value) | _ => none

/-- The events of an epoch write the records of `W`, each once; the worker is not joined among them. -/
structure Performs (W : ℕ → Option V) (es : List (Event V)) : Prop where
  once : ((writesOf es).map Prod.fst).Nodup
  all : ∀ u v, W u = some v ↔ (u, v) ∈ writesOf es
  running : Event.syncFlush ∉ es

/-- The worker is somewhere in the flush of epoch `e`, which it started over the store `base`. -/
structure Flight (e : ℕ) (W : ℕ → Option V) (base : ℕ → Rec V) (h : Hybrid V) : Prop where
  tags : ∀ u, (base u).TagsBelow e
  store : ∀ u, h.store u = base u ∨ h.store u = writeBack e W base u
  inflight : ∀ x ∈ h.inflight,
    W x.crid = some x.value ∧ x.version = e ∧ x.slot = (base x.crid).recordBSlot

end

variable {cfg : Config} {e : ℕ} {h h' : Hybrid V}

/-! ### The start of a process -/

/-- The pre-warm gives its rows slots. -/
theorem prewarm_bound {W : ℕ} (hW : W * 10 * 45000 ≤ cfg.numUnits)
    (hcap : ¬ cfg.capacity ≤ W * 10 * 13500) : ∃ pairs,
      Bound cfg (Cache.initial cfg) (Stager.prewarm cfg W (Cache.initial cfg))
        (undeliveredOrderLines W) pairs := by
  have hf : Fresh cfg (Cache.initial cfg) (undeliveredOrderLines W) := by
    refine ⟨undelivered_nodup W, fun r hr => ?_, fun _ _ => rfl⟩
    obtain ⟨w, hw, d, hd, i, hi, he⟩ := mem_undelivered.mp hr
    omega
  have hn : (undeliveredOrderLines W).length ≤ (Cache.initial cfg).freeSlots := by
    rw [undelivered_length]
    exact (Nat.lt_of_not_le hcap).le
  have hgrids := ringPop_fst cfg (Cache.initial cfg) (undeliveredOrderLines W).length
  obtain ⟨hring, hhead⟩ := ringPop_ring cfg (undeliveredOrderLines W).length
    (@initial_mapped cfg).head_le
  rw [Stager.prewarm, if_neg hcap]
  simp only [hgrids]
  rw [if_neg (not_not.mpr (take_ring_length hn))]
  exact ⟨_, bound_of_pop initial_mapped hf hn rfl rfl hring hhead⟩

/-- A fetched row's tags come with it. -/
theorem transferVersion_sameTags (e : ℕ) (src dst : Rec V) :
    (transferVersion e src dst).SameTags src := by
  rw [transferVersion]
  split <;> exact ⟨rfl, rfl⟩

/-- A process starts with no marks and nothing in flight. Its slots have their rows' tags. -/
theorem Hybrid.Started.spec {store : ℕ → Rec V} (hs : h.Started cfg store) :
    Reachable cfg h.cache ∧ h.Unmarked ∧ h.store = store ∧ h.inflight = [] ∧
      ∀ g < cfg.capacity, h.cache.resident g ≠ absent →
        (h.records g).SameTags (store (h.cache.resident g)) := by
  obtain ⟨records, rfl | ⟨W, hW, rfl⟩⟩ := hs
  · exact ⟨.initial, fun _ _ => rfl, rfl, rfl, fun g _ hne => absurd rfl hne⟩
  · refine ⟨.prewarm hW, fun _ _ => rfl, rfl, rfl, fun g hg hne => ?_⟩
    have hne : (Stager.prewarm cfg W (Cache.initial cfg)).resident g ≠ absent := hne
    by_cases hcap : cfg.capacity ≤ W * 10 * 13500
    · rw [Stager.prewarm, if_pos hcap] at hne
      exact absurd rfl hne
    · obtain ⟨pairs, hb⟩ := prewarm_bound hW hcap
      obtain ⟨hm, -⟩ := @prewarm_mapped cfg W hW
      -- an occupied slot is one of the pre-warm
      have hmem : g ∈ pairs.map Prod.snd := by
        by_contra hno
        rw [hb.kept g hno] at hne
        exact hne rfl
      have hback : ∀ x ∈ pairs,
          (Stager.prewarm cfg W (Cache.initial cfg)).cridToGrid x.1 = x.2 := by
        intro x hx
        have hlt : x.1 < cfg.numUnits := by
          have hrow : x.1 ∈ undeliveredOrderLines W := hb.crids ▸ List.mem_map_of_mem hx
          obtain ⟨w, hw, d, hd, i, hi, he⟩ := mem_undelivered.mp hrow
          omega
        have hres := hb.resident x hx
        have hocc : (Stager.prewarm cfg W (Cache.initial cfg)).resident x.2 ≠ absent := by
          have := cfg.numUnits_le
          omega
        have hgrid := (hm.crid_of_grid x.2 (hb.slot x hx) hocc).2
        rwa [hres] at hgrid
      have hmap : ((undeliveredOrderLines W).map fun r =>
          (r, (Stager.prewarm cfg W (Cache.initial cfg)).cridToGrid r)) = pairs := by
        rw [← hb.crids, List.map_map]
        refine (List.map_congr_left fun x hx => ?_).trans (List.map_id pairs)
        exact Prod.ext rfl (hback x hx)
      obtain ⟨x, hx, rfl⟩ := List.mem_map.mp hmem
      have hrecords : ((Hybrid.initial cfg records store).prewarm cfg W).records =
          sgTransferVersions 0 pairs store records := by
        rw [← hmap]
        exact if_neg hcap
      rw [hrecords, sgTransfer_of_mem hb.nodup hx]
      have hres : ((Hybrid.initial cfg records store).prewarm cfg W).cache.resident x.2 = x.1 :=
        hb.resident x hx
      rw [hres]
      exact transferVersion_sameTags 0 _ _

/-- A warm process agrees with its store. -/
theorem Hybrid.Started.cached {store : ℕ → Rec V} (hs : h.Started cfg store) (hw : h.Warm cfg)
    (hb : ∀ u, (store u).TagsBelow e) : Cached cfg e ∅ h := by
  obtain ⟨-, -, hstore, hin, htags⟩ := hs.spec
  have hland : h.landed = store := by rw [Hybrid.landed, hin, List.foldl_nil, hstore]
  refine ⟨fun u => hland ▸ hb u, fun g hg hne => ?_, fun g hg hne _ => ?_⟩
  · rw [hland]
    exact htags g hg hne
  · rw [hland, ← hstore]
    exact hw g hg hne

/-! ### Staging -/

/-- An admission of missed records stages an epoch. -/
theorem staged_of_prepare {keys insertKeys : List ℕ} (hreach : Reachable cfg h.cache)
    (hun : h.Unmarked) (hc : Cached cfg e ∅ h) (hfl : h.FlightResident cfg) (hk : Keys cfg keys)
    (hfresh : ∀ u ∈ keys, u ∈ insertKeys → u < cfg.numUnits →
      (h.landed u).version1 = 0 ∧ (h.landed u).version2 = 0)
    {sched : Schedule} (hcomplete : sched.Complete cfg keys h.cache) {p : Prepared}
    (hp : prepareEpoch cfg sched keys insertKeys h.cache = .ok p) {ms : List CopyStep}
    (hms : (fetches ms).Perm p.fetched) :
    Staged cfg e keys insertKeys {g | g ∈ p.cleared} h (h.admitAt e p ms) := by
  obtain ⟨hm, hcur⟩ := reachable_mapped hreach
  obtain ⟨pairs, hof, hb⟩ := prepareEpoch_bound hm hcur hk hcomplete hp
  have hready : Ready cfg keys p.cache := by
    rcases prepareEpoch_cases hm hcur hk hcomplete insertKeys with ⟨-, he⟩ | ⟨-, -, he⟩ | ⟨p', he, hr⟩
    · rw [hp] at he
      cases he
    · rw [hp] at he
      cases he
    · rw [hp] at he
      obtain rfl := Except.ok.inj he
      exact hr
  have hmissed : ∀ u ∈ sched.order, u ∈ keys ∧ u < cfg.numUnits ∧ h.cache.cridToGrid u = absent := by
    intro u hu
    have hmem := hcomplete.order.mem_iff.mp hu
    have hlt := lt_of_mem_missed hk hmem
    have hmiss := (mem_missed.mp hmem).2.1
    rw [lookup, if_pos hlt] at hmiss
    exact ⟨mem_buildNeeded.mp (mem_missed.mp hmem).1, hlt, hmiss⟩
  have hinserted : ∀ x ∈ pairs, isInsert cfg insertKeys x.1 = true →
      x.1 < cfg.numUnits ∧ x.1 ∈ keys ∧ x.1 ∈ insertKeys := by
    intro x hx hins
    obtain ⟨hkey, hlt, -⟩ := hmissed x.1 (hb.crids ▸ List.mem_map_of_mem hx)
    obtain ⟨k, hk', hkx⟩ := List.any_eq_true.mp hins
    simp only [Bool.and_eq_true, beq_iff_eq] at hkx
    exact ⟨hlt, hkey, hkx.2 ▸ hk'⟩
  have hnew : ∀ u ∈ sched.order, h.cache.cridToGrid u = absent := fun u hu => (hmissed u hu).2.2
  obtain ⟨hnd, hfree⟩ := admit_fetches hfl hof hb hnew hms
  obtain ⟨-, hdirty, hland⟩ := @moves_frame _ e h ms
  refine ⟨.prepare hreach hk hcomplete hp, fun slot g => ?_, hland, ?_, hready.resident,
    fun he hrec g => ?_, fun g hg => ?_⟩
  · exact (congrFun (congrFun hdirty slot) g).trans (hun slot g)
  · refine hc.admitAt hfl hof hb hnew (fun x hx hins => ?_) hms
    obtain ⟨hlt, hkey, hins⟩ := hinserted x hx hins
    exact hfresh x.1 hkey hins hlt
  · exact admit_tags he hc.landed hrec hnd (fun x hx => (hfree x hx).2) g
  · have hg' : g ∈ p.cleared := hg
    rw [hof] at hg'
    obtain ⟨x, hx, rfl⟩ := List.mem_map.mp hg'
    obtain ⟨hx, hins⟩ := List.mem_filter.mp hx
    have hresident : p.cache.resident x.2 = x.1 := hb.resident x hx
    exact hresident.symm ▸ hinserted x hx hins

/-- Reclaim marks change nothing that the values depend on. -/
theorem Cached.marked {stale : Set ℕ} (hc : Cached cfg e stale h) (dead : List ℕ) :
    Cached cfg e stale ({ h with cache := markReclaimable cfg dead h.cache } : Hybrid V) := by
  have hres : (markReclaimable cfg dead h.cache).resident = h.cache.resident :=
    markReclaimable_resident dead h.cache
  refine ⟨hc.landed, fun g hg hne => ?_, fun g hg hne hst => ?_⟩
  · simp only [hres] at hne ⊢
    exact hc.tags g hg hne
  · simp only [hres] at hne ⊢
    exact hc.value g hg hne hst

theorem Hybrid.FlightResident.marked (hfl : h.FlightResident cfg) (dead : List ℕ) :
    ({ h with cache := markReclaimable cfg dead h.cache } : Hybrid V).FlightResident cfg := by
  intro x hx
  have hcrid : (markReclaimable cfg dead h.cache).cridToGrid = h.cache.cridToGrid := by
    simp only [markReclaimable]
    split <;> rfl
  simp only [hcrid]
  exact hfl x hx

/-- The staging of an epoch, from a stager that agrees with its landed store. -/
theorem Hybrid.Stages.staged {dead keys insertKeys : List ℕ}
    (hst : h.Stages cfg e dead keys insertKeys h') (hreach : Reachable cfg h.cache)
    (hun : h.Unmarked) (hc : Cached cfg e ∅ h) (hfl : h.FlightResident cfg) (hk : Keys cfg keys)
    (hfresh : ∀ u ∈ keys, u ∈ insertKeys → u < cfg.numUnits →
      (h.landed u).version1 = 0 ∧ (h.landed u).version2 = 0) :
    ∃ stale, Staged cfg e keys insertKeys stale h h' := by
  obtain ⟨sched, p, ms, hcomplete, hp, hms, rfl⟩ := hst
  refine ⟨{g | g ∈ p.cleared}, ?_⟩
  have hs := staged_of_prepare
    (h := ({ h with cache := markReclaimable cfg dead h.cache } : Hybrid V)) (.reclaim dead hreach)
    hun (hc.marked dead) (hfl.marked dead) hk hfresh hcomplete hp hms
  exact ⟨hs.reachable, hs.unmarked, hs.landed, hs.cached, hs.resident, hs.records, hs.stale⟩

/-- Needed records that fit the cache can be staged. -/
theorem Hybrid.exists_stages {keys : List ℕ} (hreach : Reachable cfg h.cache) (hk : Keys cfg keys)
    (hfits : (buildNeeded keys).length ≤ cfg.capacity) (hsome : keys ≠ [] ∨ cfg.tpcc = true)
    (e : ℕ) (dead insertKeys : List ℕ) : ∃ h', h.Stages cfg e dead keys insertKeys h' := by
  obtain ⟨hm, hcur⟩ := reachable_mapped (.reclaim dead hreach)
  obtain ⟨sched, hcomplete⟩ := exists_complete cfg keys (markReclaimable cfg dead h.cache)
  rcases prepareEpoch_cases hm hcur hk hcomplete insertKeys with ⟨hlt, -⟩ | ⟨hnil, hy, -⟩ | ⟨p, hp, -⟩
  · exact absurd hfits (Nat.not_le.mpr hlt)
  · rcases hsome with hne | ht
    · exact absurd hnil hne
    · rw [ht] at hy
      cases hy
  · refine ⟨_, sched, p, p.fetched.map fun x => .fetch x.1 x.2, hcomplete, hp, ?_, rfl⟩
    have hback : fetches (p.fetched.map fun x => CopyStep.fetch x.1 x.2) = p.fetched := by
      rw [fetches, List.filterMap_map]
      exact List.filterMap_some
    rw [hback]

/-- The worker's next store changes nothing that the values depend on. -/
theorem Cached.scatterNext {stale : Set ℕ} (hc : Cached cfg e stale h) :
    Cached cfg e stale h.scatterNext := by
  obtain ⟨hcache, hrecords, -⟩ := scatterNext_frame h
  refine ⟨fun u => ?_, fun g hg hne => ?_, fun g hg hne hst => ?_⟩
  · rw [scatterNext_landed]
    exact hc.landed u
  · rw [hcache] at hne ⊢
    rw [hrecords, scatterNext_landed]
    exact hc.tags g hg hne
  · rw [hcache] at hne ⊢
    rw [hrecords, scatterNext_landed]
    exact hc.value g hg hne hst

theorem Hybrid.FlightResident.scatterNext (hfl : h.FlightResident cfg) :
    h.scatterNext.FlightResident cfg := by
  obtain ⟨hcache, -, -⟩ := scatterNext_frame h
  intro x hx
  rw [hcache]
  exact hfl x (scatterNext_inflight hx)

theorem Staged.scatterNext {keys insertKeys : List ℕ} {stale : Set ℕ} {h₁ : Hybrid V}
    (hs : Staged cfg e keys insertKeys stale h₁ h) :
    Staged cfg e keys insertKeys stale h₁ h.scatterNext := by
  obtain ⟨hcache, hrecords, hdirty⟩ := scatterNext_frame h
  refine ⟨?_, ?_, (scatterNext_landed h).trans hs.landed, hs.cached.scatterNext, ?_, ?_, ?_⟩
  · rw [hcache]
    exact hs.reachable
  · rw [Hybrid.Unmarked, hdirty]
    exact hs.unmarked
  · rw [hcache]
    exact hs.resident
  · rw [hrecords]
    exact hs.records
  · rw [hcache]
    exact hs.stale

/-! ### Execution -/

theorem event_scatter (h : Hybrid V) : h.event cfg e .scatter = h.scatterNext := by
  cases hin : h.inflight <;> simp only [Hybrid.event, Hybrid.scatterNext, hin]

theorem Executed.scatterNext {W : ℕ → Option V} (hx : Executed cfg e W h h') :
    Executed cfg e W h h'.scatterNext := by
  obtain ⟨hcache, hrecords, hdirty⟩ := scatterNext_frame h'
  refine ⟨hcache.trans hx.cache, (scatterNext_landed h').trans hx.landed, ?_, ?_, ?_, hx.resident⟩
  · rw [hrecords]
    exact hx.kept
  · rw [hrecords]
    exact hx.written
  · rw [hdirty]
    exact hx.dirty

/-- The worker's stores before an epoch's writes. -/
theorem Executed.afterScatter {W : ℕ → Option V} (hx : Executed cfg e W h h') :
    Executed cfg e W h.scatterNext h' := by
  obtain ⟨hcache, hrecords, -⟩ := scatterNext_frame h
  refine ⟨hx.cache.trans hcache.symm, hx.landed.trans (scatterNext_landed h).symm, ?_, ?_, ?_, ?_⟩
  · rw [hcache, hrecords]
    exact hx.kept
  · rw [hcache, hrecords]
    exact hx.written
  · rw [hcache, hrecords]
    exact hx.dirty
  · rw [hcache]
    exact hx.resident

/-- Before the first write. -/
theorem executed_none (hun : h.Unmarked) : Executed cfg e (fun _ => none) h h where
  cache := rfl
  landed := rfl
  kept _ _ _ _ := rfl
  written _ _ _ _ hv := by cases hv
  dirty slot g := by simp [hun slot g]
  resident _ _ hv := by cases hv

/-- One more record written. -/
theorem Executed.write (hm : Mapped cfg h.cache) {W W' : ℕ → Option V}
    (hx : Executed cfg e W' h h') {u : ℕ} {v : V} (hnone : W' u = none) (hu : W u = some v)
    (hsame : ∀ w, w ≠ u → W w = W' w)
    (hres : u < cfg.numUnits ∧ h.cache.cridToGrid u ≠ absent) :
    Executed cfg e W h (h'.event cfg e (.write u v)) := by
  obtain ⟨hcap, hocc⟩ := hm.grid_of_crid u hres.1 hres.2
  have hne : h.cache.resident (h.cache.cridToGrid u) ≠ absent := by
    have := cfg.numUnits_le
    omega
  have hrec : h'.records (h.cache.cridToGrid u) = h.records (h.cache.cridToGrid u) :=
    hx.kept _ hcap hne (by rw [hocc, hnone])
  -- a slot of another record
  have hother : ∀ {g}, g < cfg.capacity → h.cache.resident g ≠ absent → g ≠ h.cache.cridToGrid u →
      h.cache.resident g ≠ u := by
    intro g hg hgne hgu he
    exact hgu (he ▸ (hm.crid_of_grid g hg hgne).2.symm)
  have hevent : h'.event cfg e (.write u v) =
      { h' with
        records := Function.update h'.records (h.cache.cridToGrid u)
          ((h.records (h.cache.cridToGrid u)).put e v (h.records (h.cache.cridToGrid u)).recordBSlot)
        dirty := Function.update h'.dirty (h.records (h.cache.cridToGrid u)).recordBSlot
          (Function.update (h'.dirty (h.records (h.cache.cridToGrid u)).recordBSlot)
            (h.cache.cridToGrid u) true) } := by
    have hlook : lookup cfg h'.cache.cridToGrid u = h.cache.cridToGrid u := by
      rw [hx.cache, lookup, if_pos hres.1]
    rw [Hybrid.event, hlook, Hybrid.writeRecordB, if_neg hres.2, hrec]
  rw [hevent]
  refine ⟨hx.cache, hx.landed, fun g hg hgne hno => ?_, fun g hg hgne w hw => ?_,
    fun slot g => ?_, fun w x hw => ?_⟩
  · have hgu : g ≠ h.cache.cridToGrid u := by
      intro he
      rw [he, hocc, hu] at hno
      cases hno
    simp only [Function.update_of_ne hgu]
    exact hx.kept g hg hgne (hsame _ (hother hg hgne hgu) ▸ hno)
  · by_cases hgu : g = h.cache.cridToGrid u
    · subst hgu
      rw [hocc, hu] at hw
      obtain rfl := Option.some.inj hw
      simp only [Function.update_self]
    · simp only [Function.update_of_ne hgu]
      exact hx.written g hg hgne w (hsame _ (hother hg hgne hgu) ▸ hw)
  · by_cases hgu : g = h.cache.cridToGrid u
    · subst hgu
      by_cases hs : slot = (h.records (h.cache.cridToGrid u)).recordBSlot
      · subst hs
        simp only [Function.update_self, hocc, hu, Option.isSome_some, and_true, true_iff]
        exact ⟨hcap, hocc ▸ hne⟩
      · have hold := hx.dirty slot (h.cache.cridToGrid u)
        simp only [Function.update_of_ne hs, hold, hs, and_false]
    · have hold := hx.dirty slot g
      have hflag : Function.update h'.dirty (h.records (h.cache.cridToGrid u)).recordBSlot
          (Function.update (h'.dirty (h.records (h.cache.cridToGrid u)).recordBSlot)
            (h.cache.cridToGrid u) true) slot g = h'.dirty slot g := by
        by_cases hs : slot = (h.records (h.cache.cridToGrid u)).recordBSlot
        · subst hs
          rw [Function.update_self, Function.update_of_ne hgu]
        · rw [Function.update_of_ne hs]
      simp only [hflag, hold]
      refine and_congr_right fun hg => and_congr_right fun hgne => ?_
      rw [hsame _ (hother hg hgne hgu)]
  · by_cases hwu : w = u
    · exact hwu ▸ hres
    · exact hx.resident w x (hsame w hwu ▸ hw)

/-- The writes of an epoch, in any order and with the worker's stores in between. -/
theorem executed_of_writes (hm : Mapped cfg h.cache) (hun : h.Unmarked) {es : List (Event V)} :
    ∀ {W : ℕ → Option V}, Performs W es →
      (∀ u v, W u = some v → u < cfg.numUnits ∧ h.cache.cridToGrid u ≠ absent) →
      Executed cfg e W h (h.execute cfg e es) := by
  induction es using List.reverseRecOn with
  | nil =>
    intro W hp hres
    have hW : W = fun _ => none := by
      funext u
      cases hu : W u with
      | none => rfl
      | some v => cases (hp.all u v).mp hu
    rw [hW]
    exact executed_none hun
  | append_singleton es x ih =>
    intro W hp hres
    rw [Hybrid.execute, List.foldl_append, List.foldl_cons, List.foldl_nil, ← Hybrid.execute]
    have hrunning : Event.syncFlush ∉ es := fun hmem => hp.running (List.mem_append_left _ hmem)
    cases x with
    | write u v =>
      have hwrites : writesOf (es ++ [Event.write u v]) = writesOf es ++ [(u, v)] := by
        rw [writesOf, List.filterMap_append]
        rfl
      have honce := hp.once
      rw [hwrites, List.map_append, List.nodup_append] at honce
      have hfirst : ∀ w, (u, w) ∉ writesOf es := fun w hmem =>
        honce.2.2 u (List.mem_map_of_mem hmem) u (by simp) rfl
      have hall : ∀ w x, Function.update W u none w = some x ↔ (w, x) ∈ writesOf es := by
        intro w x
        have hmem := hp.all w x
        rw [hwrites, List.mem_append, List.mem_singleton] at hmem
        by_cases hwu : w = u
        · subst hwu
          simp [hfirst]
        · rw [Function.update_of_ne hwu, hmem]
          simp [hwu]
      have hbefore : Executed cfg e (Function.update W u none) h (h.execute cfg e es) := by
        refine ih ⟨honce.1, hall, hrunning⟩ fun w x hw => hres w x ?_
        by_cases hwu : w = u
        · rw [hwu, Function.update_self] at hw
          cases hw
        · rwa [Function.update_of_ne hwu] at hw
      have hu : W u = some v := (hp.all u v).mpr (by rw [hwrites]; simp)
      exact hbefore.write hm (Function.update_self u none W) hu
        (fun w hw => (Function.update_of_ne hw none W).symm) (hres u v hu)
    | scatter =>
      have hwrites : writesOf (es ++ [Event.scatter]) = writesOf es := by
        rw [writesOf, List.filterMap_append]
        exact List.append_nil _
      rw [event_scatter]
      refine (ih ⟨?_, ?_, hrunning⟩ hres).scatterNext
      · rw [← hwrites]
        exact hp.once
      · rw [← hwrites]
        exact hp.all
    | syncFlush => exact absurd (List.mem_append_right es (by simp)) hp.running

/-- Writes alone leave the store to the worker, and the slots of no row as they are. -/
theorem execute_writes (hm : Mapped cfg h.cache) {ws : List (ℕ × V)}
    (hres : ∀ x ∈ ws, x.1 < cfg.numUnits ∧ h.cache.cridToGrid x.1 ≠ absent) :
    (h.execute cfg e (ws.map fun x => .write x.1 x.2)).cache = h.cache ∧
    (h.execute cfg e (ws.map fun x => .write x.1 x.2)).store = h.store ∧
    (h.execute cfg e (ws.map fun x => .write x.1 x.2)).inflight = h.inflight ∧
    ∀ g, ¬ (g < cfg.capacity ∧ h.cache.resident g ≠ absent) →
      (h.execute cfg e (ws.map fun x => .write x.1 x.2)).records g = h.records g := by
  induction ws using List.reverseRecOn with
  | nil => exact ⟨rfl, rfl, rfl, fun _ _ => rfl⟩
  | append_singleton ws x ih =>
    obtain ⟨hcache, hstore, hin, hrec⟩ := ih fun y hy => hres y (List.mem_append_left _ hy)
    obtain ⟨hlt, hne⟩ := hres x (by simp)
    obtain ⟨hcap, hocc⟩ := hm.grid_of_crid x.1 hlt hne
    rw [List.map_append, List.map_singleton, Hybrid.execute, List.foldl_append, List.foldl_cons,
      List.foldl_nil, ← Hybrid.execute, Hybrid.event, hcache, lookup, if_pos hlt, Hybrid.writeRecordB,
      if_neg hne]
    refine ⟨hcache, hstore, hin, fun g hg => ?_⟩
    have hgu : g ≠ h.cache.cridToGrid x.1 := by
      rintro rfl
      refine hg ⟨hcap, ?_⟩
      have := cfg.numUnits_le
      omega
    simp only [Function.update_of_ne hgu]
    exact hrec g hg

/-- Finitely many writes can be performed one after the other. -/
theorem exists_performs {W : ℕ → Option V} (us : List ℕ) (h : ∀ u v, W u = some v → u ∈ us) :
    ∃ ws : List (ℕ × V), Performs W (ws.map fun x => .write x.1 x.2) := by
  let ws := us.dedup.filterMap fun u => (W u).map (Prod.mk u)
  have hmem : ∀ u v, (u, v) ∈ ws ↔ W u = some v := by
    intro u v
    rw [List.mem_filterMap]
    constructor
    · rintro ⟨u', -, hu'⟩
      obtain ⟨v', hv', hpair⟩ := Option.map_eq_some_iff.mp hu'
      obtain ⟨rfl, rfl⟩ := Prod.mk.inj hpair
      exact hv'
    · exact fun hv => ⟨u, List.mem_dedup.mpr (h u v hv), by rw [hv]; rfl⟩
  have hwrites : writesOf (ws.map fun x => Event.write x.1 x.2) = ws := by
    rw [writesOf, List.filterMap_map]
    exact List.filterMap_some
  refine ⟨ws, ?_, fun u v => ?_, fun hmem => ?_⟩
  · have hfst : ws.map Prod.fst = us.dedup.filter fun u => (W u).isSome := by
      rw [List.map_filterMap, ← List.filterMap_eq_filter]
      congr 1
      funext u
      cases hu : W u <;> simp [Option.guard, hu]
    rw [hwrites, hfst]
    exact us.nodup_dedup.filter _
  · rw [hwrites]
    exact (hmem u v).symm
  · obtain ⟨x, -, hx⟩ := List.mem_map.mp hmem
    cases hx

/-- The tags of an epoch are its number. -/
theorem execute_tags (hb : ∀ g, (h.records g).TagsBelow e) (es : List (Event V)) (g : ℕ) :
    ((h.execute cfg e es).records g).TagsBelow (e + 1) := by
  have hstep : ∀ (h : Hybrid V) (x : Event V), (∀ g, (h.records g).TagsBelow (e + 1)) →
      ∀ g, ((h.event cfg e x).records g).TagsBelow (e + 1) := by
    intro h x hb g
    cases x with
    | write u v =>
      rw [Hybrid.event, Hybrid.writeRecordB]
      split
      · exact hb g
      · by_cases hg : g = lookup cfg h.cache.cridToGrid u
        · subst hg
          simp only [Function.update_self]
          exact (hb _).put (Nat.lt_succ_self e) _ _
        · simp only [Function.update_of_ne hg]
          exact hb g
    | scatter =>
      rw [event_scatter, (scatterNext_frame h).2.1]
      exact hb g
    | syncFlush => exact hb g
  have hall : ∀ (es : List (Event V)) (h : Hybrid V), (∀ g, (h.records g).TagsBelow (e + 1)) →
      ∀ g, ((h.execute cfg e es).records g).TagsBelow (e + 1) := by
    intro es
    induction es with
    | nil => exact fun h hb => hb
    | cons x es ih =>
      intro h hb
      rw [Hybrid.execute, List.foldl_cons, ← Hybrid.execute]
      exact ih _ (hstep h x hb)
  exact hall es h (fun g => (hb g).mono (Nat.le_succ e)) g

/-- An epoch's writes determine what it leaves. -/
theorem Executed.unique {W : ℕ → Option V} {h'' : Hybrid V} (hx : Executed cfg e W h h')
    (hx' : Executed cfg e W h h'') (hstore : h'.store = h''.store) (hin : h'.inflight = h''.inflight)
    (hout : ∀ g, ¬ (g < cfg.capacity ∧ h.cache.resident g ≠ absent) → h'.records g = h''.records g) :
    h' = h'' := by
  have hrecords : h'.records = h''.records := by
    funext g
    by_cases hg : g < cfg.capacity ∧ h.cache.resident g ≠ absent
    · cases hW : W (h.cache.resident g) with
      | none => rw [hx.kept g hg.1 hg.2 hW, hx'.kept g hg.1 hg.2 hW]
      | some v => rw [hx.written g hg.1 hg.2 v hW, hx'.written g hg.1 hg.2 v hW]
    · exact hout g hg
  have hdirty : h'.dirty = h''.dirty := by
    funext slot g
    exact Bool.eq_iff_iff.mpr ((hx.dirty slot g).trans (hx'.dirty slot g).symm)
  obtain ⟨c, r, d, st, i⟩ := h'
  obtain ⟨c', r', d', st', i'⟩ := h''
  obtain rfl : c = c' := hx.cache.trans hx'.cache.symm
  obtain rfl : r = r' := hrecords
  obtain rfl : d = d' := hdirty
  obtain rfl : st = st' := hstore
  obtain rfl : i = i' := hin
  rfl

/-! ### The worker at any moment -/

/-- A row with the write of epoch `m` in its older slot: one tag is `m`, and without it the row is as
    before. -/
theorem Rec.rollback_put {r : Rec V} {m : ℕ} (hb : r.TagsBelow m) (v : V) :
    ¬ (m ≤ (r.put m v r.recordBSlot).version1 ∧ m ≤ (r.put m v r.recordBSlot).version2) ∧
      ((r.put m v r.recordBSlot).rollback m).TagsBelow m ∧
      ((r.put m v r.recordBSlot).rollback m).latest = r.latest ∧
      (r.version1 = 0 ∧ r.version2 = 0 → ((r.put m v r.recordBSlot).rollback m).version1 = 0 ∧
        ((r.put m v r.recordBSlot).rollback m).version2 = 0) := by
  obtain ⟨h1, h2⟩ := hb
  have hm : 0 < m := Nat.zero_lt_of_lt h1
  rcases r.tags_cases with ⟨hl, hslot, hlt⟩ | ⟨hl, hslot, hlt⟩
  · have hback : (r.put m v .slot2).rollback m = ⟨r.version1, 0, r.value1, v⟩ := by
      simp [Rec.put, Rec.rollback, h1.not_ge]
    rw [hslot, hback]
    refine ⟨fun h => h1.not_ge h.1, ⟨h1, hm⟩, ?_, fun h => ⟨h.1, rfl⟩⟩
    rw [Rec.latest, Rec.latest, hl, Rec.latestSlot, if_neg (Nat.not_lt_zero _)]
    rfl
  · have hback : (r.put m v .slot1).rollback m = ⟨0, r.version2, v, r.value2⟩ := by
      simp [Rec.put, Rec.rollback, h2.not_ge]
    rw [hslot, hback]
    refine ⟨fun h => h2.not_ge h.2, ⟨hm, h2⟩, ?_, fun h => ⟨rfl, h.2⟩⟩
    rw [Rec.latest, Rec.latest, hl, Rec.latestSlot, if_pos (Nat.zero_lt_of_lt hlt)]
    rfl

section
variable {W : ℕ → Option V} {base : ℕ → Rec V}

/-- A moment of the flush depends on the store and on what is left of the flush. -/
theorem Flight.congr (hf : Flight e W base h) (hstore : h'.store = h.store)
    (hin : h'.inflight = h.inflight) : Flight e W base h' :=
  ⟨hf.tags, hstore ▸ hf.store, hin ▸ hf.inflight⟩

/-- The next store of the worker. -/
theorem Flight.scatterNext (hf : Flight e W base h) : Flight e W base h.scatterNext := by
  refine ⟨hf.tags, fun u => ?_, fun x hx => hf.inflight x (scatterNext_inflight hx)⟩
  rw [Hybrid.scatterNext]
  split
  · exact hf.store u
  · rename_i x rest hin
    obtain ⟨hW, hver, hslot⟩ := hf.inflight x (by rw [hin]; exact List.mem_cons_self)
    simp only [scatterEntry]
    split
    · exact hf.store u
    · by_cases hu : u = x.crid
      · -- the row gets its new value, perhaps again
        refine Or.inr ?_
        have hback : writeBack e W base x.crid = (base x.crid).put e x.value x.slot := by
          rw [writeBack, hW, hslot]
        subst hu
        rw [Function.update_self, hback, hver]
        rcases hf.store x.crid with hold | hold
        · rw [hold]
        · rw [hold, hback, Rec.put_put]
      · rw [Function.update_of_ne hu]
        exact hf.store u

/-- A flush starts over the landed store. -/
theorem Executed.flight {stale : Set ℕ} {order : List (Entry V)} (hx : Executed cfg e W h h')
    (hm : Mapped cfg h.cache) (hc : Cached cfg e stale h)
    (horder : ∀ x, x ∈ order ↔ x ∈ h'.flushSet cfg) :
    Flight e W h.landed (h'.flushInOrder cfg order) := by
  have hstore : (h'.flushInOrder cfg order).store = h.landed := by
    rw [← hx.landed]
    rfl
  refine ⟨hc.landed, fun u => Or.inl (congrFun hstore u), fun x hx' => ?_⟩
  obtain ⟨v, hW, hgrid, hslot, hver, hval⟩ := (hx.mem_flushSet hm).mp ((horder x).mp hx')
  obtain ⟨hlt, hne⟩ := hx.resident x.crid v hW
  obtain ⟨hcap, hres⟩ := hm.grid_of_crid x.crid hlt hne
  have hocc : h.cache.resident (h.cache.cridToGrid x.crid) ≠ absent := by
    have := cfg.numUnits_le
    omega
  have htags := (hc.tags _ hcap hocc).recordBSlot
  rw [hres] at htags
  exact ⟨hval ▸ hW, hver, by rw [hslot, hgrid, htags]⟩

end

end Egad.Stager
