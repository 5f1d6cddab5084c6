import Egad.Stager.Mapping
import Egad.Ycsb.ShadowIndex
import Egad.Tpcc.RecoverIndexes

/-! # Reclaim flags (`reclaim_flags.cuh`, `tpcc_hybrid_executor.cu`)

    A slot's flag says that its occupant is dead. Three components touch the flags:

        index     mark_reclaimable   the records the epoch deletes, through cridToGrid
        executor  Delivery           an order line, at its remapped slot
        stager    rename             cleared, the slot has a new occupant

    A slot of the ring has no occupant, and nobody flags it. So along every run a flag stands only
    over a record that died, and a dead record never comes back: the index mints no id twice. -/

namespace Egad.Stager
open Egad.Lib

variable (cfg : Config)

/-- The mark of the Delivery executor on an order line, whose id the remap turned into a slot; the
    flag array is null in a stager without reclaim flags. -/
def markDelivered (crid : ℕ) (c : Cache) : Cache :=
  if cfg.reclaimActive = true ∧ lookup cfg c.cridToGrid crid ≠ absent then
    { c with reclaimFlag := Function.update c.reclaimFlag (lookup cfg c.cridToGrid crid) true }
  else c

/-- Every flagged slot is a slot of the cache whose occupant is in `dead`. -/
structure FlagsDead (dead : Set ℕ) (c : Cache) : Prop where
  active : ∀ g, c.reclaimFlag g = true → cfg.reclaimActive = true
  slot : ∀ g, c.reclaimFlag g = true → g < cfg.capacity
  occupied : ∀ g, c.reclaimFlag g = true → c.resident g ≠ absent
  dead : ∀ g, c.reclaimFlag g = true → c.resident g ∈ dead

/-- A slot flagged afterwards was flagged before, and has kept its occupant. -/
structure Unflags (c c' : Cache) : Prop where
  flag : ∀ g, c'.reclaimFlag g = true → c.reclaimFlag g = true
  keeps : ∀ g, c'.reclaimFlag g = true → c.resident g ≠ absent → c'.resident g = c.resident g

variable {cfg} {c c' : Cache} {dead : Set ℕ}

theorem Unflags.trans {c'' : Cache} (h : Unflags c c') (h' : Unflags c' c'') : Unflags c c'' := by
  refine ⟨fun g hg => h.flag g (h'.flag g hg), fun g hg hne => ?_⟩
  have hkeep := h.keeps g (h'.flag g hg) hne
  rw [h'.keeps g hg (hkeep ▸ hne), hkeep]

theorem FlagsDead.unflags (h : FlagsDead cfg dead c) (hu : Unflags c c') : FlagsDead cfg dead c' := by
  have hkeep : ∀ g, c'.reclaimFlag g = true → c'.resident g = c.resident g := fun g hg =>
    hu.keeps g hg (h.occupied g (hu.flag g hg))
  refine ⟨fun g hg => h.active g (hu.flag g hg), fun g hg => h.slot g (hu.flag g hg), ?_, ?_⟩
  · intro g hg
    rw [hkeep g hg]
    exact h.occupied g (hu.flag g hg)
  · intro g hg
    rw [hkeep g hg]
    exact h.dead g (hu.flag g hg)

theorem FlagsDead.mono {dead' : Set ℕ} (h : FlagsDead cfg dead c) (hsub : dead ⊆ dead') :
    FlagsDead cfg dead' c :=
  ⟨h.active, h.slot, h.occupied, fun g hg => hsub (h.dead g hg)⟩

/-! ### Marks -/

/-- Flagging the slot of a resident record of the table. -/
theorem FlagsDead.mark (hm : Mapped cfg c) (h : FlagsDead cfg dead c) (hact : cfg.reclaimActive = true)
    {crid : ℕ} (hlt : crid < cfg.numUnits) (hne : c.cridToGrid crid ≠ absent) (hdead : crid ∈ dead) :
    FlagsDead cfg dead
      { c with reclaimFlag := Function.update c.reclaimFlag (c.cridToGrid crid) true } := by
  obtain ⟨hslot, hres⟩ := hm.grid_of_crid crid hlt hne
  have hcases : ∀ g, Function.update c.reclaimFlag (c.cridToGrid crid) true g = true →
      g = c.cridToGrid crid ∨ c.reclaimFlag g = true := by
    intro g hg
    rcases eq_or_ne g (c.cridToGrid crid) with he | he
    · exact Or.inl he
    · rw [Function.update_of_ne he] at hg
      exact Or.inr hg
  refine ⟨fun _ _ => hact, fun g hg => ?_, fun g hg => ?_, fun g hg => ?_⟩
  · rcases hcases g hg with rfl | hg
    · exact hslot
    · exact h.slot g hg
  · rcases hcases g hg with rfl | hg
    · have := cfg.numUnits_le
      simp only [hres]
      omega
    · exact h.occupied g hg
  · rcases hcases g hg with rfl | hg
    · simp only [hres]
      exact hdead
    · exact h.dead g hg

theorem Mapped.of_flags (hm : Mapped cfg c) (flag : ℕ → Bool) :
    Mapped cfg { c with reclaimFlag := flag } :=
  ⟨hm.head_le, hm.ring_nodup, hm.ring_lt, hm.ring_empty, hm.ring_or_resident, hm.grid_of_crid,
    hm.crid_of_grid⟩

theorem FlagsDead.markByCrids (hm : Mapped cfg c) (hact : cfg.reclaimActive = true) {crids : List ℕ}
    (hdead : ∀ r ∈ crids, r ∈ dead) : ∀ {flag : ℕ → Bool},
    FlagsDead cfg dead { c with reclaimFlag := flag } → FlagsDead cfg dead
      { c with reclaimFlag := markReclaimByCrids cfg crids c.cridToGrid flag } := by
  induction crids with
  | nil => exact fun h => h
  | cons crid crids ih =>
    intro flag h
    rw [markReclaimByCrids, List.foldl_cons]
    refine ih (fun r hr => hdead r (List.mem_cons_of_mem _ hr)) ?_
    -- a thread whose record is not resident leaves the flags alone
    split
    · exact h
    · rename_i hguard
      split
      · rename_i hgrid
        exact h.mark (hm.of_flags flag) hact (by omega) hgrid.1 (hdead crid (List.mem_cons_self ..))
      · exact h

theorem FlagsDead.markReclaimable (hm : Mapped cfg c) (h : FlagsDead cfg dead c) {crids : List ℕ}
    (hdead : ∀ r ∈ crids, r ∈ dead) : FlagsDead cfg dead (markReclaimable cfg crids c) := by
  rw [Stager.markReclaimable]
  split
  · rename_i hact
    exact FlagsDead.markByCrids hm hact hdead h
  · exact h

theorem FlagsDead.markDelivered (hm : Mapped cfg c) (h : FlagsDead cfg dead c) {crid : ℕ}
    (hdead : crid ∈ dead) : FlagsDead cfg dead (markDelivered cfg crid c) := by
  rw [Stager.markDelivered]
  split
  · rename_i hguard
    have hlt : crid < cfg.numUnits := by
      by_contra hge
      rw [lookup, if_neg hge] at hguard
      exact hguard.2 rfl
    rw [lookup, if_pos hlt] at hguard ⊢
    exact h.mark hm hguard.1 hlt hguard.2 hdead
  · exact h

/-! ### Clears -/

/-- The flag of a cleared slot is down, the others stay as they were. -/
theorem clearReclaimByGrids_true {g : ℕ} : ∀ {grids : List ℕ} {flag : ℕ → Bool},
    clearReclaimByGrids cfg grids flag g = true →
    flag g = true ∧ (g < cfg.capacity → g ∉ grids)
  | [], _, h => ⟨h, fun _ => List.not_mem_nil⟩
  | x :: grids, flag, h => by
    rw [clearReclaimByGrids, List.foldl_cons] at h
    obtain ⟨hflag, hnot⟩ := clearReclaimByGrids_true h
    split at hflag
    · rcases eq_or_ne g x with rfl | hne
      · rw [Function.update_self] at hflag
        exact absurd hflag Bool.false_ne_true
      · rw [Function.update_of_ne hne] at hflag
        exact ⟨hflag, fun hg hm => (List.mem_cons.mp hm).elim hne (hnot hg)⟩
    · rename_i hguard
      refine ⟨hflag, fun hg hm => (List.mem_cons.mp hm).elim (fun he => hguard ?_) (hnot hg)⟩
      have := cfg.capacity_lt_absent
      exact ⟨by omega, by omega⟩

/-- Slots that get a record without being cleared had none. -/
theorem setGridToCrid_of_notMem {grids crids : List ℕ} {resident : ℕ → ℕ} {g : ℕ} (h : g ∉ grids) :
    setGridToCrid grids crids resident g = resident g := by
  rw [setGridToCrid]
  refine foldl_update_of_notMem _ _ fun hm => h ?_
  obtain ⟨x, hx, rfl⟩ := List.mem_map.mp hm
  exact (List.of_mem_zip hx).1

/-- A popped slot has no occupant. -/
theorem Mapped.popped_empty (hm : Mapped cfg c) {n g : ℕ} (hg : g ∈ (ringPop cfg n c).1) :
    c.resident g = absent := by
  rw [ringPop_fst] at hg
  exact hm.ring_empty g (List.mem_of_mem_take hg)

theorem rename_unflags {keys : List ℕ} {deficit : ℕ} {vs : List (ℕ × ℕ)}
    (hv : Victims cfg c keys deficit vs) (hact : ∀ g, c.reclaimFlag g = true → cfg.reclaimActive = true)
    (new : List ℕ) (cursor : ℕ) :
    Unflags c (rename cfg vs new { c with fifoNextGrid := cursor }) := by
  have hclear : ∀ g, (rename cfg vs new { c with fifoNextGrid := cursor }).reclaimFlag g = true →
      c.reclaimFlag g = true ∧ (g < cfg.capacity → g ∉ vs.map Prod.fst) := by
    intro g hg
    rw [rename] at hg
    dsimp only at hg
    split at hg
    · exact clearReclaimByGrids_true hg
    · rename_i hoff
      exact absurd (hact g hg) hoff
  refine ⟨fun g hg => (hclear g hg).1, fun g hg _ => setGridToCrid_of_notMem fun hmem => ?_⟩
  obtain ⟨v, hv', rfl⟩ := List.mem_map.mp hmem
  exact (hclear _ hg).2 (hv.slot v hv') hmem

theorem admitRest_unflags (hm : Mapped cfg c) (new : List ℕ) : Unflags c (admitRest cfg new c).2 := by
  refine ⟨fun g hg => ?_, fun g _ hne => setGridToCrid_of_notMem fun hmem => ?_⟩
  · rw [admitRest] at hg
    dsimp only at hg
    split at hg
    · exact (clearReclaimByGrids_true hg).1
    · exact hg
  · exact hne (hm.popped_empty hmem)

/-- Preparing an epoch moves no flag to another record: it clears the flags of the slots it renames,
    and the slots it pops have none. -/
theorem prepareEpoch_unflags (hm : Mapped cfg c)
    (hcur : 0 < cfg.capacity → c.fifoNextGrid < cfg.capacity)
    (hact : ∀ g, c.reclaimFlag g = true → cfg.reclaimActive = true) {keys insertKeys : List ℕ}
    (hk : Keys cfg keys) {sched : Schedule} (hs : sched.Complete cfg keys c) {p : Prepared}
    (hp : prepareEpoch cfg sched keys insertKeys c = .ok p) : Unflags c p.cache := by
  simp only [prepareEpoch] at hp
  split at hp
  · cases hp
  rename_i hfits
  split at hp
  · cases hp
  split at hp
  · cases hp
    exact ⟨fun _ h => h, fun _ _ _ => rfl⟩
  rename_i hnew
  split at hp
  · rw [admitFree] at hp
    dsimp only at hp
    split at hp
    · cases hp
    · cases hp
      refine ⟨fun _ h => h, fun g _ hne => setGridToCrid_of_notMem fun hmem => ?_⟩
      exact hne (hm.popped_empty hmem)
  · rename_i hfree
    have hlt := Nat.lt_of_not_le hfree
    have hn := Nat.le_of_not_lt hfits
    have hcap : 0 < cfg.capacity := by
      have h1 := hs.order.length_eq
      have h2 : (missed cfg c (buildNeeded keys)).length ≤ (buildNeeded keys).length :=
        List.length_filter_le _ _
      omega
    obtain ⟨vs, cursor, hcollect, -, hv⟩ := collect_victims hm (hcur hcap) hk hn hs hlt
    simp only [evict, hcollect] at hp
    generalize hd : sched.order.length - c.freeSlots = d at hv hp
    have htake : (sched.order.take d).length = d := by
      rw [List.length_take]
      omega
    have hrename := rename_unflags hv hact (sched.order.take d) cursor
    have hren := (rename_admits hm ((hs.fresh hk).sublist (List.take_sublist d _))
      (htake.symm ▸ hv) cursor).1.mapped
    split at hp
    · cases hp
      exact hrename
    · cases hp
      exact hrename.trans (admitRest_unflags hren _)

/-! ### Runs -/

variable (cfg) in
/-- What a run keeps of the cache: the mapping, the cursor, and flags over dead records only. -/
structure Kept (dead : Set ℕ) (c : Cache) : Prop where
  mapped : Mapped cfg c
  cursor : 0 < cfg.capacity → c.fifoNextGrid < cfg.capacity
  flags : FlagsDead cfg dead c

theorem initial_kept : Kept cfg dead (Cache.initial cfg) :=
  ⟨initial_mapped, fun h => h, fun _ h => absurd h Bool.false_ne_true,
    fun _ h => absurd h Bool.false_ne_true, fun _ h => absurd h Bool.false_ne_true,
    fun _ h => absurd h Bool.false_ne_true⟩

theorem prewarm_flag (W g : ℕ) : (prewarm cfg W (Cache.initial cfg)).reclaimFlag g = false := by
  rw [prewarm]
  split
  · rfl
  · dsimp only
    split <;> rfl

theorem prewarm_kept {W : ℕ} (hW : W * 10 * 45000 ≤ cfg.numUnits) :
    Kept cfg dead (prewarm cfg W (Cache.initial cfg)) := by
  obtain ⟨hm, hc⟩ := prewarm_mapped hW
  have hno : ∀ g, (prewarm cfg W (Cache.initial cfg)).reclaimFlag g ≠ true := by
    intro g
    rw [prewarm_flag]
    exact Bool.false_ne_true
  exact ⟨hm, fun h => hc ▸ h, fun g h => absurd h (hno g), fun g h => absurd h (hno g),
    fun g h => absurd h (hno g), fun g h => absurd h (hno g)⟩

theorem Kept.mono {dead' : Set ℕ} (h : Kept cfg dead c) (hsub : dead ⊆ dead') : Kept cfg dead' c :=
  ⟨h.mapped, h.cursor, h.flags.mono hsub⟩

theorem Kept.markReclaimable (h : Kept cfg dead c) {crids : List ℕ} (hdead : ∀ r ∈ crids, r ∈ dead) :
    Kept cfg dead (markReclaimable cfg crids c) := by
  refine ⟨?_, ?_, h.flags.markReclaimable h.mapped hdead⟩
  · rw [Stager.markReclaimable]
    split
    · exact h.mapped.of_flags _
    · exact h.mapped
  · rw [Stager.markReclaimable]
    split
    · exact h.cursor
    · exact h.cursor

theorem Kept.markDelivered (h : Kept cfg dead c) {crid : ℕ} (hdead : crid ∈ dead) :
    Kept cfg dead (markDelivered cfg crid c) := by
  refine ⟨?_, ?_, h.flags.markDelivered h.mapped hdead⟩
  · rw [Stager.markDelivered]
    split
    · exact h.mapped.of_flags _
    · exact h.mapped
  · rw [Stager.markDelivered]
    split
    · exact h.cursor
    · exact h.cursor

theorem Kept.prepare (h : Kept cfg dead c) {sched : Schedule} {keys insertKeys : List ℕ}
    (hk : Keys cfg keys) (hs : sched.Complete cfg keys c) {p : Prepared}
    (hp : prepareEpoch cfg sched keys insertKeys c = .ok p) : Kept cfg dead p.cache := by
  have hflags := h.flags.unflags
    (prepareEpoch_unflags h.mapped h.cursor h.flags.active hk hs hp)
  rcases prepareEpoch_cases h.mapped h.cursor hk hs insertKeys with ⟨-, he⟩ | ⟨-, -, he⟩ | ⟨p', he, hr⟩
  · rw [hp] at he
    cases he
  · rw [hp] at he
    cases he
  · rw [hp] at he
    cases he
    exact ⟨hr.mapped, hr.cursor, hflags⟩

/-- The slots of the ring are not flagged. -/
theorem Kept.ring_unflagged (h : Kept cfg dead c) {g : ℕ} (hg : g ∈ c.ring cfg) :
    c.reclaimFlag g = false := by
  by_contra hf
  exact h.flags.occupied g (Bool.eq_true_of_not_eq_false hf) (h.mapped.ring_empty g hg)

variable (cfg) in
/-- The YCSB cache with its index: an epoch is indexed and its deleted records are marked (only a mix
    with deletes asks for it), then the cache is prepared. -/
inductive YcsbRun (ycsb : Ycsb.Config) : Ycsb.GpuIndex → Cache → Prop
  | initial (log : Ycsb.DurableLog) (entryCrid : ℕ → ℕ) :
    YcsbRun ycsb (.init ycsb log entryCrid) (Cache.initial cfg)
  | index {g g' : Ycsb.GpuIndex} {c : Cache} {slots : List Ycsb.Slot}
    {r : Ycsb.Index × Ycsb.EpochOut} : YcsbRun ycsb g c → Ycsb.EpochOk ycsb slots →
    Ycsb.indexTxns ycsb g.index slots = .ok r → g.indexTxns ycsb slots = .ok g' →
    YcsbRun ycsb g' (if 0 < ycsb.numDeletes then markReclaimable cfg r.2.edelCrids c else c)
  | prepare {g : Ycsb.GpuIndex} {c : Cache} {sched : Schedule} {keys insertKeys : List ℕ}
    {p : Prepared} : YcsbRun ycsb g c → Keys cfg keys → sched.Complete cfg keys c →
    prepareEpoch cfg sched keys insertKeys c = .ok p → YcsbRun ycsb g p.cache

variable (cfg) in
/-- The NewOrder cache with the indexes: only a mix with deliveries deletes NewOrder rows and marks
    them. -/
inductive NewOrderRun (tpcc : Tpcc.Config) (deletePath : Bool) : Tpcc.GpuIndex → Cache → Prop
  | initial (durable : Tpcc.Durable) (entryCrid : ℕ → ℕ) :
    NewOrderRun tpcc deletePath (.init tpcc durable entryCrid) (Cache.initial cfg)
  | index {g g' : Tpcc.GpuIndex} {c : Cache} {txns : List Tpcc.TpccTxn}
    {r : Tpcc.Index × Tpcc.EpochOut} : NewOrderRun tpcc deletePath g c →
    Tpcc.Generated tpcc deletePath txns → Tpcc.Room g.index txns.length →
    Tpcc.indexTxns deletePath g.index txns = .ok r → g.indexTxns deletePath txns = .ok g' →
    NewOrderRun tpcc deletePath g' (if deletePath then markReclaimable cfg r.2.edelCrids c else c)
  | prepare {g : Tpcc.GpuIndex} {c : Cache} {sched : Schedule} {keys insertKeys : List ℕ}
    {p : Prepared} : NewOrderRun tpcc deletePath g c → Keys cfg keys → sched.Complete cfg keys c →
    prepareEpoch cfg sched keys insertKeys c = .ok p → NewOrderRun tpcc deletePath g p.cache

variable (cfg) in
/-- The OrderLine cache, perhaps pre-warmed, with the order lines delivered so far. -/
inductive OrderLineRun : List ℕ → Cache → Prop
  | initial : OrderLineRun [] (Cache.initial cfg)
  | prewarm {W : ℕ} : W * 10 * 45000 ≤ cfg.numUnits →
    OrderLineRun [] (prewarm cfg W (Cache.initial cfg))
  | prepare {delivered : List ℕ} {c : Cache} {sched : Schedule} {keys insertKeys : List ℕ}
    {p : Prepared} : OrderLineRun delivered c → Keys cfg keys → sched.Complete cfg keys c →
    prepareEpoch cfg sched keys insertKeys c = .ok p → OrderLineRun delivered p.cache
  | deliver {delivered : List ℕ} {c : Cache} (crid : ℕ) : OrderLineRun delivered c →
    OrderLineRun (crid :: delivered) (markDelivered cfg crid c)

/-- The records the YCSB delete log holds. -/
def deletedRecords (g : Ycsb.GpuIndex) : Set ℕ :=
  {crid | ∃ i < g.deleteCount, g.log.deleteCrids i = crid}

/-- The rows the NewOrder delete log holds. -/
def deletedNewOrders (g : Tpcc.GpuIndex) : Set ℕ :=
  {crid | ∃ i < g.noDeleteCount, g.durable.noDeleteCrids i = crid}

section ycsb
open Egad.Ycsb
variable {ycsb : Ycsb.Config}

/-- The epoch's deleted records are the new entries of the delete log. -/
theorem edelCrids_logged {g g' : Ycsb.GpuIndex} {j : Journal ℕ} {slots : List Ycsb.Slot}
    {r : Ycsb.Index × Ycsb.EpochOut} (hg : Ycsb.Logged ycsb g j) (hok : EpochOk ycsb slots)
    (hr : Ycsb.indexTxns ycsb g.index slots = .ok r) (hg' : g.indexTxns ycsb slots = .ok g') {crid : ℕ}
    (hmem : crid ∈ r.2.edelCrids) : crid ∈ deletedRecords g' := by
  obtain ⟨idx, out, hidx, rfl⟩ := Ycsb.indexTxns_ok hg'
  rw [hr] at hidx
  obtain rfl := Except.ok.inj hidx
  have hlen : out.edelCrids.length = out.edelKeys.length := by
    rw [(Ycsb.indexTxns_spec hg.wf hok hr).out]
    simp [serialOut]
  have hcopy : crid ∈ (List.range (g.deleteCount + out.edelKeys.length)).map
      (copyAt g.log.deleteCrids g.deleteCount out.edelCrids) := by
    rw [← hlen, copyAt_range]
    exact List.mem_append_right _ hmem
  obtain ⟨i, hi, he⟩ := List.mem_map.mp hcopy
  exact ⟨i, List.mem_range.mp hi, he⟩

theorem ycsbRun_kept (hrows : ycsb.startingNumRecords ≤ ycsb.numRecords)
    (hids : ycsb.numRecords ≤ Timeline.kAbsent) {g : Ycsb.GpuIndex} (h : YcsbRun cfg ycsb g c) :
    (∃ j, Ycsb.Logged ycsb g j) ∧ Kept cfg (deletedRecords g) c := by
  induction h with
  | initial log entryCrid => exact ⟨⟨_, Ycsb.logged_init hrows hids log entryCrid⟩, initial_kept⟩
  | @index g g' c slots r _ hok hr hg' ih =>
    obtain ⟨⟨j, hlog⟩, hkept⟩ := ih
    obtain ⟨-, hdel, -, hcount⟩ := Ycsb.keeps_step hlog hok hg'
    have hsub : deletedRecords g ⊆ deletedRecords g' := by
      rintro crid ⟨i, hi, rfl⟩
      exact ⟨i, hi.trans_le hcount, (hdel i hi).2⟩
    refine ⟨⟨_, Ycsb.logged_step hlog hok hg'⟩, ?_⟩
    split
    · exact (hkept.mono hsub).markReclaimable fun crid hmem => edelCrids_logged hlog hok hr hg' hmem
    · exact hkept.mono hsub
  | prepare _ hk hs hp ih => exact ⟨ih.1, ih.2.prepare hk hs hp⟩

end ycsb

section tpcc
open Egad.Tpcc
variable {tpcc : Tpcc.Config} {deletePath : Bool}

theorem edelCrids_logged_newOrder {g g' : Tpcc.GpuIndex} {js : Journals} {txns : List TpccTxn}
    {r : Tpcc.Index × Tpcc.EpochOut} (hg : Tpcc.Logged tpcc g js)
    (hgen : Generated tpcc deletePath txns) (hroom : Room g.index txns.length)
    (hr : Tpcc.indexTxns deletePath g.index txns = .ok r) (hg' : g.indexTxns deletePath txns = .ok g')
    {crid : ℕ} (hmem : crid ∈ r.2.edelCrids) : crid ∈ deletedNewOrders g' := by
  obtain ⟨o, no, ol, ho, hno, hol, rfl⟩ := Tpcc.indexTxns_ok hr
  obtain ⟨o', no', ol', ho', hno', hol', rfl⟩ := indexTxns_tables hg'
  rw [hno] at hno'
  obtain rfl := Except.ok.inj hno'
  have hlen : no.2.edelCrids.length = no.2.edelKeys.length := by
    have hfits : RowsFit (newOrderInput deletePath txns) g.index.newOrder := by
      have h1 := @newOrder_inserts_le deletePath txns
      have h2 := hroom.newOrder
      unfold RowsFit
      omega
    obtain ⟨hspec, -⟩ := tableEpoch_spec
      (newOrderInput_ok (fun t ht => (hgen.each t ht).1) hgen.numbered.count hg.newOrderCuco)
      hg.newOrder.ok hfits hno
    rw [hspec.edelKeys, hspec.edelCrids]
    simp
  have hcopy : crid ∈ (List.range (g.noDeleteCount + no.2.edelKeys.length)).map
      (copyAt g.durable.noDeleteCrids g.noDeleteCount no.2.edelCrids) := by
    rw [← hlen, copyAt_range]
    exact List.mem_append_right _ hmem
  obtain ⟨i, hi, he⟩ := List.mem_map.mp hcopy
  exact ⟨i, List.mem_range.mp hi, he⟩

theorem newOrderRun_kept (hW : tpcc.numWarehouses < 2 ^ 8)
    (hfits : tpcc.numWarehouses * 10 * 3000 * 15 ≤ Timeline.kAbsent) {g : Tpcc.GpuIndex}
    (h : NewOrderRun cfg tpcc deletePath g c) :
    (∃ js, Tpcc.Logged tpcc g js) ∧ Kept cfg (deletedNewOrders g) c := by
  induction h with
  | initial durable entryCrid =>
    exact ⟨⟨_, Tpcc.logged_init hW hfits durable entryCrid⟩, initial_kept⟩
  | @index g g' c txns r _ hgen hroom hr hg' ih =>
    obtain ⟨⟨js, hlog⟩, hkept⟩ := ih
    obtain ⟨js', hlog', -, -, hkeep⟩ :=
      Tpcc.logged_step hlog hgen.numbered (show Room g.index (txns.length + 0) from hroom) hg'
    have hsub : deletedNewOrders g ⊆ deletedNewOrders g' := by
      rintro crid ⟨i, hi, rfl⟩
      exact ⟨i, hi.trans_le hkeep.delStart, (hkeep.del i hi).2⟩
    refine ⟨⟨js', hlog'⟩, ?_⟩
    split
    · exact (hkept.mono hsub).markReclaimable fun crid hmem =>
        edelCrids_logged_newOrder hlog hgen hroom hr hg' hmem
    · exact hkept.mono hsub
  | prepare _ hk hs hp ih => exact ⟨ih.1, ih.2.prepare hk hs hp⟩

theorem orderLineRun_kept {delivered : List ℕ} (h : OrderLineRun cfg delivered c) :
    Kept cfg {crid | crid ∈ delivered} c := by
  induction h with
  | initial => exact initial_kept
  | prewarm hW => exact prewarm_kept hW
  | prepare _ hk hs hp ih => exact ih.prepare hk hs hp
  | deliver crid _ ih =>
    have hsub := ih.mono fun r hr => List.mem_cons_of_mem crid hr
    exact hsub.markDelivered (List.mem_cons_self ..)

end tpcc

/-- Along every run of the three caches that use reclaim flags, a flagged slot holds a dead record: in
    the YCSB and NewOrder caches one that the delete log names and that no key leads to any more, in
    the OrderLine cache a delivered order line. No slot of the ring is flagged. -/
theorem reclaim_flags_dead {ycsb : Ycsb.Config} {tpcc : Tpcc.Config} {deletePath : Bool}
    (hrows : ycsb.startingNumRecords ≤ ycsb.numRecords) (hids : ycsb.numRecords ≤ Timeline.kAbsent)
    (hW : tpcc.numWarehouses < 2 ^ 8)
    (hfits : tpcc.numWarehouses * 10 * 3000 * 15 ≤ Timeline.kAbsent) :
    (∀ g c, YcsbRun cfg ycsb g c →
      (∀ s, c.reclaimFlag s = true → c.resident s ∈ deletedRecords g ∧
        ∀ k, g.index.map k ≠ c.resident s) ∧
      ∀ s ∈ c.ring cfg, c.reclaimFlag s = false) ∧
    (∀ g c, NewOrderRun cfg tpcc deletePath g c →
      (∀ s, c.reclaimFlag s = true → c.resident s ∈ deletedNewOrders g ∧
        ∀ k, g.index.newOrder.store.lookup k ≠ c.resident s) ∧
      ∀ s ∈ c.ring cfg, c.reclaimFlag s = false) ∧
    (∀ delivered c, OrderLineRun cfg delivered c →
      (∀ s, c.reclaimFlag s = true → c.resident s ∈ delivered) ∧
      ∀ s ∈ c.ring cfg, c.reclaimFlag s = false) := by
  refine ⟨fun g c h => ?_, fun g c h => ?_, fun delivered c h => ?_⟩
  · obtain ⟨⟨j, hlog⟩, hkept⟩ := ycsbRun_kept hrows hids h
    refine ⟨fun s hs => ⟨hkept.flags.dead s hs, fun k => ?_⟩, fun s hs => hkept.ring_unflagged hs⟩
    obtain ⟨i, hi, he⟩ := hkept.flags.dead s hs
    rw [← he, hlog.live]
    refine hlog.inv.ended_not_live (show (g.log.deleteKeys i, g.log.deleteCrids i) ∈ j.ended from ?_) k
    rw [hlog.ended]
    exact List.mem_map.mpr ⟨i, List.mem_range.mpr hi, rfl⟩
  · obtain ⟨⟨js, hlog⟩, hkept⟩ := newOrderRun_kept hW hfits h
    refine ⟨fun s hs => ⟨hkept.flags.dead s hs, fun k => ?_⟩, fun s hs => hkept.ring_unflagged hs⟩
    obtain ⟨i, hi, he⟩ := hkept.flags.dead s hs
    rw [← he, hlog.newOrder.live]
    refine hlog.newOrder.inv.ended_not_live
      (show (g.durable.noDeleteKeys i, g.durable.noDeleteCrids i) ∈ js.no.ended from ?_) k
    rw [hlog.newOrder.ended]
    exact List.mem_map.mpr ⟨i, List.mem_range.mpr hi, rfl⟩
  · have hkept := orderLineRun_kept h
    exact ⟨hkept.flags.dead, fun s hs => hkept.ring_unflagged hs⟩

/-- One slot: record 0 is brought in and deleted in the next epoch, its slot is flagged; an order
    line that is delivered likewise. -/
theorem reclaim_flags_dead_one_slot :
    let cfg : Config := ⟨1, 8, false, true, by decide, by decide⟩
    (∃ g c s, YcsbRun cfg Ycsb.smallConfig g c ∧ c.reclaimFlag s = true ∧
      c.resident s ∈ deletedRecords g ∧ ∀ k, g.index.map k ≠ c.resident s) ∧
    (∃ c s, OrderLineRun cfg [0] c ∧ c.reclaimFlag s = true ∧ c.resident s ∈ [0]) := by
  intro cfg
  have hdead := @reclaim_flags_dead cfg Ycsb.smallConfig (Tpcc.oneWarehouse true) true (by decide)
    (by decide) (by decide) (by decide)
  have hk : Keys cfg [0] := fun k hk => Or.inl (by simp_all [cfg])
  obtain ⟨sched, hs⟩ := exists_complete cfg [0] (Cache.initial cfg)
  obtain ⟨p, hp, hr⟩ := prepareEpoch_ready initial_mapped (fun h => h) hk (by decide) (by decide) hs []
  have hne := hr.resident 0 (by simp) (by decide)
  have hlt := (hr.mapped.grid_of_crid 0 (by decide) hne).1
  refine ⟨?_, ?_⟩
  · obtain ⟨x, hx⟩ : ∃ x, Ycsb.indexTxns Ycsb.smallConfig
        (Ycsb.GpuIndex.init Ycsb.smallConfig ⟨id, id, id⟩ id).index [⟨.delete, 0, 0⟩] = .ok x := ⟨_, rfl⟩
    obtain ⟨g, hg⟩ : ∃ g, (Ycsb.GpuIndex.init Ycsb.smallConfig ⟨id, id, id⟩ id).indexTxns
        Ycsb.smallConfig [⟨.delete, 0, 0⟩] = .ok g := ⟨_, rfl⟩
    have hcrids : x.2.edelCrids = [0] := by
      obtain rfl := Except.ok.inj hx
      decide
    have hrun := YcsbRun.index (YcsbRun.prepare (YcsbRun.initial ⟨id, id, id⟩ id) hk hs hp)
      ⟨by decide, by decide, by decide⟩ hx hg
    have hflag : (markReclaimable cfg [0] p.cache).reclaimFlag (p.cache.cridToGrid 0) = true := by
      have hstep : markReclaimByCrids cfg [0] p.cache.cridToGrid p.cache.reclaimFlag =
          Function.update p.cache.reclaimFlag (p.cache.cridToGrid 0) true := by
        rw [markReclaimByCrids, List.foldl_cons, List.foldl_nil, if_neg (by decide),
          if_pos ⟨hne, hlt⟩]
      rw [markReclaimable, if_pos rfl, hstep]
      exact Function.update_self ..
    rw [if_pos (by decide), hcrids] at hrun
    exact ⟨g, _, _, hrun, hflag, ((hdead.1 g _ hrun).1 _ hflag).1, ((hdead.1 g _ hrun).1 _ hflag).2⟩
  · have hrun := OrderLineRun.deliver 0 (OrderLineRun.prepare OrderLineRun.initial hk hs hp)
    have hflag : (markDelivered cfg 0 p.cache).reclaimFlag (p.cache.cridToGrid 0) = true := by
      have hl : lookup cfg p.cache.cridToGrid 0 = p.cache.cridToGrid 0 := if_pos (by decide)
      rw [markDelivered, hl, if_pos ⟨rfl, hne⟩]
      exact Function.update_self ..
    exact ⟨_, _, hrun, hflag, (hdead.2.2 _ _ hrun).1 _ hflag⟩

end Egad.Stager
