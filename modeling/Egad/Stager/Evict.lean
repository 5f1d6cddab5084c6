import Egad.Stager.Model
import Mathlib.Data.Finset.Card
import Mathlib.Data.Nat.ModEq

/-! # Eviction finds enough victims

    The slots of a mapped cache are either in the ring or resident. With `n` needed records, `new` of
    them missing and `free` slots in the ring, the residents the epoch does not need number at least

        (cap - free) - (n - new)  ≥  new - free  =  deficit        as long as n ≤ cap

    so the two collecting kernels, which between them miss no such slot while the demand is not met,
    always meet it, whatever the order in which their threads run. -/

namespace Egad.Stager
open Egad.Lib

variable (cfg : Config)

/-- The mapping invariant: the two arrays are inverse to each other, and the ring and the residents
    share the slots between them. -/
structure Mapped (c : Cache) : Prop where
  head_le : c.ringHead ≤ c.ringTail
  ring_nodup : (c.ring cfg).Nodup
  ring_lt : ∀ g ∈ c.ring cfg, g < cfg.capacity
  ring_empty : ∀ g ∈ c.ring cfg, c.resident g = absent
  ring_or_resident : ∀ g < cfg.capacity, g ∈ c.ring cfg ∨ c.resident g ≠ absent
  grid_of_crid : ∀ r < cfg.numUnits, c.cridToGrid r ≠ absent →
    c.cridToGrid r < cfg.capacity ∧ c.resident (c.cridToGrid r) = r
  crid_of_grid : ∀ g < cfg.capacity, c.resident g ≠ absent →
    c.resident g < cfg.numUnits ∧ c.cridToGrid (c.resident g) = g

/-- What a submitter hands over: record ids of the table, and for TPC-C the word that stands for no
    record. -/
def Keys (keys : List ℕ) : Prop := ∀ k ∈ keys, k < cfg.numUnits ∨ (cfg.tpcc = true ∧ k = absent)

/-! ### The items of a launch -/

theorem mem_strided {cap x : ℕ} : ∀ {g : ℕ},
    x ∈ strided cap g ↔ g ≤ x ∧ x < cap ∧ x % stride = g % stride := by
  intro g
  induction g using strided.induct cap with
  | case1 g hlt ih =>
    rw [strided, if_pos hlt, List.mem_cons, ih, Nat.add_mod_right]
    constructor
    · rintro (rfl | ⟨h1, h2, h3⟩)
      · exact ⟨le_rfl, hlt, rfl⟩
      · exact ⟨by omega, h2, h3⟩
    · rintro ⟨h1, h2, h3⟩
      rcases Nat.lt_or_ge x (g + stride) with h | h
      · -- two numbers less than a stride apart with the same remainder are equal
        refine Or.inl (Nat.ModEq.eq_of_abs_lt h3 ?_)
        rw [abs_lt]
        omega
      · exact Or.inr ⟨h, h2, h3⟩
  | case2 g hge =>
    rw [strided, if_neg hge]
    simp only [List.not_mem_nil, false_iff]
    omega

theorem nodup_strided {cap : ℕ} : ∀ g, (strided cap g).Nodup := by
  intro g
  induction g using strided.induct cap with
  | case1 g hlt ih =>
    rw [strided, if_pos hlt, List.nodup_cons, mem_strided]
    exact ⟨fun h => by have := h.1; simp [stride] at this, ih⟩
  | case2 g hge =>
    rw [strided, if_neg hge]
    exact List.nodup_nil

theorem mem_items {cap t i : ℕ} : i ∈ items cap t ↔ i < cap ∧ t = i % stride := by
  rw [items]
  split
  · rename_i ht
    rw [mem_strided, Nat.mod_eq_of_lt ht]
    have := Nat.mod_le i stride
    omega
  · rename_i ht
    have : i % stride < stride := Nat.mod_lt _ (by decide)
    simp only [List.not_mem_nil, false_iff]
    omega

theorem items_disjoint (cap : ℕ) : Claim.Disjoint (items cap) where
  nodup t := by
    rw [items]
    split
    · exact nodup_strided t
    · exact List.nodup_nil
  apart ht hu := (mem_items.mp ht).2.trans (mem_items.mp hu).2.symm

theorem reclaimPass_local (resident : ℕ → ℕ) (flag : ℕ → Bool) :
    (reclaimPass resident flag).Local where
  cand_mark m i j h := by simp [reclaimPass, h]
  emit_mark m i j h := rfl

theorem fifoPass_local (cap start : ℕ) (resident : ℕ → ℕ) (needed : ℕ → Bool) :
    (fifoPass cap start resident needed).Local where
  cand_mark _ _ _ _ := rfl
  emit_mark _ _ _ _ := rfl

section
variable {cap start i j g : ℕ} (hcap : cap ≤ 2 ^ 31) (hs : start < cap)

include hcap hs in
/-- Below half the range the sum of two indices does not wrap. -/
theorem fifoGrid_eq (hi : i < cap) :
    fifoGrid cap start i = if cap ≤ start + i then start + i - cap else start + i := by
  rw [fifoGrid, Nat.mod_eq_of_lt (by omega)]

include hcap hs in
theorem fifoGrid_lt (hi : i < cap) : fifoGrid cap start i < cap := by
  rw [fifoGrid_eq hcap hs hi]
  split <;> omega

include hcap hs in
theorem fifoGrid_inj (hi : i < cap) (hj : j < cap)
    (h : fifoGrid cap start i = fifoGrid cap start j) : i = j := by
  rw [fifoGrid_eq hcap hs hi, fifoGrid_eq hcap hs hj] at h
  split at h <;> split at h <;> omega

include hcap hs in
theorem exists_fifoGrid (hg : g < cap) : ∃ i < cap, fifoGrid cap start i = g := by
  rcases Nat.lt_or_ge g start with h | h
  · refine ⟨g + cap - start, by omega, ?_⟩
    rw [fifoGrid_eq hcap hs (by omega)]
    split <;> omega
  · refine ⟨g - start, by omega, ?_⟩
    rw [fifoGrid_eq hcap hs (by omega)]
    split <;> omega

end

/-! ### How many residents an epoch can spare -/

variable {cfg} {c : Cache}

theorem mem_buildNeeded {keys : List ℕ} {k : ℕ} : k ∈ buildNeeded keys ↔ k ∈ keys := by
  rw [buildNeeded, (List.pairwise_insertionSort (· ≤ ·) keys).destutter_eq_dedup, List.mem_dedup,
    List.mem_insertionSort]

theorem nodup_buildNeeded (keys : List ℕ) : (buildNeeded keys).Nodup := by
  rw [buildNeeded, (List.pairwise_insertionSort (· ≤ ·) keys).destutter_eq_dedup]
  exact List.nodup_dedup _

theorem foldl_mark_iff {m : ℕ → ℕ} {g : ℕ} : ∀ (needed : List ℕ) (f : ℕ → Bool),
    needed.foldl (fun f crid =>
      if lookup cfg m crid ≠ absent ∧ lookup cfg m crid < cfg.capacity
      then Function.update f (lookup cfg m crid) true else f) f g = true ↔
    f g = true ∨ (g ≠ absent ∧ g < cfg.capacity ∧ ∃ r ∈ needed, lookup cfg m r = g)
  | [], f => by simp
  | r :: needed, f => by
    rw [List.foldl_cons, foldl_mark_iff needed]
    rcases eq_or_ne (lookup cfg m r) g with rfl | hne
    · split
      · simp_all
      · simp only [List.mem_cons, exists_eq_or_imp, true_or, and_true]
        tauto
    · have : ∀ b : Bool, Function.update f (lookup cfg m r) b g = f g :=
        fun b => Function.update_of_ne hne.symm _ _
      split <;> simp_all

theorem markNeeded_iff {m : ℕ → ℕ} {needed : List ℕ} {g : ℕ} :
    markNeeded cfg m needed g = true ↔
      g ≠ absent ∧ g < cfg.capacity ∧ ∃ r ∈ needed, lookup cfg m r = g := by
  rw [markNeeded, foldl_mark_iff]
  simp

theorem Mapped.lookup_inj (h : Mapped cfg c) {r r' : ℕ} (hr : lookup cfg c.cridToGrid r ≠ absent)
    (he : lookup cfg c.cridToGrid r = lookup cfg c.cridToGrid r') : r = r' := by
  have hr' := hr
  rw [he] at hr'
  rw [lookup] at hr he
  rw [lookup] at hr' he
  split at hr
  · split at hr'
    · rename_i h1 h2
      rw [if_pos h1, if_pos h2] at he
      rw [← (h.grid_of_crid r h1 hr).2, he, (h.grid_of_crid r' h2 hr').2]
    · exact absurd rfl hr'
  · exact absurd rfl hr

/-- The needed flags of a mapped cache are those of the slots that hold a needed record. -/
theorem Mapped.markNeeded_iff (h : Mapped cfg c) {needed : List ℕ} {g : ℕ} (hg : g < cfg.capacity)
    (hres : c.resident g ≠ absent) :
    markNeeded cfg c.cridToGrid needed g = true ↔ c.resident g ∈ needed := by
  obtain ⟨hlt, hmap⟩ := h.crid_of_grid g hg hres
  have hga : g ≠ absent := by have := cfg.capacity_lt_absent; omega
  have hlook : lookup cfg c.cridToGrid (c.resident g) = g := by rw [lookup, if_pos hlt, hmap]
  rw [Stager.markNeeded_iff]
  constructor
  · rintro ⟨-, -, r, hr, hrg⟩
    have : r = c.resident g := h.lookup_inj (by rw [hrg]; exact hga) (hrg.trans hlook.symm)
    exact this ▸ hr
  · exact fun hmem => ⟨hga, hg, _, hmem, hlook⟩

variable (cfg c) in
/-- The resident slots the epoch does not need. -/
def spare (needed : List ℕ) : Finset ℕ :=
  (Finset.range cfg.capacity).filter fun g =>
    c.resident g ≠ absent ∧ ¬ markNeeded cfg c.cridToGrid needed g = true

theorem mem_spare {needed : List ℕ} {g : ℕ} : g ∈ spare cfg c needed ↔
    g < cfg.capacity ∧ c.resident g ≠ absent ∧ ¬ markNeeded cfg c.cridToGrid needed g = true := by
  rw [spare, Finset.mem_filter, Finset.mem_range]

variable (cfg c) in
/-- The resident slots. -/
def residents : Finset ℕ := (Finset.range cfg.capacity).filter fun g => c.resident g ≠ absent

theorem Mapped.card_residents (h : Mapped cfg c) :
    (residents cfg c).card + c.freeSlots = cfg.capacity := by
  have hfree : (c.ring cfg).toFinset.card = c.freeSlots := by
    rw [List.toFinset_card_of_nodup h.ring_nodup, Cache.ring, List.length_map, List.length_range]
  have hdisj : Disjoint (residents cfg c) (c.ring cfg).toFinset := by
    rw [Finset.disjoint_left]
    intro g hg hr
    exact (Finset.mem_filter.mp hg).2 (h.ring_empty g (List.mem_toFinset.mp hr))
  have hunion : residents cfg c ∪ (c.ring cfg).toFinset = Finset.range cfg.capacity := by
    ext g
    rw [Finset.mem_union, residents, Finset.mem_filter, Finset.mem_range, List.mem_toFinset]
    constructor
    · rintro (⟨hg, -⟩ | hg)
      · exact hg
      · exact h.ring_lt g hg
    · intro hg
      rcases h.ring_or_resident g hg with hr | hr
      · exact Or.inr hr
      · exact Or.inl ⟨hg, hr⟩
  rw [← hfree, ← Finset.card_union_of_disjoint hdisj, hunion, Finset.card_range]

theorem mem_missed {needed : List ℕ} {r : ℕ} : r ∈ missed cfg c needed ↔
    r ∈ needed ∧ lookup cfg c.cridToGrid r = absent ∧ (cfg.tpcc = true → r ≠ absent) := by
  rw [missed, List.mem_filter, decide_eq_true_eq]

/-- A missed record is a record of the table. -/
theorem lt_of_mem_missed {keys : List ℕ} (hk : Keys cfg keys) {r : ℕ}
    (hr : r ∈ missed cfg c (buildNeeded keys)) : r < cfg.numUnits := by
  obtain ⟨hmem, -, ht⟩ := mem_missed.mp hr
  rcases hk r (mem_buildNeeded.mp hmem) with h | ⟨h, he⟩
  · exact h
  · exact absurd he (ht h)

/-- The records an epoch needs. -/
def records (keys : List ℕ) : List ℕ := (buildNeeded keys).filter (· ≠ absent)

/-- The residents an epoch can spare cover the slots it is short of. -/
theorem Mapped.deficit_le_spare (h : Mapped cfg c) {keys : List ℕ} (hk : Keys cfg keys)
    (hn : (records keys).length ≤ cfg.capacity) :
    (missed cfg c (buildNeeded keys)).length - c.freeSlots ≤
      (spare cfg c (buildNeeded keys)).card := by
  have hnd := nodup_buildNeeded keys
  have hN : (records keys).toFinset.card = (records keys).length :=
    List.toFinset_card_of_nodup (hnd.filter _)
  have hM : (missed cfg c (buildNeeded keys)).toFinset.card =
      (missed cfg c (buildNeeded keys)).length := List.toFinset_card_of_nodup (hnd.filter _)
  have hsub : (missed cfg c (buildNeeded keys)).toFinset ⊆ (records keys).toFinset := by
    intro r hr
    have hr := List.mem_toFinset.mp hr
    have hlt := lt_of_mem_missed hk hr
    have := cfg.numUnits_le
    rw [List.mem_toFinset, records, List.mem_filter]
    exact ⟨(mem_missed.mp hr).1, by simpa using (by omega : r ≠ absent)⟩
  -- the needed residents hold needed records that are not missed, one each
  have hF : ((residents cfg c).filter fun g =>
      markNeeded cfg c.cridToGrid (buildNeeded keys) g = true).card ≤
      ((records keys).toFinset \ (missed cfg c (buildNeeded keys)).toFinset).card := by
    refine Finset.card_le_card_of_injOn c.resident ?_ ?_
    · intro g hg
      obtain ⟨hg, hm⟩ := Finset.mem_filter.mp hg
      obtain ⟨hg, hres⟩ := Finset.mem_filter.mp hg
      have hg := Finset.mem_range.mp hg
      have hneed := (h.markNeeded_iff hg hres).mp hm
      obtain ⟨hlt, hmap⟩ := h.crid_of_grid g hg hres
      rw [Finset.mem_coe, Finset.mem_sdiff, List.mem_toFinset, List.mem_toFinset, records,
        List.mem_filter]
      refine ⟨⟨hneed, by simpa using hres⟩, fun hmiss => ?_⟩
      have hlook := (mem_missed.mp hmiss).2.1
      rw [lookup, if_pos hlt, hmap] at hlook
      have := cfg.capacity_lt_absent
      omega
    · intro g hg g' hg' he
      obtain ⟨hg, hres⟩ := Finset.mem_filter.mp (Finset.mem_filter.mp hg).1
      obtain ⟨hg', hres'⟩ := Finset.mem_filter.mp (Finset.mem_filter.mp hg').1
      have h1 := (h.crid_of_grid g (Finset.mem_range.mp hg) hres).2
      have h2 := (h.crid_of_grid g' (Finset.mem_range.mp hg') hres').2
      rw [← h1, he, h2]
  have hsplit : ((residents cfg c).filter fun g =>
      markNeeded cfg c.cridToGrid (buildNeeded keys) g = true).card +
      (spare cfg c (buildNeeded keys)).card = (residents cfg c).card := by
    have hs : spare cfg c (buildNeeded keys) = (residents cfg c).filter fun g =>
        ¬ markNeeded cfg c.cridToGrid (buildNeeded keys) g = true := by
      rw [spare, residents, Finset.filter_filter]
    rw [hs]
    exact Finset.card_filter_add_card_filter_not _
  rw [Finset.card_sdiff_of_subset hsub] at hF
  have hcard := h.card_residents
  have hle := Finset.card_le_card hsub
  omega

/-! ### What the two kernels collect -/

variable (cfg) in
/-- A complete execution of the two collecting kernels. -/
structure Collection (c : Cache) (needed : ℕ → Bool) (deficit : ℕ) (sched : Schedule)
    (s₁ : ReclaimState) (s₂ : FifoState) : Prop where
  reclaim : afterReclaim cfg c needed deficit sched.reclaim = some s₁
  reclaim_finished : cfg.reclaimActive = true → s₁.Finished
  fifo : runFifo cfg c s₁ deficit sched.fifo = some s₂
  fifo_finished : s₂.Finished

variable (cfg c) in
/-- The state between the kernels, with `log` the slots the first one claimed. -/
structure Reclaimed (needed : ℕ → Bool) (deficit : ℕ) (log : List ℕ) (s : ReclaimState) : Prop where
  count : s.count = log.length
  nodup : log.Nodup
  cand : ∀ g ∈ log, g < cfg.capacity ∧ c.resident g ≠ absent ∧ ¬ needed g = true
  filled : ∀ (k : ℕ) (g : ℕ), log[k]? = some g → k < deficit → s.out k = some (g, c.resident g)
  marked : ∀ g, s.mem g = true ↔ needed g = true ∨ ∃ k : ℕ, log[k]? = some g ∧ k < deficit

theorem foldl_update_true {g : ℕ} : ∀ (W : List ℕ) (f : ℕ → Bool),
    W.foldl (fun f g => Function.update f g true) f g = true ↔ f g = true ∨ g ∈ W
  | [], f => by simp
  | w :: W, f => by
    rw [List.foldl_cons, foldl_update_true W]
    rcases eq_or_ne g w with rfl | hne
    · simp
    · simp [hne]

theorem reclaimed {needed : ℕ → Bool} {deficit : ℕ} {sched : Schedule} {s₁ : ReclaimState}
    {s₂ : FifoState} (hc : Collection cfg c needed deficit sched s₁ s₂) :
    ∃ log, Reclaimed cfg c needed deficit log s₁ := by
  have hr := hc.reclaim
  rw [afterReclaim] at hr
  split at hr
  · rename_i hact
    obtain ⟨log, h⟩ := Claim.collected (reclaimPass_local _ _) (items_disjoint _) hr
      (hc.reclaim_finished hact)
    refine ⟨log, by simpa using h.count, h.nodup, fun g hg => ?_, fun k g hk hlt => ?_, fun g => ?_⟩
    · obtain ⟨hcand, t, ht⟩ := h.cand g hg
      simp only [reclaimPass, Bool.and_eq_true, bne_iff_ne, Bool.not_eq_true'] at hcand
      exact ⟨(mem_items.mp ht).1, hcand.1.1, by simp [hcand.1.2]⟩
    · simpa [reclaimPass] using h.filled k g hk (by omega)
    · obtain ⟨W, hm, hW⟩ := h.marked
      have hg := hW g
      simp only [Nat.zero_add] at hg
      rw [hm, ← hg]
      exact foldl_update_true W needed
  · cases hr
    exact ⟨[], rfl, List.nodup_nil, by simp, by simp, by simp [reclaimStart, Claim.start]⟩

variable (cfg c) in
/-- The slots claimed by both kernels, in the order of their output positions. -/
def picks (log₁ log₂ : List ℕ) : List ℕ :=
  log₁ ++ log₂.map (fifoGrid cfg.capacity c.fifoNextGrid)

variable (cfg c) in
/-- What the two kernels leave, with `log₁` and `log₂` their claims. -/
structure Picked (needed : ℕ → Bool) (deficit : ℕ) (log₁ log₂ : List ℕ) (s : FifoState) :
    Prop where
  count : s.count = (picks cfg c log₁ log₂).length
  cand : ∀ g ∈ picks cfg c log₁ log₂, g < cfg.capacity ∧ c.resident g ≠ absent ∧ ¬ needed g = true
  nodup : ((picks cfg c log₁ log₂).take deficit).Nodup
  filled : ∀ (k : ℕ) (g : ℕ), (picks cfg c log₁ log₂)[k]? = some g → k < deficit →
    s.out k = some (g, c.resident g)
  complete : s.count < deficit → ∀ g < cfg.capacity, c.resident g ≠ absent → ¬ needed g = true →
    g ∈ picks cfg c log₁ log₂

theorem picked (hcur : c.fifoNextGrid < cfg.capacity) {needed : ℕ → Bool} {deficit : ℕ}
    {sched : Schedule} {s₁ : ReclaimState} {s₂ : FifoState}
    (hc : Collection cfg c needed deficit sched s₁ s₂) :
    ∃ log₁ log₂, Picked cfg c needed deficit log₁ log₂ s₂ := by
  obtain ⟨log₁, h₁⟩ := reclaimed hc
  obtain ⟨log₂, h₂⟩ := Claim.collected (fifoPass_local _ _ _ _) (items_disjoint _) hc.fifo
    hc.fifo_finished
  -- what the second kernel claims was not marked by the first
  have hcand₂ : ∀ i ∈ log₂, i < cfg.capacity ∧
      c.resident (fifoGrid cfg.capacity c.fifoNextGrid i) ≠ absent ∧
      ¬ s₁.mem (fifoGrid cfg.capacity c.fifoNextGrid i) = true := by
    intro i hi
    obtain ⟨hcand, t, ht⟩ := h₂.cand i hi
    simp only [fifoPass, Bool.and_eq_true, bne_iff_ne, Bool.not_eq_true'] at hcand
    exact ⟨(mem_items.mp ht).1, hcand.1, by simp [hcand.2]⟩
  have hinj : (log₂.map (fifoGrid cfg.capacity c.fifoNextGrid)).Nodup :=
    h₂.nodup.map_on fun i hi j hj he =>
      fifoGrid_inj cfg.capacity_le hcur (hcand₂ i hi).1 (hcand₂ j hj).1 he
  refine ⟨log₁, log₂, ?_, ?_, ?_, ?_, ?_⟩
  · rw [h₂.count, h₁.count, picks, List.length_append, List.length_map]
  · intro g hg
    rcases List.mem_append.mp hg with hg | hg
    · exact h₁.cand g hg
    · obtain ⟨i, hi, rfl⟩ := List.mem_map.mp hg
      obtain ⟨hlt, hres, hm⟩ := hcand₂ i hi
      exact ⟨fifoGrid_lt cfg.capacity_le hcur hlt, hres, fun hn => hm ((h₁.marked _).mpr (Or.inl hn))⟩
  · -- either the first kernel met the demand alone, or it marked everything it claimed
    rcases Nat.lt_or_ge log₁.length deficit with hlt | hge
    · refine List.Nodup.sublist (List.take_sublist _ _) (List.nodup_append'.mpr ⟨h₁.nodup, hinj, ?_⟩)
      intro g hg hg₂
      obtain ⟨k, hk⟩ := List.getElem?_of_mem hg
      obtain ⟨i, hi, rfl⟩ := List.mem_map.mp hg₂
      have hklt : k < log₁.length := (List.getElem?_eq_some_iff.mp hk).1
      exact (hcand₂ i hi).2.2 ((h₁.marked _).mpr (Or.inr ⟨k, hk, by omega⟩))
    · rw [picks, List.take_append_of_le_length hge]
      exact List.Nodup.sublist (List.take_sublist _ _) h₁.nodup
  · intro k g hk hlt
    rcases Nat.lt_or_ge k log₁.length with hk₁ | hk₁
    · rw [picks, List.getElem?_append_left hk₁] at hk
      rw [h₂.frame k (Or.inl (h₁.count ▸ hk₁))]
      exact h₁.filled k g hk hlt
    · rw [picks, List.getElem?_append_right hk₁, List.getElem?_map, Option.map_eq_some_iff] at hk
      obtain ⟨i, hi, rfl⟩ := hk
      have hcount := h₁.count
      have hf := h₂.filled (k - log₁.length) i hi (by omega)
      rw [show s₁.count + (k - log₁.length) = k by omega] at hf
      exact hf
  · intro hlt g hg hres hn
    rw [picks, List.mem_append]
    have hcount := h₂.count
    have hcount₁ := h₁.count
    rcases Classical.em (s₁.mem g = true) with hm | hm
    · rcases (h₁.marked g).mp hm with hn' | ⟨k, hk, -⟩
      · exact absurd hn' hn
      · exact Or.inl (List.mem_of_getElem? hk)
    · obtain ⟨i, hi, rfl⟩ := exists_fifoGrid cfg.capacity_le hcur hg
      refine Or.inr (List.mem_map_of_mem (h₂.complete hlt (i % stride) ?_ i ?_ ?_))
      · exact Nat.mod_lt _ (by decide)
      · exact mem_items.mpr ⟨hi, rfl⟩
      · simp [fifoPass, hres, hm]

theorem mapM_range_eq {α : Type*} {f : ℕ → Option α} {l : List α}
    (h : ∀ k x, l[k]? = some x → f k = some x) : (List.range l.length).mapM f = some l := by
  induction l using List.reverseRecOn with
  | nil => rfl
  | append_singleton l a ih =>
    have hl : ∀ k x, l[k]? = some x → f k = some x := fun k x hk =>
      h k x (List.getElem?_append_left (List.getElem?_eq_some_iff.mp hk).1 ▸ hk)
    have ha : f l.length = some a := h l.length a (by simp)
    rw [List.length_append, List.length_singleton, List.range_succ, List.mapM_append, ih hl]
    simp [ha]

/-! ### Eviction succeeds -/

variable (cfg c) in
/-- A victim list of `deficit` entries: pairwise distinct slots, each with its resident, none of
    them needed. -/
structure Victims (keys : List ℕ) (deficit : ℕ) (vs : List (ℕ × ℕ)) : Prop where
  length : vs.length = deficit
  distinct : (vs.map Prod.fst).Nodup
  slot : ∀ v ∈ vs, v.1 < cfg.capacity
  resident : ∀ v ∈ vs, v.2 = c.resident v.1 ∧ v.2 ≠ absent
  spared : ∀ v ∈ vs, v.2 ∉ keys

theorem collection_victims (h : Mapped cfg c) (hcur : c.fifoNextGrid < cfg.capacity)
    {keys : List ℕ} (hk : Keys cfg keys) (hn : (records keys).length ≤ cfg.capacity) {deficit : ℕ}
    (hd : deficit ≤ (missed cfg c (buildNeeded keys)).length - c.freeSlots) {sched : Schedule}
    {s₁ : ReclaimState} {s₂ : FifoState}
    (hc : Collection cfg c (markNeeded cfg c.cridToGrid (buildNeeded keys)) deficit sched s₁ s₂) :
    deficit ≤ s₂.count ∧ ∃ vs, victims deficit s₂.out = some vs ∧ Victims cfg c keys deficit vs := by
  obtain ⟨log₁, log₂, hp⟩ := picked hcur hc
  have hcount : deficit ≤ s₂.count := by
    by_contra hlt
    have hlt := Nat.lt_of_not_le hlt
    have hsub : spare cfg c (buildNeeded keys) ⊆ (picks cfg c log₁ log₂).toFinset := by
      intro g hg
      obtain ⟨hg, hres, hm⟩ := mem_spare.mp hg
      exact List.mem_toFinset.mpr (hp.complete hlt g hg hres hm)
    have h1 := Finset.card_le_card hsub
    have h2 := List.toFinset_card_le (picks cfg c log₁ log₂)
    have h3 := h.deficit_le_spare hk hn
    have h4 := hp.count
    omega
  have hlen : ((picks cfg c log₁ log₂).take deficit).length = deficit := by
    rw [List.length_take]
    have := hp.count
    omega
  have hmem : ∀ g ∈ (picks cfg c log₁ log₂).take deficit, g < cfg.capacity ∧
      c.resident g ≠ absent ∧
      ¬ markNeeded cfg c.cridToGrid (buildNeeded keys) g = true :=
    fun g hg => hp.cand g (List.mem_of_mem_take hg)
  refine ⟨hcount, ((picks cfg c log₁ log₂).take deficit).map fun g => (g, c.resident g), ?_, ?_⟩
  · have hvs := mapM_range_eq (f := s₂.out)
      (l := ((picks cfg c log₁ log₂).take deficit).map fun g => (g, c.resident g)) fun k x hkx => by
        rw [List.getElem?_map, Option.map_eq_some_iff] at hkx
        obtain ⟨g, hg, rfl⟩ := hkx
        have hklt : k < deficit := hlen ▸ (List.getElem?_eq_some_iff.mp hg).1
        rw [List.getElem?_take_of_lt hklt] at hg
        exact hp.filled k g hg hklt
    rw [List.length_map, hlen] at hvs
    exact hvs
  · refine ⟨by rw [List.length_map, hlen], ?_, ?_, ?_, ?_⟩
    · rw [List.map_map]
      exact hp.nodup.map fun a b he => he
    · rintro v hv
      obtain ⟨g, hg, rfl⟩ := List.mem_map.mp hv
      exact (hmem g hg).1
    · rintro v hv
      obtain ⟨g, hg, rfl⟩ := List.mem_map.mp hv
      exact ⟨rfl, (hmem g hg).2.1⟩
    · rintro v hv hkeys
      obtain ⟨g, hg, rfl⟩ := List.mem_map.mp hv
      obtain ⟨hlt, hres, hm⟩ := hmem g hg
      exact hm ((h.markNeeded_iff hlt hres).mpr (mem_buildNeeded.mpr hkeys))

/-- Both kernels terminate under every schedule, and whatever the reclaim flags, the cursor and the
    order of the claims, they leave at least the deficit of victims: the first entries of the victim
    list are filled with distinct slots that hold a record the epoch does not need. -/
theorem eviction_sound (h : Mapped cfg c) (hcur : c.fifoNextGrid < cfg.capacity) {keys : List ℕ}
    (hk : Keys cfg keys) (hn : (records keys).length ≤ cfg.capacity) :
    let needed := markNeeded cfg c.cridToGrid (buildNeeded keys)
    let deficit := (missed cfg c (buildNeeded keys)).length - c.freeSlots
    Claim.Terminates (reclaimPass c.resident c.reclaimFlag) deficit (reclaimStart cfg needed) ∧
    (∀ s₁, Claim.Terminates (fifoPass cfg.capacity c.fifoNextGrid c.resident s₁.mem) deficit
      (fifoStart cfg s₁)) ∧
    ∀ sched s₁ s₂, Collection cfg c needed deficit sched s₁ s₂ →
      deficit ≤ s₂.count ∧
      (∃ vs, victims deficit s₂.out = some vs ∧ Victims cfg c keys deficit vs) ∧
      advanceCursor cfg c s₂ < cfg.capacity := by
  refine ⟨Claim.start_terminates, fun s₁ => Claim.start_terminates, fun sched s₁ s₂ hc => ?_⟩
  obtain ⟨hcount, hvs⟩ := collection_victims h hcur hk hn le_rfl hc
  exact ⟨hcount, hvs, Nat.mod_lt _ (by omega)⟩

/-- One slot, held by record 0; the epoch needs record 1. -/
theorem eviction_sound_one_slot :
    let cfg : Config := ⟨1, 2, false, true, by decide, by decide⟩
    let c : Cache := ⟨fun r => if r = 0 then 0 else absent, fun g => if g = 0 then 0 else absent,
      fun i => i, 1, 1, fun _ => true, 0⟩
    (missed cfg c (buildNeeded [1])).length - c.freeSlots = 1 ∧
    ∀ sched s₁ s₂,
      Collection cfg c (markNeeded cfg c.cridToGrid (buildNeeded [1])) 1 sched s₁ s₂ →
      ∃ vs, victims 1 s₂.out = some vs ∧ Victims cfg c [1] 1 vs := by
  intro cfg c
  have h : Mapped cfg c := by
    refine ⟨le_rfl, by decide, by decide, by decide, ?_, ?_, ?_⟩
    · intro g hg
      have : g = 0 := by simp only [cfg] at hg; omega
      subst this
      exact Or.inr (by decide)
    · intro r hr
      have : r = 0 ∨ r = 1 := by simp only [cfg] at hr; omega
      rcases this with rfl | rfl
      · exact fun _ => ⟨by decide, by decide⟩
      · exact fun hne => absurd rfl hne
    · intro g hg _
      have : g = 0 := by simp only [cfg] at hg; omega
      subst this
      exact ⟨by decide, by decide⟩
  have hk : Keys cfg [1] := fun k hk => Or.inl (by simp_all [cfg])
  have hd : (missed cfg c (buildNeeded [1])).length - c.freeSlots = 1 := by decide
  refine ⟨hd, fun sched s₁ s₂ hc => ?_⟩
  have hall := (eviction_sound h (by decide) hk (by decide)).2.2 sched s₁ s₂
  rw [hd] at hall
  exact (hall hc).2.1

end Egad.Stager
