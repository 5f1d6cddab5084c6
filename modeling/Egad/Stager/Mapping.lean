import Egad.Stager.Evict

/-! # The mapping invariant over whole runs

    Admission, eviction and the pre-warm all bind a list of slots to a list of records:

        pairs      (g₀, r₀)  (g₁, r₁)  …        each gᵢ from the ring or a victim's slot
        resident   gᵢ ↦ rᵢ
        cridToGrid rᵢ ↦ gᵢ,  and the record gᵢ held before ↦ absent

    `Rebound` says that and nothing else changed; it keeps the mapping invariant, so every sequence
    of epochs does. -/

namespace Egad.Stager
open Egad.Lib

variable (cfg : Config)

/-- The slots of `pairs` get the records of `pairs`, and nothing else changes. -/
structure Rebound (c c' : Cache) (pairs : List (ℕ × ℕ)) : Prop where
  resident_of_mem : ∀ x ∈ pairs, c'.resident x.1 = x.2
  resident_of_notMem : ∀ g, g ∉ pairs.map Prod.fst → c'.resident g = c.resident g
  grid_of_mem : ∀ x ∈ pairs, c'.cridToGrid x.2 = x.1
  grid_of_victim : ∀ g ∈ pairs.map Prod.fst, c.resident g ≠ absent →
    c'.cridToGrid (c.resident g) = absent
  grid_of_notMem : ∀ r, r ∉ pairs.map Prod.snd → (∀ g ∈ pairs.map Prod.fst, c.resident g ≠ r) →
    c'.cridToGrid r = c.cridToGrid r
  head_le : c'.ringHead ≤ c'.ringTail
  ring_sublist : (c'.ring cfg).Sublist (c.ring cfg)
  mem_ring : ∀ g, g ∈ c'.ring cfg ↔ g ∈ c.ring cfg ∧ g ∉ pairs.map Prod.fst

/-- Records to admit: distinct records of the table that are not resident. -/
structure Fresh (c : Cache) (new : List ℕ) : Prop where
  nodup : new.Nodup
  lt : ∀ r ∈ new, r < cfg.numUnits
  unmapped : ∀ r ∈ new, c.cridToGrid r = absent

variable {cfg} {c c' : Cache} {pairs : List (ℕ × ℕ)}

theorem Fresh.sublist {new new' : List ℕ} (h : Fresh cfg c new) (hs : new'.Sublist new) :
    Fresh cfg c new' :=
  ⟨h.nodup.sublist hs, fun r hr => h.lt r (hs.subset hr), fun r hr => h.unmapped r (hs.subset hr)⟩

/-- No slot holds a record that is to be admitted. -/
theorem Mapped.resident_ne (h : Mapped cfg c) {new : List ℕ} (hf : Fresh cfg c new) {g r : ℕ}
    (hg : g < cfg.capacity) (hr : r ∈ new) : c.resident g ≠ r := by
  rintro rfl
  have hlt := hf.lt _ hr
  have hne : c.resident g ≠ absent := by have := cfg.numUnits_le; omega
  have hmap := (h.crid_of_grid g hg hne).2
  rw [hf.unmapped _ hr] at hmap
  have := cfg.capacity_lt_absent
  omega

theorem Mapped.rebound (h : Mapped cfg c) (hb : Rebound cfg c c' pairs)
    (hslots : ∀ x ∈ pairs, x.1 < cfg.capacity) (hf : Fresh cfg c (pairs.map Prod.snd)) :
    Mapped cfg c' where
  head_le := hb.head_le
  ring_nodup := h.ring_nodup.sublist hb.ring_sublist
  ring_lt g hg := h.ring_lt g ((hb.mem_ring g).mp hg).1
  ring_empty g hg := by
    obtain ⟨hg, hn⟩ := (hb.mem_ring g).mp hg
    rw [hb.resident_of_notMem g hn]
    exact h.ring_empty g hg
  ring_or_resident g hg := by
    rcases Classical.em (g ∈ pairs.map Prod.fst) with hp | hp
    · obtain ⟨x, hx, rfl⟩ := List.mem_map.mp hp
      have := hf.lt x.2 (List.mem_map_of_mem hx)
      have := cfg.numUnits_le
      rw [hb.resident_of_mem x hx]
      exact Or.inr (by omega)
    · rw [hb.resident_of_notMem g hp, hb.mem_ring]
      exact (h.ring_or_resident g hg).imp_left fun hr => ⟨hr, hp⟩
  grid_of_crid r hr hne := by
    rcases Classical.em (r ∈ pairs.map Prod.snd) with hp | hp
    · obtain ⟨x, hx, rfl⟩ := List.mem_map.mp hp
      rw [hb.grid_of_mem x hx]
      exact ⟨hslots x hx, hb.resident_of_mem x hx⟩
    · -- a record that lost its slot is unmapped, any other keeps a slot that was not rebound
      rcases Classical.em (∃ g ∈ pairs.map Prod.fst, c.resident g = r) with ⟨g, hg, rfl⟩ | hv
      · have := cfg.numUnits_le
        exact absurd (hb.grid_of_victim g hg (by omega)) hne
      · have hkeep := hb.grid_of_notMem r hp fun g hg he => hv ⟨g, hg, he⟩
        rw [hkeep] at hne ⊢
        obtain ⟨hlt, hres⟩ := h.grid_of_crid r hr hne
        refine ⟨hlt, ?_⟩
        rw [hb.resident_of_notMem _ fun hm => hv ⟨_, hm, hres⟩]
        exact hres
  crid_of_grid g hg hne := by
    rcases Classical.em (g ∈ pairs.map Prod.fst) with hp | hp
    · obtain ⟨x, hx, rfl⟩ := List.mem_map.mp hp
      rw [hb.resident_of_mem x hx]
      exact ⟨hf.lt x.2 (List.mem_map_of_mem hx), hb.grid_of_mem x hx⟩
    · rw [hb.resident_of_notMem g hp] at hne ⊢
      obtain ⟨hlt, hmap⟩ := h.crid_of_grid g hg hne
      refine ⟨hlt, ?_⟩
      rw [hb.grid_of_notMem _ ?_ ?_]
      · exact hmap
      · exact fun hm => h.resident_ne hf hg hm rfl
      · intro g' hg' he
        obtain ⟨x, hx, rfl⟩ := List.mem_map.mp hg'
        have hne' : c.resident x.1 ≠ absent := by rw [he]; exact hne
        have := (h.crid_of_grid x.1 (hslots x hx) hne').2
        rw [he, hmap] at this
        exact hp (this ▸ hg')

/-! ### The kernels -/

theorem ring_length (c : Cache) : (c.ring cfg).length = c.freeSlots := by
  rw [Cache.ring, List.length_map, List.length_range]

theorem granted_eq (c : Cache) (n : ℕ) : c.granted n = min n c.freeSlots := by
  rw [Cache.granted]
  split <;> omega

variable (cfg) in
/-- A pop takes the first slots of the ring. -/
theorem ringPop_fst (c : Cache) (n : ℕ) : (ringPop cfg n c).1 = (c.ring cfg).take n := by
  rw [ringPop, Cache.ring, granted_eq, ← List.map_take, List.take_range]

variable (cfg) in
theorem ringPop_ring (n : ℕ) (hh : c.ringHead ≤ c.ringTail) :
    ((ringPop cfg n c).2.ring cfg) = (c.ring cfg).drop n ∧
      (ringPop cfg n c).2.ringHead ≤ (ringPop cfg n c).2.ringTail := by
  have hhead : (ringPop cfg n c).2.ringHead = c.ringHead + min n c.freeSlots := by
    simp only [ringPop, granted_eq]
    omega
  have hfree : (ringPop cfg n c).2.freeSlots = c.freeSlots - n := by
    rw [Cache.freeSlots, hhead]
    simp only [ringPop, Cache.freeSlots]
    omega
  refine ⟨?_, ?_⟩
  · refine List.ext_getElem? fun i => ?_
    rw [Cache.ring, Cache.ring, hfree, hhead, List.getElem?_drop, List.getElem?_map,
      List.getElem?_map]
    rcases Nat.lt_or_ge i (c.freeSlots - n) with hi | hi
    · rw [List.getElem?_range hi, List.getElem?_range (by omega), Nat.min_eq_left (by omega)]
      simp only [Option.map_some, ringPop, Nat.add_assoc]
    · rw [List.getElem?_eq_none (by simpa using hi), List.getElem?_eq_none (by simp; omega)]
      rfl
  · rw [hhead]
    simp only [ringPop, Cache.freeSlots]
    omega

theorem foldl_update_of_notMem {k : ℕ} : ∀ (l : List (ℕ × ℕ)) (m : ℕ → ℕ), k ∉ l.map Prod.fst →
    l.foldl (fun m x => Function.update m x.1 x.2) m k = m k
  | [], _, _ => rfl
  | x :: l, m, h => by
    rw [List.map_cons, List.mem_cons, not_or] at h
    rw [List.foldl_cons, foldl_update_of_notMem l _ h.2, Function.update_of_ne h.1]

theorem foldl_update_of_mem {k v : ℕ} : ∀ (l : List (ℕ × ℕ)) (m : ℕ → ℕ), (l.map Prod.fst).Nodup →
    (k, v) ∈ l → l.foldl (fun m x => Function.update m x.1 x.2) m k = v
  | x :: l, m, hnd, hm => by
    rw [List.map_cons, List.nodup_cons] at hnd
    rw [List.foldl_cons]
    rcases List.mem_cons.mp hm with rfl | hm
    · rw [foldl_update_of_notMem l _ hnd.1, Function.update_self]
    · exact foldl_update_of_mem l _ hnd.2 hm

/-- The guards of `k_flat_insert` pass for records of the table. -/
theorem bulkInsert_eq {crids grids : List ℕ} (h : ∀ r ∈ crids, r < cfg.numUnits) (m : ℕ → ℕ) :
    bulkInsert cfg crids grids m =
      (crids.zip grids).foldl (fun m x => Function.update m x.1 x.2) m := by
  rw [bulkInsert]
  refine List.foldl_ext _ _ _ fun m x hx => ?_
  have hlt := h x.1 (List.of_mem_zip hx).1
  have := cfg.numUnits_le
  rw [if_pos ⟨by omega, hlt⟩]

theorem renameOne_eq {x : (ℕ × ℕ) × ℕ} (hold : x.1.2 < cfg.numUnits) (hnew : x.2 < cfg.numUnits)
    (m : ℕ → ℕ) : renameOne cfg m x = Function.update (Function.update m x.1.2 absent) x.2 x.1.1 := by
  have := cfg.numUnits_le
  rw [renameOne, if_pos ⟨by omega, hnew⟩, if_pos ⟨by omega, hold⟩]

section
variable {r g : ℕ}

theorem foldl_rename_of_notMem : ∀ (l : List ((ℕ × ℕ) × ℕ)) (m : ℕ → ℕ),
    (∀ x ∈ l, x.1.2 < cfg.numUnits ∧ x.2 < cfg.numUnits) → (∀ x ∈ l, x.2 ≠ r) →
    (∀ x ∈ l, x.1.2 ≠ r) → l.foldl (renameOne cfg) m r = m r
  | [], _, _, _, _ => rfl
  | x :: l, m, hlt, hnew, hold => by
    obtain ⟨h1, h2⟩ := hlt x (List.mem_cons_self ..)
    rw [List.foldl_cons, foldl_rename_of_notMem l _ (fun y hy => hlt y (List.mem_cons_of_mem _ hy))
      (fun y hy => hnew y (List.mem_cons_of_mem _ hy))
      (fun y hy => hold y (List.mem_cons_of_mem _ hy)), renameOne_eq h1 h2,
      Function.update_of_ne (hnew x (List.mem_cons_self ..)).symm,
      Function.update_of_ne (hold x (List.mem_cons_self ..)).symm]

/-- A renamed record is mapped to its new slot, provided no record is both old and new. -/
theorem foldl_rename_of_new {o : ℕ} : ∀ (l : List ((ℕ × ℕ) × ℕ)) (m : ℕ → ℕ),
    (∀ x ∈ l, x.1.2 < cfg.numUnits ∧ x.2 < cfg.numUnits) → (l.map Prod.snd).Nodup →
    (∀ x ∈ l, x.1.2 ≠ r) → ((g, o), r) ∈ l → l.foldl (renameOne cfg) m r = g
  | x :: l, m, hlt, hnd, hold, hm => by
    rw [List.map_cons, List.nodup_cons] at hnd
    have hlt' : ∀ y ∈ l, y.1.2 < cfg.numUnits ∧ y.2 < cfg.numUnits :=
      fun y hy => hlt y (List.mem_cons_of_mem _ hy)
    have hold' : ∀ y ∈ l, y.1.2 ≠ r := fun y hy => hold y (List.mem_cons_of_mem _ hy)
    rw [List.foldl_cons]
    rcases List.mem_cons.mp hm with rfl | hm
    · obtain ⟨h1, h2⟩ := hlt _ (List.mem_cons_self ..)
      rw [foldl_rename_of_notMem l _ hlt' (fun y hy he => hnd.1 (List.mem_map.mpr ⟨y, hy, he⟩)) hold',
        renameOne_eq h1 h2, Function.update_self]
    · exact foldl_rename_of_new l _ hlt' hnd.2 hold' hm

theorem foldl_rename_of_old : ∀ (l : List ((ℕ × ℕ) × ℕ)) (m : ℕ → ℕ),
    (∀ x ∈ l, x.1.2 < cfg.numUnits ∧ x.2 < cfg.numUnits) → (∀ x ∈ l, x.2 ≠ r) →
    (m r = absent ∨ ∃ x ∈ l, x.1.2 = r) → l.foldl (renameOne cfg) m r = absent
  | [], m, _, _, h => by
    rcases h with h | ⟨x, hx, -⟩
    · exact h
    · cases hx
  | x :: l, m, hlt, hnew, h => by
    obtain ⟨h1, h2⟩ := hlt x (List.mem_cons_self ..)
    rw [List.foldl_cons]
    refine foldl_rename_of_old l _ (fun y hy => hlt y (List.mem_cons_of_mem _ hy))
      (fun y hy => hnew y (List.mem_cons_of_mem _ hy)) ?_
    rw [renameOne_eq h1 h2, Function.update_of_ne (hnew x (List.mem_cons_self ..)).symm]
    rcases eq_or_ne r x.1.2 with rfl | hne
    · exact Or.inl (Function.update_self ..)
    · rw [Function.update_of_ne hne]
      rcases h with h | ⟨y, hy, he⟩
      · exact Or.inl h
      · rcases List.mem_cons.mp hy with rfl | hy
        · exact absurd he.symm hne
        · exact Or.inr ⟨y, hy, he⟩

end

/-! ### Admission and renaming rebind slots -/

/-- Binding the first slots of the ring to as many new records. -/
theorem rebound_of_pop (h : Mapped cfg c) {new : List ℕ} (hf : Fresh cfg c new)
    (hn : new.length ≤ c.freeSlots)
    (hmap : c'.cridToGrid = bulkInsert cfg new ((c.ring cfg).take new.length) c.cridToGrid)
    (hres : c'.resident = setGridToCrid ((c.ring cfg).take new.length) new c.resident)
    (hring : c'.ring cfg = (c.ring cfg).drop new.length) (hhead : c'.ringHead ≤ c'.ringTail) :
    Rebound cfg c c' (((c.ring cfg).take new.length).zip new) := by
  have hlen : ((c.ring cfg).take new.length).length = new.length := by
    rw [List.length_take, ring_length]
    omega
  have hfst : (((c.ring cfg).take new.length).zip new).map Prod.fst =
      (c.ring cfg).take new.length := List.map_fst_zip hlen.le
  have hsnd : (((c.ring cfg).take new.length).zip new).map Prod.snd = new :=
    List.map_snd_zip hlen.ge
  have hfst' : (new.zip ((c.ring cfg).take new.length)).map Prod.fst = new :=
    List.map_fst_zip hlen.ge
  have hgrids : ((c.ring cfg).take new.length).Nodup :=
    h.ring_nodup.sublist (List.take_sublist _ _)
  rw [bulkInsert_eq hf.lt] at hmap
  refine ⟨?_, ?_, ?_, ?_, ?_, hhead, ?_, ?_⟩
  · intro x hx
    rw [hres, setGridToCrid]
    exact foldl_update_of_mem _ _ (hfst.symm ▸ hgrids) hx
  · intro g hg
    rw [hres, setGridToCrid]
    exact foldl_update_of_notMem _ _ hg
  · intro x hx
    rw [hmap]
    refine foldl_update_of_mem _ _ (hfst'.symm ▸ hf.nodup) ?_
    rw [← List.zip_swap]
    exact List.mem_map.mpr ⟨x, hx, rfl⟩
  · -- a slot of the ring holds no record
    intro g hg hne
    rw [hfst] at hg
    exact absurd (h.ring_empty g (List.mem_of_mem_take hg)) hne
  · intro r hr _
    rw [hsnd] at hr
    rw [hmap]
    exact foldl_update_of_notMem _ _ (hfst'.symm ▸ hr)
  · rw [hring]
    exact List.drop_sublist _ _
  · intro g
    rw [hring, hfst]
    have hsplit := h.ring_nodup
    rw [← List.take_append_drop new.length (c.ring cfg)] at hsplit
    have hdisj := (List.nodup_append'.mp hsplit).2.2
    constructor
    · exact fun hg => ⟨List.mem_of_mem_drop hg, fun ht => hdisj ht hg⟩
    · rintro ⟨hg, hn⟩
      rw [← List.take_append_drop new.length (c.ring cfg)] at hg
      exact (List.mem_append.mp hg).resolve_left hn

/-- Renaming the victims' slots. -/
theorem rebound_of_rename (h : Mapped cfg c) {new keys : List ℕ} (hf : Fresh cfg c new)
    {vs : List (ℕ × ℕ)} (hv : Victims cfg c keys new.length vs)
    (hmap : c'.cridToGrid = bulkUpdateCrid cfg vs new c.cridToGrid)
    (hres : c'.resident = setGridToCrid (vs.map Prod.fst) new c.resident)
    (hring : c'.ring cfg = c.ring cfg) (hhead : c'.ringHead ≤ c'.ringTail) :
    Rebound cfg c c' ((vs.map Prod.fst).zip new) := by
  have hlen : (vs.map Prod.fst).length = new.length := by rw [List.length_map, hv.length]
  have hfst : ((vs.map Prod.fst).zip new).map Prod.fst = vs.map Prod.fst :=
    List.map_fst_zip hlen.le
  have hsnd : ((vs.map Prod.fst).zip new).map Prod.snd = new := List.map_snd_zip hlen.ge
  have hzip : (vs.zip new).map Prod.snd = new := List.map_snd_zip hv.length.ge
  have hvlt : ∀ v ∈ vs, v.2 < cfg.numUnits := by
    intro v hmem
    obtain ⟨hres, hne⟩ := hv.resident v hmem
    rw [hres] at hne ⊢
    exact (h.crid_of_grid v.1 (hv.slot v hmem) hne).1
  have hlt : ∀ x ∈ vs.zip new, x.1.2 < cfg.numUnits ∧ x.2 < cfg.numUnits := by
    intro x hx
    exact ⟨hvlt x.1 (List.of_mem_zip hx).1, hf.lt x.2 (List.of_mem_zip hx).2⟩
  -- a victim's record is resident, a new one is not
  have hapart : ∀ v ∈ vs, ∀ r ∈ new, v.2 ≠ r := by
    intro v hmem r hr
    rw [(hv.resident v hmem).1]
    exact h.resident_ne hf (hv.slot v hmem) hr
  refine ⟨?_, ?_, ?_, ?_, ?_, hhead, ?_, ?_⟩
  · intro x hx
    rw [hres, setGridToCrid]
    exact foldl_update_of_mem _ _ (hfst.symm ▸ hv.distinct) hx
  · intro g hg
    rw [hres, setGridToCrid]
    exact foldl_update_of_notMem _ _ hg
  · intro x hx
    rw [List.zip_map_left, List.mem_map] at hx
    obtain ⟨y, hy, rfl⟩ := hx
    rw [hmap, bulkUpdateCrid]
    refine foldl_rename_of_new _ _ hlt (hzip.symm ▸ hf.nodup) ?_ hy
    exact fun z hz => hapart z.1 (List.of_mem_zip hz).1 y.2 (List.of_mem_zip hy).2
  · intro g hg _
    rw [hfst] at hg
    obtain ⟨v, hmem, rfl⟩ := List.mem_map.mp hg
    rw [hmap, bulkUpdateCrid, ← (hv.resident v hmem).1]
    refine foldl_rename_of_old _ _ hlt (fun x hx he => ?_) (Or.inr ?_)
    · exact hapart v hmem x.2 (List.of_mem_zip hx).2 he.symm
    · have hv' : v ∈ (vs.zip new).map Prod.fst := by
        rw [List.map_fst_zip hv.length.le]
        exact hmem
      obtain ⟨x, hx, rfl⟩ := List.mem_map.mp hv'
      exact ⟨x, hx, rfl⟩
  · intro r hr hne
    rw [hsnd] at hr
    rw [hfst] at hne
    rw [hmap, bulkUpdateCrid]
    refine foldl_rename_of_notMem _ _ hlt (fun x hx he => hr (he ▸ (List.of_mem_zip hx).2)) ?_
    intro x hx
    have hmem := (List.of_mem_zip hx).1
    rw [(hv.resident x.1 hmem).1]
    exact hne x.1.1 (List.mem_map_of_mem hmem)
  · rw [hring]
  · intro g
    rw [hring, hfst]
    refine ⟨fun hg => ⟨hg, fun hm => ?_⟩, fun hg => hg.1⟩
    obtain ⟨v, hmem, rfl⟩ := List.mem_map.mp hm
    obtain ⟨hres, hne⟩ := hv.resident v hmem
    exact hne (hres.trans (h.ring_empty v.1 hg))

theorem Rebound.fresh (hb : Rebound cfg c c' pairs) {new : List ℕ} (hf : Fresh cfg c new)
    (hp : ∀ r ∈ new, r ∉ pairs.map Prod.snd) : Fresh cfg c' new := by
  refine ⟨hf.nodup, hf.lt, fun r hr => ?_⟩
  rcases Classical.em (∃ g ∈ pairs.map Prod.fst, c.resident g = r) with ⟨g, hg, rfl⟩ | hv
  · have := hf.lt _ hr
    have := cfg.numUnits_le
    exact hb.grid_of_victim g hg (by omega)
  · rw [hb.grid_of_notMem r (hp r hr) fun g hg he => hv ⟨g, hg, he⟩]
    exact hf.unmapped r hr

/-- The records of `pairs` are resident afterwards. -/
theorem Rebound.admits (hb : Rebound cfg c c' pairs) (hslots : ∀ x ∈ pairs, x.1 < cfg.capacity)
    {r : ℕ} (hr : r ∈ pairs.map Prod.snd) : c'.cridToGrid r ≠ absent := by
  obtain ⟨x, hx, rfl⟩ := List.mem_map.mp hr
  have := hslots x hx
  have := cfg.capacity_lt_absent
  rw [hb.grid_of_mem x hx]
  omega

/-- A resident that loses no slot stays resident. -/
theorem Rebound.keeps (hb : Rebound cfg c c' pairs) (hslots : ∀ x ∈ pairs, x.1 < cfg.capacity)
    {r : ℕ} (hr : c.cridToGrid r ≠ absent) (hv : ∀ g ∈ pairs.map Prod.fst, c.resident g ≠ r) :
    c'.cridToGrid r ≠ absent := by
  rcases Classical.em (r ∈ pairs.map Prod.snd) with hp | hp
  · exact hb.admits hslots hp
  · rw [hb.grid_of_notMem r hp hv]
    exact hr

/-! ### Preparing an epoch keeps the invariant -/

variable (cfg) in
/-- A schedule under which every kernel of the epoch runs to its end. -/
structure Schedule.Complete (sched : Schedule) (keys : List ℕ) (c : Cache) : Prop where
  order : sched.order.Perm (missed cfg c (buildNeeded keys))
  collects : c.freeSlots < sched.order.length →
    ∃ s₁ s₂, Collection cfg c (markNeeded cfg c.cridToGrid (buildNeeded keys))
      (sched.order.length - c.freeSlots) sched s₁ s₂

theorem Schedule.Complete.fresh {sched : Schedule} {keys : List ℕ} (hs : sched.Complete cfg keys c)
    (hk : Keys cfg keys) : Fresh cfg c sched.order := by
  refine ⟨hs.order.nodup_iff.mpr ((nodup_buildNeeded keys).filter _), fun r hr => ?_, fun r hr => ?_⟩
  · exact lt_of_mem_missed hk (hs.order.mem_iff.mp hr)
  · have hr := hs.order.mem_iff.mp hr
    have hl := (mem_missed.mp hr).2.1
    rwa [lookup, if_pos (lt_of_mem_missed hk hr)] at hl

variable (cfg) in
/-- The records of `new` are brought in, and those of `kept` that were resident stay. -/
structure Admits (c c' : Cache) (new kept : List ℕ) : Prop where
  mapped : Mapped cfg c'
  admitted : ∀ r ∈ new, c'.cridToGrid r ≠ absent
  kept : ∀ r ∈ kept, c.cridToGrid r ≠ absent → c'.cridToGrid r ≠ absent

theorem Rebound.admits_keeps (h : Mapped cfg c) (hb : Rebound cfg c c' pairs)
    (hslots : ∀ x ∈ pairs, x.1 < cfg.capacity) {new kept : List ℕ} (hnew : pairs.map Prod.snd = new)
    (hf : Fresh cfg c new) (hkept : ∀ r ∈ kept, ∀ g ∈ pairs.map Prod.fst, c.resident g ≠ r) :
    Admits cfg c c' new kept :=
  ⟨h.rebound hb hslots (hnew.symm ▸ hf), fun _ hr => hb.admits hslots (hnew.symm ▸ hr),
    fun r hr hne => hb.keeps hslots hne (hkept r hr)⟩

theorem take_ring_length {n : ℕ} (hn : n ≤ c.freeSlots) : ((c.ring cfg).take n).length = n := by
  rw [List.length_take, ring_length]
  omega

/-- Admission from the ring: its slots belong to no record, so nobody is evicted. -/
theorem admits_of_pop (h : Mapped cfg c) {new kept : List ℕ} (hf : Fresh cfg c new)
    (hn : new.length ≤ c.freeSlots) (hk : ∀ r ∈ kept, r < cfg.numUnits)
    (hb : Rebound cfg c c' (((c.ring cfg).take new.length).zip new)) :
    Admits cfg c c' new kept := by
  refine hb.admits_keeps h (fun x hx => ?_) (List.map_snd_zip (take_ring_length hn).ge) hf ?_
  · exact h.ring_lt x.1 (List.mem_of_mem_take (List.of_mem_zip hx).1)
  · intro r hr g hg
    obtain ⟨x, hx, rfl⟩ := List.mem_map.mp hg
    rw [h.ring_empty x.1 (List.mem_of_mem_take (List.of_mem_zip hx).1)]
    have := hk r hr
    have := cfg.numUnits_le
    omega

/-- With enough free slots the pop is granted in full and binds every new record. -/
theorem pop_admits (h : Mapped cfg c) {new kept : List ℕ} (hf : Fresh cfg c new)
    (hn : new.length ≤ c.freeSlots) (hk : ∀ r ∈ kept, r < cfg.numUnits) :
    (ringPop cfg new.length c).1.length = new.length ∧
      Admits cfg c { (ringPop cfg new.length c).2 with
        cridToGrid := bulkInsert cfg new (ringPop cfg new.length c).1 c.cridToGrid
        resident := setGridToCrid (ringPop cfg new.length c).1 new c.resident } new kept := by
  have hgrids := ringPop_fst cfg c new.length
  obtain ⟨hring, hhead⟩ := ringPop_ring cfg new.length h.head_le
  refine ⟨by rw [hgrids, take_ring_length hn], admits_of_pop h hf hn hk ?_⟩
  exact rebound_of_pop h hf hn (by rw [← hgrids]) (by rw [← hgrids]) hring hhead

theorem admit_admits (h : Mapped cfg c) {new kept : List ℕ} (insertKeys : List ℕ)
    (hf : Fresh cfg c new) (hn : new.length ≤ c.freeSlots) (hk : ∀ r ∈ kept, r < cfg.numUnits) :
    ∃ p, admitFree cfg new insertKeys c = .ok p ∧ Admits cfg c p.cache new kept ∧
      p.cache.fifoNextGrid = c.fifoNextGrid := by
  obtain ⟨hlen, ha⟩ := pop_admits h hf hn hk
  rw [admitFree, if_neg (not_not.mpr hlen)]
  exact ⟨_, rfl, ha, rfl⟩

theorem admitRest_admits (h : Mapped cfg c) {new kept : List ℕ} (hf : Fresh cfg c new)
    (hn : new.length ≤ c.freeSlots) (hk : ∀ r ∈ kept, r < cfg.numUnits) :
    Admits cfg c (admitRest cfg new c).2 new kept := by
  have hgrids := ringPop_fst cfg c new.length
  obtain ⟨hring, hhead⟩ := ringPop_ring cfg new.length h.head_le
  have hlen := (take_ring_length hn : ((c.ring cfg).take _).length = _)
  refine admits_of_pop h hf hn hk (rebound_of_pop h hf hn ?_ ?_ hring hhead)
  · simp only [admitRest, hgrids, hlen, List.take_length]
  · simp only [admitRest, hgrids, hlen, List.take_length]

/-- Renaming brings in as many records as there are victims and evicts no needed one. -/
theorem rename_admits (h : Mapped cfg c) {new keys : List ℕ} (hf : Fresh cfg c new)
    {vs : List (ℕ × ℕ)} (hv : Victims cfg c keys new.length vs) (cursor : ℕ) :
    let c' := rename cfg vs new { c with fifoNextGrid := cursor }
    Admits cfg c c' new keys ∧
      ∀ rest, Fresh cfg c rest → (∀ r ∈ rest, r ∉ new) → Fresh cfg c' rest := by
  intro c'
  have hlen : (vs.map Prod.fst).length = new.length := by rw [List.length_map, hv.length]
  have hsnd : ((vs.map Prod.fst).zip new).map Prod.snd = new := List.map_snd_zip hlen.ge
  have hb : Rebound cfg c c' ((vs.map Prod.fst).zip new) :=
    rebound_of_rename h hf hv rfl rfl rfl h.head_le
  refine ⟨hb.admits_keeps h ?_ hsnd hf ?_, fun rest hr hn => hb.fresh hr (hsnd.symm ▸ hn)⟩
  · intro x hx
    obtain ⟨v, hmem, he⟩ := List.mem_map.mp (List.of_mem_zip hx).1
    exact he ▸ hv.slot v hmem
  · intro r hr g hg he
    obtain ⟨x, hx, rfl⟩ := List.mem_map.mp hg
    obtain ⟨v, hmem, hvx⟩ := List.mem_map.mp (List.of_mem_zip hx).1
    rw [← hvx, ← (hv.resident v hmem).1] at he
    exact hv.spared v hmem (he ▸ hr)

/-- The collecting kernels give `collect` its victims. -/
theorem collect_victims (h : Mapped cfg c) (hcur : c.fifoNextGrid < cfg.capacity) {keys : List ℕ}
    (hk : Keys cfg keys) (hn : (buildNeeded keys).length ≤ cfg.capacity) {sched : Schedule}
    (hs : sched.Complete cfg keys c) (hlt : c.freeSlots < sched.order.length) :
    ∃ vs cursor, collect cfg sched (markNeeded cfg c.cridToGrid (buildNeeded keys))
        (sched.order.length - c.freeSlots) c = .ok (vs, cursor) ∧ cursor < cfg.capacity ∧
      Victims cfg c keys (sched.order.length - c.freeSlots) vs := by
  obtain ⟨s₁, s₂, hc⟩ := hs.collects hlt
  have hrec : (records keys).length ≤ cfg.capacity := (List.length_filter_le _ _).trans hn
  obtain ⟨hcount, vs, hvs, hv⟩ :=
    collection_victims h hcur hk hrec (hs.order.length_eq ▸ le_rfl) hc
  refine ⟨vs, advanceCursor cfg c s₂, ?_, Nat.mod_lt _ (by omega), hv⟩
  simp only [collect, hc.reclaim, hc.fifo, if_neg (Nat.not_lt.mpr hcount), hvs]

theorem Keys.lt {keys : List ℕ} (hk : Keys cfg keys) {r : ℕ} (hr : r ∈ keys) (hne : r ≠ absent) :
    r < cfg.numUnits := by
  rcases hk r hr with h | ⟨-, h⟩
  · exact h
  · exact absurd h hne

theorem evict_admits (h : Mapped cfg c) (hcur : c.fifoNextGrid < cfg.capacity) {keys : List ℕ}
    (hk : Keys cfg keys) (hn : (buildNeeded keys).length ≤ cfg.capacity) {sched : Schedule}
    (hs : sched.Complete cfg keys c) (hlt : c.freeSlots < sched.order.length)
    (insertKeys : List ℕ) :
    ∃ p, evict cfg sched (markNeeded cfg c.cridToGrid (buildNeeded keys)) sched.order insertKeys c
        = .ok p ∧ Admits cfg c p.cache sched.order (records keys) ∧
      p.cache.fifoNextGrid < cfg.capacity := by
  have hf := hs.fresh hk
  obtain ⟨vs, cursor, hcollect, hcursor, hv⟩ := collect_victims h hcur hk hn hs hlt
  simp only [evict, hcollect]
  generalize hd : sched.order.length - c.freeSlots = d at hv ⊢
  -- the victims' slots go to the first `d` records, what the ring still holds to the rest
  have htake : (sched.order.take d).length = d := by
    rw [List.length_take]
    omega
  have hdrop : (sched.order.drop d).length = c.freeSlots := by
    rw [List.length_drop]
    omega
  have hkeys : ∀ r ∈ records keys, r ∈ keys ∧ r < cfg.numUnits := by
    intro r hr
    obtain ⟨hmem, hne⟩ := List.mem_filter.mp hr
    have hmem := mem_buildNeeded.mp hmem
    exact ⟨hmem, hk.lt hmem (by simpa using hne)⟩
  obtain ⟨ha₁, hrest⟩ := rename_admits h (hf.sublist (List.take_sublist d _)) (htake.symm ▸ hv) cursor
  have hnodup := hf.nodup
  rw [← List.take_append_drop d sched.order] at hnodup
  have hf₂ := hrest _ (hf.sublist (List.drop_sublist d _)) fun r hr hm =>
    (List.nodup_append'.mp hnodup).2.2 hm hr
  split
  · rename_i h0
    have hall : sched.order.take d = sched.order := List.take_of_length_le (by omega)
    refine ⟨_, rfl, ⟨ha₁.mapped, fun r hr => ha₁.admitted r (hall.symm ▸ hr), ?_⟩, hcursor⟩
    exact fun r hr => ha₁.kept r (hkeys r hr).1
  · have ha₂ : Admits cfg _ _ _ (records keys ++ sched.order.take d) :=
      admitRest_admits ha₁.mapped hf₂ hdrop.le fun r hr => by
        rcases List.mem_append.mp hr with hr | hr
        · exact (hkeys r hr).2
        · exact hf.lt r (List.mem_of_mem_take hr)
    refine ⟨_, rfl, ⟨ha₂.mapped, fun r hr => ?_, fun r hr hne => ?_⟩, hcursor⟩
    · rw [← List.take_append_drop d sched.order] at hr
      rcases List.mem_append.mp hr with hr | hr
      · exact ha₂.kept r (List.mem_append_right _ hr) (ha₁.admitted r hr)
      · exact ha₂.admitted r hr
    · exact ha₂.kept r (List.mem_append_left _ hr) (ha₁.kept r (hkeys r hr).1 hne)

variable (cfg) in
/-- What `prepareEpoch` promises of the cache it leaves. -/
structure Ready (keys : List ℕ) (c : Cache) : Prop where
  mapped : Mapped cfg c
  cursor : 0 < cfg.capacity → c.fifoNextGrid < cfg.capacity
  resident : ∀ r ∈ keys, r ≠ absent → c.cridToGrid r ≠ absent

theorem Admits.resident {keys new : List ℕ} (hk : Keys cfg keys)
    (hperm : new.Perm (missed cfg c (buildNeeded keys)))
    (ha : Admits cfg c c' new (records keys)) :
    ∀ r ∈ keys, r ≠ absent → c'.cridToGrid r ≠ absent := by
  intro r hr hne
  have hmem := mem_buildNeeded.mpr hr
  rcases Classical.em (c.cridToGrid r = absent) with he | he
  · refine ha.admitted r (hperm.mem_iff.mpr (mem_missed.mpr ⟨hmem, ?_, fun _ => hne⟩))
    rw [lookup, if_pos (hk.lt hr hne), he]
  · exact ha.kept r (List.mem_filter.mpr ⟨hmem, by simpa using hne⟩) he

theorem prepareEpoch_ready (h : Mapped cfg c)
    (hcur : 0 < cfg.capacity → c.fifoNextGrid < cfg.capacity) {keys : List ℕ}
    (hk : Keys cfg keys) (hn : (buildNeeded keys).length ≤ cfg.capacity)
    (he : ¬ ((buildNeeded keys).length = 0 ∧ cfg.tpcc = false)) {sched : Schedule}
    (hs : sched.Complete cfg keys c) (insertKeys : List ℕ) :
    ∃ p, prepareEpoch cfg sched keys insertKeys c = .ok p ∧ Ready cfg keys p.cache := by
  have hrecs : ∀ r ∈ records keys, r < cfg.numUnits := by
    intro r hr
    obtain ⟨hmem, hne⟩ := List.mem_filter.mp hr
    exact hk.lt (mem_buildNeeded.mp hmem) (by simpa using hne)
  simp only [prepareEpoch, if_neg (Nat.not_lt.mpr hn), if_neg he]
  split
  · -- nothing is missed
    rename_i h0
    have hnil : sched.order = [] := List.length_eq_zero_iff.mp h0
    have ha : Admits cfg c c sched.order (records keys) :=
      ⟨h, by simp [hnil], fun _ _ hne => hne⟩
    exact ⟨_, rfl, h, hcur, ha.resident hk hs.order⟩
  · split
    · rename_i hle
      obtain ⟨p, hp, ha, hc⟩ := admit_admits h insertKeys (hs.fresh hk) hle hrecs
      exact ⟨p, hp, ha.mapped, hc ▸ hcur, ha.resident hk hs.order⟩
    · rename_i hne hlt
      have hcap : 0 < cfg.capacity := by
        have h1 := hs.order.length_eq
        have h2 : (missed cfg c (buildNeeded keys)).length ≤ (buildNeeded keys).length :=
          List.length_filter_le _ _
        omega
      obtain ⟨p, hp, ha, hc⟩ := evict_admits h (hcur hcap) hk hn hs (Nat.lt_of_not_le hlt) insertKeys
      exact ⟨p, hp, ha.mapped, fun _ => hc, ha.resident hk hs.order⟩

/-- `prepareEpoch` fails in two ways only. -/
theorem prepareEpoch_cases (h : Mapped cfg c)
    (hcur : 0 < cfg.capacity → c.fifoNextGrid < cfg.capacity) {keys : List ℕ}
    (hk : Keys cfg keys) {sched : Schedule} (hs : sched.Complete cfg keys c)
    (insertKeys : List ℕ) :
    (cfg.capacity < (buildNeeded keys).length ∧
      prepareEpoch cfg sched keys insertKeys c = .error .neededExceedsCapacity) ∨
    (keys = [] ∧ cfg.tpcc = false ∧
      prepareEpoch cfg sched keys insertKeys c = .error .emptyLaunch) ∨
    ∃ p, prepareEpoch cfg sched keys insertKeys c = .ok p ∧ Ready cfg keys p.cache := by
  rcases Nat.lt_or_ge cfg.capacity (buildNeeded keys).length with hlt | hle
  · exact Or.inl ⟨hlt, by rw [prepareEpoch, if_pos hlt]⟩
  rcases Classical.em ((buildNeeded keys).length = 0 ∧ cfg.tpcc = false) with he | he
  · refine Or.inr (Or.inl ⟨?_, he.2, ?_⟩)
    · have hnil : buildNeeded keys = [] := List.length_eq_zero_iff.mp he.1
      exact List.eq_nil_iff_forall_not_mem.mpr fun k hk' => by
        have := mem_buildNeeded.mpr hk'
        simp [hnil] at this
    · simp only [prepareEpoch, if_neg (Nat.not_lt.mpr hle), if_pos he]
  · exact Or.inr (Or.inr (prepareEpoch_ready h hcur hk hle he hs insertKeys))

/-! ### Runs -/

variable (cfg) in
theorem initial_ring : (Cache.initial cfg).ring cfg = List.range cfg.capacity := by
  rw [Cache.ring]
  refine (List.map_congr_left fun i hi => ?_).trans (List.map_id _)
  have hi : i < cfg.capacity := List.mem_range.mp hi
  simp only [Cache.initial, Nat.zero_add, Nat.mod_eq_of_lt hi, id]

theorem initial_mapped : Mapped cfg (Cache.initial cfg) where
  head_le := Nat.zero_le _
  ring_nodup := initial_ring cfg ▸ List.nodup_range
  ring_lt _ hg := List.mem_range.mp (initial_ring cfg ▸ hg)
  ring_empty _ _ := rfl
  ring_or_resident _ hg := Or.inl (initial_ring cfg ▸ List.mem_range.mpr hg)
  grid_of_crid _ _ hne := absurd rfl hne
  crid_of_grid _ _ hne := absurd rfl hne

theorem mem_undelivered {W r : ℕ} : r ∈ undeliveredOrderLines W ↔
    ∃ w < W, ∃ d < 10, ∃ i < 13500, (w * 10 + d) * 45000 + 2100 * 15 + i = r := by
  simp only [undeliveredOrderLines, List.mem_flatMap, List.mem_map, List.mem_range]

theorem undelivered_nodup (W : ℕ) : (undeliveredOrderLines W).Nodup := by
  rw [undeliveredOrderLines, List.nodup_flatMap]
  refine ⟨fun w _ => ?_, List.nodup_range.imp fun {w w'} hne => ?_⟩
  · rw [List.nodup_flatMap]
    refine ⟨fun d _ => ?_, List.nodup_range.imp fun {d d'} hne => ?_⟩
    · exact List.nodup_range.map fun i j hij => Nat.add_left_cancel hij
    · intro r hr hr'
      simp only [List.mem_map, List.mem_range] at hr hr'
      obtain ⟨i, hi, rfl⟩ := hr
      obtain ⟨j, hj, he⟩ := hr'
      omega
  · intro r hr hr'
    simp only [List.mem_flatMap, List.mem_map, List.mem_range] at hr hr'
    obtain ⟨d, hd, i, hi, rfl⟩ := hr
    obtain ⟨d', hd', j, hj, he⟩ := hr'
    omega

theorem undelivered_length (W : ℕ) : (undeliveredOrderLines W).length = W * 10 * 13500 := by
  simp only [undeliveredOrderLines, List.length_flatMap, List.length_map, List.length_range,
    List.map_const', List.sum_replicate_nat, Nat.mul_assoc]

/-- The pre-warm of the loaded order lines, `W * 10 * 45000` of them. -/
theorem prewarm_mapped {W : ℕ} (hW : W * 10 * 45000 ≤ cfg.numUnits) :
    Mapped cfg (prewarm cfg W (Cache.initial cfg)) ∧
      (prewarm cfg W (Cache.initial cfg)).fifoNextGrid = 0 := by
  rw [prewarm]
  split
  · exact ⟨initial_mapped, rfl⟩
  · rename_i hcap
    have hf : Fresh cfg (Cache.initial cfg) (undeliveredOrderLines W) := by
      refine ⟨undelivered_nodup W, fun r hr => ?_, fun _ _ => rfl⟩
      obtain ⟨w, hw, d, hd, i, hi, he⟩ := mem_undelivered.mp hr
      omega
    have hn : (undeliveredOrderLines W).length ≤ (Cache.initial cfg).freeSlots := by
      rw [undelivered_length]
      exact (Nat.lt_of_not_le hcap).le
    obtain ⟨hlen, ha⟩ := @pop_admits cfg _ initial_mapped _ [] hf hn (by simp)
    rw [if_neg (not_not.mpr hlen)]
    exact ⟨ha.mapped, rfl⟩

variable (cfg) in
/-- The caches a run can reach: built empty, perhaps pre-warmed, then prepared for one epoch after
    another, with reclaim marks in between. -/
inductive Reachable : Cache → Prop
  | initial : Reachable (Cache.initial cfg)
  | prewarm {W : ℕ} : W * 10 * 45000 ≤ cfg.numUnits →
    Reachable (prewarm cfg W (Cache.initial cfg))
  | reclaim {c : Cache} (crids : List ℕ) : Reachable c → Reachable (markReclaimable cfg crids c)
  | prepare {c : Cache} {sched : Schedule} {keys insertKeys : List ℕ} {p : Prepared} :
    Reachable c → Keys cfg keys → sched.Complete cfg keys c →
    prepareEpoch cfg sched keys insertKeys c = .ok p → Reachable p.cache

/-- The invariant of a run. -/
theorem reachable_mapped (h : Reachable cfg c) :
    Mapped cfg c ∧ (0 < cfg.capacity → c.fifoNextGrid < cfg.capacity) := by
  induction h with
  | initial => exact ⟨initial_mapped, fun h => h⟩
  | prewarm hW =>
    obtain ⟨hm, hc⟩ := prewarm_mapped hW
    exact ⟨hm, fun h => hc ▸ h⟩
  | reclaim crids _ ih =>
    rw [markReclaimable]
    split
    · exact ⟨⟨ih.1.head_le, ih.1.ring_nodup, ih.1.ring_lt, ih.1.ring_empty, ih.1.ring_or_resident,
        ih.1.grid_of_crid, ih.1.crid_of_grid⟩, ih.2⟩
    · exact ih
  | @prepare c sched keys insertKeys p _ hk hs hp ih =>
    rcases prepareEpoch_cases ih.1 ih.2 hk hs insertKeys with ⟨-, h⟩ | ⟨-, -, h⟩ | ⟨p', h, hr⟩
    · rw [hp] at h
      cases h
    · rw [hp] at h
      cases h
    · rw [hp] at h
      cases h
      exact ⟨hr.mapped, hr.cursor⟩

/-! ### Records behind the table -/

variable (cfg) in
/-- The map knows no record behind the table. -/
def Outside (c : Cache) : Prop := ∀ r, cfg.numUnits ≤ r → c.cridToGrid r = absent

theorem bulkInsert_outside {crids grids : List ℕ} {m : ℕ → ℕ} {r : ℕ} (hr : cfg.numUnits ≤ r) :
    bulkInsert cfg crids grids m r = m r := by
  rw [bulkInsert]
  induction crids.zip grids generalizing m with
  | nil => rfl
  | cons x xs ih =>
    rw [List.foldl_cons, ih]
    split
    · next h => exact Function.update_of_ne (by omega) _ _
    · rfl

theorem renameOne_outside {m : ℕ → ℕ} {x : (ℕ × ℕ) × ℕ} {r : ℕ} (hr : cfg.numUnits ≤ r) :
    renameOne cfg m x r = m r := by
  have hne : ∀ {k : ℕ}, k ≠ absent ∧ k < cfg.numUnits → r ≠ k := by omega
  rw [renameOne]
  split
  · next h₂ =>
    rw [Function.update_of_ne (hne h₂)]
    split
    · next h₁ => exact Function.update_of_ne (hne h₁) _ _
    · rfl
  · split
    · next h₁ => exact Function.update_of_ne (hne h₁) _ _
    · rfl

theorem bulkUpdateCrid_outside {vs : List (ℕ × ℕ)} {news : List ℕ} {m : ℕ → ℕ} {r : ℕ}
    (hr : cfg.numUnits ≤ r) : bulkUpdateCrid cfg vs news m r = m r := by
  rw [bulkUpdateCrid]
  induction vs.zip news generalizing m with
  | nil => rfl
  | cons x xs ih => rw [List.foldl_cons, ih, renameOne_outside hr]

theorem Outside.prepare (h : Outside cfg c) {sched : Schedule} {keys insertKeys : List ℕ} {p : Prepared}
    (hp : prepareEpoch cfg sched keys insertKeys c = .ok p) : Outside cfg p.cache := by
  intro r hr
  have hmap := h r hr
  rw [prepareEpoch] at hp
  dsimp only at hp
  split at hp
  · cases hp
  split at hp
  · cases hp
  split at hp
  · obtain rfl := Except.ok.inj hp
    exact hmap
  split at hp
  · rw [admitFree] at hp
    dsimp only at hp
    split at hp
    · cases hp
    · obtain rfl := Except.ok.inj hp
      exact (bulkInsert_outside hr).trans hmap
  · rw [evict] at hp
    dsimp only at hp
    split at hp
    · cases hp
    · split at hp
      · obtain rfl := Except.ok.inj hp
        exact (bulkUpdateCrid_outside hr).trans hmap
      · obtain rfl := Except.ok.inj hp
        exact (bulkInsert_outside hr).trans ((bulkUpdateCrid_outside hr).trans hmap)

theorem reachable_outside (h : Reachable cfg c) : Outside cfg c := by
  induction h with
  | initial => exact fun _ _ => rfl
  | @prewarm W _ =>
    intro r hr
    rw [prewarm]
    split
    · rfl
    · dsimp only
      split
      · rfl
      · exact bulkInsert_outside hr
  | reclaim crids _ ih =>
    rw [markReclaimable]
    split
    · exact ih
    · exact ih
  | prepare _ _ _ hp ih => exact ih.prepare hp

variable (cfg) in
/-- Every epoch has a complete schedule: the collecting kernels terminate. -/
theorem exists_complete (keys : List ℕ) (c : Cache) :
    ∃ sched : Schedule, sched.Complete cfg keys c := by
  generalize hF : markNeeded cfg c.cridToGrid (buildNeeded keys) = needed
  generalize hd : (missed cfg c (buildNeeded keys)).length - c.freeSlots = d
  have hr : Claim.Terminates (reclaimPass c.resident c.reclaimFlag) d (reclaimStart cfg needed) :=
    Claim.start_terminates
  obtain ⟨ts₁, s₁, hrun₁, hfin₁⟩ : ∃ ts s, afterReclaim cfg c needed d ts = some s ∧
      (cfg.reclaimActive = true → s.Finished) := by
    obtain ⟨N, hr⟩ := hr
    obtain ⟨-, ts, s, hrun, hfin⟩ := hr [] _ rfl
    rcases Bool.eq_false_or_eq_true cfg.reclaimActive with hact | hact
    · exact ⟨ts, s, by rw [afterReclaim, if_pos hact]; exact hrun, fun _ => hfin⟩
    · exact ⟨[], reclaimStart cfg needed, by simp [afterReclaim, hact], by simp [hact]⟩
  have hf : Claim.Terminates (fifoPass cfg.capacity c.fifoNextGrid c.resident s₁.mem) d
      (fifoStart cfg s₁) := Claim.start_terminates
  obtain ⟨N, hf⟩ := hf
  obtain ⟨-, ts₂, s₂, hrun₂, hfin₂⟩ := hf [] _ rfl
  refine ⟨⟨missed cfg c (buildNeeded keys), ts₁, ts₂⟩, List.Perm.refl _, fun _ => ?_⟩
  rw [hF, hd]
  exact ⟨s₁, s₂, hrun₁, hfin₁, hrun₂, hfin₂⟩

/-- In every cache that is reached with epochs that need records of the table only, the map and the
    resident list are inverse to each other and the ring and the residents share the slots;
    `prepareEpoch` fails only when the epoch needs more records than the cache holds or (YCSB) none at
    all, and otherwise leaves every needed record resident. A record behind the table is in no map
    that `prepareEpoch` leaves. -/
theorem mapping_invariant (h : Reachable cfg c) :
    Mapped cfg c ∧
    (∀ (sched : Schedule) (keys insertKeys : List ℕ), Keys cfg keys → sched.Complete cfg keys c →
      (cfg.capacity < (buildNeeded keys).length ∧
        prepareEpoch cfg sched keys insertKeys c = .error .neededExceedsCapacity) ∨
      (keys = [] ∧ cfg.tpcc = false ∧
        prepareEpoch cfg sched keys insertKeys c = .error .emptyLaunch) ∨
      ∃ p, prepareEpoch cfg sched keys insertKeys c = .ok p ∧ Mapped cfg p.cache ∧
        ∀ r ∈ keys, r ≠ absent → p.cache.cridToGrid r < cfg.capacity ∧
          p.cache.resident (p.cache.cridToGrid r) = r) ∧
    ∀ (sched : Schedule) (keys insertKeys : List ℕ) (p : Prepared),
      prepareEpoch cfg sched keys insertKeys c = .ok p →
      ∀ r, cfg.numUnits ≤ r → p.cache.cridToGrid r = absent := by
  obtain ⟨hm, hcur⟩ := reachable_mapped h
  refine ⟨hm, fun sched keys insertKeys hk hs => ?_,
    fun sched keys insertKeys p hp => (reachable_outside h).prepare hp⟩
  refine (prepareEpoch_cases hm hcur hk hs insertKeys).imp_right (Or.imp_right ?_)
  rintro ⟨p, hp, hr⟩
  refine ⟨p, hp, hr.mapped, fun r hmem hne => ?_⟩
  exact hr.mapped.grid_of_crid r (hk.lt hmem hne) (hr.resident r hmem hne)

/-- A cache of one slot: the second epoch evicts what the first brought in. -/
theorem mapping_invariant_two_epochs :
    let cfg : Config := ⟨1, 2, false, true, by decide, by decide⟩
    ∃ sched₁ p₁ sched₂ p₂, prepareEpoch cfg sched₁ [0] [] (Cache.initial cfg) = .ok p₁ ∧
      prepareEpoch cfg sched₂ [1] [] p₁.cache = .ok p₂ ∧ Mapped cfg p₂.cache ∧
      p₂.cache.resident (p₂.cache.cridToGrid 1) = 1 := by
  intro cfg
  have hk₀ : Keys cfg [0] := fun k hk => Or.inl (by simp_all [cfg])
  have hk₁ : Keys cfg [1] := fun k hk => Or.inl (by simp_all [cfg])
  obtain ⟨sched₁, hs₁⟩ := exists_complete cfg [0] (Cache.initial cfg)
  rcases (mapping_invariant (Reachable.initial : Reachable cfg _)).2.1 sched₁ [0] [] hk₀ hs₁ with
    ⟨hlt, -⟩ | ⟨hnil, -⟩ | ⟨p₁, hp₁, -, -⟩
  · exact absurd hlt (by decide)
  · exact absurd hnil (by decide)
  have hr₁ : Reachable cfg p₁.cache := .prepare .initial hk₀ hs₁ hp₁
  obtain ⟨sched₂, hs₂⟩ := exists_complete cfg [1] p₁.cache
  rcases (mapping_invariant hr₁).2.1 sched₂ [1] [] hk₁ hs₂ with
    ⟨hlt, -⟩ | ⟨hnil, -⟩ | ⟨p₂, hp₂, hm, hres⟩
  · exact absurd hlt (by decide)
  · exact absurd hnil (by decide)
  exact ⟨sched₁, p₁, sched₂, p₂, hp₁, hp₂, hm, (hres 1 (by simp) (by decide)).2⟩

/-- Four slots over an order-line table of 450247 records, of which an epoch needs the next one: slot 0
    is taken for it and names it, and the map does not know it. -/
theorem mapping_behind_table :
    let cfg : Config := ⟨4, 450247, true, true, by decide, by decide⟩
    ∃ sched p, sched.Complete cfg [450247] (Cache.initial cfg) ∧
      prepareEpoch cfg sched [450247] [] (Cache.initial cfg) = .ok p ∧
      p.cache.resident 0 = 450247 ∧ p.cache.cridToGrid 450247 = absent ∧ ¬ Mapped cfg p.cache := by
  intro cfg
  obtain ⟨p, hp, hres, hmap⟩ : ∃ p, prepareEpoch cfg ⟨[450247], [], []⟩ [450247] []
      (Cache.initial cfg) = .ok p ∧ p.cache.resident 0 = 450247 ∧ p.cache.cridToGrid 450247 = absent :=
    ⟨_, rfl, rfl, rfl⟩
  refine ⟨⟨[450247], [], []⟩, p, ⟨by decide, fun hlt => absurd hlt (by decide)⟩, hp, hres, hmap,
    fun hm => ?_⟩
  have hlt := (hm.crid_of_grid 0 (show 0 < 4 by decide) (hres ▸ by decide)).1
  rw [hres] at hlt
  exact absurd hlt (Nat.lt_irrefl 450247)

end Egad.Stager
