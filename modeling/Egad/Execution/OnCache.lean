import Egad.Execution.Serializable
import Egad.Stager.Overlap

/-! # An epoch on the cache

    The executor's records are the slots of the cache, and the worker of the last flush stores beside
    it. A record-B write marks its slot when it has chosen it, before the value and the tag are
    stored:

        idle ─► loaded ─► writing (marked) ─► tagging ─► done

    So when every operation is done, the marked slots are the older slots of the written records, and
    each has its record's last value in the batch: the flush finds exactly what the epoch wrote. -/

namespace Egad.Execution
open Egad.Lib Egad.Planner Egad.Stager

variable {V : Type}

/-! ### The device memory -/

/-- The device memory of the cached records and the scratch versions. -/
def memoryOf (records : ℕ → Rec V) (versions : ℕ → ℕ × V) : Memory V where
  tag
    | .slot1 g => (records g).version1
    | .slot2 g => (records g).version2
    | .version n => (versions n).1
  value
    | .slot1 g => (records g).value1
    | .slot2 g => (records g).value2
    | .version n => (versions n).2

def Memory.record (m : Memory V) (g : ℕ) : Rec V :=
  ⟨m.tag (.slot1 g), m.tag (.slot2 g), m.value (.slot1 g), m.value (.slot2 g)⟩

def Memory.scratch (m : Memory V) (n : ℕ) : ℕ × V := (m.tag (.version n), m.value (.version n))

/-- The cell of a slot of the cache. -/
def cellOf : Slot → ℕ → Cell
  | .slot1, g => .slot1 g
  | .slot2, g => .slot2 g

theorem cellOf_inj {slot slot' : Slot} {g g' : ℕ} (h : cellOf slot g = cellOf slot' g') :
    slot = slot' ∧ g = g' := by
  cases slot <;> cases slot' <;> cases h <;> exact ⟨rfl, rfl⟩

section
variable {records : ℕ → Rec V} {versions : ℕ → ℕ × V}

theorem memoryOf_lt {g : ℕ} : (memoryOf records versions).tag (.slot1 g) <
    (memoryOf records versions).tag (.slot2 g) ↔ (records g).version1 < (records g).version2 := Iff.rfl

theorem slotB_memoryOf (g : ℕ) :
    slotB (memoryOf records versions) g = cellOf (records g).recordBSlot g := by
  rw [slotB, Rec.recordBSlot]
  by_cases hlt : (records g).version1 < (records g).version2
  · rw [if_pos (memoryOf_lt.mpr hlt), if_pos hlt]
    rfl
  · rw [if_neg (mt memoryOf_lt.mp hlt), if_neg hlt]
    rfl

theorem slotA_memoryOf (g : ℕ) :
    slotA (memoryOf records versions) g = cellOf (records g).latestSlot g := by
  rw [slotA, Rec.latestSlot]
  by_cases hlt : (records g).version1 < (records g).version2
  · rw [if_pos (memoryOf_lt.mpr hlt), if_pos hlt]
    rfl
  · rw [if_neg (mt memoryOf_lt.mp hlt), if_neg hlt]
    rfl

theorem value_cellOf (slot : Slot) (g : ℕ) :
    (memoryOf records versions).value (cellOf slot g) = (records g).value slot := by
  cases slot <;> rfl

theorem memoryOf_latest (g : ℕ) : (memoryOf records versions).latest g = (records g).latest := by
  rw [latest_eq, slotA_memoryOf, value_cellOf, Rec.latest]

theorem memoryOf_tags {e : ℕ} (hrec : ∀ g, (records g).TagsBelow e) (hver : ∀ n, (versions n).1 < e)
    (c : Cell) : (memoryOf records versions).tag c < e := by
  cases c with
  | slot1 g => exact (hrec g).1
  | slot2 g => exact (hrec g).2
  | version n => exact hver n

end

/-! ### The executor and the worker -/

/-- The executor at work on the cache of `hybrid`, whose records are in the device memory. -/
structure Running (V : Type) where
  state : State V
  hybrid : Hybrid V

/-- The mark that an operation sets when it chooses a slot. -/
def markChosen (p : Phase V) (h : Hybrid V) : Hybrid V :=
  match p with
  | .writing (.slot1 g) =>
    { h with dirty := Function.update h.dirty .slot1 (Function.update (h.dirty .slot1) g true) }
  | .writing (.slot2 g) =>
    { h with dirty := Function.update h.dirty .slot2 (Function.update (h.dirty .slot2) g true) }
  | _ => h

/-- A load or store of an operation, or a store of the worker. -/
inductive Act (V : Type) where
  | op (i : ℕ) (data : V)
  | worker

def Running.act (E : Epoch) (r : Running V) : Act V → Option (Running V)
  | .op i data => (step E r.state i data).map fun s => ⟨s, markChosen (s.phase i) r.hybrid⟩
  | .worker => some ⟨r.state, r.hybrid.scatterNext⟩

def Running.run (E : Epoch) (r : Running V) (acts : List (Act V)) : Option (Running V) :=
  acts.foldlM (Running.act E) r

def Running.start (h : Hybrid V) (versions : ℕ → ℕ × V) : Running V :=
  ⟨.start (memoryOf h.records versions), h⟩

/-- The stager's view when the kernel has ended. -/
def Running.finish (r : Running V) : Hybrid V := { r.hybrid with records := r.state.mem.record }

/-- What an operation has read or written. -/
def Phase.result : Phase V → Option V
  | .done v => v
  | _ => none

section
variable {E : Epoch} {r r' : Running V} {acts : List (Act V)}

theorem markChosen_frame (p : Phase V) (h : Hybrid V) : (markChosen p h).cache = h.cache ∧
    (markChosen p h).landed = h.landed ∧ (markChosen p h).inflight = h.inflight := by
  unfold markChosen
  split <;> exact ⟨rfl, rfl, rfl⟩

/-- The mark of a chosen slot is the only one that is set. -/
theorem markChosen_dirty {p : Phase V} {h : Hybrid V} {slot : Slot} {g : ℕ} :
    (markChosen p h).dirty slot g = true ↔
      h.dirty slot g = true ∨ p = .writing (cellOf slot g) := by
  have hupd : ∀ s g', Function.update h.dirty s (Function.update (h.dirty s) g' true) slot g = true ↔
      h.dirty slot g = true ∨ (s = slot ∧ g' = g) := by
    intro s g'
    rcases eq_or_ne slot s with rfl | hs
    · rw [Function.update_self]
      rcases eq_or_ne g g' with rfl | hg
      · simp
      · simp [Function.update_of_ne hg, hg.symm]
    · simp [Function.update_of_ne hs, hs.symm]
  unfold markChosen
  split
  · rename_i g'
    rw [hupd]
    cases slot <;> simp [cellOf]
  · rename_i g'
    rw [hupd]
    cases slot <;> simp [cellOf]
  · rename_i h1 h2
    refine ⟨Or.inl, fun h => h.resolve_right fun hp => ?_⟩
    cases slot
    · exact h1 g hp
    · exact h2 g hp

theorem act_frame {a : Act V} (h : r.act E a = some r') : r'.hybrid.cache = r.hybrid.cache ∧
    r'.hybrid.landed = r.hybrid.landed := by
  cases a with
  | op i data =>
    obtain ⟨s, -, rfl⟩ := Option.map_eq_some_iff.mp h
    obtain ⟨hc, hl, -⟩ := markChosen_frame (s.phase i) r.hybrid
    exact ⟨hc, hl⟩
  | worker =>
    obtain rfl := Option.some.inj h
    exact ⟨(scatterNext_frame r.hybrid).1, scatterNext_landed r.hybrid⟩

theorem run_frame (h : Running.run E r acts = some r') : r'.hybrid.cache = r.hybrid.cache ∧
    r'.hybrid.landed = r.hybrid.landed := by
  induction acts generalizing r with
  | nil =>
    obtain rfl := Option.some.inj h
    exact ⟨rfl, rfl⟩
  | cons a acts ih =>
    rw [Running.run, List.foldlM_cons] at h
    obtain ⟨t, ht, hrest⟩ := Option.bind_eq_some_iff.mp h
    obtain ⟨hc, hl⟩ := ih hrest
    obtain ⟨hc', hl'⟩ := act_frame ht
    exact ⟨hc.trans hc', hl.trans hl'⟩

end

/-! ### The marks -/

section
variable {E : Epoch} {m₀ : Memory V} {r r' : Running V}

/-- A slot or version is chosen to be written. -/
def Phase.Chosen : Phase V → Prop
  | .writing _ => True
  | .tagging _ _ => True
  | .done (some _) => True
  | _ => False

/-- The marked slots are those of the writes that have chosen one. -/
def Marked (E : Epoch) (m₀ : Memory V) (r : Running V) : Prop := ∀ slot g,
  r.hybrid.dirty slot g = true ↔ ∃ j, Writes E m₀ j (cellOf slot g) ∧ (r.state.phase j).Chosen

theorem not_writing_of_read {m : Memory V} {rec loc e : ℕ} {p p' : Phase V} (c : Cell)
    (h : gpuReadFromTableCoop m rec loc e p = some p') : p' ≠ .writing c := by
  rintro rfl
  cases p with
  | idle =>
    simp only [gpuReadFromTableCoop] at h
    split at h
    · cases h
    · split at h <;> cases h
  | loaded v1 =>
    simp only [gpuReadFromTableCoop] at h
    split at h
    · cases h
    · rw [readRecordB] at h
      split at h
      · cases h
      · split at h
        · cases h
        · split at h <;> cases h
  | waiting c' =>
    simp only [gpuReadFromTableCoop] at h
    split at h <;> cases h
  | _ => cases h

/-- A step of a write that does not choose leaves it chosen or not. -/
theorem chosen_of_write {m : Memory V} {rec loc e : ℕ} {data : V} {p : Phase V} {x : Memory V × Phase V}
    (h : gpuWriteToTableCoop m rec loc e data p = some x) :
    (∃ c, x.2 = .writing c) ∨ (x.2.Chosen ↔ p.Chosen) := by
  cases p with
  | idle =>
    simp only [gpuWriteToTableCoop] at h
    split at h
    · cases h
      exact Or.inr Iff.rfl
    · split at h <;> cases h
      · exact Or.inr Iff.rfl
      · exact Or.inl ⟨_, rfl⟩
  | loaded v1 =>
    cases h
    exact Or.inl ⟨_, rfl⟩
  | writing c =>
    cases h
    exact Or.inr Iff.rfl
  | tagging c v =>
    cases h
    exact Or.inr Iff.rfl
  | _ => cases h

/-- A mark is set exactly when a write chooses the slot. -/
theorem Marked.act {a : Act V} (hm : Marked E m₀ r) (hinv' : Inv E m₀ r'.state)
    (h : r.act E a = some r') : Marked E m₀ r' := by
  cases a with
  | worker =>
    obtain rfl := Option.some.inj h
    intro slot g
    rw [← hm slot g]
    exact iff_of_eq (congrArg (· slot g = true) (scatterNext_frame r.hybrid).2.2)
  | op i data =>
    obtain ⟨s, hs, rfl⟩ := Option.map_eq_some_iff.mp h
    -- only the phase of operation `i` changes
    have hother : ∀ j, j ≠ i → s.phase j = r.state.phase j := by
      intro j hj
      rw [step] at hs
      split at hs
      · cases hs
      · split at hs <;> obtain ⟨_, -, rfl⟩ := Option.map_eq_some_iff.mp hs <;>
          exact Function.update_of_ne hj ..
    intro slot g
    rw [markChosen_dirty, hm slot g]
    by_cases hwr : Writes E m₀ i (cellOf slot g)
    · obtain ⟨o, ho, hw, hr, ht⟩ := hwr
      have hch : s.phase i = .writing (cellOf slot g) ∨
          ((s.phase i).Chosen ↔ (r.state.phase i).Chosen) := by
        rw [step, ho] at hs
        simp only [hw, if_true] at hs
        obtain ⟨x, hx, rfl⟩ := Option.map_eq_some_iff.mp hs
        simp only [Function.update_self]
        refine (chosen_of_write hx).imp_left ?_
        rintro ⟨c, hc⟩
        have hop := hinv'.ops i o ho
        simp only [Function.update_self, hc] at hop
        rw [hc, hop.2.2, ht]
      constructor
      · rintro (⟨j, hj, hchosen⟩ | hwriting)
        · rcases eq_or_ne j i with rfl | hji
          · refine ⟨j, hj, ?_⟩
            rcases hch with hch | hch
            · rw [hch]
              trivial
            · exact hch.mpr hchosen
          · exact ⟨j, hj, by rw [hother j hji]; exact hchosen⟩
        · exact ⟨i, ⟨o, ho, hw, hr, ht⟩, by rw [hwriting]; trivial⟩
      · rintro ⟨j, hj, hchosen⟩
        rcases eq_or_ne j i with rfl | hji
        · rcases hch with hch | hch
          · exact Or.inr hch
          · exact Or.inl ⟨j, hj, hch.mp hchosen⟩
        · rw [hother j hji] at hchosen
          exact Or.inl ⟨j, hj, hchosen⟩
    · -- another slot than the one operation `i` writes, if it writes one
      have hnot : s.phase i ≠ .writing (cellOf slot g) := by
        intro hp
        refine hwr ?_
        rw [step] at hs
        split at hs
        · cases hs
        · next o ho =>
          split at hs
          · next hw =>
            have hop := hinv'.ops i o ho
            simp only [hp] at hop
            exact ⟨o, ho, hw, hop.1, hop.2.2.symm⟩
          · obtain ⟨p, hread, rfl⟩ := Option.map_eq_some_iff.mp hs
            simp only [Function.update_self] at hp
            exact absurd hp (not_writing_of_read _ hread)
      constructor
      · rintro (⟨j, hj, hchosen⟩ | hwriting)
        · have hji : j ≠ i := fun he => hwr (he ▸ hj)
          exact ⟨j, hj, by rw [hother j hji]; exact hchosen⟩
        · exact absurd hwriting hnot
      · rintro ⟨j, hj, hchosen⟩
        have hji : j ≠ i := fun he => hwr (he ▸ hj)
        rw [hother j hji] at hchosen
        exact Or.inl ⟨j, hj, hchosen⟩

theorem marked_start {h : Hybrid V} {versions : ℕ → ℕ × V} (hu : h.Unmarked) :
    Marked E m₀ (.start h versions) := by
  intro slot g
  refine ⟨fun hd => ?_, fun ⟨_, _, hc⟩ => hc.elim⟩
  have hno := hu slot g
  rw [show h.dirty slot g = true from hd] at hno
  cases hno

/-- Every run keeps the executor's invariant and the marks. -/
theorem running_inv (hl : Located E.ops E.loc) (hstart : ∀ c, m₀.tag c < E.epoch)
    {acts : List (Act V)} (hinv : Inv E m₀ r.state) (hm : Marked E m₀ r)
    (h : Running.run E r acts = some r') : Inv E m₀ r'.state ∧ Marked E m₀ r' := by
  induction acts generalizing r with
  | nil =>
    obtain rfl := Option.some.inj h
    exact ⟨hinv, hm⟩
  | cons a acts ih =>
    rw [Running.run, List.foldlM_cons] at h
    obtain ⟨t, ht, hrest⟩ := Option.bind_eq_some_iff.mp h
    have hinv' : Inv E m₀ t.state := by
      cases a with
      | op i data =>
        obtain ⟨s, hs, rfl⟩ := Option.map_eq_some_iff.mp ht
        exact inv_step hl hstart hinv hs
      | worker =>
        obtain rfl := Option.some.inj ht
        exact hinv
    exact ih hinv' (hm.act hinv' ht) hrest

end

/-! ### A store with no cache -/

/-- The first `n` operations on a store with no cache, with the values that were written. -/
def plainAt (ops : List Op) (written : ℕ → Option V) (store : ℕ → V) : ℕ → ℕ → V
  | 0 => store
  | n + 1 =>
    match ops[n]?, written n with
    | some o, some v =>
      if o.isWrite then Function.update (plainAt ops written store n) o.record v
      else plainAt ops written store n
    | _, _ => plainAt ops written store n

section
variable {ops : List Op} {written : ℕ → Option V} {store : ℕ → V}

/-- An operation that does not write the record leaves it. -/
theorem plainAt_succ_of_notWrite {u n : ℕ} (h : writesAt ops u n = false) :
    plainAt ops written store (n + 1) u = plainAt ops written store n u := by
  rw [plainAt]
  cases ho : ops[n]? with
  | none => rfl
  | some o =>
    cases written n with
    | none => rfl
    | some v =>
      dsimp only
      split
      · next hw =>
        refine Function.update_of_ne ?_ ..
        rintro rfl
        rw [writesAt_iff.mpr ⟨o, ho, hw, rfl⟩] at h
        cases h
      · rfl

theorem plainAt_of_notWrite {u n : ℕ} {k : ℕ} (hk : k ≤ n)
    (h : ∀ j, k ≤ j → j < n → writesAt ops u j = false) :
    plainAt ops written store n u = plainAt ops written store k u := by
  induction n with
  | zero =>
    obtain rfl := Nat.le_zero.mp hk
    rfl
  | succ n ih =>
    rcases Nat.lt_or_ge n k with hlt | hge
    · obtain rfl : k = n + 1 := by omega
      rfl
    · rw [plainAt_succ_of_notWrite (h n hge (Nat.lt_succ_self n))]
      exact ih hge fun j hkj hj => h j hkj (Nat.lt_succ_of_lt hj)

/-- A record has the value of its last write. -/
theorem plainAt_eq {u n : ℕ} : match lastWriteBefore ops u n with
    | none => plainAt ops written store n u = store u
    | some j => ∀ v, written j = some v → plainAt ops written store n u = v := by
  cases h : lastWriteBefore ops u n with
  | none =>
    have hno := lastWriteBefore_eq_none.mp h
    exact plainAt_of_notWrite (Nat.zero_le n) fun j _ hj => hno j hj
  | some j =>
    intro v hv
    obtain ⟨hjn, hj, hno⟩ := lastWriteBefore_eq_some.mp h
    obtain ⟨o, ho, hw, rfl⟩ := writesAt_iff.mp hj
    rw [plainAt_of_notWrite (Nat.succ_le_of_lt hjn) hno, plainAt, ho, hv]
    simp only [hw, if_true, Function.update_self]

end

/-! ### What the epoch leaves -/

/-- A batch on the cache: every record has its slot. -/
structure OnCache (cfg : Config) (h : Hybrid V) (ops : List Op) : Prop where
  mapped : Mapped cfg h.cache
  resident : ∀ o ∈ ops, o.record < cfg.numUnits ∧ h.cache.cridToGrid o.record ≠ absent

/-- The batch with slots for records, at the given locations. -/
def cachedEpoch (cfg : Config) (h : Hybrid V) (ops : List Op) (loc : Op → ℕ) (e : ℕ) : Epoch :=
  ⟨ops.map (Op.remap (lookup cfg h.cache.cridToGrid)), loc, e⟩

/-- The value that the epoch leaves in a record it wrote. -/
def lastValue (ops : List Op) (phase : ℕ → Phase V) (u : ℕ) : Option V :=
  (lastWriteBefore ops u ops.length).bind fun j => (phase j).result

section
variable {cfg : Config} {h : Hybrid V} {ops : List Op} {loc : Op → ℕ} {e : ℕ}
  {versions : ℕ → ℕ × V} {r : Running V}

theorem OnCache.slot (hc : OnCache cfg h ops) {o : Op} (ho : o ∈ ops) :
    lookup cfg h.cache.cridToGrid o.record = h.cache.cridToGrid o.record ∧
      h.cache.cridToGrid o.record < cfg.capacity ∧
      h.cache.resident (h.cache.cridToGrid o.record) = o.record ∧ o.record ≠ absent := by
  obtain ⟨hlt, hne⟩ := hc.resident o ho
  obtain ⟨hcap, hres⟩ := hc.mapped.grid_of_crid o.record hlt hne
  refine ⟨if_pos hlt, hcap, hres, ?_⟩
  have := cfg.numUnits_le
  omega

theorem OnCache.inj (hc : OnCache cfg h ops) : ∀ o ∈ ops, ∀ q ∈ ops,
    lookup cfg h.cache.cridToGrid o.record = lookup cfg h.cache.cridToGrid q.record →
      o.record = q.record := by
  intro o ho q hq heq
  obtain ⟨hlo, -, hro, -⟩ := hc.slot ho
  obtain ⟨hlq, -, hrq, -⟩ := hc.slot hq
  rw [hlo, hlq] at heq
  rw [← hro, heq, hrq]

/-- What is known in every state of an epoch's execution. -/
structure Executing (cfg : Config) (h : Hybrid V) (versions : ℕ → ℕ × V) (ops : List Op)
    (loc : Op → ℕ) (e : ℕ) (r : Running V) : Prop where
  onCache : OnCache cfg h ops
  located : Located (cachedEpoch cfg h ops loc e).ops loc
  tags : ∀ c, (memoryOf h.records versions).tag c < e
  inv : Inv (cachedEpoch cfg h ops loc e) (memoryOf h.records versions) r.state
  marked : Marked (cachedEpoch cfg h ops loc e) (memoryOf h.records versions) r
  cache : r.hybrid.cache = h.cache
  landed : r.hybrid.landed = h.landed

theorem executing (hc : OnCache cfg h ops) (hu : h.Unmarked)
    (hl : Located (cachedEpoch cfg h ops loc e).ops loc)
    (htags : ∀ c, (memoryOf h.records versions).tag c < e) {acts : List (Act V)}
    (hrun : Running.run (cachedEpoch cfg h ops loc e) (.start h versions) acts = some r) :
    Executing cfg h versions ops loc e r := by
  obtain ⟨hinv, hm⟩ := running_inv hl htags inv_start (marked_start hu) hrun
  obtain ⟨hcache, hland⟩ := run_frame hrun
  exact ⟨hc, hl, htags, hinv, hm, hcache, hland⟩

/-- The write of a slot, as an operation of the batch. -/
theorem Executing.writes_slot (hx : Executing cfg h versions ops loc e r) {j : ℕ} {slot : Slot} {g : ℕ}
    (hw : Writes (cachedEpoch cfg h ops loc e) (memoryOf h.records versions) j (cellOf slot g)) :
    ∃ o, ops[j]? = some o ∧ o.isWrite = true ∧ g = h.cache.cridToGrid o.record ∧
      g < cfg.capacity ∧ h.cache.resident g = o.record ∧ o.record ≠ absent ∧
      slot = (h.records g).recordBSlot := by
  obtain ⟨p, hp, hpw, -, ht⟩ := hw
  obtain ⟨o, ho, rfl⟩ : ∃ o, ops[j]? = some o ∧ o.remap (lookup cfg h.cache.cridToGrid) = p := by
    rw [cachedEpoch, List.getElem?_map] at hp
    exact Option.map_eq_some_iff.mp hp
  obtain ⟨hlook, hcap, hres, hne⟩ := hx.onCache.slot (List.mem_of_getElem? ho)
  have hrec : (o.remap (lookup cfg h.cache.cridToGrid)).record = h.cache.cridToGrid o.record := hlook
  rw [target, hrec] at ht
  split at ht
  · rw [slotB_memoryOf] at ht
    obtain ⟨hs, hg⟩ := cellOf_inj ht
    subst hg
    exact ⟨o, ho, hpw, rfl, hcap, hres, hne, hs.symm⟩
  · cases slot <;> cases ht

theorem Executing.result_of_done (hx : Executing cfg h versions ops loc e r)
    (hall : ∀ i < ops.length, ∃ x, r.state.phase i = .done x) {j : ℕ} {o : Op} (ho : ops[j]? = some o) :
    ∃ v, r.state.phase j = .done (some v) := by
  obtain ⟨x, hx'⟩ := hall j (List.getElem?_eq_some_iff.mp ho).1
  cases x with
  | some v => exact ⟨v, hx'⟩
  | none =>
    have hop := hx.inv.ops j (o.remap (lookup cfg h.cache.cridToGrid)) (by
      rw [cachedEpoch, List.getElem?_map, ho]
      rfl)
    rw [hx'] at hop
    obtain ⟨hlook, hcap, -, -⟩ := hx.onCache.slot (List.mem_of_getElem? ho)
    have hrec : (o.remap (lookup cfg h.cache.cridToGrid)).record = h.cache.cridToGrid o.record := hlook
    have hno : h.cache.cridToGrid o.record = kNoRecord := hrec.symm.trans hop
    have h1 := cfg.capacity_lt_absent
    have h2 : absent = kNoRecord := rfl
    omega

theorem lastValue_eq_none (hx : Executing cfg h versions ops loc e r)
    (hall : ∀ i < ops.length, ∃ x, r.state.phase i = .done x) {u : ℕ} :
    lastValue ops r.state.phase u = none ↔ ∀ j, writesAt ops u j = false := by
  rw [lastValue]
  cases hlast : lastWriteBefore ops u ops.length with
  | none =>
    refine iff_of_true rfl fun j => ?_
    rcases Nat.lt_or_ge j ops.length with hj | hj
    · exact lastWriteBefore_eq_none.mp hlast j hj
    · rw [writesAt, List.getElem?_eq_none hj]
  | some j =>
    obtain ⟨-, hj, -⟩ := lastWriteBefore_eq_some.mp hlast
    obtain ⟨o, ho, -, -⟩ := writesAt_iff.mp hj
    obtain ⟨v, hv⟩ := hx.result_of_done hall ho
    refine iff_of_false ?_ fun hno => by rw [hno j] at hj; cases hj
    rw [Option.bind_some, hv]
    exact Option.some_ne_none v

/-- The slot that the epoch writes, when it is done. -/
theorem Executing.recordB (hx : Executing cfg h versions ops loc e r)
    (hall : ∀ i < ops.length, ∃ x, r.state.phase i = .done x) {u : ℕ} {v : V}
    (hv : lastValue ops r.state.phase u = some v) :
    u < cfg.numUnits ∧ h.cache.cridToGrid u ≠ absent ∧ ∃ j,
      Writes (cachedEpoch cfg h ops loc e) (memoryOf h.records versions) j
        (cellOf (h.records (h.cache.cridToGrid u)).recordBSlot (h.cache.cridToGrid u)) ∧
      r.state.phase j = .done (some v) := by
  rw [lastValue, Option.bind_eq_some_iff] at hv
  obtain ⟨j, hlast, hv⟩ := hv
  obtain ⟨-, hj, hafter⟩ := lastWriteBefore_eq_some.mp hlast
  obtain ⟨o, ho, hw, rfl⟩ := writesAt_iff.mp hj
  obtain ⟨hlt, hne⟩ := hx.onCache.resident o (List.mem_of_getElem? ho)
  obtain ⟨hlook, hcap, -, -⟩ := hx.onCache.slot (List.mem_of_getElem? ho)
  refine ⟨hlt, hne, j, ?_, ?_⟩
  · have hrec : (o.remap (lookup cfg h.cache.cridToGrid)).record = h.cache.cridToGrid o.record := hlook
    have hget : (cachedEpoch cfg h ops loc e).ops[j]? = some (o.remap (lookup cfg h.cache.cridToGrid)) := by
      rw [cachedEpoch, List.getElem?_map, ho]
      rfl
    have hB : loc (o.remap (lookup cfg h.cache.cridToGrid)) = locRecordB := by
      refine hx.located.write_last hget hw fun k hk => ?_
      have hmap := writesAt_remap hx.onCache.inj (List.mem_of_getElem? ho) k
      refine hmap.trans ?_
      rcases Nat.lt_or_ge k ops.length with hkl | hkl
      · exact hafter k hk hkl
      · rw [writesAt, List.getElem?_eq_none hkl]
    refine ⟨_, hget, hw, ?_, ?_⟩
    · rw [hrec]
      have h1 := cfg.capacity_lt_absent
      have h2 : absent = kNoRecord := rfl
      omega
    · have htarget : target (memoryOf h.records versions) (o.remap (lookup cfg h.cache.cridToGrid)).record
          (loc (o.remap (lookup cfg h.cache.cridToGrid))) = slotB (memoryOf h.records versions)
            (o.remap (lookup cfg h.cache.cridToGrid)).record := if_pos hB
      rw [← @slotB_memoryOf V h.records versions, ← hrec]
      exact htarget
  · obtain ⟨w, hw'⟩ := hx.result_of_done hall ho
    rw [hw'] at hv ⊢
    exact congrArg _ hv

theorem tag_cellOf (records : ℕ → Rec V) (slot : Slot) (g : ℕ) :
    (memoryOf records versions).tag (cellOf slot g) = (records g).version slot := by
  cases slot <;> rfl

theorem record_eq {m : Memory V} {g : ℕ} {x : Rec V}
    (hcells : ∀ slot, m.tag (cellOf slot g) = x.version slot ∧ m.value (cellOf slot g) = x.value slot) :
    m.record g = x := by
  obtain ⟨ht1, hv1⟩ := hcells .slot1
  obtain ⟨ht2, hv2⟩ := hcells .slot2
  cases x
  simp only [Memory.record, Rec.mk.injEq]
  exact ⟨ht1, ht2, hv1, hv2⟩

/-- A slot no operation writes. -/
theorem Executing.cell_kept (hx : Executing cfg h versions ops loc e r) {slot : Slot} {g : ℕ}
    (hno : ∀ j, ¬ Writes (cachedEpoch cfg h ops loc e) (memoryOf h.records versions) j (cellOf slot g)) :
    r.state.mem.tag (cellOf slot g) = (h.records g).version slot ∧
      r.state.mem.value (cellOf slot g) = (h.records g).value slot := by
  rcases hx.inv.cells (cellOf slot g) with ⟨ht, hv⟩ | ⟨j, -, hj, -⟩
  · exact ⟨ht.trans (tag_cellOf _ slot g), hv.trans (value_cellOf slot g)⟩
  · exact absurd hj (hno j)

/-- When its operations are done the epoch has written its records, each with the value of its last
    write, and the marks say which. -/
theorem Executing.executed (hx : Executing cfg h versions ops loc e r)
    (hall : ∀ i < ops.length, ∃ x, r.state.phase i = .done x) :
    Executed cfg e (lastValue ops r.state.phase) h r.finish where
  cache := hx.cache
  landed := hx.landed
  kept g hcap hne hW := by
    refine record_eq fun slot => hx.cell_kept fun j hj => ?_
    obtain ⟨o, ho, hw, -, -, hres, -, -⟩ := hx.writes_slot hj
    have hno := (lastValue_eq_none hx hall).mp hW j
    rw [hres, writesAt_iff.mpr ⟨o, ho, hw, rfl⟩] at hno
    cases hno
  written g hcap hne v hW := by
    obtain ⟨hlt, hres, j, hj, hph⟩ := hx.recordB hall hW
    have hg : h.cache.cridToGrid (h.cache.resident g) = g := (hx.onCache.mapped.crid_of_grid g hcap hne).2
    rw [hg] at hj
    refine record_eq fun slot => ?_
    rcases eq_or_ne slot (h.records g).recordBSlot with rfl | hslot
    · -- the slot of the write, whose tag was stored last
      rw [Rec.version_put, Rec.value_put]
      rcases hx.inv.cells _ with ⟨ht, -⟩ | ⟨j', v', hj', hv, ⟨hph', -⟩ | ⟨hph', ht⟩⟩
      · obtain ⟨o, ho, hw, hr, htarget⟩ := hj
        have hop := hx.inv.ops j o ho
        rw [hph] at hop
        obtain ⟨-, ⟨hread, -⟩ | ⟨-, ht', hv'⟩⟩ := hop
        · rw [hw] at hread
          cases hread
        · rw [htarget] at ht' hv'
          exact ⟨ht', hv'⟩
      · obtain rfl := writes_unique hx.located hj hj'
        rw [hph] at hph'
        cases hph'
      · obtain rfl := writes_unique hx.located hj hj'
        rw [hph] at hph'
        cases hph'
        exact ⟨ht, hv⟩
    · have hother : (h.records g).recordBSlot = slot.other := by
        generalize (h.records g).recordBSlot = s at hslot ⊢
        cases slot <;> cases s <;> first | rfl | exact absurd rfl hslot
      rw [hother, Rec.version_put_other, Rec.value_put_other]
      exact hx.cell_kept fun j' hj' => hslot (hx.writes_slot hj').choose_spec.2.2.2.2.2.2
  dirty slot g := by
    refine (hx.marked slot g).trans ⟨?_, ?_⟩
    · rintro ⟨j, hj, -⟩
      obtain ⟨o, ho, hw, -, hcap, hres, hne, hslot⟩ := hx.writes_slot hj
      refine ⟨hcap, hres ▸ hne, ?_, hslot⟩
      rw [Option.isSome_iff_ne_none, ne_eq, lastValue_eq_none hx hall, hres]
      intro hno
      have hj' := hno j
      rw [writesAt_iff.mpr ⟨o, ho, hw, rfl⟩] at hj'
      cases hj'
    · rintro ⟨hcap, hne, hsome, rfl⟩
      obtain ⟨v, hv⟩ := Option.isSome_iff_exists.mp hsome
      obtain ⟨-, -, j, hj, hph⟩ := hx.recordB hall hv
      rw [(hx.onCache.mapped.crid_of_grid g hcap hne).2] at hj
      exact ⟨j, hj, by rw [hph]; trivial⟩
  resident u v hW := by
    obtain ⟨hlt, hne, -⟩ := hx.recordB hall hW
    exact ⟨hlt, hne⟩

/-! ### What the epoch reads -/

/-- The values written so far. -/
def written (phase : ℕ → Phase V) (j : ℕ) : Option V := (phase j).result

/-- A finished read has the value of a store with no cache, provided that a stale slot is written
    before it is read. -/
theorem Executing.read (hx : Executing cfg h versions ops loc e r) {stale : Set ℕ}
    (hc : Cached cfg e stale h) {i : ℕ} {o : Op} {x : Option V} (hi : ops[i]? = some o)
    (hr : o.isWrite = false)
    (hstale : h.cache.cridToGrid o.record ∈ stale → ∃ j < i, writesAt ops o.record j = true)
    (hdone : r.state.phase i = .done x) :
    x = some (plainAt ops (written r.state.phase) (fun u => (h.landed u).latest) i o.record) := by
  have ho := List.mem_of_getElem? hi
  obtain ⟨hlook, hcap, hres, hne⟩ := hx.onCache.slot ho
  have hget : (cachedEpoch cfg h ops loc e).ops[i]? = some (o.remap (lookup cfg h.cache.cridToGrid)) := by
    rw [cachedEpoch, List.getElem?_map, hi]
    rfl
  have hrec : (o.remap (lookup cfg h.cache.cridToGrid)).record = h.cache.cridToGrid o.record := hlook
  have hno : (o.remap (lookup cfg h.cache.cridToGrid)).record ≠ kNoRecord := by
    rw [hrec]
    have h1 := cfg.capacity_lt_absent
    have h2 : absent = kNoRecord := rfl
    omega
  obtain ⟨v, rfl, hv⟩ := read_done hx.located hx.tags hx.inv hget hr hno hdone
  congr 1
  have hlast : lastWriteBefore (cachedEpoch cfg h ops loc e).ops
      (o.remap (lookup cfg h.cache.cridToGrid)).record i = lastWriteBefore ops o.record i :=
    lastWriteBefore_remap hx.onCache.inj ho i
  rw [hlast] at hv
  have hplain := @plainAt_eq V ops (written r.state.phase) (fun u => (h.landed u).latest) o.record i
  cases hw : lastWriteBefore ops o.record i with
  | none =>
    rw [hw] at hv hplain
    have hfresh : h.cache.cridToGrid o.record ∉ stale := fun hmem => by
      obtain ⟨j, hj, hwr⟩ := hstale hmem
      have hnone := lastWriteBefore_eq_none.mp hw j hj
      rw [hwr] at hnone
      cases hnone
    have hval := hc.value _ hcap (hres.symm ▸ hne) hfresh
    rw [hres] at hval
    simp only at hv hplain
    rw [hplain, hv, hrec, memoryOf_latest, hval]
  | some j =>
    rw [hw] at hv hplain
    simp only at hv
    refine (hplain v ?_).symm
    rw [written, hv]
    rfl

/-- The tags an epoch leaves are its own or older. -/
theorem Executing.tags_after (hx : Executing cfg h versions ops loc e r) (c : Cell) :
    r.state.mem.tag c < e + 1 := by
  have hlt := hx.tags c
  rcases hx.inv.cells c with ⟨ht, -⟩ | ⟨j, v, -, -, ⟨-, ht⟩ | ⟨-, ht⟩⟩
  · omega
  · omega
  · have hte : r.state.mem.tag c = e := ht
    omega

/-- When all operations are done, the store has what a store with no cache has after them. -/
theorem Executing.plain (hx : Executing cfg h versions ops loc e r)
    (hall : ∀ i < ops.length, ∃ x, r.state.phase i = .done x)
    (hland : ∀ u, (h.landed u).TagsBelow e) (u : ℕ) :
    (writeBack e (lastValue ops r.state.phase) h.landed u).latest =
      plainAt ops (written r.state.phase) (fun u => (h.landed u).latest) ops.length u := by
  have hplain := @plainAt_eq V ops (written r.state.phase) (fun u => (h.landed u).latest) u ops.length
  rw [writeBack]
  cases hW : lastValue ops r.state.phase u with
  | none =>
    have hno := (lastValue_eq_none hx hall).mp hW
    rw [lastWriteBefore_eq_none.mpr fun j _ => hno j] at hplain
    exact hplain.symm
  | some v =>
    rw [lastValue, Option.bind_eq_some_iff] at hW
    obtain ⟨j, hlast, hv⟩ := hW
    rw [hlast] at hplain
    rw [hplain v hv]
    simp only [Rec.latest, Rec.latestSlot_put (hland u), Rec.value_put]

end

end Egad.Execution
