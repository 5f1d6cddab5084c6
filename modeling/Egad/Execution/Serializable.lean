import Egad.Execution.Storage

/-! # Planned execution is serializable

    Whatever the interleaving, a cell is written by at most one operation of the epoch, and the value
    under an epoch tag is final. Hence a reader of record A finds the value the epoch started with,
    and a reader that has waited for a tag finds the value of the one write planned for that cell,
    which is the last write before it. -/

namespace Egad.Execution
open Egad.Planner

section
variable {V : Type} {E : Epoch} {m₀ : Memory V} {s s' : State V}

/-- Operation `j` is the write planned for cell `c`. -/
def Writes (E : Epoch) (m₀ : Memory V) (j : ℕ) (c : Cell) : Prop :=
  ∃ o, E.ops[j]? = some o ∧ o.isWrite = true ∧ o.record ≠ kNoRecord ∧
    target m₀ o.record (E.loc o) = c

/-- A write goes to record B when it is the last one, and to a scratch version otherwise. -/
theorem write_cases (hl : Located E.ops E.loc) {i : ℕ} {o : Op} (hi : E.ops[i]? = some o)
    (hw : o.isWrite = true) :
    E.loc o = locRecordB ∧ (∀ j, i < j → writesAt E.ops o.record j = false) ∨ E.loc o < 2 ^ 31 := by
  by_cases hlast : ∀ j, i < j → writesAt E.ops o.record j = false
  · exact Or.inl ⟨hl.write_last hi hw hlast, hlast⟩
  · push Not at hlast
    obtain ⟨j, hij, hj⟩ := hlast
    exact Or.inr (hl.write_version hi hw hij (by simpa using hj))

theorem locRecordB_ge : 2 ^ 31 ≤ locRecordB := by decide

/-- No two writes are planned for one cell. -/
theorem writes_unique (hl : Located E.ops E.loc) {i j : ℕ} {c : Cell} (hi : Writes E m₀ i c)
    (hj : Writes E m₀ j c) : i = j := by
  obtain ⟨o, ho, how, -, hoc⟩ := hi
  obtain ⟨p, hp, hpw, -, hpc⟩ := hj
  have hge := locRecordB_ge
  rw [target] at hoc hpc
  rcases write_cases hl ho how with ⟨hob, holast⟩ | hov
  · rw [if_pos hob] at hoc
    rcases write_cases hl hp hpw with ⟨hpb, hplast⟩ | hpv
    · rw [if_pos hpb] at hpc
      have hr : o.record = p.record := slotB_inj (hoc.trans hpc.symm)
      -- of two writes of one record only the later one is the last
      rcases Nat.lt_trichotomy i j with hlt | heq | hgt
      · have hfalse := holast j hlt
        rw [writesAt_iff.mpr ⟨p, hp, hpw, hr.symm⟩] at hfalse
        exact absurd hfalse (by simp)
      · exact heq
      · have hfalse := hplast i hgt
        rw [writesAt_iff.mpr ⟨o, ho, how, hr⟩] at hfalse
        exact absurd hfalse (by simp)
    · rw [if_neg (by omega)] at hpc
      exact absurd (hoc.trans hpc.symm) (slotB_ne_version _ _ _)
  · rw [if_neg (by omega)] at hoc
    rcases write_cases hl hp hpw with ⟨hpb, -⟩ | hpv
    · rw [if_pos hpb] at hpc
      exact absurd (hpc.trans hoc.symm) (slotB_ne_version _ _ _)
    · rw [if_neg (by omega)] at hpc
      exact hl.write_inj ho hp how hpw hov (Cell.version.inj (hoc.trans hpc.symm))

/-- What an operation has seen and done so far. -/
def OpOk (E : Epoch) (m₀ m : Memory V) (o : Op) : Phase V → Prop
  | .idle => True
  | .loaded v1 => o.record ≠ kNoRecord ∧
      (E.loc o = locRecordB ∨ o.isWrite = false ∧ E.loc o = locRecordA) ∧
      Loads m₀ o.record E.epoch (.slot1 o.record) v1 ∧
      (v1 = E.epoch → m.tag (.slot1 o.record) = E.epoch)
  | .waiting c => o.record ≠ kNoRecord ∧ o.isWrite = false ∧ E.loc o ≠ locRecordA ∧
      c = target m₀ o.record (E.loc o)
  | .reading c => o.record ≠ kNoRecord ∧ o.isWrite = false ∧
      (E.loc o = locRecordA ∧ c = slotA m₀ o.record ∨
        E.loc o ≠ locRecordA ∧ c = target m₀ o.record (E.loc o) ∧ m.tag c = E.epoch)
  | .writing c => o.record ≠ kNoRecord ∧ o.isWrite = true ∧ c = target m₀ o.record (E.loc o)
  | .tagging c v => o.record ≠ kNoRecord ∧ o.isWrite = true ∧ c = target m₀ o.record (E.loc o) ∧
      m.value c = v
  | .done none => o.record = kNoRecord
  | .done (some v) => o.record ≠ kNoRecord ∧
      (o.isWrite = false ∧ E.loc o = locRecordA ∧ v = m₀.value (slotA m₀ o.record) ∨
        (o.isWrite = true ∨ E.loc o ≠ locRecordA) ∧
          m.tag (target m₀ o.record (E.loc o)) = E.epoch ∧
          m.value (target m₀ o.record (E.loc o)) = v)

/-- A cell is as at the start, or its write has stored the value, or the tag too. -/
def CellOk (E : Epoch) (m₀ : Memory V) (s : State V) (c : Cell) : Prop :=
  s.mem.tag c = m₀.tag c ∧ s.mem.value c = m₀.value c ∨
  ∃ j v, Writes E m₀ j c ∧ s.mem.value c = v ∧
    (s.phase j = .tagging c v ∧ s.mem.tag c = m₀.tag c ∨
      s.phase j = .done (some v) ∧ s.mem.tag c = E.epoch)

structure Inv (E : Epoch) (m₀ : Memory V) (s : State V) : Prop where
  cells : ∀ c, CellOk E m₀ s c
  ops : ∀ i o, E.ops[i]? = some o → OpOk E m₀ s.mem o (s.phase i)

theorem inv_start : Inv E m₀ (.start m₀) := ⟨fun _ => Or.inl ⟨rfl, rfl⟩, fun _ _ _ => trivial⟩

/-- Operations that made no step keep what they know: tagged cells do not change, nor does a cell
    whose write is between its value and its tag. -/
theorem OpOk.frame {m m' : Memory V} {o : Op} {p : Phase V} (h : OpOk E m₀ m o p)
    (htag : ∀ c, m.tag c = E.epoch → m'.tag c = E.epoch ∧ m'.value c = m.value c)
    (hval : ∀ c v, p = .tagging c v → m'.value c = m.value c) : OpOk E m₀ m' o p := by
  rcases p with - | v1 | c | c | c | ⟨c, v⟩ | - | v
  · trivial
  · obtain ⟨hr, hloc, hl, hv⟩ := h
    exact ⟨hr, hloc, hl, fun he => (htag _ (hv he)).1⟩
  · exact h
  · obtain ⟨hr, hw, hA | ⟨hne, hc, ht⟩⟩ := h
    · exact ⟨hr, hw, Or.inl hA⟩
    · exact ⟨hr, hw, Or.inr ⟨hne, hc, (htag _ ht).1⟩⟩
  · exact h
  · obtain ⟨hr, hw, hc, hv⟩ := h
    exact ⟨hr, hw, hc, (hval c v rfl).trans hv⟩
  · exact h
  · obtain ⟨hr, hA | ⟨hne, ht, hv⟩⟩ := h
    · exact ⟨hr, Or.inl hA⟩
    · obtain ⟨ht', hv'⟩ := htag _ ht
      exact ⟨hr, Or.inr ⟨hne, ht', hv'.trans hv⟩⟩

/-- Nothing is stored yet. -/
def Phase.Unstored : Phase V → Prop
  | .tagging _ _ => False
  | .done (some _) => False
  | _ => True

/-- A step that stores nothing. -/
theorem inv_load {i : ℕ} {o : Op} {p : Phase V} (h : Inv E m₀ s) (hi : E.ops[i]? = some o)
    (hun : o.isWrite = true → (s.phase i).Unstored) (hp : OpOk E m₀ s.mem o p) :
    Inv E m₀ ⟨s.mem, Function.update s.phase i p⟩ := by
  refine ⟨fun c => ?_, fun k o' hk => ?_⟩
  · refine (h.cells c).imp id ?_
    rintro ⟨j, v, hw, hv, hph⟩
    have hj : j ≠ i := by
      rintro rfl
      obtain ⟨o', ho', hw', -⟩ := hw
      obtain rfl : o = o' := Option.some.inj (hi.symm.trans ho')
      have hun' := hun hw'
      rcases hph with ⟨hph, -⟩ | ⟨hph, -⟩ <;> rw [hph] at hun' <;> exact hun'
    exact ⟨j, v, hw, hv, by simpa only [Function.update_of_ne hj] using hph⟩
  · by_cases hki : k = i
    · subst hki
      obtain rfl : o = o' := Option.some.inj (hi.symm.trans hk)
      simpa only [Function.update_self] using hp
    · simpa only [Function.update_of_ne hki] using h.ops k o' hk

/-- The cell of a write that has not stored its value is as at the start. -/
theorem tag_of_unstored (hl : Located E.ops E.loc) {i : ℕ} {c : Cell} (h : Inv E m₀ s)
    (hw : Writes E m₀ i c) (hun : (s.phase i).Unstored) : s.mem.tag c = m₀.tag c := by
  rcases h.cells c with ⟨ht, -⟩ | ⟨j, v, hj, -, hph⟩
  · exact ht
  · obtain rfl := writes_unique hl hw hj
    rcases hph with ⟨hph, ht⟩ | ⟨hph, -⟩
    · exact ht
    · rw [hph] at hun
      exact hun.elim

/-- The store of a value. -/
theorem inv_storeValue (hl : Located E.ops E.loc) (hstart : ∀ c, m₀.tag c < E.epoch) {i : ℕ} {o : Op}
    {c : Cell} {v : V} (h : Inv E m₀ s) (hi : E.ops[i]? = some o) (hph : s.phase i = .writing c) :
    Inv E m₀ ⟨{ s.mem with value := Function.update s.mem.value c v },
      Function.update s.phase i (.tagging c v)⟩ := by
  have hop := h.ops i o hi
  rw [hph] at hop
  obtain ⟨hr, hw, hc⟩ := hop
  have hwr : Writes E m₀ i c := ⟨o, hi, hw, hr, hc.symm⟩
  have htag : s.mem.tag c = m₀.tag c := tag_of_unstored hl h hwr (by rw [hph]; trivial)
  refine ⟨fun c' => ?_, fun k o' hk => ?_⟩
  · by_cases hcc : c' = c
    · subst hcc
      exact Or.inr ⟨i, v, hwr, Function.update_self .., Or.inl ⟨Function.update_self .., htag⟩⟩
    · rcases h.cells c' with ⟨ht, hv⟩ | ⟨j, v', hj, hv, hjph⟩
      · exact Or.inl ⟨ht, (Function.update_of_ne hcc ..).trans hv⟩
      · have hji : j ≠ i := by
          rintro rfl
          rw [hph] at hjph
          simp at hjph
        refine Or.inr ⟨j, v', hj, (Function.update_of_ne hcc ..).trans hv, ?_⟩
        simpa only [Function.update_of_ne hji] using hjph
  · by_cases hki : k = i
    · subst hki
      obtain rfl : o = o' := Option.some.inj (hi.symm.trans hk)
      simp only [Function.update_self]
      exact ⟨hr, hw, hc, Function.update_self ..⟩
    · simp only [Function.update_of_ne hki]
      refine (h.ops k o' hk).frame (fun c' ht => ⟨ht, Function.update_of_ne ?_ ..⟩)
        fun c' v' hk' => Function.update_of_ne ?_ ..
      · rintro rfl
        have := hstart c'
        omega
      · -- another write between its value and its tag is planned for another cell
        rintro rfl
        have hop' := h.ops k o' hk
        rw [hk'] at hop'
        obtain ⟨hr', hw', hc', -⟩ := hop'
        exact hki (writes_unique hl ⟨o', hk, hw', hr', hc'.symm⟩ hwr)

/-- The store of a tag. -/
theorem inv_storeTag {i : ℕ} {o : Op} {c : Cell} {v : V} (h : Inv E m₀ s) (hi : E.ops[i]? = some o)
    (hph : s.phase i = .tagging c v) :
    Inv E m₀ ⟨{ s.mem with tag := Function.update s.mem.tag c E.epoch },
      Function.update s.phase i (.done (some v))⟩ := by
  have hop := h.ops i o hi
  rw [hph] at hop
  obtain ⟨hr, hw, hc, hval⟩ := hop
  have hwr : Writes E m₀ i c := ⟨o, hi, hw, hr, hc.symm⟩
  have hmono : ∀ c', s.mem.tag c' = E.epoch →
      Function.update s.mem.tag c E.epoch c' = E.epoch := by
    intro c' ht
    by_cases hcc : c' = c
    · rw [hcc, Function.update_self]
    · rw [Function.update_of_ne hcc, ht]
  refine ⟨fun c' => ?_, fun k o' hk => ?_⟩
  · by_cases hcc : c' = c
    · subst hcc
      exact Or.inr ⟨i, v, hwr, hval, Or.inr ⟨Function.update_self .., Function.update_self ..⟩⟩
    · rcases h.cells c' with ⟨ht, hv⟩ | ⟨j, v', hj, hv, hjph⟩
      · exact Or.inl ⟨(Function.update_of_ne hcc ..).trans ht, hv⟩
      · have hji : j ≠ i := by
          rintro rfl
          rw [hph] at hjph
          simp [Ne.symm hcc] at hjph
        refine Or.inr ⟨j, v', hj, hv, ?_⟩
        simpa only [Function.update_of_ne hji, Function.update_of_ne hcc] using hjph
  · by_cases hki : k = i
    · subst hki
      obtain rfl : o = o' := Option.some.inj (hi.symm.trans hk)
      simp only [Function.update_self]
      refine ⟨hr, Or.inr ⟨Or.inl hw, ?_, ?_⟩⟩
      · rw [← hc]
        exact Function.update_self ..
      · rw [← hc]
        exact hval
    · simp only [Function.update_of_ne hki]
      exact (h.ops k o' hk).frame (fun c' ht => ⟨hmono c' ht, rfl⟩) fun _ _ _ => rfl

theorem slotB_of_writes {j r : ℕ} {c : Cell} (hw : Writes E m₀ j c) (hc : c = .slot1 r ∨ c = .slot2 r) :
    slotB m₀ r = c := by
  obtain ⟨o, -, -, -, ht⟩ := hw
  rw [target] at ht
  split at ht
  · have hr : o.record = r := by
      rw [slotB] at ht
      rcases hc with rfl | rfl <;> split at ht <;> simp at ht <;> exact ht
    rw [← hr, ht]
  · rcases hc with rfl | rfl <;> simp at ht

/-- What a load of a record's tag gives. -/
theorem loads_tag (h : Inv E m₀ s) {r : ℕ} {c : Cell} (hc : c = .slot1 r ∨ c = .slot2 r) :
    Loads m₀ r E.epoch c (s.mem.tag c) := by
  rcases h.cells c with ⟨ht, -⟩ | ⟨j, v, hj, -, ⟨-, ht⟩ | ⟨-, ht⟩⟩
  · exact Or.inl ht
  · exact Or.inl ht
  · exact Or.inr ⟨ht, slotB_of_writes hj hc⟩

/-- Record A is not written. -/
theorem value_slotA (h : Inv E m₀ s) (r : ℕ) :
    s.mem.tag (slotA m₀ r) = m₀.tag (slotA m₀ r) ∧ s.mem.value (slotA m₀ r) = m₀.value (slotA m₀ r) := by
  refine (h.cells (slotA m₀ r)).resolve_right ?_
  rintro ⟨j, v, ⟨o, -, -, -, ht⟩, -⟩
  exact slotA_ne_target m₀ r o.record (E.loc o) ht.symm

theorem inv_read (hstart : ∀ c, m₀.tag c < E.epoch) {i : ℕ} {o : Op} {p : Phase V} (h : Inv E m₀ s)
    (hi : E.ops[i]? = some o) (hw : o.isWrite = false)
    (hs : gpuReadFromTableCoop s.mem o.record (E.loc o) E.epoch (s.phase i) = some p) :
    OpOk E m₀ s.mem o p := by
  have hop := h.ops i o hi
  cases hph : s.phase i with
  | idle =>
    simp only [hph, gpuReadFromTableCoop] at hs
    split at hs
    · next hr =>
      obtain rfl := Option.some.inj hs
      exact hr
    · next hr =>
      split at hs
      · next hloc =>
        obtain rfl := Option.some.inj hs
        exact ⟨hr, hloc.symm.imp id fun hA => ⟨hw, hA⟩, loads_tag h (Or.inl rfl), id⟩
      · next hloc =>
        obtain rfl := Option.some.inj hs
        rw [not_or] at hloc
        exact ⟨hr, hw, hloc.1, (if_neg hloc.2).symm⟩
  | loaded v1 =>
    rw [hph] at hop
    obtain ⟨hr, hloc, hl₁, htag₁⟩ := hop
    have hl₂ := loads_tag h (r := o.record) (Or.inr rfl)
    simp only [hph, gpuReadFromTableCoop] at hs
    split at hs
    · next hA =>
      obtain rfl := Option.some.inj hs
      exact ⟨hr, hw, Or.inl ⟨hA, readRecordA_eq (hstart _) (hstart _) hl₁ hl₂⟩⟩
    · next hA =>
      have hB : E.loc o = locRecordB := hloc.resolve_right fun h => hA h.2
      have htarget : target m₀ o.record (E.loc o) = slotB m₀ o.record := if_pos hB
      obtain rfl := Option.some.inj hs
      rcases readRecordB_eq (V := V) (hstart _) (hstart _) hl₁ hl₂ with heq | ⟨heq, hep⟩
      · rw [heq]
        exact ⟨hr, hw, hA, htarget.symm⟩
      · rw [heq]
        refine ⟨hr, hw, Or.inr ⟨hA, htarget.symm, ?_⟩⟩
        -- the epoch was seen in one of the two tags, and only slot B can carry it
        rcases hep with hv1 | hv2
        · have hc : slotB m₀ o.record = .slot1 o.record := by
            refine (hl₁.resolve_left fun hv => ?_).2
            have := hstart (.slot1 o.record)
            omega
          rw [hc]
          exact htag₁ hv1
        · have hc : slotB m₀ o.record = .slot2 o.record := by
            refine (hl₂.resolve_left fun hv => ?_).2
            have := hstart (.slot2 o.record)
            omega
          rw [hc]
          exact hv2
  | waiting c =>
    rw [hph] at hop
    obtain ⟨hr, -, hA, hc⟩ := hop
    simp only [hph, gpuReadFromTableCoop] at hs
    split at hs
    · next ht =>
      obtain rfl := Option.some.inj hs
      exact ⟨hr, hw, Or.inr ⟨hA, hc, ht⟩⟩
    · exact absurd hs (by simp)
  | reading c =>
    rw [hph] at hop
    simp only [hph, gpuReadFromTableCoop] at hs
    obtain rfl := Option.some.inj hs
    obtain ⟨hr, -, ⟨hA, rfl⟩ | ⟨hA, rfl, ht⟩⟩ := hop
    · exact ⟨hr, Or.inl ⟨hw, hA, (value_slotA h o.record).2⟩⟩
    · exact ⟨hr, Or.inr ⟨Or.inr hA, ht, rfl⟩⟩
  | _ => simp [hph, gpuReadFromTableCoop] at hs

/-- The writer of record B loads the tags of the epoch's start. -/
theorem writeRecordB_eq (hl : Located E.ops E.loc) (hstart : ∀ c, m₀.tag c < E.epoch) {i v1 : ℕ} {o : Op}
    (h : Inv E m₀ s) (hi : E.ops[i]? = some o) (hw : o.isWrite = true)
    (hph : s.phase i = .loaded v1) :
    writeRecordB o.record v1 (s.mem.tag (.slot2 o.record)) = target m₀ o.record (E.loc o) := by
  have hop := h.ops i o hi
  rw [hph] at hop
  obtain ⟨hr, hloc, hl₁, htag₁⟩ := hop
  have hB : E.loc o = locRecordB := hloc.resolve_right fun h => by simp [hw] at h
  have htarget : target m₀ o.record (E.loc o) = slotB m₀ o.record := if_pos hB
  have hun : s.mem.tag (slotB m₀ o.record) = m₀.tag (slotB m₀ o.record) :=
    tag_of_unstored hl h ⟨o, hi, hw, hr, htarget⟩ (by rw [hph]; trivial)
  have hlt := hstart (slotB m₀ o.record)
  have hv1 : v1 = m₀.tag (.slot1 o.record) := hl₁.resolve_right fun ⟨hv, hc⟩ => by
    have := htag₁ hv
    rw [hc] at hun hlt
    omega
  have hv2 : s.mem.tag (.slot2 o.record) = m₀.tag (.slot2 o.record) :=
    (loads_tag h (Or.inr rfl)).resolve_right fun ⟨hv, hc⟩ => by
      rw [hc] at hun hlt
      omega
  rw [htarget, writeRecordB, hv1, hv2, slotB]

theorem inv_write (hl : Located E.ops E.loc) (hstart : ∀ c, m₀.tag c < E.epoch) {i : ℕ} {o : Op}
    {data : V} {x : Memory V × Phase V} (h : Inv E m₀ s) (hi : E.ops[i]? = some o)
    (hw : o.isWrite = true)
    (hs : gpuWriteToTableCoop s.mem o.record (E.loc o) E.epoch data (s.phase i) = some x) :
    Inv E m₀ ⟨x.1, Function.update s.phase i x.2⟩ := by
  cases hph : s.phase i with
  | idle =>
    have hun : o.isWrite = true → (s.phase i).Unstored := fun _ => by rw [hph]; trivial
    simp only [hph, gpuWriteToTableCoop] at hs
    split at hs
    · next hr =>
      obtain rfl := Option.some.inj hs
      exact inv_load h hi hun hr
    · next hr =>
      split at hs
      · next hB =>
        obtain rfl := Option.some.inj hs
        exact inv_load h hi hun ⟨hr, Or.inl hB, loads_tag h (Or.inl rfl), id⟩
      · next hB =>
        obtain rfl := Option.some.inj hs
        exact inv_load h hi hun ⟨hr, hw, (if_neg hB).symm⟩
  | loaded v1 =>
    have hun : o.isWrite = true → (s.phase i).Unstored := fun _ => by rw [hph]; trivial
    have hop := h.ops i o hi
    rw [hph] at hop
    simp only [hph, gpuWriteToTableCoop] at hs
    obtain rfl := Option.some.inj hs
    exact inv_load h hi hun ⟨hop.1, hw, writeRecordB_eq hl hstart h hi hw hph⟩
  | writing c =>
    simp only [hph, gpuWriteToTableCoop] at hs
    obtain rfl := Option.some.inj hs
    exact inv_storeValue hl hstart h hi hph
  | tagging c v =>
    simp only [hph, gpuWriteToTableCoop] at hs
    obtain rfl := Option.some.inj hs
    exact inv_storeTag h hi hph
  | _ => simp [hph, gpuWriteToTableCoop] at hs

theorem inv_step (hl : Located E.ops E.loc) (hstart : ∀ c, m₀.tag c < E.epoch) {i : ℕ} {data : V}
    (h : Inv E m₀ s) (hs : step E s i data = some s') : Inv E m₀ s' := by
  rw [step] at hs
  split at hs
  · exact absurd hs (by simp)
  · next o hi =>
    split at hs
    · next hw =>
      obtain ⟨x, hx, rfl⟩ := Option.map_eq_some_iff.mp hs
      exact inv_write hl hstart h hi hw hx
    · next hw =>
      obtain ⟨p, hp, rfl⟩ := Option.map_eq_some_iff.mp hs
      have hw' : o.isWrite = false := by simpa using hw
      exact inv_load h hi (fun hw'' => absurd hw'' hw) (inv_read hstart h hi hw' hp)

theorem inv_run (hl : Located E.ops E.loc) (hstart : ∀ c, m₀.tag c < E.epoch) {evs : List (ℕ × V)}
    (h : Inv E m₀ s) (hrun : run E s evs = some s') : Inv E m₀ s' := by
  induction evs generalizing s with
  | nil =>
    obtain rfl := Option.some.inj hrun
    exact h
  | cons x evs ih =>
    rw [run, List.foldlM_cons] at hrun
    obtain ⟨t, ht, hrest⟩ := Option.bind_eq_some_iff.mp hrun
    exact ih (inv_step hl hstart h ht) hrest

/-! ### What readers get -/

/-- A tagged cell holds what its one write wrote. -/
theorem done_of_tag (hl : Located E.ops E.loc) (hstart : ∀ c, m₀.tag c < E.epoch) {j : ℕ} {c : Cell}
    (h : Inv E m₀ s) (hw : Writes E m₀ j c) (ht : s.mem.tag c = E.epoch) :
    s.phase j = .done (some (s.mem.value c)) := by
  have hlt := hstart c
  rcases h.cells c with ⟨ht', -⟩ | ⟨j', v, hj', hv, ⟨-, ht'⟩ | ⟨hph, -⟩⟩
  · omega
  · omega
  · obtain rfl := writes_unique hl hw hj'
    rw [hph, hv]

theorem writes_of_lastWrite (hl : Located E.ops E.loc) {i j : ℕ} {o : Op} (hi : E.ops[i]? = some o)
    (hw : o.isWrite = false) (hr : o.record ≠ kNoRecord)
    (hlast : lastWriteBefore E.ops o.record i = some j) :
    Writes E m₀ j (target m₀ o.record (E.loc o)) ∧ E.loc o ≠ locRecordA := by
  obtain ⟨-, hj, -⟩ := lastWriteBefore_eq_some.mp hlast
  obtain ⟨p, hp, hpw, hpr⟩ := writesAt_iff.mp hj
  have hloc : E.loc o = E.loc p := hl.read_after hi hw hlast hp
  refine ⟨⟨p, hp, hpw, hpr ▸ hr, by rw [hpr, hloc]⟩, ?_⟩
  rw [hloc]
  rcases write_cases hl hp hpw with ⟨hB, -⟩ | hlt
  · rw [hB]; decide
  · have hA : 2 ^ 31 ≤ locRecordA := by decide
    omega

/-- A finished read of a record has the value of the last write before it, or the one the epoch
    started with. -/
theorem read_done (hl : Located E.ops E.loc) (hstart : ∀ c, m₀.tag c < E.epoch) {i : ℕ} {o : Op}
    {x : Option V} (h : Inv E m₀ s) (hi : E.ops[i]? = some o) (hw : o.isWrite = false)
    (hr : o.record ≠ kNoRecord) (hx : s.phase i = .done x) :
    ∃ v, x = some v ∧ match lastWriteBefore E.ops o.record i with
      | none => v = m₀.latest o.record
      | some j => s.phase j = .done (some v) := by
  have hop := h.ops i o hi
  rw [hx] at hop
  rcases x with - | v
  · exact absurd hop hr
  · refine ⟨v, rfl, ?_⟩
    obtain ⟨-, hcase⟩ := hop
    cases hlast : lastWriteBefore E.ops o.record i with
    | none =>
      have hA : E.loc o = locRecordA := hl.read_first hi hw hlast
      rcases hcase with ⟨-, -, hv⟩ | ⟨hne, -⟩
      · rw [latest_eq]
        exact hv
      · rcases hne with hw' | hne
        · rw [hw] at hw'
          exact absurd hw' (by simp)
        · exact absurd hA hne
    | some j =>
      obtain ⟨hwr, hA⟩ : Writes E m₀ j (target m₀ o.record (E.loc o)) ∧ E.loc o ≠ locRecordA :=
        writes_of_lastWrite hl hi hw hr hlast
      obtain ⟨-, ht, hv⟩ := hcase.resolve_left fun h => hA h.2.1
      rw [← hv]
      exact done_of_tag hl hstart h hwr ht

/-- A record nobody wrote keeps its latest value. -/
theorem latest_unwritten (h : Inv E m₀ s) {r : ℕ} (hB : ∀ j, ¬ Writes E m₀ j (slotB m₀ r)) :
    s.mem.latest r = m₀.latest r := by
  obtain ⟨hAt, hAv⟩ := value_slotA h r
  obtain ⟨hBt, -⟩ := (h.cells (slotB m₀ r)).resolve_right fun ⟨j, v, hj, _⟩ => hB j hj
  rw [slotA] at hAt hAv
  rw [slotB] at hBt
  rw [Memory.latest, Memory.latest]
  split at hAt <;> rename_i hlt
  · rw [if_pos hlt] at hAv hBt
    rw [hAt, hBt, if_pos hlt, if_pos hlt, hAv]
  · rw [if_neg hlt] at hAv hBt
    rw [hAt, hBt, if_neg hlt, if_neg hlt, hAv]

/-- A record whose slot B carries the epoch has it as its latest. -/
theorem latest_written (hstart : ∀ c, m₀.tag c < E.epoch) (h : Inv E m₀ s) {r : ℕ}
    (ht : s.mem.tag (slotB m₀ r) = E.epoch) : s.mem.latest r = s.mem.value (slotB m₀ r) := by
  obtain ⟨hAt, -⟩ := value_slotA h r
  have hlt := hstart (slotA m₀ r)
  rw [slotA] at hAt hlt
  rw [slotB] at ht ⊢
  rw [Memory.latest]
  split at hAt <;> rename_i hslot
  · rw [if_pos hslot] at hlt ht ⊢
    rw [if_neg (by omega)]
  · rw [if_neg hslot] at hlt ht ⊢
    rw [if_pos (by omega)]

/-- When all operations have returned, a record's latest value is its last write. -/
theorem latest_done (hl : Located E.ops E.loc) (hstart : ∀ c, m₀.tag c < E.epoch) (h : Inv E m₀ s)
    (hall : ∀ i < E.ops.length, ∃ x, s.phase i = .done x) {r : ℕ} (hr : r ≠ kNoRecord) :
    match lastWriteBefore E.ops r E.ops.length with
      | none => s.mem.latest r = m₀.latest r
      | some j => s.phase j = .done (some (s.mem.latest r)) := by
  cases hlast : lastWriteBefore E.ops r E.ops.length with
  | none =>
    refine latest_unwritten h fun j hj => ?_
    obtain ⟨o, ho, how, -, ht⟩ := hj
    have hlt : j < E.ops.length := (List.getElem?_eq_some_iff.mp ho).1
    have hno := lastWriteBefore_eq_none.mp hlast j hlt
    have hrec : o.record = r := by
      rw [target] at ht
      split at ht
      · exact slotB_inj ht
      · exact absurd ht.symm (slotB_ne_version _ _ _)
    rw [writesAt_iff.mpr ⟨o, ho, how, hrec⟩] at hno
    exact absurd hno (by simp)
  | some j =>
    obtain ⟨hlt, hj, hafter⟩ := lastWriteBefore_eq_some.mp hlast
    obtain ⟨p, hp, hpw, rfl⟩ := writesAt_iff.mp hj
    have hB : E.loc p = locRecordB := by
      refine hl.write_last hp hpw fun k hk => ?_
      by_cases hkl : k < E.ops.length
      · exact hafter k hk hkl
      · rw [writesAt, List.getElem?_eq_none (by omega)]
    have htarget : target m₀ p.record (E.loc p) = slotB m₀ p.record := if_pos hB
    have hwr : Writes E m₀ j (slotB m₀ p.record) := ⟨p, hp, hpw, hr, htarget⟩
    obtain ⟨x, hx⟩ := hall j hlt
    have hop := h.ops j p hp
    rw [hx] at hop
    rcases x with - | v
    · exact absurd hop hr
    · obtain ⟨-, hcase⟩ := hop
      obtain ⟨-, ht, -⟩ := hcase.resolve_left fun h => by simp [hpw] at h
      rw [htarget] at ht
      rw [latest_written hstart h ht]
      exact done_of_tag hl hstart h hwr ht

end

/-! ### Planned batches -/

section
variable {V : Type} {ops : List Op} {plan : ExecPlan} {epoch : ℕ} {m₀ : Memory V}
  {evs : List (ℕ × V)} {s : State V}

/-- The epoch of a planned batch. -/
def planned (ops : List Op) (plan : ExecPlan) (epoch : ℕ) : Epoch := ⟨ops, locOf ops plan, epoch⟩

/-- Serializability of planning and execution: in every interleaving of the operations' loads and
    stores, a finished read of a record has the value of the last write submitted before it (which
    has finished), or the value the record started with; and when all operations have finished, the
    latest value of a record is that of its last write. All tags are from before the epoch when it
    starts. -/
theorem execution_serializable (hb : Batch ops) (hstart : ∀ c, m₀.tag c < epoch)
    (hrun : run (planned ops plan epoch) (.start m₀) evs = some s) :
    (∀ i o x, ops[i]? = some o → o.isWrite = false → o.record ≠ kNoRecord →
      s.phase i = .done x → ∃ v, x = some v ∧
        match lastWriteBefore ops o.record i with
        | none => v = m₀.latest o.record
        | some j => s.phase j = .done (some v)) ∧
    ((∀ i < ops.length, ∃ x, s.phase i = .done x) → ∀ r, r ≠ kNoRecord →
      match lastWriteBefore ops r ops.length with
      | none => s.mem.latest r = m₀.latest r
      | some j => s.phase j = .done (some (s.mem.latest r))) := by
  have hl : Located (planned ops plan epoch).ops (planned ops plan epoch).loc := located hb plan
  have hinv : Inv (planned ops plan epoch) m₀ s := inv_run hl hstart inv_start hrun
  refine ⟨fun i o x hi hw hr hx => ?_, fun hall r hr => ?_⟩
  · exact read_done hl hstart hinv hi hw hr hx
  · exact latest_done hl hstart hinv hall hr

/-- The tags an epoch leaves are from before the next one. -/
theorem tags_lt_succ (hb : Batch ops) (hstart : ∀ c, m₀.tag c < epoch)
    (hrun : run (planned ops plan epoch) (.start m₀) evs = some s) (c : Cell) :
    s.mem.tag c < epoch + 1 := by
  have hinv : Inv (planned ops plan epoch) m₀ s := inv_run (located hb plan) hstart inv_start hrun
  have hlt := hstart c
  rcases hinv.cells c with ⟨ht, -⟩ | ⟨j, v, -, -, ⟨-, ht⟩ | ⟨-, ht⟩⟩
  · omega
  · omega
  · have : s.mem.tag c = epoch := ht
    omega

end

/-- Two writes and two reads of record 5, and a read of record 7. -/
def fiveOps : List Op :=
  [⟨5, 0, true, 0⟩, ⟨5, 1, false, 0⟩, ⟨5, 1, true, 1⟩, ⟨5, 2, false, 0⟩, ⟨7, 2, false, 1⟩]

/-- The last read waits first; the second write overtakes the first. -/
def fiveSteps : List (ℕ × ℕ) :=
  [(3, 0), (3, 0)] ++ List.replicate 4 (2, 20) ++ List.replicate 3 (0, 10) ++ [(3, 0), (3, 0)] ++
    List.replicate 3 (1, 0) ++ List.replicate 3 (4, 0)

def fiveStart : Memory ℕ where
  tag _ := 0
  value
    | .slot1 r => r
    | .slot2 r => 100 + r
    | .version _ => 0

theorem execution_serializable_five : ∃ s : State ℕ,
    run (planned fiveOps (fun _ => 0) 1) (.start fiveStart) fiveSteps = some s ∧
    (s.phase 0 = .done (some 10) ∧ s.phase 1 = .done (some 10)) ∧
    (s.phase 2 = .done (some 20) ∧ s.phase 3 = .done (some 20)) ∧
    s.phase 4 = .done (some (fiveStart.latest 7)) ∧ s.phase 2 = .done (some (s.mem.latest 5)) := by
  have hrun : ((run (planned fiveOps (fun _ => 0) 1) (.start fiveStart) fiveSteps).map fun s =>
      (List.range 5).map s.phase) = some [.done (some 10), .done (some 10), .done (some 20),
        .done (some 20), .done (some 7)] := by
    decide +kernel
  obtain ⟨s, hs, hph⟩ := Option.map_eq_some_iff.mp hrun
  have hb : Batch fiveOps := ⟨by decide, by decide, by decide, by decide, by decide⟩
  simp only [List.range, List.range.loop, List.map_cons, List.map_nil, List.cons.injEq, and_true] at hph
  obtain ⟨h0, h1, h2, h3, h4⟩ := hph
  obtain ⟨hread, hlast⟩ := execution_serializable hb (fun _ => Nat.one_pos) hs
  refine ⟨s, hs, ⟨h0, ?_⟩, ⟨h2, ?_⟩, ?_, ?_⟩
  · obtain ⟨v, hv, hj⟩ := hread 1 _ _ rfl rfl (by decide) h1
    have hj' : s.phase 0 = .done (some v) := hj
    rw [h1, hv, ← hj', h0]
  · obtain ⟨v, hv, hj⟩ := hread 3 _ _ rfl rfl (by decide) h3
    have hj' : s.phase 2 = .done (some v) := hj
    rw [h3, hv, ← hj', h2]
  · obtain ⟨v, hv, hj⟩ := hread 4 _ _ rfl rfl (by decide) h4
    have hj' : v = fiveStart.latest 7 := hj
    rw [h4, hv, hj']
  · refine hlast (fun i hi => ?_) 5 (by decide)
    have hi' : i < 5 := hi
    obtain rfl | rfl | rfl | rfl | rfl : i = 0 ∨ i = 1 ∨ i = 2 ∨ i = 3 ∨ i = 4 := by omega
    exacts [⟨_, h0⟩, ⟨_, h1⟩, ⟨_, h2⟩, ⟨_, h3⟩, ⟨_, h4⟩]

end Egad.Execution
