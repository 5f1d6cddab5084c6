import Egad.Execution.Serializable

/-! # Record accesses of the CPU executors (`storage.h`)

    `readFromTable` and `writeToTable` follow the same plan as `gpuReadFromTableCoop` and
    `gpuWriteToTableCoop`. They load the two tags of a record in one piece, and a writer of a
    scratch version stores the tag only:

                      record B                        scratch version
        GPU write     store value, store tag          store value, store tag
        CPU write     store value, store tag                       store tag

    Step by step the CPU machine does what the GPU machine does on records. A reader of a scratch
    version gets the bytes that were there when the epoch started. -/

namespace Egad.Execution
open Egad.Planner

variable {V : Type}

/-! ### The source -/

/-- One step of `readFromTable` with location `loc`. -/
def readFromTable (m : Memory V) (r loc epoch : ℕ) : Phase V → Option (Phase V)
  | .idle =>
    let version1 := m.tag (.slot1 r)
    let version2 := m.tag (.slot2 r)
    if loc = locRecordA then
      if version1 = epoch then some (.reading (.slot2 r))
      else if version2 = epoch then some (.reading (.slot1 r))
      else if version1 < version2 then some (.reading (.slot2 r))
      else some (.reading (.slot1 r))
    else if loc = locRecordB then
      if version1 = epoch then some (.reading (.slot1 r))
      else if version2 = epoch then some (.reading (.slot2 r))
      else if version1 < version2 then some (.waiting (.slot1 r))
      else some (.waiting (.slot2 r))
    else some (.waiting (.version loc))
  | .waiting c => if m.tag c = epoch then some (.reading c) else none
  | .reading c => some (.done (some (m.value c)))
  | _ => none

/-- One step of `writeToTable` with location `loc` and source `data`; the `memcpy` of a scratch
    version is commented out. -/
def writeToTable (m : Memory V) (r loc epoch : ℕ) (data : V) : Phase V → Option (Memory V × Phase V)
  | .idle =>
    let version1 := m.tag (.slot1 r)
    let version2 := m.tag (.slot2 r)
    if loc = locRecordB then
      if version1 < version2 then some (m, .writing (.slot1 r))
      else some (m, .writing (.slot2 r))
    else some (m, .writing (.version loc))
  | .writing c =>
    if loc = locRecordB then
      some ({ m with value := Function.update m.value c data }, .tagging c data)
    else some (m, .tagging c data)
  | .tagging c v => some ({ m with tag := Function.update m.tag c epoch }, .done (some v))
  | _ => none

/-- One load or store of operation `i`; a write has source `data`. -/
def cpuStep (E : Epoch) (s : State V) (i : ℕ) (data : V) : Option (State V) :=
  match E.ops[i]? with
  | none => none
  | some o =>
    if o.isWrite then
      (writeToTable s.mem o.record (E.loc o) E.epoch data (s.phase i)).map fun x =>
        ⟨x.1, Function.update s.phase i x.2⟩
    else
      (readFromTable s.mem o.record (E.loc o) E.epoch (s.phase i)).map fun p =>
        ⟨s.mem, Function.update s.phase i p⟩

/-- An interleaving of the operations' steps. -/
def cpuRun (E : Epoch) (s : State V) (evs : List (ℕ × V)) : Option (State V) :=
  evs.foldlM (fun s x => cpuStep E s x.1 x.2) s

/-! ### What it is for -/

section
variable (ops : List Op) (m₀ : Memory V)

/-- Finished reads have the value of the last write before them, which has finished, or the one the
    epoch started with; when all is done a record's latest value is that of its last write. -/
structure HonoursPlan (s : State V) : Prop where
  reads : ∀ i o x, ops[i]? = some o → o.isWrite = false → s.phase i = .done x →
    ∃ v, x = some v ∧ match lastWriteBefore ops o.record i with
      | none => v = m₀.latest o.record
      | some j => s.phase j = .done (some v)
  latest : (∀ i < ops.length, ∃ x, s.phase i = .done x) → ∀ r, r ≠ kNoRecord →
    match lastWriteBefore ops r ops.length with
      | none => s.mem.latest r = m₀.latest r
      | some j => s.phase j = .done (some (s.mem.latest r))

/-- Writes that have finished in both states had the same source. -/
def SameSources (s g : State V) : Prop := ∀ i o v v', ops[i]? = some o → o.isWrite = true →
  s.phase i = .done (some v) → g.phase i = .done (some v') → v = v'

/-- Reads that have finished in both states got the same value. -/
def SameReads (s g : State V) : Prop := ∀ i o v v', ops[i]? = some o → o.isWrite = false →
  s.phase i = .done (some v) → g.phase i = .done (some v') → v = v'

end

/-! ### The CPU machine follows the GPU machine -/

/-- The operation reads a scratch version. -/
def ReadsScratch (o : Op) (loc : ℕ) : Prop :=
  o.isWrite = false ∧ loc ≠ locRecordA ∧ loc ≠ locRecordB

/-- Phases agree, but for the value that a reader of a scratch version got. -/
def PhaseLike (m₀ : Memory V) (o : Op) (loc : ℕ) (p q : Phase V) : Prop :=
  p = q ∧ (ReadsScratch o loc → ∀ x, p ≠ .done x) ∨
    ReadsScratch o loc ∧ p = .done (some (m₀.value (.version loc))) ∧ ∃ v, q = .done (some v)

section
variable {m₀ : Memory V} {o : Op} {loc : ℕ} {p q : Phase V}

theorem PhaseLike.eq_of (h : PhaseLike m₀ o loc p q) (hp : ∀ x, p ≠ .done x) : q = p := by
  rcases h with ⟨rfl, -⟩ | ⟨-, hdone, -⟩
  · rfl
  · exact absurd hdone (hp _)

theorem phaseLike_of_ne_done (hp : ∀ x, p ≠ .done x) : PhaseLike m₀ o loc p p :=
  .inl ⟨rfl, fun _ => hp⟩

theorem phaseLike_of_record (hloc : loc = locRecordA ∨ loc = locRecordB) : PhaseLike m₀ o loc p p :=
  .inl ⟨rfl, fun h => absurd hloc (not_or.mpr h.2)⟩

theorem phaseLike_of_write (hw : o.isWrite = true) : PhaseLike m₀ o loc p p :=
  .inl ⟨rfl, fun h => absurd (h.1.symm.trans hw) Bool.false_ne_true⟩

end

/-- A CPU state and a GPU state: tags and records are the same, scratch versions on the CPU are as
    the epoch found them. -/
structure Follows (E : Epoch) (m₀ : Memory V) (s g : State V) : Prop where
  tag : s.mem.tag = g.mem.tag
  value : ∀ c, (∀ n, c ≠ .version n) → s.mem.value c = g.mem.value c
  scratch : ∀ n, s.mem.value (.version n) = m₀.value (.version n)
  phase : ∀ i o, E.ops[i]? = some o → PhaseLike m₀ o (E.loc o) (s.phase i) (g.phase i)

section
variable {E : Epoch} {m₀ : Memory V} {s s' g : State V}

theorem follows_start : Follows E m₀ (.start m₀) (.start m₀) :=
  ⟨rfl, fun _ _ => rfl, fun _ => rfl, fun _ _ _ => phaseLike_of_ne_done fun _ h => by cases h⟩

/-- One operation moves on both sides. -/
theorem Follows.update (hf : Follows E m₀ s g) {i : ℕ} {o : Op} (hi : E.ops[i]? = some o)
    {m m' : Memory V} {p q : Phase V} (htag : m.tag = m'.tag)
    (hvalue : ∀ c, (∀ n, c ≠ .version n) → m.value c = m'.value c)
    (hscratch : ∀ n, m.value (.version n) = m₀.value (.version n))
    (hphase : PhaseLike m₀ o (E.loc o) p q) :
    Follows E m₀ ⟨m, Function.update s.phase i p⟩ ⟨m', Function.update g.phase i q⟩ := by
  refine ⟨htag, hvalue, hscratch, fun k o' hk => ?_⟩
  by_cases hki : k = i
  · subst hki
    obtain rfl := Option.some.inj (hi.symm.trans hk)
    simpa only [Function.update_self] using hphase
  · simpa only [Function.update_of_ne hki] using hf.phase k o' hk

/-! Steps of the GPU machine, one at a time and the two loads of a record's tags. -/

section
variable {i : ℕ} {o : Op} {data : V} {p q : Phase V} (hi : E.ops[i]? = some o)
include hi

theorem run_read (hw : o.isWrite = false) (hq : g.phase i = q)
    (h : gpuReadFromTableCoop g.mem o.record (E.loc o) E.epoch q = some p) :
    run E g [(i, data)] = some ⟨g.mem, Function.update g.phase i p⟩ := by
  have hstep : step E g i data = some ⟨g.mem, Function.update g.phase i p⟩ := by
    simp only [step, hi, hw, Bool.false_eq_true, if_false, hq, h, Option.map_some]
  rw [run, List.foldlM_cons, hstep]
  rfl

theorem run_write {m : Memory V} (hw : o.isWrite = true) (hq : g.phase i = q)
    (h : gpuWriteToTableCoop g.mem o.record (E.loc o) E.epoch data q = some (m, p)) :
    run E g [(i, data)] = some ⟨m, Function.update g.phase i p⟩ := by
  have hstep : step E g i data = some ⟨m, Function.update g.phase i p⟩ := by
    simp only [step, hi, hw, if_true, hq, h, Option.map_some]
  rw [run, List.foldlM_cons, hstep]
  rfl

omit hi in
theorem run_loads {x y : ℕ × V}
    (h₁ : run E g [x] = some ⟨g.mem, Function.update g.phase i p⟩)
    (h₂ : run E ⟨g.mem, Function.update g.phase i p⟩ [y] =
      some ⟨g.mem, Function.update (Function.update g.phase i p) i q⟩) :
    run E g [x, y] = some ⟨g.mem, Function.update g.phase i q⟩ := by
  have happ : run E g ([x] ++ [y]) = (run E g [x]).bind fun t => run E t [y] := by
    rw [run, List.foldlM_append]
    rfl
  rw [show [x, y] = [x] ++ [y] from rfl, happ, h₁, Option.bind_some, h₂, Function.update_idem]

end

theorem follows_read {i : ℕ} {o : Op} {p : Phase V} (hf : Follows E m₀ s g) (hinv : Inv E m₀ g)
    (hi : E.ops[i]? = some o) (hw : o.isWrite = false) (hr : o.record ≠ kNoRecord)
    (hs : readFromTable s.mem o.record (E.loc o) E.epoch (s.phase i) = some p) (data : V) :
    ∃ evs g', run E g evs = some g' ∧ Follows E m₀ ⟨s.mem, Function.update s.phase i p⟩ g' := by
  have hlike := hf.phase i o hi
  have hop := hinv.ops i o hi
  cases hph : s.phase i with
  | idle =>
    rw [hph] at hs hlike
    have hg : g.phase i = .idle := hlike.eq_of fun x => by simp
    simp only [readFromTable, hf.tag] at hs
    by_cases hrec : E.loc o = locRecordA ∨ E.loc o = locRecordB
    · have hfirst : run E g [(i, data)] =
          some ⟨g.mem, Function.update g.phase i (.loaded (g.mem.tag (.slot1 o.record)))⟩ :=
        run_read hi hw hg (by rw [gpuReadFromTableCoop, if_neg hr, if_pos hrec])
      refine ⟨[(i, data), (i, data)], ⟨g.mem, Function.update g.phase i p⟩,
        run_loads hfirst (run_read hi hw (Function.update_self ..) ?_),
        hf.update hi hf.tag hf.value hf.scratch (phaseLike_of_record hrec)⟩
      rw [gpuReadFromTableCoop, ← hs]
      simp only [readRecordA, readRecordB]
      by_cases hA : E.loc o = locRecordA
      · rw [if_pos hA, if_pos hA]
        split_ifs <;> rfl
      · rw [if_neg hA, if_neg hA, if_pos (hrec.resolve_left hA)]
        split_ifs <;> rfl
    · rw [not_or] at hrec
      rw [if_neg hrec.1, if_neg hrec.2] at hs
      obtain rfl := Option.some.inj hs
      refine ⟨[(i, data)], _, run_read hi hw hg ?_, hf.update hi hf.tag hf.value hf.scratch
        (phaseLike_of_ne_done fun _ h => by cases h)⟩
      rw [gpuReadFromTableCoop, if_neg hr, if_neg (not_or.mpr hrec)]
  | waiting c =>
    rw [hph] at hs hlike
    have hg : g.phase i = .waiting c := hlike.eq_of fun x => by simp
    simp only [readFromTable, hf.tag] at hs
    have hp : p = .reading c := by
      split at hs
      · exact (Option.some.inj hs).symm
      · cases hs
    refine ⟨[(i, data)], _, run_read hi hw hg hs, hf.update hi hf.tag hf.value hf.scratch ?_⟩
    exact phaseLike_of_ne_done fun x h => by rw [hp] at h; cases h
  | reading c =>
    rw [hph] at hs hlike
    have hg : g.phase i = .reading c := hlike.eq_of fun x => by simp
    rw [hg] at hop
    obtain rfl := Option.some.inj hs
    refine ⟨[(i, data)], _, run_read hi hw hg (by rw [gpuReadFromTableCoop]),
      hf.update hi hf.tag hf.value hf.scratch ?_⟩
    obtain ⟨-, -, ⟨hA, rfl⟩ | ⟨hA, rfl, -⟩⟩ := hop
    · rw [hf.value _ fun n => slotA_ne_version _ _ n]
      exact phaseLike_of_record (.inl hA)
    · by_cases hB : E.loc o = locRecordB
      · rw [target, if_pos hB, hf.value _ fun n => slotB_ne_version _ _ n]
        exact phaseLike_of_record (.inr hB)
      · -- the bytes of the scratch version are those of the start
        rw [target, if_neg hB, hf.scratch]
        exact .inr ⟨⟨hw, hA, hB⟩, rfl, _, rfl⟩
  | loaded | writing | tagging | done =>
    rw [hph] at hs
    cases hs

theorem follows_write {i : ℕ} {o : Op} {data : V} {x : Memory V × Phase V} (hf : Follows E m₀ s g)
    (hinv : Inv E m₀ g) (hi : E.ops[i]? = some o) (hw : o.isWrite = true)
    (hr : o.record ≠ kNoRecord)
    (hs : writeToTable s.mem o.record (E.loc o) E.epoch data (s.phase i) = some x) :
    ∃ evs g', run E g evs = some g' ∧ Follows E m₀ ⟨x.1, Function.update s.phase i x.2⟩ g' := by
  have hlike := hf.phase i o hi
  have hop := hinv.ops i o hi
  cases hph : s.phase i with
  | idle =>
    rw [hph] at hs hlike
    have hg : g.phase i = .idle := hlike.eq_of fun x => by simp
    simp only [writeToTable, hf.tag] at hs
    by_cases hB : E.loc o = locRecordB
    · have hfirst : run E g [(i, data)] =
          some ⟨g.mem, Function.update g.phase i (.loaded (g.mem.tag (.slot1 o.record)))⟩ :=
        run_write hi hw hg (by rw [gpuWriteToTableCoop, if_neg hr, if_pos hB])
      have hx : x = (s.mem, .writing (writeRecordB o.record (g.mem.tag (.slot1 o.record))
          (g.mem.tag (.slot2 o.record)))) := by
        rw [if_pos hB] at hs
        rw [writeRecordB]
        split at hs
        case isTrue hlt => rw [if_pos hlt, Option.some.inj hs]
        case isFalse hlt => rw [if_neg hlt, Option.some.inj hs]
      subst hx
      refine ⟨[(i, data), (i, data)], _,
        run_loads hfirst (run_write hi hw (Function.update_self ..) ?_),
        hf.update hi hf.tag hf.value hf.scratch (phaseLike_of_write hw)⟩
      rw [gpuWriteToTableCoop]
    · rw [if_neg hB] at hs
      obtain rfl := Option.some.inj hs
      refine ⟨[(i, data)], _, run_write hi hw hg ?_,
        hf.update hi hf.tag hf.value hf.scratch (phaseLike_of_write hw)⟩
      rw [gpuWriteToTableCoop, if_neg hr, if_neg hB]
  | writing c =>
    rw [hph] at hs hlike
    have hg : g.phase i = .writing c := hlike.eq_of fun x => by simp
    rw [hg] at hop
    obtain ⟨-, -, rfl⟩ := hop
    rw [writeToTable] at hs
    refine ⟨[(i, data)], _, run_write hi hw hg (by rw [gpuWriteToTableCoop]), ?_⟩
    split at hs
    case isTrue hB =>
      obtain rfl := Option.some.inj hs
      have hslot : target m₀ o.record (E.loc o) = slotB m₀ o.record := if_pos hB
      refine hf.update hi hf.tag (fun c hc => ?_) (fun n => ?_) (phaseLike_of_write hw)
      · simp only [Function.update_apply, hf.value c hc]
      · rw [hslot]
        have hne : Cell.version n ≠ slotB m₀ o.record := (slotB_ne_version _ _ _).symm
        exact (Function.update_of_ne hne _ _).trans (hf.scratch n)
    case isFalse hB =>
      obtain rfl := Option.some.inj hs
      have hslot : target m₀ o.record (E.loc o) = .version (E.loc o) := if_neg hB
      refine hf.update hi hf.tag (fun c hc => ?_) hf.scratch (phaseLike_of_write hw)
      rw [hslot]
      exact (hf.value c hc).trans (Function.update_of_ne (hc _) _ _).symm
  | tagging c v =>
    rw [hph] at hs hlike
    have hg : g.phase i = .tagging c v := hlike.eq_of fun x => by simp
    obtain rfl := Option.some.inj hs
    refine ⟨[(i, data)], _, run_write hi hw hg (by rw [gpuWriteToTableCoop]), ?_⟩
    exact hf.update hi (by rw [hf.tag]) hf.value hf.scratch (phaseLike_of_write hw)
  | loaded | waiting | reading | done =>
    rw [hph] at hs
    cases hs

/-- Whatever the CPU machine does, the GPU machine can do. -/
theorem follows_run (hl : Located E.ops E.loc) (hstart : ∀ c, m₀.tag c < E.epoch)
    (hrec : ∀ o ∈ E.ops, o.record ≠ kNoRecord) (evs : List (ℕ × V)) : ∀ {s g : State V},
    Follows E m₀ s g → Inv E m₀ g → cpuRun E s evs = some s' →
    ∃ g', Inv E m₀ g' ∧ Follows E m₀ s' g' := by
  induction evs with
  | nil =>
    rintro s g hf hinv hrun
    obtain rfl := Option.some.inj hrun
    exact ⟨g, hinv, hf⟩
  | cons x evs ih =>
    rintro s g hf hinv hrun
    rw [cpuRun, List.foldlM_cons] at hrun
    obtain ⟨t, ht, hrest⟩ := Option.bind_eq_some_iff.mp hrun
    have hstep : ∃ evs' g', run E g evs' = some g' ∧ Follows E m₀ t g' := by
      rw [cpuStep] at ht
      split at ht
      · cases ht
      · next o hi =>
        have hr := hrec o (List.mem_of_getElem? hi)
        split at ht
        · next hw =>
          obtain ⟨y, hy, rfl⟩ := Option.map_eq_some_iff.mp ht
          exact follows_write hf hinv hi hw hr hy
        · next hw =>
          obtain ⟨p, hp, rfl⟩ := Option.map_eq_some_iff.mp ht
          exact follows_read hf hinv hi (by simpa using hw) hr hp x.2
    obtain ⟨evs', g', hg', hf'⟩ := hstep
    exact ih hf' (inv_run hl hstart hinv hg') hrest

/-- A finished read on the CPU: the GPU's value, or the bytes of the start where it reads a scratch
    version. -/
theorem Follows.read_done (hl : Located E.ops E.loc) (hstart : ∀ c, m₀.tag c < E.epoch)
    (hf : Follows E m₀ s g) (hinv : Inv E m₀ g) {i : ℕ} {o : Op} {x : Option V}
    (hi : E.ops[i]? = some o) (hw : o.isWrite = false) (hr : o.record ≠ kNoRecord)
    (hx : s.phase i = .done x) :
    ∃ v, (match lastWriteBefore E.ops o.record i with
        | none => v = m₀.latest o.record
        | some j => s.phase j = .done (some v)) ∧
      (x = some v ∧ ¬ ReadsScratch o (E.loc o) ∨
        x = some (m₀.value (.version (E.loc o))) ∧ ReadsScratch o (E.loc o)) := by
  have hwrite : ∀ j v, lastWriteBefore E.ops o.record i = some j → g.phase j = .done (some v) →
      s.phase j = .done (some v) := by
    rintro j v hlast hj
    obtain ⟨-, hjw, -⟩ := lastWriteBefore_eq_some.mp hlast
    obtain ⟨p, hp, hpw, -⟩ := writesAt_iff.mp hjw
    rcases hf.phase j p hp with ⟨heq, -⟩ | ⟨hscratch, -⟩
    · rw [heq, hj]
    · exact absurd (hscratch.1.symm.trans hpw) Bool.false_ne_true
  have hlike := hf.phase i o hi
  rw [hx] at hlike
  have hcase : ∃ y, g.phase i = .done y ∧ (x = y ∧ ¬ ReadsScratch o (E.loc o) ∨
      x = some (m₀.value (.version (E.loc o))) ∧ ReadsScratch o (E.loc o)) := by
    rcases hlike with ⟨heq, hno⟩ | ⟨hscratch, heq, v, hv⟩
    · exact ⟨x, heq.symm, .inl ⟨rfl, fun h => hno h x rfl⟩⟩
    · exact ⟨some v, hv, .inr ⟨Phase.done.inj heq, hscratch⟩⟩
  obtain ⟨y, hy, hxy⟩ := hcase
  obtain ⟨v, rfl, hv⟩ := Execution.read_done hl hstart hinv hi hw hr hy
  refine ⟨v, ?_, hxy⟩
  cases hlast : lastWriteBefore E.ops o.record i with
  | none =>
    rw [hlast] at hv
    exact hv
  | some j =>
    rw [hlast] at hv
    exact hwrite j v hlast hv

/-- Only reads after a write in the epoch have scratch versions. -/
theorem exists_lastWrite_of_scratch (hl : Located E.ops E.loc) {i : ℕ} {o : Op}
    (hi : E.ops[i]? = some o) (hscratch : ReadsScratch o (E.loc o)) :
    ∃ j, lastWriteBefore E.ops o.record i = some j := by
  cases hlast : lastWriteBefore E.ops o.record i with
  | none => exact absurd (hl.read_first hi hscratch.1 hlast) hscratch.2.1
  | some j => exact ⟨j, rfl⟩

theorem Follows.latest (hf : Follows E m₀ s g) (r : ℕ) : s.mem.latest r = g.mem.latest r := by
  have hslot1 := hf.value (.slot1 r) fun _ => Cell.noConfusion
  have hslot2 := hf.value (.slot2 r) fun _ => Cell.noConfusion
  rw [Memory.latest, Memory.latest, hf.tag, hslot1, hslot2]

/-- Operations finish on both sides. -/
theorem Follows.done_iff (hf : Follows E m₀ s g) {i : ℕ} {o : Op} (hi : E.ops[i]? = some o) :
    (∃ x, s.phase i = .done x) ↔ ∃ x, g.phase i = .done x := by
  rcases hf.phase i o hi with ⟨heq, -⟩ | ⟨-, hs, v, hg⟩
  · rw [heq]
  · exact iff_of_true ⟨_, hs⟩ ⟨_, hg⟩

theorem Follows.write_eq (hf : Follows E m₀ s g) {i : ℕ} {o : Op} (hi : E.ops[i]? = some o)
    (hw : o.isWrite = true) : s.phase i = g.phase i := by
  rcases hf.phase i o hi with ⟨heq, -⟩ | ⟨hscratch, -⟩
  · exact heq
  · exact absurd (hscratch.1.symm.trans hw) Bool.false_ne_true

/-- The final values of the records are those of their last writes. -/
theorem Follows.latest_done (hl : Located E.ops E.loc) (hstart : ∀ c, m₀.tag c < E.epoch)
    (hf : Follows E m₀ s g) (hinv : Inv E m₀ g)
    (hall : ∀ i < E.ops.length, ∃ x, s.phase i = .done x) {r : ℕ} (hr : r ≠ kNoRecord) :
    match lastWriteBefore E.ops r E.ops.length with
      | none => s.mem.latest r = m₀.latest r
      | some j => s.phase j = .done (some (s.mem.latest r)) := by
  have hallg : ∀ i < E.ops.length, ∃ x, g.phase i = .done x := fun i hi =>
    (hf.done_iff (List.getElem?_eq_getElem hi)).mp (hall i hi)
  have hlatest := Execution.latest_done hl hstart hinv hallg hr
  rw [hf.latest r]
  cases hlast : lastWriteBefore E.ops r E.ops.length with
  | none =>
    rw [hlast] at hlatest
    exact hlatest
  | some j =>
    rw [hlast] at hlatest
    obtain ⟨-, hjw, -⟩ := lastWriteBefore_eq_some.mp hlast
    obtain ⟨p, hp, hpw, -⟩ := writesAt_iff.mp hjw
    exact (hf.write_eq hp hpw).trans hlatest

end

/-! ### What the CPU readers get -/

/-- Every scratch version that a finished read was planned to read already had, when the epoch
    started, the bytes that its writer was given. -/
def ScratchAsFound (ops : List Op) (loc : Op → ℕ) (m₀ : Memory V) (s : State V) : Prop :=
  ∀ i o j v, ops[i]? = some o → ReadsScratch o (loc o) → (∃ x, s.phase i = .done x) →
    lastWriteBefore ops o.record i = some j → s.phase j = .done (some v) →
    m₀.value (.version (loc o)) = v

/-- Two writes of record 5 with a read between them. -/
def threeOps : List Op := [⟨5, 0, true, 0⟩, ⟨5, 1, false, 0⟩, ⟨5, 2, true, 0⟩]

/-- They run one after the other; the writes have sources 10 and 20. -/
def threeSteps : List (ℕ × ℕ) :=
  List.replicate 3 (0, 10) ++ List.replicate 3 (1, 0) ++ List.replicate 3 (2, 20)

/-- A start with `b` in every scratch version. -/
def threeStart (b : ℕ) : Memory ℕ where
  tag _ := 0
  value
    | .slot1 r => r
    | .slot2 r => 100 + r
    | .version _ => b

theorem threeOps_batch : Batch threeOps := ⟨by decide, by decide, by decide, by decide, by decide⟩

/-- Where a run of the three operations ends. -/
def threeEnd (b : ℕ) : Option (State ℕ) :=
  cpuRun (planned threeOps (fun _ => 0) 1) (.start (threeStart b)) threeSteps

theorem threeEnd_phases (b : ℕ) (hb : b = 0 ∨ b = 10) : ∃ s, threeEnd b = some s ∧
    s.phase 0 = .done (some 10) ∧ s.phase 1 = .done (some b) := by
  have hphases : (threeEnd b).map (fun s => (s.phase 0, s.phase 1)) =
      some (.done (some 10), .done (some b)) := by
    rcases hb with rfl | rfl <;> decide +kernel
  obtain ⟨s, hs, hph⟩ := Option.map_eq_some_iff.mp hphases
  exact ⟨s, hs, Prod.mk.inj hph⟩

end Egad.Execution
