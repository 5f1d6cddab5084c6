import Egad.Recovery.CrashPoint

/-! # Recovery from a crash

    A marker `E` names the tables that recovery goes back to, and the epochs that it runs again:

        run      epoch 1 ─► … ─► E-2 ─► E-1 ─► E ─✗
        recover                  └─ rollback ─► E-1 ─► E ─► E+1 ─► …

    The rows of the end of epoch `E - 2` are all there under any marker and after any number of the
    stores of the flush in flight. A program whose executor has one outcome from given values then runs
    as it would have without the crash, and nothing keeps it from running to its last epoch. -/

namespace Egad.Recovery
open Egad.Stager

section
variable {F L τ V : Type} [DecidableEq F] [DecidableEq L] [DecidableEq τ] {α : L → Type}
  {P : Program F L α τ V} {loaded : τ → ℕ → Rec V} {b : Bool} {s : Machine F L α τ V}
  {hist : List (Writes τ V)} {sys : System F L α} {e : ℕ} {count : L → ℕ}

/-! ### The way to the last epoch -/

/-- The epochs fit the caches, and their executors have an outcome, whatever they read. -/
structure Program.Runs (P : Program F L α τ V) : Prop where
  fits : ∀ e < P.work.epochs, ∀ t,
    (buildNeeded (P.needed (e + 1) (P.work.logs e) t)).length ≤ (P.cfg t).capacity
  some : ∀ e < P.work.epochs, ∀ t,
    P.needed (e + 1) (P.work.logs e) t ≠ [] ∨ (P.cfg t).tpcc = true
  outcome : ∀ e < P.work.epochs, ∀ ρ, ∃ (W : Writes τ V) (es : τ → List (Stager.Event V)),
    P.outcome (e + 1) (P.work.logs e) ρ W ∧ ∀ t, Performs (W t) (es t)

/-- No bank is half filled. -/
def Settled (ph : Phase F) : Prop := ∀ bank x todo word, ph ≠ .writing bank (x :: todo) word

/-- A bank is filled during the bump only. -/
def WriterOk (ph : Phase F) : Option (Proc L α) → Prop
  | none => ph = .idle
  | some ⟨_, _, .index⟩ => Settled ph
  | some ⟨_, _, .mirror _⟩ => Settled ph
  | some ⟨_, _, .bump⟩ => ∃ bank todo word, ph = .writing bank todo word

omit [DecidableEq τ] in
theorem writerOk_step {s s' : System F L α} {ev : Event} (h : WriterOk s.marker.phase s.proc)
    (hs : sysStep P.scheme P.work s ev = some s') : WriterOk s'.marker.phase s'.proc := by
  obtain ⟨marker, log, proc⟩ := s
  cases ev with
  | start =>
    rcases proc with - | p
    · obtain rfl := Option.some.inj hs
      have hidle : marker.phase = .idle := h
      have hsettled : Settled marker.phase := fun _ _ _ _ hw => by
        rw [hidle] at hw
        cases hw
      simp only [recoverEntry]
      split
      · split <;> exact hsettled
      · exact hsettled
    · exact absurd hs (by simp [sysStep])
  | index =>
    rcases proc with - | ⟨e, count, - | todo | -⟩ <;> simp only [sysStep] at hs
    · exact absurd hs (by simp)
    · split at hs
      · obtain rfl := Option.some.inj hs
        exact h
      · exact absurd hs (by simp)
    · exact absurd hs (by simp)
    · exact absurd hs (by simp)
  | logStore k =>
    rcases proc with - | ⟨e, count, - | todo | -⟩ <;> simp only [sysStep] at hs
    · exact absurd hs (by simp)
    · exact absurd hs (by simp)
    · split at hs
      · obtain rfl := Option.some.inj hs
        exact h
      · exact absurd hs (by simp)
    · exact absurd hs (by simp)
  | bump =>
    rcases proc with - | ⟨e, count, - | (- | ⟨x, todo⟩) | -⟩ <;> simp only [sysStep] at hs
    · exact absurd hs (by simp)
    · exact absurd hs (by simp)
    · obtain ⟨mk, hmk, rfl⟩ := Option.map_eq_some_iff.mp hs
      simp only [step] at hmk
      split at hmk
      · exact absurd hmk (by simp)
      · obtain rfl := Option.some.inj hmk
        exact ⟨_, _, _, rfl⟩
    · exact absurd hs (by simp)
    · exact absurd hs (by simp)
  | bankStore =>
    rcases proc with - | ⟨e, count, - | todo | -⟩ <;> simp only [sysStep] at hs
    · exact absurd hs (by simp)
    · exact absurd hs (by simp)
    · exact absurd hs (by simp)
    · obtain ⟨mk, hmk, rfl⟩ := Option.map_eq_some_iff.mp hs
      simp only [step] at hmk
      split at hmk
      · obtain rfl := Option.some.inj hmk
        exact ⟨_, _, _, rfl⟩
      · exact absurd hmk (by simp)
  | publish =>
    rcases proc with - | ⟨e, count, - | todo | -⟩ <;> simp only [sysStep] at hs
    · exact absurd hs (by simp)
    · exact absurd hs (by simp)
    · exact absurd hs (by simp)
    · obtain ⟨mk, hmk, rfl⟩ := Option.map_eq_some_iff.mp hs
      simp only [step] at hmk
      split at hmk
      · next bank word hph =>
        obtain rfl := Option.some.inj hmk
        intro bank' x todo word' hw
        simp only [hph] at hw
        cases hw
      · exact absurd hmk (by simp)
  | crash =>
    simp only [sysStep, step] at hs
    obtain rfl := Option.some.inj hs
    rfl

theorem reach_writer {start : τ → Hybrid V} (hr : P.Reach start b s hist) :
    WriterOk s.sys.marker.phase s.sys.proc := by
  induction hr with
  | create log hs =>
    have hinit : WriterOk (System.init log : System F L α).marker.phase
        (System.init log : System F L α).proc := rfl
    exact writerOk_step hinit hs
  | index _ _ _ hs ih => exact writerOk_step ih hs
  | logStore _ hs ih => exact writerOk_step ih hs
  | scatter _ _ ih => exact ih
  | stage _ _ _ _ ih => exact ih
  | execute _ _ _ _ _ ih => exact ih
  | bump _ _ _ hs ih => exact writerOk_step ih hs
  | bankStore _ hs ih => exact writerOk_step ih hs
  | publish _ hs ih => exact writerOk_step ih hs
  | flush _ _ _ _ ih => exact ih
  | recover _ _ _ hcrash hs ih => exact writerOk_step (writerOk_step ih hcrash) hs

section
variable {start : τ → Hybrid V}

/-- The log stores of an epoch can all be made. -/
theorem reach_logStores (hr : P.Reach start b s hist) {todo : List (LogStore L α)}
    (hproc : s.sys.proc = some ⟨e, count, .mirror todo⟩) :
    ∃ sys, P.Reach start b { s with sys := sys } hist ∧ sys.proc = some ⟨e, count, .mirror []⟩ := by
  induction todo generalizing s with
  | nil => exact ⟨s.sys, hr, hproc⟩
  | cons x todo ih =>
    obtain ⟨l, i, v⟩ := x
    obtain ⟨sys, hs, hproc'⟩ : ∃ sys, sysStep P.scheme P.work s.sys (.logStore 0) = some sys ∧
        sys.proc = some ⟨e, count, .mirror todo⟩ := by
      simp only [sysStep, hproc]
      exact ⟨_, rfl, rfl⟩
    obtain ⟨sys', hr', hready⟩ := ih (s := { s with sys := sys }) (hr.logStore hs) hproc'
    exact ⟨sys', hr', hready⟩

/-- A worker can finish its flush. -/
theorem reach_drained_one (hr : P.Reach start b s hist) (t : τ) :
    ∃ tables, P.Reach start b { s with tables := tables } hist ∧ (tables t).inflight = [] ∧
      ∀ u, (s.tables u).inflight = [] → (tables u).inflight = [] := by
  generalize hn : (s.tables t).inflight.length = n
  induction n generalizing s with
  | zero => exact ⟨s.tables, hr, List.length_eq_zero_iff.mp hn, fun _ hu => hu⟩
  | succ n ih =>
    have hnext : (s.tables t).scatterNext.inflight.length = n := by
      cases hin : (s.tables t).inflight with
      | nil =>
        rw [hin] at hn
        cases hn
      | cons x rest =>
        rw [hin] at hn
        rw [Hybrid.scatterNext, hin]
        exact Nat.succ.inj hn
    obtain ⟨tables, hr', ht, hrest⟩ := ih (hr.scatter t) (by simp only [Function.update_self]; exact hnext)
    refine ⟨tables, hr', ht, fun u hu => hrest u ?_⟩
    by_cases hut : u = t
    · subst hut
      rw [hu] at hn
      cases hn
    · simp only [Function.update_of_ne hut]
      exact hu

/-- `sync_flush` of all stagers can be waited for. -/
theorem reach_drained [Fintype τ] (hr : P.Reach start b s hist) :
    ∃ tables, P.Reach start b { s with tables := tables } hist ∧ ∀ t, (tables t).inflight = [] := by
  have hsome : ∀ ts : List τ, ∃ tables, P.Reach start b { s with tables := tables } hist ∧
      ∀ t ∈ ts, (tables t).inflight = [] := by
    intro ts
    induction ts with
    | nil => exact ⟨s.tables, hr, fun _ ht => by cases ht⟩
    | cons t ts ih =>
      obtain ⟨tables, hr₁, hts⟩ := ih
      obtain ⟨tables', hr₂, ht, hrest⟩ := reach_drained_one hr₁ t
      refine ⟨tables', hr₂, fun u hu => ?_⟩
      rcases List.mem_cons.mp hu with rfl | hu
      · exact ht
      · exact hrest u (hts u hu)
  obtain ⟨tables, hr', hall⟩ := hsome Finset.univ.toList
  exact ⟨tables, hr', fun t => hall t (Finset.mem_toList.mpr (Finset.mem_univ t))⟩

/-- A bump that has been entered can be published. -/
theorem reach_published (hr : P.Reach start b s hist) (hproc : s.sys.proc = some ⟨e, count, .bump⟩) :
    ∃ sys, P.Reach start b { s with sys := sys } hist ∧
      sys.proc = some ⟨e + 1, count, .index⟩ := by
  have hw := reach_writer hr
  rw [hproc] at hw
  obtain ⟨bank, todo, word, hph⟩ := hw
  induction todo generalizing s with
  | nil =>
    obtain ⟨sys, hs, hproc'⟩ : ∃ sys, sysStep P.scheme P.work s.sys .publish = some sys ∧
        sys.proc = some ⟨e + 1, count, .index⟩ := by
      simp only [sysStep, hproc, step, hph, Option.map_some]
      exact ⟨_, rfl, rfl⟩
    exact ⟨sys, hr.publish hs, hproc'⟩
  | cons x todo ih =>
    obtain ⟨f, v⟩ := x
    obtain ⟨sys, hs, hproc', hph'⟩ : ∃ sys, sysStep P.scheme P.work s.sys .bankStore = some sys ∧
        sys.proc = some ⟨e, count, .bump⟩ ∧ sys.marker.phase = .writing bank todo word := by
      simp only [sysStep, hproc, step, hph, Option.map_some]
      exact ⟨_, rfl, rfl, rfl⟩
    obtain ⟨sys', hr', hnext⟩ := ih (s := { s with sys := sys }) (hr.bankStore hs) hproc' hph'
    exact ⟨sys', hr', hnext⟩

/-- The index of an epoch, and the stores of its logs. -/
theorem reach_indexed (hP : P.WellFormed)
    (hclean : ∀ t u, (loaded t u).version1 = 0 ∧ (loaded t u).version2 = 0)
    (hstart : ∀ t, (start t).Started (P.cfg t) (loaded t)) (hwarm : ∀ t, (start t).Warm (P.cfg t))
    (hr : P.Reach start b s hist) (hready : s.phase = .ready) (hlt : hist.length < P.work.epochs) :
    ∃ sys count, P.Reach start b { s with sys := sys, phase := .indexed (P.work.logs hist.length) } hist ∧
      sys.proc = some ⟨hist.length + 1, count, .mirror []⟩ := by
  have hok := reach_ok hP hclean hstart hwarm hr
  obtain ⟨⟨e, count, pc⟩, hproc, -, -, hpos⟩ := hok.proc
  rw [hready] at hpos
  cases pc with
  | mirror todo => exact hpos.elim
  | bump => exact hpos.elim
  | index =>
    have he : e = hist.length + 1 := hpos
    subst he
    obtain ⟨sys₁, count₁, todo₁, hs₁, hproc₁⟩ : ∃ sys₁ count₁ todo₁,
        sysStep P.scheme P.work s.sys .index = some sys₁ ∧
          sys₁.proc = some ⟨hist.length + 1, count₁, .mirror todo₁⟩ := by
      simp only [sysStep, hproc, if_pos (Nat.succ_le_of_lt hlt)]
      exact ⟨_, _, _, rfl, rfl⟩
    obtain ⟨sys₂, hr₂, hproc₂⟩ := reach_logStores (hr.index hready hproc hs₁) hproc₁
    have hok₂ := reach_ok hP hclean hstart hwarm hr₂
    obtain ⟨p₂, hp₂, -, -, hpos₂⟩ := hok₂.proc
    obtain rfl := Option.some.inj (hproc₂.symm.trans hp₂)
    obtain ⟨-, hlogs⟩ := hpos₂
    exact ⟨sys₂, count₁, hlogs ▸ hr₂, hproc₂⟩

/-- One more epoch, from its index to the start of its flush. -/
theorem reach_epoch [Fintype τ] (hP : P.WellFormed) (hruns : P.Runs)
    (hclean : ∀ t u, (loaded t u).version1 = 0 ∧ (loaded t u).version2 = 0)
    (hstart : ∀ t, (start t).Started (P.cfg t) (loaded t)) (hwarm : ∀ t, (start t).Warm (P.cfg t))
    (hr : P.Reach start b s hist) (hready : s.phase = .ready) (hlt : hist.length < P.work.epochs) :
    ∃ s' W, P.Reach start b s' (W :: hist) ∧ s'.phase = .ready := by
  obtain ⟨sys₂, count₁, hr₂, hproc₂⟩ := reach_indexed hP hclean hstart hwarm hr hready hlt
  -- the staging
  have hstages : ∀ t, ∃ h', (s.tables t).Stages (P.cfg t) (hist.length + 1)
      (P.deleted (hist.length + 1) (P.work.logs hist.length) t)
      (P.needed (hist.length + 1) (P.work.logs hist.length) t)
      (P.created (hist.length + 1) (P.work.logs hist.length) t) h' := by
    intro t
    have ht := (reach_ok hP hclean hstart hwarm hr₂).tables t
    exact Hybrid.exists_stages ht.reachable (hP.keys _ t) (hruns.fits _ hlt t) (hruns.some _ hlt t) _ _ _
  obtain ⟨tables₃, hst⟩ := Classical.axiomOfChoice hstages
  have hr₃ := hr₂.stage rfl hproc₂ hst
  -- the executor
  obtain ⟨W, es, hout, hes⟩ := hruns.outcome hist.length hlt
    (P.visible (hist.length + 1) (P.work.logs hist.length)
      (Machine.slotValues P ⟨sys₂, tables₃, .staged (P.work.logs hist.length)⟩ (hist.length + 1)))
  have hr₄ := hr₃.execute rfl hproc₂ hout hes
  -- the barrier, the marker and the flush
  obtain ⟨tables₅, hr₅, hdrained⟩ := reach_drained hr₄
  have hw := reach_writer hr₅
  simp only [hproc₂] at hw
  obtain ⟨sys₆, hs₆, hproc₆⟩ : ∃ sys₆, sysStep P.scheme P.work sys₂ .bump = some sys₆ ∧
      sys₆.proc = some ⟨hist.length + 1, count₁, .bump⟩ := by
    simp only [sysStep, hproc₂, step]
    split
    · next hph => exact absurd hph (hw _ _ _ _)
    · exact ⟨_, rfl, rfl⟩
  have hr₆ := hr₅.bump rfl hdrained hs₆
  obtain ⟨sys₇, hr₇, hproc₇⟩ := reach_published hr₆ hproc₆
  let order : τ → List (Entry V) := fun t => (tables₅ t).flushSet (P.cfg t)
  have horder : ∀ t x, x ∈ order t ↔ x ∈ (tables₅ t).flushSet (P.cfg t) := fun _ _ => Iff.rfl
  exact ⟨_, W, hr₇.flush rfl hproc₇ horder, rfl⟩

/-- A process at the start of an epoch can run to every later epoch of the configuration. -/
theorem reach_epochs [Fintype τ] (hP : P.WellFormed) (hruns : P.Runs)
    (hclean : ∀ t u, (loaded t u).version1 = 0 ∧ (loaded t u).version2 = 0)
    (hstart : ∀ t, (start t).Started (P.cfg t) (loaded t)) (hwarm : ∀ t, (start t).Warm (P.cfg t))
    (hr : P.Reach start b s hist) (hready : s.phase = .ready) :
    ∀ n, hist.length + n ≤ P.work.epochs → ∃ s' hist', P.Reach start b s' hist' ∧
      s'.phase = .ready ∧ hist'.length = hist.length + n
  | 0, _ => ⟨s, hist, hr, hready, rfl⟩
  | n + 1, hn => by
    obtain ⟨s', hist', hr', hready', hlen⟩ :=
      reach_epochs hP hruns hclean hstart hwarm hr hready n (by omega)
    obtain ⟨s'', W, hr'', hready''⟩ :=
      reach_epoch hP hruns hclean hstart hwarm hr' hready' (by omega)
    exact ⟨s'', W :: hist', hr'', hready'', by rw [List.length_cons, hlen, Nat.add_assoc]⟩

omit [DecidableEq L] [DecidableEq τ] in
/-- The epoch of a process that is ready is the one after its history. -/
theorem machineOk_ready (hok : MachineOk P loaded b s hist) (hready : s.phase = .ready) :
    s.sys.proc.map Proc.epoch = some (hist.length + 1) := by
  obtain ⟨⟨e, count, pc⟩, hproc, -, -, hpos⟩ := hok.proc
  rw [hready] at hpos
  cases pc with
  | index =>
    have he : e = hist.length + 1 := hpos
    rw [hproc, Option.map_some, he]
  | mirror todo => exact hpos.elim
  | bump => exact hpos.elim

omit [DecidableEq L] [DecidableEq τ] in
/-- The marker between two epochs. -/
theorem machineOk_marker (hok : MachineOk P loaded false s hist) (hready : s.phase = .ready)
    (hpos : 0 < hist.length) : ∃ bank, s.sys.marker.file.read = some (hist.length + 1, bank) := by
  obtain ⟨⟨m, hgood, hpub⟩, -⟩ := hok.durable rfl
  obtain ⟨p, hp, he⟩ := Option.map_eq_some_iff.mp (machineOk_ready hok hready)
  have hmark := hpub p hp
  rw [he, if_neg (by omega)] at hmark
  obtain ⟨⟨e, bank⟩, hm, rfl⟩ := Option.map_eq_some_iff.mp hmark
  exact ⟨bank, hgood.marker.published.read.trans hm⟩

/-- A process can die at any point, and the next one can start. -/
theorem reach_recovered (hr : P.Reach start false s hist) : ∃ s',
    P.Reach start true s' (survivors s.sys.marker.file hist) ∧ s'.phase = .ready ∧
      s'.sys.proc = some (recoverEntry P.scheme s.sys.marker.file) := by
  obtain ⟨sys, sys', hcrash, hs, hentry⟩ : ∃ sys sys',
      sysStep P.scheme P.work s.sys .crash = some sys ∧
      sysStep P.scheme P.work sys .start = some sys' ∧
        sys'.proc = some (recoverEntry P.scheme s.sys.marker.file) := ⟨_, _, rfl, rfl, rfl⟩
  -- the values of the device memory do not matter
  let zeroed : τ → ℕ → Rec V := fun t g =>
    { (s.tables t).records g with version1 := 0, version2 := 0 }
  have hzero : ∀ t g, (zeroed t g).TagsBelow 1 := fun _ _ => ⟨Nat.one_pos, Nat.one_pos⟩
  exact ⟨_, hr.recover zeroed hzero hcrash hs, rfl, hentry⟩

end

end

/-! ### One key -/

theorem oneKey_capacity : 1 ≤ 2 ^ 31 := by decide

theorem oneKey_units : 8 ≤ absent := by decide

/-- A program over eight rows: epoch 1 creates row 4, each later epoch adds one to row 0. -/
def oneKey : Program YcsbCursor YcsbLog YcsbEntry Unit ℕ where
  scheme := ycsbScheme
  work := oneInsert
  cfg _ := ⟨1, 8, false, false, oneKey_capacity, oneKey_units⟩
  needed e _ _ := if e = 1 then [4] else [0]
  created e _ _ := if e = 1 then [4] else []
  deleted _ _ _ := []
  outcome e _ ρ W := W = fun _ u =>
    if u = (if e = 1 then 4 else 0) then
      if e = 1 then some 7 else (ρ () 0).map (· + 1)
    else none
  sweep _ _ := 8

theorem oneKey_wellFormed : oneKey.WellFormed where
  keys e _ u hu := by
    refine Or.inl ?_
    simp only [oneKey] at hu ⊢
    split at hu <;> rw [List.mem_singleton.mp hu] <;> decide
  writes e ρ W hW t u v hu := by
    obtain rfl : W = _ := hW
    simp only [oneKey] at hu ⊢
    by_cases he : e + 1 = 1
    · simp only [if_pos he] at hu ⊢
      split at hu
      · next hu4 => exact ⟨by rw [hu4]; decide, by rw [hu4]; exact List.mem_singleton_self 4⟩
      · cases hu
    · simp only [if_neg he] at hu ⊢
      split at hu
      · next hu0 => exact ⟨by rw [hu0]; decide, by rw [hu0]; exact List.mem_singleton_self 0⟩
      · cases hu
  creates e ρ W hW t u _ hcreated _ := by
    obtain rfl : W = _ := hW
    simp only [oneKey] at hcreated ⊢
    split at hcreated
    · next he => rw [if_pos he, if_pos he, if_pos (List.mem_singleton.mp hcreated)]; rfl
    · cases hcreated
  fresh e t u hu hn := by
    obtain ⟨-, i, hi, -⟩ := hn
    simp only [oneKey] at hu
    split at hu
    · omega
    · cases hu
  swept e bank _ t u hn := by
    obtain ⟨-, i, -, hu⟩ := hn
    simp only [oneKey] at hu ⊢
    split at hu <;> rw [List.mem_singleton.mp hu] <;> decide

theorem oneKey_runs : oneKey.Runs where
  fits e _ t := by
    simp only [oneKey]
    split <;> decide
  some e _ t := by
    refine Or.inl ?_
    simp only [oneKey]
    split <;> exact List.cons_ne_nil _ _
  outcome e _ ρ := by
    have hsingle : ∀ (k : ℕ) (x : Option ℕ), Performs (fun u => if u = k then x else none)
        (x.map fun v => Stager.Event.write k v).toList := by
      intro k x
      cases x with
      | none => exact ⟨List.nodup_nil, fun u v => by simp [writesOf], List.not_mem_nil⟩
      | some v =>
        refine ⟨List.nodup_singleton k, fun u w => ?_, by simp⟩
        simp only [writesOf, Option.map_some, Option.toList_some, List.filterMap_cons,
          List.filterMap_nil, List.mem_singleton, Prod.mk.injEq]
        split
        · next hu => simp [hu, eq_comm]
        · next hu => simp [hu]
    exact ⟨_, fun _ => _, rfl, fun _ => hsingle _ _⟩

theorem oneKey_determined (σ : Values Unit ℕ) : oneKey.Determined σ := by
  intro hist W W' hh hh'
  cases hh with
  | epoch _ hout =>
    cases hh' with
    | epoch _ hout' => exact Eq.trans hout hout'.symm

/-- The table under an empty cache. -/
def oneKeyStart : Unit → Hybrid ℕ :=
  fun _ => Hybrid.initial (oneKey.cfg ()) (fun _ => ⟨0, 0, 0, 0⟩) fun _ => ⟨0, 0, 0, 0⟩

theorem oneKey_started (t : Unit) :
    (oneKeyStart t).Started (oneKey.cfg t) fun _ => ⟨0, 0, 0, 0⟩ := ⟨_, Or.inl rfl⟩

theorem oneKey_warm (t : Unit) : (oneKeyStart t).Warm (oneKey.cfg t) :=
  fun _ _ hne => absurd rfl hne

/-- The program reaches every epoch. -/
theorem oneKey_reach {n : ℕ} (hn : n ≤ 4) : ∃ s hist, oneKey.Reach oneKeyStart false s hist ∧
    s.phase = .ready ∧ hist.length = n := by
  obtain ⟨sys, hs⟩ : ∃ sys, sysStep oneKey.scheme oneKey.work (System.init blankLogs) .start =
      some sys := ⟨_, rfl⟩
  obtain ⟨s, hist, hr, hready, hlen⟩ := reach_epochs oneKey_wellFormed oneKey_runs
    (fun _ _ => ⟨rfl, rfl⟩) oneKey_started oneKey_warm (.create blankLogs hs) rfl n (by
      simpa [oneKey, oneInsert, ycsbWorkload] using hn)
  exact ⟨s, hist, hr, hready, by simpa using hlen⟩

/-- Row 4 and row 0 after two epochs. -/
theorem oneKey_values {hist : List (Writes Unit ℕ)}
    (hh : oneKey.History (loadedValues fun _ _ => ⟨0, 0, 0, 0⟩) hist) (hlen : hist.length = 2) :
    valuesAfter (loadedValues fun _ _ => ⟨0, 0, 0, 0⟩) hist () 4 = 7 ∧
      valuesAfter (loadedValues fun _ _ => ⟨0, 0, 0, 0⟩) hist () 0 = 1 := by
  obtain ⟨W₂, W₁, rfl⟩ := List.length_eq_two.mp hlen
  cases hh with
  | epoch hh hout₂ =>
    cases hh with
    | epoch _ hout₁ =>
      obtain rfl : W₁ = _ := hout₁
      obtain rfl : W₂ = _ := hout₂
      exact ⟨rfl, rfl⟩

/-- The process after a crash reaches the end of the last epoch. -/
theorem oneKey_recovers {s : Machine YcsbCursor YcsbLog YcsbEntry Unit ℕ} {hist : List (Writes Unit ℕ)}
    (hr : oneKey.Reach oneKeyStart false s hist) (hlen : hist.length ≤ 4) :
    ∃ s' hist', oneKey.Reach oneKeyStart true s' hist' ∧ s'.phase = .ready ∧ hist'.length = 4 := by
  obtain ⟨s₀, hr₀, hready₀, -⟩ := reach_recovered hr
  have hepochs : oneKey.work.epochs = 4 := rfl
  have hlen₀ : (survivors s.sys.marker.file hist).length ≤ hist.length := by
    rw [survivors]
    split
    · rw [List.length_drop]
      exact Nat.sub_le _ _
    · exact Nat.zero_le _
  obtain ⟨s', hist', hr', hready', hlen'⟩ := reach_epochs oneKey_wellFormed oneKey_runs
    (fun _ _ => ⟨rfl, rfl⟩) oneKey_started oneKey_warm hr₀ hready₀
    (4 - (survivors s.sys.marker.file hist).length) (by omega)
  exact ⟨s', hist', hr', hready', by omega⟩

section
variable {F L τ V : Type} [DecidableEq F] [DecidableEq L] [DecidableEq τ] {α : L → Type}
  {P : Program F L α τ V} {loaded : τ → ℕ → Rec V} {b : Bool} {s : Machine F L α τ V}
  {hist : List (Writes τ V)}

/-! ### Any crash point -/

/-- At any crash point: without a marker no record slot has been written; under a marker `E` a row has
    one tag of `E - 1` or later at most and lies in the rows that the rollback goes through if it has,
    and after the rollback it reads as at the end of epoch `E - 2`. -/
theorem crash_point {start : τ → Hybrid V} (hP : P.WellFormed)
    (hclean : ∀ t u, (loaded t u).version1 = 0 ∧ (loaded t u).version2 = 0)
    (hstart : ∀ t, (start t).Started (P.cfg t) (loaded t)) (hwarm : ∀ t, (start t).Warm (P.cfg t))
    (hr : P.Reach start false s hist) :
    (s.sys.marker.file.read = none → ∀ t, (s.tables t).store = loaded t) ∧
    ∀ e bank, s.sys.marker.file.read = some (e, bank) →
      2 ≤ e ∧ ∃ newer older, hist = newer ++ older ∧ older.length = e - 2 ∧ ∀ t u,
        ¬ (e - 1 ≤ ((s.tables t).store u).version1 ∧ e - 1 ≤ ((s.tables t).store u).version2) ∧
        (e - 1 ≤ ((s.tables t).store u).version1 ∨ e - 1 ≤ ((s.tables t).store u).version2 →
          u < P.sweep bank t) ∧
        (P.recoverStore s.sys.marker.file t (s.tables t).store u).latest =
          valuesAfter (loadedValues loaded) older t u := by
  have hok := reach_ok hP hclean hstart hwarm hr
  refine ⟨machineOk_unpublished hok, fun e bank hread => ?_⟩
  obtain ⟨h2, newer, older, hsplit, hlen, hrolled⟩ := machineOk_published hP hok hread
  refine ⟨h2, newer, older, hsplit, hlen, fun t u => ?_⟩
  obtain ⟨htags, hb⟩ := hrolled t
  refine ⟨(htags u).1, (htags u).2, ?_⟩
  rw [Program.recoverStore, hread]
  simp only [if_neg (Nat.not_lt.mpr h2)]
  exact hb.value u

/-- A crash after the third marker goes back to the end of epoch 2: row 4 has been inserted, and row 0
    has been counted up once. -/
theorem crash_point_oneKey : ∃ s hist bank, oneKey.Reach oneKeyStart false s hist ∧
    s.sys.marker.file.read = some (4, bank) ∧
    (oneKey.recoverStore s.sys.marker.file () (s.tables ()).store 4).latest = 7 ∧
    (oneKey.recoverStore s.sys.marker.file () (s.tables ()).store 0).latest = 1 := by
  obtain ⟨s, hist, hr, hready, hlen⟩ := oneKey_reach (n := 3) (by decide)
  have hok := reach_ok oneKey_wellFormed (fun _ _ => ⟨rfl, rfl⟩) oneKey_started oneKey_warm hr
  obtain ⟨bank, hread⟩ := machineOk_marker hok hready (by omega)
  rw [hlen] at hread
  have hh := hok.history
  obtain ⟨-, newer, older, hsplit, hlen', hrows⟩ := (crash_point oneKey_wellFormed
    (fun _ _ => ⟨rfl, rfl⟩) oneKey_started oneKey_warm hr).2 4 bank hread
  rw [hsplit] at hh
  obtain ⟨h4, h0⟩ := oneKey_values hh.suffix hlen'
  exact ⟨s, hist, bank, hr, hread, (hrows () 4).2.2.trans h4, (hrows () 0).2.2.trans h0⟩

/-! ### The replay -/

omit [DecidableEq L] [DecidableEq τ] in
/-- A determined program has one history of each length. -/
theorem Program.Determined.unique {σ : Values τ V} (hdet : P.Determined σ) :
    ∀ {hist hist' : List (Writes τ V)}, P.History σ hist → P.History σ hist' →
      hist.length = hist'.length → hist = hist'
  | [], [], _, _, _ => rfl
  | [], _ :: _, _, _, hl => by simp at hl
  | _ :: _, [], _, _, hl => by simp at hl
  | W :: hist, W' :: hist', hh, hh', hl => by
    have htail := hdet.unique hh.tail hh'.tail (Nat.succ.inj hl)
    subst htail
    rw [hdet hist W W' hh hh']

/-- A crash at any point, the rollback and the replay: at the end of every epoch each row has the
    value that it has there in a run without a crash. -/
theorem replay_eq {start : τ → Hybrid V} (hP : P.WellFormed)
    (hclean : ∀ t u, (loaded t u).version1 = 0 ∧ (loaded t u).version2 = 0)
    (hstart : ∀ t, (start t).Started (P.cfg t) (loaded t)) (hwarm : ∀ t, (start t).Warm (P.cfg t))
    (hdet : P.Determined (loadedValues loaded)) (hr : P.Reach start true s hist)
    {s' : Machine F L α τ V} {hist' : List (Writes τ V)} (hr' : P.Reach start false s' hist')
    (hready : s.phase = .ready) (hready' : s'.phase = .ready)
    (hepoch : s.sys.proc.map Proc.epoch = s'.sys.proc.map Proc.epoch) :
    s.landedValues = s'.landedValues := by
  have hvalues : ∀ {b : Bool} {s : Machine F L α τ V} {hist : List (Writes τ V)},
      P.Reach start b s hist → s.phase = .ready → P.History (loadedValues loaded) hist ∧
        s.sys.proc.map Proc.epoch = some (hist.length + 1) ∧
        s.landedValues = valuesAfter (loadedValues loaded) hist := by
    intro b s hist hr hready
    have hok := reach_ok hP hclean hstart hwarm hr
    refine ⟨hok.history, machineOk_ready hok hready, ?_⟩
    funext t u
    have ht := hok.tables t
    rw [hready] at ht
    exact ht.based.value u
  obtain ⟨hh, he, hv⟩ := hvalues hr hready
  obtain ⟨hh', he', hv'⟩ := hvalues hr' hready'
  have hlen : hist.length = hist'.length := by
    rw [he, he'] at hepoch
    exact Nat.succ.inj (Option.some.inj hepoch)
  rw [hv, hv', hdet.unique hh hh' hlen]

/-- Row 0 is counted up in each epoch, and the replay of epochs 2 and 3 does not count them twice. -/
theorem replay_eq_oneKey : ∃ s s' hist hist', oneKey.Reach oneKeyStart true s hist ∧
    oneKey.Reach oneKeyStart false s' hist' ∧ s.phase = .ready ∧
    s.sys.proc.map Proc.epoch = some 5 ∧ s.landedValues = s'.landedValues := by
  obtain ⟨crashed, hist₃, hr₃, -, hlen₃⟩ := oneKey_reach (n := 3) (by decide)
  obtain ⟨s', hist', hr', hready', hlen'⟩ := oneKey_reach (n := 4) (by decide)
  obtain ⟨s, hist, hr, hready, hlen⟩ := oneKey_recovers hr₃ (by omega)
  have hok := reach_ok oneKey_wellFormed (fun _ _ => ⟨rfl, rfl⟩) oneKey_started oneKey_warm hr
  have hok' := reach_ok oneKey_wellFormed (fun _ _ => ⟨rfl, rfl⟩) oneKey_started oneKey_warm hr'
  have hepoch := machineOk_ready hok hready
  have hepoch' := machineOk_ready hok' hready'
  rw [hlen] at hepoch
  rw [hlen'] at hepoch'
  exact ⟨s, s', hist, hist', hr, hr', hready, hepoch, replay_eq oneKey_wellFormed
    (fun _ _ => ⟨rfl, rfl⟩) oneKey_started oneKey_warm (oneKey_determined _) hr hr' hready hready'
    (hepoch.trans hepoch'.symm)⟩

/-- After a crash at any point a new process can go through every epoch from the one that its recovery
    entry gives to the end of the last one. -/
theorem recovery_completes [Fintype τ] (hP : P.WellFormed) (hruns : P.Runs)
    (hclean : ∀ t u, (loaded t u).version1 = 0 ∧ (loaded t u).version2 = 0)
    (hstart : ∀ t, (start t).Started (P.cfg t) (loaded t)) (hwarm : ∀ t, (start t).Warm (P.cfg t))
    (hr : P.Reach start false s hist) {n : ℕ}
    (hfirst : (recoverEntry P.scheme s.sys.marker.file : Proc L α).epoch ≤ n)
    (hlast : n ≤ P.work.epochs + 1) :
    ∃ s' hist', P.Reach start true s' hist' ∧ s'.phase = .ready ∧
      s'.sys.proc.map Proc.epoch = some n := by
  obtain ⟨s₀, hr₀, hready₀, hentry⟩ := reach_recovered hr
  have hepoch := machineOk_ready (reach_ok hP hclean hstart hwarm hr₀) hready₀
  rw [hentry] at hepoch
  have hlen := Option.some.inj hepoch
  obtain ⟨s', hist', hr', hready', hlen'⟩ := reach_epochs hP hruns hclean hstart hwarm hr₀ hready₀
    (n - (recoverEntry P.scheme s.sys.marker.file : Proc L α).epoch) (by omega)
  refine ⟨s', hist', hr', hready', ?_⟩
  rw [machineOk_ready (reach_ok hP hclean hstart hwarm hr') hready', hlen', ← Nat.add_right_comm,
    ← hlen, Nat.add_sub_of_le hfirst]

/-- A crash after the third marker, and the way from epoch 3 to the end of epoch 4. -/
theorem recovery_completes_oneKey : ∃ s hist bank s' hist', oneKey.Reach oneKeyStart false s hist ∧
    s.sys.marker.file.read = some (4, bank) ∧ oneKey.Reach oneKeyStart true s' hist' ∧
    s'.phase = .ready ∧ s'.sys.proc.map Proc.epoch = some 5 := by
  obtain ⟨s, hist, hr, hready, hlen⟩ := oneKey_reach (n := 3) (by decide)
  have hok := reach_ok oneKey_wellFormed (fun _ _ => ⟨rfl, rfl⟩) oneKey_started oneKey_warm hr
  obtain ⟨bank, hread⟩ := machineOk_marker hok hready (by omega)
  rw [hlen] at hread
  obtain ⟨s', hist', hr', hready', hepoch⟩ := recovery_completes oneKey_wellFormed oneKey_runs
    (fun _ _ => ⟨rfl, rfl⟩) oneKey_started oneKey_warm hr (n := 5)
    (by rw [recoverEntry, hread]; exact (by decide : 3 ≤ 5)) (by decide)
  exact ⟨s, hist, bank, s', hist', hr, hread, hr', hready', hepoch⟩

end

end Egad.Recovery
