import Egad.Recovery.Cursors
import Egad.Stager.Staged

/-! # A crash between any two durable stores

    Three hands write the durable directory: `indexTxns` appends to the logs, the workers store record
    slots while the next epoch runs, and the marker goes to `e + 1` after the flush of `e - 1` has
    drained and before the one of `e` starts.

        epoch e    index, logs ─► stage ─► execute ─► drain ─► bump(e+1) ─► flush(e) ─► epoch e+1
        store      ├──── slots of e-1 land, tag e-1 ───┤                     ├── tag e …
        marker     e                                           │ e+1

    What has landed of a flush is in the older slots of the rows that the epochs before it have left.
    So a marker `E` finds at most one tag of `E - 1` or later in a row, and without it the row has the
    value of the end of epoch `E - 2`. The tables are those of a benchmark, one for YCSB and eight for
    TPC-C, each with its own stager and worker. A synchronous flush is one whose stores all come before
    the next epoch. -/

namespace Egad.Recovery
open Egad.Stager

/-! ### Programs -/

/-- The values of all rows of all tables. -/
abbrev Values (τ V : Type) := τ → ℕ → V

/-- The values an epoch writes. -/
abbrev Writes (τ V : Type) := τ → ℕ → Option V

def overwrite {τ V : Type} (W : Writes τ V) (σ : Values τ V) : Values τ V :=
  fun t u => (W t u).getD (σ t u)

/-- The values after the epochs of a history, the last epoch first. -/
def valuesAfter {τ V : Type} (σ : Values τ V) (hist : List (Writes τ V)) : Values τ V :=
  hist.foldr overwrite σ

/-- A benchmark's epochs. Which records an epoch needs, creates and deletes follows from the index,
    and so from the logs. What it writes is one of the outcomes that its executor can have from the
    values it finds in the records it needs. -/
structure Program (F L : Type) [DecidableEq F] (α : L → Type) (τ V : Type) where
  scheme : Scheme F L
  work : Workload L α
  cfg : τ → Stager.Config
  needed : ℕ → (∀ l, List (α l)) → τ → List ℕ
  created : ℕ → (∀ l, List (α l)) → τ → List ℕ
  deleted : ℕ → (∀ l, List (α l)) → τ → List ℕ
  outcome : ℕ → (∀ l, List (α l)) → Writes τ V → Writes τ V → Prop
  /-- How many rows of a table the rollback goes through, for the cursors of the marker. -/
  sweep : (F → ℕ) → τ → ℕ

section
variable {F L τ V : Type} [DecidableEq F] {α : L → Type}

/-- The rows an epoch of the run without a crash names. -/
def Program.Names (P : Program F L α τ V) (e : ℕ) (t : τ) (u : ℕ) : Prop :=
  u ≠ absent ∧ ∃ i < e, u ∈ P.needed (i + 1) (P.work.logs i) t

/-- What index and executor keep to: an epoch's keys are rows; it writes rows it has named, and every row it
    creates; a created row has no name before; and the rollback goes through all rows that were named up to the
    newer cursors. -/
structure Program.WellFormed (P : Program F L α τ V) : Prop where
  keys : ∀ e t, Keys (P.cfg t) (P.needed (e + 1) (P.work.logs e) t)
  writes : ∀ e ρ W, P.outcome (e + 1) (P.work.logs e) ρ W → ∀ t u v, W t u = some v →
    u ≠ absent ∧ u ∈ P.needed (e + 1) (P.work.logs e) t
  creates : ∀ e ρ W, P.outcome (e + 1) (P.work.logs e) ρ W → ∀ t,
    ∀ u ∈ P.needed (e + 1) (P.work.logs e) t, u ∈ P.created (e + 1) (P.work.logs e) t →
      u ≠ absent → (W t u).isSome
  fresh : ∀ e t, ∀ u ∈ P.created (e + 1) (P.work.logs e) t, ¬ P.Names e t u
  swept : ∀ e bank, (∀ l, bank (P.scheme.p1 l) = (P.work.logs e l).length) →
    ∀ t u, P.Names e t u → u < P.sweep bank t

/-- What the executor can read of given values before it writes: the records that the epoch needs and has not created. -/
def Program.visible (P : Program F L α τ V) (e : ℕ) (logs : ∀ l, List (α l)) (σ : Values τ V) :
    Writes τ V := fun t u =>
  if u ≠ absent ∧ u ∈ P.needed e logs t ∧ u ∉ P.created e logs t then some (σ t u) else none

/-- The histories of a store with no cache, from the values `σ`. -/
inductive Program.History (P : Program F L α τ V) (σ : Values τ V) : List (Writes τ V) → Prop
  | nil : P.History σ []
  | epoch {hist : List (Writes τ V)} {W : Writes τ V} : P.History σ hist →
    P.outcome (hist.length + 1) (P.work.logs hist.length)
      (P.visible (hist.length + 1) (P.work.logs hist.length) (valuesAfter σ hist)) W →
    P.History σ (W :: hist)

/-- The executor of every epoch has one outcome from the values that the epochs before have left. -/
def Program.Determined (P : Program F L α τ V) (σ : Values τ V) : Prop :=
  ∀ hist W W', P.History σ (W :: hist) → P.History σ (W' :: hist) → W = W'

/-! ### The machine -/

/-- Where an epoch stands between the stores of the logs and the start of its flush. -/
inductive EpochPhase (L : Type) (α : L → Type) where
  /-- Before `indexTxns`, or before anything: the last flush has been started. -/
  | ready
  /-- Indexed, from these logs. -/
  | indexed (logs : ∀ l, List (α l))
  | staged (logs : ∀ l, List (α l))
  /-- Executed, up to the start of the flush. -/
  | executed

/-- The durable directory (the logs and the marker of `sys`, the stores of the tables) and what the
    process has in memory. -/
structure Machine (F L : Type) (α : L → Type) (τ V : Type) where
  sys : System F L α
  tables : τ → Hybrid V
  phase : EpochPhase L α

/-- What record-A reads of epoch `e` find in the slots. -/
def Machine.slotValues (P : Program F L α τ V) (s : Machine F L α τ V) (e : ℕ) : Values τ V :=
  fun t u => ((s.tables t).records (lookup (P.cfg t) (s.tables t).cache.cridToGrid u)).readRecordA e

/-- The value of a row once the flush in flight has landed. -/
def Machine.landedValues (s : Machine F L α τ V) : Values τ V :=
  fun t u => ((s.tables t).landed u).latest

/-- `rollbackPrimaryStoreVersions` on the first `count` rows of a table. -/
def rollbackPrimaryStoreVersions (minDiscardEpoch count : ℕ) (store : ℕ → Rec V) : ℕ → Rec V :=
  fun u => if u < count then (store u).rollback minDiscardEpoch else store u

/-- What the recovery entry makes of a table. -/
def Program.recoverStore (P : Program F L α τ V) (file : RecoveryMeta F) (t : τ)
    (store : ℕ → Rec V) : ℕ → Rec V :=
  match file.read with
  | some (e, bank) =>
    if e < 2 then store else rollbackPrimaryStoreVersions (e - 1) (P.sweep bank t) store
  | none => store

/-- The epochs that the recovery entry does not replay. -/
def survivors (file : RecoveryMeta F) (hist : List (Writes τ V)) : List (Writes τ V) :=
  match file.read with
  | some (e, _) => hist.drop (hist.length - (e - 2))
  | none => []

variable [DecidableEq L] [DecidableEq τ]

/-- The runs of a benchmark over a clean directory: a process from epoch 1 on, which may die between
    any two steps, and the process that recovers from it. With each state the writes of its epochs,
    the last one first. The flag says whether the process has recovered. -/
inductive Program.Reach (P : Program F L α τ V) (start : τ → Hybrid V) :
    Bool → Machine F L α τ V → List (Writes τ V) → Prop
  | create (log : ∀ l, ℕ → α l) {sys : System F L α} :
    sysStep P.scheme P.work (System.init log) .start = some sys →
    P.Reach start false ⟨sys, start, .ready⟩ []
  | index {b : Bool} {s : Machine F L α τ V} {hist : List (Writes τ V)} {sys : System F L α} {e : ℕ}
    {count : L → ℕ} : P.Reach start b s hist → s.phase = .ready →
    s.sys.proc = some ⟨e, count, .index⟩ → sysStep P.scheme P.work s.sys .index = some sys →
    P.Reach start b { s with sys := sys, phase := .indexed (truncate s.sys.log count) } hist
  | logStore {b : Bool} {s : Machine F L α τ V} {hist : List (Writes τ V)} {sys : System F L α}
    {k : ℕ} : P.Reach start b s hist → sysStep P.scheme P.work s.sys (.logStore k) = some sys →
    P.Reach start b { s with sys := sys } hist
  | scatter {b : Bool} {s : Machine F L α τ V} {hist : List (Writes τ V)} (t : τ) :
    P.Reach start b s hist →
    P.Reach start b
      { s with tables := Function.update s.tables t (s.tables t).scatterNext } hist
  | stage {b : Bool} {s : Machine F L α τ V} {hist : List (Writes τ V)} {e : ℕ} {count : L → ℕ}
    {logs : ∀ l, List (α l)} {tables : τ → Hybrid V} : P.Reach start b s hist →
    s.phase = .indexed logs → s.sys.proc = some ⟨e, count, .mirror []⟩ →
    (∀ t, (s.tables t).Stages (P.cfg t) e (P.deleted e logs t) (P.needed e logs t)
      (P.created e logs t) (tables t)) →
    P.Reach start b { s with tables := tables, phase := .staged logs } hist
  | execute {b : Bool} {s : Machine F L α τ V} {hist : List (Writes τ V)} {e : ℕ} {count : L → ℕ}
    {logs : ∀ l, List (α l)} {W : Writes τ V} {es : τ → List (Stager.Event V)} :
    P.Reach start b s hist → s.phase = .staged logs →
    s.sys.proc = some ⟨e, count, .mirror []⟩ →
    P.outcome e logs (P.visible e logs (s.slotValues P e)) W → (∀ t, Performs (W t) (es t)) →
    P.Reach start b
      { s with
        tables := fun t => (s.tables t).execute (P.cfg t) e (es t), phase := .executed } (W :: hist)
  | bump {b : Bool} {s : Machine F L α τ V} {hist : List (Writes τ V)} {sys : System F L α} :
    P.Reach start b s hist → s.phase = .executed → (∀ t, (s.tables t).inflight = []) →
    sysStep P.scheme P.work s.sys .bump = some sys → P.Reach start b { s with sys := sys } hist
  | bankStore {b : Bool} {s : Machine F L α τ V} {hist : List (Writes τ V)} {sys : System F L α} :
    P.Reach start b s hist → sysStep P.scheme P.work s.sys .bankStore = some sys →
    P.Reach start b { s with sys := sys } hist
  | publish {b : Bool} {s : Machine F L α τ V} {hist : List (Writes τ V)} {sys : System F L α} :
    P.Reach start b s hist → sysStep P.scheme P.work s.sys .publish = some sys →
    P.Reach start b { s with sys := sys } hist
  | flush {b : Bool} {s : Machine F L α τ V} {hist : List (Writes τ V)} {e : ℕ} {count : L → ℕ}
    {order : τ → List (Entry V)} : P.Reach start b s hist → s.phase = .executed →
    s.sys.proc = some ⟨e, count, .index⟩ →
    (∀ t x, x ∈ order t ↔ x ∈ (s.tables t).flushSet (P.cfg t)) →
    P.Reach start b
      { s with
        tables := fun t => (s.tables t).flushInOrder (P.cfg t) (order t), phase := .ready } hist
  | recover {s : Machine F L α τ V} {hist : List (Writes τ V)} {sys sys' : System F L α}
    (records : τ → ℕ → Rec V) : (∀ t g, (records t g).TagsBelow 1) → P.Reach start false s hist →
    sysStep P.scheme P.work s.sys .crash = some sys →
    sysStep P.scheme P.work sys .start = some sys' →
    P.Reach start true
      ⟨sys', fun t => Hybrid.initial (P.cfg t) (records t)
        (P.recoverStore s.sys.marker.file t (s.tables t).store), .ready⟩
      (survivors s.sys.marker.file hist)

end

/-! ### Rows -/

section
variable {F L τ V : Type} [DecidableEq F] {α : L → Type} {P : Program F L α τ V}
  {σ : Values τ V} {hist : List (Writes τ V)} {W : Writes τ V} {t : τ} {h : Hybrid V}

/-- A table as the epochs of a history leave it once everything has landed. A row that no epoch has
    named has no tags. -/
structure Based (P : Program F L α τ V) (σ : Values τ V) (hist : List (Writes τ V)) (t : τ)
    (store : ℕ → Rec V) : Prop where
  tags : ∀ u, (store u).TagsBelow (hist.length + 1)
  value : ∀ u, (store u).latest = valuesAfter σ hist t u
  unnamed : ∀ u, ¬ P.Names hist.length t u → (store u).version1 = 0 ∧ (store u).version2 = 0

theorem Program.Names.succ {e : ℕ} {u : ℕ} (h : P.Names e t u) : P.Names (e + 1) t u := by
  obtain ⟨hne, i, hi, hu⟩ := h
  exact ⟨hne, i, Nat.lt_succ_of_lt hi, hu⟩

/-- The writes of the last epoch of a history are of named rows. -/
theorem Program.History.names (hP : P.WellFormed) (hh : P.History σ (W :: hist)) {u : ℕ} {v : V}
    (hu : W t u = some v) : P.Names (hist.length + 1) t u := by
  cases hh with
  | epoch _ hout =>
    obtain ⟨hne, hneed⟩ := hP.writes _ _ _ hout t u v hu
    exact ⟨hne, hist.length, Nat.lt_succ_self _, hneed⟩

theorem Program.History.tail (hh : P.History σ (W :: hist)) : P.History σ hist := by
  cases hh with
  | epoch hh _ => exact hh

theorem Program.History.suffix {newer : List (Writes τ V)} (hh : P.History σ (newer ++ hist)) :
    P.History σ hist := by
  induction newer with
  | nil => exact hh
  | cons W newer ih => exact ih hh.tail

/-- The flush of an epoch, once it has landed. -/
theorem Based.writeBack {base : ℕ → Rec V} (hb : Based P σ hist t base) (hP : P.WellFormed)
    (hh : P.History σ (W :: hist)) :
    Based P σ (W :: hist) t (writeBack (hist.length + 1) (W t) base) := by
  refine ⟨fun u => ?_, fun u => ?_, fun u hu => ?_⟩
  · have hmono := (hb.tags u).mono (Nat.le_succ (hist.length + 1))
    rw [Stager.writeBack]
    split
    · exact hmono
    · exact hmono.put (Nat.lt_succ_self _) _ _
  · simp only [Stager.writeBack, valuesAfter, List.foldr_cons, overwrite]
    cases hW : W t u with
    | none => exact hb.value u
    | some v =>
      rw [Rec.latest, Rec.latestSlot_put (hb.tags u), Rec.value_put]
      rfl
  · have hW : W t u = none := by
      by_contra hne
      obtain ⟨v, hv⟩ := Option.ne_none_iff_exists'.mp hne
      exact hu (hh.names hP hv)
    simp only [Stager.writeBack, hW]
    exact hb.unnamed u fun hn => hu hn.succ

/-- What a process finds of a table, after a history whose last flush may be on its way. -/
def Flying (P : Program F L α τ V) (σ : Values τ V) (loaded : ℕ → Rec V) (t : τ) (h : Hybrid V) :
    List (Writes τ V) → Prop
  | [] => h.store = loaded ∧ h.inflight = []
  | W :: hist => ∃ base, Based P σ hist t base ∧ Flight (hist.length + 1) (W t) base h

theorem Flying.congr {loaded : ℕ → Rec V} {h' : Hybrid V} (hf : Flying P σ loaded t h hist)
    (hstore : h'.store = h.store) (hin : h'.inflight = h.inflight) :
    Flying P σ loaded t h' hist := by
  cases hist with
  | nil => exact ⟨hstore.trans hf.1, hin.trans hf.2⟩
  | cons W hist =>
    obtain ⟨base, hb, hfl⟩ := hf
    exact ⟨base, hb, hfl.congr hstore hin⟩

theorem Flying.scatterNext {loaded : ℕ → Rec V}
    (hf : Flying P σ loaded t h hist) : Flying P σ loaded t h.scatterNext hist := by
  cases hist with
  | nil =>
    have hsame : h.scatterNext = h := by rw [Hybrid.scatterNext, hf.2]
    exact hsame.symm ▸ hf
  | cons W hist =>
    obtain ⟨base, hb, hfl⟩ := hf
    exact ⟨base, hb, hfl.scatterNext⟩

theorem Flying.admitAt {loaded : ℕ → Rec V} (hf : Flying P σ loaded t h hist) (e : ℕ)
    (p : Stager.Prepared) (ms : List CopyStep) : Flying P σ loaded t (h.admitAt e p ms) hist := by
  have hmoved : Flying P σ loaded t (ms.foldl (Hybrid.move e) h) hist := by
    induction ms generalizing h with
    | nil => exact hf
    | cons m ms ih =>
      rw [List.foldl_cons]
      cases m with
      | fetch crid grid => exact ih (hf.congr rfl rfl)
      | scatter => exact ih hf.scatterNext
  exact hmoved.congr rfl rfl

theorem Flying.execute {loaded : ℕ → Rec V} {cfg : Stager.Config} (hf : Flying P σ loaded t h hist)
    (e : ℕ) {es : List (Stager.Event V)} (hes : Stager.Event.syncFlush ∉ es) :
    Flying P σ loaded t (h.execute cfg e es) hist := by
  induction es generalizing h with
  | nil => exact hf
  | cons x es ih =>
    rw [List.mem_cons, not_or] at hes
    rw [Hybrid.execute, List.foldl_cons, ← Hybrid.execute]
    refine ih ?_ hes.2
    cases x with
    | write u v =>
      rw [Hybrid.event, Hybrid.writeRecordB]
      split
      · exact hf
      · exact hf.congr rfl rfl
    | scatter =>
      rw [event_scatter]
      exact hf.scatterNext
    | syncFlush => exact absurd rfl hes.1

/-- A table that has drained needs no rollback to the end of its last epoch. -/
theorem Based.rolled {store : ℕ → Rec V} (hb : Based P σ hist t store) (count : ℕ) :
    rollbackPrimaryStoreVersions (hist.length + 1) count store = store := by
  funext u
  rw [rollbackPrimaryStoreVersions, Rec.rollback_eq_self (hb.tags u), ite_self]

/-- Of the flush of the last epoch a row has one tag at most; the rollback goes through every row with
    such a tag, and gives the table of the epoch before. -/
theorem Flying.rolled {loaded : ℕ → Rec V} (hf : Flying P σ loaded t h (W :: hist)) (hP : P.WellFormed)
    (hh : P.History σ (W :: hist)) {bank : F → ℕ}
    (hbank : ∀ l, bank (P.scheme.p1 l) = (P.work.logs (hist.length + 1) l).length) :
    (∀ u, ¬ (hist.length + 1 ≤ (h.store u).version1 ∧ hist.length + 1 ≤ (h.store u).version2) ∧
      (hist.length + 1 ≤ (h.store u).version1 ∨ hist.length + 1 ≤ (h.store u).version2 →
        u < P.sweep bank t)) ∧
    Based P σ hist t
      (rollbackPrimaryStoreVersions (hist.length + 1) (P.sweep bank t) h.store) := by
  obtain ⟨base, hb, hfl⟩ := hf
  -- row by row: as before the flush, or with its write
  have hrow : ∀ u, h.store u = base u ∨ ∃ v, u < P.sweep bank t ∧
      h.store u = (base u).put (hist.length + 1) v (base u).recordBSlot := by
    intro u
    rcases hfl.store u with hu | hu
    · exact Or.inl hu
    · rw [writeBack] at hu
      cases hW : W t u with
      | none => exact Or.inl (by rw [hu, hW])
      | some v =>
        exact Or.inr ⟨v, hP.swept _ bank hbank t u (hh.names hP hW), by rw [hu, hW]⟩
  refine ⟨fun u => ?_, fun u => ?_, fun u => ?_, fun u hu => ?_⟩
  · obtain ⟨h1, h2⟩ := hb.tags u
    rcases hrow u with hu | ⟨v, hlt, hu⟩
    · rw [hu]
      exact ⟨fun hc => h1.not_ge hc.1, fun hc => absurd hc (by omega)⟩
    · rw [hu]
      exact ⟨(Rec.rollback_put (hb.tags u) v).1, fun _ => hlt⟩
  · rw [rollbackPrimaryStoreVersions]
    rcases hrow u with hu | ⟨v, hlt, hu⟩
    · rw [hu, Rec.rollback_eq_self (hb.tags u), ite_self]
      exact hb.tags u
    · rw [if_pos hlt, hu]
      exact (Rec.rollback_put (hb.tags u) v).2.1
  · rw [rollbackPrimaryStoreVersions]
    rcases hrow u with hu | ⟨v, hlt, hu⟩
    · rw [hu, Rec.rollback_eq_self (hb.tags u), ite_self]
      exact hb.value u
    · rw [if_pos hlt, hu, (Rec.rollback_put (hb.tags u) v).2.2.1]
      exact hb.value u
  · have hzero := hb.unnamed u hu
    rw [rollbackPrimaryStoreVersions]
    rcases hrow u with hu | ⟨v, hlt, hu⟩
    · rw [hu, Rec.rollback_eq_self (hb.tags u), ite_self]
      exact hzero
    · rw [if_pos hlt, hu]
      exact (Rec.rollback_put (hb.tags u) v).2.2.2 hzero

end

/-! ### Tables -/

section
variable {F L τ V : Type} [DecidableEq F] {α : L → Type} {P : Program F L α τ V}
  {σ : Values τ V} {hist : List (Writes τ V)} {W : Writes τ V} {t : τ} {h h' : Hybrid V}

/-- Between the start of a flush and the staging of the next epoch. -/
structure Resting (P : Program F L α τ V) (σ : Values τ V) (hist : List (Writes τ V)) (t : τ)
    (h : Hybrid V) : Prop where
  reachable : Reachable (P.cfg t) h.cache
  unmarked : h.Unmarked
  cached : Cached (P.cfg t) (hist.length + 1) ∅ h
  flight : h.FlightResident (P.cfg t)
  based : Based P σ hist t h.landed

/-- Staged for the next epoch. -/
def Working (P : Program F L α τ V) (σ : Values τ V) (hist : List (Writes τ V)) (t : τ)
    (h : Hybrid V) : Prop :=
  Based P σ hist t h.landed ∧ ∃ stale h₁, Staged (P.cfg t) (hist.length + 1)
    (P.needed (hist.length + 1) (P.work.logs hist.length) t)
    (P.created (hist.length + 1) (P.work.logs hist.length) t) stale h₁ h

/-- Executed. -/
def Finished (P : Program F L α τ V) (σ : Values τ V) (W : Writes τ V) (hist : List (Writes τ V))
    (t : τ) (h : Hybrid V) : Prop :=
  ∃ h₀, Working P σ hist t h₀ ∧ Executed (P.cfg t) (hist.length + 1) (W t) h₀ h

def TableOk (P : Program F L α τ V) (σ : Values τ V) (t : τ) (h : Hybrid V) :
    EpochPhase L α → List (Writes τ V) → Prop
  | .ready, hist => Resting P σ hist t h
  | .indexed _, hist => Resting P σ hist t h
  | .staged _, hist => Working P σ hist t h
  | .executed, [] => False
  | .executed, W :: hist => Finished P σ W hist t h

theorem TableOk.scatterNext {ph : EpochPhase L α} (hok : TableOk P σ t h ph hist) :
    TableOk P σ t h.scatterNext ph hist := by
  have hresting : ∀ {hist}, Resting P σ hist t h → Resting P σ hist t h.scatterNext := by
    intro hist hr
    obtain ⟨hcache, -, hdirty⟩ := scatterNext_frame h
    exact ⟨hcache.symm ▸ hr.reachable, by rw [Hybrid.Unmarked, hdirty]; exact hr.unmarked,
      hr.cached.scatterNext, hr.flight.scatterNext, (scatterNext_landed h).symm ▸ hr.based⟩
  cases ph with
  | ready => exact hresting hok
  | indexed logs => exact hresting hok
  | staged logs =>
    obtain ⟨hb, stale, h₁, hs⟩ := hok
    exact ⟨(scatterNext_landed h).symm ▸ hb, stale, h₁, hs.scatterNext⟩
  | executed =>
    cases hist with
    | nil => exact hok
    | cons W hist =>
      obtain ⟨h₀, hw, hx⟩ := hok
      exact ⟨h₀, hw, hx.scatterNext⟩

/-- The staging of the next epoch. -/
theorem Resting.stage (hr : Resting P σ hist t h) (hP : P.WellFormed) {dead : List ℕ}
    (hst : h.Stages (P.cfg t) (hist.length + 1) dead
      (P.needed (hist.length + 1) (P.work.logs hist.length) t)
      (P.created (hist.length + 1) (P.work.logs hist.length) t) h') : Working P σ hist t h' := by
  obtain ⟨stale, hs⟩ := hst.staged hr.reachable hr.unmarked hr.cached hr.flight (hP.keys _ t)
    fun u _ hins _ => hr.based.unnamed u (hP.fresh _ t u hins)
  exact ⟨hs.landed.symm ▸ hr.based, stale, h, hs⟩

/-- A staged executor sees the values that the epochs before have left. -/
theorem Working.visible (hw : Working P σ hist t h) (hP : P.WellFormed) {u : ℕ} (hu : u ≠ absent)
    (hneed : u ∈ P.needed (hist.length + 1) (P.work.logs hist.length) t)
    (hold : u ∉ P.created (hist.length + 1) (P.work.logs hist.length) t) :
    (h.records (lookup (P.cfg t) h.cache.cridToGrid u)).readRecordA (hist.length + 1) =
      valuesAfter σ hist t u := by
  obtain ⟨hb, stale, h₁, hs⟩ := hw
  have hlt : u < (P.cfg t).numUnits :=
    (hP.keys hist.length t u hneed).resolve_right fun hc => hu hc.2
  have hne := hs.resident u hneed hu
  obtain ⟨hcap, hres⟩ := (reachable_mapped hs.reachable).1.grid_of_crid u hlt hne
  have hocc : h.cache.resident (h.cache.cridToGrid u) ≠ absent := by rw [hres]; exact hu
  have hfresh : h.cache.cridToGrid u ∉ stale := fun hst => by
    have hcreated := (hs.stale _ hst).2.2
    rw [hres] at hcreated
    exact hold hcreated
  have hval := hs.cached.value _ hcap hocc hfresh
  have htags := (hs.cached.tags _ hcap hocc).below (hs.cached.landed _)
  rw [hres, hb.value] at hval
  rw [lookup, if_pos hlt, Rec.readRecordA_of_below htags]
  exact hval

/-- The executor's writes. -/
theorem Working.execute (hw : Working P σ hist t h) (hP : P.WellFormed)
    (hh : P.History σ (W :: hist)) {es : List (Stager.Event V)} (hes : Performs (W t) es) :
    Finished P σ W hist t (h.execute (P.cfg t) (hist.length + 1) es) := by
  refine ⟨h, hw, ?_⟩
  obtain ⟨-, stale, h₁, hs⟩ := hw
  refine executed_of_writes (reachable_mapped hs.reachable).1 hs.unmarked hes fun u v hu => ?_
  cases hh with
  | epoch _ hout =>
    obtain ⟨hne, hneed⟩ := hP.writes _ _ _ hout t u v hu
    exact ⟨(hP.keys hist.length t u hneed).resolve_right fun hc => hne hc.2,
      hs.resident u hneed hne⟩

/-- The start of the flush. -/
theorem Finished.flush (hf : Finished P σ W hist t h) (hP : P.WellFormed)
    (hh : P.History σ (W :: hist)) {order : List (Entry V)}
    (horder : ∀ x, x ∈ order ↔ x ∈ h.flushSet (P.cfg t)) :
    Resting P σ (W :: hist) t (h.flushInOrder (P.cfg t) order) ∧
      ∀ loaded, Flying P σ loaded t (h.flushInOrder (P.cfg t) order) (W :: hist) := by
  obtain ⟨h₀, ⟨hb, stale, h₁, hs⟩, hx⟩ := hf
  have hm := (reachable_mapped hs.reachable).1
  refine ⟨⟨?_, startFlush_unmarked fun slot g hd => ((hx.dirty slot g).mp hd).1, ?_,
    hx.flightResident hm horder, ?_⟩, fun _ => ⟨h₀.landed, hb, hx.flight hm hs.cached horder⟩⟩
  · have hcache : (h.flushInOrder (P.cfg t) order).cache = h₀.cache := hx.cache
    rw [hcache]
    exact hs.reachable
  · -- every stale slot has been written
    refine hx.cached hm hs.cached horder fun g _ hne hst => ?_
    obtain ⟨-, hneed, hins⟩ := hs.stale g hst
    cases hh with
    | epoch _ hout => exact hP.creates _ _ _ hout t _ hneed hins hne
  · rw [hx.landed_flush hm hs.cached horder]
    exact hb.writeBack hP hh

/-- A table that a process starts with. -/
theorem resting_started {store : ℕ → Rec V} (hs : h.Started (P.cfg t) store)
    (hw : h.Warm (P.cfg t)) (hb : Based P σ hist t store) : Resting P σ hist t h := by
  obtain ⟨hreach, hun, hstore, hin, -⟩ := hs.spec
  have hland : h.landed = store := by rw [Hybrid.landed, hin, List.foldl_nil, hstore]
  refine ⟨hreach, hun, hs.cached hw hb.tags, fun x hx => ?_, hland.symm ▸ hb⟩
  rw [hin] at hx
  cases hx

end

/-! ### The invariant of a run -/

section
variable {F L τ V : Type} [DecidableEq F] [DecidableEq L] [DecidableEq τ] {α : L → Type}
  {P : Program F L α τ V} {loaded : τ → ℕ → Rec V} {b : Bool} {s : Machine F L α τ V}
  {hist : List (Writes τ V)} {sys : System F L α} {e : ℕ} {count : L → ℕ}

/-- The values of a loaded store. -/
def loadedValues (loaded : τ → ℕ → Rec V) : Values τ V := fun t u => (loaded t u).latest

/-- The history up to the flush in flight. -/
def flown : EpochPhase L α → List (Writes τ V) → List (Writes τ V)
  | .executed, hist => hist.tail
  | _, hist => hist

/-- How the phase of an epoch, the position of `runEpoch` and the number of epochs executed go
    together. From the bump on the tables have drained. -/
def Position (P : Program F L α τ V) (n : ℕ) (drained : Prop) :
    ℕ → Pc L α → EpochPhase L α → Prop
  | e, .index, .ready => e = n + 1
  | e, .index, .executed => e = n + 1 ∧ drained
  | e, .mirror _, .indexed logs => e = n + 1 ∧ logs = P.work.logs n
  | e, .mirror _, .staged logs => e = n + 1 ∧ logs = P.work.logs n
  | e, .mirror _, .executed => e = n
  | e, .bump, .executed => e = n ∧ drained
  | _, _, _ => False

omit [DecidableEq L] [DecidableEq τ] in
/-- Where a flush may be on its way, and where the tables have drained with one epoch more. -/
theorem Position.flown {drained : Prop} {pc : Pc L α} {ph : EpochPhase L α} (h1 : 1 ≤ e)
    (hpos : Position P hist.length drained e pc ph) :
    ((flown ph hist).length + 1 = e ∧ ∃ newer, hist = newer ++ Recovery.flown ph hist) ∨
      (ph = .executed ∧ drained ∧ e = hist.length + 1) := by
  cases ph with
  | executed =>
    have hone : e = hist.length →
        (Recovery.flown (.executed : EpochPhase L α) hist).length + 1 = e ∧
          ∃ newer, hist = newer ++ Recovery.flown (.executed : EpochPhase L α) hist := by
      intro he
      cases hist with
      | nil =>
        rw [List.length_nil] at he
        omega
      | cons W hist => exact ⟨he.symm, [W], rfl⟩
    cases pc with
    | index => exact Or.inr ⟨rfl, hpos.2, hpos.1⟩
    | mirror todo => exact Or.inl (hone hpos)
    | bump => exact Or.inl (hone hpos.1)
  | ready =>
    cases pc with
    | index => exact Or.inl ⟨hpos.symm, [], rfl⟩
    | _ => exact hpos.elim
  | indexed logs =>
    cases pc with
    | mirror todo => exact Or.inl ⟨hpos.1.symm, [], rfl⟩
    | _ => exact hpos.elim
  | staged logs =>
    cases pc with
    | mirror todo => exact Or.inl ⟨hpos.1.symm, [], rfl⟩
    | _ => exact hpos.elim

/-- The marker is that of the epoch at work, and there is none in the first one. -/
def MarkerOk (P : Program F L α τ V) (sys : System F L α) : Prop :=
  ∃ m, Good P.scheme P.work sys m ∧ ∀ p, sys.proc = some p →
    m.published.map Prod.fst = if p.epoch = 1 then none else some p.epoch

structure MachineOk (P : Program F L α τ V) (loaded : τ → ℕ → Rec V) (b : Bool)
    (s : Machine F L α τ V) (hist : List (Writes τ V)) : Prop where
  history : P.History (loadedValues loaded) hist
  tables : ∀ t, TableOk P (loadedValues loaded) t (s.tables t) s.phase hist
  proc : ∃ p, s.sys.proc = some p ∧ 1 ≤ p.epoch ∧ ProcLogs P.work s.sys.log p ∧
    Position P hist.length (∀ t, (s.tables t).inflight = []) p.epoch p.pc s.phase
  durable : b = false → MarkerOk P s.sys ∧
    ∀ t, Flying P (loadedValues loaded) (loaded t) t (s.tables t) (flown s.phase hist)

omit [DecidableEq L] [DecidableEq τ] in
/-- A process at its start, over tables that need no rollback. -/
theorem machineOk_start {tables : τ → Hybrid V} {store : τ → ℕ → Rec V}
    (hh : P.History (loadedValues loaded) hist)
    (hstart : ∀ t, (tables t).Started (P.cfg t) (store t)) (hwarm : ∀ t, (tables t).Warm (P.cfg t))
    (hb : ∀ t, Based P (loadedValues loaded) hist t (store t))
    (hproc : sys.proc = some ⟨hist.length + 1, count, .index⟩)
    (hlogs : ProcLogs P.work sys.log ⟨hist.length + 1, count, .index⟩)
    (hdurable : b = false → MarkerOk P sys ∧
      ∀ t, Flying P (loadedValues loaded) (loaded t) t (tables t) hist) :
    MachineOk P loaded b ⟨sys, tables, .ready⟩ hist :=
  ⟨hh, fun t => resting_started (hstart t) (hwarm t) (hb t),
    ⟨_, hproc, Nat.succ_pos _, hlogs, rfl⟩, hdurable⟩

omit [DecidableEq τ] in
theorem machineOk_index (h : MachineOk P loaded b s hist) (hready : s.phase = .ready)
    (hproc : s.sys.proc = some ⟨e, count, .index⟩)
    (hs : sysStep P.scheme P.work s.sys .index = some sys) :
    MachineOk P loaded b { s with sys := sys, phase := .indexed (truncate s.sys.log count) } hist := by
  obtain ⟨p, hp, h1, hlogs, hpos⟩ := h.proc
  obtain rfl := Option.some.inj (hproc.symm.trans hp)
  obtain ⟨hcut, -, hlog, count', todo, hproc', hlogs'⟩ := procLogs_index hproc h1 hlogs hs
  rw [hready] at hpos
  have he : e = hist.length + 1 := hpos
  refine ⟨h.history, fun t => ?_, ⟨_, hproc', h1, hlog ▸ hlogs', he, ?_⟩, fun hb => ?_⟩
  · have ht := h.tables t
    rw [hready] at ht
    exact ht
  · rw [hcut, he, Nat.add_sub_cancel]
  · obtain ⟨⟨m, hgood, hpub⟩, hfly⟩ := h.durable hb
    refine ⟨⟨m, good_index hgood hs, fun p hp => ?_⟩, fun t => ?_⟩
    · obtain rfl := Option.some.inj (hproc'.symm.trans hp)
      have hmark := hpub _ hproc
      exact hmark
    · have ht := hfly t
      rw [hready] at ht
      exact ht

omit [DecidableEq τ] in
theorem machineOk_logStore {k : ℕ} (h : MachineOk P loaded b s hist)
    (hs : sysStep P.scheme P.work s.sys (.logStore k) = some sys) :
    MachineOk P loaded b { s with sys := sys } hist := by
  obtain ⟨⟨e, count, pc⟩, hproc, h1, hlogs, hpos⟩ := h.proc
  cases pc with
  | index => exact absurd hs (by simp [sysStep, hproc])
  | bump => exact absurd hs (by simp [sysStep, hproc])
  | mirror todo =>
    obtain ⟨l, i, v, -, -, -, hproc', hlogs'⟩ := procLogs_logStore hproc hlogs hs
    refine ⟨h.history, h.tables, ⟨_, hproc', h1, hlogs', ?_⟩, fun hb => ?_⟩
    · revert hpos
      cases s.phase <;> exact id
    · obtain ⟨⟨m, hgood, hpub⟩, hfly⟩ := h.durable hb
      refine ⟨⟨m, good_logStore hgood hs, fun p hp => ?_⟩, hfly⟩
      obtain rfl := Option.some.inj (hproc'.symm.trans hp)
      have hmark := hpub _ hproc
      exact hmark

omit [DecidableEq L] in
theorem machineOk_scatter (t : τ) (h : MachineOk P loaded b s hist) :
    MachineOk P loaded b
      { s with tables := Function.update s.tables t (s.tables t).scatterNext } hist := by
  have hdrained : (∀ t, (s.tables t).inflight = []) →
      ∀ u, (Function.update s.tables t (s.tables t).scatterNext u).inflight = [] := by
    intro hall u
    by_cases hu : u = t
    · subst hu
      rw [Function.update_self, Hybrid.scatterNext, hall u]
      exact hall u
    · rw [Function.update_of_ne hu]
      exact hall u
  obtain ⟨p, hproc, h1, hlogs, hpos⟩ := h.proc
  refine ⟨h.history, fun u => ?_, ⟨p, hproc, h1, hlogs, ?_⟩, fun hb => ⟨(h.durable hb).1, fun u => ?_⟩⟩
  · by_cases hu : u = t
    · subst hu
      simp only [Function.update_self]
      exact (h.tables u).scatterNext
    · simp only [Function.update_of_ne hu]
      exact h.tables u
  · revert hpos
    cases p.pc <;> cases s.phase <;> simp only [Position, imp_self] <;>
      exact fun hpos => ⟨hpos.1, hdrained hpos.2⟩
  · have hfly := (h.durable hb).2 u
    by_cases hu : u = t
    · subst hu
      simp only [Function.update_self]
      exact hfly.scatterNext
    · simp only [Function.update_of_ne hu]
      exact hfly

omit [DecidableEq L] [DecidableEq τ] in
theorem machineOk_stage {logs : ∀ l, List (α l)} {tables : τ → Hybrid V} (hP : P.WellFormed)
    (h : MachineOk P loaded b s hist) (hph : s.phase = .indexed logs)
    (hproc : s.sys.proc = some ⟨e, count, .mirror []⟩)
    (hst : ∀ t, (s.tables t).Stages (P.cfg t) e (P.deleted e logs t) (P.needed e logs t)
      (P.created e logs t) (tables t)) :
    MachineOk P loaded b { s with tables := tables, phase := .staged logs } hist := by
  obtain ⟨p, hp, h1, hlogs, hpos⟩ := h.proc
  obtain rfl := Option.some.inj (hproc.symm.trans hp)
  rw [hph] at hpos
  obtain ⟨rfl, rfl⟩ : e = hist.length + 1 ∧ logs = P.work.logs hist.length := hpos
  refine ⟨h.history, fun t => ?_, ⟨_, hproc, h1, hlogs, rfl, rfl⟩, fun hb => ?_⟩
  · have ht := h.tables t
    rw [hph] at ht
    exact Resting.stage ht hP (hst t)
  · refine ⟨(h.durable hb).1, fun t => ?_⟩
    have hfly := (h.durable hb).2 t
    rw [hph] at hfly
    obtain ⟨sched, p, ms, -, -, -, htab⟩ := hst t
    have hstaged : Flying P (loadedValues loaded) (loaded t) t (tables t) hist := by
      rw [htab]
      refine Flying.admitAt ?_ (hist.length + 1) p ms
      have hsame : Flying P (loadedValues loaded) (loaded t) t (s.tables t) hist := hfly
      exact hsame.congr rfl rfl
    exact hstaged

omit [DecidableEq L] [DecidableEq τ] in
theorem machineOk_execute {logs : ∀ l, List (α l)} {W : Writes τ V}
    {es : τ → List (Stager.Event V)} (hP : P.WellFormed) (h : MachineOk P loaded b s hist)
    (hph : s.phase = .staged logs) (hproc : s.sys.proc = some ⟨e, count, .mirror []⟩)
    (hout : P.outcome e logs (P.visible e logs (s.slotValues P e)) W)
    (hes : ∀ t, Performs (W t) (es t)) :
    MachineOk P loaded b
      { s with
        tables := fun t => (s.tables t).execute (P.cfg t) e (es t), phase := .executed }
      (W :: hist) := by
  obtain ⟨p, hp, h1, hlogs, hpos⟩ := h.proc
  obtain rfl := Option.some.inj (hproc.symm.trans hp)
  rw [hph] at hpos
  obtain ⟨rfl, rfl⟩ : e = hist.length + 1 ∧ logs = P.work.logs hist.length := hpos
  have hworking : ∀ t, Working P (loadedValues loaded) hist t (s.tables t) := by
    intro t
    have ht := h.tables t
    rw [hph] at ht
    exact ht
  -- the executor sees what a store with no cache would show it
  have hvisible : P.visible (hist.length + 1) (P.work.logs hist.length)
      (s.slotValues P (hist.length + 1)) =
      P.visible (hist.length + 1) (P.work.logs hist.length)
        (valuesAfter (loadedValues loaded) hist) := by
    funext t u
    rw [Program.visible, Program.visible]
    refine ite_congr rfl (fun hc => ?_) fun _ => rfl
    exact congrArg some ((hworking t).visible hP hc.1 hc.2.1 hc.2.2)
  have hh : P.History (loadedValues loaded) (W :: hist) := .epoch h.history (hvisible ▸ hout)
  refine ⟨hh, fun t => (hworking t).execute hP hh (hes t), ⟨_, hproc, h1, hlogs, rfl⟩, fun hb => ?_⟩
  refine ⟨(h.durable hb).1, fun t => ?_⟩
  have hfly := (h.durable hb).2 t
  rw [hph] at hfly
  exact hfly.execute (hist.length + 1) (hes t).running

omit [DecidableEq τ] in
theorem machineOk_bump (h : MachineOk P loaded b s hist) (hph : s.phase = .executed)
    (hdrained : ∀ t, (s.tables t).inflight = [])
    (hs : sysStep P.scheme P.work s.sys .bump = some sys) :
    MachineOk P loaded b { s with sys := sys } hist := by
  obtain ⟨⟨e, count, pc⟩, hproc, h1, hlogs, hpos⟩ := h.proc
  obtain ⟨todo, rfl⟩ : ∃ todo, pc = .mirror todo := by
    cases pc with
    | mirror todo => exact ⟨todo, rfl⟩
    | index => exact absurd hs (by simp [sysStep, hproc])
    | bump => exact absurd hs (by simp [sysStep, hproc])
  cases todo with
  | cons x todo => exact absurd hs (by simp [sysStep, hproc])
  | nil =>
    obtain ⟨mk, -, hsys⟩ : ∃ mk, step s.sys.marker (.prepare (UInt32.ofNat (e + 1))
        (P.scheme.fill count)) = some mk ∧
        { s.sys with marker := mk, proc := some ⟨e, count, .bump⟩ } = sys := by
      simp only [sysStep, hproc] at hs
      exact Option.map_eq_some_iff.mp hs
    have hproc' : sys.proc = some ⟨e, count, .bump⟩ := by rw [← hsys]
    have hlog : sys.log = s.sys.log := by rw [← hsys]
    rw [hph] at hpos
    have he : e = hist.length := hpos
    refine ⟨h.history, h.tables, ⟨_, hproc', h1, hlog ▸ procLogs_bump hlogs, ?_⟩, fun hb => ?_⟩
    · rw [hph]
      exact ⟨he, hdrained⟩
    · obtain ⟨⟨m, hgood, hpub⟩, hfly⟩ := h.durable hb
      obtain ⟨m', hm', hgood'⟩ := good_bump hgood hs
      refine ⟨⟨m', hgood', fun p hp => ?_⟩, hfly⟩
      obtain rfl := Option.some.inj (hproc'.symm.trans hp)
      have hmark := hpub _ hproc
      rw [hm']
      exact hmark

omit [DecidableEq τ] in
theorem machineOk_bankStore (h : MachineOk P loaded b s hist)
    (hs : sysStep P.scheme P.work s.sys .bankStore = some sys) :
    MachineOk P loaded b { s with sys := sys } hist := by
  obtain ⟨⟨e, count, pc⟩, hproc, h1, hlogs, hpos⟩ := h.proc
  cases pc with
  | index => exact absurd hs (by simp [sysStep, hproc])
  | mirror todo => exact absurd hs (by simp [sysStep, hproc])
  | bump =>
    obtain ⟨mk, -, hsys⟩ : ∃ mk, step s.sys.marker .store = some mk ∧
        { s.sys with marker := mk, proc := some ⟨e, count, .bump⟩ } = sys := by
      simp only [sysStep, hproc] at hs
      exact Option.map_eq_some_iff.mp hs
    have hproc' : sys.proc = s.sys.proc := by rw [← hsys, hproc]
    have hlog : sys.log = s.sys.log := by rw [← hsys]
    refine ⟨h.history, h.tables, ⟨_, hproc'.trans hproc, h1, hlog ▸ hlogs, hpos⟩, fun hb => ?_⟩
    obtain ⟨⟨m, hgood, hpub⟩, hfly⟩ := h.durable hb
    obtain ⟨m', hm', hgood'⟩ := good_bankStore hgood hs
    refine ⟨⟨m', hgood', fun p hp => ?_⟩, hfly⟩
    rw [hm']
    exact hpub p (hproc'.symm.trans hp)

omit [DecidableEq τ] in
theorem machineOk_publish (h : MachineOk P loaded b s hist)
    (hs : sysStep P.scheme P.work s.sys .publish = some sys) :
    MachineOk P loaded b { s with sys := sys } hist := by
  obtain ⟨⟨e, count, pc⟩, hproc, h1, hlogs, hpos⟩ := h.proc
  cases pc with
  | index => exact absurd hs (by simp [sysStep, hproc])
  | mirror todo => exact absurd hs (by simp [sysStep, hproc])
  | bump =>
    obtain ⟨mk, -, hsys⟩ : ∃ mk, step s.sys.marker .publish = some mk ∧
        { s.sys with marker := mk, proc := some ⟨e + 1, count, .index⟩ } = sys := by
      simp only [sysStep, hproc] at hs
      exact Option.map_eq_some_iff.mp hs
    have hproc' : sys.proc = some ⟨e + 1, count, .index⟩ := by rw [← hsys]
    have hlog : sys.log = s.sys.log := by rw [← hsys]
    refine ⟨h.history, h.tables, ⟨_, hproc', Nat.succ_pos e, hlog ▸ procLogs_publish hlogs, ?_⟩,
      fun hb => ?_⟩
    · revert hpos
      cases s.phase with
      | executed => exact fun hpos => ⟨congrArg (· + 1) hpos.1, hpos.2⟩
      | _ => exact False.elim
    · obtain ⟨⟨m, hgood, hpub⟩, hfly⟩ := h.durable hb
      have hmark := hpub _ hproc
      -- the marker of the first process is never the one about to be published
      have hcalm : Calm P.work s.sys .publish := by
        intro e' count' pc' bank hp hread
        obtain ⟨rfl, -, -⟩ := Proc.mk.inj (Option.some.inj (hproc.symm.trans hp))
        rw [hgood.marker.published.read] at hread
        rw [hread] at hmark
        simp only [Option.map_some] at hmark
        split at hmark
        · cases hmark
        · exact absurd (Option.some.inj hmark) (Nat.succ_ne_self e)
      obtain ⟨m', hgood', hm'⟩ := good_publish hgood hcalm hs
      refine ⟨⟨m', hgood', fun p hp => ?_⟩, hfly⟩
      rw [hm' p hp, if_neg]
      obtain rfl := Option.some.inj (hproc'.symm.trans hp)
      have h1 : 1 ≤ e := h1
      have hne : e + 1 ≠ 1 := by omega
      exact hne

omit [DecidableEq L] [DecidableEq τ] in
theorem machineOk_flush {order : τ → List (Entry V)} (hP : P.WellFormed)
    (h : MachineOk P loaded b s hist) (hph : s.phase = .executed)
    (hproc : s.sys.proc = some ⟨e, count, .index⟩)
    (horder : ∀ t x, x ∈ order t ↔ x ∈ (s.tables t).flushSet (P.cfg t)) :
    MachineOk P loaded b
      { s with
        tables := fun t => (s.tables t).flushInOrder (P.cfg t) (order t), phase := .ready } hist := by
  obtain ⟨p, hp, h1, hlogs, hpos⟩ := h.proc
  obtain rfl := Option.some.inj (hproc.symm.trans hp)
  rw [hph] at hpos
  obtain ⟨he, -⟩ : e = hist.length + 1 ∧ _ := hpos
  have htab := h.tables
  rw [hph] at htab
  have hflush : ∀ t, Resting P (loadedValues loaded) hist t
        ((s.tables t).flushInOrder (P.cfg t) (order t)) ∧
      ∀ loaded', Flying P (loadedValues loaded) loaded' t
        ((s.tables t).flushInOrder (P.cfg t) (order t)) hist := by
    intro t
    have ht := htab t
    cases hist with
    | nil => exact ht.elim
    | cons W hist => exact Finished.flush ht hP h.history (horder t)
  exact ⟨h.history, fun t => (hflush t).1, ⟨_, hproc, h1, hlogs, he⟩,
    fun hb => ⟨(h.durable hb).1, fun t => (hflush t).2 _⟩⟩

omit [DecidableEq τ] in
/-- The first process, over a clean directory. -/
theorem machineOk_create {start : τ → Hybrid V}
    (hclean : ∀ t u, (loaded t u).version1 = 0 ∧ (loaded t u).version2 = 0)
    (hstart : ∀ t, (start t).Started (P.cfg t) (loaded t)) (hwarm : ∀ t, (start t).Warm (P.cfg t))
    (log : ∀ l, ℕ → α l) (hs : sysStep P.scheme P.work (System.init log) .start = some sys) :
    MachineOk P loaded false ⟨sys, start, .ready⟩ [] := by
  have hread : (System.init log : System F L α).marker.file.read = none := inv_init.published.read
  have hproc : sys.proc = some ⟨1, fun _ => 0, .index⟩ := by
    rw [← Option.some.inj hs, recoverEntry, hread]
  have hgood := good_start (good_init log) hs
  refine machineOk_start .nil hstart hwarm (fun t => ⟨fun u => ?_, fun u => rfl, fun u _ => hclean t u⟩)
    hproc (hgood.proc _ hproc).2.2 fun _ => ⟨⟨_, hgood, fun p hp => ?_⟩, fun t => ?_⟩
  · obtain ⟨h1, h2⟩ := hclean t u
    exact ⟨by omega, by omega⟩
  · obtain rfl := Option.some.inj (hproc.symm.trans hp)
    rfl
  · exact ⟨(hstart t).spec.2.2.1, (hstart t).spec.2.2.2.1⟩

omit [DecidableEq L] [DecidableEq τ] in
/-- A directory without a marker has no slot written. -/
theorem machineOk_unpublished (h : MachineOk P loaded false s hist)
    (hread : s.sys.marker.file.read = none) (t : τ) : (s.tables t).store = loaded t := by
  obtain ⟨⟨m, hgood, hpub⟩, hfly⟩ := h.durable rfl
  obtain ⟨⟨e, count, pc⟩, hproc, h1, -, hpos⟩ := h.proc
  have hmark := hpub _ hproc
  rw [← hgood.marker.published.read, hread, Option.map_none] at hmark
  have he : e = 1 := by
    by_contra hne
    rw [if_neg hne] at hmark
    cases hmark
  have hempty : flown s.phase hist = [] := by
    refine List.length_eq_zero_iff.mp ?_
    rcases hpos.flown h1 with ⟨hlen, -⟩ | ⟨hph, -, hlen⟩
    · simp only [he] at hlen
      omega
    · rw [hph, flown, List.length_tail]
      simp only [he] at hlen
      omega
  have hft := hfly t
  rw [hempty] at hft
  exact hft.1

omit [DecidableEq L] [DecidableEq τ] in
/-- What a crash leaves under a marker `E`: one tag of `E - 1` or later a row at most, in rows that the
    rollback goes through, and under it the tables of the end of epoch `E - 2`. -/
theorem machineOk_published (hP : P.WellFormed) (h : MachineOk P loaded false s hist)
    {bank : F → ℕ} (hread : s.sys.marker.file.read = some (e, bank)) :
    2 ≤ e ∧ ∃ newer older, hist = newer ++ older ∧ older.length = e - 2 ∧ ∀ t,
      (∀ u, ¬ (e - 1 ≤ ((s.tables t).store u).version1 ∧ e - 1 ≤ ((s.tables t).store u).version2) ∧
        (e - 1 ≤ ((s.tables t).store u).version1 ∨ e - 1 ≤ ((s.tables t).store u).version2 →
          u < P.sweep bank t)) ∧
      Based P (loadedValues loaded) older t
        (rollbackPrimaryStoreVersions (e - 1) (P.sweep bank t) (s.tables t).store) := by
  obtain ⟨⟨m, hgood, hpub⟩, hfly⟩ := h.durable rfl
  obtain ⟨⟨e', count, pc⟩, hproc, h1, -, hpos⟩ := h.proc
  have hmark := hpub _ hproc
  have hsnap := hgood.snapshot
  rw [← hgood.marker.published.read, hread] at hmark hsnap
  obtain ⟨h2, hp1, -, -⟩ := hsnap
  have he : e' = e := by
    rw [Option.map_some] at hmark
    split at hmark
    · cases hmark
    · exact (Option.some.inj hmark).symm
  subst he
  refine ⟨h2, ?_⟩
  rcases hpos.flown h1 with ⟨hlen, newer, hsplit⟩ | ⟨hph, hdrained, hlen⟩
  · -- a flush of epoch `e - 1` may be on its way
    simp only at hlen
    cases hfl : flown s.phase hist with
    | nil =>
      rw [hfl, List.length_nil] at hlen
      omega
    | cons W older =>
      rw [hfl, List.length_cons] at hlen
      have hh : P.History (loadedValues loaded) (W :: older) := by
        have hall := h.history
        rw [hsplit, hfl] at hall
        exact hall.suffix
      have hbank : ∀ l, bank (P.scheme.p1 l) = (P.work.logs (older.length + 1) l).length := by
        intro l
        rw [show older.length + 1 = e' - 1 by omega]
        exact hp1 l
      refine ⟨newer ++ [W], older, by rw [hsplit, hfl]; simp, by omega, fun t => ?_⟩
      have hft := hfly t
      rw [hfl] at hft
      rw [show e' - 1 = older.length + 1 by omega]
      exact hft.rolled hP hh hbank
  · -- published: epoch `e - 1` has drained
    simp only at hlen
    cases hist with
    | nil =>
      rw [List.length_nil] at hlen
      omega
    | cons W hist =>
      rw [List.length_cons] at hlen
      refine ⟨[W], hist, rfl, by omega, fun t => ?_⟩
      have ht := h.tables t
      rw [hph] at ht
      obtain ⟨h₀, ⟨hb, -⟩, hx⟩ := ht
      have hstore : (s.tables t).store = h₀.landed := by
        rw [← hx.landed, Hybrid.landed, hdrained t, List.foldl_nil]
      rw [hstore, show e' - 1 = hist.length + 1 by omega, hb.rolled]
      refine ⟨fun u => ?_, hb⟩
      obtain ⟨h1, h2⟩ := hb.tags u
      exact ⟨fun hc => h1.not_ge hc.1, fun hc => absurd hc (by omega)⟩

omit [DecidableEq τ] in
/-- The process that recovers starts like one that has run the epochs up to `E - 2`. -/
theorem machineOk_recover {sys' : System F L α} (hP : P.WellFormed)
    (hclean : ∀ t u, (loaded t u).version1 = 0 ∧ (loaded t u).version2 = 0)
    (h : MachineOk P loaded false s hist) (records : τ → ℕ → Rec V)
    (hcrash : sysStep P.scheme P.work s.sys .crash = some sys)
    (hs : sysStep P.scheme P.work sys .start = some sys') :
    MachineOk P loaded true
      ⟨sys', fun t => Hybrid.initial (P.cfg t) (records t)
        (P.recoverStore s.sys.marker.file t (s.tables t).store), .ready⟩
      (survivors s.sys.marker.file hist) := by
  obtain ⟨⟨m, hgood, -⟩, -⟩ := h.durable rfl
  obtain ⟨m', hm', hcrashed⟩ := good_crash hgood hcrash
  have hstarted := good_start hcrashed hs
  have hfile : sys.marker.file.read = s.sys.marker.file.read := by
    rw [hcrashed.marker.published.read, hm', hgood.marker.published.read]
  have hnone : sys.proc = none := by
    simp only [sysStep] at hcrash
    obtain ⟨mk, -, hsys⟩ := Option.map_eq_some_iff.mp hcrash
    rw [← hsys]
  have hentry : sys'.proc = some (recoverEntry P.scheme sys.marker.file) := by
    simp only [sysStep, hnone] at hs
    rw [← Option.some.inj hs]
  have hempty : ∀ t store, (Hybrid.initial (P.cfg t) (records t) store).Warm (P.cfg t) :=
    fun _ _ _ _ hne => absurd rfl hne
  rw [recoverEntry, hfile] at hentry
  cases hread : s.sys.marker.file.read with
  | none =>
    -- from the loaded store again
    rw [hread] at hentry
    have hstore : ∀ t, P.recoverStore s.sys.marker.file t (s.tables t).store = loaded t := by
      intro t
      rw [Program.recoverStore, hread]
      exact machineOk_unpublished h hread t
    have hsurv : survivors s.sys.marker.file hist = [] := by rw [survivors, hread]
    rw [hsurv]
    refine machineOk_start .nil (fun t => ⟨records t, Or.inl rfl⟩) (fun t => hempty t _)
      (fun t => ?_) hentry (hstarted.proc _ hentry).2.2 fun hb => absurd hb (by simp)
    rw [hstore t]
    refine ⟨fun u => ?_, fun u => rfl, fun u _ => hclean t u⟩
    obtain ⟨h1, h2⟩ := hclean t u
    exact ⟨by omega, by omega⟩
  | some x =>
    obtain ⟨e, bank⟩ := x
    obtain ⟨h2, newer, older, hsplit, hlen, hrolled⟩ := machineOk_published hP h hread
    have hsurv : survivors s.sys.marker.file hist = older := by
      rw [survivors, hread, hsplit]
      simp only [List.length_append, ← hlen, Nat.add_sub_cancel, List.drop_left]
    have hh := h.history
    rw [hsplit] at hh
    have he : e - 1 = older.length + 1 := by omega
    rw [hread] at hentry
    simp only [if_neg (Nat.not_lt.mpr h2), he] at hentry
    rw [hsurv]
    refine machineOk_start hh.suffix (fun t => ⟨records t, Or.inl rfl⟩) (fun t => hempty t _)
      (fun t => ?_) hentry (hstarted.proc _ hentry).2.2 fun hb => absurd hb (by simp)
    rw [Program.recoverStore, hread]
    simp only [if_neg (Nat.not_lt.mpr h2)]
    exact (hrolled t).2

/-- Every state of every run keeps the invariant. -/
theorem reach_ok {start : τ → Hybrid V} (hP : P.WellFormed)
    (hclean : ∀ t u, (loaded t u).version1 = 0 ∧ (loaded t u).version2 = 0)
    (hstart : ∀ t, (start t).Started (P.cfg t) (loaded t)) (hwarm : ∀ t, (start t).Warm (P.cfg t))
    (hr : P.Reach start b s hist) : MachineOk P loaded b s hist := by
  induction hr with
  | create log hs => exact machineOk_create hclean hstart hwarm log hs
  | index _ hph hproc hs ih => exact machineOk_index ih hph hproc hs
  | logStore _ hs ih => exact machineOk_logStore ih hs
  | scatter t _ ih => exact machineOk_scatter t ih
  | stage _ hph hproc hst ih => exact machineOk_stage hP ih hph hproc hst
  | execute _ hph hproc hout hes ih => exact machineOk_execute hP ih hph hproc hout hes
  | bump _ hph hdrained hs ih => exact machineOk_bump ih hph hdrained hs
  | bankStore _ hs ih => exact machineOk_bankStore ih hs
  | publish _ hs ih => exact machineOk_publish ih hs
  | flush _ hph hproc horder ih => exact machineOk_flush hP ih hph hproc horder
  | recover records _ _ hcrash hs ih => exact machineOk_recover hP hclean ih records hcrash hs

/-- The device memory has no tags of epochs to come. -/
theorem reach_records {start : τ → Hybrid V} (hP : P.WellFormed)
    (hclean : ∀ t u, (loaded t u).version1 = 0 ∧ (loaded t u).version2 = 0)
    (hstart : ∀ t, (start t).Started (P.cfg t) (loaded t)) (hwarm : ∀ t, (start t).Warm (P.cfg t))
    (hzero : ∀ t g, ((start t).records g).TagsBelow 1) (hr : P.Reach start b s hist) :
    ∀ t g, ((s.tables t).records g).TagsBelow (hist.length + 1) := by
  induction hr with
  | create log hs => exact hzero
  | index _ _ _ _ ih => exact ih
  | logStore _ _ ih => exact ih
  | @scatter b s hist t _ ih =>
    intro t' g
    by_cases ht : t' = t
    · subst ht
      simp only [Function.update_self, (scatterNext_frame (s.tables t')).2.1]
      exact ih t' g
    · simp only [Function.update_of_ne ht]
      exact ih t' g
  | @stage b s hist e count logs tables hr hph hproc hst ih =>
    intro t
    have hok := reach_ok hP hclean hstart hwarm hr
    obtain ⟨p, hp, -, -, hpos⟩ := hok.proc
    obtain rfl := Option.some.inj (hproc.symm.trans hp)
    rw [hph] at hpos
    obtain ⟨rfl, rfl⟩ := hpos
    have hrest := hok.tables t
    rw [hph] at hrest
    obtain ⟨stale, hs⟩ := (hst t).staged hrest.reachable hrest.unmarked hrest.cached hrest.flight
      (hP.keys _ t) fun u _ hins _ => hrest.based.unnamed u (hP.fresh _ t u hins)
    exact hs.records (Nat.succ_pos _) (ih t)
  | @execute b s hist e count logs W es hr hph hproc _ _ ih =>
    intro t g
    have hok := reach_ok hP hclean hstart hwarm hr
    obtain ⟨p, hp, -, -, hpos⟩ := hok.proc
    obtain rfl := Option.some.inj (hproc.symm.trans hp)
    rw [hph] at hpos
    obtain ⟨rfl, -⟩ := hpos
    exact execute_tags (ih t) (es t) g
  | bump _ _ _ _ ih => exact ih
  | bankStore _ _ ih => exact ih
  | publish _ _ ih => exact ih
  | flush _ _ _ _ ih => exact ih
  | recover records hrec _ _ _ _ =>
    exact fun t g => (hrec t g).mono (Nat.succ_le_succ (Nat.zero_le _))

end

end Egad.Recovery
