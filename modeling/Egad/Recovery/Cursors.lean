import Egad.Recovery.Meta
import Egad.Ycsb.ShadowIndex

/-! # The cursors of the recovery marker over whole runs

    Every `bumpRecoveryMarker(e + 1)` shifts a register of two cursors for each index log:

        p2 := old p1        p1 := entries now in the log

    A process that finds marker `E` truncates the logs at `p2` and replays from epoch `E - 1`. The
    machine below takes a step for every durable store (a log entry, a bank cell, the publish word),
    and the process may die between any two of them, also while it replays.

        start ─▶ index ─▶ log stores ─▶ bump: bank stores ─▶ publish ─▶ next epoch
          ▲                                                              │
          └────────────────────────── crash ◀───────────────────────────┘

    The first bump of a replay goes to the epoch that is already published. It shifts the register
    although the epoch number stays, so the register remains aligned only when the replayed epoch
    logs nothing. -/

namespace Egad.Recovery

/-! ### The two benchmarks' registers -/

/-- Where a bank keeps the two cursors of each index log, and the callback of
    `bumpRecoveryMarker`. -/
structure Scheme (F L : Type) [DecidableEq F] where
  logs : List L
  mem_logs : ∀ l, l ∈ logs
  p1 : L → F
  p2 : L → F
  fill : (L → ℕ) → Fill F
  fill_p1 : ∀ count old l, (fill count).bank old (p1 l) = count l
  fill_p2 : ∀ count old l, (fill count).bank old (p2 l) = (old.map fun b => b (p1 l)).getD 0

inductive YcsbLog where
  | insert
  | delete
deriving DecidableEq, Repr

/-- The YCSB marker. -/
def ycsbScheme : Scheme YcsbCursor YcsbLog where
  logs := [.insert, .delete]
  mem_logs l := by cases l <;> simp
  p1 | .insert => .freeStartP1 | .delete => .delP1
  p2 | .insert => .freeStartP2 | .delete => .delP2
  fill count := ycsbFill (count .insert) (count .delete)
  fill_p1 count old l := by cases l <;> simp [Fill.bank, applyStores, ycsbFill, Function.update]
  fill_p2 count old l := by cases l <;> simp [Fill.bank, applyStores, ycsbFill, Function.update]

inductive TpccLog where
  | newOrder
  | order
  | orderLine
  | noDelete
deriving DecidableEq, Repr

/-- The TPC-C marker. -/
def tpccScheme : Scheme TpccCursor TpccLog where
  logs := [.newOrder, .order, .orderLine, .noDelete]
  mem_logs l := by cases l <;> simp
  p1 | .newOrder => .noP1 | .order => .oP1 | .orderLine => .olP1 | .noDelete => .noDP1
  p2 | .newOrder => .noP2 | .order => .oP2 | .orderLine => .olP2 | .noDelete => .noDP2
  fill count := tpccFill (count .newOrder) (count .order) (count .orderLine) (count .noDelete)
  fill_p1 count old l := by cases l <;> simp [Fill.bank, applyStores, tpccFill, Function.update]
  fill_p2 count old l := by cases l <;> simp [Fill.bank, applyStores, tpccFill, Function.update]

/-! ### The machine -/

/-- The epochs of a run. The index a process works with is what the logs up to its cursors rebuild,
    so the entries an epoch appends are a function of these. -/
structure Workload (L : Type) (α : L → Type) where
  /-- `config.epochs` -/
  epochs : ℕ
  fits : epochs + 1 < 2 ^ 32
  appends : ℕ → (∀ l, List (α l)) → ∀ l, List (α l)

section
variable {F L : Type} {α : L → Type}

/-- The logs at the end of an epoch of the run without a crash. -/
def Workload.logs (W : Workload L α) : ℕ → ∀ l, List (α l)
  | 0 => fun _ => []
  | e + 1 => fun l => W.logs e l ++ W.appends (e + 1) (W.logs e) l

/-- A store to a log: the position and the entry. -/
abbrev LogStore (L : Type) (α : L → Type) := (l : L) × ℕ × α l

/-- Where a process stands in `runEpoch`. -/
inductive Pc (L : Type) (α : L → Type) where
  /-- Before `indexTxns`. -/
  | index
  /-- The log stores of `indexTxns` still to be made; with none left, anywhere up to the bump. -/
  | mirror (todo : List (LogStore L α))
  /-- Inside `bumpRecoveryMarker`. -/
  | bump

structure Proc (L : Type) (α : L → Type) where
  epoch : ℕ
  /-- The index's insert and delete counts. -/
  count : L → ℕ
  pc : Pc L α

structure System (F L : Type) (α : L → Type) where
  marker : State F
  log : ∀ l, ℕ → α l
  proc : Option (Proc L α)

inductive Event where
  | start
  | index
  /-- One of the log stores still to be made: a copy may write its words in any order. -/
  | logStore (k : ℕ)
  | bump
  | bankStore
  | publish
  | crash
deriving DecidableEq

variable [DecidableEq F] [DecidableEq L]

/-- The log cut at a cursor. -/
def truncate (log : ∀ l, ℕ → α l) (count : L → ℕ) (l : L) : List (α l) :=
  (List.range (count l)).map (log l)

/-- The stores that append `new` at the cursors. -/
def mirrorStores (logs : List L) (count : L → ℕ) (new : ∀ l, List (α l)) : List (LogStore L α) :=
  logs.flatMap fun l => ((new l).zipIdx (count l)).map fun x => ⟨l, x.2, x.1⟩

/-- The recovery entry of `runBenchmark`. -/
def recoverEntry (S : Scheme F L) (m : RecoveryMeta F) : Proc L α :=
  match m.read with
  | some (e, bank) =>
    if e < 2 then ⟨1, fun _ => 0, .index⟩ else ⟨e - 1, fun l => bank (S.p2 l), .index⟩
  | none => ⟨1, fun _ => 0, .index⟩

/-- One durable store, or one entry into a function. -/
def sysStep (S : Scheme F L) (W : Workload L α) (s : System F L α) : Event → Option (System F L α)
  | .start =>
    match s.proc with
    | none => some { s with proc := some (recoverEntry S s.marker.file) }
    | some _ => none
  | .index =>
    match s.proc with
    | some ⟨e, count, .index⟩ =>
      if e ≤ W.epochs then
        let new := W.appends e (truncate s.log count)
        some { s with
          proc := some ⟨e, fun l => count l + (new l).length,
            .mirror (mirrorStores S.logs count new)⟩ }
      else none
    | _ => none
  | .logStore k =>
    match s.proc with
    | some ⟨e, count, .mirror todo⟩ =>
      match todo[k]? with
      | some ⟨l, i, v⟩ =>
        some { s with
          log := Function.update s.log l (Function.update (s.log l) i v)
          proc := some ⟨e, count, .mirror (todo.eraseIdx k)⟩ }
      | none => none
    | _ => none
  | .bump =>
    match s.proc with
    | some ⟨e, count, .mirror []⟩ =>
      (step s.marker (.prepare (UInt32.ofNat (e + 1)) (S.fill count))).map fun m =>
        { s with marker := m, proc := some ⟨e, count, .bump⟩ }
    | _ => none
  | .bankStore =>
    match s.proc with
    | some ⟨_, _, .bump⟩ => (step s.marker .store).map fun m => { s with marker := m }
    | _ => none
  | .publish =>
    match s.proc with
    | some ⟨e, count, .bump⟩ =>
      (step s.marker .publish).map fun m =>
        { s with marker := m, proc := some ⟨e + 1, count, .index⟩ }
    | _ => none
  | .crash => (step s.marker .restart).map fun m => { s with marker := m, proc := none }

/-- A run of events. -/
def sysRun (S : Scheme F L) (W : Workload L α) (s : System F L α) (evs : List Event) :
    Option (System F L α) :=
  evs.foldlM (sysStep S W) s

/-- The zeroed marker and logs of any content. -/
def System.init (log : ∀ l, ℕ → α l) : System F L α := ⟨State.init, log, none⟩

/-- A published marker `E` has the log lengths of the end of epoch `E - 2` as its older cursors, and
    the logs cut there are the logs of the end of epoch `E - 2`. -/
def Aligned (S : Scheme F L) (W : Workload L α) (s : System F L α) : Prop :=
  ∀ e bank, s.marker.file.read = some (e, bank) →
    2 ≤ e ∧ ∀ l, bank (S.p2 l) = (W.logs (e - 2) l).length ∧
      truncate s.log (fun l => bank (S.p2 l)) l = W.logs (e - 2) l

/-- A step does not publish a marker over an equal one, or the replayed epoch logs nothing. -/
def Calm (W : Workload L α) (s : System F L α) : Event → Prop
  | .publish => ∀ e count pc bank, s.proc = some ⟨e, count, pc⟩ →
      s.marker.file.read = some (e + 1, bank) → ∀ l, W.appends e (W.logs (e - 1)) l = []
  | _ => True

/-- The states of the runs whose steps are all calm. -/
inductive CalmReach (S : Scheme F L) (W : Workload L α) : System F L α → Prop
  | init (log) : CalmReach S W (.init log)
  | step {s s' ev} : CalmReach S W s → Calm W s ev → sysStep S W s ev = some s' → CalmReach S W s'

end

/-! ### Logs that hold an epoch -/

theorem mem_eraseIdx_of_ne {α : Type*} {xs : List α} {k : ℕ} {a x : α} (hk : xs[k]? = some a)
    (hx : x ∈ xs) (hne : x ≠ a) : x ∈ xs.eraseIdx k := by
  obtain ⟨j, hj⟩ := List.mem_iff_getElem?.mp hx
  refine List.mem_eraseIdx_iff_getElem?.mpr ⟨j, fun hjk => hne ?_, hj⟩
  rw [hjk, hk] at hj
  exact (Option.some.inj hj).symm

section
variable {F L : Type} {α : L → Type} {W : Workload L α} {log : ∀ l, ℕ → α l} {e e' : ℕ}

/-- The log arrays hold the logs of the end of epoch `e`, whatever stands behind them. -/
def Stores (W : Workload L α) (log : ∀ l, ℕ → α l) (e : ℕ) : Prop :=
  ∀ l i v, (W.logs e l)[i]? = some v → log l i = v

theorem logs_prefix (W : Workload L α) (h : e ≤ e') (l : L) : W.logs e l <+: W.logs e' l := by
  induction e', h using Nat.le_induction with
  | base => exact List.prefix_rfl
  | succ n _ ih => exact ih.trans (List.prefix_append _ _)

theorem logs_getElem?_mono (h : e ≤ e') {l : L} {i : ℕ} {v : α l}
    (hv : (W.logs e l)[i]? = some v) : (W.logs e' l)[i]? = some v := by
  obtain ⟨t, ht⟩ := logs_prefix W h l
  rw [← ht, List.getElem?_append_left (List.getElem?_eq_some_iff.mp hv).1, hv]

/-- Two epochs agree on the entries both have. -/
theorem logs_getElem?_unique {l : L} {i : ℕ} {v v' : α l} (hv : (W.logs e l)[i]? = some v)
    (hv' : (W.logs e' l)[i]? = some v') : v = v' := by
  have h := logs_getElem?_mono (le_max_left e e') hv
  have h' := logs_getElem?_mono (le_max_right e e') hv'
  exact Option.some.inj (h.symm.trans h')

theorem Stores.mono (h : Stores W log e') (hle : e ≤ e') : Stores W log e :=
  fun l i v hv => h l i v (logs_getElem?_mono hle hv)

theorem stores_zero : Stores W log 0 := fun l i v hv => by simp [Workload.logs] at hv

theorem Stores.truncate (h : Stores W log e) {count : L → ℕ}
    (hc : ∀ l, count l = (W.logs e l).length) : truncate log count = W.logs e := by
  funext l
  refine List.ext_getElem? fun i => ?_
  rw [Recovery.truncate, List.getElem?_map, hc l]
  by_cases hi : i < (W.logs e l).length
  · rw [List.getElem?_range hi, Option.map_some, List.getElem?_eq_getElem hi,
      h l i _ (List.getElem?_eq_getElem hi)]
  · rw [List.getElem?_eq_none (by simpa using hi), List.getElem?_eq_none (by omega),
      Option.map_none]

variable [DecidableEq L]

/-- Storing an entry of any epoch again changes nothing that an epoch's logs hold. -/
theorem Stores.write (h : Stores W log e) {l : L} {i : ℕ} {v : α l}
    (hv : (W.logs e' l)[i]? = some v) :
    Stores W (Function.update log l (Function.update (log l) i v)) e := by
  intro l' i' v' hv'
  by_cases hl : l' = l
  · subst hl
    rw [Function.update_self]
    by_cases hi : i' = i
    · subst hi
      rw [Function.update_self]
      exact logs_getElem?_unique hv hv'
    · rw [Function.update_of_ne hi]
      exact h l' i' v' hv'
  · rw [Function.update_of_ne hl]
    exact h l' i' v' hv'

/-- The log stores of epoch `e` that are left: each writes its entry of the epoch, and no other
    entry is missing. -/
structure Pending (W : Workload L α) (log : ∀ l, ℕ → α l) (e : ℕ) (todo : List (LogStore L α)) :
    Prop where
  right : ∀ x ∈ todo, (W.logs e x.1)[x.2.1]? = some x.2.2
  rest : ∀ l i v, (W.logs e l)[i]? = some v → log l i = v ∨ ⟨l, i, v⟩ ∈ todo

omit [DecidableEq L] in
theorem mem_mirrorStores {logs : List L} {count : L → ℕ} {new : ∀ l, List (α l)}
    {x : LogStore L α} : x ∈ mirrorStores logs count new ↔
      x.1 ∈ logs ∧ count x.1 ≤ x.2.1 ∧ (new x.1)[x.2.1 - count x.1]? = some x.2.2 := by
  obtain ⟨l, i, v⟩ := x
  simp only [mirrorStores, List.mem_flatMap, List.mem_map]
  constructor
  · rintro ⟨l', hl', ⟨v', i'⟩, hmem, heq⟩
    obtain ⟨rfl, hrest⟩ := Sigma.mk.inj heq
    obtain ⟨rfl, rfl⟩ := Prod.mk.inj (eq_of_heq hrest)
    exact ⟨hl', List.mk_mem_zipIdx_iff_le_and_getElem?_sub.mp hmem⟩
  · rintro ⟨hl, hle, hv⟩
    exact ⟨l, hl, (v, i), List.mk_mem_zipIdx_iff_le_and_getElem?_sub.mpr ⟨hle, hv⟩, rfl⟩

omit [DecidableEq L] in
/-- Entering the log stores of an epoch. -/
theorem Stores.pending (h : Stores W log e) {logs : List L} (hall : ∀ l, l ∈ logs) {count : L → ℕ}
    (hc : ∀ l, count l = (W.logs e l).length) :
    Pending W log (e + 1) (mirrorStores logs count (W.appends (e + 1) (W.logs e))) := by
  refine ⟨fun x hx => ?_, fun l i v hv => ?_⟩
  · obtain ⟨-, hle, hv⟩ := mem_mirrorStores.mp hx
    rw [hc] at hle hv
    rw [Workload.logs, List.getElem?_append_right hle, hv]
  · rw [Workload.logs] at hv
    by_cases hi : i < (W.logs e l).length
    · rw [List.getElem?_append_left hi] at hv
      exact Or.inl (h l i v hv)
    · rw [List.getElem?_append_right (by omega)] at hv
      refine Or.inr (mem_mirrorStores.mpr ⟨hall l, ?_, ?_⟩)
      · rw [hc]; exact Nat.le_of_not_lt hi
      · rw [hc]; exact hv

/-- One of them made. -/
theorem Pending.step {todo : List (LogStore L α)} (h : Pending W log e todo) {k : ℕ} {l : L} {i : ℕ}
    {v : α l} (hk : todo[k]? = some ⟨l, i, v⟩) :
    Pending W (Function.update log l (Function.update (log l) i v)) e (todo.eraseIdx k) := by
  refine ⟨fun x hx => h.right x (List.mem_of_mem_eraseIdx hx), fun l' i' v' hv' => ?_⟩
  have hval : (W.logs e l)[i]? = some v := h.right _ (List.mem_of_getElem? hk)
  by_cases hl : l' = l
  · subst hl
    rw [Function.update_self]
    by_cases hi : i' = i
    · subst hi
      rw [Function.update_self]
      exact Or.inl (logs_getElem?_unique hval hv')
    · rw [Function.update_of_ne hi]
      refine (h.rest l' i' v' hv').imp id fun hmem => ?_
      refine mem_eraseIdx_of_ne hk hmem fun heq => hi ?_
      obtain ⟨-, hrest⟩ := Sigma.mk.inj heq
      exact (Prod.mk.inj (eq_of_heq hrest)).1
  · rw [Function.update_of_ne hl]
    refine (h.rest l' i' v' hv').imp id fun hmem => ?_
    exact mem_eraseIdx_of_ne hk hmem fun heq => hl (Sigma.mk.inj heq).1

omit [DecidableEq L] in
theorem Pending.done (h : Pending W log e []) : Stores W log e :=
  fun l i v hv => (h.rest l i v hv).resolve_right (by simp)

end

/-! ### The invariant of calm runs -/

section
variable {F L : Type} {α : L → Type} [DecidableEq F] [DecidableEq L] {S : Scheme F L}
  {W : Workload L α} {s s' : System F L α} {m : Marker F}

/-- A snapshot has the log lengths of the two epochs before its own, and the logs hold them. -/
def SnapshotOk (S : Scheme F L) (W : Workload L α) (log : ∀ l, ℕ → α l) :
    Option (ℕ × (F → ℕ)) → Prop
  | none => True
  | some (e, bank) => 2 ≤ e ∧ (∀ l, bank (S.p1 l) = (W.logs (e - 1) l).length) ∧
      (∀ l, bank (S.p2 l) = (W.logs (e - 2) l).length) ∧ Stores W log (e - 1)

/-- The epoch a process works on: the first, or the published one or the one before it. -/
def EpochOk (published : Option (ℕ × (F → ℕ))) (e : ℕ) : Prop :=
  match published with
  | none => e = 1
  | some (e', _) => e + 1 = e' ∨ e = e'

/-- What a process has in memory are the counts of its epoch, and the logs hold it or will. -/
def ProcLogs (W : Workload L α) (log : ∀ l, ℕ → α l) : Proc L α → Prop
  | ⟨e, count, .index⟩ => (∀ l, count l = (W.logs (e - 1) l).length) ∧ Stores W log (e - 1)
  | ⟨e, count, .mirror todo⟩ => e ≤ W.epochs ∧ (∀ l, count l = (W.logs e l).length) ∧
      Pending W log e todo
  | ⟨e, count, .bump⟩ => (∀ l, count l = (W.logs e l).length) ∧ Stores W log e

theorem procLogs_index {e : ℕ} {count : L → ℕ} (hproc : s.proc = some ⟨e, count, .index⟩)
    (h1 : 1 ≤ e) (h : ProcLogs W s.log ⟨e, count, .index⟩) (hs : sysStep S W s .index = some s') :
    truncate s.log count = W.logs (e - 1) ∧ s'.marker = s.marker ∧ s'.log = s.log ∧
      ∃ count' todo, s'.proc = some ⟨e, count', .mirror todo⟩ ∧
        ProcLogs W s.log ⟨e, count', .mirror todo⟩ := by
  obtain ⟨marker, log, proc⟩ := s
  obtain rfl : proc = some ⟨e, count, .index⟩ := hproc
  obtain ⟨hcount, hst⟩ := h
  simp only [sysStep] at hs
  split at hs
  · next hle =>
    obtain rfl := Option.some.inj hs
    obtain ⟨n, rfl⟩ : ∃ n, e = n + 1 := ⟨e - 1, by omega⟩
    rw [Nat.add_sub_cancel] at hcount hst
    have hcut := hst.truncate hcount
    refine ⟨hcut, rfl, rfl, _, _, rfl, hle, fun l => ?_, ?_⟩
    · rw [hcut]
      simp only [hcount l, Workload.logs, List.length_append]
    · rw [hcut]
      exact hst.pending S.mem_logs hcount
  · exact absurd hs (by simp)

theorem procLogs_logStore {k e : ℕ} {count : L → ℕ} {todo : List (LogStore L α)}
    (hproc : s.proc = some ⟨e, count, .mirror todo⟩) (h : ProcLogs W s.log ⟨e, count, .mirror todo⟩)
    (hs : sysStep S W s (.logStore k) = some s') :
    ∃ l i v, (W.logs e l)[i]? = some v ∧
      s'.log = Function.update s.log l (Function.update (s.log l) i v) ∧ s'.marker = s.marker ∧
      s'.proc = some ⟨e, count, .mirror (todo.eraseIdx k)⟩ ∧
      ProcLogs W s'.log ⟨e, count, .mirror (todo.eraseIdx k)⟩ := by
  obtain ⟨marker, log, proc⟩ := s
  obtain rfl : proc = some ⟨e, count, .mirror todo⟩ := hproc
  obtain ⟨hle, hcount, hpend⟩ := h
  simp only [sysStep] at hs
  split at hs
  · next l i v hk =>
    obtain rfl := Option.some.inj hs
    exact ⟨l, i, v, hpend.right _ (List.mem_of_getElem? hk), rfl, rfl, rfl, hle, hcount, hpend.step hk⟩
  · exact absurd hs (by simp)

omit [DecidableEq L] in
theorem procLogs_bump {e : ℕ} {count : L → ℕ} {log : ∀ l, ℕ → α l}
    (h : ProcLogs W log ⟨e, count, .mirror []⟩) : ProcLogs W log ⟨e, count, .bump⟩ :=
  ⟨h.2.1, h.2.2.done⟩

omit [DecidableEq L] in
theorem procLogs_publish {e : ℕ} {count : L → ℕ} {log : ∀ l, ℕ → α l}
    (h : ProcLogs W log ⟨e, count, .bump⟩) : ProcLogs W log ⟨e + 1, count, .index⟩ := h

/-- What a process has in memory and in the logs. -/
def ProcOk (S : Scheme F L) (W : Workload L α) (log : ∀ l, ℕ → α l) (m : Marker F) :
    Proc L α → Prop
  | ⟨e, count, .index⟩ => (∀ l, count l = (W.logs (e - 1) l).length) ∧ Stores W log (e - 1)
  | ⟨e, count, .mirror todo⟩ => e ≤ W.epochs ∧ (∀ l, count l = (W.logs e l).length) ∧
      Pending W log e todo
  | ⟨e, count, .bump⟩ => (∀ l, count l = (W.logs e l).length) ∧ Stores W log e ∧
      m.prepared = some (e + 1, (S.fill count).bank (m.published.map Prod.snd))

structure Good (S : Scheme F L) (W : Workload L α) (s : System F L α) (m : Marker F) : Prop where
  marker : Inv s.marker m
  snapshot : SnapshotOk S W s.log m.published
  proc : ∀ p, s.proc = some p → 1 ≤ p.epoch ∧ EpochOk m.published p.epoch ∧ ProcOk S W s.log m p

omit [DecidableEq L] in
theorem good_init (log : ∀ l, ℕ → α l) : Good S W (.init log) ⟨none, none⟩ :=
  ⟨inv_init, trivial, fun p hp => by simp [System.init] at hp⟩

theorem SnapshotOk.write {log : ∀ l, ℕ → α l} {p : Option (ℕ × (F → ℕ))}
    (h : SnapshotOk S W log p) {l : L} {i e : ℕ} {v : α l} (hv : (W.logs e l)[i]? = some v) :
    SnapshotOk S W (Function.update log l (Function.update (log l) i v)) p := by
  rcases p with - | ⟨e', bank⟩
  · trivial
  · obtain ⟨h2, hp1, hp2, hst⟩ := h
    exact ⟨h2, hp1, hp2, hst.write hv⟩

omit [DecidableEq L] in
/-- A process that starts finds the cursors of its epoch. -/
theorem recoverEntry_ok {log : ∀ l, ℕ → α l} {file : RecoveryMeta F} (hpub : Published file m.published)
    (h : SnapshotOk S W log m.published) : 1 ≤ (recoverEntry S file : Proc L α).epoch ∧
      EpochOk m.published (recoverEntry S file : Proc L α).epoch ∧
      ProcOk S W log m (recoverEntry S file) := by
  rw [recoverEntry, hpub.read]
  rcases hp : m.published with - | ⟨e, bank⟩
  · exact ⟨le_refl 1, rfl, fun l => rfl, stores_zero⟩
  · rw [hp] at h
    obtain ⟨h2, -, hp2, hst⟩ := h
    simp only [if_neg (show ¬ e < 2 by omega)]
    have he : e - 1 - 1 = e - 2 := by omega
    refine ⟨by omega, Or.inl (by omega), fun l => ?_, ?_⟩
    · exact (hp2 l).trans (by rw [he])
    · rw [he]
      exact hst.mono (by omega)

omit [DecidableEq L] in
/-- The snapshot that the bump of epoch `e` prepares is right for marker `e + 1`, unless it shifts
    the cursors of a marker `e + 1`. -/
theorem snapshot_bump {log : ∀ l, ℕ → α l} {p : Option (ℕ × (F → ℕ))} {count : L → ℕ} {e : ℕ}
    (h : SnapshotOk S W log p) (h1 : 1 ≤ e) (he : EpochOk p e)
    (hcount : ∀ l, count l = (W.logs e l).length) (hst : Stores W log e)
    (hcalm : ∀ bank, p = some (e + 1, bank) → ∀ l, W.appends e (W.logs (e - 1)) l = []) :
    SnapshotOk S W log (some (e + 1, (S.fill count).bank (p.map Prod.snd))) := by
  refine ⟨by omega, fun l => ?_, fun l => ?_, hst⟩
  · rw [S.fill_p1, hcount, Nat.add_sub_cancel]
  · rw [S.fill_p2]
    have hsub : e + 1 - 2 = e - 1 := by omega
    rw [hsub]
    rcases p with - | ⟨e', bank⟩
    · obtain rfl : e = 1 := he
      rfl
    · obtain ⟨-, hp1, -, -⟩ := h
      rw [Option.map_some, Option.map_some, Option.getD_some]
      refine (hp1 l).trans ?_
      rcases he with rfl | rfl
      · -- the first bump of a replay: nothing was appended between the two epochs
        obtain ⟨n, rfl⟩ : ∃ n, e = n + 1 := ⟨e - 1, by omega⟩
        have hnil := hcalm bank rfl l
        rw [Nat.add_sub_cancel] at hnil
        simp only [Nat.add_sub_cancel, Workload.logs, hnil, List.append_nil]
      · rfl

theorem good_start (h : Good S W s m) (hs : sysStep S W s .start = some s') : Good S W s' m := by
  obtain ⟨marker, log, proc⟩ := s
  rcases proc with - | p
  · obtain rfl := Option.some.inj hs
    refine ⟨h.marker, h.snapshot, fun p hp => ?_⟩
    obtain rfl := Option.some.inj hp
    exact recoverEntry_ok h.marker.published h.snapshot
  · exact absurd hs (by simp [sysStep])

theorem good_index (h : Good S W s m) (hs : sysStep S W s .index = some s') : Good S W s' m := by
  obtain ⟨marker, log, proc⟩ := s
  rcases proc with - | ⟨e, count, - | todo | -⟩
  · exact absurd hs (by simp [sysStep])
  · obtain ⟨h1, hep, hlogs⟩ := h.proc _ rfl
    obtain ⟨-, hmarker, hlog, count', todo, hproc, hlogs'⟩ := procLogs_index rfl h1 hlogs hs
    refine ⟨hmarker ▸ h.marker, hlog ▸ h.snapshot, fun p hp => ?_⟩
    obtain rfl := Option.some.inj (hproc.symm.trans hp)
    exact ⟨h1, hep, hlog ▸ hlogs'⟩
  · exact absurd hs (by simp [sysStep])
  · exact absurd hs (by simp [sysStep])

theorem good_logStore {k : ℕ} (h : Good S W s m) (hs : sysStep S W s (.logStore k) = some s') :
    Good S W s' m := by
  obtain ⟨marker, log, proc⟩ := s
  rcases proc with - | ⟨e, count, - | todo | -⟩
  · exact absurd hs (by simp [sysStep])
  · exact absurd hs (by simp [sysStep])
  · obtain ⟨h1, hep, hlogs⟩ := h.proc _ rfl
    obtain ⟨l, i, v, hv, hlog, hmarker, hproc, hlogs'⟩ := procLogs_logStore rfl hlogs hs
    refine ⟨hmarker ▸ h.marker, hlog ▸ h.snapshot.write hv, fun p hp => ?_⟩
    obtain rfl := Option.some.inj (hproc.symm.trans hp)
    exact ⟨h1, hep, hlogs'⟩
  · exact absurd hs (by simp [sysStep])

theorem good_bump (h : Good S W s m) (hs : sysStep S W s .bump = some s') :
    ∃ m', m'.published = m.published ∧ Good S W s' m' := by
  obtain ⟨marker, log, proc⟩ := s
  rcases proc with - | ⟨e, count, - | (- | ⟨x, todo⟩) | -⟩ <;> simp only [sysStep] at hs
  · exact absurd hs (by simp)
  · exact absurd hs (by simp)
  · obtain ⟨h1, hep, hle, hcount, hpend⟩ := h.proc _ rfl
    obtain ⟨mk, hmk, rfl⟩ := Option.map_eq_some_iff.mp hs
    refine ⟨m.step (.prepare (UInt32.ofNat (e + 1)) (S.fill count)), rfl, inv_step h.marker hmk,
      h.snapshot, fun p hp => ?_⟩
    obtain rfl := Option.some.inj hp
    refine ⟨h1, hep, hcount, hpend.done, ?_⟩
    have hlt : e + 1 < 2 ^ 32 := lt_of_le_of_lt (Nat.succ_le_succ hle) W.fits
    have hnat : (UInt32.ofNat (e + 1)).toNat = e + 1 := UInt32.toNat_ofNat_of_lt' hlt
    simp only [Marker.step, hnat]
  · exact absurd hs (by simp)
  · exact absurd hs (by simp)

theorem good_bankStore (h : Good S W s m) (hs : sysStep S W s .bankStore = some s') :
    ∃ m', m'.published = m.published ∧ Good S W s' m' := by
  obtain ⟨marker, log, proc⟩ := s
  rcases proc with - | ⟨e, count, - | todo | -⟩ <;> simp only [sysStep] at hs
  · exact absurd hs (by simp)
  · exact absurd hs (by simp)
  · exact absurd hs (by simp)
  · obtain ⟨mk, hmk, rfl⟩ := Option.map_eq_some_iff.mp hs
    exact ⟨m.step .store, rfl, inv_step h.marker hmk, h.snapshot, h.proc⟩

theorem good_publish (h : Good S W s m) (hcalm : Calm W s .publish)
    (hs : sysStep S W s .publish = some s') :
    ∃ m', Good S W s' m' ∧ ∀ p, s'.proc = some p → m'.published.map Prod.fst = some p.epoch := by
  obtain ⟨marker, log, proc⟩ := s
  rcases proc with - | ⟨e, count, - | todo | -⟩ <;> simp only [sysStep] at hs
  · exact absurd hs (by simp)
  · exact absurd hs (by simp)
  · exact absurd hs (by simp)
  · obtain ⟨h1, hep, hcount, hst, hprep⟩ := h.proc _ rfl
    obtain ⟨mk, hmk, rfl⟩ := Option.map_eq_some_iff.mp hs
    have hquiet : ∀ bank, m.published = some (e + 1, bank) →
        ∀ l, W.appends e (W.logs (e - 1)) l = [] := fun bank hb =>
      hcalm e count .bump bank rfl (by rw [h.marker.published.read, hb])
    have hpub : (m.step .publish).published = some (e + 1, _) := hprep
    refine ⟨_, ⟨inv_step h.marker hmk, ?_, fun p hp => ?_⟩, fun p hp => ?_⟩
    · rw [hpub]
      exact snapshot_bump h.snapshot h1 hep hcount hst hquiet
    · obtain rfl := Option.some.inj hp
      rw [hpub]
      exact ⟨Nat.le_add_left 1 e, Or.inr rfl, hcount, hst⟩
    · obtain rfl := Option.some.inj hp
      rw [hpub]
      rfl

theorem good_crash (h : Good S W s m) (hs : sysStep S W s .crash = some s') :
    ∃ m', m'.published = m.published ∧ Good S W s' m' := by
  simp only [sysStep] at hs
  obtain ⟨mk, hmk, rfl⟩ := Option.map_eq_some_iff.mp hs
  exact ⟨m.step .restart, rfl, inv_step h.marker hmk, h.snapshot, fun p hp => by simp at hp⟩

theorem good_step {ev : Event} (h : Good S W s m) (hcalm : Calm W s ev)
    (hs : sysStep S W s ev = some s') : ∃ m', Good S W s' m' := by
  cases ev with
  | start => exact ⟨m, good_start h hs⟩
  | index => exact ⟨m, good_index h hs⟩
  | logStore k => exact ⟨m, good_logStore h hs⟩
  | bump =>
    obtain ⟨m', -, hm⟩ := good_bump h hs
    exact ⟨m', hm⟩
  | bankStore =>
    obtain ⟨m', -, hm⟩ := good_bankStore h hs
    exact ⟨m', hm⟩
  | publish =>
    obtain ⟨m', hm, -⟩ := good_publish h hcalm hs
    exact ⟨m', hm⟩
  | crash =>
    obtain ⟨m', -, hm⟩ := good_crash h hs
    exact ⟨m', hm⟩

theorem good_reach (h : CalmReach S W s) : ∃ m, Good S W s m := by
  induction h with
  | init log => exact ⟨_, good_init log⟩
  | step _ hcalm hs ih =>
    obtain ⟨m, hm⟩ := ih
    exact good_step hm hcalm hs

/-- With any number of crashes, also during a replay, the published register stays aligned with its
    epoch, as long as no replayed epoch that logs something is published again. -/
theorem aligned_of_calm (h : CalmReach S W s) : Aligned S W s := by
  obtain ⟨m, hm⟩ := good_reach h
  intro e bank hread
  have hpub : m.published = some (e, bank) := hm.marker.published.read.symm.trans hread
  have hsnap := hm.snapshot
  rw [hpub] at hsnap
  obtain ⟨h2, -, hp2, hst⟩ := hsnap
  refine ⟨h2, fun l => ⟨hp2 l, ?_⟩⟩
  rw [(hst.mono (by omega : e - 2 ≤ e - 1)).truncate hp2]

/-- A publish that is not calm breaks the alignment at once. -/
theorem not_aligned_of_not_calm (h : CalmReach S W s) (hcalm : ¬ Calm W s .publish)
    (hs : sysStep S W s .publish = some s') : ¬ Aligned S W s' := by
  obtain ⟨m, hm⟩ := good_reach h
  simp only [Calm, not_forall] at hcalm
  obtain ⟨e, count, pc, bank, hproc, hread, l, hne⟩ := hcalm
  obtain ⟨marker, log, proc⟩ := s
  obtain rfl : proc = some ⟨e, count, pc⟩ := hproc
  rcases pc with - | todo | - <;> simp only [sysStep] at hs
  · exact absurd hs (by simp)
  · exact absurd hs (by simp)
  · obtain ⟨h1, -, -, -, hprep⟩ := hm.proc _ rfl
    obtain ⟨mk, hmk, rfl⟩ := Option.map_eq_some_iff.mp hs
    have hold : m.published = some (e + 1, bank) := hm.marker.published.read.symm.trans hread
    have hnew : mk.file.read = some (e + 1, (S.fill count).bank (m.published.map Prod.snd)) :=
      (inv_step hm.marker hmk).published.read.trans hprep
    have hsnap := hm.snapshot
    rw [hold] at hsnap
    obtain ⟨-, hp1, -, -⟩ := hsnap
    intro hal
    obtain ⟨n, rfl⟩ : ∃ n, e = n + 1 := ⟨e - 1, by have : 1 ≤ e := h1; omega⟩
    have hp2 := ((hal _ _ hnew).2 l).1
    rw [S.fill_p2, hold] at hp2
    have hlen : (W.logs (n + 1) l).length = (W.logs n l).length := (hp1 l).symm.trans hp2
    have hpos := List.length_pos_iff.mpr hne
    rw [Nat.add_sub_cancel] at hpos
    simp only [Workload.logs, List.length_append] at hlen
    omega

/-- Steps other than `publish` are calm. -/
theorem CalmReach.run {evs : List Event} (h : CalmReach S W s) (hev : Event.publish ∉ evs)
    (hs : sysRun S W s evs = some s') : CalmReach S W s' := by
  induction evs generalizing s with
  | nil =>
    obtain rfl := Option.some.inj hs
    exact h
  | cons ev evs ih =>
    rw [sysRun, List.foldlM_cons] at hs
    obtain ⟨t, ht, hrest⟩ := Option.bind_eq_some_iff.mp hs
    have hcalm : Calm W s ev := by
      cases ev with
      | publish => exact absurd List.mem_cons_self hev
      | _ => trivial
    exact ih (h.step hcalm ht) (fun hmem => hev (List.mem_cons_of_mem _ hmem)) hrest

end

/-! ### The YCSB logs

    The workload of a YCSB run: each epoch's index phase, on the index that its logs rebuild. The
    index of an uninterrupted run appends the same entries. -/

section
open Egad.Lib Egad.Ycsb

abbrev YcsbEntry : YcsbLog → Type
  | .insert => ℕ
  | .delete => ℕ × ℕ

/-- The three durable arrays. -/
def durableLog (log : ∀ l, ℕ → YcsbEntry l) : DurableLog :=
  ⟨log .insert, fun i => (log .delete i).1, fun i => (log .delete i).2⟩

/-- Arrays with the given entries. -/
def arrays (logs : ∀ l, List (YcsbEntry l)) : ∀ l, ℕ → YcsbEntry l
  | .insert => fun i => (logs .insert).getD i 0
  | .delete => fun i => (logs .delete).getD i (0, 0)

/-- `rebuildCucoFromShadow` on the reconstructed shards. -/
def rebuildCucoFromShadow (cfg : Config) (log : DurableLog) (freeStart deleteCount : ℕ) : GpuIndex where
  index := { map := reconstruct cfg log freeStart deleteCount, hasErased := false,
             freeStart := freeStart, delPos := fun _ => Timeline.kAbsent, entryCrid := fun _ => 0 }
  deleteCount := deleteCount
  log := log

/-- What `indexTxns` appends to the two logs; nothing when it throws. -/
def ycsbAppends (cfg : Config) (slots : List Slot) (logs : ∀ l, List (YcsbEntry l)) :
    ∀ l, List (YcsbEntry l) :=
  let g := rebuildCucoFromShadow cfg (durableLog (arrays logs)) (logs .insert).length
    (logs .delete).length
  match Ycsb.indexTxns cfg g.index slots with
  | .ok (_, out) => fun
    | .insert => out.mintedKeys
    | .delete => out.edelKeys.zip out.edelCrids
  | .error _ => fun _ => []

/-- A YCSB run of epochs `1, 2, …, epochs`. -/
def ycsbWorkload (cfg : Config) (inputs : ℕ → List Slot) (epochs : ℕ) (fits : epochs + 1 < 2 ^ 32) :
    Workload YcsbLog YcsbEntry where
  epochs := epochs
  fits := fits
  appends e := ycsbAppends cfg (inputs e)

/-- The entries below the index's counts. -/
def logsOf (g : GpuIndex) : ∀ l, List (YcsbEntry l)
  | .insert => (List.range g.index.freeStart).map g.log.insertKeys
  | .delete => (List.range g.deleteCount).map fun i => (g.log.deleteKeys i, g.log.deleteCrids i)

variable {cfg : Config} {g g' : GpuIndex} {j : Journal ℕ} {slots : List Slot}

theorem map_range_getD {β : Type} (xs : List β) (d : β) :
    (List.range xs.length).map (fun i => xs.getD i d) = xs := by
  refine List.ext_getElem (by simp) fun i h₁ h₂ => ?_
  rw [List.getElem_map, List.getElem_range, List.getD_eq_getElem _ _ h₂]

theorem logged_rebuilt (hg : Logged cfg g j) : Logged cfg
    (rebuildCucoFromShadow cfg (durableLog (arrays (logsOf g))) (logsOf g .insert).length
      (logsOf g .delete).length) j := by
  have hins : (List.range (logsOf g .insert).length).map (arrays (logsOf g) .insert) =
      logsOf g .insert := map_range_getD _ _
  have hdel : (List.range (logsOf g .delete).length).map (arrays (logsOf g) .delete) =
      logsOf g .delete := map_range_getD _ _
  have hmap : reconstruct cfg (durableLog (arrays (logsOf g))) (logsOf g .insert).length
      (logsOf g .delete).length = g.index.map := by
    rw [← hg.reconstruct, reconstruct, reconstruct, applyDeletes_eq, applyDeletes_eq,
      reconstructInserts_eq, reconstructInserts_eq]
    congr 1
    congr 1
  have hlen : (logsOf g .insert).length = g.index.freeStart := by simp [logsOf]
  refine ⟨hg.inv, hmap.trans hg.live, ?_, ?_, ?_, hg.ids, fun _ => rfl⟩
  · exact hg.minted.trans (congrArg _ hins.symm)
  · exact hg.ended.trans hdel.symm
  · have := hg.rows
    simp only [mintedBegin, rebuildCucoFromShadow, hlen] at this ⊢
    exact this

/-- The index of a run appends what the index rebuilt from its logs appends. -/
theorem logsOf_indexTxns (hg : Logged cfg g j) (hok : Ycsb.EpochOk cfg slots)
    (h : g.indexTxns cfg slots = .ok g') :
    logsOf g' = fun l => logsOf g l ++ ycsbAppends cfg slots (logsOf g) l := by
  obtain ⟨idx, out, hidx, rfl⟩ := indexTxns_ok h
  have hspec := indexTxns_spec hg.wf hok hidx
  have hr := logged_rebuilt hg
  set r := rebuildCucoFromShadow cfg (durableLog (arrays (logsOf g))) (logsOf g .insert).length
    (logsOf g .delete).length with hrdef
  have hfree : r.index.freeStart = g.index.freeStart := by simp [hrdef, rebuildCucoFromShadow, logsOf]
  have hmap : r.index.map = g.index.map := hr.live.trans hg.live.symm
  obtain ⟨⟨idx', out'⟩, hidx'⟩ := indexTxns_returns hr.wf hok (by rw [hfree]; exact hspec.rows)
  have hout : out' = out := by
    rw [(indexTxns_spec hr.wf hok hidx').out, hspec.out, hmap, mintedBegin, mintedBegin, hfree]
  have happ : ycsbAppends cfg slots (logsOf g) = fun
      | .insert => out.mintedKeys
      | .delete => out.edelKeys.zip out.edelCrids := by
    simp only [ycsbAppends, ← hrdef, hidx', hout]
  rw [happ]
  funext l
  cases l with
  | insert =>
    have hlen : idx.freeStart = g.index.freeStart + out.mintedKeys.length := by
      rw [hspec.freeStart, hspec.out]
      simp [serialOut]
    simp only [logsOf, mirrorEpochDeletes, mirrorEpoch, hlen, copyAt_range]
  | delete =>
    have hlen : out.edelCrids.length = out.edelKeys.length := by rw [hspec.out]; simp [serialOut]
    simp only [logsOf, mirrorEpochDeletes, mirrorEpoch]
    rw [← List.zip_map', copyAt_range, ← hlen, copyAt_range, List.zip_append (by simp), List.zip_map']

/-- The logs of the workload are those of the uninterrupted index. -/
theorem logs_eq_logsOf {inputs : ℕ → List Slot} {epochs : ℕ} {fits : epochs + 1 < 2 ^ 32}
    {log : DurableLog} {entryCrid : ℕ → ℕ} (hrows : cfg.startingNumRecords ≤ cfg.numRecords)
    (hids : cfg.numRecords ≤ Timeline.kAbsent) (hok : ∀ e, Ycsb.EpochOk cfg (inputs e)) :
    ∀ {e : ℕ} {g : GpuIndex},
      (GpuIndex.init cfg log entryCrid).run cfg ((List.range e).map fun i => inputs (i + 1)) = .ok g →
      (∃ j, Logged cfg g j) ∧ (ycsbWorkload cfg inputs epochs fits).logs e = logsOf g := by
  intro e
  induction e with
  | zero =>
    intro g h
    obtain rfl : GpuIndex.init cfg log entryCrid = g := by
      simpa [GpuIndex.run, pure, Except.pure] using h
    refine ⟨⟨_, logged_init hrows hids log entryCrid⟩, ?_⟩
    funext l
    cases l <;> rfl
  | succ e ih =>
    intro g h
    rw [List.range_succ, List.map_append, List.map_singleton, GpuIndex.run, List.foldlM_append] at h
    cases hpre : (GpuIndex.init cfg log entryCrid).run cfg
        ((List.range e).map fun i => inputs (i + 1)) with
    | error x =>
      rw [GpuIndex.run] at hpre
      rw [hpre] at h
      simp [bind, Except.bind] at h
    | ok g₁ =>
      obtain ⟨⟨j, hj⟩, hlogs⟩ := ih hpre
      rw [GpuIndex.run] at hpre
      rw [hpre] at h
      have hstep : g₁.indexTxns cfg (inputs (e + 1)) = .ok g := by
        cases h1 : g₁.indexTxns cfg (inputs (e + 1)) with
        | error x => simp [bind, Except.bind, h1] at h
        | ok g₂ => simpa [bind, Except.bind, pure, Except.pure, h1] using h
      refine ⟨⟨_, logged_step hj (hok _) hstep⟩, ?_⟩
      rw [logsOf_indexTxns hj (hok _) hstep, Workload.logs, hlogs]
      rfl

/-- An aligned YCSB marker `E`: the shadow reconstructed at its older cursors is the index at the
    end of epoch `E - 2`. -/
theorem Aligned.reconstruct {inputs : ℕ → List Slot} {epochs : ℕ} {fits : epochs + 1 < 2 ^ 32}
    {s : System YcsbCursor YcsbLog YcsbEntry} {log : DurableLog} {entryCrid : ℕ → ℕ} {e : ℕ}
    {bank : YcsbCursor → ℕ} (hrows : cfg.startingNumRecords ≤ cfg.numRecords)
    (hids : cfg.numRecords ≤ Timeline.kAbsent) (hok : ∀ e, Ycsb.EpochOk cfg (inputs e))
    (h : Aligned ycsbScheme (ycsbWorkload cfg inputs epochs fits) s)
    (hread : s.marker.file.read = some (e, bank))
    (hrun : (GpuIndex.init cfg log entryCrid).run cfg
      ((List.range (e - 2)).map fun i => inputs (i + 1)) = .ok g) :
    Ycsb.reconstruct cfg (durableLog s.log) (bank .freeStartP2) (bank .delP2) = g.index.map := by
  obtain ⟨⟨j, hj⟩, hlogs⟩ := logs_eq_logsOf hrows hids hok hrun
  obtain ⟨-, hcut⟩ := h e bank hread
  have hins := (hcut .insert).2.trans (congrFun hlogs .insert)
  have hdel := (hcut .delete).2.trans (congrFun hlogs .delete)
  rw [← hj.reconstruct, Ycsb.reconstruct, Ycsb.reconstruct, applyDeletes_eq, applyDeletes_eq,
    reconstructInserts_eq, reconstructInserts_eq]
  exact congrArg₂ (fun (d : List (ℕ × ℕ)) (i : List ℕ) => Journal.endAll Timeline.kAbsent
    (Journal.mintAll (loadInitialData cfg) cfg.startingNumRecords i) d) hdel hins

/-! ### A crash during a replay -/

/-- One insert in epoch 1. -/
def oneInsert : Workload YcsbLog YcsbEntry :=
  ycsbWorkload smallConfig (fun e => if e = 1 then [⟨.insert, 9, 0⟩] else []) 4 (by decide)

def blankLogs : ∀ l, ℕ → YcsbEntry l
  | .insert => fun _ => 0
  | .delete => fun _ => (0, 0)

/-- Epoch 1 before its publish store. -/
def insertEpoch : List Event :=
  [.start, .index, .logStore 0, .bump, .bankStore, .bankStore, .bankStore, .bankStore]

/-- Epoch 1 up to its published marker, a crash, and the replay of epoch 1. -/
def replayedInsert : List Event :=
  insertEpoch ++ .publish :: .crash :: insertEpoch ++ [.publish]

/-- A process dies after the marker of epoch 1, and the next one dies inside its replay. -/
theorem aligned_of_calm_crashes : ∃ s, CalmReach ycsbScheme oneInsert s ∧
    (s.marker.file.read.map fun r => (r.1, r.2 .freeStartP1, r.2 .freeStartP2)) = some (2, 1, 0) ∧
    Aligned ycsbScheme oneInsert s := by
  have hfirst : ((sysRun ycsbScheme oneInsert (.init blankLogs) insertEpoch).map fun s =>
      (s.marker.file.read.isNone, ((sysStep ycsbScheme oneInsert s .publish).bind fun s =>
        sysRun ycsbScheme oneInsert s (.crash :: insertEpoch ++ [.crash])).map fun s =>
          s.marker.file.read.map fun r => (r.1, r.2 .freeStartP1, r.2 .freeStartP2))) =
      some (true, some (some (2, 1, 0))) := by
    decide +kernel
  obtain ⟨s₁, hs₁, heq⟩ := Option.map_eq_some_iff.mp hfirst
  obtain ⟨hnone, hrest⟩ := Prod.mk.inj heq
  obtain ⟨s₃, hs₃, hread⟩ := Option.map_eq_some_iff.mp hrest
  obtain ⟨s₂, hs₂, hs₃⟩ := Option.bind_eq_some_iff.mp hs₃
  have hcalm : Calm oneInsert s₁ .publish := fun e count pc bank _ hr => by
    rw [hr] at hnone
    exact absurd hnone (by simp)
  have h₁ := (CalmReach.init blankLogs).run (by decide) hs₁
  have h₃ := (h₁.step hcalm hs₂).run (by decide) hs₃
  exact ⟨s₃, h₃, hread, aligned_of_calm h₃⟩

/-- The replay shifts the register of marker 2: its older cursor says one insert, where epoch 0 ended
    with none. -/
theorem replay_misaligned : ∃ s,
    sysRun ycsbScheme oneInsert (.init blankLogs) replayedInsert = some s ∧
    (s.marker.file.read.map fun r => (r.1, r.2 .freeStartP2)) = some (2, 1) ∧
    (oneInsert.logs 0 .insert).length = 0 ∧ ¬ Aligned ycsbScheme oneInsert s := by
  have hrun : ((sysRun ycsbScheme oneInsert (.init blankLogs) replayedInsert).map fun s =>
      s.marker.file.read.map fun r => (r.1, r.2 .freeStartP2)) = some (some (2, 1)) := by
    decide +kernel
  obtain ⟨s, hs, hread⟩ := Option.map_eq_some_iff.mp hrun
  refine ⟨s, hs, hread, rfl, fun hal => ?_⟩
  obtain ⟨⟨e, bank⟩, hr, heq⟩ := Option.map_eq_some_iff.mp hread
  obtain ⟨rfl, hp2⟩ := Prod.mk.inj heq
  have hlen : bank .freeStartP2 = 0 := ((hal _ _ hr).2 .insert).1
  exact absurd (hp2.symm.trans hlen) (by decide)

end

end Egad.Recovery
