import Mathlib.Data.Fintype.Basic
import Mathlib.Logic.Function.Basic
import Mathlib.Tactic.Common

/-! # The flush worker and the recovery marker

    At the end of epoch `e` the stagers retire the writeback of `e - 1`, the marker is advanced to
    `e + 1`, and the workers of the flush sets of `e` are started:

        sync_flush(e-1) ─► bumpRecoveryMarker(e+1) ─► submit workers(e) ─► epoch e+1 …
           joins                                        scatter, or throw

    A marker `E` tells recovery that everything up to epoch `E - 2` is in the primary store. A worker
    that throws catches its own exception and logs it; `sync_flush` only waits for the worker to
    stop, so a writeback that stopped half way is retired like one that finished. With a synchronous
    flush the exception leaves `runEpoch` and there is no later bump. -/

namespace Egad.Recovery.Writeback

variable {τ α : Type*}

/-- The worker of one stager. A worker that has thrown keeps what it had still to scatter. -/
inductive Worker (α : Type*) where
  | idle
  | running (todo : List α)
  | failed (left : List α)

/-- The main loop with the stagers `τ` (one for YCSB, eight for TPC-C). The flush sets and what of
    them has been scattered are kept for every epoch. -/
structure State (τ α : Type*) where
  epoch : ℕ
  bumped : Bool
  marker : ℕ
  worker : τ → Worker α
  dirty : ℕ → τ → List α
  scattered : ℕ → τ → List α

/-- Before epoch 1; a marker of 0 is one that was never published. -/
def State.initial : State τ α where
  epoch := 1
  bumped := false
  marker := 0
  worker := fun _ => .idle
  dirty := fun _ _ => []
  scattered := fun _ _ => []

inductive Action (τ α : Type*) where
  | bump
  | submit (sets : τ → List α)
  | scatter (t : τ)
  | throw (t : τ)

/-- What `sync_flush` waits for: the worker has stopped, for whatever reason. A synchronous flush
    that throws ends the run instead. -/
def Worker.retired (overlap : Bool) : Worker α → Bool
  | .idle => true
  | .running todo => todo.isEmpty
  | .failed _ => overlap

/-- `submit_flush_worker`: an empty flush set starts no worker. -/
def submitFlushWorker (set : List α) : Worker α := if set.isEmpty then .idle else .running set

section
variable [Fintype τ] [DecidableEq τ] (overlap : Bool)

def step (s : State τ α) : Action τ α → Option (State τ α)
  | .bump =>
    if s.bumped = false ∧ ∀ t, (s.worker t).retired overlap = true then
      some { s with bumped := true, marker := s.epoch + 1 }
    else none
  | .submit sets =>
    if s.bumped then
      some { s with
        epoch := s.epoch + 1
        bumped := false
        worker := fun t => submitFlushWorker (sets t)
        dirty := Function.update s.dirty s.epoch sets
        scattered := Function.update s.scattered s.epoch fun _ => [] }
    else none
  | .scatter t =>
    match s.worker t with
    | .running (x :: rest) =>
      let before := s.scattered (s.epoch - 1)
      some { s with
        worker := Function.update s.worker t (.running rest)
        scattered := Function.update s.scattered (s.epoch - 1)
          (Function.update before t (before t ++ [x])) }
    | _ => none
  | .throw t =>
    match s.worker t with
    | .running (x :: rest) => some { s with worker := Function.update s.worker t (.failed (x :: rest)) }
    | _ => none

def run : List (Action τ α) → State τ α → Option (State τ α)
  | [], s => some s
  | a :: as, s => (step overlap s a).bind (run as)

end

/-- The marker `E` promises that the flush sets of the epochs up to `E - 2` are in the store. -/
def Durable (s : State τ α) : Prop :=
  ∀ e, 1 ≤ e → e + 2 ≤ s.marker → ∀ t, s.scattered e t = s.dirty e t

/-- What a worker has still to scatter. -/
def Worker.todo : Worker α → List α
  | .idle => []
  | .running todo => todo
  | .failed left => left

/-- The main loop as long as no bump has passed over a failed worker. -/
structure Inv (s : State τ α) : Prop where
  epoch : 1 ≤ s.epoch
  marker : s.marker ≤ s.epoch + if s.bumped then 1 else 0
  older : ∀ e, e + 1 < s.epoch → ∀ t, s.scattered e t = s.dirty e t
  current : ∀ t, s.scattered (s.epoch - 1) t ++ (s.worker t).todo = s.dirty (s.epoch - 1) t
  drained : s.bumped = true → ∀ t, (s.worker t).todo = []
  left : ∀ t left, s.worker t = .failed left → left ≠ []
  origin : ∀ t, s.dirty 0 t = []

variable {overlap : Bool} {s s' : State τ α}

/-- After the bump the workers of the epoch before are done. -/
theorem Inv.retired (h : Inv s) (hb : s.bumped = true) {e : ℕ} (he : e < s.epoch) (t : τ) :
    s.scattered e t = s.dirty e t := by
  rcases Nat.lt_or_ge (e + 1) s.epoch with hlt | hge
  · exact h.older e hlt t
  · have heq : s.epoch - 1 = e := by omega
    have hcur := h.current t
    rwa [h.drained hb t, List.append_nil, heq] at hcur

theorem Inv.durable (h : Inv s) : Durable s := by
  intro e he hm t
  have hmark := h.marker
  cases hb : s.bumped with
  | false => exact h.older e (by simp [hb] at hmark; omega) t
  | true =>
    simp only [hb, if_true] at hmark
    exact h.retired hb (by omega) t

theorem inv_initial : Inv (State.initial : State τ α) where
  epoch := le_rfl
  marker := Nat.zero_le _
  older _ _ _ := rfl
  current _ := rfl
  drained h := by cases h
  left _ _ h := by cases h
  origin _ := rfl

theorem retired_todo {w : Worker α} (hr : w.retired overlap = true)
    (ha : overlap = true → ∀ left, w ≠ .failed left) : w.todo = [] := by
  cases w with
  | idle => rfl
  | running todo => exact List.isEmpty_iff.mp hr
  | failed left => exact absurd rfl (ha hr left)

theorem submit_todo (set : List α) : (submitFlushWorker set).todo = set := by
  cases set <;> rfl

section
variable [Fintype τ] [DecidableEq τ]

theorem inv_step {a : Action τ α} (h : Inv s) (hstep : step overlap s a = some s')
    (hok : overlap = true → a = .bump → ∀ t left, s.worker t ≠ .failed left) : Inv s' := by
  cases a with
  | bump =>
    rw [step] at hstep
    split at hstep
    · rename_i hc
      cases hstep
      exact ⟨h.epoch, le_rfl, h.older, h.current,
        fun _ t => retired_todo (hc.2 t) fun ho => hok ho rfl t, h.left, h.origin⟩
    · cases hstep
  | submit sets =>
    rw [step] at hstep
    split at hstep
    · rename_i hb
      cases hstep
      have hep := h.epoch
      refine ⟨Nat.le_add_left 1 _, ?_, fun e he t => ?_, fun t => ?_, fun hf => ?_,
        fun t left => ?_, fun t => ?_⟩
      · have := h.marker
        simpa [hb] using this
      · have hne : e ≠ s.epoch := by simp only at he; omega
        simp only [Function.update_of_ne hne]
        exact h.retired hb (by simp only at he; omega) t
      · simp [submit_todo]
      · cases hf
      · simp only [submitFlushWorker]
        split <;> simp
      · simp only [Function.update_of_ne (Nat.ne_of_lt hep)]
        exact h.origin t
    · cases hstep
  | scatter t =>
    rw [step] at hstep
    split at hstep
    · rename_i x rest hw
      cases hstep
      refine ⟨h.epoch, h.marker, fun e he u => ?_, fun u => ?_, fun hb u => ?_,
        fun u left => ?_, h.origin⟩
      · have hne : e ≠ s.epoch - 1 := by simp only at he; omega
        simp only [Function.update_of_ne hne]
        exact h.older e he u
      · have hcur := h.current u
        rcases eq_or_ne u t with rfl | hu
        · simp only [Function.update_self, Worker.todo, List.append_assoc, List.singleton_append]
          rwa [hw] at hcur
        · simpa [hu] using hcur
      · have := h.drained hb t
        rw [hw] at this
        cases this
      · rcases eq_or_ne u t with rfl | hu
        · simp
        · simpa [hu] using h.left u left
    · cases hstep
  | throw t =>
    rw [step] at hstep
    split at hstep
    · rename_i x rest hw
      cases hstep
      refine ⟨h.epoch, h.marker, h.older, fun u => ?_, fun hb u => ?_, fun u left => ?_,
        h.origin⟩
      · have hcur := h.current u
        rcases eq_or_ne u t with rfl | hu
        · rw [hw] at hcur
          simpa [Worker.todo] using hcur
        · simpa [hu] using hcur
      · have := h.drained hb t
        rw [hw] at this
        cases this
      · rcases eq_or_ne u t with rfl | hu
        · simp only [Function.update_self]
          intro heq
          cases heq
          exact List.cons_ne_nil _ _
        · simpa [hu] using h.left u left
    · cases hstep

/-- No bump of the run passes over an overlapped worker that has thrown. -/
def NoFailedBump (overlap : Bool) (as : List (Action τ α)) : Prop :=
  overlap = true → ∀ before after m, as = before ++ .bump :: after →
    run overlap before State.initial = some m → ∀ t left, m.worker t ≠ .failed left

theorem run_append (as : List (Action τ α)) : ∀ (bs : List (Action τ α)) (s : State τ α),
    run overlap (bs ++ as) s = (run overlap bs s).bind (run overlap as)
  | [], _ => rfl
  | b :: bs, s => by
    rw [List.cons_append, run, run, Option.bind_assoc]
    exact Option.bind_congr fun s' _ => run_append as bs s'

theorem run_concat {as : List (Action τ α)} {a : Action τ α}
    (hr : run overlap (as ++ [a]) State.initial = some s) :
    ∃ m, run overlap as State.initial = some m ∧ step overlap m a = some s := by
  rw [run_append] at hr
  obtain ⟨m, hm, hlast⟩ := Option.bind_eq_some_iff.mp hr
  obtain ⟨s₁, hstep, hnil⟩ := Option.bind_eq_some_iff.mp hlast
  cases hnil
  exact ⟨m, hm, hstep⟩

theorem NoFailedBump.of_append {as bs : List (Action τ α)} (h : NoFailedBump overlap (as ++ bs)) :
    NoFailedBump overlap as := by
  intro ho before after m heq
  exact h ho before (after ++ bs) m (by rw [heq, List.append_assoc, List.cons_append])

/-- The last bump is over a worker that has not failed; the ones before it are covered. -/
theorem NoFailedBump.concat {as : List (Action τ α)} {a : Action τ α} (h : NoFailedBump overlap as)
    (hlast : overlap = true → a = .bump → ∀ m, run overlap as State.initial = some m →
      ∀ t left, m.worker t ≠ .failed left) : NoFailedBump overlap (as ++ [a]) := by
  intro ho before after m heq
  rcases List.eq_nil_or_concat after with rfl | ⟨after, b, rfl⟩
  · obtain ⟨rfl, hb⟩ := List.append_inj' heq rfl
    cases hb
    exact hlast ho rfl m
  · rw [List.concat_eq_append, ← List.cons_append, ← List.append_assoc] at heq
    exact h ho before after m (List.append_inj' heq rfl).1

theorem inv_run {as : List (Action τ α)} (hok : NoFailedBump overlap as)
    (hr : run overlap as State.initial = some s) : Inv s := by
  induction as using List.reverseRecOn generalizing s with
  | nil =>
    cases hr
    exact inv_initial
  | append_singleton as a ih =>
    obtain ⟨m, hm, hstep⟩ := run_concat hr
    refine inv_step (ih hok.of_append hm) hstep fun ho ha => ?_
    subst ha
    exact hok ho as [] m rfl hm

/-- A bump over a failed worker breaks the promise. -/
theorem not_durable_of_failed (h : Inv s) {t : τ} {left : List α} (hf : s.worker t = .failed left)
    (hstep : step overlap s .bump = some s') : ¬ Durable s' := by
  intro hd
  rw [step] at hstep
  split at hstep
  · cases hstep
    have hcur := h.current t
    rw [hf] at hcur
    rcases Nat.lt_or_ge 1 s.epoch with hlt | hle
    · have heq := hd (s.epoch - 1) (by omega) (by simp only; omega) t
      rw [← hcur] at heq
      exact h.left t left hf (List.self_eq_append_right.mp heq)
    · rw [show s.epoch - 1 = 0 by omega, h.origin t] at hcur
      exact h.left t left hf (List.append_eq_nil_iff.mp hcur).2
  · cases hstep

/-- The promise in every state of a run excludes a bump over a failed worker: the first such bump
    would be a step from a state with the invariant. -/
theorem noFailedBump_of_durable {as : List (Action τ α)}
    (hr : run overlap as State.initial = some s)
    (hall : ∀ before after m, as = before ++ after → run overlap before State.initial = some m →
      Durable m) : NoFailedBump overlap as := by
  induction as using List.reverseRecOn generalizing s with
  | nil => exact fun _ before after _ heq => absurd heq.symm (by simp)
  | append_singleton as a ih =>
    obtain ⟨m, hm, hstep⟩ := run_concat hr
    have hok : NoFailedBump overlap as := ih hm fun before after m' heq =>
      hall before (after ++ [a]) m' (by rw [heq, List.append_assoc])
    refine hok.concat fun _ ha m' hm' t left hf => ?_
    subst ha
    cases hm.symm.trans hm'
    exact not_durable_of_failed (inv_run hok hm) hf hstep (hall _ [] s (by simp) hr)

/-- A run keeps the promise of its marker in every state it reaches exactly when no bump of it passes
    over an overlapped worker that has thrown; with a synchronous flush every run does. -/
theorem marker_durable {as : List (Action τ α)} {s : State τ α}
    (hr : run overlap as State.initial = some s) :
    (∀ before after m, as = before ++ after → run overlap before State.initial = some m →
      Durable m) ↔ NoFailedBump overlap as := by
  constructor
  · exact noFailedBump_of_durable hr
  · intro hok before after m heq hm
    exact (inv_run (heq ▸ hok).of_append hm).durable

end

/-- Two epochs of one stager. The worker of epoch 2 throws, and the run ends before a bump over it. -/
theorem marker_durable_two_epochs :
    let as : List (Action Unit ℕ) :=
      [.bump, .submit fun _ => [7], .scatter (), .bump, .submit fun _ => [9], .throw ()]
    (run true as State.initial).map State.marker = some 3 ∧
      ∀ before after m, as = before ++ after → run true before State.initial = some m →
        Durable m := by
  intro as
  refine ⟨rfl, (marker_durable (s := ?_) ?_).mpr fun _ before after m heq hm t left => ?_⟩
  · exact (run true as State.initial).get rfl
  · rfl
  · -- the bumps of the run are its first and its fourth step
    simp [as, List.cons_eq_append_iff] at heq
    rcases heq with ⟨rfl, -⟩ | ⟨rfl, -⟩ <;> cases hm <;> simp [State.initial]

/-- The worker of epoch 1 throws before its only record is scattered; epoch 2 still advances the
    marker to 3, which says that epoch 1 is in the store. -/
theorem marker_not_durable : ¬ ∀ (as : List (Action Unit ℕ)) (s : State Unit ℕ),
    run true as State.initial = some s → Durable s := by
  intro hall
  have h := hall [.bump, .submit fun _ => [7], .throw (), .bump] _ rfl 1 le_rfl le_rfl ()
  cases h

end Egad.Recovery.Writeback
