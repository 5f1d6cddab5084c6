import Mathlib.Logic.Function.Basic
import Mathlib.Data.List.Nodup
import Mathlib.Algebra.Order.BigOperators.Group.Finset
import Mathlib.Tactic.Common

/-! # Claiming output positions through a shared counter

    Many threads scan disjoint lists of items. A thread that meets a candidate takes the next output
    position from a shared counter; a position below the demand `d` is written, a later one is
    dropped, and a thread that sees the counter at the demand stops:

        entry ──► loop ──► inspect ──► claim ──► write
                   ▲ │        │          │         │
                   │ ▼        │          │         │
                   │ stop     │          │         │
                   └──────────┴──────────┴─────────┘

    Every arrow is one atomic step, and the steps of different threads interleave freely. Writing an
    item may also change the memory that decides what is a candidate, but only for that item. -/

namespace Egad.Lib.Claim

variable {ι σ α : Type*}

/-- What a pass looks for, what it writes out and what it changes in memory when it does. -/
structure Pass (ι σ α : Type*) where
  cand : σ → ι → Bool
  emit : σ → ι → α
  mark : σ → ι → σ

/-- Marking one item leaves the candidacy and the output of every other item alone. -/
structure Pass.Local (p : Pass ι σ α) : Prop where
  cand_mark : ∀ m {i j : ι}, i ≠ j → p.cand (p.mark m j) i = p.cand m i
  emit_mark : ∀ m {i j : ι}, i ≠ j → p.emit (p.mark m j) i = p.emit m i

inductive Phase (ι α : Type*) where
  | entry (todo : List ι)
  | loop (todo : List ι)
  | inspect (i : ι) (todo : List ι)
  | claim (i : ι) (a : α) (todo : List ι)
  | write (i : ι) (a : α) (pos : ℕ) (todo : List ι)

/-- The items a thread has not claimed yet. -/
def Phase.items : Phase ι α → List ι
  | .entry todo => todo
  | .loop todo => todo
  | .inspect i todo => i :: todo
  | .claim i _ todo => i :: todo
  | .write _ _ _ todo => todo

structure State (ι σ α : Type*) where
  threads : ℕ → Phase ι α
  count : ℕ
  out : ℕ → Option α
  mem : σ

def State.move (s : State ι σ α) (t : ℕ) (ph : Phase ι α) : State ι σ α :=
  { s with threads := Function.update s.threads t ph }

/-- One atomic step of thread `t`. -/
def step (p : Pass ι σ α) (d t : ℕ) (s : State ι σ α) : Option (State ι σ α) :=
  match s.threads t with
  | .entry todo => some (s.move t (if d ≤ s.count then .loop [] else .loop todo))
  | .loop [] => none
  | .loop (i :: todo) => some (s.move t (if d ≤ s.count then .loop [] else .inspect i todo))
  | .inspect i todo =>
    some (s.move t (if p.cand s.mem i then .claim i (p.emit s.mem i) todo else .loop todo))
  | .claim i a todo =>
    some { s.move t (if s.count < d then .write i a s.count todo else .loop todo) with
      count := s.count + 1 }
  | .write i a pos todo =>
    some { s.move t (.loop todo) with
      out := Function.update s.out pos (some a), mem := p.mark s.mem i }

/-- The run of a schedule, a list of the threads that step. -/
def run (p : Pass ι σ α) (d : ℕ) : List ℕ → State ι σ α → Option (State ι σ α)
  | [], s => some s
  | t :: ts, s => (step p d t s).bind (run p d ts)

def State.Finished (s : State ι σ α) : Prop := ∀ t, s.threads t = .loop []

/-- The state in which a pass of `n` threads starts: each at its entry with its own list of items. -/
def start (n : ℕ) (todo : ℕ → List ι) (count : ℕ) (out : ℕ → Option α) (mem : σ) : State ι σ α :=
  ⟨fun t => if t < n then .entry (todo t) else .loop [], count, out, mem⟩

/-- The lists of items of different threads are disjoint, and none repeats an item. -/
structure Disjoint (todo : ℕ → List ι) : Prop where
  nodup : ∀ t, (todo t).Nodup
  apart : ∀ {t u : ℕ} {i : ι}, i ∈ todo t → i ∈ todo u → t = u

section
variable (p : Pass ι σ α) (d n : ℕ) (todo : ℕ → List ι) (c₀ : ℕ) (out₀ : ℕ → Option α) (m₀ : σ)

/-- What holds throughout a pass, with `log` the items in the order of their claims. -/
structure Inv (log : List ι) (s : State ι σ α) : Prop where
  count : s.count = c₀ + log.length
  nodup : log.Nodup
  cand : ∀ i ∈ log, p.cand m₀ i = true ∧ ∃ t, i ∈ todo t
  pending : ∀ t, ((s.threads t).items).Sublist (todo t)
  fresh : ∀ t, ∀ i ∈ (s.threads t).items, i ∉ log
  claiming : ∀ {t i a rest}, s.threads t = .claim i a rest → p.cand m₀ i = true ∧ a = p.emit m₀ i
  writing : ∀ {t i a pos rest}, s.threads t = .write i a pos rest →
    a = p.emit m₀ i ∧ pos < d ∧ ∃ k, log[k]? = some i ∧ pos = c₀ + k
  written : ∃ W : List ι, s.mem = W.foldl p.mark m₀ ∧
    (∀ i ∈ W, ∃ k : ℕ, log[k]? = some i ∧ c₀ + k < d) ∧
    ∀ (k : ℕ) (i : ι), log[k]? = some i → c₀ + k < d →
      (i ∈ W ∧ s.out (c₀ + k) = some (p.emit m₀ i)) ∨
        ∃ t a rest, s.threads t = .write i a (c₀ + k) rest
  frame : ∀ j, j < c₀ ∨ s.count ≤ j ∨ d ≤ j → s.out j = out₀ j
  missed : s.count < d → ∀ t < n, ∀ i ∈ todo t, p.cand m₀ i = true →
    i ∈ log ∨ i ∈ (s.threads t).items

variable {p d n todo c₀ out₀ m₀} {s : State ι σ α} {log : List ι}

theorem inv_start : Inv p d n todo c₀ out₀ m₀ [] (start n todo c₀ out₀ m₀) where
  count := rfl
  nodup := List.nodup_nil
  cand := by simp
  pending := fun t => by
    simp only [start]
    split
    · exact List.Sublist.refl _
    · exact List.nil_sublist _
  fresh := by simp
  claiming := fun {t i a rest} h => by
    simp only [start] at h
    split at h <;> cases h
  writing := fun {t i a pos rest} h => by
    simp only [start] at h
    split at h <;> cases h
  written := ⟨[], rfl, by simp, by simp⟩
  frame := fun _ _ => rfl
  missed := fun _ t ht i hi _ => Or.inr (by simpa [start, ht, Phase.items] using hi)

theorem Pass.Local.foldl_mark (hl : p.Local) {i : ι} : ∀ (W : List ι) (m : σ), i ∉ W →
    p.cand (W.foldl p.mark m) i = p.cand m i ∧ p.emit (W.foldl p.mark m) i = p.emit m i
  | [], _, _ => ⟨rfl, rfl⟩
  | j :: W, m, hi => by
    rw [List.mem_cons, not_or] at hi
    obtain ⟨hc, he⟩ := hl.foldl_mark W (p.mark m j) hi.2
    rw [List.foldl_cons, hc, he]
    exact ⟨hl.cand_mark m hi.1, hl.emit_mark m hi.1⟩

/-- An item nobody has claimed looks as it did at the start. -/
theorem Inv.unclaimed (h : Inv p d n todo c₀ out₀ m₀ log s) (hl : p.Local) {i : ι} (hi : i ∉ log) :
    p.cand s.mem i = p.cand m₀ i ∧ p.emit s.mem i = p.emit m₀ i := by
  obtain ⟨W, hm, hW, -⟩ := h.written
  rw [hm]
  refine hl.foldl_mark W m₀ fun hiW => ?_
  obtain ⟨k, hk, -⟩ := hW i hiW
  exact hi (List.mem_of_getElem? hk)

/-- A thread that neither claims nor writes, and drops an item only if it is no candidate or the
    demand is met. -/
theorem Inv.move (h : Inv p d n todo c₀ out₀ m₀ log s) {t : ℕ} {ph : Phase ι α}
    (hs : ph.items.Sublist (s.threads t).items)
    (hw : ∀ i a pos rest, s.threads t ≠ .write i a pos rest)
    (hw' : ∀ i a pos rest, ph ≠ .write i a pos rest)
    (hc : ∀ i a rest, ph = .claim i a rest → p.cand m₀ i = true ∧ a = p.emit m₀ i)
    (hd : s.count < d → ∀ i ∈ (s.threads t).items, p.cand m₀ i = true → i ∈ ph.items) :
    Inv p d n todo c₀ out₀ m₀ log (s.move t ph) where
  count := h.count
  nodup := h.nodup
  cand := h.cand
  pending u := by
    rcases eq_or_ne u t with rfl | hu
    · simpa [State.move] using hs.trans (h.pending u)
    · simpa [State.move, hu] using h.pending u
  fresh u i hi := by
    rcases eq_or_ne u t with rfl | hu
    · exact h.fresh u i (hs.subset (by simpa [State.move] using hi))
    · exact h.fresh u i (by simpa [State.move, hu] using hi)
  claiming {u i a rest} hu := by
    rcases eq_or_ne u t with rfl | hne
    · exact hc i a rest (by simpa [State.move] using hu)
    · exact h.claiming (by simpa [State.move, hne] using hu)
  writing {u i a pos rest} hu := by
    rcases eq_or_ne u t with rfl | hne
    · exact absurd (by simpa [State.move] using hu) (hw' i a pos rest)
    · exact h.writing (by simpa [State.move, hne] using hu)
  written := by
    obtain ⟨W, hm, hW, hk⟩ := h.written
    refine ⟨W, hm, hW, fun k i hki hlt => (hk k i hki hlt).imp_right ?_⟩
    rintro ⟨u, a, rest, hu⟩
    have hne : u ≠ t := fun e => hw i a _ rest (e ▸ hu)
    exact ⟨u, a, rest, by simpa [State.move, hne] using hu⟩
  frame := h.frame
  missed hlt u hu i hi hci := by
    refine (h.missed hlt u hu i hi hci).imp_right fun hp => ?_
    rcases eq_or_ne u t with rfl | hu
    · simpa [State.move] using hd hlt i hp hci
    · simpa [State.move, hu] using hp

/-- A claim logs the item; below the demand the thread goes on to write it. -/
theorem Inv.claim (h : Inv p d n todo c₀ out₀ m₀ log s) (hdj : Disjoint todo) {t : ℕ} {i : ι} {a : α}
    {rest : List ι} (ht : s.threads t = .claim i a rest) :
    Inv p d n todo c₀ out₀ m₀ (log ++ [i])
      { s.move t (if s.count < d then .write i a s.count rest else .loop rest) with
        count := s.count + 1 } := by
  obtain ⟨hci, rfl⟩ := h.claiming ht
  have hpend : (i :: rest).Sublist (todo t) := by simpa [ht, Phase.items] using h.pending t
  have hit : i ∈ todo t := hpend.subset (List.mem_cons_self ..)
  have hi : i ∉ log := h.fresh t i (by simp [ht, Phase.items])
  have hnd : i ∉ rest := (List.nodup_cons.mp (hpend.nodup (hdj.nodup t))).1
  have hitems : ∀ b : α, (if s.count < d then Phase.write i b s.count rest
      else Phase.loop rest).items = rest := by
    intro b
    split <;> rfl
  have hlog : ∀ {k : ℕ} {j : ι}, (log ++ [i])[k]? = some j →
      log[k]? = some j ∨ (k = log.length ∧ j = i) := by
    intro k j hk
    rcases Nat.lt_trichotomy k log.length with hlt | rfl | hlt
    · exact Or.inl (by rwa [List.getElem?_append_left hlt] at hk)
    · exact Or.inr ⟨rfl, by simpa using hk.symm⟩
    · rw [List.getElem?_eq_none (by simp; omega)] at hk
      cases hk
  refine ⟨?_, ?_, ?_, ?_, ?_, ?_, ?_, ?_, ?_, ?_⟩
  · simp [h.count]; omega
  · exact List.nodup_append'.mpr ⟨h.nodup, List.nodup_singleton i, by simpa using hi⟩
  · intro j hj
    rcases List.mem_append.mp hj with hj | hj
    · exact h.cand j hj
    · obtain rfl := List.mem_singleton.mp hj
      exact ⟨hci, t, hit⟩
  · intro u
    rcases eq_or_ne u t with rfl | hu
    · simpa [State.move, hitems] using (List.sublist_cons_self i rest).trans hpend
    · simpa [State.move, hu] using h.pending u
  · -- a pending item of another thread differs from `i` because the lists are disjoint
    intro u j hj hmem
    rcases eq_or_ne u t with rfl | hu
    · have hj' : j ∈ rest := by simpa [State.move, hitems] using hj
      rcases List.mem_append.mp hmem with hm | hm
      · exact h.fresh u j (by simp [ht, Phase.items, hj']) hm
      · exact hnd (List.mem_singleton.mp hm ▸ hj')
    · have hj' : j ∈ (s.threads u).items := by simpa [State.move, hu] using hj
      rcases List.mem_append.mp hmem with hm | hm
      · exact h.fresh u j hj' hm
      · have hju : i ∈ todo u := (h.pending u).subset (List.mem_singleton.mp hm ▸ hj')
        exact hu (hdj.apart hju hit)
  · intro u j b r hu
    rcases eq_or_ne u t with rfl | hne
    · exfalso
      simp only [State.move, Function.update_self] at hu
      split at hu <;> cases hu
    · exact h.claiming (by simpa [State.move, hne] using hu)
  · intro u j b pos r hu
    rcases eq_or_ne u t with rfl | hne
    · simp only [State.move, Function.update_self] at hu
      split at hu
      · cases hu
        exact ⟨rfl, ‹_›, log.length, by simp, h.count⟩
      · cases hu
    · obtain ⟨hb, hlt, k, hk, rfl⟩ := h.writing (by simpa [State.move, hne] using hu)
      exact ⟨hb, hlt, k, List.getElem?_append_left (List.getElem?_eq_some_iff.mp hk).1 ▸ hk, rfl⟩
  · obtain ⟨W, hm, hW, hk⟩ := h.written
    refine ⟨W, hm, fun j hj => ?_, fun k j hkj hlt => ?_⟩
    · obtain ⟨k, hk, hlt⟩ := hW j hj
      exact ⟨k, List.getElem?_append_left (List.getElem?_eq_some_iff.mp hk).1 ▸ hk, hlt⟩
    · rcases hlog hkj with hkj | ⟨rfl, rfl⟩
      · refine (hk k j hkj hlt).imp_right ?_
        rintro ⟨u, b, r, hu⟩
        have hne : u ≠ t := fun e => by simp [e, ht] at hu
        exact ⟨u, b, r, by simpa [State.move, hne] using hu⟩
      · refine Or.inr ⟨t, p.emit m₀ j, rest, ?_⟩
        simp [State.move, h.count, hlt]
  · intro j hj
    refine h.frame j ?_
    rcases hj with hj | hj | hj
    · exact Or.inl hj
    · exact Or.inr (Or.inl (by simp only at hj; omega))
    · exact Or.inr (Or.inr hj)
  · intro hlt u hu j hj hcj
    simp only at hlt
    rcases h.missed (by omega) u hu j hj hcj with hm | hm
    · exact Or.inl (List.mem_append_left _ hm)
    · rcases eq_or_ne u t with rfl | hu
      · rw [ht, Phase.items, List.mem_cons] at hm
        rcases hm with rfl | hm
        · exact Or.inl (by simp)
        · exact Or.inr (by simpa [State.move, hitems] using hm)
      · exact Or.inr (by simpa [State.move, hu] using hm)

theorem Inv.write (h : Inv p d n todo c₀ out₀ m₀ log s) {t : ℕ} {i : ι} {a : α} {pos : ℕ}
    {rest : List ι} (ht : s.threads t = .write i a pos rest) :
    Inv p d n todo c₀ out₀ m₀ log
      { s.move t (.loop rest) with
        out := Function.update s.out pos (some a), mem := p.mark s.mem i } := by
  obtain ⟨rfl, hpos, k, hk, rfl⟩ := h.writing ht
  have hklt : k < log.length := (List.getElem?_eq_some_iff.mp hk).1
  refine ⟨h.count, h.nodup, h.cand, ?_, ?_, ?_, ?_, ?_, ?_, ?_⟩
  · intro u
    rcases eq_or_ne u t with rfl | hu
    · simpa [State.move, Phase.items, ht] using h.pending u
    · simpa [State.move, hu] using h.pending u
  · intro u j hj
    rcases eq_or_ne u t with rfl | hu
    · exact h.fresh u j (by simpa [State.move, Phase.items, ht] using hj)
    · exact h.fresh u j (by simpa [State.move, hu] using hj)
  · intro u j b r hu
    rcases eq_or_ne u t with rfl | hne
    · simp [State.move] at hu
    · exact h.claiming (by simpa [State.move, hne] using hu)
  · intro u j b pos r hu
    rcases eq_or_ne u t with rfl | hne
    · simp [State.move] at hu
    · exact h.writing (by simpa [State.move, hne] using hu)
  · obtain ⟨W, hm, hW, hall⟩ := h.written
    refine ⟨W ++ [i], by simp [hm], fun j hj => ?_, fun l j hlj hlt => ?_⟩
    · rcases List.mem_append.mp hj with hj | hj
      · exact hW j hj
      · exact ⟨k, List.mem_singleton.mp hj ▸ hk, hpos⟩
    · rcases eq_or_ne l k with rfl | hlk
      · rw [hk] at hlj
        cases hlj
        exact Or.inl ⟨by simp, by simp⟩
      · have hne : c₀ + l ≠ c₀ + k := by omega
        rcases hall l j hlj hlt with ⟨hjW, hout⟩ | ⟨u, b, r, hu⟩
        · exact Or.inl ⟨List.mem_append_left _ hjW, by rw [← hout]; exact Function.update_of_ne hne _ _⟩
        · refine Or.inr ⟨u, b, r, ?_⟩
          have hut : u ≠ t := by
            rintro rfl
            rw [ht] at hu
            injection hu with _ _ hpos' _
            exact hne hpos'.symm
          simpa [State.move, hut] using hu
  · intro j hj
    have hjk : j ≠ c₀ + k := by
      have hc := h.count
      have hj' : j < c₀ ∨ s.count ≤ j ∨ d ≤ j := hj
      omega
    simpa [hjk] using h.frame j hj
  · intro hlt u hu j hj hcj
    refine (h.missed hlt u hu j hj hcj).imp_right fun hm => ?_
    rcases eq_or_ne u t with rfl | hu
    · simpa [State.move, Phase.items, ht] using hm
    · simpa [State.move, hu] using hm

theorem inv_step (hl : p.Local) (hdj : Disjoint todo) {t : ℕ} {s' : State ι σ α}
    (h : Inv p d n todo c₀ out₀ m₀ log s) (hstep : step p d t s = some s') :
    ∃ log', Inv p d n todo c₀ out₀ m₀ log' s' := by
  rw [step] at hstep
  cases ht : s.threads t with
  | entry rest =>
    rw [ht] at hstep
    cases hstep
    rcases Nat.lt_or_ge s.count d with hlt | hge
    · rw [if_neg (Nat.not_le.mpr hlt)]
      exact ⟨log, h.move (by simp [ht, Phase.items]) (by simp [ht]) (by simp) (by simp)
        fun _ j hj _ => by simpa [ht, Phase.items] using hj⟩
    · rw [if_pos hge]
      exact ⟨log, h.move (by simp [Phase.items]) (by simp [ht]) (by simp) (by simp)
        fun hlt => absurd hlt (Nat.not_lt.mpr hge)⟩
  | loop rest =>
    rw [ht] at hstep
    cases rest with
    | nil => cases hstep
    | cons i rest =>
      cases hstep
      rcases Nat.lt_or_ge s.count d with hlt | hge
      · rw [if_neg (Nat.not_le.mpr hlt)]
        exact ⟨log, h.move (by simp [ht, Phase.items]) (by simp [ht]) (by simp) (by simp)
          fun _ j hj _ => by simpa [ht, Phase.items] using hj⟩
      · rw [if_pos hge]
        exact ⟨log, h.move (by simp [Phase.items]) (by simp [ht]) (by simp) (by simp)
          fun hlt => absurd hlt (Nat.not_lt.mpr hge)⟩
  | inspect i rest =>
    rw [ht] at hstep
    cases hstep
    have hi : i ∉ log := h.fresh t i (by simp [ht, Phase.items])
    obtain ⟨hc, he⟩ := h.unclaimed hl hi
    rw [hc, he]
    cases hci : p.cand m₀ i with
    | true =>
      exact ⟨log, h.move (by simp [ht, Phase.items]) (by simp [ht]) (by simp) (by simp [← hci])
        fun _ j hj _ => by simpa [ht, Phase.items] using hj⟩
    | false =>
      refine ⟨log, h.move (by simp [ht, Phase.items]) (by simp [ht]) (by simp) (by simp) ?_⟩
      intro _ j hj hcj
      rw [ht, Phase.items, List.mem_cons] at hj
      rcases hj with rfl | hj
      · rw [hci] at hcj
        cases hcj
      · exact hj
  | claim i a rest =>
    rw [ht] at hstep
    cases hstep
    exact ⟨log ++ [i], h.claim hdj ht⟩
  | write i a pos rest =>
    rw [ht] at hstep
    cases hstep
    exact ⟨log, h.write ht⟩

theorem inv_run (hl : p.Local) (hdj : Disjoint todo) : ∀ (ts : List ℕ) {s s' : State ι σ α}
    {log : List ι}, Inv p d n todo c₀ out₀ m₀ log s → run p d ts s = some s' →
    ∃ log', Inv p d n todo c₀ out₀ m₀ log' s'
  | [], _, _, log, h, hr => by
    cases hr
    exact ⟨log, h⟩
  | t :: ts, s, _, _, h, hr => by
    obtain ⟨s₁, hstep, hr⟩ := Option.bind_eq_some_iff.mp hr
    obtain ⟨log₁, h₁⟩ := inv_step hl hdj h hstep
    exact inv_run hl hdj ts h₁ hr

/-! ### What a finished pass has done -/

variable (p d n todo c₀ out₀ m₀) in
/-- The result of a pass, with `log` the items in the order of their claims. -/
structure Collected (log : List ι) (s : State ι σ α) : Prop where
  count : s.count = c₀ + log.length
  nodup : log.Nodup
  cand : ∀ i ∈ log, p.cand m₀ i = true ∧ ∃ t, i ∈ todo t
  filled : ∀ (k : ℕ) (i : ι), log[k]? = some i → c₀ + k < d →
    s.out (c₀ + k) = some (p.emit m₀ i)
  frame : ∀ j, j < c₀ ∨ s.count ≤ j ∨ d ≤ j → s.out j = out₀ j
  complete : s.count < d → ∀ t < n, ∀ i ∈ todo t, p.cand m₀ i = true → i ∈ log
  marked : ∃ W : List ι, s.mem = W.foldl p.mark m₀ ∧
    ∀ i, i ∈ W ↔ ∃ k : ℕ, log[k]? = some i ∧ c₀ + k < d

theorem collected (hl : p.Local) (hdj : Disjoint todo) {ts : List ℕ} {s : State ι σ α}
    (hr : run p d ts (start n todo c₀ out₀ m₀) = some s) (hf : s.Finished) :
    ∃ log, Collected p d n todo c₀ out₀ m₀ log s := by
  obtain ⟨log, h⟩ := inv_run hl hdj ts inv_start hr
  obtain ⟨W, hm, hW, hall⟩ := h.written
  have hdone : ∀ (k : ℕ) (i : ι), log[k]? = some i → c₀ + k < d →
      i ∈ W ∧ s.out (c₀ + k) = some (p.emit m₀ i) := by
    intro k i hk hlt
    rcases hall k i hk hlt with h | ⟨t, a, rest, ht⟩
    · exact h
    · rw [hf t] at ht
      cases ht
  refine ⟨log, h.count, h.nodup, h.cand, fun k i hk hlt => (hdone k i hk hlt).2, h.frame, ?_,
    W, hm, fun i => ⟨hW i, fun ⟨k, hk, hlt⟩ => (hdone k i hk hlt).1⟩⟩
  intro hlt t ht i hi hci
  rcases h.missed hlt t ht i hi hci with hlog | hp
  · exact hlog
  · rw [hf t] at hp
    cases hp

/-! ### Every pass finishes -/

/-- A bound on the steps a thread has left. -/
def Phase.weight : Phase ι α → ℕ
  | .entry todo => 4 * todo.length + 1
  | .loop todo => 4 * todo.length
  | .inspect _ todo => 4 * todo.length + 3
  | .claim _ _ todo => 4 * todo.length + 2
  | .write _ _ _ todo => 4 * todo.length + 1

def State.weight (n : ℕ) (s : State ι σ α) : ℕ := ∑ t ∈ Finset.range n, (s.threads t).weight

theorem step_isSome_iff {t : ℕ} : (step p d t s).isSome ↔ s.threads t ≠ .loop [] := by
  rw [step]
  split <;> simp_all

/-- A step takes one thread on and lowers the bound on the steps it has left. -/
theorem step_threads {t : ℕ} {s' : State ι σ α} (h : step p d t s = some s') :
    ∃ ph : Phase ι α, s'.threads = Function.update s.threads t ph ∧
      ph.weight < (s.threads t).weight := by
  rw [step] at h
  cases ht : s.threads t with
  | loop rest =>
    rw [ht] at h
    cases rest with
    | nil => cases h
    | cons i rest =>
      cases h
      refine ⟨_, rfl, ?_⟩
      split
      · simp [Phase.weight]
      · simp [Phase.weight]; omega
  | _ =>
    rw [ht] at h
    cases h
    refine ⟨_, rfl, ?_⟩
    first
    | split <;> simp [Phase.weight]
    | simp [Phase.weight]
    try omega

/-- Threads from `n` on have nothing to do, so only those below `n` step. -/
theorem run_weight {n : ℕ} : ∀ (ts : List ℕ) {s s' : State ι σ α},
    (∀ t, n ≤ t → s.threads t = .loop []) → run p d ts s = some s' →
    s'.weight n + ts.length ≤ s.weight n ∧ ∀ t, n ≤ t → s'.threads t = .loop []
  | [], _, _, hn, hr => by
    cases hr
    exact ⟨le_rfl, hn⟩
  | t :: ts, s, s', hn, hr => by
    obtain ⟨s₁, hstep, hr⟩ := Option.bind_eq_some_iff.mp hr
    have ht : s.threads t ≠ .loop [] := step_isSome_iff.mp (by rw [hstep]; rfl)
    have htn : t < n := Nat.lt_of_not_le fun hle => ht (hn t hle)
    obtain ⟨ph, hthreads, hlt⟩ := step_threads hstep
    have hn₁ : ∀ u, n ≤ u → s₁.threads u = .loop [] := by
      intro u hu
      rw [hthreads, Function.update_of_ne (by omega)]
      exact hn u hu
    have hw : s₁.weight n < s.weight n := by
      refine Finset.sum_lt_sum (fun u _ => ?_) ⟨t, Finset.mem_range.mpr htn, ?_⟩
      · rw [hthreads]
        rcases eq_or_ne u t with rfl | hu
        · simpa using hlt.le
        · simp [hu]
      · simpa [hthreads] using hlt
    obtain ⟨hle, hn'⟩ := run_weight ts hn₁ hr
    exact ⟨by simp only [List.length_cons]; omega, hn'⟩

variable (p d) in
theorem exists_not_done (h : ¬ s.Finished) : ∃ t, (step p d t s).isSome := by
  obtain ⟨t, ht⟩ := not_forall.mp h
  exact ⟨t, step_isSome_iff.mpr ht⟩

/-- Whatever has been scheduled so far, the pass can be run to its end. -/
theorem exists_finish {n : ℕ} : ∀ (w : ℕ) {s : State ι σ α}, s.weight n ≤ w →
    (∀ t, n ≤ t → s.threads t = .loop []) →
    ∃ ts s', run p d ts s = some s' ∧ s'.Finished := by
  intro w
  induction w with
  | zero =>
    intro s hw hn
    refine ⟨[], s, rfl, ?_⟩
    by_contra hf
    obtain ⟨t, ht⟩ := exists_not_done p d hf
    obtain ⟨s₁, hstep⟩ := Option.isSome_iff_exists.mp ht
    have hr : run p d [t] s = some s₁ := by simp [run, hstep]
    have := (run_weight [t] hn hr).1
    simp only [List.length_cons, List.length_nil] at this
    omega
  | succ w ih =>
    intro s hw hn
    rcases Classical.em s.Finished with hf | hf
    · exact ⟨[], s, rfl, hf⟩
    · obtain ⟨t, ht⟩ := exists_not_done p d hf
      obtain ⟨s₁, hstep⟩ := Option.isSome_iff_exists.mp ht
      have hr : run p d [t] s = some s₁ := by simp [run, hstep]
      obtain ⟨hlt, hn₁⟩ := run_weight [t] hn hr
      simp only [List.length_cons, List.length_nil] at hlt
      obtain ⟨ts, s', hrun, hfin⟩ := ih (by omega) hn₁
      exact ⟨t :: ts, s', by simp [run, hstep, hrun], hfin⟩

variable (p d) in
/-- No schedule goes on for ever, and each can be completed. -/
def Terminates (s₀ : State ι σ α) : Prop :=
  ∃ N, ∀ ts s, run p d ts s₀ = some s →
    ts.length ≤ N ∧ ∃ ts' s', run p d ts' s = some s' ∧ s'.Finished

theorem start_terminates : Terminates p d (start n todo c₀ out₀ m₀) := by
  have hn : ∀ t, n ≤ t → (start n todo c₀ out₀ m₀).threads t = .loop [] := by
    intro t ht
    simp only [start, if_neg (Nat.not_lt.mpr ht)]
  refine ⟨(start n todo c₀ out₀ m₀).weight n, fun ts s' hr => ?_⟩
  obtain ⟨hle, hn'⟩ := run_weight ts hn hr
  exact ⟨by omega, exists_finish _ le_rfl hn'⟩

end

end Egad.Lib.Claim
