import Egad.Timeline.Packing

/-! # The per-key walks compute lives

    `k_walk`, `k_assign` and `resolve` each carry a state along one key's timeline. The state is
    always the key's life: `walk` keeps only whether there is one, `assignWalk` and `resolveWalk`
    keep its CRID. -/

namespace Egad.Timeline
open Egad.Lib

/-- Apply a list of one key's events. -/
def lifeFold (s : Option Life) (l : List Event) : Option Life := l.foldl (fun s v => lifeStep v s) s

@[simp] theorem lifeFold_nil (s : Option Life) : lifeFold s [] = s := rfl

@[simp] theorem lifeFold_cons (s : Option Life) (v : Event) (l : List Event) :
    lifeFold s (v :: l) = lifeFold (lifeStep v s) l := rfl

theorem lifeFold_append (s : Option Life) (l l' : List Event) :
    lifeFold s (l ++ l') = lifeFold (lifeFold s l) l' := List.foldl_append

/-- Somewhere in the timeline an event meets a life (the one before it) that satisfies `P`. -/
def Meets (P : Event → Option Life → Prop) (s : Option Life) (l : List Event) : Prop :=
  ∃ pre v post, l = pre ++ v :: post ∧ P v (lifeFold s pre)

theorem meets_nil (P : Event → Option Life → Prop) (s : Option Life) : ¬ Meets P s [] := by
  rintro ⟨pre, v, post, h, -⟩
  simp at h

theorem meets_cons {P : Event → Option Life → Prop} {s : Option Life} {w : Event} {l : List Event} :
    Meets P s (w :: l) ↔ P w s ∨ Meets P (lifeStep w s) l := by
  constructor
  · rintro ⟨pre, v, post, h, hP⟩
    cases pre with
    | nil =>
      simp only [List.nil_append, List.cons.injEq] at h
      obtain ⟨rfl, -⟩ := h
      exact Or.inl hP
    | cons u pre =>
      simp only [List.cons_append, List.cons.injEq] at h
      obtain ⟨rfl, h⟩ := h
      exact Or.inr ⟨pre, v, post, h, hP⟩
  · rintro (hP | ⟨pre, v, post, rfl, hP⟩)
    · exact ⟨[], w, l, rfl, hP⟩
    · exact ⟨w :: pre, v, post, rfl, hP⟩

/-! ### Pass 1: flags -/

variable {b : ℕ} {lookup : ℕ → ℕ}

/-- `k_walk` flags an insert exactly when the life before it is none. -/
theorem mem_walk_life (e : ℕ) : ∀ (l : List Event) (s : Option Life),
    e ∈ (walk s.isSome (l.map (pack b lookup))).1 ↔
      Meets (fun v x => v.entry = e ∧ v.type = .insert ∧ x = none) s l
  | [], s => by simp [walk, meets_nil]
  | w :: l, s => by
    rw [meets_cons, ← mem_walk_life e l]
    cases hw : w.type <;> cases s <;> simp [walk, pack, hw, lifeStep, eq_comm]

/-- `k_walk` flags a delete exactly when there is a life before it. -/
theorem mem_walk_edel (e : ℕ) : ∀ (l : List Event) (s : Option Life),
    e ∈ (walk s.isSome (l.map (pack b lookup))).2 ↔
      Meets (fun v x => v.entry = e ∧ v.type = .delete ∧ x ≠ none) s l
  | [], s => by simp [walk, meets_nil]
  | w :: l, s => by
    rw [meets_cons, ← mem_walk_edel e l]
    cases hw : w.type <;> cases s <;> simp [walk, pack, hw, lifeStep, eq_comm]

section
variable {evs : List Event} (hev : evs.Pairwise (fun a b => a.entry < b.entry)) (hf : Fits b evs)

include hev in
/-- An event of the epoch meets `P` at its entry exactly when `P` holds of what it finds. -/
theorem meets_timelineOf {P : Event → Option Life → Prop} {v : Event} (hv : v ∈ evs) :
    (∃ k, Meets (fun w x => w.entry = v.entry ∧ P w x) (startLife lookup k) (timelineOf evs k)) ↔
      P v (found lookup evs v) := by
  constructor
  · rintro ⟨k, pre, w, post, hsplit, he, hP⟩
    have hw : w ∈ timelineOf evs k := by rw [hsplit]; simp
    obtain ⟨hwe, rfl⟩ := mem_timelineOf.mp hw
    rw [← entry_injective hev hwe hv he, found_eq_of_split lookup hev hsplit]
    exact hP
  · intro hP
    have hmem : v ∈ timelineOf evs v.key := mem_timelineOf.mpr ⟨hv, rfl⟩
    obtain ⟨pre, post, hsplit⟩ := List.append_of_mem hmem
    rw [found_eq_of_split lookup hev hsplit] at hP
    exact ⟨v.key, pre, v, post, hsplit, rfl, hP⟩

theorem startOf_timeline {k : ℕ} (hk : ∃ v ∈ evs, v.key = k) :
    startOf ((timelineOf evs k).map (pack b lookup)) = lookup k := by
  obtain ⟨v, hv, hvk⟩ := hk
  cases h : timelineOf evs k with
  | nil => have := mem_timelineOf.mpr ⟨hv, hvk⟩; rw [h] at this; simp at this
  | cons w l =>
    have hw : w ∈ timelineOf evs k := by rw [h]; simp
    simp [startOf, pack, (mem_timelineOf.mp hw).2]

theorem startLife_isSome (k : ℕ) : (startLife lookup k).isSome = decide (lookup k ≠ kAbsent) := by
  unfold startLife
  split <;> simp_all

include hev hf in
variable (lookup) in
/-- The flag arrays hold the life-creating inserts and the effective deletes. -/
theorem mem_walkFlags {v : Event} (hv : v ∈ evs) :
    (v.entry ∈ (walkFlags b (sortEvents b lookup evs)).1 ↔ createsLife lookup evs v = true) ∧
    (v.entry ∈ (walkFlags b (sortEvents b lookup evs)).2 ↔ endsLife lookup evs v = true) := by
  obtain ⟨ks, -, hks, hruns⟩ := runs_sortEvents lookup hf
  have hwalks : (runs (SEvent.key b) (sortEvents b lookup evs)).map
      (fun r => walk (startOf r ≠ kAbsent) r) =
      ks.map fun k => walk (startLife lookup k).isSome ((timelineOf evs k).map (pack b lookup)) := by
    rw [hruns, List.map_map]
    refine List.map_congr_left fun k hk => ?_
    simp only [Function.comp_apply, startOf_timeline ((hks k).mp hk), startLife_isSome]
  have hkeys : ∀ P : Event → Option Life → Prop,
      (∃ k ∈ ks, Meets P (startLife lookup k) (timelineOf evs k)) ↔
        ∃ k, Meets P (startLife lookup k) (timelineOf evs k) := by
    intro P
    refine ⟨fun ⟨k, _, h⟩ => ⟨k, h⟩, fun ⟨k, h⟩ => ⟨k, ?_, h⟩⟩
    obtain ⟨pre, w, post, hsplit, -⟩ := h
    exact (hks k).mpr ⟨w, mem_timelineOf.mp (by rw [hsplit]; simp)⟩
  constructor
  · simp only [walkFlags, hwalks, List.flatMap_map, List.mem_flatMap, mem_walk_life]
    rw [hkeys, meets_timelineOf hev hv]
    simp [createsLife]
  · simp only [walkFlags, hwalks, List.flatMap_map, List.mem_flatMap, mem_walk_edel]
    rw [hkeys, meets_timelineOf hev hv]
    simp [endsLife]

end

end Egad.Timeline
