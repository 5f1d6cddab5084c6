import Egad.Stager.Model

/-! # The buffer of needed records

    Both hybrid stagers allocate `d_needed_` for as many records as the cache has slots, and replace
    it at epoch 1 by one of twice the records that epoch needs. Later epochs are checked against the
    cache only:

        constructor          epoch 1 (u₁ records)     epoch e > 1 (u records)
        gpu_capacity   ─▶    2 · u₁             ─▶    copies u ≤ gpu_capacity records into 2 · u₁ -/

namespace Egad.Stager

/-- One call of `buildNeededOnDevice`: the entries `d_needed_` has after it, and the list copied
    into it. -/
def buildNeededOnDevice (gpuCapacity epoch : ℕ) (keys : List ℕ) (needed : ℕ) :
    Except Failure (ℕ × List ℕ) :=
  if keys.length = 0 then .ok (needed, [])
  else
    let unique := buildNeeded keys
    if gpuCapacity < unique.length then .error .neededExceedsCapacity
    else
      let needed := if epoch = 1 then unique.length * 2 % 2 ^ 32 else needed
      .ok (needed, unique)

/-- The copies of the epochs from `epoch` on, each with the entries of `d_needed_` at that moment. -/
def neededCopies (gpuCapacity : ℕ) : ℕ → ℕ → List (List ℕ) → List (List ℕ × ℕ)
  | _, _, [] => []
  | epoch, needed, keys :: epochs =>
    match buildNeededOnDevice gpuCapacity epoch keys needed with
    | .error _ => []
    | .ok (needed', copied) =>
      (copied, needed') :: neededCopies gpuCapacity (epoch + 1) needed' epochs

/-- The records an epoch needs. -/
def uniqueCount (keys : List ℕ) : ℕ := (buildNeeded keys).length

@[simp] theorem uniqueCount_nil : uniqueCount [] = 0 := rfl

section
variable {gpuCapacity : ℕ} {keys : List ℕ} (hcap : uniqueCount keys ≤ gpuCapacity)
include hcap

theorem not_exceeds : ¬ gpuCapacity < (buildNeeded keys).length := Nat.not_lt.mpr hcap

theorem buildNeededOnDevice_later {epoch : ℕ} (hepoch : epoch ≠ 1) (needed : ℕ) :
    buildNeededOnDevice gpuCapacity epoch keys needed = .ok (needed, buildNeeded keys) := by
  rw [buildNeededOnDevice]
  split
  · next h =>
    rw [List.eq_nil_of_length_eq_zero h]
    rfl
  · simp only [if_neg (not_exceeds hcap)]

theorem buildNeededOnDevice_first (hne : keys ≠ []) (needed : ℕ) :
    buildNeededOnDevice gpuCapacity 1 keys needed =
      .ok (2 * uniqueCount keys % 2 ^ 32, buildNeeded keys) := by
  rw [buildNeededOnDevice, if_neg (by simpa using hne)]
  simp only [if_neg (not_exceeds hcap), if_true, uniqueCount, Nat.mul_comm]

end

section
variable {gpuCapacity : ℕ}

/-- Behind epoch 1 the buffer stays as it is, and each epoch copies its records into it. -/
theorem neededCopies_later {epochs : List (List ℕ)}
    (hcap : ∀ keys ∈ epochs, uniqueCount keys ≤ gpuCapacity) :
    ∀ {epoch : ℕ}, 1 < epoch → ∀ needed, neededCopies gpuCapacity epoch needed epochs =
      epochs.map fun keys => (buildNeeded keys, needed) := by
  induction epochs with
  | nil => intro epoch _ needed; rfl
  | cons keys epochs ih =>
    intro epoch hepoch needed
    rw [neededCopies, buildNeededOnDevice_later (hcap keys (by simp)) (by omega)]
    simp only [ih (fun k hk => hcap k (by simp [hk])) (Nat.lt_succ_of_lt hepoch), List.map_cons]

theorem copies_fit_later {epochs : List (List ℕ)}
    (hcap : ∀ keys ∈ epochs, uniqueCount keys ≤ gpuCapacity) {epoch : ℕ} (hepoch : 1 < epoch)
    (needed : ℕ) :
    (∀ c ∈ neededCopies gpuCapacity epoch needed epochs, c.1.length ≤ c.2) ↔
      ∀ keys ∈ epochs, uniqueCount keys ≤ needed := by
  rw [neededCopies_later hcap hepoch]
  simp only [List.forall_mem_map, uniqueCount]

/-- Epochs that each need no more records than the cache holds, from the first epoch of a run on:
    every list that is copied fits `d_needed_` exactly when the run does not start with epoch 1, or
    epoch 1 needs nothing, or no epoch needs more than the buffer that epoch 1 leaves. -/
theorem needed_buffer_fits {epochs : List (List ℕ)} {first : ℕ} (hfirst : 1 ≤ first)
    (hcap : ∀ keys ∈ epochs, uniqueCount keys ≤ gpuCapacity) :
    (∀ c ∈ neededCopies gpuCapacity first gpuCapacity epochs, c.1.length ≤ c.2) ↔
      (first = 1 → ∀ keys₁ rest, epochs = keys₁ :: rest → keys₁ ≠ [] →
        ∀ keys ∈ epochs, uniqueCount keys ≤ 2 * uniqueCount keys₁ % 2 ^ 32) := by
  rcases Nat.lt_or_eq_of_le hfirst with hlater | rfl
  · rw [copies_fit_later hcap hlater]
    exact ⟨fun _ h => absurd h (by omega), fun _ => hcap⟩
  cases epochs with
  | nil => simp [neededCopies]
  | cons keys₁ rest =>
    have hcap₁ := hcap keys₁ (by simp)
    have hrest : ∀ keys ∈ rest, uniqueCount keys ≤ gpuCapacity :=
      fun keys hk => hcap keys (by simp [hk])
    rw [neededCopies]
    by_cases hne : keys₁ = []
    · -- an empty epoch 1 keeps the buffer of the constructor
      subst hne
      have hcopies : buildNeededOnDevice gpuCapacity 1 [] gpuCapacity = .ok (gpuCapacity, []) := rfl
      simp only [hcopies, List.forall_mem_cons, copies_fit_later hrest (Nat.lt_succ_self 1),
        List.length_nil, Nat.zero_le, true_and]
      exact ⟨fun _ _ k r he hk => absurd (List.cons.inj he).1.symm hk, fun _ => hrest⟩
    · simp only [buildNeededOnDevice_first hcap₁ hne, List.forall_mem_cons,
        copies_fit_later hrest (Nat.lt_succ_self 1)]
      constructor
      · rintro ⟨h₁, hr⟩ - k r he -
        obtain ⟨rfl, rfl⟩ := List.cons.inj he
        exact ⟨h₁, hr⟩
      · intro h
        exact h trivial keys₁ rest rfl hne

end

/-- Four records first, eight later. -/
theorem needed_buffer_fits_double : uniqueCount (List.range 8) = 2 * uniqueCount (List.range 4) ∧
    ∀ c ∈ neededCopies 10 1 10 [List.range 4, List.range 8, List.range 3], c.1.length ≤ c.2 := by
  refine ⟨by decide, (needed_buffer_fits le_rfl (by decide)).mpr ?_⟩
  rintro - k r he -
  obtain ⟨rfl, -⟩ := List.cons.inj he
  decide

/-- One record in epoch 1 and three in epoch 2, with a cache of ten: the copy of epoch 2 overruns
    the buffer of two. -/
theorem needed_buffer_overrun :
    (∀ keys ∈ [[0], [0, 1, 2]], uniqueCount keys ≤ 10) ∧
      ¬ ∀ c ∈ neededCopies 10 1 10 [[0], [0, 1, 2]], c.1.length ≤ c.2 := by
  decide

end Egad.Stager
