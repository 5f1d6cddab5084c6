import Egad.Timeline.Serial
import Egad.Lib.AbsentMap

/-! # `insertFresh` and `eraseTentative` (`benchmarks/epoch_timeline.cuh`)

    The fast path enters an epoch's insert keys with tentative CRIDs `crid_begin + j` and asks
    whether every key became a new entry. While nothing was ever erased the map's size answers;
    afterwards one lookup before the insert finds the live keys and one after it the duplicates. -/

namespace Egad.Timeline
open Egad.Lib

/-- The pairs inserted: the `j`-th key with CRID `crid_begin + j`. -/
def tentative (keys : List ℕ) (cridBegin : ℕ) : List (ℕ × ℕ) :=
  keys.zipIdx.map fun x => (x.1, cridBegin + x.2)

/-- How much `get_size()` grows when the pairs are inserted. -/
def entered (m : ℕ → ℕ) : List (ℕ × ℕ) → ℕ
  | [] => 0
  | x :: kvs => (if m x.1 = kAbsent then 1 else 0) + entered (insertOne kAbsent m x) kvs

/-- `insertFresh`: whether every key entered as a new one, and the map afterwards. -/
def insertFresh (m : ℕ → ℕ) (mapHasErased : Bool) (keys : List ℕ) (cridBegin : ℕ) :
    Bool × (ℕ → ℕ) :=
  if mapHasErased ∧ keys.any (fun k => m k ≠ kAbsent) then (false, m)
  else
    let m' := insertAll kAbsent m (tentative keys cridBegin)
    if mapHasErased then (keys.map m' = List.range' cridBegin keys.length, m')
    else (entered m (tentative keys cridBegin) = keys.length, m')

/-- 32-bit subtraction. -/
def sub32 (a b : ℕ) : ℕ := (a + 2 ^ 32 - b) % 2 ^ 32

/-- `eraseTentative`: erase the keys whose entry holds a tentative CRID; the number erased comes
    with the map. -/
def eraseTentative (m : ℕ → ℕ) (keys : List ℕ) (cridBegin : ℕ) : (ℕ → ℕ) × ℕ :=
  let erase := keys.filter fun k => sub32 (m k) cridBegin < keys.length
  (eraseAll kAbsent m erase, erase.length)

/-! ### What acceptance means -/

theorem tentative_keys (keys : List ℕ) (cridBegin : ℕ) :
    (tentative keys cridBegin).map Prod.fst = keys := by
  rw [tentative, List.map_map]
  exact List.zipIdx_map_fst 0 keys

theorem tentative_getElem {keys : List ℕ} (cridBegin : ℕ) {i : ℕ} (hi : i < keys.length) :
    (keys[i], cridBegin + i) ∈ tentative keys cridBegin := by
  refine List.mem_map.mpr ⟨(keys[i], i), ?_, rfl⟩
  rw [List.mk_mem_zipIdx_iff_getElem?, List.getElem?_eq_getElem hi]

theorem tentative_snd_lt {keys : List ℕ} {cridBegin : ℕ} {x : ℕ × ℕ}
    (hx : x ∈ tentative keys cridBegin) : x.2 < cridBegin + keys.length := by
  obtain ⟨⟨k, i⟩, hmem, rfl⟩ := List.mem_map.mp hx
  have := List.snd_lt_of_mem_zipIdx hmem
  simp only; omega

theorem entered_le (m : ℕ → ℕ) : ∀ kvs : List (ℕ × ℕ), entered m kvs ≤ kvs.length := by
  intro kvs
  induction kvs generalizing m with
  | nil => simp [entered]
  | cons x kvs ih =>
    have := ih (insertOne kAbsent m x)
    rw [entered, List.length_cons]
    split <;> omega

/-- The size grows by the number of pairs only if the keys are new and distinct. -/
theorem fresh_of_entered : ∀ (kvs : List (ℕ × ℕ)) (m : ℕ → ℕ), (∀ x ∈ kvs, x.2 ≠ kAbsent) →
    entered m kvs = kvs.length →
    (kvs.map Prod.fst).Nodup ∧ ∀ x ∈ kvs, m x.1 = kAbsent := by
  intro kvs
  induction kvs with
  | nil => simp
  | cons x kvs ih =>
    intro m hne h
    have hle := entered_le (insertOne kAbsent m x) kvs
    rw [entered, List.length_cons] at h
    have hx : m x.1 = kAbsent := by by_contra hx; rw [if_neg hx] at h; omega
    rw [if_pos hx] at h
    obtain ⟨hnd, hfree⟩ := ih (insertOne kAbsent m x) (fun y hy => hne y (by simp [hy])) (by omega)
    -- a later pair with the key of `x` would have found the entry of `x`
    have hnot : ∀ y ∈ kvs, y.1 ≠ x.1 := by
      intro y hy hyx
      have := hfree y hy
      rw [hyx, insertOne, if_pos hx, Function.update_self] at this
      exact hne x (by simp) this
    refine ⟨List.nodup_cons.mpr ⟨?_, hnd⟩, fun y hy => ?_⟩
    · intro hmem
      obtain ⟨y, hy, hyx⟩ := List.mem_map.mp hmem
      exact hnot y hy hyx
    · rcases List.mem_cons.mp hy with rfl | hy
      · exact hx
      · have hne : insertOne kAbsent m x y.1 = m y.1 := insertOne_of_ne (hnot y hy)
        rw [← hne]
        exact hfree y hy

/-! ### Races

    The threads of a bulk insert run in any order, so of several pairs with one key any may win. -/

/-- `insertFresh` when the pairs enter the map in the given order. -/
def insertFreshRace (m : ℕ → ℕ) (mapHasErased : Bool) (keys : List ℕ) (cridBegin : ℕ)
    (order : List (ℕ × ℕ)) : Bool × (ℕ → ℕ) :=
  if mapHasErased ∧ keys.any (fun k => m k ≠ kAbsent) then (false, m)
  else
    let m' := insertAll kAbsent m order
    if mapHasErased then (keys.map m' = List.range' cridBegin keys.length, m')
    else (entered m order = keys.length, m')

theorem insertFreshRace_tentative (m : ℕ → ℕ) (mapHasErased : Bool) (keys : List ℕ) (cridBegin : ℕ) :
    insertFreshRace m mapHasErased keys cridBegin (tentative keys cridBegin) =
      insertFresh m mapHasErased keys cridBegin := rfl

/-- New and distinct keys all enter. -/
theorem entered_of_fresh : ∀ (kvs : List (ℕ × ℕ)) (m : ℕ → ℕ), (kvs.map Prod.fst).Nodup →
    (∀ x ∈ kvs, m x.1 = kAbsent) → entered m kvs = kvs.length := by
  intro kvs
  induction kvs with
  | nil => simp [entered]
  | cons x kvs ih =>
    intro m hnd hfree
    rw [List.map_cons, List.nodup_cons] at hnd
    have hrest : ∀ y ∈ kvs, insertOne kAbsent m x y.1 = kAbsent := by
      intro y hy
      rw [insertOne_of_ne fun h => hnd.1 (List.mem_map.mpr ⟨y, hy, h⟩)]
      exact hfree y (by simp [hy])
    rw [entered, if_pos (hfree x (by simp)), ih _ hnd.2 hrest, List.length_cons, Nat.add_comm]

section
variable {m : ℕ → ℕ} {keys : List ℕ} {cridBegin : ℕ} {order : List (ℕ × ℕ)}
  (hrace : order.Perm (tentative keys cridBegin))
include hrace

theorem race_keys : (order.map Prod.fst).Perm keys := by
  have h := hrace.map Prod.fst
  rwa [tentative_keys] at h

theorem race_length : order.length = keys.length := by
  rw [hrace.length_eq, tentative, List.length_map, List.length_zipIdx]

/-- The epoch is accepted exactly when its keys are pairwise distinct and none is live, whoever wins
    the races. -/
theorem insertFreshRace_iff (mapHasErased : Bool) (hm : cridBegin + keys.length ≤ kAbsent) :
    (insertFreshRace m mapHasErased keys cridBegin order).1 = true ↔
      keys.Nodup ∧ ∀ k ∈ keys, m k = kAbsent := by
  have hkeys := race_keys hrace
  have hlen := race_length hrace
  have hmem : ∀ k ∈ keys, ∃ x ∈ order, x.1 = k := fun k hk =>
    List.mem_map.mp (hkeys.mem_iff.mpr hk)
  rw [insertFreshRace]
  split
  · next hany =>
    obtain ⟨k, hk, hlive⟩ := List.any_eq_true.mp hany.2
    simp only [Bool.false_eq_true, false_iff, not_and]
    exact fun _ h => absurd (h k hk) (by simpa using hlive)
  · next hany =>
    cases mapHasErased with
    | false =>
      simp only [Bool.false_eq_true, if_false, decide_eq_true_eq]
      constructor
      · intro h
        obtain ⟨hnd, hfree⟩ := fresh_of_entered order m
          (fun x hx => by have := tentative_snd_lt (hrace.mem_iff.mp hx); omega) (h.trans hlen.symm)
        refine ⟨hkeys.nodup_iff.mp hnd, fun k hk => ?_⟩
        obtain ⟨x, hx, rfl⟩ := hmem k hk
        exact hfree x hx
      · rintro ⟨hnd, hfree⟩
        rw [entered_of_fresh order m (hkeys.nodup_iff.mpr hnd) fun x hx =>
          hfree _ (hkeys.mem_iff.mp (List.mem_map_of_mem hx)), hlen]
    | true =>
      have hlive : ∀ k ∈ keys, m k = kAbsent := by
        intro k hk
        by_contra hk'
        exact hany ⟨rfl, List.any_eq_true.mpr ⟨k, hk, by simpa using hk'⟩⟩
      simp only [if_true, decide_eq_true_eq]
      constructor
      · intro h
        refine ⟨?_, hlive⟩
        rw [List.nodup_iff_injective_getElem]
        rintro ⟨i, hi⟩ ⟨j, hj⟩ hij
        have hat : ∀ n (hn : n < keys.length), insertAll kAbsent m order keys[n] = cridBegin + n := by
          intro n hn
          have := List.getElem_of_eq h (show n < _ by simpa using hn)
          simpa using this
        have := (hat i hi).symm.trans ((congrArg _ hij).trans (hat j hj))
        simp only [Fin.mk.injEq]
        omega
      · rintro ⟨hnd, -⟩
        refine List.ext_getElem (by simp) fun i hi _ => ?_
        rw [List.length_map] at hi
        rw [List.getElem_map, List.getElem_range']
        have hpair : (keys[i], cridBegin + i) ∈ order :=
          hrace.mem_iff.mpr (tentative_getElem cridBegin hi)
        rw [insertAll_of_mem order m (hkeys.nodup_iff.mpr hnd) hpair (hlive _ (List.getElem_mem hi))]
        omega

end

/-- An accepted epoch inserts pairwise distinct keys, none of them live. -/
theorem fresh_of_insertFresh {m : ℕ → ℕ} {mapHasErased : Bool} {keys : List ℕ} {cridBegin : ℕ}
    (hm : cridBegin + keys.length ≤ kAbsent)
    (h : (insertFresh m mapHasErased keys cridBegin).1 = true) :
    keys.Nodup ∧ ∀ k ∈ keys, m k = kAbsent :=
  (insertFreshRace_iff (List.Perm.refl _) mapHasErased hm).mp h

/-- The map after an accepted epoch's inserts. -/
theorem insertFresh_map {m : ℕ → ℕ} {mapHasErased : Bool} {keys : List ℕ} {cridBegin : ℕ}
    (hm : cridBegin + keys.length ≤ kAbsent)
    (h : (insertFresh m mapHasErased keys cridBegin).1 = true) (k : ℕ) :
    (insertFresh m mapHasErased keys cridBegin).2 k =
      if k ∈ keys then cridBegin + keys.idxOf k else m k := by
  obtain ⟨hnd, hfree⟩ := fresh_of_insertFresh hm h
  have hmap : (insertFresh m mapHasErased keys cridBegin).2 =
      insertAll kAbsent m (tentative keys cridBegin) := by
    rw [insertFresh] at h ⊢
    split at h
    · simp at h
    · next hany => rw [if_neg hany]; split <;> rfl
  rw [hmap]
  split
  · next hk =>
    refine insertAll_of_mem _ _ (by rw [tentative_keys]; exact hnd) ?_ (hfree k hk)
    have hi := List.idxOf_lt_length_iff.mpr hk
    have := tentative_getElem cridBegin hi
    rwa [List.getElem_idxOf hi] at this
  · next hk => exact insertAll_of_notMem _ _ (by rw [tentative_keys]; exact hk)

/-! ### Undoing a rejected attempt -/

theorem tentative_snd_ge {keys : List ℕ} {cridBegin : ℕ} {x : ℕ × ℕ}
    (hx : x ∈ tentative keys cridBegin) : cridBegin ≤ x.2 ∧ x.1 ∈ keys := by
  obtain ⟨⟨k, i⟩, hmem, rfl⟩ := List.mem_map.mp hx
  exact ⟨Nat.le_add_right _ _, List.mem_of_getElem? (List.mk_mem_zipIdx_iff_getElem?.mp hmem)⟩

/-- `insertFresh` gives absent keys of the epoch tentative CRIDs and touches nothing else. -/
theorem insertFresh_cases (m : ℕ → ℕ) (mapHasErased : Bool) (keys : List ℕ) (cridBegin k : ℕ) :
    (insertFresh m mapHasErased keys cridBegin).2 k = m k ∨
    (m k = kAbsent ∧
      (k, (insertFresh m mapHasErased keys cridBegin).2 k) ∈ tentative keys cridBegin) := by
  rw [insertFresh]
  split
  · exact Or.inl rfl
  · have := insertAll_cases kAbsent k (tentative keys cridBegin) m
    split <;> exact this

/-- `eraseTentative` on a map that differs from the epoch-start map in tentative entries only. -/
theorem eraseTentative_apply {m m' : ℕ → ℕ} {keys : List ℕ} {cridBegin k : ℕ}
    (hm : cridBegin + keys.length ≤ kAbsent) (hbelow : ∀ k, m k ≠ kAbsent → m k < cridBegin)
    (hcases : m' k = m k ∨ (m k = kAbsent ∧ (k, m' k) ∈ tentative keys cridBegin)) :
    (eraseTentative m' keys cridBegin).1 k = m k := by
  simp only [eraseTentative, eraseAll_apply, List.mem_filter, decide_eq_true_eq]
  simp only [kAbsent] at hm
  -- no epoch-start record, nor the absent id, lies in the tentative range
  have hout : ¬ sub32 (m k) cridBegin < keys.length := by
    by_cases hk : m k = kAbsent
    · rw [hk, sub32, kAbsent, show 0xffffffff + 2 ^ 32 - cridBegin =
        (0xffffffff - cridBegin) + 2 ^ 32 by omega, Nat.add_mod_right, Nat.mod_eq_of_lt (by omega)]
      omega
    · have := hbelow k hk
      rw [sub32, Nat.mod_eq_of_lt (by omega)]
      omega
  rcases hcases with h | ⟨habs, hmem⟩
  · rw [h, if_neg fun hc => hout hc.2]
  · have hlt := tentative_snd_lt hmem
    obtain ⟨hge, hk⟩ := tentative_snd_ge hmem
    simp only at hlt hge hk
    have htent : sub32 (m' k) cridBegin < keys.length := by
      rw [sub32, show m' k + 2 ^ 32 - cridBegin = (m' k - cridBegin) + 2 ^ 32 by omega,
        Nat.add_mod_right, Nat.mod_eq_of_lt (by omega)]
      omega
    rw [if_pos ⟨hk, htent⟩, habs]

/-- After a rejected `insertFresh`, `eraseTentative` restores the epoch-start map. -/
theorem eraseTentative_insertFresh {m : ℕ → ℕ} (mapHasErased : Bool) {keys : List ℕ} {cridBegin : ℕ}
    (hm : cridBegin + keys.length ≤ kAbsent) (hbelow : ∀ k, m k ≠ kAbsent → m k < cridBegin) :
    (eraseTentative (insertFresh m mapHasErased keys cridBegin).2 keys cridBegin).1 = m :=
  funext fun _ => eraseTentative_apply hm hbelow (insertFresh_cases m mapHasErased keys cridBegin _)

/-- After the attempt the tentative entries are the ones that were absent before: erasing them gives
    back the epoch-start map. -/
theorem eraseTentative_race {m : ℕ → ℕ} {keys : List ℕ} {cridBegin : ℕ} {order : List (ℕ × ℕ)}
    (hrace : order.Perm (tentative keys cridBegin)) (mapHasErased : Bool)
    (hm : cridBegin + keys.length ≤ kAbsent)
    (hbelow : ∀ k, m k ≠ kAbsent → m k < cridBegin) :
    (eraseTentative (insertFreshRace m mapHasErased keys cridBegin order).2 keys cridBegin).1 = m := by
  funext k
  refine eraseTentative_apply hm hbelow ?_
  rw [insertFreshRace]
  split
  · exact Or.inl rfl
  · have h := insertAll_cases kAbsent k order m
    rw [hrace.mem_iff] at h
    split <;> exact h

end Egad.Timeline
