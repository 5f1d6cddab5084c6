import Egad.Lib.AbsentMap
import Mathlib.Data.Set.Card

/-! # A keyed map with an insert log and a delete log

    Keys get fresh ids in increasing order: the insert of an absent key takes the next id, and the
    insert log `minted` keeps the key of every id. The delete of a live key logs the key with the id
    it ends.

        minted   k0 k1 k2 k0 …      id i belongs to minted[i]
        ended    (k0, 0) …          id 0 is over; k0 is live again as id 3

    Because no id is used twice, the two logs need not be interleaved: all inserts first (a later
    entry of a key replaces an earlier one) and then all deletes (each only while the key still has
    the id it ended) give back the live map. -/

namespace Egad.Lib

variable {K : Type*} [DecidableEq K]

/-- The live map with the two logs. -/
structure Journal (K : Type*) where
  live : K → ℕ
  minted : List K
  ended : List (K × ℕ)

namespace Journal
variable (absent : ℕ)

/-- Insert a key: a live one keeps its id. -/
def insert (j : Journal K) (k : K) : Journal K :=
  if j.live k = absent then
    { j with live := Function.update j.live k j.minted.length, minted := j.minted ++ [k] }
  else j

/-- Delete a key: an absent one stays absent. -/
def delete (j : Journal K) (k : K) : Journal K :=
  if j.live k ≠ absent then
    { j with live := Function.update j.live k absent, ended := j.ended ++ [(k, j.live k)] }
  else j

/-- Replay of an insert log from id `b` on. -/
def mintAll (m : K → ℕ) (b : ℕ) (keys : List K) : K → ℕ :=
  (keys.zipIdx b).foldl (fun m x => Function.update m x.1 x.2) m

/-- Replay of a delete log. -/
def endAll (m : K → ℕ) (log : List (K × ℕ)) : K → ℕ :=
  log.foldl (fun m x => if m x.1 = x.2 then Function.update m x.1 absent else m) m

/-- Ids are owned by one key, and every id is either live or ended once. -/
structure Inv (j : Journal K) : Prop where
  fits : j.minted.length ≤ absent
  owner : ∀ k, j.live k ≠ absent → j.minted[j.live k]? = some k
  endedOwner : ∀ x ∈ j.ended, j.minted[x.2]? = some x.1
  nodup : (j.ended.map Prod.snd).Nodup
  split : ∀ c k, j.minted[c]? = some k → (j.live k = c ↔ c ∉ j.ended.map Prod.snd)
  last : ∀ c k, j.minted[c]? = some k → j.live k ≠ absent → c ≤ j.live k

variable {absent} {j : Journal K}

/-! ### Steps keep the invariant -/

theorem Inv.insert (h : Inv absent j) (k : K) (hroom : j.live k = absent → j.minted.length < absent) :
    Inv absent (j.insert absent k) := by
  rw [Journal.insert]
  split
  · next hk =>
    have hlen := hroom hk
    have hold : ∀ {c k'}, j.minted[c]? = some k' → c < j.minted.length := fun h =>
      (List.getElem?_eq_some_iff.mp h).1
    have hnew : ∀ {c k'}, (j.minted ++ [k])[c]? = some k' →
        j.minted[c]? = some k' ∨ c = j.minted.length ∧ k' = k := by
      intro c k' hc
      rcases Nat.lt_trichotomy c j.minted.length with hlt | heq | hgt
      · exact Or.inl (by rwa [List.getElem?_append_left hlt] at hc)
      · subst heq
        simp at hc
        exact Or.inr ⟨rfl, hc.symm⟩
      · rw [List.getElem?_eq_none (by simp; omega)] at hc
        simp at hc
    have hkeep : ∀ {c k'}, j.minted[c]? = some k' → (j.minted ++ [k])[c]? = some k' := fun hc => by
      rw [List.getElem?_append_left (hold hc)]; exact hc
    refine ⟨by simp; omega, fun k' hk' => ?_, fun x hx => hkeep (h.endedOwner x hx), h.nodup,
      fun c k' hc => ?_, fun c k' hc hk' => ?_⟩
    · by_cases hkk : k' = k
      · subst hkk; simp
      · simp only [Function.update_of_ne hkk] at hk' ⊢
        exact hkeep (h.owner k' hk')
    · dsimp only at hc ⊢
      rcases hnew hc with hold' | ⟨rfl, rfl⟩
      · by_cases hkk : k' = k
        · -- an earlier life of the key: over already
          subst hkk
          have hlt := hold hold'
          rw [← h.split c k' hold', Function.update_self, hk]
          constructor <;> intro <;> omega
        · rw [Function.update_of_ne hkk]; exact h.split c k' hold'
      · simp only [Function.update_self, true_iff]
        intro hmem
        obtain ⟨x, hx, hxe⟩ := List.mem_map.mp hmem
        have := hold (h.endedOwner x hx)
        omega
    · dsimp only at hc hk' ⊢
      by_cases hkk : k' = k
      · subst hkk
        rw [Function.update_self]
        rcases hnew hc with hc | ⟨rfl, -⟩
        · exact (hold hc).le
        · exact le_refl _
      · rw [Function.update_of_ne hkk] at hk' ⊢
        rcases hnew hc with hc | ⟨-, rfl⟩
        · exact h.last c k' hc hk'
        · exact absurd rfl hkk
  · exact h

theorem Inv.delete (h : Inv absent j) (k : K) : Inv absent (j.delete absent k) := by
  rw [Journal.delete]
  split
  · next hk =>
    have howner := h.owner k hk
    have hnot := (h.split _ k howner).mp rfl
    refine ⟨h.fits, fun k' hk' => ?_, fun x hx => ?_, ?_, fun c k' hc => ?_, fun c k' hc hk' => ?_⟩
    · by_cases hkk : k' = k
      · subst hkk; simp at hk'
      · simp only [Function.update_of_ne hkk] at hk' ⊢
        exact h.owner k' hk'
    · rcases List.mem_append.mp hx with hx | hx
      · exact h.endedOwner x hx
      · rw [List.mem_singleton.mp hx]; exact howner
    · rw [List.map_append, List.map_singleton, List.nodup_append]
      refine ⟨h.nodup, List.nodup_singleton _, fun a ha b hb hab => ?_⟩
      rw [hab, List.mem_singleton.mp hb] at ha
      exact hnot ha
    · dsimp only at hc ⊢
      have hlt := (List.getElem?_eq_some_iff.mp hc).1
      have hfits := h.fits
      rw [List.map_append, List.mem_append, not_or, List.map_singleton, List.mem_singleton]
      by_cases hkk : k' = k
      · subst hkk
        rw [Function.update_self, ← h.split c k' hc]
        constructor
        · intro; omega
        · rintro ⟨h1, h2⟩; exact absurd h1.symm h2
      · rw [Function.update_of_ne hkk, h.split c k' hc]
        refine ⟨fun hc' => ⟨hc', fun hce => ?_⟩, fun hc' => hc'.1⟩
        rw [hce, howner] at hc
        exact hkk (Option.some.inj hc).symm
    · dsimp only at hc hk' ⊢
      by_cases hkk : k' = k
      · subst hkk; simp at hk'
      · rw [Function.update_of_ne hkk] at hk' ⊢
        exact h.last c k' hc hk'
  · exact h

/-! ### Replay in two passes -/

theorem mintAll_append (m : K → ℕ) (b : ℕ) (l l' : List K) :
    mintAll m b (l ++ l') = mintAll (mintAll m b l) (b + l.length) l' := by
  simp only [mintAll, List.zipIdx_append, List.foldl_append]

variable (absent) in
/-- A replayed key has its last id. -/
theorem mintAll_spec (keys : List K) (k : K) :
    (mintAll (fun _ => absent) 0 keys k = absent ∧ k ∉ keys) ∨
    (keys[mintAll (fun _ => absent) 0 keys k]? = some k ∧
      ∀ c, keys[c]? = some k → c ≤ mintAll (fun _ => absent) 0 keys k) := by
  induction keys using List.reverseRecOn with
  | nil => exact Or.inl ⟨rfl, by simp⟩
  | append_singleton keys a ih =>
    have hstep : mintAll (fun _ => absent) 0 (keys ++ [a]) =
        Function.update (mintAll (fun _ => absent) 0 keys) a keys.length := by
      simp [mintAll, List.zipIdx_append]
    rw [hstep]
    by_cases hka : k = a
    · subst hka
      refine Or.inr ⟨by simp, fun c hc => ?_⟩
      have := (List.getElem?_eq_some_iff.mp hc).1
      rw [Function.update_self]
      simp at this; omega
    · rw [Function.update_of_ne hka]
      refine ih.imp (fun ⟨h1, h2⟩ => ⟨h1, by simp [h2, hka]⟩) fun ⟨h1, h2⟩ => ⟨?_, fun c hc => ?_⟩
      · rw [List.getElem?_append_left (List.getElem?_eq_some_iff.mp h1).1, h1]
      · refine h2 c ?_
        rcases Nat.lt_or_ge c keys.length with hlt | hge
        · rwa [List.getElem?_append_left hlt] at hc
        · rw [List.getElem?_append_right hge, List.getElem?_singleton] at hc
          split at hc
          · exact absurd (Option.some.inj hc).symm hka
          · simp at hc

/-- Deletes of one key: absent once the id it holds was ended. -/
theorem endAll_apply (k : K) : ∀ (log : List (K × ℕ)) (m : K → ℕ),
    endAll absent m log k = if (k, m k) ∈ log then absent else m k
  | [], m => by simp [endAll]
  | x :: log, m => by
    have ih := endAll_apply k log (if m x.1 = x.2 then Function.update m x.1 absent else m)
    rw [endAll] at ih ⊢
    rw [List.foldl_cons, ih]
    by_cases hx : m x.1 = x.2
    · rw [if_pos hx]
      by_cases hk : k = x.1
      · subst hk
        rw [Function.update_self, ite_self, hx, if_pos (by simp)]
      · rw [Function.update_of_ne hk]
        have : (k, m k) ∈ x :: log ↔ (k, m k) ∈ log := by
          rw [List.mem_cons, or_iff_right]
          intro h
          exact hk (congrArg Prod.fst h)
        simp only [this]
    · rw [if_neg hx]
      have : (k, m k) ∈ x :: log ↔ (k, m k) ∈ log := by
        rw [List.mem_cons, or_iff_right]
        rintro rfl
        exact hx rfl
      simp only [this]

/-- Replaying all inserts and then all deletes gives the live map. -/
theorem Inv.replay (h : Inv absent j) :
    endAll absent (mintAll (fun _ => absent) 0 j.minted) j.ended = j.live := by
  funext k
  rw [endAll_apply]
  set m := mintAll (fun _ => absent) 0 j.minted with hm
  rcases mintAll_spec absent j.minted k with ⟨habs, hk⟩ | ⟨hown, hlast⟩
  · rw [← hm] at habs
    rw [habs, ite_self]
    by_contra hne
    exact hk (List.mem_of_getElem? (h.owner k (Ne.symm hne)))
  · rw [← hm] at hown hlast
    have hlt := (List.getElem?_eq_some_iff.mp hown).1
    have hfits := h.fits
    have hsplit := h.split (m k) k hown
    by_cases hl : j.live k = absent
    · have hmem : m k ∈ j.ended.map Prod.snd := by
        by_contra hnot
        have := hsplit.mpr hnot
        omega
      obtain ⟨⟨k', c⟩, hx, hxe⟩ := List.mem_map.mp hmem
      have hown' := h.endedOwner _ hx
      simp only at hxe hown'
      rw [hxe, hown] at hown'
      rw [← Option.some.inj hown', hxe] at hx
      rw [if_pos hx, hl]
    · have heq : m k = j.live k :=
        le_antisymm (h.last _ k hown hl) (hlast _ (h.owner k hl))
      rw [if_neg, heq]
      intro hmem
      exact hsplit.mp heq.symm (List.mem_map.mpr ⟨_, hmem, rfl⟩)

omit [DecidableEq K] in
/-- An id that ended is no key's id any more. -/
theorem Inv.ended_not_live (h : Inv absent j) {x : K × ℕ} (hx : x ∈ j.ended) (k : K) :
    j.live k ≠ x.2 := by
  intro he
  have hne : j.live k ≠ absent := by
    have hlt := (List.getElem?_eq_some_iff.mp (h.endedOwner x hx)).1
    have := h.fits
    omega
  have howner := h.owner k hne
  rw [he] at howner
  exact (h.split _ _ howner).mp he (List.mem_map_of_mem hx)

omit [DecidableEq K] in
/-- Every id is live or ended: the live keys and the delete log add up to the insert log. -/
theorem Inv.size (h : Inv absent j) :
    Set.ncard {k | j.live k ≠ absent} + j.ended.length = j.minted.length := by
  have hinj : Set.InjOn j.live {k | j.live k ≠ absent} := by
    intro k hk k' hk' heq
    have h1 := h.owner k hk
    have h2 := h.owner k' hk'
    rw [heq, h2] at h1
    exact (Option.some.inj h1).symm
  have himage : j.live '' {k | j.live k ≠ absent} =
      ↑((Finset.range j.minted.length) \ (j.ended.map Prod.snd).toFinset) := by
    ext c
    simp only [Set.mem_image, Set.mem_ofPred_eq, Finset.coe_sdiff, Set.mem_sdiff, Finset.mem_coe,
      Finset.mem_range, List.mem_toFinset]
    constructor
    · rintro ⟨k, hk, rfl⟩
      have hown := h.owner k hk
      exact ⟨(List.getElem?_eq_some_iff.mp hown).1, (h.split _ k hown).mp rfl⟩
    · rintro ⟨hlt, hnot⟩
      have hown := List.getElem?_eq_getElem hlt
      have hlive := (h.split c _ hown).mpr hnot
      have := h.fits
      exact ⟨_, by omega, hlive⟩
  have hsub : (j.ended.map Prod.snd).toFinset ⊆ Finset.range j.minted.length := by
    intro c hc
    obtain ⟨x, hx, rfl⟩ := List.mem_map.mp (List.mem_toFinset.mp hc)
    exact Finset.mem_range.mpr (List.getElem?_eq_some_iff.mp (h.endedOwner x hx)).1
  have hcard : (j.ended.map Prod.snd).toFinset.card = j.ended.length := by
    rw [List.toFinset_card_of_nodup h.nodup, List.length_map]
  have hle := Finset.card_le_card hsub
  rw [← hinj.ncard_image, himage, Set.ncard_coe_finset,
    Finset.card_sdiff_of_subset hsub, Finset.card_range, hcard]
  rw [hcard, Finset.card_range] at hle
  omega

/-- Replay through a renaming of the keys that keeps `k` apart from the others. -/
theorem mintAll_map {S : Type*} [DecidableEq S] (slot : K → S) {k : K} : ∀ (keys : List K) (m : K → ℕ)
    (m' : S → ℕ) (b : ℕ), (∀ k' ∈ keys, slot k' = slot k → k' = k) → m' (slot k) = m k →
    mintAll m' b (keys.map slot) (slot k) = mintAll m b keys k
  | [], _, _, _, _, h => h
  | a :: keys, m, m', b, hinj, h => by
    rw [List.map_cons, mintAll, mintAll, List.zipIdx_cons, List.zipIdx_cons, List.foldl_cons,
      List.foldl_cons]
    refine mintAll_map slot keys _ _ (b + 1) (fun k' hk' => hinj k' (by simp [hk'])) ?_
    by_cases ha : a = k
    · subst ha; simp
    · have hne : slot k ≠ slot a := fun h => ha (hinj a (by simp) h.symm)
      simp only
      rw [Function.update_of_ne hne, Function.update_of_ne (Ne.symm ha), h]

theorem endAll_map {S : Type*} [DecidableEq S] (slot : K → S) {k : K} {log : List (K × ℕ)} {m : K → ℕ}
    {m' : S → ℕ} (hinj : ∀ x ∈ log, slot x.1 = slot k → x.1 = k) (h : m' (slot k) = m k) :
    endAll absent m' (log.map fun x => (slot x.1, x.2)) (slot k) = endAll absent m log k := by
  rw [endAll_apply, endAll_apply, h]
  have : (slot k, m k) ∈ log.map (fun x => (slot x.1, x.2)) ↔ (k, m k) ∈ log := by
    constructor
    · intro hmem
      obtain ⟨⟨k', c⟩, hx, heq⟩ := List.mem_map.mp hmem
      obtain ⟨h1, rfl⟩ := Prod.ext_iff.mp heq
      obtain rfl : k' = k := hinj _ hx h1
      exact hx
    · exact fun hmem => List.mem_map.mpr ⟨_, hmem, rfl⟩
  simp only [this]

/-- A replayed insert log has ids below its length only. -/
theorem mintAll_lt (keys : List K) (k : K) :
    mintAll (fun _ => absent) 0 keys k = absent ∨ mintAll (fun _ => absent) 0 keys k < keys.length := by
  rcases mintAll_spec absent keys k with ⟨h, -⟩ | ⟨h, -⟩
  · exact Or.inl h
  · exact Or.inr (List.getElem?_eq_some_iff.mp h).1

/-! ### Loading distinct keys -/

/-- A log of distinct keys without deletes is a journal. -/
theorem Inv.load {keys : List K} (hnd : keys.Nodup) (hfits : keys.length ≤ absent) :
    Inv absent ⟨mintAll (fun _ => absent) 0 keys, keys, []⟩ := by
  have hat : ∀ c k, keys[c]? = some k → mintAll (fun _ => absent) 0 keys k = c := by
    intro c k hc
    rcases mintAll_spec absent keys k with ⟨-, h⟩ | ⟨h, -⟩
    · exact absurd (List.mem_of_getElem? hc) h
    · have hlt := (List.getElem?_eq_some_iff.mp h).1
      exact (List.getElem?_inj hlt hnd).mp (h.trans hc.symm)
  refine ⟨hfits, fun k hk => ?_, by simp, by simp, fun c k hc => ?_, fun c k hc _ => ?_⟩
  · rcases mintAll_spec absent keys k with ⟨h, -⟩ | ⟨h, -⟩
    · exact absurd h hk
    · exact h
  · simp [hat c k hc]
  · exact (hat c k hc).ge

/-- Inserting distinct absent keys is replaying them. -/
theorem insertAll_zipIdx : ∀ (keys : List K) (m : K → ℕ) (b : ℕ), keys.Nodup →
    (∀ k ∈ keys, m k = absent) → insertAll absent m (keys.zipIdx b) = mintAll m b keys
  | [], _, _, _, _ => rfl
  | k :: keys, m, b, hnd, hm => by
    obtain ⟨hk, hnd⟩ := List.nodup_cons.mp hnd
    have hone : insertOne absent m (k, b) = Function.update m k b := if_pos (hm k (by simp))
    have ih := insertAll_zipIdx keys (Function.update m k b) (b + 1) hnd fun k' hk' => by
      have hne : k' ≠ k := fun h => hk (h ▸ hk')
      rw [Function.update_of_ne hne]
      exact hm k' (by simp [hk'])
    rw [List.zipIdx_cons, insertAll, List.foldl_cons, hone]
    exact ih

end Journal

/-! ### Logs in arrays -/

/-- Copy a list into an array from `off` on. -/
def copyAt (a : ℕ → ℕ) (off : ℕ) (src : List ℕ) : ℕ → ℕ :=
  fun i => if off ≤ i then src.getD (i - off) (a i) else a i

theorem copyAt_range (a : ℕ → ℕ) (off : ℕ) (src : List ℕ) :
    (List.range (off + src.length)).map (copyAt a off src) = (List.range off).map a ++ src := by
  rw [List.range_add, List.map_append, List.map_map]
  congr 1
  · refine List.map_congr_left fun i hi => ?_
    rw [copyAt, if_neg (by have := List.mem_range.mp hi; omega)]
  · apply List.ext_getElem
    · simp
    · intro i h1 h2
      simp [copyAt, h2]

theorem copyAt_of_lt {a : ℕ → ℕ} {off i : ℕ} (src : List ℕ) (h : i < off) :
    copyAt a off src i = a i := by
  rw [copyAt, if_neg (by omega)]

end Egad.Lib
