import Egad.Tpcc.Index
import Egad.Timeline.Correct

/-! # Both OrderLine indexes are finite maps

    The flat array is a finite map from slots, and a key whose fields are in range owns its slot, so
    the flat operations are the map operations at slots. `Store.lookup` is the key->CRID map of a
    store: what `find` returns for the keys a transaction can name. -/

namespace Egad.Tpcc
open Egad.Lib Egad.Timeline

/-- The key owns a cell of the store. -/
def Store.Keyed : Store → ℕ → Prop
  | .cuco _ _, _ => True
  | .flat _ maxO, k => LineOk maxO k

instance (s : Store) (k : ℕ) : Decidable (s.Keyed k) := by
  cases s with
  | cuco m e => exact inferInstanceAs (Decidable True)
  | flat a maxO => exact inferInstanceAs (Decidable (LineOk maxO k))

/-- A key a transaction can name: it owns a cell, or its order is past the stride. -/
def Store.Named : Store → ℕ → Prop
  | .cuco _ _, _ => True
  | .flat _ maxO, k => LineOk maxO k ∨ maxO < olOId k

/-- The cells of the store and the cell of a key. -/
def Store.cells : Store → ℕ → ℕ
  | .cuco m _ => m
  | .flat a _ => a

def Store.addr : Store → ℕ → ℕ
  | .cuco _ _, k => k
  | .flat _ maxO, k => denseOf maxO k

/-- The key->CRID map. -/
def Store.lookup (s : Store) (k : ℕ) : ℕ := if s.Keyed k then s.cells (s.addr k) else kAbsent

/-- Two stores of the same kind. -/
def Store.Alike : Store → Store → Prop
  | .cuco _ _, .cuco _ _ => True
  | .flat _ maxO, .flat _ maxO' => maxO = maxO'
  | _, _ => False

section
variable {s s' : Store}

theorem Store.find_of_keyed {k : ℕ} (h : s.Keyed k) : s.find k = s.cells (s.addr k) := by
  cases s with
  | cuco m e => rfl
  | flat a maxO =>
    have : LineOk maxO k := h
    rw [Store.find, if_neg (by have := this.o; omega)]
    rfl

theorem Store.find_eq_lookup {k : ℕ} (h : s.Named k) : s.find k = s.lookup k := by
  rw [Store.lookup]
  split
  · next hk => exact find_of_keyed hk
  · next hk =>
    cases s with
    | cuco m e => exact absurd trivial hk
    | flat a maxO =>
      rcases h with h | h
      · exact absurd h hk
      · rw [Store.find, if_pos h]

theorem Store.lookup_cuco (m : ℕ → ℕ) (e : Bool) (k : ℕ) : (Store.cuco m e).lookup k = m k :=
  if_pos (show (Store.cuco m e).Keyed k from trivial)

theorem Store.lookup_flat {maxO k : ℕ} (a : ℕ → ℕ) (h : LineOk maxO k) :
    (Store.flat a maxO).lookup k = a (denseOf maxO k) :=
  if_pos (show (Store.flat a maxO).Keyed k from h)

theorem Store.lookup_flat_of_not {maxO k : ℕ} (a : ℕ → ℕ) (h : ¬ LineOk maxO k) :
    (Store.flat a maxO).lookup k = kAbsent :=
  if_neg (show ¬ (Store.flat a maxO).Keyed k from h)

theorem Store.addr_inj {k k' : ℕ} (h : s.Keyed k) (h' : s.Keyed k') (ha : s.addr k = s.addr k') :
    k = k' := by
  cases s with
  | cuco m e => exact ha
  | flat a maxO => exact denseOf_inj h h' ha

theorem Store.Alike.keyed (h : s.Alike s') (k : ℕ) : s'.Keyed k ↔ s.Keyed k := by
  cases s <;> cases s' <;> simp_all [Store.Alike, Store.Keyed]

theorem Store.Alike.addr (h : s.Alike s') (k : ℕ) : s'.addr k = s.addr k := by
  cases s <;> cases s' <;> simp_all [Store.Alike, Store.addr]

theorem Store.Alike.refl (s : Store) : s.Alike s := by cases s <;> simp [Store.Alike]

theorem Store.Alike.trans {s₁ s₂ s₃ : Store} (h : s₁.Alike s₂) (h' : s₂.Alike s₃) : s₁.Alike s₃ := by
  cases s₁ <;> cases s₂ <;> cases s₃ <;> simp_all [Store.Alike]

theorem Store.Alike.named (h : s.Alike s') (k : ℕ) : s'.Named k ↔ s.Named k := by
  cases s <;> cases s' <;> simp_all [Store.Alike, Store.Named]

theorem Store.Keyed.named {k : ℕ} (h : s.Keyed k) : s.Named k := by
  cases s with
  | cuco m e => trivial
  | flat a maxO => exact Or.inl h

/-! ### Bulk insert -/

theorem insertAll_eq_foldl (a : ℕ → ℕ) (kvs : List (ℕ × ℕ)) (maxO n : ℕ) :
    kvs.foldl (flatInsert maxO) (a, n) =
      (insertAll kAbsent a (kvs.map fun x => (denseOf maxO x.1, x.2)),
        n + (kvs.length - entered a (kvs.map fun x => (denseOf maxO x.1, x.2)))) := by
  induction kvs generalizing a n with
  | nil => simp [insertAll]
  | cons x kvs ih =>
    have hle := entered_le (insertOne kAbsent a (denseOf maxO x.1, x.2))
      (kvs.map fun x => (denseOf maxO x.1, x.2))
    rw [List.length_map] at hle
    rw [List.foldl_cons, List.map_cons, entered, List.length_cons, flatInsert]
    simp only
    by_cases h : a (denseOf maxO x.1) = kAbsent
    · have hone : insertOne kAbsent a (denseOf maxO x.1, x.2) =
          Function.update a (denseOf maxO x.1) x.2 := if_pos h
      rw [if_pos h, if_pos h, ih, ← hone, insertAll, insertAll, List.foldl_cons]
      congr 1
      omega
    · have hone : insertOne kAbsent a (denseOf maxO x.1, x.2) = a := if_neg h
      rw [if_neg h, if_neg h, ih, insertAll, insertAll, List.foldl_cons]
      simp only [hone] at hle ⊢
      congr 1
      omega

theorem tentative_map (f : ℕ → ℕ) (keys : List ℕ) (cridBegin : ℕ) :
    (tentative keys cridBegin).map (fun x => (f x.1, x.2)) = tentative (keys.map f) cridBegin := by
  rw [tentative, tentative, List.map_map, List.zipIdx_map, List.map_map]
  rfl

/-- The bulk insert of an epoch's keys when the pairs enter in the given order. -/
def Store.insertFreshRace (s : Store) (keys : List ℕ) (cridBegin : ℕ) (order : List (ℕ × ℕ)) :
    Except String (Bool × Store) :=
  match s with
  | .cuco m e =>
    let r := Timeline.insertFreshRace m e keys cridBegin order
    .ok (r.1, .cuco r.2 e)
  | .flat a maxO =>
    if (keys.filter fun k => maxO < olOId k).length ≠ 0 then
      .error "OrderLine flat index: order ids exceed the per-district stride"
    else
      let r := order.foldl (flatInsert maxO) (a, 0)
      .ok (r.2 = 0, .flat r.1 maxO)

theorem Store.insertFreshRace_tentative (s : Store) (keys : List ℕ) (cridBegin : ℕ) :
    s.insertFreshRace keys cridBegin (tentative keys cridBegin) = s.insertFresh keys cridBegin := by
  cases s <;> rfl

/-- The flat bulk insert is `insertFresh` at the slots. -/
theorem flat_insertFreshRace {a : ℕ → ℕ} {maxO : ℕ} {keys : List ℕ} {cridBegin : ℕ} {ok : Bool}
    {order : List (ℕ × ℕ)} (hrace : order.Perm (tentative keys cridBegin))
    (h : (Store.flat a maxO).insertFreshRace keys cridBegin order = .ok (ok, s')) :
    (∀ k ∈ keys, ¬ maxO < olOId k) ∧
    ok = (insertFreshRace a false (keys.map (denseOf maxO)) cridBegin
      (order.map fun x => (denseOf maxO x.1, x.2))).1 ∧
    s' = .flat (insertFreshRace a false (keys.map (denseOf maxO)) cridBegin
      (order.map fun x => (denseOf maxO x.1, x.2))).2 maxO := by
  rw [Store.insertFreshRace] at h
  split at h
  · simp at h
  · next hin =>
    have hle := entered_le a (order.map fun x => (denseOf maxO x.1, x.2))
    have hlen := race_length hrace
    rw [List.length_map] at hle
    simp only [insertAll_eq_foldl, Except.ok.injEq, Prod.mk.injEq, Nat.zero_add] at h
    refine ⟨?_, ?_, ?_⟩
    · rw [not_not, List.length_eq_zero_iff, List.filter_eq_nil_iff] at hin
      simpa using hin
    · rw [← h.1, Timeline.insertFreshRace]
      simp only [Bool.false_eq_true, false_and, if_false, List.length_map, decide_eq_decide]
      omega
    · rw [← h.2, Timeline.insertFreshRace]
      simp only [Bool.false_eq_true, false_and, if_false]

theorem flat_insertFresh {a : ℕ → ℕ} {maxO : ℕ} {keys : List ℕ} {cridBegin : ℕ} {ok : Bool}
    (h : (Store.flat a maxO).insertFresh keys cridBegin = .ok (ok, s')) :
    (∀ k ∈ keys, ¬ maxO < olOId k) ∧
    ok = (insertFresh a false (keys.map (denseOf maxO)) cridBegin).1 ∧
    s' = .flat (insertFresh a false (keys.map (denseOf maxO)) cridBegin).2 maxO := by
  rw [← Store.insertFreshRace_tentative] at h
  have h' := flat_insertFreshRace (List.Perm.refl _) h
  rwa [tentative_map, insertFreshRace_tentative] at h'

variable {keys : List ℕ} {cridBegin : ℕ}

/-- The records of a store: below the row counter, one key each. -/
structure Store.Rows (s : Store) (cridBegin : ℕ) : Prop where
  below : ∀ c, s.cells c ≠ kAbsent → s.cells c < cridBegin
  inj : ∀ k k', s.lookup k ≠ kAbsent → s.lookup k = s.lookup k' → k = k'

theorem Store.Rows.lookup_below (h : s.Rows cridBegin) (k : ℕ) (hk : s.lookup k ≠ kAbsent) :
    s.lookup k < cridBegin := by
  rw [Store.lookup] at hk ⊢
  split at hk
  · next hkey => rw [if_pos hkey]; exact h.below _ hk
  · exact absurd rfl hk

/-- Every cell of the new store is an old one or the cell of a key. -/
def Store.Touches (s s' : Store) : Prop := ∀ c, s'.cells c = s.cells c ∨ ∃ k, s'.cells c = s'.lookup k

theorem Store.touches_cuco (s : Store) (m : ℕ → ℕ) (e : Bool) : s.Touches (.cuco m e) :=
  fun c => Or.inr ⟨c, (lookup_cuco m e c).symm⟩

theorem Store.Touches.below (h : s.Touches s') (hrows : s.Rows cridBegin) {n : ℕ} (hle : cridBegin ≤ n)
    (hl : ∀ k, s'.lookup k ≠ kAbsent → s'.lookup k < n) (c : ℕ) (hc : s'.cells c ≠ kAbsent) :
    s'.cells c < n := by
  rcases h c with h | ⟨k, h⟩
  · rw [h] at hc ⊢
    exact (hrows.below c hc).trans_le hle
  · rw [h] at hc ⊢
    exact hl k hc

/-- An accepted bulk insert: the keys are fresh, and the store holds them with their CRIDs. -/
theorem insertFresh_accept (hm : cridBegin + keys.length ≤ kAbsent) (hkeys : ∀ k ∈ keys, s.Named k)
    (h : s.insertFresh keys cridBegin = .ok (true, s')) :
    keys.Nodup ∧ (∀ k ∈ keys, s.lookup k = kAbsent) ∧ s.Alike s' ∧ s.Touches s' ∧
      ∀ k, s'.lookup k = if k ∈ keys then cridBegin + keys.idxOf k else s.lookup k := by
  cases s with
  | cuco m e =>
    simp only [Store.insertFresh, Except.ok.injEq, Prod.mk.injEq] at h
    obtain ⟨hacc, rfl⟩ := h
    obtain ⟨hnd, habs⟩ := fresh_of_insertFresh hm hacc
    refine ⟨hnd, fun k hk => ?_, trivial, Store.touches_cuco _ _ _, fun k => ?_⟩
    · rw [Store.lookup_cuco]; exact habs k hk
    · rw [Store.lookup_cuco, Store.lookup_cuco]; exact insertFresh_map hm hacc k
  | flat a maxO =>
    obtain ⟨hin, hacc, rfl⟩ := flat_insertFresh h
    have hline : ∀ k ∈ keys, LineOk maxO k := fun k hk => (hkeys k hk).resolve_right (hin k hk)
    have hm' : cridBegin + (keys.map (denseOf maxO)).length ≤ kAbsent := by simpa using hm
    obtain ⟨hnd, habs⟩ := fresh_of_insertFresh hm' hacc.symm
    refine ⟨List.Nodup.of_map _ hnd, fun k hk => ?_, rfl, fun c => ?_, fun k => ?_⟩
    · rw [Store.lookup_flat a (hline k hk)]
      exact habs _ (List.mem_map_of_mem hk)
    · rcases insertFresh_cases a false (keys.map (denseOf maxO)) cridBegin c with h | ⟨-, h⟩
      · exact Or.inl h
      · obtain ⟨k, hk, hc⟩ := List.mem_map.mp (tentative_snd_ge h).2
        simp only at hc
        subst hc
        exact Or.inr ⟨k, (Store.lookup_flat _ (hline k hk)).symm⟩
    · by_cases hk : LineOk maxO k
      · rw [Store.lookup_flat _ hk, Store.lookup_flat a hk]
        have hmem : denseOf maxO k ∈ keys.map (denseOf maxO) ↔ k ∈ keys := by
          rw [List.mem_map]
          refine ⟨?_, fun h => ⟨k, h, rfl⟩⟩
          rintro ⟨k', hk', heq⟩
          rw [← denseOf_inj (hline k' hk') hk heq]
          exact hk'
        rw [insertFresh_map hm' hacc.symm]
        simp only [hmem]
        split
        · next hin' =>
          congr 1
          have hi := List.idxOf_lt_length_iff.mpr hin'
          have := hnd.idxOf_getElem (keys.idxOf k) (by simpa using hi)
          rwa [List.getElem_map, List.getElem_idxOf hi] at this
        · rfl
      · rw [Store.lookup_flat_of_not _ hk, Store.lookup_flat_of_not a hk,
          if_neg fun h => hk (hline k h)]

theorem flatAssign_absent {maxO : ℕ} : ∀ (l : List ℕ), (∀ k ∈ l, ¬ maxO < olOId k) → ∀ a : ℕ → ℕ,
    flatAssign maxO a (l.map fun k => (k, kAbsent)) = eraseAll kAbsent a (l.map (denseOf maxO))
  | [], _, _ => rfl
  | k :: l, h, a => by
    have ih := flatAssign_absent l (fun k hk => h k (by simp [hk]))
      (Function.update a (denseOf maxO k) kAbsent)
    rw [flatAssign, eraseAll] at ih ⊢
    rw [List.map_cons, List.map_cons, List.foldl_cons, List.foldl_cons, ← ih, if_neg (h k (by simp))]

theorem race_map {order : List (ℕ × ℕ)} (hrace : order.Perm (tentative keys cridBegin)) (f : ℕ → ℕ) :
    (order.map fun x => (f x.1, x.2)).Perm (tentative (keys.map f) cridBegin) := by
  rw [← tentative_map]
  exact hrace.map _

/-- A rejected bulk insert is undone, whoever won the races. -/
theorem undo_race {order : List (ℕ × ℕ)} (hrace : order.Perm (tentative keys cridBegin))
    (hm : cridBegin + keys.length ≤ kAbsent)
    (hbelow : ∀ c, s.cells c ≠ kAbsent → s.cells c < cridBegin) {ok : Bool}
    (h : s.insertFreshRace keys cridBegin order = .ok (ok, s')) :
    s.Alike (s'.undo keys cridBegin) ∧ (s'.undo keys cridBegin).cells = s.cells := by
  cases s with
  | cuco m e =>
    simp only [Store.insertFreshRace, Except.ok.injEq, Prod.mk.injEq] at h
    obtain ⟨-, rfl⟩ := h
    refine ⟨trivial, ?_⟩
    simp only [Store.undo, Store.cells]
    exact eraseTentative_race hrace e hm hbelow
  | flat a maxO =>
    obtain ⟨hin, -, rfl⟩ := flat_insertFreshRace hrace h
    have hm' : cridBegin + (keys.map (denseOf maxO)).length ≤ kAbsent := by simpa using hm
    have hbelow' : ∀ c, a c ≠ kAbsent → a c < cridBegin := hbelow
    have hundo := eraseTentative_race (race_map hrace (denseOf maxO)) false hm' hbelow'
    refine ⟨rfl, ?_⟩
    revert hundo
    generalize (insertFreshRace a false (keys.map (denseOf maxO)) cridBegin
      (order.map fun x => (denseOf maxO x.1, x.2))).2 = a'
    intro hundo
    rw [eraseTentative] at hundo
    simp only [List.length_map] at hundo
    simp only [Store.undo, Store.cells]
    -- the same cells are reset, by key or by slot
    have hfil : (keys.map (denseOf maxO)).filter (fun c => sub32 (a' c) cridBegin < keys.length) =
        (keys.filter fun k => sub32 ((Store.flat a' maxO).find k) cridBegin < keys.length).map
          (denseOf maxO) := by
      have hsame : ∀ k ∈ keys, ((fun c => decide (sub32 (a' c) cridBegin < keys.length)) ∘
          denseOf maxO) k = decide (sub32 ((Store.flat a' maxO).find k) cridBegin < keys.length) := by
        intro k hk
        rw [Function.comp_apply, Store.find, if_neg (hin k hk)]
      rw [List.filter_map, List.filter_congr hsame]
    rw [hfil] at hundo
    have hsub : ∀ k ∈ keys.filter fun k => sub32 ((Store.flat a' maxO).find k) cridBegin < keys.length,
        ¬ maxO < olOId k := fun k hk => hin k (List.mem_of_mem_filter hk)
    rw [flatAssign_absent _ hsub a', hundo]

theorem undo_reject (hm : cridBegin + keys.length ≤ kAbsent) (hrows : s.Rows cridBegin)
    (h : s.insertFresh keys cridBegin = .ok (false, s')) :
    s.Alike (s'.undo keys cridBegin) ∧ (s'.undo keys cridBegin).cells = s.cells := by
  rw [← Store.insertFreshRace_tentative] at h
  exact undo_race (List.Perm.refl _) hm hrows.below h

/-- For every epoch-start index and every list of insert keys, and whoever wins the races of the bulk
    insert: the attempt succeeds exactly when the keys are pairwise distinct and none is live, and
    after a failed attempt the undo restores the index on every key. -/
theorem insertFresh_accepts_clean {order : List (ℕ × ℕ)}
    (hrace : order.Perm (tentative keys cridBegin)) (hm : cridBegin + keys.length ≤ kAbsent)
    (hbelow : ∀ c, s.cells c ≠ kAbsent → s.cells c < cridBegin) (hkeys : ∀ k ∈ keys, s.Named k)
    {ok : Bool} (h : s.insertFreshRace keys cridBegin order = .ok (ok, s')) :
    (ok = true ↔ keys.Nodup ∧ ∀ k ∈ keys, s.lookup k = kAbsent) ∧
      (ok = false → ∀ k, (s'.undo keys cridBegin).lookup k = s.lookup k) := by
  refine ⟨?_, fun _ k => ?_⟩
  · cases s with
    | cuco m e =>
      simp only [Store.insertFreshRace, Except.ok.injEq, Prod.mk.injEq] at h
      rw [← h.1, insertFreshRace_iff hrace e hm]
      simp only [Store.lookup_cuco]
    | flat a maxO =>
      obtain ⟨hin, rfl, -⟩ := flat_insertFreshRace hrace h
      have hline : ∀ k ∈ keys, LineOk maxO k := fun k hk => (hkeys k hk).resolve_right (hin k hk)
      rw [insertFreshRace_iff (race_map hrace _) false (by simpa using hm)]
      refine and_congr ⟨List.Nodup.of_map _, fun hnd => hnd.map_on fun k hk k' hk' he =>
        denseOf_inj (hline k hk) (hline k' hk') he⟩ ?_
      rw [List.forall_mem_map]
      refine forall₂_congr fun k hk => ?_
      rw [Store.lookup_flat a (hline k hk)]
  · obtain ⟨halike, hcells⟩ := undo_race hrace hm hbelow h
    rw [Store.lookup, Store.lookup, hcells, Store.Alike.addr halike k]
    exact if_congr (Store.Alike.keyed halike k) rfl rfl

/-- A new key twice, the second thread first, and a key that is live already. -/
theorem insertFresh_accepts_clean_race :
    let s : Store := .cuco (fun k => if k = 7 then 0 else kAbsent) false
    ∃ s', s.insertFreshRace [5, 5, 7] 1 [(5, 2), (7, 3), (5, 1)] = .ok (false, s') ∧
      ¬ ([5, 5, 7].Nodup ∧ ∀ k ∈ [5, 5, 7], s.lookup k = kAbsent) ∧
      ∀ k, (s'.undo [5, 5, 7] 1).lookup k = s.lookup k := by
  intro s
  cases hs : s.insertFreshRace [5, 5, 7] 1 [(5, 2), (7, 3), (5, 1)] with
  | error e => simp [s, Store.insertFreshRace] at hs
  | ok r =>
    have hbelow : ∀ c, s.cells c ≠ kAbsent → s.cells c < 1 := by
      intro c hc
      simp only [s, Store.cells] at hc ⊢
      split at hc
      · next hc' => rw [if_pos hc']; decide
      · exact absurd rfl hc
    have hfail : r.1 = false := by
      simp only [s, Store.insertFreshRace, Except.ok.injEq] at hs
      rw [← hs]
      decide
    obtain ⟨hiff, hundo⟩ := insertFresh_accepts_clean (show [(5, 2), (7, 3), (5, 1)].Perm
      (tentative [5, 5, 7] 1) by decide) (by decide) hbelow (fun _ _ => trivial)
      (show s.insertFreshRace [5, 5, 7] 1 [(5, 2), (7, 3), (5, 1)] = .ok (r.1, r.2) from hs)
    refine ⟨r.2, by rw [← hfail], fun h => ?_, hundo hfail⟩
    rw [hiff.mpr h] at hfail
    exact absurd hfail (by simp)

/-! ### The update at the epoch boundary -/

theorem flatAssign_apply {maxO : ℕ} (f : ℕ → ℕ) {k : ℕ} (hk : LineOk maxO k) :
    ∀ (l : List ℕ), (∀ k ∈ l, LineOk maxO k) → ∀ a : ℕ → ℕ,
      flatAssign maxO a (l.map fun k => (k, f k)) (denseOf maxO k) =
        if k ∈ l then f k else a (denseOf maxO k)
  | [], _, _ => by simp [flatAssign]
  | k' :: l, h, a => by
    have hk' := h k' (by simp)
    have ih := flatAssign_apply f hk l (fun k hk => h k (by simp [hk]))
      (Function.update a (denseOf maxO k') (f k'))
    rw [flatAssign] at ih ⊢
    rw [List.map_cons, List.foldl_cons, if_neg (Nat.not_lt.mpr hk'.o.2), ih]
    by_cases hkk : k = k'
    · subst hkk; simp
    · have hne : denseOf maxO k ≠ denseOf maxO k' := fun h => hkk (denseOf_inj hk hk' h)
      simp [hkk, Function.update_of_ne hne]

theorem flatAssign_cells {maxO : ℕ} (f : ℕ → ℕ) (c : ℕ) : ∀ (l : List ℕ), (∀ k ∈ l, LineOk maxO k) →
    ∀ a : ℕ → ℕ, flatAssign maxO a (l.map fun k => (k, f k)) c = a c ∨ ∃ k ∈ l, c = denseOf maxO k
  | [], _, _ => Or.inl rfl
  | k' :: l, h, a => by
    have hk' := h k' (by simp)
    have ih := flatAssign_cells f c l (fun k hk => h k (by simp [hk]))
      (Function.update a (denseOf maxO k') (f k'))
    rw [flatAssign] at ih ⊢
    rw [List.map_cons, List.foldl_cons, if_neg (Nat.not_lt.mpr hk'.o.2)]
    rcases ih with ih | ⟨k, hk, hc⟩
    · by_cases hc : c = denseOf maxO k'
      · exact Or.inr ⟨k', by simp, hc⟩
      · exact Or.inl (by rw [ih, Function.update_of_ne hc])
    · exact Or.inr ⟨k, by simp [hk], hc⟩

end

/-- Without deletes a live key keeps its record. -/
theorem finalLives_of_live {lookup : ℕ → ℕ} {evs : List Event} (hno : ∀ v ∈ evs, v.type = .insert)
    {k : ℕ} {l : Life} (h : startLife lookup k = some l) : finalLives lookup evs k = some l := by
  rw [finalLives_eq]
  have hall : ∀ v ∈ timelineOf evs k, v.type = .insert := fun v hv => hno v (mem_timelineOf.mp hv).1
  revert hall
  generalize timelineOf evs k = tl
  intro hall
  induction tl with
  | nil => exact h
  | cons v tl ih =>
    rw [List.foldl_cons]
    have : lifeStep v (startLife lookup k) = startLife lookup k := by
      simp [lifeStep, hall v (by simp), h]
    rw [this]
    exact ih fun w hw => hall w (by simp [hw])

section
variable {s : Store} {b cridBegin : ℕ} {entries : List Entry}

/-- Finalising a store with its timeline leaves the final lives of the serial run. -/
theorem finalize_spec (old : ℕ → ℕ) (hf : Fits b (events entries))
    (hm : MintFits s.lookup (events entries) cridBegin)
    (hkeys : ∀ v ∈ events entries, s.Keyed v.key)
    (hdel : (∃ m e, s = .cuco m e) ∨ ∀ v ∈ events entries, v.type = .insert) :
    ∃ s', s.finalize (build b s.lookup cridBegin old entries) = .ok s' ∧ s.Alike s' ∧ s.Touches s' ∧
      ∀ k, s'.lookup k =
        serialCrid s.lookup (events entries) cridBegin (finalLives s.lookup (events entries) k) := by
  cases s with
  | cuco m e =>
    have hm' : (Store.cuco m e).lookup = m := funext fun k => Store.lookup_cuco m e k
    rw [hm'] at hm ⊢
    have hag := build_agrees old hf hm
    refine ⟨_, rfl, trivial, Store.touches_cuco _ _ _, fun k => ?_⟩
    rw [Store.lookup_cuco]
    exact hag.finalize k
  | flat a maxO =>
    have hno : ∀ v ∈ events entries, v.type = .insert := by
      rcases hdel with ⟨m, e, h⟩ | h
      · simp at h
      · exact h
    set lookup := (Store.flat a maxO).lookup with hlookup
    set c := fun k => serialCrid lookup (events entries) cridBegin
      (finalLives lookup (events entries) k) with hc
    obtain ⟨ks, hnd, hks, herase, hinsert⟩ := build_updates old hf hm (c := c) fun _ => rfl
    have hlive : ∀ k, lookup k ≠ kAbsent → c k = lookup k := by
      intro k hk
      simp only [hc]
      rw [finalLives_of_live hno (l := .initial (lookup k)) (by rw [startLife, if_neg hk])]
      rfl
    have hout : ∀ k, k ∉ ks → c k = lookup k := by
      intro k hk
      have : timelineOf (events entries) k = [] := by
        rw [List.eq_nil_iff_forall_not_mem]
        exact fun v hv => hk ((hks k).mpr ⟨v, mem_timelineOf.mp hv⟩)
      simp only [hc]
      rw [finalLives_eq, this, List.foldl_nil, serialCrid_startLife]
    have hnil : ks.filter (fun k => decide (lookup k ≠ kAbsent ∧ c k ≠ lookup k)) = [] := by
      rw [List.filter_eq_nil_iff]
      intro k _
      simp only [decide_eq_true_eq, not_and, not_not]
      exact hlive k
    have hline : ∀ k ∈ ks.filter fun k => decide (c k ≠ kAbsent ∧ c k ≠ lookup k), LineOk maxO k := by
      intro k hk
      obtain ⟨v, hv, rfl⟩ := (hks k).mp (List.mem_of_mem_filter hk)
      exact hkeys v hv
    rw [Store.finalize, herase, hnil, hinsert]
    refine ⟨_, rfl, rfl, fun c₀ => ?_, fun k => ?_⟩
    · rcases flatAssign_cells c c₀ _ hline a with h | ⟨k, hk, rfl⟩
      · exact Or.inl h
      · exact Or.inr ⟨k, (Store.lookup_flat _ (hline k hk)).symm⟩
    · change _ = c k
      by_cases hk : LineOk maxO k
      · rw [Store.lookup_flat _ hk, flatAssign_apply c hk _ hline a]
        have hlk : lookup k = a (denseOf maxO k) := Store.lookup_flat a hk
        split
        · rfl
        · next hnot =>
          rw [← hlk]
          by_cases hmem : k ∈ ks
          · simp only [List.mem_filter, hmem, true_and, decide_eq_true_eq, not_and, not_not] at hnot
            by_cases habs : c k = kAbsent
            · by_contra hne
              have := hlive k (by rw [habs] at hne; exact hne)
              exact hne this.symm
            · exact (hnot habs).symm
          · exact (hout k hmem).symm
      · have habs : lookup k = kAbsent := Store.lookup_flat_of_not a hk
        rw [Store.lookup_flat_of_not _ hk, hout k, habs]
        intro hmem
        obtain ⟨v, hv, rfl⟩ := (hks k).mp hmem
        exact hk (hkeys v hv)

end

end Egad.Tpcc
