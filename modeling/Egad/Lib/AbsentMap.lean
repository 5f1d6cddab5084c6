import Mathlib.Logic.Function.Basic
import Mathlib.Data.List.Nodup

/-! # Finite maps with an absent value

    A hash map seen through its lookup: a function that returns `absent` for a key it does not hold.
    `insertOne` keeps the value of a key that is present, as an insert without assignment does. -/

namespace Egad.Lib

variable {K V : Type*} [DecidableEq K] [DecidableEq V] (absent : V)

/-- Erase each key of a list. -/
def eraseAll (m : K → V) (keys : List K) : K → V :=
  keys.foldl (fun m k => Function.update m k absent) m

/-- Insert one pair; a key that is present keeps its value. -/
def insertOne (m : K → V) (x : K × V) : K → V :=
  if m x.1 = absent then Function.update m x.1 x.2 else m

/-- Insert each pair of a list. -/
def insertAll (m : K → V) (kvs : List (K × V)) : K → V := kvs.foldl (insertOne absent) m

variable {absent}

omit [DecidableEq V] in
theorem eraseAll_apply (k : K) : ∀ (keys : List K) (m : K → V),
    eraseAll absent m keys k = if k ∈ keys then absent else m k
  | [], m => by simp [eraseAll]
  | a :: keys, m => by
    have ih := eraseAll_apply k keys (Function.update m a absent)
    rw [eraseAll] at ih ⊢
    rw [List.foldl_cons, ih]
    by_cases h : k = a
    · subst h; simp
    · simp [h]

theorem insertOne_of_ne {m : K → V} {x : K × V} {k : K} (h : k ≠ x.1) :
    insertOne absent m x k = m k := by
  rw [insertOne]
  split
  · rw [Function.update_of_ne h]
  · rfl

theorem insertAll_of_notMem {k : K} : ∀ (kvs : List (K × V)) (m : K → V), k ∉ kvs.map Prod.fst →
    insertAll absent m kvs k = m k
  | [], _, _ => rfl
  | x :: kvs, m, h => by
    rw [List.map_cons, List.mem_cons, not_or] at h
    have ih := insertAll_of_notMem kvs (insertOne absent m x) h.2
    rw [insertAll] at ih ⊢
    rw [List.foldl_cons, ih, insertOne_of_ne h.1]

theorem insertAll_of_mem {k : K} {c : V} : ∀ (kvs : List (K × V)) (m : K → V),
    (kvs.map Prod.fst).Nodup → (k, c) ∈ kvs → m k = absent → insertAll absent m kvs k = c
  | x :: kvs, m, hnd, hmem, hm => by
    rw [List.map_cons, List.nodup_cons] at hnd
    rcases List.mem_cons.mp hmem with rfl | hmem
    · have ih : insertAll absent (insertOne absent m (k, c)) kvs k = _ :=
        insertAll_of_notMem kvs _ hnd.1
      rw [insertAll] at ih ⊢
      rw [List.foldl_cons, ih, insertOne, if_pos hm, Function.update_self]
    · have hne : k ≠ x.1 := fun h => hnd.1 (List.mem_map.mpr ⟨_, hmem, h⟩)
      have ih := insertAll_of_mem kvs (insertOne absent m x) hnd.2 hmem
        ((insertOne_of_ne hne).trans hm)
      rw [insertAll] at ih ⊢
      rw [List.foldl_cons, ih]

variable (absent) in
/-- An insert list leaves a key alone or gives an absent key one of its values. -/
theorem insertAll_cases (k : K) : ∀ (kvs : List (K × V)) (m : K → V),
    insertAll absent m kvs k = m k ∨ (m k = absent ∧ (k, insertAll absent m kvs k) ∈ kvs)
  | [], _ => Or.inl rfl
  | x :: kvs, m => by
    have ih := insertAll_cases k kvs (insertOne absent m x)
    have hcons : insertAll absent m (x :: kvs) = insertAll absent (insertOne absent m x) kvs := rfl
    rw [hcons]
    by_cases hk : k = x.1
    · subst hk
      by_cases hm : m x.1 = absent
      · rw [insertOne, if_pos hm] at ih ⊢
        refine Or.inr ⟨hm, ?_⟩
        rcases ih with ih | ⟨-, ih⟩
        · rw [ih, Function.update_self]; exact List.mem_cons_self
        · exact List.mem_cons_of_mem _ ih
      · rw [insertOne, if_neg hm] at ih ⊢
        exact ih.imp_right fun h => ⟨h.1, List.mem_cons_of_mem _ h.2⟩
    · rw [insertOne_of_ne hk] at ih
      exact ih.imp_right fun h => ⟨h.1, List.mem_cons_of_mem _ h.2⟩

end Egad.Lib
