import Mathlib.Data.List.Forall2
import Mathlib.Tactic.Common

/-! # Two ways of naming the same references

    A program refers to objects by keys and an index gives every key an id. Two indexes that build
    their keys in different ways, and number them in different ways, identify the same objects when
    equal ids on one side are equal ids on the other:

        references    r₁        r₂        r₃        …
        keys      (k₁, l₁)  (k₂, l₂)  (k₃, l₃)      each reference has a kind and two keys
        ids       (a₁, b₁)  (a₂, b₂)  (a₃, b₃)      given by two injective assignments

    Only the keys decide that, not the numbers. -/

namespace Egad.Lib

variable {τ κ ι : Type*}

/-- An assignment of ids to keys, one for each kind of object. -/
def Naming (τ κ ι : Type*) : Type _ := τ → κ → Option ι

/-- Different keys of a kind have different ids. -/
def Naming.Injective (f : Naming τ κ ι) : Prop :=
  ∀ ⦃T k k' v⦄, f T k = some v → f T k' = some v → k = k'

theorem Naming.Injective.eq_iff {f : Naming τ κ ι} (hf : f.Injective) {T : τ} {k k' : κ} {v v' : ι}
    (h : f T k = some v) (h' : f T k' = some v') : v = v' ↔ k = k' := by
  refine ⟨fun he => hf h (he ▸ h'), fun he => ?_⟩
  rw [he, h'] at h
  exact (Option.some.inj h).symm

/-- The ids that references with these keys get. -/
def Naming.Names (f : Naming τ κ ι) (keys : List (τ × κ)) (ids : List (τ × ι)) : Prop :=
  List.Forall₂ (fun k r => r.1 = k.1 ∧ f k.1 k.2 = some r.2) keys ids

/-- Two lists of ids for the same references that identify the same objects. -/
structure SameObjects {ι' : Type*} (a : List (τ × ι)) (b : List (τ × ι')) : Prop where
  kinds : a.map Prod.fst = b.map Prod.fst
  ids : ∀ x ∈ a.zip b, ∀ y ∈ a.zip b, x.1.1 = y.1.1 → (x.1.2 = y.1.2 ↔ x.2.2 = y.2.2)

section
variable {f g : Naming τ κ ι} {keys keys' : List (τ × κ)} {ids ids' : List (τ × ι)}

theorem Naming.Names.nil : f.Names [] [] := List.Forall₂.nil

theorem Naming.Names.cons {T : τ} {k : κ} {v : ι} (hv : f T k = some v) (h : f.Names keys ids) :
    f.Names ((T, k) :: keys) ((T, v) :: ids) :=
  List.Forall₂.cons ⟨rfl, hv⟩ h

theorem Naming.Names.append (h : f.Names keys ids) (h' : f.Names keys' ids') :
    f.Names (keys ++ keys') (ids ++ ids') := List.rel_append h h'

/-- An assignment that keeps its ids keeps the ids of references. -/
theorem Naming.Names.mono (hfg : ∀ T k v, f T k = some v → g T k = some v) (h : f.Names keys ids) :
    g.Names keys ids := by
  refine List.Forall₂.imp ?_ h
  rintro ⟨T, k⟩ r ⟨hT, hv⟩
  exact ⟨hT, hfg T k r.2 hv⟩

theorem Naming.Names.kinds (h : f.Names keys ids) : ids.map Prod.fst = keys.map Prod.fst := by
  induction h with
  | nil => rfl
  | cons hx _ ih => rw [List.map_cons, List.map_cons, hx.1, ih]

theorem Naming.Names.get (h : f.Names keys ids) {n : ℕ} {T : τ} {k : κ}
    (hk : keys[n]? = some (T, k)) : ∃ v, ids[n]? = some (T, v) ∧ f T k = some v := by
  induction h generalizing n with
  | nil => simp at hk
  | @cons x r keys ids hx _ ih =>
    cases n with
    | zero =>
      obtain rfl : x = (T, k) := by simpa using hk
      obtain ⟨T', v⟩ := r
      obtain ⟨rfl, hv⟩ := hx
      exact ⟨v, rfl, hv⟩
    | succ n => exact ih hk

end

/-- Two injective assignments identify the same objects exactly when the two keys of references of
    one kind agree with each other. -/
theorem sameObjects_iff {ι' : Type*} {f : Naming τ κ ι} {g : Naming τ κ ι'} (hf : f.Injective)
    (hg : g.Injective) {keys : List (τ × κ × κ)} {a : List (τ × ι)} {b : List (τ × ι')}
    (ha : f.Names (keys.map fun x => (x.1, x.2.1)) a)
    (hb : g.Names (keys.map fun x => (x.1, x.2.2)) b) :
    SameObjects a b ↔
      ∀ x ∈ keys, ∀ y ∈ keys, x.1 = y.1 → (x.2.1 = y.2.1 ↔ x.2.2 = y.2.2) := by
  -- the ids of the reference at a position
  have hget : ∀ {n : ℕ} {x : τ × κ × κ}, keys[n]? = some x → ∃ u v, a[n]? = some (x.1, u) ∧
      f x.1 x.2.1 = some u ∧ b[n]? = some (x.1, v) ∧ g x.1 x.2.2 = some v := by
    intro n x hx
    obtain ⟨u, hu, hfu⟩ := ha.get (n := n) (T := x.1) (k := x.2.1) (by simp [hx])
    obtain ⟨v, hv, hgv⟩ := hb.get (n := n) (T := x.1) (k := x.2.2) (by simp [hx])
    exact ⟨u, v, hu, hfu, hv, hgv⟩
  constructor
  · rintro ⟨-, hsame⟩ x hx y hy hT
    obtain ⟨n, hn⟩ := List.mem_iff_getElem?.mp hx
    obtain ⟨m, hm⟩ := List.mem_iff_getElem?.mp hy
    obtain ⟨u, v, hu, hfu, hv, hgv⟩ := hget hn
    obtain ⟨u', v', hu', hfu', hv', hgv'⟩ := hget hm
    have hz : ((x.1, u), (x.1, v)) ∈ a.zip b :=
      List.mem_of_getElem? (i := n) (by simp [List.getElem?_zip_eq_some, hu, hv])
    have hz' : ((y.1, u'), (y.1, v')) ∈ a.zip b :=
      List.mem_of_getElem? (i := m) (by simp [List.getElem?_zip_eq_some, hu', hv'])
    have h := hsame _ hz _ hz' hT
    rw [← hT] at hfu' hgv'
    rwa [hf.eq_iff hfu hfu', hg.eq_iff hgv hgv'] at h
  · intro hkeys
    refine ⟨?_, fun x hx y hy hT => ?_⟩
    · rw [ha.kinds, hb.kinds, List.map_map, List.map_map]
      rfl
    · obtain ⟨n, hn⟩ := List.mem_iff_getElem?.mp hx
      obtain ⟨m, hm⟩ := List.mem_iff_getElem?.mp hy
      obtain ⟨hxa, hxb⟩ := List.getElem?_zip_eq_some.mp hn
      obtain ⟨hya, hyb⟩ := List.getElem?_zip_eq_some.mp hm
      have hlen : keys.length = a.length := by simpa using ha.length_eq
      obtain ⟨kx, hkx⟩ : ∃ k, keys[n]? = some k :=
        ⟨_, List.getElem?_eq_getElem (hlen ▸ (List.getElem?_eq_some_iff.mp hxa).1)⟩
      obtain ⟨ky, hky⟩ : ∃ k, keys[m]? = some k :=
        ⟨_, List.getElem?_eq_getElem (hlen ▸ (List.getElem?_eq_some_iff.mp hya).1)⟩
      obtain ⟨u, v, hu, hfu, hv, hgv⟩ := hget hkx
      obtain ⟨u', v', hu', hfu', hv', hgv'⟩ := hget hky
      rw [hxa, Option.some.injEq] at hu
      rw [hxb, Option.some.injEq] at hv
      rw [hya, Option.some.injEq] at hu'
      rw [hyb, Option.some.injEq] at hv'
      rw [hu, hu'] at hT
      have hTk : kx.1 = ky.1 := hT
      rw [hu, hv, hu', hv']
      have h := hkeys kx (List.mem_of_getElem? hkx) ky (List.mem_of_getElem? hky) hTk
      rw [← hTk] at hfu' hgv'
      rwa [hf.eq_iff hfu hfu', hg.eq_iff hgv hgv']

end Egad.Lib
