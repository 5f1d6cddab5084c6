import Egad.Ycsb.ShadowIndex

/-! # YCSB delete positions between epochs

    `d_del_pos` is filled with `kAbsent` when it is allocated and never cleared as a whole again. The
    deletes of an epoch on the fast path lower entries of it in whatever order the threads come, and
    the effective deletes reset theirs; an epoch that falls back to the timeline does so before any
    entry is written:

        insertFresh ──accept──▶ k_record_deletes ─▶ k_effective_deletes ─▶ k_reset_positions
            └──reject──▶ timeline (array untouched) -/

namespace Egad.Ycsb
open Egad.Lib Egad.Timeline

/-- The map the fast path resolves an epoch on; `none` when the epoch falls back. -/
def fastMap (cfg : Config) (idx : Index) (slots : List Slot) : Option (ℕ → ℕ) :=
  if (insKeys slots).length = 0 then some idx.map
  else
    match insertFresh idx.map idx.hasErased (insKeys slots) (mintedBegin cfg idx) with
    | (true, map) => some map
    | (false, _) => none

/-- `d_del_pos` after `k_record_deletes`, the slots taken in the order of the threads; a mix without
    deletes and an epoch that falls back leave it as it was. -/
def recordedPositions (cfg : Config) (idx : Index) (slots : List Slot) (order : List (Slot × ℕ)) :
    ℕ → ℕ :=
  if 0 < cfg.numDeletes then
    match fastMap cfg idx slots with
    | some map => order.foldl (recordDelete (look slots (mintedBegin cfg idx) map)) idx.delPos
    | none => idx.delPos
  else idx.delPos

/-- One epoch of a delete-position array: a recorded CRID is that of one effective delete, and the
    array ends clean. -/
structure ResetCovers (recorded : ℕ → ℕ) (edelCrids : List ℕ) (delPos : ℕ → ℕ) : Prop where
  once : ∀ c, recorded c ≠ kAbsent → edelCrids.count c = 1
  clean : ∀ c, delPos c = kAbsent

/-! ### The two paths -/

section
variable {cfg : Config} {idx idx' : Index} {slots : List Slot} {out : EpochOut} {map : ℕ → ℕ}

theorem generalEpoch_delPos (h : generalEpoch cfg idx slots = .ok (idx', out)) :
    idx'.delPos = idx.delPos := by
  simp only [generalEpoch] at h
  cases hc : checkFreeRows cfg idx.freeStart (timeline cfg idx slots).numMinted with
  | error e => rw [hc] at h; simp [bind, Except.bind] at h
  | ok u =>
    rw [hc] at h
    obtain ⟨rfl, -⟩ := Prod.mk.inj (Except.ok.inj h)
    rfl

/-- An epoch takes the fast path on the map that `insertFresh` accepted, or leaves the array to the
    timeline path, which has no use for it. -/
theorem indexTxns_path (h : indexTxns cfg idx slots = .ok (idx', out)) :
    (∃ map, fastMap cfg idx slots = some map ∧ fastEpoch cfg idx map slots = (idx', out)) ∨
      fastMap cfg idx slots = none ∧ idx'.delPos = idx.delPos := by
  simp only [indexTxns] at h
  cases hc : checkFreeRows cfg idx.freeStart (insKeys slots).length with
  | error e => rw [hc] at h; simp [bind, Except.bind] at h
  | ok u =>
    rw [hc] at h
    simp only [bind, Except.bind, pure, Except.pure] at h
    split at h
    · next h0 => exact Or.inl ⟨idx.map, if_pos h0, by simpa using h⟩
    · next h0 =>
      split at h
      · next map hacc => exact Or.inl ⟨map, by rw [fastMap, if_neg h0, hacc], by simpa using h⟩
      · next map hrej =>
        exact Or.inr ⟨by rw [fastMap, if_neg h0, hrej], (generalEpoch_delPos h).trans rfl⟩

/-! ### Positions and flags -/

/-- The slot that holds its record's position is the effective delete of that record. -/
theorem effective_of_holds {look : ℕ → ℕ → ℕ} {d : ℕ → ℕ} {x : Slot × ℕ} {c : ℕ}
    (hx : deleted look x = some c) (hd : d c = x.2) :
    isEffectiveDelete look d x = true ∧ fastRecordId look (some d) x = c := by
  obtain ⟨hop, hlook, hne⟩ := deleted_eq_some.mp hx
  have hrid : fastRecordId look (some d) x = c := by
    simp only [fastRecordId, hlook]
    rw [if_neg fun h => absurd h.2 (by omega)]
  refine ⟨?_, hrid⟩
  rw [isEffectiveDelete, decide_eq_true_eq, hrid]
  exact ⟨hop, hne, hd⟩

/-- The effective deletes of an epoch end distinct records. -/
theorem effective_nodup (look : ℕ → ℕ → ℕ) (d : ℕ → ℕ) (slots : List Slot) :
    ((slots.zipIdx.filter (isEffectiveDelete look d)).map (fastRecordId look (some d))).Nodup := by
  have hnd : slots.zipIdx.Nodup := (zipIdx_increasing slots).imp fun {x y} hlt heq => by
    rw [heq] at hlt
    exact lt_irrefl _ hlt
  refine nodup_flagged d Prod.snd (hnd.filter _) (fun x hx => ?_)
    fun x hx y hy _ hpos => ?_
  · obtain ⟨-, heff⟩ := List.mem_filter.mp hx
    rw [isEffectiveDelete, decide_eq_true_eq] at heff
    exact heff.2.2
  · have hsx := mem_zipIdx_slots.mp (List.mem_of_mem_filter hx)
    have hsy := mem_zipIdx_slots.mp (List.mem_of_mem_filter hy)
    rw [hpos, hsy, Option.some.injEq] at hsx
    exact Prod.ext hsx.symm hpos

/-! ### One epoch -/

/-- From a clean array an epoch records the positions of its effective deletes and resets them. -/
theorem resetCovers_step (hclean : ∀ c, idx.delPos c = kAbsent)
    (h : indexTxns cfg idx slots = .ok (idx', out)) {order : List (Slot × ℕ)}
    (hord : order.Perm slots.zipIdx) :
    ResetCovers (recordedPositions cfg idx slots order) out.edelCrids idx'.delPos := by
  rw [recordedPositions]
  obtain ⟨map, hmap, hfast⟩ | ⟨hmap, hsame⟩ := indexTxns_path h
  · rw [hmap]
    simp only [fastEpoch] at hfast
    split at hfast
    · next hdel =>
      obtain ⟨rfl, rfl⟩ := Prod.mk.inj hfast
      rw [if_pos hdel]
      simp only
      set d := recordDeletes (look slots (mintedBegin cfg idx) map) slots idx.delPos with hd
      have hmark : d = mark (deleted (look slots (mintedBegin cfg idx) map)) Prod.snd slots.zipIdx
          idx.delPos := recordDeletes_mark _ _ _
      have horder : order.foldl (recordDelete (look slots (mintedBegin cfg idx) map)) idx.delPos =
          d := by rw [recordDeletes_mark, mark_perm hord, hmark]
      -- a slot that holds its record's position is in the reset list
      have hlist : ∀ x ∈ slots.zipIdx, ∀ c,
          deleted (look slots (mintedBegin cfg idx) map) x = some c → d c = x.2 →
          c ∈ (slots.zipIdx.filter (isEffectiveDelete (look slots (mintedBegin cfg idx) map) d)).map
            (fastRecordId (look slots (mintedBegin cfg idx) map) (some d)) := by
        intro x hx c hxc hdc
        obtain ⟨heff, hrid⟩ := effective_of_holds hxc hdc
        exact List.mem_map.mpr ⟨x, List.mem_filter.mpr ⟨hx, heff⟩, hrid⟩
      refine ⟨fun c hc => ?_, fun c => ?_⟩
      · rw [horder, hmark] at hc
        obtain ⟨x, hx, hxc, hpos⟩ := exists_flagged hclean hc
        rw [← hmark] at hpos
        exact List.count_eq_one_of_mem (effective_nodup _ d slots) (hlist x hx c hxc hpos)
      · rw [hmark]
        refine eraseAll_mark hclean (fun x hx c hxc hpos => ?_) c
        rw [← hmark] at hpos ⊢
        exact hlist x hx c hxc hpos
    · next hdel =>
      obtain ⟨rfl, rfl⟩ := Prod.mk.inj hfast
      rw [if_neg hdel]
      exact ⟨fun c hc => absurd (hclean c) hc, hclean⟩
  · rw [hmap]
    simp only [ite_self]
    exact ⟨fun c hc => absurd (hclean c) hc, fun c => by rw [hsame, hclean]⟩

end

/-! ### Runs -/

section
variable {cfg : Config}

/-- Every run keeps the array clean between epochs. -/
theorem delPos_run : ∀ {epochs : List (List Slot)} {g g' : GpuIndex},
    (∀ c, g.index.delPos c = kAbsent) → g.run cfg epochs = .ok g' →
    ∀ c, g'.index.delPos c = kAbsent
  | [], g, g', hclean, h => by
    obtain rfl : g = g' := by simpa [GpuIndex.run, pure, Except.pure] using h
    exact hclean
  | slots :: epochs, g, g', hclean, h => by
    obtain ⟨g₁, h1, h2⟩ := run_cons h
    obtain ⟨idx, out, hidx, rfl⟩ := indexTxns_ok h1
    exact delPos_run (resetCovers_step hclean hidx (List.Perm.refl _)).clean h2

end

end Egad.Ycsb
