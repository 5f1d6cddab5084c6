import Egad.Tpcc.Inputs

/-! # What an epoch finds

    An epoch is answered when every insert is of a new key and every delete finds its record, once.
    Then a key is live exactly when it was there or has been inserted, and has not been deleted:

        start        inserts before        deletes before
        there?   or      one of k     and      none of k      ⟺   live

    and every delete of the epoch is an effective one. -/

namespace Egad.Timeline
open Egad.Lib

/-- The inserts are of fresh keys and each delete finds a record that no other delete takes. -/
structure Answered (lookup : ℕ → ℕ) (evs : List Event) : Prop where
  fresh : Fresh lookup evs
  live : ∀ w ∈ evs, w.type = .delete → lookup w.key ≠ kAbsent ∨
    ∃ v ∈ evs, v.type = .insert ∧ v.key = w.key ∧ v.before w.pos w.entry = true
  once : ∀ w ∈ evs, ∀ u ∈ evs, w.type = .delete → u.type = .delete → w.key = u.key → w = u

section
variable {lookup : ℕ → ℕ} {evs : List Event}

/-- Deletes left out, a key is live when it was there or has been inserted. -/
theorem baseLife_ne_none (hfr : Fresh lookup evs) (pos self k : ℕ) :
    baseLife lookup evs pos self k ≠ none ↔ lookup k ≠ kAbsent ∨
      ∃ v ∈ evs, v.type = .insert ∧ v.key = k ∧ v.before pos self = true := by
  unfold baseLife
  cases hi : insertOf evs k with
  | none =>
    have hno : ¬ ∃ v ∈ evs, v.type = .insert ∧ v.key = k ∧ v.before pos self = true := by
      rintro ⟨v, hv, hvt, hvk, -⟩
      rw [insertOf_none hi hv hvk] at hvt
      cases hvt
    simp [startLife, hno]
  | some v =>
    obtain ⟨hv, hvt, rfl⟩ := insertOf_some hi
    have hstart : lookup v.key = kAbsent := hfr.absent v hv hvt
    simp only [hstart, ne_eq, not_true_eq_false, false_or, ite_eq_right_iff, reduceCtorEq, imp_false,
      not_not]
    constructor
    · intro hb
      exact ⟨v, hv, hvt, rfl, hb⟩
    · rintro ⟨u, hu, hut, huk, hb⟩
      rwa [hfr.distinct u hu v hv hut hvt huk] at hb

theorem Answered.deletedBefore_iff (h : Answered lookup evs) (pos self k : ℕ) :
    DeletedBefore lookup evs pos self k ↔
      ∃ w ∈ evs, w.type = .delete ∧ w.key = k ∧ w.before pos self = true := by
  constructor
  · rintro ⟨w, hw, hwt, hwk, hb, -⟩
    exact ⟨w, hw, hwt, hwk, hb⟩
  · rintro ⟨w, hw, hwt, rfl, hb⟩
    exact ⟨w, hw, hwt, rfl, hb, (baseLife_ne_none h.fresh _ _ _).mpr (h.live w hw hwt)⟩

/-- A key is live at a position when it is there or inserted, and not deleted, before it. -/
theorem Answered.livesAt_ne_none (hev : evs.Pairwise (fun a b => a.entry < b.entry))
    (h : Answered lookup evs) (pos self k : ℕ) :
    livesAt lookup evs pos self k ≠ none ↔ (lookup k ≠ kAbsent ∨
        ∃ v ∈ evs, v.type = .insert ∧ v.key = k ∧ v.before pos self = true) ∧
      ¬ ∃ w ∈ evs, w.type = .delete ∧ w.key = k ∧ w.before pos self = true := by
  rw [← baseLife_ne_none h.fresh, ← h.deletedBefore_iff]
  rcases livesAt_fresh hev h.fresh pos self k with ⟨hd, hl⟩ | ⟨hd, hl⟩
  · simp [hl, hd]
  · simp [hl, hd]

/-- Every delete is effective. -/
theorem Answered.ended_eq (hev : evs.Pairwise (fun a b => a.entry < b.entry))
    (h : Answered lookup evs) : ended lookup evs = evs.filter fun v => v.type = .delete := by
  refine List.filter_congr fun w hw => ?_
  have hiff := @endsLife_fresh lookup evs hev h.fresh w
  by_cases hwt : w.type = .delete
  · have hends : endsLife lookup evs w = true := by
      refine hiff.mpr ⟨hwt, ?_, (baseLife_ne_none h.fresh _ _ _).mpr (h.live w hw hwt)⟩
      rintro ⟨u, hu, hut, huk, hb, -⟩
      -- the only delete of the key is this one
      rw [h.once u hu w hw hut hwt huk] at hb
      simp [Event.before] at hb
    rw [hends, hwt]
    rfl
  · have hends : endsLife lookup evs w ≠ true := fun he => hwt (hiff.mp he).1
    simpa [hwt] using hends

end

end Egad.Timeline

namespace Egad.Tpcc
open Egad.Lib Egad.Timeline

/-! ### The keys of the transactions -/

/-- The events of a list of transactions: transaction `tid` inserts its keys at `tid * 4` and deletes
    its keys at `tid * 4 + 2`. -/
structure Keyed {τ : Type} (evs : List Event) (txns : List τ) (ins del : τ → List ℕ) : Prop where
  inserts : ((inserts evs).map fun v => (v.key, v.pos)) =
    txns.zipIdx.flatMap fun x => (ins x.1).map fun k => (k, x.2 * 4)
  deletes : ((evs.filter fun v => v.type = .delete).map fun v => (v.key, v.pos)) =
    txns.zipIdx.flatMap fun x => (del x.1).map fun k => (k, x.2 * 4 + 2)

/-- A transaction before `tid` has the key. -/
def KeyBefore {τ : Type} (txns : List τ) (keys : τ → List ℕ) (tid k : ℕ) : Prop :=
  ∃ j < tid, ∃ u, txns[j]? = some u ∧ k ∈ keys u

/-- Each transaction inserts new keys and deletes keys that are there, once. -/
structure InOrder {τ : Type} (lookup : ℕ → ℕ) (txns : List τ) (ins del : τ → List ℕ) : Prop where
  insNodup : ∀ t ∈ txns, (ins t).Nodup
  delNodup : ∀ t ∈ txns, (del t).Nodup
  inserts : ∀ tid t, txns[tid]? = some t → ∀ k ∈ ins t,
    lookup k = kAbsent ∧ ¬ KeyBefore txns ins tid k
  deletes : ∀ tid t, txns[tid]? = some t → ∀ k ∈ del t,
    (lookup k ≠ kAbsent ∨ KeyBefore txns ins tid k) ∧ ¬ KeyBefore txns del tid k

section
variable {τ : Type} {evs : List Event} {txns : List τ} {ins del : τ → List ℕ} {lookup : ℕ → ℕ}

theorem mem_blocks {keys : τ → List ℕ} {off k p : ℕ} :
    (k, p) ∈ (txns.zipIdx.flatMap fun x => (keys x.1).map fun k => (k, x.2 * 4 + off)) ↔
      ∃ tid t, txns[tid]? = some t ∧ k ∈ keys t ∧ p = tid * 4 + off := by
  rw [List.mem_flatMap]
  constructor
  · rintro ⟨⟨t, tid⟩, ht, hk⟩
    obtain ⟨k', hk', he⟩ := List.mem_map.mp hk
    obtain ⟨rfl, rfl⟩ := Prod.mk.inj he
    exact ⟨tid, t, List.mk_mem_zipIdx_iff_getElem?.mp ht, hk', rfl⟩
  · rintro ⟨tid, t, ht, hk, rfl⟩
    exact ⟨(t, tid), List.mk_mem_zipIdx_iff_getElem?.mpr ht, List.mem_map.mpr ⟨k, hk, rfl⟩⟩

theorem nodup_blocks {keys : τ → List ℕ} {off : ℕ} (hnd : ∀ t ∈ txns, (keys t).Nodup) :
    (txns.zipIdx.flatMap fun x => (keys x.1).map fun k => (k, x.2 * 4 + off)).Nodup := by
  rw [List.nodup_flatMap]
  constructor
  · intro x hx
    exact (hnd x.1 (zipIdx_lt hx).1).map fun a b h => (Prod.mk.inj h).1
  · rw [List.pairwise_iff_getElem]
    intro i j hi hj hij x hx hx'
    obtain ⟨k, -, rfl⟩ := List.mem_map.mp hx
    obtain ⟨k', -, he⟩ := List.mem_map.mp hx'
    have hpos := (Prod.mk.inj he).2
    simp only [List.getElem_zipIdx] at hpos
    omega

theorem Keyed.insert_iff (h : Keyed evs txns ins del) {k p : ℕ} :
    (∃ v ∈ evs, v.type = .insert ∧ v.key = k ∧ v.pos = p) ↔
      ∃ tid t, txns[tid]? = some t ∧ k ∈ ins t ∧ p = tid * 4 := by
  have hmem := @mem_blocks τ txns ins 0 k p
  simp only [Nat.add_zero] at hmem
  rw [← hmem, ← h.inserts, List.mem_map]
  constructor
  · rintro ⟨v, hv, hvt, rfl, rfl⟩
    exact ⟨v, mem_inserts.mpr ⟨hv, hvt⟩, rfl⟩
  · rintro ⟨v, hv, he⟩
    obtain ⟨hv, hvt⟩ := mem_inserts.mp hv
    exact ⟨v, hv, hvt, (Prod.mk.inj he).1, (Prod.mk.inj he).2⟩

theorem Keyed.delete_iff (h : Keyed evs txns ins del) {k p : ℕ} :
    (∃ v ∈ evs, v.type = .delete ∧ v.key = k ∧ v.pos = p) ↔
      ∃ tid t, txns[tid]? = some t ∧ k ∈ del t ∧ p = tid * 4 + 2 := by
  rw [← mem_blocks, ← h.deletes, List.mem_map]
  constructor
  · rintro ⟨v, hv, hvt, rfl, rfl⟩
    exact ⟨v, List.mem_filter.mpr ⟨hv, decide_eq_true hvt⟩, rfl⟩
  · rintro ⟨v, hv, he⟩
    obtain ⟨hv, hvt⟩ := List.mem_filter.mp hv
    exact ⟨v, hv, of_decide_eq_true hvt, (Prod.mk.inj he).1, (Prod.mk.inj he).2⟩

/-- An event is known by its kind, key and position. -/
theorem Keyed.ext_of_pos (h : Keyed evs txns ins del) (ho : InOrder lookup txns ins del) {v w : Event}
    (hv : v ∈ evs) (hw : w ∈ evs) (ht : v.type = w.type) (hk : v.key = w.key) (hp : v.pos = w.pos) :
    v = w := by
  have he : (v.key, v.pos) = (w.key, w.pos) := by rw [hk, hp]
  cases hvt : v.type with
  | insert =>
    have hnd := @nodup_blocks τ txns ins 0 ho.insNodup
    simp only [Nat.add_zero] at hnd
    rw [← h.inserts] at hnd
    exact List.inj_on_of_nodup_map hnd (mem_inserts.mpr ⟨hv, hvt⟩)
      (mem_inserts.mpr ⟨hw, ht ▸ hvt⟩) he
  | delete =>
    have hnd := @nodup_blocks τ txns del 2 ho.delNodup
    rw [← h.deletes] at hnd
    exact List.inj_on_of_nodup_map hnd (List.mem_filter.mpr ⟨hv, decide_eq_true hvt⟩)
      (List.mem_filter.mpr ⟨hw, decide_eq_true (ht ▸ hvt)⟩) he

/-- An epoch whose transactions are in order is answered. -/
theorem Keyed.answered (h : Keyed evs txns ins del) (ho : InOrder lookup txns ins del) :
    Answered lookup evs := by
  have hins : ∀ v ∈ evs, v.type = .insert →
      ∃ tid t, txns[tid]? = some t ∧ v.key ∈ ins t ∧ v.pos = tid * 4 := fun v hv hvt =>
    h.insert_iff.mp ⟨v, hv, hvt, rfl, rfl⟩
  have hdel : ∀ v ∈ evs, v.type = .delete →
      ∃ tid t, txns[tid]? = some t ∧ v.key ∈ del t ∧ v.pos = tid * 4 + 2 := fun v hv hvt =>
    h.delete_iff.mp ⟨v, hv, hvt, rfl, rfl⟩
  refine ⟨⟨fun v hv w hw hvt hwt hk => ?_, fun v hv hvt => ?_⟩, fun w hw hwt => ?_,
    fun v hv w hw hvt hwt hk => ?_⟩
  · obtain ⟨a, t, ha, hka, hpa⟩ := hins v hv hvt
    obtain ⟨b, u, hb, hkb, hpb⟩ := hins w hw hwt
    rw [hk] at hka
    rcases Nat.lt_trichotomy a b with hlt | rfl | hlt
    · exact absurd ⟨a, hlt, t, ha, hka⟩ (ho.inserts b u hb _ hkb).2
    · exact h.ext_of_pos ho hv hw (hvt.trans hwt.symm) hk (hpa.trans hpb.symm)
    · exact absurd ⟨b, hlt, u, hb, hkb⟩ (ho.inserts a t ha _ hka).2
  · obtain ⟨a, t, ha, hka, -⟩ := hins v hv hvt
    exact (ho.inserts a t ha _ hka).1
  · obtain ⟨a, t, ha, hka, hpa⟩ := hdel w hw hwt
    rcases (ho.deletes a t ha _ hka).1 with hl | ⟨b, hlt, u, hb, hkb⟩
    · exact Or.inl hl
    · obtain ⟨v, hv, hvt, hvk, hvp⟩ := h.insert_iff.mpr ⟨b, u, hb, hkb, rfl⟩
      refine Or.inr ⟨v, hv, hvt, hvk, ?_⟩
      simp only [Event.before, decide_eq_true_eq]
      omega
  · obtain ⟨a, t, ha, hka, hpa⟩ := hdel v hv hvt
    obtain ⟨b, u, hb, hkb, hpb⟩ := hdel w hw hwt
    rw [hk] at hka
    rcases Nat.lt_trichotomy a b with hlt | rfl | hlt
    · exact absurd ⟨a, hlt, t, ha, hka⟩ (ho.deletes b u hb _ hkb).2
    · exact h.ext_of_pos ho hv hw (hvt.trans hwt.symm) hk (hpa.trans hpb.symm)
    · exact absurd ⟨b, hlt, u, hb, hkb⟩ (ho.deletes a t ha _ hka).2

end

/-! ### Tables -/

/-- A table's epoch whose transactions are in order. -/
structure TableRun {τ : Type} (inp : TableInput) (txns : List τ) (ins del : τ → List ℕ)
    (tbl tbl' : Table) (out : TableOut) : Prop where
  input : InputOk inp tbl.store txns.length
  rows : tbl.init + tbl.freeStart + inp.validInsert.length ≤ kAbsent
  spec : TableSpec inp txns.length tbl tbl' out
  keyed : Keyed inp.evs txns ins del
  inOrder : InOrder tbl.store.lookup txns ins del

section
variable {τ : Type} {inp : TableInput} {txns : List τ} {ins del : τ → List ℕ} {tbl tbl' : Table}
  {out : TableOut}

/-- A transaction finds the records that were there or inserted up to it and not deleted before it. -/
theorem TableRun.resolve_ne_absent (h : TableRun inp txns ins del tbl tbl' out) {k tid : ℕ}
    (hk : tbl.store.Named k) (hlt : k < 2 ^ (64 - inp.posBits)) (htid : tid < txns.length) :
    out.resolve k tid ≠ kAbsent ↔ (tbl.store.lookup k ≠ kAbsent ∨ KeyBefore txns ins (tid + 1) k) ∧
      ¬ KeyBefore txns del tid k := by
  have hev := events_ordered inp.entries
  have hbefore : ∀ v : Event, v.before (tid * 4 + 1) 0 = true ↔ v.pos < tid * 4 + 1 := by
    intro v
    simp [Event.before]
  rw [h.spec.resolve k tid hk hlt htid, ne_eq, livesAt_absent_iff hev (mintFits_of_rows h.input h.rows),
    ← ne_eq, (h.keyed.answered h.inOrder).livesAt_ne_none hev]
  refine and_congr (or_congr_right ⟨?_, ?_⟩) (not_congr ⟨?_, ?_⟩)
  · rintro ⟨v, hv, hvt, hvk, hb⟩
    obtain ⟨j, u, hu, hku, hp⟩ := h.keyed.insert_iff.mp ⟨v, hv, hvt, hvk, rfl⟩
    have := (hbefore v).mp hb
    exact ⟨j, by omega, u, hu, hku⟩
  · rintro ⟨j, hj, u, hu, hku⟩
    obtain ⟨v, hv, hvt, hvk, hp⟩ := h.keyed.insert_iff.mpr ⟨j, u, hu, hku, rfl⟩
    exact ⟨v, hv, hvt, hvk, (hbefore v).mpr (by omega)⟩
  · rintro ⟨v, hv, hvt, hvk, hb⟩
    obtain ⟨j, u, hu, hku, hp⟩ := h.keyed.delete_iff.mp ⟨v, hv, hvt, hvk, rfl⟩
    have := (hbefore v).mp hb
    exact ⟨j, by omega, u, hu, hku⟩
  · rintro ⟨j, hj, u, hu, hku⟩
    obtain ⟨v, hv, hvt, hvk, hp⟩ := h.keyed.delete_iff.mpr ⟨j, u, hu, hku, rfl⟩
    exact ⟨v, hv, hvt, hvk, (hbefore v).mpr (by omega)⟩

/-- After the epoch the records are there that were or were inserted, less the deleted ones. -/
theorem TableRun.lookup_ne_absent (h : TableRun inp txns ins del tbl tbl' out) (k : ℕ) :
    tbl'.store.lookup k ≠ kAbsent ↔ (tbl.store.lookup k ≠ kAbsent ∨ ∃ u ∈ txns, k ∈ ins u) ∧
      ¬ ∃ u ∈ txns, k ∈ del u := by
  have hev := events_ordered inp.entries
  have hbefore : ∀ v ∈ inp.evs, v.before (txns.length * 4) 0 = true := by
    intro v hv
    simp [Event.before, h.input.pos v hv]
  rw [h.spec.lookup, finalLives_eq_livesAt 0 h.input.pos, ne_eq,
    livesAt_absent_iff hev (mintFits_of_rows h.input h.rows), ← ne_eq,
    (h.keyed.answered h.inOrder).livesAt_ne_none hev]
  refine and_congr (or_congr_right ⟨?_, ?_⟩) (not_congr ⟨?_, ?_⟩)
  · rintro ⟨v, hv, hvt, hvk, -⟩
    obtain ⟨j, u, hu, hku, -⟩ := h.keyed.insert_iff.mp ⟨v, hv, hvt, hvk, rfl⟩
    exact ⟨u, List.mem_of_getElem? hu, hku⟩
  · rintro ⟨u, hu, hku⟩
    obtain ⟨j, hj⟩ := List.mem_iff_getElem?.mp hu
    obtain ⟨v, hv, hvt, hvk, -⟩ := h.keyed.insert_iff.mpr ⟨j, u, hj, hku, rfl⟩
    exact ⟨v, hv, hvt, hvk, hbefore v hv⟩
  · rintro ⟨v, hv, hvt, hvk, -⟩
    obtain ⟨j, u, hu, hku, -⟩ := h.keyed.delete_iff.mp ⟨v, hv, hvt, hvk, rfl⟩
    exact ⟨u, List.mem_of_getElem? hu, hku⟩
  · rintro ⟨u, hu, hku⟩
    obtain ⟨j, hj⟩ := List.mem_iff_getElem?.mp hu
    obtain ⟨v, hv, hvt, hvk, -⟩ := h.keyed.delete_iff.mpr ⟨j, u, hj, hku, rfl⟩
    exact ⟨v, hv, hvt, hvk, hbefore v hv⟩

/-- All inserts mint a row and all deletes are effective. -/
theorem TableRun.minted (h : TableRun inp txns ins del tbl tbl' out) :
    out.mintedKeys = txns.flatMap ins ∧ out.edelKeys = txns.flatMap del := by
  have hev := events_ordered inp.entries
  have ha := h.keyed.answered h.inOrder
  have hfst : ∀ (keys : τ → List ℕ) (off : ℕ), (txns.zipIdx.flatMap fun x =>
      (keys x.1).map fun k => (k, x.2 * 4 + off)).map Prod.fst = txns.flatMap keys := by
    intro keys off
    rw [List.map_flatMap]
    conv_rhs => rw [← List.zipIdx_map_fst 0 txns, List.flatMap_map]
    refine List.flatMap_congr fun x _ => ?_
    rw [List.map_map]
    exact List.map_id _
  constructor
  · rw [h.spec.mintedKeys, created_fresh hev ha.fresh, ← hfst ins 0]
    simp only [Nat.add_zero]
    rw [← h.keyed.inserts, List.map_map]
    rfl
  · rw [h.spec.edelKeys, ha.ended_eq hev, ← hfst del 2, ← h.keyed.deletes, List.map_map]
    rfl

end

end Egad.Tpcc
