import Egad.Tpcc.Stores
import Egad.Timeline.FreshEpoch
import Egad.Lib.Marks

/-! # A growing table resolves to the serial run on either path

    `InputOk` relates the fast path's arrays to the timeline's events: the same inserts in the same
    order, inserted by the same transactions, and the same deletes. Under it `visible` reads the base
    life of a key, the delete positions tell whether an earlier Delivery found the record, and the
    effective deletes are the events that end a life; the timeline path gets the same from
    `build_agrees`. -/

namespace Egad.Tpcc
open Egad.Lib Egad.Timeline

/-- The events of a table's epoch. -/
abbrev TableInput.evs (inp : TableInput) : List Event := events inp.entries

/-- A table's epoch as the two paths see it; `numTxns` transactions, on the store `s`. -/
structure InputOk (inp : TableInput) (s : Store) (numTxns : ℕ) : Prop where
  insertKeys : (inserts inp.evs).map Event.key = inp.validInsert
  insertTxns : ((inserts inp.evs).map fun v => v.pos / 4) =
    inp.insEntry.map fun e => e / inp.entriesPerTxn
  insertPos : ∀ v ∈ inp.evs, v.type = .insert → v.pos % 4 = 0
  deletes : ((inp.evs.filter fun v => v.type = .delete).map fun v => (v.key, v.pos / 4)) =
    inp.deletes.getD []
  deletePos : ∀ v ∈ inp.evs, v.type = .delete → v.pos % 4 = 2
  deleteOnce : ∀ v ∈ inp.evs, ∀ w ∈ inp.evs, v.type = .delete → w.type = .delete →
    v.pos = w.pos → v.key = w.key → v = w
  fits : Fits inp.posBits inp.evs
  pos : ∀ v ∈ inp.evs, v.pos < numTxns * 4
  txns : numTxns * 4 ≤ kAbsent
  named : ∀ v ∈ inp.evs, s.Named v.key
  cuco : inp.deletes.isSome = true → ∃ m e, s = .cuco m e

section
variable {inp : TableInput} {s store : Store} {numTxns cridBegin : ℕ}

theorem InputOk.insert_of_no_deletes (h : InputOk inp s numTxns) (hno : inp.deletes = none) :
    ∀ v ∈ inp.evs, v.type = .insert := by
  have hd := h.deletes
  rw [hno, Option.getD_none, List.map_eq_nil_iff, List.filter_eq_nil_iff] at hd
  intro v hv
  cases ht : v.type with
  | insert => rfl
  | delete => exact absurd (by simp [ht]) (hd v hv)

/-- The epoch's inserts are fresh and the store holds them. -/
structure Entered (inp : TableInput) (s store : Store) (numTxns cridBegin : ℕ) : Prop where
  input : InputOk inp s numTxns
  fresh : Fresh s.lookup inp.evs
  rows : Rows s.lookup inp.evs cridBegin
  found : ∀ k, s.Named k → store.find k =
    serialCrid s.lookup inp.evs cridBegin (bornLife s.lookup inp.evs k)

/-! ### Visibility -/

theorem insEntry_txn (h : InputOk inp s numTxns) {j : ℕ} {v : Event}
    (hv : (inserts inp.evs)[j]? = some v) : inp.insEntry.getD j 0 / inp.entriesPerTxn = v.pos / 4 := by
  have hmap := congrArg (fun l => l[j]?) h.insertTxns
  simp only [List.getElem?_map, hv, Option.map_some] at hmap
  rw [List.getD_eq_getElem?_getD]
  cases hj : inp.insEntry[j]? with
  | none => rw [hj] at hmap; simp at hmap
  | some e => rw [hj] at hmap; simpa using hmap.symm

/-- `visible` reads the base life of the key at the transaction's accesses. -/
theorem visible_eq (he : Entered inp s store numTxns cridBegin) (dp : Option (ℕ → ℕ)) {k : ℕ}
    (hk : s.Named k) (tid : ℕ) :
    (fastView inp cridBegin dp).visible (store.find k) tid =
      serialCrid s.lookup inp.evs cridBegin (baseLife s.lookup inp.evs (tid * 4 + 1) 0 k) := by
  have hoff := minted_offset (events_ordered _) he.fresh he.rows k
  have hlen : (inserts inp.evs).length = inp.validInsert.length := by
    rw [← he.input.insertKeys, List.length_map]
  rw [hlen] at hoff
  simp only [GrowingTableView.visible, fastView, he.found k hk]
  cases hi : insertOf inp.evs k with
  | none =>
    rw [hi] at hoff
    rw [hoff.1, if_neg (fun h => hoff.2 h.1 h.2.1), baseLife, hi, serialCrid_startLife]
  | some v =>
    rw [hi] at hoff
    obtain ⟨hne, hlt, hget⟩ := hoff
    obtain ⟨hv, hvt, -⟩ := insertOf_some hi
    have hmod := he.input.insertPos v hv hvt
    rw [insEntry_txn he.input hget]
    have hborn : bornLife s.lookup inp.evs k = some (.minted v.entry) := by rw [bornLife, hi]
    have hbefore : v.before (tid * 4 + 1) 0 = decide (v.pos / 4 ≤ tid) := by
      simp only [Event.before, decide_eq_decide]; omega
    rw [baseLife, hi]
    simp only [hbefore, decide_eq_true_eq]
    by_cases hle : v.pos / 4 ≤ tid
    · rw [if_neg (fun h => absurd h.2.2 (by omega)), if_pos hle, hborn]
    · rw [if_pos ⟨hne, hlt, by omega⟩, if_neg hle]
      rfl

/-- A Delivery's delete sees what its transaction's accesses see. -/
theorem baseLife_delete (h : InputOk inp s numTxns) {w : Event} (hw : w ∈ inp.evs)
    (hwt : w.type = .delete) (k : ℕ) : baseLife s.lookup inp.evs w.pos w.entry k =
      baseLife s.lookup inp.evs (w.pos / 4 * 4 + 1) 0 k := by
  rw [baseLife, baseLife]
  cases hi : insertOf inp.evs k with
  | none => rfl
  | some v =>
    obtain ⟨hv, hvt, -⟩ := insertOf_some hi
    have h1 := h.insertPos v hv hvt
    have h2 := h.deletePos w hw hwt
    have : v.before w.pos w.entry = v.before (w.pos / 4 * 4 + 1) 0 := by
      simp only [Event.before, decide_eq_decide]; omega
    simp only [this]

theorem deletedBefore_delete (h : InputOk inp s numTxns) {w : Event} (hw : w ∈ inp.evs)
    (hwt : w.type = .delete) : DeletedBefore s.lookup inp.evs w.pos w.entry w.key ↔
      DeletedBefore s.lookup inp.evs (w.pos / 4 * 4 + 1) 0 w.key := by
  refine exists_congr fun u => and_congr_right fun hu => and_congr_right fun hut =>
    and_congr_right fun huk => and_congr_left fun _ => ?_
  have h1 := h.deletePos u hu hut
  have h2 := h.deletePos w hw hwt
  simp only [Event.before, decide_eq_true_eq]
  constructor
  · rintro (hlt | ⟨heq, hlt⟩)
    · exact Or.inl (by omega)
    · rw [h.deleteOnce u hu w hw hut hwt heq huk] at hlt
      exact absurd hlt (lt_irrefl _)
  · rintro (hlt | ⟨heq, hlt⟩)
    · exact Or.inl (by omega)
    · omega

/-! ### Delete positions -/

/-- The record a Delivery's delete finds. -/
def delivered (visible : ℕ → ℕ → ℕ) (x : ℕ × ℕ) : Option ℕ :=
  if visible x.1 x.2 ≠ kAbsent then some (visible x.1 x.2) else none

theorem delivered_eq_some {visible : ℕ → ℕ → ℕ} {x : ℕ × ℕ} {c : ℕ} :
    delivered visible x = some c ↔ visible x.1 x.2 = c ∧ c ≠ kAbsent := by
  rw [delivered, Option.ite_none_right_eq_some, Option.some.injEq]
  constructor
  · rintro ⟨hne, rfl⟩
    exact ⟨rfl, hne⟩
  · rintro ⟨rfl, hne⟩
    exact ⟨hne, rfl⟩

/-- Where a delete of transaction `x.2` stands. -/
def deletePosition (x : ℕ × ℕ) : ℕ := x.2 * 4 + 2

theorem recordNoDelete_mark (visible : ℕ → ℕ → ℕ) (l : List (ℕ × ℕ)) (d : ℕ → ℕ) :
    l.foldl (recordNoDelete visible) d = mark (delivered visible) deletePosition l d := by
  have hstep : recordNoDelete visible = minStep (delivered visible) deletePosition := by
    funext d x
    rw [recordNoDelete, minStep, delivered]
    split <;> rfl
  rw [hstep, mark]

theorem recordNoDelete_lt (visible : ℕ → ℕ → ℕ) (c i : ℕ) (l : List (ℕ × ℕ)) (d : ℕ → ℕ) :
    (l.foldl (recordNoDelete visible) d) c < i ↔
      d c < i ∨ ∃ x ∈ l, visible x.1 x.2 = c ∧ c ≠ kAbsent ∧ x.2 * 4 + 2 < i := by
  rw [recordNoDelete_mark, mark_lt]
  simp only [delivered_eq_some, deletePosition, and_assoc]

variable {dels : List (ℕ × ℕ)} {d : ℕ → ℕ}

theorem mem_deletes (h : InputOk inp s numTxns) (hdel : inp.deletes = some dels) {x : ℕ × ℕ} :
    x ∈ dels ↔ ∃ w ∈ inp.evs, w.type = .delete ∧ x = (w.key, w.pos / 4) := by
  have hd := h.deletes
  rw [hdel, Option.getD_some] at hd
  rw [← hd, List.mem_map]
  constructor
  · rintro ⟨w, hw, rfl⟩
    obtain ⟨hw, hwt⟩ := List.mem_filter.mp hw
    exact ⟨w, hw, by simpa using hwt, rfl⟩
  · rintro ⟨w, hw, hwt, rfl⟩
    exact ⟨w, List.mem_filter.mpr ⟨hw, by simpa using hwt⟩, rfl⟩

/-- A record's delete position is below a bound exactly when a Delivery that found it is. -/
theorem recordNoDeletes_lt (he : Entered inp s store numTxns cridBegin) (hdel : inp.deletes = some dels)
    (hd : ∀ c, d c = kAbsent) (c : ℕ) {i : ℕ} (hi : i ≤ kAbsent) :
    recordNoDeletes inp store cridBegin dels d c < i ↔ ∃ w ∈ inp.evs, w.type = .delete ∧
      serialCrid s.lookup inp.evs cridBegin (baseLife s.lookup inp.evs w.pos w.entry w.key) = c ∧
      c ≠ kAbsent ∧ w.pos < i := by
  rw [recordNoDeletes, recordNoDelete_lt, hd, or_iff_right (by omega)]
  constructor
  · rintro ⟨x, hx, hvis, hne, hlt⟩
    obtain ⟨w, hw, hwt, rfl⟩ := (mem_deletes he.input hdel).mp hx
    have hmod := he.input.deletePos w hw hwt
    rw [visible_eq he none (he.input.named w hw), ← baseLife_delete he.input hw hwt] at hvis
    exact ⟨w, hw, hwt, hvis, hne, by simp only at hlt; omega⟩
  · rintro ⟨w, hw, hwt, hc, hne, hlt⟩
    have hmod := he.input.deletePos w hw hwt
    refine ⟨(w.key, w.pos / 4), (mem_deletes he.input hdel).mpr ⟨w, hw, hwt, rfl⟩, ?_, hne, ?_⟩
    · rw [visible_eq he none (he.input.named w hw), ← baseLife_delete he.input hw hwt, hc]
    · simp only; omega

/-- At a transaction's accesses: below them exactly when the key was delivered before. -/
theorem recordNoDeletes_lt_access (he : Entered inp s store numTxns cridBegin)
    (hdel : inp.deletes = some dels) (hd : ∀ c, d c = kAbsent) {k tid : ℕ} {l : Life}
    (htid : tid < numTxns) (hl : baseLife s.lookup inp.evs (tid * 4 + 1) 0 k = some l) :
    recordNoDeletes inp store cridBegin dels d (serialCrid s.lookup inp.evs cridBegin (some l)) <
        tid * 4 + 1 ↔
      DeletedBefore s.lookup inp.evs (tid * 4 + 1) 0 k := by
  have hev := events_ordered inp.entries
  have htx := he.input.txns
  have hne := born_ne_absent hev he.fresh he.rows (baseLife_some hl)
  rw [recordNoDeletes_lt he hdel hd _ (by omega)]
  constructor
  · rintro ⟨w, hw, hwt, hc, -, hlt⟩
    obtain ⟨l', hl'⟩ : ∃ l', baseLife s.lookup inp.evs w.pos w.entry w.key = some l' := by
      cases hb : baseLife s.lookup inp.evs w.pos w.entry w.key with
      | none => rw [hb] at hc; exact absurd hc.symm hne
      | some l' => exact ⟨l', rfl⟩
    have hkey : w.key = k := by
      rw [hl', ← baseLife_some hl', ← baseLife_some hl] at hc
      refine born_inj hev he.fresh he.rows ?_ hc
      rw [hc, baseLife_some hl]
      exact hne
    refine ⟨w, hw, hwt, hkey, by simp only [Event.before, decide_eq_true_eq]; omega, ?_⟩
    rw [← hkey, hl']
    simp
  · rintro ⟨w, hw, hwt, hwk, hwb, hbase⟩
    obtain ⟨l', hl'⟩ := Option.ne_none_iff_exists'.mp hbase
    refine ⟨w, hw, hwt, ?_, hne, ?_⟩
    · rw [hwk, hl', ← baseLife_some hl', baseLife_some hl]
    · simp only [Event.before, decide_eq_true_eq] at hwb; omega

/-! ### Resolution -/

theorem fastResolve_some (d : ℕ → ℕ) (k tid : ℕ) :
    fastResolve inp store cridBegin (some d) k tid =
      if (fastView inp cridBegin (some d)).visible (store.find k) tid ≠ kAbsent ∧
          d ((fastView inp cridBegin (some d)).visible (store.find k) tid) < tid * 4 + 1 then kAbsent
      else (fastView inp cridBegin (some d)).visible (store.find k) tid := rfl

/-- With deletes, a key resolves to what is live at the transaction's accesses. -/
theorem resolve_deletes (he : Entered inp s store numTxns cridBegin) (hdel : inp.deletes = some dels)
    (hd : ∀ c, d c = kAbsent) {k tid : ℕ} (hk : s.Named k) (htid : tid < numTxns) :
    fastResolve inp store cridBegin (some (recordNoDeletes inp store cridBegin dels d)) k tid =
      serialCrid s.lookup inp.evs cridBegin (livesAt s.lookup inp.evs (tid * 4 + 1) 0 k) := by
  have hlive := livesAt_fresh (events_ordered inp.entries) he.fresh (tid * 4 + 1) 0 k
  have hvis := visible_eq he (some (recordNoDeletes inp store cridBegin dels d)) hk tid
  rw [fastResolve_some, hvis]
  cases hb : baseLife s.lookup inp.evs (tid * 4 + 1) 0 k with
  | none =>
    have hnone : livesAt s.lookup inp.evs (tid * 4 + 1) 0 k = none := by
      rcases hlive with ⟨-, h⟩ | ⟨-, h⟩
      · exact h
      · rw [h, hb]
    rw [hnone]
    exact ite_self _
  | some l =>
    have hne := born_ne_absent (events_ordered inp.entries) he.fresh he.rows (baseLife_some hb)
    have hlt := recordNoDeletes_lt_access he hdel hd htid hb
    rcases hlive with ⟨hdb, h⟩ | ⟨hdb, h⟩
    · rw [if_pos ⟨hne, hlt.mpr hdb⟩, h]; rfl
    · rw [if_neg fun h' => hdb (hlt.mp h'.2), h, hb]

/-- Without deletes, visibility alone decides. -/
theorem resolve_no_deletes (he : Entered inp s store numTxns cridBegin) (hdel : inp.deletes = none)
    {k : ℕ} (hk : s.Named k) (tid : ℕ) :
    fastResolve inp store cridBegin none k tid =
      serialCrid s.lookup inp.evs cridBegin (livesAt s.lookup inp.evs (tid * 4 + 1) 0 k) := by
  have hno : ¬ DeletedBefore s.lookup inp.evs (tid * 4 + 1) 0 k := by
    rintro ⟨w, hw, hwt, -⟩
    rw [he.input.insert_of_no_deletes hdel w hw] at hwt
    simp at hwt
  change (fastView inp cridBegin none).visible _ _ = _
  rw [visible_eq he none hk]
  rcases livesAt_fresh (events_ordered inp.entries) he.fresh (tid * 4 + 1) 0 k with ⟨h, -⟩ | ⟨-, h⟩
  · exact absurd h hno
  · rw [h]

/-! ### Effective deletes -/

/-- A delete finds what its transaction's accesses find. -/
theorem found_delete (he : Entered inp s store numTxns cridBegin) {w : Event} (hw : w ∈ inp.evs)
    (hwt : w.type = .delete) :
    found s.lookup inp.evs w = livesAt s.lookup inp.evs (w.pos / 4 * 4 + 1) 0 w.key := by
  have hdb := deletedBefore_delete he.input hw hwt
  have hbase := baseLife_delete he.input hw hwt w.key
  have hev := events_ordered inp.entries
  rcases livesAt_fresh hev he.fresh w.pos w.entry w.key with ⟨h1, h2⟩ | ⟨h1, h2⟩
  · rcases livesAt_fresh hev he.fresh (w.pos / 4 * 4 + 1) 0 w.key with ⟨-, h4⟩ | ⟨h3, -⟩
    · rw [found, h2, h4]
    · exact absurd (hdb.mp h1) h3
  · rcases livesAt_fresh hev he.fresh (w.pos / 4 * 4 + 1) 0 w.key with ⟨h3, -⟩ | ⟨-, h4⟩
    · exact absurd (hdb.mpr h3) h1
    · rw [found, h2, h4, hbase]

theorem delete_txn (h : InputOk inp s numTxns) {w : Event} (hw : w ∈ inp.evs) :
    w.pos / 4 < numTxns := by
  have := h.pos w hw
  omega

/-- The slot flagged for a record is the delete that ends its life. -/
theorem effective_iff (he : Entered inp s store numTxns cridBegin) (hdel : inp.deletes = some dels)
    (hd : ∀ c, d c = kAbsent) {w : Event} (hw : w ∈ inp.evs) (hwt : w.type = .delete) {c : ℕ}
    (hc : c = fastResolve inp store cridBegin (some (recordNoDeletes inp store cridBegin dels d)) w.key
      (w.pos / 4)) :
    (c ≠ kAbsent ∧ recordNoDeletes inp store cridBegin dels d c = w.pos / 4 * 4 + 2) ↔
      endsLife s.lookup inp.evs w = true := by
  have hev := events_ordered inp.entries
  have htid := delete_txn he.input hw
  have hmod := he.input.deletePos w hw hwt
  have htx := he.input.txns
  rw [resolve_deletes he hdel hd (he.input.named w hw) htid, ← found_delete he hw hwt] at hc
  have habs : c = kAbsent ↔ found s.lookup inp.evs w = none := by
    rw [hc]
    exact livesAt_absent_iff hev (he.rows.mintFits hev he.fresh) w.pos w.entry w.key
  have hends : endsLife s.lookup inp.evs w = true ↔ found s.lookup inp.evs w ≠ none := by
    rw [endsLife, decide_eq_true_eq]
    exact and_iff_right hwt
  rw [hends, ne_eq, ne_eq, ← habs]
  refine ⟨fun h => h.1, fun hne => ⟨hne, ?_⟩⟩
  -- recorded by this delete, and by no earlier one
  obtain ⟨hndb, hbase⟩ := ((endsLife_fresh hev he.fresh).mp
    (hends.mpr ((not_congr habs).mp hne))).2
  obtain ⟨l, hl⟩ := Option.ne_none_iff_exists'.mp hbase
  have hcl : c = serialCrid s.lookup inp.evs cridBegin (some l) := by
    rcases livesAt_fresh hev he.fresh w.pos w.entry w.key with ⟨h, -⟩ | ⟨-, h⟩
    · exact absurd h hndb
    · rw [hc, found, h, hl]
  have hlt : recordNoDeletes inp store cridBegin dels d c < w.pos + 1 := by
    rw [recordNoDeletes_lt he hdel hd c (by omega)]
    exact ⟨w, hw, hwt, by rw [hl, hcl], hne, Nat.lt_succ_self _⟩
  have hge : ¬ recordNoDeletes inp store cridBegin dels d c < w.pos := by
    rw [recordNoDeletes_lt he hdel hd c (by omega)]
    rintro ⟨u, hu, hut, huc, hune, hult⟩
    have humod := he.input.deletePos u hu hut
    have hb := baseLife_delete he.input hw hwt w.key
    rw [hb] at hl
    refine hndb ((deletedBefore_delete he.input hw hwt).mpr ?_)
    rw [← recordNoDeletes_lt_access he hdel hd htid hl, ← hcl, recordNoDeletes_lt he hdel hd c (by omega)]
    exact ⟨u, hu, hut, huc, hune, by omega⟩
  omega

/-- The flagged slots are the deletes that end a life. -/
theorem noEffectiveDeletes_eq (he : Entered inp s store numTxns cridBegin)
    (hdel : inp.deletes = some dels) (hd : ∀ c, d c = kAbsent) {r : ℕ → ℕ}
    (hr : r = recordNoDeletes inp store cridBegin dels d) :
    noEffectiveDeletes (fastResolve inp store cridBegin (some r)) r dels =
      (ended s.lookup inp.evs).map fun w => (w.key, w.pos / 4) := by
  subst hr
  have hdels := he.input.deletes
  rw [hdel, Option.getD_some] at hdels
  have hended : ended s.lookup inp.evs =
      (inp.evs.filter fun v => v.type = .delete).filter (endsLife s.lookup inp.evs) := by
    rw [List.filter_filter, ended]
    refine List.filter_congr fun v _ => ?_
    simp only [endsLife]
    cases v.type <;> simp
  rw [hended, noEffectiveDeletes, ← hdels, List.filter_map]
  congr 1
  refine List.filter_congr fun w hw => ?_
  obtain ⟨hw, hwt⟩ := List.mem_filter.mp hw
  have hwt : w.type = .delete := by simpa using hwt
  rw [Bool.eq_iff_iff, Function.comp_apply, decide_eq_true_eq, hdels]
  exact effective_iff he hdel hd hw hwt rfl

/-- The positions written are those of the CRIDs ended; resetting them leaves the array clean. -/
theorem recordNoDeletes_clean (he : Entered inp s store numTxns cridBegin) (hdel : inp.deletes = some dels)
    (hd : ∀ c, d c = kAbsent) (c : ℕ) :
    eraseAll kAbsent (recordNoDeletes inp store cridBegin dels d) ((ended s.lookup inp.evs).map fun w =>
      serialCrid s.lookup inp.evs cridBegin (found s.lookup inp.evs w)) c = kAbsent := by
  rw [recordNoDeletes, recordNoDelete_mark]
  refine eraseAll_mark hd (fun x hx c hc _ => ?_) c
  obtain ⟨hvis, hcne⟩ := delivered_eq_some.mp hc
  obtain ⟨w, hw, hwt, rfl⟩ := (mem_deletes he.input hdel).mp hx
  rw [visible_eq he none (he.input.named w hw), ← baseLife_delete he.input hw hwt] at hvis
  obtain ⟨l, hl⟩ : ∃ l, baseLife s.lookup inp.evs w.pos w.entry w.key = some l := by
    cases hb : baseLife s.lookup inp.evs w.pos w.entry w.key with
    | none => rw [hb] at hvis; exact absurd hvis.symm hcne
    | some l => exact ⟨l, rfl⟩
  obtain ⟨u, hu, hfound⟩ := ended_of_found (events_ordered _) he.fresh hw hwt hl
  exact List.mem_map.mpr ⟨u, hu, by rw [hfound, ← hl, hvis]⟩

end

end Egad.Tpcc
