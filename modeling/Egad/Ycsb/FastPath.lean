import Egad.Ycsb.GeneralPath
import Egad.Timeline.FreshEpoch
import Egad.Lib.Marks

/-! # The YCSB fast path agrees with the timeline path

    For an epoch that `insertFresh` accepts, `fastLookup` reads the base life of the key at the slot
    and `delPos` tells whether a delete that found it stands earlier, so every slot gets the record
    of the serial run; the timeline path gets the same from `build_agrees`. -/

namespace Egad.Ycsb
open Egad.Lib Egad.Timeline

/-! ### Inserts by slot -/

theorem inserts_slotEvents (slots : List Slot) :
    inserts (slotEvents slots) =
      (slots.zipIdx.filter fun x => x.1.op = .insert).map fun x => ⟨x.2, x.1.key, .insert, x.2⟩ := by
  rw [inserts, slotEvents, List.filter_filterMap, ← List.filterMap_eq_filter,
    List.map_filterMap]
  refine List.filterMap_congr fun x _ => ?_
  unfold slotEvent
  cases hop : x.1.op <;> simp [Option.guard, Option.filter, hop]

theorem inserts_map_key (slots : List Slot) :
    (inserts (slotEvents slots)).map Event.key = insKeys slots := by
  rw [inserts_slotEvents, List.map_map, insKeys]
  change (slots.zipIdx.filter ((fun s : Slot => decide (s.op = .insert)) ∘ Prod.fst)).map
    (Slot.key ∘ Prod.fst) = _
  rw [← List.map_map, ← List.filter_map, List.zipIdx_map_fst]

theorem inserts_map_entry (slots : List Slot) :
    (inserts (slotEvents slots)).map Event.entry = insSlots slots := by
  rw [inserts_slotEvents, List.map_map, insSlots]
  rfl

theorem inserts_length (slots : List Slot) :
    (inserts (slotEvents slots)).length = (insKeys slots).length := by
  rw [← inserts_map_key, List.length_map]

theorem fresh_slots {lookup : ℕ → ℕ} {slots : List Slot} (hnd : (insKeys slots).Nodup)
    (habs : ∀ k ∈ insKeys slots, lookup k = kAbsent) : Fresh lookup (slotEvents slots) := by
  rw [← inserts_map_key] at hnd habs
  refine ⟨fun v hv w hw hvt hwt hk => ?_, fun v hv hvt => ?_⟩
  · exact List.inj_on_of_nodup_map hnd (mem_inserts.mpr ⟨hv, hvt⟩) (mem_inserts.mpr ⟨hw, hwt⟩) hk
  · exact habs v.key (List.mem_map_of_mem (mem_inserts.mpr ⟨hv, hvt⟩))

/-! ### The fast lookup -/

section
variable {lookup : ℕ → ℕ} {slots : List Slot} {cridBegin : ℕ} {map : ℕ → ℕ}

/-- The epoch's inserts are fresh and the map holds them. -/
structure Entered (lookup : ℕ → ℕ) (slots : List Slot) (cridBegin : ℕ) (map : ℕ → ℕ) : Prop where
  fresh : Fresh lookup (slotEvents slots)
  rows : Rows lookup (slotEvents slots) cridBegin
  map : ∀ k, map k = serialCrid lookup (slotEvents slots) cridBegin
    (bornLife lookup (slotEvents slots) k)
  count : slots.length ≤ kAbsent

/-- The lookup with this epoch's arguments. -/
abbrev look (slots : List Slot) (cridBegin : ℕ) (map : ℕ → ℕ) : ℕ → ℕ → ℕ :=
  fastLookup map cridBegin (insKeys slots).length (insSlots slots)

/-- `fastLookup` reads the base life at the slot, a slot's own insert included. -/
theorem look_eq (he : Entered lookup slots cridBegin map) (k i : ℕ) :
    look slots cridBegin map k i = serialCrid lookup (slotEvents slots) cridBegin
      (baseLife lookup (slotEvents slots) i (i + 1) k) := by
  have hoff := minted_offset (slotEvents_ordered slots) he.fresh he.rows k
  rw [inserts_length] at hoff
  simp only [look, fastLookup, he.map k]
  cases hi : insertOf (slotEvents slots) k with
  | none =>
    rw [hi] at hoff
    rw [hoff.1, if_neg (fun h => hoff.2 h.1 h.2.1), baseLife, hi, serialCrid_startLife]
  | some v =>
    rw [hi] at hoff
    obtain ⟨hne, hlt, hget⟩ := hoff
    obtain ⟨hv, -, -⟩ := insertOf_some hi
    have hpos := (slotEvents_pos hv).1
    have hslot : (insSlots slots).getD (sub32 (serialCrid lookup (slotEvents slots) cridBegin
        (bornLife lookup (slotEvents slots) k)) cridBegin) 0 = v.entry := by
      rw [← inserts_map_entry, List.getD_eq_getElem?_getD, List.getElem?_map, hget]
      rfl
    rw [hslot]
    have hborn : bornLife lookup (slotEvents slots) k = some (.minted v.entry) := by
      rw [bornLife, hi]
    have hbase : baseLife lookup (slotEvents slots) i (i + 1) k =
        if v.entry ≤ i then some (.minted v.entry) else none := by
      rw [baseLife, hi]
      have : v.before i (i + 1) = decide (v.entry ≤ i) := by
        simp only [Event.before, hpos, decide_eq_decide]; omega
      simp only [this, decide_eq_true_eq]
    by_cases hle : v.entry ≤ i
    · rw [if_neg (fun h => absurd h.2.2 (by omega)), hbase, if_pos hle, hborn]
    · rw [if_pos ⟨hne, hlt, by omega⟩, hbase, if_neg hle]
      rfl

/-- Away from its own insert, a slot sees what is ordered before it. -/
theorem baseLife_slot {s : Slot} {i : ℕ} (hs : slots[i]? = some s) (hop : s.op ≠ .insert) (k : ℕ) :
    baseLife lookup (slotEvents slots) i (i + 1) k = baseLife lookup (slotEvents slots) i i k := by
  rw [baseLife, baseLife]
  cases hi : insertOf (slotEvents slots) k with
  | none => rfl
  | some v =>
    obtain ⟨hv, hvt, -⟩ := insertOf_some hi
    obtain ⟨s', hs', -, hp, ht⟩ := slot_of_event hv
    have hne : v.entry ≠ i := by
      intro h
      rw [h, hs] at hs'
      have : s = s' := by simpa using hs'
      subst this
      rcases ht with ⟨-, h⟩ | ⟨h, -⟩
      · exact hop h
      · simp [hvt] at h
    have : v.before i (i + 1) = v.before i i := by
      simp only [Event.before, hp, decide_eq_decide]; omega
    simp only [this]

/-! ### Delete positions -/

/-- The record a slot's delete finds. -/
def deleted (look : ℕ → ℕ → ℕ) (x : Slot × ℕ) : Option ℕ :=
  if x.1.op = .delete ∧ look x.1.key x.2 ≠ kAbsent then some (look x.1.key x.2) else none

theorem deleted_eq_some {look : ℕ → ℕ → ℕ} {x : Slot × ℕ} {c : ℕ} :
    deleted look x = some c ↔ x.1.op = .delete ∧ look x.1.key x.2 = c ∧ c ≠ kAbsent := by
  rw [deleted, Option.ite_none_right_eq_some, Option.some.injEq]
  constructor
  · rintro ⟨⟨hop, hne⟩, rfl⟩
    exact ⟨hop, rfl, hne⟩
  · rintro ⟨hop, rfl, hne⟩
    exact ⟨⟨hop, hne⟩, rfl⟩

theorem recordDeletes_mark (look : ℕ → ℕ → ℕ) (l : List (Slot × ℕ)) (d : ℕ → ℕ) :
    l.foldl (recordDelete look) d = mark (deleted look) Prod.snd l d := by
  have hstep : recordDelete look = minStep (deleted look) Prod.snd := by
    funext d x
    rw [recordDelete, minStep, deleted]
    split <;> rfl
  rw [hstep, mark]

theorem recordDeletes_lt (look : ℕ → ℕ → ℕ) (c i : ℕ) (l : List (Slot × ℕ)) (d : ℕ → ℕ) :
    (l.foldl (recordDelete look) d) c < i ↔ d c < i ∨ ∃ x ∈ l, x.1.op = .delete ∧
      look x.1.key x.2 = c ∧ c ≠ kAbsent ∧ x.2 < i := by
  rw [recordDeletes_mark, mark_lt]
  simp only [deleted_eq_some, and_assoc]

/-- `delPos` of a record found at a slot: below the slot exactly when a delete that found it is. -/
theorem delPos_lt (he : Entered lookup slots cridBegin map) {d : ℕ → ℕ} (hd : ∀ c, d c = kAbsent)
    {k i : ℕ} (hi : i ≤ slots.length) (hne : look slots cridBegin map k i ≠ kAbsent) :
    recordDeletes (look slots cridBegin map) slots d (look slots cridBegin map k i) < i ↔
      DeletedBefore lookup (slotEvents slots) i i k := by
  have hev := slotEvents_ordered slots
  have hcount := he.count
  have hborn : ∀ j k', look slots cridBegin map k' j ≠ kAbsent → look slots cridBegin map k' j =
      serialCrid lookup (slotEvents slots) cridBegin (bornLife lookup (slotEvents slots) k') := by
    intro j k' h
    rw [look_eq he] at h ⊢
    cases hb : baseLife lookup (slotEvents slots) j (j + 1) k' with
    | none => rw [hb] at h; exact absurd rfl h
    | some l => rw [baseLife_some hb]
  rw [recordDeletes, recordDeletes_lt, hd]
  constructor
  · rintro (h | ⟨x, hx, hop, hc, -, hlt⟩)
    · omega
    · have hs := mem_zipIdx_slots.mp hx
      have hne' : look slots cridBegin map x.1.key x.2 ≠ kAbsent := by rw [hc]; exact hne
      have hkey : x.1.key = k := by
        have h1 := hborn x.2 x.1.key hne'
        have h2 := hborn i k hne
        refine born_inj hev he.fresh he.rows ?_ (h1.symm.trans (hc.trans h2))
        rw [← h1]; exact hne'
      refine ⟨⟨x.2, x.1.key, .delete, x.2⟩, event_of_delete hs hop, rfl, hkey, ?_, ?_⟩
      · simp only [Event.before, decide_eq_true_eq]; omega
      · intro hnone
        rw [look_eq he, baseLife_slot hs (by rw [hop]; decide), hkey] at hne'
        simp only at hnone
        rw [hnone] at hne'
        exact hne' rfl
  · rintro ⟨w, hw, hwt, hwk, hwb, hbase⟩
    obtain ⟨s, hs, hsk, hp, ht⟩ := slot_of_event hw
    have hop : s.op = .delete := by
      rcases ht with ⟨h, -⟩ | ⟨-, h⟩
      · simp [hwt] at h
      · exact h
    have hlook : look slots cridBegin map s.key w.entry ≠ kAbsent := by
      rw [look_eq he, baseLife_slot hs (by rw [hop]; decide), hsk, hwk]
      rw [hp] at hbase
      obtain ⟨l, hl⟩ := Option.ne_none_iff_exists'.mp hbase
      rw [hl]
      exact born_ne_absent (slotEvents_ordered slots) he.fresh he.rows (baseLife_some hl)
    refine Or.inr ⟨(s, w.entry), mem_zipIdx_slots.mpr hs, hop, ?_, hne, ?_⟩
    · rw [hborn w.entry s.key hlook, hborn i k hne, hsk, hwk]
    · simp only [Event.before, decide_eq_true_eq] at hwb; simp only; omega

/-! ### Every slot gets the record of the serial run -/

theorem insertOf_slot (he : Entered lookup slots cridBegin map) {s : Slot} {i : ℕ}
    (hs : slots[i]? = some s) (hop : s.op = .insert) :
    insertOf (slotEvents slots) s.key = some ⟨i, s.key, .insert, i⟩ :=
  insertOf_eq he.fresh (event_of_insert hs hop) rfl

/-- `fastLookup` with the delete positions reads what is live at the slot. -/
theorem fastRecordId_eq (he : Entered lookup slots cridBegin map) {d : ℕ → ℕ}
    (hd : ∀ c, d c = kAbsent) {x : Slot × ℕ} (hx : x ∈ slots.zipIdx) :
    fastRecordId (look slots cridBegin map)
        (some (recordDeletes (look slots cridBegin map) slots d)) x =
      slotCrid lookup slots cridBegin x := by
  obtain ⟨s, i⟩ := x
  have hs := mem_zipIdx_slots.mp hx
  simp only at hs
  have hi : i ≤ slots.length := (List.getElem?_eq_some_iff.mp hs).1.le
  have hlive := livesAt_fresh (slotEvents_ordered slots) he.fresh i i s.key
  simp only [fastRecordId]
  by_cases hop : s.op = .insert
  · -- nothing found the key before its own insert
    have hins := insertOf_slot he hs hop
    have hno : ¬ DeletedBefore lookup (slotEvents slots) i i s.key := by
      rintro ⟨w, -, -, -, hwb, hbase⟩
      rw [baseLife, hins] at hbase
      simp only [Event.before, decide_eq_true_eq, ne_eq, ite_eq_right_iff, reduceCtorEq, imp_false,
        not_not] at hwb hbase
      omega
    have hnone : livesAt lookup (slotEvents slots) i i s.key = none := by
      rcases hlive with ⟨-, h⟩ | ⟨-, h⟩
      · exact h
      · rw [h, baseLife, hins]; simp [Event.before]
    have hbase : baseLife lookup (slotEvents slots) i (i + 1) s.key = some (.minted i) := by
      rw [baseLife, hins]; simp [Event.before]
    rw [if_neg fun h => hno ((delPos_lt he hd hi h.1).mp h.2), look_eq he, hbase]
    simp [slotCrid, hop, hnone]
  · have hlook : look slots cridBegin map s.key i = serialCrid lookup (slotEvents slots) cridBegin
        (baseLife lookup (slotEvents slots) i i s.key) := by
      rw [look_eq he, baseLife_slot hs hop]
    simp only [slotCrid, hop, if_false]
    by_cases hb : baseLife lookup (slotEvents slots) i i s.key = none
    · have hnone : livesAt lookup (slotEvents slots) i i s.key = none := by
        rcases hlive with ⟨-, h⟩ | ⟨-, h⟩
        · exact h
        · rw [h, hb]
      rw [hlook, hb, hnone]
      simp [serialCrid, cridOf]
    · obtain ⟨l, hl⟩ := Option.ne_none_iff_exists'.mp hb
      have hne : look slots cridBegin map s.key i ≠ kAbsent := by
        rw [hlook, hl]; exact born_ne_absent (slotEvents_ordered slots) he.fresh he.rows (baseLife_some hl)
      have hdel := delPos_lt he hd hi hne
      rcases hlive with ⟨hdb, h⟩ | ⟨hdb, h⟩
      · rw [if_pos ⟨hne, hdel.mpr hdb⟩, h]
        rfl
      · rw [if_neg fun h => hdb (hdel.mp h.2), h, hlook]

/-- The delete flagged for a record is the one that ends its life. -/
theorem isEffectiveDelete_eq (he : Entered lookup slots cridBegin map) {d : ℕ → ℕ}
    (hd : ∀ c, d c = kAbsent) {x : Slot × ℕ} (hx : x ∈ slots.zipIdx) :
    isEffectiveDelete (look slots cridBegin map)
        (recordDeletes (look slots cridBegin map) slots d) x = true ↔
      x.1.op = .delete ∧ livesAt lookup (slotEvents slots) x.2 x.2 x.1.key ≠ none := by
  have hmint := he.rows.mintFits (slotEvents_ordered slots) he.fresh
  have habs := livesAt_absent_iff (slotEvents_ordered slots) hmint x.2 x.2 x.1.key
  have hrid := fastRecordId_eq he hd hx
  rw [isEffectiveDelete, decide_eq_true_eq, hrid]
  refine and_congr_right fun hop => ?_
  have hcrid : slotCrid lookup slots cridBegin x = serialCrid lookup (slotEvents slots) cridBegin
      (livesAt lookup (slotEvents slots) x.2 x.2 x.1.key) := by
    rw [slotCrid, if_neg (by rw [hop]; decide)]
  rw [← hcrid] at habs
  rw [ne_eq (livesAt _ _ _ _ _), ← habs]
  refine ⟨fun h => h.1, fun hne => ⟨hne, ?_⟩⟩
  -- the slot itself recorded its position, and no earlier slot did
  have hi : x.2 ≤ slots.length := (List.getElem?_eq_some_iff.mp (mem_zipIdx_slots.mp hx)).1.le
  have hkeep : slotCrid lookup slots cridBegin x = look slots cridBegin map x.1.key x.2 ∧
      ¬ recordDeletes (look slots cridBegin map) slots d (look slots cridBegin map x.1.key x.2) <
        x.2 := by
    rw [← hrid] at hne ⊢
    simp only [fastRecordId] at hne ⊢
    split at hne
    · exact absurd rfl hne
    · next hc => rw [if_neg hc]; exact ⟨rfl, fun h => hc ⟨hne, h⟩⟩
  have hlt : recordDeletes (look slots cridBegin map) slots d
      (look slots cridBegin map x.1.key x.2) < x.2 + 1 := by
    rw [recordDeletes, recordDeletes_lt]
    exact Or.inr ⟨x, hx, hop, rfl, by rw [← hkeep.1]; exact hne, Nat.lt_succ_self _⟩
  have := hkeep.2
  rw [hkeep.1]
  omega

/-- The effective deletes by slot and by event. -/
theorem edel_eq {α : Type*} (he : Entered lookup slots cridBegin map) {d : ℕ → ℕ}
    (hd : ∀ c, d c = kAbsent) (f : Slot × ℕ → α) (g : Event → α)
    (hfg : ∀ x ∈ slots.zipIdx, x.1.op = .delete → f x = g ⟨x.2, x.1.key, .delete, x.2⟩) :
    (slots.zipIdx.filter (isEffectiveDelete (look slots cridBegin map)
      (recordDeletes (look slots cridBegin map) slots d))).map f =
      (ended lookup (slotEvents slots)).map g := by
  rw [ended]
  generalize hE : endsLife lookup (slotEvents slots) = E
  rw [slotEvents, List.filter_filterMap, ← List.filterMap_eq_filter, List.map_filterMap,
    List.map_filterMap]
  refine List.filterMap_congr fun x hx => ?_
  have heff := isEffectiveDelete_eq he hd hx
  by_cases hop : x.1.op = .delete
  · have hends : E ⟨x.2, x.1.key, .delete, x.2⟩ = true ↔
        livesAt lookup (slotEvents slots) x.2 x.2 x.1.key ≠ none := by
      rw [← hE]; simp [endsLife, found]
    have : isEffectiveDelete (look slots cridBegin map)
        (recordDeletes (look slots cridBegin map) slots d) x = E ⟨x.2, x.1.key, .delete, x.2⟩ := by
      rw [Bool.eq_iff_iff, heff, hends]; simp [hop]
    simp only [Option.guard, this, slotEvent, hop, Option.filter]
    split
    · simp [hfg x hx hop]
    · rfl
  · have hno : isEffectiveDelete (look slots cridBegin map)
        (recordDeletes (look slots cridBegin map) slots d) x = false := by
      rw [Bool.eq_false_iff]; exact fun h => hop (heff.mp h).1
    simp only [Option.guard, hno]
    cases hev : slotEvent x.1 x.2 with
    | none => rfl
    | some v =>
      have hvt : v.type = .insert := by
        rcases (slotEvent_spec hev).2.2.2 with ⟨h, -⟩ | ⟨-, h⟩
        · exact h
        · exact absurd h hop
      have : E v = false := by rw [← hE]; simp [endsLife, hvt]
      simp [Option.filter, this]

/-! ### The map after the epoch -/

/-- Erasing the keys of the effective deletes leaves the final lives. -/
theorem erase_ended (he : Entered lookup slots cridBegin map) (k : ℕ) :
    eraseAll kAbsent map ((ended lookup (slotEvents slots)).map Event.key) k =
      serialCrid lookup (slotEvents slots) cridBegin (finalLives lookup (slotEvents slots) k) := by
  have hpos : ∀ v ∈ slotEvents slots, v.pos < slots.length := by
    intro v hv
    obtain ⟨hp, hlt⟩ := slotEvents_pos hv
    omega
  rw [eraseAll_apply, he.map, final_fresh cridBegin (slotEvents_ordered slots) he.fresh hpos]

/-- The positions written this epoch are those of the CRIDs ended: resetting them leaves the
    array clean for the next epoch. -/
theorem delPos_clean (he : Entered lookup slots cridBegin map) {d : ℕ → ℕ}
    (hd : ∀ c, d c = kAbsent) (c : ℕ) :
    eraseAll kAbsent (recordDeletes (look slots cridBegin map) slots d)
      ((ended lookup (slotEvents slots)).map fun v =>
        serialCrid lookup (slotEvents slots) cridBegin (found lookup (slotEvents slots) v)) c =
      kAbsent := by
  rw [recordDeletes, recordDeletes_mark]
  refine eraseAll_mark hd (fun x hx c hc _ => ?_) c
  obtain ⟨hop, hlook, hcne⟩ := deleted_eq_some.mp hc
  -- some delete found the record, so one of them ended it
  have hs := mem_zipIdx_slots.mp hx
  rw [look_eq he, baseLife_slot hs (by rw [hop]; decide)] at hlook
  obtain ⟨l, hl⟩ : ∃ l, baseLife lookup (slotEvents slots) x.2 x.2 x.1.key = some l := by
    cases hb : baseLife lookup (slotEvents slots) x.2 x.2 x.1.key with
    | none => rw [hb] at hlook; exact absurd hlook.symm hcne
    | some l => exact ⟨l, rfl⟩
  obtain ⟨u, hu, hfound⟩ :=
    ended_of_found (slotEvents_ordered slots) he.fresh (event_of_delete hs hop) rfl hl
  exact List.mem_map.mpr ⟨u, hu, by rw [hfound, ← hl, hlook]⟩

/-! ### The epoch -/

/-- Without deletes the delete positions are not consulted, and nothing depends on them. -/
theorem fastRecordId_none (he : Entered lookup slots cridBegin map)
    (hno : ∀ s ∈ slots, s.op ≠ .delete) {x : Slot × ℕ} (hx : x ∈ slots.zipIdx) :
    fastRecordId (look slots cridBegin map) none x = slotCrid lookup slots cridBegin x := by
  rw [← fastRecordId_eq he (d := fun _ => kAbsent) (fun _ => rfl) hx]
  have hi := (List.getElem?_eq_some_iff.mp (mem_zipIdx_slots.mp hx)).1
  have hcount := he.count
  simp only [fastRecordId]
  rw [if_neg]
  rintro ⟨-, hlt⟩
  rw [recordDeletes, recordDeletes_lt] at hlt
  obtain h | ⟨y, hy, hop, -⟩ := hlt
  · omega
  · exact hno y.1 (List.mem_of_getElem? (mem_zipIdx_slots.mp hy)) hop

theorem ended_eq_nil (hno : ∀ s ∈ slots, s.op ≠ .delete) :
    ended lookup (slotEvents slots) = [] := by
  rw [ended, List.filter_eq_nil_iff]
  intro v hv h
  obtain ⟨s, hs, -, -, ht⟩ := slot_of_event hv
  simp only [endsLife, decide_eq_true_eq] at h
  rcases ht with ⟨hvt, -⟩ | ⟨-, hop⟩
  · simp [hvt] at h
  · exact hno s (List.mem_of_getElem? hs) hop

end

section
variable {cfg : Config} {idx : Index} {slots : List Slot} {map : ℕ → ℕ}

/-- The fast path on a map with the epoch's fresh inserts: the epoch of the serial run, and a state
    that holds its map, its rows and clean delete positions. -/
theorem fastEpoch_eq (hwf : IndexWf cfg idx) (hok : EpochOk cfg slots)
    (he : Entered idx.map slots (mintedBegin cfg idx) map) :
    (fastEpoch cfg idx map slots).2 = serialOut idx.map slots (mintedBegin cfg idx) ∧
    (fastEpoch cfg idx map slots).1.map = (serialOut idx.map slots (mintedBegin cfg idx)).map ∧
    (fastEpoch cfg idx map slots).1.freeStart =
      idx.freeStart + (created idx.map (slotEvents slots)).length ∧
    ∀ c, (fastEpoch cfg idx map slots).1.delPos c = kAbsent := by
  have hcreated : created idx.map (slotEvents slots) = inserts (slotEvents slots) :=
    created_fresh (slotEvents_ordered slots) he.fresh
  have hmap := funext (erase_ended he)
  by_cases hdel : 0 < cfg.numDeletes
  · have hrids := List.map_congr_left fun x hx => fastRecordId_eq he hwf.clean (x := x) hx
    have hkeys := edel_eq he hwf.clean (fun x => x.1.key) Event.key fun _ _ _ => rfl
    have hcrids := edel_eq he hwf.clean
      (fastRecordId (look slots (mintedBegin cfg idx) map)
        (some (recordDeletes (look slots (mintedBegin cfg idx) map) slots idx.delPos)))
      (fun v => serialCrid idx.map (slotEvents slots) (mintedBegin cfg idx)
        (found idx.map (slotEvents slots) v)) fun x hx hop => by
          rw [fastRecordId_eq he hwf.clean hx, slotCrid, if_neg (by rw [hop]; decide)]; rfl
    simp only [fastEpoch, hdel, if_true, hrids, hkeys, hcrids, hmap, serialOut, hcreated,
      inserts_map_key, inserts_length, delPos_clean he hwf.clean, implies_true, and_self]
  · have hno : ∀ s ∈ slots, s.op ≠ .delete := fun s hs hop => hdel (hok.deletes s hs hop)
    have hrids := List.map_congr_left fun x hx => fastRecordId_none he hno (x := x) hx
    rw [ended_eq_nil hno, List.map_nil] at hmap
    change map = _ at hmap
    simp only [fastEpoch, hdel, if_false, hrids, serialOut, hcreated, inserts_map_key, inserts_length,
      ended_eq_nil hno, List.map_nil, hwf.clean, implies_true, and_true]
    exact ⟨by rw [← hmap], hmap⟩

/-- What an accepted `insertFresh` establishes. -/
theorem entered_of_accept (hwf : IndexWf cfg idx) (hok : EpochOk cfg slots)
    (hrows : checkFreeRows cfg idx.freeStart (insKeys slots).length = .ok ())
    (hacc : (insertFresh idx.map idx.hasErased (insKeys slots) (mintedBegin cfg idx)).1 = true) :
    Entered idx.map slots (mintedBegin cfg idx)
      (insertFresh idx.map idx.hasErased (insKeys slots) (mintedBegin cfg idx)).2 := by
  have hfits : mintedBegin cfg idx + (insKeys slots).length ≤ kAbsent :=
    ((checkFreeRows_ok hwf.rows).mp hrows).trans hwf.ids
  obtain ⟨hnd, habs⟩ := fresh_of_insertFresh hfits hacc
  have hfresh := fresh_slots hnd habs
  refine ⟨hfresh, ⟨hwf.below, hwf.inj, by rw [inserts_length]; exact hfits⟩, fun k => ?_, hok.count⟩
  rw [insertFresh_map hfits hacc, ← born_map _ (slotEvents_ordered slots) hfresh, inserts_map_key]

/-- On every epoch whose inserts `insertFresh` accepts, the fast path and the timeline path hand out
    the same record ids, mint the same CRIDs for the same keys, log the same effective deletes and
    leave the same map and row counter. -/
theorem fastPath_eq_timelinePath (hwf : IndexWf cfg idx) (hok : EpochOk cfg slots)
    (hrows : checkFreeRows cfg idx.freeStart (insKeys slots).length = .ok ())
    (hacc : (insertFresh idx.map idx.hasErased (insKeys slots) (mintedBegin cfg idx)).1 = true) :
    ∃ idx', generalEpoch cfg idx slots = .ok (idx', (fastEpoch cfg idx
        (insertFresh idx.map idx.hasErased (insKeys slots) (mintedBegin cfg idx)).2 slots).2) ∧
      idx'.map = (fastEpoch cfg idx
        (insertFresh idx.map idx.hasErased (insKeys slots) (mintedBegin cfg idx)).2 slots).1.map ∧
      idx'.freeStart = (fastEpoch cfg idx
        (insertFresh idx.map idx.hasErased (insKeys slots) (mintedBegin cfg idx)).2 slots).1.freeStart := by
  have he := entered_of_accept hwf hok hrows hacc
  obtain ⟨hout, hmap, hfree, -⟩ := fastEpoch_eq hwf hok he
  obtain ⟨hmap', hfree'⟩ := generalIndex_spec hwf hok hrows
  refine ⟨generalIndex cfg idx slots, ?_, ?_, ?_⟩
  · rw [hout]; exact generalEpoch_eq hwf hok hrows
  · rw [hmap, hmap']
  · rw [hfree, hfree']

end

/-- Four loaded records, room for four more. -/
def smallConfig : Config := ⟨8, 4, 1⟩

def smallIndex : Index :=
  { map := fun k => if k < 4 then k else kAbsent, hasErased := true, freeStart := 0,
    delPos := fun _ => kAbsent, entryCrid := fun _ => 0 }

theorem smallIndex_wf : IndexWf smallConfig smallIndex := by
  refine ⟨by decide, by decide, fun k hk => ?_, fun k k' hk hkk => ?_, fun _ => rfl⟩
  · simp only [smallIndex, mintedBegin, smallConfig] at hk ⊢
    split at hk
    · next h => rw [if_pos h]; omega
    · exact absurd rfl hk
  · simp only [smallIndex] at hk hkk
    split at hk
    · next h =>
      rw [if_pos h] at hkk
      split at hkk
      · exact hkk
      · simp only [kAbsent] at hkk; omega
    · exact absurd rfl hk

/-- Key 9 is read, inserted and deleted; key 2 is deleted twice and read. -/
def smallEpoch : List Slot :=
  [⟨.read, 9, 0⟩, ⟨.insert, 9, 0⟩, ⟨.delete, 2, 0⟩, ⟨.delete, 2, 0⟩, ⟨.read, 2, 0⟩, ⟨.delete, 9, 0⟩]

theorem fastPath_eq_timelinePath_small : ∃ idx', generalEpoch smallConfig smallIndex smallEpoch =
      .ok (idx', (fastEpoch smallConfig smallIndex
        (insertFresh smallIndex.map smallIndex.hasErased (insKeys smallEpoch) 4).2 smallEpoch).2) ∧
    (fastEpoch smallConfig smallIndex
      (insertFresh smallIndex.map smallIndex.hasErased (insKeys smallEpoch) 4).2 smallEpoch).2.recordIds
      = [kAbsent, 4, 2, kAbsent, kAbsent, 4] := by
  have hok : EpochOk smallConfig smallEpoch := ⟨by decide, by decide, by decide⟩
  obtain ⟨idx', h, -, -⟩ := fastPath_eq_timelinePath smallIndex_wf hok (by decide) (by decide)
  exact ⟨idx', h, by decide⟩

end Egad.Ycsb
