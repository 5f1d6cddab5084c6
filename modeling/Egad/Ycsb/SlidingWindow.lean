import Egad.Ycsb.Oracle
import Mathlib.Order.Interval.Finset.Nat
import Mathlib.Data.Set.Insert

/-! # The generator of the delete-bearing mixes (`benchmarks/ycsb.cpp`)

    The live keys are a window of the key space. Inserts move its head, deletes its tail, everything
    else draws a key from it:

        keys    0 … ──────── tail ─────────────── head ─────────▶
                   deleted         live keys            not minted

    A transaction first fixes its inserts and deletes, and then draws the other keys from the window
    they leave, each different from all other keys of the transaction. A delete that finds no key
    raises an exception; a read that finds none divides by zero or draws forever. -/

namespace Egad.Ycsb

/-! ### The source -/

/-- What the generator reads of a `YcsbConfig`. -/
structure WindowConfig where
  numReads : ℕ
  numWrites : ℕ
  numRmw : ℕ
  numDeletes : ℕ
  fullRecordRead : Bool
  startingNumRecords : ℕ

/-- `getOpType`. -/
def getOpType (cfg : WindowConfig) (percentage : ℕ) : YcsbOpType :=
  if percentage < cfg.numReads then (if cfg.fullRecordRead then .fullRead else .read)
  else if percentage < cfg.numReads + cfg.numWrites then .update
  else if percentage < cfg.numReads + cfg.numWrites + cfg.numRmw then
    (if cfg.fullRecordRead then .fullReadModifyWrite else .readModifyWrite)
  else if percentage < cfg.numReads + cfg.numWrites + cfg.numRmw + cfg.numDeletes then .delete
  else .insert

/-- The operations whose key the first pass fixes. -/
def fixesKey (op : YcsbOpType) : Prop := op = .insert ∨ op = .delete

instance (op : YcsbOpType) : Decidable (fixesKey op) := inferInstanceAs (Decidable (_ ∨ _))

/-- The first pass: the operations with the keys it fixes, and the head and tail after it; `none`
    when a delete finds the window drained. -/
def pass1 : ℕ → ℕ → List YcsbOpType → Option (List Slot × ℕ × ℕ)
  | head, tail, [] => some ([], head, tail)
  | head, tail, op :: ops =>
    if op = .insert then
      (pass1 ((head + 1) % 2 ^ 32) tail ops).map fun r => (⟨op, head, 0⟩ :: r.1, r.2)
    else if op = .delete then
      if head ≤ tail then none
      else (pass1 head ((tail + 1) % 2 ^ 32) ops).map fun r => (⟨op, tail, 0⟩ :: r.1, r.2)
    else (pass1 head tail ops).map fun r => (⟨op, 0xffffffff, 0⟩ :: r.1, r.2)

/-- The loop that draws a key, as it is entered: the other keys of the transaction, the window. -/
structure KeyLoop where
  others : List ℕ
  head : ℕ
  tail : ℕ

/-- `max_existing_record - delete_tail`. -/
def KeyLoop.window (e : KeyLoop) : ℕ := (e.head + 2 ^ 32 - e.tail) % 2 ^ 32

/-- `max_existing_record - 1u - rank`. -/
def KeyLoop.key (e : KeyLoop) (rank : ℕ) : ℕ := (e.head + 2 ^ 33 - 1 - rank) % 2 ^ 32

/-- The loop, on the values that `zipf` returns: the key and the values that are left; `none` when
    it divides by zero or goes on past the values. -/
def drawKey (e : KeyLoop) : List ℕ → Option (ℕ × List ℕ)
  | [] => none
  | z :: zs =>
    if e.window = 0 then none
    else if e.key (z % 2 ^ 32 % e.window) ∈ e.others then drawKey e zs
    else some (e.key (z % 2 ^ 32 % e.window), zs)

/-- The second pass from operation `done.length` on: the loops it enters, and the operations when it
    ends. -/
def pass2 (field : ℕ → ℕ) (head tail : ℕ) : List Slot → List Slot → List ℕ →
    List KeyLoop × Option (List Slot × List ℕ)
  | done, [], zs => ([], some (done, zs))
  | done, s :: rest, zs =>
    if fixesKey s.op then pass2 field head tail (done ++ [s]) rest zs
    else
      match drawKey ⟨(done ++ rest).map Slot.key, head, tail⟩ zs with
      | none => ([⟨(done ++ rest).map Slot.key, head, tail⟩], none)
      | some (key, zs') =>
        let r := pass2 field head tail (done ++ [⟨s.op, key, field done.length⟩]) rest zs'
        (⟨(done ++ rest).map Slot.key, head, tail⟩ :: r.1, r.2)

/-- What a run of the generator has done: the loops it entered, the operations of the finished
    transactions, and whether it raised the exception. -/
structure Generated where
  entries : List KeyLoop
  slots : List Slot
  drained : Bool

/-- The transactions of all epochs, in order; `fields t` is drawn for transaction `t`. -/
def generateFrom (fields : ℕ → ℕ → ℕ) : ℕ → ℕ → ℕ → List (List YcsbOpType) → List ℕ → Generated
  | _, _, _, [], _ => ⟨[], [], false⟩
  | t, head, tail, ops :: txns, zs =>
    match pass1 head tail ops with
    | none => ⟨[], [], true⟩
    | some (slots, head', tail') =>
      let r := pass2 (fields t) head' tail' [] slots zs
      match r.2 with
      | none => ⟨r.1, [], false⟩
      | some (slots', zs') =>
        let g := generateFrom fields (t + 1) head' tail' txns zs'
        ⟨r.1 ++ g.entries, slots' ++ g.slots, g.drained⟩

/-- The operation types of a run: `epochs` are the percentages drawn, by epoch and transaction. -/
def opTypes (cfg : WindowConfig) (epochs : List (List (List ℕ))) : List (List YcsbOpType) :=
  epochs.flatten.map fun percentages => percentages.map (getOpType cfg)

/-- The delete-bearing branch of `generateTxns`. -/
def generate (cfg : WindowConfig) (fields : ℕ → ℕ → ℕ) (epochs : List (List (List ℕ)))
    (zs : List ℕ) : Generated :=
  generateFrom fields 0 (cfg.startingNumRecords % 2 ^ 32) 0 (opTypes cfg epochs) zs

/-! ### What it is for -/

/-- The window is not empty and holds a key that the transaction does not have yet. -/
def KeyLoop.Ok (e : KeyLoop) : Prop :=
  e.window ≠ 0 ∧ ∃ rank < e.window, e.key rank ∉ e.others

/-- The keys that are live after an operation. -/
def liveAfter (live : Set ℕ) (s : Slot) : Set ℕ :=
  match s.op with
  | .insert => insert s.key live
  | .delete => live \ {s.key}
  | _ => live

/-- Every operation but an insert names a key that is live when its turn comes. -/
def AllLive : Set ℕ → List Slot → Prop
  | _, [] => True
  | live, s :: ss => (s.op ≠ .insert → s.key ∈ live) ∧ AllLive (liveAfter live s) ss

structure Generated.Sound (g : Generated) (live : Set ℕ) : Prop where
  entries : ∀ e ∈ g.entries, e.Ok
  slots : AllLive live g.slots

def numInserts (ops : List YcsbOpType) : ℕ := ops.countP fun op => op = .insert
def numDeletes (ops : List YcsbOpType) : ℕ := ops.countP fun op => op = .delete
def numDraws (ops : List YcsbOpType) : ℕ := ops.countP fun op => ¬ fixesKey op

/-- Before each transaction up to the exception, as many keys are live as it deletes and draws, or
    it draws none. -/
def RoomForDraws : ℕ → ℕ → List (List YcsbOpType) → Prop
  | _, _, [] => True
  | head, tail, ops :: txns => pass1 head tail ops ≠ none →
      numDraws ops ≤ head - (tail + numDeletes ops) ∧
        RoomForDraws (head + numInserts ops) (tail + numDeletes ops) txns

/-! ### The first pass -/

/-- Operations whose fixed keys continue a window: from `head` and `tail` on to `h` and `t`. -/
inductive Keyed : ℕ → ℕ → List Slot → ℕ → ℕ → Prop
  | nil (head tail : ℕ) : Keyed head tail [] head tail
  | insert {head tail s ss h t} (hop : s.op = .insert) (hkey : s.key = head)
      (hrest : Keyed (head + 1) tail ss h t) : Keyed head tail (s :: ss) h t
  | delete {head tail s ss h t} (hop : s.op = .delete) (hkey : s.key = tail) (hlive : tail < head)
      (hrest : Keyed head (tail + 1) ss h t) : Keyed head tail (s :: ss) h t
  | draw {head tail s ss h t} (hop : ¬ fixesKey s.op) (hrest : Keyed head tail ss h t) :
      Keyed head tail (s :: ss) h t

section
variable {head tail h t : ℕ} {ops : List YcsbOpType} {slots : List Slot}

theorem numOps_cons (op : YcsbOpType) (ops : List YcsbOpType) :
    numInserts (op :: ops) = numInserts ops + (if op = .insert then 1 else 0) ∧
    numDeletes (op :: ops) = numDeletes ops + (if op = .delete then 1 else 0) ∧
    numDraws (op :: ops) = numDraws ops + (if fixesKey op then 0 else 1) := by
  refine ⟨?_, ?_, ?_⟩
  · rw [numInserts, List.countP_cons, ← numInserts]
    simp only [decide_eq_true_eq]
  · rw [numDeletes, List.countP_cons, ← numDeletes]
    simp only [decide_eq_true_eq]
  · rw [numDraws, List.countP_cons, ← numDraws]
    simp only [decide_eq_true_eq, ite_not]

/-- The first pass moves the window, and leaves the keys to draw at the mark for none. -/
theorem pass1_keyed (ops : List YcsbOpType) : ∀ {head tail slots h t},
    head + numInserts ops < 2 ^ 32 → tail ≤ head → pass1 head tail ops = some (slots, h, t) →
    Keyed head tail slots h t ∧ slots.map Slot.op = ops ∧
      ∀ s ∈ slots, ¬ fixesKey s.op → s.key = 0xffffffff := by
  induction ops with
  | nil =>
    rintro head tail slots h t - - heq
    obtain ⟨rfl, rfl, rfl⟩ : _ ∧ _ ∧ _ := by
      simpa only [pass1, Option.some_inj, Prod.mk.injEq] using heq
    exact ⟨.nil _ _, rfl, fun _ hs => absurd hs List.not_mem_nil⟩
  | cons op ops ih =>
    rintro head tail slots h t hfit hle heq
    obtain ⟨hins, -, -⟩ := numOps_cons op ops
    rw [hins] at hfit
    rw [pass1] at heq
    split at heq
    case isTrue hop =>
      rw [if_pos hop] at hfit
      obtain ⟨⟨slots', h', t'⟩, hpass, hout⟩ := Option.map_eq_some_iff.mp heq
      rw [Nat.mod_eq_of_lt (by omega)] at hpass
      obtain ⟨hkeyed, hops, hpend⟩ := ih (by omega) (by omega) hpass
      cases hout
      refine ⟨.insert hop rfl hkeyed, by rw [List.map_cons, hops], ?_⟩
      exact List.forall_mem_cons.mpr ⟨fun hno => absurd (.inl hop) hno, hpend⟩
    case isFalse hop =>
      rw [if_neg hop, Nat.add_zero] at hfit
      split at heq
      case isTrue hdel =>
        split at heq
        case isTrue => cases heq
        case isFalse hlive =>
          obtain ⟨⟨slots', h', t'⟩, hpass, hout⟩ := Option.map_eq_some_iff.mp heq
          rw [Nat.mod_eq_of_lt (by omega)] at hpass
          obtain ⟨hkeyed, hops, hpend⟩ := ih hfit (by omega) hpass
          cases hout
          refine ⟨.delete hdel rfl (by omega) hkeyed, by rw [List.map_cons, hops], ?_⟩
          exact List.forall_mem_cons.mpr ⟨fun hno => absurd (.inr hdel) hno, hpend⟩
      case isFalse hdel =>
        obtain ⟨⟨slots', h', t'⟩, hpass, hout⟩ := Option.map_eq_some_iff.mp heq
        obtain ⟨hkeyed, hops, hpend⟩ := ih hfit hle hpass
        cases hout
        refine ⟨.draw (fun hfix => hfix.elim hop hdel) hkeyed, by rw [List.map_cons, hops], ?_⟩
        exact List.forall_mem_cons.mpr ⟨fun _ => rfl, hpend⟩

/-- How far the window moved, and that its tail stayed behind its head. -/
theorem Keyed.bounds (hk : Keyed head tail slots h t) (hle : tail ≤ head) :
    h = head + numInserts (slots.map Slot.op) ∧ t = tail + numDeletes (slots.map Slot.op) ∧
      t ≤ h := by
  induction hk with
  | nil => exact ⟨rfl, rfl, hle⟩
  | @insert head tail s ss h t hop _ _ ih =>
    obtain ⟨hi, hd, -⟩ := numOps_cons s.op (ss.map Slot.op)
    obtain ⟨h1, h2, h3⟩ := ih (by omega)
    rw [List.map_cons, hi, hd, hop]
    exact ⟨by rw [if_pos rfl]; omega, h2, h3⟩
  | @delete head tail s ss h t hop _ hlive _ ih =>
    obtain ⟨hi, hd, -⟩ := numOps_cons s.op (ss.map Slot.op)
    obtain ⟨h1, h2, h3⟩ := ih hlive
    rw [List.map_cons, hi, hd, hop]
    exact ⟨h1, by rw [if_pos rfl]; omega, h3⟩
  | @draw head tail s ss h t hop _ ih =>
    obtain ⟨hi, hd, -⟩ := numOps_cons s.op (ss.map Slot.op)
    obtain ⟨h1, h2, h3⟩ := ih hle
    rw [List.map_cons, hi, hd, if_neg fun he => hop (.inl he), if_neg fun he => hop (.inr he)]
    exact ⟨h1, h2, h3⟩

/-- The inserted keys are those between the heads, the deleted ones are behind the tail. -/
theorem Keyed.keys (hk : Keyed head tail slots h t) :
    head ≤ h ∧ tail ≤ t ∧
    (∀ k, (∃ s ∈ slots, s.op = .insert ∧ s.key = k) ↔ head ≤ k ∧ k < h) ∧
      ∀ s ∈ slots, s.op = .delete → s.key < t := by
  induction hk with
  | nil =>
    refine ⟨le_rfl, le_rfl, fun k => ?_, fun _ hs => absurd hs List.not_mem_nil⟩
    exact iff_of_false (fun ⟨_, hs, _⟩ => absurd hs List.not_mem_nil) (by omega)
  | @insert head tail s ss h t hop hkey _ ih =>
    obtain ⟨hh, ht, hins, hdel⟩ := ih
    refine ⟨by omega, ht, fun k => ?_, List.forall_mem_cons.mpr ⟨fun he => ?_, hdel⟩⟩
    · rw [List.exists_mem_cons_iff, hins, hkey]
      constructor
      · rintro (⟨-, rfl⟩ | hk)
        · omega
        · omega
      · rintro hk
        rcases Nat.eq_or_lt_of_le hk.1 with rfl | hlt
        · exact .inl ⟨hop, rfl⟩
        · exact .inr ⟨hlt, hk.2⟩
    · rw [hop] at he
      cases he
  | @delete head tail s ss h t hop hkey _ _ ih =>
    obtain ⟨hh, ht, hins, hdel⟩ := ih
    refine ⟨hh, by omega, fun k => ?_, List.forall_mem_cons.mpr ⟨fun _ => by omega, hdel⟩⟩
    rw [List.exists_mem_cons_iff, hins, hop]
    exact or_iff_right fun hno => by cases hno.1
  | @draw head tail s ss h t hop _ ih =>
    obtain ⟨hh, ht, hins, hdel⟩ := ih
    refine ⟨hh, ht, fun k => ?_, List.forall_mem_cons.mpr ⟨fun he => absurd (.inr he) hop, hdel⟩⟩
    rw [List.exists_mem_cons_iff, hins]
    exact or_iff_right fun hno => hop (.inl hno.1)

/-- Drawing a key leaves the fixed ones. -/
theorem Keyed.replace {s s' : Slot} {post : List Slot} (hop : ¬ fixesKey s.op)
    (hop' : s'.op = s.op) : ∀ (pre : List Slot) {head tail},
    Keyed head tail (pre ++ s :: post) h t → Keyed head tail (pre ++ s' :: post) h t := by
  intro pre
  induction pre with
  | nil =>
    rintro head tail hk
    cases hk with
    | insert he _ _ => exact absurd (.inl he) hop
    | delete he _ _ _ => exact absurd (.inr he) hop
    | draw _ hrest => exact .draw (hop' ▸ hop) hrest
  | cons x pre ih =>
    rintro head tail hk
    cases hk with
    | insert he hkey hrest => exact .insert he hkey (ih hrest)
    | delete he hkey hlive hrest => exact .delete he hkey hlive (ih hrest)
    | draw he hrest => exact .draw he (ih hrest)

/-- Operations with drawn keys from the middle of the window leave the window live. -/
theorem Keyed.allLive (hk : Keyed head tail slots h t) : tail ≤ head → ∀ {hi}, hi ≤ head →
    (∀ s ∈ slots, ¬ fixesKey s.op → t ≤ s.key ∧ s.key < hi) → ∀ ss,
    (AllLive (Set.Ico tail head) (slots ++ ss) ↔ AllLive (Set.Ico t h) ss) := by
  induction hk with
  | nil => exact fun _ _ _ _ _ => Iff.rfl
  | @insert head tail s ss' h t hop hkey hrest ih =>
    rintro hle hi hhi hdraw ss
    have hset : liveAfter (Set.Ico tail head) s = Set.Ico tail (head + 1) := by
      rw [liveAfter, hop, hkey]
      ext k
      simp only [Set.mem_insert_iff, Set.mem_Ico]
      omega
    rw [List.cons_append, AllLive, hset, ih (by omega) (hhi.trans (Nat.le_succ _))
      (fun x hx => hdraw x (List.mem_cons_of_mem _ hx))]
    exact and_iff_right fun hno => absurd hop hno
  | @delete head tail s ss' h t hop hkey hlive hrest ih =>
    rintro hle hi hhi hdraw ss
    have hset : liveAfter (Set.Ico tail head) s = Set.Ico (tail + 1) head := by
      rw [liveAfter, hop, hkey]
      ext k
      simp only [Set.mem_sdiff, Set.mem_Ico, Set.mem_singleton_iff]
      omega
    rw [List.cons_append, AllLive, hset, ih hlive hhi
      (fun x hx => hdraw x (List.mem_cons_of_mem _ hx))]
    exact and_iff_right fun _ => Set.mem_Ico.mpr ⟨by omega, by omega⟩
  | @draw head tail s ss' h t hop hrest ih =>
    rintro hle hi hhi hdraw ss
    have hset : liveAfter (Set.Ico tail head) s = Set.Ico tail head := by
      unfold liveAfter
      split
      · exact absurd (.inl ‹_›) hop
      · exact absurd (.inr ‹_›) hop
      · rfl
    have hkey := hdraw s (List.mem_cons_self ..) hop
    have htail := hrest.keys.2.1
    rw [List.cons_append, AllLive, hset, ih hle hhi
      (fun x hx => hdraw x (List.mem_cons_of_mem _ hx))]
    exact and_iff_right fun _ => Set.mem_Ico.mpr ⟨by omega, by omega⟩

end

/-! ### The second pass -/

/-- Distinct numbers of an interval leave one out exactly when they are too few to fill it. -/
theorem exists_notMem_iff {l : List ℕ} {a b : ℕ} (hnd : l.Nodup) (hsub : ∀ k ∈ l, a ≤ k ∧ k < b) :
    (∃ k, a ≤ k ∧ k < b ∧ k ∉ l) ↔ l.length < b - a := by
  have hcard : l.toFinset ⊆ Finset.Ico a b := fun k hk =>
    Finset.mem_Ico.mpr (hsub k (List.mem_toFinset.mp hk))
  rw [← List.toFinset_card_of_nodup hnd, ← Nat.card_Ico]
  constructor
  · rintro ⟨k, hak, hkb, hk⟩
    refine Finset.card_lt_card ((Finset.ssubset_iff_of_subset hcard).mpr ⟨k, ?_, ?_⟩)
    · exact Finset.mem_Ico.mpr ⟨hak, hkb⟩
    · exact fun hm => hk (List.mem_toFinset.mp hm)
  · rintro hlt
    obtain ⟨k, hk, hno⟩ := Finset.exists_mem_notMem_of_card_lt_card hlt
    obtain ⟨hak, hkb⟩ := Finset.mem_Ico.mp hk
    exact ⟨k, hak, hkb, fun hm => hno (List.mem_toFinset.mpr hm)⟩

/-- The keys drawn so far. -/
def drawnKeys (slots : List Slot) : List ℕ :=
  (slots.filter fun s => ¬ fixesKey s.op).map Slot.key

section
variable {head tail h t : ℕ}

theorem KeyLoop.window_eq {others : List ℕ} (hle : t ≤ h) (hh : h < 2 ^ 32) :
    (KeyLoop.mk others h t).window = h - t := by
  simp only [KeyLoop.window]
  omega

theorem KeyLoop.key_eq {others : List ℕ} {rank : ℕ} (hh : h < 2 ^ 32) (hr : rank < h) :
    (KeyLoop.mk others h t).key rank = h - 1 - rank := by
  simp only [KeyLoop.key]
  omega

/-- A loop finds a key when one of the window is not taken. -/
theorem KeyLoop.ok_iff {others : List ℕ} (hle : t ≤ h) (hh : h < 2 ^ 32) :
    (KeyLoop.mk others h t).Ok ↔ ∃ k, t ≤ k ∧ k < h ∧ k ∉ others := by
  rw [KeyLoop.Ok, KeyLoop.window_eq hle hh]
  constructor
  · rintro ⟨-, rank, hrank, hkey⟩
    rw [KeyLoop.key_eq hh (by omega)] at hkey
    exact ⟨h - 1 - rank, by omega, by omega, hkey⟩
  · rintro ⟨k, htk, hkh, hk⟩
    refine ⟨by omega, h - 1 - k, by omega, ?_⟩
    rw [KeyLoop.key_eq hh (by omega), show h - 1 - (h - 1 - k) = k by omega]
    exact hk

/-- What the loop returns is a key of the window that is not taken. -/
theorem drawKey_spec {others : List ℕ} (hle : t ≤ h) (hh : h < 2 ^ 32) (zs : List ℕ) :
    ∀ {key zs'}, drawKey ⟨others, h, t⟩ zs = some (key, zs') →
      t ≤ key ∧ key < h ∧ key ∉ others := by
  induction zs with
  | nil =>
    rintro key zs' hdraw
    cases hdraw
  | cons z zs ih =>
    rintro key zs' hdraw
    rw [drawKey, KeyLoop.window_eq hle hh] at hdraw
    split at hdraw
    case isTrue => cases hdraw
    case isFalse hne =>
      split at hdraw
      case isTrue => exact ih hdraw
      case isFalse hno =>
        obtain ⟨rfl, rfl⟩ := Prod.mk.inj (Option.some.inj hdraw)
        have hrank := Nat.mod_lt (z % 2 ^ 32) (Nat.pos_of_ne_zero hne)
        refine ⟨?_, ?_, hno⟩ <;> rw [KeyLoop.key_eq hh (by omega)] <;> omega

/-- Some value makes the loop return a key that is not taken. -/
theorem drawKey_exists {others : List ℕ} (hle : t ≤ h) (hh : h < 2 ^ 32) {k : ℕ} (htk : t ≤ k)
    (hkh : k < h) (hk : k ∉ others) (zs : List ℕ) :
    drawKey ⟨others, h, t⟩ ((h - 1 - k) :: zs) = some (k, zs) := by
  have hrank : (h - 1 - k) % 2 ^ 32 % (h - t) = h - 1 - k := by
    rw [Nat.mod_eq_of_lt (show h - 1 - k < 2 ^ 32 by omega), Nat.mod_eq_of_lt (by omega)]
  have hkey : (KeyLoop.mk others h t).key (h - 1 - k) = k := by
    rw [KeyLoop.key_eq hh (by omega)]
    omega
  rw [drawKey, KeyLoop.window_eq hle hh, if_neg (by omega), hrank, hkey, if_neg hk]

/-- The second pass at operation `done.length`: the first pass's keys are in place, the keys drawn
    so far are distinct keys that were live before the transaction and are not deleted by it. -/
structure Drawing (head tail h t : ℕ) (done rest : List Slot) : Prop where
  keyed : Keyed head tail (done ++ rest) h t
  pending : ∀ s ∈ rest, ¬ fixesKey s.op → s.key = 0xffffffff
  nodup : (drawnKeys done).Nodup
  window : ∀ k ∈ drawnKeys done, t ≤ k ∧ k < head

theorem drawnKeys_concat (done : List Slot) (s : Slot) :
    drawnKeys (done ++ [s]) = drawnKeys done ++ if fixesKey s.op then [] else [s.key] := by
  rw [drawnKeys, List.filter_append, List.map_append, ← drawnKeys]
  congr 1
  by_cases hop : fixesKey s.op <;> simp [hop]

theorem Drawing.fixed {done rest : List Slot} {s : Slot}
    (hd : Drawing head tail h t done (s :: rest)) (hop : fixesKey s.op) :
    Drawing head tail h t (done ++ [s]) rest where
  keyed := by
    rw [List.append_assoc]
    exact hd.keyed
  pending x hx := hd.pending x (List.mem_cons_of_mem _ hx)
  nodup := by
    rw [drawnKeys_concat, if_pos hop, List.append_nil]
    exact hd.nodup
  window := by
    rw [drawnKeys_concat, if_pos hop, List.append_nil]
    exact hd.window

/-- A key of the window is not taken when it was live before the transaction and is not drawn. -/
theorem Drawing.notMem_others {done rest : List Slot} {s : Slot} (hh : h < 2 ^ 32)
    (hd : Drawing head tail h t done (s :: rest)) (hop : ¬ fixesKey s.op) {k : ℕ} (htk : t ≤ k)
    (hkh : k < h) : k ∉ (done ++ rest).map Slot.key ↔ k < head ∧ k ∉ drawnKeys done := by
  obtain ⟨hhead, -, hins, hdel⟩ := hd.keyed.keys
  constructor
  · rintro hk
    refine ⟨?_, fun hm => ?_⟩
    · by_contra hge
      obtain ⟨x, hx, hxop, hxkey⟩ := (hins k).mpr ⟨by omega, hkh⟩
      refine hk (List.mem_map.mpr ⟨x, ?_, hxkey⟩)
      rcases List.mem_append.mp hx with hx | hx
      · exact List.mem_append_left _ hx
      · rcases List.mem_cons.mp hx with rfl | hx
        · exact absurd (.inl hxop) hop
        · exact List.mem_append_right _ hx
    · obtain ⟨x, hx, hxkey⟩ := List.mem_map.mp hm
      exact hk (List.mem_map.mpr ⟨x, List.mem_append_left _ (List.mem_of_mem_filter hx), hxkey⟩)
  · rintro ⟨hlt, hk⟩ hm
    obtain ⟨x, hx, rfl⟩ := List.mem_map.mp hm
    have hx' : x ∈ done ++ s :: rest := by
      rcases List.mem_append.mp hx with hx | hx
      · exact List.mem_append_left _ hx
      · exact List.mem_append_right _ (List.mem_cons_of_mem _ hx)
    by_cases hfix : fixesKey x.op
    · rcases hfix with hxop | hxop
      · have := (hins x.key).mp ⟨x, hx', hxop, rfl⟩
        omega
      · have := hdel x hx' hxop
        omega
    · rcases List.mem_append.mp hx with hx | hx
      · refine hk (List.mem_map.mpr ⟨x, List.mem_filter.mpr ⟨hx, ?_⟩, rfl⟩)
        simpa using hfix
      · have := hd.pending x (List.mem_cons_of_mem _ hx) hfix
        omega

theorem Drawing.drawn {done rest : List Slot} {s : Slot} (hh : h < 2 ^ 32)
    (hd : Drawing head tail h t done (s :: rest)) (hop : ¬ fixesKey s.op) {k : ℕ} (htk : t ≤ k)
    (hkh : k < h) (hk : k ∉ (done ++ rest).map Slot.key) (field : ℕ) :
    Drawing head tail h t (done ++ [⟨s.op, k, field⟩]) rest where
  keyed := by
    have hsame : (⟨s.op, k, field⟩ : Slot).op = s.op := rfl
    rw [List.append_assoc]
    exact Keyed.replace hop hsame done hd.keyed
  pending x hx := hd.pending x (List.mem_cons_of_mem _ hx)
  nodup := by
    rw [drawnKeys_concat, if_neg hop]
    refine List.nodup_append'.mpr ⟨hd.nodup, List.nodup_singleton k, ?_⟩
    rintro x hx hx'
    cases List.mem_singleton.mp hx'
    exact ((hd.notMem_others hh hop htk hkh).mp hk).2 hx
  window := by
    rw [drawnKeys_concat, if_neg hop]
    refine List.forall_mem_append.mpr ⟨hd.window, List.forall_mem_singleton.mpr ?_⟩
    exact ⟨htk, ((hd.notMem_others hh hop htk hkh).mp hk).1⟩

/-- There are no more keys drawn than the window had to offer. -/
theorem Drawing.card_le {done rest : List Slot} (hd : Drawing head tail h t done rest) :
    (drawnKeys done).length ≤ head - t := by
  rw [← Nat.card_Ico, ← List.toFinset_card_of_nodup hd.nodup]
  exact Finset.card_le_card fun k hk => Finset.mem_Ico.mpr (hd.window k (List.mem_toFinset.mp hk))

/-- A loop finds a key exactly when the keys drawn before do not fill the window the transaction
    leaves of the keys it found. -/
theorem Drawing.ok_iff {done rest : List Slot} {s : Slot} (hle : t ≤ h) (hh : h < 2 ^ 32)
    (hd : Drawing head tail h t done (s :: rest)) (hop : ¬ fixesKey s.op) :
    (KeyLoop.mk ((done ++ rest).map Slot.key) h t).Ok ↔ (drawnKeys done).length < head - t := by
  have hhead := hd.keyed.keys.1
  rw [KeyLoop.ok_iff hle hh, ← exists_notMem_iff hd.nodup hd.window]
  constructor
  · rintro ⟨k, htk, hkh, hk⟩
    obtain ⟨hlt, hno⟩ := (hd.notMem_others hh hop htk hkh).mp hk
    exact ⟨k, htk, hlt, hno⟩
  · rintro ⟨k, htk, hlt, hno⟩
    have hkh : k < h := by omega
    exact ⟨k, htk, hkh, (hd.notMem_others hh hop htk hkh).mpr ⟨hlt, hno⟩⟩

/-- The keys that the second pass still draws go into the window when they all fit. -/
theorem pass2_entries (hle : t ≤ h) (hh : h < 2 ^ 32) (field : ℕ → ℕ) (rest : List Slot) :
    ∀ {done zs}, Drawing head tail h t done rest →
    (drawnKeys done).length + numDraws (rest.map Slot.op) ≤ head - t →
    ∀ e ∈ (pass2 field h t done rest zs).1, e.Ok := by
  induction rest with
  | nil => exact fun _ _ _ he => absurd he List.not_mem_nil
  | cons s rest ih =>
    rintro done zs hd hroom
    obtain ⟨-, -, hdraws⟩ := numOps_cons s.op (rest.map Slot.op)
    rw [List.map_cons, hdraws] at hroom
    rw [pass2]
    split
    case isTrue hop =>
      rw [if_pos hop] at hroom
      refine ih (hd.fixed hop) ?_
      rwa [drawnKeys_concat, if_pos hop, List.append_nil]
    case isFalse hop =>
      rw [if_neg hop] at hroom
      have hok := (hd.ok_iff hle hh hop).mpr (by omega)
      split
      case h_1 => exact List.forall_mem_singleton.mpr hok
      case h_2 key zs' hdraw =>
        obtain ⟨htk, hkh, hk⟩ := drawKey_spec hle hh zs hdraw
        refine List.forall_mem_cons.mpr ⟨hok, ih (hd.drawn hh hop htk hkh hk _) ?_⟩
        rw [drawnKeys_concat, if_neg hop, List.length_append, List.length_singleton]
        omega

/-- What a second pass that ends has drawn. -/
theorem pass2_done (hle : t ≤ h) (hh : h < 2 ^ 32) (field : ℕ → ℕ) (rest : List Slot) :
    ∀ {done zs slots zs'}, Drawing head tail h t done rest →
    (pass2 field h t done rest zs).2 = some (slots, zs') →
    Drawing head tail h t slots [] ∧
      (drawnKeys slots).length = (drawnKeys done).length + numDraws (rest.map Slot.op) ∧
      slots.map Slot.op = (done ++ rest).map Slot.op := by
  induction rest with
  | nil =>
    rintro done zs slots zs' hd hdone
    obtain ⟨rfl, rfl⟩ := Prod.mk.inj (Option.some.inj hdone)
    exact ⟨hd, rfl, by rw [List.append_nil]⟩
  | cons s rest ih =>
    rintro done zs slots zs' hd hdone
    obtain ⟨-, -, hdraws⟩ := numOps_cons s.op (rest.map Slot.op)
    rw [List.map_cons, hdraws]
    rw [pass2] at hdone
    split at hdone
    case isTrue hop =>
      obtain ⟨hslots, hlen, hops⟩ := ih (hd.fixed hop) hdone
      refine ⟨hslots, ?_, ?_⟩
      · rw [hlen, drawnKeys_concat, if_pos hop, List.append_nil, if_pos hop, Nat.add_zero]
      · rw [hops, List.append_assoc, List.singleton_append]
    case isFalse hop =>
      split at hdone
      case h_1 => cases hdone
      case h_2 key zs₁ hdraw =>
        obtain ⟨htk, hkh, hk⟩ := drawKey_spec hle hh zs hdraw
        obtain ⟨hslots, hlen, hops⟩ := ih (hd.drawn hh hop htk hkh hk _) hdone
        refine ⟨hslots, ?_, ?_⟩
        · rw [hlen, drawnKeys_concat, if_neg hop, List.length_append, List.length_singleton,
            if_neg hop, Nat.add_assoc, Nat.add_comm 1]
        · rw [hops]
          simp only [List.map_append, List.map_cons, List.append_assoc, List.singleton_append]

/-- Some values lead the second pass to its end, or to a loop that cannot end. -/
theorem pass2_exists (hle : t ≤ h) (hh : h < 2 ^ 32) (field : ℕ → ℕ) (rest : List Slot) :
    ∀ {done}, Drawing head tail h t done rest → ∀ zrest, ∃ zs,
    (∃ slots, (pass2 field h t done rest zs).2 = some (slots, zrest)) ∨
      (pass2 field h t done rest zs).2 = none ∧
        ∃ e ∈ (pass2 field h t done rest zs).1, ¬ e.Ok := by
  induction rest with
  | nil => exact fun {done} _ zrest => ⟨zrest, .inl ⟨done, rfl⟩⟩
  | cons s rest ih =>
    rintro done hd zrest
    by_cases hop : fixesKey s.op
    · obtain ⟨zs, hzs⟩ := ih (hd.fixed hop) zrest
      refine ⟨zs, ?_⟩
      rwa [pass2, if_pos hop]
    · by_cases hok : (KeyLoop.mk ((done ++ rest).map Slot.key) h t).Ok
      · obtain ⟨k, htk, hkh, hk⟩ := (KeyLoop.ok_iff hle hh).mp hok
        obtain ⟨zs, hzs⟩ := ih (hd.drawn hh hop htk hkh hk (field done.length)) zrest
        refine ⟨(h - 1 - k) :: zs, ?_⟩
        rw [pass2, if_neg hop, drawKey_exists hle hh htk hkh hk]
        rcases hzs with hend | ⟨hnone, e, he, hbad⟩
        · exact .inl hend
        · exact .inr ⟨hnone, e, List.mem_cons_of_mem _ he, hbad⟩
      · refine ⟨[], .inr ?_⟩
        rw [pass2, if_neg hop]
        exact ⟨rfl, _, List.mem_cons_self .., hok⟩

end

/-! ### Runs -/

section
variable {head tail : ℕ} {fields : ℕ → ℕ → ℕ}

/-- The second pass begins where the first one ends. -/
theorem drawing_pass1 {ops : List YcsbOpType} {slots : List Slot} {h t : ℕ}
    (hfit : head + numInserts ops < 2 ^ 32) (hle : tail ≤ head)
    (hpass : pass1 head tail ops = some (slots, h, t)) :
    Drawing head tail h t [] slots ∧ slots.map Slot.op = ops ∧
      h = head + numInserts ops ∧ t = tail + numDeletes ops ∧ t ≤ h := by
  obtain ⟨hkeyed, hops, hpend⟩ := pass1_keyed ops hfit hle hpass
  have hbounds := hkeyed.bounds hle
  rw [hops] at hbounds
  exact ⟨⟨hkeyed, hpend, List.nodup_nil, fun _ hk => absurd hk List.not_mem_nil⟩, hops, hbounds⟩

/-- Finished transactions leave a window of live keys live. -/
theorem Drawing.allLive {h t : ℕ} {slots : List Slot} (hd : Drawing head tail h t slots [])
    (hle : tail ≤ head) (ss : List Slot) :
    AllLive (Set.Ico tail head) (slots ++ ss) ↔ AllLive (Set.Ico t h) ss := by
  have hkeyed := hd.keyed
  rw [List.append_nil] at hkeyed
  refine hkeyed.allLive hle le_rfl (fun s hs hop => hd.window s.key ?_) ss
  exact List.mem_map_of_mem (List.mem_filter.mpr ⟨hs, by simpa using hop⟩)

/-- A transaction whose second pass does not end is the last one of a run. -/
theorem generateFrom_stuck {n h t : ℕ} {ops : List YcsbOpType} {txns : List (List YcsbOpType)}
    {slots : List Slot} {zs : List ℕ} (hpass : pass1 head tail ops = some (slots, h, t))
    (hnone : (pass2 (fields n) h t [] slots zs).2 = none) :
    generateFrom fields n head tail (ops :: txns) zs =
      ⟨(pass2 (fields n) h t [] slots zs).1, [], false⟩ := by
  simp only [generateFrom, hpass, hnone]

theorem generateFrom_cons {n h t : ℕ} {ops : List YcsbOpType} {txns : List (List YcsbOpType)}
    {slots slots' : List Slot} {zs zs' : List ℕ} (hpass : pass1 head tail ops = some (slots, h, t))
    (hdone : (pass2 (fields n) h t [] slots zs).2 = some (slots', zs')) :
    generateFrom fields n head tail (ops :: txns) zs =
      ⟨(pass2 (fields n) h t [] slots zs).1 ++ (generateFrom fields (n + 1) h t txns zs').entries,
        slots' ++ (generateFrom fields (n + 1) h t txns zs').slots,
        (generateFrom fields (n + 1) h t txns zs').drained⟩ := by
  simp only [generateFrom, hpass, hdone]

/-- With room for every transaction the run is sound. -/
theorem generateFrom_sound (txns : List (List YcsbOpType)) : ∀ {n head tail},
    head + (txns.map numInserts).sum < 2 ^ 32 → tail ≤ head → RoomForDraws head tail txns →
    ∀ zs, (generateFrom fields n head tail txns zs).Sound (Set.Ico tail head) := by
  induction txns with
  | nil =>
    rintro n head tail - - - zs
    exact ⟨fun _ he => absurd he List.not_mem_nil, trivial⟩
  | cons ops txns ih =>
    rintro n head tail hfit hle hroom zs
    rw [List.map_cons, List.sum_cons] at hfit
    rcases hpass : pass1 head tail ops with _ | ⟨slots, h, t⟩
    · simp only [generateFrom, hpass]
      exact ⟨fun _ he => absurd he List.not_mem_nil, trivial⟩
    · obtain ⟨hd, hops, rfl, rfl, hth⟩ := drawing_pass1 (by omega) hle hpass
      obtain ⟨hdraws, hrest⟩ := hroom (by rw [hpass]; exact Option.some_ne_none _)
      have hh : head + numInserts ops < 2 ^ 32 := by omega
      have hentries : ∀ e ∈ (pass2 (fields n) (head + numInserts ops) (tail + numDeletes ops) []
          slots zs).1, e.Ok := pass2_entries hth hh (fields n) slots hd
        ((Nat.zero_add _).trans_le (by rw [hops]; exact hdraws))
      rcases hdone : (pass2 (fields n) (head + numInserts ops) (tail + numDeletes ops) [] slots
        zs).2 with _ | ⟨slots', zs'⟩
      · rw [generateFrom_stuck hpass hdone]
        exact ⟨hentries, trivial⟩
      · obtain ⟨hd', -, -⟩ := pass2_done hth hh (fields n) slots hd hdone
        obtain ⟨hrestEntries, hrestSlots⟩ := ih (n := n + 1) (by omega) hth hrest zs'
        rw [generateFrom_cons hpass hdone]
        exact ⟨List.forall_mem_append.mpr ⟨hentries, hrestEntries⟩,
          (hd'.allLive hle _).mpr hrestSlots⟩

/-- Without it some values lead a run to a loop that cannot end, and no exception is raised. -/
theorem exists_unsound (txns : List (List YcsbOpType)) : ∀ {n head tail},
    head + (txns.map numInserts).sum < 2 ^ 32 → tail ≤ head → ¬ RoomForDraws head tail txns →
    ∃ zs, (generateFrom fields n head tail txns zs).drained = false ∧
      ∃ e ∈ (generateFrom fields n head tail txns zs).entries, ¬ e.Ok := by
  induction txns with
  | nil => exact fun _ _ hroom => absurd trivial hroom
  | cons ops txns ih =>
    rintro n head tail hfit hle hroom
    rw [List.map_cons, List.sum_cons] at hfit
    rw [RoomForDraws, Classical.not_imp] at hroom
    obtain ⟨hsome, hroom⟩ := hroom
    obtain ⟨⟨slots, h, t⟩, hpass⟩ := Option.ne_none_iff_exists'.mp hsome
    obtain ⟨hd, hops, rfl, rfl, hth⟩ := drawing_pass1 (by omega) hle hpass
    have hh : head + numInserts ops < 2 ^ 32 := by omega
    have hstuck : ∀ zs, (pass2 (fields n) (head + numInserts ops) (tail + numDeletes ops) [] slots
        zs).2 = none → (∃ e ∈ (pass2 (fields n) (head + numInserts ops) (tail + numDeletes ops) []
        slots zs).1, ¬ e.Ok) → ∃ zs, (generateFrom fields n head tail (ops :: txns) zs).drained =
        false ∧ ∃ e ∈ (generateFrom fields n head tail (ops :: txns) zs).entries, ¬ e.Ok := by
      rintro zs hnone hbad
      refine ⟨zs, ?_⟩
      rw [generateFrom_stuck hpass hnone]
      exact ⟨rfl, hbad⟩
    by_cases hdraws : numDraws ops ≤ head - (tail + numDeletes ops)
    · -- this transaction has room: the trouble is in a later one
      obtain ⟨zrest, hdrained, e, he, hbad⟩ := ih (n := n + 1) (by omega) hth
        fun hrest => hroom ⟨hdraws, hrest⟩
      obtain ⟨zs, ⟨slots', hdone⟩ | ⟨hnone, hbad'⟩⟩ :=
        pass2_exists hth hh (fields n) slots hd zrest
      · refine ⟨zs, ?_⟩
        rw [generateFrom_cons hpass hdone]
        exact ⟨hdrained, e, List.mem_append_right _ he, hbad⟩
      · exact hstuck zs hnone hbad'
    · -- this one cannot draw as many distinct keys
      obtain ⟨zs, ⟨slots', hdone⟩ | ⟨hnone, hbad'⟩⟩ := pass2_exists hth hh (fields n) slots hd []
      · obtain ⟨hd', hlen, -⟩ := pass2_done hth hh (fields n) slots hd hdone
        have hcard := hd'.card_le
        rw [hlen, hops] at hcard
        exact absurd ((Nat.zero_add _).symm.trans_le hcard) hdraws
      · exact hstuck zs hnone hbad'

end

/-- As long as no exception is raised, no window is empty when a key is drawn, every loop has a key
    to find and only live keys are emitted, whatever values `zipf` returns: this holds exactly when
    before each transaction as many keys are live as it deletes and draws. -/
theorem generate_sound_iff (cfg : WindowConfig) (fields : ℕ → ℕ → ℕ) (epochs : List (List (List ℕ)))
    (hfit : cfg.startingNumRecords + ((opTypes cfg epochs).map numInserts).sum < 2 ^ 32) :
    (∀ zs, (generate cfg fields epochs zs).drained = false →
      (generate cfg fields epochs zs).Sound (Set.Ico 0 cfg.startingNumRecords)) ↔
    RoomForDraws cfg.startingNumRecords 0 (opTypes cfg epochs) := by
  have hstart : cfg.startingNumRecords % 2 ^ 32 = cfg.startingNumRecords :=
    Nat.mod_eq_of_lt (Nat.lt_of_le_of_lt (Nat.le_add_right _ _) hfit)
  simp only [generate, hstart]
  constructor
  · rintro hsound
    by_contra hroom
    obtain ⟨zs, hdrained, e, he, hbad⟩ := @exists_unsound fields _ 0 _ _ hfit
      (Nat.zero_le _) hroom
    exact hbad ((hsound zs hdrained).entries e he)
  · exact fun hroom zs _ => generateFrom_sound _ hfit (Nat.zero_le _) hroom zs

/-- The delete-bearing mix of the evaluation. -/
def ycsbw (startingNumRecords : ℕ) : WindowConfig := ⟨60, 20, 0, 10, true, startingNumRecords⟩

/-- A transaction that deletes a key and reads nine. -/
def deleteThenReads : List ℕ := [80, 0, 0, 0, 0, 0, 0, 0, 0, 0]

theorem generate_sound_ten :
    (∀ zs, (generate (ycsbw 10) (fun _ _ => 0) [[deleteThenReads]] zs).drained = false →
      (generate (ycsbw 10) (fun _ _ => 0) [[deleteThenReads]] zs).Sound (Set.Ico 0 10)) ↔
    RoomForDraws 10 0 (opTypes (ycsbw 10) [[deleteThenReads]]) :=
  generate_sound_iff (ycsbw 10) (fun _ _ => 0) [[deleteThenReads]] (by decide)

/-- With one record the delete leaves an empty window to the reads, and no exception is raised. -/
theorem generate_one_record : ¬ ∀ cfg fields epochs zs,
    (generate cfg fields epochs zs).drained = false →
    (generate cfg fields epochs zs).Sound (Set.Ico 0 cfg.startingNumRecords) := by
  rintro hall
  have hsound := hall (ycsbw 1) (fun _ _ => 0) [[deleteThenReads]] [0] (by decide)
  have hentry : KeyLoop.mk (0 :: List.replicate 8 0xffffffff) 1 1 ∈
      (generate (ycsbw 1) (fun _ _ => 0) [[deleteThenReads]] [0]).entries := List.mem_cons_self ..
  exact (hsound.entries _ hentry).1 rfl

end Egad.Ycsb
