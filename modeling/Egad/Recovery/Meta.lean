import Mathlib.Logic.Function.Basic
import Mathlib.Data.Nat.Bitwise
import Mathlib.Data.List.Induction
import Mathlib.Tactic.Common

/-! # The recovery marker (`benchmarks/recovery_meta.h`)

    Two cursor banks and one publish word, in a durable file:

        publish   | tag : 16 | generation : 16 | crash epoch : 32 |
        banks     [0]  [1]                        generation parity selects the live one

    A writer fills the bank that is not live with plain stores and then replaces the publish word by
    one store. The machine below takes a step for every one of these stores, and a process may die
    between any two of them. The abstract marker knows only whole snapshots: what is published, and
    what the running process has prepared. Reading the file always gives the published snapshot. -/

namespace Egad.Recovery

/-! ### The code -/

def kRecoveryMetaTag : ℕ := 0xE6AD

/-- `BankedRecoveryMeta`, the cursors of a bank named by `F`. -/
structure RecoveryMeta (F : Type) where
  banks : ℕ → F → ℕ
  publish : ℕ

variable {F : Type}

/-- The tag test of `read` and `prepare`. -/
def validWord (w : ℕ) : Bool := (w >>> 48) % 2 ^ 16 = kRecoveryMetaTag

/-- `read`: the crash epoch and the live bank, or nothing. -/
def RecoveryMeta.read (m : RecoveryMeta F) : Option (ℕ × (F → ℕ)) :=
  if validWord m.publish then
    some (m.publish % 2 ^ 32, m.banks ((m.publish >>> 32) &&& 1))
  else none

/-- The generation that `prepare` chooses. -/
def nextGen (w : ℕ) : ℕ := if validWord w then ((w >>> 32) % 2 ^ 16 + 1) % 2 ^ 16 else 1

/-- The word that `prepare` returns. -/
def publishWord (gen crashEpoch : ℕ) : ℕ := kRecoveryMetaTag <<< 48 ||| gen <<< 32 ||| crashEpoch

/-- The bank handed to `fill` as the old one. -/
def RecoveryMeta.oldBank (m : RecoveryMeta F) : Option (F → ℕ) :=
  if validWord m.publish then some (m.banks ((nextGen m.publish &&& 1) ^^^ 1)) else none

variable [DecidableEq F]

/-- Plain stores into a bank, in order. -/
def applyStores (bank : F → ℕ) (stores : List (F × ℕ)) : F → ℕ :=
  stores.foldl (fun b x => Function.update b x.1 x.2) bank

/-- A `fill` callback: its stores, as a function of the old bank. It writes every cursor. -/
structure Fill (F : Type) where
  stores : Option (F → ℕ) → List (F × ℕ)
  covers : ∀ old f, f ∈ (stores old).map Prod.fst

/-- The bank that a completed `fill` leaves. -/
def Fill.bank (fill : Fill F) (old : Option (F → ℕ)) : F → ℕ :=
  applyStores (fun _ => 0) (fill.stores old)

/-- The writing process between two stores. -/
inductive Phase (F : Type) where
  | idle
  /-- Inside `prepare`, or after it when no store is left, with the word to publish. -/
  | writing (bank : ℕ) (todo : List (F × ℕ)) (word : ℕ)

structure State (F : Type) where
  file : RecoveryMeta F
  phase : Phase F

inductive Action (F : Type) where
  /-- Enter `prepare(crash_epoch, fill)`. -/
  | prepare (crashEpoch : UInt32) (fill : Fill F)
  /-- One store of the bank fill. -/
  | store
  /-- `publishPrepared` with the word the last `prepare` returned. -/
  | publish
  /-- The process dies; a new one opens the file. -/
  | restart

/-- One store, or one entry into a function. A process leaves `prepare` only through its last
    store. -/
def step (s : State F) : Action F → Option (State F)
  | .prepare e fill =>
    match s.phase with
    | .writing _ (_ :: _) _ => none
    | _ =>
      let gen := nextGen s.file.publish
      some { s with
        phase := .writing (gen &&& 1) (fill.stores s.file.oldBank) (publishWord gen e.toNat) }
  | .store =>
    match s.phase with
    | .writing bank ((f, v) :: todo) word =>
      some {
        file := { s.file with
          banks := Function.update s.file.banks bank (Function.update (s.file.banks bank) f v) }
        phase := .writing bank todo word }
    | _ => none
  | .publish =>
    match s.phase with
    | .writing _ [] word => some { s with file := { s.file with publish := word } }
    | _ => none
  | .restart => some { s with phase := .idle }

/-- A run of the file under one process after the other. -/
def run (s : State F) (as : List (Action F)) : Option (State F) := as.foldlM step s

/-- The zeroed file. -/
def State.init : State F := ⟨⟨fun _ _ => 0, 0⟩, .idle⟩

/-! ### The abstract marker -/

/-- Whole snapshots: a crash epoch with its cursors. -/
structure Marker (F : Type) where
  published : Option (ℕ × (F → ℕ))
  prepared : Option (ℕ × (F → ℕ))

def Marker.step (m : Marker F) : Action F → Marker F
  | .prepare e fill => { m with prepared := some (e.toNat, fill.bank (m.published.map Prod.snd)) }
  | .store => m
  | .publish => { m with published := m.prepared }
  | .restart => { m with prepared := none }

def Marker.run (as : List (Action F)) : Marker F := as.foldl Marker.step ⟨none, none⟩

/-! ### The publish word -/

theorem publishWord_eq {gen e : ℕ} (hg : gen < 2 ^ 16) (he : e < 2 ^ 32) :
    publishWord gen e = kRecoveryMetaTag * 2 ^ 48 + gen * 2 ^ 32 + e := by
  have h₁ : gen <<< 32 ||| e = gen <<< 32 + e := (Nat.shiftLeft_add_eq_or_of_lt he gen).symm
  have hlt : gen <<< 32 + e < 2 ^ 48 := by
    clear h₁
    rw [Nat.shiftLeft_eq]
    omega
  rw [publishWord, Nat.or_assoc, h₁, ← Nat.shiftLeft_add_eq_or_of_lt hlt, Nat.shiftLeft_eq,
    Nat.shiftLeft_eq, Nat.add_assoc]

theorem validWord_publishWord {gen e : ℕ} (hg : gen < 2 ^ 16) (he : e < 2 ^ 32) :
    validWord (publishWord gen e) = true := by
  rw [validWord, publishWord_eq hg he, Nat.shiftRight_eq_div_pow, decide_eq_true_eq,
    kRecoveryMetaTag]
  omega

theorem epoch_publishWord {gen e : ℕ} (hg : gen < 2 ^ 16) (he : e < 2 ^ 32) :
    publishWord gen e % 2 ^ 32 = e := by
  rw [publishWord_eq hg he, kRecoveryMetaTag]
  omega

theorem parity_publishWord {gen e : ℕ} (hg : gen < 2 ^ 16) (he : e < 2 ^ 32) :
    (publishWord gen e >>> 32) &&& 1 = gen % 2 := by
  rw [Nat.and_one_is_mod, publishWord_eq hg he, Nat.shiftRight_eq_div_pow, kRecoveryMetaTag]
  omega

theorem nextGen_publishWord {gen e : ℕ} (hg : gen < 2 ^ 16) (he : e < 2 ^ 32) :
    nextGen (publishWord gen e) = (gen + 1) % 2 ^ 16 := by
  rw [nextGen, if_pos (validWord_publishWord hg he), publishWord_eq hg he,
    Nat.shiftRight_eq_div_pow, kRecoveryMetaTag]
  omega

theorem nextGen_lt (w : ℕ) : nextGen w < 2 ^ 16 := by
  rw [nextGen]
  split
  · exact Nat.mod_lt _ (by decide)
  · decide

/-! ### Bank fills -/

theorem applyStores_congr {stores : List (F × ℕ)} {f : F} (h : f ∈ stores.map Prod.fst)
    (a b : F → ℕ) : applyStores a stores f = applyStores b stores f := by
  induction stores using List.reverseRecOn with
  | nil => simp at h
  | append_singleton l x ih =>
    rw [applyStores, applyStores, List.foldl_append, List.foldl_append]
    simp only [List.foldl_cons, List.foldl_nil]
    by_cases hf : f = x.1
    · rw [hf, Function.update_self, Function.update_self]
    · rw [Function.update_of_ne hf, Function.update_of_ne hf]
      rw [List.map_append, List.mem_append, List.map_singleton, List.mem_singleton] at h
      exact ih (h.resolve_right hf)

/-- A complete fill does not depend on what an interrupted one left in the bank. -/
theorem applyStores_fill (fill : Fill F) (old : Option (F → ℕ)) (bank : F → ℕ) :
    applyStores bank (fill.stores old) = fill.bank old :=
  funext fun f => applyStores_congr (fill.covers old f) bank _

/-! ### The file refines the marker -/

/-- The published snapshot lies in the live bank under its generation. -/
def Published (file : RecoveryMeta F) : Option (ℕ × (F → ℕ)) → Prop
  | none => file.publish = 0
  | some (e, bank) => e < 2 ^ 32 ∧ ∃ gen < 2 ^ 16, file.publish = publishWord gen e ∧
      file.banks (gen % 2) = bank

/-- The bank being written will hold the prepared snapshot, and it is not the live one unless its
    word is already published. -/
def Prepared (file : RecoveryMeta F) (published : Option (ℕ × (F → ℕ))) :
    Phase F → Option (ℕ × (F → ℕ)) → Prop
  | .idle, p => p = none
  | .writing _ _ _, none => False
  | .writing bank todo word, some (e, new) => e < 2 ^ 32 ∧ ∃ gen < 2 ^ 16,
      word = publishWord gen e ∧ bank = gen % 2 ∧ applyStores (file.banks bank) todo = new ∧
      (todo = [] ∧ published = some (e, new) ∨
        (validWord file.publish = true → (file.publish >>> 32) &&& 1 ≠ bank))

structure Inv (s : State F) (m : Marker F) : Prop where
  published : Published s.file m.published
  prepared : Prepared s.file m.published s.phase m.prepared

omit [DecidableEq F] in
/-- Reading the file gives the published snapshot. -/
theorem Published.read {file : RecoveryMeta F} {p : Option (ℕ × (F → ℕ))} (h : Published file p) :
    file.read = p := by
  rw [RecoveryMeta.read]
  rcases p with - | ⟨e, bank⟩
  · have hw : file.publish = 0 := h
    rw [hw, if_neg (by decide)]
  · obtain ⟨he, gen, hg, hw, hbank⟩ := h
    rw [hw, if_pos (validWord_publishWord hg he), epoch_publishWord hg he,
      parity_publishWord hg he, hbank]

omit [DecidableEq F] in
/-- `fill` sees the published cursors. -/
theorem Published.oldBank {file : RecoveryMeta F} {p : Option (ℕ × (F → ℕ))}
    (h : Published file p) : file.oldBank = p.map Prod.snd := by
  rw [RecoveryMeta.oldBank]
  rcases p with - | ⟨e, bank⟩
  · have hw : file.publish = 0 := h
    rw [hw, if_neg (by decide), Option.map_none]
  · obtain ⟨he, gen, hg, hw, hbank⟩ := h
    have hpar : ((gen + 1) % 2 ^ 16 &&& 1) ^^^ 1 = gen % 2 := by
      rw [Nat.and_one_is_mod]
      rcases Nat.mod_two_eq_zero_or_one gen with h2 | h2
      · rw [show (gen + 1) % 2 ^ 16 % 2 = 1 by omega, h2]; decide
      · rw [show (gen + 1) % 2 ^ 16 % 2 = 0 by omega, h2]; decide
    rw [hw, if_pos (validWord_publishWord hg he), nextGen_publishWord hg he, hpar, hbank,
      Option.map_some]

omit [DecidableEq F] in
/-- The bank that `prepare` chooses is not the live one, at the wrap of the generation too. -/
theorem Published.inactive {file : RecoveryMeta F} {p : Option (ℕ × (F → ℕ))}
    (h : Published file p) (hv : validWord file.publish = true) :
    (file.publish >>> 32) &&& 1 ≠ nextGen file.publish % 2 := by
  rcases p with - | ⟨e, bank⟩
  · have hw : file.publish = 0 := h
    rw [hw] at hv
    exact absurd hv (by decide)
  · obtain ⟨he, gen, hg, hw, -⟩ := h
    rw [hw, parity_publishWord hg he, nextGen_publishWord hg he]
    omega

theorem inv_init : Inv (State.init : State F) ⟨none, none⟩ := ⟨rfl, rfl⟩

theorem inv_prepare {s s' : State F} {m : Marker F} {e : UInt32} {fill : Fill F} (hi : Inv s m)
    (h : step s (.prepare e fill) = some s') : Inv s' (m.step (.prepare e fill)) := by
  obtain ⟨file, phase⟩ := s
  have hs' : s' = ⟨file, .writing (nextGen file.publish &&& 1) (fill.stores file.oldBank)
      (publishWord (nextGen file.publish) e.toNat)⟩ := by
    simp only [step] at h
    split at h
    · exact absurd h (by simp)
    · exact (Option.some.inj h).symm
  subst hs'
  refine ⟨hi.published, ?_⟩
  refine ⟨e.toNat_lt, nextGen file.publish, nextGen_lt _, rfl, Nat.and_one_is_mod _, ?_, Or.inr ?_⟩
  · have hold : file.oldBank = m.published.map Prod.snd := hi.published.oldBank
    rw [hold, applyStores_fill]
  · rw [Nat.and_one_is_mod (nextGen file.publish)]
    exact hi.published.inactive

theorem inv_store {s s' : State F} {m : Marker F} (hi : Inv s m)
    (h : step s .store = some s') : Inv s' (m.step .store) := by
  obtain ⟨file, phase⟩ := s
  rcases phase with - | ⟨bank, - | ⟨⟨f, v⟩, todo⟩, word⟩
  · exact absurd h (by simp [step])
  · exact absurd h (by simp [step])
  · obtain rfl := Option.some.inj h
    obtain ⟨hpub, hprep⟩ := hi
    rcases hm : m.prepared with - | ⟨e, new⟩
    · rw [hm] at hprep
      exact hprep.elim
    · rw [hm] at hprep
      obtain ⟨he, gen, hg, hword, hbank, hnew, hlive⟩ := hprep
      have hlive' := hlive.resolve_left fun h => by simp at h
      refine ⟨?_, ?_⟩
      · -- the store goes to the bank that is not live
        show Published _ m.published
        rcases hp : m.published with - | ⟨e', old⟩
        · rw [hp] at hpub
          exact hpub
        · rw [hp] at hpub
          obtain ⟨he', gen', hg', hw', hold⟩ := hpub
          have hne : gen' % 2 ≠ bank := by
            have hv := validWord_publishWord hg' he'
            rw [← parity_publishWord hg' he', ← hw']
            exact hlive' (hw' ▸ hv)
          exact ⟨he', gen', hg', hw', (Function.update_of_ne hne _ _).trans hold⟩
      · show Prepared _ m.published _ m.prepared
        rw [hm]
        refine ⟨he, gen, hg, hword, hbank, ?_, Or.inr hlive'⟩
        rw [← hnew]
        simp only [applyStores, List.foldl_cons, Function.update_self]

theorem inv_publish {s s' : State F} {m : Marker F} (hi : Inv s m)
    (h : step s .publish = some s') : Inv s' (m.step .publish) ∧ m.prepared ≠ none := by
  obtain ⟨file, phase⟩ := s
  rcases phase with - | ⟨bank, - | ⟨x, todo⟩, word⟩
  · exact absurd h (by simp [step])
  · obtain rfl := Option.some.inj h
    obtain ⟨hpub, hprep⟩ := hi
    rcases hm : m.prepared with - | ⟨e, new⟩
    · rw [hm] at hprep
      exact hprep.elim
    · rw [hm] at hprep
      obtain ⟨he, gen, hg, hword, hbank, hnew, -⟩ := hprep
      refine ⟨⟨?_, ?_⟩, by simp⟩
      · show Published _ m.prepared
        rw [hm]
        refine ⟨he, gen, hg, hword, ?_⟩
        rw [← hbank]
        exact hnew
      · show Prepared _ m.prepared _ m.prepared
        rw [hm]
        exact ⟨he, gen, hg, hword, hbank, hnew, Or.inl ⟨rfl, rfl⟩⟩
  · exact absurd h (by simp [step])

theorem inv_step {s s' : State F} {m : Marker F} {a : Action F} (hi : Inv s m)
    (h : step s a = some s') : Inv s' (m.step a) := by
  cases a with
  | prepare e fill => exact inv_prepare hi h
  | store => exact inv_store hi h
  | publish => exact (inv_publish hi h).1
  | restart =>
    obtain rfl := Option.some.inj h
    exact ⟨hi.published, rfl⟩

theorem run_concat {s s' : State F} {as : List (Action F)} {a : Action F}
    (h : run s (as ++ [a]) = some s') : ∃ t, run s as = some t ∧ step t a = some s' := by
  rw [run, List.foldlM_append] at h
  obtain ⟨t, ht, hstep⟩ := Option.bind_eq_some_iff.mp h
  exact ⟨t, ht, by simpa using hstep⟩

theorem Marker.run_concat (as : List (Action F)) (a : Action F) :
    Marker.run (as ++ [a]) = (Marker.run as).step a := by
  rw [Marker.run, List.foldl_append]
  rfl

theorem inv_run {s : State F} {as : List (Action F)} (h : run State.init as = some s) :
    Inv s (Marker.run as) := by
  induction as using List.reverseRecOn generalizing s with
  | nil =>
    obtain rfl := Option.some.inj h
    exact inv_init
  | append_singleton as a ih =>
    obtain ⟨t, ht, hstep⟩ := run_concat h
    rw [Marker.run_concat]
    exact inv_step (ih ht) hstep

/-- Nothing is published exactly when no publish store was made. -/
theorem published_eq_none {s : State F} {as : List (Action F)} (h : run State.init as = some s) :
    (Marker.run as).published = none ↔ Action.publish ∉ as := by
  induction as using List.reverseRecOn generalizing s with
  | nil => simp [Marker.run]
  | append_singleton as a ih =>
    obtain ⟨t, ht, hstep⟩ := run_concat h
    rw [Marker.run_concat, List.mem_append, not_or, List.mem_singleton]
    cases a with
    | publish =>
      have hne := (inv_publish (inv_run ht) hstep).2
      simp [Marker.step, hne]
    | prepare e fill => simp [Marker.step, ih ht]
    | store => simp [Marker.step, ih ht]
    | restart => simp [Marker.step, ih ht]

/-- After every sequence of prepares and publishes, cut and resumed anywhere, the file reads as the
    last published snapshot, and as nothing exactly when nothing was published. -/
theorem read_eq_published {s : State F} {as : List (Action F)} (h : run State.init as = some s) :
    s.file.read = (Marker.run as).published ∧ (s.file.read = none ↔ Action.publish ∉ as) := by
  have hread : s.file.read = (Marker.run as).published := (inv_run h).published.read
  exact ⟨hread, hread ▸ published_eq_none h⟩

/-! ### The cursors of the two benchmarks -/

/-- `YcsbRecoveryCursors`. -/
inductive YcsbCursor where
  | freeStartP1
  | freeStartP2
  | delP1
  | delP2
deriving DecidableEq, Repr

/-- The callback of the YCSB `bumpRecoveryMarker`. -/
def ycsbFill (insertCount deleteCount : ℕ) : Fill YcsbCursor where
  stores ob := [
    (.freeStartP2, (ob.map fun b => b .freeStartP1).getD 0),
    (.freeStartP1, insertCount),
    (.delP2, (ob.map fun b => b .delP1).getD 0),
    (.delP1, deleteCount)]
  covers ob f := by cases f <;> simp

/-- `TpccRecoveryCursors`. -/
inductive TpccCursor where
  | noP1
  | noP2
  | oP1
  | oP2
  | olP1
  | olP2
  | noDP1
  | noDP2
deriving DecidableEq, Repr

/-- The callback of the TPC-C `bumpRecoveryMarker`. -/
def tpccFill (newOrder order orderLine noDel : ℕ) : Fill TpccCursor where
  stores ob := [
    (.noP2, (ob.map fun b => b .noP1).getD 0), (.noP1, newOrder),
    (.oP2, (ob.map fun b => b .oP1).getD 0), (.oP1, order),
    (.olP2, (ob.map fun b => b .olP1).getD 0), (.olP1, orderLine),
    (.noDP2, (ob.map fun b => b .noDP1).getD 0), (.noDP1, noDel)]
  covers ob f := by cases f <;> simp

/-- A first marker, then a second one torn inside its bank fill, then a restart and a third. -/
theorem read_eq_published_torn :
    let bump (e : UInt32) (n d : ℕ) : List (Action YcsbCursor) :=
      [.prepare e (ycsbFill n d), .store, .store, .store, .store, .publish]
    let as := bump 2 5 1 ++ [.prepare 3 (ycsbFill 8 1), .store, .store, .restart] ++ bump 3 7 2
    ∃ s : State YcsbCursor, run State.init as = some s ∧
      (s.file.read = (Marker.run as).published ∧ (s.file.read = none ↔ Action.publish ∉ as)) ∧
      (s.file.read.map fun r => (r.1, r.2 .freeStartP1, r.2 .freeStartP2, r.2 .delP2)) =
        some (3, 7, 5, 1) :=
  ⟨_, rfl, read_eq_published rfl, rfl⟩

end Egad.Recovery
