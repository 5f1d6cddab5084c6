import Egad.Lib.StableSort
import Egad.Lib.KeyedFold

/-! # What an epoch means: its events applied one by one

    The serial meaning of an epoch's inserts and deletes, with no sorting by key, no flags and no
    scans. A key is either absent or has a *life*: the record it entered the epoch with, or the one
    an insert of this epoch created. Events are applied in serial order (position, ties by entry):

        insert of an absent key   starts a life of its own
        insert of a live key      changes nothing (it is a write to the live record)
        delete of a live key      ends the life
        delete of an absent key   changes nothing

    Created lives are numbered in entry order from `cridBegin`, which is how the header of
    `epoch_timeline.cuh` defines minting. -/

namespace Egad.Timeline
open Egad.Lib

/-- `kAbsent`: the record id of a key without a live record. -/
def kAbsent : ℕ := 0xffffffff

/-- `kEvInsert` / `kEvDelete`. -/
inductive EvType where | insert | delete
  deriving DecidableEq, Repr

/-- One insert or delete of the epoch: its entry, key, type and serial position. -/
structure Event where
  entry : ℕ
  key : ℕ
  type : EvType
  pos : ℕ
  deriving DecidableEq, Repr

/-- A life of a key: the epoch-start record, or the one created by the insert at an entry. -/
inductive Life where
  | initial (crid : ℕ)
  | minted (entry : ℕ)
  deriving DecidableEq, Repr

/-- One event applied to its own key. -/
def lifeStep (v : Event) (s : Option Life) : Option Life :=
  match v.type with
  | .insert => some (s.getD (.minted v.entry))
  | .delete => none

/-- One event applied to the lives of all keys. -/
def step (m : ℕ → Option Life) (v : Event) : ℕ → Option Life := keyedStep Event.key lifeStep m v

/-- The lives at the start of the epoch. -/
def startLife (lookup : ℕ → ℕ) (k : ℕ) : Option Life :=
  if lookup k = kAbsent then none else some (.initial (lookup k))

/-- Serial order of two events: by position, ties by entry. -/
def Event.lt (a b : Event) : Prop := a.pos < b.pos ∨ a.pos = b.pos ∧ a.entry < b.entry

/-- An event is ordered before the operation at `(pos, self)`. -/
def Event.before (pos self : ℕ) (v : Event) : Bool := v.pos < pos ∨ v.pos = pos ∧ v.entry < self

/-- The events in serial order; the input is in entry order, so ties fall by entry. -/
def serialOrder (evs : List Event) : List Event := stableSort Event.pos evs

/-- The lives seen by the operation at `(pos, self)`: every event ordered before it applied, one by
    one, in serial order. -/
def livesAt (lookup : ℕ → ℕ) (evs : List Event) (pos self : ℕ) : ℕ → Option Life :=
  ((serialOrder evs).filter (Event.before pos self)).foldl step (startLife lookup)

/-- The lives at the end of the epoch. -/
def finalLives (lookup : ℕ → ℕ) (evs : List Event) : ℕ → Option Life :=
  (serialOrder evs).foldl step (startLife lookup)

/-- What the event finds live under its key. -/
def found (lookup : ℕ → ℕ) (evs : List Event) (v : Event) : Option Life :=
  livesAt lookup evs v.pos v.entry v.key

/-- An insert that finds no live record. -/
def createsLife (lookup : ℕ → ℕ) (evs : List Event) (v : Event) : Bool :=
  v.type = .insert ∧ found lookup evs v = none

/-- An effective delete: one that finds a live record. -/
def endsLife (lookup : ℕ → ℕ) (evs : List Event) (v : Event) : Bool :=
  v.type = .delete ∧ found lookup evs v ≠ none

/-- The life-creating inserts in entry order. -/
def created (lookup : ℕ → ℕ) (evs : List Event) : List Event := evs.filter (createsLife lookup evs)

/-- The effective deletes in entry order. -/
def ended (lookup : ℕ → ℕ) (evs : List Event) : List Event := evs.filter (endsLife lookup evs)

/-- The CRID of a life: the `j`-th created life has `cridBegin + j`. -/
def cridOf (cridBegin : ℕ) (createdEntries : List ℕ) : Option Life → ℕ
  | none => kAbsent
  | some (.initial c) => c
  | some (.minted e) => cridBegin + createdEntries.idxOf e

/-- The CRID of a life in the epoch `evs` started from `lookup`. -/
def serialCrid (lookup : ℕ → ℕ) (evs : List Event) (cridBegin : ℕ) (s : Option Life) : ℕ :=
  cridOf cridBegin ((created lookup evs).map Event.entry) s

/-! ### One key's timeline -/

/-- The events of key `k` in serial order. -/
def timelineOf (evs : List Event) (k : ℕ) : List Event :=
  (serialOrder evs).filter (fun v => v.key = k)

theorem mem_timelineOf {evs : List Event} {k : ℕ} {v : Event} :
    v ∈ timelineOf evs k ↔ v ∈ evs ∧ v.key = k := by
  simp [timelineOf, serialOrder]

/-- Only the key's own events decide its life. -/
theorem livesAt_eq (lookup : ℕ → ℕ) (evs : List Event) (pos self k : ℕ) :
    livesAt lookup evs pos self k =
      ((timelineOf evs k).filter (Event.before pos self)).foldl (fun s v => lifeStep v s)
        (startLife lookup k) := by
  rw [livesAt]
  change (List.foldl (keyedStep Event.key lifeStep) _ _) k = _
  rw [foldl_keyedStep, timelineOf, List.filter_filter, List.filter_filter]
  simp only [Bool.and_comm]

theorem finalLives_eq (lookup : ℕ → ℕ) (evs : List Event) (k : ℕ) :
    finalLives lookup evs k =
      (timelineOf evs k).foldl (fun s v => lifeStep v s) (startLife lookup k) := by
  rw [finalLives]
  change (List.foldl (keyedStep Event.key lifeStep) _ _) k = _
  rw [foldl_keyedStep, timelineOf]

/-- In entry order, the entry identifies the event. -/
theorem entry_injective {evs : List Event} (h : evs.Pairwise (fun a b => a.entry < b.entry))
    {v w : Event} (hv : v ∈ evs) (hw : w ∈ evs) (he : v.entry = w.entry) : v = w := by
  have hlt := List.pairwise_iff_getElem.mp h
  obtain ⟨i, hi, rfl⟩ := List.mem_iff_getElem.mp hv
  obtain ⟨j, hj, rfl⟩ := List.mem_iff_getElem.mp hw
  rcases Nat.lt_trichotomy i j with hij | rfl | hij
  · exact absurd (hlt i j hi hj hij) (by omega)
  · rfl
  · exact absurd (hlt j i hj hi hij) (by omega)

/-- Events given in entry order come out strictly ordered. -/
theorem serialOrder_lt {evs : List Event} (h : evs.Pairwise (fun a b => a.entry < b.entry)) :
    (serialOrder evs).Pairwise Event.lt := stableSort_lex Event.pos _ h

theorem timelineOf_lt {evs : List Event} (h : evs.Pairwise (fun a b => a.entry < b.entry)) (k : ℕ) :
    (timelineOf evs k).Pairwise Event.lt := (serialOrder_lt h).sublist List.filter_sublist

/-- In an ordered timeline, what stands before an event is what is ordered before it. -/
theorem filter_before_split {pre post : List Event} {v : Event}
    (h : (pre ++ v :: post).Pairwise Event.lt) :
    (pre ++ v :: post).filter (Event.before v.pos v.entry) = pre := by
  obtain ⟨-, hpost, hcross⟩ := List.pairwise_append.mp h
  have hpre : pre.filter (Event.before v.pos v.entry) = pre := by
    rw [List.filter_eq_self]
    intro a ha
    have := hcross a ha v (by simp)
    simpa [Event.before, Event.lt] using this
  have hrest : (v :: post).filter (Event.before v.pos v.entry) = [] := by
    rw [List.filter_eq_nil_iff]
    intro a ha
    rcases List.mem_cons.mp ha with rfl | ha
    · simp [Event.before]
    · have := (List.pairwise_cons.mp hpost).1 a ha
      simp only [Event.lt, Event.before, decide_eq_true_eq] at this ⊢
      omega
  rw [List.filter_append, hpre, hrest, List.append_nil]

/-- What an event finds is the fold of what stands before it in its key's timeline. -/
theorem found_eq_of_split (lookup : ℕ → ℕ) {evs pre post : List Event} {v : Event}
    (hev : evs.Pairwise (fun a b => a.entry < b.entry))
    (hsplit : timelineOf evs v.key = pre ++ v :: post) :
    found lookup evs v = pre.foldl (fun s v => lifeStep v s) (startLife lookup v.key) := by
  have hlt := timelineOf_lt hev v.key
  rw [hsplit] at hlt
  rw [found, livesAt_eq, hsplit, filter_before_split hlt]

end Egad.Timeline
