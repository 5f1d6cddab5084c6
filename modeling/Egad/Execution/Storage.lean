import Egad.Planner.Locations

/-! # Record accesses during an epoch (`gpu_storage.cuh`)

    A record has two slots, each a value with a version tag; a table has scratch versions besides,
    each a value with a tag of its own.

        record   | version1 : value1 | version2 : value2 |      A = the slot with the later tag
        scratch  | version : value |                            B = the other slot

    An access is a sequence of single loads and stores. A reader of the record loads the two tags one
    after the other and then chooses a slot; a reader of B or of a scratch version waits for the tag
    to become the epoch. A writer stores the value first and the tag last. The machine takes one step
    of one operation at a time, in any order. -/

namespace Egad.Execution
open Egad.Planner

/-- The record id that both access functions skip. -/
def kNoRecord : ℕ := 2 ^ 32 - 1

/-- A place for a value and its tag. -/
inductive Cell where
  | slot1 (record : ℕ)
  | slot2 (record : ℕ)
  | version (loc : ℕ)
deriving DecidableEq, Repr

/-- The record and version arrays of a table. -/
structure Memory (V : Type) where
  tag : Cell → ℕ
  value : Cell → V

/-- Where an operation stands. -/
inductive Phase (V : Type) where
  | idle
  /-- Between the two loads of `gpuLoadVersions`. -/
  | loaded (version1 : ℕ)
  /-- Spinning on the tag of the cell. -/
  | waiting (c : Cell)
  /-- `value_to_read` is chosen. -/
  | reading (c : Cell)
  /-- `value_to_write` is chosen. -/
  | writing (c : Cell)
  /-- The value is stored, its tag is not. -/
  | tagging (c : Cell) (v : V)
  /-- Returned, with the value read or written; with nothing for `kNoRecord`. -/
  | done (v : Option V)
deriving DecidableEq, Repr

variable {V : Type}

/-- The slot choice of `gpuReadFromTableCoop` for record A. -/
def readRecordA (epoch r version1 version2 : ℕ) : Cell :=
  if version1 = epoch then .slot2 r
  else if version2 = epoch then .slot1 r
  else if version1 < version2 then .slot2 r
  else .slot1 r

/-- The slot choice of `gpuReadFromTableCoop` for record B. -/
def readRecordB (epoch r version1 version2 : ℕ) : Phase V :=
  if version1 = epoch then .reading (.slot1 r)
  else if version2 = epoch then .reading (.slot2 r)
  else if version1 < version2 then .waiting (.slot1 r)
  else .waiting (.slot2 r)

/-- The slot choice of `gpuWriteToTableCoop`. -/
def writeRecordB (r version1 version2 : ℕ) : Cell :=
  if version1 < version2 then .slot1 r else .slot2 r

/-- One step of `gpuReadFromTableCoop` with location `loc`. -/
def gpuReadFromTableCoop (m : Memory V) (r loc epoch : ℕ) : Phase V → Option (Phase V)
  | .idle =>
    if r = kNoRecord then some (.done none)
    else if loc = locRecordA ∨ loc = locRecordB then some (.loaded (m.tag (.slot1 r)))
    else some (.waiting (.version loc))
  | .loaded v1 =>
    if loc = locRecordA then some (.reading (readRecordA epoch r v1 (m.tag (.slot2 r))))
    else some (readRecordB epoch r v1 (m.tag (.slot2 r)))
  | .waiting c => if m.tag c = epoch then some (.reading c) else none
  | .reading c => some (.done (some (m.value c)))
  | _ => none

/-- One step of `gpuWriteToTableCoop` with location `loc`, writing `data`. -/
def gpuWriteToTableCoop (m : Memory V) (r loc epoch : ℕ) (data : V) :
    Phase V → Option (Memory V × Phase V)
  | .idle =>
    if r = kNoRecord then some (m, .done none)
    else if loc = locRecordB then some (m, .loaded (m.tag (.slot1 r)))
    else some (m, .writing (.version loc))
  | .loaded v1 => some (m, .writing (writeRecordB r v1 (m.tag (.slot2 r))))
  | .writing c => some ({ m with value := Function.update m.value c data }, .tagging c data)
  | .tagging c v => some ({ m with tag := Function.update m.tag c epoch }, .done (some v))
  | _ => none

/-- A table and the operations of a batch on it. -/
structure State (V : Type) where
  mem : Memory V
  phase : ℕ → Phase V

/-- The batch, the location of every operation and the epoch. -/
structure Epoch where
  ops : List Op
  loc : Op → ℕ
  epoch : ℕ

/-- One load or store of operation `i`; a write stores `data`. -/
def step (E : Epoch) (s : State V) (i : ℕ) (data : V) : Option (State V) :=
  match E.ops[i]? with
  | none => none
  | some o =>
    if o.isWrite then
      (gpuWriteToTableCoop s.mem o.record (E.loc o) E.epoch data (s.phase i)).map fun x =>
        ⟨x.1, Function.update s.phase i x.2⟩
    else
      (gpuReadFromTableCoop s.mem o.record (E.loc o) E.epoch (s.phase i)).map fun p =>
        ⟨s.mem, Function.update s.phase i p⟩

/-- An interleaving of the operations' steps. -/
def run (E : Epoch) (s : State V) (evs : List (ℕ × V)) : Option (State V) :=
  evs.foldlM (fun s x => step E s x.1 x.2) s

/-- The state in which an epoch starts. -/
def State.start (m : Memory V) : State V := ⟨m, fun _ => .idle⟩

/-- The value read as latest. -/
def Memory.latest (m : Memory V) (r : ℕ) : V :=
  if m.tag (.slot1 r) < m.tag (.slot2 r) then m.value (.slot2 r) else m.value (.slot1 r)

/-! ### The cells of an epoch -/

/-- The slot with the value the epoch starts with. -/
def slotA (m : Memory V) (r : ℕ) : Cell :=
  if m.tag (.slot1 r) < m.tag (.slot2 r) then .slot2 r else .slot1 r

/-- The other slot. -/
def slotB (m : Memory V) (r : ℕ) : Cell :=
  if m.tag (.slot1 r) < m.tag (.slot2 r) then .slot1 r else .slot2 r

theorem latest_eq (m : Memory V) (r : ℕ) : m.latest r = m.value (slotA m r) := by
  rw [Memory.latest, slotA]
  split <;> rfl

theorem slotA_ne_slotB (m : Memory V) (r r' : ℕ) : slotA m r ≠ slotB m r' := by
  rw [slotA, slotB]
  rcases eq_or_ne r r' with rfl | hr
  · split <;> simp
  · split <;> split <;> simp [hr]

theorem slotB_inj {m : Memory V} {r r' : ℕ} (h : slotB m r = slotB m r') : r = r' := by
  rw [slotB, slotB] at h
  split at h <;> split at h <;> simp at h <;> exact h

theorem slotB_ne_version (m : Memory V) (r n : ℕ) : slotB m r ≠ .version n := by
  rw [slotB]
  split <;> simp

theorem slotA_ne_version (m : Memory V) (r n : ℕ) : slotA m r ≠ .version n := by
  rw [slotA]
  split <;> simp

/-- Where a location other than record A is. -/
def target (m : Memory V) (r loc : ℕ) : Cell := if loc = locRecordB then slotB m r else .version loc

theorem slotA_ne_target (m : Memory V) (r r' loc : ℕ) : slotA m r ≠ target m r' loc := by
  rw [target]
  split
  · exact slotA_ne_slotB m r r'
  · exact slotA_ne_version m r loc

/-! ### Choosing a slot under a concurrent write

    The two tags are loaded one after the other. Only the tag of slot B can change, and only from
    its old value to the epoch, so what was loaded from slot A is exact and the choice comes out
    right whatever was loaded from slot B. -/

section
variable {m₀ : Memory V} {r epoch v1 v2 : ℕ}

/-- What a load of a slot's tag may give: the tag at the start of the epoch, or, on slot B, the
    epoch. -/
def Loads (m₀ : Memory V) (r epoch : ℕ) (c : Cell) (v : ℕ) : Prop :=
  v = m₀.tag c ∨ v = epoch ∧ slotB m₀ r = c

theorem readRecordA_eq (h₁ : m₀.tag (.slot1 r) < epoch) (h₂ : m₀.tag (.slot2 r) < epoch)
    (hl₁ : Loads m₀ r epoch (.slot1 r) v1) (hl₂ : Loads m₀ r epoch (.slot2 r) v2) :
    readRecordA epoch r v1 v2 = slotA m₀ r := by
  rw [readRecordA]
  by_cases hlt : m₀.tag (.slot1 r) < m₀.tag (.slot2 r)
  · rw [slotA, if_pos hlt]
    have hB : slotB m₀ r = .slot1 r := if_pos hlt
    have hv2 : v2 = m₀.tag (.slot2 r) := hl₂.resolve_right fun h => by simp [hB] at h
    rcases hl₁ with hv1 | ⟨hv1, -⟩
    · rw [if_neg (by omega), if_neg (by omega), if_pos (by omega)]
    · rw [if_pos hv1]
  · rw [slotA, if_neg hlt]
    have hB : slotB m₀ r = .slot2 r := if_neg hlt
    have hv1 : v1 = m₀.tag (.slot1 r) := hl₁.resolve_right fun h => by simp [hB] at h
    rcases hl₂ with hv2 | ⟨hv2, -⟩
    · rw [if_neg (by omega), if_neg (by omega), if_neg (by omega)]
    · rw [if_neg (by omega), if_pos hv2]

theorem readRecordB_eq (h₁ : m₀.tag (.slot1 r) < epoch) (h₂ : m₀.tag (.slot2 r) < epoch)
    (hl₁ : Loads m₀ r epoch (.slot1 r) v1) (hl₂ : Loads m₀ r epoch (.slot2 r) v2) :
    (readRecordB epoch r v1 v2 : Phase V) = .waiting (slotB m₀ r) ∨
      (readRecordB epoch r v1 v2 : Phase V) = .reading (slotB m₀ r) ∧ (v1 = epoch ∨ v2 = epoch) := by
  rw [readRecordB]
  by_cases hlt : m₀.tag (.slot1 r) < m₀.tag (.slot2 r)
  · have hB : slotB m₀ r = .slot1 r := if_pos hlt
    have hv2 : v2 = m₀.tag (.slot2 r) := hl₂.resolve_right fun h => by simp [hB] at h
    rw [hB]
    rcases hl₁ with hv1 | ⟨hv1, -⟩
    · rw [if_neg (by omega), if_neg (by omega), if_pos (by omega)]
      exact Or.inl rfl
    · rw [if_pos hv1]
      exact Or.inr ⟨rfl, Or.inl hv1⟩
  · have hB : slotB m₀ r = .slot2 r := if_neg hlt
    have hv1 : v1 = m₀.tag (.slot1 r) := hl₁.resolve_right fun h => by simp [hB] at h
    rw [hB]
    rcases hl₂ with hv2 | ⟨hv2, -⟩
    · rw [if_neg (by omega), if_neg (by omega), if_neg (by omega)]
      exact Or.inl rfl
    · rw [if_neg (by omega), if_pos hv2]
      exact Or.inr ⟨rfl, Or.inr hv2⟩

end

end Egad.Execution
