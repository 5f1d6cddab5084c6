import Egad.Stager.Hybrid

/-! # The two versions of one record

    A record is written in the slot with the older tag, so the slot with the newer tag is its latest
    value and the other one the value before it. The writeback copies the written slot to the CPU
    record, an admission copies both tags and the latest value back to any GPU slot, and a rollback
    after a crash zeroes the tags from a marker on:

        write e      the slot that is not the latest one gets tag e
        evict        the GPU copy is dropped
        readmit      tags of the CPU record, value of its latest slot, the other value is left over
        rollback m   the GPU copy is lost, CPU tags ≥ m become 0

    A rollback goes one version back, so the values before the restored one are gone. -/

namespace Egad.Stager

variable {V : Type*}

/-! ### Slots -/

def Slot.other : Slot → Slot
  | .slot1 => .slot2
  | .slot2 => .slot1

/-- The slot with the latest value; a tie is slot 1. -/
def Rec.latestSlot (r : Rec V) : Slot := if r.version1 < r.version2 then .slot2 else .slot1

/-- A record-A read of `gpuReadFromTableCoop`. -/
def Rec.readRecordA (r : Rec V) (epoch : ℕ) : V :=
  if r.version1 = epoch then r.value2
  else if r.version2 = epoch then r.value1
  else if r.version1 < r.version2 then r.value2
  else r.value1

/-- One record of `rollbackPrimaryStoreVersions`. -/
def Rec.rollback (r : Rec V) (minDiscardEpoch : ℕ) : Rec V :=
  { r with
    version1 := if minDiscardEpoch ≤ r.version1 then 0 else r.version1
    version2 := if minDiscardEpoch ≤ r.version2 then 0 else r.version2 }

/-- A tag and a value on their way to a slot. -/
structure Packed (V : Type*) where
  slot : Slot
  version : ℕ
  value : V

def Rec.putPacked (r : Rec V) (x : Packed V) : Rec V := r.put x.version x.value x.slot

/-- Both tags are below `e`. -/
def Rec.TagsBelow (r : Rec V) (e : ℕ) : Prop := r.version1 < e ∧ r.version2 < e

/-- The tags are equal only when both are 0. -/
def Rec.TagsDiffer (r : Rec V) : Prop := r.version1 = r.version2 → r.version1 = 0

theorem Rec.recordBSlot_eq (r : Rec V) : r.recordBSlot = r.latestSlot.other := by
  rw [Rec.recordBSlot, Rec.latestSlot]
  split <;> rfl

theorem Rec.readRecordA_of_below {r : Rec V} {e : ℕ} (h : r.TagsBelow e) :
    r.readRecordA e = r.value r.latestSlot := by
  obtain ⟨h1, h2⟩ := h
  rw [Rec.readRecordA, if_neg h1.ne, if_neg h2.ne, Rec.latestSlot]
  split <;> rfl

theorem classifyPrevSlotHost_of_below {r : Rec V} {e : ℕ} (h : r.TagsBelow e) :
    classifyPrevSlotHost r.version1 r.version2 e = r.latestSlot := by
  rw [classifyPrevSlotHost, if_neg h.1.ne, if_neg h.2.ne, Rec.latestSlot]

theorem Rec.latestSlot_congr {r r' : Rec V} (h1 : r.version1 = r'.version1)
    (h2 : r.version2 = r'.version2) : r.latestSlot = r'.latestSlot := by
  rw [Rec.latestSlot, Rec.latestSlot, h1, h2]

/-! ### A write to the older slot -/

section Put
variable {r : Rec V} {e : ℕ} {v : V}

theorem Rec.latestSlot_put (h : r.TagsBelow e) :
    (r.put e v r.recordBSlot).latestSlot = r.recordBSlot := by
  obtain ⟨h1, h2⟩ := h
  rw [Rec.recordBSlot]
  split
  · rw [Rec.put, Rec.latestSlot, if_neg h2.not_gt]
  · rw [Rec.put, Rec.latestSlot, if_pos h1]

theorem Rec.recordBSlot_put (h : r.TagsBelow e) :
    (r.put e v r.recordBSlot).recordBSlot = r.latestSlot := by
  rw [Rec.recordBSlot_eq, Rec.latestSlot_put h, Rec.recordBSlot_eq]
  cases r.latestSlot <;> rfl

@[simp] theorem Rec.version_put (r : Rec V) (e : ℕ) (v : V) (s : Slot) :
    (r.put e v s).version s = e := by cases s <;> rfl

@[simp] theorem Rec.value_put (r : Rec V) (e : ℕ) (v : V) (s : Slot) :
    (r.put e v s).value s = v := by cases s <;> rfl

@[simp] theorem Rec.version_put_other (r : Rec V) (e : ℕ) (v : V) (s : Slot) :
    (r.put e v s.other).version s = r.version s := by cases s <;> rfl

@[simp] theorem Rec.value_put_other (r : Rec V) (e : ℕ) (v : V) (s : Slot) :
    (r.put e v s.other).value s = r.value s := by cases s <;> rfl

theorem Rec.tagsDiffer_put (h : r.TagsBelow e) : (r.put e v r.recordBSlot).TagsDiffer := by
  obtain ⟨h1, h2⟩ := h
  rw [Rec.recordBSlot]
  split
  · intro he
    exact absurd he h2.ne'
  · intro he
    exact absurd he h1.ne

theorem Rec.tagsDiffer_rollback (h : r.TagsDiffer) (m : ℕ) : (r.rollback m).TagsDiffer := by
  intro he
  simp only [Rec.rollback] at he ⊢
  split
  · rfl
  · rename_i hm
    rw [if_neg hm] at he
    split at he
    · exact he
    · exact h he

end Put

/-! ### The states of one record -/

/-- The copies of a record: the CPU record, the GPU copy while it is resident, the slot marked by the
    write of the running epoch, and the packed slot the flush worker has. -/
structure Copies (V : Type*) where
  cpu : Rec V
  gpu : Option (Rec V)
  dirty : Option Slot
  inflight : Option (Packed V)

/-- The write that is marked and not yet collected. -/
def Copies.marked (s : Copies V) : Option (Packed V) :=
  match s.gpu, s.dirty with
  | some r, some slot => some ⟨slot, r.version slot, r.value slot⟩
  | _, _ => none

/-- Apply a packed slot, if there is one. -/
def Rec.apply (r : Rec V) : Option (Packed V) → Rec V
  | none => r
  | some x => r.putPacked x

/-- The CPU record once the flush in flight has landed. -/
def Copies.landed (s : Copies V) : Rec V := s.cpu.apply s.inflight

/-- The CPU record once the marked write has landed, too. -/
def Copies.current (s : Copies V) : Rec V := s.landed.apply s.marked

/-- The epoch of the last write of a history, which has the newest write first. -/
def lastEpoch : List (ℕ × V) → ℕ
  | [] => 0
  | x :: _ => x.1

/-- The last value written, or the loaded one. -/
def lastValue (loaded : V) : List (ℕ × V) → V
  | [] => loaded
  | x :: _ => x.2

/-- The writes of a history before epoch `m`. -/
def before (m : ℕ) (hist : List (ℕ × V)) : List (ℕ × V) := hist.filter fun x => x.1 < m

/-- The lives of one record that was loaded with a value. The indices are whether every rollback met
    the conditions under which its value survives, the writes on the CPU record, the newest first,
    and the epoch of the value the last rollback that discarded a write went back to. -/
inductive Life (loaded : V) : Bool → List (ℕ × V) → ℕ → Copies V → Prop
  | load (value2 : V) : Life loaded true [] 0 ⟨⟨0, 0, loaded, value2⟩, none, none, none⟩
  | readmit {k hist f s} (e : ℕ) (dst : Rec V) : Life loaded k hist f s → s.gpu = none →
    s.inflight = none → s.cpu.TagsBelow e →
    Life loaded k hist f { s with gpu := some (transferVersion e s.cpu dst) }
  | write {k hist f s r} (e : ℕ) (v : V) : Life loaded k hist f s → s.gpu = some r →
    s.dirty = none → r.TagsBelow e →
    Life loaded k hist f
      { s with gpu := some (r.put e v r.recordBSlot), dirty := some r.recordBSlot }
  | collect {k hist f s x} : Life loaded k hist f s → s.marked = some x → s.inflight = none →
    Life loaded k hist f { s with dirty := none, inflight := some x }
  | scatter {k hist f s x} : Life loaded k hist f s → s.inflight = some x →
    Life loaded k ((x.version, x.value) :: hist) f
      { s with cpu := s.cpu.putPacked x, inflight := none }
  | evict {k hist f s} : Life loaded k hist f s → s.dirty = none →
    Life loaded k hist f { s with gpu := none }
  | rollback {hist f s} (m : ℕ) : Life loaded true hist f s → f < m →
    ¬ (m ≤ s.cpu.version1 ∧ m ≤ s.cpu.version2) →
    Life loaded true (before m hist)
      (if m ≤ s.cpu.version1 ∨ m ≤ s.cpu.version2 then lastEpoch (before m hist) else f)
      ⟨s.cpu.rollback m, none, none, none⟩
  | wipe {k hist f s} (m : ℕ) : Life loaded k hist f s →
    Life loaded false [] 0 ⟨s.cpu.rollback m, none, none, none⟩

/-! ### The invariant -/

/-- The latest slot has the last write of the history, the other one the write before it unless a
    rollback took it. -/
structure Stored (loaded : V) (hist : List (ℕ × V)) (f : ℕ) (r : Rec V) : Prop where
  sorted : hist.Pairwise fun x y => y.1 < x.1
  pos : ∀ x ∈ hist, 0 < x.1
  floor : f ≤ lastEpoch hist
  latest : r.version r.latestSlot = lastEpoch hist ∧ r.value r.latestSlot = lastValue loaded hist
  prev : f < lastEpoch hist → r.version r.recordBSlot = lastEpoch hist.tail ∧
    r.value r.recordBSlot = lastValue loaded hist.tail
  restored : lastEpoch hist ≤ f → r.version r.recordBSlot = 0
  first : f < lastEpoch hist → hist.tail = [] → r.latestSlot = .slot2

structure Copies.Inv (loaded : V) (k : Bool) (hist : List (ℕ × V)) (f : ℕ) (s : Copies V) :
    Prop where
  tags : s.cpu.TagsDiffer
  clean : s.gpu = none → s.dirty = none
  inflight : ∀ x, s.inflight = some x → x.slot = s.cpu.recordBSlot ∧ s.cpu.TagsBelow x.version
  marked : ∀ x, s.marked = some x → x.slot = s.landed.recordBSlot ∧ s.landed.TagsBelow x.version
  gpu : ∀ r, s.gpu = some r → r.version1 = s.current.version1 ∧
    r.version2 = s.current.version2 ∧
    r.value s.current.latestSlot = s.current.value s.current.latestSlot
  stored : k = true → Stored loaded hist f s.cpu

section Stored
variable {loaded : V} {hist : List (ℕ × V)} {f : ℕ} {r : Rec V}

/-- A write of a later epoch to the older slot. -/
theorem Stored.put (h : Stored loaded hist f r) {e : ℕ} {v : V} (he : r.TagsBelow e) :
    Stored loaded ((e, v) :: hist) f (r.put e v r.recordBSlot) := by
  have hlast : lastEpoch hist < e := by
    rw [← h.latest.1]
    cases r.latestSlot
    · exact he.1
    · exact he.2
  have hall : ∀ x ∈ hist, x.1 < e := by
    intro x hx
    cases hist with
    | nil => simp at hx
    | cons y l =>
      rcases List.mem_cons.mp hx with rfl | hx
      · exact hlast
      · exact ((List.pairwise_cons.mp h.sorted).1 x hx).trans hlast
  refine ⟨List.pairwise_cons.mpr ⟨hall, h.sorted⟩, ?_, h.floor.trans hlast.le, ?_, fun _ => ?_,
    fun hle => absurd (h.floor.trans_lt hlast) hle.not_gt, fun _ htail => ?_⟩
  · intro x hx
    rcases List.mem_cons.mp hx with rfl | hx
    · exact Nat.zero_lt_of_lt hlast
    · exact h.pos x hx
  · rw [Rec.latestSlot_put he, Rec.version_put, Rec.value_put]
    exact ⟨rfl, rfl⟩
  · rw [Rec.recordBSlot_put he, Rec.recordBSlot_eq, Rec.version_put_other, Rec.value_put_other]
    exact h.latest
  · -- the first write finds both tags 0
    have hnil : hist = [] := htail
    subst hnil
    have h1 := h.latest.1
    have h2 := h.restored (Nat.zero_le _)
    rw [Rec.latestSlot_put he]
    simp only [Rec.latestSlot, Rec.recordBSlot, lastEpoch] at h1 h2 ⊢
    split at h2
    · rename_i hlt
      rw [if_pos hlt] at h1
      simp only [Rec.version] at h1
      omega
    · rename_i hlt
      rw [if_neg hlt]

theorem before_eq_self (hs : hist.Pairwise fun x y => y.1 < x.1) {m : ℕ} (h : lastEpoch hist < m) :
    before m hist = hist := by
  refine List.filter_eq_self.mpr fun x hx => ?_
  cases hist with
  | nil => simp at hx
  | cons y l =>
    rcases List.mem_cons.mp hx with rfl | hx
    · exact decide_eq_true h
    · exact decide_eq_true (((List.pairwise_cons.mp hs).1 x hx).trans h)

theorem before_eq_tail (hs : hist.Pairwise fun x y => y.1 < x.1) {m : ℕ} (hm : m ≤ lastEpoch hist)
    (hm0 : 0 < m) (ht : lastEpoch hist.tail < m) : before m hist = hist.tail := by
  cases hist with
  | nil => exact absurd hm0 hm.not_gt
  | cons y l =>
    have hy : ¬ y.1 < m := hm.not_gt
    rw [before, List.filter_cons_of_neg (by simpa using hy)]
    exact before_eq_self (List.pairwise_cons.mp hs).2 ht

theorem Rec.rollback_eq_self {m : ℕ} (h : r.TagsBelow m) : r.rollback m = r := by
  rw [Rec.rollback, if_neg h.1.not_ge, if_neg h.2.not_ge]

/-- The older tag is not above the newer one. -/
theorem Stored.recordB_le (h : Stored loaded hist f r) :
    r.version r.recordBSlot ≤ lastEpoch hist := by
  rcases Nat.lt_or_ge f (lastEpoch hist) with hf | hf
  · rw [(h.prev hf).1]
    cases hist with
    | nil => exact le_rfl
    | cons y l =>
      cases l with
      | nil => exact Nat.zero_le _
      | cons z l => exact ((List.pairwise_cons.mp h.sorted).1 z List.mem_cons_self).le
  · rw [h.restored hf]
    exact Nat.zero_le _

/-- The tags are those of the latest slot and of the other one. -/
theorem Rec.tags_cases (r : Rec V) :
    (r.latestSlot = .slot1 ∧ r.recordBSlot = .slot2 ∧ ¬ r.version1 < r.version2) ∨
      (r.latestSlot = .slot2 ∧ r.recordBSlot = .slot1 ∧ r.version1 < r.version2) := by
  rw [Rec.latestSlot, Rec.recordBSlot]
  split
  · rename_i h
    exact .inr ⟨rfl, rfl, h⟩
  · rename_i h
    exact .inl ⟨rfl, rfl, h⟩

/-- A rollback to a marker above the last restored value brings back the last value before it. -/
theorem Stored.rollback (h : Stored loaded hist f r) {m : ℕ} (hf : f < m)
    (hone : ¬ (m ≤ r.version1 ∧ m ≤ r.version2)) :
    Stored loaded (before m hist)
      (if m ≤ r.version1 ∨ m ≤ r.version2 then lastEpoch (before m hist) else f)
      (r.rollback m) := by
  have hle := h.recordB_le
  rcases Nat.lt_or_ge (lastEpoch hist) m with hlast | hlast
  · -- no tag reaches the marker
    have hbelow : r.TagsBelow m := by
      have h1 := h.latest.1
      rcases r.tags_cases with ⟨hl, hb, -⟩ | ⟨hl, hb, -⟩ <;> rw [hl] at h1 <;> rw [hb] at hle <;>
        simp only [Rec.version] at h1 hle <;> exact ⟨by omega, by omega⟩
    rw [Rec.rollback_eq_self hbelow, before_eq_self h.sorted hlast,
      if_neg (not_or.mpr ⟨hbelow.1.not_ge, hbelow.2.not_ge⟩)]
    exact h
  · -- the newest write is discarded and the one before it survives
    obtain ⟨hpv, hpval⟩ := h.prev (hf.trans_le hlast)
    have hm0 : 0 < m := Nat.zero_lt_of_lt hf
    have h1 := h.latest.1
    have hbm : lastEpoch hist.tail < m := by
      rcases r.tags_cases with ⟨hl, hb, -⟩ | ⟨hl, hb, -⟩ <;> rw [hl] at h1 <;> rw [hb] at hpv <;>
        simp only [Rec.version] at h1 hpv <;> omega
    have hdrop : m ≤ r.version1 ∨ m ≤ r.version2 := by
      rcases r.tags_cases with ⟨hl, -, -⟩ | ⟨hl, -, -⟩ <;> rw [hl] at h1 <;>
        simp only [Rec.version] at h1 <;> omega
    rw [before_eq_tail h.sorted hlast hm0 hbm, if_pos hdrop]
    have hpos : ∀ x ∈ hist.tail, 0 < x.1 := fun x hx => h.pos x (List.mem_of_mem_tail hx)
    have hslot : (r.rollback m).latestSlot = r.recordBSlot ∧
        (r.rollback m).version r.recordBSlot = r.version r.recordBSlot ∧
        (r.rollback m).version r.latestSlot = 0 := by
      rcases r.tags_cases with ⟨hl, hb, hlt⟩ | ⟨hl, hb, hlt⟩
      · rw [hl] at h1
        rw [hb] at hpv
        simp only [Rec.version] at h1 hpv
        have h2 : ¬ m ≤ r.version2 := by omega
        have h1' : m ≤ r.version1 := by omega
        have hne : hist.tail ≠ [] := fun hnil => by
          have := h.first (hf.trans_le hlast) hnil
          rw [hl] at this
          cases this
        have h2pos : 0 < r.version2 := by
          rw [hpv]
          cases ht : hist.tail with
          | nil => exact absurd ht hne
          | cons y l => exact hpos y (by simp [ht])
        simp [Rec.rollback, Rec.latestSlot, hb, hlt, Rec.version, h1', h2, h2pos]
      · rw [hl] at h1
        rw [hb] at hpv
        simp only [Rec.version] at h1 hpv
        have h2 : ¬ m ≤ r.version1 := by omega
        have h1' : m ≤ r.version2 := by omega
        simp [Rec.rollback, Rec.latestSlot, hb, hlt, Rec.version, h1', h2]
    have hval : ∀ s, (r.rollback m).value s = r.value s := by rintro (_ | _) <;> rfl
    refine ⟨h.sorted.tail, hpos, le_rfl, ?_, fun hlt => absurd hlt (lt_irrefl _), fun _ => ?_,
      fun hlt => absurd hlt (lt_irrefl _)⟩
    · rw [hslot.1, hslot.2.1, hval]
      exact ⟨hpv, hpval⟩
    · rw [Rec.recordBSlot_eq, hslot.1, Rec.recordBSlot_eq]
      have : r.latestSlot.other.other = r.latestSlot := by cases r.latestSlot <;> rfl
      rw [this, hslot.2.2]

end Stored

/-! ### Whole lives -/

theorem transferVersion_of_below {e : ℕ} {src dst : Rec V} (h : src.TagsBelow e) :
    (transferVersion e src dst).version1 = src.version1 ∧
      (transferVersion e src dst).version2 = src.version2 ∧
      (transferVersion e src dst).value src.latestSlot = src.value src.latestSlot := by
  rw [transferVersion, classifyPrevSlotHost_of_below h]
  cases src.latestSlot <;> exact ⟨rfl, rfl, rfl⟩

section Inv
variable {loaded : V} {k : Bool} {hist : List (ℕ × V)} {f : ℕ} {s : Copies V}

theorem Copies.Inv.readmit (h : s.Inv loaded k hist f) (hg : s.gpu = none) (hi : s.inflight = none)
    {e : ℕ} (he : s.cpu.TagsBelow e) (dst : Rec V) :
    Copies.Inv loaded k hist f { s with gpu := some (transferVersion e s.cpu dst) } := by
  have hd := h.clean hg
  refine ⟨h.tags, by simp, h.inflight, ?_, ?_, h.stored⟩
  · intro x hx
    simp [Copies.marked, hd] at hx
  · intro r hr
    obtain rfl : transferVersion e s.cpu dst = r := by simpa using hr
    have hcur : Copies.current { s with gpu := some (transferVersion e s.cpu dst) } = s.cpu := by
      simp [Copies.current, Copies.landed, Copies.marked, Rec.apply, hd, hi]
    rw [hcur]
    exact transferVersion_of_below he

theorem Copies.Inv.write (h : s.Inv loaded k hist f) {r : Rec V} (hg : s.gpu = some r)
    (hd : s.dirty = none) {e : ℕ} (he : r.TagsBelow e) (v : V) :
    Copies.Inv loaded k hist f
      { s with gpu := some (r.put e v r.recordBSlot), dirty := some r.recordBSlot } := by
  have hcur : s.current = s.landed := by simp [Copies.current, Copies.marked, hd, Rec.apply]
  obtain ⟨h1, h2, hval⟩ := h.gpu r hg
  rw [hcur] at h1 h2
  have hslot : r.recordBSlot = s.landed.recordBSlot := by
    rw [Rec.recordBSlot_eq, Rec.recordBSlot_eq, Rec.latestSlot_congr h1 h2]
  have hbelow : s.landed.TagsBelow e := ⟨h1 ▸ he.1, h2 ▸ he.2⟩
  generalize hs' : Copies.mk s.cpu (some (r.put e v r.recordBSlot)) (some r.recordBSlot)
    s.inflight = s'
  have hland : s'.landed = s.landed := by rw [← hs']; rfl
  have hmark : s'.marked = some ⟨r.recordBSlot, e, v⟩ := by
    rw [← hs']
    simp [Copies.marked]
  have hnew : s'.current = s.landed.put e v s.landed.recordBSlot := by
    rw [Copies.current, hland, hmark, ← hslot]
    rfl
  refine ⟨?_, ?_, ?_, ?_, ?_, ?_⟩
  · rw [← hs']; exact h.tags
  · rw [← hs']; simp
  · rw [← hs']; exact h.inflight
  · intro x hx
    rw [hmark] at hx
    cases hx
    rw [hland]
    exact ⟨hslot, hbelow⟩
  · intro r' hr'
    rw [← hs'] at hr'
    obtain rfl : r.put e v r.recordBSlot = r' := by simpa using hr'
    rw [hnew, Rec.latestSlot_put hbelow, Rec.value_put, hslot, Rec.value_put]
    refine ⟨?_, ?_, rfl⟩ <;> cases s.landed.recordBSlot <;> simp [Rec.put, h1, h2]
  · rw [← hs']; exact h.stored

theorem Copies.Inv.collect (h : s.Inv loaded k hist f) {x : Packed V} (hx : s.marked = some x)
    (hi : s.inflight = none) :
    Copies.Inv loaded k hist f { s with dirty := none, inflight := some x } := by
  have hland : s.landed = s.cpu := by simp [Copies.landed, hi, Rec.apply]
  have hcur : Copies.current { s with dirty := none, inflight := some x } = s.current := by
    rw [Copies.current, Copies.current, hx, hland]
    cases hg : s.gpu <;> simp [Copies.landed, Copies.marked, Rec.apply]
  refine ⟨h.tags, by simp, ?_, ?_, ?_, h.stored⟩
  · intro y hy
    obtain rfl : x = y := by simpa using hy
    have := h.marked x hx
    rwa [hland] at this
  · intro y hy
    cases hg : s.gpu <;> simp [Copies.marked, hg] at hy
  · rw [hcur]
    exact h.gpu

theorem Copies.Inv.scatter (h : s.Inv loaded k hist f) {x : Packed V} (hx : s.inflight = some x) :
    Copies.Inv loaded k ((x.version, x.value) :: hist) f
      { s with cpu := s.cpu.putPacked x, inflight := none } := by
  obtain ⟨hslot, hbelow⟩ := h.inflight x hx
  have hput : s.cpu.putPacked x = s.cpu.put x.version x.value s.cpu.recordBSlot := by
    rw [Rec.putPacked, hslot]
  have hland : Copies.landed { s with cpu := s.cpu.putPacked x, inflight := none } = s.landed := by
    simp [Copies.landed, hx, Rec.apply]
  have hmark : Copies.marked { s with cpu := s.cpu.putPacked x, inflight := none } = s.marked :=
    rfl
  have hcur : Copies.current { s with cpu := s.cpu.putPacked x, inflight := none } =
      s.current := by
    rw [Copies.current, hland, hmark]
    rfl
  refine ⟨?_, h.clean, by simp, ?_, ?_, fun hk => ?_⟩
  · exact hput ▸ Rec.tagsDiffer_put hbelow
  · rw [hland, hmark]
    exact h.marked
  · rw [hcur]
    exact h.gpu
  · exact hput ▸ (h.stored hk).put hbelow

theorem Copies.Inv.evict (h : s.Inv loaded k hist f) (hd : s.dirty = none) :
    Copies.Inv loaded k hist f { s with gpu := none } :=
  ⟨h.tags, fun _ => hd, h.inflight, by simp [Copies.marked], by simp, h.stored⟩

/-- After a crash only the CPU record is left. -/
theorem Copies.Inv.alone {r : Rec V} (ht : r.TagsDiffer)
    (hs : k = true → Stored loaded hist f r) :
    Copies.Inv loaded k hist f ⟨r, none, none, none⟩ :=
  ⟨ht, fun _ => rfl, by simp, by simp [Copies.marked], by simp, hs⟩

theorem Life.inv (h : Life loaded k hist f s) : s.Inv loaded k hist f := by
  induction h with
  | load value2 =>
    refine Copies.Inv.alone (fun _ => rfl) fun _ => ?_
    exact ⟨List.Pairwise.nil, by simp, le_rfl, ⟨rfl, rfl⟩, by simp [lastEpoch], fun _ => rfl,
      by simp [lastEpoch]⟩
  | readmit e dst _ hg hi he ih => exact ih.readmit hg hi he dst
  | write e v _ hg hd he ih => exact ih.write hg hd he v
  | collect _ hx hi ih => exact ih.collect hx hi
  | scatter _ hx ih => exact ih.scatter hx
  | evict _ hd ih => exact ih.evict hd
  | rollback m _ hf hone ih =>
    exact Copies.Inv.alone (Rec.tagsDiffer_rollback ih.tags m) fun hk =>
      (ih.stored hk).rollback hf hone
  | wipe m _ ih => exact Copies.Inv.alone (Rec.tagsDiffer_rollback ih.tags m) (by simp)

/-- The writes to the record with those that have not reached the CPU record, the newest first. -/
def Copies.writes (s : Copies V) (hist : List (ℕ × V)) : List (ℕ × V) :=
  (s.marked.toList ++ s.inflight.toList).map (fun x => (x.version, x.value)) ++ hist

theorem Copies.Inv.tags_landed (h : s.Inv loaded k hist f) : s.landed.TagsDiffer := by
  cases hi : s.inflight with
  | none => simpa [Copies.landed, hi, Rec.apply] using h.tags
  | some x =>
    obtain ⟨hslot, hbelow⟩ := h.inflight x hi
    simpa [Copies.landed, hi, Rec.apply, Rec.putPacked, hslot] using Rec.tagsDiffer_put hbelow

theorem Copies.Inv.tags_current (h : s.Inv loaded k hist f) : s.current.TagsDiffer := by
  cases hm : s.marked with
  | none => simpa [Copies.current, hm, Rec.apply] using h.tags_landed
  | some x =>
    obtain ⟨hslot, hbelow⟩ := h.marked x hm
    simpa [Copies.current, hm, Rec.apply, Rec.putPacked, hslot] using Rec.tagsDiffer_put hbelow

theorem Copies.Inv.stored_current (h : s.Inv loaded true hist f) :
    Stored loaded (s.writes hist) f s.current := by
  have hland : Stored loaded (s.inflight.toList.map (fun x => (x.version, x.value)) ++ hist) f
      s.landed := by
    cases hi : s.inflight with
    | none => simpa [Copies.landed, hi, Rec.apply] using h.stored rfl
    | some x =>
      obtain ⟨hslot, hbelow⟩ := h.inflight x hi
      simpa [Copies.landed, hi, Rec.apply, Rec.putPacked, hslot] using (h.stored rfl).put hbelow
  cases hm : s.marked with
  | none => simpa [Copies.current, Copies.writes, hm, Rec.apply] using hland
  | some x =>
    obtain ⟨hslot, hbelow⟩ := h.marked x hm
    simpa [Copies.current, Copies.writes, hm, Rec.apply, Rec.putPacked, hslot] using
      hland.put hbelow

theorem Rec.rollback_below (r : Rec V) {m : ℕ} (hm : 0 < m) : (r.rollback m).TagsBelow m := by
  constructor <;> simp only [Rec.rollback] <;> split <;> omega

/-- In every life of a record the tags of its copies are equal only when both are 0, and a write
    takes the slot that a record-A read would not return. If every rollback had one tag at most from
    its marker on and a marker above the epoch the last one went back to, the slot a write leaves
    alone has the last value written, on the GPU as on the CPU; and for every such marker a rollback
    makes a record-A read return the last value written before it. -/
theorem dual_version_slots (h : Life loaded k hist f s) :
    s.cpu.TagsDiffer ∧
    (∀ r, s.gpu = some r → r.TagsDiffer ∧
      ∀ e, r.TagsBelow e → r.readRecordA e = r.value r.recordBSlot.other) ∧
    (k = true →
      (∀ r, s.gpu = some r → r.value r.recordBSlot.other = lastValue loaded (s.writes hist)) ∧
      (∀ x, s.inflight = some x → s.cpu.value x.slot.other = lastValue loaded hist) ∧
      ∀ m, f < m → ¬ (m ≤ s.cpu.version1 ∧ m ≤ s.cpu.version2) → ∀ e, m ≤ e →
        (s.cpu.rollback m).readRecordA e = lastValue loaded (before m hist)) := by
  have hinv := h.inv
  have hother : ∀ r : Rec V, r.recordBSlot.other = r.latestSlot := fun r => by
    rw [Rec.recordBSlot_eq]
    cases r.latestSlot <;> rfl
  refine ⟨hinv.tags, fun r hr => ⟨?_, fun e he => ?_⟩, ?_⟩
  · obtain ⟨h1, h2, -⟩ := hinv.gpu r hr
    have := hinv.tags_current
    rwa [Rec.TagsDiffer, ← h1, ← h2] at this
  · rw [hother, Rec.readRecordA_of_below he]
  · rintro rfl
    refine ⟨fun r hr => ?_, fun x hx => ?_, fun m hf hone e hme => ?_⟩
    · obtain ⟨h1, h2, hval⟩ := hinv.gpu r hr
      rw [hother, Rec.latestSlot_congr h1 h2, hval]
      exact hinv.stored_current.latest.2
    · rw [(hinv.inflight x hx).1, hother]
      exact (hinv.stored rfl).latest.2
    · have hb := (s.cpu.rollback_below (Nat.zero_lt_of_lt hf))
      rw [Rec.readRecordA_of_below ⟨hb.1.trans_le hme, hb.2.trans_le hme⟩]
      exact ((hinv.stored rfl).rollback hf hone).latest.2

end Inv

/-- Writes in epochs 3, 5 and 7 and a rollback of epochs from 6 on. -/
theorem life_rolled_back : ∃ s, Life 0 true [(5, 50), (3, 30)] 5 s ∧ s.cpu = ⟨5, 0, 50, 70⟩ := by
  have h0 : Life 0 true [] 0 ⟨⟨0, 0, 0, 0⟩, none, none, none⟩ := Life.load 0
  have h1 := h0.readmit 1 ⟨9, 8, 1, 2⟩ rfl rfl ⟨by decide, by decide⟩
  have h2 := ((h1.write 3 30 rfl rfl ⟨by decide, by decide⟩).collect rfl rfl).scatter rfl
  have h3 := ((h2.write 5 50 rfl rfl ⟨by decide, by decide⟩).collect rfl rfl).scatter rfl
  have h4 := ((h3.write 7 70 rfl rfl ⟨by decide, by decide⟩).collect rfl rfl).scatter rfl
  exact ⟨_, h4.rollback 6 (by decide) (by decide), rfl⟩

theorem dual_version_slots_rolled_back :
    (Rec.rollback ⟨5, 0, 50, 70⟩ 6).readRecordA 6 = lastValue 0 (before 6 [(5, 50), (3, 30)]) := by
  obtain ⟨s, hs, hcpu⟩ := life_rolled_back
  have h := ((dual_version_slots hs).2.2 rfl).2.2 6 (by decide) (by rw [hcpu]; decide) 6 le_rfl
  rwa [hcpu] at h

/-- A second rollback to epoch 4 finds one tag from its marker on and cannot bring back the value of
    epoch 3. -/
theorem rollback_below_restored :
    ∃ s hist, Life 0 true hist 5 s ∧ ¬ (4 ≤ s.cpu.version1 ∧ 4 ≤ s.cpu.version2) ∧
      (s.cpu.rollback 4).readRecordA 4 ≠ lastValue 0 (before 4 hist) := by
  obtain ⟨s, hs, hcpu⟩ := life_rolled_back
  refine ⟨s, _, hs, ?_, ?_⟩ <;> rw [hcpu] <;> decide

end Egad.Stager
