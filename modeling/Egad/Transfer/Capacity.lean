import Mathlib.Data.List.Basic
import Mathlib.Logic.Function.Basic
import Mathlib.Order.Basic

/-! # The capacities of the transfer buffers

    The buffers of a transfer are allocated on demand. A recorded capacity tells when to allocate
    again, and several buffers may share one:

        ensure_versions_capacity      cap_vers ─► h_packed_vers, d_packed_vers     1.5x or n
                                      cap_prev_slots ─► h_prev_slots               n, and only when
                                                                                   cap_vers grows
        ensure_versions_chunk_buffers chunk_ver_cap ─► packed, prev and curr slots, two of each
        scatter_device_versions       prev_slots_cap ─► d_prev_slots_buf[0]        n
        wb_async_ensure               curr_slots_cap ─► d_curr_slots_buf[0]        n

    A request can find its capacity already recorded and a buffer that is smaller: the previous
    slots, which do not follow the capacity they are grown under, and the two slot buffers that the
    chunked and the other transfers share under different capacities. -/

namespace Egad.Transfer

/-! ### The source -/

/-- The sizes of a `ScatterGather`'s buffers, in elements, and the capacities it records for them. A
    null pointer is a buffer of size 0. -/
structure Buffers where
  capVersElems : ℕ := 0
  hPackedVers : ℕ := 0
  dPackedVers : ℕ := 0
  capPrevSlotsElems : ℕ := 0
  hPrevSlots : ℕ := 0
  capGridsElems : ℕ := 0
  dGridsPersistent : ℕ := 0
  chunkCapElems : ℕ := 0
  dGridsBuf : Bool → ℕ := fun _ => 0
  hGridsBuf : Bool → ℕ := fun _ => 0
  chunkVerCapElems : ℕ := 0
  hPackedVersBuf : Bool → ℕ := fun _ => 0
  dPackedVersBuf : Bool → ℕ := fun _ => 0
  hPrevSlotsBuf : Bool → ℕ := fun _ => 0
  dPrevSlotsBuf : Bool → ℕ := fun _ => 0
  hCurrSlotsBuf : Bool → ℕ := fun _ => 0
  dCurrSlotsBuf : Bool → ℕ := fun _ => 0
  prevSlotsCapElems : ℕ := 0
  currSlotsCapElems : ℕ := 0
  wbD2hChunkCap : ℕ := 0
  hWbD2hBuf : Bool → ℕ := fun _ => 0

/-- The grow-only policy: half as much again, or what is asked for. -/
def grow (cap n : ℕ) : ℕ :=
  let newCap := if cap ≠ 0 then cap + cap / 2 else n
  if newCap < n then n else newCap

/-- `ensure_versions_capacity_bytes_`. -/
def ensureVersionsCapacity (n : ℕ) (s : Buffers) : Buffers :=
  if n ≤ s.capVersElems then s
  else
    let newCap := grow s.capVersElems n
    let s := { s with hPackedVers := newCap, dPackedVers := newCap, capVersElems := newCap }
    if s.capPrevSlotsElems < n then { s with hPrevSlots := n, capPrevSlotsElems := n } else s

/-- `ensure_grids_capacity_`. -/
def ensureGridsCapacity (n : ℕ) (s : Buffers) : Buffers :=
  if n ≤ s.capGridsElems then s
  else
    let newCap := grow s.capGridsElems n
    { s with dGridsPersistent := newCap, capGridsElems := newCap }

/-- `ensure_chunk_buffers_`. -/
def ensureChunkBuffers (c : ℕ) (s : Buffers) : Buffers :=
  if c ≤ s.chunkCapElems then s
  else { s with dGridsBuf := fun _ => c, hGridsBuf := fun _ => c, chunkCapElems := c }

/-- `ensure_versions_chunk_buffers_`. -/
def ensureVersionsChunkBuffers (c : ℕ) (s : Buffers) : Buffers :=
  if c ≤ s.chunkVerCapElems then s
  else
    { s with
      hPackedVersBuf := fun _ => c, dPackedVersBuf := fun _ => c
      hPrevSlotsBuf := fun _ => c, dPrevSlotsBuf := fun _ => c
      hCurrSlotsBuf := fun _ => c, dCurrSlotsBuf := fun _ => c
      chunkVerCapElems := c }

/-- The growth of `d_prev_slots_buf_[0]` in `scatter_device_versions_`. -/
def ensurePrevSlots (n : ℕ) (s : Buffers) : Buffers :=
  if s.dPrevSlotsBuf false = 0 ∨ s.prevSlotsCapElems < n then
    { s with dPrevSlotsBuf := Function.update s.dPrevSlotsBuf false n, prevSlotsCapElems := n }
  else s

/-- The growth of `d_curr_slots_buf_[0]` in `writeback_versions` and `wb_async_ensure`. -/
def ensureCurrSlots (n : ℕ) (s : Buffers) : Buffers :=
  if s.dCurrSlotsBuf false = 0 ∨ s.currSlotsCapElems < n then
    { s with dCurrSlotsBuf := Function.update s.dCurrSlotsBuf false n, currSlotsCapElems := n }
  else s

/-- `wb_async_ensure`, and what `writeback_versions` does before a writeback that is not chunked. -/
def wbAsyncEnsure (n : ℕ) (s : Buffers) : Buffers :=
  ensureCurrSlots n (ensureGridsCapacity n (ensureVersionsCapacity n s))

/-- The growth of the host buffers in `wb_chunked_d2h_scatter`. -/
def ensureWbD2h (c : ℕ) (s : Buffers) : Buffers :=
  if s.wbD2hChunkCap < c then
    let newCap := max c (s.wbD2hChunkCap + s.wbD2hChunkCap / 2)
    { s with hWbD2hBuf := fun _ => newCap, wbD2hChunkCap := newCap }
  else s

/-- A capacity request, with the number of records of the transfer it is made for. -/
inductive Request where
  | versions (n : ℕ)
  | grids (n : ℕ)
  | prevSlots (n : ℕ)
  | wbAsync (n : ℕ)
  | chunk (n : ℕ)
  | versionsChunk (n : ℕ)
  | wbD2h (n : ℕ)

def Request.n : Request → ℕ
  | .versions n | .grids n | .prevSlots n | .wbAsync n | .chunk n | .versionsChunk n | .wbD2h n => n

def ensure (s : Buffers) : Request → Buffers
  | .versions n => ensureVersionsCapacity n s
  | .grids n => ensureGridsCapacity n s
  | .prevSlots n => ensurePrevSlots n s
  | .wbAsync n => wbAsyncEnsure n s
  | .chunk n => ensureChunkBuffers n s
  | .versionsChunk n => ensureVersionsChunkBuffers n s
  | .wbD2h n => ensureWbD2h n s

/-- The buffers the transfer behind a request indexes with its records. -/
def Buffers.indexed (s : Buffers) : Request → List ℕ
  | .versions _ => [s.hPackedVers, s.dPackedVers, s.hPrevSlots]
  | .grids _ => [s.dGridsPersistent]
  | .prevSlots _ => [s.dPrevSlotsBuf false]
  | .wbAsync _ => [s.hPackedVers, s.dPackedVers, s.dGridsPersistent, s.dCurrSlotsBuf false]
  | .chunk _ => [s.dGridsBuf false, s.dGridsBuf true, s.hGridsBuf false, s.hGridsBuf true]
  | .versionsChunk _ => [s.hPackedVersBuf false, s.hPackedVersBuf true, s.dPackedVersBuf false,
      s.dPackedVersBuf true, s.hPrevSlotsBuf false, s.hPrevSlotsBuf true, s.dPrevSlotsBuf false,
      s.dPrevSlotsBuf true, s.hCurrSlotsBuf false, s.hCurrSlotsBuf true, s.dCurrSlotsBuf false,
      s.dCurrSlotsBuf true]
  | .wbD2h _ => [s.hWbD2hBuf false, s.hWbD2hBuf true]

/-- Each of them has an element for every record. -/
def Room (s : Buffers) (r : Request) : Prop := ∀ size ∈ s.indexed r, r.n ≤ size

/-- Every request of a sequence leaves room for its transfer. -/
def KeepsUp : Buffers → List Request → Prop
  | _, [] => True
  | s, r :: rs => Room (ensure s r) r ∧ KeepsUp (ensure s r) rs

/-- The request enlarges the buffers, or finds each of them large enough: for the previous slots
    the last request that enlarged them, for a shared slot buffer the request that installed it. -/
def Grows (s : Buffers) : Request → Prop
  | .versions n => s.capVersElems < n ∨ n ≤ s.capPrevSlotsElems
  | .prevSlots n => s.prevSlotsCapElems < n ∨ n ≤ s.dPrevSlotsBuf false
  | .wbAsync n => s.currSlotsCapElems < n ∨ n ≤ s.dCurrSlotsBuf false
  | .versionsChunk n => s.chunkVerCapElems < n ∨
      (n ≤ s.dPrevSlotsBuf false ∧ n ≤ s.dCurrSlotsBuf false)
  | .grids _ | .chunk _ | .wbD2h _ => True

def AllGrow : Buffers → List Request → Prop
  | _, [] => True
  | s, r :: rs => Grows s r ∧ AllGrow (ensure s r) rs

/-! ### Sizes and recorded capacities -/

theorem le_grow (cap n : ℕ) : n ≤ grow cap n := by
  rw [grow]
  split <;> split <;> omega

/-- What the sizes keep of the capacities: all but the shared slot buffers are as large as recorded,
    the previous slots follow no further than the requests, and a shared slot buffer that is not
    there has no capacity recorded. -/
structure Sized (s : Buffers) : Prop where
  hPackedVers : s.hPackedVers = s.capVersElems
  dPackedVers : s.dPackedVers = s.capVersElems
  hPrevSlots : s.hPrevSlots = s.capPrevSlotsElems
  prevSlots_le : s.capPrevSlotsElems ≤ s.capVersElems
  dGridsPersistent : s.dGridsPersistent = s.capGridsElems
  grids : ∀ b, s.dGridsBuf b = s.chunkCapElems ∧ s.hGridsBuf b = s.chunkCapElems
  packed : ∀ b, s.hPackedVersBuf b = s.chunkVerCapElems ∧ s.dPackedVersBuf b = s.chunkVerCapElems
  hSlots : ∀ b, s.hPrevSlotsBuf b = s.chunkVerCapElems ∧ s.hCurrSlotsBuf b = s.chunkVerCapElems
  dSlots : s.dPrevSlotsBuf true = s.chunkVerCapElems ∧ s.dCurrSlotsBuf true = s.chunkVerCapElems
  dPrevSlots_null : s.dPrevSlotsBuf false = 0 → s.prevSlotsCapElems = 0
  dCurrSlots_null : s.dCurrSlotsBuf false = 0 → s.currSlotsCapElems = 0
  wbD2h : ∀ b, s.hWbD2hBuf b = s.wbD2hChunkCap

theorem sized_empty : Sized {} where
  hPackedVers := rfl
  dPackedVers := rfl
  hPrevSlots := rfl
  prevSlots_le := Nat.le_refl 0
  dGridsPersistent := rfl
  grids _ := ⟨rfl, rfl⟩
  packed _ := ⟨rfl, rfl⟩
  hSlots _ := ⟨rfl, rfl⟩
  dSlots := ⟨rfl, rfl⟩
  dPrevSlots_null _ := rfl
  dCurrSlots_null _ := rfl
  wbD2h _ := rfl

variable {s : Buffers}

theorem Sized.ensureVersionsCapacity (h : Sized s) (n : ℕ) :
    Sized (ensureVersionsCapacity n s) := by
  rw [Transfer.ensureVersionsCapacity]
  split
  case isTrue => exact h
  case isFalse hn =>
    have hgrow := le_grow s.capVersElems n
    have hle := h.prevSlots_le
    simp only
    split
    · exact { h with hPackedVers := rfl, dPackedVers := rfl, hPrevSlots := rfl, prevSlots_le := hgrow }
    · exact { h with hPackedVers := rfl, dPackedVers := rfl, prevSlots_le := by simp only; omega }

theorem Sized.ensureGridsCapacity (h : Sized s) (n : ℕ) : Sized (ensureGridsCapacity n s) := by
  rw [Transfer.ensureGridsCapacity]
  split
  · exact h
  · exact { h with dGridsPersistent := rfl }

theorem Sized.ensurePrevSlots (h : Sized s) (n : ℕ) : Sized (ensurePrevSlots n s) := by
  rw [Transfer.ensurePrevSlots]
  split
  · exact { h with dSlots := h.dSlots, dPrevSlots_null := id }
  · exact h

theorem Sized.ensureCurrSlots (h : Sized s) (n : ℕ) : Sized (ensureCurrSlots n s) := by
  rw [Transfer.ensureCurrSlots]
  split
  · exact { h with dSlots := h.dSlots, dCurrSlots_null := id }
  · exact h

/-- No request breaks the relation of sizes and capacities. -/
theorem Sized.ensure (h : Sized s) (r : Request) : Sized (ensure s r) := by
  cases r with
  | versions n => exact h.ensureVersionsCapacity n
  | grids n => exact h.ensureGridsCapacity n
  | prevSlots n => exact h.ensurePrevSlots n
  | wbAsync n => exact ((h.ensureVersionsCapacity n).ensureGridsCapacity n).ensureCurrSlots n
  | chunk n =>
    rw [Transfer.ensure, ensureChunkBuffers]
    split
    · exact h
    · exact { h with grids := fun _ => ⟨rfl, rfl⟩ }
  | versionsChunk n =>
    rw [Transfer.ensure, ensureVersionsChunkBuffers]
    split
    case isTrue => exact h
    case isFalse hn =>
      have hpos : n ≠ 0 := by omega
      exact { h with
        packed := fun _ => ⟨rfl, rfl⟩, hSlots := fun _ => ⟨rfl, rfl⟩, dSlots := ⟨rfl, rfl⟩
        dPrevSlots_null := fun hz => absurd hz hpos
        dCurrSlots_null := fun hz => absurd hz hpos }
  | wbD2h n =>
    rw [Transfer.ensure, ensureWbD2h]
    split
    · exact { h with wbD2h := fun _ => rfl }
    · exact h

/-! ### What a request leaves -/

theorem le_capVersElems (n : ℕ) (s : Buffers) : n ≤ (ensureVersionsCapacity n s).capVersElems := by
  rw [ensureVersionsCapacity]
  split
  · assumption
  · simp only
    split <;> exact le_grow _ _

/-- The previous slots are enlarged only when the packed buffers are. -/
theorem le_capPrevSlotsElems_iff (h : Sized s) (n : ℕ) :
    n ≤ (ensureVersionsCapacity n s).capPrevSlotsElems ↔
      s.capVersElems < n ∨ n ≤ s.capPrevSlotsElems := by
  have hle := h.prevSlots_le
  rw [ensureVersionsCapacity]
  split
  case isTrue hn => omega
  case isFalse hn =>
    simp only
    split <;> simp only <;> omega

theorem le_capGridsElems (n : ℕ) (s : Buffers) : n ≤ (ensureGridsCapacity n s).capGridsElems := by
  rw [ensureGridsCapacity]
  split
  · assumption
  · exact le_grow _ _

theorem le_chunkCapElems (n : ℕ) (s : Buffers) : n ≤ (ensureChunkBuffers n s).chunkCapElems := by
  rw [ensureChunkBuffers]
  split
  · assumption
  · exact Nat.le_refl n

theorem le_wbD2hChunkCap (n : ℕ) (s : Buffers) : n ≤ (ensureWbD2h n s).wbD2hChunkCap := by
  rw [ensureWbD2h]
  split
  · exact Nat.le_max_left _ _
  · omega

/-- A shared slot buffer is enlarged only when its own capacity is exceeded. -/
theorem le_update_iff {size cap n : ℕ} {buf : Bool → ℕ} (hbuf : buf false = size)
    (hnull : size = 0 → cap = 0) :
    n ≤ (if size = 0 ∨ cap < n then Function.update buf false n else buf) false ↔
      cap < n ∨ n ≤ size := by
  split
  · rw [Function.update_self]
    omega
  · rw [hbuf]
    omega

theorem le_dPrevSlotsBuf_iff (h : Sized s) (n : ℕ) :
    n ≤ (ensurePrevSlots n s).dPrevSlotsBuf false ↔
      s.prevSlotsCapElems < n ∨ n ≤ s.dPrevSlotsBuf false := by
  rw [← le_update_iff rfl h.dPrevSlots_null, ensurePrevSlots]
  split <;> rfl

theorem le_dCurrSlotsBuf_iff (h : Sized s) (n : ℕ) :
    n ≤ (ensureCurrSlots n s).dCurrSlotsBuf false ↔
      s.currSlotsCapElems < n ∨ n ≤ s.dCurrSlotsBuf false := by
  rw [← le_update_iff rfl h.dCurrSlots_null, ensureCurrSlots]
  split <;> rfl

/-- The other two parts of `wb_async_ensure` leave the slots alone, and the last leaves the others
    alone. -/
theorem wbAsyncEnsure_sizes (n : ℕ) (s : Buffers) :
    (wbAsyncEnsure n s).capVersElems = (ensureVersionsCapacity n s).capVersElems ∧
    n ≤ (wbAsyncEnsure n s).capGridsElems ∧
    (wbAsyncEnsure n s).dCurrSlotsBuf = (ensureCurrSlots n s).dCurrSlotsBuf ∧
    (wbAsyncEnsure n s).currSlotsCapElems = (ensureCurrSlots n s).currSlotsCapElems := by
  have hvers : (ensureVersionsCapacity n s).dCurrSlotsBuf = s.dCurrSlotsBuf ∧
      (ensureVersionsCapacity n s).currSlotsCapElems = s.currSlotsCapElems := by
    rw [ensureVersionsCapacity]
    split
    · exact ⟨rfl, rfl⟩
    · simp only
      split <;> exact ⟨rfl, rfl⟩
  have hgrids : ∀ t, (ensureGridsCapacity n t).dCurrSlotsBuf = t.dCurrSlotsBuf ∧
      (ensureGridsCapacity n t).currSlotsCapElems = t.currSlotsCapElems ∧
      (ensureGridsCapacity n t).capVersElems = t.capVersElems := by
    rintro t
    rw [ensureGridsCapacity]
    split <;> exact ⟨rfl, rfl, rfl⟩
  have hslots : ∀ t, (ensureCurrSlots n t).capVersElems = t.capVersElems ∧
      (ensureCurrSlots n t).capGridsElems = t.capGridsElems := by
    rintro t
    rw [ensureCurrSlots]
    split <;> exact ⟨rfl, rfl⟩
  obtain ⟨hbuf, hcap, hv⟩ := hgrids (ensureVersionsCapacity n s)
  rw [wbAsyncEnsure]
  refine ⟨(hslots _).1.trans hv, (le_capGridsElems n _).trans_eq (hslots _).2.symm, ?_⟩
  rw [ensureCurrSlots, ensureCurrSlots, hbuf, hcap, hvers.1, hvers.2]
  split
  · exact ⟨rfl, rfl⟩
  · exact ⟨hbuf.trans hvers.1, hcap.trans hvers.2⟩

/-- After the chunk buffers were ensured, the shared slot buffers are as small as the last request
    made them. -/
theorem ensureVersionsChunkBuffers_sizes (c : ℕ) (s : Buffers) :
    c ≤ (ensureVersionsChunkBuffers c s).chunkVerCapElems ∧
    (c ≤ (ensureVersionsChunkBuffers c s).dPrevSlotsBuf false ∧
        c ≤ (ensureVersionsChunkBuffers c s).dCurrSlotsBuf false ↔
      s.chunkVerCapElems < c ∨ (c ≤ s.dPrevSlotsBuf false ∧ c ≤ s.dCurrSlotsBuf false)) := by
  rw [ensureVersionsChunkBuffers]
  split
  case isTrue hc => exact ⟨hc, by omega⟩
  case isFalse hc => exact ⟨Nat.le_refl c, by simp only; omega⟩

/-- A request leaves room for its transfer exactly when it enlarges the buffers or finds them large
    enough. -/
theorem room_iff (h : Sized s) (r : Request) : Room (ensure s r) r ↔ Grows s r := by
  cases r with
  | versions n =>
    have h' : Sized (ensureVersionsCapacity n s) := h.ensure (.versions n)
    rw [Grows, ← le_capPrevSlotsElems_iff h n]
    simp only [Room, Buffers.indexed, Request.n, ensure, List.forall_mem_cons, h'.hPackedVers,
      h'.dPackedVers, h'.hPrevSlots, le_capVersElems, true_and, List.not_mem_nil, false_imp_iff,
      implies_true, and_true]
  | grids n =>
    have h' : Sized (ensureGridsCapacity n s) := h.ensure (.grids n)
    simp only [Room, Buffers.indexed, Request.n, ensure, List.mem_singleton, forall_eq,
      h'.dGridsPersistent, le_capGridsElems, Grows]
  | prevSlots n =>
    simp only [Room, Buffers.indexed, Request.n, ensure, List.mem_singleton, forall_eq, Grows]
    exact le_dPrevSlotsBuf_iff h n
  | wbAsync n =>
    have h' : Sized (wbAsyncEnsure n s) := h.ensure (.wbAsync n)
    obtain ⟨hvers, hgrids, hslots, -⟩ := wbAsyncEnsure_sizes n s
    rw [Grows, ← le_dCurrSlotsBuf_iff h n, ← hslots]
    simp only [Room, Buffers.indexed, Request.n, ensure, List.forall_mem_cons, h'.hPackedVers,
      h'.dPackedVers, h'.dGridsPersistent, hvers, le_capVersElems, hgrids, true_and,
      List.not_mem_nil, false_imp_iff, implies_true, and_true]
  | chunk n =>
    have h' : Sized (ensureChunkBuffers n s) := h.ensure (.chunk n)
    simp only [Room, Buffers.indexed, Request.n, ensure, List.forall_mem_cons, (h'.grids _).1,
      (h'.grids _).2, le_chunkCapElems, true_and, List.not_mem_nil, false_imp_iff, implies_true,
      Grows]
  | versionsChunk n =>
    have h' : Sized (ensureVersionsChunkBuffers n s) := h.ensure (.versionsChunk n)
    obtain ⟨hcap, hslots⟩ := ensureVersionsChunkBuffers_sizes n s
    rw [Grows, ← hslots]
    simp only [Room, Buffers.indexed, Request.n, ensure, List.forall_mem_cons, (h'.packed _).1,
      (h'.packed _).2, (h'.hSlots _).1, (h'.hSlots _).2, h'.dSlots.1, h'.dSlots.2, hcap, true_and,
      List.not_mem_nil, false_imp_iff, implies_true, and_true]
  | wbD2h n =>
    have h' : Sized (ensureWbD2h n s) := h.ensure (.wbD2h n)
    simp only [Room, Buffers.indexed, Request.n, ensure, List.forall_mem_cons, h'.wbD2h,
      le_wbD2hChunkCap, true_and, List.not_mem_nil, false_imp_iff, implies_true, Grows]

/-! ### Sequences of requests -/

theorem keepsUp_iff_of_sized (rs : List Request) : ∀ {s : Buffers}, Sized s →
    (KeepsUp s rs ↔ AllGrow s rs) := by
  induction rs with
  | nil => exact fun _ => Iff.rfl
  | cons r rs ih =>
    rintro s h
    rw [KeepsUp, AllGrow, room_iff h r, ih (h.ensure r)]

/-- In any sequence of requests every transfer finds room in every buffer it indexes if and only if
    each request enlarges its buffers or is no larger than the ones the earlier requests left. -/
theorem keepsUp_iff (rs : List Request) : KeepsUp {} rs ↔ AllGrow {} rs :=
  keepsUp_iff_of_sized rs sized_empty

/-- The recorded capacity grows to 150 for a request of 110, the previous slots to 110: a request of
    140 finds the one and not the other. -/
theorem versions_outgrow_slots : ¬ ∀ rs, KeepsUp {} rs := by
  rintro hall
  have hrun := hall [.versions 100, .versions 110, .versions 140]
  exact absurd (hrun.2.2.1 _ (List.mem_cons_of_mem _ (List.mem_cons_of_mem _
    (List.mem_singleton_self _)))) (by decide)

/-! ### The two objects of a stager -/

/-- The requests of an admission, which is chunked. -/
def Request.Chunked : Request → Prop
  | .chunk _ | .versionsChunk _ => True
  | _ => False

/-- The requests of a flush, which packs in one launch and copies back in chunks. -/
def Request.Flushing : Request → Prop
  | .wbAsync _ | .wbD2h _ => True
  | _ => False

/-- Requests that keep a property of the sizes under which each of them grows. -/
theorem allGrow_of_inv {P : Buffers → Prop} {Q : Request → Prop}
    (hstep : ∀ s r, P s → Q r → P (ensure s r) ∧ Grows s r) (rs : List Request) :
    ∀ {s}, P s → (∀ r ∈ rs, Q r) → AllGrow s rs := by
  induction rs with
  | nil => exact fun _ _ => trivial
  | cons r rs ih =>
    rintro s hP hQ
    obtain ⟨hr, hrs⟩ := List.forall_mem_cons.mp hQ
    obtain ⟨hP', hgrow⟩ := hstep s r hP hr
    exact ⟨hgrow, ih hP' hrs⟩

/-- An object that only admits keeps up: no one shrinks its slot buffers. -/
theorem keepsUp_chunked (rs : List Request) (h : ∀ r ∈ rs, r.Chunked) : KeepsUp {} rs := by
  refine (keepsUp_iff_of_sized rs sized_empty).mpr (allGrow_of_inv (P := fun s =>
    s.dPrevSlotsBuf false = s.chunkVerCapElems ∧ s.dCurrSlotsBuf false = s.chunkVerCapElems)
    (Q := Request.Chunked) ?_ rs ⟨rfl, rfl⟩ h)
  rintro s r ⟨hprev, hcurr⟩ hr
  cases r with
  | chunk n =>
    rw [ensure, ensureChunkBuffers]
    split <;> exact ⟨⟨hprev, hcurr⟩, trivial⟩
  | versionsChunk n =>
    have hgrows : Grows s (.versionsChunk n) := by
      rw [Grows, hprev, hcurr]
      omega
    rw [ensure, ensureVersionsChunkBuffers]
    split
    · exact ⟨⟨hprev, hcurr⟩, hgrows⟩
    · exact ⟨⟨rfl, rfl⟩, hgrows⟩
  | versions | grids | prevSlots | wbAsync | wbD2h => exact hr.elim

/-- An object that only flushes keeps up: its transfers do not index the previous slots. -/
theorem keepsUp_flushing (rs : List Request) (h : ∀ r ∈ rs, r.Flushing) : KeepsUp {} rs := by
  refine (keepsUp_iff_of_sized rs sized_empty).mpr (allGrow_of_inv (P := fun s =>
    s.dCurrSlotsBuf false = s.currSlotsCapElems) (Q := Request.Flushing) ?_ rs rfl h)
  rintro s r hcurr hr
  cases r with
  | wbAsync n =>
    obtain ⟨-, -, hslots, hcap⟩ := wbAsyncEnsure_sizes n s
    refine ⟨?_, by rw [Grows, hcurr]; omega⟩
    simp only [ensure]
    rw [hslots, hcap, ensureCurrSlots]
    split
    · exact Function.update_self false n s.dCurrSlotsBuf
    · exact hcurr
  | wbD2h n =>
    rw [ensure, ensureWbD2h]
    split <;> exact ⟨hcurr, trivial⟩
  | versions | grids | prevSlots | chunk | versionsChunk => exact hr.elim

end Egad.Transfer
