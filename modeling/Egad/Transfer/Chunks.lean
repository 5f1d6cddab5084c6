import Egad.Lib.Runs
import Mathlib.Data.List.Pairwise

/-! # Chunked transfers

    The admission and the writeback move their records in chunks through two buffers, so that the
    host works on one chunk while the device has the other:

        transfer_versions        gather ─► host buffer ─copy stream─► device buffer ─► scatter kernel
        writeback_versions       request ─► H2D ─► pack kernel ─► D2H ─► scatter to the CPU records
        wb_chunked_d2h_scatter                                    D2H ─► scatter to the CPU records

    A stream runs its entries in order, at any time after they were queued. Waiting for an event is
    waiting for the chunk it was last recorded for. The state of a call is the loop's variables, the
    buffers and the queued entries; what the call does to the records is logged in the order it is
    done, each element with the data the buffer held for it. -/

namespace Egad.Transfer
open Egad.Lib Relation

variable {P R : Type*}

/-- A queued chunk: the ticket of its events, its buffer, its first record and its length. The first
    record is not passed to the device. -/
structure Piece where
  ticket : ℕ
  buf : Bool
  base : ℕ
  m : ℕ
deriving DecidableEq

/-- The buffer holds the elements of the chunk. -/
def Piece.Held (p : Piece) (item : ℕ → P) (buf : ℕ → P) : Prop :=
  ∀ j < p.m, buf j = item (p.base + j)

/-- The elements of a chunk, as the scatter of the whole transfer would take them. -/
def Piece.items (item : ℕ → P) (p : Piece) : List P :=
  (List.range p.m).map fun j => item (p.base + j)

theorem Piece.Held.items {p : Piece} {item buf : ℕ → P} (h : p.Held item buf) :
    (List.range p.m).map buf = p.items item := by
  rw [Piece.items]
  refine List.map_congr_left fun j hj => ?_
  exact h j (List.mem_range.mp hj)

theorem Piece.held_fill {p : Piece} {item src : ℕ → P} (old : ℕ → P) (h : p.Held item src) :
    p.Held item (fill p.m src old) := by
  intro j hj
  rw [fill_of_lt _ _ hj]
  exact h j hj

/-- Chunks in flight use different buffers and have different tickets. -/
def Apart (p q : Piece) : Prop := p.buf ≠ q.buf ∧ p.ticket ≠ q.ticket

instance : Std.Symm Apart := ⟨fun _ _ h => ⟨h.1.symm, h.2.symm⟩⟩

/-! ### Admission -/

/-- The state of `transfer_versions`: the packed records, slots and GRIDs of a chunk are one
    element `P` each. -/
structure Admission (P : Type*) where
  base : ℕ
  bufIdx : Bool
  chunkIdx : ℕ
  txInFlight : Bool → Bool
  hostBuf : Bool → ℕ → P
  devBuf : Bool → ℕ → P
  copyStream : List Piece
  computeStream : List Piece
  log : List P

/-- The size of the chunks: one chunk if the payload has between 4 and 32 MiB. -/
def transferChunkElems (chunkBytes bytesPerElem n : ℕ) : ℕ :=
  let maxChunkCap := 32 * 2 ^ 20
  let adaptive := min maxChunkCap (max (4 * 2 ^ 20) (n * bytesPerElem))
  max 1 (min maxChunkCap (max chunkBytes adaptive) / bytesPerElem)

namespace Admission

variable (n chunk : ℕ) (item : ℕ → P)

/-- The chunk the loop takes next. -/
def next (s : Admission P) : Piece := ⟨s.chunkIdx, s.bufIdx, s.base, min chunk (n - s.base)⟩

/-- One turn of the loop: gather the chunk, queue its copies and its scatter kernel. -/
def gather (s : Admission P) : Admission P :=
  let p := s.next n chunk
  { s with
    base := s.base + p.m
    bufIdx := !s.bufIdx
    chunkIdx := s.chunkIdx + 1
    txInFlight := Function.update s.txInFlight s.bufIdx true
    hostBuf := Function.update s.hostBuf s.bufIdx
      (fill p.m (fun j => item (s.base + j)) (s.hostBuf s.bufIdx))
    copyStream := s.copyStream ++ [p]
    computeStream := s.computeStream ++ [p] }

/-- The host-to-device copies of a chunk. -/
def copy (s : Admission P) (p : Piece) (rest : List Piece) : Admission P :=
  { s with
    devBuf := Function.update s.devBuf p.buf (fill p.m (s.hostBuf p.buf) (s.devBuf p.buf))
    copyStream := rest }

/-- The scatter kernel of a chunk. -/
def compute (s : Admission P) (p : Piece) (rest : List Piece) : Admission P :=
  { s with
    log := s.log ++ (List.range p.m).map (s.devBuf p.buf)
    computeStream := rest }

/-- The host takes the next chunk once the last kernel of its buffer has ended; a kernel starts once
    the copies of its chunk have. -/
inductive Step : Admission P → Admission P → Prop
  | gather (s : Admission P) : s.base < n →
    (s.txInFlight s.bufIdx = true → ∀ p ∈ s.computeStream, p.buf ≠ s.bufIdx) →
    Step s (s.gather n chunk item)
  | copy (s : Admission P) {p : Piece} {rest : List Piece} : s.copyStream = p :: rest →
    Step s (s.copy p rest)
  | compute (s : Admission P) {p : Piece} {rest : List Piece} : s.computeStream = p :: rest →
    (∀ q ∈ s.copyStream, q.ticket ≠ p.ticket) → Step s (s.compute p rest)

/-- A call begins with empty streams; the buffers and flags are as an earlier call left them. -/
structure Start (s : Admission P) : Prop where
  base : s.base = 0
  copyStream : s.copyStream = []
  computeStream : s.computeStream = []
  log : s.log = []

/-- The loop has ended and both streams are drained. -/
structure Final (s : Admission P) : Prop where
  base : n ≤ s.base
  copyStream : s.copyStream = []
  computeStream : s.computeStream = []

/-- The chunks in flight are apart, those before the copy are in the host buffers and those after it
    in the device buffers, and with them the log is complete up to `base`. -/
structure Inv (s : Admission P) : Prop where
  base : s.base ≤ n
  older : ∀ p ∈ s.computeStream, p.ticket < s.chunkIdx
  marked : ∀ p ∈ s.computeStream, s.txInFlight p.buf = true
  apart : s.computeStream.Pairwise Apart
  suffix : s.copyStream <:+ s.computeStream
  host : ∀ p ∈ s.copyStream, p.Held item (s.hostBuf p.buf)
  dev : ∀ p ∈ s.computeStream, p ∉ s.copyStream → p.Held item (s.devBuf p.buf)
  log : s.log ++ s.computeStream.flatMap (Piece.items item) = (List.range s.base).map item

variable {n chunk} {item}

theorem Start.inv {s : Admission P} (h : s.Start) : s.Inv n item where
  base := by simp [h.base]
  older := by simp [h.computeStream]
  marked := by simp [h.computeStream]
  apart := by simp [h.computeStream]
  suffix := by simp [h.copyStream]
  host := by simp [h.copyStream]
  dev := by simp [h.computeStream]
  log := by simp [h.computeStream, h.log, h.base]

theorem Inv.gather {s : Admission P} (h : s.Inv n item)
    (hfree : ∀ p ∈ s.computeStream, p.buf ≠ s.bufIdx) : (s.gather n chunk item).Inv n item := by
  have hcopy : ∀ p ∈ s.copyStream, p.buf ≠ s.bufIdx := fun p hp =>
    hfree p (h.suffix.subset hp)
  have hsplit : (s.base + min chunk (n - s.base)) ≤ n := by
    have := h.base
    omega
  constructor
  · exact hsplit
  · intro p hp
    rcases List.mem_append.mp hp with hp | hp
    · exact Nat.lt_succ_of_lt (h.older p hp)
    · rw [List.mem_singleton.mp hp]
      exact Nat.lt_succ_self _
  · intro p hp
    rcases List.mem_append.mp hp with hp | hp
    · exact (Function.update_of_ne (hfree p hp) _ _).trans (h.marked p hp)
    · rw [List.mem_singleton.mp hp]
      exact Function.update_self ..
  · refine List.pairwise_append.mpr ⟨h.apart, List.pairwise_singleton _ _, fun p hp q hq => ?_⟩
    rw [List.mem_singleton.mp hq]
    exact ⟨hfree p hp, (h.older p hp).ne⟩
  · obtain ⟨l, hl⟩ := h.suffix
    exact ⟨l, by simp only [Admission.gather, ← hl, List.append_assoc]⟩
  · intro p hp
    rcases List.mem_append.mp hp with hp | hp
    · simp only [Admission.gather, Function.update_of_ne (hcopy p hp)]
      exact h.host p hp
    · rw [List.mem_singleton.mp hp]
      simp only [Admission.gather, next, Function.update_self]
      exact Piece.held_fill _ fun j _ => rfl
  · intro p hp hc
    rcases List.mem_append.mp hp with hp | hp
    · exact h.dev p hp fun hp' => hc (List.mem_append_left _ hp')
    · exact absurd (List.mem_append_right _ hp) hc
  · simp only [Admission.gather, List.flatMap_append, List.flatMap_singleton,
      ← List.append_assoc, h.log]
    rw [map_range_add]
    rfl

theorem Inv.copy {s : Admission P} (h : s.Inv n item) {p : Piece} {rest : List Piece}
    (hs : s.copyStream = p :: rest) : (s.copy p rest).Inv n item := by
  have hp : p ∈ s.copyStream := by simp [hs]
  have hcomp : p ∈ s.computeStream := h.suffix.subset hp
  refine ⟨h.base, h.older, h.marked, h.apart, ?_, fun q hq => ?_, fun q hq hc => ?_, h.log⟩
  · exact (List.suffix_cons p rest).trans (hs ▸ h.suffix)
  · exact h.host q (by rw [hs]; exact List.mem_cons_of_mem _ hq)
  · by_cases hqp : q = p
    · subst hqp
      simp only [Admission.copy, Function.update_self]
      exact Piece.held_fill _ (h.host q hp)
    · -- another chunk in flight has the other buffer
      have hbuf : q.buf ≠ p.buf := (h.apart.forall hq hcomp hqp).1
      simp only [Admission.copy, Function.update_of_ne hbuf]
      refine h.dev q hq fun hq' => ?_
      rw [hs] at hq'
      rcases List.mem_cons.mp hq' with rfl | hq'
      · exact hqp rfl
      · exact hc hq'

theorem Inv.compute {s : Admission P} (h : s.Inv n item) {p : Piece} {rest : List Piece}
    (hs : s.computeStream = p :: rest) (hcopied : ∀ q ∈ s.copyStream, q.ticket ≠ p.ticket) :
    (s.compute p rest).Inv n item := by
  have hp : p ∈ s.computeStream := by simp [hs]
  have hrest : ∀ q ∈ rest, q ∈ s.computeStream := fun q hq => by
    rw [hs]
    exact List.mem_cons_of_mem _ hq
  have hnot : p ∉ s.copyStream := fun hp' => hcopied p hp' rfl
  refine ⟨h.base, fun q hq => h.older q (hrest q hq), fun q hq => h.marked q (hrest q hq),
    (List.pairwise_cons.mp (hs ▸ h.apart)).2, ?_, h.host, fun q hq => h.dev q (hrest q hq), ?_⟩
  · rcases List.suffix_cons_iff.mp (hs ▸ h.suffix) with heq | hsub
    · exact absurd (heq ▸ List.mem_cons_self ..) hnot
    · exact hsub
  · have hlog := h.log
    rw [hs, List.flatMap_cons, ← (h.dev p hp hnot).items, ← List.append_assoc] at hlog
    exact hlog

theorem Step.inv {s t : Admission P} (hstep : Step n chunk item s t) (h : s.Inv n item) :
    t.Inv n item := by
  cases hstep with
  | gather _ hwait =>
    refine h.gather fun p hp heq => ?_
    exact hwait (heq ▸ h.marked p hp) p hp heq
  | copy hs => exact h.copy hs
  | compute hs hcopied => exact h.compute hs hcopied

/-- The work a call has left. -/
def work (n : ℕ) (s : Admission P) : ℕ :=
  3 * (n - s.base) + s.copyStream.length + s.computeStream.length

theorem progress (hchunk : 0 < chunk) {s : Admission P}
    (hfin : ¬ s.Final n) : ∃ t, Step n chunk item s t ∧ t.work n < s.work n := by
  cases hc : s.copyStream with
  | cons p rest =>
    refine ⟨_, .copy s hc, ?_⟩
    simp only [work, Admission.copy, hc, List.length_cons]
    omega
  | nil =>
    cases hk : s.computeStream with
    | cons p rest =>
      refine ⟨_, .compute s hk (by simp [hc]), ?_⟩
      simp only [work, Admission.compute, hk, List.length_cons]
      omega
    | nil =>
      have hlt : s.base < n := by
        by_contra hge
        exact hfin ⟨by omega, hc, hk⟩
      refine ⟨_, .gather s hlt (by simp [hk]), ?_⟩
      simp only [work, Admission.gather, next, List.length_append, List.length_singleton]
      omega

/-- A call comes to its end, and in every order of the host and the two streams the kernels scatter
    every record once, in order and with the data of its own position. -/
theorem exact_of_start (hchunk : 0 < chunk) {s : Admission P} (hs : s.Start) :
    (∃ t, ReflTransGen (Step n chunk item) s t ∧ t.Final n) ∧
      ∀ t, ReflTransGen (Step n chunk item) s t → t.Final n → t.log = (List.range n).map item := by
  have hstep : ∀ s t : Admission P, Step n chunk item s t → s.Inv n item → t.Inv n item :=
    fun _ _ => Step.inv
  refine ⟨exists_final (work n) hstep (fun _ _ => progress hchunk) hs.inv, fun t hrun hfin => ?_⟩
  have hinv := run_invariant hstep hrun hs.inv
  have hlog := hinv.log
  rw [hfin.computeStream, List.flatMap_nil, List.append_nil] at hlog
  rw [hlog, le_antisymm hinv.base hfin.base]

end Admission

/-! ### The writeback of a packed flush set -/

/-- Where the host stands in `wb_chunked_d2h_scatter`: at the head of the loop, after the copy of a
    chunk was queued, behind the last scatter. -/
inductive Pc where
  | head
  | body
  | exit
deriving DecidableEq

/-- The state of `wb_chunked_d2h_scatter`; `event` has the ticket an event was last recorded for. -/
structure D2hScatter (P : Type*) where
  pc : Pc
  offset : ℕ
  buf : Bool
  firstChunk : Bool
  prevAbsBase : ℕ
  prevM : ℕ
  prevBuf : Bool
  event : Bool → ℕ
  next : ℕ
  hostBuf : Bool → ℕ → P
  stream : List Piece
  log : List (ℕ × P)

/-- A count of zero stands for all records behind `start`. -/
def wbNumRecords (n start num : ℕ) : ℕ := if num = 0 then n - start else num

/-- About 6 MiB for each chunk, between 1 and 64 chunks. -/
def wbChunkElems (bytesPerElem num : ℕ) : ℕ :=
  let perChunk := 6 * 1024 * 1024
  let chunks := min 64 (max 1 ((num * bytesPerElem + perChunk - 1) / perChunk))
  max 1 ((num + chunks - 1) / chunks)

/-- `scatter_host_versions_range_from_packed_async_`: record `base + j` gets element `j`. -/
def scatterRange (base m : ℕ) (packed : ℕ → P) : List (ℕ × P) :=
  (List.range m).map fun j => (base + j, packed j)

theorem Piece.Held.scatterRange {p : Piece} {item buf : ℕ → P} (h : p.Held item buf) :
    scatterRange p.base p.m buf = p.items fun i => (i, item i) := by
  rw [Transfer.scatterRange, Piece.items]
  refine List.map_congr_left fun j hj => ?_
  rw [h j (List.mem_range.mp hj)]

namespace D2hScatter

variable (start num chunk : ℕ) (packed : ℕ → P)

/-- The previous chunk, which waits for its scatter. -/
def prev (s : D2hScatter P) : Piece := ⟨s.event s.prevBuf, s.prevBuf, s.prevAbsBase, s.prevM⟩

/-- The chunk at `offset`, queued for buffer `buf` with a ticket. -/
def chunkAt (s : D2hScatter P) (ticket : ℕ) : Piece :=
  ⟨ticket, s.buf, start + s.offset, min chunk (num - s.offset)⟩

/-- Queue the copy of the next chunk and record its event. -/
def queue (s : D2hScatter P) : D2hScatter P :=
  { s with
    pc := .body
    event := Function.update s.event s.buf s.next
    next := s.next + 1
    stream := s.stream ++ [s.chunkAt start num chunk s.next] }

/-- The device-to-host copy of a chunk. -/
def copy (s : D2hScatter P) (p : Piece) (rest : List Piece) : D2hScatter P :=
  { s with
    hostBuf := Function.update s.hostBuf p.buf
      (fill p.m (fun j => packed (p.base + j)) (s.hostBuf p.buf))
    stream := rest }

/-- Scatter the previous chunk. -/
def scatterPrev (s : D2hScatter P) : List (ℕ × P) :=
  scatterRange s.prevAbsBase s.prevM (s.hostBuf s.prevBuf)

/-- The rest of the loop's body: the previous chunk is scattered, then the chunk just queued becomes
    the previous one. -/
def turn (s : D2hScatter P) : D2hScatter P :=
  { s with
    pc := .head
    log := if s.firstChunk then s.log else s.log ++ s.scatterPrev
    prevAbsBase := start + s.offset
    prevM := min chunk (num - s.offset)
    prevBuf := s.buf
    firstChunk := false
    offset := s.offset + min chunk (num - s.offset)
    buf := !s.buf }

/-- Scatter the last chunk. -/
def finish (s : D2hScatter P) : D2hScatter P :=
  { s with pc := .exit, log := s.log ++ s.scatterPrev }

/-- The host waits for the event of the previous chunk before its scatter. -/
inductive Step : D2hScatter P → D2hScatter P → Prop
  | queue (s : D2hScatter P) : s.pc = .head → s.offset < num → Step s (s.queue start num chunk)
  | copy (s : D2hScatter P) {p : Piece} {rest : List Piece} : s.stream = p :: rest →
    Step s (s.copy packed p rest)
  | turn (s : D2hScatter P) : s.pc = .body →
    (s.firstChunk = false → ∀ p ∈ s.stream, p.ticket ≠ s.event s.prevBuf) →
    Step s (s.turn start num chunk)
  | finish (s : D2hScatter P) : s.pc = .head → num ≤ s.offset →
    (∀ p ∈ s.stream, p.ticket ≠ s.event s.prevBuf) → Step s s.finish

/-- A call begins with an idle stream, and returns at once when it has nothing to do. -/
structure Start (s : D2hScatter P) : Prop where
  pc : s.pc = if num = 0 then .exit else .head
  offset : s.offset = 0
  buf : s.buf = false
  firstChunk : s.firstChunk = true
  stream : s.stream = []
  log : s.log = []

/-- The chunks that are queued and not scattered, the older one first. -/
def live (s : D2hScatter P) : List Piece :=
  match s.pc with
  | .head => if s.firstChunk then [] else [s.prev]
  | .body => (if s.firstChunk then [] else [s.prev]) ++ [s.chunkAt start num chunk (s.event s.buf)]
  | .exit => []

/-- How many records the loop has taken. -/
def taken (s : D2hScatter P) : ℕ :=
  match s.pc with
  | .body => s.offset + min chunk (num - s.offset)
  | _ => s.offset

/-- The chunks in flight are apart, those whose copy has run are in their buffers, and with them the
    log is complete up to the records taken. -/
structure Inv (s : D2hScatter P) : Prop where
  offset : s.offset ≤ num
  ended : s.pc = .exit → s.offset = num
  busy : s.pc ≠ .exit → 0 < num
  inside : s.pc = .body → s.offset < num
  began : s.pc = .head → s.firstChunk = true → s.offset = 0
  other : s.firstChunk = false → s.pc ≠ .exit → s.prevBuf = !s.buf
  older : ∀ p ∈ s.live start num chunk, p.ticket < s.next
  apart : (s.live start num chunk).Pairwise Apart
  suffix : s.stream <:+ s.live start num chunk
  host : ∀ p ∈ s.live start num chunk, p ∉ s.stream → p.Held packed (s.hostBuf p.buf)
  log : s.log ++ (s.live start num chunk).flatMap (Piece.items fun i => (i, packed i)) =
    (List.range (s.taken num chunk)).map fun i => (start + i, packed (start + i))

variable {start num chunk packed}

theorem Start.inv {s : D2hScatter P} (h : s.Start num) : s.Inv start num chunk packed := by
  have hpc : s.pc = .exit ∨ s.pc = .head ∧ 0 < num := by
    rw [h.pc]
    split
    · exact .inl rfl
    · exact .inr ⟨rfl, by omega⟩
  have hlive : s.live start num chunk = [] := by
    rcases hpc with hpc | ⟨hpc, -⟩ <;> simp [live, hpc, h.firstChunk]
  have htaken : s.taken num chunk = 0 := by
    rcases hpc with hpc | ⟨hpc, -⟩ <;> simp [taken, hpc, h.offset]
  constructor
  · simp [h.offset]
  · intro hexit
    rw [h.pc] at hexit
    split at hexit
    · rename_i hnum
      rw [h.offset, hnum]
    · cases hexit
  · intro hne
    exact (hpc.resolve_left hne).2
  · intro hbody
    rcases hpc with hpc | ⟨hpc, -⟩ <;> simp [hpc] at hbody
  · exact fun _ _ => h.offset
  · simp [h.firstChunk]
  · simp [hlive]
  · simp [hlive]
  · simp [h.stream]
  · simp [hlive]
  · simp [hlive, htaken, h.log]

theorem live_queue {s : D2hScatter P} (h : s.Inv start num chunk packed) (hpc : s.pc = .head) :
    (s.queue start num chunk).live start num chunk =
      s.live start num chunk ++ [s.chunkAt start num chunk s.next] := by
  cases hf : s.firstChunk with
  | true => simp [live, queue, hpc, hf, chunkAt]
  | false =>
    have hne : s.prevBuf ≠ s.buf := by simp [h.other hf (by simp [hpc])]
    simp [live, queue, hpc, hf, chunkAt, prev, Function.update_of_ne hne]

theorem Inv.queue {s : D2hScatter P} (h : s.Inv start num chunk packed) (hpc : s.pc = .head)
    (hlt : s.offset < num) : (s.queue start num chunk).Inv start num chunk packed := by
  have hlive := live_queue h hpc
  have hbuf : ∀ p ∈ s.live start num chunk, p.buf ≠ s.buf := by
    intro p hp
    cases hf : s.firstChunk with
    | true => simp [live, hpc, hf] at hp
    | false =>
      simp only [live, hpc, hf, Bool.false_eq_true, if_false, List.mem_singleton] at hp
      simp [hp, prev, h.other hf (by simp [hpc])]
  refine ⟨h.offset, by simp [D2hScatter.queue], fun _ => h.busy (by simp [hpc]), fun _ => hlt,
    by simp [D2hScatter.queue], fun hf _ => h.other hf (by simp [hpc]), ?_, ?_, ?_, ?_, ?_⟩
  all_goals rw [hlive]
  · intro p hp
    rcases List.mem_append.mp hp with hp | hp
    · exact Nat.lt_succ_of_lt (h.older p hp)
    · rw [List.mem_singleton.mp hp]
      exact Nat.lt_succ_self _
  · refine List.pairwise_append.mpr ⟨h.apart, List.pairwise_singleton _ _, fun p hp q hq => ?_⟩
    rw [List.mem_singleton.mp hq]
    exact ⟨hbuf p hp, (h.older p hp).ne⟩
  · obtain ⟨l, hl⟩ := h.suffix
    exact ⟨l, by simp only [D2hScatter.queue, ← hl, List.append_assoc]⟩
  · intro p hp hs
    rcases List.mem_append.mp hp with hp | hp
    · exact h.host p hp fun hp' => hs (List.mem_append_left _ hp')
    · exact absurd (List.mem_append_right _ hp) hs
  · rw [List.flatMap_append, List.flatMap_singleton, ← List.append_assoc]
    have hlog := h.log
    simp only [taken, hpc] at hlog
    simp only [D2hScatter.queue, taken, hlog]
    rw [map_range_add, Piece.items]
    simp only [chunkAt, Nat.add_assoc]

theorem Inv.copy {s : D2hScatter P} (h : s.Inv start num chunk packed) {p : Piece}
    {rest : List Piece} (hs : s.stream = p :: rest) :
    (s.copy packed p rest).Inv start num chunk packed := by
  have hp : p ∈ s.live start num chunk := h.suffix.subset (by simp [hs])
  refine ⟨h.offset, h.ended, h.busy, h.inside, h.began, h.other, h.older, h.apart, ?_,
    fun q hq hc => ?_, h.log⟩
  · exact (List.suffix_cons p rest).trans (hs ▸ h.suffix)
  · by_cases hqp : q = p
    · subst hqp
      simp only [D2hScatter.copy, Function.update_self]
      exact Piece.held_fill _ fun j _ => rfl
    · have hbuf : q.buf ≠ p.buf := (h.apart.forall hq hp hqp).1
      simp only [D2hScatter.copy, Function.update_of_ne hbuf]
      refine h.host q hq fun hq' => ?_
      rw [hs] at hq'
      rcases List.mem_cons.mp hq' with rfl | hq'
      · exact hqp rfl
      · exact hc hq'

/-- Once its event has passed, the previous chunk is in its buffer, its copy is no longer queued and
    its scatter is that of its own records. -/
theorem Inv.prev_landed {s : D2hScatter P} (h : s.Inv start num chunk packed) {rest : List Piece}
    (hlive : s.live start num chunk = s.prev :: rest)
    (hwait : ∀ p ∈ s.stream, p.ticket ≠ s.event s.prevBuf) :
    s.stream <:+ rest ∧ s.scatterPrev = s.prev.items fun i => (i, packed i) := by
  have hnot : s.prev ∉ s.stream := fun hp => hwait s.prev hp rfl
  constructor
  · rcases List.suffix_cons_iff.mp (hlive ▸ h.suffix) with heq | hsub
    · exact absurd (heq ▸ List.mem_cons_self ..) hnot
    · exact hsub
  · exact (h.host s.prev (by simp [hlive]) hnot).scatterRange

theorem Inv.turn {s : D2hScatter P} (h : s.Inv start num chunk packed) (hpc : s.pc = .body)
    (hwait : s.firstChunk = false → ∀ p ∈ s.stream, p.ticket ≠ s.event s.prevBuf) :
    (s.turn start num chunk).Inv start num chunk packed := by
  have hcur : (s.turn start num chunk).live start num chunk =
      [s.chunkAt start num chunk (s.event s.buf)] := by
    simp [live, D2hScatter.turn, prev, chunkAt]
  have hlt := h.inside hpc
  have hmem : s.chunkAt start num chunk (s.event s.buf) ∈ s.live start num chunk := by
    simp [live, hpc]
  -- the log and the stream without the previous chunk, if there was one
  have hlog : (s.turn start num chunk).log ++
      Piece.items (fun i => (i, packed i)) (s.chunkAt start num chunk (s.event s.buf)) =
        (List.range (s.taken num chunk)).map (fun i => (start + i, packed (start + i))) ∧
      s.stream <:+ [s.chunkAt start num chunk (s.event s.buf)] := by
    have hall := h.log
    cases hf : s.firstChunk with
    | true =>
      have hlive : s.live start num chunk = [s.chunkAt start num chunk (s.event s.buf)] := by
        simp [live, hpc, hf]
      refine ⟨?_, hlive ▸ h.suffix⟩
      rw [hlive, List.flatMap_singleton] at hall
      simpa [D2hScatter.turn, hf] using hall
    | false =>
      have hlive : s.live start num chunk =
          s.prev :: [s.chunkAt start num chunk (s.event s.buf)] := by simp [live, hpc, hf]
      obtain ⟨hsub, hscatter⟩ := h.prev_landed hlive (hwait hf)
      refine ⟨?_, hsub⟩
      rw [hlive, List.flatMap_cons, List.flatMap_singleton] at hall
      simpa [D2hScatter.turn, hf, hscatter] using hall
  refine ⟨?_, by simp [D2hScatter.turn], fun _ => h.busy (by simp [hpc]), by simp [D2hScatter.turn],
    by simp [D2hScatter.turn], by simp [D2hScatter.turn], ?_, ?_, ?_, ?_, ?_⟩
  · simp only [D2hScatter.turn]
    omega
  all_goals rw [hcur]
  · intro p hp
    rw [List.mem_singleton.mp hp]
    exact h.older _ hmem
  · exact List.pairwise_singleton _ _
  · exact hlog.2
  · intro p hp hs
    rw [List.mem_singleton.mp hp] at hs ⊢
    exact h.host _ hmem hs
  · rw [List.flatMap_singleton, hlog.1]
    simp [taken, hpc, D2hScatter.turn]

theorem Inv.finish {s : D2hScatter P} (h : s.Inv start num chunk packed) (hpc : s.pc = .head)
    (hge : num ≤ s.offset) (hwait : ∀ p ∈ s.stream, p.ticket ≠ s.event s.prevBuf) :
    s.finish.Inv start num chunk packed := by
  have hoff : s.offset = num := le_antisymm h.offset hge
  have hf : s.firstChunk = false := by
    by_contra hf
    have h0 := h.began hpc (by simpa using hf)
    have := h.busy (by simp [hpc])
    omega
  have hlive : s.live start num chunk = s.prev :: [] := by simp [live, hpc, hf]
  obtain ⟨hsub, hscatter⟩ := h.prev_landed hlive hwait
  have hlog := h.log
  rw [hlive, List.flatMap_singleton, ← hscatter] at hlog
  refine ⟨h.offset, fun _ => hoff, by simp [D2hScatter.finish], by simp [D2hScatter.finish],
    by simp [D2hScatter.finish], by simp [D2hScatter.finish], by simp [live, D2hScatter.finish],
    by simp [live, D2hScatter.finish], hsub, by simp [live, D2hScatter.finish], ?_⟩
  simpa [live, taken, hpc, D2hScatter.finish] using hlog

theorem Step.inv {s t : D2hScatter P} (hstep : Step start num chunk packed s t)
    (h : s.Inv start num chunk packed) : t.Inv start num chunk packed := by
  cases hstep with
  | queue hpc hlt => exact h.queue hpc hlt
  | copy hs => exact h.copy hs
  | turn hpc hwait => exact h.turn hpc hwait
  | finish hpc hge hwait => exact h.finish hpc hge hwait

/-- The work a call has left. -/
def work (num : ℕ) (s : D2hScatter P) : ℕ :=
  4 * (num - s.offset) + s.stream.length +
    match s.pc with
    | .head => 3
    | .body => 1
    | .exit => 0

theorem Inv.progress (hchunk : 0 < chunk) {s : D2hScatter P}
    (h : s.Inv start num chunk packed) (hfin : ¬ s.pc = .exit) :
    ∃ t, Step start num chunk packed s t ∧ t.work num < s.work num := by
  cases hs : s.stream with
  | cons p rest =>
    refine ⟨_, .copy s hs, ?_⟩
    simp only [work, D2hScatter.copy, hs, List.length_cons]
    omega
  | nil =>
    cases hpc : s.pc with
    | exit => exact absurd hpc hfin
    | body =>
      have hlt := h.inside hpc
      refine ⟨_, .turn s hpc (by simp [hs]), ?_⟩
      simp only [work, D2hScatter.turn, hpc]
      omega
    | head =>
      by_cases hlt : s.offset < num
      · refine ⟨_, .queue s hpc hlt, ?_⟩
        simp only [work, D2hScatter.queue, hpc, List.length_append, List.length_singleton]
        omega
      · refine ⟨_, .finish s hpc (by omega) (by simp [hs]), ?_⟩
        simp only [work, D2hScatter.finish, hpc]
        omega

variable (start packed) in
/-- A call comes to its end, and in every order of the host and the stream it scatters the `num`
    records from `start` on, each once, in order and with the data of its own position. -/
theorem exact_of_start (hchunk : 0 < chunk) {s : D2hScatter P} (hs : s.Start num) :
    (∃ t, ReflTransGen (Step start num chunk packed) s t ∧ t.pc = .exit) ∧
      ∀ t, ReflTransGen (Step start num chunk packed) s t → t.pc = .exit →
        t.log = (List.range num).map fun i => (start + i, packed (start + i)) := by
  have hstep : ∀ s t : D2hScatter P, Step start num chunk packed s t →
      s.Inv start num chunk packed → t.Inv start num chunk packed := fun _ _ => Step.inv
  refine ⟨exists_final (work num) hstep (fun _ h => h.progress hchunk) hs.inv, fun t hrun hpc => ?_⟩
  have hinv := run_invariant hstep hrun hs.inv
  have hlog := hinv.log
  simpa [live, taken, hpc, hinv.ended hpc] using hlog

end D2hScatter

/-! ### The synchronous writeback -/

/-- An entry of the copy stream: the requests of a chunk to the device, or its packed records back. -/
inductive Copy where
  | h2d (p : Piece)
  | d2h (p : Piece)
deriving DecidableEq

/-- Where the host stands in `writeback_versions`: in the loop as above, or draining a buffer. -/
inductive WbPc where
  | head
  | body
  | drain (b : Bool)
  | exit
deriving DecidableEq

/-- The state of `writeback_versions`. A request is a GRID with its slot; `event` has the ticket the
    events of a buffer were last recorded for. -/
structure Writeback (R P : Type*) where
  pc : WbPc
  base : ℕ
  buf : Bool
  bufBase : Bool → ℕ
  bufLen : Bool → ℕ
  wbInFlight : Bool → Bool
  event : Bool → ℕ
  next : ℕ
  hostReq : Bool → ℕ → R
  devReq : Bool → ℕ → R
  devPacked : Bool → ℕ → P
  hostPacked : Bool → ℕ → P
  copyStream : List Copy
  computeStream : List Piece
  log : List (ℕ × P)

/-- The size of its chunks. -/
def writebackChunkElems (chunkBytes bytesPerElem : ℕ) : ℕ := max 1 (chunkBytes / bytesPerElem)

namespace Writeback

variable (n chunk : ℕ) (request : ℕ → R) (pack : R → P)

/-- The chunk that a buffer holds. -/
def piece (s : Writeback R P) (b : Bool) : Piece := ⟨s.event b, b, s.bufBase b, s.bufLen b⟩

/-- The chunk the loop takes next. -/
def nextPiece (s : Writeback R P) : Piece := ⟨s.next, s.buf, s.base, min chunk (n - s.base)⟩

/-- Queue the requests of the next chunk, its pack kernel and the copy of its packed records. -/
def queue (s : Writeback R P) : Writeback R P :=
  let p := s.nextPiece n chunk
  { s with
    pc := .body
    bufBase := Function.update s.bufBase s.buf s.base
    bufLen := Function.update s.bufLen s.buf p.m
    wbInFlight := Function.update s.wbInFlight s.buf true
    event := Function.update s.event s.buf s.next
    next := s.next + 1
    hostReq := Function.update s.hostReq s.buf
      (fill p.m (fun j => request (s.base + j)) (s.hostReq s.buf))
    copyStream := s.copyStream ++ [.h2d p, .d2h p]
    computeStream := s.computeStream ++ [p] }

/-- The requests of a chunk reach the device. -/
def copyIn (s : Writeback R P) (p : Piece) (rest : List Copy) : Writeback R P :=
  { s with
    devReq := Function.update s.devReq p.buf (fill p.m (s.hostReq p.buf) (s.devReq p.buf))
    copyStream := rest }

/-- The pack kernel of a chunk. -/
def compute (s : Writeback R P) (p : Piece) (rest : List Piece) : Writeback R P :=
  { s with
    devPacked := Function.update s.devPacked p.buf
      (fill p.m (fun j => pack (s.devReq p.buf j)) (s.devPacked p.buf))
    computeStream := rest }

/-- The packed records of a chunk reach the host. -/
def copyOut (s : Writeback R P) (p : Piece) (rest : List Copy) : Writeback R P :=
  { s with
    hostPacked := Function.update s.hostPacked p.buf
      (fill p.m (s.devPacked p.buf) (s.hostPacked p.buf))
    copyStream := rest }

/-- Scatter the chunk of a buffer, if it holds one. -/
def scatter (s : Writeback R P) (b : Bool) : Writeback R P :=
  if s.bufLen b = 0 then s
  else { s with
    log := s.log ++ scatterRange (s.bufBase b) (s.bufLen b) (s.hostPacked b)
    bufLen := Function.update s.bufLen b 0 }

/-- The host may read a buffer: it holds no chunk, or the copy of its chunk has ended. -/
def Ready (s : Writeback R P) (b : Bool) : Prop :=
  s.bufLen b ≠ 0 → ∀ p, .d2h p ∈ s.copyStream → p.ticket ≠ s.event b

/-- The rest of the loop's body: scatter the other buffer and turn to it. -/
def turn (s : Writeback R P) : Writeback R P :=
  { s.scatter !s.buf with
    pc := .head
    base := s.base + min chunk (n - s.base)
    buf := !s.buf }

/-- The host waits for a buffer's copy before it queues the next chunk for it and before it scatters
    it; a kernel waits for the requests of its chunk and the copy back for the kernel. -/
inductive Step : Writeback R P → Writeback R P → Prop
  | queue (s : Writeback R P) : s.pc = .head → s.base < n →
    (s.wbInFlight s.buf = true → ∀ p, .d2h p ∈ s.copyStream → p.ticket ≠ s.event s.buf) →
    Step s (s.queue n chunk request)
  | copyIn (s : Writeback R P) {p : Piece} {rest : List Copy} : s.copyStream = .h2d p :: rest →
    Step s (s.copyIn p rest)
  | compute (s : Writeback R P) {p : Piece} {rest : List Piece} : s.computeStream = p :: rest →
    (∀ q, .h2d q ∈ s.copyStream → q.ticket ≠ p.ticket) → Step s (s.compute pack p rest)
  | copyOut (s : Writeback R P) {p : Piece} {rest : List Copy} : s.copyStream = .d2h p :: rest →
    (∀ q ∈ s.computeStream, q.ticket ≠ p.ticket) → Step s (s.copyOut p rest)
  | turn (s : Writeback R P) : s.pc = .body → s.Ready !s.buf → Step s (s.turn n chunk)
  | leave (s : Writeback R P) : s.pc = .head → n ≤ s.base →
    Step s { s with pc := .drain false }
  | drain (s : Writeback R P) {b : Bool} : s.pc = .drain b → s.Ready b →
    Step s { s.scatter b with pc := if b then .exit else .drain true }

/-- A call begins with empty streams and buffers that hold no chunk. -/
structure Start (s : Writeback R P) : Prop where
  pc : s.pc = .head
  base : s.base = 0
  bufLen : ∀ b, s.bufLen b = 0
  copyStream : s.copyStream = []
  computeStream : s.computeStream = []
  log : s.log = []

/-- The chunks that are queued and not scattered, the older one first. -/
def live (s : Writeback R P) : List Piece :=
  ([!s.buf, s.buf].filter fun b => s.bufLen b ≠ 0).map s.piece

/-- How many records the loop has taken. -/
def taken (s : Writeback R P) : ℕ :=
  match s.pc with
  | .body => s.base + min chunk (n - s.base)
  | _ => s.base

/-- The chunks in flight are apart, the streams have their entries in order, and each chunk is in the
    buffer of the stage it has reached. -/
structure Flight (s : Writeback R P) (live : List Piece) : Prop where
  older : ∀ p ∈ live, p.ticket < s.next
  order : live.Pairwise fun p q => p.ticket < q.ticket
  apart : live.Pairwise Apart
  copies : s.copyStream <:+ live.flatMap fun p => [Copy.h2d p, Copy.d2h p]
  kernels : s.computeStream <:+ live
  packing : ∀ p ∈ s.computeStream, Copy.d2h p ∈ s.copyStream
  hostReq : ∀ p ∈ live, Copy.h2d p ∈ s.copyStream → p.Held request (s.hostReq p.buf)
  devReq : ∀ p ∈ s.computeStream, Copy.h2d p ∉ s.copyStream → p.Held request (s.devReq p.buf)
  devPacked : ∀ p ∈ live, p ∉ s.computeStream → Copy.d2h p ∈ s.copyStream →
    p.Held (fun i => pack (request i)) (s.devPacked p.buf)
  hostPacked : ∀ p ∈ live, Copy.d2h p ∉ s.copyStream →
    p.Held (fun i => pack (request i)) (s.hostPacked p.buf)

/-- With the chunks in flight the log is complete up to the records taken. -/
structure Inv (s : Writeback R P) : Prop where
  base : s.base ≤ n
  body : s.pc = .body → s.base < n ∧ s.bufBase s.buf = s.base ∧
    s.bufLen s.buf = min chunk (n - s.base)
  idle : s.pc ≠ .body → s.bufLen s.buf = 0
  left : s.pc ≠ .head → s.pc ≠ .body → s.base = n
  drained : s.pc = .drain true → s.bufLen false = 0
  ended : s.pc = .exit → ∀ b, s.bufLen b = 0
  flight : s.Flight request pack s.live
  log : s.log ++ s.live.flatMap (Piece.items fun i => (i, pack (request i))) =
    (List.range (s.taken n chunk)).map fun i => (i, pack (request i))

variable {n chunk request pack}

theorem live_of_idle {s : Writeback R P} (h : s.bufLen s.buf = 0) :
    s.live = if s.bufLen (!s.buf) = 0 then [] else [s.piece !s.buf] := by
  by_cases h' : s.bufLen (!s.buf) = 0 <;> simp [live, h, h']

theorem live_of_busy {s : Writeback R P} (h : s.bufLen s.buf ≠ 0) :
    s.live = (if s.bufLen (!s.buf) = 0 then [] else [s.piece !s.buf]) ++ [s.piece s.buf] := by
  by_cases h' : s.bufLen (!s.buf) = 0 <;> simp [live, h, h']

theorem Start.inv {s : Writeback R P} (h : s.Start) : s.Inv n chunk request pack := by
  have hlive : s.live = [] := by rw [live_of_idle (h.bufLen _), if_pos (h.bufLen _)]
  refine ⟨by simp [h.base], by simp [h.pc], fun _ => h.bufLen _, by simp [h.pc], by simp [h.pc],
    by simp [h.pc], ?_, ?_⟩
  · rw [hlive]
    exact ⟨by simp, by simp, by simp, by simp [h.copyStream], by simp [h.computeStream],
      by simp [h.computeStream], by simp, by simp [h.computeStream], by simp, by simp⟩
  · simp [hlive, h.log, taken, h.pc, h.base]

theorem mem_copies {s : Writeback R P} {live : List Piece} (h : s.Flight request pack live)
    {p : Piece} (hp : Copy.h2d p ∈ s.copyStream ∨ Copy.d2h p ∈ s.copyStream) : p ∈ live := by
  have hsub : ∀ c ∈ s.copyStream, ∃ q ∈ live, c = .h2d q ∨ c = .d2h q := by
    intro c hc
    simpa using h.copies.subset hc
  rcases hp with hp | hp
  · obtain ⟨q, hq, heq | heq⟩ := hsub _ hp
    · cases heq
      exact hq
    · cases heq
  · obtain ⟨q, hq, heq | heq⟩ := hsub _ hp
    · cases heq
    · cases heq
      exact hq

theorem Flight.queue {s : Writeback R P} {live : List Piece} (h : s.Flight request pack live)
    (hfree : ∀ p ∈ live, p.buf ≠ s.buf) :
    (s.queue n chunk request).Flight request pack (live ++ [s.nextPiece n chunk]) := by
  have hnew : s.nextPiece n chunk ∉ live := fun hp => hfree _ hp rfl
  constructor
  · intro p hp
    rcases List.mem_append.mp hp with hp | hp
    · exact Nat.lt_succ_of_lt (h.older p hp)
    · rw [List.mem_singleton.mp hp]
      exact Nat.lt_succ_self _
  · refine List.pairwise_append.mpr ⟨h.order, List.pairwise_singleton _ _, fun p hp q hq => ?_⟩
    rw [List.mem_singleton.mp hq]
    exact h.older p hp
  · refine List.pairwise_append.mpr ⟨h.apart, List.pairwise_singleton _ _, fun p hp q hq => ?_⟩
    rw [List.mem_singleton.mp hq]
    exact ⟨hfree p hp, (h.older p hp).ne⟩
  · obtain ⟨l, hl⟩ := h.copies
    refine ⟨l, ?_⟩
    rw [List.flatMap_append, List.flatMap_singleton, ← hl, List.append_assoc]
    rfl
  · obtain ⟨l, hl⟩ := h.kernels
    exact ⟨l, by simp only [Writeback.queue, ← hl, List.append_assoc]⟩
  · intro p hp
    rcases List.mem_append.mp hp with hp | hp
    · exact List.mem_append_left _ (h.packing p hp)
    · rw [List.mem_singleton.mp hp]
      exact List.mem_append_right _ (by simp)
  · intro p hp hc
    rcases List.mem_append.mp hp with hp | hp
    · simp only [Writeback.queue, Function.update_of_ne (hfree p hp)]
      refine h.hostReq p hp ?_
      rcases List.mem_append.mp hc with hc | hc
      · exact hc
      · simp only [List.mem_cons, Copy.h2d.injEq, reduceCtorEq, List.not_mem_nil, or_self,
          or_false] at hc
        exact absurd (hc ▸ hp) hnew
    · rw [List.mem_singleton.mp hp]
      simp only [Writeback.queue, nextPiece, Function.update_self]
      exact Piece.held_fill _ fun j _ => rfl
  · intro p hp hc
    rcases List.mem_append.mp hp with hp | hp
    · exact h.devReq p hp fun hc' => hc (List.mem_append_left _ hc')
    · rw [List.mem_singleton.mp hp] at hc
      exact absurd (List.mem_append_right _ (by simp)) hc
  · intro p hp hk hc
    rcases List.mem_append.mp hp with hp | hp
    · refine h.devPacked p hp (fun hk' => hk (List.mem_append_left _ hk')) ?_
      rcases List.mem_append.mp hc with hc | hc
      · exact hc
      · simp only [List.mem_cons, Copy.d2h.injEq, reduceCtorEq, List.not_mem_nil, false_or,
          or_false] at hc
        exact absurd (hc ▸ hp) hnew
    · exact absurd (List.mem_append_right _ hp) hk
  · intro p hp hc
    rcases List.mem_append.mp hp with hp | hp
    · exact h.hostPacked p hp fun hc' => hc (List.mem_append_left _ hc')
    · rw [List.mem_singleton.mp hp] at hc
      exact absurd (List.mem_append_right _ (by simp)) hc

theorem Flight.copyIn {s : Writeback R P} {live : List Piece} (h : s.Flight request pack live)
    {p : Piece} {rest : List Copy} (hs : s.copyStream = .h2d p :: rest) :
    (s.copyIn p rest).Flight request pack live := by
  have hp : p ∈ live := mem_copies h (.inl (by simp [hs]))
  have hrest : ∀ c ∈ rest, c ∈ s.copyStream := fun c hc => by simp [hs, hc]
  have hout : ∀ q, Copy.d2h q ∈ s.copyStream → Copy.d2h q ∈ rest := fun q hq => by
    simpa [hs] using hq
  refine ⟨h.older, h.order, h.apart, (List.suffix_cons _ rest).trans (hs ▸ h.copies), h.kernels,
    fun q hq => hout q (h.packing q hq), fun q hq hc => h.hostReq q hq (hrest _ hc),
    fun q hq hc => ?_, fun q hq hk hc => h.devPacked q hq hk (hrest _ hc),
    fun q hq hc => h.hostPacked q hq fun hc' => hc (hout q hc')⟩
  by_cases hqp : q = p
  · subst hqp
    simp only [Writeback.copyIn, Function.update_self]
    exact Piece.held_fill _ (h.hostReq q hp (by simp [hs]))
  · have hbuf : q.buf ≠ p.buf := (h.apart.forall (h.kernels.subset hq) hp hqp).1
    simp only [Writeback.copyIn, Function.update_of_ne hbuf]
    refine h.devReq q hq fun hq' => ?_
    rw [hs] at hq'
    rcases List.mem_cons.mp hq' with heq | hq'
    · exact hqp (Copy.h2d.inj heq)
    · exact hc hq'

theorem Flight.compute {s : Writeback R P} {live : List Piece} (h : s.Flight request pack live)
    {p : Piece} {rest : List Piece} (hs : s.computeStream = p :: rest)
    (hwait : ∀ q, .h2d q ∈ s.copyStream → q.ticket ≠ p.ticket) :
    (s.compute pack p rest).Flight request pack live := by
  have hpk : p ∈ s.computeStream := by simp [hs]
  have hrest : ∀ q ∈ rest, q ∈ s.computeStream := fun q hq => by simp [hs, hq]
  have hreq := h.devReq p hpk fun hc => hwait p hc rfl
  refine ⟨h.older, h.order, h.apart, h.copies, (List.suffix_cons p rest).trans (hs ▸ h.kernels),
    fun q hq => h.packing q (hrest q hq), h.hostReq, fun q hq => h.devReq q (hrest q hq),
    fun q hq hk hc => ?_, h.hostPacked⟩
  by_cases hqp : q = p
  · subst hqp
    simp only [Writeback.compute, Function.update_self]
    refine Piece.held_fill _ fun j hj => ?_
    rw [hreq j hj]
  · have hbuf : q.buf ≠ p.buf := (h.apart.forall hq (h.kernels.subset hpk) hqp).1
    simp only [Writeback.compute, Function.update_of_ne hbuf]
    refine h.devPacked q hq (fun hq' => ?_) hc
    rw [hs] at hq'
    rcases List.mem_cons.mp hq' with heq | hq'
    · exact hqp heq
    · exact hk hq'

theorem Flight.copyOut {s : Writeback R P} {live : List Piece} (h : s.Flight request pack live)
    {p : Piece} {rest : List Copy} (hs : s.copyStream = .d2h p :: rest)
    (hwait : ∀ q ∈ s.computeStream, q.ticket ≠ p.ticket) :
    (s.copyOut p rest).Flight request pack live := by
  have hp : p ∈ live := mem_copies h (.inr (by simp [hs]))
  have hnot : p ∉ s.computeStream := fun hk => hwait p hk rfl
  have hrest : ∀ c ∈ rest, c ∈ s.copyStream := fun c hc => by simp [hs, hc]
  have hin : ∀ q, Copy.h2d q ∈ s.copyStream → Copy.h2d q ∈ rest := fun q hq => by
    simpa [hs] using hq
  have hpacked := h.devPacked p hp hnot (by simp [hs])
  refine ⟨h.older, h.order, h.apart, (List.suffix_cons _ rest).trans (hs ▸ h.copies), h.kernels,
    fun q hq => ?_, fun q hq hc => h.hostReq q hq (hrest _ hc),
    fun q hq hc => h.devReq q hq fun hc' => hc (hin q hc'),
    fun q hq hk hc => h.devPacked q hq hk (hrest _ hc), fun q hq hc => ?_⟩
  · have hq' := h.packing q hq
    rw [hs] at hq'
    rcases List.mem_cons.mp hq' with heq | hq'
    · exact absurd (Copy.d2h.inj heq ▸ hq) hnot
    · exact hq'
  · by_cases hqp : q = p
    · subst hqp
      simp only [Writeback.copyOut, Function.update_self]
      exact Piece.held_fill _ hpacked
    · have hbuf : q.buf ≠ p.buf := (h.apart.forall hq hp hqp).1
      simp only [Writeback.copyOut, Function.update_of_ne hbuf]
      refine h.hostPacked q hq fun hq' => ?_
      rw [hs] at hq'
      rcases List.mem_cons.mp hq' with heq | hq'
      · exact hqp (Copy.d2h.inj heq)
      · exact hc hq'

/-- Once its copy back has ended, the oldest chunk can be scattered and leaves no entry behind. -/
theorem Flight.pop {s : Writeback R P} {p : Piece} {live : List Piece}
    (h : s.Flight request pack (p :: live))
    (hwait : ∀ q, .d2h q ∈ s.copyStream → q.ticket ≠ p.ticket) :
    s.Flight request pack live ∧
      scatterRange p.base p.m (s.hostPacked p.buf) = p.items fun i => (i, pack (request i)) := by
  have hout : Copy.d2h p ∉ s.copyStream := fun hc => hwait p hc rfl
  have hnot : p ∉ s.computeStream := fun hk => hout (h.packing p hk)
  have hmem : ∀ q ∈ live, q ∈ p :: live := fun q hq => List.mem_cons_of_mem _ hq
  have hcopies : s.copyStream <:+ live.flatMap fun p => [Copy.h2d p, Copy.d2h p] := by
    have hall := h.copies
    rw [List.flatMap_cons] at hall
    rcases List.suffix_cons_iff.mp hall with heq | hall
    · exact absurd (heq ▸ by simp) hout
    · rcases List.suffix_cons_iff.mp hall with heq | hall
      · exact absurd (heq ▸ by simp) hout
      · exact hall
  have hkernels : s.computeStream <:+ live := by
    rcases List.suffix_cons_iff.mp h.kernels with heq | hall
    · exact absurd (heq ▸ by simp) hnot
    · exact hall
  refine ⟨⟨fun q hq => h.older q (hmem q hq), (List.pairwise_cons.mp h.order).2,
    (List.pairwise_cons.mp h.apart).2, hcopies, hkernels, h.packing,
    fun q hq => h.hostReq q (hmem q hq), h.devReq, fun q hq => h.devPacked q (hmem q hq),
    fun q hq => h.hostPacked q (hmem q hq)⟩, ?_⟩
  exact (h.hostPacked p (by simp) hout).scatterRange

/-- The streams and their buffers are all that `Flight` speaks of. -/
theorem Flight.congr {s t : Writeback R P} {live : List Piece} (h : s.Flight request pack live)
    (hnext : t.next = s.next) (hcopy : t.copyStream = s.copyStream)
    (hcompute : t.computeStream = s.computeStream) (hhr : t.hostReq = s.hostReq)
    (hdr : t.devReq = s.devReq) (hdp : t.devPacked = s.devPacked)
    (hhp : t.hostPacked = s.hostPacked) : t.Flight request pack live := by
  constructor
  · exact hnext ▸ h.older
  · exact h.order
  · exact h.apart
  · exact hcopy ▸ h.copies
  · exact hcompute ▸ h.kernels
  · exact hcompute ▸ hcopy ▸ h.packing
  · exact hhr ▸ hcopy ▸ h.hostReq
  · exact hdr ▸ hcompute ▸ hcopy ▸ h.devReq
  · exact hdp ▸ hcompute ▸ hcopy ▸ h.devPacked
  · exact hhp ▸ hcopy ▸ h.hostPacked

/-- Scattering the buffer `b` whose chunk is the oldest in flight, or that holds none. -/
theorem Flight.scatter {s : Writeback R P} {b : Bool} {live : List Piece}
    (h : s.Flight request pack ((if s.bufLen b = 0 then [] else [s.piece b]) ++ live))
    (hready : s.Ready b) :
    (s.scatter b).Flight request pack live ∧
      (s.scatter b).log ++ live.flatMap (Piece.items fun i => (i, pack (request i))) =
        s.log ++ ((if s.bufLen b = 0 then [] else [s.piece b]) ++ live).flatMap
          (Piece.items fun i => (i, pack (request i))) := by
  by_cases hlen : s.bufLen b = 0
  · rw [if_pos hlen] at h ⊢
    simp only [Writeback.scatter, if_pos hlen]
    exact ⟨h, rfl⟩
  · rw [if_neg hlen] at h ⊢
    obtain ⟨hflight, hscatter⟩ := Flight.pop h (hready hlen)
    simp only [Writeback.scatter, if_neg hlen]
    refine ⟨hflight.congr rfl rfl rfl rfl rfl rfl rfl, ?_⟩
    rw [List.flatMap_append, List.flatMap_singleton, ← hscatter, List.append_assoc]
    rfl

theorem Inv.queue (hchunk : 0 < chunk) {s : Writeback R P} (h : s.Inv n chunk request pack)
    (hpc : s.pc = .head) (hlt : s.base < n) :
    (s.queue n chunk request).Inv n chunk request pack := by
  have hidle : s.bufLen s.buf = 0 := h.idle (by simp [hpc])
  have hm : min chunk (n - s.base) ≠ 0 := by omega
  have hother : (!s.buf) ≠ s.buf := by simp
  have hold := live_of_idle hidle
  have hlive : (s.queue n chunk request).live = s.live ++ [s.nextPiece n chunk] := by
    rw [live_of_busy (by simpa [Writeback.queue, nextPiece] using hm), hold]
    simp only [Writeback.queue, piece, nextPiece, Function.update_of_ne hother,
      Function.update_self]
  have hfree : ∀ p ∈ s.live, p.buf ≠ s.buf := by
    intro p hp
    rw [hold] at hp
    split at hp
    · simp at hp
    · simp [List.mem_singleton.mp hp, piece]
  refine ⟨h.base, fun _ => ⟨hlt, by simp [Writeback.queue], by simp [Writeback.queue, nextPiece]⟩,
    by simp [Writeback.queue], by simp [Writeback.queue], by simp [Writeback.queue],
    by simp [Writeback.queue], ?_, ?_⟩
  · rw [hlive]
    exact h.flight.queue hfree
  · have hlog := h.log
    simp only [taken, hpc] at hlog
    rw [hlive, List.flatMap_append, List.flatMap_singleton, ← List.append_assoc]
    simp only [Writeback.queue, taken, hlog]
    rw [map_range_add]
    rfl

theorem Inv.turn (hchunk : 0 < chunk) {s : Writeback R P} (h : s.Inv n chunk request pack)
    (hpc : s.pc = .body) (hready : s.Ready !s.buf) :
    (s.turn n chunk).Inv n chunk request pack := by
  obtain ⟨hlt, hbase, hlen⟩ := h.body hpc
  have hbusy : s.bufLen s.buf ≠ 0 := by omega
  have hzero : (s.scatter !s.buf).bufLen (!s.buf) = 0 := by
    by_cases h0 : s.bufLen (!s.buf) = 0 <;> simp [Writeback.scatter, h0]
  have hkeep : (s.scatter !s.buf).bufLen s.buf = s.bufLen s.buf := by
    by_cases h0 : s.bufLen (!s.buf) = 0 <;> simp [Writeback.scatter, h0]
  have hpiece : (s.scatter !s.buf).piece s.buf = s.piece s.buf := by
    by_cases h0 : s.bufLen (!s.buf) = 0 <;> simp [Writeback.scatter, h0, piece]
  have hlive : (s.turn n chunk).live = [s.piece s.buf] := by
    have hb : ¬ (s.turn n chunk).bufLen (!(s.turn n chunk).buf) = 0 := by
      simpa [Writeback.turn, hkeep] using hbusy
    rw [live_of_idle (by simpa [Writeback.turn] using hzero), if_neg hb, ← hpiece]
    simp [Writeback.turn, piece]
  have hflight := h.flight
  have hlog := h.log
  rw [live_of_busy hbusy] at hflight hlog
  obtain ⟨hf, hl⟩ := Flight.scatter hflight hready
  refine ⟨?_, by simp [Writeback.turn], fun _ => by simpa [Writeback.turn] using hzero,
    by simp [Writeback.turn], by simp [Writeback.turn], by simp [Writeback.turn], ?_, ?_⟩
  · simp only [Writeback.turn]
    omega
  · rw [hlive]
    exact hf.congr rfl rfl rfl rfl rfl rfl rfl
  · rw [hlive]
    simp only [taken, hpc] at hlog
    simp only [Writeback.turn, taken, hl, hlog]

theorem Inv.leave {s : Writeback R P} (h : s.Inv n chunk request pack) (hpc : s.pc = .head)
    (hge : n ≤ s.base) : Inv n chunk request pack { s with pc := .drain false } := by
  have hlog := h.log
  simp only [taken, hpc] at hlog
  exact ⟨h.base, by simp, fun _ => h.idle (by simp [hpc]), fun _ _ => le_antisymm h.base hge,
    by simp, by simp, h.flight.congr rfl rfl rfl rfl rfl rfl rfl, hlog⟩

theorem Inv.drain {s : Writeback R P} {b : Bool} (h : s.Inv n chunk request pack)
    (hpc : s.pc = .drain b) (hready : s.Ready b) :
    Inv n chunk request pack { s.scatter b with pc := if b then .exit else .drain true } := by
  have hidle : s.bufLen s.buf = 0 := h.idle (by simp [hpc])
  have hbase : s.base = n := h.left (by simp [hpc]) (by simp [hpc])
  have hlog := h.log
  have hflight := h.flight
  simp only [taken, hpc] at hlog
  generalize hs' : s.scatter b = s'
  have hbuf : s'.buf = s.buf := by
    by_cases h0 : s.bufLen b = 0 <;> simp [← hs', Writeback.scatter, h0]
  have hb' : s'.base = s.base := by
    by_cases h0 : s.bufLen b = 0 <;> simp [← hs', Writeback.scatter, h0]
  have hzero : s'.bufLen b = 0 := by
    by_cases h0 : s.bufLen b = 0 <;> simp [← hs', Writeback.scatter, h0]
  have hle : ∀ c, s.bufLen c = 0 → s'.bufLen c = 0 := by
    intro c hc
    by_cases hcb : c = b
    · rw [hcb, hzero]
    · by_cases h0 : s.bufLen b = 0 <;> simp [← hs', Writeback.scatter, h0, hcb, hc]
  have hpc' : ((if b then .exit else .drain true : WbPc) = .drain true) → b = false := by
    cases b <;> simp
  -- the buffer of the last chunk is scattered here or was before; the other one is empty
  have hmain : Flight request pack s' s'.live ∧
      s'.log ++ s'.live.flatMap (Piece.items fun i => (i, pack (request i))) =
        s.log ++ s.live.flatMap (Piece.items fun i => (i, pack (request i))) := by
    by_cases hbb : b = s.buf
    · have hsame : s' = s := by rw [← hs', Writeback.scatter, if_pos (hbb ▸ hidle)]
      rw [hsame]
      exact ⟨hflight, rfl⟩
    · have hother : b = !s.buf := by
        revert hbb
        cases b <;> cases s.buf <;> simp
      have hlive' : s'.live = [] := by
        rw [live_of_idle (by rw [hbuf]; exact hle _ hidle), if_pos]
        rw [hbuf, ← hother]
        exact hzero
      rw [live_of_idle hidle, ← hother, ← List.append_nil (ite _ _ _)] at hflight ⊢
      rw [hlive', ← hs']
      exact Flight.scatter hflight hready
  refine ⟨?_, ?_, fun _ => ?_, fun _ _ => ?_, fun hd => ?_, fun hexit c => ?_, ?_, ?_⟩
  · exact hb'.trans_le hbase.le
  · cases b <;> simp
  · simpa [hbuf] using hle _ hidle
  · exact hb'.trans hbase
  · have := hpc' hd
    subst this
    exact hzero
  · cases b with
    | false => simp at hexit
    | true =>
      cases c with
      | true => exact hzero
      | false => exact hle _ (h.drained hpc)
  · exact hmain.1.congr rfl rfl rfl rfl rfl rfl rfl
  · have htaken : Writeback.taken n chunk
        { s' with pc := if b then WbPc.exit else WbPc.drain true } = s.base := by
      cases b <;> simp [taken, hb']
    rw [htaken, ← hlog]
    exact hmain.2

theorem Step.inv (hchunk : 0 < chunk) {s t : Writeback R P}
    (hstep : Step n chunk request pack s t) (h : s.Inv n chunk request pack) :
    t.Inv n chunk request pack := by
  cases hstep with
  | queue hpc hlt _ => exact h.queue hchunk hpc hlt
  | copyIn hs =>
    exact ⟨h.base, h.body, h.idle, h.left, h.drained, h.ended, h.flight.copyIn hs, h.log⟩
  | compute hs hwait =>
    exact ⟨h.base, h.body, h.idle, h.left, h.drained, h.ended, h.flight.compute hs hwait, h.log⟩
  | copyOut hs hwait =>
    exact ⟨h.base, h.body, h.idle, h.left, h.drained, h.ended, h.flight.copyOut hs hwait, h.log⟩
  | turn hpc hready => exact h.turn hchunk hpc hready
  | leave hpc hge => exact h.leave hpc hge
  | drain hpc hready => exact h.drain hpc hready

/-- The place of an entry in the order in which the copy stream was filled. -/
def place : Copy → ℕ
  | .h2d p => 2 * p.ticket
  | .d2h p => 2 * p.ticket + 1

theorem Flight.copies_sorted {s : Writeback R P} {live : List Piece}
    (h : s.Flight request pack live) :
    s.copyStream.Pairwise fun c d => place c < place d := by
  refine List.Pairwise.sublist h.copies.sublist (List.pairwise_flatMap.mpr ⟨fun p _ => ?_, ?_⟩)
  · simp [place]
  · refine h.order.imp fun {p q} hpq c hc d hd => ?_
    simp only [List.mem_cons, List.not_mem_nil, or_false] at hc hd
    rcases hc with rfl | rfl <;> rcases hd with rfl | rfl <;> simp only [place] <;> omega

/-- A stream with entries can always go on. -/
theorem Flight.progress {s : Writeback R P} {live : List Piece} (h : s.Flight request pack live)
    (hbusy : s.copyStream ≠ [] ∨ s.computeStream ≠ []) :
    (∃ p rest, s.copyStream = .h2d p :: rest) ∨
    (∃ p rest, s.computeStream = p :: rest ∧
      ∀ q, .h2d q ∈ s.copyStream → q.ticket ≠ p.ticket) ∨
    (∃ p rest, s.copyStream = .d2h p :: rest ∧ ∀ q ∈ s.computeStream, q.ticket ≠ p.ticket) := by
  cases hc : s.copyStream with
  | nil =>
    cases hk : s.computeStream with
    | nil => simp [hc, hk] at hbusy
    | cons p rest => exact .inr (.inl ⟨p, rest, rfl, by simp⟩)
  | cons c rest =>
    cases c with
    | h2d p => exact .inl ⟨p, rest, rfl⟩
    | d2h p =>
      by_cases hwait : ∀ q ∈ s.computeStream, q.ticket ≠ p.ticket
      · exact .inr (.inr ⟨p, rest, rfl, hwait⟩)
      · push Not at hwait
        obtain ⟨q, hq, hqp⟩ := hwait
        have hsorted := h.copies_sorted
        have horder := List.Pairwise.sublist h.kernels.sublist h.order
        cases hk : s.computeStream with
        | nil => simp [hk] at hq
        | cons k ks =>
          -- the first kernel is not behind `p`, and no requests up to `p` are left
          rw [hk] at hq horder
          rw [hc] at hsorted
          have hkq : k.ticket ≤ q.ticket := by
            rcases List.mem_cons.mp hq with rfl | hq
            · exact le_rfl
            · exact ((List.pairwise_cons.mp horder).1 q hq).le
          refine .inr (.inl ⟨k, ks, rfl, fun x hx heq => ?_⟩)
          rcases List.mem_cons.mp hx with hx | hx
          · cases hx
          · have := (List.pairwise_cons.mp hsorted).1 _ hx
            simp only [place] at this
            omega

/-- The work a call has left. -/
def work (n : ℕ) (s : Writeback R P) : ℕ :=
  8 * (n - s.base) + s.copyStream.length + s.computeStream.length +
    match s.pc with
    | .head => 6
    | .body => 2
    | .drain false => 2
    | .drain true => 1
    | .exit => 0

theorem scatter_base (s : Writeback R P) (b : Bool) : (s.scatter b).base = s.base := by
  by_cases h : s.bufLen b = 0 <;> simp [scatter, h]

theorem scatter_streams (s : Writeback R P) (b : Bool) :
    (s.scatter b).copyStream = s.copyStream ∧ (s.scatter b).computeStream = s.computeStream := by
  by_cases h : s.bufLen b = 0 <;> simp [scatter, h]

theorem Inv.progress (hchunk : 0 < chunk) {s : Writeback R P} (h : s.Inv n chunk request pack)
    (hfin : ¬ s.pc = .exit) :
    ∃ t, Step n chunk request pack s t ∧ t.work n < s.work n := by
  by_cases hbusy : s.copyStream ≠ [] ∨ s.computeStream ≠ []
  · rcases h.flight.progress hbusy with ⟨p, rest, hs⟩ | ⟨p, rest, hs, hwait⟩ | ⟨p, rest, hs, hwait⟩
    · refine ⟨_, .copyIn s hs, ?_⟩
      simp only [work, Writeback.copyIn, hs, List.length_cons]
      omega
    · refine ⟨_, .compute s hs hwait, ?_⟩
      simp only [work, Writeback.compute, hs, List.length_cons]
      omega
    · refine ⟨_, .copyOut s hs hwait, ?_⟩
      simp only [work, Writeback.copyOut, hs, List.length_cons]
      omega
  · push Not at hbusy
    have hready : ∀ b, s.Ready b := fun b _ => by simp [hbusy.1]
    cases hpc : s.pc with
    | exit => exact absurd hpc hfin
    | head =>
      by_cases hlt : s.base < n
      · refine ⟨_, .queue s hpc hlt (by simp [hbusy.1]), ?_⟩
        simp only [work, Writeback.queue, hpc, List.length_append, List.length_cons,
          List.length_nil]
        omega
      · refine ⟨_, .leave s hpc (by omega), ?_⟩
        simp only [work, hpc]
        omega
    | body =>
      have hlt := (h.body hpc).1
      refine ⟨_, .turn s hpc (hready _), ?_⟩
      simp only [work, Writeback.turn, hpc, scatter_streams]
      omega
    | drain b =>
      refine ⟨_, .drain s hpc (hready _), ?_⟩
      cases b <;> simp [work, hpc, scatter_streams, scatter_base]

/-- A call comes to its end, and in every order of the host and the two streams it scatters every
    record of the flush set once, in order and with the data packed for its own position. -/
theorem exact_of_start (hchunk : 0 < chunk) {s : Writeback R P} (hs : s.Start) :
    (∃ t, ReflTransGen (Step n chunk request pack) s t ∧ t.pc = .exit) ∧
      ∀ t, ReflTransGen (Step n chunk request pack) s t → t.pc = .exit →
        t.log = (List.range n).map fun i => (i, pack (request i)) := by
  have hstep : ∀ s t : Writeback R P, Step n chunk request pack s t →
      s.Inv n chunk request pack → t.Inv n chunk request pack := fun _ _ => Step.inv hchunk
  refine ⟨exists_final (work n) hstep (fun _ h => h.progress hchunk) hs.inv, fun t hrun hpc => ?_⟩
  have hinv := run_invariant hstep hrun hs.inv
  have hlive : t.live = [] := by
    rw [live_of_idle (hinv.ended hpc _), if_pos (hinv.ended hpc _)]
  have hlog := hinv.log
  simpa [hlive, taken, hpc, hinv.left (by simp [hpc]) (by simp [hpc])] using hlog

end Writeback

/-! ### The halves of the flush worker -/

theorem chunkElems_pos (chunkBytes bytesPerElem n : ℕ) :
    0 < transferChunkElems chunkBytes bytesPerElem n ∧
      0 < writebackChunkElems chunkBytes bytesPerElem ∧ 0 < wbChunkElems bytesPerElem n :=
  ⟨Nat.lt_of_lt_of_le Nat.one_pos (le_max_left ..), Nat.lt_of_lt_of_le Nat.one_pos (le_max_left ..),
    Nat.lt_of_lt_of_le Nat.one_pos (le_max_left ..)⟩

/-- The path without chunks: one gather, one copy and one kernel for all records. -/
def unchunked (n : ℕ) (item : ℕ → P) : List P := (List.range n).map item

/-- `transfer_versions` comes to its end and does what the path without chunks does. -/
def AdmissionExact (chunk n : ℕ) (item : ℕ → P) : Prop :=
  ∀ s : Admission P, s.Start →
    (∃ t, ReflTransGen (Admission.Step n chunk item) s t ∧ t.Final n) ∧
    ∀ t, ReflTransGen (Admission.Step n chunk item) s t → t.Final n → t.log = unchunked n item

/-- `writeback_versions` comes to its end and does what the path without chunks does. -/
def WritebackExact (chunk n : ℕ) (request : ℕ → R) (pack : R → P) : Prop :=
  ∀ s : Writeback R P, s.Start →
    (∃ t, ReflTransGen (Writeback.Step n chunk request pack) s t ∧ t.pc = .exit) ∧
    ∀ t, ReflTransGen (Writeback.Step n chunk request pack) s t → t.pc = .exit →
      t.log = unchunked n fun i => (i, pack (request i))

/-- `wb_chunked_d2h_scatter(start, num)` on a flush set of `n` comes to its end and touches the
    records `start .. start + num - 1`, each once and with its own packed data. -/
def D2hScatterExact (bytesPerElem n start num : ℕ) (packed : ℕ → P) : Prop :=
  let numRecords := wbNumRecords n start num
  let chunk := wbChunkElems bytesPerElem numRecords
  ∀ s : D2hScatter P, s.Start numRecords →
    (∃ t, ReflTransGen (D2hScatter.Step start numRecords chunk packed) s t ∧ t.pc = .exit) ∧
    ∀ t, ReflTransGen (D2hScatter.Step start numRecords chunk packed) s t → t.pc = .exit →
      t.log = unchunked num fun i => (start + i, packed (start + i))

/-- The state of a first call. -/
def D2hScatter.first (num : ℕ) (hostBuf : Bool → ℕ → P) : D2hScatter P where
  pc := if num = 0 then .exit else .head
  offset := 0
  buf := false
  firstChunk := true
  prevAbsBase := 0
  prevM := 0
  prevBuf := false
  event := fun _ => 0
  next := 0
  hostBuf := hostBuf
  stream := []
  log := []

theorem D2hScatter.first_start (num : ℕ) (hostBuf : Bool → ℕ → P) :
    (D2hScatter.first num hostBuf).Start num := ⟨rfl, rfl, rfl, rfl, rfl, rfl⟩

/-- A call is exact unless it is asked for none of several records, which it takes for all. -/
theorem d2hScatterExact_iff (bytesPerElem n start num : ℕ) (packed : ℕ → P) :
    D2hScatterExact bytesPerElem n start num packed ↔ num ≠ 0 ∨ n ≤ start := by
  have hchunk := (chunkElems_pos 0 bytesPerElem (wbNumRecords n start num)).2.2
  constructor
  · intro h
    by_contra hnot
    push Not at hnot
    obtain ⟨rfl, hlt⟩ := hnot
    have hstart := D2hScatter.first_start (wbNumRecords n start 0) fun _ _ => packed 0
    obtain ⟨⟨t, hrun, hpc⟩, hlog⟩ := D2hScatter.exact_of_start start packed hchunk hstart
    have hnone := (h _ hstart).2 t hrun hpc
    rw [hlog t hrun hpc] at hnone
    simp [unchunked, wbNumRecords] at hnone
    omega
  · intro h s hs
    have hnum : wbNumRecords n start num = num := by
      rw [wbNumRecords]
      split <;> omega
    obtain ⟨hend, hlog⟩ := D2hScatter.exact_of_start start packed hchunk hs
    refine ⟨hend, fun t hrun hpc => ?_⟩
    rw [hlog t hrun hpc, hnum]
    rfl

/-- For every number of records and every chunk size the chunked admission and writeback do what the
    paths without chunks do, and both halves of the flush worker touch their own records: unless the
    flush set has one record, whose empty first half stands for the whole set. -/
theorem chunked_exact_iff {Q : Type*} (bytesPerElem n : ℕ) (item : ℕ → Q) (request : ℕ → R)
    (pack : R → P) (packed : ℕ → P) :
    ((∀ chunk, 0 < chunk → AdmissionExact chunk n item) ∧
      (∀ chunk, 0 < chunk → WritebackExact chunk n request pack) ∧
      D2hScatterExact bytesPerElem n 0 (n / 2) packed ∧
      D2hScatterExact bytesPerElem n (n / 2) (n - n / 2) packed) ↔ n ≠ 1 := by
  have hadm : ∀ chunk, 0 < chunk → AdmissionExact chunk n item := fun chunk hchunk s hs =>
    Admission.exact_of_start hchunk hs
  have hwriteback : ∀ chunk, 0 < chunk → WritebackExact chunk n request pack :=
    fun chunk hchunk s hs => Writeback.exact_of_start hchunk hs
  rw [d2hScatterExact_iff, d2hScatterExact_iff]
  constructor
  · rintro ⟨-, -, hfirst, -⟩ rfl
    omega
  · intro hn
    exact ⟨hadm, hwriteback, by omega, by omega⟩

/-- A flush set of one record: the first half has no record, and the worker scatters record 0. -/
theorem first_half_of_one_record :
    ¬ D2hScatterExact 1004 1 0 (1 / 2) (fun i : ℕ => i) := by
  rw [d2hScatterExact_iff]
  omega

end Egad.Transfer
