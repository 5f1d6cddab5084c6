import Egad.Stager.Mapping

/-! # The free ring on the device (`util_device_ring.cuh`)

    The free ring of a stager, as the device holds it: two 64-bit counters that only grow, a buffer
    read at positions modulo the capacity, and a pop in two launches, of which the first moves the
    head and gives back what is not there and the second copies.

        buffer   | g0 | g1 | g2 | g3 | g4 | g5 |          head, tail : uint64
                        ^ head % cap        ^ tail % cap
        reserve  head += n;  g = min n (tail - head);  head -= n - g
        copy     out[i] = buffer[(start + i) % cap]       for i < g, one thread each

    A pop is the first `n` ids of a queue. It is so for every request but one kind: the number of
    blocks is rounded up in 32 bits, so a request within 255 of 2^32 launches no copy and the ids
    it was granted are lost. -/

namespace Egad.Stager

/-! ### The source -/

/-- `DeviceRingView`, with the words its pointers lead to. -/
structure DeviceRing where
  buffer : ℕ → ℕ
  head : ℕ
  tail : ℕ
  capacity : ℕ
  popScratchStart : ℕ

/-- `init_ring_ids` and the counters `initialize` copies to the device: every slot is free. -/
def initRing (gpuCapacity : ℕ) : DeviceRing where
  buffer i := i
  head := 0
  tail := gpuCapacity
  capacity := gpuCapacity
  popScratchStart := 0

/-- `k_ring_pop_reserve`: the count it grants and the ring after it. -/
def ringPopReserve (r : DeviceRing) (n : ℕ) : ℕ × DeviceRing :=
  let oldHead := r.head
  let moved := (oldHead + n) % 2 ^ 64
  let avail := (r.tail + 2 ^ 64 - oldHead) % 2 ^ 64
  let g := if avail < n then avail % 2 ^ 32 else n
  -- a negative addend of `atomicAdd` is its complement to 2^64
  let head := if g < n then (moved + (2 ^ 64 - (n - g))) % 2 ^ 64 else moved
  (g, { r with head := head, popScratchStart := oldHead })

/-- The threads of the copy: `(n + block - 1) / block` blocks of 256, the sum taken in 32 bits. -/
def popThreads (n : ℕ) : ℕ := (n + 255) % 2 ^ 32 / 256 * 256

/-- One thread of `k_ring_pop_copy`. -/
def ringPopCopyThread (r : DeviceRing) (granted : ℕ) (out : ℕ → Option ℕ) (i : ℕ) :
    ℕ → Option ℕ :=
  if granted ≤ i then out
  else Function.update out i (some (r.buffer ((r.popScratchStart + i) % 2 ^ 64 % r.capacity)))

/-- A call of `launch_ring_pop_parallel`: the count asked for and the order in which the threads of
    its copy happen to run. -/
structure PopRequest where
  n : ℕ
  n_lt : n < 2 ^ 32
  order : List ℕ
  perm : order.Perm (List.range (popThreads n))

/-- What a call leaves for its caller: `*d_granted`, and what it stored at each `d_out[i]`, if
    anything. -/
structure Grant where
  granted : ℕ
  out : ℕ → Option ℕ

/-- The entries of `d_out` the caller reads. -/
def Grant.ids (g : Grant) : List (Option ℕ) := (List.range g.granted).map g.out

/-- `launch_ring_pop_parallel`. -/
def launchRingPopParallel (r : DeviceRing) (q : PopRequest) : Grant × DeviceRing :=
  if q.n = 0 then (⟨0, fun _ => none⟩, r)
  else
    let p := ringPopReserve r q.n
    (⟨p.1, q.order.foldl (ringPopCopyThread p.2 p.1) fun _ => none⟩, p.2)

/-- One pop of a run, with the ring before and after it. -/
structure PopStep where
  before : DeviceRing
  request : PopRequest
  grant : Grant
  after : DeviceRing

/-- Pops one after another, as one stream runs them. -/
def popRun : DeviceRing → List PopRequest → List PopStep
  | _, [] => []
  | r, q :: qs =>
    ⟨r, q, (launchRingPopParallel r q).1, (launchRingPopParallel r q).2⟩ ::
      popRun (launchRingPopParallel r q).2 qs

/-! ### The queue -/

/-- `n` consecutive ids of a circular buffer. -/
def window (buffer : ℕ → ℕ) (capacity head n : ℕ) : List ℕ :=
  (List.range n).map fun i => buffer ((head + i) % capacity)

theorem window_length (buffer : ℕ → ℕ) (capacity head n : ℕ) :
    (window buffer capacity head n).length = n := by
  rw [window, List.length_map, List.length_range]

theorem window_take (buffer : ℕ → ℕ) (capacity head n k : ℕ) :
    (window buffer capacity head n).take k = window buffer capacity head (min k n) := by
  rw [window, ← List.map_take, List.take_range, window]

theorem window_drop (buffer : ℕ → ℕ) (capacity head n k : ℕ) :
    (window buffer capacity head n).drop k = window buffer capacity (head + k) (n - k) := by
  refine List.ext_getElem ?_ fun i hi hi' => ?_
  · rw [List.length_drop, window_length, window_length]
  · rw [List.getElem_drop]
    simp only [window, List.getElem_map, List.getElem_range, Nat.add_assoc]

/-- The ids in the ring that no pop has taken. -/
def DeviceRing.available (r : DeviceRing) : ℕ := r.tail - r.head

/-- Those ids, in the order they were put in. -/
def DeviceRing.live (r : DeviceRing) : List ℕ :=
  window r.buffer r.capacity r.head r.available

/-- A ring whose counters have not wrapped and which holds no more than its capacity. -/
structure DeviceRing.WellFormed (r : DeviceRing) : Prop where
  head_le : r.head ≤ r.tail
  tail_lt : r.tail < 2 ^ 64
  available_le : r.available ≤ r.capacity
  capacity_lt : r.capacity < 2 ^ 32

theorem live_length (r : DeviceRing) : r.live.length = r.available := window_length ..

theorem initRing_wellFormed {cap : ℕ} (hcap : cap < 2 ^ 32) : (initRing cap).WellFormed :=
  ⟨Nat.zero_le _, lt_trans hcap (by decide), le_rfl, hcap⟩

/-- The ring starts with every slot, each once. -/
theorem initRing_live (cap : ℕ) : (initRing cap).live = List.range cap := by
  have hmod : ∀ i ∈ List.range cap, (0 + i) % cap = i := by
    rintro i hi
    rw [Nat.zero_add, Nat.mod_eq_of_lt (List.mem_range.mp hi)]
  rw [DeviceRing.live, DeviceRing.available, window]
  exact (List.map_congr_left hmod).trans (List.map_id _)

/-- A pop is FIFO: it grants `min n available` ids, stores the next ones in order, leaves the
    others, and a short pop leaves the head at the tail. -/
structure PopStep.Fifo (s : PopStep) : Prop where
  granted : s.grant.granted = min s.request.n s.before.available
  ids : s.grant.ids = (s.before.live.take s.grant.granted).map some
  rest : s.after.live = s.before.live.drop s.grant.granted
  head : s.before.available < s.request.n → s.after.head = s.after.tail

/-- Every request that finds something in the ring leaves room for the 32-bit rounding of its block
    count. -/
def GridsFit : ℕ → List PopRequest → Prop
  | _, [] => True
  | avail, q :: qs => (avail = 0 ∨ q.n + 255 < 2 ^ 32) ∧ GridsFit (avail - q.n) qs

/-! ### One pop -/

variable {r : DeviceRing}

/-- The reservation grants what is there and moves the head past it: giving back the excess undoes
    the part of the addition that went beyond the tail, whether or not it wrapped. -/
theorem ringPopReserve_eq (h : r.WellFormed) {n : ℕ} (hn : n < 2 ^ 32) :
    ringPopReserve r n = (min n r.available,
      { r with head := r.head + min n r.available, popScratchStart := r.head }) := by
  obtain ⟨hle, hlt, -, -⟩ := h
  have havail : (r.tail + 2 ^ 64 - r.head) % 2 ^ 64 = r.available := by
    rw [DeviceRing.available]
    omega
  have hg : (if r.available < n then r.available % 2 ^ 32 else n) = min n r.available := by
    split <;> omega
  have hav : r.available = r.tail - r.head := rfl
  have hhead : (if min n r.available < n then
      ((r.head + n) % 2 ^ 64 + (2 ^ 64 - (n - min n r.available))) % 2 ^ 64
      else (r.head + n) % 2 ^ 64) = r.head + min n r.available := by
    split <;> omega
  simp only [ringPopReserve, havail, hg, hhead]

/-- What the copy stores: every thread writes its own entry, so their order does not matter. -/
theorem foldl_ringPopCopyThread (granted : ℕ) : ∀ (order : List ℕ) (out : ℕ → Option ℕ),
    order.Nodup → ∀ i, order.foldl (ringPopCopyThread r granted) out i =
      if i ∈ order ∧ i < granted
      then some (r.buffer ((r.popScratchStart + i) % 2 ^ 64 % r.capacity)) else out i := by
  intro order
  induction order with
  | nil =>
    rintro out - i
    rw [if_neg fun h => absurd h.1 (List.not_mem_nil)]
    rfl
  | cons t order ih =>
    rintro out hnd i
    obtain ⟨ht, hnd'⟩ := List.nodup_cons.mp hnd
    rw [List.foldl_cons, ih _ hnd' i]
    by_cases hi : i ∈ order ∧ i < granted
    · rw [if_pos hi, if_pos ⟨List.mem_cons_of_mem _ hi.1, hi.2⟩]
    · rw [if_neg hi, ringPopCopyThread]
      rcases eq_or_ne i t with rfl | hne
      · rcases Nat.lt_or_ge i granted with hlt | hge
        · rw [if_neg (by omega), Function.update_self, if_pos ⟨List.mem_cons_self .., hlt⟩]
        · rw [if_pos hge, if_neg fun h => by omega]
      · have hother : ¬ (i ∈ t :: order ∧ i < granted) := fun h =>
          hi ⟨(List.mem_cons.mp h.1).resolve_left hne, h.2⟩
        rw [if_neg hother]
        split
        · rfl
        · rw [Function.update_of_ne hne]

/-- There are threads for all of `n` unless the rounding wraps, and then there are none. -/
theorem popThreads_cases {n : ℕ} (hn : n < 2 ^ 32) :
    (n + 255 < 2 ^ 32 → n ≤ popThreads n) ∧ (2 ^ 32 ≤ n + 255 → popThreads n = 0) := by
  rw [popThreads]
  constructor <;> intro h <;> omega

/-- A pop in full: the count, the stored entries and the ring after it. -/
theorem launchRingPopParallel_eq (h : r.WellFormed) (q : PopRequest) :
    (launchRingPopParallel r q).1.granted = min q.n r.available ∧
    (launchRingPopParallel r q).1.ids = (List.range (min q.n r.available)).map (fun i =>
      if i < popThreads q.n then some (r.buffer ((r.head + i) % r.capacity)) else none) ∧
    (launchRingPopParallel r q).2.buffer = r.buffer ∧
    (launchRingPopParallel r q).2.capacity = r.capacity ∧
    (launchRingPopParallel r q).2.head = r.head + min q.n r.available ∧
    (launchRingPopParallel r q).2.tail = r.tail := by
  rw [launchRingPopParallel]
  split
  case isTrue hz =>
    rw [hz, Nat.zero_min]
    exact ⟨rfl, rfl, rfl, rfl, rfl, rfl⟩
  case isFalse hz =>
    rw [ringPopReserve_eq h q.n_lt]
    refine ⟨rfl, ?_, rfl, rfl, rfl, rfl⟩
    rw [Grant.ids]
    refine List.map_congr_left fun i hi => ?_
    have hi : i < min q.n r.available := List.mem_range.mp hi
    have hlt : r.head + i < 2 ^ 64 := by
      have := h.tail_lt
      have : r.available = r.tail - r.head := rfl
      omega
    have hthreads : i ∈ q.order ↔ i < popThreads q.n := q.perm.mem_iff.trans List.mem_range
    simp only
    rw [foldl_ringPopCopyThread _ _ _ (q.perm.nodup_iff.mpr List.nodup_range),
      Nat.mod_eq_of_lt hlt]
    simp only [hthreads, hi, and_true]

/-- The step lemma: a pop keeps the ring well formed and takes the first ids of its queue. -/
theorem launchRingPopParallel_live (h : r.WellFormed) (q : PopRequest) :
    (launchRingPopParallel r q).2.WellFormed ∧
    (launchRingPopParallel r q).2.live = r.live.drop (min q.n r.available) ∧
    (launchRingPopParallel r q).2.available = r.available - q.n := by
  obtain ⟨-, -, hbuf, hcap, hhead, htail⟩ := launchRingPopParallel_eq h q
  have hav : r.available = r.tail - r.head := rfl
  have havail : (launchRingPopParallel r q).2.available = r.available - q.n := by
    rw [DeviceRing.available, hhead, htail]
    omega
  refine ⟨⟨?_, ?_, ?_, ?_⟩, ?_, havail⟩
  · rw [hhead, htail]
    have := h.head_le
    omega
  · rw [htail]
    exact h.tail_lt
  · rw [havail, hcap]
    have := h.available_le
    omega
  · rw [hcap]
    exact h.capacity_lt
  · rw [DeviceRing.live, DeviceRing.live, window_drop, hbuf, hcap, hhead, havail]
    congr 1
    omega

/-- The stored entries are the first ids of the queue when the grid has a thread for each. -/
theorem ids_of_threads (h : r.WellFormed) {q : PopRequest}
    (hq : r.available = 0 ∨ q.n + 255 < 2 ^ 32) :
    (launchRingPopParallel r q).1.ids = (r.live.take (min q.n r.available)).map some := by
  obtain ⟨-, hids, -⟩ := launchRingPopParallel_eq h q
  rw [hids, DeviceRing.live, window_take, window, List.map_map,
    Nat.min_eq_left (Nat.min_le_right _ _)]
  refine List.map_congr_left fun i hi => ?_
  have hi := List.mem_range.mp hi
  rw [if_pos]
  · rfl
  · rcases hq with hz | hfit
    · omega
    · have := (popThreads_cases q.n_lt).1 hfit
      omega

/-- A pop is FIFO exactly when it finds nothing or its block count does not wrap. -/
theorem fifo_iff (h : r.WellFormed) (q : PopRequest) :
    PopStep.Fifo ⟨r, q, (launchRingPopParallel r q).1, (launchRingPopParallel r q).2⟩ ↔
      r.available = 0 ∨ q.n + 255 < 2 ^ 32 := by
  obtain ⟨hgrant, hids, -, -, hhead, htail⟩ := launchRingPopParallel_eq h q
  obtain ⟨-, hlive, -⟩ := launchRingPopParallel_live h q
  constructor
  · rintro ⟨-, hstored, -, -⟩
    by_contra hno
    obtain ⟨hne, hwrap⟩ := not_or.mp hno
    -- no thread runs, yet at least one id was granted
    have hnone := (popThreads_cases q.n_lt).2 (Nat.le_of_not_lt hwrap)
    have hpos : 0 < min q.n r.available := by omega
    have hzero := congrArg (·[0]?) (hids.symm.trans hstored)
    simp only [hnone, Nat.not_lt_zero, if_false, List.getElem?_map, List.getElem?_range hpos,
      Option.map_some, hgrant] at hzero
    have hlen : 0 < (r.live.take (min q.n r.available)).length := by
      rw [List.length_take, live_length]
      omega
    rw [List.getElem?_eq_getElem hlen, Option.map_some] at hzero
    cases Option.some.inj hzero
  · rintro hfit
    refine ⟨hgrant, ?_, ?_, ?_⟩
    · simp only [hgrant]
      exact ids_of_threads h hfit
    · simp only [hgrant]
      exact hlive
    · rintro hshort
      simp only [hhead, htail]
      have := h.head_le
      have : r.available = r.tail - r.head := rfl
      simp only at hshort
      omega

/-! ### Runs -/

/-- Every pop of a run is FIFO exactly when the grids of the run fit. -/
theorem popRun_fifo_iff (qs : List PopRequest) : ∀ {r : DeviceRing}, r.WellFormed →
    ((∀ s ∈ popRun r qs, s.Fifo) ↔ GridsFit r.available qs) := by
  induction qs with
  | nil => exact fun _ => ⟨fun _ => trivial, fun _ s hs => absurd hs List.not_mem_nil⟩
  | cons q qs ih =>
    rintro r h
    obtain ⟨hwf, -, havail⟩ := launchRingPopParallel_live h q
    rw [popRun, List.forall_mem_cons, fifo_iff h q, ih hwf, havail, GridsFit]

/-- The ids a run stores are a prefix of the queue it started with. -/
theorem popRun_ids (qs : List PopRequest) : ∀ {r : DeviceRing}, r.WellFormed →
    GridsFit r.available qs → ((popRun r qs).flatMap fun s => s.grant.ids) =
      (r.live.take (qs.map PopRequest.n).sum).map some := by
  induction qs with
  | nil => exact fun _ _ => by rw [popRun]; rfl
  | cons q qs ih =>
    rintro r h ⟨hq, hqs⟩
    obtain ⟨hwf, hlive, havail⟩ := launchRingPopParallel_live h q
    have hrest := ih hwf (havail ▸ hqs)
    have hlen := live_length r
    rw [popRun, List.flatMap_cons, hrest, hlive, ids_of_threads h hq, ← List.map_append,
      List.map_cons, List.sum_cons, List.take_add, ← hlen]
    congr 1
    -- past the end of the queue both sides take and drop all of it
    rcases Nat.le_total q.n r.live.length with hle | hge
    · rw [Nat.min_eq_left hle]
    · rw [Nat.min_eq_right hge, List.drop_length, List.drop_of_length_le hge,
        List.take_of_length_le (le_refl _), List.take_of_length_le hge]

/-- Whatever the requests, on a ring of distinct ids every pop is FIFO and no id is granted twice,
    if and only if no request that finds something in the ring is within 255 of 2^32. -/
theorem launchRingPopParallel_fifo_iff (r : DeviceRing) (h : r.WellFormed) (hids : r.live.Nodup)
    (qs : List PopRequest) :
    ((∀ s ∈ popRun r qs, s.Fifo) ∧ ((popRun r qs).flatMap fun s => s.grant.ids).Nodup) ↔
      GridsFit r.available qs := by
  rw [popRun_fifo_iff qs h]
  constructor
  · exact fun hrun => hrun.1
  · rintro hfit
    refine ⟨hfit, ?_⟩
    rw [popRun_ids qs h hfit]
    exact ((List.take_sublist _ _).nodup hids).map (Option.some_injective _)

/-- A request whose threads run in the order of their ids. -/
def PopRequest.inOrder (n : ℕ) (hn : n < 2 ^ 32) : PopRequest := ⟨n, hn, _, .refl _⟩

/-- Three ids of four, then three again: the second pop is one short of nothing left. -/
theorem launchRingPopParallel_fifo_four :
    (∀ s ∈ popRun (initRing 4) [.inOrder 3 (by decide), .inOrder 3 (by decide)], s.Fifo) ∧
      ((popRun (initRing 4) [.inOrder 3 (by decide), .inOrder 3 (by decide)]).flatMap
        fun s => s.grant.ids).Nodup :=
  (launchRingPopParallel_fifo_iff (initRing 4) (initRing_wellFormed (by decide))
    (initRing_live 4 ▸ List.nodup_range) _).mpr
      ⟨.inr (by decide), .inr (by decide), trivial⟩

/-- Asked for 2^32 - 1 ids, a ring of one grants it and stores nothing. -/
theorem launchRingPopParallel_loses_id : ¬ ∀ (r : DeviceRing), r.WellFormed → r.live.Nodup →
    ∀ qs, (∀ s ∈ popRun r qs, s.Fifo) ∧ ((popRun r qs).flatMap fun s => s.grant.ids).Nodup := by
  rintro hall
  have hrun := hall (initRing 1) (initRing_wellFormed (by decide))
    (initRing_live 1 ▸ List.nodup_range) [.inOrder (2 ^ 32 - 1) (by decide)]
  have hfit := (popRun_fifo_iff _ (initRing_wellFormed (by decide))).mp hrun.1
  rcases hfit.1 with hz | hlt
  · exact absurd hz (by decide)
  · exact absurd hlt (by decide)

/-! ### The stager's pop -/

/-- The ring a stager's cache describes. -/
def Cache.device (cfg : Config) (c : Cache) (scratch : ℕ) : DeviceRing where
  buffer := c.ringBuffer
  head := c.ringHead
  tail := c.ringTail
  capacity := cfg.capacity
  popScratchStart := scratch

/-- A stager asks for no more than the units it has, so its pops are the device's: the same ids and
    the same head. -/
theorem ringPop_device (cfg : Config) {c : Cache} {scratch : ℕ} {q : PopRequest}
    (h : (c.device cfg scratch).WellFormed) (hq : q.n + 255 < 2 ^ 32) :
    (launchRingPopParallel (c.device cfg scratch) q).1.ids = (ringPop cfg q.n c).1.map some ∧
      (launchRingPopParallel (c.device cfg scratch) q).2.head = (ringPop cfg q.n c).2.ringHead := by
  obtain ⟨-, -, -, -, hhead, -⟩ := launchRingPopParallel_eq h q
  have hlive : (c.device cfg scratch).live = c.ring cfg := rfl
  have havail : (c.device cfg scratch).available = c.freeSlots := rfl
  constructor
  · rw [ids_of_threads h (.inr hq), ringPop_fst, hlive, havail, ← @ring_length cfg c,
      ← List.take_take, List.take_length]
  · rw [hhead, havail]
    simp only [ringPop, granted_eq, Cache.device]
    omega

end Egad.Stager
