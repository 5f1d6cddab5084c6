import Egad.Execution.OnCache
import Egad.Stager.Staged

/-! # One epoch, operation by operation

    The executor's kernel is given what each operation writes as a function of what the operations
    before it have read or written; the interleavings of the epoch then have one outcome, that of the
    operations one after the other on a store with no cache:

        any interleaving ─► done, all reads as on the plain store ─► Outcome ─► serialResults

    An operation on a record that the epoch creates finds nothing of the store. -/

namespace Egad.Execution
open Egad.Planner Egad.Stager

section
variable {V : Type}

/-! ### Results in the order of the batch -/

/-- What the operations have read or written when each finds the records as the ones before have left
    them. A write gets its value from the results before it. -/
structure Outcome (data : ℕ → (ℕ → Option V) → V) (ops : List Op) (store : ℕ → V)
    (res : ℕ → Option V) : Prop where
  read : ∀ i o, ops[i]? = some o → o.isWrite = false → res i = some (plainAt ops res store i o.record)
  write : ∀ i o, ops[i]? = some o → o.isWrite = true →
    res i = some (data i fun j => if j < i then res j else none)

/-- The results of the first `n` operations. -/
def serialResults (data : ℕ → (ℕ → Option V) → V) (ops : List Op) (store : ℕ → V) :
    ℕ → ℕ → Option V
  | 0 => fun _ => none
  | n + 1 =>
    let res := serialResults data ops store n
    Function.update res n (ops[n]?.map fun o =>
      if o.isWrite then data n res else plainAt ops res store n o.record)

/-- The value that the batch leaves in a record it wrote. -/
def lastWritten (ops : List Op) (res : ℕ → Option V) (u : ℕ) : Option V :=
  (lastWriteBefore ops u ops.length).bind res

variable {data : ℕ → (ℕ → Option V) → V} {ops : List Op} {store store' : ℕ → V}
  {res res' : ℕ → Option V}

theorem plainAt_congr {n : ℕ} (h : ∀ j < n, res j = res' j) :
    plainAt ops res store n = plainAt ops res' store n := by
  induction n with
  | zero => rfl
  | succ n ih =>
    rw [plainAt, plainAt, h n (Nat.lt_succ_self n), ih fun j hj => h j (Nat.lt_succ_of_lt hj)]

/-- A batch has one outcome. -/
theorem Outcome.unique (h : Outcome data ops store res) (h' : Outcome data ops store res') :
    ∀ i < ops.length, res i = res' i := by
  intro i
  induction i using Nat.strong_induction_on with
  | _ i ih =>
    intro hi
    have hbefore : ∀ j < i, res j = res' j := fun j hj => ih j hj (hj.trans hi)
    have hget : ops[i]? = some ops[i] := List.getElem?_eq_getElem hi
    cases hw : ops[i].isWrite with
    | false => rw [h.read i _ hget hw, h'.read i _ hget hw, plainAt_congr hbefore]
    | true =>
      rw [h.write i _ hget hw, h'.write i _ hget hw]
      congr 2
      funext j
      split
      · next hj => exact hbefore j hj
      · rfl

theorem serialResults_above {n j : ℕ} (hj : n ≤ j) : serialResults data ops store n j = none := by
  induction n with
  | zero => rfl
  | succ n ih =>
    rw [serialResults, Function.update_of_ne (by omega)]
    exact ih (by omega)

/-- Later operations leave a result. -/
theorem serialResults_of_le {n m j : ℕ} (hj : j < n) (hnm : n ≤ m) :
    serialResults data ops store m j = serialResults data ops store n j := by
  induction m with
  | zero => rw [Nat.le_zero.mp hnm]
  | succ m ih =>
    rcases Nat.lt_or_ge m n with hlt | hge
    · rw [Nat.le_antisymm hnm hlt]
    · rw [serialResults, Function.update_of_ne (by omega), ih hge]

/-- The outcome of a batch. -/
theorem serialResults_outcome :
    Outcome data ops store (serialResults data ops store ops.length) := by
  have hstep : ∀ i o, ops[i]? = some o → serialResults data ops store ops.length i =
      some (if o.isWrite then data i (serialResults data ops store i)
        else plainAt ops (serialResults data ops store i) store i o.record) := by
    intro i o ho
    rw [serialResults_of_le (Nat.lt_succ_self i) (List.getElem?_eq_some_iff.mp ho).1, serialResults]
    simp only [Function.update_self, ho, Option.map_some]
  refine ⟨fun i o ho hw => ?_, fun i o ho hw => ?_⟩
  · have hi := (List.getElem?_eq_some_iff.mp ho).1
    rw [hstep i o ho, hw, plainAt_congr fun j hj => (serialResults_of_le hj hi.le).symm]
    rfl
  · have hi := (List.getElem?_eq_some_iff.mp ho).1
    rw [hstep i o ho, hw, if_pos rfl]
    congr 2
    funext j
    split
    · next hj => exact (serialResults_of_le hj hi.le).symm
    · next hj => exact serialResults_above (Nat.le_of_not_lt hj)

theorem Outcome.isSome (h : Outcome data ops store res) {i : ℕ} (hi : i < ops.length) :
    (res i).isSome := by
  have hget : ops[i]? = some ops[i] := List.getElem?_eq_getElem hi
  cases hw : ops[i].isWrite with
  | false => rw [h.read i _ hget hw]; rfl
  | true => rw [h.write i _ hget hw]; rfl

/-! ### What a batch leaves -/

theorem lastWritten_eq_none (h : Outcome data ops store res) {u : ℕ} :
    lastWritten ops res u = none ↔ ∀ j, writesAt ops u j = false := by
  rw [lastWritten]
  cases hlast : lastWriteBefore ops u ops.length with
  | none =>
    refine iff_of_true rfl fun j => ?_
    rcases Nat.lt_or_ge j ops.length with hj | hj
    · exact lastWriteBefore_eq_none.mp hlast j hj
    · rw [writesAt, List.getElem?_eq_none hj]
  | some j =>
    obtain ⟨hjn, hj, -⟩ := lastWriteBefore_eq_some.mp hlast
    refine iff_of_false ?_ fun hno => by rw [hno j] at hj; cases hj
    rw [Option.bind_some]
    exact Option.ne_none_iff_isSome.mpr (h.isSome hjn)

theorem lastWritten_congr (h : ∀ i < ops.length, res i = res' i) :
    lastWritten ops res = lastWritten ops res' := by
  funext u
  rw [lastWritten, lastWritten]
  cases hlast : lastWriteBefore ops u ops.length with
  | none => rfl
  | some i => exact h i (lastWriteBefore_eq_some.mp hlast).1

/-- The batch leaves what its last writes say, on top of what was there. -/
theorem plainAt_eq_lastWritten (h : Outcome data ops store res) (u : ℕ) :
    plainAt ops res store ops.length u = (lastWritten ops res u).getD (store u) := by
  have hplain := @plainAt_eq V ops res store u ops.length
  rw [lastWritten]
  cases hlast : lastWriteBefore ops u ops.length with
  | none =>
    rw [hlast] at hplain
    exact hplain
  | some j =>
    rw [hlast] at hplain
    obtain ⟨v, hv⟩ := Option.isSome_iff_exists.mp (h.isSome (lastWriteBefore_eq_some.mp hlast).1)
    rw [Option.bind_some, hv, hplain v hv]
    rfl

/-- A batch that reads what two stores agree on, or has written it before, has the same outcome on
    both. -/
theorem Outcome.congr_store (h : Outcome data ops store res)
    (hagree : ∀ i o, ops[i]? = some o → o.isWrite = false → store o.record = store' o.record ∨
      ∃ j < i, writesAt ops o.record j = true) : Outcome data ops store' res := by
  refine ⟨fun i o ho hw => ?_, h.write⟩
  rw [h.read i o ho hw]
  congr 1
  have hi := (List.getElem?_eq_some_iff.mp ho).1
  have hp := @plainAt_eq V ops res store o.record i
  have hp' := @plainAt_eq V ops res store' o.record i
  cases hlast : lastWriteBefore ops o.record i with
  | none =>
    rw [hlast] at hp hp'
    rw [hp, hp']
    refine (hagree i o ho hw).resolve_right fun ⟨j, hj, hwrite⟩ => ?_
    rw [lastWriteBefore_eq_none.mp hlast j hj] at hwrite
    cases hwrite
  | some j =>
    rw [hlast] at hp hp'
    obtain ⟨v, hv⟩ :=
      Option.isSome_iff_exists.mp (h.isSome ((lastWriteBefore_eq_some.mp hlast).1.trans hi))
    rw [hp v hv, hp' v hv]

end

/-! ### What the interleavings do -/

section
variable {V : Type} {cfg : Config} {h : Hybrid V} {ops : List Op} {loc : Op → ℕ} {e : ℕ}
  {versions : ℕ → ℕ × V} {r : Running V}

/-- The worker's stores among those of a run. -/
theorem run_worker {E : Epoch} {r' : Running V} {acts : List (Act V)}
    (hrun : Running.run E r acts = some r') : ∃ k,
    r'.hybrid.store = (Hybrid.scatterNext^[k] r.hybrid).store ∧
      r'.hybrid.inflight = (Hybrid.scatterNext^[k] r.hybrid).inflight := by
  -- the worker looks at the store and the flush only
  have hcongr : ∀ {h h' : Hybrid V}, h.store = h'.store → h.inflight = h'.inflight →
      h.scatterNext.store = h'.scatterNext.store ∧ h.scatterNext.inflight = h'.scatterNext.inflight := by
    intro h h' hs hi
    rw [Hybrid.scatterNext, Hybrid.scatterNext, ← hi]
    cases hin : h.inflight with
    | nil => exact ⟨hs, hi ▸ rfl⟩
    | cons x rest => exact ⟨congrArg (scatterEntry · x) hs, rfl⟩
  have hsame : ∀ (k : ℕ) {h h' : Hybrid V}, h.store = h'.store → h.inflight = h'.inflight →
      (Hybrid.scatterNext^[k] h).store = (Hybrid.scatterNext^[k] h').store ∧
        (Hybrid.scatterNext^[k] h).inflight = (Hybrid.scatterNext^[k] h').inflight := by
    intro k
    induction k with
    | zero => exact fun hs hi => ⟨hs, hi⟩
    | succ k ih =>
      intro h h' hs hi
      obtain ⟨hs', hi'⟩ := hcongr hs hi
      exact ih hs' hi'
  induction acts generalizing r with
  | nil =>
    obtain rfl := Option.some.inj hrun
    exact ⟨0, rfl, rfl⟩
  | cons a acts ih =>
    rw [Running.run, List.foldlM_cons] at hrun
    obtain ⟨t, ht, hrest⟩ := Option.bind_eq_some_iff.mp hrun
    obtain ⟨k, hs, hi⟩ := ih hrest
    cases a with
    | op i data =>
      obtain ⟨s, -, rfl⟩ := Option.map_eq_some_iff.mp ht
      have hmark : (markChosen (s.phase i) r.hybrid).store = r.hybrid.store := by
        unfold markChosen
        split <;> rfl
      obtain ⟨hs', hi'⟩ := hsame k hmark (markChosen_frame (s.phase i) r.hybrid).2.2
      exact ⟨k, hs.trans hs', hi.trans hi'⟩
    | worker =>
      obtain rfl := Option.some.inj ht
      exact ⟨k + 1, hs, hi⟩

/-- An executor that has come to the end of the batch, with the worker beside it, has done some
    stores of the worker and then the writes of the batch. -/
theorem Executing.performs (hx : Executing cfg h versions ops loc e r) (hun : h.Unmarked)
    (hall : ∀ i < ops.length, ∃ x, r.state.phase i = .done x) {acts : List (Act V)}
    (hrun : Running.run (cachedEpoch cfg h ops loc e) (.start h versions) acts = some r) :
    ∃ k es, Performs (lastValue ops r.state.phase) es ∧
      r.finish = (Hybrid.scatterNext^[k] h).execute cfg e es := by
  obtain ⟨k, hstore, hin⟩ := run_worker hrun
  have hexec := hx.executed hall
  have hbefore : Executed cfg e (lastValue ops r.state.phase) (Hybrid.scatterNext^[k] h) r.finish ∧
      (Hybrid.scatterNext^[k] h).cache = h.cache ∧ (Hybrid.scatterNext^[k] h).records = h.records ∧
      (Hybrid.scatterNext^[k] h).Unmarked := by
    clear hstore hin
    induction k with
    | zero => exact ⟨hexec, rfl, rfl, hun⟩
    | succ k ih =>
      rw [Function.iterate_succ_apply']
      obtain ⟨hx', hc, hr, hu⟩ := ih
      obtain ⟨hc', hr', hd'⟩ := scatterNext_frame (Hybrid.scatterNext^[k] h)
      exact ⟨hx'.afterScatter, hc'.trans hc, hr'.trans hr, by rw [Hybrid.Unmarked, hd']; exact hu⟩
  obtain ⟨hx', hcache, hrecords, hunmarked⟩ := hbefore
  have hm : Mapped cfg (Hybrid.scatterNext^[k] h).cache := hcache ▸ hx.onCache.mapped
  obtain ⟨ws, hp⟩ := exists_performs (W := lastValue ops r.state.phase) (ops.map Op.record)
    fun u v hu => by
      obtain ⟨i, hlast, -⟩ := Option.bind_eq_some_iff.mp hu
      obtain ⟨o, ho, -, rfl⟩ := writesAt_iff.mp (lastWriteBefore_eq_some.mp hlast).2.1
      exact List.mem_map_of_mem (List.mem_of_getElem? ho)
  have hmem : ∀ x ∈ ws, lastValue ops r.state.phase x.1 = some x.2 := by
    intro x hxw
    refine (hp.all x.1 x.2).mpr ?_
    rw [writesOf, List.filterMap_map]
    exact List.mem_filterMap.mpr ⟨x, hxw, rfl⟩
  obtain ⟨-, hws, hwi, hout⟩ := execute_writes (e := e) hm fun x hxw => hx'.resident x.1 x.2 (hmem x hxw)
  refine ⟨k, _, hp, hx'.unique (executed_of_writes hm hunmarked hp hx'.resident)
    (hstore.trans hws.symm) (hin.trans hwi.symm) fun g hg => ?_⟩
  -- a slot of no row
  rw [hout g hg, hrecords]
  refine record_eq fun slot => hx.cell_kept fun j hj => ?_
  obtain ⟨o, -, -, -, hcap, hres, hne, -⟩ := hx.writes_slot hj
  exact hg ⟨hcap, by rw [hcache, hres]; exact hne⟩

/-- The results of the executor are those of the batch in its order, when each write stores what
    `data` makes of the results before it and a stale slot is written before it is read. -/
theorem Executing.outcome (hx : Executing cfg h versions ops loc e r) {stale : Set ℕ}
    (hc : Cached cfg e stale h) {data : ℕ → (ℕ → Option V) → V}
    (hall : ∀ i < ops.length, ∃ x, r.state.phase i = .done x)
    (hstale : ∀ i o, ops[i]? = some o → o.isWrite = false → h.cache.cridToGrid o.record ∈ stale →
      ∃ j < i, writesAt ops o.record j = true)
    (hdata : ∀ i o, ops[i]? = some o → o.isWrite = true → written r.state.phase i =
      some (data i fun j => if j < i then written r.state.phase j else none)) :
    Outcome data ops (fun u => (h.landed u).latest) (written r.state.phase) := by
  refine ⟨fun i o ho hr => ?_, hdata⟩
  obtain ⟨x, hdone⟩ := hall i (List.getElem?_eq_some_iff.mp ho).1
  have hread := hx.read hc ho hr (hstale i o ho hr) hdone
  rw [written, hdone]
  exact hread

end

end Egad.Execution
