import Egad.Planner.Encoding
import Egad.Stager.Mapping
import Egad.Ycsb.Pieces
import Egad.Tpcc.Pieces

/-! # The hybrid executors do not deadlock

    An epoch is indexed, submitted, staged, planned and executed:

        params ──submit──▶ batches ──prepareEpoch──▶ slots of the records
                              └──────planner───────▶ plan
        params, slots, plan ──HybridExecutor──▶ pieces at work

    The stager keeps distinct records in distinct slots, the planner sends every read to a write
    before it, and the pieces make their accesses in the order of the batches. So no piece waits for a
    cell that nobody fills. -/

namespace Egad.Execution
open Egad.Planner Egad.Stager

/-- `prepareEpoch` has brought the records of a batch into the cache, and `grid` is the remap that
    follows it. -/
def Staged (cfg : Stager.Config) (ops : List Op) (grid : ℕ → ℕ) : Prop :=
  ∃ c sched insertKeys p, Reachable cfg c ∧ Keys cfg (ops.map keyOf) ∧
    sched.Complete cfg (ops.map keyOf) c ∧
    prepareEpoch cfg sched (ops.map keyOf) insertKeys c = .ok p ∧
    grid = lookup cfg p.cache.cridToGrid

/-- The cache that a staged batch finds. -/
theorem Staged.ready {cfg : Stager.Config} {ops : List Op} {grid : ℕ → ℕ} (h : Staged cfg ops grid) :
    ∃ c, Ready cfg (ops.map keyOf) c ∧ Keys cfg (ops.map keyOf) ∧ grid = lookup cfg c.cridToGrid := by
  obtain ⟨c, sched, insertKeys, p, hc, hk, hs, hp, rfl⟩ := h
  obtain ⟨hm, hcur⟩ := reachable_mapped hc
  rcases prepareEpoch_cases hm hcur hk hs insertKeys with ⟨-, h⟩ | ⟨-, -, h⟩ | ⟨p', h, hr⟩
  · cases hp.symm.trans h
  · cases hp.symm.trans h
  · obtain rfl := Except.ok.inj (hp.symm.trans h)
    exact ⟨_, hr, hk, rfl⟩

theorem Staged.present {cfg : Stager.Config} {ops : List Op} {grid : ℕ → ℕ} (h : Staged cfg ops grid)
    {k : ℕ} (hmem : k ∈ ops.map keyOf) (hne : k ≠ absent) : grid k ≠ absent := by
  obtain ⟨c, hr, hk, rfl⟩ := h.ready
  rw [lookup, if_pos (hk.lt hmem hne)]
  exact hr.resident _ hmem hne

theorem Staged.remaps {cfg : Stager.Config} {ops : List Op} {grid : ℕ → ℕ} (h : Staged cfg ops grid)
    (hb : Batch ops) : Remaps grid ops := by
  obtain ⟨c, hready, hk, rfl⟩ := h.ready
  rw [hb.keys] at hk hready
  have habs : lookup cfg c.cridToGrid absent = absent :=
    if_neg (Nat.not_lt.mpr cfg.numUnits_le)
  have hslot : ∀ o ∈ ops, o.record ≠ absent → lookup cfg c.cridToGrid o.record ≠ absent ∧
      c.resident (lookup cfg c.cridToGrid o.record) = o.record := by
    intro o ho hne
    have hmem : o.record ∈ ops.map Op.record := List.mem_map_of_mem ho
    have hlt := hk.lt hmem hne
    have hres := hready.resident _ hmem hne
    rw [lookup, if_pos hlt]
    exact ⟨hres, (hready.mapped.grid_of_crid _ hlt hres).2⟩
  refine ⟨habs, fun o ho q hq heq => ?_⟩
  by_cases h1 : o.record = absent
  · by_cases h2 : q.record = absent
    · rw [h1, h2]
    · rw [h1, habs] at heq
      exact absurd heq.symm (hslot q hq h2).1
  · by_cases h2 : q.record = absent
    · rw [h2, habs] at heq
      exact absurd heq (hslot o ho h1).1
    · rw [← (hslot o ho h1).2, heq, (hslot q hq h2).2]

/-- A batch that fits the cache can be staged. -/
theorem exists_staged {cfg : Stager.Config} {ops : List Op} (hk : Keys cfg (ops.map keyOf))
    (hn : (buildNeeded (ops.map keyOf)).length ≤ cfg.capacity)
    (hne : ¬ ((buildNeeded (ops.map keyOf)).length = 0 ∧ cfg.tpcc = false)) :
    ∃ grid, Staged cfg ops grid := by
  obtain ⟨sched, hs⟩ := exists_complete cfg (ops.map keyOf) (Cache.initial cfg)
  obtain ⟨hm, hcur⟩ := reachable_mapped (Reachable.initial : Reachable cfg _)
  obtain ⟨p, hp, -⟩ := prepareEpoch_ready hm hcur hk hn hne hs []
  exact ⟨_, _, sched, [], p, .initial, hk, hs, hp, rfl⟩

/-- What the index leaves for an epoch of a run of the generator. -/
def IndexedEpoch (cfg : Tpcc.Config) (out : Tpcc.EpochOut) : Prop :=
  ∃ (durable : Tpcc.Durable) (entryCrid : ℕ → ℕ) (deletePath : Bool) (draws : List Tpcc.Draw)
    (before after : List (List (Tpcc.TxnInput × Tpcc.Aux))) (epoch : List (Tpcc.TxnInput × Tpcc.Aux))
    (g : Tpcc.GpuIndex) (idx : Tpcc.Index),
    (∀ x ∈ draws, x.InRange cfg.numWarehouses) ∧
    (∀ w carrier, .delivery w carrier ∈ draws → deletePath = true) ∧
    (∀ w d, (Tpcc.generateTxns draws).2.nextOid w d < 2 ^ 24) ∧
    (before ++ epoch :: after).flatten.map Prod.fst = (Tpcc.generateTxns draws).1 ∧
    (∀ e ∈ before ++ [epoch], ∀ x ∈ e, x.2.Ok) ∧
    (∀ e ∈ before ++ [epoch], e.length ≤ 2 ^ 20) ∧
    cfg.numWarehouses * 10 * 3000 * 15 + 15 * ((before.map List.length).sum + epoch.length) ≤
      Timeline.kAbsent ∧
    (Tpcc.GpuIndex.init cfg durable entryCrid).run deletePath (before.map Tpcc.fillAll) = .ok g ∧
    Tpcc.indexTxns deletePath g.index (Tpcc.fillAll epoch) = .ok (idx, out)

theorem IndexedEpoch.deliveryLast {cfg : Tpcc.Config} {out : Tpcc.EpochOut}
    (h : IndexedEpoch cfg out) (hW : cfg.numWarehouses < 2 ^ 8) :
    Tpcc.DeliveryLast out.params ∧ out.params.length ≤ 2 ^ 20 := by
  obtain ⟨durable, entryCrid, deletePath, draws, before, after, epoch, g, idx, hdraws, hmix, hids,
    hrun, haux, hcount, hrows, hbefore, hindex⟩ := h
  refine ⟨(Tpcc.orderLines_of_run hW hdraws hmix hids hrun haux hcount hrows hbefore hindex).2, ?_⟩
  obtain ⟨o, no, ol, -, -, -, hr⟩ := Tpcc.indexTxns_ok hindex
  have hlen := hcount epoch (by simp)
  rw [(Prod.mk.inj hr).2]
  simp only [Tpcc.epochOut, List.length_map, List.length_zipIdx, Tpcc.fillAll]
  omega

/-- No deadlock among waiting readers, for both benchmarks: whatever the operations of an epoch whose
    transaction ids fit the operation words, the cache it is staged in and the words the plan held
    before, the pieces of the hybrid executor wait only for earlier pieces and earlier accesses of
    their own, so in every state they reach they go on. -/
theorem waiting_readers_progress {V : Type} :
    (∀ {splitField : Bool} {params : List Ycsb.SlotParam} {cfg : Stager.Config} {grid : ℕ → ℕ}
      {plan : ExecPlan} {epoch numWarps : ℕ} {m : Memory V},
      params.length ≤ 10 * 2 ^ 20 → (∀ x ∈ params, x.Ok splitField) →
      Staged cfg (Ycsb.submitYcsbTxns splitField params) grid →
      (∀ c, m.tag c < epoch) → 0 < numWarps →
      NoDeadlock ((Ycsb.ycsbExecutor splitField params plan epoch numWarps).remap fun _ => grid)
        fun _ => m) ∧
    ∀ {params : List Tpcc.ExecParams} {cfg : Tpcc.Config} {out : Tpcc.EpochOut}
      {stager : Tpcc.TableName → Stager.Config} {grid : Tpcc.TableName → ℕ → ℕ} {plan : ExecPlan}
      {epoch numWarps : ℕ} {m : Tpcc.TableName → Memory V},
      cfg.numWarehouses < 2 ^ 8 → IndexedEpoch cfg out →
      params.map Tpcc.ExecParams.growing = out.params → (∀ p ∈ params, p.Ok) →
      (∀ t, Staged (stager t) (Tpcc.submitTpccTxns params t) (grid t)) →
      (∀ t c, (m t).tag c < epoch) → 0 < numWarps →
      NoDeadlock ((Tpcc.tpccExecutor params plan epoch numWarps).remap grid) m := by
  refine ⟨fun hlen hok hst hstart hW => Ycsb.noDeadlock_ycsb hlen hok
    (hst.remaps (Ycsb.submitYcsbTxns_batch hlen hok)) _ hstart hW, ?_⟩
  intro params cfg out stager grid plan epoch numWarps m hwh hidx hparams hok hst hstart hW
  obtain ⟨hlast, hlen⟩ := hidx.deliveryLast hwh
  rw [← hparams] at hlast hlen
  rw [List.length_map] at hlen
  have hb := Tpcc.accesses_batch hlen hok
  have hbatch : ∀ t, Batch (Tpcc.submitTpccTxns params t) := fun t =>
    Tpcc.accessesTo_tpccPieces params t ▸ Batch.accessesTo hb t
  exact Tpcc.noDeadlock_tpcc hlen hok hlast (fun t => (hst t).remaps (hbatch t)) plan hstart hW

/-- Two updates of one record, the second of which waits for the first. -/
def twoUpdates : List Ycsb.SlotParam :=
  [⟨.update, 3, 0, fun h => absurd h (by decide)⟩, ⟨.update, 3, 0, fun h => absurd h (by decide)⟩]

/-- Two payments of one customer, as drawn and as indexed. -/
def twoPayments : List Tpcc.Draw := [.payment 1 1 1 1 1 5, .payment 1 1 1 1 1 5]
def twoPaymentParams : List Tpcc.ExecParams := [.payment 0 0 0, .payment 0 0 0]

def smallCache (tpcc : Bool) : Stager.Config := ⟨4, 10, tpcc, false, by decide, by decide⟩

def emptyMemory : Memory ℕ := ⟨fun _ => 0, fun _ => 0⟩

theorem twoPayments_indexed : ∃ out, IndexedEpoch (Tpcc.oneWarehouse false) out ∧
    twoPaymentParams.map Tpcc.ExecParams.growing = out.params := by
  have hdraws : ∀ x ∈ twoPayments, x.InRange 1 := by simp [twoPayments, Tpcc.Draw.InRange]
  have hfew : twoPayments.length ≤ 100 := by decide
  have hlen := Tpcc.fifteenLines_few hfew
  obtain ⟨idx, out, hindex⟩ := Tpcc.indexTxns_first hdraws hfew
  refine ⟨out, ⟨Tpcc.noDurable, fun _ => 0, true, twoPayments, [], [], Tpcc.fifteenLines twoPayments, _,
    idx, hdraws, fun _ _ _ => rfl, Tpcc.nextOid_few hdraws hfew, Tpcc.fifteenLines_run _,
    by simpa using Tpcc.fifteenLines_aux _, fun e he => ?_, ?_, rfl, hindex⟩, ?_⟩
  · rw [List.nil_append, List.mem_singleton] at he
    rw [he]
    omega
  · simp only [List.map_nil, List.sum_nil, Tpcc.oneWarehouse, Timeline.kAbsent]
    omega
  · obtain ⟨o, no, ol, -, -, -, hr⟩ := Tpcc.indexTxns_ok hindex
    rw [(Prod.mk.inj hr).2]
    rfl

theorem waiting_readers_progress_two : ∃ grid grids,
    NoDeadlock ((Ycsb.ycsbExecutor false twoUpdates (fun _ => 0) 1 4).remap fun _ => grid)
      (fun _ => emptyMemory) ∧
    NoDeadlock ((Tpcc.tpccExecutor twoPaymentParams (fun _ => 0) 1 4).remap grids)
      (fun _ => emptyMemory) := by
  obtain ⟨grid, hgrid⟩ := @exists_staged (smallCache false) (Ycsb.submitYcsbTxns false twoUpdates)
    (fun k hk => Or.inl (by revert k; decide)) (by decide) (by decide)
  have hstaged : ∀ t, ∃ g, Staged (smallCache true) (Tpcc.submitTpccTxns twoPaymentParams t) g :=
    fun t => exists_staged (fun k hk => Or.inl (by cases t <;> revert k <;> decide))
      (by cases t <;> decide) (by cases t <;> decide)
  choose grids hgrids using hstaged
  obtain ⟨out, hidx, hparams⟩ := twoPayments_indexed
  refine ⟨grid, grids, ?_, ?_⟩
  · exact waiting_readers_progress.1 (by decide)
      (by simp only [twoUpdates, List.forall_mem_cons]; exact ⟨⟨by decide, by decide⟩, ⟨by decide, by decide⟩, by simp⟩)
      hgrid (fun _ => Nat.one_pos) (by decide)
  · exact waiting_readers_progress.2 (by decide) hidx hparams
      (by simp [twoPaymentParams, Tpcc.ExecParams.Ok]) hgrids (fun _ _ => Nat.one_pos) (by decide)

/-! ### A transaction id past the operation word -/

/-- Blocks take pieces until none is left. -/
theorem exists_dispatched {T V : Type} [DecidableEq T] {X : Executor T} (hW : 0 < X.numWarps)
    (s : Sys T V) : ∃ k c, X.pieces.length ≤ c ∧
      sysRun X s (List.replicate k .dispatch) = some { s with counter := c } := by
  induction hd : X.pieces.length - s.counter using Nat.strong_induction_on generalizing s with
  | _ d ih =>
    by_cases h : s.counter < X.pieces.length
    · obtain ⟨k, c, hc, hrun⟩ := ih (X.pieces.length - (s.counter + X.numWarps)) (by omega)
        { s with counter := s.counter + X.numWarps } rfl
      refine ⟨k + 1, c, hc, ?_⟩
      rw [List.replicate_succ, sysRun, List.foldlM_cons]
      simp only [sysStep, if_pos h]
      exact hrun
    · exact ⟨0, s.counter, Nat.le_of_not_lt h, rfl⟩

/-- An operation whose record is absent. -/
def noRecord : Ycsb.SlotParam := ⟨.noop, kNoRecord, 0, fun _ => rfl⟩

/-- Operations without a record, one READ of record 1, and the rest of its transaction. -/
def oneRead (n : ℕ) : List Ycsb.SlotParam :=
  List.replicate n noRecord ++
    ⟨.read, 1, 0, fun h => absurd h (by decide)⟩ :: List.replicate 9 noRecord

/-- Its access. -/
def oneReadOp (n : ℕ) : Op := ⟨1, n / 10, false, 21 * (n % 10)⟩

theorem oneRead_submitted (n : ℕ) : Ycsb.submitYcsbTxns false (oneRead n) = [oneReadOp n] := by
  rw [oneRead, ← List.nil_append (List.replicate n noRecord ++ _), Ycsb.submitYcsbTxns_padded rfl,
    List.length_nil, Nat.zero_add]
  rfl

theorem oneRead_piece (n : ℕ) : (Ycsb.ycsbPieces false (oneRead n))[n]? = some [[((), oneReadOp n)]] := by
  have hget : (oneRead n)[n]? = some ⟨.read, 1, 0, fun h => absurd h (by decide)⟩ := by
    rw [oneRead, List.getElem?_append_right (by rw [List.length_replicate]), List.length_replicate,
      Nat.sub_self]
    rfl
  rw [Ycsb.ycsbPieces, List.getElem?_map, List.getElem?_zipIdx, hget, Nat.zero_add]
  rfl

theorem oneRead_pieces {n p : ℕ} {piece : List (List (Unit × Op))} (hne : p ≠ n)
    (h : (Ycsb.ycsbPieces false (oneRead n))[p]? = some piece) : piece = [] := by
  rw [Ycsb.ycsbPieces, List.getElem?_map, List.getElem?_zipIdx, Nat.zero_add] at h
  obtain ⟨x, hx, rfl⟩ := Option.map_eq_some_iff.mp h
  obtain ⟨y, hy, rfl⟩ := Option.map_eq_some_iff.mp hx
  have hpad : y = noRecord := by
    rw [oneRead] at hy
    rcases Nat.lt_or_ge p n with hlt | hge
    · rw [List.getElem?_append_left (by rwa [List.length_replicate])] at hy
      exact List.eq_of_mem_replicate (List.mem_of_getElem? hy)
    · rw [List.getElem?_append_right (by rwa [List.length_replicate]), List.length_replicate] at hy
      obtain ⟨k, hk⟩ : ∃ k, p - n = k + 1 := ⟨p - n - 1, by omega⟩
      rw [hk, List.getElem?_cons_succ] at hy
      exact List.eq_of_mem_replicate (List.mem_of_getElem? hy)
  rw [hpad]
  rfl

/-- The executor of that epoch on the cache, with plans of zeros. -/
def oneReadExecutor (n : ℕ) (grid : ℕ → ℕ) : Executor Unit :=
  (Ycsb.ycsbExecutor false (oneRead n) (fun _ => 0) 1 4).remap fun _ => grid

theorem oneRead_loc {n : ℕ} (hn : 10 * 2 ^ 20 ≤ n) (grid : ℕ → ℕ) :
    (oneReadExecutor n grid).loc () ((oneReadOp n).remap grid) = 0 := by
  have hwide : 2 ^ 20 ≤ n / 10 := (Nat.le_div_iff_mul_le (by decide)).mpr (by omega)
  exact initializeExecutionPlan_wide _ (fun _ => 0) hwide _

section
variable {n : ℕ} {grid : ℕ → ℕ}

theorem oneRead_batch : (oneReadExecutor n grid).submitted () = [(oneReadOp n).remap grid] :=
  congrArg (List.map (Op.remap grid)) (oneRead_submitted n)

theorem oneRead_index : (oneReadExecutor n grid).index ((), (oneReadOp n).remap grid) = 0 := by
  rw [Executor.index, oneRead_batch, List.idxOf_cons_self]

theorem oneRead_piece_remap :
    (oneReadExecutor n grid).pieces[n]? = some [[((), (oneReadOp n).remap grid)]] :=
  (List.getElem?_map ..).trans (congrArg _ (oneRead_piece n))

theorem oneRead_pieces_remap {p : ℕ} {piece : List (List (Unit × Op))} (hne : p ≠ n)
    (h : (oneReadExecutor n grid).pieces[p]? = some piece) : piece = [] := by
  obtain ⟨piece', hpiece', rfl⟩ := Option.map_eq_some_iff.mp ((List.getElem?_map ..).symm.trans h)
  rw [oneRead_pieces hne hpiece']
  rfl

theorem oneRead_current {s : Sys Unit ℕ} (hs : ((s.table ()).phase 0).isDone = false) :
    (oneReadExecutor n grid).current s [[((), (oneReadOp n).remap grid)]] =
      some [((), (oneReadOp n).remap grid)] := by
  have hfin : (oneReadExecutor n grid).finished s ((), (oneReadOp n).remap grid) = false := by
    rw [Executor.finished, oneRead_index]
    exact hs
  simp [Executor.current, hfin]

theorem oneRead_step (hn : 10 * 2 ^ 20 ≤ n) (st : State ℕ) (data : ℕ) :
    step ((oneReadExecutor n grid).table ()) st 0 data =
      (gpuReadFromTableCoop st.mem (grid 1) 0 1 (st.phase 0)).map fun p =>
        ⟨st.mem, Function.update st.phase 0 p⟩ := by
  have hget : ((oneReadExecutor n grid).table ()).ops[0]? = some ((oneReadOp n).remap grid) := by
    rw [Executor.table, oneRead_batch]
    rfl
  have hloc : ((oneReadExecutor n grid).table ()).loc ((oneReadOp n).remap grid) = 0 := oneRead_loc hn grid
  simp only [step, hget, hloc]
  rfl

/-- Lane 0 of the piece does the READ, the other lanes have nothing to do. -/
theorem oneRead_lane {c : ℕ} (hc : n < c) {table : Unit → State ℕ}
    (hrunning : ((table ()).phase 0).isDone = false) (l data : ℕ) :
    sysStep (oneReadExecutor n grid) ⟨c, table⟩ (.lane n l data) =
      if l = 0 then (step ((oneReadExecutor n grid).table ()) (table ()) 0 data).map fun st =>
        ⟨c, Function.update table () st⟩ else none := by
  have hcurrent := @oneRead_current n grid ⟨c, table⟩ hrunning
  simp only [sysStep, if_neg (Nat.not_le.mpr hc), oneRead_piece_remap, hcurrent]
  cases l with
  | zero =>
    simp only [List.getElem?_cons_zero, oneRead_index]
    rfl
  | succ l => rfl

/-- The table with the READ at its wait. -/
def waitingRead : State ℕ := ⟨emptyMemory, Function.update (fun _ => .idle) 0 (.waiting (.version 0))⟩

theorem waitingRead_phase : waitingRead.phase 0 = .waiting (.version 0) := by
  simp [waitingRead]

/-- The READ finds 0 in its plan word, which is a scratch version that no operation writes. When all
    pieces have been handed out and the READ has come to its wait, nothing can happen any more. -/
theorem oneRead_stuck (hn : 10 * 2 ^ 20 ≤ n) (hgrid : grid 1 ≠ kNoRecord) :
    ∃ evs s, sysRun (oneReadExecutor n grid) (.start fun _ => emptyMemory) evs = some s ∧
      n < s.counter ∧ ¬ (oneReadExecutor n grid).pieceDone s n ∧
      ∀ ev, sysStep (oneReadExecutor n grid) s ev = none := by
  have hlen : n < (oneReadExecutor n grid).pieces.length :=
    (List.getElem?_eq_some_iff.mp oneRead_piece_remap).1
  obtain ⟨k, c, hc, hrun⟩ := exists_dispatched (X := oneReadExecutor n grid) (Nat.succ_pos 3)
    (.start fun _ => emptyMemory)
  have hread : ∀ data, step ((oneReadExecutor n grid).table ()) (.start emptyMemory) 0 data =
      some waitingRead := by
    intro data
    rw [oneRead_step hn]
    simp only [State.start, gpuReadFromTableCoop, if_neg hgrid]
    rfl
  have hstuck : ∀ data, step ((oneReadExecutor n grid).table ()) waitingRead 0 data = none := by
    intro data
    rw [oneRead_step hn, waitingRead_phase]
    rfl
  refine ⟨List.replicate k .dispatch ++ [.lane n 0 0], ⟨c, fun _ => waitingRead⟩, ?_, hlen.trans_le hc, ?_, ?_⟩
  · have hfirst : sysStep (oneReadExecutor n grid) ⟨c, fun _ => .start emptyMemory⟩ (.lane n 0 0) =
        some ⟨c, fun _ => waitingRead⟩ := by
      rw [oneRead_lane (hlen.trans_le hc) rfl, if_pos rfl, hread]
      exact congrArg some (congrArg _ (funext fun _ => Function.update_self ..))
    rw [sysRun, List.foldlM_append]
    refine (congrArg (· >>= _) hrun).trans ?_
    exact (bind_pure _).trans hfirst
  · intro hdone
    have hfin := hdone _ oneRead_piece_remap _ (List.mem_singleton_self _) _ (List.mem_singleton_self _)
    rw [Executor.finished, oneRead_index, waitingRead_phase] at hfin
    cases hfin
  · rintro (_ | ⟨p, l, data⟩)
    · exact if_neg (Nat.not_lt.mpr hc)
    · rcases eq_or_ne p n with rfl | hne
      · have hrunning : (waitingRead.phase 0).isDone = false := by
          rw [waitingRead_phase]
          rfl
        rw [oneRead_lane (hlen.trans_le hc) hrunning, hstuck]
        split <;> rfl
      · simp only [sysStep]
        split
        · rfl
        · split
          · rfl
          · next piece hpiece =>
            rw [oneRead_pieces_remap hne hpiece]
            rfl

end

/-- With the READ of record 1 in transaction 2^20 the epoch is one that the submitter takes and the
    cache holds, and it never ends. -/
theorem wide_reader_stuck : ∃ grid,
    (∀ x ∈ oneRead (10 * 2 ^ 20), x.Ok false) ∧
    Staged (smallCache false) (Ycsb.submitYcsbTxns false (oneRead (10 * 2 ^ 20))) grid ∧
    (∃ evs s, sysRun (oneReadExecutor (10 * 2 ^ 20) grid) (.start fun _ => emptyMemory) evs = some s ∧
      (∃ p < s.counter, ¬ (oneReadExecutor (10 * 2 ^ 20) grid).pieceDone s p) ∧
      ∀ ev, sysStep (oneReadExecutor (10 * 2 ^ 20) grid) s ev = none) ∧
    ¬ NoDeadlock (oneReadExecutor (10 * 2 ^ 20) grid) fun _ => emptyMemory := by
  have hkeys : (Ycsb.submitYcsbTxns false (oneRead (10 * 2 ^ 20))).map keyOf = [1] := by
    rw [oneRead_submitted]
    decide +kernel
  obtain ⟨grid, hgrid⟩ := @exists_staged (smallCache false)
    (Ycsb.submitYcsbTxns false (oneRead (10 * 2 ^ 20))) (by rw [hkeys]; exact fun k hk => Or.inl (by
      revert k; decide)) (by rw [hkeys]; decide) (by rw [hkeys]; decide)
  have hslot : grid 1 ≠ kNoRecord := hgrid.present (hkeys ▸ List.mem_singleton_self _) (by decide)
  obtain ⟨evs, s, hrun, hlt, hopen, hno⟩ := oneRead_stuck le_rfl hslot
  refine ⟨grid, ?_, hgrid, ⟨evs, s, hrun, ⟨_, hlt, hopen⟩, hno⟩, fun hgo => ?_⟩
  · intro x hx
    simp only [oneRead, List.mem_append, List.mem_cons, List.mem_replicate] at hx
    rcases hx with ⟨-, rfl⟩ | rfl | ⟨-, rfl⟩ <;> exact ⟨by decide, by decide⟩
  · obtain ⟨ev, s', hs'⟩ := hgo.goesOn hrun ⟨_, hopen⟩
    cases (hno ev).symm.trans hs'

end Egad.Execution
