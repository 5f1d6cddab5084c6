import Egad.Micro.Slots
import Egad.Lib.Runs

/-! # Aborted transactions of the micro benchmark

    A transaction that aborts is flagged in its buffer, and the next epoch works on the flagged ones
    before its own; flags are only set for an epoch's own transactions, so nothing is tried a third
    time. The second try runs with the same abort flag as the first.

        epoch e      slot n + i  aborts, writes back what it read     flag i of buffer e
        epoch e + 1  slot i      the same once more                    no flag of buffer e + 1

    What a run leaves in the records is therefore what the transactions that do not abort make of
    them, in the order of the epochs and of their slots. -/

namespace Egad.Micro
open Egad.Planner Egad.Execution

variable {cfg : MicroConfig} {junk : ℕ → MicroValue} {txnArray : ℕ → ℕ → MicroTxn}
  {schedule : ℕ → List WarpEvent} {e : ℕ} {b b' : MicroBenchmark}

/-! ### The purpose -/

/-- The transactions that epoch `e + 1` has to try: those of the epoch before that aborted, and its
    own. -/
def epochSlots (cfg : MicroConfig) (txnArray : ℕ → ℕ → MicroTxn) (e : ℕ) :
    List (Option MicroTxnParams) :=
  ((List.range cfg.numTxns).map fun i =>
      if 0 < e ∧ (txnArray (e - 1) i).abort = true then some (txnArray (e - 1) i).params else none) ++
    (List.range cfg.numTxns).map fun i => some (txnArray e i).params

/-- A transaction in slot `slot`, on records that nobody else uses. -/
def commit (slot : ℕ) (store : ℕ → MicroValue) (txn : MicroTxn) : ℕ → MicroValue :=
  if txn.abort then store
  else (List.finRange 10).foldl (fun store i =>
    Function.update store (txn.keys i) fun lane => store (txn.keys i) lane ^^^ BitVec.ofNat 32 slot) store

/-- The records after the transactions of `e` epochs, each of which commits or not. -/
def committed (cfg : MicroConfig) (txnArray : ℕ → ℕ → MicroTxn) : ℕ → ℕ → MicroValue
  | 0 => fun _ _ => 0
  | e + 1 => (List.range cfg.numTxns).foldl
      (fun store i => commit (cfg.numTxns + i) store (txnArray e i)) (committed cfg txnArray e)

/-! ### Slots of an epoch -/

/-- What the buffers and the records hold after `e` epochs. -/
structure Retains (cfg : MicroConfig) (txnArray : ℕ → ℕ → MicroTxn) (e : ℕ) (b : MicroBenchmark) :
    Prop where
  flags : ∀ i < cfg.numTxns, (b.epochTxnData (e % 2)).retry i = true ↔
    0 < e ∧ (txnArray (e - 1) i).abort = true
  input : 0 < e → (b.epochTxnData (e % 2)).indexInput = txnArray (e - 1)
  tags : ∀ c, b.memory.tag c < e + 1
  latest : ∀ r < cfg.numRecords, b.memory.latest r = committed cfg txnArray e r

theorem retains_init : Retains cfg txnArray 0 .init where
  flags i _ := iff_of_false Bool.false_ne_true fun h => absurd h.1 (Nat.lt_irrefl 0)
  input h := absurd h (Nat.lt_irrefl 0)
  tags _ := Nat.one_pos
  latest r _ := by
    rw [latest_eq]
    rfl

/-- The slots that the submitter and the kernel find. -/
def preparedSlots (cfg : MicroConfig) (b : MicroBenchmark) (txns : ℕ → MicroTxn) (epochId : ℕ) :
    List (Option MicroTxnParams) :=
  slots cfg (b.prepare cfg txns epochId).1 (b.prepare cfg txns epochId).2

theorem slots_eq (prev curr : EpochTxnData) : slots cfg prev curr =
    ((List.range cfg.numTxns).map fun i => if prev.retry i then some (prev.indexOutput i) else none) ++
      (List.range cfg.numTxns).map fun i => some (curr.indexOutput i) := by
  rw [slots, two_mul, Lib.map_range_add]
  congr 1
  · refine List.map_congr_left fun i hi => ?_
    rw [slotParams, if_pos (List.mem_range.mp hi)]
  · refine List.map_congr_left fun i hi => ?_
    rw [slotParams, if_neg (by omega), Nat.add_sub_cancel_left]

theorem preparedSlots_eq (hkeys : ∀ e i k, (txnArray e i).keys k < cfg.numRecords)
    (h : Retains cfg txnArray e b) :
    preparedSlots cfg b (txnArray e) (e + 1) = epochSlots cfg txnArray e := by
  have hprev : (e + 1 + 1) % 2 = e % 2 := by omega
  rw [preparedSlots, slots_eq, epochSlots, MicroBenchmark.prepare, hprev]
  congr 1
  · refine List.map_congr_left fun i hi => ?_
    have hi := List.mem_range.mp hi
    have hflag := h.flags i hi
    by_cases hretry : (b.epochTxnData (e % 2)).retry i = true
    · have hpos := (hflag.mp hretry).1
      simp only [indexTxns, hretry, hi, and_self, if_true]
      rw [if_pos (hflag.mp hretry), h.input hpos, indexTxn_eq (hkeys _ _)]
    · simp only [indexTxns, hretry, Bool.false_eq_true, if_false]
      rw [if_neg fun h => hretry (hflag.mpr h)]
  · refine List.map_congr_left fun i hi => ?_
    simp only [indexTxns, List.mem_range.mp hi, if_true]
    rw [indexTxn_eq (hkeys e i)]

theorem epochSlots_inTable (hkeys : ∀ e i k, (txnArray e i).keys k < cfg.numRecords) :
    InTable cfg (epochSlots cfg txnArray e) := by
  intro p hp
  rcases List.mem_append.mp hp with hp | hp
  · obtain ⟨i, -, hi⟩ := List.mem_map.mp hp
    split at hi
    · obtain rfl := Option.some.inj hi
      exact hkeys _ i
    · cases hi
  · obtain ⟨i, -, hi⟩ := List.mem_map.mp hp
    obtain rfl := Option.some.inj hi
    exact hkeys e i

theorem epochSlots_length : (epochSlots cfg txnArray e).length = 2 * cfg.numTxns := by
  rw [epochSlots, List.length_append, List.length_map, List.length_map, List.length_range, two_mul]

theorem InTable.noSkips (hcfg : cfg.Fits) {xs : List (Option MicroTxnParams)} (hin : InTable cfg xs)
    (p : MicroTxnParams) (hp : some p ∈ xs) (i : Fin 10) : p.recordIds i ≠ kNoRecord := by
  have hlt := hin p hp i
  have hmax := hcfg.numRecords
  omega

/-! ### An epoch on the plain records -/

/-- A slot that aborts, and one with nothing to do, leaves the records. -/
theorem applySlot_of_abort {store : ℕ → MicroValue} {tid : ℕ} {x : Option MicroTxnParams}
    (h : ∀ p, x = some p → p.abort = true) : applySlot store tid x = store := by
  cases x with
  | none => rfl
  | some p =>
    rw [applySlot]
    generalize List.finRange 10 = l
    induction l with
    | nil => rfl
    | cons i l ih =>
      rw [List.foldl_cons, dataOp, if_pos (h p rfl), Function.update_eq_self]
      exact ih

theorem applySlot_params (store : ℕ → MicroValue) (tid : ℕ) (txn : MicroTxn) :
    applySlot store tid (some txn.params) = commit tid store txn := by
  cases habort : txn.abort with
  | true =>
    rw [commit, habort, if_pos rfl]
    exact applySlot_of_abort fun p hp => by
      rw [← Option.some.inj hp]
      exact habort
  | false =>
    have hdata : ∀ v, dataOp tid txn.params v = fun lane => v lane ^^^ BitVec.ofNat 32 tid := by
      intro v
      rw [dataOp, MicroTxn.params, habort]
      rfl
    rw [commit, habort, applySlot]
    simp only [hdata, Bool.false_eq_true, if_false]
    rfl

theorem zipIdx_map_range {α : Type} (f : ℕ → α) (n k : ℕ) :
    ((List.range n).map f).zipIdx k = (List.range n).map fun i => (f i, k + i) := by
  refine List.ext_getElem? fun i => ?_
  rw [List.getElem?_zipIdx, List.getElem?_map, List.getElem?_map, Option.map_map]
  by_cases hi : i < n
  · rw [List.getElem?_range hi]
    rfl
  · rw [List.getElem?_eq_none (by rw [List.length_range]; omega)]
    rfl

/-- The slots of an epoch leave what its own transactions that do not abort make of the records. -/
theorem foldl_epochSlots (store : ℕ → MicroValue) :
    (epochSlots cfg txnArray e).zipIdx.foldl (fun store x => applySlot store x.2 x.1) store =
      (List.range cfg.numTxns).foldl
        (fun store i => commit (cfg.numTxns + i) store (txnArray e i)) store := by
  rw [epochSlots, List.zipIdx_append, List.foldl_append, zipIdx_map_range, zipIdx_map_range,
    List.foldl_map, List.foldl_map, List.length_map, List.length_range, Nat.zero_add]
  have hretries : ∀ l : List ℕ, l.foldl (fun store i => applySlot store (0 + i)
      (if 0 < e ∧ (txnArray (e - 1) i).abort = true then some (txnArray (e - 1) i).params else none))
        store = store := by
    intro l
    induction l with
    | nil => rfl
    | cons i l ih =>
      rw [List.foldl_cons, applySlot_of_abort]
      · exact ih
      · intro p hp
        split at hp
        · next h =>
          obtain rfl := Option.some.inj hp
          exact h.2
        · cases hp
  rw [hretries]
  simp only [applySlot_params]

/-! ### Epochs -/

theorem finish_curr (ready : EpochTxnData × EpochTxnData) (epochId : ℕ) (s : Sys Unit MicroValue) :
    (b.finish cfg ready epochId s).epochTxnData (epochId % 2) = { ready.2 with retry := fun tid =>
      if tid < cfg.numTxns then (ready.2.indexOutput tid).abort else ready.2.retry tid } :=
  Function.update_self ..

/-- What an iteration of `runBenchmark` does. -/
theorem runEpoch_cases {txns : ℕ → MicroTxn} {epochId : ℕ} {evs : List WarpEvent}
    (h : b.runEpoch cfg junk txns epochId evs = some b') :
    ∃ s, warpRun microCoop (microExecutor junk (preparedSlots cfg b txns epochId) b.plan epochId)
        (microPrograms junk (preparedSlots cfg b txns epochId)) (.start fun _ => b.memory) evs = some s ∧
      returned (microExecutor junk (preparedSlots cfg b txns epochId) b.plan epochId) s = true ∧
      b'.memory = (s.table ()).mem ∧
      (b'.epochTxnData (epochId % 2)).indexInput = txns ∧
      ∀ i < cfg.numTxns, (b'.epochTxnData (epochId % 2)).retry i =
        ((b.prepare cfg txns epochId).2.indexOutput i).abort := by
  obtain ⟨s, hs, hret⟩ := Option.bind_eq_some_iff.mp h
  split at hret
  · next hdone =>
    obtain rfl := Option.some.inj hret
    refine ⟨s, hs, hdone, rfl, ?_, fun i hi => ?_⟩
    · rw [finish_curr]
      rfl
    · rw [finish_curr]
      exact if_pos hi
  · cases hret

/-- Slots on records that agree in the table. -/
theorem foldl_applySlot_congr {n : ℕ} {ys : List (Option MicroTxnParams × ℕ)}
    (hys : ∀ y ∈ ys, ∀ p, y.1 = some p → ∀ i, p.recordIds i < n) {st st' : ℕ → MicroValue}
    (h : ∀ r < n, st r = st' r) {r : ℕ} (hr : r < n) :
    ys.foldl (fun store x => applySlot store x.2 x.1) st r =
      ys.foldl (fun store x => applySlot store x.2 x.1) st' r := by
  induction ys generalizing st st' with
  | nil => exact h r hr
  | cons y ys ih =>
    refine ih (fun y' hy' => hys y' (List.mem_cons_of_mem _ hy')) fun r hr => ?_
    have hy := hys y List.mem_cons_self
    obtain ⟨x, tid⟩ := y
    cases x with
    | none => exact h r hr
    | some p =>
      show applySlot st tid (some p) r = applySlot st' tid (some p) r
      rw [applySlot, applySlot]
      generalize List.finRange 10 = l
      induction l generalizing st st' with
      | nil => exact h r hr
      | cons i l ihl =>
        refine ihl fun r hr => ?_
        dsimp only
        rw [h _ (hy p rfl i)]
        by_cases hri : r = p.recordIds i
        · rw [hri, Function.update_self, Function.update_self]
        · rw [Function.update_of_ne hri, Function.update_of_ne hri]
          exact h r hr

theorem retains_runEpoch (hcfg : cfg.Fits)
    (hkeys : ∀ e i k, (txnArray e i).keys k < cfg.numRecords) (h : Retains cfg txnArray e b)
    {evs : List WarpEvent} (hrun : b.runEpoch cfg junk (txnArray e) (e + 1) evs = some b') :
    Retains cfg txnArray (e + 1) b' := by
  obtain ⟨s, hs, hdone, hmem, hinput, hflags⟩ := runEpoch_cases hrun
  rw [preparedSlots_eq hkeys h] at hs hdone
  have hin : InTable cfg (epochSlots cfg txnArray e) := epochSlots_inTable hkeys
  have hb := submit_batch hcfg epochSlots_length hin
  have hr : Runs (microExecutor junk (epochSlots cfg txnArray e) b.plan (e + 1)) (microPrograms junk _) :=
    microExecutor_runs hb b.plan (e + 1)
  have hl : ∀ t, Located ((microExecutor junk (epochSlots cfg txnArray e) b.plan (e + 1)).submitted t)
      ((microExecutor junk (epochSlots cfg txnArray e) b.plan (e + 1)).loc t) := fun _ => located hb b.plan
  refine ⟨fun i hi => ?_, fun _ => hinput, fun c => ?_, fun r hlt => ?_⟩
  · rw [hflags i hi, MicroBenchmark.prepare, indexTxns]
    simp only [hi, if_true, indexTxn, Nat.add_sub_cancel, Nat.zero_lt_succ, true_and]
  · rw [hmem]
    exact ((warpRun_inv hr hl (fun _ => h.tags) hs).1 ()).tags_lt h.tags c
  · have hne : r ≠ kNoRecord := by
      have hmax := hcfg.numRecords
      omega
    have hserial : (s.table ()).mem.latest r =
        serialRows microCoop (fun _ => b.memory.latest) (microPrograms junk (epochSlots cfg txnArray e)) () r :=
      warpRun_serial hr hl (fun _ => h.tags) hs hdone () r hne
    rw [hmem, hserial, serialRows_micro (hin.noSkips hcfg), committed, ← foldl_epochSlots]
    exact foldl_applySlot_congr (fun y hy p hp => hin p (hp ▸ List.fst_mem_of_mem_zipIdx hy)) h.latest hlt

theorem retains_run (hcfg : cfg.Fits) (hkeys : ∀ e i k, (txnArray e i).keys k < cfg.numRecords)
    (hrun : runBenchmark cfg junk txnArray schedule e = some b) : Retains cfg txnArray e b := by
  induction e generalizing b with
  | zero =>
    obtain rfl := Option.some.inj hrun
    exact retains_init
  | succ e ih =>
    obtain ⟨b₀, hb₀, hstep⟩ := Option.bind_eq_some_iff.mp hrun
    exact retains_runEpoch hcfg hkeys (ih hb₀) hstep

/-! ### Schedules -/

theorem microExecutor_noDeadlock {xs : List (Option MicroTxnParams)} (hb : Batch (submit xs))
    (plan : ExecPlan) {epoch : ℕ} {m : Memory MicroValue} (hstart : ∀ c, m.tag c < epoch) :
    NoDeadlock (microExecutor junk xs plan epoch) fun _ => m :=
  noDeadlock_of_located (microExecutor_runs hb plan epoch).matched (fun _ => located hb plan)
    (fun _ => hstart) (by decide : 0 < 16)

/-- An epoch that has been begun can be run to its end. -/
theorem exists_runEpoch (hcfg : cfg.Fits) (hkeys : ∀ e i k, (txnArray e i).keys k < cfg.numRecords)
    (h : Retains cfg txnArray e b) {evs : List WarpEvent} {s : Sys Unit MicroValue}
    (hrun : warpRun microCoop
      (microExecutor junk (preparedSlots cfg b (txnArray e) (e + 1)) b.plan (e + 1))
      (microPrograms junk (preparedSlots cfg b (txnArray e) (e + 1))) (.start fun _ => b.memory) evs =
        some s) :
    ∃ more b', b.runEpoch cfg junk (txnArray e) (e + 1) (evs ++ more) = some b' := by
  have hb : Batch (submit (preparedSlots cfg b (txnArray e) (e + 1))) := by
    rw [preparedSlots_eq hkeys h]
    exact submit_batch hcfg epochSlots_length (epochSlots_inTable hkeys)
  obtain ⟨more, s', hs', hret⟩ := exists_returned (microExecutor_runs hb b.plan (e + 1))
    (microExecutor_noDeadlock hb b.plan h.tags) hrun
  refine ⟨more, b.finish cfg (b.prepare cfg (txnArray e) (e + 1)) (e + 1) s', ?_⟩
  exact Option.bind_eq_some_iff.mpr ⟨s', hs', if_pos hret⟩

theorem exists_run (hcfg : cfg.Fits) (hkeys : ∀ e i k, (txnArray e i).keys k < cfg.numRecords)
    (junk : ℕ → MicroValue) (e : ℕ) : ∃ schedule b, runBenchmark cfg junk txnArray schedule e = some b := by
  induction e with
  | zero => exact ⟨fun _ => [], .init, rfl⟩
  | succ e ih =>
    obtain ⟨schedule, b, hb⟩ := ih
    have hbegun := retains_run hcfg hkeys hb
    obtain ⟨more, b', hb'⟩ : ∃ more b', b.runEpoch cfg junk (txnArray e) (e + 1) more = some b' := by
      obtain ⟨more, b', hmore⟩ := exists_runEpoch hcfg hkeys hbegun (rfl : warpRun microCoop
        (microExecutor junk (preparedSlots cfg b (txnArray e) (e + 1)) b.plan (e + 1)) _
        (.start fun _ => b.memory) [] = _)
      exact ⟨more, b', hmore⟩
    refine ⟨Function.update schedule (e + 1) more, b', ?_⟩
    have hsame : ∀ n ≤ e, runBenchmark cfg junk txnArray (Function.update schedule (e + 1) more) n =
        runBenchmark cfg junk txnArray schedule n := by
      intro n
      induction n with
      | zero => exact fun _ => rfl
      | succ n ih =>
        intro hn
        rw [runBenchmark, runBenchmark, ih (by omega), Function.update_of_ne (by omega)]
    rw [runBenchmark, hsame e (Nat.le_refl e), hb, Function.update_self]
    exact hb'

/-- The loads, stores and dispatches of an epoch, at most. -/
theorem budget_le {xs : List (Option MicroTxnParams)} (plan : ExecPlan) (epoch : ℕ)
    (m : Memory MicroValue) :
    (microExecutor junk xs plan epoch).budget (.start fun _ => m) ≤ 81 * xs.length := by
  have hranks : ((accesses (microExecutor junk xs plan epoch).pieces).map fun a =>
      (((Sys.start fun _ => m : Sys Unit MicroValue).table a.1).phase
        ((microExecutor junk xs plan epoch).index a)).rank).sum =
      (accesses (microExecutor junk xs plan epoch).pieces).length * 4 := by
    exact (List.sum_eq_card_nsmul _ _ fun x hx => by
      obtain ⟨a, -, rfl⟩ := List.mem_map.mp hx
      rfl).trans (by rw [List.length_map, nsmul_eq_mul, Nat.cast_id])
  have hlen : (submit xs).length ≤ xs.length * 20 := submit_length_le
  have hpieces : (microExecutor junk xs plan epoch).pieces.length = xs.length := by
    rw [microExecutor, programPieces, microPrograms, List.length_map, List.length_map,
      List.length_zipIdx]
  rw [Executor.budget, hranks, accesses_microExecutor, List.length_map, hpieces]
  omega

/-! ### Results -/

/-- Two transactions an epoch on ten records, of which the first aborts. -/
def firstAborts : ℕ → ℕ → MicroTxn := fun _ i => ⟨fun k => k, decide (i = 0)⟩

theorem firstAborts_keys (e i : ℕ) (k : Fin 10) : (firstAborts e i).keys k < 10 := k.isLt

theorem tenRecords_fits : (⟨10, 2⟩ : MicroConfig).Fits := ⟨by decide, by decide⟩

/-- In every run, whatever the schedules of its epochs: the next epoch tries the transactions of the
    last one that aborted and its own, and nothing else; and the records hold what the transactions
    that do not abort have made of them in the order of their slots. So an aborted transaction is
    tried twice and commits neither time. -/
theorem aborted_tried_twice (hcfg : cfg.Fits) (hkeys : ∀ e i k, (txnArray e i).keys k < cfg.numRecords)
    (hrun : runBenchmark cfg junk txnArray schedule e = some b) :
    preparedSlots cfg b (txnArray e) (e + 1) = epochSlots cfg txnArray e ∧
      ∀ r < cfg.numRecords, b.memory.latest r = committed cfg txnArray e r := by
  have h : Retains cfg txnArray e b := retains_run hcfg hkeys hrun
  exact ⟨preparedSlots_eq hkeys h, h.latest⟩

theorem aborted_tried_twice_firstAborts : ∃ schedule b,
    runBenchmark ⟨10, 2⟩ (fun _ _ => 0) firstAborts schedule 3 = some b ∧
    (preparedSlots ⟨10, 2⟩ b (firstAborts 3) 4).map Option.isSome = [true, false, true, true] ∧
    b.memory.latest 4 = fun _ => 3 := by
  obtain ⟨schedule, b, hrun⟩ := exists_run tenRecords_fits firstAborts_keys (fun _ _ => 0) 3
  obtain ⟨hslots, hlatest⟩ := aborted_tried_twice tenRecords_fits firstAborts_keys hrun
  refine ⟨schedule, b, hrun, ?_, ?_⟩
  · rw [hslots]
    rfl
  · rw [hlatest 4 (by decide)]
    have hlanes : ∀ lane : Fin 25, committed ⟨10, 2⟩ firstAborts 3 4 lane = 3#32 := by decide +kernel
    exact funext hlanes

/-- From any point of an epoch of any run, the epoch can be run to its end; that takes at most 162
    loads, stores and dispatches for each transaction, and the scratch versions fit their array. -/
theorem begun_epoch_finishes (hcfg : cfg.Fits)
    (hkeys : ∀ e i k, (txnArray e i).keys k < cfg.numRecords)
    (hrun : runBenchmark cfg junk txnArray schedule e = some b) {evs : List WarpEvent}
    {s : Sys Unit MicroValue}
    (hbegun : warpRun microCoop
      (microExecutor junk (preparedSlots cfg b (txnArray e) (e + 1)) b.plan (e + 1))
      (microPrograms junk (preparedSlots cfg b (txnArray e) (e + 1))) (.start fun _ => b.memory) evs =
        some s) :
    (∃ more b', b.runEpoch cfg junk (txnArray e) (e + 1) (evs ++ more) = some b') ∧
      evs.length ≤ 162 * cfg.numTxns ∧
      VersionsFit ((submit (preparedSlots cfg b (txnArray e) (e + 1))).map Op.encode)
        (cfg.numTxns * 2 * 10) := by
  have h : Retains cfg txnArray e b := retains_run hcfg hkeys hrun
  have hlen : (preparedSlots cfg b (txnArray e) (e + 1)).length = 2 * cfg.numTxns := by
    rw [preparedSlots_eq hkeys h, epochSlots_length]
  have hb : Batch (submit (preparedSlots cfg b (txnArray e) (e + 1))) := by
    rw [preparedSlots_eq hkeys h]
    exact submit_batch hcfg epochSlots_length (epochSlots_inTable hkeys)
  refine ⟨exists_runEpoch hcfg hkeys h hbegun, ?_, ?_⟩
  · obtain ⟨evs', hevs, hsys⟩ := sysRun_of_warpRun hbegun
    have hends := (microExecutor_noDeadlock hb b.plan h.tags).ends hsys
    have hbudget : (microExecutor junk (preparedSlots cfg b (txnArray e) (e + 1)) b.plan (e + 1)).budget
        (.start fun _ => b.memory) ≤ _ := budget_le b.plan (e + 1) b.memory
    omega
  · rw [mul_comm _ 2, ← hlen]
    exact submit_versionsFit

theorem begun_epoch_finishes_firstAborts : ∃ more b',
    MicroBenchmark.init.runEpoch ⟨10, 2⟩ (fun _ _ => 0) (firstAborts 0) 1
      ([.dispatch, .warp 2, .warp 3] ++ more) = some b' := by
  have hbegun : (warpRun microCoop (microExecutor (fun _ _ => 0)
      (preparedSlots ⟨10, 2⟩ .init (firstAborts 0) 1) MicroBenchmark.init.plan 1)
      (microPrograms (fun _ _ => 0) (preparedSlots ⟨10, 2⟩ .init (firstAborts 0) 1))
      (.start fun _ => MicroBenchmark.init.memory) [.dispatch, .warp 2, .warp 3]).isSome = true := by
    decide +kernel
  obtain ⟨s, hs⟩ := Option.isSome_iff_exists.mp hbegun
  have hrun : runBenchmark ⟨10, 2⟩ (fun _ _ => 0) firstAborts (fun _ => []) 0 = some .init := rfl
  exact (begun_epoch_finishes tenRecords_fits firstAborts_keys hrun hs).1

end Egad.Micro
