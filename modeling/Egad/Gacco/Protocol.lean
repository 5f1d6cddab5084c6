import Egad.Gacco.Queues
import Mathlib.Algebra.Order.BigOperators.Group.Finset

/-! # The lock protocol

    The executor's arrays carry out the queue locks of the library: the lock word of a record is the
    entry of `access` at which its queue stands,

        lock[r] = access[base + served]        offset[r] = base + served (+ 1 inside a release)

    and every turn of a transaction is a step of the library's machine. Behind the end of a queue the
    lock word is the front of another one; nobody looks at it any more, because every transaction takes
    a lock exactly as often as it stands in the queue. -/

namespace Egad.Gacco
open Egad.Lib Relation
open Egad.Tpcc (TableName ItemParam)

/-- The cases of a turn. -/
theorem stepTxn_cases {s s' : State} {x : ℕ} (h : stepTxn s x = some s') :
    (∃ k rest held, s.threads x = ⟨.acquire k :: rest, held, none⟩ ∧ (s.locks k.1).lock k.2 = x ∧
      s' = s.acquireLock x k ⟨rest, insert k held, none⟩) ∨
    (∃ k rest held, s.threads x = ⟨.release k :: rest, held, none⟩ ∧
      s' = s.addOffset x k ⟨rest, held.erase k, some (k, (s.locks k.1).offset k.2 + 1)⟩) ∨
    ∃ k o rest held, s.threads x = ⟨rest, held, some (k, o)⟩ ∧
      s' = s.exchLock x k o ⟨rest, held, none⟩ := by
  rw [stepTxn] at h
  split at h
  · next rest held k o hx => exact Or.inr (Or.inr ⟨k, o, rest, held, hx, (Option.some.inj h).symm⟩)
  · next k rest held hx =>
    split at h
    · next hlock => exact Or.inl ⟨k, rest, held, hx, hlock, (Option.some.inj h).symm⟩
    · cases h
  · next k rest held hx => exact Or.inr (Or.inl ⟨k, rest, held, hx, (Option.some.inj h).symm⟩)
  · cases h

/-- What a thread of the library's machine sees of a transaction. -/
def Thread.lock (t : Thread) : LockThread Key := ⟨t.rest, t.held, t.passing.map Prod.fst⟩

/-- The lock of key `k` in memory, with its queue at `base`. -/
structure InMemory (Q : List ℕ) (s : State) (k : Key) (served base : ℕ) : Prop where
  access : ∀ j q, Q[j]? = some q → (s.locks k.1).access (base + j) = q
  lock : (s.locks k.1).lock k.2 = (s.locks k.1).access (base + served)
  offset : (∀ x o, (s.threads x).passing ≠ some (k, o)) → (s.locks k.1).offset k.2 = base + served
  passing : ∀ x o, (s.threads x).passing = some (k, o) →
    o = base + served + 1 ∧ (s.locks k.1).offset k.2 = o

/-- The state of the executor and one of the library's machine agree. -/
structure Sim (Q : Key → List ℕ) (s : State) (a : LockState Key) : Prop where
  threads : ∀ x, a.threads x = (s.threads x).lock
  grants : a.grants = s.grants
  key : ∀ k, Q k ≠ [] → ∃ base, InMemory (Q k) s k (a.served k) base

section
variable {Q : Key → List ℕ} {s s' : State} {a : LockState Key} {x : ℕ}

/-- The front of a queue is in the lock word. -/
theorem InMemory.lock_eq {k : Key} {served base : ℕ} (h : InMemory (Q k) s k served base) {q : ℕ}
    (hq : (Q k)[served]? = some q) : (s.locks k.1).lock k.2 = q := by
  rw [h.lock, h.access served q hq]

/-- A transaction about to take a lock stands in its queue, and the queue has not been served to its
    end. -/
theorem served_lt (hi : LockInv Q a) {k : Key} (hm : .acquire k ∈ (a.threads x).rest) :
    a.served k < (Q k).length := by
  rcases hi.key k with ⟨-, hg, -⟩ | ⟨y, hy, -⟩ | ⟨y, hy, -⟩
  · have hmem := hi.waiting hg hm
    by_contra hle
    rw [List.drop_eq_nil_of_le (Nat.not_lt.mp hle)] at hmem
    exact absurd hmem List.not_mem_nil
  · exact (List.getElem?_eq_some_iff.mp hy).1
  · exact (List.getElem?_eq_some_iff.mp hy).1

theorem threads_update {ts : ℕ → Thread} {as : ℕ → LockThread Key} (h : ∀ y, as y = (ts y).lock) (x : ℕ)
    (t : Thread) : ∀ y, Function.update as x t.lock y = (Function.update ts x t y).lock := by
  intro y
  rcases eq_or_ne y x with rfl | hne
  · rw [Function.update_self, Function.update_self]
  · rw [Function.update_of_ne hne, Function.update_of_ne hne, h]

/-- A lock stays in memory when its words, its queue and the releases of it are as before. -/
theorem InMemory.frame {k : Key} {served base : ℕ} (h : InMemory (Q k) s k served base)
    (haccess : (s'.locks k.1).access = (s.locks k.1).access)
    (hlock : (s'.locks k.1).lock k.2 = (s.locks k.1).lock k.2)
    (hoffset : (s'.locks k.1).offset k.2 = (s.locks k.1).offset k.2)
    (hpass : ∀ y o, (s'.threads y).passing = some (k, o) ↔ (s.threads y).passing = some (k, o)) :
    InMemory (Q k) s' k served base where
  access := by rw [haccess]; exact h.access
  lock := by rw [hlock, haccess]; exact h.lock
  offset hno := by
    rw [hoffset]
    exact h.offset fun y o hy => hno y o ((hpass y o).mpr hy)
  passing y o hy := by
    rw [hoffset]
    exact h.passing y o ((hpass y o).mp hy)

/-- A thread that is not in a release of `k` before or after its turn changes nothing for `k`. -/
theorem passing_update {k : Key} {t : Thread} (ht : ∀ o, t.passing ≠ some (k, o))
    (hx : ∀ o, (s.threads x).passing ≠ some (k, o)) (y o : ℕ) :
    (Function.update s.threads x t y).passing = some (k, o) ↔ (s.threads y).passing = some (k, o) := by
  rcases eq_or_ne y x with rfl | hne
  · rw [Function.update_self]
    exact ⟨fun h => absurd h (ht o), fun h => absurd h (hx o)⟩
  · rw [Function.update_of_ne hne]

theorem Sim.acquireLock (hs : Sim Q s a) (hi : LockInv Q a) {k : Key} {rest : List (LockOp Key)}
    {held : Finset Key} (hx : s.threads x = ⟨.acquire k :: rest, held, none⟩)
    (hlock : (s.locks k.1).lock k.2 = x) :
    ∃ a', LockStep Q x a a' ∧ Sim Q (s.acquireLock x k ⟨rest, insert k held, none⟩) a' := by
  have ha : a.threads x = ⟨.acquire k :: rest, held, none⟩ := by
    rw [hs.threads, hx]
    rfl
  have hlt := served_lt hi (show .acquire k ∈ (a.threads x).rest by rw [ha]; exact List.mem_cons_self)
  have hne : Q k ≠ [] := List.ne_nil_of_length_pos (Nat.lt_of_le_of_lt (Nat.zero_le _) hlt)
  obtain ⟨base, hm⟩ := hs.key k hne
  have hq : (Q k)[a.served k]? = some x := by
    rw [List.getElem?_eq_getElem hlt, ← hm.lock_eq (List.getElem?_eq_getElem hlt), hlock]
  refine ⟨_, .acquire ha hq, threads_update hs.threads x ⟨rest, insert k held, none⟩, ?_, fun k' hk' => ?_⟩
  · simp only [LockState.grant, State.acquireLock, hs.grants]
  · obtain ⟨base', hm'⟩ := hs.key k' hk'
    refine ⟨base', hm'.frame rfl rfl rfl (passing_update (fun o h => nomatch h) fun o h => ?_)⟩
    rw [hx] at h
    cases h

/-- A table's new words leave a field of all tables as it was if they do for that table. -/
theorem update_field {β : Type} (f : TableLock → β) {ls : TableName → TableLock} {t : TableName}
    {l : TableLock} (h : f l = f (ls t)) (t' : TableName) :
    f (Function.update ls t l t') = f (ls t') := by
  rcases eq_or_ne t' t with rfl | hne
  · rw [Function.update_self, h]
  · rw [Function.update_of_ne hne]

/-- A new word of one lock leaves those of the other locks. -/
theorem update_word (f : TableLock → ℕ → ℕ) {ls : TableName → TableLock} {k k' : Key}
    {l : TableLock} {v : ℕ} (h : f l = Function.update (f (ls k.1)) k.2 v) (hne : k' ≠ k) :
    f (Function.update ls k.1 l k'.1) k'.2 = f (ls k'.1) k'.2 := by
  rcases eq_or_ne k'.1 k.1 with ht | ht
  · have hr : k'.2 ≠ k.2 := fun hr => hne (Prod.ext ht hr)
    rw [ht, Function.update_self, h, Function.update_of_ne hr]
  · rw [Function.update_of_ne ht]

theorem addOffset_access (s : State) (x : ℕ) (k : Key) (t : Thread) (t' : TableName) :
    ((s.addOffset x k t).locks t').access = (s.locks t').access := by
  rw [State.addOffset]
  exact update_field TableLock.access (by rfl) t'

theorem addOffset_lock (s : State) (x : ℕ) (k : Key) (t : Thread) (t' : TableName) :
    ((s.addOffset x k t).locks t').lock = (s.locks t').lock := by
  rw [State.addOffset]
  exact update_field TableLock.lock (by rfl) t'

theorem addOffset_offset_of_ne (s : State) (x : ℕ) {k k' : Key} (hne : k' ≠ k) (t : Thread) :
    ((s.addOffset x k t).locks k'.1).offset k'.2 = (s.locks k'.1).offset k'.2 := by
  rw [State.addOffset]
  exact update_word TableLock.offset (by rfl) hne

theorem addOffset_offset_self (s : State) (x : ℕ) (k : Key) (t : Thread) :
    ((s.addOffset x k t).locks k.1).offset k.2 = (s.locks k.1).offset k.2 + 1 := by
  simp [State.addOffset]

theorem addOffset_threads (s : State) (x : ℕ) (k : Key) (t : Thread) :
    (s.addOffset x k t).threads = Function.update s.threads x t := rfl

theorem exchLock_access (s : State) (x : ℕ) (k : Key) (o : ℕ) (t : Thread) (t' : TableName) :
    ((s.exchLock x k o t).locks t').access = (s.locks t').access := by
  rw [State.exchLock]
  exact update_field TableLock.access (by rfl) t'

theorem exchLock_offset (s : State) (x : ℕ) (k : Key) (o : ℕ) (t : Thread) (t' : TableName) :
    ((s.exchLock x k o t).locks t').offset = (s.locks t').offset := by
  rw [State.exchLock]
  exact update_field TableLock.offset (by rfl) t'

theorem exchLock_lock_of_ne (s : State) (x : ℕ) {k k' : Key} (hne : k' ≠ k) (o : ℕ) (t : Thread) :
    ((s.exchLock x k o t).locks k'.1).lock k'.2 = (s.locks k'.1).lock k'.2 := by
  rw [State.exchLock]
  exact update_word TableLock.lock (by rfl) hne

theorem exchLock_lock_self (s : State) (x : ℕ) (k : Key) (o : ℕ) (t : Thread) :
    ((s.exchLock x k o t).locks k.1).lock k.2 = (s.locks k.1).access o := by
  simp [State.exchLock]

theorem exchLock_threads (s : State) (x : ℕ) (k : Key) (o : ℕ) (t : Thread) :
    (s.exchLock x k o t).threads = Function.update s.threads x t := rfl

theorem passing_of_lock (hs : Sim Q s a) {y o : ℕ} {k : Key} (hy : (s.threads y).passing = some (k, o)) :
    (a.threads y).passing = some k := by
  rw [hs.threads, Thread.lock, hy]
  rfl

/-- A transaction that gives back a lock holds it, so the offset is where the queue stands. -/
theorem Sim.addOffset (hs : Sim Q s a) (hi : LockInv Q a) {k : Key} {rest : List (LockOp Key)}
    {held : Finset Key} (hx : s.threads x = ⟨.release k :: rest, held, none⟩) :
    ∃ a', LockStep Q x a a' ∧
      Sim Q (s.addOffset x k ⟨rest, held.erase k, some (k, (s.locks k.1).offset k.2 + 1)⟩) a' := by
  have ha : a.threads x = ⟨.release k :: rest, held, none⟩ := by
    rw [hs.threads, hx]
    rfl
  have hnobody : ∀ y o, (s.threads y).passing ≠ some (k, o) := fun y o hy =>
    ((hi.held_of_release ha).2.2 y).2 (passing_of_lock hs hy)
  refine ⟨_, .release ha, ?_, hs.grants, fun k' hk' => ?_⟩
  · exact threads_update hs.threads x ⟨rest, held.erase k, some (k, (s.locks k.1).offset k.2 + 1)⟩
  · obtain ⟨base, hm⟩ := hs.key k' hk'
    refine ⟨base, ?_⟩
    rcases eq_or_ne k' k with rfl | hne
    · have hoff := hm.offset hnobody
      refine ⟨?_, ?_, fun hno => ?_, fun y o hy => ?_⟩
      · rw [addOffset_access]
        exact hm.access
      · rw [addOffset_access, addOffset_lock]
        exact hm.lock
      · exact absurd (by rw [addOffset_threads, Function.update_self]) (hno x _)
      · rcases eq_or_ne y x with rfl | hyx
        · rw [addOffset_threads, Function.update_self] at hy
          obtain rfl := (Prod.mk.inj (Option.some.inj hy)).2
          rw [addOffset_offset_self, hoff]
          exact ⟨rfl, rfl⟩
        · rw [addOffset_threads, Function.update_of_ne hyx] at hy
          exact absurd hy (hnobody y o)
    · refine hm.frame (addOffset_access ..) (congrFun (addOffset_lock ..) _)
        (addOffset_offset_of_ne s x hne _) (passing_update (fun o h => ?_) fun o h => ?_)
      · exact hne (Prod.mk.inj (Option.some.inj h)).1.symm
      · rw [hx] at h
        cases h

/-- The second half of a release writes the next owner of the queue into the lock word. -/
theorem Sim.exchLock (hs : Sim Q s a) (hi : LockInv Q a) {k : Key} {o : ℕ} {rest : List (LockOp Key)}
    {held : Finset Key} (hx : s.threads x = ⟨rest, held, some (k, o)⟩) :
    ∃ a', LockStep Q x a a' ∧ Sim Q (s.exchLock x k o ⟨rest, held, none⟩) a' := by
  have ha : a.threads x = ⟨rest, held, some k⟩ := by
    rw [hs.threads, hx]
    rfl
  have hpx : (s.threads x).passing = some (k, o) := by rw [hx]
  have honly : ∀ y o, (s.threads y).passing = some (k, o) → y = x := fun y o hy =>
    ((hi.passing_only (passing_of_lock hs hpx)).2.2 y).2 (passing_of_lock hs hy)
  refine ⟨_, .pass ha, threads_update hs.threads x ⟨rest, held, none⟩, hs.grants, fun k' hk' => ?_⟩
  obtain ⟨base, hm⟩ := hs.key k' hk'
  refine ⟨base, ?_⟩
  rcases eq_or_ne k' k with rfl | hne
  · obtain ⟨ho, hoff⟩ := hm.passing x o hpx
    rw [serve_self]
    refine ⟨?_, ?_, fun _ => ?_, fun y o' hy => ?_⟩
    · rw [exchLock_access]
      exact hm.access
    · rw [exchLock_access, exchLock_lock_self, ho]
      rfl
    · rw [exchLock_offset, hoff, ho]
      rfl
    · rcases eq_or_ne y x with rfl | hyx
      · rw [exchLock_threads, Function.update_self] at hy
        cases hy
      · rw [exchLock_threads, Function.update_of_ne hyx] at hy
        exact absurd (honly y o' hy) hyx
  · have hserved : (a.serve x k ⟨rest, held, none⟩).served k' = a.served k' :=
      Function.update_of_ne hne ..
    rw [hserved]
    refine hm.frame (exchLock_access ..) (exchLock_lock_of_ne s x hne o _)
      (congrFun (exchLock_offset ..) _) (passing_update (fun o h => nomatch h) fun o' h => ?_)
    rw [hpx] at h
    exact hne (Prod.mk.inj (Option.some.inj h)).1.symm

/-- The locks do not depend on what has started. -/
theorem Sim.block (hs : Sim Q s a) {n : ℕ} : Sim Q { s with started := n } a where
  threads := hs.threads
  grants := hs.grants
  key k hk := by
    obtain ⟨base, hm⟩ := hs.key k hk
    exact ⟨base, hm.frame rfl rfl rfl fun _ _ => Iff.rfl⟩

/-- A turn of a transaction is a step of the library's machine. -/
theorem Sim.step (hs : Sim Q s a) (hi : LockInv Q a) (h : stepTxn s x = some s') :
    ∃ a', LockStep Q x a a' ∧ Sim Q s' a' := by
  obtain ⟨k, rest, held, hx, hlock, rfl⟩ | ⟨k, rest, held, hx, rfl⟩ | ⟨k, o, rest, held, hx, rfl⟩ :=
    stepTxn_cases h
  · exact hs.acquireLock hi hx hlock
  · exact hs.addOffset hi hx
  · exact hs.exchLock hi hx

/-- Conversely, where the library's machine has a step for a transaction, the transaction can make a
    turn. -/
theorem Sim.enabled (hs : Sim Q s a) {a' : LockState Key} (h : LockStep Q x a a') :
    ∃ s', stepTxn s x = some s' := by
  have hx := hs.threads x
  generalize ht : s.threads x = t at hx
  obtain ⟨rest, held, passing⟩ := t
  cases h with
  | @acquire k rest' held' ha hq =>
    rw [ha] at hx
    obtain ⟨rfl, rfl, hp⟩ := LockThread.mk.inj hx
    obtain rfl := Option.map_eq_none_iff.mp hp.symm
    have hne : Q k ≠ [] := List.ne_nil_of_length_pos (Nat.zero_lt_of_lt (List.getElem?_eq_some_iff.mp hq).1)
    obtain ⟨base, hm⟩ := hs.key k hne
    refine ⟨s.acquireLock x k ⟨rest', insert k held', none⟩, ?_⟩
    rw [stepTxn, ht]
    exact if_pos (hm.lock_eq hq)
  | @release k rest' held' ha =>
    rw [ha] at hx
    obtain ⟨rfl, rfl, hp⟩ := LockThread.mk.inj hx
    obtain rfl := Option.map_eq_none_iff.mp hp.symm
    exact ⟨_, by rw [stepTxn, ht]⟩
  | @pass k rest' held' ha =>
    rw [ha] at hx
    obtain ⟨rfl, rfl, hp⟩ := LockThread.mk.inj hx
    obtain ⟨⟨k', o⟩, rfl, -⟩ := Option.map_eq_some_iff.mp hp.symm
    exact ⟨_, by rw [stepTxn, ht]⟩

end

/-! ### Runs -/

/-- What every reached state of a batch has: it is one of the library's machine, and no thread beyond
    the batch does anything. -/
structure Reached (Q : Key → List ℕ) (numTxns : ℕ) (s : State) : Prop where
  sim : ∃ a, LockInv Q a ∧ Sim Q s a
  beyond : ∀ x, numTxns ≤ x → (s.threads x).Finished

theorem reached_init {cfg : Config} {txns : List TxnParams} (hok : ∀ p ∈ txns, p.Ok)
    (hlen : txns.length ≤ 2 ^ 32) (ops : TableName → ℕ → ℕ) (old : TableName → TableLock) :
    Reached (queue cfg txns) txns.length (State.init cfg ops old txns) where
  sim := by
    refine ⟨.start fun x => (txns[x]?.map (gpuExecTpccTxn cfg)).getD [],
      lockInv_start (fun x => ?_) (count_program cfg txns), fun x => rfl, rfl, fun k hk => ?_⟩
    · cases txns[x]? with
      | none => rfl
      | some p => exact bracketed_program cfg p
    · obtain ⟨base, hlaid⟩ := queue_laid hok hlen hk ops old
      exact ⟨base, hlaid.access, hlaid.lock, fun _ => hlaid.offset, fun x o h => nomatch h⟩
  beyond x hx := by
    refine ⟨?_, rfl⟩
    have hnone : txns[x]? = none := List.getElem?_eq_none hx
    simp only [State.init, hnone, Option.map_none, Option.getD_none]

/-- A turn changes one thread and leaves it less to do. -/
def Thread.left (t : Thread) : ℕ := 2 * t.rest.length + if t.passing.isSome then 1 else 0

theorem stepTxn_left {s s' : State} {x : ℕ} (h : stepTxn s x = some s') :
    ∃ t, s'.threads = Function.update s.threads x t ∧ t.left < (s.threads x).left ∧
      s'.started = s.started := by
  obtain ⟨k, rest, held, hx, -, rfl⟩ | ⟨k, rest, held, hx, rfl⟩ | ⟨k, o, rest, held, hx, rfl⟩ :=
    stepTxn_cases h
  · refine ⟨_, rfl, ?_, rfl⟩
    rw [hx]
    simp [Thread.left]
  · refine ⟨_, rfl, ?_, rfl⟩
    rw [hx]
    simp only [Thread.left, List.length_cons, Option.isSome_some, Option.isSome_none, if_true,
      Bool.false_eq_true, if_false]
    omega
  · refine ⟨_, rfl, ?_, rfl⟩
    rw [hx]
    simp [Thread.left]

section
variable {Q : Key → List ℕ} {numTxns maxBlocks : ℕ} {s s' : State}

theorem reached_step (h : Step numTxns maxBlocks s s') (hr : Reached Q numTxns s) :
    Reached Q numTxns s' := by
  cases h with
  | block =>
    obtain ⟨a, hi, hs⟩ := hr.sim
    exact ⟨⟨a, hi, hs.block⟩, hr.beyond⟩
  | @txn _ x hx _ hstep =>
    obtain ⟨a, hi, hs⟩ := hr.sim
    obtain ⟨a', ha, hs'⟩ := hs.step hi hstep
    obtain ⟨t, ht, -⟩ := stepTxn_left hstep
    refine ⟨⟨a', hi.step ha, hs'⟩, fun y hy => ?_⟩
    rw [ht, Function.update_of_ne (by omega)]
    exact hr.beyond y hy

theorem finished_lock (t : Thread) : t.lock.Finished ↔ t.Finished := by
  rw [LockThread.Finished, Thread.Finished, Thread.lock, Option.map_eq_none_iff]

/-- No block is running when all started transactions have finished. -/
theorem resident_nil (h : ∀ x < s.started * blockSize, (s.threads x).Finished) :
    resident numTxns s = [] := by
  refine List.filter_eq_nil_iff.mpr fun b hb hany => ?_
  obtain ⟨i, hi, hrun⟩ := List.any_eq_true.mp hany
  refine (of_decide_eq_true hrun).2 (h _ ?_)
  have hb' : b + 1 ≤ s.started := List.mem_range.mp hb
  have hi' : i < blockSize := List.mem_range.mp hi
  calc b * blockSize + i < b * blockSize + blockSize := Nat.add_lt_add_left hi' _
    _ = (b + 1) * blockSize := (Nat.succ_mul b blockSize).symm
    _ ≤ s.started * blockSize := Nat.mul_le_mul_right _ hb'

/-- The unfinished transaction with the smallest id can make a turn, or it waits for its block and
    nothing keeps the device from starting the next one. -/
theorem reached_progress (hr : Reached Q numTxns s) (hsorted : ∀ k, (Q k).Pairwise (· ≤ ·))
    {z : ℕ} (hz : ¬ (s.threads z).Finished) :
    ∃ x < numTxns, ¬ (s.threads x).Finished ∧
      ((x < s.started * blockSize ∧ ∃ s', stepTxn s x = some s') ∨
        (s.started * blockSize ≤ x ∧ resident numTxns s = [])) := by
  classical
  have hex : ∃ x, ¬ (s.threads x).Finished := ⟨z, hz⟩
  have hx := Nat.find_spec hex
  have hmin : ∀ y < Nat.find hex, (s.threads y).Finished := fun y hy =>
    not_not.mp (Nat.find_min hex hy)
  generalize Nat.find hex = x at hx hmin
  have hlt : x < numTxns := by
    by_contra hge
    exact hx (hr.beyond x (Nat.not_lt.mp hge))
  refine ⟨x, hlt, hx, ?_⟩
  rcases Nat.lt_or_ge x (s.started * blockSize) with hstarted | hwaits
  · obtain ⟨a, hi, hs⟩ := hr.sim
    have hfin : ∀ y, (a.threads y).Finished ↔ (s.threads y).Finished := fun y => by
      rw [hs.threads, finished_lock]
    obtain ⟨a', ha⟩ := hi.progress hsorted (fun h => hx ((hfin x).mp h))
      fun y hy => (hfin y).mpr (hmin y hy)
    exact Or.inl ⟨hstarted, hs.enabled ha⟩
  · exact Or.inr ⟨hwaits, resident_nil fun y hy => hmin y (hy.trans_le hwaits)⟩

/-- What is left to do for the whole batch. -/
def State.left (numTxns : ℕ) (s : State) : ℕ :=
  (∑ x ∈ Finset.range numTxns, (s.threads x).left) + (numTxns - s.started)

theorem step_left (h : Step numTxns maxBlocks s s') : s'.left numTxns < s.left numTxns := by
  cases h with
  | block hmore _ =>
    rw [State.left, State.left]
    rw [blockSize] at hmore
    simp only
    omega
  | @txn _ x hx _ hstep =>
    obtain ⟨t, ht, hlt, hst⟩ := stepTxn_left hstep
    rw [State.left, State.left, hst, ht]
    refine Nat.add_lt_add_right (Finset.sum_lt_sum (fun y _ => ?_) ⟨x, Finset.mem_range.mpr hx, ?_⟩) _
    · rcases eq_or_ne y x with rfl | hne
      · rw [Function.update_self]
        exact hlt.le
      · rw [Function.update_of_ne hne]
    · rw [Function.update_self]
      exact hlt

end

/-- From every reached state the batch can be run to its end, and then every queue was served. -/
theorem reached_final {Q : Key → List ℕ} {numTxns maxBlocks : ℕ} {s : State} (hr : Reached Q numTxns s)
    (hsorted : ∀ k, (Q k).Pairwise (· ≤ ·)) (hblocks : 0 < maxBlocks) :
    ∃ f, ReflTransGen (Step numTxns maxBlocks) s f ∧ (∀ x, (f.threads x).Finished) ∧
      ∀ k, f.grants k = Q k := by
  have hstep : ∀ s t, Step numTxns maxBlocks s t → Reached Q numTxns s → Reached Q numTxns t :=
    fun s t h hr => reached_step h hr
  have hdown : ∀ s, Reached Q numTxns s → ¬ (∀ x, (s.threads x).Finished) →
      ∃ t, Step numTxns maxBlocks s t ∧ t.left numTxns < s.left numTxns := by
    intro s hr hnot
    obtain ⟨z, hz⟩ := not_forall.mp hnot
    obtain ⟨x, hx, -, ⟨hstarted, s', hs'⟩ | ⟨hwaits, hnil⟩⟩ := reached_progress hr hsorted hz
    · have hturn : Step numTxns maxBlocks s s' := .txn hx hstarted hs'
      exact ⟨s', hturn, step_left hturn⟩
    · have hblock : Step numTxns maxBlocks s { s with started := s.started + 1 } :=
        .block (hwaits.trans_lt hx) (by rw [hnil]; exact hblocks)
      exact ⟨_, hblock, step_left hblock⟩
  obtain ⟨f, hrun, hfin⟩ := exists_final (State.left numTxns) hstep hdown hr
  obtain ⟨a, hi, hs⟩ := (run_invariant hstep hrun hr).sim
  refine ⟨f, hrun, hfin, fun k => ?_⟩
  rw [← hs.grants]
  refine hi.grants_all (fun x => ?_) k
  rw [hs.threads, finished_lock]
  exact hfin x

/-- The lock protocol, in every reached state of every batch and mode: a record's lock was granted to
    the front of what was submitted for the record, which stands in transaction order; no two
    transactions hold it; the locks a transaction takes and gives back are the operations submitted for
    it, and a finished one was granted each as often as it was submitted; and as long as a
    transaction has not finished, one such can make a turn or have its block started, up to the end
    of the batch. Record ids are of type `uint32_t` and transaction ids of type `int`. -/
theorem gacco_lock_protocol {cfg : Config} {ops : TableName → ℕ → ℕ} {old : TableName → TableLock}
    {txns : List TxnParams} {maxBlocks : ℕ} {s : State} (hok : ∀ p ∈ txns, p.Ok)
    (hlen : txns.length ≤ 2 ^ 31) (hblocks : 0 < maxBlocks)
    (hrun : ReflTransGen (Step txns.length maxBlocks) (State.init cfg ops old txns) s) :
    (∀ k : Key, s.grants k <+: submittedFor cfg k.1 (ops k.1) txns k.2 ∧
      (submittedFor cfg k.1 (ops k.1) txns k.2).Pairwise (· ≤ ·)) ∧
    (∀ k x y, k ∈ (s.threads x).held → k ∈ (s.threads y).held → x = y) ∧
    (∀ x p, txns[x]? = some p → ∀ t,
      submitTpccTxn cfg t x p = (acquired t (gpuExecTpccTxn cfg p)).map (createOp · x) ∧
      submitTpccTxn cfg t x p = (released t (gpuExecTpccTxn cfg p)).map (createOp · x)) ∧
    (∀ x, (s.threads x).Finished → ∀ k, k ∉ (s.threads x).held ∧
      (s.grants k).count x = (submittedFor cfg k.1 (ops k.1) txns k.2).count x) ∧
    (∀ z, ¬ (s.threads z).Finished → ∃ x < txns.length, ¬ (s.threads x).Finished ∧
      ((x < s.started * blockSize ∧ ∃ s', stepTxn s x = some s') ∨
        (s.started * blockSize ≤ x ∧ (resident txns.length s).length < maxBlocks))) ∧
    ∃ f, ReflTransGen (Step txns.length maxBlocks) s f ∧ (∀ x, (f.threads x).Finished) ∧
      ∀ k : Key, f.grants k = submittedFor cfg k.1 (ops k.1) txns k.2 := by
  have hlen : txns.length ≤ 2 ^ 32 := hlen.trans (by decide)
  have hq : ∀ k : Key, submittedFor cfg k.1 (ops k.1) txns k.2 = queue cfg txns k := fun k =>
    submittedFor_eq cfg hok hlen (ops k.1) k
  have hsorted := queue_sorted cfg txns
  have hstep : ∀ s t, Step txns.length maxBlocks s t → Reached (queue cfg txns) txns.length s →
      Reached (queue cfg txns) txns.length t := fun s t h hr => reached_step h hr
  have hr := run_invariant hstep hrun (reached_init hok hlen ops old)
  obtain ⟨a, hi, hs⟩ := hr.sim
  have hheld : ∀ k x, k ∈ (s.threads x).held → k ∈ (a.threads x).held := fun k x hk => by
    rw [hs.threads]
    exact hk
  refine ⟨fun k => ?_, fun k x y hx hy => ?_, fun x p _ t => ?_, fun x hx k => ?_, fun z hz => ?_, ?_⟩
  · rw [hq k, ← hs.grants]
    exact ⟨hi.grants_prefix k, hsorted k⟩
  · exact hi.exclusive (hheld k x hx) (hheld k y hy)
  · obtain ⟨hacq, hrel⟩ := locked_eq_submitted cfg p t
    rw [hacq, hrel]
    exact ⟨rfl, rfl⟩
  · obtain ⟨hnot, hcount⟩ := hi.finished (x := x) (by rw [hs.threads, finished_lock]; exact hx) k
    rw [hq k, ← hs.grants]
    exact ⟨fun hk => hnot (hheld k x hk), hcount⟩
  · obtain ⟨x, hx, hnot, hturn | ⟨hwaits, hnil⟩⟩ := reached_progress hr hsorted hz
    · exact ⟨x, hx, hnot, Or.inl hturn⟩
    · exact ⟨x, hx, hnot, Or.inr ⟨hwaits, by rw [hnil]; exact hblocks⟩⟩
  · obtain ⟨f, hf, hfin, hall⟩ := reached_final hr hsorted hblocks
    exact ⟨f, hf, hfin, fun k => (hall k).trans (hq k).symm⟩

/-- A new order with the same stock record twice, and one behind it. -/
def twoOrders : List TxnParams :=
  [.newOrder 0 0 0 0 0 [⟨1, 5, 0⟩, ⟨1, 5, 1⟩], .newOrder 0 1 1 1 1 [⟨2, 5, 2⟩]]

theorem gacco_lock_two_orders :
    ∃ f, ReflTransGen (Step 2 1) (State.init ⟨true, false⟩ (fun _ _ => 0) (fun _ => ⟨id, id, id⟩)
        twoOrders) f ∧
      f.grants (.stock, 5) = [0, 0, 1] ∧ (f.threads 1).Finished := by
  have hok : ∀ p ∈ twoOrders, p.Ok := by simp [twoOrders, TxnParams.Ok]
  obtain ⟨-, -, -, -, -, f, hrun, hfin, hall⟩ := @gacco_lock_protocol ⟨true, false⟩ (fun _ _ => 0)
    (fun _ => ⟨id, id, id⟩) twoOrders 1 _ hok (by decide) Nat.one_pos .refl
  refine ⟨f, hrun, ?_, hfin 1⟩
  rw [hall]
  decide +kernel

end Egad.Gacco
