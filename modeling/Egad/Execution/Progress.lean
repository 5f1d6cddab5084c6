import Egad.Execution.Serializable
import Mathlib.Algebra.Order.BigOperators.Group.List

/-! # Work pieces and waiting readers

    An executor is a list of work pieces. A piece is a list of groups of record accesses in program
    order; the accesses of a group are made by the lanes of one warp at the same time. Blocks of
    warps take ranges of pieces from a counter, so the pieces handed out are always the first ones.

        counter ──▶ | piece 0 | piece 1 | … | piece n-1 |  not yet handed out
                      group, group, …
                        └ (table, operation), (table, operation), …

    When each table's batch lists its operations in the order of the pieces, every cell a reader
    waits on belongs to a write of an earlier piece, or of an earlier group of the same piece. The
    first unfinished piece then waits for nothing that is not already written. -/

namespace Egad.Execution
open Egad.Planner

/-- What each piece does: groups of accesses to tables. -/
abbrev Pieces (T : Type) := List (List (List (T × Op)))

section
variable {T V : Type} [DecidableEq T]

/-- All accesses, in piece and program order. -/
def accesses (P : Pieces T) : List (T × Op) := P.flatten.flatten

/-- The accesses to one table, in piece and program order. -/
def accessesTo (P : Pieces T) (t : T) : List Op :=
  ((accesses P).filter fun a => a.1 = t).map Prod.snd

/-- The submitted batches and the executor's pieces belong together: every table's batch is in piece
    and program order, and the lanes of a group with more than one access only read. -/
structure Matched (submitted : T → List Op) (P : Pieces T) : Prop where
  order : ∀ t, submitted t = accessesTo P t
  nodup : ∀ t, (submitted t).Nodup
  lanes : ∀ piece ∈ P, ∀ g ∈ piece, g.length ≤ 1 ∨ ∀ a ∈ g, a.2.isWrite = false

/-- An executor at work: the tables, the locations of the accesses, the epoch and the number of
    pieces a block takes at once. -/
structure Executor (T : Type) where
  submitted : T → List Op
  pieces : Pieces T
  loc : T → Op → ℕ
  epoch : ℕ
  numWarps : ℕ

def Executor.table (X : Executor T) (t : T) : Epoch := ⟨X.submitted t, X.loc t, X.epoch⟩

/-- The number of an access in its table's batch. -/
def Executor.index (X : Executor T) (a : T × Op) : ℕ := (X.submitted a.1).idxOf a.2

structure Sys (T V : Type) where
  /-- `txn_counter` -/
  counter : ℕ
  table : T → State V

def Phase.isDone : Phase V → Bool
  | .done _ => true
  | _ => false

def Executor.finished (X : Executor T) (s : Sys T V) (a : T × Op) : Bool :=
  ((s.table a.1).phase (X.index a)).isDone

/-- The group a piece is in: the first one with an unfinished access. -/
def Executor.current (X : Executor T) (s : Sys T V) (piece : List (List (T × Op))) :
    Option (List (T × Op)) :=
  piece.find? fun g => !g.all (X.finished s)

inductive SysEvent (V : Type) where
  /-- A block takes the next pieces. -/
  | dispatch
  /-- A lane of a piece makes one load or store. -/
  | lane (piece lane : ℕ) (data : V)

def sysStep (X : Executor T) (s : Sys T V) : SysEvent V → Option (Sys T V)
  | .dispatch =>
    if s.counter < X.pieces.length then some { s with counter := s.counter + X.numWarps } else none
  | .lane p l data =>
    if s.counter ≤ p then none
    else
      match X.pieces[p]? with
      | none => none
      | some piece =>
        match X.current s piece with
        | none => none
        | some g =>
          match g[l]? with
          | none => none
          | some a =>
            (step (X.table a.1) (s.table a.1) (X.index a) data).map fun st =>
              { s with table := Function.update s.table a.1 st }

def sysRun (X : Executor T) (s : Sys T V) (evs : List (SysEvent V)) : Option (Sys T V) :=
  evs.foldlM (sysStep X) s

def Sys.start (m : T → Memory V) : Sys T V := ⟨0, fun t => .start (m t)⟩

/-- A piece with no unfinished access. -/
def Executor.pieceDone (X : Executor T) (s : Sys T V) (p : ℕ) : Prop :=
  ∀ piece, X.pieces[p]? = some piece → ∀ g ∈ piece, ∀ a ∈ g, X.finished s a = true

/-- A dispatched piece can make a step. -/
def Executor.CanStep (X : Executor T) (s : Sys T V) (p : ℕ) : Prop :=
  ∃ l data s', sysStep X s (.lane p l data) = some s'

/-! ### The order of the accesses -/

omit [DecidableEq T] in
theorem eq_of_split_nodup {α : Type} {pre post pre' post' : List α} {a : α}
    (hnd : (pre ++ a :: post).Nodup) (h : pre ++ a :: post = pre' ++ a :: post') : pre = pre' := by
  have hpre : a ∉ pre := fun hm => (List.nodup_append.mp hnd).2.2 a hm a (by simp) rfl
  have hpre' : a ∉ pre' := fun hm =>
    (List.nodup_append.mp (h ▸ hnd)).2.2 a hm a (by simp) rfl
  induction pre generalizing pre' with
  | nil =>
    cases pre' with
    | nil => rfl
    | cons y ys =>
      obtain ⟨rfl, -⟩ := List.cons.inj h
      exact absurd List.mem_cons_self hpre'
  | cons x xs ih =>
    cases pre' with
    | nil =>
      obtain ⟨rfl, -⟩ := List.cons.inj h
      exact absurd List.mem_cons_self hpre
    | cons y ys =>
      obtain ⟨rfl, ht⟩ := List.cons.inj h
      rw [ih (List.nodup_cons.mp hnd).2 ht (fun hm => hpre (by simp [hm]))
        fun hm => hpre' (by simp [hm])]

omit [DecidableEq T] in
/-- What stands before an access: earlier pieces, earlier groups of its piece, and its own group. -/
theorem mem_before {P : Pieces T} (hnd : (accesses P).Nodup) {p g : ℕ} {piece : List (List (T × Op))}
    {G : List (T × Op)} {a b : T × Op} {pre post : List (T × Op)} (hp : P[p]? = some piece)
    (hg : piece[g]? = some G) (ha : a ∈ G) (hsplit : accesses P = pre ++ a :: post) (hb : b ∈ pre) :
    (∃ q < p, ∃ piece' G', P[q]? = some piece' ∧ G' ∈ piece' ∧ b ∈ G') ∨
      (∃ h < g, ∃ G', piece[h]? = some G' ∧ b ∈ G') ∨ b ∈ G := by
  obtain ⟨hplt, rfl⟩ := List.getElem?_eq_some_iff.mp hp
  obtain ⟨hglt, rfl⟩ := List.getElem?_eq_some_iff.mp hg
  obtain ⟨l, r, hG⟩ := List.append_of_mem ha
  have hP : accesses P = ((P.take p).flatten.flatten ++ (P[p].take g).flatten ++ l) ++
      a :: (r ++ (P[p].drop (g + 1)).flatten ++ (P.drop (p + 1)).flatten.flatten) := by
    have h1 : P = P.take p ++ P[p] :: P.drop (p + 1) := by
      rw [← List.drop_eq_getElem_cons hplt, List.take_append_drop]
    have h2 : P[p] = P[p].take g ++ P[p][g] :: P[p].drop (g + 1) := by
      rw [← List.drop_eq_getElem_cons hglt, List.take_append_drop]
    have h3 : accesses P = (P.take p).flatten.flatten ++ P[p].flatten ++
        (P.drop (p + 1)).flatten.flatten :=
      (congrArg (fun x => x.flatten.flatten) h1).trans (by
        rw [List.flatten_append, List.flatten_cons, List.flatten_append, List.flatten_append,
          List.append_assoc])
    have h4 : P[p].flatten = (P[p].take g).flatten ++ (l ++ a :: r) ++
        (P[p].drop (g + 1)).flatten :=
      (congrArg List.flatten h2).trans (by
        rw [List.flatten_append, List.flatten_cons, hG]
        simp only [List.append_assoc, List.cons_append])
    rw [h3, h4]
    simp
  have hpre := eq_of_split_nodup (hsplit ▸ hnd) (hsplit.symm.trans hP)
  rw [hpre] at hb
  rcases List.mem_append.mp hb with hb | hb
  · rcases List.mem_append.mp hb with hb | hb
    · obtain ⟨G', hG', hbG⟩ := List.mem_flatten.mp hb
      obtain ⟨piece', hpiece', hGp⟩ := List.mem_flatten.mp hG'
      obtain ⟨q, hq, hget⟩ := List.mem_take_iff_getElem.mp hpiece'
      refine Or.inl ⟨q, by omega, piece', G', ?_, hGp, hbG⟩
      rw [List.getElem?_eq_getElem (by omega), hget]
    · obtain ⟨G', hG', hbG⟩ := List.mem_flatten.mp hb
      obtain ⟨h, hh, hget⟩ := List.mem_take_iff_getElem.mp hG'
      refine Or.inr (Or.inl ⟨h, by omega, G', ?_, hbG⟩)
      rw [List.getElem?_eq_getElem (by omega), hget]
  · exact Or.inr (Or.inr (by rw [hG]; simp [hb]))

section
variable {submitted : T → List Op} {P : Pieces T}

theorem Matched.nodup_accesses (h : Matched submitted P) : (accesses P).Nodup := by
  refine List.nodup_iff_count_le_one.mpr fun a => ?_
  have hnd := h.nodup a.1
  rw [h.order, accessesTo] at hnd
  have hle := List.nodup_iff_count_le_one.mp hnd.of_map a
  rwa [List.count_filter (by simp)] at hle

omit [DecidableEq T] in
theorem mem_accesses {p g : ℕ} {piece : List (List (T × Op))} {G : List (T × Op)} {a : T × Op}
    (hp : P[p]? = some piece) (hg : piece[g]? = some G) (ha : a ∈ G) : a ∈ accesses P :=
  List.mem_flatten.mpr ⟨G, List.mem_flatten.mpr ⟨piece, List.mem_of_getElem? hp,
    List.mem_of_getElem? hg⟩, ha⟩

theorem Batch.accessesTo (hb : Batch ((accesses P).map Prod.snd)) (t : T) :
    Batch (accessesTo P t) :=
  hb.sublist (List.filter_sublist.map _)

/-- Accesses with plan words of their own have them across tables too. -/
theorem words_of_batch (horder : ∀ t, submitted t = accessesTo P t)
    (hb : Batch ((accesses P).map Prod.snd)) {t t' : T} (hne : t ≠ t') {o o' : Op}
    (ho : o ∈ submitted t) (ho' : o' ∈ submitted t') : (o'.txn, o'.offset) ≠ (o.txn, o.offset) := by
  have hmem : ∀ {t o}, o ∈ submitted t → (t, o) ∈ accesses P := by
    intro t o ho
    rw [horder, accessesTo] at ho
    obtain ⟨⟨t₁, o₁⟩, hin, rfl⟩ := List.mem_map.mp ho
    obtain ⟨hacc, ht⟩ := List.mem_filter.mp hin
    obtain rfl : t₁ = t := by simpa using ht
    exact hacc
  have hpw := List.pairwise_map.mp hb.words
  have hnd : ((accesses P).map fun a => (a.2.txn, a.2.offset)).Nodup := List.pairwise_map.mpr hpw
  intro heq
  exact hne (Prod.mk.inj (List.inj_on_of_nodup_map hnd (hmem ho) (hmem ho') heq.symm)).1

/-- The operations of an access's table before it are the accesses before it. -/
theorem Matched.split (h : Matched submitted P) {t : T} {o : Op} (ha : (t, o) ∈ accesses P) :
    ∃ pre post i, accesses P = pre ++ (t, o) :: post ∧ (submitted t)[i]? = some o ∧
      (submitted t).idxOf o = i ∧
      ∀ j w, j < i → (submitted t)[j]? = some w → (t, w) ∈ pre := by
  obtain ⟨pre, post, hsplit⟩ := List.append_of_mem ha
  have hsub : submitted t = (pre.filter fun a => a.1 = t).map Prod.snd ++
      o :: (post.filter fun a => a.1 = t).map Prod.snd := by
    rw [h.order, accessesTo, hsplit]
    simp
  have hnd := h.nodup t
  rw [hsub] at hnd
  have hnot : o ∉ (pre.filter fun a => a.1 = t).map Prod.snd := fun hm =>
    (List.nodup_append.mp hnd).2.2 o hm o (by simp) rfl
  refine ⟨pre, post, ((pre.filter fun a => a.1 = t).map Prod.snd).length, hsplit, ?_, ?_, ?_⟩
  · rw [hsub]; simp
  · rw [hsub, List.idxOf_append_of_notMem hnot, List.idxOf_cons_self, Nat.add_zero]
  · intro j w hj hw
    rw [hsub, List.getElem?_append_left hj] at hw
    obtain ⟨⟨t', w'⟩, hmem, rfl⟩ := List.mem_map.mp (List.mem_of_getElem? hw)
    obtain ⟨hin, ht⟩ := List.mem_filter.mp hmem
    obtain rfl : t' = t := by simpa using ht
    exact hin

/-- Whoever waits, waits for an earlier piece or for an earlier group of its own piece: the write of
    a cell that a reader waits on. -/
theorem waits_served (h : Matched submitted P) {loc : T → Op → ℕ} {p g : ℕ}
    {piece : List (List (T × Op))} {G : List (T × Op)} {t : T} {o : Op}
    (hl : Located (submitted t) (loc t)) (hp : P[p]? = some piece) (hg : piece[g]? = some G)
    (ha : (t, o) ∈ G) (hw : o.isWrite = false) (hA : loc t o ≠ locRecordA) :
    ∃ w, w.isWrite = true ∧ w.record = o.record ∧ loc t w = loc t o ∧
      ((∃ q < p, ∃ piece' G', P[q]? = some piece' ∧ G' ∈ piece' ∧ (t, w) ∈ G') ∨
        ∃ h < g, ∃ G', piece[h]? = some G' ∧ (t, w) ∈ G') := by
  obtain ⟨pre, post, i, hsplit, hi, -, hpre⟩ := h.split (mem_accesses hp hg ha)
  cases hlast : lastWriteBefore (submitted t) o.record i with
  | none => exact absurd (hl.read_first hi hw hlast) hA
  | some j =>
    obtain ⟨hj, hwj, -⟩ := lastWriteBefore_eq_some.mp hlast
    obtain ⟨w, hwget, hww, hwr⟩ := writesAt_iff.mp hwj
    refine ⟨w, hww, hwr, (hl.read_after hi hw hlast hwget).symm, ?_⟩
    rcases mem_before h.nodup_accesses hp hg ha hsplit (hpre j w hj hwget) with hq | hh | hsame
    · exact Or.inl hq
    · exact Or.inr hh
    · -- a group with a write has no other access
      exfalso
      rcases h.lanes piece (List.mem_of_getElem? hp) G (List.mem_of_getElem? hg) with hlen | hread
      · have hne : w ≠ o := by
          rintro rfl
          rw [hw] at hww
          exact absurd hww (by simp)
        obtain ⟨x, rfl⟩ : ∃ x, G = [x] := by
          cases G with
          | nil => simp at ha
          | cons x xs =>
            have : xs = [] := List.length_eq_zero_iff.mp (by simpa using hlen)
            exact ⟨x, by rw [this]⟩
        have h1 := List.mem_singleton.mp ha
        have h2 := List.mem_singleton.mp hsame
        exact hne (Prod.mk.inj (h2.trans h1.symm)).2
      · have := hread _ hsame
        rw [hww] at this
        exact absurd this (by simp)

end

/-! ### The first unfinished piece moves -/

section
variable {X : Executor T} {m₀ : T → Memory V} {s s' : Sys T V}

/-- Every table's invariant. -/
def SysInv (X : Executor T) (m₀ : T → Memory V) (s : Sys T V) : Prop :=
  ∀ t, Inv (X.table t) (m₀ t) (s.table t)

theorem sysStep_lane {p l : ℕ} {data : V} (h : sysStep X s (.lane p l data) = some s') :
    ∃ piece g a st, p < s.counter ∧ X.pieces[p]? = some piece ∧ X.current s piece = some g ∧
      g[l]? = some a ∧ step (X.table a.1) (s.table a.1) (X.index a) data = some st ∧
      s' = { s with table := Function.update s.table a.1 st } := by
  simp only [sysStep] at h
  split at h
  · exact absurd h (by simp)
  · next hp =>
    split at h
    · exact absurd h (by simp)
    · next piece hpiece =>
      split at h
      · exact absurd h (by simp)
      · next g hg =>
        split at h
        · exact absurd h (by simp)
        · next a ha =>
          obtain ⟨st, hst, rfl⟩ := Option.map_eq_some_iff.mp h
          exact ⟨piece, g, a, st, by omega, hpiece, hg, ha, hst, rfl⟩

theorem sysInv_step (hl : ∀ t, Located (X.submitted t) (X.loc t))
    (hstart : ∀ t c, (m₀ t).tag c < X.epoch) {ev : SysEvent V} (h : SysInv X m₀ s)
    (hs : sysStep X s ev = some s') : SysInv X m₀ s' := by
  cases ev with
  | dispatch =>
    simp only [sysStep] at hs
    split at hs
    · obtain rfl := Option.some.inj hs
      exact h
    · exact absurd hs (by simp)
  | lane p l data =>
    obtain ⟨piece, g, a, st, -, -, -, -, hst, rfl⟩ := sysStep_lane hs
    intro t
    by_cases ht : t = a.1
    · subst ht
      simp only [Function.update_self]
      exact inv_step (hl a.1) (hstart a.1) (h a.1) hst
    · simp only [Function.update_of_ne ht]
      exact h t

theorem sysInv_run (hl : ∀ t, Located (X.submitted t) (X.loc t))
    (hstart : ∀ t c, (m₀ t).tag c < X.epoch) {evs : List (SysEvent V)} (h : SysInv X m₀ s)
    (hrun : sysRun X s evs = some s') : SysInv X m₀ s' := by
  induction evs generalizing s with
  | nil =>
    obtain rfl := Option.some.inj hrun
    exact h
  | cons ev evs ih =>
    rw [sysRun, List.foldlM_cons] at hrun
    obtain ⟨t, ht, hrest⟩ := Option.bind_eq_some_iff.mp hrun
    exact ih (sysInv_step hl hstart h ht) hrest

/-- An unfinished operation makes a step, unless it waits for a tag. -/
theorem step_of_not_waiting {E : Epoch} {m : Memory V} {st : State V} {i : ℕ} {o : Op}
    (h : Inv E m st) (hi : E.ops[i]? = some o) (hun : (st.phase i).isDone = false)
    (hwait : ∀ c, st.phase i = .waiting c → st.mem.tag c = E.epoch) (data : V) :
    ∃ st', step E st i data = some st' := by
  have hop := h.ops i o hi
  simp only [step, hi]
  cases hw : o.isWrite with
  | true =>
    simp only [if_true]
    cases hph : st.phase i with
    | idle =>
      simp only [gpuWriteToTableCoop]
      split
      · exact ⟨_, rfl⟩
      · split <;> exact ⟨_, rfl⟩
    | loaded v1 => exact ⟨_, rfl⟩
    | writing c => exact ⟨_, rfl⟩
    | tagging c v => exact ⟨_, rfl⟩
    | waiting c =>
      rw [hph] at hop
      exact absurd hop.2.1 (by simp [hw])
    | reading c =>
      rw [hph] at hop
      exact absurd hop.2.1 (by simp [hw])
    | done v =>
      rw [hph] at hun
      exact absurd hun (by simp [Phase.isDone])
  | false =>
    simp only [Bool.false_eq_true, if_false]
    cases hph : st.phase i with
    | idle =>
      simp only [gpuReadFromTableCoop]
      split
      · exact ⟨_, rfl⟩
      · split <;> exact ⟨_, rfl⟩
    | loaded v1 =>
      simp only [gpuReadFromTableCoop]
      split <;> exact ⟨_, rfl⟩
    | waiting c =>
      simp only [gpuReadFromTableCoop]
      rw [if_pos (hwait c hph)]
      exact ⟨_, rfl⟩
    | reading c => exact ⟨_, rfl⟩
    | writing c =>
      rw [hph] at hop
      exact absurd hop.2.1 (by simp [hw])
    | tagging c v =>
      rw [hph] at hop
      exact absurd hop.2.1 (by simp [hw])
    | done v =>
      rw [hph] at hun
      exact absurd hun (by simp [Phase.isDone])

/-- The cell a finished write was planned for is tagged. -/
theorem tag_of_finished {E : Epoch} {m : Memory V} {st : State V} {i : ℕ} {w : Op} (h : Inv E m st)
    (hi : E.ops[i]? = some w) (hw : w.isWrite = true) (hr : w.record ≠ kNoRecord)
    (hdone : (st.phase i).isDone = true) : st.mem.tag (target m w.record (E.loc w)) = E.epoch := by
  have hop := h.ops i w hi
  cases hph : st.phase i with
  | done x =>
    rw [hph] at hop
    rcases x with - | v
    · exact absurd hop hr
    · obtain ⟨-, ⟨hw', -⟩ | ⟨-, ht, -⟩⟩ := hop
      · rw [hw] at hw'
        exact absurd hw' (by simp)
      · exact ht
  | _ =>
    rw [hph] at hdone
    exact absurd hdone (by simp [Phase.isDone])

omit [DecidableEq T] in
/-- The first unfinished group of a piece. -/
theorem exists_current {piece : List (List (T × Op))} {G : List (T × Op)} {a : T × Op}
    (hG : G ∈ piece) (ha : a ∈ G) (hun : X.finished s a = false) :
    ∃ (g : ℕ) (G' : List (T × Op)) (l : ℕ) (b : T × Op), piece[g]? = some G' ∧ X.current s piece = some G' ∧
      G'[l]? = some b ∧
      X.finished s b = false ∧
      ∀ h < g, ∀ G'', piece[h]? = some G'' → ∀ c ∈ G'', X.finished s c = true := by
  have hsome : (X.current s piece).isSome := by
    rw [Executor.current, List.find?_isSome]
    refine ⟨G, hG, ?_⟩
    rw [Bool.not_eq_true', List.all_eq_false]
    exact ⟨a, ha, by simp [hun]⟩
  obtain ⟨G', hcur⟩ := Option.isSome_iff_exists.mp hsome
  obtain ⟨hbad, l, r, hpiece, hbefore⟩ := List.find?_eq_some_iff_append.mp hcur
  rw [Bool.not_eq_true', List.all_eq_false] at hbad
  obtain ⟨b, hb, hbun⟩ := hbad
  obtain ⟨i, hi⟩ := List.mem_iff_getElem?.mp hb
  refine ⟨l.length, G', i, b, by rw [hpiece]; simp, hcur, hi, by simpa using hbun, ?_⟩
  intro h hh G'' hG'' c hc
  rw [hpiece, List.getElem?_append_left hh] at hG''
  have hall := hbefore G'' (List.mem_of_getElem? hG'')
  rw [Bool.not_not, List.all_eq_true] at hall
  exact hall c hc

/-- The first unfinished piece can make a step once it is handed out. -/
theorem canStep_first (hm : Matched X.submitted X.pieces)
    (hl : ∀ t, Located (X.submitted t) (X.loc t)) (h : SysInv X m₀ s) {p : ℕ} (hp : p < s.counter)
    (hun : ¬ X.pieceDone s p) (hfirst : ∀ q < p, X.pieceDone s q) : X.CanStep s p := by
  simp only [Executor.pieceDone, not_forall, Bool.not_eq_true] at hun
  obtain ⟨piece, hpiece, G, hG, a, ha, hfin⟩ := hun
  obtain ⟨g, G', l, ⟨t, o⟩, hg, hcur, hlane, hbun, hbefore⟩ := exists_current hG ha hfin
  have hmem : (t, o) ∈ G' := List.mem_of_getElem? hlane
  obtain ⟨pre, post, i, -, hi, hidx, -⟩ := hm.split (mem_accesses hpiece hg hmem)
  have hphase : ((s.table t).phase i).isDone = false := by
    rw [← hidx]
    exact hbun
  have hinv := h t
  have hi' : (X.table t).ops[i]? = some o := hi
  obtain ⟨st, hst⟩ := step_of_not_waiting hinv hi' hphase (fun c hph => by
    -- the reader's cell was written by an earlier piece or group, which has finished
    have hop := hinv.ops i o hi'
    rw [hph] at hop
    obtain ⟨hr, hw, hA, rfl⟩ := hop
    obtain ⟨w, hww, hwr, hwloc, hearlier⟩ := waits_served hm (hl t) hpiece hg hmem hw hA
    have hdone : X.finished s (t, w) = true ∧ (t, w) ∈ accesses X.pieces := by
      rcases hearlier with ⟨q, hq, piece', G'', hq', hG'', hw'⟩ | ⟨h', hh, G'', hG'', hw'⟩
      · obtain ⟨k, hk⟩ := List.mem_iff_getElem?.mp hG''
        exact ⟨hfirst q hq piece' hq' G'' hG'' _ hw', mem_accesses hq' hk hw'⟩
      · exact ⟨hbefore h' hh G'' hG'' _ hw', mem_accesses hpiece hG'' hw'⟩
    obtain ⟨-, -, j, -, hj, hjdx, -⟩ := hm.split hdone.2
    have htag := tag_of_finished hinv (show (X.table t).ops[j]? = some w from hj) hww
      (hwr ▸ hr) (by rw [← hjdx]; exact hdone.1)
    have hloc : (X.table t).loc w = (X.table t).loc o := hwloc
    rw [hwr, hloc] at htag
    exact htag) ((m₀ t).value (.version 0))
  refine ⟨l, (m₀ t).value (.version 0), { s with table := Function.update s.table t st }, ?_⟩
  have hst' : step (X.table t) (s.table t) (X.index (t, o)) ((m₀ t).value (.version 0)) = some st := by
    rw [Executor.index, hidx]
    exact hst
  simp only [sysStep, if_neg (Nat.not_le.mpr hp), hpiece, hcur, hlane, hst', Option.map_some]

/-! ### Runs are finite -/

/-- The loads and stores an operation has still to make, at most. -/
def Phase.rank : Phase V → ℕ
  | .idle => 4
  | .loaded _ => 3
  | .waiting _ => 2
  | .writing _ => 2
  | .reading _ => 1
  | .tagging _ _ => 1
  | .done _ => 0

omit [DecidableEq T] in
theorem read_rank {m : Memory V} {r loc epoch : ℕ} {p p' : Phase V}
    (h : gpuReadFromTableCoop m r loc epoch p = some p') : p'.rank < p.rank := by
  cases p with
  | idle =>
    simp only [gpuReadFromTableCoop] at h
    split at h
    · obtain rfl := Option.some.inj h
      simp [Phase.rank]
    · split at h <;> obtain rfl := Option.some.inj h <;> simp [Phase.rank]
  | loaded v1 =>
    simp only [gpuReadFromTableCoop] at h
    split at h
    · obtain rfl := Option.some.inj h
      simp [Phase.rank]
    · obtain rfl := Option.some.inj h
      rw [readRecordB]
      split
      · simp [Phase.rank]
      · split
        · simp [Phase.rank]
        · split <;> simp [Phase.rank]
  | waiting c =>
    simp only [gpuReadFromTableCoop] at h
    split at h
    · obtain rfl := Option.some.inj h
      simp [Phase.rank]
    · exact absurd h (by simp)
  | reading c =>
    obtain rfl := Option.some.inj h
    simp [Phase.rank]
  | _ => exact absurd h (by simp [gpuReadFromTableCoop])

omit [DecidableEq T] in
theorem write_rank {m : Memory V} {r loc epoch : ℕ} {data : V} {p : Phase V} {x : Memory V × Phase V}
    (h : gpuWriteToTableCoop m r loc epoch data p = some x) : x.2.rank < p.rank := by
  cases p with
  | idle =>
    simp only [gpuWriteToTableCoop] at h
    split at h
    · obtain rfl := Option.some.inj h
      simp [Phase.rank]
    · split at h <;> obtain rfl := Option.some.inj h <;> simp [Phase.rank]
  | loaded v1 =>
    obtain rfl := Option.some.inj h
    simp [Phase.rank]
  | writing c =>
    obtain rfl := Option.some.inj h
    simp [Phase.rank]
  | tagging c v =>
    obtain rfl := Option.some.inj h
    simp [Phase.rank]
  | _ => exact absurd h (by simp [gpuWriteToTableCoop])

omit [DecidableEq T] in
theorem step_rank {E : Epoch} {st st' : State V} {i : ℕ} {data : V} (h : step E st i data = some st') :
    (st'.phase i).rank < (st.phase i).rank ∧ ∀ k, k ≠ i → st'.phase k = st.phase k := by
  rw [step] at h
  split at h
  · exact absurd h (by simp)
  · split at h
    · obtain ⟨x, hx, rfl⟩ := Option.map_eq_some_iff.mp h
      refine ⟨?_, fun k hk => Function.update_of_ne hk ..⟩
      simp only [Function.update_self]
      exact write_rank hx
    · obtain ⟨p, hp, rfl⟩ := Option.map_eq_some_iff.mp h
      refine ⟨?_, fun k hk => Function.update_of_ne hk ..⟩
      simp only [Function.update_self]
      exact read_rank hp

/-- The steps a run has left, at most. -/
def Executor.budget (X : Executor T) (s : Sys T V) : ℕ :=
  ((accesses X.pieces).map fun a => ((s.table a.1).phase (X.index a)).rank).sum +
    (X.pieces.length - s.counter)

theorem budget_step (hW : 0 < X.numWarps) {ev : SysEvent V} (h : sysStep X s ev = some s') :
    X.budget s' < X.budget s := by
  cases ev with
  | dispatch =>
    simp only [sysStep] at h
    split at h
    · next hlt =>
      obtain rfl := Option.some.inj h
      simp only [Executor.budget]
      omega
    · exact absurd h (by simp)
  | lane p l data =>
    obtain ⟨piece, g, a, st, -, hpiece, hcur, ha, hst, rfl⟩ := sysStep_lane h
    obtain ⟨hlt, hother⟩ := step_rank hst
    have hmem : a ∈ accesses X.pieces := by
      obtain ⟨k, hk⟩ := List.mem_iff_getElem?.mp (List.mem_of_find?_eq_some hcur)
      exact mem_accesses hpiece hk (List.mem_of_getElem? ha)
    have hrank : ∀ b : T × Op, ((Function.update s.table a.1 st b.1).phase (X.index b)).rank ≤
        ((s.table b.1).phase (X.index b)).rank := by
      intro b
      by_cases ht : b.1 = a.1
      · rw [ht, Function.update_self]
        by_cases hidx : X.index b = X.index a
        · rw [hidx]
          exact hlt.le
        · rw [hother _ hidx]
      · rw [Function.update_of_ne ht]
    simp only [Executor.budget]
    refine Nat.add_lt_add_right (List.sum_lt_sum _ _ (fun b _ => hrank b) ⟨a, hmem, ?_⟩) _
    rw [Function.update_self]
    exact hlt

theorem budget_run (hW : 0 < X.numWarps) {evs : List (SysEvent V)} (h : sysRun X s evs = some s') :
    evs.length + X.budget s' ≤ X.budget s := by
  induction evs generalizing s with
  | nil =>
    obtain rfl := Option.some.inj h
    simp
  | cons ev evs ih =>
    rw [sysRun, List.foldlM_cons] at h
    obtain ⟨t, ht, hrest⟩ := Option.bind_eq_some_iff.mp h
    have h1 := budget_step hW ht
    have h2 := ih hrest
    simp only [List.length_cons]
    omega

/-! ### The locations of the plan -/

omit [DecidableEq T] in
/-- The location of an operation that is skipped does not matter. -/
theorem step_congr {E : Epoch} {m : Memory V} {st : State V} {loc' : Op → ℕ} (h : Inv E m st)
    (hloc : ∀ o ∈ E.ops, o.record ≠ kNoRecord → loc' o = E.loc o) (i : ℕ) (data : V) :
    step { E with loc := loc' } st i data = step E st i data := by
  rw [step, step]
  cases hi : E.ops[i]? with
  | none => rfl
  | some o =>
    have hop := h.ops i o hi
    by_cases hr : o.record = kNoRecord
    · cases hph : st.phase i with
      | idle =>
        simp only [gpuReadFromTableCoop, gpuWriteToTableCoop, hr, if_true]
      | done v => simp only [gpuReadFromTableCoop, gpuWriteToTableCoop]
      | _ =>
        rw [hph] at hop
        exact absurd hr hop.1
    · simp only [hloc o (List.mem_of_getElem? hi) hr]

theorem sysStep_congr {loc : T → Op → ℕ} (h : SysInv X m₀ s)
    (hloc : ∀ t, ∀ o ∈ X.submitted t, o.record ≠ kNoRecord → loc t o = X.loc t o)
    (ev : SysEvent V) : sysStep { X with loc := loc } s ev = sysStep X s ev := by
  cases ev with
  | dispatch => rfl
  | lane p l data =>
    have hstep : ∀ a : T × Op,
        step (Executor.table { X with loc := loc } a.1) (s.table a.1) (X.index a) data =
          step (X.table a.1) (s.table a.1) (X.index a) data :=
      fun a => step_congr (h a.1) (hloc a.1) _ _
    have hcur : ∀ piece, Executor.current { X with loc := loc } s piece = X.current s piece :=
      fun _ => rfl
    have hidx : ∀ a, Executor.index { X with loc := loc } a = X.index a := fun _ => rfl
    simp only [sysStep, hcur, hidx, hstep]

theorem sysRun_congr (hl : ∀ t, Located (X.submitted t) (X.loc t))
    (hstart : ∀ t c, (m₀ t).tag c < X.epoch) {loc : T → Op → ℕ} (h : SysInv X m₀ s)
    (hloc : ∀ t, ∀ o ∈ X.submitted t, o.record ≠ kNoRecord → loc t o = X.loc t o)
    (evs : List (SysEvent V)) : sysRun { X with loc := loc } s evs = sysRun X s evs := by
  induction evs generalizing s with
  | nil => rfl
  | cons ev evs ih =>
    rw [sysRun, sysRun, List.foldlM_cons, List.foldlM_cons, sysStep_congr h hloc]
    cases hs : sysStep X s ev with
    | none => rfl
    | some t => exact ih (sysInv_step hl hstart h hs)

/-- An executor whose waiting readers never block it: every cell that a read waits on has its write
    in an earlier piece or an earlier group of the same piece; in every state it reaches, some
    dispatched unfinished piece can make a step if there is one, and something can happen as long as
    a piece is unfinished; and it cannot go on forever. -/
structure NoDeadlock (X : Executor T) (m₀ : T → Memory V) : Prop where
  served : ∀ {p g : ℕ} {piece : List (List (T × Op))} {G : List (T × Op)} {t : T} {o : Op},
    X.pieces[p]? = some piece → piece[g]? = some G → (t, o) ∈ G → o.isWrite = false →
    o.record ≠ kNoRecord → X.loc t o ≠ locRecordA →
    ∃ w, w.isWrite = true ∧ w.record = o.record ∧ X.loc t w = X.loc t o ∧
      ((∃ q < p, ∃ piece' G', X.pieces[q]? = some piece' ∧ G' ∈ piece' ∧ (t, w) ∈ G') ∨
        ∃ h < g, ∃ G', piece[h]? = some G' ∧ (t, w) ∈ G')
  moves : ∀ {evs : List (SysEvent V)} {s : Sys T V}, sysRun X (.start m₀) evs = some s →
    ∀ p < s.counter, ¬ X.pieceDone s p →
      ∃ q < s.counter, ¬ X.pieceDone s q ∧ X.CanStep s q
  goesOn : ∀ {evs : List (SysEvent V)} {s : Sys T V}, sysRun X (.start m₀) evs = some s →
    (∃ p, ¬ X.pieceDone s p) → ∃ ev s', sysStep X s ev = some s'
  ends : ∀ {evs : List (SysEvent V)} {s : Sys T V}, sysRun X (.start m₀) evs = some s →
    evs.length ≤ X.budget (.start m₀ : Sys T V)

theorem noDeadlock_of_located (hm : Matched X.submitted X.pieces)
    (hl : ∀ t, Located (X.submitted t) (X.loc t)) (hstart : ∀ t c, (m₀ t).tag c < X.epoch)
    (hW : 0 < X.numWarps) : NoDeadlock X m₀ := by
  have hmoves : ∀ {evs : List (SysEvent V)} {s : Sys T V}, sysRun X (.start m₀) evs = some s →
      ∀ p < s.counter, ¬ X.pieceDone s p →
        ∃ q < s.counter, ¬ X.pieceDone s q ∧ X.CanStep s q := by
    intro evs s hrun p hp hun
    have hinv : SysInv X m₀ s := sysInv_run hl hstart (fun _ => inv_start) hrun
    classical
    have hex : ∃ q, ¬ X.pieceDone s q := ⟨p, hun⟩
    have hle : Nat.find hex ≤ p := Nat.find_min' hex hun
    have hlt : Nat.find hex < s.counter := by omega
    refine ⟨Nat.find hex, hlt, Nat.find_spec hex, ?_⟩
    exact canStep_first hm hl hinv hlt (Nat.find_spec hex) fun q hq =>
      not_not.mp (Nat.find_min hex hq)
  refine ⟨fun hp hg ha hw _ hA => waits_served hm (hl _) hp hg ha hw hA, hmoves, ?_, ?_⟩
  · rintro evs s hrun ⟨p, hun⟩
    by_cases hp : p < s.counter
    · obtain ⟨q, -, -, l, data, s', hs'⟩ := hmoves hrun p hp hun
      exact ⟨_, s', hs'⟩
    · simp only [Executor.pieceDone, not_forall] at hun
      obtain ⟨piece, hpiece, -⟩ := hun
      have hlen := (List.getElem?_eq_some_iff.mp hpiece).1
      refine ⟨.dispatch, { s with counter := s.counter + X.numWarps }, ?_⟩
      simp only [sysStep]
      rw [if_pos (by omega)]
  · intro evs s hrun
    have := budget_run hW hrun
    omega

/-- An executor that takes its locations from the common plan of all tables, except where it skips
    the record. -/
theorem noDeadlock_of_agrees (hm : Matched X.submitted X.pieces) (planned : T → Op → ℕ)
    (hl : ∀ t, Located (X.submitted t) (planned t))
    (hloc : ∀ t, ∀ o ∈ X.submitted t, o.record ≠ kNoRecord → X.loc t o = planned t o)
    (hstart : ∀ t c, (m₀ t).tag c < X.epoch) (hW : 0 < X.numWarps) : NoDeadlock X m₀ := by
  let Y : Executor T := { X with loc := planned }
  have hno : NoDeadlock Y m₀ := noDeadlock_of_located hm hl hstart hW
  have hrun : ∀ {evs : List (SysEvent V)} {s : Sys T V}, sysRun X (.start m₀) evs = some s →
      sysRun Y (.start m₀) evs = some s := by
    intro evs s h
    exact (sysRun_congr (X := Y) hl hstart (fun _ => inv_start) hloc evs).symm.trans h
  have hsame : ∀ {evs : List (SysEvent V)} {s : Sys T V}, sysRun X (.start m₀) evs = some s →
      ∀ ev, sysStep X s ev = sysStep Y s ev := by
    intro evs s h ev
    have hinv : SysInv Y m₀ s := sysInv_run hl hstart (fun _ => inv_start) (hrun h)
    exact sysStep_congr hinv hloc ev
  refine ⟨?_, ?_, ?_, ?_⟩
  · intro p g piece G t o hp hg ha hw hr hA
    have hmem : ∀ {a : T × Op}, a ∈ accesses X.pieces → a.2 ∈ X.submitted a.1 := by
      rintro ⟨t', o'⟩ h
      obtain ⟨-, -, i, -, hi, -, -⟩ := hm.split h
      exact List.mem_of_getElem? hi
    have ho := hloc t o (hmem (mem_accesses hp hg ha)) hr
    obtain ⟨w, hww, hwr, hwl, hearlier⟩ := hno.served hp hg ha hw hr (fun h => hA (ho.trans h))
    refine ⟨w, hww, hwr, ?_, hearlier⟩
    have hwmem : w ∈ X.submitted t := by
      rcases hearlier with ⟨q, -, piece', G', hq, hG', hw'⟩ | ⟨h, -, G', hG', hw'⟩
      · obtain ⟨k, hk⟩ := List.mem_iff_getElem?.mp hG'
        exact hmem (mem_accesses hq hk hw')
      · exact hmem (mem_accesses hp hG' hw')
    rw [ho, hloc t w hwmem (hwr ▸ hr)]
    exact hwl
  · intro evs s h p hp hun
    obtain ⟨q, hq, hqun, l, data, s', hs'⟩ := hno.moves (hrun h) p hp hun
    exact ⟨q, hq, hqun, l, data, s', (hsame h _).trans hs'⟩
  · intro evs s h hun
    obtain ⟨ev, s', hs'⟩ := hno.goesOn (hrun h) hun
    exact ⟨ev, s', (hsame h _).trans hs'⟩
  · intro evs s h
    exact hno.ends (hrun h)

/-! ### Records in the cache -/

/-- The slots of a batch's records: the absent record has none, and distinct records have distinct
    ones. -/
structure Remaps (grid : ℕ → ℕ) (ops : List Op) : Prop where
  absent : grid kNoRecord = kNoRecord
  inj : ∀ o ∈ ops, ∀ q ∈ ops, grid o.record = grid q.record → o.record = q.record

/-- An access with the slot of its record. -/
def remapAccess (grid : T → ℕ → ℕ) (a : T × Op) : T × Op := (a.1, a.2.remap (grid a.1))

/-- The executor after the remap of its parameters: it is the plan's, and works on slots. -/
def Executor.remap (X : Executor T) (grid : T → ℕ → ℕ) : Executor T where
  submitted t := (X.submitted t).map (Op.remap (grid t))
  pieces := X.pieces.map fun piece => piece.map fun g => g.map (remapAccess grid)
  loc := X.loc
  epoch := X.epoch
  numWarps := X.numWarps

omit [DecidableEq T] in
theorem accesses_remap (grid : T → ℕ → ℕ) :
    accesses (X.remap grid).pieces = (accesses X.pieces).map (remapAccess grid) := by
  rw [accesses, accesses, List.map_flatten, List.map_flatten]
  rfl

theorem accessesTo_remap (grid : T → ℕ → ℕ) (t : T) :
    accessesTo (X.remap grid).pieces t = (accessesTo X.pieces t).map (Op.remap (grid t)) := by
  rw [accessesTo, accesses_remap, accessesTo]
  induction accesses X.pieces with
  | nil => rfl
  | cons a as ih =>
    by_cases ha : a.1 = t
    · subst ha
      simp only [List.map_cons, remapAccess, decide_true, List.filter_cons_of_pos] at ih ⊢
      rw [ih]
    · simp only [List.map_cons, remapAccess, decide_eq_true_eq, ha, not_false_eq_true,
        List.filter_cons_of_neg] at ih ⊢
      exact ih

/-- Executors of planned batches: every access has a plan word of its own, the batches are in the
    order of the accesses, the locations are those of the plan, and the records are in the cache. -/
theorem noDeadlock_of_plan (horder : ∀ t, X.submitted t = accessesTo X.pieces t)
    (hb : Batch ((accesses X.pieces).map Prod.snd))
    (hlanes : ∀ piece ∈ X.pieces, ∀ g ∈ piece, g.length ≤ 1 ∨ ∀ a ∈ g, a.2.isWrite = false)
    {tables : List T} (hnd : tables.Nodup) (hall : ∀ t, t ∈ tables) {plan : ExecPlan}
    (hloc : ∀ t, ∀ o ∈ X.submitted t, o.record ≠ kNoRecord →
      X.loc t o = planAll X.submitted tables plan (o.txn, o.offset))
    {grid : T → ℕ → ℕ} (hgrid : ∀ t, Remaps (grid t) (X.submitted t))
    (hword : ∀ t o, X.loc t (o.remap (grid t)) = X.loc t o)
    (hstart : ∀ t c, (m₀ t).tag c < X.epoch) (hW : 0 < X.numWarps) :
    NoDeadlock (X.remap grid) m₀ := by
  have hbatch : ∀ t, Batch (X.submitted t) := fun t => horder t ▸ Batch.accessesTo hb t
  have hwords : ∀ {t t'}, t ≠ t' → ∀ o ∈ X.submitted t, ∀ o' ∈ X.submitted t',
      (o'.txn, o'.offset) ≠ (o.txn, o.offset) :=
    fun hne o ho o' ho' => words_of_batch horder hb hne ho ho'
  have hm : Matched (X.remap grid).submitted (X.remap grid).pieces := by
    refine ⟨fun t => ?_, fun t => ?_, ?_⟩
    · rw [accessesTo_remap, ← horder]
      rfl
    · refine List.pairwise_map.mpr ((hbatch t).words.imp fun {o q} hne he => hne ?_)
      have htxn : (o.remap (grid t)).txn = (q.remap (grid t)).txn := congrArg Op.txn he
      have hoff : (o.remap (grid t)).offset = (q.remap (grid t)).offset := congrArg Op.offset he
      exact Prod.ext htxn hoff
    · intro piece hpiece g hg
      obtain ⟨piece', hpiece', rfl⟩ := List.mem_map.mp hpiece
      obtain ⟨g', hg', rfl⟩ := List.mem_map.mp hg
      refine (hlanes piece' hpiece' g' hg').imp (fun h => by rwa [List.length_map]) fun h a ha => ?_
      obtain ⟨a', ha', rfl⟩ := List.mem_map.mp ha
      exact h a' ha'
  refine noDeadlock_of_agrees hm (fun _ o => planAll X.submitted tables plan (o.txn, o.offset))
    (fun t => ?_) (fun t x hx hr => ?_) hstart hW
  · exact Located.remap (hgrid t).inj (located_planAll hbatch hwords hnd (hall t) plan)
  · obtain ⟨o, ho, rfl⟩ := List.mem_map.mp hx
    refine (hword t o).trans (hloc t o ho fun h => hr ?_)
    rw [Op.remap, h]
    exact (hgrid t).absent

end

end

end Egad.Execution
