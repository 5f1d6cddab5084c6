import Egad.Execution.WarpPrograms
import Egad.Execution.Deadlock

/-! # Warp programs on the cache

    The remap gives every access the cache slot of its record. Distinct records of the epoch have
    distinct slots, so the programs do to the slots what they would do to the records:

        records    rows  ──── programs ────▶  rows'
                    │ grid                      │ grid
        slots      slots ── remapped programs ▶ slots' -/

namespace Egad.Execution
open Egad.Planner Egad.Stager

variable {T V R : Type}

def Instr.remap (grid : T → ℕ → ℕ) : Instr T R → Instr T R
  | .access a => .access (remapAccess grid a)
  | .compute f => .compute f

def WarpProgram.remap (grid : T → ℕ → ℕ) (prog : WarpProgram T R) : WarpProgram T R :=
  ⟨prog.register, prog.instrs.map (Instr.remap grid)⟩

/-- A remap that finds the slot of every record of the batch. -/
structure Slots (grid : ℕ → ℕ) (ops : List Op) : Prop extends Remaps grid ops where
  present : ∀ o ∈ ops, o.record ≠ kNoRecord → grid o.record ≠ kNoRecord

theorem Staged.slots {cfg : Stager.Config} {ops : List Op} {grid : ℕ → ℕ} (h : Staged cfg ops grid)
    (hb : Batch ops) : Slots grid ops := by
  refine ⟨h.remaps hb, fun o ho hne => h.present ?_ hne⟩
  rw [hb.keys]
  exact List.mem_map_of_mem ho

theorem accessesOf_remap (grid : T → ℕ → ℕ) (l : List (Instr T R)) :
    accessesOf (l.map (Instr.remap grid)) = (accessesOf l).map (remapAccess grid) := by
  induction l with
  | nil => rfl
  | cons x l ih =>
    cases x with
    | compute f => exact ih
    | access a => exact congrArg (remapAccess grid a :: ·) ih

theorem programPieces_remap (grid : T → ℕ → ℕ) (progs : List (WarpProgram T R)) :
    programPieces (progs.map (WarpProgram.remap grid)) =
      (programPieces progs).map fun piece => piece.map fun g => g.map (remapAccess grid) := by
  rw [programPieces, programPieces, List.map_map, List.map_map]
  refine List.map_congr_left fun prog _ => ?_
  rw [Function.comp_apply, Function.comp_apply, WarpProgram.remap, accessesOf_remap, List.map_map,
    List.map_map]
  rfl

section
variable [DecidableEq T] {C : Coop T V R} {X : Executor T} {progs : List (WarpProgram T R)}
  {grid : T → ℕ → ℕ} {rows slots : T → ℕ → V}

/-! ### Slots that hold what the records hold -/

def Mirrors (X : Executor T) (grid : T → ℕ → ℕ) (rows slots : T → ℕ → V) : Prop :=
  ∀ t, ∀ o ∈ X.submitted t, o.record ≠ kNoRecord → slots t (grid t o.record) = rows t o.record

theorem Mirrors.exec (hgrid : ∀ t, Slots (grid t) (X.submitted t)) {x : Instr T R}
    (hx : ∀ a, x = .access a → a.2 ∈ X.submitted a.1) (h : Mirrors X grid rows slots) (r : R) :
    Mirrors X grid (x.exec C (rows, r)).1 ((x.remap grid).exec C (slots, r)).1 ∧
      ((x.remap grid).exec C (slots, r)).2 = (x.exec C (rows, r)).2 := by
  cases x with
  | compute f => exact ⟨h, rfl⟩
  | access a =>
    have ha := hx a rfl
    rw [Instr.remap]
    by_cases hr : a.2.record = kNoRecord
    · have hr' : (remapAccess grid a).2.record = kNoRecord := by
        show grid a.1 a.2.record = kNoRecord
        rw [hr]
        exact (hgrid a.1).absent
      rw [Instr.exec_skip hr, Instr.exec_skip hr']
      exact ⟨h, rfl⟩
    · have hr' : (remapAccess grid a).2.record ≠ kNoRecord := (hgrid a.1).present a.2 ha hr
      cases hw : a.2.isWrite with
      | false =>
        have hw' : (remapAccess grid a).2.isWrite = false := hw
        rw [Instr.exec_read hr hw, Instr.exec_read hr' hw']
        exact ⟨h, congrArg (C.load a.1 · r) (h a.1 a.2 ha hr)⟩
      | true =>
        have hw' : (remapAccess grid a).2.isWrite = true := hw
        rw [Instr.exec_write hr hw, Instr.exec_write hr' hw']
        refine ⟨fun t o ho hne => ?_, rfl⟩
        dsimp only [remapAccess, Op.remap]
        by_cases ht : t = a.1
        · subst ht
          rw [Function.update_self, Function.update_self]
          by_cases he : o.record = a.2.record
          · rw [he, Function.update_self, Function.update_self]
          · rw [Function.update_of_ne he, Function.update_of_ne fun heq =>
              he ((hgrid a.1).inj o ho a.2 ha heq)]
            exact h a.1 o ho hne
        · rw [Function.update_of_ne ht, Function.update_of_ne ht]
          exact h t o ho hne

theorem Mirrors.instrs (hgrid : ∀ t, Slots (grid t) (X.submitted t)) {l : List (Instr T R)}
    (hl : ∀ a ∈ accessesOf l, a.2 ∈ X.submitted a.1) (h : Mirrors X grid rows slots) (r : R) :
    Mirrors X grid (l.foldl (Instr.exec C) (rows, r)).1
        ((l.map (Instr.remap grid)).foldl (Instr.exec C) (slots, r)).1 ∧
      ((l.map (Instr.remap grid)).foldl (Instr.exec C) (slots, r)).2 =
        (l.foldl (Instr.exec C) (rows, r)).2 := by
  induction l generalizing rows slots r with
  | nil => exact ⟨h, rfl⟩
  | cons x l ih =>
    have hx : ∀ a, x = .access a → a.2 ∈ X.submitted a.1 := by
      rintro a rfl
      exact hl a List.mem_cons_self
    have htail : ∀ a ∈ accessesOf l, a.2 ∈ X.submitted a.1 := by
      intro a ha
      refine hl a ?_
      cases x with
      | compute f => exact ha
      | access b => exact List.mem_cons_of_mem _ ha
    obtain ⟨hrows, hreg⟩ := h.exec (C := C) hgrid hx r
    rw [List.map_cons, List.foldl_cons, List.foldl_cons, ← Prod.mk.eta (p := (x.remap grid).exec C _), hreg]
    exact ih htail hrows _

theorem Mirrors.program (hgrid : ∀ t, Slots (grid t) (X.submitted t)) {prog : WarpProgram T R}
    (hprog : ∀ a ∈ accessesOf prog.instrs, a.2 ∈ X.submitted a.1) (h : Mirrors X grid rows slots) :
    Mirrors X grid (runProgram C rows prog).1 (runProgram C slots (prog.remap grid)).1 ∧
      (runProgram C slots (prog.remap grid)).2 = (runProgram C rows prog).2 :=
  h.instrs hgrid hprog prog.register

theorem Mirrors.serial (hgrid : ∀ t, Slots (grid t) (X.submitted t))
    (hprogs : ∀ prog ∈ progs, ∀ a ∈ accessesOf prog.instrs, a.2 ∈ X.submitted a.1)
    (h : Mirrors X grid rows slots) :
    Mirrors X grid (serialRows C rows progs) (serialRows C slots (progs.map (WarpProgram.remap grid))) := by
  rw [serialRows, serialRows, List.foldl_map]
  induction progs generalizing rows slots with
  | nil => exact h
  | cons prog progs ih =>
    exact ih (fun prog' hp => hprogs prog' (List.mem_cons_of_mem _ hp))
      (h.program hgrid (hprogs prog List.mem_cons_self)).1

/-- Records that no program writes keep their values. -/
theorem serialRows_unwritten {t : T} {r : ℕ} (h : ∀ prog ∈ progs, ∀ a ∈ accessesOf prog.instrs,
    a.1 = t → a.2.isWrite = true → a.2.record ≠ r) : serialRows C rows progs t r = rows t r := by
  have hinstrs : ∀ (l : List (Instr T R)) (s : (T → ℕ → V) × R), (∀ a ∈ accessesOf l, a.1 = t →
      a.2.isWrite = true → a.2.record ≠ r) → (l.foldl (Instr.exec C) s).1 t r = s.1 t r := by
    intro l
    induction l with
    | nil => exact fun _ _ => rfl
    | cons x l ih =>
      intro s hl
      cases x with
      | compute f => exact ih _ hl
      | access a =>
        rw [List.foldl_cons, ih _ fun b hb => hl b (List.mem_cons_of_mem _ hb)]
        by_cases hr : a.2.record = kNoRecord
        · rw [Instr.exec_skip hr]
        cases hw : a.2.isWrite with
        | false => rw [Instr.exec_read hr hw]
        | true =>
          rw [Instr.exec_write hr hw]
          dsimp only
          by_cases ht : t = a.1
          · subst ht
            rw [Function.update_self, Function.update_of_ne (hl a List.mem_cons_self rfl hw).symm]
          · rw [Function.update_of_ne ht]
  rw [serialRows]
  induction progs generalizing rows with
  | nil => rfl
  | cons prog progs ih =>
    rw [List.foldl_cons, ih fun prog' hp => h prog' (List.mem_cons_of_mem _ hp)]
    exact hinstrs prog.instrs _ (h prog List.mem_cons_self)

/-! ### An epoch -/

theorem Runs.remap (hr : Runs X progs) (hgrid : ∀ t, Batch (X.submitted t)) :
    Runs (X.remap grid) (progs.map (WarpProgram.remap grid)) where
  pieces := by rw [programPieces_remap, ← hr.pieces]; rfl
  matched :=
    { order := fun t => by
        rw [accessesTo_remap, ← hr.matched.order]
        rfl
      nodup := fun t => by
        -- the plan words tell the operations apart
        refine List.pairwise_map.mpr ((hgrid t).words.imp fun {o q} hne he => hne ?_)
        have htxn : (o.remap (grid t)).txn = (q.remap (grid t)).txn := congrArg Op.txn he
        have hoff : (o.remap (grid t)).offset = (q.remap (grid t)).offset := congrArg Op.offset he
        exact Prod.ext htxn hoff
      lanes := by
        intro piece hpiece g hg
        obtain ⟨piece', hpiece', rfl⟩ := List.mem_map.mp hpiece
        obtain ⟨g', hg', rfl⟩ := List.mem_map.mp hg
        refine (hr.matched.lanes piece' hpiece' g' hg').imp (fun h => by rwa [List.length_map]) ?_
        intro h a ha
        obtain ⟨a', ha', rfl⟩ := List.mem_map.mp ha
        exact h a' ha' }

/-- Whatever the interleaving of the remapped programs: the slots of the records hold what the programs
    leave in the records one after the other, the registers what they compute there, and the other
    slots what they held. -/
theorem warpRun_staged (hr : Runs X progs) (hb : Batch ((accesses X.pieces).map Prod.snd))
    {tables : List T} (hnd : tables.Nodup) (hall : ∀ t, t ∈ tables) {plan : ExecPlan}
    (hloc : ∀ t, ∀ o ∈ X.submitted t, o.record ≠ kNoRecord →
      X.loc t o = planAll X.submitted tables plan (o.txn, o.offset))
    (hgrid : ∀ t, Slots (grid t) (X.submitted t)) (hword : ∀ t o, X.loc t (o.remap (grid t)) = X.loc t o)
    {m : T → Memory V} (hstart : ∀ t c, (m t).tag c < X.epoch)
    (hm : Mirrors X grid rows fun t => (m t).latest) {evs : List WarpEvent} {s : Sys T V}
    (hrun : warpRun C (X.remap grid) (progs.map (WarpProgram.remap grid)) (.start m) evs = some s)
    (hret : returned (X.remap grid) s = true) :
    Mirrors X grid (serialRows C rows progs) (fun t => (s.table t).mem.latest) ∧
      (∀ {p : ℕ} {prog : WarpProgram T R}, progs[p]? = some prog →
        replay C (X.remap grid) s prog.register (prog.instrs.map (Instr.remap grid)) =
          (runProgram C (serialRows C rows (progs.take p)) prog).2) ∧
      (∀ t g, g ≠ kNoRecord → (∀ o ∈ X.submitted t, o.isWrite = true → grid t o.record ≠ g) →
        (s.table t).mem.latest g = (m t).latest g) ∧
      ∀ t c, (s.table t).mem.tag c < X.epoch + 1 := by
  have hbatch : ∀ t, Batch (X.submitted t) := fun t => hr.matched.order t ▸ Batch.accessesTo hb t
  have hwords : ∀ {t t'}, t ≠ t' → ∀ o ∈ X.submitted t, ∀ o' ∈ X.submitted t',
      (o'.txn, o'.offset) ≠ (o.txn, o.offset) :=
    fun hne o ho o' ho' => words_of_batch hr.matched.order hb hne ho ho'
  have hmem : ∀ prog ∈ progs, ∀ a ∈ accessesOf prog.instrs, a.2 ∈ X.submitted a.1 := by
    intro prog hprog a ha
    obtain ⟨p, hp⟩ := List.mem_iff_getElem?.mp hprog
    exact List.mem_of_getElem? (hr.getElem_index (hr.mem hp ha))
  have hl : ∀ t, Located ((X.remap grid).submitted t) fun o =>
      planAll X.submitted tables plan (o.txn, o.offset) := fun t =>
    Located.remap (hgrid t).inj (located_planAll hbatch hwords hnd (hall t) plan)
  have hplanned : ∀ t, ∀ o ∈ (X.remap grid).submitted t, o.record ≠ kNoRecord →
      (X.remap grid).loc t o = planAll X.submitted tables plan (o.txn, o.offset) := by
    intro t x hx hne
    obtain ⟨o, ho, rfl⟩ := List.mem_map.mp hx
    refine (hword t o).trans (hloc t o ho fun h => hne ?_)
    rw [Op.remap, h]
    exact (hgrid t).absent
  have hremap : Runs (X.remap grid) (progs.map (WarpProgram.remap grid)) := hr.remap hbatch
  obtain ⟨hrows, hregs, htags⟩ := warpRun_serial_of_agrees hremap _ hl hplanned hstart hrun hret
  refine ⟨fun t o ho hne => ?_, fun {p prog} hp => ?_, fun t g hg hw => ?_, htags⟩
  · rw [hrows t _ ((hgrid t).present o ho hne)]
    exact hm.serial hgrid hmem t o ho hne
  · have hp' : (progs.map (WarpProgram.remap grid))[p]? = some (prog.remap grid) := by
      rw [List.getElem?_map, hp]
      rfl
    have hbefore : ∀ prog' ∈ progs.take p, ∀ a ∈ accessesOf prog'.instrs, a.2 ∈ X.submitted a.1 :=
      fun prog' h => hmem prog' (List.mem_of_mem_take h)
    refine (hregs hp').trans ?_
    rw [← List.map_take]
    exact ((hm.serial hgrid hbefore).program hgrid (hmem prog (List.mem_of_getElem? hp))).2
  · refine (hrows t g hg).trans (serialRows_unwritten fun prog hprog a ha ht hwrite he => ?_)
    obtain ⟨prog', hprog', rfl⟩ := List.mem_map.mp hprog
    rw [WarpProgram.remap, accessesOf_remap] at ha
    obtain ⟨b, hb', rfl⟩ := List.mem_map.mp ha
    subst ht
    exact hw b.2 (hmem prog' hprog' b hb') hwrite he

end

end Egad.Execution
