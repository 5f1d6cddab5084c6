import Egad.Lib.Scan
import Mathlib.Data.List.Range
import Mathlib.Data.List.Flatten

/-! # Blocks laid out by a prefix sum

    Every thread owns a block of values and knows the sum of the counts of the threads before it.
    It writes its block from that offset on; the writes of all threads reach memory in any order.

        counts     2      3        1
        offsets    0      2        5
        memory   | a a | b b b | c | …

    When every count is the length of its block, memory ends as the blocks one behind the other. -/

namespace Egad.Lib

variable {κ β : Type*} [DecidableEq κ]

/-- The writes of a block that is put at `off`. -/
def blockWrites (off : ℕ) (block : List β) : List (ℕ × β) :=
  (block.zipIdx off).map fun x => (x.2, x.1)

/-- The writes of all threads: block `t` goes to the sum of the counts before `t`. -/
def scatterBlocks (counts : List ℕ) (blocks : List (List β)) : List (ℕ × β) :=
  (blocks.zip (exclusiveSum counts)).flatMap fun x => blockWrites x.2 x.1

/-- Memory after the writes, in the order they arrive. -/
def writeAll (a : κ → β) (ws : List (κ × β)) : κ → β :=
  ws.foldl (fun a w => Function.update a w.1 w.2) a

/-! ### Distinct addresses -/

theorem writeAll_of_notMem {i : κ} : ∀ {ws : List (κ × β)} (a : κ → β), i ∉ ws.map Prod.fst →
    writeAll a ws i = a i
  | [], _, _ => rfl
  | w :: ws, a, h => by
    rw [List.map_cons, List.mem_cons, not_or] at h
    rw [writeAll, List.foldl_cons, ← writeAll, writeAll_of_notMem _ h.2, Function.update_of_ne h.1]

/-- What is written to an address of its own is found there. -/
theorem writeAll_of_mem {i : κ} {b : β} : ∀ {ws : List (κ × β)} (a : κ → β),
    (ws.map Prod.fst).Nodup → (i, b) ∈ ws → writeAll a ws i = b
  | [], _, _, h => absurd h List.not_mem_nil
  | w :: ws, a, hnd, h => by
    rw [List.map_cons, List.nodup_cons] at hnd
    rw [writeAll, List.foldl_cons, ← writeAll]
    rcases List.mem_cons.mp h with rfl | h
    · rw [writeAll_of_notMem _ hnd.1, Function.update_self]
    · exact writeAll_of_mem _ hnd.2 h

/-- Writes to an address that all bring the same value leave it there. -/
theorem writeAll_of_agree {i : κ} {b : β} {ws : List (κ × β)} (a : κ → β)
    (hval : ∀ w ∈ ws, w.1 = i → w.2 = b) (hex : i ∈ ws.map Prod.fst) : writeAll a ws i = b := by
  induction ws generalizing a with
  | nil => exact absurd hex List.not_mem_nil
  | cons w ws ih =>
    rw [writeAll, List.foldl_cons, ← writeAll]
    by_cases hlater : i ∈ ws.map Prod.fst
    · exact ih _ (fun v hv => hval v (List.mem_cons_of_mem _ hv)) hlater
    · have hw : w.1 = i := by
        rw [List.map_cons, List.mem_cons] at hex
        exact (hex.resolve_right hlater).symm
      rw [writeAll_of_notMem _ hlater, hw, Function.update_self, hval w List.mem_cons_self hw]

/-! ### The layout -/

theorem blockWrites_fst (off : ℕ) (block : List β) :
    (blockWrites off block).map Prod.fst = List.range' off block.length := by
  rw [blockWrites, List.map_map]
  exact List.zipIdx_map_snd off block

theorem blockWrites_append (off : ℕ) (l r : List β) :
    blockWrites off (l ++ r) = blockWrites off l ++ blockWrites (off + l.length) r := by
  rw [blockWrites, List.zipIdx_append, List.map_append, blockWrites, blockWrites]

theorem scatterBlocks_from (blocks : List (List β)) (acc : ℕ) :
    ((blocks.zip (exclusiveSumFrom acc (blocks.map List.length))).flatMap fun x =>
      blockWrites x.2 x.1) = blockWrites acc blocks.flatten := by
  induction blocks generalizing acc with
  | nil => rfl
  | cons b blocks ih =>
    rw [List.map_cons, exclusiveSumFrom, List.zip_cons_cons, List.flatMap_cons, ih,
      List.flatten_cons, blockWrites_append]

/-- Exact counts put the blocks one behind the other. -/
theorem scatterBlocks_exact {counts : List ℕ} {blocks : List (List β)}
    (h : counts = blocks.map List.length) :
    scatterBlocks counts blocks = blockWrites 0 blocks.flatten := by
  rw [h, scatterBlocks, exclusiveSum, scatterBlocks_from]

section
variable {block : List β} {ws : List (ℕ × β)} (h : ws.Perm (blockWrites 0 block))
include h

theorem nodup_of_perm_block : (ws.map Prod.fst).Nodup := by
  refine (h.map Prod.fst).nodup_iff.mpr ?_
  rw [blockWrites_fst]
  exact List.nodup_range'

/-- A block that is written in any order is found in memory. -/
theorem writeAll_block (a : ℕ → β) : (List.range block.length).map (writeAll a ws) = block := by
  refine List.ext_getElem (by simp) fun i hi hi' => ?_
  rw [List.getElem_map, List.getElem_range]
  refine writeAll_of_mem a (nodup_of_perm_block h) (h.mem_iff.mpr ?_)
  rw [blockWrites, List.mem_map]
  exact ⟨(block[i], i), by simp [List.mk_mem_zipIdx_iff_getElem?, hi'], rfl⟩

end

end Egad.Lib
