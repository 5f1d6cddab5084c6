import Mathlib.Data.List.Perm.Basic
import Mathlib.Data.List.Nodup
import Mathlib.Data.List.Range
import Mathlib.Data.List.Pairwise
import Mathlib.Tactic.Ring

/-! # Copies between two memories

    A `Move` copies a range of cells from one memory to another. Moves to disjoint ranges can run in
    any order; what they leave at an address is decided by the move that hits it:

        source        ┌──src──┐
        destination        └──────► dst … dst + len

    `strideLoop` is the loop `for (i = first; i < n; i += step)`. The loops of `step` workers that start
    at `0 … step - 1` cover the range. -/

namespace Egad.Lib

variable {β : Type*}

/-- Copy `len` cells from `src` to `dst`. -/
structure Move where
  dst : ℕ
  src : ℕ
  len : ℕ
deriving DecidableEq

namespace Move

/-- The address is written. -/
def Hits (c : Move) (a : ℕ) : Prop := c.dst ≤ a ∧ a < c.dst + c.len

instance (c : Move) (a : ℕ) : Decidable (c.Hits a) := inferInstanceAs (Decidable (_ ∧ _))

def run (source : ℕ → β) (target : ℕ → β) (c : Move) : ℕ → β := fun a =>
  if c.Hits a then source (c.src + (a - c.dst)) else target a

/-- The written ranges do not meet. -/
def Apart (c d : Move) : Prop := ∀ a, c.Hits a → ¬ d.Hits a

instance : Std.Symm Move.Apart := ⟨fun _ _ h a hd hc => h a hc hd⟩

end Move

/-- Run the moves one after the other. -/
def runMoves (source : ℕ → β) (l : List Move) (target : ℕ → β) : ℕ → β := l.foldl (Move.run source) target

variable {source target : ℕ → β}

theorem runMoves_of_not_hits {l : List Move} {a : ℕ} (h : ∀ c ∈ l, ¬ c.Hits a) :
    runMoves source l target a = target a := by
  induction l generalizing target with
  | nil => rfl
  | cons c l ih =>
    rw [runMoves, List.foldl_cons, ← runMoves, ih fun d hd => h d (List.mem_cons_of_mem _ hd),
      Move.run, if_neg (h c List.mem_cons_self)]

theorem runMoves_of_hits {l : List Move} (hl : l.Pairwise Move.Apart) {c : Move} (hc : c ∈ l)
    {a : ℕ} (ha : c.Hits a) : runMoves source l target a = source (c.src + (a - c.dst)) := by
  induction l generalizing target with
  | nil => simp at hc
  | cons d l ih =>
    obtain ⟨hd, hl⟩ := List.pairwise_cons.mp hl
    rw [runMoves, List.foldl_cons, ← runMoves]
    rcases List.mem_cons.mp hc with rfl | hc
    · rw [runMoves_of_not_hits fun e he => hd e he a ha, Move.run, if_pos ha]
    · exact ih hl hc

theorem runMoves_at {l : List Move} (hl : l.Pairwise Move.Apart) {c : Move} (hc : c ∈ l) {o : ℕ}
    (ho : o < c.len) : runMoves source l target (c.dst + o) = source (c.src + o) := by
  rw [runMoves_of_hits hl hc ⟨Nat.le_add_right _ _, Nat.add_lt_add_left ho _⟩,
    Nat.add_sub_cancel_left]

/-- Moves to disjoint ranges can run in any order. -/
theorem runMoves_perm {l l' : List Move} (h : l'.Perm l) (hl : l.Pairwise Move.Apart) :
    runMoves source l' target = runMoves source l target := by
  have hl' : l'.Pairwise Move.Apart := (h.pairwise_iff fun {x y} hxy => symm hxy).mpr hl
  funext a
  by_cases ha : ∃ c ∈ l, c.Hits a
  · obtain ⟨c, hc, ha⟩ := ha
    rw [runMoves_of_hits hl hc ha, runMoves_of_hits hl' (h.mem_iff.mpr hc) ha]
  · push Not at ha
    rw [runMoves_of_not_hits ha, runMoves_of_not_hits fun c hc => ha c (h.mem_iff.mp hc)]

/-! ### Copies in words -/

/-- Word `i` of a move. -/
def Move.word (size : ℕ) (c : Move) (i : ℕ) : Move := ⟨c.dst + size * i, c.src + size * i, size⟩

/-- A move done word by word. -/
def Move.words (size : ℕ) (c : Move) : List Move := (List.range (c.len / size)).map (c.word size)

theorem Move.word_hits {size : ℕ} {c : Move} {i a : ℕ} (hdvd : size ∣ c.len)
    (hi : i < c.len / size) (ha : (c.word size i).Hits a) :
    c.Hits a ∧ (a - c.dst) / size = i ∧
      (c.word size i).src + (a - (c.word size i).dst) = c.src + (a - c.dst) := by
  obtain ⟨hlo, hhi⟩ := ha
  simp only [Move.word] at hlo hhi ⊢
  have hlen : size * (i + 1) ≤ c.len := by
    obtain ⟨k, hk⟩ := hdvd
    have hpos : 0 < size := by omega
    rw [hk, Nat.mul_div_cancel_left _ hpos] at hi
    rw [hk]
    exact Nat.mul_le_mul_left _ hi
  rw [Nat.mul_succ] at hlen
  refine ⟨⟨by omega, by omega⟩, ?_, by omega⟩
  have hdiv : (a - c.dst) / size = i :=
    Nat.div_eq_of_lt_le (by rw [Nat.mul_comm]; omega) (by rw [Nat.mul_comm, Nat.mul_succ]; omega)
  exact hdiv

theorem Move.exists_word {size : ℕ} {c : Move} {a : ℕ} (hsize : 0 < size) (hdvd : size ∣ c.len)
    (ha : c.Hits a) : ∃ w ∈ c.words size, w.Hits a := by
  obtain ⟨hlo, hhi⟩ := ha
  have hmod := Nat.div_add_mod (a - c.dst) size
  have hlt := Nat.mod_lt (a - c.dst) hsize
  refine ⟨c.word size ((a - c.dst) / size), List.mem_map_of_mem (List.mem_range.mpr ?_), ?_, ?_⟩
  · rw [Nat.div_lt_iff_lt_mul hsize, Nat.div_mul_cancel hdvd]
    omega
  · simp only [Move.word]
    omega
  · simp only [Move.word]
    omega

theorem Move.words_apart {size : ℕ} {c d : Move} (hc : size ∣ c.len) (hd : size ∣ d.len)
    (h : c.Apart d) {v w : Move} (hv : v ∈ c.words size) (hw : w ∈ d.words size) : v.Apart w := by
  intro a hva hwa
  obtain ⟨i, hi, rfl⟩ := List.mem_map.mp hv
  obtain ⟨j, hj, rfl⟩ := List.mem_map.mp hw
  exact h a (Move.word_hits hc (List.mem_range.mp hi) hva).1
    (Move.word_hits hd (List.mem_range.mp hj) hwa).1

theorem Move.words_pairwise {size : ℕ} {c : Move} (hc : size ∣ c.len) :
    (c.words size).Pairwise Move.Apart := by
  refine List.pairwise_map.mpr (List.nodup_range.imp_of_mem fun {i j} hi hj hne a ha hb => hne ?_)
  rw [← (Move.word_hits hc (List.mem_range.mp hi) ha).2.1,
    (Move.word_hits hc (List.mem_range.mp hj) hb).2.1]

theorem flatMap_words_apart {size : ℕ} {l : List Move} (hdvd : ∀ c ∈ l, size ∣ c.len)
    (hl : l.Pairwise Move.Apart) : (l.flatMap (Move.words size)).Pairwise Move.Apart := by
  refine List.pairwise_flatMap.mpr ⟨fun c hc => Move.words_pairwise (hdvd c hc), ?_⟩
  refine hl.imp_of_mem fun {c d} hc hd hcd v hv w hw => ?_
  exact Move.words_apart (hdvd c hc) (hdvd d hd) hcd hv hw

/-- Moving word by word is moving. -/
theorem runMoves_words {size : ℕ} (hsize : 0 < size) {l : List Move}
    (hdvd : ∀ c ∈ l, size ∣ c.len) (hl : l.Pairwise Move.Apart) :
    runMoves source (l.flatMap (Move.words size)) target = runMoves source l target := by
  have hw := flatMap_words_apart hdvd hl
  funext a
  by_cases ha : ∃ c ∈ l, c.Hits a
  · obtain ⟨c, hc, ha⟩ := ha
    obtain ⟨w, hwc, hwa⟩ := Move.exists_word hsize (hdvd c hc) ha
    rw [runMoves_of_hits hl hc ha, runMoves_of_hits hw (List.mem_flatMap.mpr ⟨c, hc, hwc⟩) hwa]
    obtain ⟨i, hi, rfl⟩ := List.mem_map.mp hwc
    rw [(Move.word_hits (hdvd c hc) (List.mem_range.mp hi) hwa).2.2]
  · push Not at ha
    rw [runMoves_of_not_hits ha, runMoves_of_not_hits]
    intro w hw hwa
    obtain ⟨c, hc, hwc⟩ := List.mem_flatMap.mp hw
    obtain ⟨i, hi, rfl⟩ := List.mem_map.mp hwc
    exact ha c hc (Move.word_hits (hdvd c hc) (List.mem_range.mp hi) hwa).1

/-! ### Strided loops -/

/-- The values of `i` in `for (i = first; i < n; i += step)`. -/
def strideLoop (first step n : ℕ) : List ℕ :=
  (List.range n).filter fun i => first ≤ i ∧ (i - first) % step = 0

theorem mem_strideLoop {first step n i : ℕ} (hstep : first < step) :
    i ∈ strideLoop first step n ↔ i < n ∧ i % step = first := by
  simp only [strideLoop, List.mem_filter, List.mem_range, decide_eq_true_eq]
  refine and_congr_right fun _ => ⟨fun ⟨hle, hmod⟩ => ?_, fun hmod => ⟨?_, ?_⟩⟩
  · have hi : i = first + step * ((i - first) / step) := by
      have := Nat.div_add_mod (i - first) step
      omega
    rw [hi, Nat.add_mul_mod_self_left, Nat.mod_eq_of_lt hstep]
  · rw [← hmod]
    exact Nat.mod_le i step
  · have hi := Nat.div_add_mod i step
    have hsub : i - first = step * (i / step) := by omega
    rw [hsub, Nat.mul_mod_right]

/-- The workers of a strided loop share out the range. -/
theorem flatMap_strideLoop_perm {step : ℕ} (hstep : 0 < step) (n : ℕ) :
    ((List.range step).flatMap fun first => strideLoop first step n).Perm (List.range n) := by
  have hnodup : ((List.range step).flatMap fun first => strideLoop first step n).Nodup := by
    refine List.nodup_flatMap.mpr ⟨fun f _ => List.nodup_range.filter _, ?_⟩
    refine List.nodup_range.imp_of_mem fun {f g} hf hg hne i hi hi' => ?_
    rw [mem_strideLoop (List.mem_range.mp hf)] at hi
    rw [mem_strideLoop (List.mem_range.mp hg)] at hi'
    exact hne (hi.2.symm.trans hi'.2)
  refine (List.perm_ext_iff_of_nodup hnodup List.nodup_range).mpr fun i => ?_
  simp only [List.mem_flatMap, List.mem_range]
  constructor
  · rintro ⟨f, hf, hi⟩
    exact ((mem_strideLoop hf).mp hi).1
  · intro hi
    exact ⟨i % step, Nat.mod_lt i hstep, (mem_strideLoop (Nat.mod_lt i hstep)).mpr ⟨hi, rfl⟩⟩

end Egad.Lib
