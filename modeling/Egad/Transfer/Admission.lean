import Egad.Transfer.Bytes
import Egad.Stager.Slots

/-! # Admission of records

    The host gathers both tags of a CPU record and the value of one slot, which it picks by the tags
    and the epoch; the device scatters them to a GPU slot that still has the bytes of its previous
    record. A read of the new record compares the same tags with the epoch that runs:

        host      classify_prev_slot_host(v1, v2, epoch)   ─► value of that slot
        device    record-A read in the epoch that follows  ─► the slot that the tags name

    The two agree when the host is given the epoch that runs. The pre-warm gives epoch 0, which is
    also the tag of a slot that was never written. -/

namespace Egad.Transfer
open Egad.Lib Egad.Stager

/-! ### Records out of bytes -/

/-- A little-endian number. -/
def ofBytes : List UInt8 → ℕ
  | [] => 0
  | b :: l => b.toNat + 256 * ofBytes l

/-- The record at index `r`. -/
def RecordLayout.record (L : RecordLayout) (mem : ℕ → UInt8) (r : ℕ) : Rec (List UInt8) where
  version1 := ofBytes (L.tagBytes mem r .slot1)
  version2 := ofBytes (L.tagBytes mem r .slot2)
  value1 := L.valueBytes mem r .slot1
  value2 := L.valueBytes mem r .slot2

/-! ### Gather -/

variable (L : RecordLayout) (cpu : ℕ → UInt8) (A : AdmitSet) (epoch : ℕ)

/-- The slot the host picks for element `i`; slot 1 for the sentinel. -/
def prevSlot (i : ℕ) : Slot :=
  if A.crid i = absent then .slot1
  else classifyPrevSlotHost (L.record cpu (A.crid i)).version1 (L.record cpu (A.crid i)).version2
    epoch

/-- Element `i` of `gather_host_versions_range_`. -/
def gatherHost (i : ℕ) : List Move :=
  if A.crid i = absent then []
  else [⟨i * L.kPackedBytes, L.verAddr (A.crid i) .slot1, 4⟩,
    ⟨i * L.kPackedBytes + 4, L.verAddr (A.crid i) .slot2, 4⟩,
    ⟨i * L.kPackedBytes + 8, L.valAddr (A.crid i) (prevSlot L cpu A epoch i), L.kValBytes⟩]

def gatherHostVersionsRange : List Move := (List.range A.n).flatMap (gatherHost L cpu A epoch)

/-- The packed buffer before the copies: the elements of the sentinel are zeroed. -/
def zeroSentinels (packed : ℕ → UInt8) : ℕ → UInt8 := fun a =>
  if a / L.kPackedBytes < A.n ∧ A.crid (a / L.kPackedBytes) = absent then 0 else packed a

variable {L cpu A epoch}

theorem gatherHost_block {i a : ℕ} {c : Move} (hc : c ∈ gatherHost L cpu A epoch i)
    (ha : c.Hits a) : a / L.kPackedBytes = i := by
  simp only [gatherHost] at hc
  split at hc
  · simp at hc
  · simp only [List.mem_cons, List.not_mem_nil, or_false] at hc
    obtain ⟨hlo, hhi⟩ := ha
    refine div_eq_of_block ?_ ?_ <;> rcases hc with rfl | rfl | rfl <;>
      simp only [RecordLayout.kPackedBytes] at hlo hhi ⊢ <;> omega

theorem gatherHost_apart : (gatherHostVersionsRange L cpu A epoch).Pairwise Move.Apart := by
  refine List.pairwise_flatMap.mpr ⟨fun i _ => ?_, ?_⟩
  · simp only [gatherHost]
    split
    · exact List.Pairwise.nil
    · have hapart : ∀ c d : Move, c.dst + c.len ≤ d.dst → c.Apart d := by
        intro c d h a ha hb
        exact absurd (ha.2.trans_le h) hb.1.not_gt
      simp only [List.pairwise_cons, List.mem_cons, List.not_mem_nil, or_false, forall_eq_or_imp,
        forall_eq]
      exact ⟨⟨hapart _ _ le_rfl, hapart _ _ (by simp only []; omega)⟩, hapart _ _ le_rfl,
        fun _ h => h.elim, List.Pairwise.nil⟩
  · refine List.nodup_range.imp fun {i j} hne c hc d hd a ha hb => hne ?_
    rw [← gatherHost_block hc ha, gatherHost_block hd hb]

/-- What the host packs for a record: both tags and the value of the picked slot. -/
theorem gathered (packed : ℕ → UInt8) {gather : List Move}
    (hg : gather.Perm (gatherHostVersionsRange L cpu A epoch)) {i : ℕ} (hi : i < A.n)
    (hne : A.crid i ≠ absent) :
    (∀ o < 4, runMoves cpu gather packed (i * L.kPackedBytes + o) =
      cpu (L.verAddr (A.crid i) .slot1 + o)) ∧
    (∀ o < 4, runMoves cpu gather packed (i * L.kPackedBytes + 4 + o) =
      cpu (L.verAddr (A.crid i) .slot2 + o)) ∧
    ∀ o < L.kValBytes, runMoves cpu gather packed (i * L.kPackedBytes + 8 + o) =
      cpu (L.valAddr (A.crid i) (prevSlot L cpu A epoch i) + o) := by
  have hmem : ∀ c ∈ gatherHost L cpu A epoch i, c ∈ gatherHostVersionsRange L cpu A epoch :=
    fun c hc => List.mem_flatMap.mpr ⟨i, List.mem_range.mpr hi, hc⟩
  rw [gatherHost, if_neg hne] at hmem
  rw [runMoves_perm hg gatherHost_apart]
  refine ⟨fun o ho => ?_, fun o ho => ?_, fun o ho => ?_⟩
  · exact runMoves_at gatherHost_apart (hmem _ List.mem_cons_self) ho
  · exact runMoves_at gatherHost_apart (hmem _ (List.mem_cons_of_mem _ List.mem_cons_self)) ho
  · exact runMoves_at gatherHost_apart
      (hmem _ (List.mem_cons_of_mem _ (List.mem_cons_of_mem _ List.mem_cons_self))) ho

/-! ### Scatter -/

/-- What the device stores for an element; the other value stays as it was. -/
theorem unpacked (L : RecordLayout) (packed gpu : ℕ → UInt8) (prevSlots : ℕ → Slot) {i : ℕ}
    (hi : i < A.n) :
    (∀ o < 4, runMoves packed (unpackRanges L A prevSlots) gpu (L.verAddr (A.grid i) .slot1 + o) =
      packed (i * L.kPackedBytes + o)) ∧
    (∀ o < 4, runMoves packed (unpackRanges L A prevSlots) gpu (L.verAddr (A.grid i) .slot2 + o) =
      packed (i * L.kPackedBytes + 4 + o)) ∧
    (∀ o < L.kValBytes, runMoves packed (unpackRanges L A prevSlots) gpu
      (L.valAddr (A.grid i) (prevSlots i) + o) = packed (i * L.kPackedBytes + 8 + o)) ∧
    ∀ o < L.kValBytes, runMoves packed (unpackRanges L A prevSlots) gpu
      (L.valAddr (A.grid i) (prevSlots i).other + o) =
        gpu (L.valAddr (A.grid i) (prevSlots i).other + o) := by
  have hmem : ∀ c ∈ unpackTags L A i ++ [unpackValue L A prevSlots i],
      c ∈ unpackRanges L A prevSlots :=
    fun c hc => List.mem_flatMap.mpr ⟨i, List.mem_range.mpr hi, hc⟩
  refine ⟨fun o ho => ?_, fun o ho => ?_, fun o ho => ?_, fun o ho => ?_⟩
  · exact runMoves_at unpackRanges_apart (hmem _ (List.mem_append_left _ List.mem_cons_self)) ho
  · exact runMoves_at unpackRanges_apart
      (hmem _ (List.mem_append_left _ (List.mem_cons_of_mem _ List.mem_cons_self))) ho
  · exact runMoves_at unpackRanges_apart (hmem (unpackValue L A prevSlots i) (by simp)) ho
  · refine runMoves_of_not_hits fun c hc ha => ?_
    obtain ⟨j, hj, hc⟩ := List.mem_flatMap.mp hc
    have hin : L.valAddr (A.grid i) (prevSlots i).other ≤
        L.valAddr (A.grid i) (prevSlots i).other + o ∧
        L.valAddr (A.grid i) (prevSlots i).other + o <
          L.valAddr (A.grid i) (prevSlots i).other + L.kValBytes := ⟨by omega, by omega⟩
    rcases List.mem_append.mp hc with hc | hc
    · simp only [unpackTags, List.mem_cons, List.not_mem_nil, or_false] at hc
      rcases hc with rfl | rfl <;> exact ver_val_apart ha hin
    · rw [List.mem_singleton.mp hc] at ha
      -- the same GRID means the same element, which writes the picked slot
      obtain ⟨hgrid, hslot⟩ := val_val_eq ha hin
      rw [A.distinct j (List.mem_range.mp hj) i hi hgrid] at hslot
      cases hp : prevSlots i <;> rw [hp] at hslot <;> cases hslot

/-- A transfer of an admission in bytes, in any order of the copies of the host and of either
    kernel, is the transfer of its records. -/
theorem transferred_record {packed gpu : ℕ → UInt8} {threads warps : ℕ} (ht : A.n ≤ threads)
    (hw : 0 < warps) {gather unpack : List Move}
    (hg : gather.Perm (gatherHostVersionsRange L cpu A epoch))
    (hu : unpack.Perm (kScatterVersions L A (prevSlot L cpu A epoch) threads) ∨
      unpack.Perm (kScatterVersionsWarp L A (prevSlot L cpu A epoch) warps))
    {i : ℕ} (hi : i < A.n) (hne : A.crid i ≠ absent) :
    L.record (runMoves (runMoves cpu gather (zeroSentinels L A packed)) unpack gpu) (A.grid i) =
      transferVersion epoch (L.record cpu (A.crid i)) (L.record gpu (A.grid i)) := by
  rw [run_unpack ht hw hu]
  generalize hp : runMoves cpu gather (zeroSentinels L A packed) = packed'
  obtain ⟨hg1, hg2, hgv⟩ := gathered (zeroSentinels L A packed) hg hi hne
  rw [hp] at hg1 hg2 hgv
  obtain ⟨hu1, hu2, huv, huo⟩ := unpacked L packed' gpu (prevSlot L cpu A epoch) hi
  generalize hgpu : runMoves packed' (unpackRanges L A (prevSlot L cpu A epoch)) gpu = gpu'
  rw [hgpu] at hu1 hu2 huv huo
  have h1 : L.tagBytes gpu' (A.grid i) .slot1 = L.tagBytes cpu (A.crid i) .slot1 := by
    refine List.map_congr_left fun o ho => ?_
    rw [hu1 o (List.mem_range.mp ho), hg1 o (List.mem_range.mp ho)]
  have h2 : L.tagBytes gpu' (A.grid i) .slot2 = L.tagBytes cpu (A.crid i) .slot2 := by
    refine List.map_congr_left fun o ho => ?_
    rw [hu2 o (List.mem_range.mp ho), hg2 o (List.mem_range.mp ho)]
  have hv : L.valueBytes gpu' (A.grid i) (prevSlot L cpu A epoch i) =
      L.valueBytes cpu (A.crid i) (prevSlot L cpu A epoch i) := by
    refine List.map_congr_left fun o ho => ?_
    rw [huv o (List.mem_range.mp ho), hgv o (List.mem_range.mp ho)]
  have ho : L.valueBytes gpu' (A.grid i) (prevSlot L cpu A epoch i).other =
      L.valueBytes gpu (A.grid i) (prevSlot L cpu A epoch i).other := by
    refine List.map_congr_left fun o ho => ?_
    rw [huo o (List.mem_range.mp ho)]
  have hslot : prevSlot L cpu A epoch i = classifyPrevSlotHost (L.record cpu (A.crid i)).version1
      (L.record cpu (A.crid i)).version2 epoch := by rw [prevSlot, if_neg hne]
  rw [transferVersion, ← hslot]
  cases hs : prevSlot L cpu A epoch i <;> rw [hs] at hv ho <;>
    simp only [Slot.other] at ho <;> simp only [RecordLayout.record, h1, h2, hv, ho]

/-! ### The value that is read -/

/-- The host and the reader pick one slot, unless epoch 0 meets two tags that are 0. -/
theorem transfer_reads_latest {V : Type*} {epoch next : ℕ} {src dst : Rec V}
    (hcall : epoch = next ∨ epoch = 0) (htags : src.TagsBelow next)
    (h : ¬ (epoch = 0 ∧ src.version1 = 0 ∧ src.version2 = 0)) :
    (transferVersion epoch src dst).readRecordA next = src.value src.latestSlot := by
  have hslot : classifyPrevSlotHost src.version1 src.version2 epoch = src.latestSlot := by
    rcases hcall with rfl | rfl
    · exact classifyPrevSlotHost_of_below htags
    · simp only [classifyPrevSlotHost, Rec.latestSlot]
      by_cases h1 : src.version1 = 0
      · have h2 : src.version2 ≠ 0 := fun h2 => h ⟨rfl, h1, h2⟩
        rw [if_pos h1, if_pos (by omega)]
      · rw [if_neg h1]
        by_cases h2 : src.version2 = 0
        · rw [if_pos h2, if_neg (by omega)]
        · rw [if_neg h2]
  have hread : (transferVersion epoch src dst).readRecordA next =
      (transferVersion epoch src dst).value src.latestSlot := by
    have ht : (transferVersion epoch src dst).version1 = src.version1 ∧
        (transferVersion epoch src dst).version2 = src.version2 := by
      rw [transferVersion]
      split <;> exact ⟨rfl, rfl⟩
    rw [Rec.readRecordA_of_below ⟨ht.1 ▸ htags.1, ht.2 ▸ htags.2⟩, Rec.latestSlot_congr ht.1 ht.2]
  rw [hread, transferVersion, hslot]
  cases src.latestSlot <;> rfl

/-- A record that was never written, admitted with epoch 0: the reader gets what the GPU slot had. -/
theorem transfer_reads_stale {V : Type*} {next : ℕ} {src dst : Rec V} (hnext : 0 < next)
    (h1 : src.version1 = 0) (h2 : src.version2 = 0) :
    (transferVersion 0 src dst).readRecordA next = dst.value1 := by
  rw [transferVersion, classifyPrevSlotHost, if_pos h1]
  simp only [Rec.readRecordA, h1, h2, if_neg hnext.ne, lt_irrefl, if_false]

/-- Whatever the GPU slot and the packed buffer held and in whatever order the copies are done, a
    record-A read of admitted record `i` in epoch `next` returns its latest version. -/
def AdmissionKeeps (L : RecordLayout) (cpu : ℕ → UInt8) (A : AdmitSet) (epoch next i : ℕ) : Prop :=
  ∀ (gpu packed : ℕ → UInt8) (threads warps : ℕ) (gather unpack : List Move), A.n ≤ threads →
    0 < warps → gather.Perm (gatherHostVersionsRange L cpu A epoch) →
    (unpack.Perm (kScatterVersions L A (prevSlot L cpu A epoch) threads) ∨
      unpack.Perm (kScatterVersionsWarp L A (prevSlot L cpu A epoch) warps)) →
    (L.record (runMoves (runMoves cpu gather (zeroSentinels L A packed)) unpack gpu)
      (A.grid i)).readRecordA next =
        (L.record cpu (A.crid i)).value (L.record cpu (A.crid i)).latestSlot

/-- A GPU slot that held other bytes gives itself away. -/
theorem not_admissionKeeps {L : RecordLayout} {cpu : ℕ → UInt8} {A : AdmitSet} {next i : ℕ}
    (hnext : 0 < next) (hi : i < A.n) (hne : A.crid i ≠ absent)
    (h1 : (L.record cpu (A.crid i)).version1 = 0) (h2 : (L.record cpu (A.crid i)).version2 = 0) :
    ¬ AdmissionKeeps L cpu A 0 next i := by
  intro h
  have hread := h
    (fun a => cpu (L.valAddr (A.crid i) .slot1 + (a - L.valAddr (A.grid i) .slot1)) + 1) (fun _ => 0)
    A.n 1 _ _ le_rfl Nat.one_pos (List.Perm.refl _) (.inl (List.Perm.refl _))
  rw [transferred_record le_rfl Nat.one_pos (List.Perm.refl _) (.inl (List.Perm.refl _)) hi hne,
    transfer_reads_stale hnext h1 h2, Rec.latestSlot, h1, h2, if_neg (lt_irrefl _)] at hread
  have hbyte := (List.map_inj_left.mp hread) 0 (List.mem_range.mpr L.pos)
  simp at hbyte

/-- Admission keeps a record's latest version, for the running epoch and for the pre-warm's epoch 0,
    unless the pre-warm admits a record that was never written. -/
theorem admission_keeps_value_iff (L : RecordLayout) (cpu : ℕ → UInt8) (A : AdmitSet)
    {epoch next i : ℕ} (hnext : 0 < next) (hcall : epoch = next ∨ epoch = 0) (hi : i < A.n)
    (hne : A.crid i ≠ absent) (htags : (L.record cpu (A.crid i)).TagsBelow next) :
    AdmissionKeeps L cpu A epoch next i ↔
      ¬ (epoch = 0 ∧ (L.record cpu (A.crid i)).version1 = 0 ∧
        (L.record cpu (A.crid i)).version2 = 0) := by
  constructor
  · rintro h ⟨rfl, h1, h2⟩
    exact not_admissionKeeps hnext hi hne h1 h2 h
  · intro h gpu packed threads warps gather unpack ht hw hg hu
    rw [transferred_record ht hw hg hu hi hne]
    exact transfer_reads_latest hcall htags h

/-- In epoch 1 the record loaded as zeros is admitted with its value. -/
theorem admission_keeps_value_epoch_one :
    AdmissionKeeps (instantiated true 20 (by decide)) (fun _ => 0) oneRecord 1 1 0 :=
  (admission_keeps_value_iff _ _ oneRecord Nat.one_pos (.inl rfl) (by decide) (by decide +kernel)
    ⟨by decide, by decide⟩).mpr (by decide)

/-- The pre-warm of the same record. -/
theorem prewarm_reads_stale_bytes :
    ¬ AdmissionKeeps (instantiated true 20 (by decide)) (fun _ => 0) oneRecord 0 1 0 :=
  not_admissionKeeps Nat.one_pos (by decide) (by decide +kernel) (by decide) (by decide)

end Egad.Transfer
