import Egad.Timeline.Model

/-! # Packed events come out of the sort as per-key timelines

    The radix sort sees only 64-bit `(key << PosBits) | pos` values. As long as every key and every
    position fits its bits, a key's events leave the sort in serial order, and the runs that
    `k_walk` and `k_assign` visit are the keys' timelines, each once (`runs_sortEvents`). -/

namespace Egad.Timeline
open Egad.Lib

theorem packEvent_eq {b key pos : ℕ} (hb : b ≤ 64) (hk : key < 2 ^ (64 - b)) (hp : pos < 2 ^ b) :
    packEvent b key pos = key * 2 ^ b + pos := by
  have hlt : key <<< b < 2 ^ 64 := by
    rw [Nat.shiftLeft_eq, show (64 : ℕ) = (64 - b) + b by omega, Nat.pow_add]
    exact Nat.mul_lt_mul_of_pos_right hk (Nat.two_pow_pos b)
  rw [packEvent, Nat.mod_eq_of_lt hlt, ← Nat.shiftLeft_add_eq_or_of_lt hp, Nat.shiftLeft_eq]

theorem eventKey_packEvent {b key pos : ℕ} (hb : b ≤ 64) (hk : key < 2 ^ (64 - b))
    (hp : pos < 2 ^ b) : eventKey b (packEvent b key pos) = key := by
  rw [packEvent_eq hb hk hp, eventKey, Nat.shiftRight_eq_div_pow, Nat.mul_comm,
    Nat.mul_add_div (Nat.two_pow_pos b), Nat.div_eq_of_lt hp, Nat.add_zero]

theorem eventPos_packEvent {b key pos : ℕ} (hb : b ≤ 64) (hk : key < 2 ^ (64 - b))
    (hp : pos < 2 ^ b) : eventPos b (packEvent b key pos) = pos := by
  rw [packEvent_eq hb hk hp, eventPos, Nat.and_two_pow_sub_one_eq_mod, Nat.mul_comm,
    Nat.mul_add_mod, Nat.mod_eq_of_lt hp]

/-- Packed values compare by key first. -/
theorem key_le_of_packed_le {b x y : ℕ} (h : x ≤ y) : eventKey b x ≤ eventKey b y := by
  rw [eventKey, eventKey, Nat.shiftRight_eq_div_pow, Nat.shiftRight_eq_div_pow]
  exact Nat.div_le_div_right h

/-- Every event's key and position fit the packed 64-bit sort key. -/
structure Fits (posBits : ℕ) (evs : List Event) : Prop where
  bits : posBits ≤ 64
  key : ∀ v ∈ evs, v.key < 2 ^ (64 - posBits)
  pos : ∀ v ∈ evs, v.pos < 2 ^ posBits

section
variable {b : ℕ} {lookup : ℕ → ℕ} {evs : List Event}

theorem key_pack (hf : Fits b evs) {v : Event} (hv : v ∈ evs) : (pack b lookup v).key b = v.key :=
  eventKey_packEvent hf.bits (hf.key v hv) (hf.pos v hv)

theorem pos_pack (hf : Fits b evs) {v : Event} (hv : v ∈ evs) :
    eventPos b (pack b lookup v).packed = v.pos :=
  eventPos_packEvent hf.bits (hf.key v hv) (hf.pos v hv)

theorem sortEvents_sorted : (sortEvents b lookup evs).Pairwise (fun s t => s.key b ≤ t.key b) :=
  (stableSort_sorted SEvent.packed _).imp key_le_of_packed_le

/-- The sort leaves each key's events in serial order. -/
theorem filter_sortEvents (hf : Fits b evs) (k : ℕ) :
    (sortEvents b lookup evs).filter (fun s => s.key b = k) =
      (timelineOf evs k).map (pack b lookup) := by
  have hfilter : (evs.map (pack b lookup)).filter (fun s => s.key b = k) =
      (evs.filter (fun v => v.key = k)).map (pack b lookup) := by
    rw [List.filter_map]
    congr 1
    refine List.filter_congr fun v hv => ?_
    simp only [Function.comp_apply, key_pack hf hv]
  rw [sortEvents, filter_stableSort, hfilter, stableSort_map, timelineOf, serialOrder,
    filter_stableSort]
  congr 1
  refine stableSort_congr _ _ _ fun v hv w hw => ?_
  obtain ⟨hv, hkv⟩ := List.mem_filter.mp hv
  obtain ⟨hw, hkw⟩ := List.mem_filter.mp hw
  simp only [decide_eq_true_eq] at hkv hkw
  simp only [pack]
  rw [packEvent_eq hf.bits (hf.key v hv) (hf.pos v hv),
    packEvent_eq hf.bits (hf.key w hw) (hf.pos w hw), hkv, hkw]
  omega

variable (lookup) in
/-- The runs that `k_walk` and `k_assign` visit: each key's timeline, once. -/
theorem runs_sortEvents (hf : Fits b evs) :
    ∃ ks : List ℕ, ks.Nodup ∧ (∀ k, k ∈ ks ↔ ∃ v ∈ evs, v.key = k) ∧
      runs (SEvent.key b) (sortEvents b lookup evs) =
        ks.map fun k => (timelineOf evs k).map (pack b lookup) := by
  refine ⟨firstKeys (SEvent.key b) (sortEvents b lookup evs), firstKeys_nodup sortEvents_sorted,
    fun k => ?_, ?_⟩
  · rw [mem_firstKeys]
    constructor
    · rintro ⟨s, hs, rfl⟩
      rw [sortEvents, mem_stableSort, List.mem_map] at hs
      obtain ⟨v, hv, rfl⟩ := hs
      exact ⟨v, hv, (key_pack hf hv).symm⟩
    · rintro ⟨v, hv, rfl⟩
      exact ⟨pack b lookup v, by rw [sortEvents, mem_stableSort]; exact List.mem_map_of_mem hv,
        key_pack hf hv⟩
  · rw [runs_eq_map sortEvents_sorted]
    exact List.map_congr_left fun k _ => filter_sortEvents hf k

end
end Egad.Timeline
