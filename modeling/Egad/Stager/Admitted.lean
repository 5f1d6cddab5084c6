import Egad.Stager.Slots
import Egad.Stager.Flush

/-! # What an admission leaves in the cache

    `prepareEpoch` binds each missed record to one slot. The pairs split in two: the records the epoch
    creates, whose slots only get their tags cleared, and all others, which are copied from the
    primary store.

        pairs = fetched ∪ cleared
        every other slot keeps its record, and what it holds of it -/

namespace Egad.Stager
open Egad.Lib

variable {cfg : Config} {c c' : Cache} {V : Type*}

variable (cfg) in
/-- The slots of `pairs` get their records and the others keep theirs. -/
structure Bound (c c' : Cache) (new : List ℕ) (pairs : List (ℕ × ℕ)) : Prop where
  crids : pairs.map Prod.fst = new
  slot : ∀ x ∈ pairs, x.2 < cfg.capacity
  resident : ∀ x ∈ pairs, c'.resident x.2 = x.1
  kept : ∀ g, g ∉ pairs.map Prod.snd → c'.resident g = c.resident g
  nodup : (pairs.map Prod.snd).Nodup

theorem Rebound.bound {new grids : List ℕ} (hb : Rebound cfg c c' (grids.zip new))
    (hlen : grids.length = new.length) (hslot : ∀ g ∈ grids, g < cfg.capacity) (hnd : grids.Nodup) :
    Bound cfg c c' new (new.zip grids) := by
  have hsnd : (new.zip grids).map Prod.snd = grids := List.map_snd_zip hlen.le
  have hfst : (grids.zip new).map Prod.fst = grids := List.map_fst_zip hlen.le
  refine ⟨List.map_fst_zip hlen.ge, fun x hx => hslot _ (List.of_mem_zip hx).2, fun x hx => ?_,
    fun g hg => hb.resident_of_notMem g ?_, hsnd.symm ▸ hnd⟩
  · have hx' : (x.2, x.1) ∈ grids.zip new := by
      rw [← List.zip_swap]
      exact List.mem_map.mpr ⟨x, hx, rfl⟩
    exact hb.resident_of_mem _ hx'
  · rw [hfst]
    rwa [hsnd] at hg

theorem Bound.append {c'' : Cache} {new new' : List ℕ} {pairs pairs' : List (ℕ × ℕ)}
    (h : Bound cfg c c' new pairs) (h' : Bound cfg c' c'' new' pairs')
    (hapart : ∀ g ∈ pairs'.map Prod.snd, g ∉ pairs.map Prod.snd) :
    Bound cfg c c'' (new ++ new') (pairs ++ pairs') := by
  refine ⟨by rw [List.map_append, h.crids, h'.crids], fun x hx => ?_, fun x hx => ?_, fun g hg => ?_, ?_⟩
  · rcases List.mem_append.mp hx with hx | hx
    · exact h.slot x hx
    · exact h'.slot x hx
  · rcases List.mem_append.mp hx with hx | hx
    · rw [h'.kept x.2 fun hm => hapart _ hm (List.mem_map_of_mem hx)]
      exact h.resident x hx
    · exact h'.resident x hx
  · rw [List.map_append, List.mem_append, not_or] at hg
    rw [h'.kept g hg.2, h.kept g hg.1]
  · rw [List.map_append, List.nodup_append']
    exact ⟨h.nodup, h'.nodup, fun g hg hg' => hapart g hg' hg⟩

theorem bound_of_pop (hm : Mapped cfg c) {new : List ℕ} (hf : Fresh cfg c new)
    (hn : new.length ≤ c.freeSlots)
    (hmap : c'.cridToGrid = bulkInsert cfg new ((c.ring cfg).take new.length) c.cridToGrid)
    (hres : c'.resident = setGridToCrid ((c.ring cfg).take new.length) new c.resident)
    (hring : c'.ring cfg = (c.ring cfg).drop new.length) (hhead : c'.ringHead ≤ c'.ringTail) :
    Bound cfg c c' new (new.zip ((c.ring cfg).take new.length)) :=
  (rebound_of_pop hm hf hn hmap hres hring hhead).bound (take_ring_length hn)
    (fun g hg => hm.ring_lt g (List.mem_of_mem_take hg))
    (hm.ring_nodup.sublist (List.take_sublist _ _))

/-- The pairs an epoch admits. -/
theorem prepareEpoch_bound (hm : Mapped cfg c)
    (hcur : 0 < cfg.capacity → c.fifoNextGrid < cfg.capacity) {keys insertKeys : List ℕ}
    (hk : Keys cfg keys) {sched : Schedule} (hs : sched.Complete cfg keys c) {p : Prepared}
    (hp : prepareEpoch cfg sched keys insertKeys c = .ok p) :
    ∃ pairs, p = Prepared.of cfg p.cache insertKeys pairs ∧ Bound cfg c p.cache sched.order pairs := by
  simp only [prepareEpoch] at hp
  split at hp
  · cases hp
  rename_i hfits
  split at hp
  · cases hp
  split at hp
  · rename_i h0
    cases hp
    refine ⟨[], rfl, ?_, by simp, by simp, fun _ _ => rfl, by simp⟩
    rw [List.length_eq_zero_iff.mp h0]
    rfl
  rename_i hnew
  have hf := hs.fresh hk
  split at hp
  · rename_i hle
    have hgrids := ringPop_fst cfg c sched.order.length
    obtain ⟨hring, hhead⟩ := ringPop_ring cfg sched.order.length hm.head_le
    rw [admitFree, hgrids] at hp
    dsimp only at hp
    split at hp
    · cases hp
    · cases hp
      exact ⟨_, rfl, bound_of_pop hm hf hle rfl rfl hring hhead⟩
  · rename_i hfree
    have hlt := Nat.lt_of_not_le hfree
    have hn := Nat.le_of_not_lt hfits
    have hcap : 0 < cfg.capacity := by
      have h1 := hs.order.length_eq
      have h2 : (missed cfg c (buildNeeded keys)).length ≤ (buildNeeded keys).length :=
        List.length_filter_le _ _
      omega
    obtain ⟨vs, cursor, hcollect, -, hv⟩ := collect_victims hm (hcur hcap) hk hn hs hlt
    simp only [evict, hcollect] at hp
    generalize hd : sched.order.length - c.freeSlots = d at hv hp
    have htake : (sched.order.take d).length = d := by
      rw [List.length_take]
      omega
    have hdrop : (sched.order.drop d).length = c.freeSlots := by
      rw [List.length_drop]
      omega
    have hft := hf.sublist (List.take_sublist d _)
    have hv' : Victims cfg c keys (sched.order.take d).length vs := htake.symm ▸ hv
    obtain ⟨ha, hrest⟩ := rename_admits hm hft hv' cursor
    have hb₁ : Bound cfg c (rename cfg vs (sched.order.take d) { c with fifoNextGrid := cursor })
        (sched.order.take d) ((sched.order.take d).zip (vs.map Prod.fst)) := by
      have hb := rebound_of_rename hm hft hv'
        (show (rename cfg vs (sched.order.take d) { c with fifoNextGrid := cursor }).cridToGrid = _ from rfl)
        rfl rfl hm.head_le
      refine hb.bound (by rw [List.length_map, hv'.length]) (fun g hg => ?_) hv'.distinct
      obtain ⟨v, hmem, rfl⟩ := List.mem_map.mp hg
      exact hv'.slot v hmem
    split at hp
    · rename_i h0
      cases hp
      have hall : sched.order.take d = sched.order := List.take_of_length_le (by omega)
      rw [hall] at hb₁ ⊢
      exact ⟨_, rfl, hb₁⟩
    · cases hp
      have hnodup := hf.nodup
      rw [← List.take_append_drop d sched.order] at hnodup
      have hf₂ := hrest _ (hf.sublist (List.drop_sublist d _)) fun r hr hmem =>
        (List.nodup_append'.mp hnodup).2.2 hmem hr
      have hgrids := ringPop_fst cfg (rename cfg vs (sched.order.take d) { c with fifoNextGrid := cursor })
        (sched.order.drop d).length
      obtain ⟨hring, hhead⟩ := ringPop_ring cfg (sched.order.drop d).length ha.mapped.head_le
      have hlen := (take_ring_length hdrop.le :
        (((rename cfg vs (sched.order.take d) { c with fifoNextGrid := cursor }).ring cfg).take _).length = _)
      have hb₂ : Bound cfg _ (admitRest cfg (sched.order.drop d)
          (rename cfg vs (sched.order.take d) { c with fifoNextGrid := cursor })).2 _ _ :=
        bound_of_pop ha.mapped hf₂ hdrop.le (by simp only [admitRest, hgrids, hlen, List.take_length])
          (by simp only [admitRest, hgrids, hlen, List.take_length]) hring hhead
      have hb := hb₁.append hb₂ fun g hg hg' => ?_
      · rw [List.take_append_drop] at hb
        refine ⟨_, ?_, hb⟩
        simp only [admitRest, hgrids]
        rfl
      · -- a slot of the ring is empty, a renamed one is not
        obtain ⟨x, hx, rfl⟩ := List.mem_map.mp hg
        obtain ⟨y, hy, hyx⟩ := List.mem_map.mp hg'
        have hempty := ha.mapped.ring_empty _ (List.mem_of_mem_take (List.of_mem_zip hx).2)
        rw [← hyx, hb₁.resident y hy] at hempty
        have h1 := hft.lt y.1 (List.of_mem_zip hy).1
        have h2 := cfg.numUnits_le
        omega

end Egad.Stager
