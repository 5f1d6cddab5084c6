import Egad.Timeline.Resolve

/-! # The timeline agrees with the serial run

    `Agrees t lookup evs cridBegin` collects what an epoch asks of its timeline: every operation
    resolves to the CRID live at its own place in the serial order, the minted CRIDs and the
    effective deletes are those of the serial run, and the update lists turn the epoch-start map
    into the end-of-epoch map. `build_agrees` proves it of `build`. -/

namespace Egad.Timeline
open Egad.Lib

/-- What the epoch asks of its timeline. -/
structure Agrees (t : Built) (lookup : ℕ → ℕ) (evs : List Event) (cridBegin : ℕ) : Prop where
  /-- a read, write or delete at `(pos, self)` resolves to what is live there -/
  resolve : ∀ key pos self, key < 2 ^ (64 - t.posBits) →
    t.resolve key pos self false (lookup key) =
      serialCrid lookup evs cridBegin (livesAt lookup evs pos self key)
  /-- an insert resolves to the record that is live after it -/
  resolveInsert : ∀ v ∈ evs, v.type = .insert →
    t.resolve v.key v.pos v.entry true (lookup v.key) =
      serialCrid lookup evs cridBegin (lifeStep v (found lookup evs v))
  insEntries : t.insEntries = (created lookup evs).map Event.entry
  mintedKeys : t.mintedKeys = (created lookup evs).map Event.key
  edelKeys : t.edelKeys = (ended lookup evs).map Event.key
  edelCrids : t.edelCrids =
    (ended lookup evs).map fun v => serialCrid lookup evs cridBegin (found lookup evs v)
  finalize : ∀ k, t.finalize lookup k =
    serialCrid lookup evs cridBegin (finalLives lookup evs k)

/-! ### Entries and events -/

theorem gatherEvent_entry {x : Entry} {e : ℕ} {v : Event} (h : gatherEvent x e = some v) :
    v.entry = e := by
  unfold gatherEvent at h
  split at h
  · cases h; rfl
  · cases h; rfl
  · cases h

/-- The events of an epoch are in entry order. -/
theorem events_ordered (entries : List Entry) :
    (events entries).Pairwise (fun a b => a.entry < b.entry) := by
  rw [events, List.pairwise_filterMap, List.pairwise_iff_getElem]
  intro i j hi hj hij v hv w hw
  rw [List.getElem_zipIdx] at hv hw
  rw [gatherEvent_entry hv, gatherEvent_entry hw]
  omega

/-! ### Minting -/

theorem foldl_update_of_notMem (c : ℕ) {e : ℕ} : ∀ (es : List ℕ) (n : ℕ) (f : ℕ → ℕ), e ∉ es →
    (es.zipIdx n).foldl (fun f x => Function.update f x.1 (c + x.2)) f e = f e
  | [], _, _, _ => rfl
  | a :: es, n, f, h => by
    rw [List.zipIdx_cons, List.foldl_cons,
      foldl_update_of_notMem c es (n + 1) _ (fun h' => h (by simp [h'])),
      Function.update_of_ne (by rintro rfl; simp at h)]

theorem foldl_update_of_mem (c : ℕ) {e : ℕ} : ∀ (es : List ℕ) (n : ℕ) (f : ℕ → ℕ), es.Nodup →
    e ∈ es → (es.zipIdx n).foldl (fun f x => Function.update f x.1 (c + x.2)) f e =
      c + (n + es.idxOf e)
  | a :: es, n, f, hnd, he => by
    obtain ⟨ha, hnd⟩ := List.nodup_cons.mp hnd
    rw [List.zipIdx_cons, List.foldl_cons]
    by_cases h : a = e
    · subst h
      rw [foldl_update_of_notMem c es _ _ ha, Function.update_self, List.idxOf_cons_self]
      omega
    · have he' : e ∈ es := by simpa [Ne.symm h] using he
      rw [foldl_update_of_mem c es (n + 1) _ hnd he', List.idxOf_cons_ne _ h]
      omega

section
variable {b : ℕ} {lookup : ℕ → ℕ} {evs : List Event} {cridBegin : ℕ}

theorem created_entries_nodup (hev : evs.Pairwise (fun a b => a.entry < b.entry)) :
    ((created lookup evs).map Event.entry).Nodup := by
  rw [List.Nodup, List.pairwise_map]
  exact (hev.sublist List.filter_sublist).imp fun h => h.ne

variable (cridBegin) in
theorem scatterMinted_holds (hev : evs.Pairwise (fun a b => a.entry < b.entry)) (old : ℕ → ℕ) :
    HoldsMinted lookup evs cridBegin
      (scatterMinted cridBegin ((created lookup evs).map Event.entry) old) := by
  intro v hv
  rw [scatterMinted, foldl_update_of_mem cridBegin _ 0 old (created_entries_nodup hev)
    (List.mem_map_of_mem hv), Nat.zero_add]
  rfl

/-! ### `k_assign` over all keys -/

/-- The final entry of key `k`. -/
def finOf (lookup : ℕ → ℕ) (evs : List Event) (cridBegin k : ℕ) : Fin :=
  let c := serialCrid lookup evs cridBegin (finalLives lookup evs k)
  { key := k, crid := c, erase := lookup k ≠ kAbsent ∧ c ≠ lookup k,
    insert := c ≠ kAbsent ∧ c ≠ lookup k }

theorem head_timeline (hf : Fits b evs) {k : ℕ} (hk : ∃ v ∈ evs, v.key = k) :
    ((((timelineOf evs k).map (pack b lookup)).head?).map (SEvent.key b)).getD 0 = k := by
  obtain ⟨v, hv, hvk⟩ := hk
  cases h : timelineOf evs k with
  | nil => have := mem_timelineOf.mpr ⟨hv, hvk⟩; rw [h] at this; simp at this
  | cons w l =>
    obtain ⟨hw, hwk⟩ := mem_timelineOf.mp (show w ∈ timelineOf evs k by rw [h]; simp)
    rw [List.map_cons, List.head?_cons, Option.map_some, Option.getD_some, key_pack hf hw, hwk]

theorem assignRuns_spec (hev : evs.Pairwise (fun a b => a.entry < b.entry)) (hf : Fits b evs)
    (hm : MintFits lookup evs cridBegin) : ∀ (ks : List ℕ) (f : ℕ → ℕ) (acc : List Fin),
      (∀ k ∈ ks, ∃ v ∈ evs, v.key = k) → HoldsMinted lookup evs cridBegin f →
      ∀ out, out = (ks.map fun k => (timelineOf evs k).map (pack b lookup)).foldl (assignRun b)
          (f, acc) →
        HoldsMinted lookup evs cridBegin out.1 ∧
        (∀ v ∈ evs, v.key ∈ ks → endsLife lookup evs v = true →
          out.1 v.entry = serialCrid lookup evs cridBegin (found lookup evs v)) ∧
        (∀ e, (∀ v ∈ evs, v.key ∈ ks → v.entry = e → endsLife lookup evs v = false) →
          out.1 e = f e) ∧
        out.2 = acc ++ ks.map (finOf lookup evs cridBegin)
  | [], f, acc, _, hfm, _, rfl => ⟨hfm, by simp, by simp, by simp⟩
  | k :: ks, f, acc, hks, hfm, _, rfl => by
    have hk := hks k (by simp)
    have hwalk := assignWalk_spec (b := b) hev hm (timelineOf evs k) [] rfl hfm _ rfl
    rw [lifeFold_nil, serialCrid_startLife] at hwalk
    obtain ⟨hfin, hdel, hframe⟩ := hwalk
    set f' := (assignWalk f (lookup k) ((timelineOf evs k).map (pack b lookup))).1 with hf'
    have hrun : assignRun b (f, acc) ((timelineOf evs k).map (pack b lookup)) =
        (f', acc ++ [finOf lookup evs cridBegin k]) := by
      rw [assignRun, startOf_timeline hk, head_timeline hf hk, hfin]
      rfl
    -- the walk writes only at this key's effective deletes
    have hkeep : ∀ v ∈ evs, (v.key = k → endsLife lookup evs v = false) → f' v.entry = f v.entry := by
      intro v hv hno
      refine hframe v.entry fun w hw hwe => ?_
      obtain ⟨hwe', hwk⟩ := mem_timelineOf.mp hw
      have := entry_injective hev hwe' hv hwe
      subst this
      exact hno hwk
    have hfm' : HoldsMinted lookup evs cridBegin f' := by
      intro v hv
      rw [hkeep v (List.mem_filter.mp hv).1 fun _ => not_endsLife_of_created hv]
      exact hfm v hv
    rw [List.map_cons, List.foldl_cons, hrun]
    obtain ⟨h1, h2, h3, h4⟩ := assignRuns_spec hev hf hm ks f' _ (fun k hk => hks k (by simp [hk]))
      hfm' _ rfl
    refine ⟨h1, fun v hv hvk hend => ?_, fun e he => ?_, by rw [h4]; simp⟩
    · by_cases hin : v.key ∈ ks
      · exact h2 v hv hin hend
      · have hvk' : v.key = k := by simpa [hin] using hvk
        rw [h3 v.entry]
        · exact hdel v (mem_timelineOf.mpr ⟨hv, hvk'⟩) hend
        · intro w hw hwk hwe
          have := entry_injective hev hw hv hwe
          subst this
          exact absurd hwk hin
    · rw [h3 e fun v hv hvk => he v hv (by simp [hvk])]
      refine hframe e fun v hv hve => ?_
      obtain ⟨hv', hvk⟩ := mem_timelineOf.mp hv
      exact he v hv' (by simp [hvk]) hve

end

/-! ### The update lists -/

section
variable {b : ℕ} {lookup : ℕ → ℕ} {evs : List Event} {cridBegin : ℕ}

/-- The erase and insert lists of the keys with events turn the epoch-start map into the final
    one. -/
theorem apply_fin {ks : List ℕ} (hnd : ks.Nodup) (hks : ∀ k, k ∈ ks ↔ ∃ v ∈ evs, v.key = k)
    (k : ℕ) :
    insertAll kAbsent
        (eraseAll kAbsent lookup (((ks.map (finOf lookup evs cridBegin)).filter Fin.erase).map Fin.key))
        ((((ks.map (finOf lookup evs cridBegin)).filter Fin.insert).map Fin.key).zip
          (((ks.map (finOf lookup evs cridBegin)).filter Fin.insert).map Fin.crid)) k =
      serialCrid lookup evs cridBegin (finalLives lookup evs k) := by
  set c := fun k => serialCrid lookup evs cridBegin (finalLives lookup evs k) with hc
  have herase : ∀ k, k ∈ ((ks.map (finOf lookup evs cridBegin)).filter Fin.erase).map Fin.key ↔
      k ∈ ks ∧ lookup k ≠ kAbsent ∧ c k ≠ lookup k := by
    intro k
    simp [finOf, hc]
  have hinsert : ∀ x, x ∈ ((ks.map (finOf lookup evs cridBegin)).filter Fin.insert).map
      (fun a => (a.key, a.crid)) ↔ x.1 ∈ ks ∧ x.2 = c x.1 ∧ c x.1 ≠ kAbsent ∧ c x.1 ≠ lookup x.1 := by
    rintro ⟨k, d⟩
    simp [finOf, hc]
    grind
  have hkeys : ((((ks.map (finOf lookup evs cridBegin)).filter Fin.insert).map
      (fun a => (a.key, a.crid))).map Prod.fst).Nodup := by
    rw [List.map_map, List.filter_map, List.map_map]
    have : (Prod.fst ∘ fun a : Fin => (a.key, a.crid)) ∘ finOf lookup evs cridBegin = id := rfl
    rw [this, List.map_id]
    exact hnd.filter _
  have hout : k ∉ ks → c k = lookup k := by
    intro hk
    have : timelineOf evs k = [] := by
      rw [List.eq_nil_iff_forall_not_mem]
      intro v hv
      exact hk ((hks k).mpr ⟨v, mem_timelineOf.mp hv⟩)
    simp only [hc]
    rw [finalLives_eq, this, List.foldl_nil, serialCrid_startLife]
  rw [List.zip_map']
  -- a key is rewritten exactly when its final record differs from its epoch-start record
  by_cases hsame : c k = lookup k
  · rw [insertAll_of_notMem, eraseAll_apply, if_neg, ← hsame]
    · rw [herase]; tauto
    · rintro hmem
      obtain ⟨⟨k', d⟩, hx, rfl⟩ := List.mem_map.mp hmem
      exact ((hinsert _).mp hx).2.2.2 hsame
  · have hk : k ∈ ks := by by_contra h; exact hsame (hout h)
    have herased : eraseAll kAbsent lookup
        (((ks.map (finOf lookup evs cridBegin)).filter Fin.erase).map Fin.key) k = kAbsent := by
      rw [eraseAll_apply]
      split
      · rfl
      · next h => rw [herase] at h; tauto
    by_cases habs : c k = kAbsent
    · rw [insertAll_of_notMem, herased, ← habs]
      rintro hmem
      obtain ⟨⟨k', d⟩, hx, rfl⟩ := List.mem_map.mp hmem
      exact ((hinsert _).mp hx).2.2.1 habs
    · exact insertAll_of_mem _ _ hkeys ((hinsert (k, c k)).mpr ⟨hk, rfl, habs, hsame⟩) herased

end

/-! ### The build -/

section
variable {b : ℕ} {lookup : ℕ → ℕ} {cridBegin : ℕ} {old : ℕ → ℕ} {entries : List Entry}

variable (lookup) in
/-- Compacting by the two flag arrays selects the created lives and the ended ones. -/
theorem filter_walkFlags {evs : List Event} (hev : evs.Pairwise (fun a b => a.entry < b.entry))
    (hf : Fits b evs) :
    evs.filter (fun v => v.entry ∈ (walkFlags b (sortEvents b lookup evs)).1) = created lookup evs ∧
    evs.filter (fun v => v.entry ∈ (walkFlags b (sortEvents b lookup evs)).2) = ended lookup evs := by
  constructor
  · refine List.filter_congr fun v hv => ?_
    rw [Bool.eq_iff_iff, ← (mem_walkFlags lookup hev hf hv).1, decide_eq_true_iff]
  · refine List.filter_congr fun v hv => ?_
    rw [Bool.eq_iff_iff, ← (mem_walkFlags lookup hev hf hv).2, decide_eq_true_iff]

variable (lookup cridBegin old) in
theorem build_numMinted (hf : Fits b (events entries)) :
    (build b lookup cridBegin old entries).numMinted = (created lookup (events entries)).length := by
  simp only [Built.numMinted, build, (filter_walkFlags lookup (events_ordered entries) hf).1,
    List.length_map]

variable (old) in
/-- `build` agrees with the serial run of its events. -/
theorem build_agrees (hf : Fits b (events entries))
    (hm : MintFits lookup (events entries) cridBegin) :
    Agrees (build b lookup cridBegin old entries) lookup (events entries) cridBegin := by
  set evs := events entries with hevs
  have hev : evs.Pairwise (fun a b => a.entry < b.entry) := events_ordered entries
  obtain ⟨hlife, hedel⟩ := filter_walkFlags lookup hev hf
  obtain ⟨ks, hnd, hks, hruns⟩ := runs_sortEvents lookup hf
  obtain ⟨hmint, hend, -, hfin⟩ := assignRuns_spec hev hf hm ks _ [] (fun k hk => (hks k).mp hk)
    (scatterMinted_holds cridBegin hev old) _ rfl
  rw [← hruns] at hmint hend hfin
  set t := build b lookup cridBegin old entries with ht
  have htf : t.entryCrid = ((runs (SEvent.key b) (sortEvents b lookup evs)).foldl (assignRun b)
      (scatterMinted cridBegin ((created lookup evs).map Event.entry) old, [])).1 := by
    simp only [ht, build, ← hevs, hlife]
  rw [← htf] at hmint hend
  have hresolve := fun k pos self ins hk hins =>
    resolve_eq (b := b) (t := t) (k := k) hev hf hm rfl rfl hmint pos self ins hk hins
  refine ⟨fun key pos self hk => ?_, fun v hv hvt => ?_, ?_, ?_, ?_, ?_, fun k => ?_⟩
  · rw [hresolve key pos self false hk (by simp)]; simp
  · rw [hresolve v.key v.pos v.entry true (hf.key v hv) fun _ => ⟨v, hv, rfl⟩]
    rw [show livesAt lookup evs v.pos v.entry v.key = found lookup evs v from rfl]
    have habs : serialCrid lookup evs cridBegin (found lookup evs v) = kAbsent ↔
        found lookup evs v = none := livesAt_absent_iff hev hm v.pos v.entry v.key
    cases hs : found lookup evs v with
    | none =>
      have hmem : v ∈ created lookup evs :=
        List.mem_filter.mpr ⟨hv, by simp [createsLife, hvt, hs]⟩
      rw [if_pos ⟨rfl, rfl⟩, hmint v hmem]
      simp [lifeStep, hvt]
    | some l =>
      rw [hs] at habs
      rw [if_neg fun h => by simpa using habs.mp h.2]
      simp [lifeStep, hvt]
  · simp only [ht, build, ← hevs, hlife]
  · simp only [ht, build, ← hevs, hlife]
  · simp only [ht, build, ← hevs, hedel]
  · have : t.edelCrids = (ended lookup evs).map fun v => t.entryCrid v.entry := by
      simp only [ht, build, ← hevs, hedel]
    rw [this]
    refine List.map_congr_left fun v hv => ?_
    obtain ⟨hv, hve⟩ := List.mem_filter.mp hv
    exact hend v hv ((hks v.key).mpr ⟨v, hv, rfl⟩) hve
  · have hfin' : ((runs (SEvent.key b) (sortEvents b lookup evs)).foldl (assignRun b)
        (scatterMinted cridBegin ((created lookup evs).map Event.entry) old, [])).2 =
        ks.map (finOf lookup evs cridBegin) := by simpa using hfin
    simp only [Built.finalize, ht, build, ← hevs, hlife, hfin']
    exact apply_fin hnd hks k

/-- `build` reads the index only at the keys of its events. -/
theorem build_congr {f g : ℕ → ℕ} (h : ∀ v ∈ events entries, f v.key = g v.key) :
    build b f cridBegin old entries = build b g cridBegin old entries := by
  have hsort : sortEvents b f (events entries) = sortEvents b g (events entries) := by
    rw [sortEvents, sortEvents]
    congr 1
    refine List.map_congr_left fun v hv => ?_
    rw [pack, pack, h v hv]
  simp only [build, hsort]

variable (old) in
/-- The two update lists: the keys whose record is gone or replaced, and the keys that end with a
    record of this epoch. -/
theorem build_updates (hf : Fits b (events entries)) (hm : MintFits lookup (events entries) cridBegin)
    {c : ℕ → ℕ} (hc : ∀ k, c k = serialCrid lookup (events entries) cridBegin
      (finalLives lookup (events entries) k)) :
    ∃ ks : List ℕ, ks.Nodup ∧ (∀ k, k ∈ ks ↔ ∃ v ∈ events entries, v.key = k) ∧
      (build b lookup cridBegin old entries).eraseKeys =
        ks.filter (fun k => lookup k ≠ kAbsent ∧ c k ≠ lookup k) ∧
      (build b lookup cridBegin old entries).insertKeys.zip
          (build b lookup cridBegin old entries).insertCrids =
        (ks.filter fun k => c k ≠ kAbsent ∧ c k ≠ lookup k).map fun k => (k, c k) := by
  have hev := events_ordered entries
  obtain ⟨hlife, -⟩ := filter_walkFlags lookup hev hf
  obtain ⟨ks, hnd, hks, hruns⟩ := runs_sortEvents lookup hf
  obtain ⟨-, -, -, hfin⟩ := assignRuns_spec hev hf hm ks _ [] (fun k hk => (hks k).mp hk)
    (scatterMinted_holds cridBegin hev old) _ rfl
  rw [← hruns, List.nil_append] at hfin
  refine ⟨ks, hnd, hks, ?_, ?_⟩
  · simp only [build, hlife, hfin]
    rw [List.filter_map, List.map_map]
    change List.map id _ = _
    rw [List.map_id]
    refine List.filter_congr fun k _ => ?_
    simp [finOf, hc]
  · simp only [build, hlife, hfin]
    rw [List.zip_map', List.filter_map, List.map_map]
    have hfil : ks.filter (Fin.insert ∘ finOf lookup (events entries) cridBegin) =
        ks.filter fun k => c k ≠ kAbsent ∧ c k ≠ lookup k := by
      refine List.filter_congr fun k _ => ?_
      simp [finOf, hc]
    rw [hfil]
    refine List.map_congr_left fun k _ => ?_
    simp [finOf, hc]

end

end Egad.Timeline
