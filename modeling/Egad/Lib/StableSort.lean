import Mathlib.Tactic.Ring
import Mathlib.Data.List.Sort
import Mathlib.Data.List.TakeWhile
import Mathlib.Data.List.SplitBy

/-! # Stable sorting by a key, and runs of equal keys

    A device radix sort orders its input by some bits of each element and keeps the order of
    elements that agree on them. `stableSort f l` is that sort: nondecreasing in `f`, a permutation
    of `l`, and the elements of one `f`-value come out in the order `l` had them. Two facts are used
    by every consumer:

        filter_stableSort   filtering commutes with the sort (so one key's elements keep their order)
        runs_eq_map         in a sorted list, the runs that start at the first index of a key are
                            the elements grouped by key -/

namespace Egad.Lib

variable {α κ : Type*} [LinearOrder κ]

/-- Sort by `f`, keeping the input order of elements with equal `f`. -/
def stableSort (f : α → κ) (l : List α) : List α := l.insertionSort (fun a b => f a ≤ f b)

theorem stableSort_perm (f : α → κ) (l : List α) : (stableSort f l).Perm l :=
  List.perm_insertionSort _ l

@[simp] theorem mem_stableSort {f : α → κ} {l : List α} {a : α} : a ∈ stableSort f l ↔ a ∈ l :=
  (stableSort_perm f l).mem_iff

@[simp] theorem length_stableSort (f : α → κ) (l : List α) :
    (stableSort f l).length = l.length := (stableSort_perm f l).length_eq

theorem stableSort_sorted (f : α → κ) (l : List α) :
    (stableSort f l).Pairwise (fun a b => f a ≤ f b) := by
  have : Std.Total (fun a b : α => f a ≤ f b) := ⟨fun a b => le_total (f a) (f b)⟩
  have : IsTrans α (fun a b : α => f a ≤ f b) := ⟨fun _ _ _ h h' => le_trans h h'⟩
  exact List.pairwise_insertionSort _ l

/-- A list already sorted by `f` is its own stable sort. -/
theorem stableSort_of_sorted {f : α → κ} {l : List α} (h : l.Pairwise (fun a b => f a ≤ f b)) :
    stableSort f l = l := h.insertionSort_eq

/-- Inserting into a sorted list and filtering commute. -/
theorem filter_orderedInsert (f : α → κ) (p : α → Bool) (a : α) : ∀ l : List α,
    l.Pairwise (fun a b => f a ≤ f b) →
    (l.orderedInsert (fun a b => f a ≤ f b) a).filter p =
      if p a then (l.filter p).orderedInsert (fun a b => f a ≤ f b) a else l.filter p
  | [], _ => by by_cases h : p a <;> simp [h]
  | b :: l, hs => by
    obtain ⟨hb, hl⟩ := List.pairwise_cons.mp hs
    by_cases hab : f a ≤ f b
    · rw [List.orderedInsert_cons_of_le _ l hab, List.filter_cons]
      -- `a` goes in front, and stays in front of what the filter keeps of a sorted list
      have hfront : ((b :: l).filter p).orderedInsert (fun a b => f a ≤ f b) a =
          a :: (b :: l).filter p := by
        cases hf : (b :: l).filter p with
        | nil => rfl
        | cons c rest =>
          have hc : c ∈ b :: l := List.mem_of_mem_filter (by rw [hf]; simp)
          refine List.orderedInsert_cons_of_le _ rest ?_
          rcases List.mem_cons.mp hc with rfl | hc
          · exact hab
          · exact hab.trans (hb c hc)
      rw [hfront]
    · rw [List.orderedInsert_of_not_le _ l hab, List.filter_cons, filter_orderedInsert f p a l hl]
      by_cases hpb : p b
      · by_cases hpa : p a
        · simp [hpa, hpb, hab]
        · simp [hpa, hpb]
      · simp [hpb]

/-- Filtering and stable sorting commute. -/
theorem filter_stableSort (f : α → κ) (p : α → Bool) : ∀ l : List α,
    (stableSort f l).filter p = stableSort f (l.filter p)
  | [] => rfl
  | a :: l => by
    have ih := filter_stableSort f p l
    have hs := stableSort_sorted f l
    simp only [stableSort] at ih hs
    rw [stableSort, List.insertionSort_cons, filter_orderedInsert f p a _ hs, ih, List.filter_cons]
    by_cases h : p a <;> simp [h, stableSort]

/-- Stability: one key's elements keep the order they had in the input. -/
theorem filter_key_stableSort (f : α → κ) (k : κ) (l : List α) :
    (stableSort f l).filter (fun x => f x = k) = l.filter (fun x => f x = k) := by
  rw [filter_stableSort]
  refine stableSort_of_sorted (List.pairwise_of_forall_mem_list fun a ha b hb => ?_)
  have ha' : f a = k := by simpa using (List.mem_filter.mp ha).2
  have hb' : f b = k := by simpa using (List.mem_filter.mp hb).2
  rw [ha', hb']

/-- Sorting a mapped list by `f` is mapping the list sorted by `f ∘ h`. -/
theorem stableSort_map {β : Type*} (f : α → κ) (h : β → α) (l : List β) :
    stableSort f (l.map h) = (stableSort (fun b => f (h b)) l).map h :=
  (List.map_insertionSort _ _ h l fun _ _ _ _ => Iff.rfl).symm

/-- Two keys that order the elements of a list alike sort it alike. -/
theorem stableSort_congr {κ' : Type*} [LinearOrder κ'] (f : α → κ) (f' : α → κ') (l : List α)
    (h : ∀ a ∈ l, ∀ b ∈ l, f a ≤ f b ↔ f' a ≤ f' b) : stableSort f l = stableSort f' l := by
  have := List.map_insertionSort (fun a b => f a ≤ f b) (fun a b => f' a ≤ f' b) id l h
  simpa [stableSort] using this

/-- A stable sort is sorted lexicographically by the key and then by any order its input was
    already sorted by. -/
theorem stableSort_lex (f : α → κ) (r : α → α → Prop) {l : List α} (h : l.Pairwise r) :
    (stableSort f l).Pairwise (fun a b => f a < f b ∨ f a = f b ∧ r a b) := by
  induction l with
  | nil => exact List.Pairwise.nil
  | cons a l ih =>
    obtain ⟨ha, hl⟩ := List.pairwise_cons.mp h
    have hsorted := ih hl
    have hperm : ∀ b ∈ stableSort f l, r a b := fun b hb => ha b (mem_stableSort.mp hb)
    rw [stableSort, List.insertionSort_cons]
    change ((stableSort f l).orderedInsert _ a).Pairwise _
    generalize stableSort f l = s at hsorted hperm
    clear ih ha hl h
    induction s with
    | nil => simp
    | cons b s ihs =>
      obtain ⟨hb, hs⟩ := List.pairwise_cons.mp hsorted
      by_cases hab : f a ≤ f b
      · rw [List.orderedInsert_cons_of_le _ s hab]
        refine List.pairwise_cons.mpr ⟨fun c hc => ?_, hsorted⟩
        have hbc : f b ≤ f c := by
          rcases List.mem_cons.mp hc with rfl | hc
          · exact le_rfl
          · rcases hb c hc with h | ⟨h, -⟩
            · exact h.le
            · exact h.le
        rcases lt_or_eq_of_le (hab.trans hbc) with h | h
        · exact Or.inl h
        · exact Or.inr ⟨h, hperm c hc⟩
      · rw [List.orderedInsert_of_not_le _ s hab]
        refine List.pairwise_cons.mpr ⟨fun c hc => ?_, ihs hs fun c hc => hperm c (by simp [hc])⟩
        rcases (List.mem_orderedInsert _).mp hc with rfl | hc
        · exact Or.inl (not_le.mp hab)
        · exact hb c hc

/-! ### Runs of equal keys in a sorted list -/

/-- The maximal run of elements with the key of `l[i]` that starts at index `i`. -/
def runFrom (g : α → κ) (l : List α) (i : ℕ) : List α :=
  match l.drop i with
  | [] => []
  | a :: rest => (a :: rest).takeWhile (fun x => g x = g a)

/-- Index `i` is the first of its key: there is no element before it, or the previous one has
    another key. -/
def isFirst (g : α → κ) (l : List α) (i : ℕ) : Bool :=
  match l[i]? with
  | none => false
  | some a => i = 0 ∨ ¬ (l[i - 1]?.map g = some (g a))

/-- The runs of a list, one for each index that is the first of its key. -/
def runs (g : α → κ) (l : List α) : List (List α) :=
  (List.range l.length).filterMap fun i => if isFirst g l i then some (runFrom g l i) else none

theorem mem_of_mem_runs {g : α → κ} {l r : List α} (hr : r ∈ runs g l) {a : α} (ha : a ∈ r) :
    a ∈ l := by
  obtain ⟨i, -, hi⟩ := List.mem_filterMap.mp hr
  obtain ⟨-, hrun⟩ := Option.ite_none_right_eq_some.mp hi
  rw [← Option.some.inj hrun, runFrom] at ha
  split at ha
  · exact absurd ha List.not_mem_nil
  · next b rest hdrop =>
    have := (List.takeWhile_sublist _).subset ha
    rw [← hdrop] at this
    exact List.mem_of_mem_drop this

theorem takeWhile_eq_filter_of_sorted (g : α → κ) (k : κ) : ∀ l : List α,
    l.Pairwise (fun a b => g a ≤ g b) → (∀ a ∈ l, k ≤ g a) →
    l.takeWhile (fun x => g x = k) = l.filter (fun x => g x = k)
  | [], _, _ => rfl
  | a :: l, hs, hk => by
    obtain ⟨ha, hl⟩ := List.pairwise_cons.mp hs
    by_cases h : g a = k
    · rw [List.takeWhile_cons, List.filter_cons]
      simp only [h, decide_true, ↓reduceIte]
      rw [takeWhile_eq_filter_of_sorted g k l hl fun b hb => hk b (by simp [hb])]
    · have hlt : k < g a := lt_of_le_of_ne (hk a (by simp)) (Ne.symm h)
      have hnone : (a :: l).filter (fun x => g x = k) = [] := by
        rw [List.filter_eq_nil_iff]
        intro b hb
        rcases List.mem_cons.mp hb with rfl | hb
        · simpa using h
        · simpa using (lt_of_lt_of_le hlt (ha b hb)).ne'
      rw [hnone, List.takeWhile_cons]
      simp [h]

theorem isFirst_iff (g : α → κ) (l : List α) {i : ℕ} (hi : i < l.length) :
    isFirst g l i = true ↔ ∀ (h : 0 < i), g l[i - 1] ≠ g l[i] := by
  rw [isFirst, List.getElem?_eq_getElem hi]
  simp only [List.getElem?_eq_getElem (show i - 1 < l.length by omega), Option.map_some,
    Option.some.injEq, decide_eq_true_eq]
  constructor
  · rintro (h | h) hpos
    · omega
    · exact h
  · intro h
    rcases Nat.eq_zero_or_pos i with h0 | hpos
    · exact Or.inl h0
    · exact Or.inr (h hpos)

/-- Before a key's first index every element has a smaller key. -/
theorem lt_of_isFirst {g : α → κ} {l : List α} (hs : l.Pairwise (fun a b => g a ≤ g b)) {i j : ℕ}
    (hi : i < l.length) (hf : isFirst g l i = true) (hj : j < i) : g l[j] < g l[i] := by
  have hmono := List.pairwise_iff_getElem.mp hs
  have hprev : g l[i - 1] < g l[i] :=
    lt_of_le_of_ne (hmono (i - 1) i (by omega) hi (by omega))
      ((isFirst_iff g l hi).mp hf (by omega))
  rcases Nat.lt_or_ge j (i - 1) with h | h
  · exact lt_of_le_of_lt (hmono j (i - 1) (by omega) (by omega) h) hprev
  · have : j = i - 1 := by omega
    subst this; exact hprev

/-- The run that starts at a key's first index is all of that key's elements. -/
theorem runFrom_eq_filter {g : α → κ} {l : List α} (hs : l.Pairwise (fun a b => g a ≤ g b)) {i : ℕ}
    (hi : i < l.length) (hf : isFirst g l i = true) :
    runFrom g l i = l.filter (fun x => g x = g l[i]) := by
  have hdrop : l.drop i = l[i] :: l.drop (i + 1) := List.drop_eq_getElem_cons hi
  have hpre : (l.take i).filter (fun x => g x = g l[i]) = [] := by
    rw [List.filter_eq_nil_iff]
    intro a ha
    obtain ⟨j, hj, rfl⟩ := List.mem_iff_getElem.mp ha
    rw [List.length_take] at hj
    rw [List.getElem_take]
    simpa using (lt_of_isFirst hs hi hf (by omega)).ne
  have hsd : (l.drop i).Pairwise (fun a b => g a ≤ g b) := hs.sublist (List.drop_sublist i l)
  have hge : ∀ a ∈ l.drop i, g l[i] ≤ g a := by
    rw [hdrop] at hsd ⊢
    intro a ha
    rcases List.mem_cons.mp ha with rfl | ha
    · exact le_rfl
    · exact (List.pairwise_cons.mp hsd).1 a ha
  have hsplit : l.filter (fun x => g x = g l[i]) = (l.drop i).filter (fun x => g x = g l[i]) := by
    generalize g l[i] = k at hpre
    conv_lhs => rw [← List.take_append_drop i l, List.filter_append, hpre, List.nil_append]
  rw [hsplit, ← takeWhile_eq_filter_of_sorted g _ _ hsd hge, runFrom, hdrop]

/-- Every key that occurs has a first index. -/
theorem exists_isFirst (g : α → κ) {l : List α} {a : α} (ha : a ∈ l) :
    ∃ i, ∃ hi : i < l.length, isFirst g l i = true ∧ g l[i] = g a := by
  have hex : ∃ x ∈ l, (fun x => decide (g x = g a)) x = true := ⟨a, ha, by simp⟩
  have hi := List.findIdx_lt_length_of_exists hex
  have hkey := List.findIdx_getElem (w := hi)
  refine ⟨_, hi, (isFirst_iff g l hi).mpr fun hpos => ?_, by simpa using hkey⟩
  have hlt : l.findIdx (fun x => decide (g x = g a)) - 1 <
      l.findIdx fun x => decide (g x = g a) := by omega
  have hnot := List.not_of_lt_findIdx hlt
  simp only [decide_eq_true_eq] at hkey
  rw [hkey]
  simpa using hnot

/-- The keys of a sorted list, each at its first index. -/
def firstKeys (g : α → κ) (l : List α) : List κ :=
  (List.range l.length).filterMap fun i => if isFirst g l i then l[i]?.map g else none

theorem mem_firstKeys {g : α → κ} {l : List α} {k : κ} :
    k ∈ firstKeys g l ↔ ∃ a ∈ l, g a = k := by
  rw [firstKeys, List.mem_filterMap]
  constructor
  · rintro ⟨i, hi, h⟩
    rw [List.mem_range] at hi
    rw [Option.ite_none_right_eq_some, List.getElem?_eq_getElem hi] at h
    exact ⟨l[i], List.getElem_mem hi, by simpa using h.2⟩
  · rintro ⟨a, ha, rfl⟩
    obtain ⟨i, hi, hf, hkey⟩ := exists_isFirst g ha
    refine ⟨i, List.mem_range.mpr hi, ?_⟩
    rw [if_pos hf, List.getElem?_eq_getElem hi, Option.map_some, hkey]

theorem firstKeys_nodup {g : α → κ} {l : List α} (hs : l.Pairwise (fun a b => g a ≤ g b)) :
    (firstKeys g l).Nodup := by
  rw [firstKeys, List.Nodup, List.pairwise_filterMap]
  refine List.pairwise_lt_range.imp_of_mem ?_
  intro i j hi hj hij k hk k' hk'
  rw [List.mem_range] at hi hj
  rw [Option.ite_none_right_eq_some, List.getElem?_eq_getElem hi] at hk
  rw [Option.ite_none_right_eq_some, List.getElem?_eq_getElem hj] at hk'
  have hlt := lt_of_isFirst hs hj hk'.1 hij
  have h1 : g l[i] = k := by simpa using hk.2
  have h2 : g l[j] = k' := by simpa using hk'.2
  rw [h1, h2] at hlt
  exact hlt.ne

/-- The runs of a sorted list are its elements grouped by key. -/
theorem runs_eq_map {g : α → κ} {l : List α} (hs : l.Pairwise (fun a b => g a ≤ g b)) :
    runs g l = (firstKeys g l).map fun k => l.filter (fun x => g x = k) := by
  rw [runs, firstKeys, List.map_filterMap]
  refine List.filterMap_congr fun i hi => ?_
  rw [List.mem_range] at hi
  by_cases hf : isFirst g l i = true
  · rw [if_pos hf, if_pos hf, List.getElem?_eq_getElem hi, runFrom_eq_filter hs hi hf]
    rfl
  · rw [if_neg hf, if_neg hf]
    rfl

/-! ### Maximal runs -/

/-- A maximal run has one key. -/
theorem splitBy_const {g : α → κ} {l run : List α} (h : run ∈ l.splitBy fun a b => g a == g b)
    {a b : α} (ha : a ∈ run) (hb : b ∈ run) : g a = g b := by
  have hchain := List.isChain_of_mem_splitBy h
  have htrans : IsTrans α fun a b => (g a == g b) = true :=
    ⟨fun a b c hab hbc => by simpa using (beq_iff_eq.mp hab).trans (beq_iff_eq.mp hbc)⟩
  have hpair : run.Pairwise fun a b => g a = g b :=
    (List.isChain_iff_pairwise.mp hchain).imp fun hab => beq_iff_eq.mp hab
  rcases eq_or_ne a b with rfl | hne
  · rfl
  · exact List.Pairwise.forall (R := fun a b => g a = g b) hpair ha hb hne

/-- The maximal runs of a sorted list have increasing keys. -/
theorem splitBy_increasing {g : α → κ} {l : List α} (hs : l.Pairwise fun a b => g a ≤ g b) :
    (l.splitBy fun a b => g a == g b).Pairwise fun r r' => ∀ a ∈ r, ∀ b ∈ r', g a < g b := by
  have hle : (l.splitBy fun a b => g a == g b).Pairwise fun r r' => ∀ a ∈ r, ∀ b ∈ r', g a ≤ g b := by
    rw [← List.flatten_splitBy (fun a b => g a == g b) l] at hs
    exact (List.pairwise_flatten.mp hs).2
  have hchain := List.isChain_getLast_head_splitBy (fun a b => g a == g b) l
  have hconst : ∀ r ∈ l.splitBy fun a b => g a == g b, r ≠ [] ∧ ∀ a ∈ r, ∀ b ∈ r, g a = g b :=
    fun r hr => ⟨List.ne_nil_of_mem_splitBy hr, fun a ha b hb => splitBy_const hr ha hb⟩
  generalize l.splitBy (fun a b => g a == g b) = rs at hle hchain hconst
  induction rs with
  | nil => exact .nil
  | cons r rs ih =>
    have hrest := ih hle.of_cons hchain.tail fun r' hr' => hconst r' (List.mem_cons_of_mem _ hr')
    refine List.pairwise_cons.mpr ⟨fun r' hr' a ha b hb => ?_, hrest⟩
    cases rs with
    | nil => exact absurd hr' List.not_mem_nil
    | cons r₂ rs =>
      -- the next run starts with another key
      obtain ⟨hr, hr₂, hne⟩ := (List.isChain_cons_cons.mp hchain).1
      have hlt : ∀ c ∈ r₂, g a < g c := by
        intro c hc
        have h1 := (hconst r List.mem_cons_self).2 a ha _ (List.getLast_mem hr)
        have h2 := (hconst r₂ (List.mem_cons_of_mem _ List.mem_cons_self)).2 c hc _ (List.head_mem hr₂)
        have h3 := (List.pairwise_cons.mp hle).1 r₂ List.mem_cons_self _ (List.getLast_mem hr) _
          (List.head_mem hr₂)
        rw [h1, h2]
        exact lt_of_le_of_ne h3 (beq_eq_false_iff_ne.mp hne)
      rcases List.mem_cons.mp hr' with rfl | hr'
      · exact hlt b hb
      · exact (hlt _ (List.head_mem hr₂)).trans
          ((List.pairwise_cons.mp hrest).1 r' hr' _ (List.head_mem hr₂) b hb)

/-- A maximal run of a sorted list has all elements of its key, and stands behind the runs before
    it. -/
theorem splitBy_run {g : α → κ} {l : List α} (hs : l.Pairwise fun a b => g a ≤ g b)
    {pre post : List (List α)} {run : List α}
    (h : (l.splitBy fun a b => g a == g b) = pre ++ run :: post) {a : α} (ha : a ∈ run) :
    l = pre.flatten ++ (run ++ post.flatten) ∧ l.filter (fun b => g b = g a) = run := by
  have hinc := splitBy_increasing hs
  have hmem : run ∈ l.splitBy fun a b => g a == g b := by
    rw [h]
    exact List.mem_append_right _ List.mem_cons_self
  have hl : l = pre.flatten ++ (run ++ post.flatten) := by
    rw [← List.flatten_cons, ← List.flatten_append, ← h, List.flatten_splitBy]
  refine ⟨hl, ?_⟩
  rw [h] at hinc
  obtain ⟨-, hpost, hpre⟩ := List.pairwise_append.mp hinc
  have h1 : pre.flatten.filter (fun b => g b = g a) = [] := by
    refine List.filter_eq_nil_iff.mpr fun b hb => ?_
    obtain ⟨r, hr, hb⟩ := List.mem_flatten.mp hb
    have := hpre r hr run List.mem_cons_self b hb a ha
    simpa using this.ne
  have h2 : run.filter (fun b => g b = g a) = run :=
    List.filter_eq_self.mpr fun b hb => by simpa using splitBy_const hmem hb ha
  have h3 : post.flatten.filter (fun b => g b = g a) = [] := by
    refine List.filter_eq_nil_iff.mpr fun b hb => ?_
    obtain ⟨r, hr, hb⟩ := List.mem_flatten.mp hb
    have := (List.pairwise_cons.mp hpost).1 r hr a ha b hb
    simpa using this.ne'
  rw [hl, List.filter_append, List.filter_append, h1, h2, h3, List.nil_append, List.append_nil]

end Egad.Lib
