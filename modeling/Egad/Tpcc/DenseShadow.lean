import Egad.Tpcc.ShadowIndex

/-! # The dense arrays hold the journals

    A dense array is the replay of a table's logs with every key at its slot. Where the slots of the
    logged keys are distinct, in range and decoded back to their keys, uploading the array gives the
    live map of the journal. -/

namespace Egad.Tpcc
open Egad.Lib Egad.Timeline

/-! ### Loops over the initial population -/

theorem range_flatMap_range {α : Type} (f : ℕ → ℕ → α) (b : ℕ) : ∀ a,
    ((List.range a).flatMap fun i => (List.range b).map fun j => f i j) =
      (List.range (a * b)).map fun t => f (t / b) (t % b)
  | 0 => by simp
  | a + 1 => by
    rw [List.range_succ, List.flatMap_append, range_flatMap_range f b a, Nat.succ_mul, List.range_add,
      List.map_append, List.flatMap_singleton, List.map_map]
    congr 1
    refine List.map_congr_left fun j hj => ?_
    have hj := List.mem_range.mp hj
    rw [Function.comp_apply, Nat.mul_comm a b, Nat.mul_add_div (by omega), Nat.mul_add_mod,
      Nat.div_eq_of_lt hj, Nat.mod_eq_of_lt hj, Nat.add_zero]

/-- The order with CRID `t`. -/
def orderAt (t : ℕ) : OrderId := ⟨t / 30000 + 1, t % 30000 / 3000 + 1, t % 30000 % 3000 + 1⟩

/-- The NewOrder row with CRID `t`. -/
def newOrderAt (t : ℕ) : OrderId := ⟨t / 9000 + 1, t % 9000 / 900 + 1, t % 9000 % 900 + 2101⟩

theorem initialOrders_eq (W : ℕ) :
    initialOrders W = (List.range (W * 10 * 3000)).map orderAt := by
  have hinner : ∀ w, ((List.range 10).flatMap fun d => (List.range 3000).map fun o =>
      (⟨w + 1, d + 1, o + 1⟩ : OrderId)) =
        (List.range 30000).map fun t => ⟨w + 1, t / 3000 + 1, t % 3000 + 1⟩ := fun w =>
    range_flatMap_range (fun d o => (⟨w + 1, d + 1, o + 1⟩ : OrderId)) 3000 10
  rw [initialOrders]
  simp only [hinner]
  rw [range_flatMap_range (fun w t => (⟨w + 1, t / 3000 + 1, t % 3000 + 1⟩ : OrderId)) 30000 W,
    Nat.mul_assoc]
  rfl

theorem initialNewOrders_eq (W : ℕ) :
    initialNewOrders W = (List.range (W * 10 * 900)).map newOrderAt := by
  have hdistrict : ∀ w d, ((List.range 3000).map fun o => (⟨w + 1, d + 1, o + 1⟩ : OrderId)).filter
      (fun x => 2100 < x.o) = (List.range 900).map fun o => ⟨w + 1, d + 1, o + 2101⟩ := by
    intro w d
    rw [show (3000 : ℕ) = 2100 + 900 from rfl, List.range_add, List.map_append, List.filter_append,
      List.filter_eq_nil_iff.mpr, List.nil_append, List.map_map, List.filter_eq_self.mpr]
    · refine List.map_congr_left fun o _ => ?_
      rw [Function.comp_apply, Nat.add_comm 2100 o, Nat.add_assoc o 2100 1]
    · intro x hx
      obtain ⟨i, -, rfl⟩ := List.mem_map.mp hx
      simp
    · intro x hx
      obtain ⟨i, hi, rfl⟩ := List.mem_map.mp hx
      have := List.mem_range.mp hi
      simp only [decide_eq_true_eq]; omega
  have hinner : ∀ w, ((List.range 10).flatMap fun d => (List.range 900).map fun o =>
      (⟨w + 1, d + 1, o + 2101⟩ : OrderId)) =
        (List.range 9000).map fun t => ⟨w + 1, t / 900 + 1, t % 900 + 2101⟩ := fun w =>
    range_flatMap_range (fun d o => (⟨w + 1, d + 1, o + 2101⟩ : OrderId)) 900 10
  rw [initialNewOrders, initialOrders, List.filter_flatMap]
  simp only [List.filter_flatMap, hdistrict, hinner]
  rw [range_flatMap_range (fun w t => (⟨w + 1, t / 900 + 1, t % 900 + 2101⟩ : OrderId)) 9000 W,
    Nat.mul_assoc]
  rfl

theorem initialLines_eq (W : ℕ) : initialLines W =
    (List.range (W * 10 * 3000 * 15)).map fun t => (orderAt (t / 15), t % 15 + 1) := by
  rw [initialLines, initialOrders_eq, List.flatMap_map,
    range_flatMap_range (fun i ol => (orderAt i, ol + 1)) 15]

theorem length_initialOrderKeys (W : ℕ) : (initialOrderKeys W).length = W * 10 * 3000 := by
  simp [initialOrderKeys, initialOrders_eq]

theorem length_initialNewOrderKeys (W : ℕ) : (initialNewOrderKeys W).length = W * 10 * 900 := by
  simp [initialNewOrderKeys, initialNewOrders_eq]

theorem length_initialLineKeys (W : ℕ) : (initialLineKeys W).length = W * 10 * 3000 * 15 := by
  simp [initialLineKeys, initialLines_eq]

/-! ### Ids of the initial population -/

section
variable {W t : ℕ}

theorem orderAt_ok (hW : W < 2 ^ 8) (ht : t < W * 10 * 3000) :
    OrderOk (orderAt t).o (orderAt t).d (orderAt t).w ∧ (orderAt t).w ≤ W ∧ (orderAt t).o ≤ 3000 := by
  simp only [orderAt]
  exact ⟨⟨by omega, by omega, by omega⟩, by omega, by omega⟩

theorem newOrderAt_ok (hW : W < 2 ^ 8) (ht : t < W * 10 * 900) :
    OrderOk (newOrderAt t).o (newOrderAt t).d (newOrderAt t).w ∧ (newOrderAt t).w ≤ W ∧
      (newOrderAt t).o ≤ 3000 := by
  simp only [newOrderAt]
  exact ⟨⟨by omega, by omega, by omega⟩, by omega, by omega⟩

/-- An order's CRID, from its ids. -/
theorem orderAt_crid (t : ℕ) :
    (((orderAt t).w - 1) * 10 + ((orderAt t).d - 1)) * 3000 + ((orderAt t).o - 1) = t := by
  simp only [orderAt]; omega

theorem newOrderAt_crid (t : ℕ) :
    (((newOrderAt t).w - 1) * 10 + ((newOrderAt t).d - 1)) * 900 + ((newOrderAt t).o - 2101) = t := by
  simp only [newOrderAt]; omega

theorem lineAt_crid (t : ℕ) : (((orderAt (t / 15)).w - 1) * 10 + ((orderAt (t / 15)).d - 1)) * 3000 * 15 +
    ((orderAt (t / 15)).o - 1) * 15 + (t % 15 + 1 - 1) = t := by
  simp only [orderAt]; omega

theorem orderFields_inj {o d w o' d' w' : ℕ} (h : OrderOk o d w) (h' : OrderOk o' d' w')
    (heq : orderFields o d w = orderFields o' d' w') : o = o' ∧ d = d' ∧ w = w' := by
  obtain ⟨h1, h2, h3⟩ := orderFields_decode h
  obtain ⟨h1', h2', h3'⟩ := orderFields_decode h'
  rw [heq] at h1 h2 h3
  exact ⟨h1.symm.trans h1', h2.symm.trans h2', h3.symm.trans h3'⟩

theorem mem_initialOrders {x : OrderId} (h : x ∈ initialOrders W) :
    ∃ t < W * 10 * 3000, orderAt t = x := by
  rw [initialOrders_eq] at h
  obtain ⟨t, ht, rfl⟩ := List.mem_map.mp h
  exact ⟨t, List.mem_range.mp ht, rfl⟩

theorem initialOrders_nodup : (initialOrders W).Nodup := by
  rw [initialOrders_eq]
  refine List.Nodup.map_on (fun t _ t' _ heq => ?_) List.nodup_range
  rw [← orderAt_crid t, ← orderAt_crid t', heq]

theorem OrderId.ext_of_key {x y : OrderId} (hx : OrderOk x.o x.d x.w) (hy : OrderOk y.o y.d y.w)
    (heq : orderFields x.o x.d x.w = orderFields y.o y.d y.w) : x = y := by
  obtain ⟨h1, h2, h3⟩ := orderFields_inj hx hy heq
  obtain ⟨w, d, o⟩ := x
  obtain ⟨w', d', o'⟩ := y
  simp_all

theorem initialOrder_ok (hW : W < 2 ^ 8) {x : OrderId} (hx : x ∈ initialOrders W) :
    OrderOk x.o x.d x.w ∧ x.w ≤ W ∧ x.o ≤ 3000 := by
  obtain ⟨t, ht, rfl⟩ := mem_initialOrders hx
  exact orderAt_ok hW ht

theorem initialOrderKeys_nodup (hW : W < 2 ^ 8) : (initialOrderKeys W).Nodup :=
  List.Nodup.map_on (fun _ hx _ hy heq =>
    OrderId.ext_of_key (initialOrder_ok hW hx).1 (initialOrder_ok hW hy).1 heq) initialOrders_nodup

theorem initialNewOrderKeys_nodup (hW : W < 2 ^ 8) : (initialNewOrderKeys W).Nodup :=
  List.Nodup.map_on (fun _ hx _ hy heq =>
    OrderId.ext_of_key (initialOrder_ok hW (List.mem_of_mem_filter hx)).1
      (initialOrder_ok hW (List.mem_of_mem_filter hy)).1 heq) (initialOrders_nodup.filter _)

theorem mem_initialLines {x : OrderId × ℕ} (h : x ∈ initialLines W) :
    x.1 ∈ initialOrders W ∧ 1 ≤ x.2 ∧ x.2 ≤ 15 := by
  obtain ⟨y, hy, h⟩ := List.mem_flatMap.mp h
  obtain ⟨i, hi, rfl⟩ := List.mem_map.mp h
  have hi := List.mem_range.mp hi
  exact ⟨hy, by simp, by simp only; omega⟩

theorem initialLines_nodup : (initialLines W).Nodup := by
  rw [initialLines_eq]
  refine List.Nodup.map_on (fun t _ t' _ heq => ?_) List.nodup_range
  obtain ⟨h1, h2⟩ := Prod.ext_iff.mp heq
  simp only at h1 h2
  rw [← lineAt_crid t, ← lineAt_crid t', h1, h2]

theorem initialLineKeys_nodup (hW : W < 2 ^ 8) : (initialLineKeys W).Nodup := by
  refine List.Nodup.map_on (fun x hx y hy heq => ?_) initialLines_nodup
  obtain ⟨hx, -, hx15⟩ := mem_initialLines hx
  obtain ⟨hy, -, hy15⟩ := mem_initialLines hy
  obtain ⟨h1, h2, h3, h4⟩ := orderLineKey_decode (initialOrder_ok hW hx).1 (show x.2 < 2 ^ 4 by omega)
  obtain ⟨h1', h2', h3', h4'⟩ := orderLineKey_decode (initialOrder_ok hW hy).1
    (show y.2 < 2 ^ 4 by omega)
  rw [heq] at h1 h2 h3 h4
  obtain ⟨⟨w, d, o⟩, ol⟩ := x
  obtain ⟨⟨w', d', o'⟩, ol'⟩ := y
  simp_all

/-- A loaded line has its slot in every flat layout that holds the loaded orders. -/
theorem initialLine_ok (hW : W < 2 ^ 8) {maxO : ℕ} (hmax : 3000 ≤ maxO) {k : ℕ}
    (hk : k ∈ initialLineKeys W) : LineOk maxO k := by
  obtain ⟨x, hx, rfl⟩ := List.mem_map.mp hk
  obtain ⟨hx, h1, h15⟩ := mem_initialLines hx
  obtain ⟨hok, -, ho⟩ := initialOrder_ok hW hx
  obtain ⟨e1, e2, e3, e4⟩ := orderLineKey_decode hok (show x.2 < 2 ^ 4 by omega)
  refine ⟨orderLineKey_lt _ _ _ _, ?_, ?_, ?_, ?_⟩
  · rw [e1]; exact ⟨hok.o.1, ho.trans hmax⟩
  · rw [e2]; exact hok.d
  · rw [e3]; exact hok.w.1
  · rw [e4]; exact ⟨h1, h15⟩

end

/-! ### The arrays are replays -/

theorem mintAll_range (m : ℕ → ℕ) (g : ℕ → ℕ) : ∀ n, Journal.mintAll m 0 ((List.range n).map g) =
    (List.range n).foldl (fun a t => Function.update a (g t) t) m
  | 0 => rfl
  | n + 1 => by
    rw [List.range_succ, List.map_append, Journal.mintAll_append, mintAll_range m g n, List.foldl_append]
    simp [Journal.mintAll]

/-- A load loop that stores each row's CRID at the slot of its key. -/
theorem load_eq {α : Type} {n : ℕ} {row : ℕ → α} {slot crid key : α → ℕ} {slotOf : ℕ → ℕ} (m : ℕ → ℕ)
    (hslot : ∀ t < n, slot (row t) = slotOf (key (row t))) (hcrid : ∀ t < n, crid (row t) = t) :
    ((List.range n).map row).foldl (fun a x => Function.update a (slot x) (crid x)) m =
      Journal.mintAll m 0 ((((List.range n).map row).map key).map slotOf) := by
  rw [List.map_map, List.map_map, mintAll_range, List.foldl_map]
  refine List.foldl_ext _ _ m fun a t ht => ?_
  have ht := List.mem_range.mp ht
  rw [hslot t ht, hcrid t ht]
  rfl

section
variable {cfg : Config}

theorem denseOfOrder_key {o d w : ℕ} (h : OrderOk o d w) (maxO : ℕ) :
    denseOfOrder maxO (orderFields o d w) = denseIdxO w d o maxO := by
  obtain ⟨h1, h2, h3⟩ := orderFields_decode h
  rw [denseOfOrder, h1, h2, h3]

theorem denseOf_key {o d w ol : ℕ} (h : OrderOk o d w) (hol : ol < 2 ^ 4) (maxO : ℕ) :
    denseOf maxO (orderLineKey o d w ol) = denseIdxOL w d o ol maxO := by
  obtain ⟨h1, h2, h3, h4⟩ := orderLineKey_decode h hol
  rw [denseOf, h1, h2, h3, h4]

theorem loadInitialData_o (hW : cfg.numWarehouses < 2 ^ 8) : (loadInitialData cfg).o =
    Journal.mintAll (fun _ => kAbsent) 0
      ((initialOrderKeys cfg.numWarehouses).map (denseOfOrder (computeOrdersMaxO cfg))) := by
  rw [initialOrderKeys, loadInitialData, initialOrders_eq]
  exact load_eq _ (fun t ht => (denseOfOrder_key (orderAt_ok hW ht).1 _).symm) fun t _ => orderAt_crid t

theorem loadInitialData_no (hW : cfg.numWarehouses < 2 ^ 8) : (loadInitialData cfg).no =
    Journal.mintAll (fun _ => kAbsent) 0
      ((initialNewOrderKeys cfg.numWarehouses).map (denseOfOrder (computeOrdersMaxO cfg))) := by
  rw [initialNewOrderKeys, loadInitialData, initialNewOrders_eq]
  exact load_eq _ (fun t ht => (denseOfOrder_key (newOrderAt_ok hW ht).1 _).symm) fun t _ =>
    newOrderAt_crid t

theorem loadInitialData_ol (hW : cfg.numWarehouses < 2 ^ 8) : (loadInitialData cfg).ol =
    Journal.mintAll (fun _ => kAbsent) 0
      ((initialLineKeys cfg.numWarehouses).map (denseOf (maxOOl cfg))) := by
  rw [initialLineKeys, loadInitialData, initialLines_eq]
  refine load_eq _ (fun t ht => (denseOf_key (orderAt_ok hW ?_).1 ?_ _).symm) fun t _ => lineAt_crid t
  · omega
  · simp only; omega

/-- The flat index starts from the same rows. -/
theorem flatInitialPop_eq {W : ℕ} (hW : W < 2 ^ 8) (maxO : ℕ) : flatInitialPop W maxO =
    Journal.mintAll (fun _ => kAbsent) 0 ((initialLineKeys W).map (denseOf maxO)) := by
  have hslots : (initialLineKeys W).map (denseOf maxO) =
      (List.range (W * 10 * 3000 * 15)).map fun tid =>
        (tid / (15 * 3000 * 10) * 10 + tid / (15 * 3000) % 10) * maxO * 15 +
          tid / 15 % 3000 * 15 + tid % 15 := by
    rw [initialLineKeys, initialLines_eq, List.map_map, List.map_map]
    refine List.map_congr_left fun tid htid => ?_
    have htid := List.mem_range.mp htid
    have hw : (orderAt (tid / 15)).w - 1 = tid / (15 * 3000 * 10) := by simp only [orderAt]; omega
    have hd : (orderAt (tid / 15)).d - 1 = tid / (15 * 3000) % 10 := by simp only [orderAt]; omega
    have ho : (orderAt (tid / 15)).o - 1 = tid / 15 % 3000 := by simp only [orderAt]; omega
    rw [Function.comp_apply, Function.comp_apply, denseOf_key
      (orderAt_ok hW (show tid / 15 < W * 10 * 3000 by omega)).1 (show tid % 15 + 1 < 2 ^ 4 by omega),
      denseIdxOL, hw, hd, ho, Nat.add_sub_cancel]
  rw [hslots, mintAll_range, flatInitialPop]

theorem reconstructTable_eq (slot : ℕ → ℕ) (base : ℕ) (keys : ℕ → ℕ) (a : ℕ → ℕ) : ∀ count,
    reconstructTable slot base keys count a =
      Journal.mintAll a base (((List.range count).map keys).map slot)
  | 0 => rfl
  | count + 1 => by
    rw [reconstructTable, List.range_succ, List.map_append, List.map_append, Journal.mintAll_append,
      ← reconstructTable_eq slot base keys a count, List.foldl_append]
    simp [Journal.mintAll, reconstructTable]

theorem applyNoDeletes_eq (log : Durable) (count : ℕ) (s : Shadow) :
    (applyNoDeletesFromDurable cfg log count s).no = Journal.endAll kAbsent s.no
      (((List.range count).map fun i => (log.noDeleteKeys i, log.noDeleteCrids i)).map
        fun x => (denseOfOrder (computeOrdersMaxO cfg) x.1, x.2)) := by
  rw [Journal.endAll, List.map_map, List.foldl_map]
  rfl

end

/-! ### Uploading a replayed journal -/

/-- The replay of a journal at its keys' slots. -/
def dense (slot : ℕ → ℕ) (j : Journal ℕ) : ℕ → ℕ :=
  Journal.endAll kAbsent (Journal.mintAll (fun _ => kAbsent) 0 (j.minted.map slot))
    (j.ended.map fun x => (slot x.1, x.2))

section
variable {slot : ℕ → ℕ} {j : Journal ℕ}

/-- At the slot of a key that shares it with no logged key, the dense array has its live id. -/
theorem dense_slot (hj : j.Inv kAbsent) {k : ℕ} (hk : ∀ k' ∈ j.minted, slot k' = slot k → k' = k) :
    dense slot j (slot k) = j.live k := by
  have hmint := Journal.mintAll_map slot j.minted (fun _ => kAbsent) (fun _ => kAbsent) 0 hk rfl
  rw [dense, Journal.endAll_map slot (fun x hx h => hk x.1 ?_ h) hmint, hj.replay]
  exact List.mem_of_getElem? (hj.endedOwner x hx)

/-- A slot in use belongs to a logged key. -/
theorem dense_used {i : ℕ} (h : dense slot j i ≠ kAbsent) : ∃ k ∈ j.minted, slot k = i := by
  rw [dense, Journal.endAll_apply] at h
  split at h
  · exact absurd rfl h
  · rcases Journal.mintAll_spec kAbsent (j.minted.map slot) i with ⟨habs, -⟩ | ⟨hi, -⟩
    · exact absurd habs h
    · obtain ⟨k, hk, rfl⟩ := List.mem_map.mp (List.mem_of_getElem? hi)
      exact ⟨k, hk, rfl⟩

/-- Nothing in the dense array is a straggler. -/
theorem eraseStragglers_dense {n : ℕ} (hn : j.minted.length ≤ n) :
    eraseStragglers (dense slot j) n = dense slot j := by
  funext i
  rw [eraseStragglers, if_neg]
  rintro ⟨hne, hle⟩
  have hlt : Journal.mintAll (fun _ => kAbsent) 0 (j.minted.map slot) i = kAbsent ∨
      Journal.mintAll (fun _ => kAbsent) 0 (j.minted.map slot) i < (j.minted.map slot).length :=
    Journal.mintAll_lt _ i
  rw [List.length_map] at hlt
  rw [dense, Journal.endAll_apply] at hne hle
  split at hne
  · exact absurd rfl hne
  · next h =>
    rw [if_neg h] at hle
    rcases hlt with hlt | hlt
    · exact hne hlt
    · omega

/-- Uploading the dense array gives the live map where every logged key is decoded back from a slot
    in range. -/
theorem upload_dense (hj : j.Inv kAbsent) {size : ℕ} {decode : ℕ → ℕ}
    (hslot : ∀ k ∈ j.minted, slot k < size ∧ decode (slot k) = k) (k : ℕ) :
    (uploadShadowToCuco (dense slot j) size decode).lookup k = j.live k := by
  have hinj : ∀ k ∈ j.minted, ∀ k' ∈ j.minted, slot k' = slot k → k' = k := by
    intro k hk k' hk' h
    rw [← (hslot k hk).2, ← h, (hslot k' hk').2]
  rw [uploadShadowToCuco, Store.lookup_cuco]
  set kvs := ((List.range size).filter fun i => dense slot j i ≠ kAbsent).map
    fun i => (decode i, dense slot j i) with hkvs
  have hentry : ∀ x ∈ kvs, ∃ k ∈ j.minted, x = (k, dense slot j (slot k)) := by
    intro x hx
    obtain ⟨i, hi, rfl⟩ := List.mem_map.mp hx
    obtain ⟨-, hi⟩ := List.mem_filter.mp hi
    obtain ⟨k, hk, rfl⟩ := dense_used (by simpa using hi)
    exact ⟨k, hk, by rw [(hslot k hk).2]⟩
  by_cases hlive : j.live k = kAbsent
  · -- no entry of the upload has the key with a CRID
    rcases insertAll_cases kAbsent k kvs (fun _ => kAbsent) with h | ⟨-, h⟩
    · rw [h, hlive]
    · obtain ⟨k', hk', heq⟩ := hentry _ h
      rw [Prod.mk.injEq] at heq
      obtain ⟨rfl, hval⟩ := heq
      rw [hval, dense_slot hj (hinj _ hk')]
  · have hk := List.mem_of_getElem? (hj.owner k hlive)
    have hval := dense_slot hj (hinj k hk)
    have hmem : (k, j.live k) ∈ kvs := by
      refine List.mem_map.mpr ⟨slot k, List.mem_filter.mpr ⟨List.mem_range.mpr (hslot k hk).1, ?_⟩, ?_⟩
      · rw [hval]; simpa using hlive
      · rw [hval, (hslot k hk).2]
    refine insertAll_of_mem kvs _ ?_ hmem rfl
    rw [hkvs, List.map_map]
    refine List.Nodup.map_on (fun i hi i' hi' heq => ?_) (List.nodup_range.filter _)
    obtain ⟨-, hi⟩ := List.mem_filter.mp hi
    obtain ⟨-, hi'⟩ := List.mem_filter.mp hi'
    obtain ⟨a, ha, rfl⟩ := dense_used (by simpa using hi)
    obtain ⟨b, hb, rfl⟩ := dense_used (by simpa using hi')
    simp only [Function.comp_apply] at heq
    rw [(hslot a ha).2, (hslot b hb).2] at heq
    rw [heq]

/-- So does copying it into the flat index. -/
theorem flat_dense (hj : j.Inv kAbsent) {maxO : ℕ} (hline : ∀ k ∈ j.minted, LineOk maxO k) (k : ℕ) :
    (Store.flat (dense (denseOf maxO) j) maxO).lookup k = j.live k := by
  by_cases hk : LineOk maxO k
  · rw [Store.lookup_flat _ hk]
    exact dense_slot hj fun k' hk' h => denseOf_inj (hline k' hk') hk h
  · rw [Store.lookup_flat_of_not _ hk]
    by_contra hne
    exact hk (hline k (List.mem_of_getElem? (hj.owner k (Ne.symm hne))))

end

end Egad.Tpcc
