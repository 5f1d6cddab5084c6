import Egad.Tpcc.AuxRebuild
import Egad.Tpcc.SameRecords
import Mathlib.Data.Finset.Card
import Mathlib.Order.Interval.Finset.Nat

/-! # The stock records of a StockLevel (`tpcc_gpu_aux_index.cu`, `tpcc_gpu_index.cu`)

    The items of the last twenty orders of a district are collected in `stock_ids`, sorted, and
    replaced there by the stock records of the distinct ones:

        collected   7 3 │ 9 3 3 │ …           order o, order o - 1, …
        sorted      3 3 3 7 9 …
        translated  r₃ r₇ r₉ 7 9 …            num_unique ≤ i: the records stay behind the reader

    The orders are read from the arrays of the auxiliary index. The loaded order 3000 has a slot in
    them unless a district has 3000 slots and is the last one. -/

namespace Egad.Tpcc
open Egad.Timeline

/-! ### The source -/

/-- Device arrays of `numSlots` entries; what lies behind them is whatever is there. -/
def OrderLog.allocated (log : OrderLog) (numSlots : ℕ) (past : OrderLog) : OrderLog where
  numItems idx := if idx < numSlots then log.numItems idx else past.numItems idx
  customers idx := if idx < numSlots then log.customers idx else past.customers idx
  items idx := if idx < numSlots then log.items idx else past.items idx

/-- `stock_ids` and `items_cnt`. -/
structure Collected where
  stockIds : ℕ → ℕ
  itemsCnt : ℕ

/-- The items of one order; a tile has sixteen threads. -/
def collectOrder (log : OrderLog) (cacheIdx : ℕ) (s : Collected) : Collected where
  stockIds j := if s.itemsCnt ≤ j ∧ j < s.itemsCnt + min 16 (log.numItems cacheIdx) then
    log.items cacheIdx (j - s.itemsCnt) else s.stockIds j
  itemsCnt := (s.itemsCnt + log.numItems cacheIdx) % 2 ^ 32

/-- The loop over the orders, downwards from `o_id` as long as it is above the bound. -/
def collectFrom (log : OrderLog) (cacheIdx : ℕ → ℕ) (bound : ℕ) : ℕ → Collected → Collected
  | 0, s => s
  | o + 1, s =>
    if bound < o + 1 then collectFrom log cacheIdx bound o (collectOrder log (cacheIdx (o + 1)) s)
    else s

/-- The `STOCK_LEVEL` case of both range-query kernels up to the sort; `o_id - 20` is unsigned. -/
def collectItems (cfg : Config) (log : OrderLog) (w d o : ℕ) (stockIds : ℕ → ℕ) : Collected :=
  collectFrom log (auxSlot cfg w d) ((o + 2 ^ 32 - 20) % 2 ^ 32) o ⟨stockIds, 0⟩

/-- `stock_ids`, `num_unique_items` and `prev_item` in `indexTpccTxn`. -/
structure Translating where
  stockIds : ℕ → ℕ
  numUnique : ℕ
  prevItem : ℕ

/-- One turn of the loop; `find` is the stock index. -/
def translateStep (find : ℕ → ℕ) (w : ℕ) (s : Translating) (i : ℕ) : Translating :=
  if 0 < i ∧ s.stockIds i = s.prevItem then s
  else
    { stockIds :=
        if find (stockKey (s.stockIds i) w) = kAbsent then s.stockIds
        else Function.update s.stockIds s.numUnique (find (stockKey (s.stockIds i) w))
      numUnique := s.numUnique + 1
      prevItem := s.stockIds i }

/-- The first `n` turns. -/
def translate (find : ℕ → ℕ) (w : ℕ) (stockIds : ℕ → ℕ) (n : ℕ) : Translating :=
  (List.range n).foldl (translateStep find w) ⟨stockIds, 0, 0⟩

/-- What `cub::WarpMergeSort` promises about sixteen threads with nineteen items each: it sorts the
    valid items. -/
def SortsAscending (warpSort : (ℕ → ℕ) → ℕ → ℕ → ℕ) : Prop :=
  ∀ a n, n ≤ 16 * 19 → ((List.range n).map (warpSort a n)).Pairwise (· ≤ ·) ∧
    ((List.range n).map (warpSort a n)).Perm ((List.range n).map a)

/-! ### What it is for -/

/-- The items of an order: of a loaded one those that the loader drew, of another those of its
    NewOrder. -/
inductive OrderItems (stride : ℕ) (items : ℕ → ℕ → ℕ) (txns : List TxnInput) (w d : ℕ) :
    ℕ → List ℕ → Prop
  | loaded {o : ℕ} (ho : 1 ≤ o ∧ o ≤ 3000) :
      OrderItems stride items txns w d o ((List.range 15).map (items (cacheIdx stride w d o)))
  | inserted {o c : ℕ} {its : List OrderItem} (h : .newOrder w d o c its ∈ txns) :
      OrderItems stride items txns w d o (its.map OrderItem.iId)

/-! ### Translation in place -/

/-- After `i` turns over a sorted array `a`: the records of its distinct items so far are in front,
    and nothing has changed behind them. -/
structure Translated (record a : ℕ → ℕ) (i : ℕ) (s : Translating) : Prop where
  le : s.numUnique ≤ i
  rest : ∀ j, s.numUnique ≤ j → s.stockIds j = a j
  prev : ∀ j, i = j + 1 → s.prevItem = a j
  items : ∃ us : List ℕ, us.Pairwise (· < ·) ∧ (∀ x, x ∈ us ↔ ∃ j < i, a j = x) ∧
    (List.range s.numUnique).map s.stockIds = us.map record

section
variable {find record a : ℕ → ℕ} {w n : ℕ}

theorem map_range_update (f : ℕ → ℕ) (n v : ℕ) :
    (List.range (n + 1)).map (Function.update f n v) = (List.range n).map f ++ [v] := by
  rw [List.range_succ, List.map_append, List.map_singleton, Function.update_self]
  congr 1
  refine List.map_congr_left fun j hj => ?_
  exact Function.update_of_ne (List.mem_range.mp hj).ne _ _

theorem translated_step {i : ℕ} {s : Translating} (hs : Translated record a i s)
    (hsorted : ∀ j k, j ≤ k → k ≤ i → a j ≤ a k) (hfind : find (stockKey (a i) w) = record (a i))
    (hpresent : record (a i) ≠ kAbsent) :
    Translated record a (i + 1) (translateStep find w s i) := by
  obtain ⟨us, hlt, hmem, hmap⟩ := hs.items
  have hread : s.stockIds i = a i := hs.rest i hs.le
  rw [translateStep, hread]
  split
  case isTrue hdup =>
    -- the item of the turn before, which has its record
    obtain ⟨j, rfl⟩ : ∃ j, i = j + 1 := ⟨i - 1, by omega⟩
    have heq : a (j + 1) = a j := hdup.2.trans (hs.prev j rfl)
    refine ⟨hs.le.trans (Nat.le_succ _), hs.rest, fun k hk => ?_, us, hlt, fun x => ?_, hmap⟩
    · obtain rfl := Nat.succ.inj hk
      exact hdup.2.symm
    · rw [hmem]
      constructor
      · rintro ⟨k, hk, rfl⟩
        exact ⟨k, by omega, rfl⟩
      · rintro ⟨k, hk, rfl⟩
        rcases Nat.lt_succ_iff_lt_or_eq.mp hk with hk | rfl
        · exact ⟨k, hk, rfl⟩
        · exact ⟨j, by omega, heq.symm⟩
  case isFalse hnew =>
    rw [hfind, if_neg hpresent]
    -- a new item is larger than all before it
    have hbelow : ∀ j < i, a j < a i := by
      rintro j hj
      refine lt_of_le_of_ne (hsorted j i hj.le le_rfl) fun heq => hnew ⟨by omega, ?_⟩
      obtain ⟨k, rfl⟩ : ∃ k, i = k + 1 := ⟨i - 1, by omega⟩
      rw [hs.prev k rfl]
      refine le_antisymm ?_ (hsorted k (k + 1) (Nat.le_succ k) le_rfl)
      exact heq.symm.trans_le (hsorted j k (by omega) (Nat.le_succ k))
    refine ⟨Nat.succ_le_succ hs.le, fun j hj => ?_, fun j hj => ?_, us ++ [a i], ?_, fun x => ?_,
      ?_⟩
    · have hne : j ≠ s.numUnique := (Nat.lt_of_succ_le hj).ne'
      exact (Function.update_of_ne hne _ _).trans (hs.rest j (Nat.le_of_succ_le hj))
    · rw [Nat.succ.inj hj]
    · refine List.pairwise_append.mpr ⟨hlt, List.pairwise_singleton _ _, fun x hx y hy => ?_⟩
      obtain ⟨j, hj, rfl⟩ := (hmem x).mp hx
      rw [List.mem_singleton.mp hy]
      exact hbelow j hj
    · rw [List.mem_append, hmem, List.mem_singleton]
      constructor
      · rintro (⟨j, hj, rfl⟩ | rfl)
        · exact ⟨j, by omega, rfl⟩
        · exact ⟨i, Nat.lt_succ_self i, rfl⟩
      · rintro ⟨j, hj, rfl⟩
        rcases Nat.lt_succ_iff_lt_or_eq.mp hj with hj | rfl
        · exact .inl ⟨j, hj, rfl⟩
        · exact .inr rfl
    · rw [map_range_update, hmap, List.map_append, List.map_singleton]

/-- The loop over the first `n` entries of a sorted array. -/
theorem translated_run (hsorted : ∀ j k, j ≤ k → k < n → a j ≤ a k)
    (hfind : ∀ j < n, find (stockKey (a j) w) = record (a j))
    (hpresent : ∀ j < n, record (a j) ≠ kAbsent) :
    ∀ i ≤ n, Translated record a i (translate find w a i) := by
  intro i
  induction i with
  | zero =>
    rintro -
    refine ⟨le_rfl, fun _ _ => rfl, fun j hj => by omega, [], List.Pairwise.nil, fun x => ?_, rfl⟩
    exact iff_of_false List.not_mem_nil fun ⟨j, hj, _⟩ => absurd hj (Nat.not_lt_zero j)
  | succ i ih =>
    rintro hi
    rw [translate, List.range_succ, List.foldl_append, List.foldl_cons, List.foldl_nil, ← translate]
    exact translated_step (ih (by omega)) (fun j k hjk hk => hsorted j k hjk (by omega))
      (hfind i hi) (hpresent i hi)

end

/-! ### Collection -/

/-- The entries in use are those of a list. -/
structure Collected.Holds (s : Collected) (l : List ℕ) : Prop where
  cnt : s.itemsCnt = l.length
  ids : (List.range l.length).map s.stockIds = l

section
variable {log : OrderLog} {l : List ℕ}

/-- The items that the arrays have for an order. -/
def OrderLog.order (log : OrderLog) (cacheIdx : ℕ) : List ℕ :=
  (List.range (log.numItems cacheIdx)).map (log.items cacheIdx)

theorem OrderLog.length_order (log : OrderLog) (cacheIdx : ℕ) :
    (log.order cacheIdx).length = log.numItems cacheIdx := by
  rw [OrderLog.order, List.length_map, List.length_range]

theorem Collected.Holds.collectOrder {s : Collected} (hs : s.Holds l) {idx : ℕ}
    (hn : log.numItems idx ≤ 15) (hfit : l.length + 15 < 2 ^ 32) :
    (Tpcc.collectOrder log idx s).Holds (l ++ log.order idx) := by
  have hlen : (l ++ log.order idx).length = l.length + log.numItems idx := by
    rw [List.length_append, OrderLog.length_order]
  refine ⟨?_, ?_⟩
  · rw [hlen, Tpcc.collectOrder, hs.cnt]
    exact Nat.mod_eq_of_lt (by omega)
  · refine List.ext_getElem? fun j => ?_
    rw [hlen, List.getElem?_map]
    rcases Nat.lt_or_ge j l.length with hj | hj
    · have hold : (Tpcc.collectOrder log idx s).stockIds j = s.stockIds j := by
        rw [Tpcc.collectOrder, hs.cnt]
        exact if_neg fun h => absurd h.1 (by omega)
      rw [List.getElem?_range (by omega), List.getElem?_append_left hj, Option.map_some, hold]
      conv_rhs => rw [← hs.ids]
      rw [List.getElem?_map, List.getElem?_range hj, Option.map_some]
    · rw [List.getElem?_append_right hj, OrderLog.order, List.getElem?_map]
      rcases Nat.lt_or_ge j (l.length + log.numItems idx) with hlt | hge
      · have hnew : (Tpcc.collectOrder log idx s).stockIds j = log.items idx (j - l.length) := by
          rw [Tpcc.collectOrder, hs.cnt]
          exact if_pos ⟨hj, by omega⟩
        rw [List.getElem?_range hlt, List.getElem?_range (by omega), Option.map_some,
          Option.map_some, hnew]
      · rw [List.getElem?_eq_none (by rw [List.length_range]; exact hge),
          List.getElem?_eq_none (by rw [List.length_range]; omega), Option.map_none,
          Option.map_none]

/-- The loop appends the orders above the bound, from the newest on. -/
theorem collectFrom_holds (cacheIdx : ℕ → ℕ) (bound o : ℕ) : ∀ {s : Collected} {l : List ℕ},
    s.Holds l → (∀ o', bound < o' → o' ≤ o → log.numItems (cacheIdx o') ≤ 15) →
    l.length + (o - bound) * 15 < 2 ^ 32 →
    (collectFrom log cacheIdx bound o s).Holds
      (l ++ (List.range (o - bound)).flatMap fun i => log.order (cacheIdx (o - i))) := by
  induction o with
  | zero =>
    rintro s l hs - -
    rwa [Nat.zero_sub, List.range_zero, List.flatMap_nil, List.append_nil]
  | succ o ih =>
    rintro s l hs hn hfit
    rw [collectFrom]
    split
    case isTrue hlt =>
      have hnew := hn (o + 1) hlt le_rfl
      have hlen : (l ++ log.order (cacheIdx (o + 1))).length ≤ l.length + 15 := by
        rw [List.length_append, OrderLog.length_order]
        omega
      have hcollect := ih (hs.collectOrder hnew (by omega))
        (fun o' hb ho' => hn o' hb (Nat.le_succ_of_le ho')) (by omega)
      rw [show o + 1 - bound = o - bound + 1 by omega, List.range_succ_eq_map, List.flatMap_cons,
        List.flatMap_map, ← List.append_assoc]
      refine Eq.mp ?_ hcollect
      congr 2
      refine List.flatMap_congr fun i hi => ?_
      rw [Nat.succ_sub_succ]
    case isFalse hge =>
      rwa [show o + 1 - bound = 0 by omega, List.range_zero, List.flatMap_nil, List.append_nil]

end

/-! ### The stock index -/

/-- The record of an item's stock in warehouse `w`. -/
def stockRecord (W w i : ℕ) : ℕ := (staticIndex W .stock).find (stockKey i w)

section
variable {W w : ℕ}

theorem stockRecord_eq (i : ℕ) :
    stockRecord W w i = (loadCuco (stockKeys W)).lookup (stockKey i w) := by
  rw [loadCuco_lookup]
  rfl

theorem stockRecord_present (hW : W * 100000 < 2 ^ 32) (hw : 1 ≤ w ∧ w ≤ W) {i : ℕ}
    (hi : 1 ≤ i ∧ i ≤ 100000) : stockRecord W w i ≠ kAbsent := by
  rw [stockRecord_eq]
  refine loadCuco_present ?_ (mem_stockKeys hi hw)
  rw [length_stockKeys, kAbsent]
  omega

/-- Items of a warehouse have different stock records. -/
theorem stockRecord_inj (hW : W * 100000 < 2 ^ 32) (hw : 1 ≤ w ∧ w ≤ W) {i i' : ℕ}
    (hi : 1 ≤ i ∧ i ≤ 100000) (hi' : 1 ≤ i' ∧ i' ≤ 100000)
    (h : stockRecord W w i = stockRecord W w i') : i = i' := by
  have hne := stockRecord_present hW hw hi
  rw [stockRecord_eq] at hne
  rw [stockRecord_eq, stockRecord_eq] at h
  have hkey := loadCuco_inj hne h
  simp only [stockKey] at hkey
  omega

end

/-! ### One StockLevel -/

section
variable (cfg : Config) (warpSort : (ℕ → ℕ) → ℕ → ℕ → ℕ) (log : OrderLog) (w d o : ℕ)
  (stockIds : ℕ → ℕ)

/-- `sl_txn_ptr->num_items`. -/
def itemsCnt : ℕ := (collectItems cfg log w d o stockIds).itemsCnt

/-- `stock_ids` after the sort. -/
def sortedItems : ℕ → ℕ :=
  warpSort (collectItems cfg log w d o stockIds).stockIds (itemsCnt cfg log w d o stockIds)

/-- The parameters after `n` turns of `indexTpccTxn`. -/
def indexStockLevel (n : ℕ) : Translating :=
  translate (staticIndex cfg.numWarehouses .stock).find w
    (sortedItems cfg warpSort log w d o stockIds) n

/-- The stock records of the distinct items of the last twenty orders, each once, no more than the
    plan has room for, and read before they were overwritten. -/
structure StockLevelOk (orderItems : ℕ → List ℕ → Prop) : Prop where
  nodup : ((List.range (indexStockLevel cfg warpSort log w d o stockIds
    (itemsCnt cfg log w d o stockIds)).numUnique).map
    (indexStockLevel cfg warpSort log w d o stockIds (itemsCnt cfg log w d o stockIds)).stockIds).Nodup
  records : ∀ r, r ∈ (List.range (indexStockLevel cfg warpSort log w d o stockIds
      (itemsCnt cfg log w d o stockIds)).numUnique).map
      (indexStockLevel cfg warpSort log w d o stockIds (itemsCnt cfg log w d o stockIds)).stockIds ↔
    ∃ o' l i, o < o' + 20 ∧ o' ≤ o ∧ orderItems o' l ∧ i ∈ l ∧ stockRecord cfg.numWarehouses w i = r
  numItems : (indexStockLevel cfg warpSort log w d o stockIds
    (itemsCnt cfg log w d o stockIds)).numUnique ≤ 300
  intact : ∀ i < itemsCnt cfg log w d o stockIds,
    (indexStockLevel cfg warpSort log w d o stockIds i).stockIds i =
      sortedItems cfg warpSort log w d o stockIds i

end

section
variable {cfg : Config} {warpSort : (ℕ → ℕ) → ℕ → ℕ → ℕ} {log : OrderLog} {w d o : ℕ}
  {stockIds : ℕ → ℕ}

/-- The entries collected are the items that the arrays have for the last twenty orders. -/
theorem collectItems_holds (h20 : 20 ≤ o) (ho : o < 2 ^ 32)
    (hn : ∀ o', o < o' + 20 → o' ≤ o → log.numItems (auxSlot cfg w d o') ≤ 15) :
    (collectItems cfg log w d o stockIds).Holds
      ((List.range 20).flatMap fun i => log.order (auxSlot cfg w d (o - i))) := by
  have hbound : (o + 2 ^ 32 - 20) % 2 ^ 32 = o - 20 := by omega
  have hholds := collectFrom_holds (auxSlot cfg w d) (o - 20) o
    (show (Collected.mk stockIds 0).Holds [] from ⟨rfl, rfl⟩)
    (fun o' hb ho' => hn o' (by omega) ho') (by rw [List.length_nil]; omega)
  rw [collectItems, hbound]
  rwa [List.nil_append, show o - (o - 20) = 20 by omega] at hholds

theorem length_flatMap_le {α : Type} (f : ℕ → List α) (n : ℕ) {k : ℕ}
    (hf : ∀ i < n, (f i).length ≤ k) : ((List.range n).flatMap f).length ≤ n * k := by
  induction n with
  | zero => exact Nat.zero_le _
  | succ n ih =>
    rw [List.range_succ, List.flatMap_append, List.length_append, List.flatMap_singleton,
      Nat.succ_mul]
    exact Nat.add_le_add (ih fun i hi => hf i (Nat.lt_succ_of_lt hi)) (hf n (Nat.lt_succ_self n))

/-- An item is among those collected when it is in one of the last twenty orders. -/
theorem mem_window {x : ℕ} (h20 : 20 ≤ o) :
    x ∈ ((List.range 20).flatMap fun i => log.order (auxSlot cfg w d (o - i))) ↔
      ∃ o', o < o' + 20 ∧ o' ≤ o ∧ x ∈ log.order (auxSlot cfg w d o') := by
  rw [List.mem_flatMap]
  constructor
  · rintro ⟨i, hi, hx⟩
    rw [List.mem_range] at hi
    exact ⟨o - i, by omega, by omega, hx⟩
  · rintro ⟨o', hlt, hle, hx⟩
    refine ⟨o - o', List.mem_range.mpr (by omega), ?_⟩
    rwa [Nat.sub_sub_self hle]

/-- What the parameters of a StockLevel have, in terms of the arrays of the auxiliary index. -/
structure Indexed (cfg : Config) (log : OrderLog) (w d o cnt : ℕ) (sorted : ℕ → ℕ)
    (run : ℕ → Translating) : Prop where
  cnt_le : cnt ≤ 300
  window : ∀ x, (∃ j < cnt, sorted j = x) ↔
    ∃ o', o < o' + 20 ∧ o' ≤ o ∧ x ∈ log.order (auxSlot cfg w d o')
  translated : ∀ i ≤ cnt, Translated (stockRecord cfg.numWarehouses w) sorted i (run i)

theorem indexStockLevel_spec (hsort : SortsAscending warpSort)
    (hW : cfg.numWarehouses * 100000 < 2 ^ 32) (hw : 1 ≤ w ∧ w ≤ cfg.numWarehouses) (h20 : 20 ≤ o)
    (ho : o < 2 ^ 32)
    (hn : ∀ o', o < o' + 20 → o' ≤ o → log.numItems (auxSlot cfg w d o') ≤ 15)
    (hids : ∀ o', o < o' + 20 → o' ≤ o → ∀ i ∈ log.order (auxSlot cfg w d o'), 1 ≤ i ∧ i ≤ 100000) :
    Indexed cfg log w d o (itemsCnt cfg log w d o stockIds)
      (sortedItems cfg warpSort log w d o stockIds)
      (indexStockLevel cfg warpSort log w d o stockIds) := by
  obtain ⟨hcnt, hcollected⟩ : (collectItems cfg log w d o stockIds).Holds _ :=
    collectItems_holds h20 ho hn
  have hlen : itemsCnt cfg log w d o stockIds ≤ 300 := by
    rw [itemsCnt, hcnt]
    refine length_flatMap_le (k := 15) _ 20 fun i hi => ?_
    rw [OrderLog.length_order]
    exact hn (o - i) (by omega) (Nat.sub_le _ _)
  obtain ⟨hpw, hperm⟩ : ((List.range (itemsCnt cfg log w d o stockIds)).map
      (sortedItems cfg warpSort log w d o stockIds)).Pairwise (· ≤ ·) ∧
      ((List.range (itemsCnt cfg log w d o stockIds)).map
        (sortedItems cfg warpSort log w d o stockIds)).Perm
      ((List.range (itemsCnt cfg log w d o stockIds)).map
        (collectItems cfg log w d o stockIds).stockIds) := hsort _ _ (by omega)
  have hwindow : ∀ x, (∃ j < itemsCnt cfg log w d o stockIds,
      sortedItems cfg warpSort log w d o stockIds j = x) ↔
      ∃ o', o < o' + 20 ∧ o' ≤ o ∧ x ∈ log.order (auxSlot cfg w d o') := by
    rintro x
    rw [← mem_window h20, ← hcollected, ← hcnt, ← itemsCnt, ← hperm.mem_iff, List.mem_map]
    simp only [List.mem_range]
  have hvalid : ∀ j < itemsCnt cfg log w d o stockIds,
      1 ≤ sortedItems cfg warpSort log w d o stockIds j ∧
        sortedItems cfg warpSort log w d o stockIds j ≤ 100000 := by
    rintro j hj
    obtain ⟨o', hlt, hle, hx⟩ := (hwindow _).mp ⟨j, hj, rfl⟩
    exact hids o' hlt hle _ hx
  refine ⟨hlen, hwindow, translated_run (fun j k hjk hk => ?_) (fun _ _ => rfl)
    fun j hj => stockRecord_present hW hw (hvalid j hj)⟩
  rcases Nat.eq_or_lt_of_le hjk with rfl | hlt
  · exact le_rfl
  · have hle := List.pairwise_iff_getElem.mp hpw j k
      (by rw [List.length_map, List.length_range]; omega)
      (by rw [List.length_map, List.length_range]; exact hk) hlt
    rwa [List.getElem_map, List.getElem_map, List.getElem_range, List.getElem_range] at hle

/-- The items of the last twenty orders are what the parameters have, when the arrays have them. -/
theorem Indexed.ok {orderItems : ℕ → List ℕ → Prop}
    (hi : Indexed cfg log w d o (itemsCnt cfg log w d o stockIds)
      (sortedItems cfg warpSort log w d o stockIds)
      (indexStockLevel cfg warpSort log w d o stockIds))
    (hW : cfg.numWarehouses * 100000 < 2 ^ 32) (hw : 1 ≤ w ∧ w ≤ cfg.numWarehouses)
    (hids : ∀ o', o < o' + 20 → o' ≤ o → ∀ i ∈ log.order (auxSlot cfg w d o'), 1 ≤ i ∧ i ≤ 100000)
    (horder : ∀ o', o < o' + 20 → o' ≤ o → ∀ i,
      i ∈ log.order (auxSlot cfg w d o') ↔ ∃ l, orderItems o' l ∧ i ∈ l) :
    StockLevelOk cfg warpSort log w d o stockIds orderItems := by
  obtain ⟨hle, -, -, us, hlt, hmem, hmap⟩ := hi.translated _ le_rfl
  have hvalid : ∀ x ∈ us, 1 ≤ x ∧ x ≤ 100000 := by
    rintro x hx
    obtain ⟨o', hlt, hle, hx⟩ := (hi.window x).mp ((hmem x).mp hx)
    exact hids o' hlt hle x hx
  refine ⟨?_, fun r => ?_, hle.trans hi.cnt_le, fun i hi' => ?_⟩
  · rw [hmap]
    refine List.Nodup.map_on (fun x hx y hy h => ?_) (hlt.imp fun h => h.ne)
    exact stockRecord_inj hW hw (hvalid x hx) (hvalid y hy) h
  · rw [hmap, List.mem_map]
    constructor
    · rintro ⟨x, hx, rfl⟩
      obtain ⟨o', hlt, hle, hx⟩ := (hi.window x).mp ((hmem x).mp hx)
      obtain ⟨l, hl, hxl⟩ := (horder o' hlt hle x).mp hx
      exact ⟨o', l, x, hlt, hle, hl, hxl, rfl⟩
    · rintro ⟨o', l, x, hlt, hle, hl, hxl, rfl⟩
      refine ⟨x, (hmem x).mpr ((hi.window x).mpr ⟨o', hlt, hle, ?_⟩), rfl⟩
      exact (horder o' hlt hle x).mpr ⟨l, hl, hxl⟩
  · have hstep := hi.translated i hi'.le
    exact hstep.rest i hstep.le

end

/-! ### What the arrays have for an order -/

section
variable {cfg : Config} {txns : List TxnInput} {items : ℕ → ℕ → ℕ} {w d o : ℕ}

/-- Every loaded order has fifteen items in its slot, also where that is the next district's. -/
theorem initialLog_order {stride W : ℕ} (hw : 1 ≤ w ∧ w ≤ W) (hd : 1 ≤ d ∧ d ≤ 10)
    (ho : 1 ≤ o ∧ o ≤ 3000) : (initialLog stride W items).order (cacheIdx stride w d o) =
      (List.range 15).map (items (cacheIdx stride w d o)) := by
  have hx : (⟨w, d, o, o⟩ : CustomerOrder) ∈ loadedOrders W :=
    mem_loadedOrders.mpr ⟨⟨hw, hd, ho⟩, rfl⟩
  have hnum : (initialLog stride W items).numItems (cacheIdx stride w d o) = 15 := by
    rw [initialLog_eq]
    refine Lib.writeAll_of_agree _ (fun v hv _ => ?_)
      (List.mem_map.mpr ⟨_, List.mem_map_of_mem hx, rfl⟩)
    obtain ⟨y, -, rfl⟩ := List.mem_map.mp hv
    rfl
  rw [OrderLog.order, hnum, initialLog_items]

/-- The arrays of the index have the items of every order in its slot. -/
theorem order_of_log {stride W : ℕ} {log : OrderLog} (hp : OrdersPlaced stride txns)
    (hbase : ∀ {w d o c its}, .newOrder w d o c its ∈ txns → 3000 < o)
    (hlog : LogOf stride txns (initialLog stride W items) log) (hw : 1 ≤ w ∧ w ≤ W)
    (hd : 1 ≤ d ∧ d ≤ 10) {l : List ℕ} (hl : OrderItems stride items txns w d o l) :
    log.order (cacheIdx stride w d o) = l := by
  cases hl with
  | loaded ho =>
    have hother : ∀ {w' d' o' c its}, .newOrder w' d' o' c its ∈ txns →
        cacheIdx stride w' d' o' ≠ cacheIdx stride w d o := by
      rintro w' d' o' c its hmem heq
      obtain ⟨hw', hd', ho'⟩ := hp.order hmem
      have hlt := hbase hmem
      have := cacheIdx_inj hw' hd' ho' hw.1 hd (show o < stride by omega) heq
      omega
    obtain ⟨hnum, -, hits⟩ := hlog.other hother
    rw [OrderLog.order, hnum, hits]
    exact initialLog_order hw hd ho
  | @inserted c its hmem =>
    obtain ⟨hnum, -, hits⟩ := hlog.order hmem
    rw [OrderLog.order, hnum]
    refine List.ext_getElem? fun j => ?_
    rw [List.getElem?_map, List.getElem?_map]
    rcases Nat.lt_or_ge j its.length with hj | hj
    · have hget := List.getElem?_eq_getElem hj
      rw [List.getElem?_range hj, hget, Option.map_some, Option.map_some, hits j _ hget]
    · rw [List.getElem?_eq_none hj, List.getElem?_eq_none (by rwa [List.length_range]),
        Option.map_none, Option.map_none]

theorem allocated_order {numSlots idx : ℕ} {past log : OrderLog} :
    (log.allocated numSlots past).order idx =
      if idx < numSlots then log.order idx else past.order idx := by
  split
  case isTrue h => simp only [OrderLog.order, OrderLog.allocated, if_pos h]
  case isFalse h => simp only [OrderLog.order, OrderLog.allocated, if_neg h]

end

/-! ### Generated StockLevels -/

/-- A transaction of a run was generated from the state that the draws before it left. -/
theorem generated_prefix (draws : List Draw) : ∀ {l₁ l₂ : List TxnInput} {t : TxnInput},
    (generateTxns draws).1 = l₁ ++ t :: l₂ → ∃ ds x, ds ++ [x] <+: draws ∧
      (generateTxns ds).1 = l₁ ∧ t = (generateTxn (generateTxns ds).2 l₁.length x).1 := by
  induction draws using List.reverseRecOn with
  | nil =>
    rintro l₁ l₂ t h
    cases l₁ <;> cases h
  | append_singleton draws x ih =>
    rintro l₁ l₂ t h
    rw [generateTxns, List.foldl_append, List.foldl_cons, List.foldl_nil, ← generateTxns,
      generateStep] at h
    rcases List.eq_nil_or_concat l₂ with rfl | ⟨l₂', u, rfl⟩
    · obtain ⟨hl, ht⟩ := List.append_inj' h rfl
      refine ⟨draws, x, List.prefix_rfl, hl, ?_⟩
      rw [← hl]
      exact (List.cons.inj ht).1.symm
    · rw [List.concat_eq_append, ← List.cons_append, ← List.append_assoc] at h
      obtain ⟨hl, -⟩ := List.append_inj' h rfl
      obtain ⟨ds, y, hpre, hl₁, ht⟩ := ih hl
      exact ⟨ds, y, hpre.trans (List.prefix_append _ _), hl₁, ht⟩

/-- The bound of a StockLevel is the newest order generated before it. -/
theorem stockLevel_bound {draws : List Draw} {W : ℕ} (hr : ∀ x ∈ draws, x.InRange W)
    {l₁ l₂ : List TxnInput} {w d o threshold : ℕ}
    (h : (generateTxns draws).1 = l₁ ++ .stockLevel w d o threshold :: l₂) :
    ((1 ≤ w ∧ w ≤ W) ∧ 1 ≤ d ∧ d ≤ 10) ∧ 3000 ≤ o ∧
      ∀ o', (∃ t ∈ l₁, t.Inserts w d o') ↔ 3000 < o' ∧ o' ≤ o := by
  obtain ⟨ds, x, hpre, rfl, ht⟩ := generated_prefix draws h
  have hx : x.InRange W := hr x (hpre.subset (List.mem_append_right _ (List.mem_singleton_self x)))
  have hds : ∀ y ∈ ds, y.InRange W := fun y hy => hr y (hpre.subset (List.mem_append_left _ hy))
  cases x with
  | stockLevel w' d' threshold' =>
    obtain ⟨rfl, rfl, rfl, -⟩ := TxnInput.stockLevel.inj ht
    have hwd : (1 ≤ w ∧ w ≤ W) ∧ 1 ≤ d ∧ d ≤ 10 := hx
    have hc := counted_run hds
    refine ⟨hwd, hc.base _ _, fun o' => ?_⟩
    have hins := hc.inserted (w - 1) (d - 1) o'
    rwa [Nat.sub_add_cancel hwd.1.1, Nat.sub_add_cancel hwd.2.1] at hins
  | newOrder | payment | orderStatus | delivery => exact absurd ht (by simp [generateTxn])

/-- The item ids that `i_id_dist` can draw. -/
def Draw.ItemsExist : Draw → Prop
  | .newOrder _ _ _ its => ∀ y ∈ its, 1 ≤ y.iId ∧ y.iId ≤ 100000
  | _ => True

section
variable {cfg : Config} {draws : List Draw} {items : ℕ → ℕ → ℕ} {mem : ℕ → ℕ}
  (hr : ∀ x ∈ draws, x.InRange cfg.numWarehouses)
include hr

theorem ordersPlaced_run (hguard : guardPasses cfg (generateTxns draws).1 = true)
    {txns : List TxnInput} (hsub : txns ⊆ (generateTxns draws).1) :
    OrdersPlaced cfg.auxNumSlotsPerDistrict txns := by
  have hpw : (generateTxns draws).1.Pairwise OtherOrder :=
    (counted_run hr).once.imp fun h w d o => (h w d o).1
  refine ⟨fun {w d o c its} hmem => ?_,
    fun hmem hmem' => once_of_pairwise hpw (hsub hmem) (hsub hmem')⟩
  have hins : (TxnInput.newOrder w d o c its).Inserts w d o := ⟨rfl, rfl, rfl⟩
  obtain ⟨⟨hw, -⟩, hd⟩ := inRange_run hr (hsub hmem) (inserts_carries hins)
  exact ⟨hw, hd, inserted_lt_aux hguard (hsub hmem) hins⟩

theorem newOrder_run {w d o c : ℕ} {its : List OrderItem}
    (hmem : .newOrder w d o c its ∈ (generateTxns draws).1) :
    3000 < o ∧ its.length ≤ 15 ∧
      ((∀ x ∈ draws, x.ItemsExist) → ∀ y ∈ its, 1 ≤ y.iId ∧ y.iId ≤ 100000) := by
  have hins : (TxnInput.newOrder w d o c its).Inserts w d o := ⟨rfl, rfl, rfl⟩
  obtain ⟨⟨hw, -⟩, hd, -⟩ := inRange_run hr hmem (inserts_carries hins)
  have hbase := (counted_run hr).inserted (w - 1) (d - 1) o
  rw [Nat.sub_add_cancel hw, Nat.sub_add_cancel hd] at hbase
  obtain ⟨g, ts, x, hx, ht⟩ := mem_generateTxns hmem
  have hrange := hr x hx
  refine ⟨(hbase.mp ⟨_, hmem, hins⟩).1, ?_⟩
  cases x with
  | newOrder w' d' c' its' =>
    obtain ⟨-, -, -, -, rfl⟩ := TxnInput.newOrder.inj ht
    exact ⟨hrange.2.2.2, fun hall => hall _ hx⟩
  | payment | orderStatus | delivery | stockLevel => exact absurd ht (by simp [generateTxn])

end

/-- A StockLevel of a run that the guard lets through, at its query: the epochs up to its own have
    been inserted. Slot numbers and record ids are 32-bit numbers that do not wrap. -/
structure StockLevelRun (cfg : Config) (draws : List Draw) (items : ℕ → ℕ → ℕ)
    (epochs : List (List TxnInput)) (epoch rest : List TxnInput) (w d o threshold : ℕ) : Prop where
  inRange : ∀ x ∈ draws, x.InRange cfg.numWarehouses
  itemsExist : ∀ x ∈ draws, x.ItemsExist
  loaded : ∀ w d o j, (1 ≤ w ∧ w ≤ cfg.numWarehouses) → (1 ≤ d ∧ d ≤ 10) → (1 ≤ o ∧ o ≤ 3000) →
    j < 15 → 1 ≤ items (cacheIdx cfg.auxNumSlotsPerDistrict w d o) j ∧
      items (cacheIdx cfg.auxNumSlotsPerDistrict w d o) j ≤ 100000
  guard : guardPasses cfg (generateTxns draws).1 = true
  slots : cfg.auxNumSlotsPerDistrict * cfg.numWarehouses * 10 < 2 ^ 32
  records : cfg.numWarehouses * 100000 < 2 ^ 32
  run : (epochs ++ [epoch]).flatten ++ rest = (generateTxns draws).1
  mem : .stockLevel w d o threshold ∈ epoch

section
variable {cfg : Config} {draws : List Draw} {items : ℕ → ℕ → ℕ} {epochs : List (List TxnInput)}
  {epoch rest : List TxnInput} {w d o threshold : ℕ} {mem : ℕ → ℕ} {past : OrderLog}
  (hrun : StockLevelRun cfg draws items epochs epoch rest w d o threshold)

/-- The transactions inserted at the query. -/
abbrev history (epochs : List (List TxnInput)) (epoch : List TxnInput) : List TxnInput :=
  (epochs ++ [epoch]).flatten

/-- Memory in which every slot looks like an order of the one item `x`. -/
def onePast (x : ℕ) : OrderLog := ⟨fun _ => 1, fun _ => 0, fun _ _ => x⟩

/-- The device arrays at the query. -/
def queryLog (cfg : Config) (items : ℕ → ℕ → ℕ) (mem : ℕ → ℕ) (past : OrderLog)
    (epochs : List (List TxnInput)) : OrderLog :=
  (FlatAux.run cfg.auxNumSlotsPerDistrict cfg.numWarehouses items mem epochs).log.allocated
    (auxNumSlots cfg) past

include hrun

theorem StockLevelRun.sub : history epochs epoch ⊆ (generateTxns draws).1 := by
  rw [← hrun.run]
  exact List.subset_append_left _ _

/-- The district exists, the loader's orders are below the bound, and every order up to the bound is
    in the history. -/
theorem StockLevelRun.bound :
    ((1 ≤ w ∧ w ≤ cfg.numWarehouses) ∧ 1 ≤ d ∧ d ≤ 10) ∧ 3000 ≤ o ∧
      ∀ o', 3000 < o' → o' ≤ o → ∃ c its, .newOrder w d o' c its ∈ history epochs epoch := by
  obtain ⟨l₁, l₂, hsplit⟩ := List.append_of_mem hrun.mem
  have hgen : (generateTxns draws).1 =
      (epochs.flatten ++ l₁) ++ .stockLevel w d o threshold :: (l₂ ++ rest) := by
    rw [← hrun.run, hsplit, List.flatten_append, List.flatten_singleton]
    simp only [List.append_assoc, List.cons_append]
  obtain ⟨hwd, h3000, hins⟩ := stockLevel_bound hrun.inRange hgen
  refine ⟨hwd, h3000, fun o' hlt hle => ?_⟩
  obtain ⟨t, ht, hti⟩ := (hins o').mpr ⟨hlt, hle⟩
  have hmem : t ∈ history epochs epoch := by
    rw [history, List.flatten_append, List.flatten_singleton, hsplit, ← List.append_assoc]
    exact List.mem_append_left _ ht
  cases t with
  | newOrder w' d' n c its =>
    obtain ⟨rfl, rfl, rfl⟩ := hti
    exact ⟨c, its, hmem⟩
  | payment | orderStatus | delivery | stockLevel => exact hti.elim

/-- The bound is a slot of its district, or the first of the next when it has 3000 slots. -/
theorem StockLevelRun.bound_lt : o < cfg.auxNumSlotsPerDistrict ∨
    cfg.auxNumSlotsPerDistrict = 3000 ∧ o = 3000 := by
  obtain ⟨-, h3000, hins⟩ := hrun.bound
  have hA : 3000 ≤ cfg.auxNumSlotsPerDistrict := Nat.le_add_left _ _
  rcases Nat.eq_or_lt_of_le h3000 with rfl | hlt
  · omega
  · obtain ⟨c, its, hmem⟩ := hins o hlt le_rfl
    exact .inl ((ordersPlaced_run hrun.inRange hrun.guard hrun.sub).order hmem).2.2

theorem StockLevelRun.orderItems {o' : ℕ} (hlt : o < o' + 20) (hle : o' ≤ o) :
    ∃ l, OrderItems cfg.auxNumSlotsPerDistrict items (history epochs epoch) w d o' l := by
  obtain ⟨-, h3000, hins⟩ := hrun.bound
  rcases Nat.lt_or_ge 3000 o' with ho' | ho'
  · obtain ⟨c, its, hmem⟩ := hins o' ho' hle
    exact ⟨_, .inserted hmem⟩
  · exact ⟨_, .loaded ⟨by omega, ho'⟩⟩

theorem StockLevelRun.items_le {o' : ℕ} {l : List ℕ}
    (hl : OrderItems cfg.auxNumSlotsPerDistrict items (history epochs epoch) w d o' l) :
    l.length ≤ 15 ∧ ∀ i ∈ l, 1 ≤ i ∧ i ≤ 100000 := by
  obtain ⟨⟨hw, hd⟩, -⟩ := hrun.bound
  cases hl with
  | loaded ho =>
    refine ⟨by rw [List.length_map, List.length_range], fun i hi => ?_⟩
    obtain ⟨j, hj, rfl⟩ := List.mem_map.mp hi
    exact hrun.loaded w d o' j hw hd ho (List.mem_range.mp hj)
  | inserted hmem =>
    obtain ⟨-, hlen, hits⟩ := newOrder_run hrun.inRange (hrun.sub hmem)
    refine ⟨by rwa [List.length_map], fun i hi => ?_⟩
    obtain ⟨y, hy, rfl⟩ := List.mem_map.mp hi
    exact hits hrun.itemsExist y hy

/-- The slot of an order up to the bound, and whether it is inside the arrays. -/
theorem StockLevelRun.slot {o' : ℕ} (hle : o' ≤ o) :
    auxSlot cfg w d o' = cacheIdx cfg.auxNumSlotsPerDistrict w d o' ∧
      (cacheIdx cfg.auxNumSlotsPerDistrict w d o' < auxNumSlots cfg ↔
        ¬ (o' = cfg.auxNumSlotsPerDistrict ∧ w = cfg.numWarehouses ∧ d = 10)) := by
  obtain ⟨⟨hw, hd⟩, -⟩ := hrun.bound
  have hslots := hrun.slots
  have hA : o' ≤ cfg.auxNumSlotsPerDistrict := by
    rcases hrun.bound_lt with h | ⟨h, h'⟩ <;> omega
  have hpos : 0 < cfg.auxNumSlotsPerDistrict :=
    Nat.lt_of_lt_of_le (by omega) (Nat.le_add_left 3000 _)
  have hid : districtId w d + 1 ≤ cfg.numWarehouses * 10 := by
    rw [districtId]
    omega
  have hlast : districtId w d + 1 = cfg.numWarehouses * 10 ↔ w = cfg.numWarehouses ∧ d = 10 := by
    rw [districtId]
    omega
  rw [auxSlot, auxNumSlots, Nat.mod_eq_of_lt hslots, ← districtId, ← cacheIdx]
  rw [Nat.mul_assoc, Nat.mul_comm] at hslots ⊢
  rw [cacheIdx, ← hlast]
  generalize cfg.auxNumSlotsPerDistrict = A at *
  generalize districtId w d = k at *
  generalize cfg.numWarehouses * 10 = n at *
  have hmul := Nat.mul_le_mul_right A hid
  rw [Nat.succ_mul] at hmul
  refine ⟨Nat.mod_eq_of_lt (by omega), ?_⟩
  rcases Nat.eq_or_lt_of_le hid with heq | hlt
  · rw [← heq, Nat.succ_mul]
    omega
  · have hmul' := Nat.mul_le_mul_right A (Nat.succ_le_of_lt hlt)
    rw [Nat.succ_mul, Nat.succ_mul] at hmul'
    omega

/-- Inside the arrays an order has its items. -/
theorem StockLevelRun.order {o' : ℕ} {l : List ℕ} (hle : o' ≤ o)
    (hin : ¬ (o' = cfg.auxNumSlotsPerDistrict ∧ w = cfg.numWarehouses ∧ d = 10))
    (hl : OrderItems cfg.auxNumSlotsPerDistrict items (history epochs epoch) w d o' l) :
    (queryLog cfg items mem past (epochs ++ [epoch])).order (auxSlot cfg w d o') = l := by
  obtain ⟨⟨hw, hd⟩, -⟩ := hrun.bound
  obtain ⟨hslot, hlt⟩ := hrun.slot hle
  have hplaced := ordersPlaced_run hrun.inRange hrun.guard hrun.sub
  rw [queryLog, allocated_order, hslot, if_pos (hlt.mpr hin), flatAux_run_log]
  exact order_of_log hplaced (fun hmem => (newOrder_run hrun.inRange (hrun.sub hmem)).1)
    (insertAll_logOf hplaced) hw hd hl

/-- Behind the arrays it has what is there. -/
theorem StockLevelRun.order_past (mem : ℕ → ℕ) (past : OrderLog) (hA : cfg.auxNumSlotsPerDistrict = 3000)
    (hlast : w = cfg.numWarehouses ∧ d = 10) : o = 3000 ∧
    (queryLog cfg items mem past (epochs ++ [epoch])).order (auxSlot cfg w d 3000) =
      past.order (auxSlot cfg w d 3000) := by
  have ho : o = 3000 := by
    obtain ⟨-, h3000, -⟩ := hrun.bound
    rcases hrun.bound_lt with h | ⟨-, h⟩ <;> omega
  obtain ⟨hslot, hlt⟩ := hrun.slot ho.ge
  refine ⟨ho, ?_⟩
  rw [queryLog, allocated_order, if_neg]
  rw [hslot, hlt]
  exact not_not.mpr ⟨hA.symm, hlast⟩

/-- With arrays that have no more than the items that exist, the parameters are as they should be
    relative to the arrays. -/
theorem StockLevelRun.indexed {warpSort : (ℕ → ℕ) → ℕ → ℕ → ℕ} (hsort : SortsAscending warpSort)
    (stockIds : ℕ → ℕ) (log : OrderLog)
    (hlen : ∀ o', o < o' + 20 → o' ≤ o → (log.order (auxSlot cfg w d o')).length ≤ 15 ∧
      ∀ i ∈ log.order (auxSlot cfg w d o'), 1 ≤ i ∧ i ≤ 100000) :
    Indexed cfg log w d o (itemsCnt cfg log w d o stockIds)
      (sortedItems cfg warpSort log w d o stockIds)
      (indexStockLevel cfg warpSort log w d o stockIds) := by
  obtain ⟨⟨hw, -⟩, h3000, -⟩ := hrun.bound
  have hslots := hrun.slots
  have hA : cfg.auxNumSlotsPerDistrict < 2 ^ 32 := by
    refine Nat.lt_of_le_of_lt ?_ hslots
    rw [Nat.mul_assoc]
    exact Nat.le_mul_of_pos_right _ (by omega)
  have ho : o < 2 ^ 32 := by
    rcases hrun.bound_lt with h | ⟨-, h⟩ <;> omega
  refine indexStockLevel_spec hsort hrun.records hw (by omega) ho (fun o' hlt hle => ?_)
    fun o' hlt hle => (hlen o' hlt hle).2
  rw [← OrderLog.length_order]
  exact (hlen o' hlt hle).1

/-- An item that none of the last twenty loaded orders has. -/
theorem StockLevelRun.exists_other (ho : o = 3000) : ∃ x, (1 ≤ x ∧ x ≤ 100000) ∧
    ∀ o' l, o < o' + 20 → o' ≤ o →
      OrderItems cfg.auxNumSlotsPerDistrict items (history epochs epoch) w d o' l → x ∉ l := by
  have hlen : ((List.range 20).flatMap fun i => (List.range 15).map
      (items (cacheIdx cfg.auxNumSlotsPerDistrict w d (o - i)))).length ≤ 20 * 15 :=
    length_flatMap_le _ 20 fun i _ => by rw [List.length_map, List.length_range]
  have hcard := List.toFinset_card_le ((List.range 20).flatMap fun i => (List.range 15).map
    (items (cacheIdx cfg.auxNumSlotsPerDistrict w d (o - i))))
  obtain ⟨x, hx, hno⟩ := Finset.exists_mem_notMem_of_card_lt_card (s := ((List.range 20).flatMap
    fun i => (List.range 15).map (items (cacheIdx cfg.auxNumSlotsPerDistrict w d (o - i)))).toFinset)
    (t := Finset.Icc 1 100000) (by rw [Nat.card_Icc]; omega)
  refine ⟨x, Finset.mem_Icc.mp hx, fun o' l hlt hle hl hxl => ?_⟩
  cases hl with
  | loaded ho' =>
    refine hno (List.mem_toFinset.mpr (List.mem_flatMap.mpr ⟨o - o', ?_, ?_⟩))
    · rw [List.mem_range]
      omega
    · rwa [Nat.sub_sub_self hle]
  | inserted hmem =>
    have := (newOrder_run hrun.inRange (hrun.sub hmem)).1
    omega

/-- With the arrays of the last district full, an item behind them becomes one of order 3000. -/
theorem StockLevelRun.not_ok (mem : ℕ → ℕ) {warpSort : (ℕ → ℕ) → ℕ → ℕ → ℕ} (hsort : SortsAscending warpSort)
    (stockIds : ℕ → ℕ) (hA : cfg.auxNumSlotsPerDistrict = 3000)
    (hlast : w = cfg.numWarehouses ∧ d = 10) {x : ℕ} (hx : 1 ≤ x ∧ x ≤ 100000)
    (hother : ∀ o' l, o < o' + 20 → o' ≤ o →
      OrderItems cfg.auxNumSlotsPerDistrict items (history epochs epoch) w d o' l → x ∉ l) :
    ¬ StockLevelOk cfg warpSort (queryLog cfg items mem (onePast x) (epochs ++ [epoch])) w d o
      stockIds (OrderItems cfg.auxNumSlotsPerDistrict items (history epochs epoch) w d) := by
  rintro hok
  obtain ⟨⟨hw, -⟩, -⟩ := hrun.bound
  obtain ⟨ho, hpast⟩ := hrun.order_past mem (onePast x) hA hlast
  have hindexed := hrun.indexed hsort stockIds
    (queryLog cfg items mem (onePast x) (epochs ++ [epoch])) fun o' hlt hle => by
      by_cases hne : o' = 3000
      · subst hne
        rw [hpast]
        refine ⟨?_, fun i hi => by rwa [List.mem_singleton.mp hi]⟩
        rw [OrderLog.length_order]
        exact Nat.succ_pos 14
      · obtain ⟨l, hl⟩ := hrun.orderItems hlt hle
        rw [hrun.order hle (fun h => hne (h.1.trans hA)) hl]
        exact hrun.items_le hl
  obtain ⟨-, -, -, us, -, hmem, hmap⟩ := hindexed.translated _ le_rfl
  have hrecord : stockRecord cfg.numWarehouses w x ∈
      us.map (stockRecord cfg.numWarehouses w) := by
    refine List.mem_map_of_mem ((hmem x).mpr ((hindexed.window x).mpr ⟨3000, by omega, ho.ge, ?_⟩))
    rw [hpast]
    exact List.mem_singleton_self x
  rw [← hmap] at hrecord
  obtain ⟨o', l, i, hlt, hle, hl, hi, heq⟩ := (hok.records _).mp hrecord
  have hix := stockRecord_inj hrun.records hw ((hrun.items_le hl).2 i hi) hx heq
  exact hother o' l hlt hle hl (hix ▸ hi)

end

/-- Whatever memory lies behind the arrays of the auxiliary index, the parameters of a StockLevel
    are the stock records of the distinct items of the last twenty orders, each once, translated in
    place without losing an item: this holds unless districts have 3000 slots and the district is the
    last one, whose loaded order 3000 lies behind the arrays. -/
theorem stockLevel_ok_iff {cfg : Config} {draws : List Draw} {items : ℕ → ℕ → ℕ} {mem : ℕ → ℕ}
    {epochs : List (List TxnInput)} {epoch rest : List TxnInput} {w d o threshold : ℕ}
    (hrun : StockLevelRun cfg draws items epochs epoch rest w d o threshold)
    {warpSort : (ℕ → ℕ) → ℕ → ℕ → ℕ} (hsort : SortsAscending warpSort) (stockIds : ℕ → ℕ) :
    (∀ past, StockLevelOk cfg warpSort (queryLog cfg items mem past (epochs ++ [epoch])) w d o
      stockIds (OrderItems cfg.auxNumSlotsPerDistrict items (history epochs epoch) w d)) ↔
    ¬ (cfg.auxNumSlotsPerDistrict = 3000 ∧ w = cfg.numWarehouses ∧ d = 10) := by
  obtain ⟨⟨hw, -⟩, h3000, -⟩ := hrun.bound
  constructor
  · rintro hok ⟨hA, hlast⟩
    -- an item of no loaded order, where order 3000 is looked for
    obtain ⟨x, hx, hother⟩ := hrun.exists_other (hrun.order_past mem (onePast 0) hA hlast).1
    exact hrun.not_ok mem hsort stockIds hA hlast hx hother (hok (onePast x))
  · rintro hin past
    have hread : ∀ o', o < o' + 20 → o' ≤ o → ∀ l, OrderItems cfg.auxNumSlotsPerDistrict items
        (history epochs epoch) w d o' l →
        (queryLog cfg items mem past (epochs ++ [epoch])).order (auxSlot cfg w d o') = l := by
      rintro o' hlt hle l hl
      refine hrun.order hle (fun h => hin ?_) hl
      rcases hrun.bound_lt with hb | ⟨hA, -⟩
      · omega
      · exact ⟨hA, h.2⟩
    have hlen : ∀ o', o < o' + 20 → o' ≤ o →
        ((queryLog cfg items mem past (epochs ++ [epoch])).order (auxSlot cfg w d o')).length ≤ 15 ∧
        ∀ i ∈ (queryLog cfg items mem past (epochs ++ [epoch])).order (auxSlot cfg w d o'),
          1 ≤ i ∧ i ≤ 100000 := by
      rintro o' hlt hle
      obtain ⟨l, hl⟩ := hrun.orderItems hlt hle
      rw [hread o' hlt hle l hl]
      exact hrun.items_le hl
    refine (hrun.indexed hsort stockIds _ hlen).ok hrun.records hw
      (fun o' hlt hle => (hlen o' hlt hle).2) fun o' hlt hle i => ?_
    obtain ⟨l, hl⟩ := hrun.orderItems hlt hle
    constructor
    · rintro hi
      exact ⟨l, hl, hread o' hlt hle l hl ▸ hi⟩
    · rintro ⟨l', hl', hi⟩
      rwa [hread o' hlt hle l' hl']

/-! ### A run of two transactions -/

/-- A sort of the valid entries. -/
def sortValid (a : ℕ → ℕ) (n : ℕ) : ℕ → ℕ := fun j => (((List.range n).map a).mergeSort).getD j 0

theorem map_getD_range (l : List ℕ) : (List.range l.length).map (fun j => l.getD j 0) = l := by
  refine List.ext_getElem (by rw [List.length_map, List.length_range]) fun j hj hj' => ?_
  rw [List.getElem_map, List.getElem_range, List.getD_eq_getElem?_getD,
    List.getElem?_eq_getElem hj', Option.getD_some]

theorem sortValid_sorts : SortsAscending sortValid := by
  rintro a n -
  have hlen : (((List.range n).map a).mergeSort).length = n := by
    rw [List.length_mergeSort, List.length_map, List.length_range]
  have hmap : (List.range n).map (sortValid a n) = ((List.range n).map a).mergeSort := by
    have hget := map_getD_range ((List.range n).map a).mergeSort
    rwa [hlen] at hget
  rw [hmap]
  refine ⟨(List.pairwise_mergeSort (fun x y z hxy hyz => ?_) (fun x y => ?_) _).imp fun h => ?_,
    List.mergeSort_perm _ _⟩
  · simpa using le_trans (by simpa using hxy) (by simpa using hyz)
  · simpa using le_total x y
  · simpa using h

/-- The mix of the full benchmark, in one epoch of two transactions. -/
def twoTxns : RunConfig := ⟨⟨45, 43, 4, 4, 4⟩, 2, 1, 1, true, true⟩

/-- Less than one of the two transactions is expected to be a NewOrder. -/
theorem twoTxns_config : twoTxns.config id = ⟨1, 2, 0, true⟩ := by
  have hpool : ⌊(27 / 10 : ℚ)⌋₊ = 2 := by
    rw [Nat.floor_eq_iff (by norm_num)]
    norm_num
  have horders : ⌊(9 / 10 : ℚ)⌋₊ = 0 := by
    rw [Nat.floor_eq_zero]
    norm_num
  simp only [twoTxns, RunConfig.config, RunConfig.newOrderInsertPoolSize, RunConfig.perDistrict,
    TxnMix.newOrderShare, TxnMix.totalWeight, id]
  norm_num [hpool, horders]

/-- A StockLevel of district `d` and a Payment. -/
def twoDraws (d : ℕ) : List Draw := [.stockLevel 1 d 15, .payment 1 1 1 1 1 1]

theorem twoDraws_run {d : ℕ} (hd : 1 ≤ d ∧ d ≤ 10) : StockLevelRun (twoTxns.config id) (twoDraws d)
    (fun _ _ => 1) [] (generateTxns (twoDraws d)).1 [] 1 d 3000 15 := by
  rw [twoTxns_config]
  refine ⟨?_, ?_, fun _ _ _ _ _ _ _ _ => by decide, rfl, by decide, by decide, by simp, ?_⟩
  · refine List.forall_mem_cons.mpr ⟨⟨by decide, hd⟩, List.forall_mem_singleton.mpr ?_⟩
    exact ⟨by decide, by decide, by decide, by decide⟩
  · exact List.forall_mem_cons.mpr ⟨trivial, List.forall_mem_singleton.mpr trivial⟩
  · exact List.mem_cons_self ..

theorem stockLevel_ok_first :
    (∀ past, StockLevelOk (twoTxns.config id) sortValid
      (queryLog (twoTxns.config id) (fun _ _ => 1) (fun _ => 0) past
        ([] ++ [(generateTxns (twoDraws 1)).1])) 1 1 3000 (fun _ => 0)
      (OrderItems (twoTxns.config id).auxNumSlotsPerDistrict (fun _ _ => 1)
        (history [] (generateTxns (twoDraws 1)).1) 1 1)) ↔
    ¬ ((twoTxns.config id).auxNumSlotsPerDistrict = 3000 ∧ 1 = (twoTxns.config id).numWarehouses ∧
      1 = 10) :=
  stockLevel_ok_iff (twoDraws_run (by decide)) sortValid_sorts (fun _ => 0)

/-- The StockLevel of the last district reads behind the arrays. -/
theorem stockLevel_behind_arrays : ¬ ∀ cfg draws items mem past epochs epoch rest w d o threshold
    warpSort stockIds, StockLevelRun cfg draws items epochs epoch rest w d o threshold →
    SortsAscending warpSort →
    StockLevelOk cfg warpSort (queryLog cfg items mem past (epochs ++ [epoch])) w d o stockIds
      (OrderItems cfg.auxNumSlotsPerDistrict items (history epochs epoch) w d) := by
  rintro hall
  have hrun := twoDraws_run (show 1 ≤ 10 ∧ 10 ≤ 10 by decide)
  refine hrun.not_ok (fun _ => 0) sortValid_sorts (fun _ => 0) (by rw [twoTxns_config]; rfl)
    (by rw [twoTxns_config]; exact ⟨rfl, rfl⟩) (show 1 ≤ 2 ∧ 2 ≤ 100000 by decide)
    (fun o' l hlt hle hl hmem => ?_)
    (hall _ _ _ _ (onePast 2) _ _ _ _ _ _ _ _ _ hrun sortValid_sorts)
  cases hl with
  | loaded ho =>
    obtain ⟨j, -, hj⟩ := List.mem_map.mp hmem
    cases hj
  | inserted hins =>
    have := (newOrder_run hrun.inRange (hrun.sub hins)).1
    omega

end Egad.Tpcc
