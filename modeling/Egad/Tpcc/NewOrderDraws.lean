import Egad.Tpcc.Generator
import Mathlib.Data.List.Nodup
import Mathlib.Algebra.Group.Nat.Defs

/-! # Drawing a NewOrder (`benchmarks/tpcc_txn_gen.cpp`)

    The order lines are drawn one after another from one random stream. An item is drawn again while
    an earlier line has it, the supply warehouse while it is the order's own:

        stream   w d | c c' | n | i i' i i' … pct w … q | i i' … pct … q | …
                                  line 0                  line 1

    The loop over the earlier lines ends one line early, so an item of the line just before passes. -/

namespace Egad.Tpcc

/-! ### The source -/

/-- The parameters of a generator: its warehouses and the constants its two `TpccNuRand` drew. -/
structure DrawConfig where
  numWarehouses : ℕ
  cIdC : ℕ
  iIdC : ℕ

/-- `TpccNuRand::operator()` on its two draws. -/
def nuRand (C x y d1 d2 : ℕ) : ℕ := ((d1 ||| d2) + C) % 2 ^ 32 % (y - x + 1) + x

/-- A line with the branch it was drawn in. -/
structure Line where
  item : OrderItem
  supplyFromRemote : Bool
deriving DecidableEq

/-- One value of a plain distribution. -/
def nextDraw : List ℕ → Option (ℕ × List ℕ)
  | [] => none
  | d :: ds => some (d, ds)

section
variable (cfg : DrawConfig)

/-- `i_id_dist`. -/
def iIdDist (d1 d2 : ℕ) : ℕ := nuRand cfg.iIdC 1 100000 d1 d2

/-- `for (j = 0; j + 1 < i; ++j)`, with `i` lines drawn before. -/
def retries (lines : List Line) (iId : ℕ) : Bool :=
  (lines.take (lines.length - 1)).any fun x => x.item.iId == iId

/-- The loop that draws an item. -/
def drawItem (lines : List Line) : List ℕ → Option (ℕ × List ℕ)
  | d1 :: d2 :: ds =>
    if retries lines (iIdDist cfg d1 d2) then drawItem lines ds else some (iIdDist cfg d1 d2, ds)
  | _ => none

/-- The loop that draws a warehouse other than the order's. -/
def drawRemote (originWId : ℕ) : List ℕ → Option (ℕ × List ℕ)
  | [] => none
  | w :: ds => if w = originWId then drawRemote originWId ds else some (w, ds)

/-- `config.num_warehouses > 1 && (percentage_gen(gen) == 1)`. -/
def drawIsRemote (ds : List ℕ) : Option (Bool × List ℕ) :=
  if 1 < cfg.numWarehouses then (nextDraw ds).map fun p => (p.1 == 1, p.2) else some (false, ds)

/-- The supply warehouse of a line. -/
def drawSupply (originWId : ℕ) (supplyFromRemote : Bool) (ds : List ℕ) : Option (ℕ × List ℕ) :=
  if supplyFromRemote then drawRemote originWId ds else some (originWId, ds)

/-- One turn of the loop over the lines. -/
def drawLine (originWId : ℕ) (lines : List Line) (ds : List ℕ) : Option (Line × List ℕ) := do
  let (iId, ds) ← drawItem cfg lines ds
  let (supplyFromRemote, ds) ← drawIsRemote cfg ds
  let (wId, ds) ← drawSupply originWId supplyFromRemote ds
  let (quantity, ds) ← nextDraw ds
  some (⟨⟨iId, wId, quantity⟩, supplyFromRemote⟩, ds)

/-- The turns that are left. -/
def drawLines (originWId : ℕ) : ℕ → List Line → List ℕ → Option (List Line × List ℕ)
  | 0, lines, ds => some (lines, ds)
  | n + 1, lines, ds => do
    let (line, ds) ← drawLine cfg originWId lines ds
    drawLines originWId n (lines ++ [line]) ds

/-- What `generateTxn` draws for a NewOrder. -/
structure NewOrderDraw where
  originWId : ℕ
  dId : ℕ
  cId : ℕ
  lines : List Line

/-- The draws before the lines: warehouse, district, customer and number of items. -/
def drawHead : List ℕ → Option ((ℕ × ℕ × ℕ × ℕ) × List ℕ)
  | w :: d :: c1 :: c2 :: n :: ds => some ((w, d, nuRand cfg.cIdC 1 3000 c1 c2, n), ds)
  | _ => none

/-- `generateTxn` of a NewOrder, but for the order id. -/
def drawNewOrder (ds : List ℕ) : Option (NewOrderDraw × List ℕ) := do
  let ((w, d, c, n), ds) ← drawHead cfg ds
  let (lines, ds) ← drawLines cfg w n [] ds
  some (⟨w, d, c, lines⟩, ds)

/-- The draws as the order generator takes them. -/
def NewOrderDraw.toDraw (x : NewOrderDraw) : Draw :=
  .newOrder x.originWId x.dId x.cId (x.lines.map Line.item)

/-! ### What the draws are for -/

/-- The items of an order are distinct, so no stock row is updated twice, and the remote lines are
    those supplied by another warehouse. -/
structure WellDrawn (x : NewOrderDraw) : Prop where
  items : (x.lines.map fun l => l.item.iId).Nodup
  stock : (x.lines.map fun l => (l.item.wId, l.item.iId)).Nodup
  remote : ∀ l ∈ x.lines, l.item.wId ≠ x.originWId ↔ l.supplyFromRemote = true

/-- The items that the draws of the stream stand for. -/
def itemDraws : List ℕ → List ℕ
  | d1 :: d2 :: ds => iIdDist cfg d1 d2 :: itemDraws ds
  | _ => []

/-- The item of the line just before comes up again before any item that the order does not have. -/
def RepeatsLast (items : List ℕ) (draws : List ℕ) : Prop :=
  ∃ before x after, draws = before ++ x :: after ∧ items.getLast? = some x ∧ ∀ y ∈ before, y ∈ items

/-- At none of the lines does the item of the line before come up again. -/
def NoRepeats (originWId : ℕ) : ℕ → List Line → List ℕ → Prop
  | 0, _, _ => True
  | n + 1, lines, ds => ¬ RepeatsLast (lines.map fun l => l.item.iId) (itemDraws cfg ds) ∧
      ∀ line ds', drawLine cfg originWId lines ds = some (line, ds') →
        NoRepeats originWId n (lines ++ [line]) ds'

/-- The same of a whole order. -/
def OrderNoRepeats (ds : List ℕ) : Prop :=
  ∀ w d c n ds', drawHead cfg ds = some ((w, d, c, n), ds') → NoRepeats cfg w n [] ds'

end

/-- The generated transaction has the drawn lines and the district's next order id. -/
theorem generateTxn_toDraw (g : OIdGenerator) (timestamp : ℕ) (x : NewOrderDraw) :
    (generateTxn g timestamp x.toDraw).1 = .newOrder x.originWId x.dId
      (g.nextOId (x.originWId - 1) (x.dId - 1)).1 x.cId (x.lines.map Line.item) := rfl

/-! ### One line -/

variable {cfg : DrawConfig} {originWId : ℕ} {lines : List Line} {ds : List ℕ}

/-- The loop misses the line just before and no other. -/
theorem retries_iff (iId : ℕ) :
    retries lines iId = true ↔ iId ∈ (lines.map fun l => l.item.iId).dropLast := by
  rw [retries, List.any_eq_true, List.dropLast_eq_take, List.length_map, ← List.map_take,
    List.mem_map]
  simp only [beq_iff_eq]

theorem mem_iff_dropLast {items : List ℕ} {x : ℕ} :
    x ∈ items ↔ x ∈ items.dropLast ∨ items.getLast? = some x := by
  rcases List.eq_nil_or_concat items with rfl | ⟨init, last, rfl⟩
  · simp
  · rw [List.concat_eq_append, List.dropLast_concat, List.getLast?_concat, List.mem_append,
      List.mem_singleton, Option.some_inj, eq_comm]

/-- A draw that the loop rejects is of an earlier line, and does not decide whether the last item
    comes up again. -/
theorem repeatsLast_cons_of_mem {items draws : List ℕ} {x : ℕ} (hnd : items.Nodup)
    (hx : x ∈ items.dropLast) : RepeatsLast items (x :: draws) ↔ RepeatsLast items draws := by
  constructor
  · rintro ⟨_ | ⟨y, before⟩, z, after, heq, hlast, hmem⟩
    · obtain ⟨rfl, rfl⟩ := List.cons.inj heq
      -- the last item is not among the others
      rcases List.eq_nil_or_concat items with rfl | ⟨init, last, rfl⟩
      · cases hx
      · rw [List.concat_eq_append, List.getLast?_concat, Option.some_inj] at hlast
        rw [List.concat_eq_append, List.dropLast_concat] at hx
        rw [List.concat_eq_append] at hnd
        exact absurd (List.mem_singleton.mpr hlast.symm) ((List.nodup_append'.mp hnd).2.2 hx)
    · obtain ⟨rfl, rfl⟩ := List.cons.inj heq
      exact ⟨before, z, after, rfl, hlast, fun w hw => hmem w (List.mem_cons_of_mem _ hw)⟩
  · rintro ⟨before, z, after, rfl, hlast, hmem⟩
    exact ⟨x :: before, z, after, rfl, hlast,
      List.forall_mem_cons.mpr ⟨List.dropLast_subset items hx, hmem⟩⟩

/-- A draw that the loop accepts is new unless it is the last item. -/
theorem repeatsLast_cons_of_notMem {items draws : List ℕ} {x : ℕ} (hx : x ∉ items.dropLast) :
    RepeatsLast items (x :: draws) ↔ x ∈ items := by
  rw [mem_iff_dropLast, or_iff_right hx]
  constructor
  · rintro ⟨_ | ⟨y, before⟩, z, after, heq, hlast, hmem⟩
    · obtain ⟨rfl, rfl⟩ := List.cons.inj heq
      exact hlast
    · obtain ⟨rfl, rfl⟩ := List.cons.inj heq
      exact (mem_iff_dropLast.mp (hmem x (List.mem_cons_self ..))).resolve_left hx
  · rintro hlast
    exact ⟨[], x, draws, rfl, hlast, fun _ hy => absurd hy List.not_mem_nil⟩

/-- The item of a line is new exactly when the last item does not come up again. -/
theorem drawItem_new (hnd : (lines.map fun l => l.item.iId).Nodup) (ds : List ℕ) :
    ∀ {iId ds'}, drawItem cfg lines ds = some (iId, ds') →
      (iId ∉ lines.map (fun l => l.item.iId) ↔
        ¬ RepeatsLast (lines.map fun l => l.item.iId) (itemDraws cfg ds)) := by
  induction ds using drawItem.induct cfg lines with
  | case1 d1 d2 ds hretry ih =>
    rintro iId ds' hdraw
    rw [drawItem, if_pos hretry] at hdraw
    rw [itemDraws, repeatsLast_cons_of_mem hnd ((retries_iff _).mp hretry)]
    exact ih hdraw
  | case2 d1 d2 ds haccept =>
    rintro iId ds' hdraw
    rw [drawItem, if_neg haccept] at hdraw
    obtain ⟨rfl, rfl⟩ := Prod.mk.inj (Option.some.inj hdraw)
    rw [itemDraws, repeatsLast_cons_of_notMem fun hm => haccept ((retries_iff _).mpr hm)]
  | case3 ds hshort =>
    rintro iId ds' hdraw
    rw [drawItem] at hdraw
    · cases hdraw
    · exact hshort

theorem drawRemote_ne (ds : List ℕ) : ∀ {w ds'}, drawRemote originWId ds = some (w, ds') →
    w ≠ originWId := by
  induction ds with
  | nil =>
    rintro w ds' hdraw
    cases hdraw
  | cons d ds ih =>
    rintro w ds' hdraw
    rw [drawRemote] at hdraw
    split at hdraw
    case isTrue => exact ih hdraw
    case isFalse hne =>
      obtain ⟨rfl, rfl⟩ := Prod.mk.inj (Option.some.inj hdraw)
      exact hne

/-- A drawn line: its item is what the loop drew, and its warehouse is remote as the line is. -/
theorem drawLine_cases {line : Line} {ds' : List ℕ}
    (h : drawLine cfg originWId lines ds = some (line, ds')) :
    (∃ ds₁, drawItem cfg lines ds = some (line.item.iId, ds₁)) ∧
      (line.item.wId ≠ originWId ↔ line.supplyFromRemote = true) := by
  rw [drawLine] at h
  obtain ⟨⟨iId, ds₁⟩, hitem, h⟩ := Option.bind_eq_some_iff.mp h
  obtain ⟨⟨remote, ds₂⟩, -, h⟩ := Option.bind_eq_some_iff.mp h
  obtain ⟨⟨wId, ds₃⟩, hw, h⟩ := Option.bind_eq_some_iff.mp h
  obtain ⟨⟨quantity, ds₄⟩, -, h⟩ := Option.bind_eq_some_iff.mp h
  obtain ⟨rfl, rfl⟩ := Prod.mk.inj (Option.some.inj h)
  refine ⟨⟨ds₁, hitem⟩, ?_⟩
  cases remote with
  | true => exact iff_of_true (drawRemote_ne ds₂ hw) rfl
  | false =>
    obtain ⟨rfl, rfl⟩ := Prod.mk.inj (Option.some.inj hw)
    exact iff_of_false (fun hne => hne rfl) Bool.false_ne_true

/-! ### The lines of an order -/

/-- Lines drawn so far stay as they are. -/
theorem drawLines_extend (n : ℕ) : ∀ {lines ds out ds'},
    drawLines cfg originWId n lines ds = some (out, ds') → lines <+: out := by
  induction n with
  | zero =>
    rintro lines ds out ds' h
    obtain ⟨rfl, rfl⟩ := Prod.mk.inj (Option.some.inj h)
    exact List.prefix_rfl
  | succ n ih =>
    rintro lines ds out ds' h
    rw [drawLines] at h
    obtain ⟨⟨line, ds₁⟩, -, h⟩ := Option.bind_eq_some_iff.mp h
    exact (List.prefix_append _ _).trans (ih h)

/-- Distinct so far, the items stay distinct exactly when none repeats the one before it. -/
theorem drawLines_nodup_iff (n : ℕ) : ∀ {lines ds out ds'},
    (lines.map fun l => l.item.iId).Nodup → drawLines cfg originWId n lines ds = some (out, ds') →
    ((out.map fun l => l.item.iId).Nodup ↔ NoRepeats cfg originWId n lines ds) := by
  induction n with
  | zero =>
    rintro lines ds out ds' hnd h
    obtain ⟨rfl, rfl⟩ := Prod.mk.inj (Option.some.inj h)
    exact iff_of_true hnd trivial
  | succ n ih =>
    rintro lines ds out ds' hnd h
    rw [drawLines] at h
    obtain ⟨⟨line, ds₁⟩, hline, h⟩ := Option.bind_eq_some_iff.mp h
    obtain ⟨⟨ds₂, hitem⟩, -⟩ := drawLine_cases hline
    have hnew := drawItem_new hnd ds hitem
    have happ : ((lines ++ [line]).map fun l => l.item.iId).Nodup ↔
        line.item.iId ∉ lines.map fun l => l.item.iId := by
      rw [List.map_append, List.map_singleton, List.nodup_append_comm, List.singleton_append,
        List.nodup_cons, and_iff_left hnd]
    rw [NoRepeats]
    constructor
    · rintro hout
      have hnd' := happ.mp (((drawLines_extend n h).sublist.map _).nodup hout)
      refine ⟨hnew.mp hnd', fun line' ds₁' hline' => ?_⟩
      obtain ⟨rfl, rfl⟩ := Prod.mk.inj (Option.some.inj (hline.symm.trans hline'))
      exact (ih (happ.mpr hnd') h).mp hout
    · rintro ⟨hrep, hrest⟩
      exact (ih (happ.mpr (hnew.mpr hrep)) h).mpr (hrest line ds₁ hline)

/-- Every line's warehouse is remote as the line is. -/
theorem drawLines_remote (n : ℕ) : ∀ {lines ds out ds'},
    (∀ l ∈ lines, l.item.wId ≠ originWId ↔ l.supplyFromRemote = true) →
    drawLines cfg originWId n lines ds = some (out, ds') →
    ∀ l ∈ out, l.item.wId ≠ originWId ↔ l.supplyFromRemote = true := by
  induction n with
  | zero =>
    rintro lines ds out ds' hlines h
    obtain ⟨rfl, rfl⟩ := Prod.mk.inj (Option.some.inj h)
    exact hlines
  | succ n ih =>
    rintro lines ds out ds' hlines h
    rw [drawLines] at h
    obtain ⟨⟨line, ds₁⟩, hline, h⟩ := Option.bind_eq_some_iff.mp h
    refine ih ?_ h
    exact List.forall_mem_append.mpr ⟨hlines, List.forall_mem_singleton.mpr (drawLine_cases hline).2⟩

/-- When a NewOrder is generated, its items and stock rows are distinct and its remote lines are
    those drawn as remote, if and only if no item of a line comes up again for the next line before
    a new one does. -/
theorem newOrder_wellDrawn_iff (cfg : DrawConfig) (ds : List ℕ) (x : NewOrderDraw) (rest : List ℕ)
    (h : drawNewOrder cfg ds = some (x, rest)) : WellDrawn x ↔ OrderNoRepeats cfg ds := by
  rw [drawNewOrder] at h
  obtain ⟨⟨⟨w, d, c, n⟩, ds₁⟩, hhead, h⟩ := Option.bind_eq_some_iff.mp h
  obtain ⟨⟨lines, ds₂⟩, hlines, h⟩ := Option.bind_eq_some_iff.mp h
  obtain ⟨rfl, rfl⟩ := Prod.mk.inj (Option.some.inj h)
  have hnil : (([] : List Line).map fun l => l.item.iId).Nodup := List.nodup_nil
  have hiff := drawLines_nodup_iff n hnil hlines
  have hrun : OrderNoRepeats cfg ds ↔ NoRepeats cfg w n [] ds₁ := by
    constructor
    · exact fun hall => hall w d c n ds₁ hhead
    · rintro hno w' d' c' n' ds' hhead'
      obtain ⟨hids, rfl⟩ := Prod.mk.inj (Option.some.inj (hhead.symm.trans hhead'))
      obtain ⟨rfl, rfl, rfl, rfl⟩ : w = w' ∧ d = d' ∧ c = c' ∧ n = n' := by
        simpa only [Prod.mk.injEq] using hids
      exact hno
  rw [hrun, ← hiff]
  constructor
  · exact fun hwell => hwell.items
  · rintro hitems
    refine ⟨hitems, ?_, drawLines_remote n (fun _ hl => absurd hl List.not_mem_nil) hlines⟩
    refine List.Nodup.of_map Prod.snd ?_
    rw [List.map_map]
    exact hitems

/-- One warehouse, five lines of the items 2 to 6: the draws before the lines, and two draws for the
    item and one for the quantity of each line. -/
def fiveItemDraws : List ℕ :=
  [1, 1, 0, 1, 5] ++ [0, 1, 5] ++ [0, 2, 5] ++ [0, 3, 5] ++ [0, 4, 5] ++ [0, 5, 5]

/-- The same with item 2 on the first two lines. -/
def itemTwice : List ℕ :=
  [1, 1, 0, 1, 5] ++ [0, 1, 5] ++ [0, 1, 5] ++ [0, 3, 5] ++ [0, 4, 5] ++ [0, 5, 5]

/-- The order with the given items, all of warehouse 1. -/
def localOrder (iIds : List ℕ) : NewOrderDraw :=
  ⟨1, 1, 2, iIds.map fun i => ⟨⟨i, 1, 5⟩, false⟩⟩

theorem newOrder_wellDrawn_five :
    WellDrawn (localOrder [2, 3, 4, 5, 6]) ↔ OrderNoRepeats ⟨1, 0, 0⟩ fiveItemDraws :=
  newOrder_wellDrawn_iff ⟨1, 0, 0⟩ fiveItemDraws (localOrder [2, 3, 4, 5, 6]) [] rfl

/-- Two lines in a row have the same item. -/
theorem newOrder_item_twice : ¬ ∀ cfg ds x rest, drawNewOrder cfg ds = some (x, rest) →
    WellDrawn x := by
  rintro hall
  have hwell := hall ⟨1, 0, 0⟩ itemTwice (localOrder [2, 2, 4, 5, 6]) [] rfl
  exact absurd hwell.items (by decide)

end Egad.Tpcc
