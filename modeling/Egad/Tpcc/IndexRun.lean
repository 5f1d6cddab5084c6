import Egad.Tpcc.Contents

/-! # The index over whole runs

    Every epoch first puts its orders into the auxiliary index and asks it its queries; the answers
    tell the index phase which keys to look up. With answers that name orders of the run, no index
    phase of a run throws, and none misses a record. Both forms of the auxiliary index answer so: the
    flat one with the newest order of the customer in the whole epoch, the B-tree one with the newest
    order up to the bound of the query. -/

namespace Egad.Tpcc
open Egad.Lib Egad.Timeline

/-! ### Whole runs -/

/-- `o_id` and `num_items` as the queries fill them in. -/
def QueryOut.aux : QueryOut → Aux
  | .orderStatus oId n => ⟨oId, n, fun _ => 0⟩
  | .delivery ns _ => ⟨0, 0, fun i => ns.getD i 0⟩
  | _ => ⟨0, 0, fun _ => 0⟩

/-- An epoch as the index reads it, with the answers to its queries. -/
def fillEpoch (query : TxnInput → QueryOut) (epoch : List TxnInput) : List (TxnInput × Aux) :=
  epoch.map fun t => (t, (query t).aux)

/-- The epochs of a run; the queries of an epoch run after its orders are in the auxiliary index. -/
def fillRun (query : List (List TxnInput) → TxnInput → QueryOut) (done : List (List TxnInput)) :
    List (List TxnInput) → List (List (TxnInput × Aux))
  | [] => []
  | epoch :: epochs =>
    fillEpoch (query (done ++ [epoch])) epoch :: fillRun query (done ++ [epoch]) epochs

theorem fillEpoch_txns (query : TxnInput → QueryOut) (epoch : List TxnInput) :
    (fillEpoch query epoch).map Prod.fst = epoch := by
  rw [fillEpoch, List.map_map]
  exact List.map_id _

/-- What the run needs of its auxiliary index: the answers of an epoch are orders that are there when
    its queries run, with their lines. -/
def Answering (W : ℕ) (query : List (List TxnInput) → TxnInput → QueryOut)
    (epochs : List (List TxnInput)) : Prop :=
  ∀ done epoch rest, epochs = done ++ epoch :: rest → ∀ t ∈ epoch,
    AuxAnswers W (done.flatten ++ epoch) (t, (query (done ++ [epoch]) t).aux)

theorem mem_initialOrders_iff {W w d o : ℕ} :
    (⟨w, d, o⟩ : OrderId) ∈ initialOrders W ↔ Exists W [] w d o := by
  simp only [initialOrders, List.mem_flatMap, List.mem_map, List.mem_range, OrderId.mk.injEq, Exists,
    List.not_mem_nil, false_and, exists_false, or_false]
  constructor
  · rintro ⟨a, ha, b, hb, c, hc, rfl, rfl, rfl⟩
    omega
  · rintro ⟨⟨h1, h2⟩, ⟨h3, h4⟩, h5, h6⟩
    exact ⟨w - 1, by omega, d - 1, by omega, o - 1, by omega, by omega, by omega, by omega⟩

/-- A loaded table holds the loaded keys. -/
theorem load_live_iff {keys : List ℕ} (hlen : keys.length ≤ kAbsent) (k : ℕ) :
    (loadJournal keys).live k ≠ kAbsent ↔ k ∈ keys := by
  rcases Journal.mintAll_spec kAbsent keys k with ⟨h, hk⟩ | ⟨h, -⟩
  · exact iff_of_false (fun hne => hne h) hk
  · have hlt := (List.getElem?_eq_some_iff.mp h).1
    refine iff_of_true (fun he => ?_) (List.mem_of_getElem? h)
    change Journal.mintAll _ _ _ _ = _ at he
    omega

theorem holds_init {cfg : Config} (hW : cfg.numWarehouses < 2 ^ 8)
    (hfits : cfg.numWarehouses * 10 * 3000 * 15 ≤ kAbsent) (durable : Durable) (entryCrid : ℕ → ℕ) :
    Holds cfg.numWarehouses [] (GpuIndex.init cfg durable entryCrid).index := by
  have hlog := logged_init hW hfits durable entryCrid
  have hlenN := length_initialNewOrderKeys cfg.numWarehouses
  have hlenO := length_initialOrderKeys cfg.numWarehouses
  have hlenL := length_initialLineKeys cfg.numWarehouses
  refine ⟨fun {w d o} hord => ?_, fun {w d o} hord => ?_, fun {w d o i} hord h1 h15 => ?_⟩
  · rw [hlog.newOrder.live]
    refine (load_live_iff (by omega) _).trans ?_
    constructor
    · intro hk
      obtain ⟨⟨w', d', o'⟩, hx, he⟩ := List.mem_map.mp hk
      obtain ⟨hx, hlow⟩ := List.mem_filter.mp hx
      obtain ⟨rfl, rfl, rfl⟩ := orderFields_inj (initialOrder_ok hW hx).1 hord he
      exact ⟨mem_initialOrders_iff.mp hx, of_decide_eq_true hlow, fun t ht => absurd ht List.not_mem_nil⟩
    · rintro ⟨hex, hlow, -⟩
      exact List.mem_map.mpr ⟨⟨w, d, o⟩,
        List.mem_filter.mpr ⟨mem_initialOrders_iff.mpr hex, decide_eq_true hlow⟩, rfl⟩
  · rw [hlog.order.live]
    refine (load_live_iff (by omega) _).trans ?_
    constructor
    · intro hk
      obtain ⟨⟨w', d', o'⟩, hx, he⟩ := List.mem_map.mp hk
      obtain ⟨rfl, rfl, rfl⟩ := orderFields_inj (initialOrder_ok hW hx).1 hord he
      exact mem_initialOrders_iff.mp hx
    · intro hex
      exact List.mem_map.mpr ⟨⟨w, d, o⟩, mem_initialOrders_iff.mpr hex, rfl⟩
  · rw [hlog.orderLine.live]
    refine (load_live_iff (by omega) _).trans ?_
    constructor
    · intro hk
      obtain ⟨⟨⟨w', d', o'⟩, j⟩, hx, he⟩ := List.mem_map.mp hk
      obtain ⟨hx, hj1, hj15⟩ := mem_initialLines hx
      obtain ⟨hok, -, hload⟩ := initialOrder_ok hW hx
      obtain ⟨rfl, rfl, rfl, rfl⟩ := orderLineKey_inj hok hj15 hord h15 he
      exact ⟨15, ⟨mem_initialOrders_iff.mp hx, Or.inl ⟨hload, rfl⟩⟩, h15⟩
    · rintro ⟨n, ⟨hex, -⟩, -⟩
      refine List.mem_map.mpr ⟨(⟨w, d, o⟩, i), List.mem_flatMap.mpr ⟨⟨w, d, o⟩,
        mem_initialOrders_iff.mpr hex, List.mem_map.mpr ⟨i - 1, List.mem_range.mpr (by omega), ?_⟩⟩, rfl⟩
      rw [Nat.sub_add_cancel h1]

/-- The generated transactions of a run that stays within the fields, in epochs. -/
structure RunFits (cfg : Config) (deletePath : Bool) (draws : List Draw) (epochs : List (List TxnInput)) :
    Prop where
  inRange : ∀ x ∈ draws, x.InRange cfg.numWarehouses
  run : epochs.flatten = (generateTxns draws).1
  warehouses : cfg.numWarehouses < 2 ^ 8
  ids : ∀ w d, (generateTxns draws).2.nextOid w d < 2 ^ 24
  mix : ∀ w carrier, .delivery w carrier ∈ draws → deletePath = true
  guard : guardPasses cfg (generateTxns draws).1 = true
  count : ∀ e ∈ epochs, 4 * e.length + 2 < 2 ^ 22
  rows : cfg.numWarehouses * 10 * 3000 * 15 + 15 * (epochs.map List.length).sum ≤ kAbsent

section
variable {cfg : Config} {deletePath : Bool} {draws : List Draw} {epochs : List (List TxnInput)}
  (hf : RunFits cfg deletePath draws epochs)
include hf

theorem RunFits.legal : Legal cfg.numWarehouses epochs.flatten := hf.run ▸ legal_run hf.inRange

theorem RunFits.orderOk {txns : List TxnInput} (hsub : txns ⊆ (generateTxns draws).1) {w d o : ℕ}
    (h : Exists cfg.numWarehouses txns w d o) : OrderOk o d w := by
  obtain ⟨hw, hd, h1, hload | ⟨t, ht, hi⟩⟩ := h
  · have := hf.warehouses
    exact ⟨⟨h1, by omega⟩, hd, hw.1, by omega⟩
  · exact (orderOk_of_carries hf.inRange hf.warehouses hf.ids (hsub ht) (inserts_carries hi)).1

theorem RunFits.lines_le {txns : List TxnInput} (hsub : txns ⊆ (generateTxns draws).1) {w d o n : ℕ}
    (h : HasLines cfg.numWarehouses txns w d o n) : n ≤ 15 := by
  rcases h.2 with ⟨-, rfl⟩ | ⟨c, items, hm, rfl⟩
  · exact le_refl 15
  · exact (newOrder_run hf.inRange (hsub hm)).2.1

/-- With the answers of the auxiliary index the transactions are as the index expects them. -/
theorem RunFits.fill_ok {txns : List TxnInput} (hsub : txns ⊆ (generateTxns draws).1)
    {x : TxnInput × Aux} (hx : x.1 ∈ (generateTxns draws).1)
    (ha : AuxAnswers cfg.numWarehouses txns x) :
    (x.1.fill x.2).Ok deletePath ∧ (x.1.fill x.2).InWarehouses cfg.numWarehouses := by
  obtain ⟨t, a⟩ := x
  have hzero := Tpcc.fill_ok hf.inRange hf.warehouses hf.ids hf.mix hx
    (a := ⟨1, 0, fun _ => 0⟩) ⟨⟨le_refl 1, by norm_num⟩, Nat.zero_le 15, fun _ => Nat.zero_le 15⟩
  cases t with
  | newOrder | payment | stockLevel => exact hzero
  | orderStatus w d c o =>
    have hlines := ha.asks rfl
    exact ⟨⟨hf.orderOk hsub hlines.1, hf.lines_le hsub hlines⟩, hzero.2⟩
  | delivery w carrier ts os =>
    refine ⟨⟨hzero.1.1, fun i hi hne => ⟨(hzero.1.2 i hi hne).1, ?_⟩⟩, hzero.2⟩
    have hdel : (TxnInput.delivery w carrier ts os).Delivers w (i + 1) (os.getD i 0) :=
      ⟨rfl, Nat.succ_pos i, getElem?_of_getD_ne hne, hne⟩
    exact hf.lines_le hsub (ha.delivers hdel)

/-- Every line that the run inserts has a cell in the OrderLine index, of either kind. -/
theorem RunFits.keyed {epoch : List (TxnInput × Aux)} (hsub : epoch.map Prod.fst ⊆ (generateTxns draws).1)
    {s : Store} (hmode : OfMode cfg s) {k : ℕ} (hk : k ∈ (orderLineInput (fillAll epoch)).validInsert) :
    s.Keyed k := by
  rw [OfMode] at hmode
  split at hmode
  · obtain ⟨a, rfl⟩ := hmode
    obtain ⟨o, d, w, n, i, hm, h1, h15, rfl⟩ := mem_line_insert hk
    obtain ⟨x, hx, he⟩ := List.mem_map.mp hm
    have hmem : x.1 ∈ (generateTxns draws).1 := hsub (List.mem_map_of_mem hx)
    have hins : x.1.Inserts w d o := inserts_of_fill (a := x.2) (he ▸ ⟨rfl, rfl, rfl⟩)
    obtain ⟨hord, -⟩ := orderOk_of_carries hf.inRange hf.warehouses hf.ids hmem (inserts_carries hins)
    have hlt := inserted_lt_aux hf.guard hmem hins
    obtain ⟨ho, hd, hw, hol⟩ := orderLineKey_decode hord (show i < 2 ^ 4 by omega)
    refine ⟨orderLineKey_lt _ _ _ _, ?_, ?_, ?_, ?_⟩
    · rw [ho, computeOLMaxO]
      exact ⟨hord.o.1, hlt.le⟩
    · rw [hd]
      exact hord.d
    · rw [hw]
      exact hord.w.1
    · rw [hol]
      exact ⟨h1, h15⟩
  · obtain ⟨m, e, rfl⟩ := hmode
    trivial

end

theorem fillRun_concat (query : List (List TxnInput) → TxnInput → QueryOut) (epoch : List TxnInput) :
    ∀ (l done : List (List TxnInput)), fillRun query done (l ++ [epoch]) =
      fillRun query done l ++ [fillEpoch (query (done ++ l ++ [epoch])) epoch] := by
  intro l
  induction l with
  | nil =>
    intro done
    rw [List.append_nil]
    rfl
  | cons e l ih =>
    intro done
    rw [List.cons_append, fillRun, ih, fillRun, List.append_assoc done [e] l]
    rfl

/-- The index before an epoch of a run. -/
structure Reaches (cfg : Config) (deletePath : Bool) (query : List (List TxnInput) → TxnInput → QueryOut)
    (durable : Durable) (entryCrid : ℕ → ℕ) (done rest : List (List TxnInput)) (g : GpuIndex) : Prop where
  run : (GpuIndex.init cfg durable entryCrid).run deletePath ((fillRun query [] done).map fillAll) = .ok g
  logged : ∃ js, Logged cfg g js
  room : Room g.index (rest.map List.length).sum
  holds : Holds cfg.numWarehouses done.flatten g.index

section
variable {cfg : Config} {deletePath : Bool} {draws : List Draw} {epochs : List (List TxnInput)}
  {query : List (List TxnInput) → TxnInput → QueryOut} {durable : Durable} {entryCrid : ℕ → ℕ}
  (hf : RunFits cfg deletePath draws epochs) (hq : Answering cfg.numWarehouses query epochs)
include hf hq

/-- An epoch of the run neither throws nor misses. -/
theorem reaches_epoch {done rest : List (List TxnInput)} {epoch : List TxnInput} {g : GpuIndex}
    (hsplit : epochs = done ++ epoch :: rest)
    (h : Reaches cfg deletePath query durable entryCrid done (epoch :: rest) g) :
    ∃ idx out no ord ol, indexTxns deletePath g.index
        (fillAll (fillEpoch (query (done ++ [epoch])) epoch)) = .ok (idx, out) ∧
      out = epochOut (fillAll (fillEpoch (query (done ++ [epoch])) epoch)) no ord ol ∧
      EpochRun cfg.numWarehouses deletePath done.flatten (fillEpoch (query (done ++ [epoch])) epoch)
        g.index idx no ord ol ∧
      ∃ g', g'.index = idx ∧ Reaches cfg deletePath query durable entryCrid (done ++ [epoch]) rest g' := by
  obtain ⟨js, hg⟩ := h.logged
  set filled := fillEpoch (query (done ++ [epoch])) epoch with hfilled
  have hfst : filled.map Prod.fst = epoch := fillEpoch_txns _ _
  have hlen : filled.length = epoch.length := List.length_map _
  have hflat : epochs.flatten = (done.flatten ++ epoch) ++ rest.flatten := by
    rw [hsplit, List.flatten_append, List.flatten_cons, List.append_assoc]
  have hsub : done.flatten ++ epoch ⊆ (generateTxns draws).1 := by
    rw [← hf.run, hflat]
    exact List.subset_append_left _ _
  have hmem : ∀ x ∈ filled, x.1 ∈ (generateTxns draws).1 := fun x hx =>
    hsub (List.mem_append_right _ (hfst ▸ List.mem_map_of_mem hx))
  have haux : ∀ x ∈ filled, AuxAnswers cfg.numWarehouses (done.flatten ++ epoch) x := by
    intro x hx
    obtain ⟨t, ht, rfl⟩ := List.mem_map.mp hx
    exact hq done epoch rest hsplit t ht
  have hgen : Generated cfg deletePath (fillAll filled) := by
    refine ⟨fun u hu => ?_, ?_⟩
    · obtain ⟨x, hx, rfl⟩ := List.mem_map.mp hu
      exact hf.fill_ok hsub (hmem x hx) (haux x hx)
    · rw [length_fillAll, hlen]
      exact hf.count epoch (by rw [hsplit]; simp)
  have hlegal : Legal cfg.numWarehouses (done.flatten ++ filled.map Prod.fst) := by
    intro pre t post he
    refine hf.legal pre t (post ++ rest.flatten) ?_
    rw [hflat, ← hfst, he, List.append_assoc, List.cons_append]
  have hroom : Room g.index (filled.length + (rest.map List.length).sum) := by
    have := h.room
    rwa [List.map_cons, List.sum_cons, ← hlen] at this
  have hroom' : Room g.index filled.length := by
    obtain ⟨r1, r2, r3⟩ := hroom
    exact ⟨by omega, by omega, by omega⟩
  have hsubF : filled.map Prod.fst ⊆ (generateTxns draws).1 := by
    rw [hfst]
    exact fun t ht => hsub (List.mem_append_right _ ht)
  obtain ⟨g', hg'⟩ := indexTxns_returns hg hgen (by rwa [length_fillAll]) fun k hk =>
    hf.keyed hsubF hg.mode hk
  obtain ⟨js', hlog', -, hroom₂, -⟩ := logged_step hg hgen.numbered (by rwa [length_fillAll]) hg'
  cases hindex : indexTxns deletePath g.index (fillAll filled) with
  | error e =>
    rw [GpuIndex.indexTxns, hindex] at hg'
    cases hg'
  | ok r =>
    obtain ⟨idx, out⟩ := r
    obtain ⟨no, ord, ol, hout, hrun⟩ := epochRun_of_index hg hgen hroom' hlegal h.holds hindex
    have hidx : g'.index = idx := by
      rw [GpuIndex.indexTxns, hindex] at hg'
      exact congrArg GpuIndex.index (Except.ok.inj hg').symm
    refine ⟨idx, out, no, ord, ol, rfl, hout, hrun, g', hidx, ?_, ⟨js', hlog'⟩, hroom₂, ?_⟩
    · rw [fillRun_concat, List.nil_append, List.map_append, GpuIndex.run, List.foldlM_append]
      have hrun₁ := h.run
      rw [GpuIndex.run] at hrun₁
      rw [hrun₁]
      change List.foldlM (GpuIndex.indexTxns deletePath) g [fillAll filled] = _
      rw [List.foldlM_cons, hg']
      rfl
    · rw [hidx, List.flatten_append, List.flatten_singleton, ← hfst]
      exact hrun.next

theorem reaches_run {done rest : List (List TxnInput)} (hsplit : epochs = done ++ rest) :
    ∃ g, Reaches cfg deletePath query durable entryCrid done rest g := by
  induction done using List.reverseRecOn generalizing rest with
  | nil =>
    have hrows := hf.rows
    rw [hsplit, List.nil_append] at hrows
    exact ⟨_, rfl, ⟨_, logged_init hf.warehouses (by omega) durable entryCrid⟩,
      room_init hrows durable entryCrid, holds_init hf.warehouses (by omega) durable entryCrid⟩
  | append_singleton done epoch ih =>
    rw [List.append_assoc] at hsplit
    obtain ⟨g, hg⟩ := ih hsplit
    obtain ⟨_, _, _, _, _, -, -, -, g', -, hg'⟩ := reaches_epoch hf hq hsplit hg
    exact ⟨g', hg'⟩

end

/-- What the index phase of an epoch does: the tables hold the history before and after it, every
    insert mints a row, every delete is effective, and every transaction finds what it must. -/
structure Complete (W : ℕ) (done : List (List TxnInput)) (epoch : List TxnInput)
    (query : TxnInput → QueryOut) (g : GpuIndex) (idx : Index) (out : EpochOut) : Prop where
  before : Holds W done.flatten g.index
  after : Holds W (done.flatten ++ epoch) idx
  newOrders : out.newOrderMinted = (fillAll (fillEpoch query epoch)).flatMap newOrderInserts
  orders : out.orderMinted = (fillAll (fillEpoch query epoch)).flatMap orderInserts
  lines : out.orderLineMinted = (fillAll (fillEpoch query epoch)).flatMap lineInserts
  deletes : out.edelKeys = (fillAll (fillEpoch query epoch)).flatMap newOrderDeletes
  finds : ∀ tid t, epoch[tid]? = some t → ∃ p, out.params[tid]? = some p ∧
    Finds W (done.flatten ++ epoch.take tid) (query t).aux t p

section
variable {cfg : Config} {deletePath : Bool} {draws : List Draw} {epochs : List (List TxnInput)}
  {query : List (List TxnInput) → TxnInput → QueryOut}

/-- No index phase of a run throws or misses. -/
theorem run_complete (hf : RunFits cfg deletePath draws epochs)
    (hq : Answering cfg.numWarehouses query epochs) (durable : Durable) (entryCrid : ℕ → ℕ)
    {done rest : List (List TxnInput)} {epoch : List TxnInput} (hsplit : epochs = done ++ epoch :: rest) :
    ∃ g idx out,
      (GpuIndex.init cfg durable entryCrid).run deletePath ((fillRun query [] done).map fillAll) = .ok g ∧
      indexTxns deletePath g.index (fillAll (fillEpoch (query (done ++ [epoch])) epoch)) =
        .ok (idx, out) ∧
      Complete cfg.numWarehouses done epoch (query (done ++ [epoch])) g idx out := by
  obtain ⟨g, hg⟩ := @reaches_run _ _ _ _ _ durable entryCrid hf hq done (epoch :: rest) hsplit
  obtain ⟨idx, out, no, ord, ol, hindex, rfl, hrun, g', rfl, hg'⟩ := reaches_epoch hf hq hsplit hg
  have hafter := hg'.holds
  rw [List.flatten_append, List.flatten_singleton] at hafter
  refine ⟨g, g'.index, _, hg.run, hindex, hg.holds, hafter, hrun.newOrder.minted.1,
    hrun.order.minted.1, hrun.orderLine.minted.1, hrun.newOrder.minted.2, fun tid t ht => ?_⟩
  have hx : (fillEpoch (query (done ++ [epoch])) epoch)[tid]? =
      some (t, (query (done ++ [epoch]) t).aux) := by
    rw [fillEpoch, List.getElem?_map, ht]
    rfl
  have hfind := hrun.finds (fun x hx => ?_) hx
  · refine ⟨indexTpccTxn no.resolve ord.resolve ol.resolve tid
      (t.fill (query (done ++ [epoch]) t).aux), ?_, ?_⟩
    · change (paramsOf (fillAll (fillEpoch (query (done ++ [epoch])) epoch)) no.resolve ord.resolve
        ol.resolve)[tid]? = _
      rw [getElem?_paramsOf, fillAll, List.getElem?_map, hx]
      rfl
    · rwa [historyAt, List.map_take, fillEpoch_txns] at hfind
  · obtain ⟨u, hu, rfl⟩ := List.mem_map.mp hx
    rw [fillEpoch_txns]
    exact hq done epoch rest hsplit u hu

end


/-! ### The answers of the auxiliary index -/

/-- The customers that the distributions can draw. -/
def Draw.CustomerExists : Draw → Prop
  | .newOrder _ _ c _ => 1 ≤ c ∧ c ≤ 3000
  | .orderStatus _ _ c => 1 ≤ c ∧ c ≤ 3000
  | _ => True

section
variable {W : ℕ} {draws : List Draw} (hr : ∀ x ∈ draws, x.InRange W) (hc : ∀ x ∈ draws, x.CustomerExists)
include hr hc

theorem customer_of_newOrder {w d o c : ℕ} {items : List OrderItem}
    (h : .newOrder w d o c items ∈ (generateTxns draws).1) : CustomerOk W w d c := by
  obtain ⟨g, ts, x, hx, he⟩ := mem_generateTxns h
  have hrange := hr x hx
  have hcust := hc x hx
  cases x with
  | newOrder w' d' c' items' =>
    obtain ⟨rfl, rfl, -, rfl, -⟩ := TxnInput.newOrder.inj he
    exact ⟨hrange.1, hrange.2.1, hcust⟩
  | payment | orderStatus | delivery | stockLevel => exact absurd he (by simp [generateTxn])

/-- An OrderStatus asks about a customer, with the newest order of the district as its bound. -/
theorem customer_of_orderStatus {w d c o : ℕ} (h : .orderStatus w d c o ∈ (generateTxns draws).1) :
    CustomerOk W w d c ∧ 3000 ≤ o ∧ o ≤ (generateTxns draws).2.nextOid (w - 1) (d - 1) := by
  obtain ⟨pre, post, he⟩ := List.append_of_mem h
  obtain ⟨ds, x, hpre, hds, ht⟩ := generated_prefix draws he
  have hx : x ∈ draws := hpre.subset (by simp)
  have hrange := hr x hx
  have hcust := hc x hx
  cases x with
  | orderStatus w' d' c' =>
    obtain ⟨rfl, rfl, rfl, rfl⟩ := TxnInput.orderStatus.inj ht
    refine ⟨⟨hrange.1, hrange.2, hcust⟩, ?_, ?_⟩
    · exact (counted_run fun y hy => hr y (hpre.subset (List.mem_append_left _ hy))).base _ _
    · obtain ⟨⟨hw, -⟩, hd, -⟩ := hrange
      have hcarry : (TxnInput.orderStatus w d c ((generateTxns ds).2.currOId (w - 1) (d - 1))).Carries
          (w - 1 + 1) (d - 1 + 1) ((generateTxns ds).2.currOId (w - 1) (d - 1)) :=
        ⟨(Nat.sub_add_cancel hw).symm, (Nat.sub_add_cancel hd).symm, rfl⟩
      exact ((counted_run hr).carried (w - 1) (d - 1) _ _ h hcarry).2
  | newOrder | payment | delivery | stockLevel => exact absurd ht (by simp [generateTxn])

end

/-- The log has the lines of every order that is there. -/
theorem lines_of_log {stride W : ℕ} {txns : List TxnInput} {items : ℕ → ℕ → ℕ} {log : OrderLog}
    (hp : OrdersPlaced stride txns) (hbase : ∀ {w d o c its}, .newOrder w d o c its ∈ txns → 3000 < o)
    (hlog : LogOf stride txns (initialLog stride W items) log) (hslots : 3000 < stride) {w d o : ℕ}
    (he : Exists W txns w d o) :
    HasLines W txns w d o (log.numItems (cacheIdx stride w d o)) := by
  refine ⟨he, ?_⟩
  obtain ⟨hw, hd, h1, hload | ⟨t, ht, hi⟩⟩ := he
  · have hother : ∀ {w' d' o' c its}, .newOrder w' d' o' c its ∈ txns →
        cacheIdx stride w' d' o' ≠ cacheIdx stride w d o := by
      intro w' d' o' c its hm heq
      obtain ⟨hw', hd', ho'⟩ := hp.order hm
      have hlt := hbase hm
      have := (cacheIdx_inj hw' hd' ho' hw.1 hd (show o < stride by omega) heq).2.2
      omega
    refine Or.inl ⟨hload, ?_⟩
    rw [(hlog.other hother).1]
    exact initialLog_numItems hslots (mem_loadedOrders.mpr ⟨⟨hw, hd, h1, hload⟩, rfl⟩) items
  · obtain ⟨c, its, rfl⟩ := inserts_iff.mp hi
    exact Or.inr ⟨c, its, ht, (hlog.order ht).1⟩

/-- A Delivery's query reads the line counts of the orders it delivers. -/
theorem delivery_numItems (stride : ℕ) (log : OrderLog) (find : ℕ → ℕ → ℕ → ℕ → ℕ)
    {w carrier ts i o : ℕ} {os : List ℕ} (ho : os[i]? = some o) (hne : o ≠ 0) :
    (performRangeQuery stride log find (.delivery w carrier ts os)).aux.deliverItems i =
      log.numItems (cacheIdx stride w (i + 1) o) := by
  have hidx : (i + (w - 1) * 10) * stride + o = cacheIdx stride w (i + 1) o := by
    rw [cacheIdx, districtId, Nat.add_sub_cancel]
  simp only [performRangeQuery, QueryOut.aux, List.getD_eq_getElem?_getD, List.getElem?_map,
    List.getElem?_zipIdx, ho, Option.map_some, Nat.zero_add, if_neg hne, Option.getD_some, hidx]

theorem btreeAux_run_log {stride W : ℕ} {items : ℕ → ℕ → ℕ} {epochs : List (List TxnInput)} :
    (BTreeAux.run stride W items epochs).log =
      epochs.flatten.foldl (OrderLog.insert stride) (initialLog stride W items) := by
  rw [BTreeAux.run, ← List.foldl_flatten]
  suffices h : ∀ (l : List TxnInput) (b : BTreeAux),
      (l.foldl (BTreeAux.insert stride) b).log = l.foldl (OrderLog.insert stride) b.log from h _ _
  intro l
  induction l with
  | nil => exact fun _ => rfl
  | cons t l ih => exact fun b => ih _

section
variable {cfg : Config} {deletePath : Bool} {draws : List Draw} {epochs : List (List TxnInput)}
  {items : ℕ → ℕ → ℕ} (hf : RunFits cfg deletePath draws epochs)
  (hslots : 3000 < cfg.auxNumSlotsPerDistrict)
include hf hslots

/-- Queries that read the log, and find orders of their customers' districts, answer a run. -/
theorem answering_of_find {log : List (List TxnInput) → OrderLog}
    {find : List (List TxnInput) → ℕ → ℕ → ℕ → ℕ → ℕ}
    (hlog : ∀ done, log done = done.flatten.foldl (OrderLog.insert cfg.auxNumSlotsPerDistrict)
      (initialLog cfg.auxNumSlotsPerDistrict cfg.numWarehouses items))
    (hfind : ∀ done rest w d c o, epochs = done ++ rest → .orderStatus w d c o ∈ done.flatten →
      Exists cfg.numWarehouses done.flatten w d (find done w d c o)) :
    Answering cfg.numWarehouses (fun done =>
      performRangeQuery cfg.auxNumSlotsPerDistrict (log done) (find done)) epochs := by
  intro done epoch rest hsplit t ht
  have hflat : (done ++ [epoch]).flatten = done.flatten ++ epoch := by
    rw [List.flatten_append, List.flatten_singleton]
  have hsplit' : epochs = (done ++ [epoch]) ++ rest := by rw [hsplit, List.append_assoc]; rfl
  have hsub : done.flatten ++ epoch ⊆ (generateTxns draws).1 := by
    rw [← hf.run, hsplit', List.flatten_append, hflat]
    exact List.subset_append_left _ _
  have hplaced := ordersPlaced_run hf.inRange hf.guard hsub
  have hlogOf := @insertAll_logOf _ _
    (initialLog cfg.auxNumSlotsPerDistrict cfg.numWarehouses items) hplaced
  rw [← hflat, ← hlog, hflat] at hlogOf
  have hlines : ∀ {w d o}, Exists cfg.numWarehouses (done.flatten ++ epoch) w d o →
      HasLines cfg.numWarehouses (done.flatten ++ epoch) w d o
        ((log (done ++ [epoch])).numItems (cacheIdx cfg.auxNumSlotsPerDistrict w d o)) :=
    lines_of_log hplaced (fun hm => (newOrder_run hf.inRange (hsub hm)).1) hlogOf hslots
  have hlegal := hf.legal
  rw [hsplit', List.flatten_append, hflat] at hlegal
  constructor
  · intro w d o hdel
    obtain ⟨pre, post, hpost⟩ := List.append_of_mem ht
    have hopen := ((hlegal (done.flatten ++ pre) t (post ++ rest.flatten)
      (by rw [hpost]; simp)).delivers hdel).1
    have hex : Exists cfg.numWarehouses (done.flatten ++ epoch) w d o := by
      rw [hpost, ← List.append_assoc]
      exact hopen.append
    cases t with
    | delivery w' carrier ts os =>
      obtain ⟨rfl, hd, ho, hne⟩ := hdel
      have hnum := @delivery_numItems cfg.auxNumSlotsPerDistrict (log (done ++ [epoch]))
        (find (done ++ [epoch])) w' carrier ts _ o os ho hne
      rw [Nat.sub_add_cancel hd] at hnum
      simp only [hnum]
      exact hlines hex
    | newOrder | payment | orderStatus | stockLevel => exact hdel.elim
  · intro w d c o he
    obtain rfl : t = .orderStatus w d c o := he
    refine hlines ?_
    rw [← hflat]
    exact hfind (done ++ [epoch]) rest w d c o hsplit' (hflat ▸ List.mem_append_right _ ht)

omit hslots in
theorem done_subset {done rest : List (List TxnInput)} (hsplit : epochs = done ++ rest) :
    done.flatten ⊆ (generateTxns draws).1 := by
  rw [← hf.run, hsplit, List.flatten_append]
  exact List.subset_append_left _ _

variable (hc : ∀ x ∈ draws, x.CustomerExists)
include hc

omit hslots in
theorem customers_of_run {done rest : List (List TxnInput)} (hsplit : epochs = done ++ rest) :
    ∀ txns ∈ done, ∀ t ∈ txns, t.CustomerOk cfg.numWarehouses := by
  intro txns htxns t ht
  have hmem := done_subset hf hsplit (List.mem_flatten_of_mem htxns ht)
  cases t with
  | newOrder w d o c its => exact customer_of_newOrder hf.inRange hc hmem
  | payment | orderStatus | delivery | stockLevel => trivial

omit hslots hc in
/-- The orders that the auxiliary index knows are there. -/
theorem exists_of_order {done rest : List (List TxnInput)} (hsplit : epochs = done ++ rest) {w d c o : ℕ}
    (h : ⟨w, d, c, o⟩ ∈ allOrders cfg.numWarehouses done) :
    Exists cfg.numWarehouses done.flatten w d o := by
  rcases List.mem_append.mp h with h | h
  · obtain ⟨hw, hd, ho, -⟩ := loaded_cases h
    exact ⟨hw, hd, ho.1, Or.inl ho.2⟩
  · obtain ⟨t, ht, he⟩ := List.mem_filterMap.mp h
    have hmem := done_subset hf hsplit ht
    cases t with
    | newOrder w' d' o' c' its =>
      cases he
      have hins : (TxnInput.newOrder w d o c its).Inserts w d o := ⟨rfl, rfl, rfl⟩
      obtain ⟨hw, hd⟩ := inRange_run hf.inRange hmem (inserts_carries hins)
      have := (newOrder_run hf.inRange hmem).1
      exact ⟨hw, hd, by omega, Or.inr ⟨_, ht, hins⟩⟩
    | payment | orderStatus | delivery | stockLevel => cases he

/-- The flat form answers with the newest order of the customer. -/
theorem flat_answering (mem : ℕ → ℕ) : Answering cfg.numWarehouses (fun done =>
    (FlatAux.run cfg.auxNumSlotsPerDistrict cfg.numWarehouses items mem done).query
      cfg.auxNumSlotsPerDistrict) epochs := by
  refine answering_of_find hf hslots (fun done => flatAux_run_log)
    fun done rest w d c o hsplit ht => ?_
  obtain ⟨hlatest, -, -⟩ := @run_orders cfg.auxNumSlotsPerDistrict cfg.numWarehouses items mem done
    (customers_of_run hf hc hsplit)
  have hq := (customer_of_orderStatus hf.inRange hc (done_subset hf hsplit ht)).1
  exact exists_of_order hf hsplit (hlatest w d c hq).1

omit hslots in
/-- The B-tree form answers with the newest order of the customer up to the bound. -/
theorem btree_find_run (hW : cfg.numWarehouses ≤ 64)
    (hids : ∀ w d, (generateTxns draws).2.nextOid w d < 2 ^ 20) {findNext : List ℕ → ℕ → ℕ → ℕ}
    (hnext : FindsNext findNext) {done rest : List (List TxnInput)} (hsplit : epochs = done ++ rest)
    {w d c o : ℕ} (ht : .orderStatus w d c o ∈ done.flatten) :
    (BTreeAux.run cfg.auxNumSlotsPerDistrict cfg.numWarehouses items done).find findNext w d c o ≤ o ∧
      ⟨w, d, c, (BTreeAux.run cfg.auxNumSlotsPerDistrict cfg.numWarehouses items done).find findNext
        w d c o⟩ ∈ allOrders cfg.numWarehouses done := by
  obtain ⟨-, hkeys, -⟩ := @run_orders cfg.auxNumSlotsPerDistrict cfg.numWarehouses items (fun _ => 0)
    done (customers_of_run hf hc hsplit)
  obtain ⟨hcust, hbase, hbound⟩ := customer_of_orderStatus hf.inRange hc (done_subset hf hsplit ht)
  have hbits : o % 2 ^ 20 = o := Nat.mod_eq_of_lt (hbound.trans_lt (hids _ _))
  -- the customer's loaded order is in the range of the query
  have hload : (⟨w, d, c, c⟩ : CustomerOrder) ∈ allOrders cfg.numWarehouses done :=
    List.mem_append_left _ (mem_loadedOrders.mpr ⟨hcust, rfl⟩)
  obtain ⟨hrange, -⟩ := range_own hload (show c ≤ o % 2 ^ 20 by have := hcust.2.2.2; omega)
  obtain ⟨⟨x, ⟨hx, hsame, hle⟩, hval⟩, -⟩ := btree_find hnext hkeys ⟨_, hrange⟩
  have hxok := mem_allOrders_ok (customers_of_run hf hc hsplit) hx
  obtain ⟨hw, hd, hcc⟩ := (customerBits_eq_iff hcust.2.1.2 hxok.2.1.2 hcust.2.2.2 hxok.2.2.2).mp hsame
  have hxo : x.oId % 2 ^ 20 = x.oId := by
    refine Nat.mod_eq_of_lt ?_
    obtain ⟨-, hxd, h1, hxe | ⟨t, hmem, hi⟩⟩ := exists_of_order hf hsplit hx
    · omega
    · have hcarry := inserts_carries hi
      obtain ⟨⟨hw1, -⟩, hd1, -⟩ := hxok
      rw [← Nat.sub_add_cancel hw1, ← Nat.sub_add_cancel hd1.1] at hcarry
      exact ((counted_run hf.inRange).carried _ _ _ t (done_subset hf hsplit hmem) hcarry).2.trans_lt
        (hids _ _)
  have hwid : x.wId = w := by
    have := hxok.1
    have := hcust.1
    omega
  rw [← hval]
  refine ⟨hle.trans hbits.le, ?_⟩
  rw [hxo, ← hwid, ← hd, ← hcc]
  exact hx

theorem btree_answering (hW : cfg.numWarehouses ≤ 64)
    (hids : ∀ w d, (generateTxns draws).2.nextOid w d < 2 ^ 20) {findNext : List ℕ → ℕ → ℕ → ℕ}
    (hnext : FindsNext findNext) : Answering cfg.numWarehouses (fun done =>
      (BTreeAux.run cfg.auxNumSlotsPerDistrict cfg.numWarehouses items done).query findNext
        cfg.auxNumSlotsPerDistrict) epochs := by
  refine answering_of_find hf hslots (fun done => btreeAux_run_log)
    fun done rest w d c o hsplit ht => ?_
  exact exists_of_order hf hsplit (btree_find_run hf hc hW hids hnext hsplit ht).2

end

/-! ### The index never misses -/

/-- A customer orders, asks for its newest order, and a Delivery follows. -/
def orderAskDeliver : List Draw :=
  [.newOrder 1 1 7 (List.replicate 5 ⟨1, 1, 5⟩), .orderStatus 1 1 7, .delivery 1 3]

/-- The NewOrder is an epoch of its own. -/
def orderAskDeliverEpochs : List (List TxnInput) :=
  [(generateTxns orderAskDeliver).1.take 1, (generateTxns orderAskDeliver).1.drop 1]

theorem orderAskDeliver_fits (flatOL : Bool) :
    RunFits (oneWarehouse flatOL) true orderAskDeliver orderAskDeliverEpochs := by
  have hrange : ∀ x ∈ orderAskDeliver, x.InRange 1 := by
    simp [orderAskDeliver, Draw.InRange]
  have hlen : (generateTxns orderAskDeliver).1.length = 3 := length_generateTxns _
  refine ⟨hrange, by simp [orderAskDeliverEpochs, -List.drop_one], by norm_num [oneWarehouse],
    nextOid_few hrange (by simp [orderAskDeliver]), fun _ _ _ => rfl, ?_, fun e he => ?_, ?_⟩
  · refine guardPasses_iff.mpr ⟨by norm_num [oneWarehouse, auxCapacity, Config.auxNumSlotsPerDistrict],
      fun t ht w d o hi => ?_⟩
    have hins := inserts_carries hi
    obtain ⟨⟨hw, -⟩, hd, -⟩ := inRange_run hrange ht hins
    rw [← Nat.sub_add_cancel hw, ← Nat.sub_add_cancel hd] at hins
    have hle := ((counted_run hrange).carried _ _ o t ht hins).2
    have hcount := @List.countP_le_length _ (Draw.ordersIn (w - 1 + 1) (d - 1 + 1)) orderAskDeliver
    rw [nextOid_run _ _ _ fun x hx => ⟨1, hrange x hx⟩] at hle
    have hthree : orderAskDeliver.length = 3 := rfl
    simp only [oneWarehouse, auxCapacity, Config.auxNumSlotsPerDistrict]
    omega
  · have hle : e.length ≤ 3 := by
      simp only [orderAskDeliverEpochs, List.mem_cons, List.not_mem_nil, or_false] at he
      rcases he with rfl | rfl
      · rw [List.length_take]
        omega
      · rw [List.length_drop]
        omega
    omega
  · simp only [orderAskDeliverEpochs, List.map_cons, List.map_nil, List.sum_cons, List.sum_nil,
      List.length_take, List.length_drop, hlen, oneWarehouse, kAbsent]
    omega

theorem orderAskDeliver_customers : ∀ x ∈ orderAskDeliver, x.CustomerExists := by
  simp [orderAskDeliver, Draw.CustomerExists]

/-- The flat auxiliary index as the queries of an epoch find it. -/
def flatQuery (cfg : Config) (items : ℕ → ℕ → ℕ) (mem : ℕ → ℕ) (done : List (List TxnInput)) :
    TxnInput → QueryOut :=
  (FlatAux.run cfg.auxNumSlotsPerDistrict cfg.numWarehouses items mem done).query
    cfg.auxNumSlotsPerDistrict

/-- The B-tree form. -/
def btreeQuery (cfg : Config) (items : ℕ → ℕ → ℕ) (findNext : List ℕ → ℕ → ℕ → ℕ)
    (done : List (List TxnInput)) : TxnInput → QueryOut :=
  (BTreeAux.run cfg.auxNumSlotsPerDistrict cfg.numWarehouses items done).query findNext
    cfg.auxNumSlotsPerDistrict

theorem finds_orderStatus_of_le {W w d c bound o : ℕ} {txns : List TxnInput} {a : Aux} {ls : List ℕ}
    (h : Finds W txns a (.orderStatus w d c bound) (.orderStatus o ls)) (hle : a.oId ≤ bound) :
    o ≠ kAbsent ∧ HasLines W txns w d a.oId ls.length ∧ kAbsent ∉ ls := by
  rwa [Finds, if_pos hle] at h

end Egad.Tpcc
