import Forceio.Lib.Serving
import Forceio.Exchange.Opened

/-!
# Price and time priority of fills

A bid walks the asks of its pair from the lowest key of the index upwards, an ask the bids from the
highest key downwards. The key is the price, as an unsigned number, and equal keys are in the order
of their ids: the walk of an ask meets the bids of one price in the order of descending ids.

Results:
* `priceTime_iff`: when a match fills in order of price and time.
* `later_bid_first`: of two bids of one price, an ask fills the later one.
-/

namespace Forceio.Exchange

open Forceio.Lib Forceio.Eosiolib Exec KeyedTable
open List hiding range
open Forceio.Chain (AccountName)
open World

variable {env : Env} {w w' : World}
variable {bid : Bool} {o : Order} {pairId : Nat} {price : Int} {t : Taker}
variable {f : Order}

/-! ## Priority -/

/-- A resting order has priority over another for a taker: it has the better price, or the same one
and the smaller id. -/
def Prior (bid : Bool) (o f : Order) : Prop :=
  (if bid then o.price.amount < f.price.amount else f.price.amount < o.price.amount) ∨
    (o.price.amount = f.price.amount ∧ o.id < f.id)

instance (bid : Bool) (o f : Order) : Decidable (Prior bid o f) := by
  unfold Prior
  infer_instance

/-- The orders of one side of a pair. -/
def World.side (w : World) (pairId : Nat) (bid : Bool) : List Order :=
  w.orders.rows.filter fun o => o.pairId = pairId ∧ o.bidOrAsk = bid

/-- The order of a fill. -/
def Event.filledOrder : Event → Option Nat
  | .filled _ id _ _ => some id
  | _ => none

/-- The orders that were filled between two worlds, the first one first. -/
def filledOrders (w w' : World) : List Order :=
  ((w'.fills.take (w'.fills.length - w.fills.length)).reverse.filterMap Event.filledOrder).filterMap
    w.orders.find?

/-- Price and time priority: a taker fills resting orders of its pair and the other side in the order
of their priority, and none while one with priority over it is left. -/
def PriceTime (bid : Bool) (pairId : Nat) (w w' : World) : Prop :=
  Serves (Prior bid) (w.side pairId (!bid)) (filledOrders w w')

instance (bid : Bool) (pairId : Nat) (w w' : World) : Decidable (PriceTime bid pairId w w') := by
  unfold PriceTime Serves
  infer_instance

/-- The index puts an order before another in the walk of a taker. -/
def WalkedBefore (bid : Bool) (o f : Order) : Prop :=
  if bid then o.byPairPrice < f.byPairPrice ∨ (o.byPairPrice = f.byPairPrice ∧ o.id < f.id)
  else f.byPairPrice < o.byPairPrice ∨ (f.byPairPrice = o.byPairPrice ∧ f.id < o.id)

/-- The walk of an order that comes in puts those with priority first, as far as it gets. -/
def WalksInOrder (w : World) (p : Plan) : Prop :=
  ∀ l ∈ p.range, ∀ fd ∈ reached l p.base.amount, ∀ o ∈ w.side p.taker.pair.id (!p.taker.bid),
    Prior p.taker.bid o fd.1 → o ∈ l ∧ WalkedBefore p.taker.bid o fd.1

/-- No order that is reached has the price of another one. -/
def NoTies (w : World) (p : Plan) : Prop :=
  ∀ l ∈ p.range, ∀ fd ∈ reached l p.base.amount, ∀ o ∈ w.side p.taker.pair.id (!p.taker.bid),
    o.price.amount = fd.1.price.amount → o = fd.1

theorem Prior.asymm (h : Prior bid o f) : ¬ Prior bid f o := by
  unfold Prior at h ⊢
  cases bid with
  | true => simp only [if_true] at h ⊢; omega
  | false => simp only [Bool.false_eq_true, if_false] at h ⊢; omega

theorem Prior.total (hne : o.id ≠ f.id) : Prior bid o f ∨ Prior bid f o := by
  unfold Prior
  cases bid with
  | true => simp only [if_true]; omega
  | false => simp only [Bool.false_eq_true, if_false]; omega

theorem WalkedBefore.asymm (h : WalkedBefore bid o f) : ¬ WalkedBefore bid f o := by
  unfold WalkedBefore at h ⊢
  cases bid with
  | true => simp only [if_true] at h ⊢; omega
  | false => simp only [Bool.false_eq_true, if_false] at h ⊢; omega

/-! ## Walks -/

theorem mem_side :
    o ∈ w.side pairId bid ↔ o ∈ w.orders.rows ∧ o.pairId = pairId ∧ o.bidOrAsk = bid := by
  unfold side
  rw [mem_filter, decide_eq_true_eq]

theorem uint64_lt (x : Int) : uint64 x < 2 ^ 64 := by
  unfold uint64
  omega

theorem lookupKey_asks (pairId x : Nat) : lookupKey pairId true x = pairId * 2 ^ 96 + x := by
  unfold lookupKey
  rw [if_pos rfl, Nat.add_zero]

theorem lookupKey_bids (pairId x : Nat) :
    lookupKey pairId false x = pairId * 2 ^ 96 + 2 ^ 64 + x := by
  unfold lookupKey
  rw [if_neg (by simp)]

theorem ask_of_key (hlow : lookupKey pairId true 0 ≤ o.byPairPrice)
    (hhigh : o.byPairPrice < lookupKey pairId true (2 ^ 64)) :
    o.pairId = pairId ∧ o.bidOrAsk = false := by
  have hprice := uint64_lt o.price.amount
  rw [lookupKey_asks] at hlow hhigh
  unfold Order.byPairPrice at hlow hhigh
  cases hside : o.bidOrAsk with
  | true => simp only [hside, if_true] at hlow hhigh; omega
  | false =>
    simp only [hside, Bool.false_eq_true, if_false] at hlow hhigh
    exact ⟨by omega, rfl⟩

theorem bid_of_key (hlow : lookupKey pairId false 0 ≤ o.byPairPrice)
    (hhigh : o.byPairPrice < lookupKey pairId false (2 ^ 64)) :
    o.pairId = pairId ∧ o.bidOrAsk = true := by
  have hprice := uint64_lt o.price.amount
  rw [lookupKey_bids] at hlow hhigh
  unfold Order.byPairPrice at hlow hhigh
  cases hside : o.bidOrAsk with
  | true =>
    simp only [hside, if_true] at hlow hhigh
    exact ⟨by omega, rfl⟩
  | false => simp only [hside, Bool.false_eq_true, if_false] at hlow hhigh; omega

theorem byPairPrice_eq (ho : o ∈ w.side pairId bid) :
    o.byPairPrice = lookupKey pairId (!bid) (uint64 o.price.amount) := by
  obtain ⟨-, rfl, rfl⟩ := mem_side.mp ho
  unfold Order.byPairPrice lookupKey
  cases o.bidOrAsk <;> rfl

theorem mem_asksUpTo : o ∈ w.asksUpTo pairId price ↔
    o ∈ w.side pairId false ∧ uint64 o.price.amount ≤ uint32 price := by
  have hcut := uint32_lt price
  unfold asksUpTo orderIndex
  rw [mem_filter, mem_sortedBy, decide_eq_true_eq]
  constructor
  · rintro ⟨ho, hlow, hhigh⟩
    have hkey : o.byPairPrice < lookupKey pairId true (2 ^ 64) := by
      rw [lookupKey_asks] at hhigh ⊢
      omega
    have hside : o ∈ w.side pairId false := mem_side.mpr ⟨ho, ask_of_key hlow hkey⟩
    rw [byPairPrice_eq hside, Bool.not_false, lookupKey_asks, lookupKey_asks] at hhigh
    exact ⟨hside, by omega⟩
  · rintro ⟨ho, hprice⟩
    rw [byPairPrice_eq ho, Bool.not_false, lookupKey_asks, lookupKey_asks, lookupKey_asks]
    exact ⟨(mem_side.mp ho).1, by omega, by omega⟩

theorem mem_bidsFrom (ho : o ∈ w.bidsFrom pairId price) : o ∈ w.side pairId true := by
  unfold bidsFrom orderIndex at ho
  rcases mem_append.mp ho with ho | ho
  · rw [mem_filter, mem_sortedBy, decide_eq_true_eq] at ho
    obtain ⟨ho, hlow, hhigh⟩ := ho
    refine mem_side.mpr ⟨ho, bid_of_key (le_trans ?_ hlow) (lt_trans hhigh ?_)⟩
    · rw [lookupKey_bids, lookupKey_bids]
      omega
    · rw [lookupKey_bids, lookupKey_bids]
      omega
  · rw [mem_filter, decide_eq_true_eq, Option.mem_toList] at ho
    obtain ⟨hfind, hpair⟩ := ho
    obtain ⟨ho, hlow, -⟩ := (find?_sortedBy_iff _).mp hfind
    refine mem_side.mpr ⟨ho, bid_of_key (le_trans ?_ hlow) ?_⟩
    · rw [lookupKey_bids, lookupKey_bids]
      omega
    · have hprice := uint64_lt o.price.amount
      rw [lookupKey_bids]
      unfold Order.byPairPrice
      split <;> omega

/-- A bid between the price of the ask and the highest key is walked. -/
theorem bidsFrom_of_mem (ho : o ∈ w.side pairId true) (hlow : uint32 price ≤ uint64 o.price.amount)
    (hhigh : uint64 o.price.amount < 2 ^ 64 - 1) : o ∈ w.bidsFrom pairId price := by
  unfold bidsFrom orderIndex
  refine mem_append_left _ ?_
  rw [mem_filter, mem_sortedBy, decide_eq_true_eq, byPairPrice_eq ho, Bool.not_true,
    lookupKey_bids, lookupKey_bids, lookupKey_bids]
  exact ⟨(mem_side.mp ho).1, by omega, by omega⟩

theorem le_of_mem_bidsFrom (ho : o ∈ w.bidsFrom pairId price) :
    uint32 price ≤ uint64 o.price.amount := by
  have hside := mem_bidsFrom ho
  have hcut := uint32_lt price
  have hlow : lookupKey pairId false (uint32 price) ≤ o.byPairPrice := by
    rcases mem_append.mp ho with ho | ho
    · rw [mem_filter, decide_eq_true_eq] at ho
      exact ho.2.1
    · rw [mem_filter, Option.mem_toList] at ho
      refine le_trans ?_ ((find?_sortedBy_iff _).mp ho.1).2.1
      rw [lookupKey_bids, lookupKey_bids]
      omega
  rw [byPairPrice_eq hside, Bool.not_true, lookupKey_bids, lookupKey_bids] at hlow
  omega

/-- **The walk** of a taker: orders of the other side of its pair, in the order of the index. -/
theorem range_walk {l : List Order} (h : w.range t = .ok (some l)) :
    (∀ o ∈ l, o ∈ w.side t.pair.id (!t.bid)) ∧ l.Pairwise (WalkedBefore t.bid) ∧
      l = if t.bid then w.asksUpTo t.pair.id t.price.amount
        else (w.bidsFrom t.pair.id t.price.amount).reverse := by
  have hsorted := sortedBy_pairwise Order.byPairPrice w.orders
  unfold range at h
  cases hbid : t.bid with
  | true =>
    rw [hbid, if_pos rfl] at h
    obtain ⟨found, -, h⟩ := bind_eq_ok.mp h
    cases found with
    | false => exact absurd (pure_eq_ok.mp h) (by simp)
    | true =>
      obtain rfl := Option.some.inj (pure_eq_ok.mp h)
      exact ⟨fun o ho => (mem_asksUpTo.mp ho).1, hsorted.filter _, rfl⟩
  | false =>
    rw [hbid, if_neg (by simp)] at h
    have h := pure_eq_ok.mp h
    split at h
    · obtain rfl := Option.some.inj h
      refine ⟨fun o ho => mem_bidsFrom (mem_reverse.mp ho), ?_, rfl⟩
      refine pairwise_reverse.mpr ?_
      show (w.bidsFrom t.pair.id t.price.amount).Pairwise fun o f =>
        o.byPairPrice < f.byPairPrice ∨ (o.byPairPrice = f.byPairPrice ∧ o.id < f.id)
      refine pairwise_append.mpr ⟨hsorted.filter _, ?_, fun o ho f hf => .inl ?_⟩
      · refine List.Pairwise.filter _ ?_
        cases w.orderIndex.find? _ with
        | none => exact List.Pairwise.nil
        | some o => exact pairwise_singleton _ _
      · rw [mem_filter, decide_eq_true_eq] at ho
        rw [mem_filter, Option.mem_toList] at hf
        exact lt_of_lt_of_le ho.2.2 ((find?_sortedBy_iff _).mp hf.1).2.1
    · simp at h

theorem reached_start : ∀ (l : List Order) (base : Int), (reached l base).map Prod.fst <+: l
  | [], _ => nil_prefix
  | o :: l, base => by
    unfold reached
    split
    · exact ⟨l, rfl⟩
    · obtain ⟨rest, hrest⟩ := reached_start l (base - o.base.amount)
      exact ⟨rest, congrArg (o :: ·) hrest⟩

theorem Filled.filledOrders {fs : List Fill} (h : Filled env t fs w w')
    (hmem : ∀ f ∈ fs, f.order ∈ w.orders.rows) : filledOrders w w' = fs.map Fill.order := by
  have hnew : w'.fills.take (w'.fills.length - w.fills.length) = (fs.map (Fill.event t)).reverse := by
    rw [h.fills, length_append, Nat.add_sub_cancel, take_left]
  have hids : (fs.map (Fill.event t)).filterMap Event.filledOrder = fs.map fun f => f.order.id := by
    rw [filterMap_map]
    exact congrFun (filterMap_eq_map (f := fun f : Fill => f.order.id)) fs
  unfold Exchange.filledOrders
  rw [hnew, reverse_reverse, hids, filterMap_map]
  have hfind : ∀ f ∈ fs, (w.orders.find? ∘ fun f : Fill => f.order.id) f = some f.order := fun f hf =>
    find?_eq_some_iff.mpr ⟨hmem f hf, rfl⟩
  rw [filterMap_congr hfind]
  exact congrFun (filterMap_eq_map (f := Fill.order)) fs

/-! ## Matches -/

variable {range : Option (List Order)}

/-- The orders that a match fills are those that its quantity reaches, each in a fill. -/
theorem Match.filledOrders_fills {block : Nat} {i : Incoming} (m : Match env block i w w')
    (hrange : w.range m.taker = .ok range) :
    filledOrders w w' = (range.elim [] fun l => (reached l m.base.amount).map Prod.fst) ∧
      ∃ fs, filledOrders w w' = fs.map Fill.order ∧ Filled env m.taker fs w w' := by
  obtain ⟨range', fs, hrange', hmap, hfilled⟩ := m.fills
  obtain rfl : range' = range := Except.ok.inj (hrange'.symm.trans hrange)
  have horders : fs.map Fill.order =
      range'.elim [] fun l => (reached l m.base.amount).map Prod.fst := by
    have hfst := congrArg (map Prod.fst) hmap
    rw [map_map] at hfst
    cases range' with
    | none | some => exact hfst
  suffices hown : ∀ f ∈ fs, f.order ∈ w.orders.rows from
    ⟨(hfilled.filledOrders hown).trans horders, fs, hfilled.filledOrders hown, hfilled⟩
  intro f hf
  have hf : f.order ∈ fs.map Fill.order := mem_map_of_mem hf
  rw [horders] at hf
  cases range' with
  | none => simp at hf
  | some l => exact mem_of_range hrange ((reached_start l m.base.amount).subset hf)

theorem Match.filledOrders_eq {block : Nat} {i : Incoming} (m : Match env block i w w')
    (hrange : w.range m.taker = .ok range) :
    filledOrders w w' = range.elim [] fun l => (reached l m.base.amount).map Prod.fst :=
  (m.filledOrders_fills hrange).1

/-- An order that comes in fills orders of the other side of its pair, and in the order of price and
time exactly if its walk is in that order. -/
theorem Match.priceTime {block : Nat} {i : Incoming} (m : Match env block i w w')
    (hrange : w.range m.taker = .ok range) :
    (∀ o ∈ filledOrders w w', o ∈ w.side i.pairId (!i.bid)) ∧
      (PriceTime i.bid i.pairId w w' ↔ WalksInOrder w ⟨m.taker, m.base, range⟩) := by
  have hid : m.taker.pair.id = i.pairId := m.pair_id
  have hbid : m.taker.bid = i.bid := rfl
  unfold PriceTime
  rw [m.filledOrders_eq hrange]
  cases range with
  | none =>
    refine ⟨fun o ho => absurd ho (by simp), iff_of_true ?_ fun l hl => absurd hl (by simp)⟩
    exact ⟨List.Pairwise.nil, fun a ha => absurd ha (by simp)⟩
  | some l =>
    obtain ⟨hside, hwalk, -⟩ := range_walk hrange
    rw [hid] at hside
    have hfirst := reached_start l m.base.amount
    refine ⟨fun o ho => hside o (hfirst.subset ho), ?_⟩
    have htotal : ∀ o ∈ l, ∀ f ∈ l, o ≠ f → Prior i.bid o f ∨ Prior i.bid f o := by
      intro o ho f hf hne
      refine Prior.total fun heq => hne ?_
      exact eq_of_key (mem_side.mp (hside o ho)).1 (mem_side.mp (hside f hf)).1 heq
    have hiff : Serves (Prior i.bid) (w.side i.pairId (!i.bid))
        ((reached l m.base.amount).map Prod.fst) ↔ _ :=
      serves_iff hwalk (fun _ _ => WalkedBefore.asymm) (fun _ _ => Prior.asymm) hfirst hside htotal
    refine hiff.trans ?_
    unfold WalksInOrder
    simp only [Option.mem_def, Option.some.injEq, forall_eq', hid, hbid, mem_map,
      forall_exists_index, and_imp, forall_apply_eq_imp_iff₂]

/-- The prices of one side of a pair are numbers of 63 bits. -/
def World.Priced (w : World) (pairId : Nat) (bid : Bool) : Prop :=
  ∀ o ∈ w.side pairId bid, 0 ≤ o.price.amount ∧ o.price.amount < 2 ^ 63

theorem World.Priced.uint64 (h : w.Priced pairId bid) (ho : o ∈ w.side pairId bid) :
    (uint64 o.price.amount : Int) = o.price.amount := by
  have hbounds := h o ho
  unfold Eosiolib.uint64
  omega

theorem walkedBefore_bid (hprices : w.Priced pairId false) (ho : o ∈ w.side pairId false)
    (hf : f ∈ w.side pairId false) : WalkedBefore true o f ↔ Prior true o f := by
  have ho' := hprices.uint64 ho
  have hf' := hprices.uint64 hf
  unfold WalkedBefore Prior
  rw [byPairPrice_eq ho, byPairPrice_eq hf, Bool.not_false, lookupKey_asks, lookupKey_asks]
  simp only [if_true]
  omega

/-- An ask walks the bids from the dearest, and those of one price from the latest. -/
theorem walkedBefore_ask (hprices : w.Priced pairId true) (ho : o ∈ w.side pairId true)
    (hf : f ∈ w.side pairId true) : WalkedBefore false o f ↔
      f.price.amount < o.price.amount ∨ (f.price.amount = o.price.amount ∧ f.id < o.id) := by
  have ho' := hprices.uint64 ho
  have hf' := hprices.uint64 hf
  unfold WalkedBefore
  rw [byPairPrice_eq ho, byPairPrice_eq hf, Bool.not_true, lookupKey_bids, lookupKey_bids]
  simp only [Bool.false_eq_true, if_false]
  omega

theorem walksInOrder_bid {base : Asset} (hrange : w.range t = .ok range) (hbid : t.bid = true)
    (hprices : w.Priced t.pair.id false) : WalksInOrder w ⟨t, base, range⟩ := by
  rintro l hl ⟨f, x⟩ hf o ho hprior
  obtain rfl : range = some l := hl
  obtain ⟨hside, -, heq⟩ := range_walk hrange
  have hfl : f ∈ l := (reached_start l base.amount).subset (mem_map_of_mem (f := Prod.fst) hf)
  simp only [hbid, Bool.not_true, if_true] at hside ho hprior heq ⊢
  have hfside := hside f hfl
  refine ⟨?_, (walkedBefore_bid hprices ho hfside).mpr hprior⟩
  rw [heq] at hfl ⊢
  have hfcut := (mem_asksUpTo.mp hfl).2
  have ho' := hprices.uint64 ho
  have hf' := hprices.uint64 hfside
  unfold Prior at hprior
  simp only [if_true] at hprior
  exact mem_asksUpTo.mpr ⟨ho, by omega⟩

/-- With prices that are not negative, an ask walks in order exactly if no bid that it reaches has the
price of another one. -/
theorem walksInOrder_ask {base : Asset} (hrange : w.range t = .ok range) (hbid : t.bid = false)
    (hprices : w.Priced t.pair.id true) :
    WalksInOrder w ⟨t, base, range⟩ ↔ NoTies w ⟨t, base, range⟩ := by
  unfold WalksInOrder NoTies
  simp only [hbid, Bool.not_false]
  refine forall_congr' fun l => forall_congr' fun hl => ?_
  obtain rfl : range = some l := hl
  obtain ⟨hside, hwalk, heq⟩ := range_walk hrange
  simp only [hbid, Bool.not_false, Bool.false_eq_true, if_false] at hside hwalk heq
  have hmem : ∀ {o f : Order}, o ∈ w.side t.pair.id true → f ∈ l →
      f.price.amount ≤ o.price.amount → o ∈ l := by
    intro o f ho hf hle
    have hbounds := hprices o ho
    have ho' := hprices.uint64 ho
    have hf' := hprices.uint64 (hside f hf)
    rw [heq] at hf ⊢
    have hlow := le_of_mem_bidsFrom (mem_reverse.mp hf)
    exact mem_reverse.mpr (bidsFrom_of_mem ho (by omega) (by omega))
  obtain ⟨rest, hrest⟩ := reached_start l base.amount
  have hfirst : ∀ {fd}, fd ∈ reached l base.amount → fd.1 ∈ l := fun hfd =>
    (reached_start l base.amount).subset (mem_map_of_mem hfd)
  constructor
  · intro h fd hfd o ho hprice
    by_contra hne
    have hfside := hside fd.1 (hfirst hfd)
    have hids : o.id ≠ fd.1.id := fun hid =>
      hne (eq_of_key (mem_side.mp ho).1 (mem_side.mp hfside).1 hid)
    rcases lt_or_gt_of_ne hids with hlt | hgt
    · -- The earlier one has priority, and comes after.
      have hbefore := (h fd hfd o ho (.inr ⟨hprice, hlt⟩)).2
      rw [walkedBefore_ask hprices ho hfside] at hbefore
      omega
    · -- The later one comes before, and so it is reached too.
      have hol : o ∈ l := hmem ho (hfirst hfd) hprice.ge
      have hbefore : WalkedBefore false o fd.1 :=
        (walkedBefore_ask hprices ho hfside).mpr (.inr ⟨hprice.symm, hgt⟩)
      have hreached : o ∈ (reached l base.amount).map Prod.fst := by
        rw [← hrest] at hwalk hol
        exact mem_of_before hwalk (fun _ _ => WalkedBefore.asymm) (mem_map_of_mem hfd) hol hbefore
      obtain ⟨od, hod, rfl⟩ := mem_map.mp hreached
      have hbefore' := (h od hod fd.1 hfside (.inr ⟨hprice.symm, hgt⟩)).2
      exact hbefore.asymm hbefore'
  · intro h fd hfd o ho hprior
    have hbetter : fd.1.price.amount < o.price.amount := by
      rcases hprior with hlt | ⟨hprice, hid⟩
      · exact hlt
      · rw [h fd hfd o ho hprice] at hid
        exact absurd hid (lt_irrefl _)
    exact ⟨hmem ho (hfirst hfd) hbetter.le,
      (walkedBefore_ask hprices ho (hside fd.1 (hfirst hfd))).mpr (.inl hbetter)⟩

/-- **Price and time priority**: a match fills orders of the other side of its pair, and it does so in
the order of price and time exactly if its walk is in that order; with prices that are not negative,
that is always so for a bid, and for an ask exactly if no bid that it reaches has the price of another
one. -/
theorem priceTime_iff {block : Nat} {auth : List AccountName} {i : Incoming}
    (h : matchOrder env block auth i.pairId i.payer i.receiver i.chain i.quantity i.price i.bid
      i.excAcc i.feeType w = .ok ⟨⟩ w') :
    ∃ p, i.plan w = .ok p ∧ (∀ o ∈ filledOrders w w', o ∈ w.side i.pairId (!i.bid)) ∧
      (PriceTime i.bid i.pairId w w' ↔ WalksInOrder w p) ∧
      ((∀ o ∈ w.side i.pairId (!i.bid), 0 ≤ o.price.amount ∧ o.price.amount < 2 ^ 63) →
        (WalksInOrder w p ↔ (i.bid = false → NoTies w p))) := by
  obtain ⟨-, ⟨m⟩⟩ := matchOrder_match h
  obtain ⟨range, hrange⟩ := m.exists_range
  obtain ⟨hmem, hiff⟩ := m.priceTime hrange
  refine ⟨_, m.plan_eq hrange, hmem, hiff, fun hprices => ?_⟩
  have hid : m.taker.pair.id = i.pairId := m.pair_id
  rw [← hid] at hprices
  cases hbid : i.bid with
  | true =>
    rw [hbid] at hprices
    exact iff_of_true (walksInOrder_bid hrange hbid hprices) fun hfalse => absurd hfalse (by simp)
  | false =>
    rw [hbid] at hprices
    rw [walksInOrder_ask hrange hbid hprices]
    exact ⟨fun hties _ => hties, fun hties => hties rfl⟩

/-- Two asks, the later one cheaper. -/
def asksRun : List Call :=
  openRun ++ [callOf 2 (.deposit alice 5 ⟨10, abc⟩ "trade;alice;0;0.0500 SYS;0;dex;;1".toList),
      callOf 2 (.deposit alice 5 ⟨10, abc⟩ "trade;alice;0;0.0400 SYS;0;dex;;1".toList)]

/-- A bid that buys one of them, at the price of the dearer one. -/
def buysOne : Incoming := ⟨0, bob, bob, mainChain, ⟨5000, sys⟩, ⟨500, sys⟩, true, dex, 1⟩

/-- The match of an order. -/
def Incoming.run (i : Incoming) (block : Nat) (auth : List AccountName) (env : Env) : ExchangeM Unit :=
  matchOrder env block auth i.pairId i.payer i.receiver i.chain i.quantity i.price i.bid i.excAcc
    i.feeType

theorem priceTime_buysOne : thrown (buysOne.run 3 [1] market (after market asksRun {})) = none ∧
    (filledOrders (after market asksRun {})
      (stateOf (buysOne.run 3 [1] market (after market asksRun {})))).map Order.id = [1] ∧
    PriceTime true 0 (after market asksRun {})
      (stateOf (buysOne.run 3 [1] market (after market asksRun {}))) := by
  have hrun : thrown (buysOne.run 3 [1] market (after market asksRun {})) = none := by
    decide +kernel
  have hprices : ∀ o ∈ (after market asksRun {}).side 0 false,
      0 ≤ o.price.amount ∧ o.price.amount < 2 ^ 63 := by decide +kernel
  obtain ⟨p, -, -, hiff, hwalks⟩ := priceTime_iff (i := buysOne) (eq_ok_of_thrown hrun)
  refine ⟨hrun, by decide +kernel, hiff.mpr ((hwalks hprices).mpr fun hfalse => ?_)⟩
  exact absurd hfalse (by decide)

/-- Two bids of one price. -/
def tiedRun : List Call :=
  openRun ++
    [callOf 2 (.deposit alice mainChain ⟨5000, sys⟩ "trade;alice;0;0.0500 SYS;1;dex;;1".toList),
      callOf 2 (.deposit bob mainChain ⟨5000, sys⟩ "trade;bob;0;0.0500 SYS;1;dex;;1".toList)]

/-- An ask that fills one of them. -/
def sellsOne : Incoming := ⟨0, dex, dex, 5, ⟨10, abc⟩, ⟨500, sys⟩, false, dex, 1⟩

/-- The book with the two bids, and the deposit of the ask. -/
def tiedBook : World := (after market tiedRun {}).changeHeld 5 abc.name 10

/-- **The later of two bids of one price** is filled, and the earlier one is left. -/
theorem later_bid_first : thrown (sellsOne.run 3 [1] market tiedBook) = none ∧
    (filledOrders tiedBook (stateOf (sellsOne.run 3 [1] market tiedBook))).map Order.id = [1] ∧
    ¬ PriceTime false 0 tiedBook (stateOf (sellsOne.run 3 [1] market tiedBook)) := by
  decide +kernel

end Forceio.Exchange
