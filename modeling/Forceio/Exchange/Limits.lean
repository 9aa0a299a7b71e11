import Forceio.Exchange.Amounts
import Forceio.Exchange.Priority

/-!
# Limits and quantities of a match

The price of an order that comes in is converted to the decimals of the pair: more decimals may wrap
it, fewer round it down. The range of a match is cut at that price, taken as a number of 32 bits. An
ask dearer than that walks bids below its price, and a bid dearer than that may find an ask and walk
none: it is then neither filled nor put into the book.

Results:
* `withinLimits_iff`: when every fill is at a price between the limits of its two orders.
* `nothingLost_iff`: when the base that comes in is filled or rests.
-/

namespace Forceio.Exchange

open Forceio.Lib Forceio.Eosiolib Exec KeyedTable List
open Forceio.Chain (AccountName)

variable {env : Env} {w w' : World} {block : Nat} {auth : List AccountName} {i : Incoming}
variable {t : Taker}

/-! ## Limit prices -/

/-- The price of a fill is between the limit of the ask and the limit of the bid. The limit of the
order that comes in is the price that it gives. -/
def Incoming.WithinLimits (i : Incoming) (t : Taker) (o : Order) : Prop :=
  Asset.ValueLe (if t.bid then o.price else i.price) (t.dealPrice o) ∧
    Asset.ValueLe (t.dealPrice o) (if t.bid then i.price else o.price)

instance (i : Incoming) (t : Taker) (o : Order) : Decidable (i.WithinLimits t o) :=
  inferInstanceAs (Decidable (_ ∧ _))

/-- The price of an ask that finds a bid is not lowered when it is converted. -/
def PriceKept (i : Incoming) (p : Plan) : Prop :=
  p.taker.bid = false → (∃ l ∈ p.range, l ≠ []) → Asset.ValueLe i.price p.taker.price

/-- Some orders take all of an amount of base, one after the other. -/
def Consumed : List Order → Int → Prop
  | [], _ => False
  | o :: rest, base => base ≤ o.base.amount ∨ Consumed rest (base - o.base.amount)

/-- The price of an ask, cut to 32 bits, lets no bid below it in, or the bids that are not below it
take all of the base. -/
def CutHarmless (p : Plan) : Prop :=
  p.taker.bid = false → ∀ l ∈ p.range, (∃ o ∈ l, o.price.amount < p.taker.price.amount) →
    Consumed (l.filter fun o => p.taker.price.amount ≤ o.price.amount) p.base.amount

theorem valueLe_iff {a b : Asset} (h : a.symbol.precision = b.symbol.precision) :
    Asset.ValueLe a b ↔ a.amount ≤ b.amount := by
  have hpos : (0 : Int) < 10 ^ b.symbol.precision := by positivity
  unfold Asset.ValueLe
  rw [h, mul_le_mul_iff_of_pos_right hpos]

theorem withinLimits_bid {o : Order} (hbid : t.bid = true)
    (hsymbol : t.price.symbol = o.price.symbol) (hgiven : Asset.ValueLe t.price i.price)
    (h : o.price.amount ≤ t.price.amount) : i.WithinLimits t o := by
  unfold Incoming.WithinLimits Taker.dealPrice Asset.ValueLe at *
  rw [hsymbol] at hgiven
  simp only [hbid, if_true]
  refine ⟨le_rfl, le_trans ?_ hgiven⟩
  exact mul_le_mul_of_nonneg_right h (by positivity)

theorem withinLimits_ask {o : Order} (hbid : t.bid = false)
    (hsymbol : t.price.symbol = o.price.symbol) :
    i.WithinLimits t o ↔ Asset.ValueLe i.price t.price ∧ t.price.amount ≤ o.price.amount := by
  unfold Incoming.WithinLimits Taker.dealPrice
  simp only [hbid, Bool.false_eq_true, if_false]
  rw [valueLe_iff (congrArg SymbolType.precision hsymbol)]

/-- From the dearest order down, what is reached stays above a price unless the orders above it are
used up. -/
theorem reached_above (price : Int) : ∀ {l : List Order} (base : Int),
    l.Pairwise (fun o f => f.price.amount ≤ o.price.amount) →
      ((∀ od ∈ reached l base, price ≤ od.1.price.amount) ↔ ((∃ o ∈ l, o.price.amount < price) →
          Consumed (l.filter fun o => price ≤ o.price.amount) base))
  | [], _, _ => by simp [reached]
  | o :: l, base, hl => by
    obtain ⟨hfirst, hrest⟩ := pairwise_cons.mp hl
    have ih := reached_above price (base - o.base.amount) hrest
    by_cases hprice : price ≤ o.price.amount
    · rw [filter_cons_of_pos (by simpa using hprice), Consumed, reached]
      by_cases hle : base ≤ o.base.amount
      · simp [hle, hprice]
      · simpa [hle, hprice, not_lt.mpr hprice] using ih
    · have hnone : l.filter (fun o => price ≤ o.price.amount) = [] := by
        refine filter_eq_nil_iff.mpr fun f hf => ?_
        have := hfirst f hf
        simp only [decide_eq_true_eq]
        omega
      rw [filter_cons_of_neg (by simpa using hprice), hnone, reached]
      refine iff_of_false (fun h => hprice ?_) fun h => h ⟨o, mem_cons_self, not_le.mp hprice⟩
      split at h
      · exact h _ mem_cons_self
      · exact h _ mem_cons_self

theorem range_descending {l : List Order} (hrange : w.range t = .ok (some l)) (hbid : t.bid = false)
    (hprices : w.Priced t.pair.id true) : l.Pairwise fun o f => f.price.amount ≤ o.price.amount := by
  obtain ⟨hside, hwalk, -⟩ := range_walk hrange
  rw [hbid] at hside hwalk
  refine hwalk.imp_of_mem fun {o f} ho hf hbefore => ?_
  rw [walkedBefore_ask hprices (hside o ho) (hside f hf)] at hbefore
  omega

theorem uint32_le_of_range {l : List Order} (hrange : w.range t = .ok (some l)) (hbid : t.bid = true)
    (hprices : w.Priced t.pair.id false) : (uint32 t.price.amount : Int) ≤ t.price.amount := by
  unfold World.range at hrange
  rw [if_pos hbid] at hrange
  obtain ⟨found, hfound, hrange⟩ := bind_eq_ok.mp hrange
  cases found with
  | false => exact absurd (pure_eq_ok.mp hrange) (by simp)
  | true =>
    unfold World.hasAsk at hfound
    split at hfound
    · simp at hfound
    · next o hfind =>
      split at hfound
      · simp at hfound
      · next hpair =>
        obtain ⟨dearer, hdearer, hnot⟩ := bind_eq_ok.mp hfound
        obtain ⟨-, rfl⟩ := Asset.compare_eq_ok_iff.mp hdearer
        have hle : o.price.amount ≤ t.price.amount := by simpa using pure_eq_ok.mp hnot
        simp only [not_or, not_not, Bool.not_eq_true] at hpair
        have hmem := ((find?_sortedBy_iff _).mp hfind).1
        have hpos := hprices o (mem_side.mpr ⟨hmem, hpair⟩)
        unfold uint32
        omega

/-- An ask of a price below `2 ^ 32` is looked up at its price. -/
theorem cutHarmless_of_lt {base : Asset} {range : Option (List Order)} (hrange : w.range t = .ok range)
    (hprices : w.Priced t.pair.id (!t.bid)) (hlt : t.price.amount < 2 ^ 32) :
    CutHarmless ⟨t, base, range⟩ := by
  intro hask l hl hsome
  obtain ⟨o, ho, hbelow⟩ := hsome
  obtain rfl : range = some l := hl
  have hask : t.bid = false := hask
  rw [hask] at hprices
  obtain ⟨-, -, heq⟩ := range_walk hrange
  rw [if_neg (by simp [hask])] at heq
  rw [heq] at ho
  have ho := mem_reverse.mp ho
  have hlow := le_of_mem_bidsFrom ho
  have hprice := hprices.uint64 (mem_bidsFrom ho)
  have hbelow : o.price.amount < t.price.amount := hbelow
  unfold uint32 at hlow
  omega

theorem valueLe_of_fits {s : SymbolType} {a a' : Asset} (h : convert s a = .ok a')
    (hle : a.symbol.precision ≤ s.precision) (hs : s.precision ≤ maxDecimals) (hpos : 0 ≤ a.amount)
    (hfits : a.amount * 10 ^ (s.precision - a.symbol.precision) < 2 ^ 63) : Asset.ValueLe a a' := by
  have hnonneg : 0 ≤ a.amount * 10 ^ (s.precision - a.symbol.precision) :=
    mul_nonneg hpos (by positivity)
  rw [convert_up hle hs h, int64_of_range (by omega) hfits]
  unfold Asset.ValueLe
  rw [mul_assoc, ← pow_add, Nat.sub_add_cancel hle]

theorem Match.filled_symbol (m : Match env block i w w') {o : Order} (ho : o ∈ filledOrders w w') :
    m.taker.price.symbol = o.price.symbol := by
  obtain ⟨range, hrange⟩ := m.exists_range
  obtain ⟨-, fs, horders, hfilled⟩ := m.filledOrders_fills hrange
  rw [horders] at ho
  obtain ⟨f, hf, rfl⟩ := mem_map.mp ho
  exact (hfilled.sound f hf).price_symbol

/-- **Limit prices**: in a book of positive prices and with tokens of at most 18 decimals, every fill of
a match is at a price between the limits of its bid and its ask exactly if an ask keeps its price and
the cut of that price is harmless; so it is for a bid, and for a price that needs no rounding and fits
into 32 bits. -/
theorem withinLimits_iff
    (h : matchOrder env block auth i.pairId i.payer i.receiver i.chain i.quantity i.price i.bid
      i.excAcc i.feeType w = .ok ⟨⟩ w')
    (hprices : ∀ o ∈ w.side i.pairId (!i.bid), 0 < o.price.amount ∧ o.price.amount < 2 ^ 63)
    (hgiven : 0 < i.price.amount ∧ i.price.amount < 2 ^ 63)
    (hdecimals : i.price.symbol.precision ≤ maxDecimals ∧
      ∀ pair ∈ w.pairs.find? i.pairId, pair.quote.precision ≤ maxDecimals) :
    ∃ p, i.plan w = .ok p ∧
      ((∀ o ∈ filledOrders w w', i.WithinLimits p.taker o) ↔ PriceKept i p ∧ CutHarmless p) ∧
      (p.taker.price.amount < 2 ^ 32 → CutHarmless p) ∧
      (i.price.symbol.precision ≤ p.taker.pair.quote.precision →
        i.price.amount * 10 ^ (p.taker.pair.quote.precision - i.price.symbol.precision) < 2 ^ 63 →
          PriceKept i p) := by
  obtain ⟨-, ⟨m⟩⟩ := matchOrder_match h
  obtain ⟨range, hrange⟩ := m.exists_range
  have hid : m.taker.pair.id = i.pairId := m.pair_id
  have hquote : m.pair.quote.precision ≤ maxDecimals := hdecimals.2 _ m.pair_eq
  rw [← hid] at hprices
  have hprices : w.Priced m.taker.pair.id (!i.bid) := fun o ho => (hprices o ho).imp_left le_of_lt
  refine ⟨_, m.plan_eq hrange, ?_, cutHarmless_of_lt hrange hprices,
    fun hle hfits _ _ => valueLe_of_fits m.price_eq hle hquote hgiven.1.le hfits⟩
  have hsymbol := fun o ho => m.filled_symbol (o := o) ho
  rw [m.filledOrders_eq hrange] at hsymbol ⊢
  cases range with
  | none =>
    refine iff_of_true (fun o ho => absurd ho (by simp)) ⟨fun _ hl => absurd hl (by simp),
      fun _ l hl => absurd hl (by simp)⟩
  | some l =>
    cases hbid : i.bid with
    | true =>
      rw [hbid] at hprices
      have hbid : m.taker.bid = true := hbid
      have hcut := uint32_le_of_range hrange hbid hprices
      obtain ⟨-, -, heq⟩ := range_walk hrange
      rw [if_pos hbid] at heq
      have hnot : ¬ m.taker.bid = false := by simp [hbid]
      refine iff_of_true (fun o ho => withinLimits_bid hbid (hsymbol o ho) ?_ ?_)
        ⟨fun hask => absurd hask hnot, fun hask => absurd hask hnot⟩
      · exact convert_valueLe hquote hdecimals.1 hgiven.1.le hgiven.2 m.price_eq
      · have hol := (reached_start l m.base.amount).subset ho
        rw [heq] at hol
        obtain ⟨hoside, hle⟩ := mem_asksUpTo.mp hol
        have hprice := hprices.uint64 hoside
        show o.price.amount ≤ m.taker.price.amount
        omega
    | false =>
      rw [hbid] at hprices
      have hbid : m.taker.bid = false := hbid
      have habove := reached_above m.taker.price.amount m.base.amount
        (range_descending hrange hbid hprices)
      have hcut : CutHarmless ⟨m.taker, m.base, some l⟩ ↔
          ∀ od ∈ reached l m.base.amount, m.taker.price.amount ≤ od.1.price.amount := by
        unfold CutHarmless
        simp only [hbid, forall_true_left, Option.mem_def, Option.some.injEq, forall_eq', habove]
      have hkept : PriceKept i ⟨m.taker, m.base, some l⟩ ↔
          (l ≠ [] → Asset.ValueLe i.price m.taker.price) := by
        unfold PriceKept
        simp [hbid]
      have hfirst : l ≠ [] ↔ ∃ o, o ∈ (reached l m.base.amount).map Prod.fst := by
        cases l with
        | nil => simp [reached]
        | cons o l => simp only [reached]; split <;> simp
      rw [hcut, hkept, hfirst]
      constructor
      · intro hall
        have hboth := fun o ho => (withinLimits_ask hbid (hsymbol o ho)).mp (hall o ho)
        exact ⟨fun hsome => hsome.elim fun o ho => (hboth o ho).1,
          fun od hod => (hboth _ (mem_map_of_mem hod)).2⟩
      · rintro ⟨hkept, hcut⟩ o ho
        obtain ⟨od, hod, rfl⟩ := mem_map.mp ho
        exact (withinLimits_ask hbid (hsymbol _ ho)).mpr ⟨hkept ⟨_, ho⟩, hcut od hod⟩

theorem withinLimits_sellsOne : thrown (sellsOne.run 3 [1] market tiedBook) = none ∧
    ∃ p, sellsOne.plan tiedBook = .ok p ∧
      ∀ o ∈ filledOrders tiedBook (stateOf (sellsOne.run 3 [1] market tiedBook)),
        sellsOne.WithinLimits p.taker o := by
  have hrun : thrown (sellsOne.run 3 [1] market tiedBook) = none := by decide +kernel
  have hprice : (sellsOne.plan tiedBook).map (fun p =>
      (p.taker.price.amount, p.taker.pair.quote.precision)) = .ok (500, 4) := by decide +kernel
  obtain ⟨p, hplan, hiff, hlow, hkept⟩ := withinLimits_iff (i := sellsOne) (eq_ok_of_thrown hrun)
    (by decide +kernel) (by decide +kernel) (by decide +kernel)
  rw [hplan] at hprice
  obtain ⟨hprice, hdecimals⟩ := Prod.mk.inj (Except.ok.inj hprice)
  refine ⟨hrun, p, hplan, hiff.mpr ⟨hkept ?_ ?_, hlow (by omega)⟩⟩
  · rw [hdecimals]
    decide +kernel
  · rw [hdecimals]
    decide +kernel

/-- A bid at `0.0500` coins, of an account with many more. -/
def cheapBook : World :=
  (after market (openRun ++
    [callOf 2 (.deposit alice mainChain ⟨2 ^ 33, sys⟩ "trade;alice;0;0.0500 SYS;1;dex;;1".toList)])
      {}).changeHeld 5 abc.name 1

/-- An ask for one token at a price. -/
def sellsAt (amount : Int) (decimals : Nat) : Incoming :=
  ⟨0, dex, dex, 5, ⟨1, abc⟩, ⟨amount, stringToSymbol decimals "SYS"⟩, false, dex, 1⟩

/-- **An ask is filled beyond a limit**: at a price that is cut to `1`, far above the limit of the bid;
and below its own, `0.05009` coins that are rounded to `0.0500`, or coins that wrap to `0.0304`. -/
theorem dear_ask_filled : (∀ o ∈ cheapBook.orders.rows, 0 < o.price.amount) ∧
    ∀ i ∈ [sellsAt (2 ^ 32 + 1) 4, sellsAt 5009 5, sellsAt 11068046444225731 0],
      thrown (i.run 3 [1] market cheapBook) = none ∧ ∃ p ∈ (i.plan cheapBook).toOption,
        ∃ o ∈ filledOrders cheapBook (stateOf (i.run 3 [1] market cheapBook)),
          ¬ i.WithinLimits p.taker o := by
  decide +kernel

/-! ## Quantities -/

/-- **These fills are made, and this much of the order is left resting.** Together they are the base
that comes in; every fill is of an order of the book, which keeps the rest of its base unless that is
zero, and what is left is a new order. -/
structure Conserved (env : Env) (p : Plan) (fs : List Fill) (left : Option Int) (w w' : World) :
    Prop where
  filled : Filled env p.taker fs w w'
  once : (fs.map Fill.order).Nodup ∧ ∀ f ∈ fs, f.order ∈ w.orders.rows
  base : p.base.amount = (fs.map Fill.deal).sum + left.getD 0
  new : left ≠ none → ((fs.map Fill.reached).foldl dealt w.orders).find? p.taker.orderId = none
  book : w'.orders = left.elim ((fs.map Fill.reached).foldl dealt w.orders) fun x =>
    ((fs.map Fill.reached).foldl dealt w.orders).insert (p.taker.order ⟨x, p.taker.pair.base⟩)

theorem Conserved.resting {p : Plan} {fs : List Fill} {left : Option Int} {x : Int}
    (h : Conserved env p fs left w w') (hleft : left = some x) :
    p.taker.order ⟨x, p.taker.pair.base⟩ ∈ w'.orders.rows := by
  rw [h.book, hleft]
  exact mem_insert.mpr (.inl rfl)

theorem reached_total : ∀ {l : List Order} (base : Int), l ≠ [] →
    ((reached l base).map Prod.snd).sum + (remaining l base).getD 0 = base
  | [], _, h => absurd rfl h
  | o :: rest, base, _ => by
    unfold reached remaining
    by_cases hle : base ≤ o.base.amount
    · simp [hle]
    · by_cases hrest : rest = []
      · simp [hle, hrest, reached]
      · have ih := reached_total (base - o.base.amount) hrest
        simp only [if_neg hle, if_neg hrest, map_cons, sum_cons]
        omega

/-- The book after a walk: what is dealt of the orders that are reached, and what is left. -/
theorem bookAfter_eq : ∀ (l : List Order) (base : Int) (book : KeyedTable Order),
    bookAfter t l base book = (remaining l base).elim ((reached l base).foldl dealt book) fun x =>
      ((reached l base).foldl dealt book).insert (t.order ⟨x, t.pair.base⟩)
  | [], _, _ => rfl
  | o :: rest, base, book => by
    unfold bookAfter reached remaining
    by_cases hle : base ≤ o.base.amount
    · by_cases hlt : base < o.base.amount
      · simp [hle, hlt, hlt.ne, dealt]
      · simp [le_antisymm hle (not_lt.mp hlt), dealt]
    · by_cases hrest : rest = []
      · simp [hle, hrest, reached, dealt]
      · simp [hle, hrest, bookAfter_eq rest, dealt]

/-- **No order is lost**: the base that comes in is filled or left resting, and the book changes by
that, exactly unless a bid finds an ask and its price, cut to 32 bits, is below all of them. -/
theorem nothingLost_iff
    (h : matchOrder env block auth i.pairId i.payer i.receiver i.chain i.quantity i.price i.bid
      i.excAcc i.feeType w = .ok ⟨⟩ w') :
    ∃ p, i.plan w = .ok p ∧ ((∃ fs left, Conserved env p fs left w w') ↔
      (p.range = some [] → p.base.amount = 0)) := by
  obtain ⟨-, ⟨m⟩⟩ := matchOrder_match h
  obtain ⟨range, fs, hrange, hmap, hfilled⟩ := m.fills
  obtain ⟨-, hbooked, -, hfree⟩ := m.settled (L := fun _ => True) fun _ _ _ _ _ _ _ => trivial
  have hnone : ∀ {f : Fill}, f ∉ ([] : List Fill) := by simp
  refine ⟨_, m.plan_eq hrange, ?_⟩
  cases hbooked with
  | rests hrests hnew horders =>
    obtain rfl : range = none := Except.ok.inj (hrange.symm.trans hrests)
    obtain rfl : fs = [] := map_eq_nil_iff.mp hmap
    refine iff_of_true ⟨[], some m.base.amount, hfilled, ⟨nodup_nil, fun f hf => absurd hf hnone⟩,
      (zero_add _).symm, fun _ => hnew, ?_⟩ fun hsome => absurd hsome (by simp)
    rw [horders]
    show _ = w.orders.insert (m.taker.order ⟨m.base.amount, m.pair.base⟩)
    rw [← m.base_symbol]
  | @walked l hwalked horders =>
    obtain rfl : range = some l := Except.ok.inj (hrange.symm.trans hwalked)
    have hmap : fs.map Fill.reached = reached l m.base.amount := hmap
    constructor
    · rintro ⟨gs, left, hgs⟩ hnil
      obtain rfl : l = [] := Option.some.inj hnil
      have hfs := (hgs.filled.filledOrders hgs.once.2).symm.trans (m.filledOrders_eq hrange)
      obtain rfl : gs = [] := map_eq_nil_iff.mp hfs
      cases left with
      | none => exact hgs.base
      | some x =>
        have hmem := hgs.resting rfl
        rw [horders] at hmem
        exact absurd rfl (find?_eq_none_iff.mp (hgs.new (by simp)) _ hmem)
    · intro hcond
      obtain ⟨-, hwalk, -⟩ := range_walk hrange
      have hnodup : l.Nodup := hwalk.imp fun hbefore heq => by
        subst heq
        exact hbefore.asymm hbefore
      have horder : fs.map Fill.order <+: l := by
        have hstart := reached_start l m.base.amount
        rw [← hmap, map_map] at hstart
        exact hstart
      refine ⟨fs, remaining l m.base.amount, hfilled, ⟨hnodup.sublist horder.sublist, fun f hf => ?_⟩,
        ?_, fun hleft => ?_, ?_⟩
      · exact mem_of_range hrange (horder.subset (mem_map_of_mem hf))
      · have hsum : (fs.map Fill.deal).sum = ((reached l m.base.amount).map Prod.snd).sum := by
          rw [← hmap, map_map]
          rfl
        by_cases hnil : l = []
        · rw [hsum, hnil]
          exact hcond (congrArg some hnil)
        · rw [hsum, reached_total _ hnil]
      · rw [hmap]
        exact hfree l hrange hleft
      · rw [horders, bookAfter_eq, hmap]

theorem nothingLost_sellsOne : thrown (sellsOne.run 3 [1] market tiedBook) = none ∧
    ∃ p fs left, sellsOne.plan tiedBook = .ok p ∧
      Conserved market p fs left tiedBook (stateOf (sellsOne.run 3 [1] market tiedBook)) := by
  have hrun : thrown (sellsOne.run 3 [1] market tiedBook) = none := by decide +kernel
  have hrange : (sellsOne.plan tiedBook).map (·.range == some []) = .ok false := by decide +kernel
  obtain ⟨p, hplan, hiff⟩ := nothingLost_iff (i := sellsOne) (eq_ok_of_thrown hrun)
  rw [hplan] at hrange
  have hrange : (p.range == some []) = false := Except.ok.inj hrange
  obtain ⟨fs, left, hconserved⟩ := hiff.mpr fun hnil => by simp [hnil] at hrange
  exact ⟨hrun, p, fs, left, hplan, hconserved⟩

/-- A bid for one token at the first price that is cut to zero. -/
def buysDear : Incoming := ⟨0, bob, bob, mainChain, ⟨2 ^ 32, sys⟩, ⟨2 ^ 32, sys⟩, true, dex, 1⟩

/-- The world after it. -/
def afterDear : World := stateOf (buysDear.run 3 [1] market (after market asksRun {}))

/-- **A bid above all asks is lost**: it is accepted, and neither filled nor in the book. -/
theorem dear_bid_lost : thrown (buysDear.run 3 [1] market (after market asksRun {})) = none ∧
    ∃ p ∈ (buysDear.plan (after market asksRun {})).toOption, p.base.amount = 1 ∧
      ¬ ∃ fs left, Conserved market p fs left (after market asksRun {}) afterDear := by
  have hplan : ∃ p ∈ (buysDear.plan (after market asksRun {})).toOption, p.base.amount = 1 ∧
      ∀ o ∈ afterDear.orders.rows, o.id ≠ p.taker.orderId := by decide +kernel
  have hfills : afterDear.fills = (after market asksRun {}).fills := by decide +kernel
  obtain ⟨p, hp, hbase, hids⟩ := hplan
  refine ⟨by decide +kernel, p, hp, hbase, ?_⟩
  rintro ⟨fs, left, h⟩
  obtain rfl : fs = [] := by simpa using h.filled.fills.symm.trans hfills
  have htotal := h.base
  cases left with
  | none => exact absurd (hbase.symm.trans htotal) (by simp)
  | some x => exact hids _ (h.resting rfl) rfl

end Forceio.Exchange
