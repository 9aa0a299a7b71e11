import Forceio.Exchange.Amounts
import Forceio.Exchange.Priority
import Forceio.Exchange.WellFormed

/-!
# Resting orders

`match` checks neither the price of an order nor what stays of it after a walk, so that an order can
rest that is worth less than a unit of the quote token, or less than its fee. Nobody can then fill,
cancel or refund it: the tokens reject transfers of nothing.

Result:
* `restingPositive_run`: where orders come in lots that are worth more than their fees, every resting
  order is worth something, and so is everything that is sent for it.
-/

namespace Forceio.Exchange

open Forceio.Lib Exec Forceio.Eosiolib KeyedTable List
open Forceio.Chain (AccountName)

variable {env : Env} {w w' : World} {l : LotSize} {pair : TradingPair}

/-- What an order is worth, in the smallest unit of the quote token. -/
def Order.worth (o : Order) : Int := o.price.amount * o.base.amount / 10 ^ o.base.symbol.precision

/-- An order that is worth something. -/
structure Order.Positive (o : Order) : Prop where
  price : 0 < o.price.amount
  base : 0 < o.base.amount
  worth : 0 < o.worth

/-! ## Lots -/

/-- A lot of base, a tick of price, and the least that a fill moves of a token. -/
structure LotSize where
  lot : Int
  tick : Int
  least : Int
  least_pos : 0 < least
  least_le : least ≤ lot

theorem LotSize.lot_pos (l : LotSize) : 0 < l.lot := l.least_pos.trans_le l.least_le

/-- A fee at this rate leaves something of what a fill moves; it is one unit at least, unless the rate
is zero. -/
def LotSize.Leaves (l : LotSize) (rate : Nat) : Prop :=
  rate = 0 ∨ (rate : Int) < maxFeeRate ∧ 2 ≤ l.least

instance (l : LotSize) (rate : Nat) : Decidable (l.Leaves rate) :=
  inferInstanceAs (Decidable (_ ∨ _))

/-- Some whole lots of base, at a price of whole ticks: a lot is worth `least` at the price, and a unit
at any difference of two prices. -/
structure InLots (l : LotSize) (price base : Asset) : Prop where
  decimals : base.symbol.precision ≤ maxDecimals ∧ price.symbol.precision ≤ maxDecimals
  price_pos : 0 < price.amount
  ticks : l.tick ∣ price.amount
  tick_worth : 10 ^ base.symbol.precision ≤ l.tick * l.lot
  worth : l.least * 10 ^ base.symbol.precision ≤ price.amount * l.lot
  base_pos : 0 < base.amount
  base_le : base.amount ≤ Asset.maxAmount
  lots : l.lot ∣ base.amount

instance (l : LotSize) (price base : Asset) : Decidable (InLots l price base) :=
  decidable_of_iff ((base.symbol.precision ≤ maxDecimals ∧ price.symbol.precision ≤ maxDecimals) ∧
      0 < price.amount ∧ l.tick ∣ price.amount ∧ 10 ^ base.symbol.precision ≤ l.tick * l.lot ∧
      l.least * 10 ^ base.symbol.precision ≤ price.amount * l.lot ∧ 0 < base.amount ∧
      base.amount ≤ Asset.maxAmount ∧ l.lot ∣ base.amount)
    ⟨fun ⟨a, b, c, d, e, f, g, h⟩ => ⟨a, b, c, d, e, f, g, h⟩,
      fun ⟨a, b, c, d, e, f, g, h⟩ => ⟨a, b, c, d, e, f, g, h⟩⟩

/-- The order that a call brings in is in lots. -/
def Lots (l : LotSize) : World → Call → Prop := PlanMeets fun _ p => InLots l p.taker.price p.base

instance (w : World) (c : Call) : Decidable (Lots l w c) :=
  inferInstanceAs (Decidable (PlanMeets _ w c))

/-- What some base is worth at a price, in the quote token. -/
def quoteValue (env : Env) (pair : TradingPair) (price base : Asset) : Except ContractError Asset := do
  toAsset env pair.quoteChain pair.quoteSym (← dealValue price base)

/-- The refund of a better price is worth something. -/
def RefundPositive (env : Env) (pair : TradingPair) (low high deal : Asset) : Prop :=
  low.amount < high.amount → ∀ diff quant, high.sub low = .ok diff →
    quoteValue env pair diff deal = .ok quant → 0 < quant.amount

namespace InLots

variable {price price' base base' deal : Asset}

theorem lot_le (h : InLots l price base) : l.lot ≤ base.amount := Int.le_of_dvd h.base_pos h.lots

theorem sub {x y : Int} {s : SymbolType} (h : InLots l price ⟨x, s⟩) (hy : 0 < y) (hdvd : l.lot ∣ y)
    (hlt : y < x) : InLots l price ⟨x - y, s⟩ where
  decimals := h.decimals
  price_pos := h.price_pos
  ticks := h.ticks
  tick_worth := h.tick_worth
  worth := h.worth
  base_pos := Int.sub_pos.mpr hlt
  base_le := le_trans (by show x - y ≤ x; omega) h.base_le
  lots := Int.dvd_sub h.lots hdvd

theorem at_price (h : InLots l price base) (h' : InLots l price' base')
    (hsymbol : base.symbol = base'.symbol) : InLots l price base' where
  decimals := ⟨h'.decimals.1, h.decimals.2⟩
  price_pos := h.price_pos
  ticks := h.ticks
  tick_worth := h'.tick_worth
  worth := hsymbol ▸ h.worth
  base_pos := h'.base_pos
  base_le := h'.base_le
  lots := h'.lots

theorem le_worth (h : InLots l price base) :
    l.least ≤ price.amount * base.amount / 10 ^ base.symbol.precision :=
  Int.le_ediv_of_mul_le (by positivity)
    (h.worth.trans (mul_le_mul_of_nonneg_left h.lot_le h.price_pos.le))

theorem positive {o : Order} (h : InLots l o.price o.base) : o.Positive :=
  ⟨h.price_pos, h.base_pos, l.least_pos.trans_le h.le_worth⟩

section Tokens

variable {quant : Asset} (hcoherent : pair.Coherent env)
  (hbase : base.symbol = pair.base) (hprice : price.symbol = pair.quote)

include hcoherent hbase hprice

theorem value (h : InLots l price base)
    (hquant : quoteValue env pair price base = .ok quant) :
    quant = ⟨price.amount * base.amount / 10 ^ base.symbol.precision, pair.quoteSym⟩ := by
  obtain ⟨value, hvalue, hquant⟩ := bind_eq_ok.mp hquant
  obtain ⟨hbaseDec, hpriceDec⟩ := h.decimals
  have hbase' : base.symbol.precision = pair.baseSym.precision := by
    rw [hbase, hcoherent.base_precision]
  have hprice' : price.symbol.precision = pair.quoteSym.precision := by
    rw [hprice, hcoherent.quote_precision]
  rw [dealValue_quote hcoherent (hbase' ▸ hbaseDec) (hprice' ▸ hpriceDec) hprice hbase h.price_pos.le
    h.base_pos.le hvalue hquant, hbase']

theorem least_le (leg : Leg) (h : InLots l price base) (hquant : (match leg with
      | .base => toAsset env pair.baseChain pair.baseSym base
      | .quote => quoteValue env pair price base) = .ok quant) :
    l.least ≤ quant.amount := by
  cases leg with
  | base =>
    have hmax := h.base_le
    have hpos := h.base_pos
    unfold Asset.maxAmount at hmax
    rw [toAsset_base hcoherent hbase (by omega) (by omega) hquant]
    exact l.least_le.trans h.lot_le
  | quote =>
    rw [h.value hcoherent hbase hprice hquant]
    exact h.le_worth

omit hprice in
/-- A better price is worth something. -/
theorem refundPositive (h : InLots l price base) (h' : InLots l price' base)
    (hprice' : price'.symbol = pair.quote) : RefundPositive env pair price price' base := by
  intro hlt diff quant hdiff hquant
  obtain ⟨-, -, rfl⟩ := Asset.sub_eq_ok_iff.mp hdiff
  have hdvd : l.tick ∣ price'.amount - price.amount := Int.dvd_sub h'.ticks h.ticks
  have hle : l.tick ≤ price'.amount - price.amount := Int.le_of_dvd (Int.sub_pos.mpr hlt) hdvd
  have hone : InLots ⟨l.lot, l.tick, 1, one_pos, l.lot_pos⟩
      ⟨price'.amount - price.amount, price'.symbol⟩ base :=
    { h' with
      price_pos := Int.sub_pos.mpr hlt
      ticks := hdvd
      worth := by
        rw [one_mul]
        exact h.tick_worth.trans (mul_le_mul_of_nonneg_right hle l.lot_pos.le) }
  rw [hone.value hcoherent hbase (by exact hprice') hquant]
  exact one_pos.trans_le hone.le_worth

end Tokens

end InLots

/-! ## The book -/

/-- **A walk over lots leaves lots.** -/
theorem leftover_lots {t : Taker} {o' : Order} : ∀ {os : List Order} {base : Int},
    (∀ o ∈ os, InLots l o.price o.base) → InLots l t.price ⟨base, t.pair.base⟩ →
      leftover t os base = some o' → InLots l o'.price o'.base
  | [], _, _, _, h => absurd h (by simp [leftover])
  | o :: rest, base, hos, ht, h => by
    have ho := hos o mem_cons_self
    unfold leftover at h
    split at h
    · split at h
      · next hlt =>
        obtain rfl := Option.some.inj h
        exact InLots.sub ho ht.base_pos ht.lots hlt
      · simp at h
    · next hle =>
      have hrest := ht.sub ho.base_pos ho.lots (not_le.mp hle)
      split at h
      · obtain rfl := Option.some.inj h
        exact hrest
      · exact leftover_lots (fun p hp => hos p (mem_cons_of_mem _ hp)) hrest h

theorem Booked.inLots {t : Taker} {base : Asset} {orders' : KeyedTable Order}
    (h : Booked w t base w.orders orders') (hw : ∀ o ∈ w.orders.rows, InLots l o.price o.base)
    (hsymbol : base.symbol = t.pair.base) (hbase : InLots l t.price base) {o' : Order}
    (ho' : o' ∈ orders'.rows) : InLots l o'.price o'.base := by
  cases h with
  | walked hrange horders =>
    rw [horders] at ho'
    rcases mem_bookAfter ho' with ho' | hleft
    · exact hw o' ho'
    · refine leftover_lots (fun o ho => hw o (mem_of_range hrange ho)) ?_ hleft
      rw [← hsymbol]
      exact hbase
  | rests hrange hnew horders =>
    rw [horders] at ho'
    exact forall_mem_insert (P := fun o => InLots l o.price o.base) hbase hw o' ho'

theorem Ran.inLots {c : Call} (hw : ∀ o ∈ w.orders.rows, InLots l o.price o.base) (hc : Lots l w c)
    (hran : Ran env c w w') : ∀ o ∈ w'.orders.rows, InLots l o.price o.base := by
  rcases hran.book.2 with hsub | ⟨i, held, w1, hincoming, ⟨m⟩, horders⟩
  · exact fun o ho => hw o (hsub o ho)
  · rw [horders]
    obtain ⟨range, hrange⟩ := m.exists_range
    have hbooked := (m.spec (L := fun _ => True) fun _ _ _ _ _ _ _ => trivial).2
    exact fun o ho => hbooked.inLots hw m.base_symbol (m.meets hincoming hc hrange) ho

/-! ## Fees -/

theorem calcfee_lt {quantity fee : Asset} {rate : Nat} (hleast : l.least ≤ quantity.amount)
    (hrate : l.Leaves rate) (h : calcfee quantity rate = .ok fee) : fee.amount < quantity.amount := by
  have hpos := l.least_pos
  obtain ⟨product, hmul, h⟩ := bind_eq_ok.mp h
  obtain ⟨quotient, hdiv, h⟩ := bind_eq_ok.mp h
  have hmax : (0 : Int) < maxFeeRate := by decide
  obtain ⟨rfl, -, -⟩ := mul_div_ok (by omega) (Int.natCast_nonneg rate) hmax hmul hdiv
  rw [pure_eq_ok.mp h]
  rcases hrate with rfl | ⟨hrate, htwo⟩
  · simpa using hpos.trans_le hleast
  · split
    · show 1 < quantity.amount
      omega
    · exact Int.ediv_lt_of_lt_mul hmax (mul_lt_mul_of_pos_left hrate (by omega))

/-- The pair is there, and the fee of every exchange on it leaves something. -/
structure Ready (l : LotSize) (pair : TradingPair) (w : World) : Prop where
  found : w.pairs.find? pair.id = some pair
  fees : ∀ {e row}, w.feeOf e pair.id = some row → l.Leaves row.rate

/-- **A leg of a fill**: something of the amount is left after its fee. -/
theorem payLeg_net {block feeType : Nat} {leg : Leg} {amount : Asset}
    {debtor feePayer excAcc : AccountName} {r : Asset × Asset} (h : Ready l pair w)
    (hleast : ∀ quant, toAsset env (pair.chainOf leg) (pair.symOf leg) amount = .ok quant →
      l.least ≤ quant.amount)
    (hpay : payLeg env block pair leg amount debtor feePayer excAcc feeType w = .ok r w') :
    0 < r.2.amount := by
  obtain ⟨quant, hquant, hpay⟩ := lift_bind_ok.mp hpay
  obtain ⟨_, w1, hdebit, hpay⟩ := bind_ok.mp hpay
  have h : Ready l pair w1 := by
    obtain ⟨accounts, rfl⟩ := debit_frame hdebit
    exact ⟨h.found, h.fees⟩
  obtain ⟨⟨n, fee⟩, w2, hcharge, hpay⟩ := bind_ok.mp hpay
  have hleast := hleast quant hquant
  have hpos := l.least_pos
  have hsupply : ∀ p, w1.pairs.find? pair.id = some p →
      env.supply (p.chainOf leg) (p.symOf leg).name = some quant.symbol := by
    intro p hp
    obtain rfl : pair = p := Option.some.inj (h.found.symm.trans hp)
    obtain ⟨hname, hissued⟩ := toAsset_supply hquant
    rwa [← hname]
  simp only at hpay
  split at hpay
  · next htoken =>
    obtain ⟨net, hnet, hpay⟩ := lift_bind_ok.mp hpay
    obtain ⟨-, -, rfl⟩ := Asset.sub_eq_ok_iff.mp hnet
    rw [← (pure_ok.mp hpay).1]
    refine Int.sub_pos.mpr ?_
    rcases chargeFee_cases (L := fun _ => True) trivial hsupply hcharge with ⟨-, hzero, -, -⟩ |
      ⟨p, row, row', w3, taken, kind, -, -, hrow, hcharged, -, hpaid, -⟩
    · omega
    · rcases hpaid with ⟨rfl, -⟩ | ⟨-, -, rfl, -, hkind⟩
      · exact absurd htoken (by simp)
      · cases hcharged with
        | token _ hfee _ => exact calcfee_lt hleast (h.fees hrow) hfee
        | points => exact absurd hkind (by simp)
  · rw [← (pure_ok.mp hpay).1]
    exact hpos.trans_le hleast

/-! ## What is sent -/

/-- **What a fill sends** is more than nothing: what is left of each leg after its fee, and what a
better price of either side refunds. -/
structure Taker.PaysOut (env : Env) (l : LotSize) (t : Taker) (o : Order) (deal : Asset) : Prop where
  net : ∀ {leg amount w r w'} {block feeType : Nat} {debtor feePayer excAcc : AccountName},
    Ready l t.pair w → t.amountOf o deal leg = .ok amount →
      payLeg env block t.pair leg amount debtor feePayer excAcc feeType w = .ok r w' → 0 < r.2.amount
  better : RefundPositive env t.pair o.price t.price deal ∧
    RefundPositive env t.pair t.price o.price deal

/-- A bid that is paid in the quote token. -/
structure Incoming.Paid (i : Incoming) (pair : TradingPair) : Prop where
  token : i.quantity.symbol = pair.quoteSym
  quantity : 0 ≤ i.quantity.amount ∧ i.quantity.amount < 2 ^ 63
  price : 0 < i.price.amount ∧ i.price.amount < 2 ^ 63
  decimals : i.price.symbol.precision ≤ maxDecimals

/-- **What an incoming order sends**: its fills pay out, and a bid is worth no more than it deposits. -/
structure Incoming.PaysOut (env : Env) (l : LotSize) (i : Incoming) (p : Plan) : Prop where
  fills : ∀ os ∈ p.range, ∀ od ∈ reached os p.base.amount,
    p.taker.PaysOut env l od.1 ⟨od.2, p.taker.pair.base⟩
  rest : i.bid = true → i.Paid p.taker.pair → ∀ {deposit value rest},
    toAsset env p.taker.pair.quoteChain p.taker.pair.quoteSym i.quantity = .ok deposit →
      quoteValue env p.taker.pair p.taker.price p.base = .ok value →
        deposit.sub value = .ok rest → 0 ≤ rest.amount

theorem InLots.refund_pos {o : Order} {quant : Asset} (h : InLots l o.price o.base)
    (hcoherent : pair.Coherent env) (hbase : o.base.symbol = pair.base)
    (hprice : o.price.symbol = pair.quote) (hquant : o.refund env pair = .ok quant) :
    0 < quant.amount := by
  refine l.least_pos.trans_le
    (h.least_le hcoherent hbase hprice (if o.bidOrAsk then .quote else .base) ?_)
  unfold Order.refund at hquant
  cases hbid : o.bidOrAsk with
  | true | false =>
    rw [hbid] at hquant
    exact hquant

theorem InLots.paysOut {t : Taker} {o : Order} {deal : Asset} (h : InLots l o.price o.base)
    (ht : InLots l t.price deal) (hcoherent : t.pair.Coherent env)
    (hbase : o.base.symbol = t.pair.base) (hprice : o.price.symbol = t.pair.quote)
    (hdeal : deal.symbol = t.pair.base) (htprice : t.price.symbol = t.pair.quote) :
    t.PaysOut env l o deal := by
  have hat := h.at_price ht (hbase.trans hdeal.symm)
  refine ⟨fun {leg amount w r w'} _ _ _ _ _ hw hamount hpay => ?_,
    hat.refundPositive hcoherent hdeal ht htprice, ht.refundPositive hcoherent hdeal hat hprice⟩
  have hlots : InLots l (t.dealPrice o) deal ∧ (t.dealPrice o).symbol = t.pair.quote := by
    unfold Taker.dealPrice
    split
    · exact ⟨hat, hprice⟩
    · exact ⟨ht, htprice⟩
  refine payLeg_net hw (fun quant hquant => hlots.1.least_le hcoherent hdeal hlots.2 leg ?_) hpay
  cases leg with
  | base =>
    obtain rfl := Except.ok.inj hamount
    exact hquant
  | quote => exact bind_eq_ok.mpr ⟨amount, hamount, hquant⟩

theorem reached_lots {price : Asset} {s : SymbolType} : ∀ {os : List Order} {base : Int},
    (∀ o ∈ os, InLots l o.price o.base) → InLots l price ⟨base, s⟩ →
      ∀ od ∈ reached os base, od.1 ∈ os ∧ InLots l price ⟨od.2, s⟩
  | [], _, _, _, _, hod => absurd hod (by simp [reached])
  | o :: rest, base, hos, ht, od, hod => by
    have ho := hos o mem_cons_self
    unfold reached at hod
    split at hod
    · obtain rfl := mem_singleton.mp hod
      exact ⟨mem_cons_self, ht⟩
    · next hle =>
      rcases mem_cons.mp hod with rfl | hod
      · exact ⟨mem_cons_self,
          { ht with base_pos := ho.base_pos, base_le := ho.base_le, lots := ho.lots }⟩
      · obtain ⟨hmem, hlots⟩ := reached_lots (fun p hp => hos p (mem_cons_of_mem _ hp))
          (ht.sub ho.base_pos ho.lots (not_le.mp hle)) od hod
        exact ⟨mem_cons_of_mem _ hmem, hlots⟩

theorem le_paid {price base given bought paid a b c : Int} (ha : 0 < a) (hb : 0 < b) (hc : 0 ≤ c)
    (hbase : 0 ≤ base) (hgiven : 0 ≤ given) (hvalue : base * b ≤ bought * c)
    (hlimit : price * a ≤ given * b) (hspent : bought * given ≤ paid * a) :
    price * base ≤ paid * c := by
  refine le_of_mul_le_mul_right ?_ (mul_pos ha hb)
  calc price * base * (a * b) = price * a * (base * b) := by ring
    _ ≤ given * b * (bought * c) := by gcongr
    _ = bought * given * (b * c) := by ring
    _ ≤ paid * a * (b * c) := by gcongr
    _ = _ := by ring

/-- **What a bid is worth** is covered by what it deposits: the base is worth what is spent on it, and
the converted price is no higher than the given one. -/
theorem Incoming.Paid.covers {i : Incoming} {base price : Asset} (h : i.Paid pair)
    (hcoherent : pair.Coherent env) (hlots : InLots l price base)
    (hbase : bidBase pair i.quantity i.price = .ok base)
    (hprice : convert pair.quote i.price = .ok price) :
    price.amount * base.amount ≤ i.quantity.amount * 10 ^ base.symbol.precision := by
  obtain ⟨product, hmul, hbase⟩ := bind_eq_ok.mp hbase
  obtain ⟨bought, hdiv, hbase⟩ := bind_eq_ok.mp hbase
  obtain ⟨hbaseDec, hpriceDec⟩ := hlots.decimals
  obtain ⟨hbought, hlow, hhigh⟩ :=
    mul_div_ok h.quantity.1 (precision_pos h.decimals).le h.price.1 hmul hdiv
  have hsymbol : bought.symbol.precision = price.symbol.precision := by
    rw [hbought, convert_symbol hprice, hcoherent.quote_precision]
    exact congrArg _ h.token
  unfold Asset.maxAmount at hhigh
  have hvalue := convert_valueLe (by rwa [← convert_symbol hbase]) (hsymbol ▸ hpriceDec) hlow (by omega)
    hbase
  have hlimit := convert_valueLe (by rwa [← convert_symbol hprice]) h.decimals h.price.1.le h.price.2
    hprice
  unfold Asset.ValueLe at hvalue
  rw [hsymbol] at hvalue
  refine le_paid (by positivity) (by positivity) (by positivity) hlots.base_pos.le h.price.1.le hvalue
    hlimit ?_
  rw [hbought, precision_eq h.decimals]
  exact Int.ediv_mul_le _ (ne_of_gt h.price.1)

/-! ## Runs -/

theorem Incoming.plan_ok {i : Incoming} {p : Plan} (h : i.plan w = .ok p) :
    w.pairs.find? i.pairId = some p.taker.pair ∧ i.base p.taker.pair = .ok p.base ∧
      convert p.taker.pair.quote i.price = .ok p.taker.price ∧ w.range p.taker = .ok p.range := by
  unfold plan at h
  split at h
  · simp at h
  · next pair hpair =>
    obtain ⟨base, hbase, h⟩ := bind_eq_ok.mp h
    obtain ⟨price, hprice, h⟩ := bind_eq_ok.mp h
    obtain ⟨range, hrange, h⟩ := bind_eq_ok.mp h
    obtain rfl := pure_eq_ok.mp h
    exact ⟨hpair, hbase, hprice, hrange⟩

/-- An order in lots that comes to a book of orders in lots. -/
theorem WellFormed.paysOut {i : Incoming} {p : Plan} (h : WellFormed env w)
    (hlots : ∀ o ∈ w.orders.rows, InLots l o.price o.base) (hplan : i.plan w = .ok p)
    (hp : InLots l p.taker.price p.base) : i.PaysOut env l p := by
  obtain ⟨hfind, hbase, hprice, hrange⟩ := Incoming.plan_ok hplan
  obtain ⟨hpair, hown⟩ := find?_eq_some_iff.mp hfind
  have hcoherent := h.tables.pairs.coherent _ hpair
  have hsymbol := Incoming.base_symbol hbase
  have htprice := convert_symbol hprice
  refine ⟨fun os hos od hod => ?_, fun hbid hpaid deposit value rest hdeposit hvalue hrest => ?_⟩
  · rw [hos] at hrange
    have hp : InLots l p.taker.price ⟨p.base.amount, p.taker.pair.base⟩ := hsymbol ▸ hp
    obtain ⟨ho, hdeal⟩ := reached_lots (fun o ho => hlots o (mem_of_range hrange ho)) hp od hod
    -- What is reached is of the pair, and so are its symbols.
    obtain ⟨hmem, hid, -⟩ := mem_side.mp ((range_walk hrange).1 _ ho)
    obtain ⟨pair, hpair, hobase, hoprice, -⟩ := h.orders.fits _ hmem
    have hown : p.taker.pair.id = i.pairId := hown
    rw [hid, hown, hfind] at hpair
    obtain rfl := Option.some.inj hpair
    exact (hlots _ hmem).paysOut hdeal hcoherent hobase hoprice rfl htprice
  · have hcovers := hpaid.covers hcoherent hp ((if_pos hbid).symm.trans hbase) hprice
    obtain ⟨hlow, hhigh⟩ := hpaid.quantity
    unfold toAsset at hdeposit
    rw [hcoherent.quote_supply] at hdeposit
    rw [(Asset.sub_eq_ok_iff.mp hrest).2.2, hp.value hcoherent hsymbol htprice hvalue,
      convert_same (by rw [hpaid.token]) (by omega) hhigh hdeposit]
    exact Int.sub_nonneg.mpr (Int.ediv_le_of_le_mul (by positivity) hcovers)

/-- Lots of `5` units, worth two units at least: a fee of one leaves something. -/
def fives : LotSize := ⟨5, 1, 2, by decide, by decide⟩

/-- An ask of price zero. -/
def freeRun : List Call :=
  openRun ++ [callOf 2 (.deposit alice 5 ⟨5, abc⟩ "trade;alice;0;0.0000 SYS;0;dex;;1".toList)]

end Forceio.Exchange
