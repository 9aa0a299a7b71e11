import Forceio.Exchange.Tables

/-!
# The exchange contract: matching (`match_for_bid`, `match_for_ask`, `match`)

An incoming order, the taker, is filled against the resting orders of the other side, one after the
other from a range of the order book index, and what is left of it is inserted.

* `fill` is what the loops of both sides do with one resting order: the maker pays one leg and the
  taker the other. The taker of a bid gets the base, at the maker's price; the taker of an ask gets
  the quote, at its own price.
* The loops remove orders of their range only, after they have passed them, so that a range is the
  list of its orders.
-/

namespace Forceio.Exchange

open Forceio.Lib Forceio.Eosiolib Exec
open Forceio.Chain (AccountName)

variable (env : Env)

/-! ## One fill -/

/-- What a matching loop reads of the incoming order. -/
structure Taker where
  bid : Bool
  pair : TradingPair
  payer : AccountName
  receiver : AccountName
  /-- In the precision of the pair. -/
  price : Asset
  excAcc : AccountName
  feeType : Nat
  orderId : Nat

namespace Taker

/-- The token the taker gets. -/
def got (t : Taker) : Leg := if t.bid then .base else .quote

/-- The token the taker gives. -/
def given (t : Taker) : Leg := if t.bid then .quote else .base

/-- The price of a fill. -/
def dealPrice (t : Taker) (maker : Order) : Asset := if t.bid then maker.price else t.price

/-- What a fill of `deal` moves of a token, before it is converted to it. -/
def amountOf (t : Taker) (maker : Order) (deal : Asset) : Leg → Except ContractError Asset
  | .base => .ok deal
  | .quote => dealValue (t.dealPrice maker) deal

/-- The taker as a resting order. -/
def order (t : Taker) (base : Asset) : Order where
  id := t.orderId
  pairId := t.pair.id
  excAcc := t.excAcc
  maker := t.payer
  receiver := t.receiver
  base := base
  price := t.price
  bidOrAsk := t.bid
  feeType := t.feeType

end Taker

/-- One leg of a fill: `debtor` pays the amount, and `feePayer` the fee on it. The amount, and what
is left of it after a fee in the token. -/
def payLeg (block : Nat) (pair : TradingPair) (leg : Leg) (amount : Asset)
    (debtor feePayer excAcc : AccountName) (feeType : Nat) : ExchangeM (Asset × Asset) := do
  let quant ← lift (toAsset env (pair.chainOf leg) (pair.symOf leg) amount)
  debit debtor (pair.chainOf leg) quant
  let (deductedFeeType, fee) ←
    chargeFee env block leg pair.id feePayer quant excAcc feeType
  if deductedFeeType = 1 then
    let quantAfterFee ← lift (quant.sub fee)
    return (quant, quantAfterFee)
  else return (quant, quant)

/-- `done_helper`, with the price and the quantity that are passed to it. -/
def doneHelper (t : Taker) (maker : Order) (deal : Asset) : ExchangeM Unit := do
  let price ← lift (toAsset env t.pair.quoteChain t.pair.quoteSym (t.dealPrice maker))
  let quantity ← lift (toAsset env t.pair.baseChain t.pair.baseSym deal)
  let d : Done :=
    { takerExcAcc := t.excAcc, quoteChain := t.pair.quoteChain, price := price,
      baseChain := t.pair.baseChain, quantity := quantity, pairId := t.pair.id,
      buyOrderId := if t.bid then t.orderId else maker.id,
      sellOrderId := if t.bid then maker.id else t.orderId }
  modify fun w => { w with later := w.later ++ [d] }

/-- The first half of a step of the loops: both legs. What the taker gets is cumulated, and sent if
this fill completes the order; what the maker gets is sent. -/
def fill (block : Nat) (t : Taker) (maker : Order) (deal : Asset) (fullMatch : Bool)
    (cumulated : Asset) : ExchangeM Asset := do
  let amount ← lift (t.amountOf maker deal t.got)
  let (gotten, net) ←
    payLeg env block t.pair t.got amount maker.maker t.payer t.excAcc t.feeType
  let cumulated ← lift (cumulated.add net)
  if fullMatch then inlineTransfer env t.receiver (t.pair.chainOf t.got) cumulated
  let amount ← lift (t.amountOf maker deal t.given)
  let (paid, net) ←
    payLeg env block t.pair t.given amount t.payer maker.maker maker.excAcc maker.feeType
  inlineTransfer env maker.receiver (t.pair.chainOf t.given) net
  doneHelper env t maker deal
  note (.filled t.pair.id maker.id (if t.bid then gotten else paid) (if t.bid then paid else gotten))
  return cumulated

/-- A resting order after a fill that completes the taker. -/
def shrinkOrder (maker : Order) (deal : Asset) : ExchangeM Unit := do
  let less ← lift (deal.lt maker.base)
  if less then
    let base ← lift (maker.base.sub deal)
    modify fun w => { w with orders := w.orders.put { maker with base := base } }
  else modify fun w => { w with orders := w.orders.erase maker.id }

/-- A filled order leaves the book. -/
def eraseOrder (id : Nat) : ExchangeM Unit :=
  modify fun w => { w with orders := w.orders.erase id }

/-- `asset(0)` in a token of the pair. -/
def zeroOf (pair : TradingPair) (leg : Leg) : Except ContractError Asset :=
  toAsset env (pair.chainOf leg) (pair.symOf leg) ⟨0, env.coreSymbol⟩

/-- The branches of `send_cumulated`: a positive amount is sent and set to zero. -/
def sendCumulated (pair : TradingPair) (leg : Leg) (receiver : AccountName)
    (cumulated : Asset) : ExchangeM Asset :=
  if cumulated.amount > 0 then do
    inlineTransfer env receiver (pair.chainOf leg) cumulated
    lift (zeroOf env pair leg)
  else pure cumulated

/-! ## Bids -/

/-- The refund of a better price to the bidder; without one, what was cumulated is sent if there is a
refund in it. The amounts cumulated after that. -/
def refundBidder (t : Taker) (maker : Order) (deal : Asset) (fullMatch : Bool)
    (cumulatedBase cumulatedRefund : Asset) : ExchangeM (Asset × Asset) := do
  let better ← lift (t.price.gt maker.price)
  if better then
    let diff ← lift (t.price.sub maker.price)
    let value ← lift (dealValue diff deal)
    let quant ← lift (toAsset env t.pair.quoteChain t.pair.quoteSym value)
    debit t.payer t.pair.quoteChain quant
    let cumulatedRefund ← lift (cumulatedRefund.add quant)
    if fullMatch then inlineTransfer env t.payer t.pair.quoteChain cumulatedRefund
    return (cumulatedBase, cumulatedRefund)
  else if cumulatedRefund.amount > 0 then
    let cumulatedBase ← sendCumulated env t.pair .base t.receiver cumulatedBase
    let cumulatedRefund ← sendCumulated env t.pair .quote t.payer cumulatedRefund
    return (cumulatedBase, cumulatedRefund)
  else return (cumulatedBase, cumulatedRefund)

/-- `walk_table_range` of `match_for_bid`, over the asks from the cheapest. -/
def walkAsks (env : Env) (block : Nat) (t : Taker) : List Order → (base cumulatedBase
    cumulatedRefund : Asset) → ExchangeM Unit
  | [], _, _, _ => pure ()
  | ask :: rest, base, cumulatedBase, cumulatedRefund => do
    let fullMatch ← lift (base.le ask.base)
    let deal := if fullMatch then base else ask.base
    let cumulatedBase ← fill env block t ask deal fullMatch cumulatedBase
    let (cumulatedBase, cumulatedRefund) ←
      refundBidder env t ask deal fullMatch cumulatedBase cumulatedRefund
    if fullMatch then shrinkOrder ask deal
    else
      let base ← lift (base.sub ask.base)
      eraseOrder ask.id
      if rest = [] then
        let _ ← sendCumulated env t.pair .base t.receiver cumulatedBase
        let _ ← sendCumulated env t.pair .quote t.payer cumulatedRefund
        insertOrder (t.order base)
      else walkAsks env block t rest base cumulatedBase cumulatedRefund

/-- `compute_orderbook_lookupkey`: the key of the other side. -/
def lookupKey (pairId : Nat) (bidOrAsk : Bool) (value : Nat) : Nat :=
  pairId * 2 ^ 96 + (if bidOrAsk then 0 else 2 ^ 64) + value

/-- The asks that a bid walks: from the lowest key of the side up to the key of its price, cut to 32
bits. -/
def World.asksUpTo (w : World) (pairId : Nat) (price : Int) : List Order :=
  w.orderIndex.filter fun o => lookupKey pairId true 0 ≤ o.byPairPrice ∧
    o.byPairPrice ≤ lookupKey pairId true (uint32 price)

/-- Whether `lower` of `match_for_bid` is an ask of the pair that is not dearer than the bid. -/
def World.hasAsk (w : World) (pairId : Nat) (price : Asset) : Except ContractError Bool :=
  match w.orderIndex.find? fun o => lookupKey pairId true 0 ≤ o.byPairPrice with
  | none => .ok false
  | some o => if o.pairId ≠ pairId ∨ o.bidOrAsk = true then .ok false else do
    let dearer ← o.price.gt price
    return !dearer

/-- The bid that an amount of quote is: the base it buys, at the price in the precision of the
pair. -/
def bidBase (pair : TradingPair) (quantity price : Asset) : Except ContractError Asset := do
  convert pair.base (← (← quantity.mul (precision price.symbol.precision)).div price.amount)

/-- `match_for_bid`. -/
def matchForBid (block pairId : Nat) (payer receiver : AccountName) (chain : ChainName)
    (quantity price : Asset) (excAcc : AccountName) (feeType : Nat) : ExchangeM Unit := do
  let w ← get
  match w.pairs.find? pairId with
  | none => throw (.assert "trading pair does not exist or be frozen")
  | some pair =>
    assertThat (pair.frozen = 0) "trading pair does not exist or be frozen"
    assertThat (chain = pair.quoteChain ∧ quantity.symbol.name = pair.quoteSym.name)
      "deposited currency is not consistent with the quote currency!"
    assertThat (price.symbol.name = pair.quoteSym.name)
      "price currency is not consistent with the quote currency!"
    let deposit ← lift (toAsset env pair.quoteChain pair.quoteSym quantity)
    credit payer pair.quoteChain deposit
    let orderId ← nextOrderId
    let base ← lift (bidBase pair quantity price)
    let converted ← lift (toAsset env pair.baseChain pair.baseSym base)
    match w.feeOf excAcc pairId with
    | none => throw .trap
    | some row =>
      let enough ← lift (converted.ge row.minQty)
      assertThat (enough = true) "trade qty must be greater than or equal to minimum quantity"
      let price ← lift (convert pair.quote price)
      let value ← lift (dealValue price base)
      let value ← lift (toAsset env pair.quoteChain pair.quoteSym value)
      let refund ← lift (deposit.sub value)
      let t : Taker := ⟨true, pair, payer, receiver, price, excAcc, feeType, orderId⟩
      let found ← lift (w.hasAsk pair.id price)
      if found then
        let zero ← lift (zeroOf env pair .base)
        walkAsks env block t (w.asksUpTo pair.id price.amount) base zero refund
      else
        if refund.amount > 0 then inlineTransfer env payer pair.quoteChain refund
        insertOrder (t.order base)

/-! ## Asks -/

/-- The refund of a better price to the bidder who is matched, taken from the balance of
`lowestMaker`. -/
def refundMaker (t : Taker) (maker : Order) (lowestMaker : AccountName) (deal : Asset) :
    ExchangeM Unit := do
  let better ← lift (maker.price.gt t.price)
  if better then
    let diff ← lift (maker.price.sub t.price)
    let value ← lift (dealValue diff deal)
    let quant ← lift (toAsset env t.pair.quoteChain t.pair.quoteSym value)
    inlineTransfer env maker.maker t.pair.quoteChain quant
    debit lowestMaker t.pair.quoteChain quant

/-- `walk_table_range` of `match_for_ask`, over the bids from the dearest. `lowestMaker` is the maker
of the order at `itr`, the last one of the range. -/
def walkBids (env : Env) (block : Nat) (t : Taker) (lowestMaker : AccountName) :
    List Order → (base cumulatedQuote : Asset) → ExchangeM Unit
  | [], _, _ => pure ()
  | bid :: rest, base, cumulatedQuote => do
    let fullMatch ← lift (base.le bid.base)
    let deal := if fullMatch then base else bid.base
    let cumulatedQuote ← fill env block t bid deal fullMatch cumulatedQuote
    refundMaker env t bid lowestMaker deal
    if fullMatch then shrinkOrder bid deal
    else
      let base ← lift (base.sub bid.base)
      if rest = [] then
        let _ ← sendCumulated env t.pair .quote t.receiver cumulatedQuote
        eraseOrder bid.id
        insertOrder (t.order base)
      else
        eraseOrder bid.id
        walkBids env block t lowestMaker rest base cumulatedQuote

/-- The bids that an ask walks, in the order of the index: from the key of its price, cut to 32 bits,
to the last one below the highest key; an order of the pair at the highest key is walked as well. -/
def World.bidsFrom (w : World) (pairId : Nat) (price : Int) : List Order :=
  (w.orderIndex.filter fun o => lookupKey pairId false (uint32 price) ≤ o.byPairPrice ∧
      o.byPairPrice < lookupKey pairId false (2 ^ 64 - 1)) ++
    (w.orderIndex.find? fun o => lookupKey pairId false (2 ^ 64 - 1) ≤ o.byPairPrice).toList.filter
      fun o => o.pairId = pairId

/-- Whether `lower` of `match_for_ask` is an order of the pair. -/
def World.hasBid (w : World) (pairId : Nat) (price : Int) : Bool :=
  match w.orderIndex.find? fun o => lookupKey pairId false (uint32 price) ≤ o.byPairPrice with
  | none => false
  | some o => o.pairId = pairId

/-- `match_for_ask`. -/
def matchForAsk (block pairId : Nat) (payer receiver : AccountName) (chain : ChainName)
    (quantity price : Asset) (excAcc : AccountName) (feeType : Nat) : ExchangeM Unit := do
  let w ← get
  match w.pairs.find? pairId with
  | none => throw (.assert "trading pair does not exist or be frozen")
  | some pair =>
    assertThat (pair.frozen = 0) "trading pair does not exist or be frozen"
    assertThat (chain = pair.baseChain ∧ quantity.symbol.name = pair.baseSym.name)
      "deposited currency is not consistent with the base currency!"
    assertThat (price.symbol.name = pair.quoteSym.name)
      "price currency is not consistent with the quote currency"
    let deposit ← lift (toAsset env pair.baseChain pair.baseSym quantity)
    credit payer pair.baseChain deposit
    let orderId ← nextOrderId
    let base ← lift (convert pair.base quantity)
    let converted ← lift (toAsset env pair.baseChain pair.baseSym base)
    match w.feeOf excAcc pairId with
    | none => throw .trap
    | some row =>
      let enough ← lift (converted.ge row.minQty)
      assertThat (enough = true) "trade qty must be greater than or equal to minimum quantity"
      let price ← lift (convert pair.quote price)
      let t : Taker := ⟨false, pair, payer, receiver, price, excAcc, feeType, orderId⟩
      if w.hasBid pair.id price.amount then
        let bids := w.bidsFrom pair.id price.amount
        let zero ← lift (zeroOf env pair .quote)
        walkBids env block t ((bids.head?.map Order.maker).getD 0) bids.reverse base zero
      else insertOrder (t.order base)

/-! ## `match` -/

/-- `is_exc_frozen`. -/
def World.isExcFrozen (w : World) (excAcc : AccountName) : Bool :=
  match w.exchanges.find? excAcc with
  | none => true
  | some e => e.frozen

/-- `match`. -/
def matchOrder (block : Nat) (auth : List AccountName) (pairId : Nat)
    (payer receiver : AccountName) (chain : ChainName) (quantity price : Asset) (bidOrAsk : Bool)
    (excAcc : AccountName) (feeType : Nat) : ExchangeM Unit := do
  requireAuth auth env.self
  let w ← get
  assertThat (w.isExcFrozen excAcc = false)
    "exchange account has not been registered or be frozen!"
  match w.feeOf excAcc pairId with
  | none => throw (.assert
      "trading_pair has not been opened for exchange or be frozen, can not be traded!")
  | some row =>
    assertThat (row.frozen = 0)
      "trading_pair has not been opened for exchange or be frozen, can not be traded!"
    if bidOrAsk then
      matchForBid env block pairId payer receiver chain quantity price excAcc feeType
    else matchForAsk env block pairId payer receiver chain quantity price excAcc feeType

end Forceio.Exchange
