import Forceio.Exchange.Matching
import Forceio.Exchange.Memo
import Forceio.Lib.Rollback

/-!
# The exchange contract: actions and runs (`sys.match.cpp`)

* `Action` are the actions that are dispatched, and `deposit` the notification of a token transfer to
  the escrow. A deposit for an order sends `match` to the contract with the authority of the exchange
  and its own.
* A call that stops is rolled back: runs are those of `Lib.Rollback`.
* The permission that an exchange gives the contract for the inline actions `done` is taken as given.
-/

namespace Forceio.Exchange

open Forceio.Lib Forceio.Eosiolib Exec
open Forceio.Chain (AccountName)

variable (env : Env)

/-! ## Exchanges and their stakes -/

/-- `REG_STAKE` and `OPEN__PAIR_STAKE`. -/
def stakeRequired : Asset := ⟨10000000, env.coreSymbol⟩

/-- `get_frozen_asset`. -/
def World.getFrozenAsset (w : World) (excAcc action : AccountName) (pairId : Nat) : Asset :=
  match w.freezeOf excAcc action pairId with
  | none => ⟨0, env.coreSymbol⟩
  | some f => f.staked

/-- `regex`. -/
def regex (env : Env) (auth : List AccountName) (excAcc : AccountName) : ExchangeM Unit := do
  requireAuth auth excAcc
  let w ← get
  let enough ← lift ((w.getFrozenAsset env excAcc regexName 0).ge (stakeRequired env))
  assertThat (enough = true) "exchange has not freeze asset for regex!"
  assertThat (w.exchanges.find? excAcc = none)
    "exchange has been registered! can not be registered again!"
  set { w with exchanges := w.exchanges.insert { excAcc := excAcc } }

/-- `freeze_exc` and `unfreeze_exc` of a registered exchange, with their message. -/
def setExcFrozen (frozen : Bool) (message : String) (excAcc : AccountName) : ExchangeM Unit := do
  let w ← get
  match w.exchanges.find? excAcc with
  | none => throw (.assert message)
  | some e => set { w with exchanges := w.exchanges.put { e with frozen := frozen } }

/-- `freeze_exc`. -/
def freezeExc : AccountName → ExchangeM Unit :=
  setExcFrozen true "exchange has not been registered!"

/-- `unfreeze_exc`. -/
def unfreezeExc : AccountName → ExchangeM Unit :=
  setExcFrozen false "unfreeze_exc: exchange has not been registered!"

/-- `is_exc_registered`. -/
def World.isExcRegistered (w : World) (excAcc : AccountName) : Bool :=
  (w.exchanges.find? excAcc).isSome

/-- The check that many actions of an exchange make. -/
def requireActive (excAcc : AccountName) (message : String) : ExchangeM Unit := do
  let w ← get
  assertThat (w.isExcFrozen excAcc = false) message

/-- The message of that check. -/
def inactive : String := "exchange account has not been registered or be frozen!"

/-- The row of an opened pair changed: `freeze`, `unfreeze`, `setfee`, `enpoints`, `setminordqty`
after their checks. -/
def changeFee (excAcc : AccountName) (pairId : Nat) (message : String)
    (change : FeeInfo → Except ContractError FeeInfo) : ExchangeM Unit := do
  let w ← get
  match w.feeOf excAcc pairId with
  | none => throw (.assert message)
  | some row =>
    let row ← lift (change row)
    set { w with fees := w.fees.put row }

/-- `freeze`. -/
def freeze (auth : List AccountName) (excAcc : AccountName) (pairId : Nat) : ExchangeM Unit := do
  requireAuth auth excAcc
  requireActive excAcc inactive
  changeFee excAcc pairId "freeze: trading_pair has not been opened!" fun f =>
    .ok { f with frozen := 1 }

/-- `unfreeze`. -/
def unfreeze (env : Env) (auth : List AccountName) (excAcc : AccountName) (pairId : Nat) :
    ExchangeM Unit := do
  requireAuth auth excAcc
  requireActive excAcc
    "exchange account has not been registered or be frozen, can not unfreeze trading pair!"
  let w ← get
  let enough ← lift ((w.getFrozenAsset env excAcc openName pairId).ge (stakeRequired env))
  assertThat (enough = true) "must freeze 1000 CDX or more!"
  changeFee excAcc pairId "unfreeze: trading_pair has not been opened!" fun f =>
    .ok { f with frozen := 0 }

variable (auth : List AccountName)

/-- `is_pair_opened`. -/
def isPairOpened (excAcc : AccountName) (pairId : Nat) : ExchangeM Bool := do
  requireAuth auth excAcc
  return (← get).feeOf excAcc pairId |>.isSome

/-- The stake under a key of `exc_acc` raised; whether the row is new. -/
def addStake (excAcc action : AccountName) (pairId : Nat) (quantity : Asset) : ExchangeM Bool := do
  let w ← get
  match w.freezeOf excAcc action pairId with
  | none =>
    let id := nextKey ((w.freezed.rows.filter fun f => f.excAcc = excAcc).map FreezeInfo.id)
    match w.freezed.find? (toLex (excAcc, id)) with
    | some _ => throw .trap
    | none =>
      set { w with freezed := w.freezed.insert ⟨id, excAcc, action, pairId, quantity⟩ }
      return true
  | some f =>
    let staked ← lift (f.staked.add quantity)
    set { w with freezed := w.freezed.put { f with staked := staked } }
    return false

/-- `freeze4`. -/
def freeze4 (excAcc action : AccountName) (pairId : Nat) (quantity : Asset) : ExchangeM Unit := do
  requireAuth auth excAcc
  let isNew ← addStake excAcc action pairId quantity
  -- The stake is compared in the lambda that fills a new row, and only for the two actions.
  let enough ← (if isNew ∧ (action = regexName ∨ action = openName) then
    lift (quantity.ge (stakeRequired env)) else pure false)
  let value ← lift (toAsset env mainChain quantity.symbol quantity)
  credit excAcc mainChain value
  let w ← get
  if enough ∧ action = regexName ∧ w.isExcRegistered excAcc then unfreezeExc excAcc
  if enough ∧ action = openName then
    let opened ← isPairOpened auth excAcc pairId
    if opened then unfreeze env auth excAcc pairId

/-- The stake of a row lowered; what is left of it, if the row is still there. -/
def takeStake (f : FreezeInfo) (quantity : Asset) : ExchangeM (Option Asset) := do
  let w ← get
  if f.staked.amount = quantity.amount then
    set { w with freezed := w.freezed.erase (Keyed.key f) }
    return none
  else
    let staked ← lift (f.staked.sub quantity)
    set { w with freezed := w.freezed.put { f with staked := staked } }
    return some staked

/-- `unfreeze4`. -/
def unfreeze4 (env : Env) (auth : List AccountName) (excAcc action : AccountName) (pairId : Nat)
    (quantity : Asset) : ExchangeM Unit := do
  requireAuth auth excAcc
  requireActive excAcc inactive
  let quantity ← lift (toAsset env mainChain quantity.symbol quantity)
  let w ← get
  match w.freezeOf excAcc action pairId with
  | none => throw (.assert "unfreeze4 asset must be less than or be equal to frozen asset")
  | some f =>
    let enough ← lift (f.staked.ge quantity)
    assertThat (enough = true) "unfreeze4 asset must be less than or be equal to frozen asset"
    let left ← takeStake f quantity
    let low ← (match left with
      | none => pure true
      | some staked =>
        if action = regexName ∨ action = openName then lift (staked.lt (stakeRequired env))
        else pure false)
    debit excAcc mainChain quantity
    inlineTransfer env excAcc mainChain quantity
    let w ← get
    if low ∧ action = regexName ∧ w.isExcRegistered excAcc then freezeExc excAcc
    if low ∧ action = openName then
      let opened ← isPairOpened auth excAcc pairId
      if opened then freeze auth excAcc pairId

/-! ## Pairs -/

/-- The symbol of a token: `to_asset(chain, sym, asset(0, sym)).symbol`. -/
def tokenZero (chain : ChainName) (sym : SymbolType) : Except ContractError Asset := do
  toAsset env chain sym (← Asset.make 0 sym)

/-- `create`. -/
def create (base : SymbolType) (baseChain : ChainName) (baseSym quote : SymbolType)
    (quoteChain : ChainName) (quoteSym : SymbolType) (excAcc : AccountName) : ExchangeM Unit := do
  requireAuth auth excAcc
  assertThat (base.isValid = true) "invalid base symbol"
  assertThat (quote.isValid = true) "invalid quote symbol"
  requireActive excAcc inactive
  let w ← get
  assertThat (w.pairOf baseChain baseSym quoteChain quoteSym = none) "trading pair already exist"
  assertThat (∀ p ∈ w.pairs.rows, ¬ (p.base.name = base.name ∧ p.quote.name = quote.name))
    "trading pair already created"
  let baseToken ← lift (tokenZero env baseChain baseSym)
  let quoteToken ← lift (tokenZero env quoteChain quoteSym)
  let pair : TradingPair :=
    { id := nextKey (w.pairs.rows.map TradingPair.id), base := ⟨baseToken.symbol.precision, base.name⟩,
      baseChain := baseChain, baseSym := baseToken.symbol,
      quote := ⟨quoteToken.symbol.precision, quote.name⟩, quoteChain := quoteChain,
      quoteSym := quoteToken.symbol, excAcc := excAcc }
  match w.pairs.find? pair.id with
  | some _ => throw .trap
  | none => set { w with pairs := w.pairs.insert pair }

/-- `open`. -/
def openPair (baseChain : ChainName) (baseSym : SymbolType) (quoteChain : ChainName)
    (quoteSym : SymbolType) (excAcc : AccountName) : ExchangeM Unit := do
  requireAuth auth excAcc
  requireActive excAcc inactive
  let w ← get
  let pairId ← lift (getPairId w baseChain baseSym quoteChain quoteSym)
  let enough ← lift ((w.getFrozenAsset env excAcc openName pairId).ge (stakeRequired env))
  assertThat (enough = true) "must freeze 1000 CDX or more!"
  assertThat (w.feeOf excAcc pairId = none)
    "trading_pair has been opened, can not be opened again!"
  let feesBase ← lift (tokenZero env baseChain baseSym)
  let feesQuote ← lift (tokenZero env quoteChain quoteSym)
  let row : FeeInfo :=
    { id := nextKey (w.fees.rows.map FeeInfo.id), excAcc := excAcc, pairId := pairId, frozen := 0,
      rate := 0, feesBase := feesBase, feesQuote := feesQuote, pointsEnabled := false,
      points := ⟨0, env.coreSymbol⟩, minQty := feesBase }
  match w.fees.find? row.id with
  | some _ => throw .trap
  | none =>
    set { w with fees := w.fees.insert row }
    note (.opened excAcc pairId)

/-- What a resting order still holds in escrow, in its token: the refund of `cancel` and `close2`. -/
def Order.refund (pair : TradingPair) (o : Order) : Except ContractError Asset :=
  if o.bidOrAsk then do
    toAsset env pair.quoteChain pair.quoteSym (← dealValue o.price o.base)
  else toAsset env pair.baseChain pair.baseSym o.base

/-- The chain of the token in which an order is refunded. -/
def Order.refundChain (pair : TradingPair) (o : Order) : ChainName :=
  if o.bidOrAsk then pair.quoteChain else pair.baseChain

/-- An order refunded and erased. -/
def refundOrder (pair : TradingPair) (o : Order) : ExchangeM Unit := do
  let quant ← lift (o.refund env pair)
  inlineTransfer env o.maker (o.refundChain pair) quant
  debit o.maker (o.refundChain pair) quant
  eraseOrder o.id

/-- The loop of `close2` over the orders of its range. -/
def refundAll (env : Env) (pair : TradingPair) (excAcc : AccountName) : List Order → ExchangeM Unit
  | [] => pure ()
  | o :: rest => do
    if o.excAcc = excAcc then refundOrder env pair o
    refundAll env pair excAcc rest

/-- The range of `close2`: both sides of a pair, up to but without the highest key. -/
def World.ordersOfPair (w : World) (pairId : Nat) : List Order :=
  w.orderIndex.filter fun o => lookupKey pairId true 0 ≤ o.byPairPrice ∧
    o.byPairPrice < lookupKey pairId false (2 ^ 64 - 1)

/-- `close2`. -/
def close2 (pairId : Nat) (excAcc : AccountName) : ExchangeM Unit := do
  requireAuth auth excAcc
  requireActive excAcc inactive
  let w ← get
  match w.pairs.find? pairId with
  | none => throw (.assert "pair does not exist")
  | some pair =>
    match w.feeOf excAcc pairId with
    | none => throw (.assert "trading_pair has not been opened, can not be closed!")
    | some row =>
      assertThat (row.feesBase.amount = 0 ∧ row.feesQuote.amount = 0 ∧
        (row.pointsEnabled = false ∨ row.points.amount = 0)) "must first claim the fees!"
      refundAll env pair excAcc (w.ordersOfPair pairId)
      modify fun w => { w with fees := w.fees.erase row.id }

/-- `close`, with the `close2` it sends. -/
def close (baseChain : ChainName) (baseSym : SymbolType) (quoteChain : ChainName)
    (quoteSym : SymbolType) (excAcc : AccountName) : ExchangeM Unit := do
  requireAuth auth excAcc
  let w ← get
  let pairId ← lift (getPairId w baseChain baseSym quoteChain quoteSym)
  close2 env [excAcc] pairId excAcc

/-! ## Orders -/

/-- The pair of an order by the names of its assets, as `cancel` looks it up. -/
def World.pairByNames (w : World) (o : Order) : Option TradingPair :=
  w.pairs.rows.find? fun p =>
    p.base.name = o.base.symbol.name ∧ p.quote.name = o.price.symbol.name

/-- An order cancelled. -/
def cancelOrder (o : Order) : ExchangeM Unit := do
  let w ← get
  match w.pairByNames o with
  | none => throw (.assert "trading pair does not exist or be frozen")
  | some pair =>
    assertThat (pair.frozen = 0) "trading pair does not exist or be frozen"
    refundOrder env pair o

/-- The loop of `cancel`. -/
def cancelAll (env : Env) : List Order → ExchangeM Unit
  | [] => pure ()
  | o :: rest => do
    cancelOrder env o
    cancelAll env rest

/-- `cancel`. -/
def cancel (env : Env) (auth : List AccountName) (maker : AccountName) (type : Nat)
    (orderOrPairId : List Char) : ExchangeM Unit := do
  assertThat (type = 0 ∨ type = 1 ∨ type = 2) "invalid cancel type"
  let id := atoll orderOrPairId
  requireAuth auth maker
  let w ← get
  if type = 0 then
    match w.orders.find? (uint64 id) with
    | none => throw (.assert "order record not found")
    | some o =>
      assertThat (maker = o.maker) "not the maker"
      cancelOrder env o
  else
    assertThat (w.orders.rows ≠ []) "orderbook empty"
    cancelAll env (w.orders.rows.filter fun o => o.id < 2 ^ 64 - 1 ∧ o.maker = maker ∧
      (type = 1 → uint32 id = o.pairId))

/-! ## Price marks -/

variable (block : Nat)

/-- `upd_mark`. -/
def updMark (baseChain : ChainName) (baseSym : SymbolType) (quoteChain : ChainName)
    (quoteSym : SymbolType) (sum vol : Asset) : ExchangeM Unit := do
  let w ← get
  let pairId ← lift (getPairId w baseChain baseSym quoteChain quoteSym)
  if w.isMarked pairId then
    match w.windowAt pairId block with
    | none => throw .trap
    | some d =>
      if block ≤ d.blockHeightEnd then
        let sum ← lift (d.sum.add sum)
        let vol ← lift (d.vol.add vol)
        set { w with deals := w.deals.put { d with sum := sum, vol := vol } }
      else
        let start := d.resetBlockHeight +
          (block - d.resetBlockHeight) / env.intervalBlocks * env.intervalBlocks
        let window : DealInfo :=
          ⟨nextKey (w.deals.rows.map DealInfo.id), pairId, sum, vol, start,
            (start + env.intervalBlocks - 1) % 2 ^ 32⟩
        match w.deals.find? window.id with
        | some _ => throw .trap
        | none => set { w with deals := w.deals.insert window }

/-- `done`. -/
def doneAction (auth : List AccountName) (d : Done) : ExchangeM Unit := do
  requireAuth auth d.takerExcAcc
  let value ← lift (dealValue d.price d.quantity)
  let value ← lift (toAsset env d.quoteChain d.price.symbol value)
  updMark env block d.baseChain d.quantity.symbol d.quoteChain d.price.symbol value d.quantity

/-- `mark`. -/
def mark (auth : List AccountName) (baseChain : ChainName) (baseSym : SymbolType)
    (quoteChain : ChainName) (quoteSym : SymbolType) : ExchangeM Unit := do
  requireAuth auth env.self
  let w ← get
  let pairId ← lift (getPairId w baseChain baseSym quoteChain quoteSym)
  assertThat (w.isMarked pairId = false) "trading pair already marked"
  let start := (block - 1) / env.intervalBlocks * env.intervalBlocks + 1
  let sum ← lift (tokenZero env quoteChain quoteSym)
  let vol ← lift (tokenZero env baseChain baseSym)
  let window : DealInfo :=
    ⟨nextKey (w.deals.rows.map DealInfo.id), pairId, sum, vol, start,
      (start + env.intervalBlocks - 1) % 2 ^ 32⟩
  match w.deals.find? window.id with
  | some _ => throw .trap
  | none =>
    set { w with deals := w.deals.insert window }
    note (.marked pairId)

/-! ## Fees -/

/-- One of the three amounts of a row. -/
def FeeInfo.amountOf (f : FeeInfo) : FeeKind → Asset
  | .token .base => f.feesBase
  | .token .quote => f.feesQuote
  | .points => f.points

/-- One of the three amounts of a row set. -/
def FeeInfo.setAmount (f : FeeInfo) (a : Asset) : FeeKind → FeeInfo
  | .token .base => { f with feesBase := a }
  | .token .quote => { f with feesQuote := a }
  | .points => { f with points := a }

/-- One of the three branches of `claim`: a positive amount is sent and set to zero. -/
def claimOne (kind : FeeKind) (chain : ChainName) (sym : FeeInfo → SymbolType)
    (excAcc : AccountName) (pairId : Nat) (feeAcc : AccountName) : ExchangeM Bool := do
  let w ← get
  match w.feeOf excAcc pairId with
  | none => throw .trap
  | some row =>
    if env.self ≠ feeAcc ∧ (row.amountOf kind).amount > 0 then
      inlineTransfer env feeAcc chain (row.amountOf kind)
      let zero ← lift (tokenZero env chain (sym row))
      modify fun w => { w with fees := w.fees.put (row.setAmount zero kind) }
      note (.claimed excAcc pairId kind (row.amountOf kind))
      return true
    else return false

/-- `claim`. -/
def claim (baseChain : ChainName) (baseSym : SymbolType) (quoteChain : ChainName)
    (quoteSym : SymbolType) (excAcc feeAcc : AccountName) : ExchangeM Unit := do
  requireAuth auth excAcc
  requireActive excAcc inactive
  let w ← get
  let pairId ← lift (getPairId w baseChain baseSym quoteChain quoteSym)
  match w.feeOf excAcc pairId with
  | none => throw (.assert "trading pair frozen or no fees in fees table")
  | some row =>
    assertThat (row.frozen = 0) "trading pair frozen or no fees in fees table"
    let base ← claimOne env (.token .base) baseChain (fun _ => baseSym) excAcc pairId feeAcc
    let quote ← claimOne env (.token .quote) quoteChain (fun _ => quoteSym) excAcc pairId feeAcc
    let points ← claimOne env .points mainChain (fun f => f.points.symbol) excAcc pairId feeAcc
    assertThat (base = true ∨ quote = true ∨ points = true) "no fees or fee_acc is escrow account"

/-- The check of `setfee`, `enpoints` and `setminordqty`, and their change. -/
def configureFee (excAcc : AccountName) (pairId : Nat)
    (change : FeeInfo → Except ContractError FeeInfo) : ExchangeM Unit := do
  requireAuth auth excAcc
  requireActive excAcc inactive
  changeFee excAcc pairId "trading pair for exchange has not been opened" change

/-- `setfee`. -/
def setfee (excAcc : AccountName) (pairId rate : Nat) : ExchangeM Unit :=
  configureFee auth excAcc pairId fun f => .ok { f with rate := rate }

/-- `enpoints`. -/
def enpoints (excAcc : AccountName) (pairId : Nat) (pointsSym : SymbolType) : ExchangeM Unit :=
  configureFee auth excAcc pairId fun f => do
    return { f with pointsEnabled := true, points := ← tokenZero env mainChain pointsSym }

/-- `setminordqty`. -/
def setminordqty (excAcc : AccountName) (pairId : Nat) (minQty : Asset) : ExchangeM Unit :=
  configureFee auth excAcc pairId fun f => do
    return { f with minQty := ← convert f.minQty.symbol minQty }

/-! ## Deposits and withdrawals -/

/-- Whether an order of `owner` holds a main chain token of this name. -/
def World.blocksWithdrawal (w : World) (owner : AccountName) (name : Nat) (o : Order) :
    Except ContractError Bool :=
  if o.maker ≠ owner then .ok false
  else match w.pairs.find? o.pairId with
    | none => .error (.assert "pair does not exist")
    | some p => .ok ((p.baseChain = mainChain ∧ p.baseSym.name = name) ∨
        (p.quoteChain = mainChain ∧ p.quoteSym.name = name))

/-- The loop of `withdraw`. -/
def World.checkPending (w : World) (owner : AccountName) (name : Nat) :
    List Order → Except ContractError Unit
  | [] => .ok ()
  | o :: rest => do
    let blocks ← w.blocksWithdrawal owner name o
    eosioAssert (blocks = false) "have pending orders, can not withdraw!"
    w.checkPending owner name rest

/-- `withdraw`. -/
def withdraw (owner : AccountName) (quantity : Asset) : ExchangeM Unit := do
  requireAuth auth owner
  let w ← get
  lift (w.checkPending owner quantity.symbol.name
    (w.orders.rows.filter fun o => o.id < 2 ^ 64 - 1))
  let quantity ← lift (toAsset env mainChain quantity.symbol quantity)
  inlineTransfer env owner mainChain quantity
  subBalance owner quantity
  note (.withdrawn owner quantity)

/-- The notification of a transfer to the escrow, `inline_match`, with the `match` it sends. -/
def inlineMatch (auth : List AccountName) (sender : AccountName) (chain : ChainName)
    (quantity : Asset) (memo : List Char) : ExchangeM Unit := do
  match ← lift (Memo.parse memo) with
  | .trade receiver pairId price bidOrAsk excAcc feeType =>
    matchOrder env block [excAcc, env.self] pairId sender receiver chain quantity price bidOrAsk
      excAcc feeType
  | .points =>
    assertThat (chain = mainChain) "must be issued by system token contract!"
    let value ← lift (toAsset env mainChain quantity.symbol quantity)
    credit sender mainChain value
  | .freeze action pairId =>
    assertThat (chain = mainChain ∧ env.coreSymbol.name = quantity.symbol.name)
      "freezed asset is not system core coin!"
    let value ← lift (toAsset env mainChain quantity.symbol quantity)
    freeze4 env auth sender action pairId value

/-- A token transfer to the escrow. -/
def deposit (auth : List AccountName) (sender : AccountName) (chain : ChainName) (quantity : Asset)
    (memo : List Char) : ExchangeM Unit := do
  requireAuth auth sender
  lift (checkTransfer env sender env.self chain quantity)
  modify fun w => w.changeHeld chain quantity.symbol.name quantity.amount
  inlineMatch env block auth sender chain quantity memo

/-! ## Runs -/

/-- The actions of the contract, and transfers to the escrow. -/
inductive Action where
  | regex (excAcc : AccountName)
  | create (base : SymbolType) (baseChain : ChainName) (baseSym quote : SymbolType)
      (quoteChain : ChainName) (quoteSym : SymbolType) (excAcc : AccountName)
  | openPair (baseChain : ChainName) (baseSym : SymbolType) (quoteChain : ChainName)
      (quoteSym : SymbolType) (excAcc : AccountName)
  | close (baseChain : ChainName) (baseSym : SymbolType) (quoteChain : ChainName)
      (quoteSym : SymbolType) (excAcc : AccountName)
  | close2 (pairId : Nat) (excAcc : AccountName)
  | cancel (maker : AccountName) (type : Nat) (orderOrPairId : List Char)
  | matchOrder (pairId : Nat) (payer receiver : AccountName) (chain : ChainName)
      (quantity price : Asset) (bidOrAsk : Bool) (excAcc : AccountName) (feeType : Nat)
  | doneAction (d : Done)
  | mark (baseChain : ChainName) (baseSym : SymbolType) (quoteChain : ChainName)
      (quoteSym : SymbolType)
  | claim (baseChain : ChainName) (baseSym : SymbolType) (quoteChain : ChainName)
      (quoteSym : SymbolType) (excAcc feeAcc : AccountName)
  | freeze (excAcc : AccountName) (pairId : Nat)
  | unfreeze (excAcc : AccountName) (pairId : Nat)
  | setfee (excAcc : AccountName) (pairId rate : Nat)
  | enpoints (excAcc : AccountName) (pairId : Nat) (pointsSym : SymbolType)
  | withdraw (owner : AccountName) (quantity : Asset)
  | setminordqty (excAcc : AccountName) (pairId : Nat) (minQty : Asset)
  | unfreeze4 (excAcc action : AccountName) (pairId : Nat) (quantity : Asset)
  | deposit (sender : AccountName) (chain : ChainName) (quantity : Asset) (memo : List Char)

/-- An action, the accounts that authorise it, and the block it is in. -/
structure Call where
  auth : List AccountName
  block : Nat
  action : Action

namespace Call

/-- The action itself. -/
def act (c : Call) : ExchangeM Unit :=
  match c.action with
  | .regex excAcc => Exchange.regex env c.auth excAcc
  | .create base baseChain baseSym quote quoteChain quoteSym excAcc =>
    Exchange.create env c.auth base baseChain baseSym quote quoteChain quoteSym excAcc
  | .openPair baseChain baseSym quoteChain quoteSym excAcc =>
    Exchange.openPair env c.auth baseChain baseSym quoteChain quoteSym excAcc
  | .close baseChain baseSym quoteChain quoteSym excAcc =>
    Exchange.close env c.auth baseChain baseSym quoteChain quoteSym excAcc
  | .close2 pairId excAcc => Exchange.close2 env c.auth pairId excAcc
  | .cancel maker type id => Exchange.cancel env c.auth maker type id
  | .matchOrder pairId payer receiver chain quantity price bidOrAsk excAcc feeType =>
    Exchange.matchOrder env c.block c.auth pairId payer receiver chain quantity price bidOrAsk excAcc
      feeType
  | .doneAction d => Exchange.doneAction env c.block c.auth d
  | .mark baseChain baseSym quoteChain quoteSym =>
    Exchange.mark env c.block c.auth baseChain baseSym quoteChain quoteSym
  | .claim baseChain baseSym quoteChain quoteSym excAcc feeAcc =>
    Exchange.claim env c.auth baseChain baseSym quoteChain quoteSym excAcc feeAcc
  | .freeze excAcc pairId => Exchange.freeze c.auth excAcc pairId
  | .unfreeze excAcc pairId => Exchange.unfreeze env c.auth excAcc pairId
  | .setfee excAcc pairId rate => Exchange.setfee c.auth excAcc pairId rate
  | .enpoints excAcc pairId sym => Exchange.enpoints env c.auth excAcc pairId sym
  | .withdraw owner quantity => Exchange.withdraw env c.auth owner quantity
  | .setminordqty excAcc pairId minQty => Exchange.setminordqty c.auth excAcc pairId minQty
  | .unfreeze4 excAcc action pairId quantity =>
    Exchange.unfreeze4 env c.auth excAcc action pairId quantity
  | .deposit sender chain quantity memo =>
    Exchange.deposit env c.block c.auth sender chain quantity memo

end Call

/-- The inline actions `done` that a match sent, in their order. -/
def runLater (env : Env) (block : Nat) : List Done → ExchangeM Unit
  | [] => pure ()
  | d :: rest => do
    doneAction env block [d.takerExcAcc] d
    runLater env block rest

namespace Call

/-- A call with the inline actions it sends. -/
def run (c : Call) : ExchangeM Unit := do
  c.act env
  let w ← get
  set { w with later := [] }
  runLater env c.block w.later

/-- A call as a step of a run. -/
def step (c : Call) (w : World) : Except ContractError World :=
  match c.run env w with
  | .ok _ w' => .ok w'
  | .error e _ => .error e

/-- The world after a call: one that stops is rolled back. -/
abbrev after (c : Call) (w : World) : World := Rollback.attempt (step env) c w

theorem step_eq_ok_iff {env : Env} {c : Call} {w w' : World} :
    c.step env w = .ok w' ↔ c.run env w = .ok () w' := by
  unfold step
  cases c.run env w with
  | ok | error => simp

end Call

/-- The world after a run. -/
abbrev after (env : Env) : List Call → World → World := Rollback.after (Call.step env)

/-- The calls of a run that succeed meet a condition in the world they start from. -/
abbrev Along (env : Env) (C : World → Call → Prop) : List Call → World → Prop :=
  Rollback.Along (Call.step env) C

/-! ## A deployment -/

/-- The core symbol of the sample runs. -/
def sys : SymbolType := stringToSymbol 4 "SYS"

/-- The surroundings of the contract with account `1` as escrow and these tokens. -/
def envOf (tokens : List (ChainName × SymbolType)) : Env where
  self := 1
  coreSymbol := sys
  intervalBlocks := 100
  supply chain name := (tokens.find? fun t => t.1 = chain ∧ t.2.name = name).map Prod.snd
  supply_name := by
    intro chain name s h
    obtain ⟨t, ht, rfl⟩ := Option.map_eq_some_iff.mp h
    have hfound := List.find?_some ht
    exact (of_decide_eq_true hfound).2
  isAccount _ := true

/-- An exchange of the sample runs. -/
def dex : AccountName := charsToName "dex".toList

/-- A user of the sample runs. -/
def alice : AccountName := charsToName "alice".toList

/-- Another user of the sample runs. -/
def bob : AccountName := charsToName "bob".toList

/-- A call that the contract and the accounts of the sample runs authorise. -/
def callOf (action : Action) : Call := ⟨[1, dex, alice, bob], block, action⟩

end Forceio.Exchange
