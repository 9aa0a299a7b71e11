import Forceio.Chain.Name
import Forceio.Eosiolib.Asset
import Forceio.Lib.KeyedTable

/-!
# The exchange contract: tables and balances (`sys.match.hpp`, `sys.match.cpp`)

The contract keeps what users deposit in an escrow, its own account, and records it in `accounts`;
orders, fees, price marks and stakes are rows of further tables.

* A table with a scope is one table whose key starts with the scope. A secondary index is the rows
  in the order of its key, ties by primary key; keys packed into 128 bits are numbers.
* `Env` is what is outside the contract: the names of the build, the accounts there are, and the
  symbol under which a token contract keeps the supply of a token. A token is known by its chain,
  zero for the main chain, and its symbol name.
* An inline transfer is counted as executed when it is sent, with the checks of the token contract;
  nothing reads the tokens of the escrow, `held`, in between. The `done` actions that a match sends
  run after it: `later`. `morder` does nothing and is left out.
* `trace` notes what happens; no code reads it.
* A row of `fees` is created without its field `frozen`, which reads zero in fresh memory.
-/

namespace Forceio.Exchange

open Forceio.Lib Forceio.Eosiolib Exec
open Forceio.Chain (AccountName)

variable (env : Env)

/-! ## Outside the contract -/

/-- A chain, by name; `0` is the main chain. -/
abbrev ChainName := Nat

/-- The main chain. -/
def mainChain : ChainName := 0

/-- What the contract reads from outside. -/
structure Env where
  /-- `config::match_account_name`, the escrow and the contract itself. -/
  self : AccountName
  /-- `CORE_SYMBOL`. -/
  coreSymbol : SymbolType
  /-- `INTERVAL_BLOCKS`. -/
  intervalBlocks : Nat
  /-- The symbol of `get_supply`. -/
  supply : ChainName → Nat → Option SymbolType
  /-- A token is kept under its symbol name. -/
  supply_name : ∀ {chain name s}, supply chain name = some s → s.name = name
  /-- `is_account`. -/
  isAccount : AccountName → Bool

/-! ## Rows -/

/-- `exc`. -/
structure Exc where
  excAcc : AccountName
  frozen : Bool := false
  deriving DecidableEq

instance : Keyed Exc AccountName := ⟨Exc.excAcc⟩

/-- The two tokens of a pair. -/
inductive Leg where
  | base
  | quote
  deriving DecidableEq

/-- `trading_pair`. -/
structure TradingPair where
  id : Nat
  base : SymbolType
  baseChain : ChainName
  baseSym : SymbolType
  quote : SymbolType
  quoteChain : ChainName
  quoteSym : SymbolType
  excAcc : AccountName
  frozen : Nat := 0
  deriving DecidableEq

instance : Keyed TradingPair Nat := ⟨TradingPair.id⟩

namespace TradingPair

/-- The chain of one of the two tokens. -/
def chainOf (p : TradingPair) : Leg → ChainName
  | .base => p.baseChain
  | .quote => p.quoteChain

/-- The symbol of one of the two tokens. -/
def symOf (p : TradingPair) : Leg → SymbolType
  | .base => p.baseSym
  | .quote => p.quoteSym

end TradingPair

/-- `order`; a bid is `true`. -/
structure Order where
  id : Nat
  pairId : Nat
  excAcc : AccountName
  maker : AccountName
  receiver : AccountName
  base : Asset
  price : Asset
  bidOrAsk : Bool
  feeType : Nat
  deriving DecidableEq

instance : Keyed Order Nat := ⟨Order.id⟩

/-- `order::by_pair_price`. -/
def Order.byPairPrice (o : Order) : Nat :=
  o.pairId * 2 ^ 96 + (if o.bidOrAsk then 2 ^ 64 else 0) + uint64 o.price.amount

/-- `deal_info`. -/
structure DealInfo where
  id : Nat
  pairId : Nat
  sum : Asset
  vol : Asset
  resetBlockHeight : Nat
  blockHeightEnd : Nat
  deriving DecidableEq

instance : Keyed DealInfo Nat := ⟨DealInfo.id⟩

/-- `deal_info::by_pair_and_block_height`. -/
def DealInfo.byPairAndBlockHeight (d : DealInfo) : Nat := d.pairId * 2 ^ 32 + d.blockHeightEnd

/-- `fee_info`. -/
structure FeeInfo where
  id : Nat
  excAcc : AccountName
  pairId : Nat
  frozen : Nat
  rate : Nat
  feesBase : Asset
  feesQuote : Asset
  pointsEnabled : Bool
  points : Asset
  minQty : Asset
  deriving DecidableEq

instance : Keyed FeeInfo Nat := ⟨FeeInfo.id⟩

/-- `account_info`, with its scope. -/
structure AccountInfo where
  owner : AccountName
  balance : Asset
  deriving DecidableEq

instance : Keyed AccountInfo (Nat ×ₗ Nat) := ⟨fun a => toLex (a.owner, a.balance.symbol.name)⟩

/-- `freeze_info`; its scope is `exc_acc`. -/
structure FreezeInfo where
  id : Nat
  excAcc : AccountName
  action : AccountName
  pairId : Nat
  staked : Asset
  deriving DecidableEq

instance : Keyed FreezeInfo (Nat ×ₗ Nat) := ⟨fun f => toLex (f.excAcc, f.id)⟩

/-! ## State -/

/-- What a fee is recorded as. -/
inductive FeeKind where
  | token (leg : Leg)
  | points
  deriving DecidableEq

/-- What happened. -/
inductive Event where
  | credited (owner : AccountName) (chain : ChainName) (value : Asset)
  | debited (owner : AccountName) (chain : ChainName) (value : Asset)
  | withdrawn (owner : AccountName) (value : Asset)
  | filled (pairId orderId : Nat) (base quote : Asset)
  /-- `quantity` is what the fee is taken from. -/
  | charged (excAcc : AccountName) (pairId : Nat) (leg : Leg) (quantity : Asset) (kind : FeeKind)
      (fee : Asset)
  | claimed (excAcc : AccountName) (pairId : Nat) (kind : FeeKind) (fee : Asset)
  | opened (excAcc : AccountName) (pairId : Nat)
  | marked (pairId : Nat)
  deriving DecidableEq

/-- The arguments of `done` that it reads, and the two orders. -/
structure Done where
  takerExcAcc : AccountName
  quoteChain : ChainName
  price : Asset
  baseChain : ChainName
  quantity : Asset
  pairId : Nat
  buyOrderId : Nat
  sellOrderId : Nat
  deriving DecidableEq

/-- The tables of the contract, the tokens of the escrow, and what is still to run. -/
structure World where
  exchanges : KeyedTable Exc := .empty
  pairs : KeyedTable TradingPair := .empty
  orders : KeyedTable Order := .empty
  deals : KeyedTable DealInfo := .empty
  fees : KeyedTable FeeInfo := .empty
  accounts : KeyedTable AccountInfo := .empty
  freezed : KeyedTable FreezeInfo := .empty
  nextOrder : Nat := 0
  held : ChainName → Nat → Int := fun _ _ => 0
  later : List Done := []
  trace : List Event := []

/-- Code of the contract. -/
abbrev ExchangeM := EStateM ContractError World

/-- `eosio_assert`, in an action. -/
def assertThat (cond : Prop) [Decidable cond] (message : String) : ExchangeM Unit :=
  lift (eosioAssert cond message)

/-- `require_auth`. -/
def requireAuth (auth : List AccountName) (account : AccountName) : ExchangeM Unit :=
  if account ∈ auth then pure () else throw (.missingAuthority account)

/-- Note what happened. -/
def note (e : Event) : ExchangeM Unit := modify fun w => { w with trace := e :: w.trace }

/-! ## Secondary indices and lookups -/

variable (w : World)

/-- The order book index. -/
def World.orderIndex : List Order := w.orders.sortedBy Order.byPairPrice

/-- The index of the deal windows. -/
def World.dealIndex : List DealInfo := w.deals.sortedBy DealInfo.byPairAndBlockHeight

/-- `idx_fees.find`. -/
def World.feeOf (excAcc : AccountName) (pairId : Nat) : Option FeeInfo :=
  w.fees.rows.find? fun f => f.excAcc = excAcc ∧ f.pairId = pairId

/-- `idx_freeze.find`. -/
def World.freezeOf (excAcc action : AccountName) (pairId : Nat) : Option FreezeInfo :=
  w.freezed.rows.find? fun f => f.excAcc = excAcc ∧ f.action = action ∧ f.pairId = pairId

/-- `available_primary_key`, cut to the field it is stored in. -/
def nextKey (ids : List Nat) : Nat := (ids.getLast?.elim 0 (· + 1)) % 2 ^ 32

/-! ## Tokens -/

/-- `convert`. -/
def convert (expected : SymbolType) (a : Asset) : Except ContractError Asset :=
  if expected.precision ≥ a.symbol.precision then do
    let factor ← int64Div (precision expected.precision) (precision a.symbol.precision)
    Asset.make (int64 (a.amount * factor)) expected
  else do
    let factor ← int64Div (precision a.symbol.precision) (precision expected.precision)
    let amount ← int64Div a.amount factor
    Asset.make amount expected

/-- `to_asset`. -/
def toAsset (chain : ChainName) (sym : SymbolType) (a : Asset) : Except ContractError Asset :=
  match env.supply chain sym.name with
  | none => .error (.assert "unable to find key")
  | some expected => convert expected a

/-- The value of some base at a price, an expression that the contract writes out where it needs
it. -/
def dealValue (price base : Asset) : Except ContractError Asset :=
  if price.symbol.precision ≥ base.symbol.precision then do
    (← price.mul base.amount).div (precision base.symbol.precision)
  else do
    (← base.mul price.amount).div (precision price.symbol.precision)

/-- The checks of `transfer` in the token contracts, on what is sent. -/
def checkTransfer (sender receiver : AccountName) (chain : ChainName) (quantity : Asset) :
    Except ContractError Unit := do
  eosioAssert (sender ≠ receiver) "cannot transfer to self"
  eosioAssert (env.isAccount receiver = true) "to account does not exist"
  eosioAssert (env.supply chain quantity.symbol.name ≠ none) "unable to find key"
  eosioAssert quantity.isValid "invalid quantity"
  eosioAssert (quantity.amount > 0) "must transfer positive quantity"
  eosioAssert (env.supply chain quantity.symbol.name = some quantity.symbol)
    "symbol precision mismatch"

/-- An error of an inline action. -/
def inInline : ContractError → ContractError
  | .assert message => .inlineAction message
  | e => e

/-- The tokens of the escrow after `change` of one. -/
def World.changeHeld (chain : ChainName) (name : Nat) (change : Int) : World :=
  { w with held := fun c n => if c = chain ∧ n = name then w.held c n + change else w.held c n }

/-- `inline_transfer` from the escrow. -/
def inlineTransfer (receiver : AccountName) (chain : ChainName) (quantity : Asset) :
    ExchangeM Unit := do
  lift ((checkTransfer env env.self receiver chain quantity).mapError inInline)
  let w ← get
  lift ((eosioAssert (quantity.amount ≤ w.held chain quantity.symbol.name)
    "overdrawn balance").mapError inInline)
  set (w.changeHeld chain quantity.symbol.name (-quantity.amount))

/-! ## Recorded balances -/

/-- The row of an account for a symbol name. -/
def World.accountOf (owner : AccountName) (name : Nat) : Option AccountInfo :=
  w.accounts.find? (toLex (owner, name))

variable (owner : AccountName)

/-- `sub_balance`. -/
def subBalance (value : Asset) : ExchangeM Unit := do
  let w ← get
  match w.accountOf owner value.symbol.name with
  | none => throw (.assert "no balance object found")
  | some row =>
    assertThat (row.balance.amount ≥ value.amount) "overdrawn balance"
    if row.balance.amount = value.amount then
      set { w with accounts := w.accounts.erase (Keyed.key row) }
    else
      let balance ← lift (row.balance.sub value)
      set { w with accounts := w.accounts.put { row with balance := balance } }

/-- `add_balance`. -/
def addBalance (value : Asset) : ExchangeM Unit := do
  let w ← get
  match w.accountOf owner value.symbol.name with
  | none => set { w with accounts := w.accounts.insert ⟨owner, value⟩ }
  | some row =>
    let balance ← lift (row.balance.add value)
    set { w with accounts := w.accounts.put { row with balance := balance } }

/-- `sub_balance` of a token of `chain`. -/
def debit (chain : ChainName) (value : Asset) : ExchangeM Unit := do
  subBalance owner value
  note (.debited owner chain value)

/-- `add_balance` of a token of `chain`. -/
def credit (chain : ChainName) (value : Asset) : ExchangeM Unit := do
  addBalance owner value
  note (.credited owner chain value)

/-- `get_balance`. -/
def getBalance (owner : AccountName) (pointsSym : SymbolType) : Except ContractError Asset :=
  match w.accountOf owner pointsSym.name with
  | none => toAsset env mainChain pointsSym ⟨0, env.coreSymbol⟩
  | some row => .ok row.balance

/-! ## Pairs and price marks -/

/-- Whether a pair trades these two tokens. -/
def TradingPair.trades (p : TradingPair) (baseChain : ChainName) (baseSym : SymbolType)
    (quoteChain : ChainName) (quoteSym : SymbolType) : Bool :=
  p.baseChain = baseChain ∧ p.baseSym.name = baseSym.name ∧ p.quoteChain = quoteChain ∧
    p.quoteSym.name = quoteSym.name

/-- `get_pair_id`, as the row. -/
def World.pairOf (baseChain : ChainName) (baseSym : SymbolType) (quoteChain : ChainName)
    (quoteSym : SymbolType) : Option TradingPair :=
  w.pairs.rows.find? fun p => p.trades baseChain baseSym quoteChain quoteSym

/-- `get_pair_id`. -/
def getPairId (baseChain : ChainName) (baseSym : SymbolType) (quoteChain : ChainName)
    (quoteSym : SymbolType) : Except ContractError Nat :=
  match w.pairOf baseChain baseSym quoteChain quoteSym with
  | none => .error (.assert "pair does not exist")
  | some p => .ok p.id

/-- The first window of a pair, if it is marked: `lower_bound(pair_id << 32)`. -/
def World.isMarked (pairId : Nat) : Bool :=
  match w.dealIndex.find? fun d => pairId * 2 ^ 32 ≤ d.byPairAndBlockHeight with
  | none => false
  | some d => d.pairId = pairId

/-- `lower_bound(pair_id << 32 | block)`, stepped back from the end. -/
def World.windowAt (pairId block : Nat) : Option DealInfo :=
  match w.dealIndex.find? fun d => pairId * 2 ^ 32 + block ≤ d.byPairAndBlockHeight with
  | none => w.dealIndex.getLast?
  | some d => some d

/-- `get_avg_price`. -/
def getAvgPrice (block : Nat) (baseChain : ChainName) (baseSym : SymbolType)
    (quoteChain : ChainName) (quoteSym : SymbolType) : Except ContractError Asset := do
  let zero ← Asset.make 0 quoteSym
  match w.pairOf baseChain baseSym quoteChain quoteSym with
  | none => return zero
  | some p =>
    if w.isMarked p.id then
      match w.windowAt p.id block with
      | none => return zero
      | some d =>
        if d.vol.amount > 0 ∧ block ≥ d.resetBlockHeight then
          (← d.sum.mul (precision d.vol.symbol.precision)).div d.vol.amount
        else return zero
    else return zero

/-! ## Fees -/

/-- `max_fee_rate`. -/
def maxFeeRate : Int := 10000

/-- `calcfee`. -/
def calcfee (quant : Asset) (feeRate : Nat) : Except ContractError Asset := do
  let fee ← (← quant.mul feeRate).div maxFeeRate
  return if feeRate > 0 ∧ fee.amount < 1 then { fee with amount := 1 } else fee

/-- The points of the payer and those that pay a fee, if it is paid in points. -/
def pointsAsFee (block : Nat) (pair : TradingPair) (row : FeeInfo) (payer : AccountName)
    (baseOrQuote : Bool) (fee : Asset) (feeType : Nat) :
    Except ContractError (Option (Asset × Asset)) :=
  if feeType = 2 ∧ row.pointsEnabled then do
    let points ← getBalance env w payer row.points.symbol
    let leg := if baseOrQuote then Leg.base else .quote
    let price ← getAvgPrice w block (pair.chainOf leg) (pair.symOf leg) mainChain row.points.symbol
    if points.amount > 0 ∧ price.amount > 0 then
      let value ← (← fee.mul price.amount).div (precision price.symbol.precision)
      let value ← toAsset env mainChain points.symbol value
      let enough ← points.ge value
      return if enough then some (points, value) else none
    else return none
  else return none

/-- A fee added to a row. -/
def FeeInfo.charge (f : FeeInfo) : FeeKind → Asset → Except ContractError FeeInfo
  | .token .base, fee => do return { f with feesBase := ← f.feesBase.add fee }
  | .token .quote, fee => do return { f with feesQuote := ← f.feesQuote.add fee }
  | .points, fee => do return { f with points := ← f.points.add fee }

/-- `charge_fee`: `1` and the fee in the token, or `2` and the fee in points. `leg` says which token
of the pair the caller passes and is only noted. -/
def chargeFee (block : Nat) (leg : Leg) (pairId : Nat) (payer : AccountName)
    (quantity : Asset) (excAcc : AccountName) (feeType : Nat) : ExchangeM (Nat × Asset) := do
  let w ← get
  match w.pairs.find? pairId with
  | none => throw (.assert "trading pair does not exist or be frozen")
  | some pair =>
    assertThat (pair.frozen = 0) "trading pair does not exist or be frozen"
    match w.feeOf excAcc pairId with
    | none => throw (.assert "trading pair has not been opened or be frozen for exchange")
    | some row =>
      let fee ← lift (calcfee quantity row.rate)
      if fee.amount = 0 then return (1, fee)
      else
        let baseOrQuote := decide (quantity.symbol.name = pair.baseSym.name)
        let inPoints ← lift (pointsAsFee env w block pair row payer baseOrQuote fee feeType)
        match inPoints with
        | some (points, pointsFee) =>
          debit payer mainChain pointsFee
          let row ← lift (row.charge .points pointsFee)
          modify fun w => { w with fees := w.fees.put row }
          note (.charged excAcc pairId leg points .points pointsFee)
          return (2, pointsFee)
        | none =>
          let kind := FeeKind.token (if baseOrQuote then .base else .quote)
          let row ← lift (row.charge kind fee)
          modify fun w => { w with fees := w.fees.put row }
          note (.charged excAcc pairId leg quantity kind fee)
          return (1, fee)

/-! ## Orders -/

/-- `available_primary_key` of the order book. -/
def nextOrderId : ExchangeM Nat := do
  let w ← get
  assertThat (w.nextOrder < 2 ^ 64 - 2)
    "next primary key in table is at autoincrement limit"
  set { w with nextOrder := w.nextOrder + 1 }
  return w.nextOrder

/-- `insert_order`. -/
def insertOrder (o : Order) : ExchangeM Unit := do
  let w ← get
  match w.orders.find? o.id with
  | some _ => throw .trap
  | none => set { w with orders := w.orders.insert o }

end Forceio.Exchange
