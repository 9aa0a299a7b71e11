import Forceio.Chain.Name
import Forceio.Eosiolib.Asset
import Forceio.Lib.KeyedTable
import Forceio.Lib.Rollback

/-!
# The relay contract (`force.relay.hpp`, `force.relay.cpp`)

Relayers deposit core tokens on a channel and commit blocks of another chain to it. A block whose
confirmations reach two thirds of the deposits of the channel is processed: its actions are sent to
the handlers of the channel.

* The tables have the chain as their scope: a row is under its chain, or under its chain and its own
  key. The rows of one scope are then the rows of that chain, in the order of their keys.
* `std::sort` is not stable, so that any sorting of the stored blocks by their number is one that it
  may do: `Env.sort`.
* `commit` returns the blocks that it sends `onblock` for. `Call.run` is one action, and a history is
  any list of them, `onblock` for any block included: `after`. `Call.transact` runs an action and
  then the `onblock` actions that it sends, in that order: `transacted`.
* The trace notes what happens, the last event first. Only statements read it.
* The `on` actions that the handlers receive, the payers of the rows, and the fields of `channel` and
  `map_handler` that no code reads are left out. A channel without its row of blocks traps.
-/

namespace Forceio.Relay

open Forceio.Lib Forceio.Eosiolib
open Forceio.Chain (AccountName stringToNameLoop)

variable (env : Env)

/-! ## Tables -/

/-- The name of a chain. -/
abbrev ChainName := Nat

/-- `relay::action`. -/
structure RelayAction where
  account : AccountName
  name : Nat
  authorization : List (AccountName × Nat)
  data : List Nat
  deriving DecidableEq

/-- `block_type`. -/
structure BlockType where
  producer : AccountName := 0
  num : Nat := 0
  id : Nat := 0
  previous : Nat := 0
  confirmed : Nat := 1
  transactionMroot : Nat := 0
  actionMroot : Nat := 0
  deriving DecidableEq

namespace BlockType

/-- `is_nil`. -/
def isNil (b : BlockType) : Bool := b.producer = 0

/-- `operator==`. -/
def same (b m : BlockType) : Bool :=
  b.id = m.id ∧ b.num = m.num ∧ b.transactionMroot = m.transactionMroot ∧
    b.actionMroot = m.actionMroot

end BlockType

/-- `unconfirm_block`. -/
structure UnconfirmBlock where
  base : BlockType
  confirm : Asset
  actions : List RelayAction
  confirmeds : List AccountName
  deriving DecidableEq

/-- `block_relay_stat`. -/
structure BlockRelayStat where
  chain : ChainName
  last : BlockType := {}
  unconfirms : List UnconfirmBlock := []

instance : Keyed BlockRelayStat Nat := ⟨BlockRelayStat.chain⟩

/-- `map_handler`. -/
structure MapHandler where
  chain : ChainName
  name : Nat
  actaccount : AccountName
  actname : Nat
  account : AccountName
  deriving DecidableEq

instance : Keyed MapHandler (Nat ×ₗ Nat) := ⟨fun h => toLex (h.chain, h.name)⟩

/-- `relay_transfer`. -/
structure RelayTransfer where
  chain : ChainName
  transfer : AccountName
  deposit : Asset
  last : BlockType := {}

instance : Keyed RelayTransfer (Nat ×ₗ Nat) := ⟨fun t => toLex (t.chain, t.transfer)⟩

/-- `channel`. -/
structure Channel where
  chain : ChainName
  depositSum : Asset

instance : Keyed Channel Nat := ⟨Channel.chain⟩

/-- `handler_action`, with the account it is sent to. -/
structure HandlerAction where
  account : AccountName
  chain : ChainName
  blockId : Nat
  act : RelayAction
  deriving DecidableEq

/-- What happened. -/
inductive Event where
  /-- A transfer to the contract was taken as a deposit. -/
  | received (sender : AccountName) (quantity : Asset) (memo : List Char)
  /-- A relayer confirmed a block, with its deposit at that time. -/
  | committed (chain : ChainName) (relayer : AccountName) (block : BlockType)
      (actions : List RelayAction) (deposit : Asset)
  /-- A block was processed, and these actions were sent to handlers. -/
  | processed (chain : ChainName) (block : BlockType) (actions : List RelayAction)
      (sent : List HandlerAction)
  deriving DecidableEq

/-- The tables of the contract, and what happened. -/
structure World where
  channels : KeyedTable Channel := .empty
  transfers : KeyedTable RelayTransfer := .empty
  relaystats : KeyedTable BlockRelayStat := .empty
  handlers : KeyedTable MapHandler := .empty
  trace : List Event := []

/-- What the contract runs in. -/
structure Env where
  /-- `_self`. -/
  self : AccountName
  /-- `CORE_SYMBOL`. -/
  coreSymbol : SymbolType
  /-- `std::sort` of the stored blocks. -/
  sort : List UnconfirmBlock → List UnconfirmBlock
  sort_perm : ∀ l, (sort l).Perm l
  sort_sorted : ∀ l, (sort l).Pairwise fun u v => u.base.num ≤ v.base.num

/-- `asset{0}`. -/
def Env.zero : Asset := ⟨0, env.coreSymbol⟩

variable (auth : List AccountName)

/-- `require_auth`. -/
def requireAuth (account : AccountName) : Except ContractError Unit :=
  if account ∈ auth then .ok () else .error (.missingAuthority account)

/-! ## `commit` -/

/-- `confirm_by`. -/
def UnconfirmBlock.confirmBy (u : UnconfirmBlock) (committer : AccountName) :
    Except ContractError UnconfirmBlock := do
  eosioAssert (committer ∉ u.confirmeds) "committer has confirmed"
  return { u with confirmeds := u.confirmeds ++ [committer] }

/-- The stored blocks with one more confirmation of the first that is `block`, if there is one. -/
def confirmStored (transfer : AccountName) (deposit : Asset) (block : BlockType) :
    List UnconfirmBlock → Except ContractError (Option (List UnconfirmBlock))
  | [] => .ok none
  | u :: us =>
    if u.base.same block then do
      let newConfirm ← deposit.add u.confirm
      let u ← { u with confirm := newConfirm }.confirmBy transfer
      return some (u :: us)
    else do
      let us ← confirmStored transfer deposit block us
      return us.map (u :: ·)

/-- The stored blocks after a confirmation: a block that is not stored yet is added, with its
actions. -/
def confirmBlock (transfer : AccountName) (deposit : Asset) (block : BlockType)
    (actions : List RelayAction) (unconfirms : List UnconfirmBlock) :
    Except ContractError (List UnconfirmBlock) := do
  match ← confirmStored transfer deposit block unconfirms with
  | some us => return us
  | none =>
    let ub ← (UnconfirmBlock.mk block deposit actions []).confirmBy transfer
    return env.sort (unconfirms ++ [ub])

/-- `confirm * 3 >= deposit_sum * 2`. -/
def UnconfirmBlock.reaches (u : UnconfirmBlock) (depositSum : Asset) : Except ContractError Bool := do
  (← u.confirm.mul 3).ge (← depositSum.mul 2)

/-- The first confirmed blocks, at most `n`. -/
def firstConfirmed (depositSum : Asset) : Nat → List UnconfirmBlock →
    Except ContractError (List BlockType)
  | 0, _ => .ok []
  | _ + 1, [] => .ok []
  | n + 1, u :: us => do
    if ← u.reaches depositSum then
      let rest ← firstConfirmed depositSum n us
      return u.base :: rest
    else return []

/-- `commit`, and the blocks that `onblock` is sent for. -/
def commit (chain : ChainName) (transfer : AccountName) (block : BlockType)
    (actions : List RelayAction) (w : World) : Except ContractError (World × List BlockType) := do
  requireAuth auth transfer
  match w.transfers.find? (toLex (chain, transfer)) with
  | none => .error (.assert "no transfers")
  | some it =>
    eosioAssert ((← it.deposit.gt env.zero) = true) "no deposit"
    match w.channels.find? chain with
    | none => .error (.assert "no channel")
    | some ich =>
      eosioAssert ((← ich.depositSum.gt env.zero) = true) "no deposit"
      match w.relaystats.find? chain with
      | none => .error (.assert "no relay stats")
      | some relaystat =>
        if relaystat.last.isNil = false ∧ relaystat.last.num ≥ block.num then return (w, [])
        else
          let unconfirms ← confirmBlock env transfer it.deposit block actions relaystat.unconfirms
          let sent ← firstConfirmed ich.depositSum 8 unconfirms
          return ({ w with
            relaystats := w.relaystats.put { relaystat with unconfirms := unconfirms }
            transfers := w.transfers.put { it with last := block }
            trace := .committed chain transfer block actions it.deposit :: w.trace }, sent)

/-! ## `onblock` -/

/-- The handlers of a chain. -/
def World.handlersOf (w : World) (chain : ChainName) : List MapHandler :=
  w.handlers.rows.filter fun h => h.chain = chain

/-- Whether a handler is for an action. -/
def MapHandler.handles (h : MapHandler) (act : RelayAction) : Bool :=
  h.actaccount = act.account ∧ h.actname = act.name

/-- `onaction`. -/
def onaction (block : BlockType) (act : RelayAction) (handler : MapHandler) : HandlerAction :=
  ⟨handler.account, handler.chain, block.id, act⟩

/-- The actions that the loops of `onblockimp` send. -/
def World.dispatch (w : World) (chain : ChainName) (block : BlockType) (actions : List RelayAction) :
    List HandlerAction :=
  actions.flatMap fun act => ((w.handlersOf chain).filter (·.handles act)).map (onaction block act)

/-- `onblockimp`. -/
def onblockimp (chain : ChainName) (block : BlockType) (actions : List RelayAction) (w : World) :
    Except ContractError World := do
  eosioAssert (w.channels.find? chain ≠ none) "channel not created"
  match w.relaystats.find? chain with
  | none => .error (.assert "no relay stats")
  | some relaystat =>
    return { w with
      relaystats := w.relaystats.put { relaystat with
        last := block
        unconfirms := relaystat.unconfirms.filter fun ub => ub.base.num ≠ block.num }
      trace := .processed chain block actions (w.dispatch chain block actions) :: w.trace }

/-- The first stored block that is `block` and confirmed. -/
def findConfirmed (depositSum : Asset) (block : BlockType) :
    List UnconfirmBlock → Except ContractError (Option UnconfirmBlock)
  | [] => .ok none
  | u :: us =>
    if u.base.same block then do
      if ← u.reaches depositSum then return some u else findConfirmed depositSum block us
    else findConfirmed depositSum block us

/-- `onblock`. -/
def onblock (chain : ChainName) (block : BlockType) (w : World) : Except ContractError World := do
  requireAuth auth env.self
  match w.relaystats.find? chain with
  | none => .error .trap
  | some currrelaystat =>
    if currrelaystat.last.num ≥ block.num then return w
    else
      match w.channels.find? chain with
      | none => .error (.assert "no channel")
      | some ich =>
        eosioAssert ((← ich.depositSum.gt env.zero) = true) "no deposit"
        match ← findConfirmed ich.depositSum block currrelaystat.unconfirms with
        | none => return w
        | some uc => onblockimp chain block uc.actions w

/-! ## Channels, handlers and deposits -/

/-- `newchannel`. -/
def newchannel (chain : ChainName) (w : World) : Except ContractError World := do
  requireAuth auth chain
  eosioAssert (chain ≠ 0) "chain name cannot be zero"
  eosioAssert (w.channels.find? chain = none) "channel has created"
  match w.relaystats.find? chain with
  | some _ => .error .trap
  | none =>
    return { w with
      channels := w.channels.insert ⟨chain, env.zero⟩
      relaystats := w.relaystats.insert { chain := chain } }

/-- `newmap`. -/
def newmap (chain : ChainName) (type : Nat) (actAccount : AccountName) (actName : Nat)
    (account : AccountName) (w : World) : Except ContractError World := do
  requireAuth auth chain
  eosioAssert (w.channels.find? chain ≠ none) "channel not created"
  eosioAssert (∀ h ∈ w.handlersOf chain, h.actaccount ≠ actAccount ∨ h.actname ≠ actName)
    "one action can only one handler"
  match w.handlers.find? (toLex (chain, type)) with
  | none => return { w with handlers := w.handlers.insert ⟨chain, type, actAccount, actName, account⟩ }
  | some hh =>
    return { w with
      handlers := w.handlers.put
        { hh with actaccount := actAccount, actname := actName, account := account } }

/-- `new_transfer`. -/
def newTransfer (chain : ChainName) (transfer : AccountName) (deposit : Asset)
    (w : World) : Except ContractError World := do
  eosioAssert (deposit.symbol = env.coreSymbol) "deposit should core symbol"
  eosioAssert ((← deposit.ge env.zero) = true) "deposit should > 0"
  match w.channels.find? chain with
  | none => .error (.assert "channel has created")
  | some channel =>
    match w.transfers.find? (toLex (chain, transfer)) with
    | none =>
      let depositSum ← channel.depositSum.add deposit
      return { w with
        channels := w.channels.put { channel with depositSum := depositSum }
        transfers := w.transfers.insert { chain, transfer, deposit } }
    | some it =>
      eosioAssert ((← it.deposit.le channel.depositSum) = true) "old deposit should <= sum"
      let depositSum ← channel.depositSum.sub it.deposit
      let depositSum ← depositSum.add deposit
      return { w with
        channels := w.channels.put { channel with depositSum := depositSum }
        transfers := w.transfers.put { it with deposit := deposit } }

/-- The chain that a memo names: `string_to_name(memo.c_str())`. -/
def memoChain (memo : List Char) : ChainName :=
  stringToNameLoop 0 (memo.takeWhile fun c => c.toNat ≠ 0)

/-- Whether a transfer is taken as a deposit. -/
def isDeposit (sender receiver : AccountName) (memo : List Char) : Bool :=
  sender ≠ env.self ∧ receiver = env.self ∧ memo ≠ "NoProcessMemo".toList

/-- `ontransfer`. -/
def ontransfer (sender receiver : AccountName) (quantity : Asset) (memo : List Char)
    (w : World) : Except ContractError World := do
  if isDeposit env sender receiver memo then
    let w ← newTransfer env (memoChain memo) sender quantity w
    return { w with trace := .received sender quantity memo :: w.trace }
  else return w

/-! ## Histories -/

/-- The actions. -/
inductive Action where
  | newchannel (chain : ChainName)
  | newmap (chain : ChainName) (type : Nat) (actAccount : AccountName) (actName : Nat)
      (account : AccountName)
  | transfer (sender receiver : AccountName) (quantity : Asset) (memo : List Char)
  | commit (chain : ChainName) (transfer : AccountName) (block : BlockType)
      (actions : List RelayAction)
  | onblock (chain : ChainName) (block : BlockType)

/-- An action with its authorities. -/
structure Call where
  auth : List AccountName
  action : Action

namespace Call

/-- One action. -/
def run (c : Call) (w : World) : Except ContractError World :=
  match c.action with
  | .newchannel chain => Relay.newchannel env c.auth chain w
  | .newmap chain type actAccount actName account =>
    Relay.newmap c.auth chain type actAccount actName account w
  | .transfer sender receiver quantity memo => ontransfer env sender receiver quantity memo w
  | .commit chain transfer block actions =>
    Prod.fst <$> Relay.commit env c.auth chain transfer block actions w
  | .onblock chain block => Relay.onblock env c.auth chain block w

/-- The inline actions of a commit, in order. -/
def onblocks (env : Env) (chain : ChainName) : List BlockType → World → Except ContractError World
  | [], w => .ok w
  | b :: bs, w => do
    let w ← Relay.onblock env [env.self] chain b w
    onblocks env chain bs w

/-- An action and the inline actions it sends. -/
def transact (c : Call) (w : World) : Except ContractError World :=
  match c.action with
  | .commit chain transfer block actions => do
    let (w, sent) ← Relay.commit env c.auth chain transfer block actions w
    onblocks env chain sent w
  | _ => c.run env w

end Call

/-- The world after a history of actions. -/
def after (cs : List Call) : World := Rollback.after (Call.run env) cs {}

/-- The world after a history of actions that are each followed by the inline actions they send. -/
def transacted (cs : List Call) : World := Rollback.after (Call.transact env) cs {}

/-! ## A deployment -/

/-- Stored blocks in the order of their numbers. -/
def byNum (u v : UnconfirmBlock) : Prop := u.base.num ≤ v.base.num

instance : DecidableRel byNum := fun u v => inferInstanceAs (Decidable (u.base.num ≤ v.base.num))

instance : Std.Total byNum := ⟨fun _ _ => Nat.le_total _ _⟩

instance : IsTrans UnconfirmBlock byNum := ⟨fun _ _ _ => Nat.le_trans⟩

/-- The core symbol of the sample runs. -/
def sys : SymbolType := stringToSymbol 4 "SYS"

/-- The surroundings of the contract in the sample runs. -/
def sampleEnv : Env where
  self := 1
  coreSymbol := sys
  sort := List.insertionSort byNum
  sort_perm := List.perm_insertionSort byNum
  sort_sorted := List.pairwise_insertionSort byNum

/-- The channel of the sample runs. -/
def side : ChainName := memoChain "side".toList

/-- A call that the accounts of the sample runs authorise: the contract, the channel and three
relayers. -/
def callOf (action : Action) : Call := ⟨[1, side, 2, 3, 4], action⟩

/-- The channel with the deposits of relayers. -/
def opened (deposits : List (AccountName × Int)) : List Call :=
  callOf (.newchannel side) ::
    deposits.map fun d => callOf (.transfer d.1 1 ⟨d.2, sys⟩ "side".toList)

/-- A block of the sample runs. -/
def blockOf (num id : Nat) : BlockType := { producer := 7, num := num, id := id }

end Forceio.Relay
