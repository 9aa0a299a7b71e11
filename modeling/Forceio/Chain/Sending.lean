import Mathlib.Data.UInt
import Forceio.Chain.CheckAuthorization

/-!
# Inline actions and deferred transactions: `apply_context.cpp`, `controller.cpp`

`execute_inline`, `schedule_deferred_transaction`, `cancel_deferred_transaction` and
`remove_scheduled_transaction`.

* `disallow_send_to_self_bypass` is `false`: the protocol feature does not exist.
* An exception that is replaced by a subjective one keeps its log, which is not modelled.
* `SendEnv` is what `fc` does with actions and transactions.
* `trx_size` is a `uint32_t`; sizes are `size_t` when a transaction is refunded.
-/

namespace Forceio.Chain

open Forceio.Lib Exec

variable {Key Sig : Type} [LinearOrder Key]

/-- How `fc` packs and unpacks actions and transactions. -/
structure SendEnv (Key Sig : Type) where
  action : ActionEnv Key
  transaction : TransactionEnv Key Sig
  unpackTransaction : Bytes → Except FcException Transaction

variable (env : SendEnv Key Sig) (ctx : ApplyContext Key)

variable (db : Database Key)

/-- `control.get_authorization_manager()`. -/
def ApplyContext.authorizationManager : AuthorizationManager Key where
  db := db
  env := env.action
  unpackTransaction := env.unpackTransaction
  rootAccount := ctx.control.rootAccount
  maxTransactionDelay := ctx.control.maxTransactionDelay
  maxAuthorityDepth := ctx.control.maxAuthorityDepth

/-- The permission the code of an account has: `{receiver, eosio.code}`. -/
def ApplyContext.codePermission : PermissionLevel :=
  ⟨ctx.receiver, eosioCodeName ctx.control.rootAccount⟩

/-- The `catch` clauses around a check: a failure is thrown again, unless the code only sends to
itself; then it is subjective on a producing node and ignored on any other. -/
def bypassToSelf (sendToSelf : Bool) (what : String) (check : Except FcException Unit) :
    Except FcException Unit :=
  match check with
  | .ok _ => .ok ()
  | .error e =>
    if sendToSelf = false then .error e
    else if ctx.control.isProducingBlock then .error ⟨.subjectiveBlockProductionException, what⟩
    else .ok ()

/-- `check_actor_list`, where it is enforced. -/
def checkActors (enforce : Bool) (actors : FlatSet AccountName) : Except FcException Unit :=
  if enforce then ctx.control.checkActorList actors else pure ()

/-! ## Inline actions -/

/-- The loop over the authorizations of an inline action: its actors, if they are enforced, and the
authorizations it inherits from the running action. -/
def inlineLoop (db : Database Key) (enforce inherit : Bool) :
    List PermissionLevel → FlatSet AccountName → FlatSet PermissionLevel →
      Except FcException (FlatSet AccountName × FlatSet PermissionLevel)
  | [], actors, inherited => pure (actors, inherited)
  | auth :: auths, actors, inherited => do
    eosAssert ((db.findAccount auth.actor).isSome = true) .actionValidateException
      "inline action's authorizing actor ${account} does not exist"
    let permission ← db.findPermission auth
    eosAssert (permission.isSome = true) .actionValidateException
      "inline action's authorizations include a non-existent permission: ${permission}"
    inlineLoop db enforce inherit auths (if enforce then actors.insert auth.actor else actors)
      (if inherit ∧ auth ∈ ctx.act.authorization then inherited.insert auth else inherited)

/-- The authorizations of an inline action. -/
def authorizeInline (a : Action) (sendToSelf : Bool) (inherited : FlatSet PermissionLevel) :
    Except FcException Unit :=
  if ctx.control.skipAuthCheck = false ∧ ctx.privileged = false then
    bypassToSelf ctx sendToSelf "Authorization failure with inline action sent to self"
      ((ctx.authorizationManager env db).checkAuthorization ctx.checktime [a] []
        [ctx.codePermission] (ctx.control.pendingBlockTime - ctx.published : Int) false inherited)
  else pure ()

/-- What `execute_inline` checks before it queues the action. -/
def validateInline (a : Action) : Except FcException Unit := do
  eosAssert ((db.findAccount a.account).isSome = true) .actionValidateException
    "inline action's code account ${account} does not exist"
  let enforce := ctx.enforceWhiteblacklist && ctx.control.isProducingBlock
  let sendToSelf := decide (a.account = ctx.receiver)
  let inherit := sendToSelf && decide (ctx.receiver = ctx.act.account) &&
    ctx.control.isProducingBlock
  let (actors, inherited) ← inlineLoop ctx db enforce inherit a.authorization .empty .empty
  checkActors ctx enforce actors
  authorizeInline env ctx db a sendToSelf inherited

/-- `execute_inline`. -/
def executeInline (a : Action) : ApplyM Key Unit := do
  let s ← get
  lift (validateInline env ctx s.db a)
  modify fun s => { s with inlineActions := s.inlineActions ++ [a] }

/-! ## Deferred transactions -/

/-- The loop over the authorizations of one action in `validate_referenced_accounts`. -/
def referencedActors (db : Database Key) (enforce : Bool) :
    List PermissionLevel → FlatSet AccountName → Except FcException (FlatSet AccountName)
  | [], actors => pure actors
  | auth :: auths, actors => do
    eosAssert ((db.findAccount auth.actor).isSome = true) .transactionException
      "action's authorizing actor '${account}' does not exist"
    let permission ← db.findPermission auth
    eosAssert (permission.isSome = true) .transactionException
      "action's authorizations include a non-existent permission: {permission}"
    referencedActors db enforce auths (if enforce then actors.insert auth.actor else actors)

/-- The loop over the actions. -/
def referencedActions (db : Database Key) (enforce : Bool) :
    List Action → FlatSet AccountName → Except FcException (FlatSet AccountName)
  | [], actors => pure actors
  | a :: actions, actors => do
    eosAssert ((db.findAccount a.account).isSome = true) .transactionException
      "action's code account '${account}' does not exist"
    let actors ← referencedActors db enforce a.authorization actors
    referencedActions db enforce actions actors

/-- The loop over the context free actions. -/
def referencedContextFree (db : Database Key) : List Action → Except FcException Unit
  | [] => pure ()
  | a :: actions => do
    eosAssert ((db.findAccount a.account).isSome = true) .transactionException
      "action's code account '${account}' does not exist"
    eosAssert (a.authorization = []) .transactionException
      "context-free actions cannot have authorizations"
    referencedContextFree db actions

/-- `validate_referenced_accounts`. -/
def validateReferencedAccounts (trx : Transaction) (enforce : Bool) : Except FcException Unit := do
  referencedContextFree db trx.contextFreeActions
  let actors ← referencedActions db enforce trx.actions .empty
  eosAssert (∃ a ∈ trx.actions, a.authorization ≠ []) .txNoAuths
    "transaction must have at least one authorization"
  checkActors ctx enforce actors

/-- `check_net_usage`. -/
def checkNetUsage (netUsage : Nat) : Except FcException Unit :=
  if ctx.control.skipTrxChecks = false ∧ netUsage > ctx.eagerNetLimit then
    if ctx.netLimitDueToBlock then
      throw ⟨.blockNetUsageExceeded, "not enough space left in block: ${net_usage} > ${net_limit}"⟩
    else if ctx.netLimitDueToGreylist then
      throw ⟨.greylistNetUsageExceeded,
        "greylisted transaction net usage is too high: ${net_usage} > ${net_limit}"⟩
    else
      throw ⟨.txNetUsageExceeded, "transaction net usage is too high: ${net_usage} > ${net_limit}"⟩
  else pure ()

/-- `add_net_usage`. -/
def addNetUsage (u : Nat) : ApplyM Key Unit := do
  modify fun s => { s with netUsage := s.netUsage + u }
  let s ← get
  lift (checkNetUsage ctx s.netUsage)

/-- `config::transaction_id_net_usage`. -/
def transactionIdNetUsage : Nat := 32

/-- The transaction as it is stored: it expires within the second and refers to the head block. -/
def deferredTrx (trx : Transaction) : Transaction :=
  { trx with
    expiration := UInt32.ofNat ((ctx.control.pendingBlockTime + 999999) / 1000000)
  }.setReferenceBlock ctx.control.headBlockId

open ApplyState (onDb addRamUsage requireAuthorization)
open Database (generatedTable)

/-- The payer, if it is not the receiver, has authorized the running action. -/
def requirePayer (payer : AccountName) : ApplyM Key Unit :=
  if payer ≠ ctx.receiver then requireAuthorization ctx payer else pure ()

/-- The authorizations of a deferred transaction, and of its payer. -/
def authorizeDeferred (payer : AccountName) (trx : Transaction) : ApplyM Key Unit :=
  if ctx.control.skipAuthCheck = false ∧ ctx.privileged = false then do
    requirePayer ctx payer
    let s ← get
    lift (bypassToSelf ctx (trx.actions.all fun a => a.account = ctx.receiver)
      "Authorization failure with sent deferred transaction consisting only of actions to self"
      ((ctx.authorizationManager env s.db).checkAuthorization ctx.checktime trx.actions []
        [ctx.codePermission] (seconds trx.delaySec) false .empty))
  else pure ()

/-- The record of a sender and its id. -/
def Database.findGenerated (sender : AccountName) (senderId : BitVec 128) :
    Option (Nat × GeneratedTransactionObject) :=
  db.generated.find? fun g => g.sender = sender && g.senderId = senderId

/-- When a deferred transaction may run. -/
def delayUntil (trx : Transaction) : Nat :=
  ctx.control.pendingBlockTime + 1000000 * trx.delaySec.toNat

/-- When it expires. -/
def deferredExpiration (trx : Transaction) : Nat :=
  delayUntil ctx trx + 1000000 * ctx.control.deferredTrxExpirationWindow.toNat

/-- Store the transaction: a record that exists is replaced in place, without a refund and under
its old `trx_id`. -/
def storeDeferred (senderId : BitVec 128) (payer : AccountName) (trx : Transaction)
    (replaceExisting : Bool) : ApplyM Key Unit := do
  let s ← get
  match s.db.findGenerated ctx.receiver senderId with
  | some (n, _) => do
    require (replaceExisting = true) .deferredTxDuplicate
      "deferred transaction with the same sender_id and payer already exists"
    require (ctx.control.isProducingBlock = false) .subjectiveBlockProductionException
      "Replacing a deferred transaction is temporarily disabled."
    onDb (generatedTable.modify n
      (.replace payer ctx.control.pendingBlockTime (delayUntil ctx trx) (deferredExpiration ctx trx)
        (env.transaction.pack trx)) (GeneratedTransactionObject.keepsKeys_replace _ _ _ _ _))
  | none => do
    let _ ← onDb (generatedTable.create
      { trxId := trx.id env.transaction, sender := ctx.receiver, senderId := senderId,
        payer := payer, delayUntil := delayUntil ctx trx, expiration := deferredExpiration ctx trx,
        published := ctx.control.pendingBlockTime, packedTrx := env.transaction.pack trx })

/-- `trx_size`. -/
def trxSize (trx : Transaction) : UInt32 := UInt32.ofNat (env.transaction.pack trx).length

/-- `schedule_deferred_transaction`. -/
def scheduleDeferredTransaction (senderId : BitVec 128) (payer : AccountName) (trx : Transaction)
    (replaceExisting : Bool) : ApplyM Key Unit := do
  require (trx.contextFreeActions = []) .cfaInsideGeneratedTx
    "context free actions are not currently allowed in generated transactions"
  let trx := deferredTrx ctx trx
  let s ← get
  lift (validateReferencedAccounts ctx s.db trx
    (ctx.enforceWhiteblacklist && ctx.control.isProducingBlock &&
      !ctx.control.senderAvoidsWhitelistBlacklistEnforcement ctx.receiver))
  addNetUsage ctx (ctx.control.basePerTransactionNetUsage.toNat + transactionIdNetUsage)
  authorizeDeferred env ctx payer trx
  storeDeferred env ctx senderId payer trx replaceExisting
  require (ctx.control.isRamBillingInNotifyAllowed = true ∨ ctx.receiver = ctx.act.account ∨
      ctx.receiver = payer ∨ ctx.privileged = true) .subjectiveBlockProductionException
    "Cannot charge RAM to other accounts during notify."
  addRamUsage payer (generatedTransactionObjectSize + (trxSize env trx).toNat)

/-- What a stored transaction is billed. -/
def GeneratedTransactionObject.size (g : GeneratedTransactionObject) : Int :=
  generatedTransactionObjectSize + g.packedTrx.length

/-- `cancel_deferred_transaction`. -/
def cancelDeferredTransaction (senderId : BitVec 128) (sender : AccountName) : ApplyM Key Bool := do
  let s ← get
  match s.db.findGenerated sender senderId with
  | some (n, g) => do
    addRamUsage g.payer (-g.size)
    onDb (generatedTable.remove n)
    pure true
  | none => pure false

/-- `controller_impl::remove_scheduled_transaction`. -/
def removeScheduledTransaction (gto : Nat × GeneratedTransactionObject) : DbM Key Unit := do
  Database.onResources (addPendingRamUsage gto.2.payer (-gto.2.size))
  generatedTable.remove gto.1

/-! ## A sample -/

/-- Transactions packed as the data of their actions, and hashed to the sum of their bytes. No
native action has data. -/
def plainEnv : SendEnv Nat Nat where
  action :=
    { newaccount := fun _ => .error ⟨.outOfRange, "no data"⟩
      updateauth := fun _ => .error ⟨.outOfRange, "no data"⟩
      deleteauth := fun _ => .error ⟨.outOfRange, "no data"⟩
      linkauth := fun _ => .error ⟨.outOfRange, "no data"⟩
      unlinkauth := fun _ => .error ⟨.outOfRange, "no data"⟩
      canceldelay := fun _ => .error ⟨.outOfRange, "no data"⟩
      packSize := fun _ => 34 }
  transaction :=
    { pack := fun trx => trx.actions.flatMap fun a => a.data
      packSha256 := fun _ => []
      packContextFreeData := List.flatten
      sha256 := fun bytes => ⟨(bytes.map UInt8.toUInt64).sum, 0, 0, 0⟩
      recover := fun key _ => .ok key }
  unpackTransaction := fun _ => .error ⟨.outOfRange, "no data"⟩

end Forceio.Chain
