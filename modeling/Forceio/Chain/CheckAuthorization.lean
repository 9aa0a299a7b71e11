import Forceio.Chain.AuthorityChecker
import Forceio.Chain.NativeActions

/-!
# Checking the authorizations of actions: `authorization_manager.cpp`

`check_authorization` for a list of actions, with the checks for the native actions whose
permissions cannot be linked.

* `AuthorizationManager` is what the function reads: the database and the parameters of the chain.
* `checktime` is called once for each declared authorization and once for each permission to
  satisfy. It throws by a clock of its own: `expired` says what its `n`-th call throws, and the
  state of `CheckM` counts the calls.
* `satisfies` has no defined result when a parent is missing; that is an exception here.

Results:
* `checkAuthorization_refines`: a check that succeeds under some clock succeeds without one.
-/

namespace Forceio.Chain

open Forceio.Lib Exec

variable {Key : Type} [LinearOrder Key]

/-! ## The manager -/

/-- What `authorization_manager` reads. -/
structure AuthorizationManager (Key : Type) where
  db : Database Key
  env : ActionEnv Key
  /-- `fc::raw::unpack<transaction>`. -/
  unpackTransaction : Bytes → Except FcException Transaction
  rootAccount : String
  maxTransactionDelay : UInt32
  maxAuthorityDepth : UInt16

/-- Code that counts the calls of `checktime`. -/
abbrev CheckM (α : Type) := EStateM FcException Nat α

/-- `checktime`. -/
def checktime (expired : Nat → Option FcException) : CheckM Unit := fun n =>
  match expired n with
  | some e => .error e (n + 1)
  | none => .ok () (n + 1)

namespace AuthorizationManager

variable (am : AuthorizationManager Key)

/-! ## Native actions -/

/-- `get_permission(auth).satisfies(min)`, asserted. -/
def checkSatisfies (auth : PermissionLevel) (min : Nat × PermissionObject Key) (what : String) :
    Except FcException Unit := do
  let permission ← am.db.getPermission auth
  match satisfies am.db.permissions am.db.permissions.rows.length permission min with
  | some r => eosAssert (r = true) .irrelevantAuthException what
  | none => throw ⟨.undefinedBehavior, "dangling pointer"⟩

/-- The only declared authorization. -/
def soleAuthorization (auths : List PermissionLevel) (what : String) :
    Except FcException PermissionLevel :=
  match auths with
  | [auth] => pure auth
  | _ => throw ⟨.irrelevantAuthException, what⟩

/-- `check_updateauth_authorization`: a new permission needs its parent. -/
def checkUpdateauthAuthorization (update : UpdateAuth Key) (auths : List PermissionLevel) :
    Except FcException Unit := do
  let auth ← soleAuthorization auths
    "updateauth action should only have one declared authorization"
  eosAssert (auth.actor = update.account) .irrelevantAuthException
    "the owner of the affected permission needs to be the actor of the declared authorization"
  let min ← match ← am.db.findPermission ⟨update.account, update.permission⟩ with
    | some min => pure min
    | none => am.db.getPermission ⟨update.account, update.parent⟩
  am.checkSatisfies auth min
    "updateauth action declares irrelevant authority '${auth}'; minimum authority is ${min}"

/-- `check_deleteauth_authorization`. -/
def checkDeleteauthAuthorization (del : DeleteAuth) (auths : List PermissionLevel) :
    Except FcException Unit := do
  let auth ← soleAuthorization auths
    "deleteauth action should only have one declared authorization"
  eosAssert (auth.actor = del.account) .irrelevantAuthException
    "the owner of the permission to delete needs to be the actor of the declared authorization"
  let min ← am.db.getPermission ⟨del.account, del.permission⟩
  am.checkSatisfies auth min
    "updateauth action declares irrelevant authority '${auth}'; minimum authority is ${min}"

/-- `check_linkauth_authorization`. -/
def checkLinkauthAuthorization (link : LinkAuth) (auths : List PermissionLevel) :
    Except FcException Unit := do
  let auth ← soleAuthorization auths "link action should only have one declared authorization"
  eosAssert (auth.actor = link.account) .irrelevantAuthException
    "the owner of the linked permission needs to be the actor of the declared authorization"
  eosAssert (link.type ≠ stringToName "updateauth") .actionValidateException
    "Cannot link eosio::updateauth to a minimum permission"
  eosAssert (link.type ≠ stringToName "deleteauth") .actionValidateException
    "Cannot link eosio::deleteauth to a minimum permission"
  eosAssert (link.type ≠ stringToName "linkauth") .actionValidateException
    "Cannot link eosio::linkauth to a minimum permission"
  eosAssert (link.type ≠ stringToName "unlinkauth") .actionValidateException
    "Cannot link eosio::unlinkauth to a minimum permission"
  eosAssert (link.type ≠ stringToName "canceldelay") .actionValidateException
    "Cannot link eosio::canceldelay to a minimum permission"
  match ← am.db.lookupMinimumPermission am.rootAccount link.account link.code link.type with
  | none => pure ()
  | some linked => do
    let min ← am.db.getPermission ⟨link.account, linked⟩
    am.checkSatisfies auth min
      "link action declares irrelevant authority '${auth}'; minimum authority is ${min}"

/-- `check_unlinkauth_authorization`. -/
def checkUnlinkauthAuthorization (unlink : UnlinkAuth) (auths : List PermissionLevel) :
    Except FcException Unit := do
  let auth ← soleAuthorization auths "unlink action should only have one declared authorization"
  eosAssert (auth.actor = unlink.account) .irrelevantAuthException
    "the owner of the linked permission needs to be the actor of the declared authorization"
  match am.db.lookupLinkedPermission unlink.account unlink.code unlink.type with
  | none => throw ⟨.transactionException, "cannot unlink non-existent permission link of " ++
      "account '${account}' for actions matching '${code}::${action}'"⟩
  | some unlinked =>
    if unlinked = eosioAnyName am.rootAccount then pure ()
    else do
      let min ← am.db.getPermission ⟨unlink.account, unlinked⟩
      am.checkSatisfies auth min
        "unlink action declares irrelevant authority '${auth}'; minimum authority is ${min}"

/-- `check_canceldelay_authorization`: the delay of the canceled transaction. -/
def checkCanceldelayAuthorization (cancel : CancelDelay) (auths : List PermissionLevel) :
    Except FcException Int := do
  let auth ← soleAuthorization auths
    "canceldelay action should only have one declared authorization"
  let min ← am.db.getPermission cancel.cancelingAuth
  am.checkSatisfies auth min ("canceldelay action declares irrelevant authority '${auth}'; " ++
    "specified authority to satisfy is ${min}")
  match am.db.generated.find? fun g => g.trxId = cancel.trxId && g.sender = 0 with
  | none => throw ⟨.txNotFound, "cannot cancel trx_id=${tid}, there is no deferred transaction " ++
      "with that transaction id"⟩
  | some (_, g) => do
    let trx ← am.unpackTransaction g.packedTrx
    eosAssert (∃ act ∈ trx.actions, cancel.cancelingAuth ∈ act.authorization)
      .actionValidateException ("canceling_auth in canceldelay action was not found as " ++
        "authorization in the original delayed transaction")
    pure (g.delayUntil - g.published : Int)

/-- Whether the action is one of the special cases, and the delay it is checked with. -/
def specialCase (act : Action) (delay : Int) : Except FcException (Bool × Int) :=
  if act.account ≠ systemAccountName am.rootAccount then pure (false, delay)
  else if act.name = stringToName "updateauth" then do
    let data ← act.dataAs am.rootAccount "updateauth" am.env.updateauth
    am.checkUpdateauthAuthorization data act.authorization
    pure (true, delay)
  else if act.name = stringToName "deleteauth" then do
    let data ← act.dataAs am.rootAccount "deleteauth" am.env.deleteauth
    am.checkDeleteauthAuthorization data act.authorization
    pure (true, delay)
  else if act.name = stringToName "linkauth" then do
    let data ← act.dataAs am.rootAccount "linkauth" am.env.linkauth
    am.checkLinkauthAuthorization data act.authorization
    pure (true, delay)
  else if act.name = stringToName "unlinkauth" then do
    let data ← act.dataAs am.rootAccount "unlinkauth" am.env.unlinkauth
    am.checkUnlinkauthAuthorization data act.authorization
    pure (true, delay)
  else if act.name = stringToName "canceldelay" then do
    let data ← act.dataAs am.rootAccount "canceldelay" am.env.canceldelay
    let canceled ← am.checkCanceldelayAuthorization data act.authorization
    pure (true, max delay canceled)
  else pure (false, delay)

/-! ## The loops -/

/-- The minimum permission a declared authorization has to satisfy for an action. -/
def checkMinimum (act : Action) (declared : PermissionLevel) : Except FcException Unit := do
  match ← am.db.lookupMinimumPermission am.rootAccount declared.actor act.account act.name with
  | none => pure ()
  | some name => do
    let min ← am.db.getPermission ⟨declared.actor, name⟩
    am.checkSatisfies declared min
      "action declares irrelevant authority '${auth}'; minimum authority is ${min}"

/-- Enter an authorization that is to be satisfied, with the least of its delays. -/
def emplaceLeast (toSatisfy : FlatMap PermissionLevel Int) (declared : PermissionLevel)
    (delay : Int) : FlatMap PermissionLevel Int :=
  match toSatisfy.find declared with
  | none => toSatisfy.set declared delay
  | some d => if d > delay then toSatisfy.set declared delay else toSatisfy

variable (expired : Nat → Option FcException)

/-- The loop over the declared authorizations of an action. -/
def declareLoop (satisfiedAuthorizations : FlatSet PermissionLevel) (act : Action) (special : Bool)
    (delay : Int) :
    List PermissionLevel → FlatMap PermissionLevel Int → CheckM (FlatMap PermissionLevel Int)
  | [], toSatisfy => pure toSatisfy
  | declared :: auths, toSatisfy => do
    checktime expired
    lift (if special then pure () else am.checkMinimum act declared)
    declareLoop satisfiedAuthorizations act special delay auths
      (if satisfiedAuthorizations.find declared = none then emplaceLeast toSatisfy declared delay
       else toSatisfy)

/-- The loop over the actions. -/
def actionLoop (satisfiedAuthorizations : FlatSet PermissionLevel) (effectiveDelay : Int) :
    List Action → FlatMap PermissionLevel Int → CheckM (FlatMap PermissionLevel Int)
  | [], toSatisfy => pure toSatisfy
  | act :: actions, toSatisfy => do
    let (special, delay) ← lift (am.specialCase act effectiveDelay)
    let toSatisfy ←
      am.declareLoop expired satisfiedAuthorizations act special delay act.authorization toSatisfy
    actionLoop satisfiedAuthorizations effectiveDelay actions toSatisfy

/-- The loop over the permissions to satisfy, in ascending order. -/
def satisfyLoop (checker : AuthorityChecker Key) :
    List (PermissionLevel × Int) → List Bool → CheckM (List Bool)
  | [], usedKeys => pure usedKeys
  | (level, delay) :: toSatisfy, usedKeys => do
    checktime expired
    let (r, usedKeys) := { checker with providedDelay := delay }.satisfied level usedKeys
    require (r = true) .unsatisfiedAuthorization
      ("transaction declares authority '${auth}', but does not have signatures for it under a " ++
        "provided delay of ${provided_delay} ms, provided permissions ${provided_permissions}, " ++
        "provided keys ${provided_keys}, and a delay max limit of ${delay_max_limit_ms} ms")
    satisfyLoop checker toSatisfy usedKeys

/-- `fc::microseconds::maximum`. -/
def maximumDelay : Int := 2 ^ 63 - 1

/-- The delay that counts: one as long as any that can be asked for has no bound. -/
def effectiveDelay (providedDelay : Int) : Int :=
  if providedDelay ≥ seconds am.maxTransactionDelay then maximumDelay else providedDelay

/-- The checker of a call. -/
def checker (providedKeys : List Key) (providedPermissions : List PermissionLevel)
    (providedDelay : Int) : AuthorityChecker Key where
  authorityOf level := (am.db.permissionOf level.actor level.permission).map fun r => r.2.auth
  recursionDepthLimit := am.maxAuthorityDepth.toNat
  providedKeys := providedKeys
  providedPermissions := providedPermissions
  providedDelay := am.effectiveDelay providedDelay

/-- `check_authorization`, counting the calls of `checktime`. -/
def checkAuthorizationM (actions : List Action) (providedKeys : List Key)
    (providedPermissions : List PermissionLevel) (providedDelay : Int) (allowUnusedKeys : Bool)
    (satisfiedAuthorizations : FlatSet PermissionLevel) : CheckM Unit := do
  let toSatisfy ← am.actionLoop expired satisfiedAuthorizations (am.effectiveDelay providedDelay)
    actions .empty
  let usedKeys ← satisfyLoop expired (am.checker providedKeys providedPermissions providedDelay)
    toSatisfy.entries (providedKeys.map fun _ => false)
  require (allowUnusedKeys = false → usedKeys.all id = true) .txIrrelevantSig
    "transaction bears irrelevant signatures from these keys: ${keys}"

/-- `check_authorization`. -/
def checkAuthorization (actions : List Action) (providedKeys : List Key)
    (providedPermissions : List PermissionLevel) (providedDelay : Int) (allowUnusedKeys : Bool)
    (satisfiedAuthorizations : FlatSet PermissionLevel) : Except FcException Unit :=
  outcome (am.checkAuthorizationM expired actions providedKeys providedPermissions
    providedDelay allowUnusedKeys satisfiedAuthorizations 0)

/-! ## Clocks -/

section Clock

variable {am expired} {expired' : Nat → Option FcException} (hquiet : ∀ n, expired' n = none)

omit [LinearOrder Key] in
include hquiet in
theorem checktime_refines : Exec.Refines (checktime expired) (checktime expired') := by
  intro n u n' h
  unfold checktime at h ⊢
  rw [hquiet]
  cases he : expired n with
  | some e =>
    rw [he] at h
    simp at h
  | none =>
    rw [he] at h
    exact h

omit [LinearOrder Key] in
include hquiet in
theorem declareLoop_refines {sat : FlatSet PermissionLevel} {act : Action} {special : Bool}
    {delay : Int} : ∀ (auths : List PermissionLevel) (m : FlatMap PermissionLevel Int),
      Exec.Refines (am.declareLoop expired sat act special delay auths m)
        (am.declareLoop expired' sat act special delay auths m)
  | [], m => .refl _
  | declared :: auths, m => by
    refine .bind (checktime_refines hquiet) fun _ => .bind (.refl _) fun _ => ?_
    exact declareLoop_refines auths _

omit [LinearOrder Key] in
include hquiet in
theorem actionLoop_refines {sat : FlatSet PermissionLevel} {delay : Int} :
    ∀ (actions : List Action) (m : FlatMap PermissionLevel Int),
      Exec.Refines (am.actionLoop expired sat delay actions m)
        (am.actionLoop expired' sat delay actions m)
  | [], m => .refl _
  | act :: actions, m => by
    refine .bind (.refl _) fun r => ?_
    refine .bind (declareLoop_refines hquiet _ _) fun m' => ?_
    exact actionLoop_refines actions m'

include hquiet in
theorem satisfyLoop_refines {c : AuthorityChecker Key} :
    ∀ (toSatisfy : List (PermissionLevel × Int)) (usedKeys : List Bool),
      Exec.Refines (satisfyLoop expired c toSatisfy usedKeys)
        (satisfyLoop expired' c toSatisfy usedKeys)
  | [], _ => .refl _
  | (level, delay) :: toSatisfy, usedKeys => by
    refine .bind (checktime_refines hquiet) fun _ => ?_
    refine .bind (.refl _) fun _ => ?_
    exact satisfyLoop_refines toSatisfy _

include hquiet in
/-- **Only the clock can come between**: a check that succeeds under some clock succeeds when no
call of `checktime` throws. -/
theorem checkAuthorization_refines {actions : List Action} {keys : List Key}
    {permissions : List PermissionLevel} {delay : Int} {allowUnused : Bool}
    {sat : FlatSet PermissionLevel}
    (h : am.checkAuthorization expired actions keys permissions delay allowUnused sat = .ok ()) :
    am.checkAuthorization expired' actions keys permissions delay allowUnused sat = .ok () := by
  have hrefines : Exec.Refines
      (am.checkAuthorizationM expired actions keys permissions delay allowUnused sat)
      (am.checkAuthorizationM expired' actions keys permissions delay allowUnused sat) :=
    .bind (actionLoop_refines hquiet _ _) fun m => .bind (satisfyLoop_refines hquiet _ _) fun _ =>
      .refl _
  obtain ⟨n, hn⟩ := outcome_eq_ok_iff.mp h
  exact outcome_eq_ok_iff.mpr ⟨n, hrefines hn⟩

end Clock

end AuthorizationManager

end Forceio.Chain
