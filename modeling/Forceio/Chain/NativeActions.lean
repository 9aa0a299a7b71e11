import Forceio.Chain.Permissions

/-!
# The native actions on accounts and permissions: `eosio_contract.cpp`

`newaccount`, `updateauth`, `deleteauth`, `linkauth` and `unlinkauth`, and what each of them can do
to the tables of accounts, permissions and links.

* `fc::raw::unpack` of the data of an action is given by `ActionEnv`.
* `FC_CAPTURE_AND_RETHROW` only adds to the text of an exception.

Results:
* `PaidEffect`: everything a successful native action can do to the three tables, with what it
  charges; `NativeAction.pays`: each of the five does one of these, or throws something else than
  that a refund is refused.
* `NativeRun.invariant`: what every effect keeps holds after a run.
-/

namespace Forceio.Chain

open Forceio.Lib Exec Table ApplyState TableOf Database

variable {Key : Type}

/-! ## Action data -/

/-- `newaccount`. -/
structure NewAccount (Key : Type) where
  creator : AccountName
  name : AccountName
  owner : Authority Key
  active : Authority Key

/-- `updateauth`. -/
structure UpdateAuth (Key : Type) where
  account : AccountName
  permission : AccountName
  parent : AccountName
  auth : Authority Key

/-- `deleteauth`. -/
structure DeleteAuth where
  account : AccountName
  permission : AccountName

/-- `linkauth`. -/
structure LinkAuth where
  account : AccountName
  code : AccountName
  type : AccountName
  requirement : AccountName

/-- `unlinkauth`. -/
structure UnlinkAuth where
  account : AccountName
  code : AccountName
  type : AccountName

/-- `canceldelay`. -/
structure CancelDelay where
  cancelingAuth : PermissionLevel
  trxId : Sha256

/-- How `fc` unpacks the data of the native actions, and the packed size of a key. -/
structure ActionEnv (Key : Type) where
  newaccount : Bytes → Except FcException (NewAccount Key)
  updateauth : Bytes → Except FcException (UpdateAuth Key)
  deleteauth : Bytes → Except FcException DeleteAuth
  linkauth : Bytes → Except FcException LinkAuth
  unlinkauth : Bytes → Except FcException UnlinkAuth
  canceldelay : Bytes → Except FcException CancelDelay
  packSize : Key → Nat

/-- `action::data_as`, for an action of the system account. -/
def Action.dataAs {T : Type} (act : Action) (rootAccount name : String)
    (unpack : Bytes → Except FcException T) : Except FcException T := do
  eosAssert (act.account = systemAccountName rootAccount) .actionTypeException
    "account is not consistent with action struct"
  eosAssert (act.name = stringToName name) .actionTypeException
    "action name is not consistent with action struct"
  unpack act.data

/-! ## The actions -/

section Handlers

variable [LinearOrder Key] (env : ActionEnv Key) (ctx : ApplyContext Key)

open Database (accountsTable accountSequencesTable linksTable onResources)
open ApplyState (onDb addRamUsage requireAuthorization)

/-- The loop of `validate_authority_precondition` over the accounts of an authority. -/
def validateAuthorityAccounts (db : Database Key) :
    List PermissionLevelWeight → Except FcException Unit
  | [] => pure ()
  | a :: accounts => do
    eosAssert (db.findAccount a.permission.actor ≠ none) .actionValidateException
      "account '${account}' does not exist"
    if a.permission.permission = ownerName ∨ a.permission.permission = activeName ∨
        a.permission.permission = eosioCodeName ctx.control.rootAccount then
      validateAuthorityAccounts db accounts
    else
      match db.getPermission a.permission with
      | .ok _ => validateAuthorityAccounts db accounts
      | .error e =>
        throw (if e.type = .permissionQueryException then
          ⟨.actionValidateException, "permission '${perm}' does not exist"⟩ else e)

/-- `validate_authority_precondition`. -/
def validateAuthorityPrecondition (db : Database Key) (auth : Authority Key) :
    Except FcException Unit := do
  validateAuthorityAccounts ctx db auth.accounts
  if ctx.enforceWhiteblacklist && ctx.control.isProducingBlock then
    auth.keys.forM fun k => ctx.control.checkKeyList k.key

/-- The accounts that may create accounts with reserved names. -/
def mayReserveNames (creator : AccountName) : Bool :=
  creator = systemAccountName ctx.control.rootAccount ||
    creator = producersAccountName ctx.control.rootAccount ||
    creator = chainConfigName ctx.control.rootAccount

/-- `apply_system_native_newaccount`. -/
def applySystemNativeNewaccount : ApplyM Key Unit := do
  let create ← lift (ctx.act.dataAs ctx.control.rootAccount "newaccount" env.newaccount)
  requireAuthorization ctx create.creator
  require (create.owner.validate = true) .actionValidateException "Invalid owner authority"
  require (create.active.validate = true) .actionValidateException "Invalid active authority"
  require (create.name ≠ 0) .actionValidateException "account name cannot be empty"
  require ((nameToString create.name).length ≤ 12) .actionValidateException
    "account names can only be 12 chars long"
  let (_, creator) ← onDb (accountsTable.get fun a => a.name = create.creator)
  require (creator.privileged = false) .actionValidateException "not support privileged accounts"
  require (mayReserveNames ctx create.creator = true ∨ nameStartsWith create.name "force." = false)
    .actionValidateException "only privileged accounts can have names that start with 'force.'"
  require (mayReserveNames ctx create.creator = true ∨ nameStartsWith create.name "codex." = false)
    .actionValidateException "only privileged accounts can have names that start with 'codex.'"
  let existingAccount ← onDb (accountsTable.find fun a => a.name = create.name)
  require (existingAccount = none) .accountNameExistsException
    "Cannot create account named ${name}, as that name is already taken"
  let _ ← onDb (accountsTable.create { name := create.name })
  let _ ← onDb (accountSequencesTable.create { name := create.name })
  let s ← get
  lift (validateAuthorityPrecondition ctx s.db create.owner)
  lift (validateAuthorityPrecondition ctx s.db create.active)
  let now := ctx.control.pendingBlockTime
  let ownerId ← onDb (createPermission now create.name ownerName 0 create.owner)
  let _ ← onDb (createPermission now create.name activeName ownerId create.active)
  onDb (onResources (initializeAccount create.name))
  addRamUsage create.name (overheadPerAccountRamBytes + 2 * permissionObjectSize +
    create.owner.getBillableSize env.packSize + create.active.getBillableSize env.packSize)

/-- The end of `apply_system_native_updateauth`: change the permission, or create it. -/
def storeAuth (update : UpdateAuth Key) (permission : Option (Nat × PermissionObject Key))
    (parentId : Nat) : ApplyM Key Unit :=
  let now := ctx.control.pendingBlockTime
  match permission with
  | some (id, p) => do
    require (parentId = p.parent) .actionValidateException
      "Changing parent authority is not currently supported"
    let oldSize : Int := permissionObjectSize + p.auth.getBillableSize env.packSize
    onDb (modifyPermission now id update.auth)
    let newSize : Int := permissionObjectSize + update.auth.getBillableSize env.packSize
    addRamUsage p.owner (newSize - oldSize)
  | none => do
    let _ ← onDb (createPermission now update.account update.permission parentId update.auth)
    addRamUsage update.account (permissionObjectSize + update.auth.getBillableSize env.packSize)

/-- The id of the parent `updateauth` names: `0` for the owner permission. -/
def parentIdOf (db : Database Key) (update : UpdateAuth Key) : Except FcException Nat :=
  if update.permission = ownerName then pure 0
  else (db.getPermission ⟨update.account, update.parent⟩).map (·.1)

/-- `apply_system_native_updateauth`. -/
def applySystemNativeUpdateauth : ApplyM Key Unit := do
  let update ← lift (ctx.act.dataAs ctx.control.rootAccount "updateauth" env.updateauth)
  requireAuthorization ctx update.account
  require (update.permission ≠ 0) .actionValidateException
    "Cannot create authority with empty name"
  require (nameStartsWith update.permission "eosio." = false) .actionValidateException
    "Permission names that start with 'eosio.' are reserved"
  require (nameStartsWith update.permission "force." = false) .actionValidateException
    "Permission names that start with 'force.' are reserved"
  require (nameStartsWith update.permission "codex." = false) .actionValidateException
    "Permission names that start with 'codex.' are reserved"
  require (update.permission ≠ update.parent) .actionValidateException
    "Cannot set an authority as its own parent"
  let _ ← onDb (accountsTable.get fun a => a.name = update.account)
  require (update.auth.validate = true) .actionValidateException "Invalid authority: ${auth}"
  require (update.permission = activeName → update.parent = ownerName) .actionValidateException
    "Cannot change active authority's parent from owner"
  require (update.permission = ownerName → update.parent = 0) .actionValidateException
    "Cannot change owner authority's parent"
  require (update.permission ≠ ownerName → update.parent ≠ 0) .actionValidateException
    "Only owner permission can have empty parent"
  require (∀ w ∈ update.auth.waits.getLast?, w.waitSec ≤ ctx.control.maxTransactionDelay)
    .actionValidateException
    "Cannot set delay longer than max_transacton_delay, which is ${max_delay} seconds"
  let s ← get
  lift (validateAuthorityPrecondition ctx s.db update.auth)
  let permission ← lift (s.db.findPermission ⟨update.account, update.permission⟩)
  let parentId ← lift (parentIdOf s.db update)
  storeAuth env ctx update permission parentId

/-- `apply_system_native_deleteauth`. -/
def applySystemNativeDeleteauth : ApplyM Key Unit := do
  let remove ← lift (ctx.act.dataAs ctx.control.rootAccount "deleteauth" env.deleteauth)
  requireAuthorization ctx remove.account
  require (remove.permission ≠ activeName) .actionValidateException
    "Cannot delete active authority"
  require (remove.permission ≠ ownerName) .actionValidateException "Cannot delete owner authority"
  let link ← onDb (linksTable.find fun l =>
    l.account = remove.account && l.requiredPermission = remove.permission)
  require (link = none) .actionValidateException
    ("Cannot delete a linked authority. Unlink the authority first. This authority is linked to " ++
      "${code}::${type}.")
  let s ← get
  let permission ← lift (s.db.getPermission ⟨remove.account, remove.permission⟩)
  let oldSize : Int := permissionObjectSize + permission.2.auth.getBillableSize env.packSize
  onDb (removePermission permission)
  addRamUsage remove.account (-oldSize)

/-- The end of `apply_system_native_linkauth`: change the link, or create it. -/
def storeLink (requirement : LinkAuth) (link : Option (Nat × PermissionLinkObject)) :
    ApplyM Key Unit :=
  match link with
  | some (id, link) => do
    require (link.requiredPermission ≠ requirement.requirement) .actionValidateException
      "Attempting to update required authority, but new requirement is same as old"
    onDb (linksTable.modify id (.setRequired requirement.requirement)
      (PermissionLinkObject.keepsKeys_setRequired requirement.requirement))
  | none => do
    let _ ← onDb (linksTable.create
      { account := requirement.account, code := requirement.code,
        messageType := requirement.type, requiredPermission := requirement.requirement })
    addRamUsage requirement.account permissionLinkObjectSize

/-- `apply_system_native_linkauth`: the permission is looked up by its name alone. -/
def applySystemNativeLinkauth : ApplyM Key Unit := do
  let requirement ← lift (ctx.act.dataAs ctx.control.rootAccount "linkauth" env.linkauth)
  require (requirement.requirement ≠ 0) .actionValidateException
    "Required permission cannot be empty"
  requireAuthorization ctx requirement.account
  let s ← get
  require (s.db.findAccount requirement.account ≠ none) .accountQueryException
    "Failed to retrieve account: ${account}"
  require (s.db.findAccount requirement.code ≠ none) .accountQueryException
    "Failed to retrieve code for account: ${account}"
  require (requirement.requirement ≠ eosioAnyName ctx.control.rootAccount →
      (s.db.permissions.find? fun p => p.name = requirement.requirement) ≠ none)
    .permissionQueryException "Failed to retrieve permission: ${permission}"
  storeLink requirement (s.db.linkOf requirement.account requirement.code requirement.type)

/-- `apply_system_native_unlinkauth`. -/
def applySystemNativeUnlinkauth : ApplyM Key Unit := do
  let unlink ← lift (ctx.act.dataAs ctx.control.rootAccount "unlinkauth" env.unlinkauth)
  requireAuthorization ctx unlink.account
  let s ← get
  match s.db.linkOf unlink.account unlink.code unlink.type with
  | none => lift (.error ⟨.actionValidateException,
      "Attempting to unlink authority, but no link found"⟩)
  | some (id, link) => do
    addRamUsage link.account (-permissionLinkObjectSize)
    onDb (linksTable.remove id)

end Handlers

/-- The five native actions on permissions. -/
inductive NativeAction where
  | newaccount
  | updateauth
  | deleteauth
  | linkauth
  | unlinkauth
  deriving DecidableEq, Repr

/-- Run the handler of a native action. -/
def NativeAction.apply [LinearOrder Key] (env : ActionEnv Key) (ctx : ApplyContext Key) :
    NativeAction → ApplyM Key Unit
  | .newaccount => applySystemNativeNewaccount env ctx
  | .updateauth => applySystemNativeUpdateauth env ctx
  | .deleteauth => applySystemNativeDeleteauth env ctx
  | .linkauth => applySystemNativeLinkauth env ctx
  | .unlinkauth => applySystemNativeUnlinkauth env ctx

/-! ## Their effect -/

/-- The tables authorizations depend on. -/
structure AuthTables (Key : Type) where
  accounts : Table AccountObject
  permissions : Table (PermissionObject Key)
  links : Table PermissionLinkObject

/-- The tables of accounts, permissions and links of a database. -/
def Database.authTables (db : Database Key) : AuthTables Key :=
  ⟨db.accounts, db.permissions, db.links⟩

/-- The permission has the parent it should have: none if it is an owner permission, otherwise a
permission of the same account. -/
def HasParentIn (permissions : Table (PermissionObject Key)) (p : PermissionObject Key) : Prop :=
  if p.name = ownerName then p.parent = 0
  else ∃ q ∈ permissions.rows, q.1 = p.parent ∧ q.2.owner = p.owner

/-! ## Their charges -/

/-- What a permission costs its owner. -/
def PermissionObject.billableSize (packSize : Key → Nat) (p : PermissionObject Key) : Int :=
  permissionObjectSize + p.auth.getBillableSize packSize

/-- The tables the native actions charge for, and the RAM usage of the accounts. -/
structure NativeLedger (Key : Type) where
  tables : AuthTables Key
  ram : AccountName → Int

/-- The ledger of a database. -/
def Database.nativeLedger (db : Database Key) : NativeLedger Key :=
  ⟨db.authTables, db.resources.ramOf⟩

open ApplyState (charged)

/-- **What a native action can do** to the tables and charge for it, where `linkable` says which
permission may be linked by which account. -/
inductive PaidEffect (linkable : AccountName → AccountName → Prop) (packSize : Key → Nat)
    (l : NativeLedger Key) : NativeLedger Key → Prop
  | newaccount {name : AccountName} {owner active : PermissionObject Key} {i ownerId activeId : Nat}
      {accounts : Table AccountObject} {withOwner permissions : Table (PermissionObject Key)}
      (named : name ≠ 0) (account : l.tables.accounts.create { name := name } = some (i, accounts))
      (createOwner : l.tables.permissions.create owner = some (ownerId, withOwner))
      (isOwner : owner.owner = name ∧ owner.name = ownerName ∧ owner.parent = 0)
      (createActive : withOwner.create active = some (activeId, permissions))
      (isActive : active.owner = name ∧ active.name = activeName ∧ active.parent = ownerId) :
      PaidEffect linkable packSize l ⟨⟨accounts, permissions, l.tables.links⟩,
        charged l.ram name (overheadPerAccountRamBytes + owner.billableSize packSize +
          active.billableSize packSize)⟩
  | authModified {id : Nat} {p : PermissionObject Key} (auth : Authority Key) (now : Nat)
      (mem : (id, p) ∈ l.tables.permissions.rows) :
      PaidEffect linkable packSize l
        ⟨⟨l.tables.accounts, l.tables.permissions.update id (.setAuth auth now)
          (PermissionObject.keepsKeys_setAuth auth now), l.tables.links⟩,
          charged l.ram p.owner
            ((p.setAuth auth now).billableSize packSize - p.billableSize packSize)⟩
  | authCreated {p : PermissionObject Key} {id : Nat} {permissions : Table (PermissionObject Key)}
      (named : p.owner ≠ 0 ∧ p.name ≠ 0) (parent : HasParentIn l.tables.permissions p)
      (create : l.tables.permissions.create p = some (id, permissions)) :
      PaidEffect linkable packSize l ⟨⟨l.tables.accounts, permissions, l.tables.links⟩,
        charged l.ram p.owner (p.billableSize packSize)⟩
  | authDeleted {r : Nat × PermissionObject Key} (mem : r ∈ l.tables.permissions.rows)
      (named : r.2.owner ≠ 0 ∧ r.2.name ≠ activeName ∧ r.2.name ≠ ownerName)
      (unlinked : ∀ x ∈ l.tables.links.rows,
        ¬ (x.2.account = r.2.owner ∧ x.2.requiredPermission = r.2.name))
      (childless : ∀ q ∈ l.tables.permissions.rows, q.2.parent ≠ r.1) :
      PaidEffect linkable packSize l
        ⟨⟨l.tables.accounts, l.tables.permissions.remove r.1, l.tables.links⟩,
          charged l.ram r.2.owner (-r.2.billableSize packSize)⟩
  | relinked {id : Nat} {x : PermissionLinkObject} {requirement : AccountName}
      (mem : (id, x) ∈ l.tables.links.rows) (may : linkable x.account requirement) :
      PaidEffect linkable packSize l ⟨⟨l.tables.accounts, l.tables.permissions,
        l.tables.links.update id (.setRequired requirement)
          (PermissionLinkObject.keepsKeys_setRequired requirement)⟩, l.ram⟩
  | linked {id : Nat} {x : PermissionLinkObject} {links : Table PermissionLinkObject}
      (create : l.tables.links.create x = some (id, links))
      (known : ∃ y ∈ l.tables.accounts.rows, y.2.name = x.account)
      (may : linkable x.account x.requiredPermission) :
      PaidEffect linkable packSize l ⟨⟨l.tables.accounts, l.tables.permissions, links⟩,
        charged l.ram x.account permissionLinkObjectSize⟩
  | unlinked {id : Nat} {x : PermissionLinkObject} (mem : (id, x) ∈ l.tables.links.rows) :
      PaidEffect linkable packSize l
        ⟨⟨l.tables.accounts, l.tables.permissions, l.tables.links.remove id⟩,
          charged l.ram x.account (-permissionLinkObjectSize)⟩

/-! ## The ledger -/

/-- What an account costs: the fixed charge, its code and its abi. -/
def AccountObject.billableSize (x : AccountObject) : Int :=
  overheadPerAccountRamBytes + x.code.length * setcodeRamBytesMultiplier + x.abi.length

namespace NativeLedger

/-- What an account costs another: nothing. -/
def accountBill (a : AccountName) (x : AccountObject) : Int :=
  if x.name = a then x.billableSize else 0

variable (packSize : Key → Nat)

/-- What a permission costs an account. -/
def permissionBill (a : AccountName) (p : PermissionObject Key) : Int :=
  if p.owner = a then p.billableSize packSize else 0

/-- What a link costs an account. -/
def linkBill (a : AccountName) (l : PermissionLinkObject) : Int :=
  if l.account = a then permissionLinkObjectSize else 0

/-- What an account owes. -/
def owed (l : NativeLedger Key) (a : AccountName) : Int :=
  l.tables.accounts.total (accountBill a) + l.tables.permissions.total (permissionBill packSize a) +
    l.tables.links.total (linkBill a)

/-- What an account uses beyond that. -/
def slack (l : NativeLedger Key) (a : AccountName) : Int :=
  l.ram a - l.owed packSize a

end NativeLedger

/-! ## What they may throw -/

/-- The exception that refuses a refund larger than the usage. -/
def ramUnderflow : FcException :=
  ⟨.transactionException, "Ram usage delta would underflow UINT64_MAX"⟩

/-- Another exception. -/
def FcException.Other (e : FcException) : Prop := e ≠ ramUnderflow

open FcException (Other)
open Exec (Throws Fails Meets)

variable {type : ExceptionType}

theorem other_of_type {what : String}
    (h : decide (type = .transactionException) = false) : Other ⟨type, what⟩ :=
  fun heq => of_decide_eq_false h (congrArg FcException.type heq)

variable {α : Type}

theorem check_bind {σ : Type} {s : σ} {cond : Prop} [Decidable cond]
    {what : String} {C : Prop} {P : σ → Prop} {f : Unit → EStateM FcException σ α}
    (h : decide (type = .transactionException) = false) (hf : cond → Meets C P Other (f ()) s) :
    Meets C P Other (require cond type what >>= f) s :=
  .lift_bind (fun _ => eosAssert_fails (other_of_type h)) fun _ hc => hf (eosAssert_eq_ok.mp hc)

/-- Unpacking an action throws exceptions of its own. -/
structure ActionEnv.Quiet (env : ActionEnv Key) : Prop where
  newaccount : ∀ data, Fails Other (env.newaccount data)
  updateauth : ∀ data, Fails Other (env.updateauth data)
  deleteauth : ∀ data, Fails Other (env.deleteauth data)
  linkauth : ∀ data, Fails Other (env.linkauth data)
  unlinkauth : ∀ data, Fails Other (env.unlinkauth data)

/-- **Every account uses at least what it owes.** The empty name is no account; the permission with
id zero that the chain reserves is its. -/
structure NativeLedger.Covered (packSize : Key → Nat) (l : NativeLedger Key) : Prop where
  accounts : ∀ x ∈ l.tables.accounts.rows, x.2.name ≠ 0
  links : ∀ x ∈ l.tables.links.rows, x.2.account ≠ 0
  covers : ∀ a, a ≠ 0 → l.owed packSize a ≤ l.ram a

variable {p : PermissionObject Key}

section Bounds

variable {packSize : Key → Nat} {l : NativeLedger Key}

open NativeLedger (accountBill permissionBill linkBill)

theorem accountBill_nonneg (a : AccountName) (x : AccountObject) : 0 ≤ accountBill a x := by
  unfold accountBill
  split
  · exact Int.natCast_nonneg (_ + _ + _)
  · exact le_rfl

theorem permissionBill_nonneg (packSize : Key → Nat) (a : AccountName) (p : PermissionObject Key) :
    0 ≤ permissionBill packSize a p := by
  unfold permissionBill
  split
  · exact Int.natCast_nonneg (_ + _)
  · exact le_rfl

theorem linkBill_nonneg (a : AccountName) (x : PermissionLinkObject) : 0 ≤ linkBill a x := by
  unfold linkBill
  split
  · exact Int.natCast_nonneg _
  · exact le_rfl

/-- Each part of what an account owes has been paid for. -/
theorem NativeLedger.Covered.parts (h : l.Covered packSize) {a : AccountName} (ha : a ≠ 0) :
    l.tables.accounts.total (accountBill a) ≤ l.ram a ∧
      l.tables.permissions.total (permissionBill packSize a) ≤ l.ram a ∧
      l.tables.links.total (linkBill a) ≤ l.ram a := by
  have hx := total_nonneg (t := l.tables.accounts) (accountBill_nonneg a)
  have hp := total_nonneg (t := l.tables.permissions) (permissionBill_nonneg packSize a)
  have hl := total_nonneg (t := l.tables.links) (linkBill_nonneg a)
  have howed := h.covers a ha
  unfold NativeLedger.owed at howed
  refine ⟨?_, ?_, ?_⟩ <;> omega

theorem NativeLedger.Covered.account (h : l.Covered packSize) {n : Nat} {x : AccountObject}
    (hmem : (n, x) ∈ l.tables.accounts.rows) : x.billableSize ≤ l.ram x.name := by
  have hx := le_total_of_mem (accountBill_nonneg x.name) hmem
  rw [accountBill, if_pos rfl] at hx
  exact hx.trans (h.parts (h.accounts _ hmem)).1

theorem NativeLedger.Covered.permission (h : l.Covered packSize) {n : Nat}
    (hmem : (n, p) ∈ l.tables.permissions.rows) (hp0 : p.owner ≠ 0) :
    p.billableSize packSize ≤ l.ram p.owner := by
  have hp := le_total_of_mem (permissionBill_nonneg packSize p.owner) hmem
  rw [permissionBill, if_pos rfl] at hp
  exact hp.trans (h.parts hp0).2.1

theorem NativeLedger.Covered.link (h : l.Covered packSize) {n : Nat} {x : PermissionLinkObject}
    (hmem : (n, x) ∈ l.tables.links.rows) : (permissionLinkObjectSize : Int) ≤ l.ram x.account := by
  have hl := le_total_of_mem (linkBill_nonneg x.account) hmem
  rw [linkBill, if_pos rfl] at hl
  exact hl.trans (h.parts (h.links _ hmem)).2.2

end Bounds

section Effect

variable {env : ActionEnv Key} {s s' : ApplyState Key} {linkable : AccountName → AccountName → Prop}

open ApplyState (onDb addRamUsage requireAuthorization onDb_ok onDb_bind_ok
  onDb_bind_meets)

theorem ResourceDb.ramOf_nonneg (r : ResourceDb) (a : AccountName) : 0 ≤ r.ramOf a := by
  unfold ResourceDb.ramOf
  cases r.usageOf a with
  | none => exact le_rfl
  | some x => exact Int.natCast_nonneg _

variable {delta : Int}

theorem addRamUsage_other {a : AccountName}
    (h : 0 ≤ s.db.resources.ramOf a + delta) : Throws Other (addRamUsage a delta) s := by
  refine .bind (.zoom (.zoom ?_)) fun _ _ _ => .of_ok rfl
  unfold addPendingRamUsage
  split
  · exact .of_ok rfl
  · refine .bind (get_throws (other_of_type rfl)) fun r t hget => ?_
    obtain ⟨hfind, rfl⟩ := get_eq_ok_iff.mp hget
    have hram : s.db.resources.ramOf a = r.2.ramUsage := by
      have husage : s.db.resources.usageOf a = some r := hfind
      unfold ResourceDb.ramOf
      rw [husage]
      rfl
    refine .bind (require_throws fun _ heq => ?_) fun _ _ hfits => ?_
    · exact absurd (congrArg FcException.what heq) (by decide)
    · obtain ⟨-, rfl⟩ := require_ok.mp hfits
      refine .bind (require_throws fun hneg => absurd (.inr (by omega)) hneg) fun _ _ _ => .of_ok rfl

theorem getPermission_other (db : Database Key) (level : PermissionLevel) :
    Fails Other (db.getPermission level) := by
  refine .bind (.bind (eosAssert_fails (other_of_type rfl)) fun _ _ => .ok _) ?_
  intro o _
  cases o with
  | some r => exact .ok r
  | none => exact .error (other_of_type rfl)

variable {account : AccountName}

theorem createPermission_other {db : Database Key} {now parent : Nat} {name : AccountName}
    {auth : Authority Key} : Throws Other (createPermission now account name parent auth) db :=
  .bind (create_throws (other_of_type rfl)) fun _ _ _ =>
    create_throws (other_of_type rfl)

theorem addRamUsage_nativeLedger
    (h : addRamUsage account delta s = .ok () s') : s'.db.nativeLedger =
      ⟨s.db.authTables, charged s.db.resources.ramOf account delta⟩ := by
  obtain ⟨r, hdb, hram⟩ := addRamUsage_charged h
  rw [hdb]
  show (⟨s.db.authTables, r.ramOf⟩ : NativeLedger Key) = _
  rw [hram]

/-- Where a handler gets to, and what it does not throw where every account has paid. -/
abbrev Pays (linkable : AccountName → AccountName → Prop) (env : ActionEnv Key) (l : NativeLedger Key)
    (m : ApplyM Key Unit) (s : ApplyState Key) : Prop :=
  Meets (env.Quiet ∧ l.Covered env.packSize)
    (fun s' => PaidEffect linkable env.packSize l s'.db.nativeLedger) Other m s

variable {P : ApplyState Key → Prop}

theorem get_bind_pays {C : Prop} [Indexed α]
    {T : TableOf (Database Key) α} {p : α → Bool} {f : Nat × α → ApplyM Key Unit}
    (hf : ∀ r, (T.table s.db).find? p = some r → Meets C P Other (f r) s) :
    Meets C P Other (onDb (T.get p) >>= f) s := by
  refine onDb_bind_meets (fun _ => get_throws (other_of_type rfl)) fun r db hget => ?_
  obtain ⟨hfind, rfl⟩ := get_eq_ok_iff.mp hget
  exact hf r hfind

theorem addRamUsage_pays {l : NativeLedger Key} (heffect : PaidEffect linkable env.packSize l
      ⟨s.db.authTables, charged s.db.resources.ramOf account delta⟩)
    (hcovered : env.Quiet ∧ l.Covered env.packSize → 0 ≤ s.db.resources.ramOf account + delta) :
    Pays linkable env l (addRamUsage account delta) s where
  ok h := by
    rw [addRamUsage_nativeLedger h]
    exact heffect
  throws hc := addRamUsage_other (hcovered hc)

theorem parentIdOf_other (db : Database Key) (update : UpdateAuth Key) :
    Fails Other (parentIdOf db update) := by
  unfold parentIdOf
  split
  · exact .ok _
  · intro e he
    cases hp : getPermission _ _ with
    | ok r =>
      rw [hp] at he
      simp [Except.map] at he
    | error e' =>
      rw [hp] at he
      cases he
      exact getPermission_other _ _ hp

/-- The parent `updateauth` has looked up is one the permission may have. -/
theorem hasParentIn_of_parentIdOf {db : Database Key} {update : UpdateAuth Key} {parentId : Nat}
    (h : parentIdOf db update = .ok parentId)
    (howner : p.owner = update.account) (hname : p.name = update.permission)
    (hparent : p.parent = parentId) : HasParentIn db.permissions p := by
  unfold parentIdOf at h
  unfold HasParentIn
  rw [hname, hparent, howner]
  by_cases hp : update.permission = ownerName
  · rw [if_pos hp] at h ⊢
    exact (Except.ok.inj h).symm
  · rw [if_neg hp] at h ⊢
    cases hq : db.getPermission ⟨update.account, update.parent⟩ with
    | error e =>
      rw [hq] at h
      simp [Except.map] at h
    | ok q =>
      rw [hq] at h
      obtain ⟨-, hq⟩ := getPermission_eq_ok_iff.mp hq
      obtain ⟨hmem, hqowner, -⟩ := mem_of_permissionOf hq
      exact ⟨q, hmem, Except.ok.inj h, hqowner⟩

variable [LinearOrder Key] {ctx : ApplyContext Key}

theorem validateAuthorityAccounts_other (db : Database Key) :
    ∀ accounts, Fails Other (validateAuthorityAccounts ctx db accounts)
  | [] => .ok ()
  | a :: accounts => by
    refine .bind (eosAssert_fails (other_of_type rfl)) fun _ _ => ?_
    split
    · exact validateAuthorityAccounts_other db accounts
    · cases hp : db.getPermission a.permission with
      | ok r => exact validateAuthorityAccounts_other db accounts
      | error e =>
        refine .error ?_
        split
        · exact other_of_type rfl
        · exact getPermission_other db _ hp

theorem checkKeys_other : ∀ keys : List (KeyWeight Key),
    Fails Other (keys.forM fun k => ctx.control.checkKeyList k.key)
  | [] => .ok ()
  | _ :: keys =>
    .bind (eosAssert_fails (other_of_type rfl)) fun _ _ => checkKeys_other keys

theorem validateAuthorityPrecondition_other (db : Database Key) (auth : Authority Key) :
    Fails Other (validateAuthorityPrecondition ctx db auth) := by
  refine .bind (validateAuthorityAccounts_other db _) fun _ _ => ?_
  split
  · exact checkKeys_other auth.keys
  · exact .ok ()

theorem dataAs_other {T : Type} {act : Action} {root name : String}
    {unpack : Bytes → Except FcException T} (h : ∀ data, Fails Other (unpack data)) :
    Fails Other (act.dataAs root name unpack) :=
  .bind (eosAssert_fails (other_of_type rfl)) fun _ _ =>
    .bind (eosAssert_fails (other_of_type rfl)) fun _ _ => h _

theorem requireAuthorization_bind {C : Prop} {f : Unit → ApplyM Key α}
    (hf : ∀ used, Meets C P Other (f ()) (s.setUsed used)) :
    Meets C P Other (requireAuthorization ctx account >>= f) s := by
  refine .bind (fun _ => requireAuthorization_throws (other_of_type rfl)) ?_
  intro u t ht
  obtain ⟨-, used, rfl⟩ := requireAuthorization_spec ht
  exact hf used

theorem applySystemNativeNewaccount_pays :
    Pays linkable env s.db.nativeLedger (applySystemNativeNewaccount env ctx) s := by
  refine .lift_bind (fun hc => dataAs_other hc.1.newaccount) fun create _ => ?_
  refine requireAuthorization_bind fun used => check_bind rfl fun _ => check_bind rfl fun _ => ?_
  refine check_bind rfl fun hname => check_bind rfl fun _ => get_bind_pays fun creator _ => ?_
  refine check_bind rfl fun _ => check_bind rfl fun _ => check_bind rfl fun _ => ?_
  refine onDb_bind_meets (fun _ => .of_ok rfl) fun existing db hfind => ?_
  cases hfind
  refine check_bind rfl fun _ => ?_
  refine onDb_bind_meets (fun _ => create_throws (other_of_type rfl)) fun i db hrun => ?_
  obtain ⟨accounts, haccount, rfl⟩ := create_eq_ok_iff.mp hrun
  refine onDb_bind_meets (fun _ => create_throws (other_of_type rfl)) fun _ db hrun => ?_
  obtain ⟨_, -, rfl⟩ := create_eq_ok_iff.mp hrun
  refine .get_bind (.lift_bind (fun _ => validateAuthorityPrecondition_other _ _) fun _ _ => ?_)
  refine .lift_bind (fun _ => validateAuthorityPrecondition_other _ _) fun _ _ => ?_
  refine onDb_bind_meets (fun _ => createPermission_other) fun ownerId db hrun => ?_
  obtain ⟨_, _, withOwner, howner, rfl⟩ := createPermission_eq_ok hrun
  refine onDb_bind_meets (fun _ => createPermission_other) fun activeId db hrun => ?_
  obtain ⟨_, _, permissions, hactive, rfl⟩ := createPermission_eq_ok hrun
  refine onDb_bind_meets (fun _ => .zoom ?_) fun _ db hres => addRamUsage_pays ?_ fun _ => ?_
  · exact .bind (create_throws (other_of_type rfl)) fun _ _ _ =>
      .bind (create_throws (other_of_type rfl)) fun _ _ _ => .of_ok rfl
  · obtain ⟨r, hinit, rfl⟩ := zoom_ok.mp hres
    have hram := initializeAccount_ramOf hinit
    have heffect : PaidEffect linkable env.packSize s.db.nativeLedger _ :=
      .newaccount hname haccount howner ⟨rfl, rfl, rfl⟩ hactive ⟨rfl, rfl, rfl⟩
    convert heffect using 1
    show (⟨_, charged r.ramOf _ _⟩ : NativeLedger Key) = _
    congr 2
    show _ = overheadPerAccountRamBytes +
      ((permissionObjectSize : Int) + create.owner.getBillableSize env.packSize) +
        ((permissionObjectSize : Int) + create.active.getBillableSize env.packSize)
    omega
  · exact add_nonneg (ResourceDb.ramOf_nonneg _ _) (Int.natCast_nonneg (_ + _ + _ + _))

theorem applySystemNativeUpdateauth_pays :
    Pays linkable env s.db.nativeLedger (applySystemNativeUpdateauth env ctx) s := by
  refine .lift_bind (fun hc => dataAs_other hc.1.updateauth) fun update _ => ?_
  refine requireAuthorization_bind fun used => check_bind rfl fun _ => check_bind rfl fun _ => ?_
  refine check_bind rfl fun _ => check_bind rfl fun _ => check_bind rfl fun _ => ?_
  refine get_bind_pays fun _ _ => check_bind rfl fun _ => check_bind rfl fun _ => ?_
  refine check_bind rfl fun _ => check_bind rfl fun _ => check_bind rfl fun _ => .get_bind ?_
  refine .lift_bind (fun _ => validateAuthorityPrecondition_other _ _) fun _ _ => ?_
  refine .lift_bind (fun _ => .bind (eosAssert_fails (other_of_type rfl)) fun _ _ => .ok _) ?_
  intro permission hperm
  obtain ⟨hne, hfound⟩ := findPermission_eq_ok_iff.mp hperm
  refine .lift_bind (fun _ => parentIdOf_other _ _) fun parentId hparent => ?_
  cases permission with
  | some r =>
    obtain ⟨hmem, howner, -⟩ := mem_of_permissionOf hfound
    refine check_bind rfl fun _ => onDb_bind_meets (fun _ => .of_ok rfl) fun _ _ hmod => ?_
    cases hmod
    refine addRamUsage_pays (.authModified update.auth ctx.control.pendingBlockTime hmem) fun hc => ?_
    have hcovered := hc.2.permission hmem (by rw [howner]; exact hne.1)
    show 0 ≤ s.db.nativeLedger.ram r.2.owner + (_ - r.2.billableSize env.packSize)
    omega
  | none =>
    refine onDb_bind_meets (fun _ => createPermission_other) fun id db hrun => ?_
    obtain ⟨_, _, permissions, hcreate, rfl⟩ := createPermission_eq_ok hrun
    have heffect : PaidEffect linkable env.packSize s.db.nativeLedger _ :=
      .authCreated hne (hasParentIn_of_parentIdOf hparent rfl rfl rfl) hcreate
    exact addRamUsage_pays heffect fun _ =>
      add_nonneg (ResourceDb.ramOf_nonneg _ _) (Int.natCast_nonneg (_ + _))

theorem applySystemNativeDeleteauth_pays :
    Pays linkable env s.db.nativeLedger (applySystemNativeDeleteauth env ctx) s := by
  refine .lift_bind (fun hc => dataAs_other hc.1.deleteauth) fun remove _ => ?_
  refine requireAuthorization_bind fun used => check_bind rfl fun hactive => ?_
  refine check_bind rfl fun howner => onDb_bind_meets (fun _ => .of_ok rfl) fun link db hfind => ?_
  cases hfind
  refine check_bind rfl fun hlink => .get_bind ?_
  refine .lift_bind (fun _ => getPermission_other _ _) fun permission hperm => ?_
  obtain ⟨⟨hne, -⟩, hperm⟩ := getPermission_eq_ok_iff.mp hperm
  obtain ⟨hmem, hpowner, hpname⟩ := mem_of_permissionOf hperm
  refine onDb_bind_meets (fun _ => .bind (.of_ok rfl) fun _ _ _ => ?_) fun _ db hremove => ?_
  · exact .bind (require_throws fun _ => other_of_type rfl) fun _ _ _ => .of_ok rfl
  obtain ⟨hchild, usages, rfl⟩ := removePermission_eq_ok hremove
  have hnamed : permission.2.owner ≠ 0 ∧ permission.2.name ≠ activeName ∧
      permission.2.name ≠ ownerName := by
    rw [hpowner, hpname]
    exact ⟨hne, hactive, howner⟩
  have hunlinked : ∀ l ∈ s.db.links.rows,
      ¬ (l.2.account = permission.2.owner ∧ l.2.requiredPermission = permission.2.name) := by
    intro l hl
    rw [hpowner, hpname]
    simpa using find?_eq_none.mp hlink l hl
  have heffect : PaidEffect linkable env.packSize s.db.nativeLedger _ :=
    .authDeleted hmem hnamed hunlinked hchild
  rw [hpowner] at heffect
  refine addRamUsage_pays heffect fun hc => ?_
  have hcovered := hc.2.permission hmem hnamed.1
  rw [show permission.2.owner = remove.account from hpowner] at hcovered
  show 0 ≤ s.db.nativeLedger.ram remove.account + -permission.2.billableSize env.packSize
  omega

/-- `linkauth` links what its data says, if that may be linked. -/
theorem applySystemNativeLinkauth_pays (hmay : ∀ req,
      ctx.act.dataAs ctx.control.rootAccount "linkauth" env.linkauth = .ok req →
      linkable req.account req.requirement) :
    Pays linkable env s.db.nativeLedger (applySystemNativeLinkauth env ctx) s := by
  refine .lift_bind (fun hc => dataAs_other hc.1.linkauth) fun req hreq => check_bind rfl fun _ => ?_
  refine requireAuthorization_bind fun used => .get_bind (check_bind rfl fun haccount => ?_)
  refine check_bind rfl fun _ => check_bind rfl fun _ => ?_
  rw [setUsed_db] at haccount ⊢
  cases hlink : s.db.linkOf req.account req.code req.type with
  | some r =>
    have haccount : r.2.account = req.account := by
      have hkey := of_find? hlink
      simp only [Bool.and_eq_true, decide_eq_true_eq] at hkey
      exact hkey.1.1
    refine check_bind rfl fun _ => ⟨fun h => ?_, fun _ => .of_ok rfl⟩
    obtain ⟨db1, hmod, rfl⟩ := onDb_ok.mp h
    cases hmod
    exact .relinked (mem_of_find? hlink) (by rw [haccount]; exact hmay req hreq)
  | none =>
    refine onDb_bind_meets (fun _ => create_throws (other_of_type rfl)) fun id db hrun => ?_
    obtain ⟨links, hcreate, rfl⟩ := create_eq_ok_iff.mp hrun
    obtain ⟨y, hy⟩ := Option.ne_none_iff_exists'.mp haccount
    have hknown : y.2.name = req.account := by simpa using of_find? hy
    have heffect : PaidEffect linkable env.packSize s.db.nativeLedger _ :=
      .linked hcreate ⟨y, mem_of_find? hy, hknown⟩ (hmay req hreq)
    exact addRamUsage_pays heffect fun _ =>
      add_nonneg (ResourceDb.ramOf_nonneg _ _) (Int.natCast_nonneg _)

theorem applySystemNativeUnlinkauth_pays :
    Pays linkable env s.db.nativeLedger (applySystemNativeUnlinkauth env ctx) s := by
  refine .lift_bind (fun hc => dataAs_other hc.1.unlinkauth) fun unlink _ => ?_
  refine requireAuthorization_bind fun used => .get_bind ?_
  rw [setUsed_db]
  cases hlink : s.db.linkOf unlink.account unlink.code unlink.type with
  | none => exact ⟨fun h => absurd h (by simp [lift]), fun _ => .lift (.error (other_of_type rfl))⟩
  | some r =>
    refine .bind (fun hc => addRamUsage_other ?_) fun _ s1 hram => ⟨fun h => ?_, fun _ => .of_ok rfl⟩
    · have hcovered := hc.2.link (mem_of_find? hlink)
      show 0 ≤ s.db.nativeLedger.ram r.2.account + -permissionLinkObjectSize
      omega
    obtain ⟨db1, hremove, rfl⟩ := onDb_ok.mp h
    cases hremove
    obtain ⟨res, hdb, hcharged⟩ := addRamUsage_charged hram
    have heffect : PaidEffect linkable env.packSize s.db.nativeLedger _ :=
      .unlinked (mem_of_find? hlink)
    convert heffect using 1
    show (⟨⟨s1.db.accounts, s1.db.permissions, s1.db.links.remove r.1⟩, s1.db.resources.ramOf⟩ :
      NativeLedger Key) = _
    rw [hdb]
    show (⟨_, res.ramOf⟩ : NativeLedger Key) = _
    rw [hcharged]
    rfl

/-- **Every successful native action has one of the effects**, and no refund is refused where every
account has paid. -/
theorem NativeAction.pays (a : NativeAction) (hmay : a = .linkauth → ∀ req,
      ctx.act.dataAs ctx.control.rootAccount "linkauth" env.linkauth = .ok req →
        linkable req.account req.requirement) :
    Pays linkable env s.db.nativeLedger (a.apply env ctx) s := by
  cases a with
  | newaccount => exact applySystemNativeNewaccount_pays
  | updateauth => exact applySystemNativeUpdateauth_pays
  | deleteauth => exact applySystemNativeDeleteauth_pays
  | linkauth => exact applySystemNativeLinkauth_pays (hmay rfl)
  | unlinkauth => exact applySystemNativeUnlinkauth_pays

end Effect

/-! ## Runs -/

section Runs

variable [LinearOrder Key] {env : ActionEnv Key}

/-- A native action with the context it runs in. -/
structure NativeCall (Key : Type) [LinearOrder Key] where
  action : NativeAction
  ctx : ApplyContext Key

/-- The data of the call, if it is a `linkauth`. -/
def NativeCall.linkData (env : ActionEnv Key) (call : NativeCall Key) : Option LinkAuth :=
  if call.action = .linkauth then
    (call.ctx.act.dataAs call.ctx.control.rootAccount "linkauth" env.linkauth).toOption
  else none

/-- **A run of successful native actions**, each of them `allowed` in the database it starts from.
Between two of them the rest of the state may change, but not the three tables. -/
inductive NativeRun (env : ActionEnv Key) (allowed : Database Key → NativeCall Key → Prop) :
    Database Key → List (NativeCall Key) → Database Key → Prop
  | nil (db : Database Key) : NativeRun env allowed db [] db
  | cons {db db' : Database Key} {s s' : ApplyState Key} {call : NativeCall Key}
      {calls : List (NativeCall Key)} (before : s.db.authTables = db.authTables)
      (may : allowed s.db call) (step : call.action.apply env call.ctx s = .ok () s')
      (rest : NativeRun env allowed s'.db calls db') : NativeRun env allowed db (call :: calls) db'

variable {allowed : Database Key → NativeCall Key → Prop} {db db' : Database Key}
  {calls : List (NativeCall Key)}

/-- **The run rule**: what every effect keeps holds after a run, where `linkable` says what the
allowed calls may link. -/
theorem NativeRun.invariant (I : AuthTables Key → Prop)
    (linkable : Database Key → AccountName → AccountName → Prop)
    (hallowed : ∀ db call req, allowed db call → call.linkData env = some req →
      linkable db req.account req.requirement) (hstep : ∀ (db db' : Database Key), I db.authTables →
      PaidEffect (linkable db) env.packSize db.nativeLedger db'.nativeLedger → I db'.authTables)
    (h : NativeRun env allowed db calls db') (hI : I db.authTables) : I db'.authTables := by
  induction h with
  | nil db => exact hI
  | @cons db db' s s' call calls before may step rest ih =>
    refine ih (hstep s.db s'.db (by rwa [before]) ((call.action.pays ?_).ok step))
    intro hact req hreq
    refine hallowed s.db call req may ?_
    rw [NativeCall.linkData, if_pos hact, hreq]
    rfl

/-- Run native actions one after another, each in a context state of its own. -/
def runNative (env : ActionEnv Key) :
    List (NativeCall Key) → Database Key → Except FcException (Database Key)
  | [], db => .ok db
  | call :: calls, db =>
    match call.action.apply env call.ctx (.start db call.ctx.act) with
    | .ok _ s => runNative env calls s.db
    | .error e _ => .error e

theorem NativeRun.of_runNative (hallowed : ∀ db call, allowed db call) :
    ∀ {calls : List (NativeCall Key)} {db db' : Database Key},
      runNative env calls db = .ok db' → NativeRun env allowed db calls db'
  | [], db, db', h => by
    cases h
    exact .nil db
  | call :: calls, db, db', h => by
    unfold runNative at h
    cases hcall : call.action.apply env call.ctx (.start db call.ctx.act) with
    | error e s =>
      rw [hcall] at h
      simp at h
    | ok u s =>
      rw [hcall] at h
      exact .cons rfl (hallowed _ call) hcall (of_runNative hallowed h)

end Runs

end Forceio.Chain
