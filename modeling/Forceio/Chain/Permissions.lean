import Forceio.Chain.ApplyContext

/-!
# Permissions and links: `authorization_manager.cpp`, `permission_object.hpp`

* Reading functions are pure: they are given the database. `invalid_permission` passes
  `EOS_RETHROW_EXCEPTIONS` unchanged, an unknown key becomes `permission_query_exception`.
* `&*index.find(id)` of an id without a row has no defined behaviour: `satisfies` is `none` there,
  and when its `while` loop has not ended after `fuel` rounds.
* The optional creation time of `create_permission` is not given by any action.

Result:
* `getPermission_eq_ok_iff`: a permission is found by its account and name, both not empty.
-/

namespace Forceio.Chain

open Forceio.Lib Table TableOf

variable {Key : Type}

/-! ## Lookups -/

namespace Database

variable (db : Database Key)

/-- `find_permission`. -/
def findPermission (level : PermissionLevel) :
    Except FcException (Option (Nat × PermissionObject Key)) := do
  eosAssert (level.actor ≠ 0 ∧ level.permission ≠ 0) .invalidPermission "Invalid permission"
  pure (db.permissionOf level.actor level.permission)

/-- `get_permission`. -/
def getPermission (level : PermissionLevel) : Except FcException (Nat × PermissionObject Key) := do
  match ← db.findPermission level with
  | some r => pure r
  | none => throw ⟨.permissionQueryException, "Failed to retrieve permission: ${level}"⟩

/-- The link of an account for an action. -/
def linkOf (account code messageType : AccountName) : Option (Nat × PermissionLinkObject) :=
  db.links.find? fun l => l.account = account && l.code = code && l.messageType = messageType

/-- `lookup_linked_permission`: the link of the action, or else of the whole contract. -/
def lookupLinkedPermission (authorizerAccount scope actName : AccountName) : Option AccountName :=
  match db.linkOf authorizerAccount scope actName with
  | some (_, link) => some link.requiredPermission
  | none => (db.linkOf authorizerAccount scope 0).map fun r => r.2.requiredPermission

/-- `lookup_minimum_permission`. -/
def lookupMinimumPermission (rootAccount : String) (authorizerAccount scope actName : AccountName) :
    Except FcException (Option AccountName) := do
  eosAssert (scope = systemAccountName rootAccount →
      actName ≠ stringToName "updateauth" ∧ actName ≠ stringToName "deleteauth" ∧
      actName ≠ stringToName "linkauth" ∧ actName ≠ stringToName "unlinkauth" ∧
      actName ≠ stringToName "canceldelay") .unlinkableMinPermissionAction
    ("cannot call lookup_minimum_permission on native actions that are not allowed to be linked " ++
      "to minimum permissions")
  match db.lookupLinkedPermission authorizerAccount scope actName with
  | none => pure (some activeName)
  | some linked => pure (if linked = eosioAnyName rootAccount then none else some linked)

end Database

/-- The `while` loop of `satisfies`. -/
def satisfiesLoop (permissions : Table (PermissionObject Key)) (id : Nat) :
    Nat → PermissionObject Key → Option Bool
  | 0, _ => none
  | fuel + 1, parent =>
    if id = parent.parent then some true
    else if parent.parent = 0 then some false
    else
      match permissions.get? parent.parent with
      | none => none
      | some p => satisfiesLoop permissions id fuel p

/-- `permission_object::satisfies`. -/
def satisfies (permissions : Table (PermissionObject Key)) (fuel : Nat)
    (self other : Nat × PermissionObject Key) : Option Bool :=
  if self.2.owner ≠ other.2.owner then some false
  else if self.1 = other.1 ∨ self.1 = other.2.parent then some true
  else
    match permissions.get? other.2.parent with
    | none => none
    | some p => satisfiesLoop permissions self.1 fuel p

/-! ## Changes -/

open Database (permissionsTable permissionUsagesTable)

/-- `create_permission`; the permission it creates is given by its id. -/
def createPermission (pendingBlockTime : Nat) (account name : AccountName) (parent : Nat)
    (auth : Authority Key) : DbM Key Nat := do
  let usageId ← permissionUsagesTable.create { lastUsed := pendingBlockTime }
  permissionsTable.create
    { usageId := usageId, parent := parent, owner := account, name := name,
      lastUpdated := pendingBlockTime, auth := auth }

/-- `modify_permission`. -/
def modifyPermission (pendingBlockTime : Nat) (id : Nat) (auth : Authority Key) : DbM Key Unit :=
  permissionsTable.modify id (.setAuth auth pendingBlockTime)
    (PermissionObject.keepsKeys_setAuth auth pendingBlockTime)

/-- `remove_permission`. -/
def removePermission (permission : Nat × PermissionObject Key) : DbM Key Unit := do
  let child ← permissionsTable.find fun p => p.parent = permission.1
  require (child = none) .actionValidateException
    "Cannot remove a permission which has children. Remove the children first."
  permissionUsagesTable.remove permission.2.usageId
  permissionsTable.remove permission.1

/-! ## What they do -/

section Specs

variable {db db' : Database Key} {level : PermissionLevel} {r : Nat × PermissionObject Key}

namespace Database

theorem mem_of_permissionOf {owner name : AccountName} (h : db.permissionOf owner name = some r) :
    r ∈ db.permissions.rows ∧ r.2.owner = owner ∧ r.2.name = name :=
  ⟨mem_of_find? h, by simpa using of_find? h⟩

theorem permissionOf_of_mem (h : r ∈ db.permissions.rows) :
    db.permissionOf r.2.owner r.2.name = some r := by
  refine find?_eq_some_of_mem h (by simp) fun p hp => ?_
  simpa [Indexed.clash] using hp

theorem findPermission_eq_ok_iff {o : Option (Nat × PermissionObject Key)} :
    db.findPermission level = .ok o ↔
      (level.actor ≠ 0 ∧ level.permission ≠ 0) ∧ db.permissionOf level.actor level.permission = o := by
  unfold findPermission
  rw [assert_bind_eq_ok]
  exact and_congr_right fun _ => by simp [pure, Except.pure]

theorem getPermission_eq_ok_iff : db.getPermission level = .ok r ↔
    (level.actor ≠ 0 ∧ level.permission ≠ 0) ∧
      db.permissionOf level.actor level.permission = some r := by
  unfold getPermission
  rw [bind_eq_ok]
  constructor
  · rintro ⟨o, ho, h⟩
    obtain ⟨hne, rfl⟩ := findPermission_eq_ok_iff.mp ho
    refine ⟨hne, ?_⟩
    cases hp : db.permissionOf level.actor level.permission with
    | none =>
      rw [hp] at h
      simp [throw, throwThe, MonadExceptOf.throw] at h
    | some r' =>
      rw [hp] at h
      exact congrArg some (Except.ok.inj h)
  · rintro ⟨hne, hp⟩
    exact ⟨some r, findPermission_eq_ok_iff.mpr ⟨hne, hp⟩, rfl⟩

end Database

theorem createPermission_eq_ok {now n : Nat} {account name : AccountName} {parent : Nat}
    {auth : Authority Key} (h : createPermission now account name parent auth db = .ok n db') :
    ∃ usageId usages permissions, db.permissions.create
        { usageId := usageId, parent := parent, owner := account, name := name,
          lastUpdated := now, auth := auth } = some (n, permissions) ∧
      db' = { db with permissionUsages := usages, permissions := permissions } := by
  obtain ⟨usageId, usages, -, h⟩ := create_bind_ok h
  obtain ⟨permissions, hp, rfl⟩ := create_eq_ok_iff.mp h
  exact ⟨usageId, usages, permissions, hp, rfl⟩

theorem removePermission_eq_ok (h : removePermission r db = .ok () db') :
    (∀ q ∈ db.permissions.rows, q.2.parent ≠ r.1) ∧ ∃ usages, db' =
        { db with permissionUsages := usages, permissions := db.permissions.remove r.1 } := by
  obtain ⟨hchild, h⟩ := require_bind_ok.mp h
  cases h
  refine ⟨fun q hq => ?_, _, rfl⟩
  simpa using find?_eq_none.mp hchild q hq

end Specs

end Forceio.Chain
