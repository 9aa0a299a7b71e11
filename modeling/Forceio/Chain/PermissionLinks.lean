import Forceio.Chain.PermissionForest

/-!
# Permission links and the permissions they name

A link makes an account's action need one of the account's permissions. `deleteauth` keeps a linked
permission from being removed. `linkauth` only checks that some account has a permission of the
name: an account can link an action to a permission it does not have.

Results:
* `linksResolve_run`: after a run in which every link names a permission its account has, no link
  dangles and no lookup of a linked permission fails.
* `linkauth_dangles`: one `linkauth` that leaves a dangling link.
-/

namespace Forceio.Chain

open Forceio.Lib Exec Table Database

variable {Key : Type}

/-- What the account requires is no particular permission, or one that it has. -/
def LinkResolves (rootAccount : String) (permissions : Table (PermissionObject Key))
    (account requirement : AccountName) : Prop :=
  requirement = eosioAnyName rootAccount ∨
    (account ≠ 0 ∧ requirement ≠ 0) ∧ HasPermission permissions account requirement

/-- **No link dangles.** -/
def LinksResolve (rootAccount : String) (t : AuthTables Key) : Prop :=
  ∀ l ∈ t.links.rows, LinkResolves rootAccount t.permissions l.2.account l.2.requiredPermission

/-- A `linkauth` names a permission that its account has when it runs. -/
def LinksOwnPermission [LinearOrder Key] (rootAccount : String) (env : ActionEnv Key)
    (db : Database Key) (call : NativeCall Key) : Prop :=
  ∀ req, call.linkData env = some req →
    LinkResolves rootAccount db.permissions req.account req.requirement

instance {permissions : Table (PermissionObject Key)} {owner name : AccountName} :
    Decidable (HasPermission permissions owner name) :=
  inferInstanceAs (Decidable (∃ r ∈ permissions.rows, r.2.owner = owner ∧ r.2.name = name))

instance {rootAccount : String} {permissions : Table (PermissionObject Key)}
    {account requirement : AccountName} :
    Decidable (LinkResolves rootAccount permissions account requirement) :=
  inferInstanceAs (Decidable (_ ∨ _))

instance {rootAccount : String} {t : AuthTables Key} : Decidable (LinksResolve rootAccount t) :=
  inferInstanceAs (Decidable (∀ l ∈ t.links.rows, _))

/-! ## One native action -/

section Step

variable {rootAccount : String} {permissions permissions' : Table (PermissionObject Key)}
  {t t' : AuthTables Key}

theorem LinksResolve.mono (h : LinksResolve rootAccount t)
    (hsub : Covered t.permissions permissions') {accounts : Table AccountObject} :
    LinksResolve rootAccount ⟨accounts, permissions', t.links⟩ :=
  fun l hl => (h l hl).imp_right fun hp => ⟨hp.1, hp.2.mono hsub⟩

/-- A permission no link of its account names can be taken out. -/
theorem LinksResolve.delete (h : LinksResolve rootAccount t) {r : Nat × PermissionObject Key}
    (hr : r ∈ t.permissions.rows) (hunlinked : ∀ l ∈ t.links.rows,
      ¬ (l.2.account = r.2.owner ∧ l.2.requiredPermission = r.2.name)) :
    LinksResolve rootAccount { t with permissions := t.permissions.remove r.1 } := by
  intro l hl
  rcases h l hl with hany | ⟨hne, q, hq, howner, hname⟩
  · exact .inl hany
  · refine .inr ⟨hne, q, mem_remove.mpr ⟨hq, fun hid => ?_⟩, howner, hname⟩
    rw [eq_of_id hq hr hid] at howner hname
    exact hunlinked l hl ⟨howner.symm, hname.symm⟩

/-- **Every native action keeps links from dangling**, if what it links is there. -/
theorem LinksResolve.step {packSize : Key → Nat} {l l' : NativeLedger Key}
    (h : LinksResolve rootAccount l.tables)
    (heffect : PaidEffect (LinkResolves rootAccount l.tables.permissions) packSize l l') :
    LinksResolve rootAccount l'.tables := by
  cases heffect with
  | newaccount named account createOwner isOwner createActive isActive =>
    refine h.mono (.of_subset fun r hr => ?_)
    exact (mem_create createActive).mpr (.inl ((mem_create createOwner).mpr (.inl hr)))
  | authModified auth now mem => exact h.mono .setAuth
  | authCreated named parent create =>
    exact h.mono (.of_subset fun r hr => (mem_create create).mpr (.inl hr))
  | authDeleted mem named unlinked childless => exact h.delete mem unlinked
  | @relinked id link requirement mem may =>
    intro x hl
    have hl' : x ∈ (l.tables.links.update id (.setRequired requirement)
      (PermissionLinkObject.keepsKeys_setRequired requirement)).rows := hl
    rcases (mem_update_of_mem mem).mp hl' with ⟨hl, -⟩ | rfl
    · exact h x hl
    · exact may
  | linked create known may =>
    intro x hl
    rcases (mem_create create).mp hl with hl | rfl
    · exact h x hl
    · exact may
  | unlinked mem => exact fun l hl => h l (mem_remove.mp hl).1

end Step

/-! ## Lookups -/

section Lookup

variable {rootAccount : String} {db : Database Key} {actor scope actName name : AccountName}

theorem exists_link_of_lookup (h : db.lookupLinkedPermission actor scope actName = some name) :
    ∃ l ∈ db.links.rows, l.2.account = actor ∧ l.2.requiredPermission = name := by
  have hkey : ∀ {l type}, db.linkOf actor scope type = some l →
      l ∈ db.links.rows ∧ l.2.account = actor := by
    intro l type hl
    have hl' := of_find? hl
    simp only [Bool.and_eq_true, decide_eq_true_eq] at hl'
    exact ⟨mem_of_find? hl, hl'.1.1⟩
  unfold lookupLinkedPermission at h
  cases hspecific : db.linkOf actor scope actName with
  | some l =>
    rw [hspecific] at h
    obtain ⟨hmem, haccount⟩ := hkey hspecific
    exact ⟨l, hmem, haccount, Option.some.inj h⟩
  | none =>
    rw [hspecific] at h
    obtain ⟨l, hdefault, hname⟩ := Option.map_eq_some_iff.mp h
    obtain ⟨hmem, haccount⟩ := hkey hdefault
    exact ⟨l, hmem, haccount, hname⟩

/-- The minimum permission of a linked action is what the link requires. -/
theorem lookupLinked_of_lookupMinimum
    (h : db.lookupMinimumPermission rootAccount actor scope actName = .ok (some name))
    (hlinked : db.lookupLinkedPermission actor scope actName ≠ none) :
    db.lookupLinkedPermission actor scope actName = some name ∧ name ≠ eosioAnyName rootAccount := by
  obtain ⟨-, h⟩ := assert_bind_eq_ok.mp h
  obtain ⟨linked, hlink⟩ := Option.ne_none_iff_exists'.mp hlinked
  rw [hlink] at h
  replace h : Except.ok (if linked = eosioAnyName rootAccount then none else some linked) =
    (.ok (some name) : Except FcException _) := h
  split at h
  · exact absurd (Except.ok.inj h) (by simp)
  · next hany =>
    obtain rfl : linked = name := Option.some.inj (Except.ok.inj h)
    exact ⟨hlink, hany⟩

/-- Where no link dangles, the permission a link requires is found. -/
theorem LinksResolve.getPermission_eq_ok (h : LinksResolve rootAccount db.authTables)
    (hmin : db.lookupMinimumPermission rootAccount actor scope actName = .ok (some name))
    (hlinked : db.lookupLinkedPermission actor scope actName ≠ none) :
    ∃ r, db.getPermission ⟨actor, name⟩ = .ok r := by
  obtain ⟨hlookup, hany⟩ := lookupLinked_of_lookupMinimum hmin hlinked
  obtain ⟨l, hl, rfl, rfl⟩ := exists_link_of_lookup hlookup
  obtain ⟨hne, r, hr, howner, hname⟩ := (h l hl).resolve_left hany
  refine ⟨r, getPermission_eq_ok_iff.mpr ⟨hne, ?_⟩⟩
  rw [← howner, ← hname]
  exact permissionOf_of_mem hr

end Lookup

/-! ## Runs -/

section Run

variable [LinearOrder Key] {env : ActionEnv Key} {db db' : Database Key}
  {calls : List (NativeCall Key)} {rootAccount : String}

/-- **Links never dangle** after a run in which every `linkauth` names a permission its account
has, and a lookup through a link does not fail. -/
theorem linksResolve_run (hrun : NativeRun env (LinksOwnPermission rootAccount env) db calls db')
    (h : LinksResolve rootAccount db.authTables) :
    LinksResolve rootAccount db'.authTables ∧
    ∀ actor scope actName name,
      db'.lookupMinimumPermission rootAccount actor scope actName = .ok (some name) →
      db'.lookupLinkedPermission actor scope actName ≠ none →
        ∃ r, db'.getPermission ⟨actor, name⟩ = .ok r := by
  have h' : LinksResolve rootAccount db'.authTables :=
    hrun.invariant (LinksResolve rootAccount)
      (fun db => LinkResolves rootAccount db.permissions)
      (fun _ _ req hmay hreq => hmay req hreq)
      (fun db _ h heffect => LinksResolve.step (l := db.nativeLedger) h heffect) h
  exact ⟨h', fun _ _ _ _ hmin hlinked => h'.getPermission_eq_ok hmin hlinked⟩

end Run

/-! ### A dangling link -/

/-- Two accounts; only `bob` has a permission `money`. -/
def bobAndCarol : Database Nat :=
  { bobOnly with
    accounts := .ofObjects [{ name := stringToName "bob" }, { name := stringToName "carol" }]
    permissions := .ofObjects
      [permissionRow 0 0 0, permissionRow 0 (stringToName "bob") ownerName,
        permissionRow 1 (stringToName "bob") activeName,
        permissionRow 2 (stringToName "bob") (stringToName "money"),
        permissionRow 0 (stringToName "carol") ownerName,
        permissionRow 4 (stringToName "carol") activeName]
    resources :=
      { bobOnly.resources with
        usages := .ofObjects [{ owner := stringToName "bob" }, { owner := stringToName "carol" }] } }

/-- `linkauth` data: the account links transfers of `bob` to `money`. -/
def moneyLinkEnv (account : String) : ActionEnv Nat :=
  { aliceEnv with
    linkauth := fun _ => .ok ⟨stringToName account, stringToName "bob", stringToName "transfer",
      stringToName "money"⟩ }

/-- The `linkauth` of the account. -/
def moneyLink (account : String) : NativeCall Nat := nativeCall .linkauth "linkauth" account

/-- The state after the account has linked transfers of `bob` to `money`. -/
def moneyLinked (account : String) : ApplyState Nat :=
  stateOf ((moneyLink account).action.apply (moneyLinkEnv account) (moneyLink account).ctx
    (.start bobAndCarol (moneyLink account).ctx.act))

theorem moneyLink_ok {account : String}
    (h : thrown ((moneyLink account).action.apply (moneyLinkEnv account)
      (moneyLink account).ctx (.start bobAndCarol (moneyLink account).ctx.act)) = none) :
    (moneyLink account).action.apply (moneyLinkEnv account) (moneyLink account).ctx
      (.start bobAndCarol (moneyLink account).ctx.act) = .ok () (moneyLinked account) :=
  eq_ok_of_thrown h

/-- **A dangling link**: `carol` links transfers to `money`, which only `bob` has, and then no
authorization of a transfer by `carol` can be checked. -/
theorem linkauth_dangles : LinksResolve "force" bobAndCarol.authTables ∧
    NativeRun (moneyLinkEnv "carol") (fun _ _ => True) bobAndCarol [moneyLink "carol"]
      (moneyLinked "carol").db ∧
    ¬ LinksResolve "force" (moneyLinked "carol").db.authTables ∧
    (moneyLinked "carol").db.lookupMinimumPermission "force" (stringToName "carol")
      (stringToName "bob") (stringToName "transfer") = .ok (some (stringToName "money")) ∧
    (moneyLinked "carol").db.getPermission ⟨stringToName "carol", stringToName "money"⟩ =
      .error ⟨.permissionQueryException, "Failed to retrieve permission: ${level}"⟩ := by
  refine ⟨by decide +kernel, ?_, by decide +kernel, by decide +kernel, by decide +kernel⟩
  exact .cons rfl trivial (moneyLink_ok (by decide +kernel)) (.nil _)

theorem linksResolve_run_bob : (moneyLinked "bob").db.links.rows ≠ [] ∧
    LinksResolve "force" (moneyLinked "bob").db.authTables := by
  refine ⟨by decide +kernel,
    (linksResolve_run (.cons rfl ?_ (moneyLink_ok (by decide +kernel)) (.nil _))
      (by decide +kernel : LinksResolve "force" bobAndCarol.authTables)).1⟩
  intro req hreq
  have hdata : (moneyLink "bob").linkData (moneyLinkEnv "bob") =
      some ⟨stringToName "bob", stringToName "bob", stringToName "transfer",
        stringToName "money"⟩ := rfl
  obtain rfl := Option.some.inj (hdata.symm.trans hreq)
  decide +kernel

end Forceio.Chain
