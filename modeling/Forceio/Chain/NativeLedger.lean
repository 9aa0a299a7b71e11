import Forceio.Chain.CodeActions
import Forceio.Chain.PermissionForest

/-!
# What the native actions charge

`newaccount`, `updateauth`, `deleteauth`, `linkauth`, `unlinkauth`, `setcode` and `setabi` charge
and refund differences, each by a formula of its own. The ledger adds up what there is to pay for:
the accounts with their code and abi, the permissions and the links.

* The fixed charge for an account is paid by the account itself: `newaccount` charges `create.name`
  and not `create.creator`.
* RAM used for other things (contract tables, deferred transactions) is in the usage of an account
  and not in the ledger: `slack` is the difference.
* Unpacking the data of an action and validating code throw exceptions of their own: `Quiet` says
  that these are not the one that refuses a refund.

Result:
* `paidRun_charges`: an account is charged what it stores, and no refund is refused.
-/

namespace Forceio.Chain

open Forceio.Lib Exec Table

variable {Key : Type}

open FcException (Other)
open Exec (Throws Fails Meets)
open ApplyState (charged)

/-! ## Effects -/

/-- What an action can do to the ledger: what the actions on permissions can, or to change the code
or the abi of an account. -/
inductive RamEffect (packSize : Key → Nat) (l : NativeLedger Key) : NativeLedger Key → Prop
  | paid {l' : NativeLedger Key} (effect : PaidEffect (fun _ _ => True) packSize l l') :
      RamEffect packSize l l'
  | resized {n : Nat} {x : AccountObject} {f : AccountObject → AccountObject}
      (hf : Table.KeepsKeys f) (mem : (n, x) ∈ l.tables.accounts.rows)
      (named : (f x).name = x.name) :
      RamEffect packSize l
        ⟨⟨l.tables.accounts.update n f hf, l.tables.permissions, l.tables.links⟩,
          charged l.ram x.name ((f x).billableSize - x.billableSize)⟩

section Effects

variable {packSize : Key → Nat} {l l' : NativeLedger Key}

open NativeLedger (accountBill permissionBill linkBill)

theorem charged_eq (ram : AccountName → Int) (a b : AccountName) (delta : Int) :
    charged ram a delta b = ram b + if a = b then delta else 0 := rfl

theorem PaidEffect.slack_eq {linkable : AccountName → AccountName → Prop}
    (h : PaidEffect linkable packSize l l') (a : AccountName) :
    l'.slack packSize a = l.slack packSize a := by
  unfold NativeLedger.slack NativeLedger.owed
  cases h with
  | @newaccount name owner active i ownerId activeId accounts withOwner permissions named account
      createOwner isOwner createActive isActive =>
    have hnew : ({ name := name } : AccountObject).billableSize = overheadPerAccountRamBytes := rfl
    simp only [total_create account, total_create createOwner,
      total_create createActive, charged_eq, accountBill, permissionBill, isOwner.1,
      isActive.1, hnew]
    split <;> omega
  | @authModified n p auth now mem =>
    have howner : (p.setAuth auth now).owner = p.owner := rfl
    simp only [total_update mem, charged_eq, permissionBill, howner]
    split <;> omega
  | authCreated named parent create =>
    simp only [total_create create, charged_eq, permissionBill]
    split <;> omega
  | @authDeleted r mem named unlinked childless =>
    have hmem : (r.1, r.2) ∈ l.tables.permissions.rows := mem
    simp only [total_remove hmem, charged_eq, permissionBill]
    split <;> omega
  | @relinked n x requirement mem may =>
    have hbill : ∀ x, linkBill a (x.setRequired requirement) = linkBill a x := fun _ => rfl
    rw [total_update_of_eq hbill]
  | linked create known may =>
    simp only [total_create create, charged_eq, linkBill]
    split <;> omega
  | unlinked mem =>
    simp only [total_remove mem, charged_eq, linkBill]
    split <;> omega

/-- **Paid for exactly**: an action changes the usage of an account by what it changes its part of
the ledger. -/
theorem RamEffect.slack_eq (h : RamEffect packSize l l') (a : AccountName) :
    l'.slack packSize a = l.slack packSize a := by
  cases h with
  | paid effect => exact effect.slack_eq a
  | @resized n x f hf mem named =>
    unfold NativeLedger.slack NativeLedger.owed
    simp only [total_update mem, charged_eq, accountBill, named]
    split <;> omega

theorem RamEffect.covered (h : RamEffect packSize l l')
    (hl : l.Covered packSize) : l'.Covered packSize := by
  have hcovers : ∀ a, a ≠ 0 → l'.owed packSize a ≤ l'.ram a := by
    intro a ha
    have hslack := h.slack_eq a
    have howed := hl.covers a ha
    unfold NativeLedger.slack at hslack
    omega
  cases h with
  | @resized n x f hf mem named =>
    refine ⟨fun y hy => ?_, hl.links, hcovers⟩
    have hy' : y ∈ (l.tables.accounts.update n f hf).rows := hy
    rcases (mem_update_of_mem mem).mp hy' with ⟨hy, -⟩ | rfl
    · exact hl.accounts y hy
    · rw [named]
      exact hl.accounts _ mem
  | paid effect =>
    cases effect with
    | newaccount named account createOwner isOwner createActive isActive =>
      refine ⟨fun y hy => ?_, hl.links, hcovers⟩
      rcases (mem_create account).mp hy with hy | rfl
      · exact hl.accounts y hy
      · exact named
    | authModified | authCreated | authDeleted => exact ⟨hl.accounts, hl.links, hcovers⟩
    | @relinked n x requirement mem may =>
      refine ⟨hl.accounts, fun y hy => ?_, hcovers⟩
      have hy' : y ∈ (l.tables.links.update n (.setRequired requirement)
        (PermissionLinkObject.keepsKeys_setRequired requirement)).rows := hy
      rcases mem_update.mp hy' with ⟨hy, -⟩ | ⟨z, hz, rfl⟩
      · exact hl.links y hy
      · exact hl.links (_, z) hz
    | linked create known may =>
      refine ⟨hl.accounts, fun y hy => ?_, hcovers⟩
      rcases (mem_create create).mp hy with hy | rfl
      · exact hl.links y hy
      · obtain ⟨z, hz, hname⟩ := known
        rw [← hname]
        exact hl.accounts z hz
    | unlinked mem =>
      refine ⟨hl.accounts, fun y hy => ?_, hcovers⟩
      exact hl.links y (mem_remove.mp hy).1

end Effects

/-! ## The seven actions -/

/-- The native actions that charge. -/
inductive PaidAction where
  | native (action : NativeAction)
  | setcode
  | setabi
  deriving DecidableEq, Repr

section Actions

variable [LinearOrder Key] {env : ActionEnv Key} {code : CodeEnv} {ctx : ApplyContext Key}
  {s s' : ApplyState Key}

/-- Run the handler of an action. -/
def PaidAction.apply (env : ActionEnv Key) (code : CodeEnv) (ctx : ApplyContext Key) :
    PaidAction → ApplyM Key Unit
  | .native action => action.apply env ctx
  | .setcode => applySystemNativeSetcode code ctx
  | .setabi => applySystemNativeSetabi code ctx

/-- Validating code does not refuse a refund either. -/
structure CodeEnv.Quiet (code : CodeEnv) : Prop where
  setcode : ∀ data, Fails Other (code.setcode data)
  setabi : ∀ data, Fails Other (code.setabi data)
  validate : ∀ bytes, Fails Other (code.validate bytes)

open ApplyState (onDb onDb_bind_meets)
open Database (accountsTable accountSequencesTable)

omit [LinearOrder Key] in
theorem chargeResized_nativeLedger {account : AccountName} {oldSize newSize : Int}
    (h : chargeResized account oldSize newSize s = .ok () s') : s'.db.nativeLedger =
      ⟨s.db.authTables, charged s.db.resources.ramOf account (newSize - oldSize)⟩ := by
  unfold chargeResized at h
  split at h
  · exact addRamUsage_nativeLedger h
  · next hsize =>
    cases h
    rw [not_not.mp hsize, sub_self]
    unfold charged
    simp only [ite_self, add_zero]
    rfl

omit [LinearOrder Key] in
theorem chargeResized_other {a : AccountName} {oldSize newSize : Int} (hnew : 0 ≤ newSize)
    (hold : oldSize ≤ s.db.resources.ramOf a) :
    Throws Other (chargeResized a oldSize newSize) s := by
  unfold chargeResized
  split
  · exact addRamUsage_other (by omega)
  · exact .of_ok rfl

/-- Where an action gets to, and what it does not throw where every account has paid. -/
abbrev Charges (env : ActionEnv Key) (code : CodeEnv) (l : NativeLedger Key) (m : ApplyM Key Unit)
    (s : ApplyState Key) : Prop :=
  Meets ((env.Quiet ∧ code.Quiet) ∧ l.Covered env.packSize)
    (fun s' => RamEffect env.packSize l s'.db.nativeLedger) Other m s

omit [LinearOrder Key] in
/-- The end of the two actions: an account that was found is changed and charged for the
difference. -/
theorem resize_charges {name : AccountName} {r : Nat × AccountObject}
    {f : AccountObject → AccountObject} {hf : Table.KeepsKeys f} {used : List Bool}
    {oldSize newSize : Int} (hfind : s.db.accounts.find? (fun a => a.name = name) = some r)
    (hnamed : (f r.2).name = r.2.name)
    (hsize : (f r.2).billableSize - r.2.billableSize = newSize - oldSize) (hnew : 0 ≤ newSize)
    (hold : oldSize ≤ r.2.billableSize) :
    Charges env code s.db.nativeLedger (onDb (accountsTable.modify r.1 f hf) >>= fun _ =>
      onDb (accountSequencesTable.get fun a => a.name = name) >>= fun _ =>
        chargeResized name oldSize newSize) (s.setUsed used) := by
  have hname : r.2.name = name := by simpa using of_find? hfind
  refine onDb_bind_meets (fun _ => .of_ok rfl) fun _ _ hmod => ?_
  cases hmod
  refine get_bind_pays fun _ _ => ⟨fun h => ?_, fun hc => ?_⟩
  · have heffect : RamEffect env.packSize s.db.nativeLedger _ :=
      .resized hf (mem_of_find? hfind) hnamed
    rw [hname, hsize] at heffect
    rw [chargeResized_nativeLedger h]
    exact heffect
  · have hcovered := hc.2.account (mem_of_find? hfind)
    rw [hname] at hcovered
    exact chargeResized_other hnew (hold.trans hcovered)

theorem applySystemNativeSetcode_charges :
    Charges env code s.db.nativeLedger (applySystemNativeSetcode code ctx) s := by
  refine .lift_bind (fun hc => dataAs_other hc.1.2.setcode) fun act _ => ?_
  refine requireAuthorization_bind fun used => check_bind rfl fun _ => check_bind rfl fun _ => ?_
  refine .lift_bind (fun hc => ?_) fun _ _ => get_bind_pays fun r hfind => check_bind rfl fun _ => ?_
  · unfold CodeEnv.validateCode
    split
    · exact hc.1.2.validate _
    · exact .ok ()
  refine resize_charges hfind rfl ?_ (Int.natCast_nonneg (_ * _)) ?_
  · unfold AccountObject.billableSize AccountObject.setCode
    dsimp only
    omega
  · unfold AccountObject.billableSize
    omega

theorem applySystemNativeSetabi_charges :
    Charges env code s.db.nativeLedger (applySystemNativeSetabi code ctx) s := by
  refine .lift_bind (fun hc => dataAs_other hc.1.2.setabi) fun act _ => ?_
  refine requireAuthorization_bind fun used => get_bind_pays fun r hfind => ?_
  refine resize_charges hfind rfl ?_ (Int.natCast_nonneg _) ?_
  · unfold AccountObject.billableSize AccountObject.setAbi
    dsimp only
    omega
  · have hcode : (0 : Int) ≤ r.2.code.length * setcodeRamBytesMultiplier :=
      Int.natCast_nonneg (_ * _)
    unfold AccountObject.billableSize
    omega

/-- **Every successful action has one of the effects, and no refund is larger than the usage**: the
assertion that refuses it never fails where every account has paid. -/
theorem PaidAction.charges (a : PaidAction) :
    Charges env code s.db.nativeLedger (a.apply env code ctx) s := by
  cases a with
  | native action =>
    have hpays : Pays (fun _ _ => True) env s.db.nativeLedger (action.apply env ctx) s :=
      action.pays fun _ _ _ => trivial
    exact ⟨fun h => .paid (hpays.ok h), fun hc => hpays.throws ⟨hc.1.1, hc.2⟩⟩
  | setcode => exact applySystemNativeSetcode_charges
  | setabi => exact applySystemNativeSetabi_charges

end Actions

/-! ## Runs -/

section Runs

variable [LinearOrder Key] {env : ActionEnv Key} {code : CodeEnv}

/-- An action with the context it runs in. -/
structure PaidCall (Key : Type) [LinearOrder Key] where
  action : PaidAction
  ctx : ApplyContext Key

/-- **A run of successful actions.** Between two of them the rest of the state may change, but not
the tables and the usage of the accounts. -/
inductive PaidRun (env : ActionEnv Key) (code : CodeEnv) :
    Database Key → List (PaidCall Key) → Database Key → Prop
  | nil (db : Database Key) : PaidRun env code db [] db
  | cons {db db' : Database Key} {s s' : ApplyState Key} {call : PaidCall Key}
      {calls : List (PaidCall Key)} (before : s.db.nativeLedger = db.nativeLedger)
      (step : call.action.apply env code call.ctx s = .ok () s')
      (rest : PaidRun env code s'.db calls db') : PaidRun env code db (call :: calls) db'

variable {db db' : Database Key} {calls : List (PaidCall Key)}

theorem PaidRun.slack_eq (h : PaidRun env code db calls db') (a : AccountName) :
    db'.nativeLedger.slack env.packSize a = db.nativeLedger.slack env.packSize a := by
  induction h with
  | nil db => rfl
  | cons before step rest ih =>
    have heffect : RamEffect env.packSize _ _ := (PaidAction.charges _).ok step
    rw [ih, heffect.slack_eq a, before]

theorem PaidRun.covered (h : PaidRun env code db calls db')
    (hdb : db.nativeLedger.Covered env.packSize) : db'.nativeLedger.Covered env.packSize := by
  induction h with
  | nil db => exact hdb
  | cons before step rest ih => exact ih (((PaidAction.charges _).ok step).covered (before ▸ hdb))

/-- **Native actions charge what they store**: after every run of actions the RAM usage of an
account has changed by what it owes for itself, its code, its abi, its permissions and its links;
and if every account used what it owed at the start, no further action is refused a refund. -/
theorem paidRun_charges (henv : env.Quiet) (hcode : code.Quiet)
    (hrun : PaidRun env code db calls db') :
    (∀ a, db'.nativeLedger.ram a - db.nativeLedger.ram a =
      db'.nativeLedger.owed env.packSize a - db.nativeLedger.owed env.packSize a) ∧
      (db.nativeLedger.Covered env.packSize → ∀ (call : PaidCall Key) (s s' : ApplyState Key) e,
        s.db.nativeLedger = db'.nativeLedger →
          call.action.apply env code call.ctx s = .error e s' → e ≠ ramUnderflow) := by
  constructor
  · intro a
    have hslack := hrun.slack_eq a
    unfold NativeLedger.slack at hslack
    omega
  · intro hdb call s s' e hs h
    have hcovered : s.db.nativeLedger.Covered env.packSize := hs ▸ hrun.covered hdb
    exact call.action.charges.throws ⟨⟨henv, hcode⟩, hcovered⟩ h

/-- Who is named as the creator of an account by the call. -/
def PaidCall.creator (env : ActionEnv Key) (call : PaidCall Key) : Option AccountName :=
  if call.action = .native .newaccount then
    ((call.ctx.act.dataAs call.ctx.control.rootAccount "newaccount" env.newaccount).map
      NewAccount.creator).toOption
  else none

/-- What an account owes apart from the fixed charge for itself. -/
def NativeLedger.sizes (packSize : Key → Nat) (l : NativeLedger Key) (a : AccountName) : Int :=
  l.owed packSize a -
    l.tables.accounts.total fun x => if x.name = a then overheadPerAccountRamBytes else 0

end Runs

/-! ## An account and its code -/

section Sample

/-- The code and the abi `alice` sets. -/
def aliceCode : CodeEnv where
  setcode _ := .ok ⟨stringToName "alice", 0, 0, [1, 2, 3]⟩
  setabi _ := .ok ⟨stringToName "alice", [4, 5]⟩
  sha256 _ := ⟨1, 0, 0, 0⟩
  validate _ := .ok ()

/-- `bob` alone, with the RAM he uses. -/
def bobPaid : Database Nat :=
  { bobOnly with
    resources := { bobOnly.resources with
      usages := .ofObjects [{ owner := stringToName "bob", ramUsage := 3000 }] } }

/-- An action under the authority of `actor`. -/
def paidCall (action : PaidAction) (name actor : String) : PaidCall Nat :=
  ⟨action, (nativeCall .newaccount name actor).ctx⟩

/-- `bob` creates `alice`, who sets code, an abi and a permission. -/
def alicePays : List (PaidCall Nat) :=
  [paidCall (.native .newaccount) "newaccount" "bob", paidCall .setcode "setcode" "alice",
    paidCall .setabi "setabi" "alice", paidCall (.native .updateauth) "updateauth" "alice"]

/-- The state after the first of them. -/
def aliceState : Nat → ApplyState Nat
  | 0 => .start bobPaid { account := 0, name := 0 }
  | i + 1 =>
    let call := alicePays.getD i (paidCall .setabi "setabi" "alice")
    stateOf (call.action.apply aliceEnv aliceCode call.ctx (aliceState i))

theorem alicePays_run : PaidRun aliceEnv aliceCode bobPaid alicePays (aliceState 4).db :=
  .cons (s := aliceState 0) rfl (eq_ok_of_thrown (by decide +kernel)) <|
  .cons (s := aliceState 1) rfl (eq_ok_of_thrown (by decide +kernel)) <|
  .cons (s := aliceState 2) rfl (eq_ok_of_thrown (by decide +kernel)) <|
  .cons (s := aliceState 3) rfl (eq_ok_of_thrown (by decide +kernel)) <|
  .nil _

theorem aliceEnv_quiet : aliceEnv.Quiet :=
  ⟨fun _ => .ok _, fun _ => .ok _, fun _ => .ok _, fun _ => .error (other_of_type rfl),
    fun _ => .error (other_of_type rfl)⟩

theorem aliceCode_quiet : aliceCode.Quiet := ⟨fun _ => .ok _, fun _ => .ok _, fun _ => .ok _⟩

theorem bobPaid_covered : bobPaid.nativeLedger.Covered aliceEnv.packSize where
  accounts := by
    decide +kernel
  links x hx := absurd hx List.not_mem_nil
  covers a ha := by
    by_cases hbob : a = stringToName "bob"
    · subst hbob
      decide +kernel
    · -- nobody else owes anything
      have haccounts : ∀ x ∈ bobPaid.accounts.rows, x.2.name = stringToName "bob" := by
        decide +kernel
      have hpermissions : ∀ p ∈ bobPaid.permissions.rows,
          p.2.owner = stringToName "bob" ∨ p.2.owner = 0 := by decide +kernel
      have howed : bobPaid.nativeLedger.owed aliceEnv.packSize a = 0 + 0 + 0 := by
        unfold NativeLedger.owed
        congr 1
        congr 1
        · refine (total_eq_zero_iff (accountBill_nonneg a)).mpr fun x hx => if_neg ?_
          rw [haccounts x hx]
          exact Ne.symm hbob
        · refine (total_eq_zero_iff (permissionBill_nonneg _ a)).mpr fun p hp => if_neg ?_
          rcases hpermissions p hp with h | h
          · rw [h]
            exact Ne.symm hbob
          · rw [h]
            exact Ne.symm ha
      rw [howed]
      exact ResourceDb.ramOf_nonneg _ a

theorem paidRun_charges_alice : (aliceState 4).db.nativeLedger.ram (stringToName "alice") = 3094 ∧
      (aliceState 4).db.nativeLedger.ram (stringToName "alice") -
        bobPaid.nativeLedger.ram (stringToName "alice") =
      (aliceState 4).db.nativeLedger.owed aliceEnv.packSize (stringToName "alice") -
        bobPaid.nativeLedger.owed aliceEnv.packSize (stringToName "alice") ∧
      ∀ e s', (PaidAction.native .deleteauth).apply aliceEnv aliceCode
        (paidCall (.native .deleteauth) "deleteauth" "alice").ctx (aliceState 4) = .error e s' →
          e ≠ ramUnderflow := by
  have hcharges := paidRun_charges aliceEnv_quiet aliceCode_quiet alicePays_run
  refine ⟨by decide +kernel, hcharges.1 (stringToName "alice"), fun e s' h => ?_⟩
  exact hcharges.2 bobPaid_covered (paidCall (.native .deleteauth) "deleteauth" "alice") _ s' e rfl h

/-- **The creator pays nothing**: `bob` creates `alice`, and the fixed charge is hers. -/
theorem newaccount_charges_created :
    PaidRun aliceEnv aliceCode bobPaid (alicePays.take 1) (aliceState 1).db ∧
      (alicePays.take 1).countP (fun call => call.creator aliceEnv = some (stringToName "bob")) = 1 ∧
      (aliceState 1).db.nativeLedger.ram (stringToName "bob") -
        bobPaid.nativeLedger.ram (stringToName "bob") ≠
      (aliceState 1).db.nativeLedger.sizes aliceEnv.packSize (stringToName "bob") -
        bobPaid.nativeLedger.sizes aliceEnv.packSize (stringToName "bob") +
        overheadPerAccountRamBytes * 1 :=
  ⟨.cons (s := aliceState 0) rfl (eq_ok_of_thrown (by decide +kernel)) (.nil _),
    by decide +kernel, by decide +kernel⟩

end Sample

end Forceio.Chain
