import Forceio.Chain.PermissionForest
import Forceio.Chain.Sending

/-!
# Deferred transactions pay for their RAM

The abstract view is a ledger: the stored transactions and the RAM each account uses. Scheduling,
canceling and retiring are four changes to it, and only one of them is wrong: a replacement neither
refunds what it replaces nor gives the record the id of the new transaction.

Results:
* `deferredRun_ledger`: charges and ids are right after every run without replacements.
* `schedule_replaces`: a replacement that breaks both.
-/

namespace Forceio.Chain

open Forceio.Lib Exec Table ApplyState

variable {Key Sig : Type} [LinearOrder Key]

/-! ## Ledgers -/

/-- The stored transactions, and the RAM usage of the accounts. -/
structure DeferredLedger where
  generated : Table GeneratedTransactionObject
  ram : AccountName → Int

/-- The deferred transactions of a database. -/
def Database.deferred (db : Database Key) : DeferredLedger := ⟨db.generated, db.resources.ramOf⟩

/-- What a stored transaction costs an account. -/
def GeneratedTransactionObject.bill (a : AccountName) (g : GeneratedTransactionObject) : Int :=
  if g.payer = a then g.size else 0

/-- The record of a transaction has its id. -/
def StoresOwnId (env : SendEnv Key Sig) (g : GeneratedTransactionObject) : Prop :=
  ∃ trx, g.packedTrx = env.transaction.pack trx ∧ g.trxId = trx.id env.transaction

namespace DeferredLedger

/-- What an account owes: the sizes of the transactions it pays for. -/
def owed (l : DeferredLedger) (a : AccountName) : Int :=
  l.generated.total (GeneratedTransactionObject.bill a)

/-- What an account uses beyond what it owes for deferred transactions. -/
def slack (l : DeferredLedger) (a : AccountName) : Int := l.ram a - l.owed a

end DeferredLedger

open ApplyState (charged)

/-- **What a call can do to a ledger**, where `plain` says that it replaces nothing and stores no
transaction whose size does not fit its type. -/
inductive DeferredEffect (env : SendEnv Key Sig) (plain : Prop) (l : DeferredLedger) :
    DeferredLedger → Prop
  | none : DeferredEffect env plain l l
  | stored {n : Nat} {g : GeneratedTransactionObject} {generated : Table GeneratedTransactionObject}
      {delta : Int} (own : StoresOwnId env g)
      (create : l.generated.create g = some (n, generated)) (size : plain → delta = g.size) :
      DeferredEffect env plain l ⟨generated, charged l.ram g.payer delta⟩
  | replaced {n : Nat} {f : GeneratedTransactionObject → GeneratedTransactionObject}
      {payer : AccountName} {delta : Int} (hf : Table.KeepsKeys f) (not : ¬ plain) :
      DeferredEffect env plain l ⟨l.generated.update n f hf, charged l.ram payer delta⟩
  | dropped {n : Nat} {g : GeneratedTransactionObject} (mem : (n, g) ∈ l.generated.rows) :
      DeferredEffect env plain l ⟨l.generated.remove n, charged l.ram g.payer (-g.size)⟩

/-! ## What plain calls keep -/

section Effects

variable {env : SendEnv Key Sig} {plain : Prop} {l l' : DeferredLedger}

omit [LinearOrder Key] in
theorem DeferredEffect.slack_eq (h : DeferredEffect env plain l l') (hplain : plain)
    (a : AccountName) : l'.slack a = l.slack a := by
  unfold DeferredLedger.slack DeferredLedger.owed
  cases h with
  | none => rfl
  | @stored n g generated delta own create size =>
    rw [total_create create, size hplain]
    show l.ram a + (if g.payer = a then g.size else 0) -
      (_ + if g.payer = a then g.size else 0) = _
    ring
  | replaced hf not => exact absurd hplain not
  | @dropped n g mem =>
    rw [total_remove mem]
    show l.ram a + (if g.payer = a then -g.size else 0) -
      (_ - if g.payer = a then g.size else 0) = _
    split <;> ring

omit [LinearOrder Key] in
theorem DeferredEffect.storesOwnId (h : DeferredEffect env plain l l') (hplain : plain)
    (hids : ∀ r ∈ l.generated.rows, StoresOwnId env r.2) :
    ∀ r ∈ l'.generated.rows, StoresOwnId env r.2 := by
  intro r hr
  cases h with
  | none => exact hids r hr
  | stored own create size =>
    rcases (mem_create create).mp hr with hr | rfl
    · exact hids r hr
    · exact own
  | replaced hf not => exact absurd hplain not
  | dropped mem => exact hids r (mem_remove.mp hr).1

end Effects

/-! ## What the calls do -/

section Calls

variable {env : SendEnv Key Sig} {ctx : ApplyContext Key} {s s' : ApplyState Key}
  {senderId : BitVec 128} {payer : AccountName} {trx : Transaction} {replaceExisting : Bool}

/-- The call replaces nothing, and the size of the transaction it stores fits its type. -/
def PlainSchedule (env : SendEnv Key Sig) (ctx : ApplyContext Key) (db : Database Key)
    (senderId : BitVec 128) (trx : Transaction) : Prop :=
  db.findGenerated ctx.receiver senderId = none ∧
    (env.transaction.pack (deferredTrx ctx trx)).length < 2 ^ 32

theorem authorizeDeferred_db (h : authorizeDeferred env ctx payer trx s = .ok () s') :
    s'.db = s.db := by
  unfold authorizeDeferred at h
  split at h
  · obtain ⟨u, t, hpayer, h⟩ := bind_ok.mp h
    obtain ⟨-, rfl⟩ := lift_ok.mp h
    unfold requirePayer at hpayer
    split at hpayer
    · obtain ⟨-, used, rfl⟩ := requireAuthorization_spec hpayer
      rfl
    · cases hpayer
      rfl
  · cases h
    rfl

theorem addNetUsage_db {u : Nat} (h : addNetUsage ctx u s = .ok () s') : s'.db = s.db := by
  obtain ⟨_, t, hmodify, h⟩ := bind_ok.mp h
  cases hmodify
  obtain ⟨-, rfl⟩ := lift_ok.mp h
  rfl

theorem storeDeferred_spec (h : storeDeferred env ctx senderId payer trx replaceExisting s = .ok () s') :
    (∃ n g generated, StoresOwnId env g ∧ g.payer = payer ∧ g.packedTrx = env.transaction.pack trx ∧
        s.db.generated.create g = some (n, generated) ∧
        s'.db = { s.db with generated := generated }) ∨
      s.db.findGenerated ctx.receiver senderId ≠ none ∧ ∃ n f, ∃ hf : Table.KeepsKeys f,
          s'.db = { s.db with generated := s.db.generated.update n f hf } := by
  unfold storeDeferred at h
  rw [get_bind] at h
  cases hfind : s.db.findGenerated ctx.receiver senderId with
  | none =>
    rw [hfind] at h
    obtain ⟨n, db, hcreate, h⟩ := onDb_bind_ok.mp h
    obtain ⟨generated, hgenerated, rfl⟩ := TableOf.create_eq_ok_iff.mp hcreate
    cases h
    exact .inl ⟨n, _, generated, ⟨trx, rfl, rfl⟩, rfl, rfl, hgenerated, rfl⟩
  | some r =>
    rw [hfind] at h
    obtain ⟨-, h⟩ := require_bind_ok.mp h
    obtain ⟨-, h⟩ := require_bind_ok.mp h
    cases h
    exact .inr ⟨Option.some_ne_none r, r.1, _, _, rfl⟩

theorem scheduleDeferredTransaction_effect
    (h : scheduleDeferredTransaction env ctx senderId payer trx replaceExisting s = .ok () s') :
    DeferredEffect env (PlainSchedule env ctx s.db senderId trx) s.db.deferred s'.db.deferred := by
  obtain ⟨-, h⟩ := require_bind_ok.mp h
  obtain ⟨-, -, h⟩ := lift_bind_ok.mp h
  obtain ⟨_, s1, hnet, h⟩ := bind_ok.mp h
  obtain ⟨_, s2, hauth, h⟩ := bind_ok.mp h
  obtain ⟨_, s3, hstore, h⟩ := bind_ok.mp h
  obtain ⟨-, h⟩ := require_bind_ok.mp h
  obtain ⟨r, hr, hram⟩ := addRamUsage_charged h
  have hdb : s2.db = s.db := (authorizeDeferred_db hauth).trans (addNetUsage_db hnet)
  have hstored := storeDeferred_spec hstore
  rw [hdb] at hstored
  unfold Database.deferred
  rw [hr, hram]
  rcases hstored with ⟨n, g, generated, hown, rfl, hpack, hcreate, hdb3⟩ | ⟨hfind, n, f, hf, hdb3⟩
  · rw [hdb3]
    refine .stored hown hcreate fun hplain => ?_
    rw [GeneratedTransactionObject.size, hpack, trxSize, UInt32.toNat_ofNat_of_lt' hplain.2]
  · rw [hdb3]
    exact .replaced hf fun hplain => hfind hplain.1

omit [LinearOrder Key] in
theorem cancelDeferredTransaction_effect {sender : AccountName} {b : Bool}
    (h : cancelDeferredTransaction senderId sender s = .ok b s') :
    DeferredEffect env True s.db.deferred s'.db.deferred := by
  unfold cancelDeferredTransaction at h
  rw [get_bind] at h
  cases hfind : s.db.findGenerated sender senderId with
  | none =>
    rw [hfind] at h
    cases h
    exact .none
  | some r =>
    rw [hfind] at h
    obtain ⟨_, s1, hcharge, h⟩ := bind_ok.mp h
    obtain ⟨res, hres, hram⟩ := addRamUsage_charged hcharge
    obtain ⟨_, db, hremove, h⟩ := onDb_bind_ok.mp h
    cases hremove
    cases h
    show DeferredEffect env True _ ⟨s1.db.generated.remove r.1, s1.db.resources.ramOf⟩
    rw [hres, hram]
    exact .dropped (mem_of_find? hfind)

omit [LinearOrder Key] in
theorem removeScheduledTransaction_effect {db db' : Database Key}
    {gto : Nat × GeneratedTransactionObject} (hmem : gto ∈ db.generated.rows)
    (h : removeScheduledTransaction gto db = .ok () db') :
    DeferredEffect env True db.deferred db'.deferred := by
  obtain ⟨_, db1, hcharge, h⟩ := bind_ok.mp h
  obtain ⟨res, hres, rfl⟩ := zoom_ok.mp hcharge
  cases h
  show DeferredEffect env True _ ⟨db.generated.remove gto.1, res.ramOf⟩
  have hram : res.ramOf = charged db.resources.ramOf gto.2.payer (-gto.2.size) := by
    funext b
    rw [(addPendingRamUsage_spec hres).1, charged]
    simp only [eq_comm]
  rw [hram]
  exact .dropped hmem

end Calls

/-! ## Runs -/

/-- A call of contract code, with the context it runs in, or the retiring of a transaction. -/
inductive DeferredCall (Key : Type) [LinearOrder Key] where
  | schedule (ctx : ApplyContext Key) (senderId : BitVec 128) (payer : AccountName)
      (trx : Transaction) (replaceExisting : Bool)
  | cancel (senderId : BitVec 128) (sender : AccountName)
  | retire (gto : Nat × GeneratedTransactionObject)

section Runs

variable {env : SendEnv Key Sig} {db db' : Database Key} {calls : List (DeferredCall Key)}

/-- **A successful call**. Of the state of a context only the database matters. -/
inductive DeferredStep (env : SendEnv Key Sig) :
    Database Key → DeferredCall Key → Database Key → Prop
  | schedule {s s' : ApplyState Key} {ctx : ApplyContext Key} {senderId : BitVec 128}
      {payer : AccountName} {trx : Transaction} {replaceExisting : Bool}
      (step : scheduleDeferredTransaction env ctx senderId payer trx replaceExisting s = .ok () s') :
      DeferredStep env s.db (.schedule ctx senderId payer trx replaceExisting) s'.db
  | cancel {s s' : ApplyState Key} {senderId : BitVec 128} {sender : AccountName} {found : Bool}
      (step : cancelDeferredTransaction senderId sender s = .ok found s') :
      DeferredStep env s.db (.cancel senderId sender) s'.db
  | retire {db db' : Database Key} {gto : Nat × GeneratedTransactionObject}
      (mem : gto ∈ db.generated.rows) (step : removeScheduledTransaction gto db = .ok () db') :
      DeferredStep env db (.retire gto) db'

/-- The call replaces nothing, and what it stores has a size that fits its type. -/
def DeferredCall.Plain (env : SendEnv Key Sig) (db : Database Key) : DeferredCall Key → Prop
  | .schedule ctx senderId _ trx _ => PlainSchedule env ctx db senderId trx
  | _ => True

theorem DeferredStep.effect {call : DeferredCall Key} (h : DeferredStep env db call db') :
    DeferredEffect env (call.Plain env db) db.deferred db'.deferred := by
  cases h with
  | schedule step => exact scheduleDeferredTransaction_effect step
  | cancel step => exact cancelDeferredTransaction_effect step
  | retire mem step => exact removeScheduledTransaction_effect mem step

/-- **A run of successful calls**, each of them plain in the database it starts from. -/
inductive DeferredRun (env : SendEnv Key Sig) :
    Database Key → List (DeferredCall Key) → Database Key → Prop
  | nil (db : Database Key) : DeferredRun env db [] db
  | cons {db db1 db' : Database Key} {call : DeferredCall Key} {calls : List (DeferredCall Key)}
      (plain : call.Plain env db) (step : DeferredStep env db call db1)
      (rest : DeferredRun env db1 calls db') : DeferredRun env db (call :: calls) db'

theorem DeferredRun.slack_eq (h : DeferredRun env db calls db') (a : AccountName) :
    db'.deferred.slack a = db.deferred.slack a := by
  induction h with
  | nil db => rfl
  | cons plain step rest ih => exact ih.trans (step.effect.slack_eq plain a)

theorem DeferredRun.storesOwnId (h : DeferredRun env db calls db')
    (hids : ∀ r ∈ db.generated.rows, StoresOwnId env r.2) :
    ∀ r ∈ db'.generated.rows, StoresOwnId env r.2 := by
  induction h with
  | nil db => exact hids
  | cons plain step rest ih => exact ih (step.effect.storesOwnId plain hids)

/-- **Deferred transactions pay for their RAM**: after every run of plain calls the RAM usage of an
account has changed by what it owes for stored transactions, and each record has the id of the
transaction it stores. -/
theorem deferredRun_ledger (hrun : DeferredRun env db calls db')
    (hids : ∀ r ∈ db.generated.rows, StoresOwnId env r.2) :
    (∀ a, db'.deferred.ram a - db.deferred.ram a = db'.deferred.owed a - db.deferred.owed a) ∧
      ∀ r ∈ db'.generated.rows, StoresOwnId env r.2 := by
  refine ⟨fun a => ?_, hrun.storesOwnId hids⟩
  have hslack := hrun.slack_eq a
  unfold DeferredLedger.slack at hslack
  omega

end Runs

/-! ## A deferred transaction of `bob`'s code -/

/-- The context of `bob`'s code on a validating node. -/
def bobCtx : ApplyContext Nat where
  control := .standard "force" .complete 0
  receiver := stringToName "bob"
  act := { account := stringToName "bob", name := stringToName "act" }
  eagerNetLimit := 1000

/-- A transaction of `bob`'s with the given data. -/
def bobTrx (data : Bytes) : Transaction where
  actions := [{ account := stringToName "bob", name := stringToName "act", data := data,
                authorization := [⟨stringToName "bob", activeName⟩] }]

/-- `bob` with an entry for its resources. -/
def bobWithResources : Database Nat :=
  { bobOnly with
    resources := { bobOnly.resources with usages := .ofObjects [{ owner := stringToName "bob" }] } }

/-- The code schedules a transaction. -/
def bobSchedules (senderId : BitVec 128) (data : Bytes) : ApplyM Nat Unit :=
  scheduleDeferredTransaction plainEnv bobCtx senderId (stringToName "bob") (bobTrx data) true

/-- A transaction of three bytes is stored. -/
def bobScheduled : ApplyState Nat :=
  stateOf (bobSchedules 1 [1, 2, 3] (.start bobWithResources bobCtx.act))

/-- A transaction of two bytes is scheduled under the same id. -/
def bobReplaced : ApplyState Nat := stateOf (bobSchedules 1 [9, 9] bobScheduled)

/-- A transaction of two bytes is stored under another id. -/
def bobStored : ApplyState Nat := stateOf (bobSchedules 2 [9, 9] bobScheduled)

theorem bob_run : DeferredRun plainEnv bobWithResources
    [.schedule bobCtx 1 (stringToName "bob") (bobTrx [1, 2, 3]) true,
      .schedule bobCtx 2 (stringToName "bob") (bobTrx [9, 9]) true] bobStored.db := by
  have hfirst : bobSchedules 1 [1, 2, 3] (.start bobWithResources bobCtx.act) = .ok () bobScheduled :=
    eq_ok_of_thrown (by decide +kernel)
  have hsecond : bobSchedules 2 [9, 9] bobScheduled = .ok () bobStored :=
    eq_ok_of_thrown (by decide +kernel)
  have hplain : PlainSchedule plainEnv bobCtx bobWithResources 1 (bobTrx [1, 2, 3]) :=
    ⟨by decide +kernel, by decide +kernel⟩
  have hplain' : PlainSchedule plainEnv bobCtx bobScheduled.db 2 (bobTrx [9, 9]) :=
    ⟨by decide +kernel, by decide +kernel⟩
  exact .cons hplain (.schedule hfirst) (.cons hplain' (.schedule hsecond) (.nil _))

theorem deferredRun_ledger_bob : bobStored.db.deferred.ram (stringToName "bob") -
        bobWithResources.deferred.ram (stringToName "bob") =
      bobStored.db.deferred.owed (stringToName "bob") -
        bobWithResources.deferred.owed (stringToName "bob") :=
  (deferredRun_ledger bob_run fun _ hr => absurd hr List.not_mem_nil).1 _

omit [LinearOrder Key] in
theorem StoresOwnId.trxId_eq {env : SendEnv Key Sig} {g : GeneratedTransactionObject}
    (h : StoresOwnId env g) : g.trxId = env.transaction.sha256 g.packedTrx := by
  obtain ⟨trx, hpack, hid⟩ := h
  rw [hid, hpack]
  rfl

/-- **A replacement that keeps the charge and the id of what it replaces**: `bob` pays for both
transactions and the record of the second has the id of the first. -/
theorem schedule_replaces : bobSchedules 1 [9, 9] bobScheduled = .ok () bobReplaced ∧
    bobReplaced.db.deferred.ram (stringToName "bob") = 549 ∧
    bobReplaced.db.deferred.owed (stringToName "bob") = 274 ∧
    ∃ r ∈ bobReplaced.db.generated.rows, ¬ StoresOwnId plainEnv r.2 := by
  refine ⟨eq_ok_of_thrown (by decide +kernel), by decide +kernel, by decide +kernel, ?_⟩
  have hid : ∃ r ∈ bobReplaced.db.generated.rows,
      r.2.trxId ≠ plainEnv.transaction.sha256 r.2.packedTrx := by decide +kernel
  obtain ⟨r, hr, hne⟩ := hid
  exact ⟨r, hr, fun hown => hne hown.trxId_eq⟩

end Forceio.Chain
