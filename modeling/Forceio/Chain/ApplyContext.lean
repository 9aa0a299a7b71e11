import Forceio.Chain.Control
import Forceio.Chain.Database

/-!
# The context code runs in: `apply_context.hpp`, `apply_context.cpp`

* `ApplyContext` is what does not change while an action runs: the controller, the transaction it
  is part of, the receiver and the action. `ApplyState` is what does: the database, the marks on the
  authorizations of the action, the RAM deltas, the queued inline actions and the iterator caches.
* `checktime` throws when the deadline of the transaction has passed, by a clock of its own: the
  context says what its `n`-th call in a check of authorizations throws.
* A pointer in an iterator cache is the id of the row it points to.
* `_account_ram_deltas` is only reported.

Results:
* `addRamUsage_spec`: only the RAM usage of one account changes in the database.
-/

namespace Forceio.Chain

open Forceio.Lib Exec Database

/-- What the running code reads but does not change. -/
structure ApplyContext (Key : Type) [LinearOrder Key] where
  control : Control Key
  receiver : AccountName
  act : Action
  privileged : Bool := false
  /-- The flags and limits of the `transaction_context`. -/
  enforceWhiteblacklist : Bool := true
  published : Nat := 0
  eagerNetLimit : Nat := 0
  netLimitDueToBlock : Bool := true
  netLimitDueToGreylist : Bool := false
  checktime : Nat → Option FcException := fun _ => none

/-- `iterator_cache`: the cached tables in the order of their end iterators, and the row each
iterator stands for, none once it is removed. -/
structure IteratorCache where
  tables : List Nat := []
  iteratorToObject : List (Option Nat) := []
  deriving DecidableEq

/-- What the running code changes. -/
structure ApplyState (Key : Type) where
  db : Database Key
  usedAuthorizations : List Bool
  accountRamDeltas : FlatMap AccountName Int := .empty
  inlineActions : List Action := []
  keyvalCache : IteratorCache := {}
  indexCaches : IndexKind → IteratorCache := fun _ => {}
  /-- `validate_ram_usage` and `net_usage` of the `transaction_context`. -/
  validateRamUsage : FlatSet AccountName := .empty
  netUsage : Nat := 0

/-- Code of an `apply_context`. -/
abbrev ApplyM (Key α : Type) := EStateM FcException (ApplyState Key) α

variable {Key : Type}

namespace ApplyState

/-- The state with another database. -/
def setDb (db : Database Key) (s : ApplyState Key) : ApplyState Key := { s with db := db }

/-- The state with other marks on the authorizations. -/
def setUsed (used : List Bool) (s : ApplyState Key) : ApplyState Key :=
  { s with usedAuthorizations := used }

@[simp] theorem setUsed_db (used : List Bool) (s : ApplyState Key) : (s.setUsed used).db = s.db := rfl

/-- Run code over the database. -/
def onDb {α : Type} (m : DbM Key α) : ApplyM Key α := zoom ApplyState.db setDb m

/-- The state when an action starts. -/
def start (db : Database Key) (act : Action) : ApplyState Key where
  db := db
  usedAuthorizations := act.authorization.map fun _ => false

/-- `add_ram_usage`, of the `transaction_context` and of the `apply_context`. -/
def addRamUsage (account : AccountName) (ramDelta : Int) : ApplyM Key Unit := do
  onDb (onResources (addPendingRamUsage account ramDelta))
  modify fun s => { s with
    validateRamUsage := if ramDelta > 0 then s.validateRamUsage.insert account
      else s.validateRamUsage
    accountRamDeltas :=
      s.accountRamDeltas.set account ((s.accountRamDeltas.find account).getD 0 + ramDelta) }

/-- `require_authorization`: marks the first authorization by the account as used. -/
def requireAuthorization [LinearOrder Key] (ctx : ApplyContext Key) (account : AccountName) :
    ApplyM Key Unit :=
  match ctx.act.authorization.findIdx? fun auth => auth.actor = account with
  | some i => modify fun s => s.setUsed (s.usedAuthorizations.set i true)
  | none => lift (.error ⟨.missingAuthException, "missing authority of ${account}"⟩)

section Specs

variable {α β : Type} {s s' : ApplyState Key} {m : DbM Key α}

theorem onDb_ok {a : α} :
    onDb m s = .ok a s' ↔ ∃ db, m s.db = .ok a db ∧ s' = s.setDb db :=
  zoom_ok

variable {f : α → ApplyM Key β}

theorem onDb_bind_ok {b : β} :
    (onDb m >>= f) s = .ok b s' ↔ ∃ a db, m s.db = .ok a db ∧ f a (s.setDb db) = .ok b s' := by
  rw [bind_ok]
  constructor
  · rintro ⟨a, t, h, hf⟩
    obtain ⟨db, hm, rfl⟩ := onDb_ok.mp h
    exact ⟨a, db, hm, hf⟩
  · rintro ⟨a, db, hm, hf⟩
    exact ⟨a, _, onDb_ok.mpr ⟨db, hm, rfl⟩, hf⟩

variable {E : FcException → Prop}

theorem onDb_bind_meets {C : Prop} {P : ApplyState Key → Prop} (hm : C → Exec.Throws E m s.db)
    (hf : ∀ a db, m s.db = .ok a db → Exec.Meets C P E (f a) (s.setDb db)) :
    Exec.Meets C P E (onDb m >>= f) s := by
  refine .bind (fun hc => .zoom (hm hc)) fun a s' ha => ?_
  obtain ⟨db, hdb, rfl⟩ := onDb_ok.mp ha
  exact hf a db hdb

variable {account : AccountName} {delta : Int}

/-- **Charging RAM** changes nothing in the database but the usage of one account. -/
theorem addRamUsage_spec (h : addRamUsage account delta s = .ok () s') :
    ∃ r, s'.db = { s.db with resources := r } ∧
      ∀ b, r.ramOf b = s.db.resources.ramOf b + if b = account then delta else 0 := by
  obtain ⟨u, db, hdb, h⟩ := onDb_bind_ok.mp h
  obtain ⟨r, hr, rfl⟩ := zoom_ok.mp hdb
  cases h
  exact ⟨r, rfl, (addPendingRamUsage_spec hr).1⟩

/-- The RAM usage of the accounts after one of them is charged. -/
def charged (ram : AccountName → Int) (account : AccountName) (delta : Int) : AccountName → Int :=
  fun b => ram b + if account = b then delta else 0

theorem addRamUsage_charged (h : addRamUsage account delta s = .ok () s') :
    ∃ r, s'.db = { s.db with resources := r } ∧
      r.ramOf = charged s.db.resources.ramOf account delta := by
  obtain ⟨r, hr, hram⟩ := addRamUsage_spec h
  refine ⟨r, hr, ?_⟩
  funext b
  rw [hram, charged]
  simp only [eq_comm]

theorem addRamUsage_ok {n : Nat} {u : ResourceUsageObject}
    (husage : s.db.resources.usageOf account = some (n, u)) (hdelta : 0 ≤ delta)
    (hfits : u.ramUsage + delta < 2 ^ 64) : ∃ s', addRamUsage account delta s = .ok () s' := by
  obtain ⟨r, hr⟩ := addPendingRamUsage_ok husage hdelta hfits
  have hdb : onResources (addPendingRamUsage account delta) s.db =
      .ok () { s.db with resources := r } := zoom_ok.mpr ⟨r, hr, rfl⟩
  exact ⟨_, onDb_bind_ok.mpr ⟨(), _, hdb, rfl⟩⟩

theorem requireAuthorization_spec [LinearOrder Key] {ctx : ApplyContext Key}
    (h : requireAuthorization ctx account s = .ok () s') :
    (∃ auth ∈ ctx.act.authorization, auth.actor = account) ∧ ∃ used, s' = s.setUsed used := by
  unfold requireAuthorization at h
  cases hi : ctx.act.authorization.findIdx? fun auth => auth.actor = account with
  | none =>
    rw [hi] at h
    simp [lift] at h
  | some i =>
    rw [hi] at h
    cases h
    obtain ⟨hlt, hactor, -⟩ := List.findIdx?_eq_some_iff_getElem.mp hi
    exact ⟨⟨_, List.getElem_mem hlt, by simpa using hactor⟩, _, rfl⟩

theorem requireAuthorization_throws [LinearOrder Key] {ctx : ApplyContext Key}
    (h : E ⟨.missingAuthException, "missing authority of ${account}"⟩) :
    Exec.Throws E (requireAuthorization ctx account) s := by
  unfold requireAuthorization
  split
  · exact .of_ok rfl
  · exact .lift (.error h)

end Specs

end ApplyState

end Forceio.Chain
