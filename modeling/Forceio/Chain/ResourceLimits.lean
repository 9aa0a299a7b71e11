import Forceio.Chain.Chainbase

/-!
# Resource limits: `resource_limits.cpp`, `resource_limits_private.hpp`

What accounts use of cpu, net and RAM. The use of cpu and net is an exponential moving average per
account: `value_ex` is the average per slot of its window, times `rate_limiting_precision`.

* The integers are natural numbers. `Arith` says what fits a word and what a 128-bit product keeps:
  `Arith.machine` is the program, `Arith.exact` drops the limits. A range check of the source is
  `fits64` of the value that would not fit.
* cpu and net are accounted by the same formulas on different fields: `ResourceView` holds the
  fields, and the checks take one.
* `modify` with two changes is two changes, the first of which stays if the second throws.

Out of scope: the RAM limit that `get_account_limits` reads from a contract's table.

Result:
* `addPendingRamUsage_spec`: the RAM of one account changes by the delta, nothing else does.
-/

namespace Forceio.Chain

open Forceio.Lib Exec Table TableOf

variable (ar : Arith)

/-! ## Integers -/

/-- The integers the accounting is done with. -/
structure Arith where
  /-- Fits a `uint64_t`. -/
  fits64 : Nat → Bool
  /-- Fits an `int64_t`. -/
  fitsInt64 : Nat → Bool
  /-- A result kept as a `uint64_t`. -/
  wrap64 : Nat → Nat
  /-- A result kept as a `uint128_t`. -/
  wrap128 : Nat → Nat

/-- The machine's integers. -/
def Arith.machine : Arith :=
  ⟨fun n => n < 2 ^ 64, fun n => n < 2 ^ 63, fun n => n % 2 ^ 64, fun n => n % 2 ^ 128⟩

/-- Integers without bound. -/
def Arith.exact : Arith := ⟨fun _ => true, fun _ => true, id, id⟩

/-- `config::rate_limiting_precision`. -/
def rateLimitingPrecision : Nat := 1000 * 1000

/-- `integer_divide_ceil`. -/
def integerDivideCeil (num den : Nat) : Nat := num / den + if num % den > 0 then 1 else 0

/-- `downgrade_cast`, to the type whose range is `fits`. -/
def downgradeCast (fits : Nat → Bool) (val : Nat) : Except FcException Nat := do
  eosAssert (fits val) .rateLimitingStateInconsistent
    ("Casting a higher bit integer value ${v} to a lower bit integer value which cannot contain " ++
      "the value, valid range is [${min}, ${max}]")
  return val

/-- `operator*` of a value and a ratio. -/
def mulRatio (value numerator denominator : Nat) : Except FcException Nat := do
  eosAssert (numerator = 0 ∨ ar.fits64 (value * numerator) = true) .rateLimitingStateInconsistent
    "Usage exceeds maximum value representable after extending for precision"
  return value * numerator / denominator

/-! ## The moving average -/

/-- `exponential_moving_average_accumulator`. -/
structure UsageAccumulator where
  lastOrdinal : Nat := 0
  valueEx : Nat := 0
  consumed : Nat := 0
  deriving DecidableEq, Repr

namespace UsageAccumulator

/-- `average`. -/
def average (valueEx : Nat) : Nat := integerDivideCeil valueEx rateLimitingPrecision

variable (acc : UsageAccumulator)

/-- The average after the slots up to `ordinal`. -/
def decayed (ordinal windowSize : Nat) : Except FcException Nat :=
  if acc.lastOrdinal + windowSize > ordinal then
    mulRatio ar acc.valueEx (windowSize - (ordinal - acc.lastOrdinal)) windowSize
  else return 0

/-- The part of `add` for a new slot. -/
def carryTo (ordinal windowSize : Nat) : Except FcException UsageAccumulator :=
  if acc.lastOrdinal ≠ ordinal then do
    eosAssert (ordinal > acc.lastOrdinal) .resourceLimitException
      "new ordinal cannot be less than the previous ordinal"
    let valueEx ← acc.decayed ar ordinal windowSize
    return { lastOrdinal := ordinal, valueEx, consumed := average valueEx }
  else return acc

/-- `add`. -/
def add (units ordinal windowSize : Nat) : Except FcException UsageAccumulator := do
  eosAssert (ar.fits64 (units * rateLimitingPrecision)) .rateLimitingStateInconsistent
    "Usage exceeds maximum value representable after extending for precision"
  eosAssert (ar.fits64 (acc.consumed + units)) .rateLimitingStateInconsistent
    "Overflow in tracked usage when adding usage!"
  let valueExContrib ← downgradeCast ar.fits64
    (integerDivideCeil (ar.wrap128 (units * rateLimitingPrecision)) windowSize)
  eosAssert (ar.fits64 (acc.valueEx + valueExContrib)) .rateLimitingStateInconsistent
    "Overflow in accumulated value when adding usage!"
  let acc ← acc.carryTo ar ordinal windowSize
  return { acc with
    consumed := acc.consumed + units
    valueEx := acc.valueEx + valueExContrib }

end UsageAccumulator

/-! ## The objects -/

/-- `resource_limits_object`. -/
structure ResourceLimitsObject where
  owner : AccountName
  pending : Bool := false
  netWeight : Int := -1
  cpuWeight : Int := -1
  ramBytes : Int := -1
  deriving DecidableEq, Repr

instance : Indexed ResourceLimitsObject where
  clash a b := a.pending = b.pending ∧ a.owner = b.owner
  symm h := ⟨h.1.symm, h.2.symm⟩
  decidable _ _ := inferInstance

namespace ResourceLimitsObject

/-- All three limits changed. -/
def setLimits (ramBytes netWeight cpuWeight : Int) (o : ResourceLimitsObject) :
    ResourceLimitsObject :=
  { o with ramBytes := ramBytes, netWeight := netWeight, cpuWeight := cpuWeight }

theorem setLimits_keepsKeys (ramBytes netWeight cpuWeight : Int) :
    Table.KeepsKeys (setLimits ramBytes netWeight cpuWeight) := fun _ _ => Iff.rfl

end ResourceLimitsObject

/-- `resource_usage_object`. -/
structure ResourceUsageObject where
  owner : AccountName
  netUsage : UsageAccumulator := {}
  cpuUsage : UsageAccumulator := {}
  ramUsage : Nat := 0
  deriving DecidableEq, Repr

instance : Indexed ResourceUsageObject where
  clash a b := a.owner = b.owner
  symm h := h.symm
  decidable _ _ := inferInstance

namespace ResourceUsageObject

variable (acc : UsageAccumulator)

/-- `net_usage` changed. -/
def setNet (u : ResourceUsageObject) : ResourceUsageObject :=
  { u with netUsage := acc }

/-- `cpu_usage` changed. -/
def setCpu (u : ResourceUsageObject) : ResourceUsageObject :=
  { u with cpuUsage := acc }

/-- `ram_usage += delta`. -/
def addRam (delta : Int) (u : ResourceUsageObject) : ResourceUsageObject :=
  { u with ramUsage := (u.ramUsage + delta).toNat }

theorem setNet_owner (u : ResourceUsageObject) : (u.setNet acc).owner = u.owner := rfl

theorem setCpu_owner (u : ResourceUsageObject) : (u.setCpu acc).owner = u.owner := rfl

theorem addRam_owner (delta : Int) (u : ResourceUsageObject) :
    (u.addRam delta).owner = u.owner := rfl

theorem keepsKeys {f : ResourceUsageObject → ResourceUsageObject}
    (h : ∀ u, (f u).owner = u.owner) : Table.KeepsKeys f := by
  intro u u'
  show (f u).owner = u'.owner ↔ u.owner = u'.owner
  rw [h]

end ResourceUsageObject

/-- `resource_limits_config_object`, the `max` of its limit parameters and the windows. -/
structure ResourceLimitsConfig where
  cpuLimitMax : Nat
  netLimitMax : Nat
  accountCpuUsageAverageWindow : Nat
  accountNetUsageAverageWindow : Nat

/-- `resource_limits_state_object`. -/
structure ResourceLimitsState where
  pendingNetUsage : Nat := 0
  pendingCpuUsage : Nat := 0
  totalNetWeight : Nat := 0
  totalCpuWeight : Nat := 0
  totalRamBytes : Nat := 0
  virtualNetLimit : Nat := 0
  virtualCpuLimit : Nat := 0

/-- `gmr_parameters`: the guaranteed minimum of each resource. -/
structure GmrParameters where
  ramByte : Nat
  cpuUs : Nat
  netByte : Nat

/-- The tables of `resource_limits_manager`. -/
structure ResourceDb where
  limits : Table ResourceLimitsObject
  usages : Table ResourceUsageObject
  state : ResourceLimitsState
  config : ResourceLimitsConfig
  gmr : GmrParameters

/-- Code over the resource tables. -/
abbrev ResourceM (α : Type) := EStateM FcException ResourceDb α

namespace ResourceDb

/-- Where the limits are. -/
def limitsTable : TableOf ResourceDb ResourceLimitsObject where
  table db := db.limits
  set t db := { db with limits := t }
  table_set _ _ := rfl

/-- Where the usages are. -/
def usagesTable : TableOf ResourceDb ResourceUsageObject where
  table db := db.usages
  set t db := { db with usages := t }
  table_set _ _ := rfl

/-- The usage row of an account. -/
def usageOf (db : ResourceDb) (a : AccountName) : Option (Nat × ResourceUsageObject) :=
  db.usages.find? fun u => u.owner = a

end ResourceDb

open ResourceDb ResourceUsageObject

/-! ## Accounts -/

/-- `initialize_account`. -/
def initializeAccount (account : AccountName) : ResourceM Unit := do
  let _ ← limitsTable.create { owner := account }
  let _ ← usagesTable.create { owner := account }

/-- `get_account_limits`: the net and the cpu weight, of pending limits if there are any. -/
def getAccountLimits (account : AccountName) : ResourceM (Int × Int) := do
  match ← limitsTable.find fun o => o.pending && o.owner = account with
  | some (_, o) => return (o.netWeight, o.cpuWeight)
  | none =>
    let (_, o) ← limitsTable.get fun o => !o.pending && o.owner = account
    return (o.netWeight, o.cpuWeight)

/-- The lambda `find_or_create_pending_limits` of `set_account_limits`. -/
def findOrCreatePendingLimits (account : AccountName) : ResourceM (Nat × ResourceLimitsObject) := do
  match ← limitsTable.find fun o => o.pending && o.owner = account with
  | some r => return r
  | none =>
    let (_, limits) ← limitsTable.get fun o => !o.pending && o.owner = account
    let n ← limitsTable.create { limits with pending := true }
    return (n, { limits with pending := true })

/-- `set_account_limits`: whether the RAM limit goes down. -/
def setAccountLimits (account : AccountName) (ramBytes netWeight cpuWeight : Int) :
    ResourceM Bool := do
  let (n, limits) ← findOrCreatePendingLimits account
  limitsTable.modify n (.setLimits ramBytes netWeight cpuWeight)
    (ResourceLimitsObject.setLimits_keepsKeys _ _ _)
  return ramBytes ≥ 0 ∧ (limits.ramBytes < 0 ∨ ramBytes < limits.ramBytes)

/-! ## Pending limits -/

/-- The lambda `update_state_and_value` of `process_account_limit_updates`: the new total. -/
def updateStateAndValue (total : Nat) (value pendingValue : Int) (debugWhich : String) :
    Except FcException Nat := do
  let total ← (if value > 0 then do
      eosAssert ((total : Int) ≥ value) .rateLimitingStateInconsistent
        ("underflow when reverting old value to " ++ debugWhich)
      pure (total - value.toNat)
    else pure total)
  if pendingValue > 0 then do
    eosAssert ((2 ^ 64 - 1 - total : Int) ≥ pendingValue) .rateLimitingStateInconsistent
      ("overflow when applying new value to " ++ debugWhich)
    pure (total + pendingValue.toNat)
  else pure total

/-- The body of the loop of `process_account_limit_updates`, for the pending limits under `n`. -/
def applyPendingLimits (n : Nat) (pending : ResourceLimitsObject) : ResourceM Unit := do
  let (m, actual) ← limitsTable.get fun o => !o.pending && o.owner = pending.owner
  let db ← get
  let totalRamBytes ← lift (updateStateAndValue db.state.totalRamBytes actual.ramBytes
    pending.ramBytes "ram_bytes")
  let totalCpuWeight ← lift (updateStateAndValue db.state.totalCpuWeight actual.cpuWeight
    pending.cpuWeight "cpu_weight")
  let totalNetWeight ← lift (updateStateAndValue db.state.totalNetWeight actual.netWeight
    pending.netWeight "net_weight")
  set { db with state := { db.state with
    totalRamBytes := totalRamBytes
    totalCpuWeight := totalCpuWeight
    totalNetWeight := totalNetWeight } }
  limitsTable.modify m (.setLimits pending.ramBytes pending.netWeight pending.cpuWeight)
    (ResourceLimitsObject.setLimits_keepsKeys _ _ _)
  limitsTable.remove n

/-- The loop of `process_account_limit_updates`: the pending limits come last in `by_owner`, and the
first of them by owner is applied until there is none. -/
def processPending : Nat → ResourceM Unit
  | 0 => lift (.error ⟨.undefinedBehavior, "loop without end"⟩)
  | fuel + 1 => do
    let db ← get
    match db.limits.leastBy fun r => toLex (!r.2.pending, r.2.owner) with
    | none => return ()
    | some (n, limits) =>
      if limits.pending then do
        applyPendingLimits n limits
        processPending fuel

/-- `process_account_limit_updates`. -/
def processAccountLimitUpdates : ResourceM Unit := do
  let db ← get
  processPending (db.limits.rows.length + 1)

/-! ## RAM -/

/-- `add_pending_ram_usage`. -/
def addPendingRamUsage (account : AccountName) (ramDelta : Int) : ResourceM Unit := do
  if ramDelta = 0 then return ()
  let (n, usage) ← usagesTable.get fun u => u.owner = account
  require (ramDelta ≤ 0 ∨ (2 ^ 64 - 1 - usage.ramUsage : Int) ≥ ramDelta) .transactionException
    "Ram usage delta would overflow UINT64_MAX"
  require (ramDelta ≥ 0 ∨ (usage.ramUsage : Int) ≥ -ramDelta) .transactionException
    "Ram usage delta would underflow UINT64_MAX"
  usagesTable.modify n (.addRam ramDelta) (keepsKeys (addRam_owner ramDelta))

/-- Both averages of a usage object: `net_usage.add` and `cpu_usage.add`. -/
def addUsage (n : Nat) (cpuUsage netUsage timeSlot : Nat) : ResourceM Unit := do
  let config := (← get).config
  let usage ← usagesTable.deref n
  let netUsage ← lift
    (usage.netUsage.add ar netUsage timeSlot config.accountNetUsageAverageWindow)
  usagesTable.modify n (.setNet netUsage) (keepsKeys (setNet_owner netUsage))
  let cpuUsage ← lift
    (usage.cpuUsage.add ar cpuUsage timeSlot config.accountCpuUsageAverageWindow)
  usagesTable.modify n (.setCpu cpuUsage) (keepsKeys (setCpu_owner cpuUsage))

/-- `update_account_usage`. -/
def updateAccountUsage (ar : Arith) (timeSlot : Nat) : List AccountName → ResourceM Unit
  | [] => return ()
  | a :: accounts => do
    let (n, _) ← usagesTable.get fun u => u.owner = a
    addUsage ar n 0 0 timeSlot
    updateAccountUsage ar timeSlot accounts

/-! ## Limits and billing -/

/-- What the allowance of one resource is computed from. -/
structure ResourceView where
  weight : Int
  totalWeight : Nat
  virtualLimit : Nat
  limitMax : Nat
  window : Nat
  valueEx : Nat
  guaranteed : Nat

/-- The fields for cpu. -/
def cpuView (db : ResourceDb) (usage : ResourceUsageObject) (cpuWeight : Int) : ResourceView where
  weight := cpuWeight
  totalWeight := db.state.totalCpuWeight
  virtualLimit := db.state.virtualCpuLimit
  limitMax := db.config.cpuLimitMax
  window := db.config.accountCpuUsageAverageWindow
  valueEx := usage.cpuUsage.valueEx
  guaranteed := db.gmr.cpuUs

/-- The fields for net. -/
def netView (db : ResourceDb) (usage : ResourceUsageObject) (netWeight : Int) : ResourceView where
  weight := netWeight
  totalWeight := db.state.totalNetWeight
  virtualLimit := db.state.virtualNetLimit
  limitMax := db.config.netLimitMax
  window := db.config.accountNetUsageAverageWindow
  valueEx := usage.netUsage.valueEx
  guaranteed := db.gmr.netByte

/-- The fields `add_transaction_usage` checks net with: it adds `gmr.cpu_us`, not `gmr.net_byte`. -/
def netBillingView (db : ResourceDb) (usage : ResourceUsageObject) (netWeight : Int) :
    ResourceView :=
  { netView db usage netWeight with guaranteed := db.gmr.cpuUs }

namespace ResourceView

variable (v : ResourceView)

/-- `max_user_use_in_window`, out of a limit per slot. -/
def maxUserUseInWindow (limit : Nat) : Nat :=
  ar.wrap128
    (ar.wrap128 (ar.wrap128 (limit * v.window) * v.weight.toNat) / v.totalWeight + v.guaranteed)

/-- The use of the window, rounded up. -/
def usedRoundedUp : Nat :=
  integerDivideCeil (ar.wrap128 (v.valueEx * v.window)) rateLimitingPrecision

/-- The use of the window, rounded down. -/
def usedRoundedDown : Nat :=
  ar.wrap128 (v.valueEx * v.window) / rateLimitingPrecision

/-- The resource is limited for the account. -/
def Limited : Prop := v.weight ≥ 0 ∧ v.totalWeight > 0

instance (v : ResourceView) : Decidable v.Limited := inferInstanceAs (Decidable (_ ∧ _))

end ResourceView

/-- `account_resource_limit`. -/
structure AccountResourceLimit where
  used : Int
  available : Int
  max : Int

/-- `get_account_cpu_limit_ex` and `get_account_net_limit_ex`, on the fields of the resource. -/
def accountLimitEx (v : ResourceView) (elastic : Bool) :
    Except FcException AccountResourceLimit := do
  if ¬ v.Limited then return ⟨-1, -1, -1⟩
  let maxUse := v.maxUserUseInWindow ar (if elastic then v.virtualLimit else v.limitMax)
  let used := v.usedRoundedUp ar
  let available ← if maxUse ≤ used then pure 0 else downgradeCast ar.fitsInt64 (maxUse - used)
  let used ← downgradeCast ar.fitsInt64 used
  let max ← downgradeCast ar.fitsInt64 maxUse
  return ⟨used, available, max⟩

/-- `get_account_cpu_limit`. -/
def getAccountCpuLimit (name : AccountName) (elastic : Bool) : ResourceM Int := do
  let (_, usage) ← usagesTable.get fun u => u.owner = name
  let (_, cpuWeight) ← getAccountLimits name
  let arl ← lift (accountLimitEx ar (cpuView (← get) usage cpuWeight) elastic)
  return arl.available

/-- `get_account_net_limit`. -/
def getAccountNetLimit (name : AccountName) (elastic : Bool) : ResourceM Int := do
  let (_, usage) ← usagesTable.get fun u => u.owner = name
  let (netWeight, _) ← getAccountLimits name
  let arl ← lift (accountLimitEx ar (netView (← get) usage netWeight) elastic)
  return arl.available

/-- A limited resource is not used beyond the allowance. -/
def checkUsage (v : ResourceView) (type : ExceptionType) (what : String) : ResourceM Unit := do
  if v.Limited then
    require (v.usedRoundedDown ar ≤ v.maxUserUseInWindow ar v.virtualLimit) type what

/-- The loop body of `add_transaction_usage`. -/
def billAccount (cpuUsage netUsage timeSlot : Nat) (a : AccountName) : ResourceM Unit := do
  let (n, _) ← usagesTable.get fun u => u.owner = a
  let (netWeight, cpuWeight) ← getAccountLimits a
  addUsage ar n cpuUsage netUsage timeSlot
  let usage ← usagesTable.deref n
  let db ← get
  checkUsage ar (cpuView db usage cpuWeight) .txCpuUsageExceeded
    "authorizing account '${n}' has insufficient cpu resources for this transaction"
  checkUsage ar (netBillingView db usage netWeight) .txNetUsageExceeded
    "authorizing account '${n}' has insufficient net resources for this transaction"

/-- The loop of `add_transaction_usage`. -/
def billAccounts (ar : Arith) (cpuUsage netUsage timeSlot : Nat) : List AccountName → ResourceM Unit
  | [] => return ()
  | a :: accounts => do
    billAccount ar cpuUsage netUsage timeSlot a
    billAccounts ar cpuUsage netUsage timeSlot accounts

/-- `add_transaction_usage`. -/
def addTransactionUsage (accounts : List AccountName)
    (cpuUsage netUsage timeSlot : Nat) : ResourceM Unit := do
  billAccounts ar cpuUsage netUsage timeSlot accounts
  modify fun db => { db with state := { db.state with
    pendingCpuUsage := ar.wrap64 (db.state.pendingCpuUsage + cpuUsage)
    pendingNetUsage := ar.wrap64 (db.state.pendingNetUsage + netUsage) } }
  let db ← get
  require (db.state.pendingCpuUsage ≤ db.config.cpuLimitMax) .blockResourceExhausted
    "Block has insufficient cpu resources"
  require (db.state.pendingNetUsage ≤ db.config.netLimitMax) .blockResourceExhausted
    "Block has insufficient net resources"

/-! ## What the steps do -/

namespace ResourceDb

/-- The net and the cpu weight of an account. -/
def weightsOf (db : ResourceDb) (a : AccountName) : Option (Int × Int) :=
  ((db.limits.find? fun o => o.pending && o.owner = a).or
    (db.limits.find? fun o => !o.pending && o.owner = a)).map fun r => (r.2.netWeight, r.2.cpuWeight)

/-- The RAM an account uses. -/
def ramOf (db : ResourceDb) (a : AccountName) : Int :=
  (db.usageOf a).elim 0 fun r => r.2.ramUsage

variable {db : ResourceDb} {a b : AccountName} {n : Nat} {u : ResourceUsageObject}

theorem mem_of_usageOf (h : db.usageOf a = some (n, u)) : (n, u) ∈ db.usages.rows :=
  mem_of_find? h

theorem owner_of_usageOf (h : db.usageOf a = some (n, u)) : u.owner = a := by
  simpa using of_find? h

/-- The database after a change to the usage under `n`. -/
def updateUsage (db : ResourceDb) (n : Nat) (f : ResourceUsageObject → ResourceUsageObject)
    (howner : ∀ u, (f u).owner = u.owner) : ResourceDb :=
  { db with usages := db.usages.update n f (ResourceUsageObject.keepsKeys howner) }

variable {f : ResourceUsageObject → ResourceUsageObject} (howner : ∀ u, (f u).owner = u.owner)

theorem usageOf_updateUsage (b : AccountName) :
    (db.updateUsage n f howner).usageOf b = (db.usageOf b).map (updateRow n f) := by
  unfold updateUsage usageOf
  rw [find?_update fun u => by rw [howner]]

theorem usageOf_updateUsage_self (h : db.usageOf a = some (n, u)) :
    (db.updateUsage n f howner).usageOf a = some (n, f u) := by
  rw [usageOf_updateUsage, h]
  simp [updateRow]

theorem usageOf_updateUsage_other (h : db.usageOf a = some (n, u)) (hne : b ≠ a) :
    (db.updateUsage n f howner).usageOf b = db.usageOf b := by
  rw [usageOf_updateUsage]
  cases hb : db.usageOf b with
  | none => rfl
  | some r =>
    have hid : r.1 ≠ n := by
      intro hid
      have hr : r = (n, u) := eq_of_id (mem_of_usageOf hb) (mem_of_usageOf h) hid
      rw [hr] at hb
      exact hne ((owner_of_usageOf hb).symm.trans (owner_of_usageOf h))
    simp [updateRow, hid]

end ResourceDb

variable {db db' : ResourceDb} {a : AccountName}

theorem getAccountLimits_eq_ok_iff {w : Int × Int} :
    getAccountLimits a db = .ok w db' ↔ db.weightsOf a = some w ∧ db' = db := by
  show (match db.limits.find? (fun o => o.pending && o.owner = a) with
    | some (_, o) => _
    | none => _ : ResourceM (Int × Int)) db = _ ↔ _
  cases hp : db.limits.find? fun o => o.pending && o.owner = a with
  | some r =>
    simp only [weightsOf, hp, Option.some_or, Option.map_some, Option.some.injEq]
    exact ⟨fun h => by cases h; exact ⟨rfl, rfl⟩, fun ⟨h, h'⟩ => by rw [← h, h']; rfl⟩
  | none =>
    simp only [weightsOf, hp, Option.none_or, Option.map_eq_some_iff]
    rw [get_bind_ok]
    constructor
    · rintro ⟨r, hr, h⟩
      cases h
      exact ⟨⟨r, hr, rfl⟩, rfl⟩
    · rintro ⟨⟨r, hr, rfl⟩, rfl⟩
      exact ⟨r, hr, rfl⟩

/-- **One account's RAM changes by the delta**; limits, averages and the other accounts stay. -/
theorem addPendingRamUsage_spec {delta : Int} (h : addPendingRamUsage a delta db = .ok () db') :
    (∀ b, db'.ramOf b = db.ramOf b + if b = a then delta else 0) ∧
      db'.limits = db.limits ∧ db'.state = db.state ∧ db'.config = db.config ∧ db'.gmr = db.gmr := by
  unfold addPendingRamUsage at h
  split at h
  · next hz =>
    cases h
    exact ⟨fun b => by simp [hz], rfl, rfl, rfl, rfl⟩
  · obtain ⟨⟨n, u⟩, hu, h⟩ := get_bind_ok.mp h
    obtain ⟨-, h⟩ := require_bind_ok.mp h
    obtain ⟨hle, h⟩ := require_bind_ok.mp h
    have hdb : db' = db.updateUsage n (.addRam delta) (addRam_owner delta) := by cases h; rfl
    subst hdb
    refine ⟨fun b => ?_, rfl, rfl, rfl, rfl⟩
    have hu' : db.usageOf a = some (n, u) := hu
    unfold ramOf
    by_cases hb : b = a
    · subst hb
      rw [usageOf_updateUsage_self _ hu', hu']
      simp only [Option.elim_some, if_true, ResourceUsageObject.addRam]
      omega
    · rw [usageOf_updateUsage_other _ hu' hb, if_neg hb, add_zero]

/-- More RAM for an account that has a usage object, as long as the sum fits. -/
theorem addPendingRamUsage_ok {delta : Int} (husage : db.usageOf a = some (n, u)) (hdelta : 0 ≤ delta)
    (hfits : u.ramUsage + delta < 2 ^ 64) : ∃ db', addPendingRamUsage a delta db = .ok () db' := by
  unfold addPendingRamUsage
  by_cases hz : delta = 0
  · rw [if_pos hz]
    exact ⟨db, rfl⟩
  · rw [if_neg hz]
    refine ⟨db.updateUsage n (.addRam delta) (addRam_owner delta), ?_⟩
    refine get_bind_ok.mpr ⟨(n, u), husage, ?_⟩
    refine require_bind_ok.mpr ⟨.inr (by omega), ?_⟩
    exact require_bind_ok.mpr ⟨.inl hdelta, rfl⟩

theorem initializeAccount_ramOf (h : initializeAccount a db = .ok () db') : db'.ramOf = db.ramOf := by
  obtain ⟨i, limits, -, h⟩ := create_bind_ok h
  obtain ⟨n, usages, hcreate, h⟩ := create_bind_ok h
  cases h
  have hcreate' : db.usages.create { owner := a } = some (n, usages) := hcreate
  funext b
  show (usages.find? fun u => u.owner = b).elim 0 _ = (db.usages.find? fun u => u.owner = b).elim 0 _
  rw [find?_create hcreate']
  cases db.usages.find? fun u => u.owner = b with
  | some r => rfl
  | none =>
    split
    · rfl
    · rfl

end Forceio.Chain
