import Forceio.Chain.ResourceLimits

/-!
# Billing after the limit check: `transaction_context::finalize`, `add_transaction_usage`

Before a transaction is billed its use is compared with what each billed account has available:
`get_account_cpu_limit` and `get_account_net_limit`, which round the use of the window up. Billing
then adds the use to the averages, rounding up, and compares the use of the window, rounded down,
with the allowance again. The source says that this should never fail.

For integers without bound, in one slot:

* the roundings agree: with a window of at most `rate_limiting_precision` slots, billing counts
  for the window at most what the limit left (`carried_le`);
* an account that is over its allowance has nothing available, but a transaction that uses nothing
  passes the limit and is refused in billing;
* billing compares net with an allowance that has the guaranteed minimum of cpu in it.

Results:
* `limitsAgree_iff`: which states bill every use that passes the limit check.
* `addTransactionUsage_refused`: both ways to fail.
-/

namespace Forceio.Chain

open Forceio.Lib ResourceDb ResourceUsageObject Exec TableOf List

variable {ar : Arith}
variable {x : Nat}

/-! ## Rounding -/

/-- What rounding `num / den` up adds to `num`. -/
def roundingGap (num den : Nat) : Nat := (den - num % den) % den

theorem integerDivideCeil_mul (num : Nat) {den : Nat} (h : 0 < den) :
    integerDivideCeil num den * den = num + roundingGap num den := by
  unfold integerDivideCeil roundingGap
  have hdiv := Nat.div_add_mod num den
  have hlt := Nat.mod_lt num h
  rw [Nat.add_mul, Nat.mul_comm (num / den) den]
  by_cases hz : num % den = 0
  · rw [hz, if_neg (by omega), Nat.sub_zero, Nat.mod_self]
    omega
  · rw [if_pos (by omega), Nat.mod_eq_of_lt (a := den - num % den) (by omega)]
    omega

/-- Rounding down after adding less than the divisor gives at most what rounding up gives. -/
theorem add_div_le_integerDivideCeil {num den gap : Nat} (h : gap < den) :
    (num + gap) / den ≤ integerDivideCeil num den := by
  have hdiv := Nat.div_add_mod num den
  have hlt := Nat.mod_lt num (Nat.zero_lt_of_lt h)
  have hsum : num + gap = num % den + gap + den * (num / den) := by omega
  rw [hsum, Nat.add_mul_div_left _ _ (Nat.zero_lt_of_lt h), Nat.add_comm]
  refine Nat.add_le_add_left ?_ _
  by_cases hz : num % den = 0
  · rw [hz, Nat.zero_add, Nat.div_eq_of_lt h]
    exact Nat.zero_le _
  · rw [if_pos (by omega)]
    exact Nat.lt_succ_iff.mp (Nat.div_lt_of_lt_mul (by omega))

/-! ## One resource -/

namespace ResourceView

variable {v : ResourceView} {units : Nat}

/-- The use before, with what rounding `units` more up adds to the average. -/
def carried (v : ResourceView) (units : Nat) : Nat :=
  (v.valueEx * v.window + roundingGap (units * rateLimitingPrecision) v.window) /
    rateLimitingPrecision

/-- The use of the window that billing sees after `units` more. -/
def usedAfter (v : ResourceView) (units : Nat) : Nat := units + v.carried units

/-- The share of the weight, without bound on the integers. -/
def share (v : ResourceView) : Nat := v.virtualLimit * v.window * v.weight.toNat / v.totalWeight

/-- The allowance without bound on the integers. -/
def allowance (v : ResourceView) : Nat := v.share + v.guaranteed

/-- What is left of it. -/
def available (v : ResourceView) : Nat := v.allowance - v.usedRoundedUp .exact

theorem maxUserUseInWindow_exact : v.maxUserUseInWindow .exact v.virtualLimit = v.allowance := rfl

/-- The view with another average. -/
def withValue (v : ResourceView) (valueEx : Nat) : ResourceView := { v with valueEx }

theorem limited_withValue : (v.withValue x).Limited ↔ v.Limited := Iff.rfl

theorem maxUserUseInWindow_withValue :
    (v.withValue x).maxUserUseInWindow .exact (v.withValue x).virtualLimit = v.allowance := rfl

theorem usedRoundedDown_withValue :
    (v.withValue x).usedRoundedDown .exact = x * v.window / rateLimitingPrecision := rfl

theorem usedRoundedDown_charged (hw : 0 < v.window)
    (hx : x = v.valueEx + integerDivideCeil (units * rateLimitingPrecision) v.window) :
    (v.withValue x).usedRoundedDown .exact = v.usedAfter units := by
  have hsum : x * v.window =
      v.valueEx * v.window + roundingGap (units * rateLimitingPrecision) v.window +
        rateLimitingPrecision * units := by
    rw [hx, Nat.add_mul, integerDivideCeil_mul _ hw]
    ring
  rw [usedRoundedDown_withValue, hsum, Nat.add_mul_div_left _ _ (by decide), Nat.add_comm, usedAfter,
    carried]

/-- Billing's check of a resource whose account was charged. -/
theorem check_charged (hw : 0 < v.window)
    (hx : x = v.valueEx + integerDivideCeil (units * rateLimitingPrecision) v.window) :
    ((v.withValue x).Limited → (v.withValue x).usedRoundedDown .exact ≤
        (v.withValue x).maxUserUseInWindow .exact (v.withValue x).virtualLimit) ↔
      (v.Limited → v.usedAfter units ≤ v.allowance) := by
  rw [usedRoundedDown_charged hw hx, maxUserUseInWindow_withValue, limited_withValue]

theorem accountLimitEx_exact (v : ResourceView) : ∃ arl, accountLimitEx .exact v true = .ok arl ∧
    arl.available = if v.Limited then (v.available : Int) else -1 := by
  unfold accountLimitEx
  by_cases hl : v.Limited
  · rw [if_neg (not_not.mpr hl), if_pos hl]
    by_cases hle : v.allowance ≤ v.usedRoundedUp .exact
    · simp only [maxUserUseInWindow_exact, if_true, if_pos hle, available, Nat.sub_eq_zero_of_le hle]
      exact ⟨_, rfl, rfl⟩
    · simp only [maxUserUseInWindow_exact, if_true, if_neg hle]
      exact ⟨_, rfl, rfl⟩
  · rw [if_pos hl, if_neg hl]
    exact ⟨_, rfl, rfl⟩

theorem usedAfter_zero : v.usedAfter 0 = v.usedRoundedDown .exact := by
  unfold usedAfter carried roundingGap
  rw [Nat.zero_mul, Nat.zero_mod, Nat.sub_zero, Nat.mod_self, Nat.zero_add]
  rfl

section Window

variable (hw : 0 < v.window) (hprecision : v.window ≤ rateLimitingPrecision)

include hw hprecision

theorem carried_le (units : Nat) : v.carried units ≤ v.usedRoundedUp .exact :=
  add_div_le_integerDivideCeil ((Nat.mod_lt _ hw).trans_le hprecision)

theorem usedAfter_mono {units' : Nat} (h : units ≤ units') :
    v.usedAfter units ≤ v.usedAfter units' := by
  have hdown : v.usedRoundedDown .exact ≤ v.carried units' :=
    Nat.div_le_div_right (Nat.le_add_right _ _)
  have hup : v.usedRoundedUp .exact ≤ v.usedRoundedDown .exact + 1 := by
    show _ + (if _ then 1 else 0) ≤ _
    split
    · exact le_rfl
    · exact Nat.le_succ _
  have hcarried := carried_le hw hprecision units
  rcases h.eq_or_lt with rfl | hlt
  · exact le_rfl
  · unfold usedAfter
    omega

/-- **The roundings agree**: what the limit check lets pass, billing lets pass, unless the account
was over its allowance before. -/
theorem usedAfter_le_allowance_iff : (∀ units ≤ v.available, v.usedAfter units ≤ v.allowance) ↔
    v.usedRoundedDown .exact ≤ v.allowance := by
  refine ⟨fun h => usedAfter_zero ▸ h 0 (Nat.zero_le _), fun h units hunits => ?_⟩
  have hcarried := carried_le hw hprecision units
  unfold available at hunits
  rcases Nat.eq_zero_or_pos units with rfl | hpos
  · rwa [usedAfter_zero]
  · unfold usedAfter
    omega

/-- Where billing has another guaranteed minimum, `least`, than the limit check. -/
theorem usedAfter_le_share_iff (least : Nat) :
    (∀ units ≤ v.available, v.usedAfter units ≤ v.share + least) ↔
      v.usedRoundedDown .exact ≤ v.share + least ∧ (v.usedRoundedUp .exact < v.allowance →
        v.guaranteed + v.carried v.available ≤ least + v.usedRoundedUp .exact) := by
  have hall : (∀ units ≤ v.available, v.usedAfter units ≤ v.share + least) ↔
      v.usedAfter v.available ≤ v.share + least :=
    ⟨fun h => h _ le_rfl, fun h units hunits => (usedAfter_mono hw hprecision hunits).trans h⟩
  have hdown : v.usedRoundedDown .exact ≤ v.usedAfter v.available :=
    usedAfter_zero ▸ usedAfter_mono hw hprecision (Nat.zero_le _)
  have hadd : v.allowance = v.share + v.guaranteed := rfl
  rw [hall]
  by_cases hlt : v.usedRoundedUp .exact < v.allowance
  · have hsum : v.available + v.usedRoundedUp .exact = v.allowance := Nat.sub_add_cancel hlt.le
    unfold usedAfter at hdown ⊢
    constructor
    · intro h
      exact ⟨hdown.trans h, fun _ => by omega⟩
    · rintro ⟨-, h⟩
      have := h hlt
      omega
  · have hzero : v.available = 0 := Nat.sub_eq_zero_of_le (not_lt.mp hlt)
    rw [hzero, usedAfter_zero]
    exact ⟨fun h => ⟨h, fun hlt' => absurd hlt' hlt⟩, And.left⟩

end Window

end ResourceView

/-! ## One account -/

section Account

variable {db db' : ResourceDb} {a b : AccountName} {n slot : Nat} {u : ResourceUsageObject}
  {cpuUsage netUsage : Nat}

/-- The average after `units` more in the slot of the last use. -/
def UsageAccumulator.charged (acc : UsageAccumulator) (units windowSize : Nat) : UsageAccumulator :=
  { acc with
    consumed := acc.consumed + units
    valueEx := acc.valueEx + integerDivideCeil (units * rateLimitingPrecision) windowSize }

theorem UsageAccumulator.add_exact {acc : UsageAccumulator} {ordinal : Nat}
    (h : acc.lastOrdinal = ordinal) (units windowSize : Nat) :
    acc.add .exact units ordinal windowSize = .ok (acc.charged units windowSize) := by
  have hcarry : acc.carryTo .exact ordinal windowSize = .ok acc := if_neg (not_not.mpr h)
  unfold add
  rw [hcarry]
  rfl

theorem UsageAccumulator.lastOrdinal_of_add {acc acc' : UsageAccumulator}
    {units ordinal windowSize : Nat} (h : acc.add ar units ordinal windowSize = .ok acc') :
    acc'.lastOrdinal = ordinal := by
  obtain ⟨-, h⟩ := assert_bind_eq_ok.mp h
  obtain ⟨-, h⟩ := assert_bind_eq_ok.mp h
  obtain ⟨contrib, -, h⟩ := bind_eq_ok.mp h
  obtain ⟨-, h⟩ := assert_bind_eq_ok.mp h
  obtain ⟨acc1, h1, h⟩ := bind_eq_ok.mp h
  cases h
  show acc1.lastOrdinal = ordinal
  unfold carryTo at h1
  by_cases hord : acc.lastOrdinal = ordinal
  · rw [if_neg (not_not.mpr hord)] at h1
    cases h1
    exact hord
  · rw [if_pos hord] at h1
    obtain ⟨-, h1⟩ := assert_bind_eq_ok.mp h1
    obtain ⟨x, -, h1⟩ := bind_eq_ok.mp h1
    cases h1
    rfl

theorem addUsage_eq_ok_iff : addUsage ar n cpuUsage netUsage slot db = .ok () db' ↔
      ∃ u net cpu, (n, u) ∈ db.usages.rows ∧
        u.netUsage.add ar netUsage slot db.config.accountNetUsageAverageWindow = .ok net ∧
        u.cpuUsage.add ar cpuUsage slot db.config.accountCpuUsageAverageWindow = .ok cpu ∧
        db' = (db.updateUsage n (.setNet net) (setNet_owner net)).updateUsage n (.setCpu cpu)
          (setCpu_owner cpu) := by
  unfold addUsage
  rw [bind_of_ok (show (get : ResourceM ResourceDb) db = .ok db db from rfl), bind_ok]
  constructor
  · rintro ⟨u, s, hu, h⟩
    obtain ⟨hu, rfl⟩ := deref_eq_ok_iff.mp hu
    obtain ⟨net, s, hnet, h⟩ := bind_ok.mp h
    obtain ⟨hnet, rfl⟩ := lift_ok.mp hnet
    rw [modify_bind] at h
    obtain ⟨cpu, s, hlift, h⟩ := bind_ok.mp h
    obtain ⟨hcpu, rfl⟩ := lift_ok.mp hlift
    cases h
    exact ⟨u, net, cpu, hu, hnet, hcpu, rfl⟩
  · rintro ⟨u, net, cpu, hu, hnet, hcpu, rfl⟩
    refine ⟨u, db, deref_eq_ok_iff.mpr ⟨hu, rfl⟩, ?_⟩
    rw [bind_of_ok (lift_of_ok hnet), modify_bind, bind_of_ok (lift_of_ok hcpu)]
    rfl

/-- What a step of billing leaves alone. -/
structure SameLimits (db db' : ResourceDb) : Prop where
  limits : db'.limits = db.limits
  state : db'.state = db.state
  config : db'.config = db.config
  gmr : db'.gmr = db.gmr

theorem SameLimits.weightsOf (h : SameLimits db db') (a : AccountName) :
    db'.weightsOf a = db.weightsOf a := by
  unfold ResourceDb.weightsOf
  rw [h.limits]

theorem SameLimits.views (h : SameLimits db db') (u : ResourceUsageObject) (w : Int) :
    cpuView db' u w = cpuView db u w ∧ netBillingView db' u w = netBillingView db u w := by
  unfold cpuView netBillingView netView
  rw [h.state, h.config, h.gmr]
  exact ⟨rfl, rfl⟩

/-- A usage object whose averages are of the slot, after more use in it. -/
def chargedUsage (db : ResourceDb) (u : ResourceUsageObject) (cpuUsage netUsage : Nat) :
    ResourceUsageObject :=
  (u.setNet (u.netUsage.charged netUsage db.config.accountNetUsageAverageWindow)).setCpu
    (u.cpuUsage.charged cpuUsage db.config.accountCpuUsageAverageWindow)

/-- In the slot of the averages, `addUsage` charges the account and nothing else. -/
theorem addUsage_exact (cpuUsage netUsage : Nat) (hu : db.usageOf a = some (n, u))
    (hnet : u.netUsage.lastOrdinal = slot) (hcpu : u.cpuUsage.lastOrdinal = slot) :
    ∃ db', addUsage .exact n cpuUsage netUsage slot db = .ok () db' ∧ SameLimits db db' ∧
      db'.usageOf a = some (n, chargedUsage db u cpuUsage netUsage) ∧
      ∀ b ≠ a, db'.usageOf b = db.usageOf b := by
  refine ⟨_, addUsage_eq_ok_iff.mpr ⟨u, _, _, mem_of_usageOf hu,
    UsageAccumulator.add_exact hnet netUsage _, UsageAccumulator.add_exact hcpu cpuUsage _, rfl⟩,
    ⟨rfl, rfl, rfl, rfl⟩, ?_, ?_⟩
  · rw [usageOf_updateUsage_self _ (usageOf_updateUsage_self _ hu)]
    rfl
  · intro b hb
    rw [usageOf_updateUsage_other _ (usageOf_updateUsage_self _ hu) hb,
      usageOf_updateUsage_other _ hu hb]

theorem checkUsage_eq_ok_iff {v : ResourceView} {type : ExceptionType} {what : String} :
    checkUsage ar v type what db = .ok () db' ↔
      (v.Limited → v.usedRoundedDown ar ≤ v.maxUserUseInWindow ar v.virtualLimit) ∧ db' = db := by
  unfold checkUsage
  by_cases hl : v.Limited
  · rw [if_pos hl]
    by_cases hle : v.usedRoundedDown ar ≤ v.maxUserUseInWindow ar v.virtualLimit
    · rw [require_of_pos hle]
      exact ⟨fun h => by cases h; exact ⟨fun _ => hle, rfl⟩, fun h => by rw [h.2]⟩
    · rw [require_of_neg hle]
      exact iff_of_false (by simp) fun h => hle (h.1 hl)
  · rw [if_neg hl]
    exact ⟨fun h => by cases h; exact ⟨fun hl' => absurd hl' hl, rfl⟩, fun h => by rw [h.2]; rfl⟩

theorem checkUsage_throws {v : ResourceView} {type : ExceptionType} {what : String} :
    Throws (·.type = type) (checkUsage ar v type what) db := by
  unfold checkUsage
  split
  · exact require_throws fun _ => rfl
  · exact .of_ok rfl

/-- The use an account is charged is within the allowances billing compares it with. -/
def Affords (db : ResourceDb) (cpuUsage netUsage : Nat) (a : AccountName) : Prop :=
  ∀ n u netWeight cpuWeight, db.usageOf a = some (n, u) →
    db.weightsOf a = some (netWeight, cpuWeight) →
    ((cpuView db u cpuWeight).Limited →
      (cpuView db u cpuWeight).usedAfter cpuUsage ≤ (cpuView db u cpuWeight).allowance) ∧
    ((netBillingView db u netWeight).Limited →
      (netBillingView db u netWeight).usedAfter netUsage ≤ (netBillingView db u netWeight).allowance)

/-- The windows are positive and have at most `rate_limiting_precision` slots. -/
structure WindowsFit (db : ResourceDb) : Prop where
  cpu_pos : 0 < db.config.accountCpuUsageAverageWindow
  cpu_le : db.config.accountCpuUsageAverageWindow ≤ rateLimitingPrecision
  net_pos : 0 < db.config.accountNetUsageAverageWindow
  net_le : db.config.accountNetUsageAverageWindow ≤ rateLimitingPrecision

/-- The account has limits, and averages of the slot. -/
def Current (db : ResourceDb) (slot : Nat) (a : AccountName) : Prop :=
  ∃ n u w, db.usageOf a = some (n, u) ∧ db.weightsOf a = some w ∧
    u.netUsage.lastOrdinal = slot ∧ u.cpuUsage.lastOrdinal = slot

theorem get_usageOf (hu : db.usageOf a = some (n, u)) :
    usagesTable.get (fun u => u.owner = a) db = .ok (n, u) db :=
  get_eq_ok_iff.mpr ⟨hu, rfl⟩

/-- In the slot of its averages, an account is charged and then checked. -/
theorem billAccount_eq (cpuUsage netUsage : Nat) {netWeight cpuWeight : Int}
    (hu : db.usageOf a = some (n, u)) (hweights : db.weightsOf a = some (netWeight, cpuWeight))
    (hnet : u.netUsage.lastOrdinal = slot) (hcpu : u.cpuUsage.lastOrdinal = slot) :
    ∃ db1, SameLimits db db1 ∧ (∀ b ≠ a, db1.usageOf b = db.usageOf b) ∧
      billAccount .exact cpuUsage netUsage slot a db =
        (do
          checkUsage .exact (cpuView db (chargedUsage db u cpuUsage netUsage) cpuWeight)
            .txCpuUsageExceeded
            "authorizing account '${n}' has insufficient cpu resources for this transaction"
          checkUsage .exact (netBillingView db (chargedUsage db u cpuUsage netUsage) netWeight)
            .txNetUsageExceeded
            "authorizing account '${n}' has insufficient net resources for this transaction") db1 := by
  obtain ⟨db1, hadd, hsame, hself, hother⟩ := addUsage_exact cpuUsage netUsage hu hnet hcpu
  refine ⟨db1, hsame, hother, ?_⟩
  have hderef : usagesTable.deref n db1 = .ok (chargedUsage db u cpuUsage netUsage) db1 :=
    deref_eq_ok_iff.mpr ⟨mem_of_usageOf hself, rfl⟩
  have hviews := hsame.views (chargedUsage db u cpuUsage netUsage)
  unfold billAccount
  rw [bind_of_ok (get_usageOf hu)]
  show ((getAccountLimits a >>= _ : ResourceM Unit) db) = _
  rw [bind_of_ok (getAccountLimits_eq_ok_iff.mpr ⟨hweights, rfl⟩)]
  show ((addUsage .exact n cpuUsage netUsage slot >>= _ : ResourceM Unit) db) = _
  rw [bind_of_ok hadd, bind_of_ok hderef,
    bind_of_ok (show (get : ResourceM ResourceDb) db1 = .ok db1 db1 from rfl),
    (hviews cpuWeight).1, (hviews netWeight).2]

theorem forall_found_iff {netWeight cpuWeight : Int} {P : ResourceUsageObject → Int → Int → Prop}
    (hu : db.usageOf a = some (n, u)) (hweights : db.weightsOf a = some (netWeight, cpuWeight)) :
    (∀ n u netWeight cpuWeight, db.usageOf a = some (n, u) →
      db.weightsOf a = some (netWeight, cpuWeight) → P u netWeight cpuWeight) ↔
        P u netWeight cpuWeight := by
  refine ⟨fun h => h n u netWeight cpuWeight hu hweights, fun h n' u' net' cpu' hu' hweights' => ?_⟩
  obtain ⟨-, rfl⟩ := Prod.mk.inj (Option.some.inj (hu.symm.trans hu'))
  obtain ⟨rfl, rfl⟩ := Prod.mk.inj (Option.some.inj (hweights.symm.trans hweights'))
  exact h

/-- **One account is billed** iff it affords the use; the others' usage stays. -/
theorem billAccount_ok_iff (cpuUsage netUsage : Nat) (hw : WindowsFit db)
    (hcur : Current db slot a) :
    ((∃ db', billAccount .exact cpuUsage netUsage slot a db = .ok () db') ↔
      Affords db cpuUsage netUsage a) ∧
    (∀ db', billAccount .exact cpuUsage netUsage slot a db = .ok () db' →
      SameLimits db db' ∧ ∀ b ≠ a, db'.usageOf b = db.usageOf b) ∧
    Throws (·.type ≠ .blockResourceExhausted) (billAccount .exact cpuUsage netUsage slot a) db := by
  obtain ⟨n, u, ⟨netWeight, cpuWeight⟩, hu, hweights, hnet, hcpu⟩ := hcur
  obtain ⟨db1, hsame, hother, hrun⟩ := billAccount_eq cpuUsage netUsage hu hweights hnet hcpu
  refine ⟨?_, fun db' h => ?_, ?_⟩
  · rw [Affords, forall_found_iff hu hweights, ← ResourceView.check_charged hw.cpu_pos rfl,
      ← ResourceView.check_charged hw.net_pos rfl, hrun]
    constructor
    · rintro ⟨db', h⟩
      obtain ⟨_, s, hc, hn⟩ := bind_ok.mp h
      exact ⟨(checkUsage_eq_ok_iff.mp hc).1, (checkUsage_eq_ok_iff.mp hn).1⟩
    · rintro ⟨hc, hn⟩
      exact ⟨db1, bind_ok.mpr
        ⟨(), db1, checkUsage_eq_ok_iff.mpr ⟨hc, rfl⟩, checkUsage_eq_ok_iff.mpr ⟨hn, rfl⟩⟩⟩
  · rw [hrun] at h
    obtain ⟨_, s, hc, hn⟩ := bind_ok.mp h
    obtain ⟨-, rfl⟩ := checkUsage_eq_ok_iff.mp hc
    obtain ⟨-, rfl⟩ := checkUsage_eq_ok_iff.mp hn
    exact ⟨hsame, hother⟩
  · unfold Throws
    rw [hrun]
    refine Throws.bind (fun e s he => ?_) fun _ _ _ e s he => ?_
    · exact checkUsage_throws he ▸ by decide
    · exact checkUsage_throws he ▸ by decide

end Account

/-! ## All accounts -/

section Accounts

variable {db db' : ResourceDb} {a b : AccountName} {slot cpuUsage netUsage : Nat}

/-- The account has averages, of the slot. -/
def AtSlot (db : ResourceDb) (slot : Nat) (a : AccountName) : Prop :=
  ∃ n u, db.usageOf a = some (n, u) ∧ u.netUsage.lastOrdinal = slot ∧ u.cpuUsage.lastOrdinal = slot

/-- Bringing the averages of `a` to the slot leaves those that are there. -/
theorem addUsage_atSlot {n : Nat} {u : ResourceUsageObject} (hu : db.usageOf a = some (n, u))
    (h : addUsage ar n cpuUsage netUsage slot db = .ok () db') :
    AtSlot db' slot a ∧ ∀ b, AtSlot db slot b → AtSlot db' slot b := by
  obtain ⟨u', net, cpu, hu', hnet, hcpu, rfl⟩ := addUsage_eq_ok_iff.mp h
  have hself : AtSlot ((db.updateUsage n (.setNet net) (setNet_owner net)).updateUsage n
      (.setCpu cpu) (setCpu_owner cpu)) slot a :=
    ⟨n, _, usageOf_updateUsage_self _ (usageOf_updateUsage_self _ hu),
      UsageAccumulator.lastOrdinal_of_add hnet, UsageAccumulator.lastOrdinal_of_add hcpu⟩
  refine ⟨hself, fun b hb => ?_⟩
  by_cases hba : b = a
  · rw [hba]
    exact hself
  · obtain ⟨m, w, hw, hslots⟩ := hb
    refine ⟨m, w, ?_, hslots⟩
    rw [usageOf_updateUsage_other _ (usageOf_updateUsage_self _ hu) hba,
      usageOf_updateUsage_other _ hu hba, hw]

theorem updateAccountUsage_atSlot {ar : Arith} : ∀ (accounts : List AccountName) (db : ResourceDb),
      updateAccountUsage ar slot accounts db = .ok () db' →
      (∀ a ∈ accounts, AtSlot db' slot a) ∧ ∀ b, AtSlot db slot b → AtSlot db' slot b
  | [], db, h => by
    cases h
    exact ⟨by simp, fun _ => id⟩
  | a :: accounts, db, h => by
    obtain ⟨⟨n, u⟩, hu, h⟩ := get_bind_ok.mp h
    obtain ⟨_, db1, hadd, h⟩ := bind_ok.mp h
    obtain ⟨hself, hkeep⟩ := addUsage_atSlot hu hadd
    obtain ⟨hrest, hkeep'⟩ := updateAccountUsage_atSlot accounts db1 h
    refine ⟨fun b hb => ?_, fun b hb => hkeep' b (hkeep b hb)⟩
    rcases mem_cons.mp hb with rfl | hb
    · exact hkeep' b hself
    · exact hrest b hb

theorem SameLimits.current (h : SameLimits db db') (hu : db'.usageOf b = db.usageOf b)
    (hcur : Current db slot b) : Current db' slot b := by
  obtain ⟨n, u, w, hu', hw, hslots⟩ := hcur
  exact ⟨n, u, w, hu.trans hu', (h.weightsOf b).trans hw, hslots⟩

theorem SameLimits.affords_iff (h : SameLimits db db') (hu : db'.usageOf b = db.usageOf b) :
    Affords db' cpuUsage netUsage b ↔ Affords db cpuUsage netUsage b := by
  unfold Affords
  simp only [hu, h.weightsOf b, (h.views _ _).1, (h.views _ _).2]

theorem SameLimits.windowsFit (h : SameLimits db db') (hw : WindowsFit db) : WindowsFit db' := by
  obtain ⟨h1, h2, h3, h4⟩ := hw
  rw [← h.config] at h1 h2 h3 h4
  exact ⟨h1, h2, h3, h4⟩

/-- The loop bills distinct accounts iff each affords the use, and does not stop at the limits of the
block. -/
theorem billAccounts_spec :
    ∀ (accounts : List AccountName) (db : ResourceDb), accounts.Nodup → WindowsFit db →
      (∀ a ∈ accounts, Current db slot a) →
      ((∃ db', billAccounts .exact cpuUsage netUsage slot accounts db = .ok () db') ↔
        ∀ a ∈ accounts, Affords db cpuUsage netUsage a) ∧
      Throws (·.type ≠ .blockResourceExhausted)
        (billAccounts .exact cpuUsage netUsage slot accounts) db
  | [], db, _, _, _ => ⟨iff_of_true ⟨db, rfl⟩ (by simp), .of_ok rfl⟩
  | a :: accounts, db, hnodup, hw, hcur => by
    obtain ⟨hnot, hnodup⟩ := nodup_cons.mp hnodup
    obtain ⟨hone, hframe, hthrows⟩ :=
      billAccount_ok_iff cpuUsage netUsage hw (hcur a mem_cons_self)
    -- what billing `a` leaves of the others
    have hrest : ∀ db1, billAccount .exact cpuUsage netUsage slot a db = .ok () db1 →
        ((∃ db', billAccounts .exact cpuUsage netUsage slot accounts db1 = .ok () db') ↔
          ∀ b ∈ accounts, Affords db cpuUsage netUsage b) ∧
        Throws (·.type ≠ .blockResourceExhausted)
          (billAccounts .exact cpuUsage netUsage slot accounts) db1 := by
      intro db1 h
      obtain ⟨hsame, hother⟩ := hframe db1 h
      have hb : ∀ b ∈ accounts, db1.usageOf b = db.usageOf b :=
        fun b hb => hother b fun hba => hnot (hba ▸ hb)
      obtain ⟨hiff, hstops⟩ := billAccounts_spec accounts db1 hnodup (hsame.windowsFit hw)
        fun b hmem => hsame.current (hb b hmem) (hcur b (mem_cons_of_mem a hmem))
      exact ⟨hiff.trans (forall₂_congr fun b hmem => hsame.affords_iff (hb b hmem)), hstops⟩
    refine ⟨?_, .bind hthrows fun _ db1 h => (hrest db1 h).2⟩
    rw [forall_mem_cons, ← hone]
    constructor
    · rintro ⟨db', h⟩
      obtain ⟨_, db1, h1, h2⟩ := bind_ok.mp h
      exact ⟨⟨db1, h1⟩, (hrest db1 h1).1.mp ⟨db', h2⟩⟩
    · rintro ⟨⟨db1, h1⟩, h⟩
      obtain ⟨db', h2⟩ := (hrest db1 h1).1.mpr h
      exact ⟨db', bind_ok.mpr ⟨(), db1, h1, h2⟩⟩

/-- **No account is refused**: `add_transaction_usage` stops only at the limits of the block. -/
def NoneRefused (db : ResourceDb) (accounts : List AccountName) (cpuUsage netUsage slot : Nat) :
    Prop :=
  Throws (·.type = .blockResourceExhausted)
    (addTransactionUsage .exact accounts cpuUsage netUsage slot) db

theorem noneRefused_iff {accounts : List AccountName} (hnodup : accounts.Nodup) (hw : WindowsFit db)
    (hcur : ∀ a ∈ accounts, Current db slot a) :
    NoneRefused db accounts cpuUsage netUsage slot ↔ ∀ a ∈ accounts,
      Affords db cpuUsage netUsage a := by
  obtain ⟨hiff, hthrows⟩ := billAccounts_spec accounts db hnodup hw hcur
  rw [← hiff]
  unfold NoneRefused addTransactionUsage
  cases hrun : billAccounts .exact cpuUsage netUsage slot accounts db with
  | ok _ db1 =>
    refine iff_of_true (.bind (.of_ok hrun) fun _ _ _ => ?_) ⟨db1, rfl⟩
    exact .bind (.of_ok rfl) fun _ _ _ => .get_bind
      (.bind (require_throws fun _ => rfl) fun _ _ _ => require_throws fun _ => rfl)
  | error e s =>
    refine iff_of_false (fun h => ?_) (by simp)
    exact hthrows hrun (h (bind_of_error hrun))

/-- The limits of the account let the use pass. -/
def PassesLimits (db : ResourceDb) (cpuUsage netUsage : Nat) (a : AccountName) : Prop :=
  (∃ l, getAccountCpuLimit .exact a true db = .ok l db ∧ (l = -1 ∨ (cpuUsage : Int) ≤ l)) ∧
    ∃ l, getAccountNetLimit .exact a true db = .ok l db ∧ (l = -1 ∨ (netUsage : Int) ≤ l)

/-- The account is not over what billing allows it, and as long as some net is left to it, the
guaranteed minimum of net is at most that of cpu, up to what is lost in rounding. -/
def LimitsAgree (db : ResourceDb) (a : AccountName) : Prop :=
  ∀ n u netWeight cpuWeight, db.usageOf a = some (n, u) →
    db.weightsOf a = some (netWeight, cpuWeight) →
    ((cpuView db u cpuWeight).Limited →
      (cpuView db u cpuWeight).usedRoundedDown .exact ≤ (cpuView db u cpuWeight).allowance) ∧
    ((netView db u netWeight).Limited →
      (netView db u netWeight).usedRoundedDown .exact ≤
          (netView db u netWeight).share + db.gmr.cpuUs ∧
        ((netView db u netWeight).usedRoundedUp .exact < (netView db u netWeight).allowance →
          db.gmr.netByte + (netView db u netWeight).carried (netView db u netWeight).available ≤
            db.gmr.cpuUs + (netView db u netWeight).usedRoundedUp .exact))

section Limits

variable {n : Nat} {u : ResourceUsageObject} {netWeight cpuWeight : Int}
variable (hu : db.usageOf a = some (n, u)) (hweights : db.weightsOf a = some (netWeight, cpuWeight))

include hu hweights

/-- `get_account_cpu_limit` and `get_account_net_limit` differ in the view. -/
theorem getAccountLimit_exact (view : ResourceDb → ResourceUsageObject → Int × Int → ResourceView) :
    (do
      let (_, usage) ← usagesTable.get fun u => u.owner = a
      let weights ← getAccountLimits a
      let arl ← lift (accountLimitEx .exact (view (← get) usage weights) true)
      return arl.available : ResourceM Int) db =
    .ok (if (view db u (netWeight, cpuWeight)).Limited then
      ((view db u (netWeight, cpuWeight)).available : Int) else -1) db := by
  obtain ⟨arl, harl, havailable⟩ :=
    ResourceView.accountLimitEx_exact (view db u (netWeight, cpuWeight))
  rw [bind_of_ok (get_usageOf hu)]
  show ((getAccountLimits a >>= _ : ResourceM Int) db) = _
  rw [bind_of_ok (getAccountLimits_eq_ok_iff.mpr ⟨hweights, rfl⟩), ← havailable]
  exact bind_of_ok (lift_of_ok harl)

theorem passesLimits_iff : PassesLimits db cpuUsage netUsage a ↔
    ((cpuView db u cpuWeight).Limited → cpuUsage ≤ (cpuView db u cpuWeight).available) ∧
      ((netView db u netWeight).Limited → netUsage ≤ (netView db u netWeight).available) := by
  have hlimit : ∀ {r : EStateM.Result FcException ResourceDb Int} {v : ResourceView} {units : Nat},
      r = .ok (if v.Limited then (v.available : Int) else -1) db →
      ((∃ l, r = .ok l db ∧ (l = -1 ∨ (units : Int) ≤ l)) ↔ (v.Limited → units ≤ v.available)) := by
    rintro r v units rfl
    by_cases hl : v.Limited
    · simp [hl]
    · simp [hl]
  exact and_congr (hlimit (getAccountLimit_exact hu hweights fun db u w => cpuView db u w.2))
    (hlimit (getAccountLimit_exact hu hweights fun db u w => netView db u w.1))

/-- The use of an account that passes the limits is affordable iff the state lets it. -/
theorem forall_affords_iff (hw : WindowsFit db) :
    (∀ cpuUsage netUsage, PassesLimits db cpuUsage netUsage a → Affords db cpuUsage netUsage a) ↔
      LimitsAgree db a := by
  have hcpu := ResourceView.usedAfter_le_allowance_iff (v := cpuView db u cpuWeight) hw.cpu_pos
    hw.cpu_le
  have hnet := ResourceView.usedAfter_le_share_iff (v := netView db u netWeight) hw.net_pos hw.net_le
    db.gmr.cpuUs
  simp only [passesLimits_iff hu hweights, Affords, LimitsAgree, forall_found_iff hu hweights]
  constructor
  · intro h
    refine ⟨fun hl => hcpu.mp fun c hc => ?_, fun hl => hnet.mp fun v hv => ?_⟩
    · exact (h c 0 ⟨fun _ => hc, fun _ => Nat.zero_le _⟩).1 hl
    · exact (h 0 v ⟨fun _ => Nat.zero_le _, fun _ => hv⟩).2 hl
  · rintro ⟨hc, hn⟩ c v ⟨hcle, hvle⟩
    exact ⟨fun hl => hcpu.mpr (hc hl) c (hcle hl), fun hl => hnet.mpr (hn hl) v (hvle hl)⟩

end Limits

/-- **Billing after the limit check**: for accounts that have limits and whose averages were brought
to the slot, every use that passes the limits of the billed ones is billed iff the state of every
account lets it. -/
theorem limitsAgree_iff {db0 db : ResourceDb} {accounts : List AccountName} {slot : Nat}
    (hw : WindowsFit db) (hupdate : updateAccountUsage .exact slot accounts db0 = .ok () db)
    (hlimits : ∀ a ∈ accounts, db.weightsOf a ≠ none) :
    (∀ billed ⊆ accounts, billed.Nodup → ∀ cpuUsage netUsage,
      (∀ a ∈ billed, PassesLimits db cpuUsage netUsage a) →
        NoneRefused db billed cpuUsage netUsage slot) ↔ ∀ a ∈ accounts, LimitsAgree db a := by
  have hcur : ∀ a ∈ accounts, Current db slot a := by
    intro a ha
    obtain ⟨n, u, hu, hslots⟩ := (updateAccountUsage_atSlot accounts db0 hupdate).1 a ha
    obtain ⟨w, hweights⟩ := Option.ne_none_iff_exists'.mp (hlimits a ha)
    exact ⟨n, u, w, hu, hweights, hslots⟩
  have hone : ∀ a ∈ accounts, (∀ cpuUsage netUsage, PassesLimits db cpuUsage netUsage a →
      Affords db cpuUsage netUsage a) ↔ LimitsAgree db a := by
    intro a ha
    obtain ⟨n, u, w, hu, hweights, -⟩ := hcur a ha
    exact forall_affords_iff hu hweights hw
  constructor
  · refine fun h a ha => (hone a ha).mp fun cpuUsage netUsage hpass => ?_
    have hcur' : ∀ b ∈ [a], Current db slot b := fun b hb => mem_singleton.mp hb ▸ hcur a ha
    have hnone := h [a] (by simpa using ha) (nodup_singleton a) cpuUsage netUsage (by simpa using hpass)
    exact (noneRefused_iff (nodup_singleton a) hw hcur').mp hnone a (mem_singleton_self a)
  · intro h billed hsub hnodup cpuUsage netUsage hpass
    refine (noneRefused_iff hnodup hw fun a ha => hcur a (hsub ha)).mpr fun a ha => ?_
    exact (hone a (hsub ha)).mpr (h a (hsub ha)) cpuUsage netUsage (hpass a ha)

end Accounts

/-! ## Two accounts that cannot pay what they may use -/

/-- Two accounts with equal weights in a chain whose virtual limits are used up, so that each has
the guaranteed minimum: 1 of cpu and 1000 of net. The second has used 10 of cpu. -/
def minimumDb : ResourceDb where
  limits := .ofObjects [{ owner := 1, netWeight := 1, cpuWeight := 1 },
    { owner := 2, netWeight := 1, cpuWeight := 1 }]
  usages := .ofObjects [{ owner := 1 },
    { owner := 2, cpuUsage := { valueEx := 1000000, lastOrdinal := 5 } }]
  state := { totalNetWeight := 2, totalCpuWeight := 2 }
  config := ⟨1000, 1000, 10, 10⟩
  gmr := ⟨0, 1, 1000⟩

/-- The database once the averages are of slot 5. -/
def minimumDbAt5 : ResourceDb := stateOf (updateAccountUsage .exact 5 [1, 2] minimumDb)

/-- With equal minima, account 1 is billed every use that passes its limits. -/
theorem limitsAgree_iff_equal :
    let db := stateOf (updateAccountUsage .exact 5 [1] { minimumDb with gmr := ⟨0, 9, 9⟩ })
    LimitsAgree db 1 ∧ ∀ billed ⊆ [1], billed.Nodup → ∀ cpuUsage netUsage,
      (∀ a ∈ billed, PassesLimits db cpuUsage netUsage a) →
        NoneRefused db billed cpuUsage netUsage 5 := by
  intro db
  have hagree : LimitsAgree db 1 := by
    refine (forall_found_iff (n := 0) (u := ⟨1, ⟨5, 0, 0⟩, ⟨5, 0, 0⟩, 0⟩) rfl
      (show db.weightsOf 1 = some (1, 1) from rfl)).mpr ?_
    exact ⟨fun _ => by decide, fun _ => ⟨by decide, fun _ => by decide⟩⟩
  refine ⟨hagree, (limitsAgree_iff ⟨by decide, by decide, by decide, by decide⟩
    (show updateAccountUsage .exact 5 [1] { minimumDb with gmr := ⟨0, 9, 9⟩ } = .ok () db from rfl)
    (by decide)).mpr fun a ha => ?_⟩
  rw [mem_singleton.mp ha]
  exact hagree

/-- **Billing fails after the limit check**, twice. Account 1 may use 1000 of net, and is refused
500, because billing has the guaranteed minimum of cpu for net. Account 2 is over its cpu allowance,
so it may use 0, and is refused 0. -/
theorem addTransactionUsage_refused :
    (outcome (getAccountNetLimit .exact 1 true minimumDbAt5) = .ok 1000 ∧
      outcome (getAccountCpuLimit .exact 1 true minimumDbAt5) = .ok 1 ∧
      (thrown (addTransactionUsage .exact [1] 1 500 5 minimumDbAt5)).map (·.type) =
        some .txNetUsageExceeded) ∧
    (outcome (getAccountNetLimit .exact 2 true minimumDbAt5) = .ok 1000 ∧
      outcome (getAccountCpuLimit .exact 2 true minimumDbAt5) = .ok 0 ∧
      (thrown (addTransactionUsage .exact [2] 0 0 5 minimumDbAt5)).map (·.type) =
        some .txCpuUsageExceeded) := by
  refine ⟨⟨?_, ?_, ?_⟩, ?_, ?_, ?_⟩ <;> rfl

end Forceio.Chain
