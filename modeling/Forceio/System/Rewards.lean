import Forceio.Chain.Name
import Forceio.Eosiolib.Asset
import Forceio.Lib.KeyedTable
import Forceio.Lib.Rollback

/-!
# Block rewards (`force.system/producer.cpp`, `onblock`)

A cycle ends when a producer has made its blocks, or when the schedule changes. The tokens of the
cycle are issued, and the share of the producers goes to `reward_block`. The share of the miners goes
to `rewardmine` once a day, for all the blocks of the day.

* `Build` holds the constants of the two builds. `contract_config.hpp.in` defines
  `BEFORE_ONLINE_TEST`.
* The tables that only other functions write are `Others`, and what those functions do to them is any
  function. Sums of what is issued and passed on are kept beside the tables.
* Block numbers are read modulo `2 ^ 32`, as their differences are.
* `update_reward_stable` and the row for the new cycle are written through other table objects, so
  that `reward` still points to the old rate on the stable day, and to the list without the new block.

Results:
* `rewards_le_issued`: as long as no day ends, not more is passed on than is issued.
* `rewards_exceed`: the end of a day passes on more, since the rate is raised before the share of the
  miners is computed.
-/

namespace Forceio.System

open Forceio.Lib Forceio.Eosiolib Rollback
open Forceio.Chain (AccountName)

/-! ## Tables -/

/-- The constants of a build. -/
structure Build where
  numOfTopBps : Nat
  cyclePrebpBlock : Nat
  cyclePreday : Nat
  stableDay : Nat
  preBlockRewards : Int
  stableBlockRewards : Int
  rate_fits : 0 ≤ preBlockRewards ∧ preBlockRewards < 2 ^ 21

/-- The build with `BEFORE_ONLINE_TEST`. -/
def Build.beforeOnlineTest (numOfTopBps : Nat) : Build :=
  ⟨numOfTopBps, 3, 5, 10, 586000, 1260000, by decide⟩

/-- The build without it. -/
def Build.online (numOfTopBps : Nat) : Build :=
  ⟨numOfTopBps, 15, 275, 60, 1430000, 6300000, by decide⟩

/-- `UPDATE_CYCLE`. -/
def Build.updateCycle (build : Build) : Int := build.cyclePrebpBlock * build.numOfTopBps

/-- `schedule_info`. -/
structure ScheduleInfo where
  version : Nat
  producers : List (AccountName × Nat)

instance : Keyed ScheduleInfo Nat := ⟨ScheduleInfo.version⟩

/-- `reward_info`. -/
structure RewardInfo where
  cycleReward : Int
  gradient : Int
  totalRewardTime : Nat := 0
  lastRewardBlockNum : Nat := 0
  rewardBlockNum : List Nat := [0]

/-- The row of `init_reward_info`. -/
def RewardInfo.init (build : Build) : RewardInfo := ⟨build.preBlockRewards, 10250, 0, 0, [0]⟩

/-- What other functions do to the tables that only they write. -/
structure Others (σ : Type) where
  /-- `last_block_amount` of a registered producer. -/
  lastBlockAmount : σ → AccountName → Option Nat
  rewardBlock : ScheduleInfo → Int → Bool → σ → Except ContractError σ
  /-- `settlebpvote`, `settlemine`, `rewardmine` and `activemine`. -/
  rewardmine : Int → σ → Except ContractError σ
  updateElectedBps : σ → Except ContractError σ
  resetBlockWeight : List AccountName → σ → Except ContractError σ

/-- The tables, and the sums of the amounts issued and passed to `reward_block` and `rewardmine`. -/
structure World (σ : Type) where
  others : σ
  schedules : KeyedTable ScheduleInfo := .empty
  reward : Option RewardInfo := none
  issued : Int := 0
  toProducers : Int := 0
  toMiners : Int := 0

/-- The arguments of `onblock` and what it asks the chain. -/
structure Block where
  num : Nat
  bpname : AccountName
  scheduleVersion : Nat
  activeProducers : List AccountName

variable {σ : Type}

/-! ## `onblock` -/

/-- Whether a cycle ends. -/
def rewardDue (build : Build) (o : Others σ) (b : Block) (w : World σ) : Except ContractError Bool :=
  match w.schedules.find? b.scheduleVersion with
  | none => .ok (b.scheduleVersion ≠ 0)
  | some sch =>
    match o.lastBlockAmount w.others b.bpname with
    | none => .error (.assert "bpname is not registered")
    | some last =>
      let amount := (sch.producers.find? fun p => p.1 = b.bpname).elim 0 Prod.snd
      .ok (uint32 (amount - last) = build.cyclePrebpBlock)

/-- The row that is stored at the end of a cycle before the cycle is recorded, the row that `reward`
points to, and whether a day ends. -/
def RewardInfo.nextRate (build : Build) (r : RewardInfo) : RewardInfo × RewardInfo × Bool :=
  let raised := { r with cycleReward := (int64 (r.cycleReward * r.gradient)).tdiv 10000 }
  if r.totalRewardTime + 1 = build.cyclePreday * build.stableDay then
    ({ r with cycleReward := build.stableBlockRewards, gradient := 10010 }, r, true)
  else if (r.totalRewardTime + 1) % build.cyclePreday = 0 then (raised, raised, true)
  else (r, r, false)

/-- The row with one more cycle. -/
def RewardInfo.record (r : RewardInfo) (num : Nat) : RewardInfo :=
  let nums := r.rewardBlockNum ++ [num]
  { r with
    totalRewardTime := r.totalRewardTime + 1
    lastRewardBlockNum := num
    rewardBlockNum := if 2000 < nums.length then nums.drop 1000 else nums }

/-- The tokens for some blocks. -/
def RewardInfo.rewardsOf (build : Build) (r : RewardInfo) (blocks : Nat) : Except ContractError Int :=
  int64Div (int64 (r.cycleReward * blocks)) build.updateCycle

/-- The share of the miners, for the blocks of the day. -/
def payMiners (build : Build) (o : Others σ) (b : Block) (reward : RewardInfo) (w : World σ) :
    Except ContractError (World σ) :=
  match reward.rewardBlockNum[reward.rewardBlockNum.length - build.cyclePreday]? with
  | none => .error .trap
  | some first => do
    let ofDay ← reward.rewardsOf build (uint32 (b.num - first))
    let toMiners := (int64 (ofDay * 9700)).tdiv 10000
    let others ← o.rewardmine toMiners w.others
    return { w with others := others, toMiners := w.toMiners + toMiners }

/-- The end of a cycle. -/
def endCycle (build : Build) (o : Others σ) (b : Block) (forceChange : Bool) (w : World σ) :
    Except ContractError (World σ) := do
  let reward := w.reward.getD (.init build)
  let blockRewards ← reward.rewardsOf build (uint32 (b.num - reward.lastRewardBlockNum))
  let (stored, reward, rewardUpdate) := reward.nextRate build
  eosioAssert (Asset.isAmountWithinRange ⟨blockRewards, ⟨4, 0⟩⟩)
    "magnitude of asset amount must be less than 2^62"
  match w.schedules.find? (if forceChange then uint32 (b.scheduleVersion - 1) else b.scheduleVersion) with
  | none => .error (.assert "cannot find schedule")
  | some sch =>
    let toProducers := (int64 (blockRewards * 300)).tdiv 10000
    let others ← o.rewardBlock sch toProducers forceChange w.others
    let w := { w with
      others := others
      reward := some (stored.record b.num)
      issued := w.issued + blockRewards
      toProducers := w.toProducers + toProducers }
    let w ← (if rewardUpdate then payMiners build o b reward else pure) w
    let others ← (if forceChange then pure else o.updateElectedBps) w.others
    return { w with others := others }

/-- One more block of a producer. -/
def addBlock (bpname : AccountName) : List (AccountName × Nat) → List (AccountName × Nat)
  | [] => []
  | p :: ps => if p.1 = bpname then (p.1, p.2 + 1) :: ps else p :: addBlock bpname ps

/-- `onblock`. -/
def onblock (build : Build) (o : Others σ) (b : Block) (w : World σ) :
    Except ContractError (World σ) := do
  let sch := w.schedules.find? b.scheduleVersion
  let due ← rewardDue build o b w
  let w ← (if due then endCycle build o b sch.isNone else pure) w
  match sch with
  | none =>
    let producers := b.activeProducers.map fun p => (p, if p = b.bpname then 1 else 0)
    let others ← o.resetBlockWeight b.activeProducers w.others
    return { w with
      others := others
      schedules := w.schedules.insert ⟨b.scheduleVersion, producers⟩ }
  | some sch =>
    return { w with
      schedules := w.schedules.put { sch with producers := addBlock b.bpname sch.producers } }

/-! ## Issued and passed on -/

/-- A cycle that ends is not the last one of a day. -/
def NoDayEnds (build : Build) (o : Others σ) (w : World σ) (b : Block) : Prop :=
  rewardDue build o b w = .ok true →
    ((w.reward.getD (.init build)).totalRewardTime + 1) % build.cyclePreday ≠ 0

instance (build : Build) (o : Others σ) (w : World σ) (b : Block) :
    Decidable (NoDayEnds build o w b) :=
  inferInstanceAs (Decidable (_ → _))

/-- The rate is the first one, and not more is passed on than is issued. -/
structure Covered (build : Build) (w : World σ) : Prop where
  rate : (w.reward.getD (.init build)).cycleReward = build.preBlockRewards
  covered : w.toProducers + w.toMiners ≤ w.issued

theorem rewardsOf_bounds {build : Build} {r : RewardInfo} {x : Int} {n : Nat} (hn : n < 2 ^ 32)
    (hrate : r.cycleReward = build.preBlockRewards) (h : r.rewardsOf build n = .ok x) :
    0 ≤ x ∧ x < 2 ^ 53 := by
  obtain ⟨hnonneg, hsmall⟩ := build.rate_fits
  rw [← hrate] at hnonneg hsmall
  have hpos : 0 ≤ r.cycleReward * n := Int.mul_nonneg hnonneg (Int.natCast_nonneg n)
  have hlt : r.cycleReward * n < 2 ^ 21 * 2 ^ 32 := by
    have hn : (n : Int) < 2 ^ 32 := by omega
    exact mul_lt_mul'' hsmall hn hnonneg (Int.natCast_nonneg n)
  unfold RewardInfo.rewardsOf int64Div at h
  rw [int64_of_range (by omega) (by omega)] at h
  split at h
  · simp at h
  · rw [← Except.ok.inj h, Int.tdiv_eq_ediv_of_nonneg hpos]
    have hcycle : 0 ≤ build.updateCycle :=
      Int.mul_nonneg (Int.natCast_nonneg _) (Int.natCast_nonneg _)
    have hle := Int.ediv_le_self build.updateCycle hpos
    exact ⟨Int.ediv_nonneg hpos hcycle, by omega⟩

theorem share_le {x : Int} (hpos : 0 ≤ x) (hsmall : x < 2 ^ 53) :
    (int64 (x * 300)).tdiv 10000 ≤ x := by
  rw [int64_of_range (by omega) (by omega), Int.tdiv_eq_ediv_of_nonneg (by omega)]
  omega

/-- **A cycle** within a day: a share of what is issued is passed on. -/
theorem Covered.endCycle {build : Build} {o : Others σ} {b : Block} {force : Bool} {w w' : World σ}
    (h : Covered build w)
    (hday : ((w.reward.getD (.init build)).totalRewardTime + 1) % build.cyclePreday ≠ 0)
    (hrun : endCycle build o b force w = .ok w') : Covered build w' := by
  obtain ⟨x, hx, hrun⟩ := bind_eq_ok.mp hrun
  obtain ⟨hpos, hsmall⟩ := rewardsOf_bounds (uint32_lt _) h.rate hx
  have hnext : (w.reward.getD (.init build)).nextRate build =
      (w.reward.getD (.init build), w.reward.getD (.init build), false) := by
    unfold RewardInfo.nextRate
    rw [if_neg, if_neg hday]
    intro hstable
    exact hday (by rw [hstable]; exact Nat.mul_mod_right _ _)
  rw [hnext] at hrun
  obtain ⟨-, hrun⟩ := assert_bind_eq_ok.mp hrun
  split at hrun
  · simp at hrun
  · next sch hsch =>
    obtain ⟨others, -, hrun⟩ := bind_eq_ok.mp hrun
    obtain ⟨w1, hw1, hrun⟩ := bind_eq_ok.mp hrun
    obtain rfl := pure_eq_ok.mp hw1
    obtain ⟨others', -, hrun⟩ := bind_eq_ok.mp hrun
    obtain rfl := pure_eq_ok.mp hrun
    refine ⟨h.rate, ?_⟩
    have hshare := share_le hpos hsmall
    have hbefore := h.covered
    show w.toProducers + _ + w.toMiners ≤ w.issued + x
    omega

theorem Covered.onblock {build : Build} {o : Others σ} {b : Block} {w w' : World σ}
    (h : Covered build w) (hday : NoDayEnds build o w b) (hrun : onblock build o b w = .ok w') :
    Covered build w' := by
  obtain ⟨due, hdue, hrun⟩ := bind_eq_ok.mp hrun
  obtain ⟨w1, hw1, hrun⟩ := bind_eq_ok.mp hrun
  have h1 : Covered build w1 := by
    cases due with
    | true => exact h.endCycle (hday hdue) hw1
    | false =>
      obtain rfl := pure_eq_ok.mp hw1
      exact h
  split at hrun
  · obtain ⟨others, -, hrun⟩ := bind_eq_ok.mp hrun
    obtain rfl := pure_eq_ok.mp hrun
    exact ⟨h1.rate, h1.covered⟩
  · next sch hsch =>
    obtain rfl := pure_eq_ok.mp hrun
    exact ⟨h1.rate, h1.covered⟩

/-- **Not more is passed on than is issued**, as long as no day ends. -/
theorem rewards_le_issued (build : Build) (o : Others σ) (others : σ) (bs : List Block)
    (hdays : Rollback.Along (onblock build o) (NoDayEnds build o) bs { others := others }) :
    (after (onblock build o) bs { others := others }).toProducers +
        (after (onblock build o) bs { others := others }).toMiners ≤
      (after (onblock build o) bs { others := others }).issued :=
  (after_induction (I := Covered build) (fun h hday hrun => h.onblock hday hrun) bs
    { others := others } ⟨rfl, le_rfl⟩ hdays).covered

/-- Other tables that are not looked at. -/
def sampleOthers : Others Unit where
  lastBlockAmount _ _ := some 0
  rewardBlock _ _ _ := .ok
  rewardmine _ := .ok
  updateElectedBps := .ok
  resetBlockWeight _ := .ok

/-- Blocks from the first on, each with the next schedule. -/
def newSchedules (n : Nat) : List Block := (List.range n).map fun i => ⟨i + 1, 1, i, [1]⟩

theorem rewards_le_issued_newSchedules :
    (after (onblock (.online 23) sampleOthers) (newSchedules 4) { others := () }).toProducers +
        (after (onblock (.online 23) sampleOthers) (newSchedules 4) { others := () }).toMiners ≤
      (after (onblock (.online 23) sampleOthers) (newSchedules 4) { others := () }).issued :=
  rewards_le_issued (.online 23) sampleOthers () (newSchedules 4) (by decide +kernel)

/-- Six blocks, each with a new schedule, end the first day of five cycles. -/
theorem rewards_exceed : (after (onblock (.beforeOnlineTest 23) sampleOthers) (newSchedules 6)
        { others := () }).issued <
      (after (onblock (.beforeOnlineTest 23) sampleOthers) (newSchedules 6)
          { others := () }).toProducers +
        (after (onblock (.beforeOnlineTest 23) sampleOthers) (newSchedules 6)
          { others := () }).toMiners := by
  decide +kernel

end Forceio.System
