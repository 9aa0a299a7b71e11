import Forceio.Chain.HeaderChain

/-!
# The next slot of a producer

Model of `calculate_next_block_time` of `producer_plugin_impl` (`producer_plugin.cpp`), which computes
from the schedule what `get_scheduled_producer` would tell for one slot after another.

* Of the `size_t` values only `producer_distance` is meant to wrap.

Results:
* `calculateNextBlockTime_least`: the time is that of the least slot, if there is one in 32 bits.
-/

namespace Forceio.Producer

open Forceio.Lib Forceio.Chain List

/-- What `calculate_next_block_time` reads: the head and whether a block is pending, the watermarks, and
the interval and the epoch of the slots. -/
structure PluginView (Key Sig : Type) where
  env : ChainEnv Key Sig
  hbs : BlockHeaderState Key Sig
  pending : Bool
  producerWatermarks : FlatMap AccountName UInt32
  intervalMs : UInt16
  epochMs : UInt64

/-- The slot that `calculate_next_block_time` finds in a schedule of `size`. -/
def nextBlockSlot (size reps producerIndex : Nat) (minimumSlot : UInt32) : UInt32 :=
  let minimumSlotProducerIndex := minimumSlot.toNat % (size * reps) / reps
  if producerIndex = minimumSlotProducerIndex then minimumSlot
  else
    let producerDistance := (producerIndex + 2 ^ 64 - minimumSlotProducerIndex) % 2 ^ 64
    let producerDistance :=
      if producerDistance > producerIndex then (producerDistance + size) % 2 ^ 64 else producerDistance
    let firstMinimumProducerSlot := minimumSlot.toNat - minimumSlot.toNat % reps
    UInt32.ofNat (firstMinimumProducerSlot + producerDistance * reps)

/-- Of the slots from `minimumSlot` up to `slot`, one of the same producer as `slot`. -/
theorem nextBlockSlot_spec {size reps : Nat} (hreps : 0 < reps) (hsize : 0 < size)
    {minimumSlot slot : UInt32} (hle : minimumSlot ≤ slot) {i : Nat}
    (hi : slot.toNat / reps % size = i) :
    minimumSlot ≤ nextBlockSlot size reps i minimumSlot ∧
      nextBlockSlot size reps i minimumSlot ≤ slot ∧
      (nextBlockSlot size reps i minimumSlot).toNat / reps % size = i := by
  subst hi
  unfold nextBlockSlot
  simp only [Nat.mod_mul_left_div_self]
  split
  · next heq => exact ⟨UInt32.le_refl _, hle, heq.symm⟩
  · next hne =>
    have hslot := slot.toNat_lt
    have hround := Nat.div_mul_le_self slot.toNat reps
    have hfirst := Nat.div_add_mod' minimumSlot.toNat reps
    have hlast := Nat.mod_lt minimumSlot.toNat hreps
    have hturns := Nat.div_le_div_right (c := reps) (UInt32.le_iff_toNat_le.mp hle)
    have hb := Nat.div_le_self slot.toNat reps
    generalize minimumSlot.toNat / reps = a at *
    generalize slot.toNat / reps = b at *
    have hrounds := Nat.add_mod_eq_ite (m := a) (n := b - a) (k := size)
    have hturn := Nat.add_mod_mod a (b - a) size
    rw [Nat.add_sub_of_le hturns] at hrounds hturn
    have hnext := Nat.mod_le (b - a) size
    have hlt := Nat.mod_lt (b - a) hsize
    have hmod := Nat.mod_lt a hsize
    have hmoda := Nat.mod_le a size
    -- the turns from `a` to the next one of the producer
    generalize (b - a) % size = d at hrounds hturn hnext hlt
    have hdistance : (if (b % size + 2 ^ 64 - a % size) % 2 ^ 64 > b % size then
        ((b % size + 2 ^ 64 - a % size) % 2 ^ 64 + size) % 2 ^ 64
        else (b % size + 2 ^ 64 - a % size) % 2 ^ 64) = d := by
      split at hrounds <;> split <;> omega
    rw [hdistance]
    have hpos : 1 ≤ d := by split at hrounds <;> omega
    have hslots : minimumSlot.toNat - minimumSlot.toNat % reps + d * reps = (a + d) * reps := by
      rw [Nat.add_mul]
      omega
    have hmul : (a + d) * reps ≤ b * reps := Nat.mul_le_mul_right reps (by omega)
    have hone : (a + 1) * reps ≤ (a + d) * reps := Nat.mul_le_mul_right reps (by omega)
    have hnat : (UInt32.ofNat ((a + d) * reps)).toNat = (a + d) * reps :=
      UInt32.toNat_ofNat_of_lt' ((hmul.trans hround).trans_lt hslot)
    rw [hslots, UInt32.le_iff_toNat_le, UInt32.le_iff_toNat_le, hnat, Nat.mul_div_cancel _ hreps]
    rw [Nat.add_mul, Nat.one_mul] at hone
    exact ⟨by omega, by omega, hturn⟩

namespace PluginView

variable {Key Sig : Type} (v : PluginView Key Sig) (producerName : AccountName)
  (currentBlockTime : UInt32)

/-- `block_timestamp::to_time_point`, in microseconds. -/
def toTimePoint (slot : UInt32) : Int :=
  Int.bmod ((slot.toNat * v.intervalMs.toNat + v.epochMs.toNat) * 1000) (2 ^ 64)

/-- The number of the head block, plus one when a block is pending. -/
def currentNum : Nat := v.hbs.blockNum + if v.pending then 1 else 0

/-- `minimum_offset`. -/
def minimumOffset : UInt32 :=
  match v.producerWatermarks.find producerName with
  | none => 1
  | some watermark =>
    let blockNum := UInt32.ofNat v.currentNum
    if watermark > blockNum then watermark - blockNum + 1 else 1

/-- `calculate_next_block_time`. -/
def calculateNextBlockTime : Option Int :=
  let activeSchedule := v.hbs.activeSchedule.producers
  (activeSchedule.findIdx? fun asp => asp.producerName = producerName).map fun producerIndex =>
    v.toTimePoint (nextBlockSlot activeSchedule.length v.env.producerRepetitions producerIndex
      (currentBlockTime + v.minimumOffset producerName))

/-! ## What it is for -/

/-- The producers of the active schedule. -/
def names : List AccountName := v.hbs.activeSchedule.producers.map ProducerKey.producerName

/-- The first slot that is far enough: the next one, or as many more as the watermark is above the
current number. -/
def firstSlot : Nat := currentBlockTime.toNat +
  ((v.producerWatermarks.find producerName).elim 0 UInt32.toNat - v.currentNum + 1)

/-- The producer is scheduled for a slot that is far enough. -/
def MayProduce (slot : UInt32) : Prop :=
  v.firstSlot producerName currentBlockTime ≤ slot.toNat ∧
    (v.hbs.getScheduledProducer v.env slot).map ProducerKey.producerName = some producerName

variable {v producerName currentBlockTime}

theorem toNat_minimumSlot (hnum : v.currentNum < 2 ^ 32)
    (hfits : v.firstSlot producerName currentBlockTime < 2 ^ 32) :
    (currentBlockTime + v.minimumOffset producerName).toNat =
      v.firstSlot producerName currentBlockTime := by
  have hblock := UInt32.toNat_ofNat_of_lt' hnum
  unfold minimumOffset
  unfold firstSlot at hfits ⊢
  generalize UInt32.ofNat v.currentNum = blockNum at hblock ⊢
  rw [← hblock] at hfits ⊢
  generalize v.producerWatermarks.find producerName = found at hfits ⊢
  cases found with
  | none => simpa using hfits
  | some watermark =>
    simp only [Option.elim_some] at hfits ⊢
    split
    · next h =>
      rw [UInt32.toNat_add, UInt32.toNat_add, UInt32.toNat_sub_of_le _ _ (UInt32.le_of_lt h)]
      simp
      omega
    · next h =>
      have hle := UInt32.le_iff_toNat_le.mp (UInt32.not_lt.mp h)
      rw [Nat.sub_eq_zero_of_le hle] at hfits ⊢
      simpa using hfits

section Schedule

variable {i : Nat} (hnodup : v.names.Nodup) (hi : v.names[i]? = some producerName)
include hnodup hi

theorem findIdx_eq : v.names.findIdx? (· = producerName) = some i := by
  obtain ⟨hlt, rfl⟩ := List.getElem?_eq_some_iff.mp hi
  refine findIdx?_eq_some_iff_getElem.mpr ⟨hlt, by simp, fun j hji hj => hji.ne ?_⟩
  exact hnodup.getElem_inj_iff.mp (of_decide_eq_true hj)

theorem scheduled_iff (slot : UInt32) : (v.hbs.getScheduledProducer v.env slot).map
      ProducerKey.producerName = some producerName ↔
    slot.toNat / v.env.producerRepetitions % v.names.length = i := by
  have hlt := (List.getElem?_eq_some_iff.mp hi).1
  unfold BlockHeaderState.getScheduledProducer
  rw [← getElem?_map, ← hi, names, length_map, Nat.mod_mul_left_div_self, eq_comm]
  exact (List.getElem?_inj hlt hnodup).trans eq_comm

end Schedule

/-- **The next slot of a producer.** With distinct producers in the active schedule and a current number
in 32 bits, `calculate_next_block_time` returns nothing for a producer that is not in the schedule; for
any other it returns the time of the least slot at which the producer may produce, if there is one in
32 bits. -/
theorem calculateNextBlockTime_least (hnodup : v.names.Nodup) (hnum : v.currentNum < 2 ^ 32) :
    (producerName ∉ v.names → v.calculateNextBlockTime producerName currentBlockTime = none) ∧
    ∀ slot, v.MayProduce producerName currentBlockTime slot →
      ∃ next, IsLeast {slot | v.MayProduce producerName currentBlockTime slot} next ∧
        v.calculateNextBlockTime producerName currentBlockTime = some (v.toTimePoint next) := by
  unfold calculateNextBlockTime
  have hmap : v.hbs.activeSchedule.producers.findIdx? (fun asp => asp.producerName = producerName) =
      v.names.findIdx? (· = producerName) := by
    rw [names, findIdx?_map]
    rfl
  simp only [hmap]
  refine ⟨fun hnot => ?_, fun slot hslot => ?_⟩
  · have hnone : v.names.findIdx? (· = producerName) = none :=
      findIdx?_eq_none_iff.mpr fun name hname => decide_eq_false fun h => hnot (h ▸ hname)
    rw [hnone]
    rfl
  obtain ⟨i, hi⟩ : ∃ i, v.names[i]? = some producerName := by
    exact ⟨_, getElem?_map.trans hslot.2⟩
  have hiff := scheduled_iff hnodup hi
  have hmin := toNat_minimumSlot hnum (hslot.1.trans_lt slot.toNat_lt)
  have hspec {x} (h : v.MayProduce producerName currentBlockTime x) :=
    nextBlockSlot_spec v.env.producerRepetitions_pos (Nat.zero_lt_of_lt
      (List.getElem?_eq_some_iff.mp hi).1) (UInt32.le_iff_toNat_le.mpr (hmin.trans_le h.1))
      ((hiff x).mp h.2)
  obtain ⟨hge, -, hturn⟩ := hspec hslot
  rw [findIdx_eq hnodup hi, ← length_map ProducerKey.producerName]
  exact ⟨_, ⟨⟨hmin.symm.trans_le (UInt32.le_iff_toNat_le.mp hge), (hiff _).mpr hturn⟩,
    fun x hx => (hspec hx).2.1⟩, rfl⟩

/-- The first of three producers in slot 1, with a pending block 2 and a watermark of 4 for the
third. -/
def threeTurns : PluginView Nat Nat :=
  ⟨toyEnv, (toyGenesis [1, 2, 3]).headerState toyEnv, true, FlatMap.empty.set 3 4, 3000, 0⟩

theorem calculateNextBlockTime_threeTurns :
    ∃ next, IsLeast {slot | threeTurns.MayProduce 3 1 slot} next ∧
      threeTurns.calculateNextBlockTime 3 1 = some (threeTurns.toTimePoint next) :=
  (calculateNextBlockTime_least (by decide) (by decide)).2 5 ⟨by decide, by decide⟩

end PluginView

end Forceio.Producer
