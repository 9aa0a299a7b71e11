import Forceio.Chain.Name
import Forceio.Eosiolib.Asset
import Forceio.Lib.KeyedTable
import Forceio.Lib.Rollback

/-!
# Delegated bandwidth (`force.system/delegate_bandwidth.cpp`)

An account stakes tokens for the net and the cpu of a receiver. What it takes back is a refund that
waits, and that pays for what the account stakes for itself meanwhile.

* The three tables have rows of one form. Only a refund has a time.
* The operators of `asset` stop at another symbol than that of the core token, so an amount is a
  number. A sum beyond the range of an asset stops. Where two amounts that are not negative wrap
  back into it the sum is negative, and the check after the sum stops instead.
* A call has the authority of its first account. `set_resource_limits`, `ram_bytes`, which stays
  zero, and the payers of the rows are left out. What is transferred is summed up beside the tables.

Results:
* `delegations_backed`: the weights of a receiver are the sums of the rows for it, no row is
  negative, and the tokens paid and not refunded are those delegated or waiting.
-/

namespace Forceio.System.Delegation

open Forceio.Lib Forceio.Eosiolib KeyedTable Rollback
open Forceio.Chain (AccountName)

/-! ## Tables -/

/-- What tokens are staked for. -/
inductive Resource where
  | net
  | cpu
  deriving DecidableEq

/-- An amount for each resource. -/
abbrev Weights := Resource → Int

/-- A row of `delband`, `userres` or `refunds`. -/
structure Stake (κ : Type) where
  key : κ
  weights : Weights
  requestTime : Nat := 0

instance {κ : Type} : Keyed (Stake κ) κ := ⟨Stake.key⟩

/-- The tables, and the tokens that were transferred in and refunded. -/
structure World where
  delband : KeyedTable (Stake (AccountName ×ₗ AccountName)) := .empty
  userres : KeyedTable (Stake AccountName) := .empty
  refunds : KeyedTable (Stake AccountName) := .empty
  paidIn : Int := 0
  paidOut : Int := 0

section Stakes

variable {κ : Type} [LinearOrder κ]

variable (t : KeyedTable (Stake κ))

/-- The weights under a key, zero without a row. -/
def weightsAt (k : κ) : Weights := (t.find? k).elim 0 Stake.weights

/-- A row written, or erased when nothing is left of it. -/
def store (k : κ) (weights : Weights) (time : Nat) : KeyedTable (Stake κ) :=
  if weights .net = 0 ∧ weights .cpu = 0 then t.erase k else t.insert ⟨k, weights, time⟩

/-- An amount in the range of an asset, the result of `op`. -/
def checked (op : String) (x : Int) : Except ContractError Int := do
  eosioAssert (-Asset.maxAmount ≤ x) (op ++ " underflow")
  eosioAssert (x ≤ Asset.maxAmount) (op ++ " overflow")
  return x

/-- Both amounts in the range of an asset. -/
def checkedBoth (op : String) (x : Weights) : Except ContractError Weights := do
  let _ ← checked op (x .net)
  let _ ← checked op (x .cpu)
  return x

/-- A change of the row under a key, which stays positive. -/
def credit (k : κ) (delta : Weights) (of : String) :
    Except ContractError (KeyedTable (Stake κ)) := do
  let weights ← checkedBoth "addition" (weightsAt t k + delta)
  eosioAssert (0 ≤ weights .net) ("insufficient " ++ of ++ " net bandwidth")
  eosioAssert (0 ≤ weights .cpu) ("insufficient " ++ of ++ " cpu bandwidth")
  return store t k weights 0

end Stakes

/-! ## Actions -/

/-- The transfer of what is to be paid for a stake. -/
def pay (balance : Weights) (w : World) : Except ContractError World := do
  let amount ← checked "addition" (balance .net + balance .cpu)
  return if 0 < amount then { w with paidIn := w.paidIn + amount } else w

/-- `changebw`. -/
def changebw (system : AccountName) (now : Nat) (source receiver : AccountName) (delta : Weights)
    (transfer : Bool) (w : World) : Except ContractError World := do
  eosioAssert (delta .net ≠ 0 ∨ delta .cpu ≠ 0) "should stake non-zero amount"
  eosioAssert (max |delta .net| |delta .cpu| ≤ |delta .net + delta .cpu|)
    "net and cpu deltas cannot be opposite signs"
  let owner := if transfer then receiver else source
  let delband ← credit w.delband (toLex (owner, receiver)) delta "staked"
  let userres ← credit w.userres receiver delta "staked total"
  let w := { w with delband := delband, userres := userres }
  if source = system then return w
  else if (transfer = false ∧ owner = receiver) ∨ delta .net + delta .cpu < 0 then
    -- a refund that is made counts from now on; one that only pays keeps its time
    let time := if delta .net < 0 ∨ delta .cpu < 0 then now
      else (w.refunds.find? owner).elim now Stake.requestTime
    let left ← checkedBoth "subtraction" (weightsAt w.refunds owner - delta)
    let refunds := store w.refunds owner (fun r => max (left r) 0) time
    pay (fun r => max (-left r) 0) { w with refunds := refunds }
  else pay delta w

/-- `refund`, after three days. -/
def refund (now : Nat) (owner : AccountName) (w : World) : Except ContractError World :=
  match w.refunds.find? owner with
  | none => .error (.assert "refund request not found")
  | some req => do
    eosioAssert (uint32 (req.requestTime + 3 * 24 * 3600) ≤ now) "refund is not available yet"
    let amount ← checked "addition" (req.weights .net + req.weights .cpu)
    return { w with refunds := w.refunds.erase owner, paidOut := w.paidOut + amount }

/-- The actions. -/
inductive Call where
  | delegatebw (source receiver : AccountName) (quantity : Weights) (transfer : Bool)
  | undelegatebw (source receiver : AccountName) (quantity : Weights)
  | refund (owner : AccountName)

/-- Who makes a call. -/
def Call.caller : Call → AccountName
  | .delegatebw source _ _ _ => source
  | .undelegatebw source _ _ => source
  | .refund owner => owner

/-- The checks of `delegatebw` and `undelegatebw`. -/
def checkQuantity (quantity : Weights) (message : String) : Except ContractError Unit := do
  eosioAssert (0 ≤ quantity .cpu) message
  eosioAssert (0 ≤ quantity .net) message
  let sum ← checked "addition" (quantity .net + quantity .cpu)
  eosioAssert (0 < sum) message

/-- A call at some time. -/
def run (system : AccountName) : Nat × Call → World → Except ContractError World
  | (now, .delegatebw source receiver quantity transfer), w => do
    checkQuantity quantity "must stake a positive amount"
    eosioAssert (transfer = false ∨ source ≠ receiver)
      "cannot use transfer flag if delegating to self"
    changebw system now source receiver quantity transfer w
  | (now, .undelegatebw source receiver quantity), w => do
    checkQuantity quantity "must unstake a positive amount"
    changebw system now source receiver (-quantity) false w
  | (now, .refund owner), w => refund now owner w

/-! ## What is staked is paid for -/

section Stakes

variable {κ : Type} [LinearOrder κ] {t t' : KeyedTable (Stake κ)} {k k' : κ} {delta : Weights}

/-- The sum over the rows whose keys meet `p`. -/
def sumOf (t : KeyedTable (Stake κ)) (p : κ → Prop) [DecidablePred p] (r : Resource) : Int :=
  t.total fun x => if p x.key then x.weights r else 0

/-- No row is negative. -/
def Nonneg (t : KeyedTable (Stake κ)) : Prop := ∀ x ∈ t.rows, 0 ≤ x.weights

/-- **A change of one row**, in the weights and in all sums. -/
structure Changed (t t' : KeyedTable (Stake κ)) (k : κ) (delta : Weights) : Prop where
  weightsAt : ∀ k', weightsAt t' k' = weightsAt t k' + if k' = k then delta else 0
  sumOf : ∀ (p : κ → Prop) [DecidablePred p] (r : Resource),
    sumOf t' p r = sumOf t p r + if p k then delta r else 0
  nonneg : Nonneg t → Nonneg t'

theorem weights_eq_zero {x : Weights} (h : x .net = 0 ∧ x .cpu = 0) : x = 0 := by
  funext r
  cases r with
  | net => exact h.1
  | cpu => exact h.2

theorem elim_weights (p : κ → Prop) [DecidablePred p] (r : Resource) :
    (t.find? k).elim 0 (fun x => if p x.key then x.weights r else 0) =
      if p k then weightsAt t k r else 0 := by
  unfold weightsAt
  cases h : t.find? k with
  | none => simp
  | some x =>
    obtain ⟨-, rfl⟩ := find?_eq_some_iff.mp h
    rfl

theorem changed_store {x : Weights} (hx : 0 ≤ x) (time : Nat) :
    Changed t (store t k x time) k (x - weightsAt t k) := by
  unfold store
  split
  · rename_i h
    obtain rfl := weights_eq_zero h
    refine ⟨fun k' => ?_, fun p _ r => ?_, fun ht y hy => ht y (mem_erase.mp hy).1⟩
    · unfold weightsAt
      rw [find?_erase]
      by_cases hk : k' = k <;> simp [hk]
    · rw [sumOf, total_erase, elim_weights, sumOf]
      split <;> simp [sub_eq_add_neg]
  · refine ⟨fun k' => ?_, fun p _ r => ?_, fun ht y hy => ?_⟩
    · unfold weightsAt
      rw [find?_insert]
      by_cases hk : k' = k <;> simp [hk, Keyed.key]
    · rw [sumOf, total_upsert]
      show _ - (t.find? k).elim 0 _ + (if p k then x r else 0) = _
      rw [elim_weights, sumOf, Pi.sub_apply]
      split <;> ring
    · rcases mem_insert.mp hy with rfl | ⟨hy, -⟩
      · exact hx
      · exact ht y hy

theorem checked_eq_ok {op : String} {x y : Int} (h : checked op x = .ok y) : y = x := by
  obtain ⟨-, h⟩ := assert_bind_eq_ok.mp h
  obtain ⟨-, h⟩ := assert_bind_eq_ok.mp h
  exact pure_eq_ok.mp h

theorem checkedBoth_eq_ok {op : String} {x y : Weights} (h : checkedBoth op x = .ok y) : y = x := by
  obtain ⟨-, -, h⟩ := bind_eq_ok.mp h
  obtain ⟨-, -, h⟩ := bind_eq_ok.mp h
  exact pure_eq_ok.mp h

theorem changed_credit {of : String} (h : credit t k delta of = .ok t') : Changed t t' k delta := by
  obtain ⟨weights, hweights, h⟩ := bind_eq_ok.mp h
  obtain rfl := checkedBoth_eq_ok hweights
  obtain ⟨hnet, h⟩ := assert_bind_eq_ok.mp h
  obtain ⟨hcpu, h⟩ := assert_bind_eq_ok.mp h
  obtain rfl := pure_eq_ok.mp h
  have hx : 0 ≤ weightsAt t k + delta := fun r => by
    cases r with
    | net => exact hnet
    | cpu => exact hcpu
  have hchanged := changed_store (t := t) (k := k) hx 0
  rwa [add_sub_cancel_left] at hchanged

end Stakes

/-- The tokens that are delegated or wait to be refunded. -/
def World.held (w : World) (r : Resource) : Int :=
  sumOf w.delband (fun _ => True) r + sumOf w.refunds (fun _ => True) r

/-- **What is staked is paid for.** -/
structure Backed (w : World) : Prop where
  weights : ∀ b r, weightsAt w.userres b r = sumOf w.delband (fun k => (ofLex k).2 = b) r
  nonneg : Nonneg w.delband ∧ Nonneg w.userres ∧ Nonneg w.refunds
  paid : w.paidIn - w.paidOut = w.held .net + w.held .cpu

variable {system : AccountName} {w w' : World}

theorem pay_spec {balance : Weights} (hpos : 0 ≤ balance .net + balance .cpu)
    (h : pay balance w = .ok w') :
    w' = { w with paidIn := w.paidIn + (balance .net + balance .cpu) } := by
  obtain ⟨amount, hamount, h⟩ := bind_eq_ok.mp h
  obtain rfl := checked_eq_ok hamount
  obtain rfl := pure_eq_ok.mp h
  split
  · rfl
  · rename_i hzero
    rw [le_antisymm (not_lt.mp hzero) hpos, add_zero]

/-- A change of what is delegated, with the refund that it makes or uses. -/
theorem Backed.changebw {now : Nat} {source receiver : AccountName} {delta : Weights} {transfer : Bool}
    (h : Backed w) (hsource : source ≠ system)
    (hrun : changebw system now source receiver delta transfer w = .ok w') : Backed w' := by
  obtain ⟨-, hrun⟩ := assert_bind_eq_ok.mp hrun
  obtain ⟨-, hrun⟩ := assert_bind_eq_ok.mp hrun
  obtain ⟨delband, hdelband, hrun⟩ := bind_eq_ok.mp hrun
  obtain ⟨userres, huserres, hrun⟩ := bind_eq_ok.mp hrun
  generalize (if transfer = true then receiver else source) = owner at hdelband hrun
  have hd := changed_credit hdelband
  have hu := changed_credit huserres
  have hweights : ∀ b r, weightsAt userres b r = sumOf delband (fun k => (ofLex k).2 = b) r := by
    intro b r
    rw [hu.weightsAt, hd.sumOf, Pi.add_apply, h.weights]
    by_cases hb : b = receiver
    · simp [hb]
    · simp [hb, Ne.symm hb]
  have hpaid := h.paid
  unfold World.held at hpaid
  rw [if_neg hsource] at hrun
  split at hrun
  · obtain ⟨left, hleft, hrun⟩ := bind_eq_ok.mp hrun
    obtain rfl := checkedBoth_eq_ok hleft
    rw [pay_spec (add_nonneg (le_max_right _ _) (le_max_right _ _)) hrun]
    have hr : ∀ time, Changed w.refunds (store w.refunds owner
        (fun r => max (weightsAt w.refunds owner r - delta r) 0) time) owner _ :=
      changed_store fun _ => le_max_right _ _
    refine ⟨hweights, ⟨hd.nonneg h.nonneg.1, hu.nonneg h.nonneg.2.1,
      (hr _).nonneg h.nonneg.2.2⟩, ?_⟩
    simp only [World.held, hd.sumOf, (hr _).sumOf, if_true, Pi.sub_apply]
    omega
  · rename_i hto
    rw [pay_spec (not_lt.mp fun hneg => hto (.inr hneg)) hrun]
    refine ⟨hweights, ⟨hd.nonneg h.nonneg.1, hu.nonneg h.nonneg.2.1, h.nonneg.2.2⟩, ?_⟩
    simp only [World.held, hd.sumOf, if_true]
    omega

theorem Backed.refund {now : Nat} {owner : AccountName} (h : Backed w)
    (hrun : refund now owner w = .ok w') : Backed w' := by
  unfold Delegation.refund at hrun
  cases hreq : w.refunds.find? owner with
  | none => simp [hreq] at hrun
  | some req =>
    rw [hreq] at hrun
    obtain ⟨-, hrun⟩ := assert_bind_eq_ok.mp hrun
    obtain ⟨amount, hamount, hrun⟩ := bind_eq_ok.mp hrun
    obtain rfl := checked_eq_ok hamount
    obtain rfl := pure_eq_ok.mp hrun
    refine ⟨h.weights, ⟨h.nonneg.1, h.nonneg.2.1, fun x hx =>
      h.nonneg.2.2 x (mem_erase.mp hx).1⟩, ?_⟩
    have hpaid := h.paid
    simp only [World.held, sumOf, total_erase, hreq, Option.elim_some, if_true] at hpaid ⊢
    omega

theorem Backed.run {c : Nat × Call} (h : Backed w) (hcaller : c.2.caller ≠ system)
    (hrun : run system c w = .ok w') : Backed w' := by
  obtain ⟨now, call⟩ := c
  cases call with
  | delegatebw source receiver quantity transfer =>
    obtain ⟨-, -, hrun⟩ := bind_eq_ok.mp hrun
    obtain ⟨-, hrun⟩ := assert_bind_eq_ok.mp hrun
    exact h.changebw hcaller hrun
  | undelegatebw source receiver quantity =>
    obtain ⟨-, -, hrun⟩ := bind_eq_ok.mp hrun
    exact h.changebw hcaller hrun
  | refund owner => exact h.refund hrun

/-- **Delegated resources are backed by tokens**, after all calls of other accounts than the system
account. -/
theorem delegations_backed (system : AccountName) (cs : List (Nat × Call))
    (hcallers : Rollback.Along (run system) (fun _ c => c.2.caller ≠ system) cs {}) :
    Backed (after (run system) cs {}) :=
  after_induction (I := Backed) (fun h hcaller hrun => h.run hcaller hrun) cs {}
    ⟨fun _ _ => rfl, ⟨nofun, nofun, nofun⟩, rfl⟩ hcallers

/-- A delegation, taken back in part and used for the account itself, and a refund. -/
def sampleCalls : List (Nat × Call) :=
  [(0, .delegatebw 1 2 (fun _ => 5) false), (1, .undelegatebw 1 2 (fun _ => 3)),
    (2, .delegatebw 1 1 (fun _ => 1) false), (3, .delegatebw 1 2 (fun _ => 1) true),
    (259201, .refund 1)]

theorem delegations_backed_sample : (after (run 9) sampleCalls {}).paidOut = 4 ∧
      Backed (after (run 9) sampleCalls {}) :=
  ⟨by decide +kernel, delegations_backed 9 sampleCalls (by decide +kernel)⟩

end Forceio.System.Delegation
