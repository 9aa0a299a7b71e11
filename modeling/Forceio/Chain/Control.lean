import Mathlib.Data.List.Pairwise
import Forceio.Chain.StartBlock

/-!
# What running code reads of the controller: `controller.hpp`, `controller.cpp`

* Which checks a node makes depends on the status of the pending block and on its configuration:
  `light_validation_allowed`, `is_producing_block`. There is a pending block whenever code runs.
* `flat_set`s are ascending lists.
* The parameters of the chain (`get_global_properties().configuration`) are read only.

Results:
* `checkActorList_throws_iff`: the loops over the actor lists decide inclusion and intersection.
-/

namespace Forceio.Chain

open Forceio.Lib List

/-- The flags, lists and parameters the running code reads. -/
structure Control (Key : Type) [LinearOrder Key] where
  /-- `config::system_account_root`, chosen by the build. -/
  rootAccount : String
  /-- `pending->_block_status`. -/
  blockStatus : BlockStatus
  inTrxRequiringChecks : Bool := false
  forceAllChecks : Bool := false
  disableReplayOpts : Bool := false
  /-- `block_validation_mode == validation_mode::LIGHT`. -/
  lightValidationMode : Bool := false
  trustedProducerLightValidation : Bool := false
  allowRamBillingInNotify : Bool := true
  senderBypassWhiteblacklist : FlatSet AccountName := .empty
  actorWhitelist : FlatSet AccountName := .empty
  actorBlacklist : FlatSet AccountName := .empty
  keyBlacklist : FlatSet Key := .empty
  /-- In microseconds. -/
  pendingBlockTime : Nat
  headBlockId : Sha256 := default
  maxTransactionDelay : UInt32
  maxAuthorityDepth : UInt16
  deferredTrxExpirationWindow : UInt32
  basePerTransactionNetUsage : UInt32

namespace Control

variable {Key : Type} [LinearOrder Key]

/-- A node with the default configuration and the default parameters of the chain. -/
def standard (rootAccount : String) (status : BlockStatus) (pendingBlockTime : Nat) :
    Control Key where
  rootAccount := rootAccount
  blockStatus := status
  pendingBlockTime := pendingBlockTime
  maxTransactionDelay := 45 * 24 * 3600
  maxAuthorityDepth := 6
  deferredTrxExpirationWindow := 10 * 60
  basePerTransactionNetUsage := 12

variable (c : Control Key)

/-! ## Flags -/

/-- `light_validation_allowed`. -/
def lightValidationAllowed (replayOptsDisabledByPolicy : Bool) : Bool :=
  if c.inTrxRequiringChecks then false
  else
    let considerSkippingOnReplay :=
      (c.blockStatus = .irreversible || c.blockStatus = .validated) && !replayOptsDisabledByPolicy
    let considerSkippingOnValidate :=
      c.blockStatus = .complete && (c.lightValidationMode || c.trustedProducerLightValidation)
    considerSkippingOnReplay || considerSkippingOnValidate

/-- `skip_auth_check`. -/
def skipAuthCheck : Bool := c.lightValidationAllowed c.forceAllChecks

/-- `skip_trx_checks`. -/
def skipTrxChecks : Bool := c.lightValidationAllowed c.disableReplayOpts

/-- `is_producing_block`. -/
def isProducingBlock : Bool := c.blockStatus = .incomplete

/-- `is_ram_billing_in_notify_allowed`. -/
def isRamBillingInNotifyAllowed : Bool := !c.isProducingBlock || c.allowRamBillingInNotify

/-- `sender_avoids_whitelist_blacklist_enforcement`. -/
def senderAvoidsWhitelistBlacklistEnforcement (sender : AccountName) : Bool :=
  (c.senderBypassWhiteblacklist.find sender).isSome

/-! ## Lists -/

/-- The loop over a whitelist: an actor is searched for behind where the last was found. -/
def isSubsetLoop : List AccountName → List AccountName → Bool
  | [], _ => true
  | actor :: actors, whitelist =>
    match whitelist.dropWhile (· < actor) with
    | [] => false
    | a :: rest => if a = actor then isSubsetLoop actors rest else false

/-- The loop over a blacklist. -/
def intersectsLoop : List AccountName → List AccountName → Bool
  | [], _ => false
  | actor :: actors, blacklist =>
    match blacklist.dropWhile (· < actor) with
    | [] => false
    | a :: rest => if a = actor then true else intersectsLoop actors (a :: rest)

/-- `check_actor_list`: each loop runs after a check of the extents. -/
def checkActorList (actorSet : FlatSet AccountName) : Except FcException Unit :=
  let actors := actorSet.keys
  let whitelist := c.actorWhitelist.keys
  let blacklist := c.actorBlacklist.keys
  if actors.isEmpty then pure ()
  else if !whitelist.isEmpty then
    let isSubset :=
      if actors.headD 0 ≥ whitelist.headD 0 ∧ actors.getLastD 0 ≤ whitelist.getLastD 0 then
        isSubsetLoop actors whitelist
      else false
    eosAssert (isSubset = true) .actorWhitelistException
      "authorizing actor(s) in transaction are not on the actor whitelist: ${actors}"
  else if !blacklist.isEmpty then
    let intersects :=
      if actors.headD 0 ≤ blacklist.getLastD 0 ∧ actors.getLastD 0 ≥ blacklist.headD 0 then
        intersectsLoop actors blacklist
      else false
    eosAssert (intersects = false) .actorBlacklistException
      "authorizing actor(s) in transaction are on the actor blacklist: ${actors}"
  else pure ()

/-- `check_key_list`. -/
def checkKeyList (key : Key) : Except FcException Unit :=
  eosAssert (c.keyBlacklist.find key = none) .keyBlacklistException
    "public key '${key}' is on the key blacklist"

variable {c}

/-- A producing node skips nothing. -/
theorem lightValidationAllowed_of_producing (h : c.isProducingBlock = true) (policy : Bool) :
    c.lightValidationAllowed policy = false := by
  have hstatus : c.blockStatus = .incomplete := by simpa [isProducingBlock] using h
  unfold lightValidationAllowed
  split
  · rfl
  · simp [hstatus]

/-! ## The lists are enforced exactly -/

/-- What `std::lower_bound` leaves of a list. -/
theorem dropWhile_lt_eq_filter (x : AccountName) : ∀ {l : List AccountName}, l.Pairwise (· < ·) →
    l.dropWhile (· < x) = l.filter (x ≤ ·)
  | [], _ => rfl
  | a :: l, h => by
    rw [pairwise_cons] at h
    by_cases hlt : a < x
    · rw [dropWhile_cons_of_pos (by simpa using hlt), dropWhile_lt_eq_filter x h.2,
        filter_cons_of_neg (by simpa using hlt)]
    · rw [dropWhile_cons_of_neg (by simpa using hlt), filter_eq_self.mpr]
      rintro b (_ | ⟨_, hb⟩)
      · simpa using hlt
      · simpa using (not_lt.mp hlt).trans (h.1 b hb).le

/-- What is found is the actor exactly when the list has it, and what a later actor is searched
among is sorted and has it if the list does. -/
theorem lowerBound {x a : AccountName} {l rest : List AccountName} (hl : l.Pairwise (· < ·))
    (h : l.dropWhile (· < x) = a :: rest) :
    (a = x ↔ x ∈ l) ∧ (a :: rest).Pairwise (· < ·) ∧ ∀ b, x < b → (b ∈ a :: rest ↔ b ∈ l) := by
  rw [dropWhile_lt_eq_filter x hl] at h
  have hsorted := h ▸ hl.filter (x ≤ ·)
  have hmem : ∀ b, b ∈ a :: rest ↔ b ∈ l ∧ x ≤ b := fun b => by simp [← h]
  refine ⟨⟨fun heq => heq ▸ ((hmem a).mp mem_cons_self).1, fun hx => ?_⟩, hsorted,
    fun b hb => by rw [hmem, and_iff_left hb.le]⟩
  rcases mem_cons.mp ((hmem x).mpr ⟨hx, le_refl x⟩) with heq | hrest
  · exact heq.symm
  · exact absurd ((hmem a).mp mem_cons_self).2
      (not_le.mpr ((pairwise_cons.mp hsorted).1 x hrest))

theorem isSubsetLoop_iff : ∀ {actors l : List AccountName}, actors.Pairwise (· < ·) →
    l.Pairwise (· < ·) → (isSubsetLoop actors l = true ↔ ∀ a ∈ actors, a ∈ l)
  | [], _, _, _ => by simp [isSubsetLoop]
  | x :: actors, l, hactors, hl => by
    rw [pairwise_cons] at hactors
    rw [isSubsetLoop, forall_mem_cons]
    split
    case h_1 h =>
      rw [dropWhile_lt_eq_filter x hl, filter_eq_nil_iff] at h
      simpa using fun hx => absurd (h x hx) (by simp)
    case h_2 a rest h =>
      obtain ⟨hfound, hsorted, hbehind⟩ := lowerBound hl h
      rw [pairwise_cons] at hsorted
      rw [← hfound]
      split
      case isTrue heq =>
        rw [isSubsetLoop_iff hactors.2 hsorted.2, and_iff_right heq]
        refine forall₂_congr fun b hb => ?_
        rw [← hbehind b (hactors.1 b hb), mem_cons, or_iff_right]
        exact heq ▸ (hactors.1 b hb).ne'
      case isFalse hne => simp [hne]

theorem intersectsLoop_iff : ∀ {actors l : List AccountName}, actors.Pairwise (· < ·) →
    l.Pairwise (· < ·) → (intersectsLoop actors l = true ↔ ∃ a ∈ actors, a ∈ l)
  | [], _, _, _ => by simp [intersectsLoop]
  | x :: actors, l, hactors, hl => by
    rw [pairwise_cons] at hactors
    rw [intersectsLoop]
    split
    case h_1 h =>
      -- no actor from `x` on is in the list
      rw [dropWhile_lt_eq_filter x hl, filter_eq_nil_iff] at h
      simp only [decide_eq_true_eq] at h
      simpa using ⟨fun hx => h x hx le_rfl, fun b hb hbl => h b hbl (hactors.1 b hb).le⟩
    case h_2 a rest h =>
      obtain ⟨hfound, hsorted, hbehind⟩ := lowerBound hl h
      rw [exists_mem_cons_iff, ← hfound]
      split
      case isTrue heq => simp [heq]
      case isFalse hne =>
        rw [intersectsLoop_iff hactors.2 hsorted, or_iff_right hne]
        exact exists_congr fun b => and_congr_right fun hb => hbehind b (hactors.1 b hb)

theorem extents {l : List AccountName} (hl : l.Pairwise (· < ·)) (hne : l ≠ []) :
    (l.headD 0 ∈ l ∧ l.getLastD 0 ∈ l) ∧ ∀ a ∈ l, l.headD 0 ≤ a ∧ a ≤ l.getLastD 0 := by
  rw [headD_eq_head?_getD, head?_eq_some_head hne, getLastD_eq_getLast?,
    getLast?_eq_some_getLast hne]
  have hle := hl.imp le_of_lt
  exact ⟨⟨head_mem hne, getLast_mem hne⟩, fun a h => ⟨hle.rel_head h, hle.rel_getLast h⟩⟩

/-- The check of the extents leaves the outcome of the loop as it is. -/
theorem guarded_iff {p q : Prop} [Decidable p] {b : Bool} (hloop : b = true ↔ q) (h : q → p) :
    (if p then b else false) = true ↔ q := by
  split
  · exact hloop
  case isFalse hp => simpa using fun hq => hp (h hq)

theorem eosAssert_eq_error {cond : Prop} [Decidable cond] {t : ExceptionType} {w : String} :
    (∃ e, eosAssert cond t w = .error e) ↔ ¬ cond := by
  unfold eosAssert
  split <;> simp_all

/-- **Actor lists are enforced exactly**: `check_actor_list` throws for an actor not on the
whitelist, if there is one, and for an actor on the blacklist otherwise. -/
theorem checkActorList_throws_iff (actorSet : FlatSet AccountName) :
    (∃ e, c.checkActorList actorSet = .error e) ↔
      (c.actorWhitelist.keys ≠ [] ∧ ∃ a ∈ actorSet.keys, a ∉ c.actorWhitelist.keys) ∨
      (c.actorWhitelist.keys = [] ∧ ∃ a ∈ actorSet.keys, a ∈ c.actorBlacklist.keys) := by
  have hactors : actorSet.keys.Pairwise (· < ·) := actorSet.sorted
  have hwhite : c.actorWhitelist.keys.Pairwise (· < ·) := c.actorWhitelist.sorted
  have hblack : c.actorBlacklist.keys.Pairwise (· < ·) := c.actorBlacklist.sorted
  unfold checkActorList
  simp only [Bool.not_eq_true', ← Bool.not_eq_true, List.isEmpty_iff]
  split
  case isTrue hempty => simp [hempty, pure, Except.pure]
  case isFalse hsome =>
  split
  case isTrue hlist =>
    rw [eosAssert_eq_error, guarded_iff (isSubsetLoop_iff hactors hwhite)]
    · simp [hlist]
    · intro hall
      obtain ⟨⟨hfirst, hlast⟩, -⟩ := extents hactors hsome
      have hwithin := (extents hwhite hlist).2
      exact ⟨(hwithin _ (hall _ hfirst)).1, (hwithin _ (hall _ hlast)).2⟩
  case isFalse hlist =>
  rw [not_not] at hlist
  split
  case isTrue hblacks =>
    rw [eosAssert_eq_error, not_not, guarded_iff (intersectsLoop_iff hactors hblack)]
    · simp [hlist]
    · rintro ⟨a, ha, hb⟩
      have h1 := (extents hactors hsome).2 a ha
      have h2 := (extents hblack hblacks).2 a hb
      exact ⟨h1.1.trans h2.2, h2.1.trans h1.2⟩
  case isFalse hnone => simp [hlist, not_not.mp hnone, pure, Except.pure]

end Control

end Forceio.Chain
