import Forceio.Chain.PermissionForest
import Forceio.Chain.Sending

/-!
# What a producer accepts, validators accept

A producing node checks more than a validating one: its own lists, a rule about RAM, and that no
authorization fails when code only sends to itself. It may also inherit the authorizations of the
running action. So the two runs of one call take different paths; whenever the producer's returns,
the validator's returns too and leaves the same state.

* A validating node runs the transactions of a block with the deadline `fc::time_point::maximum()`
  and the billed time of the receipt, so its `checktime` never throws.
* The eager limit on net usage of a producing node is not above that of a validating one: it differs
  only for greylisted accounts, which a producing node gives no elastic share.

Result:
* `producer_implies_validator`: what the producer accepts, the validator does, with the same effect.
-/

namespace Forceio.Chain

open Forceio.Lib

variable {Key Sig : Type} [LinearOrder Key]

/-- **One action on two nodes**: `p` produces the block and `v` validates it without skipping the
checks of authorizations. The lists of `p` and the rest of both configurations are arbitrary. -/
structure Validates (p v : ApplyContext Key) : Prop where
  producing : p.control.isProducingBlock = true
  validating : v.control.isProducingBlock = false
  checksAuth : v.control.skipAuthCheck = false
  clock : ∀ n, v.checktime n = none
  receiver : v.receiver = p.receiver
  act : v.act = p.act
  privileged : v.privileged = p.privileged
  published : v.published = p.published
  netLimit : p.eagerNetLimit ≤ v.eagerNetLimit
  rootAccount : v.control.rootAccount = p.control.rootAccount
  pendingBlockTime : v.control.pendingBlockTime = p.control.pendingBlockTime
  headBlockId : v.control.headBlockId = p.control.headBlockId
  maxTransactionDelay : v.control.maxTransactionDelay = p.control.maxTransactionDelay
  maxAuthorityDepth : v.control.maxAuthorityDepth = p.control.maxAuthorityDepth
  expirationWindow : v.control.deferredTrxExpirationWindow = p.control.deferredTrxExpirationWindow
  baseNetUsage : v.control.basePerTransactionNetUsage = p.control.basePerTransactionNetUsage

variable {env : SendEnv Key Sig} {p v : ApplyContext Key} {db : Database Key}

/-! ## Checks that succeed -/

variable {enforce : Bool} {ctx : ApplyContext Key}

/-- Authorizations that exist on one node exist on the other, which inherits none. -/
theorem inlineLoop_transfer {inherit : Bool}
    (ctx' : ApplyContext Key) (enforce' : Bool) (inherited' : FlatSet PermissionLevel) :
    ∀ {auths : List PermissionLevel} {actors : FlatSet AccountName}
      {inherited : FlatSet PermissionLevel} {r : FlatSet AccountName × FlatSet PermissionLevel}
      (actors' : FlatSet AccountName),
      inlineLoop ctx db enforce inherit auths actors inherited = .ok r →
      ∃ final, inlineLoop ctx' db enforce' false auths actors' inherited' = .ok (final, inherited')
  | [], _, _, _, actors', _ => ⟨actors', rfl⟩
  | auth :: auths, actors, inherited, r, actors', h => by
    obtain ⟨hactor, h⟩ := assert_bind_eq_ok.mp h
    obtain ⟨permission, hpermission, h⟩ := bind_eq_ok.mp h
    obtain ⟨hsome, h⟩ := assert_bind_eq_ok.mp h
    obtain ⟨final, hfinal⟩ := inlineLoop_transfer ctx' enforce' inherited'
      (if enforce' then actors'.insert auth.actor else actors') h
    refine ⟨final, ?_⟩
    refine assert_bind_eq_ok.mpr ⟨hactor, ?_⟩
    refine bind_eq_ok.mpr ⟨permission, hpermission, ?_⟩
    refine assert_bind_eq_ok.mpr ⟨hsome, ?_⟩
    exact hfinal

omit [LinearOrder Key] in
theorem referencedActors_transfer (enforce' : Bool) :
    ∀ {auths : List PermissionLevel} {actors r : FlatSet AccountName}
      (actors' : FlatSet AccountName), referencedActors db enforce auths actors = .ok r →
      ∃ r', referencedActors db enforce' auths actors' = .ok r'
  | [], _, _, actors', _ => ⟨actors', rfl⟩
  | auth :: auths, actors, r, actors', h => by
    obtain ⟨hactor, h⟩ := assert_bind_eq_ok.mp h
    obtain ⟨permission, hpermission, h⟩ := bind_eq_ok.mp h
    obtain ⟨hsome, h⟩ := assert_bind_eq_ok.mp h
    obtain ⟨r', hr'⟩ := referencedActors_transfer enforce'
      (if enforce' then actors'.insert auth.actor else actors') h
    refine ⟨r', assert_bind_eq_ok.mpr ⟨hactor, ?_⟩⟩
    exact bind_eq_ok.mpr ⟨permission, hpermission, assert_bind_eq_ok.mpr ⟨hsome, hr'⟩⟩

omit [LinearOrder Key] in
theorem referencedActions_transfer (enforce' : Bool) :
    ∀ {actions : List Action} {actors r : FlatSet AccountName} (actors' : FlatSet AccountName),
      referencedActions db enforce actions actors = .ok r →
      ∃ r', referencedActions db enforce' actions actors' = .ok r'
  | [], _, _, actors', _ => ⟨actors', rfl⟩
  | a :: actions, actors, r, actors', h => by
    obtain ⟨hcode, h⟩ := assert_bind_eq_ok.mp h
    obtain ⟨mid, hmid, h⟩ := bind_eq_ok.mp h
    obtain ⟨mid', hmid'⟩ := referencedActors_transfer enforce' actors' hmid
    obtain ⟨r', hr'⟩ := referencedActions_transfer enforce' mid' h
    exact ⟨r', assert_bind_eq_ok.mpr ⟨hcode, bind_eq_ok.mpr ⟨mid', hmid', hr'⟩⟩⟩

/-- Accounts that exist on one node exist on the other, which enforces no lists. -/
theorem validateReferencedAccounts_transfer {ctx' : ApplyContext Key} {trx : Transaction}
    (h : validateReferencedAccounts ctx db trx enforce = .ok ()) :
    validateReferencedAccounts ctx' db trx false = .ok () := by
  obtain ⟨u, hcfa, h⟩ := bind_eq_ok.mp h
  obtain ⟨actors, hactors, h⟩ := bind_eq_ok.mp h
  obtain ⟨hauth, -⟩ := assert_bind_eq_ok.mp h
  obtain ⟨actors', hactors'⟩ := referencedActions_transfer false .empty hactors
  refine bind_eq_ok.mpr ⟨u, hcfa, bind_eq_ok.mpr ⟨actors', hactors', ?_⟩⟩
  exact assert_bind_eq_ok.mpr ⟨hauth, rfl⟩

/-! ## Two nodes -/

namespace Validates

variable (h : Validates p v)

include h

theorem authorizationManager_eq : v.authorizationManager env db = p.authorizationManager env db := by
  unfold ApplyContext.authorizationManager
  rw [h.rootAccount, h.maxTransactionDelay, h.maxAuthorityDepth]

theorem codePermission_eq : v.codePermission = p.codePermission := by
  unfold ApplyContext.codePermission
  rw [h.receiver, h.rootAccount]

theorem producer_checksAuth : p.control.skipAuthCheck = false :=
  Control.lightValidationAllowed_of_producing h.producing _

variable {sat : FlatSet PermissionLevel}

/-- A check that succeeds on the producing node succeeds on the validating node. -/
theorem checkAuthorization_ok {actions : List Action} {delay : Int}
    (hcheck : (p.authorizationManager env db).checkAuthorization p.checktime actions []
      [p.codePermission] delay false sat = .ok ()) :
    (v.authorizationManager env db).checkAuthorization v.checktime actions []
      [v.codePermission] delay false sat = .ok () := by
  rw [h.authorizationManager_eq, h.codePermission_eq]
  exact AuthorizationManager.checkAuthorization_refines h.clock hcheck

variable {check : Except FcException Unit} {toSelf : Bool}

/-- A producing node bypasses nothing. -/
theorem check_of_bypassToSelf {what : String}
    (hp : bypassToSelf p toSelf what check = .ok ()) : check = .ok () := by
  unfold bypassToSelf at hp
  cases check with
  | ok u => rfl
  | error e =>
    simp only [h.producing, if_true] at hp
    split at hp <;> exact absurd hp (by simp)

/-- A validating node accepts what is sent to self, and what passes the check. -/
theorem bypassToSelf_ok {what : String}
    (hcheck : toSelf = false → check = .ok ()) : bypassToSelf v toSelf what check = .ok () := by
  cases check with
  | ok u => rfl
  | error e =>
    cases toSelf with
    | false => exact absurd (hcheck rfl) (by simp)
    | true => simp [bypassToSelf, h.validating]

/-! ## Inline actions -/

theorem authorizeInline_ok {a : Action}
    (hsat : toSelf = false → sat = .empty) (hp : authorizeInline env p db a toSelf sat = .ok ()) :
    authorizeInline env v db a toSelf .empty = .ok () := by
  unfold authorizeInline at hp ⊢
  by_cases hpriv : p.privileged = false
  · rw [if_pos ⟨h.producer_checksAuth, hpriv⟩] at hp
    rw [if_pos ⟨h.checksAuth, h.privileged.trans hpriv⟩]
    have hcheck := h.check_of_bypassToSelf hp
    refine h.bypassToSelf_ok fun hself => h.checkAuthorization_ok ?_
    rw [h.pendingBlockTime, h.published]
    rwa [hsat hself] at hcheck
  · rw [if_neg fun hand => hpriv (h.privileged ▸ hand.2)]
    rfl

theorem validateInline_ok {a : Action} (hp : validateInline env p db a = .ok ()) :
    validateInline env v db a = .ok () := by
  obtain ⟨hcode, hp⟩ := assert_bind_eq_ok.mp hp
  obtain ⟨⟨actors, inherited⟩, hloop, hp⟩ := bind_eq_ok.mp hp
  obtain ⟨u, -, hp⟩ := bind_eq_ok.mp hp
  -- only an action sent to self inherits
  have hsat : decide (a.account = p.receiver) = false → inherited = .empty := by
    intro hself
    rw [hself, Bool.false_and, Bool.false_and] at hloop
    obtain ⟨final, hfinal⟩ := inlineLoop_transfer p _ .empty .empty hloop
    rw [hloop] at hfinal
    exact congrArg Prod.snd (Except.ok.inj hfinal)
  obtain ⟨actors', hloop'⟩ := inlineLoop_transfer v false .empty .empty hloop
  refine assert_bind_eq_ok.mpr ⟨hcode, ?_⟩
  simp only [h.validating, Bool.and_false]
  refine bind_eq_ok.mpr ⟨(actors', .empty), hloop', ?_⟩
  rw [h.receiver]
  exact h.authorizeInline_ok hsat hp

/-- **Inline actions**: what the producer queues, the validator queues. -/
theorem executeInline_refines (a : Action) :
    Exec.Refines (executeInline env p a) (executeInline env v a) :=
  .get_bind fun _ => .bind (.lift fun _ hp => h.validateInline_ok hp) fun _ => .refl _

/-! ## Deferred transactions -/

theorem deferredTrx_eq (trx : Transaction) : deferredTrx v trx = deferredTrx p trx := by
  unfold deferredTrx
  rw [h.pendingBlockTime, h.headBlockId]

theorem addNetUsage_refines (u : Nat) :
    Exec.Refines (addNetUsage p u : ApplyM Key Unit) (addNetUsage v u) := by
  refine .bind (.refl _) fun _ => .get_bind fun s => .lift fun _ hp => ?_
  have hskip : p.control.skipTrxChecks = false :=
    Control.lightValidationAllowed_of_producing h.producing _
  unfold checkNetUsage at hp ⊢
  by_cases hover : s.netUsage > p.eagerNetLimit
  · rw [if_pos ⟨hskip, hover⟩] at hp
    split at hp
    · simp [throw, throwThe, MonadExceptOf.throw] at hp
    · split at hp <;> exact absurd hp (by simp [throw, throwThe, MonadExceptOf.throw])
  · rw [if_neg fun hand => hover (Nat.lt_of_le_of_lt h.netLimit hand.2)]
    rfl

theorem authorizeDeferred_refines (payer : AccountName) (trx : Transaction) :
    Exec.Refines (authorizeDeferred env p payer trx) (authorizeDeferred env v payer trx) := by
  unfold authorizeDeferred
  by_cases hpriv : p.privileged = false
  · rw [if_pos ⟨h.producer_checksAuth, hpriv⟩, if_pos ⟨h.checksAuth, h.privileged.trans hpriv⟩]
    refine .bind ?_ fun _ => .get_bind fun s => .lift fun _ hp => ?_
    · unfold requirePayer ApplyState.requireAuthorization
      rw [h.receiver, h.act]
      exact .refl _
    · rw [h.receiver]
      exact h.bypassToSelf_ok fun _ => h.checkAuthorization_ok (h.check_of_bypassToSelf hp)
  · rw [if_neg fun hand => hpriv hand.2, if_neg fun hand => hpriv (h.privileged ▸ hand.2)]
    exact .refl _

/-- A producing node replaces no record. -/
theorem storeDeferred_refines (senderId : BitVec 128) (payer : AccountName) (trx : Transaction)
    (replaceExisting : Bool) :
    Exec.Refines (storeDeferred env p senderId payer trx replaceExisting)
      (storeDeferred env v senderId payer trx replaceExisting) := by
  unfold storeDeferred delayUntil deferredExpiration delayUntil
  refine .get_bind fun s => ?_
  rw [h.receiver, h.pendingBlockTime, h.expirationWindow]
  cases s.db.findGenerated p.receiver senderId with
  | none => exact .refl _
  | some r =>
    intro s a s' hp
    obtain ⟨-, hp⟩ := require_bind_ok.mp hp
    obtain ⟨hproducing, -⟩ := require_bind_ok.mp hp
    simp [h.producing] at hproducing

/-- **Deferred transactions**: what the producer stores and charges, the validator does. -/
theorem scheduleDeferredTransaction_refines (senderId : BitVec 128) (payer : AccountName)
    (trx : Transaction) (replaceExisting : Bool) :
    Exec.Refines (scheduleDeferredTransaction env p senderId payer trx replaceExisting)
      (scheduleDeferredTransaction env v senderId payer trx replaceExisting) := by
  have hnotify : v.control.isRamBillingInNotifyAllowed = true := by
    simp [Control.isRamBillingInNotifyAllowed, h.validating]
  unfold scheduleDeferredTransaction
  rw [h.deferredTrx_eq, h.baseNetUsage]
  refine .bind (.refl _) fun _ => .get_bind fun s => ?_
  refine .bind (.lift fun _ hp => ?_) fun _ => ?_
  · rw [h.validating, Bool.and_false, Bool.false_and]
    exact validateReferencedAccounts_transfer hp
  refine .bind (h.addNetUsage_refines _) fun _ => ?_
  refine .bind (h.authorizeDeferred_refines payer _) fun _ => ?_
  refine .bind (h.storeDeferred_refines senderId payer _ replaceExisting) fun _ => ?_
  intro s a s' hp
  obtain ⟨-, hp⟩ := require_bind_ok.mp hp
  exact require_bind_ok.mpr ⟨.inl hnotify, hp⟩

end Validates

/-- **Producer acceptance implies validator acceptance**: in every state, whenever an inline action
or a deferred transaction is accepted on the producing node, it is accepted on the validating node
and leaves the same state, queued actions, database and RAM charges included. -/
theorem producer_implies_validator (h : Validates p v) (s s' : ApplyState Key) :
    (∀ a, executeInline env p a s = .ok () s' → executeInline env v a s = .ok () s') ∧
      ∀ senderId payer trx replaceExisting,
        scheduleDeferredTransaction env p senderId payer trx replaceExisting s = .ok () s' →
        scheduleDeferredTransaction env v senderId payer trx replaceExisting s = .ok () s' :=
  ⟨fun a hp => h.executeInline_refines a hp, fun senderId payer trx replaceExisting hp =>
    h.scheduleDeferredTransaction_refines senderId payer trx replaceExisting hp⟩

/-! ## An action sent to self -/

/-- An action `bob` sends to itself. -/
def selfAction : Action where
  account := stringToName "bob"
  name := stringToName "act"
  authorization := [⟨stringToName "bob", activeName⟩]

/-- The context of `bob`'s code, on a node with the given block status. -/
def selfCtx (status : BlockStatus) : ApplyContext Nat where
  control := .standard "force" status 0
  receiver := stringToName "bob"
  act := selfAction

theorem selfCtx_validates : Validates (selfCtx .incomplete) (selfCtx .complete) where
  producing := rfl
  validating := rfl
  checksAuth := rfl
  clock _ := rfl
  receiver := rfl
  act := rfl
  privileged := rfl
  published := rfl
  netLimit := le_rfl
  rootAccount := rfl
  pendingBlockTime := rfl
  headBlockId := rfl
  maxTransactionDelay := rfl
  maxAuthorityDepth := rfl
  expirationWindow := rfl
  baseNetUsage := rfl

/-- The producer inherits the authorization, the validator ignores that it is missing. -/
theorem producer_implies_validator_bob :
    executeInline plainEnv (selfCtx .complete) selfAction (.start bobOnly selfAction) =
      .ok () (Exec.stateOf (executeInline plainEnv (selfCtx .incomplete) selfAction
        (.start bobOnly selfAction))) :=
  (producer_implies_validator selfCtx_validates _ _).1 selfAction
    (Exec.eq_ok_of_thrown (by decide +kernel))

end Forceio.Chain
