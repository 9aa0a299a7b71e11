import Forceio.Chain.HeaderChain

/-!
# Producing a block

The producer's side of the header state: `controller_impl::start_block`, `set_proposed_producers`,
`finalize_block` and `sign_block`, as far as they touch the header state and the proposed schedule
of the database. The producer computes the state of its block by `generate_next`, `set_confirmed`,
`maybe_promote_pending` and `set_new_producers`; every other node computes it from the signed header
by `next`.

* `start_block` without its checks that no block is pending and that the database is at the head's
  revision, and without the on-block transaction: what that transaction can do to the model's state
  is a call of `set_proposed_producers`, and those are inputs.
* The action and transaction roots are the Merkle roots of arbitrary digests.

Result:
* `produced_header_next`: what `next` makes of a produced and signed header: the producer's own state
  when the producer's range check passes, and otherwise an exception. `start_block` has no such check
  (`produced_header_rejected`).
-/

namespace Forceio.Chain

open Forceio.Lib

variable {Key Sig : Type}
variable {p : BlockHeaderState Key Sig}

/-- `db_read_mode`. -/
inductive DbReadMode where
  | speculative
  | head
  | readOnly
  | irreversible
  deriving DecidableEq, Repr

/-- `controller::block_status`. -/
inductive BlockStatus where
  | irreversible
  | validated
  | complete
  | incomplete
  deriving DecidableEq, Repr

/-- The part of `global_property_object` that holds the proposed schedule. -/
structure GlobalPropertyObject (Key : Type) where
  proposedScheduleBlockNum : Option Nat
  proposedSchedule : ProducerSchedule Key
  deriving DecidableEq

/-- No schedule is proposed: the state at genesis and after the proposal became pending. -/
def GlobalPropertyObject.cleared : GlobalPropertyObject Key := ⟨none, ⟨0, []⟩⟩

/-- A header state with the database after its block. -/
abbrev ProducedState (Key Sig : Type) := BlockHeaderState Key Sig × GlobalPropertyObject Key

/-- The block of `start_block` that makes the proposed schedule pending. -/
def promoteProposed (env : ChainEnv Key Sig) (gpo : GlobalPropertyObject Key)
    (p : BlockHeaderState Key Sig) (wasPendingPromoted : Bool) :
    Except FcException (ProducedState Key Sig) :=
  match gpo.proposedScheduleBlockNum with
  | none => pure (p, gpo)
  | some proposedNum =>
    if proposedNum ≤ p.dposIrreversibleBlocknum ∧ p.pendingSchedule.producers.length = 0 ∧
        wasPendingPromoted = false then do
      let p ← p.setNewProducers env gpo.proposedSchedule
      pure (p, .cleared)
    else pure (p, gpo)

section Produce

variable [Inhabited Sig]

/-- `start_block`: the pending header state and the database after it. -/
def startBlock (env : ChainEnv Key Sig) (readMode : DbReadMode) (status : BlockStatus)
    (head : BlockHeaderState Key Sig) (gpo : GlobalPropertyObject Key) (slot : UInt32)
    (confirmBlockCount : UInt16) :
    Except FcException (ProducedState Key Sig) := do
  let p ← head.generateNext env slot
  let p := p.setConfirmed confirmBlockCount
  let (p, wasPendingPromoted) := p.maybePromotePending
  if readMode = .speculative ∨ status ≠ .incomplete then
    promoteProposed env gpo p wasPendingPromoted
  else pure (p, gpo)

end Produce

/-- `finalize_block`: `set_action_merkle`, `set_trx_merkle` and the id. -/
def finalizeBlock (env : ChainEnv Key Sig) (p : BlockHeaderState Key Sig)
    (actionDigests trxDigests : List Sha256) : BlockHeaderState Key Sig :=
  let header :=
    { p.header with
      actionMroot := merkle env.merkleHash actionDigests
      transactionMroot := merkle env.merkleHash trxDigests }
  { p with header := header, id := header.toBlockHeader.id env }

/-- The first test of `set_proposed_producers`: a proposal of another block is waiting, or the one of
this block is the same. -/
def alreadyProposed [DecidableEq Key] (gpo : GlobalPropertyObject Key) (curBlockNum : Nat)
    (producers : List (ProducerKey Key)) : Bool :=
  match gpo.proposedScheduleBlockNum with
  | none => false
  | some n => decide (n ≠ curBlockNum) || decide (producers = gpo.proposedSchedule.producers)

/-- The schedule a new proposal comes after: the pending one, or the active one if there is none. -/
def lastSchedule (p : BlockHeaderState Key Sig) : ProducerSchedule Key :=
  if p.pendingSchedule.producers.length = 0 then p.activeSchedule else p.pendingSchedule

/-- `set_proposed_producers`, called while the block with state `p` is pending on a head of number
`headBlockNum`: the returned version, `-1` if nothing changes, and the database after it. -/
def setProposedProducers [DecidableEq Key] (headBlockNum : Nat) (p : BlockHeaderState Key Sig)
    (gpo : GlobalPropertyObject Key) (producers : List (ProducerKey Key)) :
    Int × GlobalPropertyObject Key :=
  let curBlockNum := addU32 headBlockNum 1
  if alreadyProposed gpo curBlockNum producers then (-1, gpo)
  else if producers = (lastSchedule p).producers then (-1, gpo)
  else
    let sch : ProducerSchedule Key := ⟨addU32 (lastSchedule p).version 1, producers⟩
    (sch.version, ⟨some curBlockNum, sch⟩)

/-! ## What the producer computes -/

/-- The state with a signature in its header. -/
def withSignature (p : BlockHeaderState Key Sig) (sig : Sig) : BlockHeaderState Key Sig :=
  { p with header := { p.header with producerSignature := sig } }

variable {signer : Sha256 → Sig}

/-- A signature that recovers to the scheduled key is accepted by `sign`. -/
theorem sign_eq_ok [DecidableEq Key] {env : ChainEnv Key Sig} {p : BlockHeaderState Key Sig}
    (h : env.recover (signer (p.sigDigest env)) (p.sigDigest env) = .ok p.blockSigningKey) :
    p.sign env signer = .ok (withSignature p (signer (p.sigDigest env))) := by
  refine bind_eq_ok.mpr ⟨p.blockSigningKey, h, ?_⟩
  exact assert_bind_eq_ok.mpr ⟨rfl, rfl⟩

theorem sign_result [DecidableEq Key] {env : ChainEnv Key Sig} {p x : BlockHeaderState Key Sig}
    (h : p.sign env signer = .ok x) : ∃ sig, x = withSignature p sig := by
  obtain ⟨key, -, h⟩ := bind_eq_ok.mp h
  obtain ⟨-, h⟩ := assert_bind_eq_ok.mp h
  exact ⟨_, (Except.ok.inj h).symm⟩

section Produce

variable [Inhabited Sig] {env : ChainEnv Key Sig} {s q : BlockHeaderState Key Sig}
  {gpo gpo' : GlobalPropertyObject Key} {mode : DbReadMode} {status : BlockStatus} {slot : UInt32}
  {n : UInt16}

/-- The state `start_block` builds before it looks at the proposed schedule, and whether it promoted
the pending one. -/
def pendingState (env : ChainEnv Key Sig) (s : BlockHeaderState Key Sig) (slot : UInt32)
    (pk : ProducerKey Key) (n : UInt16) : BlockHeaderState Key Sig × Bool :=
  ((s.template env slot pk).setConfirmed n).maybePromotePending

theorem startBlock_of_error {e : FcException} (h : s.generateNext env slot = .error e) :
    startBlock env mode status s gpo slot n = .error e := by
  unfold startBlock
  rw [h]
  rfl

variable {pk : ProducerKey Key}

theorem startBlock_of_ok {slot' : UInt32}
    (h : s.generateNext env slot = .ok (s.template env slot' pk)) :
    startBlock env mode status s gpo slot n = if mode = .speculative ∨ status ≠ .incomplete then
        promoteProposed env gpo (pendingState env s slot' pk n).1 (pendingState env s slot' pk n).2
      else pure ((pendingState env s slot' pk n).1, gpo) := by
  unfold startBlock
  rw [h]
  rfl

/-- **What `start_block` returns**: the pending state as it is, or with the proposed schedule. -/
theorem startBlock_eq_ok (hslot : slot ≠ 0)
    (h : startBlock env mode status s gpo slot n = .ok (q, gpo')) :
    s.header.timestamp < slot ∧ ∃ pk, s.getScheduledProducer env slot = some pk ∧
      ((q = (pendingState env s slot pk n).1 ∧ gpo' = gpo) ∨
        ∃ num, gpo.proposedScheduleBlockNum = some num ∧
          num ≤ (pendingState env s slot pk n).1.dposIrreversibleBlocknum ∧
          (pendingState env s slot pk n).2 = false ∧
          (pendingState env s slot pk n).1.setNewProducers env gpo.proposedSchedule = .ok q ∧
          gpo' = .cleared) := by
  obtain ⟨t, ht⟩ : ∃ t, s.generateNext env slot = .ok t := by
    cases hgen : s.generateNext env slot with
    | error e =>
      rw [startBlock_of_error hgen] at h
      simp at h
    | ok t => exact ⟨t, rfl⟩
  obtain ⟨hlt, pk, hpk, rfl⟩ := (BlockHeaderState.generateNext_eq_ok_iff hslot).mp ht
  rw [startBlock_of_ok ht] at h
  refine ⟨hlt, pk, hpk, ?_⟩
  have hkept : ∀ {x : ProducedState Key Sig},
      (pure x : Except FcException _) = .ok (q, gpo') → q = x.1 ∧ gpo' = x.2 := by
    intro x hx
    obtain rfl := Except.ok.inj hx
    exact ⟨rfl, rfl⟩
  split at h
  · unfold promoteProposed at h
    split at h
    · exact Or.inl (hkept h)
    · rename_i num hnum
      split at h
      · rename_i hc
        obtain ⟨r, hr, h⟩ := bind_eq_ok.mp h
        obtain ⟨rfl, rfl⟩ := hkept h
        exact Or.inr ⟨num, hnum, hc.1, hc.2.2, hr, rfl⟩
      · exact Or.inl (hkept h)
  · exact Or.inl (hkept h)

/-- The header of a produced block: it continues `s`, in the slot and with the count asked for, and
from it `next` computes the producer's state again. -/
structure Produced (env : ChainEnv Key Sig) (s q p : BlockHeaderState Key Sig) (slot : UInt32)
    (n : UInt16) (pk : ProducerKey Key) : Prop where
  later : s.header.timestamp < slot
  scheduled : s.getScheduledProducer env slot = some pk
  timestamp : p.header.timestamp = slot
  confirmed : p.header.confirmed = n
  extensions : p.header.headerExtensions = []
  previous : p.header.previous = s.id
  version : s.activeSchedule.version = p.header.scheduleVersion
  producer : pk.producerName = p.header.producer
  unsigned : BlockHeaderState.unsignedNext env s p.header pk = .ok q
  filled : q.fillHeader env p.header = p

theorem pendingState_header (env : ChainEnv Key Sig) (s : BlockHeaderState Key Sig) (slot : UInt32)
    (pk : ProducerKey Key) (n : UInt16) :
    (pendingState env s slot pk n).1.header =
      { timestamp := slot, producer := pk.producerName, confirmed := n, previous := s.id,
        scheduleVersion := s.activeSchedule.version, producerSignature := default } := by
  rw [pendingState, BlockHeaderState.maybePromotePending_template]
  rfl

/-- `start_block` accepts the new producers it puts into the header as `next` does. -/
theorem startBlock_accept (hslot : slot ≠ 0)
    (h : startBlock env mode status s gpo slot n = .ok (q, gpo')) :
    s.header.timestamp < slot ∧ ∃ pk np, s.getScheduledProducer env slot = some pk ∧
      (pendingState env s slot pk n).1.acceptNewProducers env (pendingState env s slot pk n).2 np =
        .ok q ∧
      q.header =
        { timestamp := slot, producer := pk.producerName, confirmed := n, previous := s.id,
          scheduleVersion := s.activeSchedule.version, newProducers := np,
          producerSignature := default } := by
  obtain ⟨hlt, pk, hpk, hq⟩ := startBlock_eq_ok hslot h
  refine ⟨hlt, pk, ?_⟩
  rcases hq with ⟨rfl, -⟩ | ⟨num, -, -, hprom, hset, -⟩
  · exact ⟨none, hpk, rfl, pendingState_header env s slot pk n⟩
  · refine ⟨some gpo.proposedSchedule, hpk, ?_, ?_⟩
    · rw [BlockHeaderState.acceptNewProducers, assert_bind_eq_ok]
      exact ⟨hprom, hset⟩
    · obtain ⟨-, -, rfl⟩ := BlockHeaderState.setNewProducers_eq_ok_iff.mp hset
      simp only [pendingState_header]

/-- **The producer's state is the one its header leads to.** -/
theorem startBlock_produced (hslot : slot ≠ 0)
    (h : startBlock env mode status s gpo slot n = .ok (q, gpo'))
    (actionDigests trxDigests : List Sha256) (sig : Sig) :
    ∃ pk, Produced env s q (withSignature (finalizeBlock env q actionDigests trxDigests) sig)
      slot n pk := by
  obtain ⟨hlt, pk, np, hpk, hacc, hhead⟩ := startBlock_accept hslot h
  obtain ⟨p, hp⟩ : ∃ p, p = withSignature (finalizeBlock env q actionDigests trxDigests) sig :=
    ⟨_, rfl⟩
  have hheader : p.header =
      { timestamp := slot, producer := pk.producerName, confirmed := n, previous := s.id,
        actionMroot := merkle env.merkleHash actionDigests,
        transactionMroot := merkle env.merkleHash trxDigests,
        scheduleVersion := s.activeSchedule.version, newProducers := np,
        producerSignature := sig } := by
    rw [hp, withSignature, finalizeBlock]
    simp only [hhead]
  rw [← hp]
  refine ⟨pk, hlt, hpk, ?_, ?_, ?_, ?_, ?_, ?_, ?_, ?_⟩
  · rw [hheader]
  · rw [hheader]
  · rw [hheader]
  · rw [hheader]
  · rw [hheader]
  · rw [hheader]
  · rw [hheader]
    exact hacc
  · rw [hp]
    rfl

theorem Produced.advanceSpec
    (h : Produced env s q p slot n pk) : BlockHeaderState.AdvanceSpec env s p.header p := by
  have hspec := BlockHeaderState.unsignedNext_spec h.extensions (by rw [h.timestamp]; exact h.later)
    h.previous (by rw [h.timestamp]; exact h.scheduled) h.producer h.version h.unsigned
  rwa [h.filled] at hspec

variable [DecidableEq Key]

/-- **`next` on a produced header is the range check**, if the signature is the scheduled one. -/
theorem Produced.next_eq (h : Produced env s q p slot n pk) (h0 : slot ≠ 0)
    (hkey : p.signee env = .ok p.blockSigningKey) :
    s.next env p.header false =
      s.checkDoubleConfirm p.header.producer p.blockNum n >>= fun _ => pure p := by
  have hnum := h.advanceSpec.blockNum
  have hnext := BlockHeaderState.next_eq_checkDoubleConfirm (by rw [h.timestamp]; exact h0)
    h.extensions (by rw [h.timestamp]; exact h.later) h.previous
    (by rw [h.timestamp]; exact h.scheduled) h.producer h.version h.unsigned
    (by rw [h.filled]; exact hkey)
  rwa [h.filled, ← hnum, h.confirmed] at hnext

/-- **Producer and validator.** Start a block on any state `s` in a later slot, with any count of
confirmed blocks and any proposed schedule; fill in any roots and sign with the scheduled key. Then
signing succeeds, the state's id is that of its header and its number is one more than that of `s`.
If the last block recorded for the producer is below `block_num - confirmed`, or none is recorded,
`next` accepts the header and returns the producer's state, equal in every field. Otherwise it
rejects the header as a double confirmation. -/
theorem produced_header_next (signWith : Key → Sha256 → Sig)
    (hrecover : ∀ key d, env.recover (signWith key d) d = .ok key)
    (hslot : s.header.timestamp < slot)
    (hstart : startBlock env mode status s gpo slot n = .ok (q, gpo'))
    (actionDigests trxDigests : List Sha256) :
    ∃ p, (finalizeBlock env q actionDigests trxDigests).sign env (signWith q.blockSigningKey) =
        .ok p ∧
      p.id = p.header.toBlockHeader.id env ∧ p.blockNum = addU32 s.blockNum 1 ∧
      ((∀ last, s.producerToLastProduced.find p.header.producer = some last →
          last < subU32 p.blockNum n.toNat) →
        s.next env p.header false = .ok p) ∧
      (∀ last, s.producerToLastProduced.find p.header.producer = some last →
        subU32 p.blockNum n.toNat ≤ last →
        s.next env p.header false =
          .error ⟨.producerDoubleConfirm, "producer double-confirming known range"⟩) := by
  have h0 : slot ≠ 0 := by
    rintro rfl
    exact absurd hslot UInt32.not_lt_zero
  have hsign := sign_eq_ok (p := finalizeBlock env q actionDigests trxDigests)
    (hrecover q.blockSigningKey _)
  obtain ⟨pk, hp⟩ := startBlock_produced h0 hstart actionDigests trxDigests
    (signWith q.blockSigningKey ((finalizeBlock env q actionDigests trxDigests).sigDigest env))
  refine ⟨_, hsign, ?_⟩
  generalize hpe : withSignature (finalizeBlock env q actionDigests trxDigests)
    (signWith q.blockSigningKey ((finalizeBlock env q actionDigests trxDigests).sigDigest env)) = p
    at hp ⊢
  have hspec := hp.advanceSpec
  have hkey : p.signee env = .ok p.blockSigningKey := by
    rw [← hpe]
    exact hrecover q.blockSigningKey _
  have hnext := hp.next_eq h0 hkey
  refine ⟨hspec.id, hspec.blockNum, fun hlast => ?_, fun last hfind hle => ?_⟩
  · rw [hnext, BlockHeaderState.checkDoubleConfirm_eq_ok_iff.mpr hlast]
    rfl
  · rw [hnext, BlockHeaderState.checkDoubleConfirm_eq_error hfind hle]
    rfl

end Produce

/-- The state of block 2, made by the only producer of its chain. -/
def soleProducer : BlockHeaderState Nat Nat :=
  (toyChain [1] [toyHeader 1 1 2 1 0 0 none]).headD ((toyGenesis [1]).headerState toyEnv)

/-- The producer starts block 3 with `confirmed = 1`. Nothing stops it, and `next` rejects the signed
header: block 2 would be confirmed twice. -/
theorem produced_header_rejected :
    soleProducer.blockNum = 2 ∧
    (do
      let (q, _) ← (startBlock toyEnv .speculative .incomplete soleProducer .cleared 3 1).toOption
      let p ← ((finalizeBlock toyEnv q [] []).sign toyEnv fun _ => q.blockSigningKey).toOption
      pure (soleProducer.next toyEnv p.header false)) =
      some (.error ⟨.producerDoubleConfirm, "producer double-confirming known range"⟩) := by
  decide

/-- With `confirmed = 0` the header is accepted, with the producer's own state. -/
theorem produced_header_next_soleProducer :
    ∃ q gpo p, startBlock toyEnv .speculative .incomplete soleProducer .cleared 3 0 = .ok (q, gpo) ∧
      (finalizeBlock toyEnv q [] []).sign toyEnv (fun _ => q.blockSigningKey) = .ok p ∧
      soleProducer.next toyEnv p.header false = .ok p := by
  cases hstart : startBlock toyEnv .speculative .incomplete soleProducer .cleared 3 0 with
  | error e =>
    have hok : (startBlock toyEnv .speculative .incomplete soleProducer .cleared 3 0).toBool = true :=
      by decide
    rw [hstart] at hok
    simp [Except.toBool] at hok
  | ok x =>
    obtain ⟨p, hsign, -, hnum, hnext, -⟩ := produced_header_next (fun key _ => key)
      (fun _ _ => rfl) (by decide) hstart [] []
    refine ⟨x.1, x.2, p, rfl, hsign, hnext fun last hfind => ?_⟩
    have hall : ∀ e ∈ soleProducer.producerToLastProduced.entries,
        e.2 < subU32 (addU32 soleProducer.blockNum 1) (0 : UInt16).toNat := by decide
    rw [hnum]
    exact hall _ (FlatMap.find_eq_some_iff.mp hfind)

end Forceio.Chain
