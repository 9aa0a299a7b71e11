import Forceio.Chain.BlockHeader

/-!
# The header state machine: `block_header_state`

Model of `libraries/chain/block_header_state.cpp` and of the genesis state
`controller_impl::initialize_fork_db` builds.

* `confirm_count` is a list of `uint8_t` values; a decrement is modulo `2 ^ 8` (`decU8`).
* `confirmLoop` is the `while` loop of `set_confirmed`, entry by entry from the newest. It reports
  the index whose counter reached zero, at which the code returns.
* `active_schedule = move(pending_schedule)` leaves `pending_schedule.producers` empty and its
  `version` in place.
* A schedule without producers makes `get_scheduled_producer` divide by zero; `getScheduledProducer`
  is `none` there.

Results:
* `next_eq_ok_iff`: exactly which headers `next` accepts and what it returns.
* `AdvanceSpec`, `NextSpec`, `next_spec`: the fields of the returned state, one by one. Every
  property of header chains is proved from this and never unfolds `next`.
-/

namespace Forceio.Chain

open Forceio.Lib FlatMap

/-- `config::maximum_tracked_dpos_confirmations`. -/
def maximumTrackedDposConfirmations : Nat := 1024

/-- An upper bound on `config::max_producers`, a build parameter (23 by default). The
`static_assert` of `generate_next` asks that `max_producers * 2 / 3 + 1` fit in a `uint8_t`. -/
def maxProducers : Nat := 125

variable {Key Sig : Type}

/-- `block_header_state`. -/
structure BlockHeaderState (Key Sig : Type) where
  id : Sha256
  blockNum : Nat
  header : SignedBlockHeader Key Sig
  dposProposedIrreversibleBlocknum : Nat
  dposIrreversibleBlocknum : Nat
  bftIrreversibleBlocknum : Nat
  pendingScheduleLibNum : Nat
  pendingScheduleHash : Sha256
  pendingSchedule : ProducerSchedule Key
  activeSchedule : ProducerSchedule Key
  blockrootMerkle : IncrementalMerkle Sha256
  producerToLastProduced : FlatMap AccountName Nat
  producerToLastImpliedIrb : FlatMap AccountName Nat
  blockSigningKey : Key
  confirmCount : List Nat
  confirmations : List (HeaderConfirmation Sig)
  deriving DecidableEq

namespace BlockHeaderState

variable (env : ChainEnv Key Sig)

/-- `get_scheduled_producer`. -/
def getScheduledProducer (s : BlockHeaderState Key Sig) (t : UInt32) : Option (ProducerKey Key) :=
  let index := t.toNat % (s.activeSchedule.producers.length * env.producerRepetitions)
  s.activeSchedule.producers[index / env.producerRepetitions]?

/-- `calc_dpos_last_irreversible`, on the map it reads. -/
def calcDposLastIrreversible (impliedIrb : FlatMap AccountName Nat) : Nat :=
  let blocknums := impliedIrb.values
  if blocknums.length = 0 then 0 else orderStat blocknums ((blocknums.length - 1) / 3)

variable (s : BlockHeaderState Key Sig)

/-- `required_confs`: two thirds of the active schedule, plus one. -/
def requiredConfs : Nat :=
  s.activeSchedule.producers.length * 2 / 3 + 1

/-- The counters `generate_next` hands on: one more, or the oldest dropped at the limit. -/
def grownConfirmCount : List Nat :=
  if s.confirmCount.length < maximumTrackedDposConfirmations then
    s.confirmCount ++ [s.requiredConfs % 2 ^ 8]
  else s.confirmCount.drop 1 ++ [s.requiredConfs % 2 ^ 8]

/-- `generate_next` once the time and the producer are known. -/
def template [Inhabited Sig] (env : ChainEnv Key Sig) (s : BlockHeaderState Key Sig) (slot : UInt32)
    (prokey : ProducerKey Key) : BlockHeaderState Key Sig :=
  let blockNum := addU32 s.blockNum 1
  let impliedIrb :=
    s.producerToLastImpliedIrb.set prokey.producerName s.dposProposedIrreversibleBlocknum
  { id := default
    blockNum := blockNum
    header :=
      { timestamp := slot
        producer := prokey.producerName
        previous := s.id
        scheduleVersion := s.activeSchedule.version
        producerSignature := default }
    dposProposedIrreversibleBlocknum := s.dposProposedIrreversibleBlocknum
    dposIrreversibleBlocknum := calcDposLastIrreversible impliedIrb
    bftIrreversibleBlocknum := s.bftIrreversibleBlocknum
    pendingScheduleLibNum := s.pendingScheduleLibNum
    pendingScheduleHash := s.pendingScheduleHash
    pendingSchedule := s.pendingSchedule
    activeSchedule := s.activeSchedule
    blockrootMerkle := s.blockrootMerkle.append env.merkleHash s.id
    producerToLastProduced := s.producerToLastProduced.set prokey.producerName blockNum
    producerToLastImpliedIrb := impliedIrb
    blockSigningKey := prokey.blockSigningKey
    confirmCount := s.grownConfirmCount
    confirmations := [] }

/-- `generate_next`. The null timestamp asks for the slot after the current one. -/
def generateNext [Inhabited Sig] (env : ChainEnv Key Sig) (s : BlockHeaderState Key Sig)
    (slot : UInt32) : Except FcException (BlockHeaderState Key Sig) := do
  let slot ←
    if slot ≠ 0 then do
      eosAssert (s.header.timestamp < slot) .blockValidateException
        "next block must be in the future"
      pure slot
    else pure (s.header.timestamp + 1)
  match s.getScheduledProducer env slot with
  | some prokey => pure (s.template env slot prokey)
  | none => throw ⟨.undefinedBehavior, "modulo by the size of an empty schedule"⟩

/-! ## Confirmations -/

/-- `--confirm_count[i]` on a `uint8_t`. -/
def decU8 (c : Nat) : Nat := (c + 255) % 2 ^ 8

/-- The `while` loop of `set_confirmed`: `i + 1` entries are left, `blocks_to_confirm` of them to
confirm. Returns the counters and the index that reached zero, if one did. -/
def confirmLoop : Nat → Nat → List Nat → List Nat × Option Nat
  | 0, _, confirmCount => (confirmCount, none)
  | _ + 1, 0, confirmCount => (confirmCount, none)
  | i + 1, blocksToConfirm + 1, confirmCount =>
    let confirmCount := confirmCount.modify i decU8
    if confirmCount.getD i 0 = 0 then (confirmCount, some i)
    else confirmLoop i blocksToConfirm confirmCount

/-- `set_confirmed`. -/
def setConfirmed (numPrevBlocks : UInt16) : BlockHeaderState Key Sig :=
  let s := { s with header := { s.header with confirmed := numPrevBlocks } }
  match confirmLoop s.confirmCount.length (numPrevBlocks.toNat + 1) s.confirmCount with
  | (confirmCount, none) => { s with confirmCount := confirmCount }
  | (confirmCount, some i) =>
    { s with
      dposProposedIrreversibleBlocknum := subU32 s.blockNum (s.confirmCount.length - 1 - i)
      confirmCount := confirmCount.drop (i + 1) }

/-! ## Schedules -/

/-- The map of a new schedule: the old entries of its producers, `dflt` for the others. -/
def rebuildMap (producers : List (ProducerKey Key)) (old : FlatMap AccountName Nat) (dflt : Nat) :
    FlatMap AccountName Nat :=
  producers.foldl
    (fun m pro => m.set pro.producerName ((old.find pro.producerName).getD dflt)) empty

theorem find_foldl_rebuild (old : FlatMap AccountName Nat) (dflt : Nat) (q : AccountName) :
    ∀ (producers : List (ProducerKey Key)) (m : FlatMap AccountName Nat), (producers.foldl
        (fun m pro => m.set pro.producerName ((old.find pro.producerName).getD dflt)) m).find q =
        if q ∈ producers.map ProducerKey.producerName then some ((old.find q).getD dflt)
        else m.find q
  | [], m => by simp
  | pro :: producers, m => by
    rw [List.foldl_cons, find_foldl_rebuild old dflt q producers, find_set]
    by_cases hq : q = pro.producerName
    · subst hq
      simp
    · simp [hq]

theorem find_rebuildMap (producers : List (ProducerKey Key)) (old : FlatMap AccountName Nat)
    (dflt : Nat) (q : AccountName) :
    (rebuildMap producers old dflt).find q =
      if q ∈ producers.map ProducerKey.producerName then some ((old.find q).getD dflt)
      else none :=
  find_foldl_rebuild old dflt q producers empty

/-- The condition of `maybe_promote_pending`, at the irreversible number `irr`. -/
def promotesAt (irr : Nat) : Bool :=
  decide (s.pendingSchedule.producers.length ≠ 0) && decide (irr ≥ s.pendingScheduleLibNum)

theorem promotesAt_iff {s : BlockHeaderState Key Sig} {irr : Nat} : s.promotesAt irr = true ↔
      s.pendingSchedule.producers ≠ [] ∧ s.pendingScheduleLibNum ≤ irr := by
  simp [promotesAt]

/-- `maybe_promote_pending`: the new state and whether a schedule was promoted. -/
def maybePromotePending : BlockHeaderState Key Sig × Bool :=
  if s.promotesAt s.dposIrreversibleBlocknum then
    let producers := s.pendingSchedule.producers
    let lastProduced :=
      rebuildMap producers s.producerToLastProduced s.dposIrreversibleBlocknum
    ({ s with
        activeSchedule := s.pendingSchedule
        pendingSchedule := { s.pendingSchedule with producers := [] }
        producerToLastProduced := lastProduced.set s.header.producer s.blockNum
        producerToLastImpliedIrb :=
          rebuildMap producers s.producerToLastImpliedIrb s.dposIrreversibleBlocknum }, true)
  else (s, false)

/-- `set_new_producers`. -/
def setNewProducers (s : BlockHeaderState Key Sig) (pending : ProducerSchedule Key) :
    Except FcException (BlockHeaderState Key Sig) := do
  eosAssert (pending.version = addU32 s.activeSchedule.version 1) .producerScheduleException
    "wrong producer schedule version specified"
  eosAssert (s.pendingSchedule.producers.length = 0) .producerScheduleException
    "cannot set new pending producers until last pending is confirmed"
  pure { s with
    header := { s.header with newProducers := some pending }
    pendingScheduleHash := env.hashSchedule pending
    pendingSchedule := pending
    pendingScheduleLibNum := s.blockNum }

/-! ## Signatures -/

/-- `sig_digest`. -/
def sigDigest (s : BlockHeaderState Key Sig) : Sha256 :=
  let headerBmroot := env.hashPair (s.header.toBlockHeader.digest env, s.blockrootMerkle.getRoot)
  env.hashPair (headerBmroot, s.pendingScheduleHash)

/-- `sign`. -/
def sign [DecidableEq Key] (env : ChainEnv Key Sig) (s : BlockHeaderState Key Sig)
    (signer : Sha256 → Sig) : Except FcException (BlockHeaderState Key Sig) := do
  let d := s.sigDigest env
  let s := { s with header := { s.header with producerSignature := signer d } }
  let key ← env.recover s.header.producerSignature d
  eosAssert (s.blockSigningKey = key) .wrongSigningKey "block is signed with unexpected key"
  pure s

/-- `signee`. -/
def signee (s : BlockHeaderState Key Sig) : Except FcException Key :=
  env.recover s.header.producerSignature (s.sigDigest env)

/-- `verify_signee`. -/
def verifySignee [DecidableEq Key] (s : BlockHeaderState Key Sig) (signee : Key) :
    Except FcException Unit :=
  eosAssert (s.blockSigningKey = signee) .wrongSigningKey "block not signed by expected key"

/-- `add_confirmation`. -/
def addConfirmation [DecidableEq Key] [Inhabited Key] (env : ChainEnv Key Sig)
    (s : BlockHeaderState Key Sig) (conf : HeaderConfirmation Sig) :
    Except FcException (BlockHeaderState Key Sig) := do
  eosAssert (∀ c ∈ s.confirmations, c.producer ≠ conf.producer) .producerDoubleConfirm
    "block already confirmed by this producer"
  let key := s.activeSchedule.getProducerKey conf.producer
  eosAssert (key ≠ default) .producerNotInSchedule "producer not in current schedule"
  let signer ← env.recover conf.producerSignature (s.sigDigest env)
  eosAssert (signer = key) .wrongSigningKey "confirmation not signed by expected key"
  pure { s with confirmations := s.confirmations ++ [conf] }

/-! ## `next` -/

section Next

variable [Inhabited Sig] [DecidableEq Key]

/-- The double-confirmation check of `next`, on the map of the previous state. -/
def checkDoubleConfirm (producer : AccountName) (blockNum : Nat) (confirmed : UInt16) :
    Except FcException Unit :=
  match s.producerToLastProduced.find producer with
  | some last =>
    eosAssert (last < subU32 blockNum confirmed.toNat) .producerDoubleConfirm
      "producer double-confirming known range"
  | none => pure ()

/-- `if (h.new_producers) …` of `next`. -/
def acceptNewProducers (s : BlockHeaderState Key Sig) (promoted : Bool) :
    Option (ProducerSchedule Key) → Except FcException (BlockHeaderState Key Sig)
  | none => pure s
  | some newProducers => do
    eosAssert (promoted = false) .producerScheduleException
      ("cannot set pending producer schedule in the same block in which pending was promoted " ++
        "to active")
    s.setNewProducers env newProducers

/-- The header fields `next` copies, and the id. -/
def fillHeader (s : BlockHeaderState Key Sig) (h : SignedBlockHeader Key Sig) :
    BlockHeaderState Key Sig :=
  let header :=
    { s.header with
      actionMroot := h.actionMroot
      transactionMroot := h.transactionMroot
      producerSignature := h.producerSignature }
  { s with header := header, id := header.toBlockHeader.id env }

/-- `next`. -/
def next (env : ChainEnv Key Sig) (s : BlockHeaderState Key Sig) (h : SignedBlockHeader Key Sig)
    (skipValidateSignee : Bool) : Except FcException (BlockHeaderState Key Sig) := do
  eosAssert (h.timestamp ≠ 0) .blockValidateException ""
  eosAssert (h.headerExtensions.length = 0) .blockValidateException "no supported extensions"
  eosAssert (s.header.timestamp < h.timestamp) .blockValidateException "block must be later in time"
  eosAssert (h.previous = s.id) .unlinkableBlockException "block must link to current state"
  let result ← s.generateNext env h.timestamp
  eosAssert (result.header.producer = h.producer) .wrongProducer "wrong producer specified"
  eosAssert (result.header.scheduleVersion = h.scheduleVersion) .producerScheduleException
    "schedule_version in signed block is corrupted"
  s.checkDoubleConfirm h.producer result.blockNum h.confirmed
  let result := result.setConfirmed h.confirmed
  let (result, wasPendingPromoted) := result.maybePromotePending
  let result ← result.acceptNewProducers env wasPendingPromoted h.newProducers
  let result := result.fillHeader env h
  if skipValidateSignee then pure result
  else do
    let signee ← result.signee env
    result.verifySignee signee
    pure result

end Next

end BlockHeaderState

/-! ## What `next` returns -/

namespace BlockHeaderState

/-- The counters and the proposed number after `set_confirmed(n)` on the counters `cc`. -/
def confirmed (blockNum proposed : Nat) (cc : List Nat) (n : UInt16) : List Nat × Nat :=
  match confirmLoop cc.length (n.toNat + 1) cc with
  | (cc', none) => (cc', proposed)
  | (cc', some i) => (cc'.drop (i + 1), subU32 blockNum (cc.length - 1 - i))

/-- `set_confirmed` writes the header's count, the counters and the proposed number only. -/
theorem setConfirmed_eq (s : BlockHeaderState Key Sig) (n : UInt16) : s.setConfirmed n = { s with
        header := { s.header with confirmed := n }
        confirmCount := (confirmed s.blockNum s.dposProposedIrreversibleBlocknum s.confirmCount n).1
        dposProposedIrreversibleBlocknum :=
          (confirmed s.blockNum s.dposProposedIrreversibleBlocknum s.confirmCount n).2 } := by
  unfold setConfirmed confirmed
  simp only
  split <;> rfl

/-- The state after `s` with the header `h`, field by field, whichever of the two ways it is computed:
by `next` from a received header, or by the producer of the block. -/
structure AdvanceSpec (env : ChainEnv Key Sig) (s : BlockHeaderState Key Sig)
    (h : SignedBlockHeader Key Sig) (r : BlockHeaderState Key Sig) : Prop where
  later : s.header.timestamp < h.timestamp
  previous : h.previous = s.id
  header : r.header = h
  id : r.id = h.toBlockHeader.id env
  blockNum : r.blockNum = addU32 s.blockNum 1
  producer : ∃ pk, s.getScheduledProducer env h.timestamp = some pk ∧
    pk.producerName = h.producer ∧ r.blockSigningKey = pk.blockSigningKey
  scheduleVersion : h.scheduleVersion = s.activeSchedule.version
  irreversible : r.dposIrreversibleBlocknum =
    calcDposLastIrreversible
      (s.producerToLastImpliedIrb.set h.producer s.dposProposedIrreversibleBlocknum)
  bft : r.bftIrreversibleBlocknum = s.bftIrreversibleBlocknum
  counters : (r.confirmCount, r.dposProposedIrreversibleBlocknum) =
    confirmed r.blockNum s.dposProposedIrreversibleBlocknum s.grownConfirmCount h.confirmed
  active : r.activeSchedule =
    if s.promotesAt r.dposIrreversibleBlocknum then s.pendingSchedule else s.activeSchedule
  impliedIrb : r.producerToLastImpliedIrb = if s.promotesAt r.dposIrreversibleBlocknum then
      rebuildMap s.pendingSchedule.producers
        (s.producerToLastImpliedIrb.set h.producer s.dposProposedIrreversibleBlocknum)
        r.dposIrreversibleBlocknum
    else s.producerToLastImpliedIrb.set h.producer s.dposProposedIrreversibleBlocknum
  lastProduced : r.producerToLastProduced = if s.promotesAt r.dposIrreversibleBlocknum then
      (rebuildMap s.pendingSchedule.producers
        (s.producerToLastProduced.set h.producer r.blockNum) r.dposIrreversibleBlocknum).set
        h.producer r.blockNum
    else s.producerToLastProduced.set h.producer r.blockNum
  pendingKept : h.newProducers = none → r.pendingScheduleLibNum = s.pendingScheduleLibNum ∧
      r.pendingSchedule =
        if s.promotesAt r.dposIrreversibleBlocknum then { s.pendingSchedule with producers := [] }
        else s.pendingSchedule
  pendingNew : ∀ np, h.newProducers = some np →
    s.pendingSchedule.producers = [] ∧ r.pendingSchedule = np ∧
      r.pendingScheduleLibNum = r.blockNum ∧ np.version = addU32 s.activeSchedule.version 1
  confirmations : r.confirmations = []

/-- **The state `next` returns**: it also checked the range of the header. -/
structure NextSpec (env : ChainEnv Key Sig) (s : BlockHeaderState Key Sig)
    (h : SignedBlockHeader Key Sig) (r : BlockHeaderState Key Sig) : Prop
    extends AdvanceSpec env s h r where
  notDouble : ∀ last, s.producerToLastProduced.find h.producer = some last →
    last < subU32 r.blockNum h.confirmed.toNat

variable {env : ChainEnv Key Sig} {s x : BlockHeaderState Key Sig}

theorem setNewProducers_eq_ok_iff {p : ProducerSchedule Key} : s.setNewProducers env p = .ok x ↔
      p.version = addU32 s.activeSchedule.version 1 ∧ s.pendingSchedule.producers = [] ∧
        x = { s with
          header := { s.header with newProducers := some p }
          pendingScheduleHash := env.hashSchedule p
          pendingSchedule := p
          pendingScheduleLibNum := s.blockNum } := by
  unfold setNewProducers
  simp only [assert_bind_eq_ok, List.length_eq_zero_iff, pure, Except.pure, Except.ok.injEq]
  refine and_congr_right fun _ => and_congr_right fun _ => ?_
  exact eq_comm

theorem acceptNewProducers_cases {promoted : Bool} {np : Option (ProducerSchedule Key)}
    (h : s.acceptNewProducers env promoted np = .ok x) :
    (np = none ∧ x = s) ∨
      ∃ p, np = some p ∧ promoted = false ∧ s.setNewProducers env p = .ok x := by
  cases np with
  | none => exact Or.inl ⟨rfl, (Except.ok.inj h).symm⟩
  | some p =>
    rw [acceptNewProducers, assert_bind_eq_ok] at h
    exact Or.inr ⟨p, rfl, h⟩

theorem maybePromotePending_eq (s : BlockHeaderState Key Sig) : s.maybePromotePending = ({ s with
          activeSchedule :=
            if s.promotesAt s.dposIrreversibleBlocknum then s.pendingSchedule else s.activeSchedule
          pendingSchedule :=
            if s.promotesAt s.dposIrreversibleBlocknum then
              { s.pendingSchedule with producers := [] }
            else s.pendingSchedule
          producerToLastProduced :=
            if s.promotesAt s.dposIrreversibleBlocknum then
              (rebuildMap s.pendingSchedule.producers s.producerToLastProduced
                s.dposIrreversibleBlocknum).set s.header.producer s.blockNum
            else s.producerToLastProduced
          producerToLastImpliedIrb :=
            if s.promotesAt s.dposIrreversibleBlocknum then
              rebuildMap s.pendingSchedule.producers s.producerToLastImpliedIrb
                s.dposIrreversibleBlocknum
            else s.producerToLastImpliedIrb }, s.promotesAt s.dposIrreversibleBlocknum) := by
  unfold maybePromotePending
  cases s.promotesAt s.dposIrreversibleBlocknum <;> rfl

/-- The state after `generate_next`, `set_confirmed` and `maybe_promote_pending`, written out. -/
def advanced [Inhabited Sig] (env : ChainEnv Key Sig) (s : BlockHeaderState Key Sig) (slot : UInt32)
    (producer : AccountName) (key : Key) (n : UInt16) : BlockHeaderState Key Sig :=
  let t := s.template env slot ⟨producer, key⟩
  let irr := t.dposIrreversibleBlocknum
  let c := confirmed t.blockNum s.dposProposedIrreversibleBlocknum s.grownConfirmCount n
  { t with
    header := { t.header with confirmed := n }
    dposProposedIrreversibleBlocknum := c.2
    pendingSchedule :=
      if s.promotesAt irr then { s.pendingSchedule with producers := [] } else s.pendingSchedule
    activeSchedule := if s.promotesAt irr then s.pendingSchedule else s.activeSchedule
    producerToLastProduced :=
      if s.promotesAt irr then
        (rebuildMap s.pendingSchedule.producers t.producerToLastProduced irr).set producer t.blockNum
      else t.producerToLastProduced
    producerToLastImpliedIrb :=
      if s.promotesAt irr then rebuildMap s.pendingSchedule.producers t.producerToLastImpliedIrb irr
      else t.producerToLastImpliedIrb
    confirmCount := c.1 }

theorem maybePromotePending_template [Inhabited Sig] (env : ChainEnv Key Sig)
    (s : BlockHeaderState Key Sig) (slot : UInt32) (pk : ProducerKey Key) (n : UInt16) :
    ((s.template env slot pk).setConfirmed n).maybePromotePending =
      (s.advanced env slot pk.producerName pk.blockSigningKey n,
        s.promotesAt (calcDposLastIrreversible
          (s.producerToLastImpliedIrb.set pk.producerName s.dposProposedIrreversibleBlocknum))) := by
  rw [maybePromotePending_eq, setConfirmed_eq]
  rfl

theorem checkDoubleConfirm_eq_ok_iff {producer : AccountName} {n : Nat} {c : UInt16} :
    s.checkDoubleConfirm producer n c = .ok () ↔
      ∀ last, s.producerToLastProduced.find producer = some last → last < subU32 n c.toNat := by
  unfold checkDoubleConfirm
  cases s.producerToLastProduced.find producer with
  | none => exact iff_of_true rfl fun _ h => absurd h (by simp)
  | some last => simp only [eosAssert_eq_ok, Option.some.injEq, forall_eq']

theorem checkDoubleConfirm_eq_error {producer : AccountName} {n last : Nat} {c : UInt16}
    (hfind : s.producerToLastProduced.find producer = some last) (hle : subU32 n c.toNat ≤ last) :
    s.checkDoubleConfirm producer n c =
      .error ⟨.producerDoubleConfirm, "producer double-confirming known range"⟩ := by
  unfold checkDoubleConfirm
  rw [hfind]
  exact if_neg (not_lt.mpr hle)

/-- The header of the result is the accepted header, whatever `new_producers` holds. -/
theorem fillHeader_header {h : SignedBlockHeader Key Sig} (h1 : x.header.timestamp = h.timestamp)
    (h2 : x.header.producer = h.producer) (h3 : x.header.confirmed = h.confirmed)
    (h4 : x.header.previous = h.previous) (h5 : x.header.scheduleVersion = h.scheduleVersion)
    (h6 : x.header.newProducers = h.newProducers)
    (h7 : x.header.headerExtensions = h.headerExtensions) : (x.fillHeader env h).header = h := by
  simp only [fillHeader, h1, h2, h3, h4, h5, h6, h7]

section NextOk

variable [Inhabited Sig]

variable {env : ChainEnv Key Sig} {s r : BlockHeaderState Key Sig} {h : SignedBlockHeader Key Sig}

theorem generateNext_eq_ok_iff {slot : UInt32} (hslot : slot ≠ 0) :
    s.generateNext env slot = .ok r ↔ s.header.timestamp < slot ∧
        ∃ pk, s.getScheduledProducer env slot = some pk ∧ r = s.template env slot pk := by
  unfold generateNext
  rw [if_pos hslot]
  simp only [assert_bind_eq_ok, pure_bind]
  refine and_congr Iff.rfl ?_
  cases s.getScheduledProducer env slot with
  | none => simp [throw, throwThe, MonadExceptOf.throw]
  | some pk =>
    simp only [Option.some.injEq, exists_eq_left', pure, Except.pure, Except.ok.injEq]
    exact eq_comm

theorem generateNext_template {slot : UInt32} (h : s.generateNext env slot = .ok r) :
    ∃ slot' pk, r = s.template env slot' pk := by
  by_cases hslot : slot ≠ 0
  · obtain ⟨-, pk, -, rfl⟩ := (generateNext_eq_ok_iff hslot).mp h
    exact ⟨slot, pk, rfl⟩
  · unfold generateNext at h
    rw [if_neg hslot] at h
    simp only [pure_bind] at h
    split at h
    · exact ⟨_, _, (Except.ok.inj h).symm⟩
    · simp [throw, throwThe, MonadExceptOf.throw] at h

/-- `next` without the signature check, from the template on. -/
def unsignedNext (env : ChainEnv Key Sig) (s : BlockHeaderState Key Sig)
    (h : SignedBlockHeader Key Sig) (pk : ProducerKey Key) :
    Except FcException (BlockHeaderState Key Sig) :=
  let p := ((s.template env h.timestamp pk).setConfirmed h.confirmed).maybePromotePending
  p.1.acceptNewProducers env p.2 h.newProducers

/-- What a header adds to a state, once its slot, producer and version are the expected ones. -/
theorem unsignedNext_spec {x : BlockHeaderState Key Sig} {pk : ProducerKey Key}
    (hext : h.headerExtensions = []) (hlt : s.header.timestamp < h.timestamp)
    (hprev : h.previous = s.id) (hpk : s.getScheduledProducer env h.timestamp = some pk)
    (hp : pk.producerName = h.producer) (hv : s.activeSchedule.version = h.scheduleVersion)
    (hx : unsignedNext env s h pk = .ok x) : AdvanceSpec env s h (x.fillHeader env h) := by
  unfold unsignedNext at hx
  rw [maybePromotePending_template, hp] at hx
  have hhead : (x.fillHeader env h).header = h := by
    rcases acceptNewProducers_cases hx with ⟨hnp, rfl⟩ | ⟨np, hnp, -, hset⟩
    · exact fillHeader_header rfl rfl rfl hprev.symm hv hnp.symm hext.symm
    · obtain ⟨-, -, rfl⟩ := setNewProducers_eq_ok_iff.mp hset
      exact fillHeader_header rfl rfl rfl hprev.symm hv hnp.symm hext.symm
  have hid : (x.fillHeader env h).id = h.toBlockHeader.id env :=
    congrArg (fun z => z.toBlockHeader.id env) hhead
  rcases acceptNewProducers_cases hx with ⟨hnp, rfl⟩ | ⟨np, hnp, hprom, hset⟩
  · refine ⟨hlt, hprev, hhead, hid, rfl, ⟨pk, hpk, hp, rfl⟩, hv.symm, rfl, rfl, rfl, rfl, rfl,
      rfl, fun _ => ⟨rfl, rfl⟩, fun np h1 => ?_, rfl⟩
    rw [hnp] at h1
    simp at h1
  · obtain ⟨hver, hempty, rfl⟩ := setNewProducers_eq_ok_iff.mp hset
    refine ⟨hlt, hprev, hhead, hid, rfl, ⟨pk, hpk, hp, rfl⟩, hv.symm, rfl, rfl, rfl, rfl, rfl,
      rfl, fun h1 => ?_, fun np' h1 => ?_, rfl⟩
    · rw [hnp] at h1
      simp at h1
    · rw [hnp] at h1
      obtain rfl := Option.some.inj h1
      simp only at hprom
      simp only [advanced, template, hprom, Bool.false_eq_true, if_false] at hempty hver
      exact ⟨hempty, rfl, rfl, hver⟩

variable [DecidableEq Key]

/-- **What `next` accepts.** -/
theorem next_eq_ok_iff {skip : Bool} : s.next env h skip = .ok r ↔
      h.timestamp ≠ 0 ∧ h.headerExtensions = [] ∧ s.header.timestamp < h.timestamp ∧
        h.previous = s.id ∧ ∃ pk, s.getScheduledProducer env h.timestamp = some pk ∧
          pk.producerName = h.producer ∧ s.activeSchedule.version = h.scheduleVersion ∧
          s.checkDoubleConfirm h.producer (addU32 s.blockNum 1) h.confirmed = .ok () ∧
          ∃ x, unsignedNext env s h pk = .ok x ∧ r = x.fillHeader env h ∧
            (skip = false → r.signee env = .ok r.blockSigningKey) := by
  unfold next
  simp only [assert_bind_eq_ok, List.length_eq_zero_iff]
  refine and_congr_right fun h0 => and_congr_right fun _ => and_congr_right fun hlt =>
    and_congr_right fun _ => ?_
  simp only [bind_eq_ok, generateNext_eq_ok_iff h0, eosAssert_eq_ok, exists_const]
  constructor
  · rintro ⟨t, ⟨-, pk, hpk, rfl⟩, hp, hv, ⟨⟩, hd, x, hx, hr⟩
    refine ⟨pk, hpk, hp, hv, hd, x, hx, ?_⟩
    cases skip with
    | true =>
      simp only [if_true, pure, Except.pure, Except.ok.injEq] at hr
      exact ⟨hr.symm, fun hs => absurd hs (by simp)⟩
    | false =>
      simp only [Bool.false_eq_true, if_false, bind_eq_ok, verifySignee, eosAssert_eq_ok, pure,
        Except.pure, Except.ok.injEq, exists_const] at hr
      obtain ⟨key, hkey, hk, rfl⟩ := hr
      exact ⟨rfl, fun _ => by rw [hkey, hk]⟩
  · rintro ⟨pk, hpk, hp, hv, hd, x, hx, rfl, hs⟩
    refine ⟨_, ⟨hlt, pk, hpk, rfl⟩, hp, hv, (), hd, x, hx, ?_⟩
    cases skip with
    | true => rfl
    | false =>
      simp only [Bool.false_eq_true, if_false, bind_eq_ok, verifySignee, eosAssert_eq_ok,
        exists_const]
      exact ⟨_, hs rfl, rfl, rfl⟩

/-- On a header that fits the state in everything but its range, `next` is the range check. -/
theorem next_eq_checkDoubleConfirm {x : BlockHeaderState Key Sig} {pk : ProducerKey Key}
    (h0 : h.timestamp ≠ 0) (hext : h.headerExtensions = []) (hlt : s.header.timestamp < h.timestamp)
    (hprev : h.previous = s.id) (hpk : s.getScheduledProducer env h.timestamp = some pk)
    (hp : pk.producerName = h.producer) (hv : s.activeSchedule.version = h.scheduleVersion)
    (hx : unsignedNext env s h pk = .ok x)
    (hkey : (x.fillHeader env h).signee env = .ok (x.fillHeader env h).blockSigningKey) :
    s.next env h false =
      s.checkDoubleConfirm h.producer (addU32 s.blockNum 1) h.confirmed >>= fun _ =>
        pure (x.fillHeader env h) := by
  have hgen : s.generateNext env h.timestamp = .ok (s.template env h.timestamp pk) :=
    (generateNext_eq_ok_iff h0).mpr ⟨hlt, pk, hpk, rfl⟩
  have hok : ∀ {c : Prop} [Decidable c] (t : ExceptionType) (w : String), c →
      eosAssert c t w = .ok () := fun t w hc => eosAssert_eq_ok.mpr hc
  have hverify : (x.fillHeader env h).verifySignee (x.fillHeader env h).blockSigningKey = .ok () :=
    eosAssert_eq_ok.mpr rfl
  unfold next
  rw [hok _ _ h0, hok _ _ (by rw [hext]; rfl), hok _ _ hlt, hok _ _ hprev, hgen]
  simp only [bind, Except.bind]
  rw [hok _ _ (show (s.template env h.timestamp pk).header.producer = h.producer from hp),
    hok _ _ (show (s.template env h.timestamp pk).header.scheduleVersion = h.scheduleVersion from hv)]
  unfold unsignedNext at hx
  simp only [hx, Bool.false_eq_true, if_false, hkey, hverify]
  rfl

/-- **Every accepted header meets `NextSpec`.** -/
theorem next_spec {skip : Bool} (hn : s.next env h skip = .ok r) : NextSpec env s h r := by
  obtain ⟨-, hext, hlt, hprev, pk, hpk, hp, hv, hd, x, hx, rfl, -⟩ := next_eq_ok_iff.mp hn
  have hspec := unsignedNext_spec hext hlt hprev hpk hp hv hx
  exact ⟨hspec, checkDoubleConfirm_eq_ok_iff.mp (by rw [hspec.blockNum]; exact hd)⟩

end NextOk

end BlockHeaderState

/-! ## Genesis -/

/-- The part of `genesis_state` the header state is built from. Slot `0` is the timestamp the code
treats as unset (`block_timestamp_type()`), so a genesis time is a later one. -/
structure GenesisState (Key : Type) where
  /-- The slot of `initial_timestamp`. -/
  initialTimestamp : UInt32
  initialTimestamp_pos : 0 < initialTimestamp
  initialProducerList : List (ProducerKey Key)
  /-- `compute_chain_id()`. -/
  chainId : Sha256

/-- The header state of `initialize_fork_db`: the initial schedule both active and pending. -/
def GenesisState.headerState [Inhabited Key] [Inhabited Sig] (env : ChainEnv Key Sig)
    (g : GenesisState Key) : BlockHeaderState Key Sig :=
  let initialSchedule : ProducerSchedule Key := ⟨0, g.initialProducerList⟩
  let header : SignedBlockHeader Key Sig :=
    { timestamp := g.initialTimestamp
      actionMroot := g.chainId
      producerSignature := default }
  { id := header.toBlockHeader.id env
    blockNum := header.toBlockHeader.blockNum.toNat
    header := header
    dposProposedIrreversibleBlocknum := 0
    dposIrreversibleBlocknum := 0
    bftIrreversibleBlocknum := 0
    pendingScheduleLibNum := 0
    pendingScheduleHash := env.hashSchedule initialSchedule
    pendingSchedule := initialSchedule
    activeSchedule := initialSchedule
    blockrootMerkle := IncrementalMerkle.empty Sha256
    producerToLastProduced := empty
    producerToLastImpliedIrb := empty
    blockSigningKey := default
    confirmCount := []
    confirmations := [] }

end Forceio.Chain
