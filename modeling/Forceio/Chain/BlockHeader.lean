import Mathlib.Tactic.IntervalCases
import Forceio.Chain.Merkle
import Forceio.Lib.Exec
import Forceio.Lib.FlatMap

/-!
# Block headers, schedules and the functions the chain is signed with

Data types of `block_header.hpp`, `producer_schedule.hpp` and `types.hpp`, and `block_header::id`.

* `uint32_t` quantities (block numbers, versions) are `Nat`; every place where the code adds to or
  subtracts from one reduces modulo `2 ^ 32` (`addU32`, `subU32`). A header's `timestamp` is its
  slot, a `UInt32`, and `confirmed` is a `UInt16`, as in the source: the bound on both matters.
* `fc` (hashes, keys, signatures) is not part of the repository. `ChainEnv` carries it:
  `digest_type::hash` on the three types the code hashes, and the recovery of a public key from a
  signature, which may throw. `config::producer_repetitions` is a build parameter.
* `EOS_ASSERT(c, T, msg)` is `eosAssert c .T msg` in `Except FcException`. Where the C++ has no
  defined behaviour (an empty schedule's modulus, a null pointer) the model throws
  `.undefinedBehavior`.
-/

namespace Forceio.Chain

open Forceio.Lib

/-! ## Exceptions -/

/-- The exception classes of `exceptions.hpp` the modelled functions throw. -/
inductive ExceptionType where
  | blockValidateException
  | unlinkableBlockException
  | wrongProducer
  | wrongSigningKey
  | producerScheduleException
  | producerDoubleConfirm
  | producerNotInSchedule
  | forkDatabaseException
  | forkDbBlockNotFound
  | blockLogException
  | signatureException
  | txDuplicateSig
  | rateLimitingStateInconsistent
  | resourceLimitException
  | txCpuUsageExceeded
  | txNetUsageExceeded
  | blockResourceExhausted
  | transactionException
  | txDuplicate
  | expiredTxException
  | txExpTooFarException
  | missingAuthException
  | actionTypeException
  | actionValidateException
  | accountNameExistsException
  | accountQueryException
  | permissionQueryException
  | invalidPermission
  | subjectiveBlockProductionException
  | irrelevantAuthException
  | unlinkableMinPermissionAction
  | txNotFound
  | txNoAuths
  | unsatisfiedAuthorization
  | txIrrelevantSig
  | actorWhitelistException
  | actorBlacklistException
  | keyBlacklistException
  | blockNetUsageExceeded
  | greylistNetUsageExceeded
  | cfaInsideGeneratedTx
  | deferredTxDuplicate
  | invalidTablePayer
  | tableAccessViolation
  | tableNotInCache
  | invalidTableIterator
  | tableOperationNotPermitted
  | invalidContractVmType
  | invalidContractVmVersion
  | setExactCode
  | blockLogUnsupportedVersion
  | blockLogAppendFail
  | reversibleBlocksException
  | iosFailure
  | abiException
  | invalidTypeInsideAbi
  | duplicateAbiTypeDefException
  | duplicateAbiStructDefException
  | duplicateAbiActionDefException
  | duplicateAbiTableDefException
  | duplicateAbiErrMsgDefException
  | duplicateAbiVariantDefException
  | abiRecursionDepthException
  | abiCircularDefException
  | unpackException
  | packException
  | unsupportedAbiVersionException
  | badCastException
  | keyNotFoundException
  | outOfRange
  | logicError
  | undefinedBehavior
  deriving DecidableEq, Repr

/-- A thrown `fc::exception`: its class and its message. -/
structure FcException where
  type : ExceptionType
  what : String
  deriving DecidableEq, Repr

/-- `EOS_ASSERT`. -/
def eosAssert (cond : Prop) [Decidable cond] (type : ExceptionType) (what : String) :
    Except FcException Unit :=
  if cond then .ok () else .error ⟨type, what⟩

theorem eosAssert_eq_ok {cond : Prop} [Decidable cond] {t : ExceptionType} {w : String} {u : Unit} :
    eosAssert cond t w = .ok u ↔ cond := by
  unfold eosAssert
  split <;> simp_all

theorem assert_bind_eq_ok {cond : Prop} [Decidable cond] {t : ExceptionType} {w : String} {β : Type}
    {f : Unit → Except FcException β} {b : β} :
    (eosAssert cond t w >>= f) = .ok b ↔ cond ∧ f () = .ok b :=
  check_bind_eq_ok eosAssert_eq_ok

/-! ## Machine integers -/

/-- `uint32_t` addition. -/
def addU32 (a b : Nat) : Nat := (a + b) % 2 ^ 32

/-- `uint32_t` subtraction. -/
def subU32 (a b : Nat) : Nat := (a + (2 ^ 32 - b % 2 ^ 32)) % 2 ^ 32

theorem addU32_of_lt {a b : Nat} (h : a + b < 2 ^ 32) : addU32 a b = a + b :=
  Nat.mod_eq_of_lt h

theorem subU32_of_le {a b : Nat} (h : b ≤ a) (ha : a < 2 ^ 32) : subU32 a b = a - b := by
  unfold subU32
  rw [Nat.mod_eq_of_lt (lt_of_le_of_lt h ha), show a + (2 ^ 32 - b) = (a - b) + 2 ^ 32 by omega,
    Nat.add_mod_right, Nat.mod_eq_of_lt (by omega)]

/-- `fc::endian_reverse_u32`. -/
def endianReverseU32 (x : UInt32) : UInt32 :=
  ((x >>> 24) &&& (0xFF : UInt32)) ||| ((x >>> 8) &&& (0xFF00 : UInt32)) |||
    ((x <<< 8) &&& (0xFF0000 : UInt32)) ||| ((x <<< 24) &&& (0xFF000000 : UInt32))

/-! ## Digests -/

/-- `fc::sha256`: the four words of `_hash`. -/
structure Sha256 where
  hash0 : UInt64
  hash1 : UInt64
  hash2 : UInt64
  hash3 : UInt64
  deriving DecidableEq, Repr

instance : Inhabited Sha256 := ⟨⟨0, 0, 0, 0⟩⟩

/-- `make_canonical_left`. -/
def makeCanonicalLeft (val : Sha256) : Sha256 :=
  { val with hash0 := val.hash0 &&& 0xFFFFFFFFFFFFFF7F }

/-- `make_canonical_right`. -/
def makeCanonicalRight (val : Sha256) : Sha256 :=
  { val with hash0 := val.hash0 ||| 0x0000000000000080 }

/-- `block_header::num_from_id`. -/
def numFromId (id : Sha256) : UInt32 := endianReverseU32 id.hash0.toUInt32

/-! ## Schedules and headers -/

/-- An account name, a 64-bit value of which only the order is used here. -/
abbrev AccountName := Nat

section Types

variable (Key Sig : Type)

/-- `producer_key`. -/
structure ProducerKey where
  producerName : AccountName
  blockSigningKey : Key
  deriving DecidableEq

/-- `producer_schedule_type`. -/
structure ProducerSchedule where
  version : Nat
  producers : List (ProducerKey Key)
  deriving DecidableEq

instance : Inhabited (ProducerSchedule Key) := ⟨⟨0, []⟩⟩

/-- `block_header`. -/
structure BlockHeader where
  /-- The slot of the `block_timestamp_type`. -/
  timestamp : UInt32 := 0
  producer : AccountName := 0
  confirmed : UInt16 := 1
  previous : Sha256 := default
  transactionMroot : Sha256 := default
  actionMroot : Sha256 := default
  scheduleVersion : Nat := 0
  newProducers : Option (ProducerSchedule Key) := none
  headerExtensions : List (UInt16 × List UInt8) := []
  deriving DecidableEq

/-- `signed_block_header`. -/
structure SignedBlockHeader extends BlockHeader Key where
  producerSignature : Sig
  deriving DecidableEq

/-- `header_confirmation`. -/
structure HeaderConfirmation where
  blockId : Sha256
  producer : AccountName
  producerSignature : Sig
  deriving DecidableEq

/-- What the chain is built over: the hash and signature functions of `fc`, and the build's
`producer_repetitions`. -/
structure ChainEnv where
  producerRepetitions : Nat
  producerRepetitions_pos : 0 < producerRepetitions
  /-- `digest_type::hash(block_header)`. -/
  hashHeader : BlockHeader Key → Sha256
  /-- `digest_type::hash(producer_schedule_type)`. -/
  hashSchedule : ProducerSchedule Key → Sha256
  /-- `digest_type::hash(std::pair<digest_type, digest_type>)`. -/
  hashPair : Sha256 × Sha256 → Sha256
  /-- `fc::crypto::public_key(signature, digest, true)`. -/
  recover : Sig → Sha256 → Except FcException Key

end Types

variable {Key Sig : Type}

/-- `producer_schedule_type::get_producer_key`. -/
def ProducerSchedule.getProducerKey [Inhabited Key] (s : ProducerSchedule Key) (p : AccountName) :
    Key :=
  match s.producers.find? fun i => i.producerName = p with
  | some i => i.blockSigningKey
  | none => default

variable (env : ChainEnv Key Sig)

/-- The hash functions of the block-root tree. -/
def ChainEnv.merkleHash : MerkleHash Sha256 :=
  ⟨env.hashPair, makeCanonicalLeft, makeCanonicalRight⟩

/-- `block_header::digest`. -/
def BlockHeader.digest (h : BlockHeader Key) : Sha256 := env.hashHeader h

/-- `block_header::block_num`. -/
def BlockHeader.blockNum (h : BlockHeader Key) : UInt32 := numFromId h.previous + 1

/-- `block_header::id`: the digest with the block number in its first four bytes. -/
def BlockHeader.id (h : BlockHeader Key) : Sha256 :=
  let result := h.digest env
  { result with
    hash0 := (result.hash0 &&& 0xffffffff00000000) + (endianReverseU32 h.blockNum).toUInt64 }

/-! ## The number in an id -/

theorem endianReverseU32_involutive (x : UInt32) : endianReverseU32 (endianReverseU32 x) = x := by
  refine UInt32.toBitVec_inj.mp (BitVec.eq_of_getLsbD_eq fun i hi => ?_)
  simp only [endianReverseU32, UInt32.toBitVec_or, UInt32.toBitVec_and,
    UInt32.toBitVec_shiftRight, UInt32.toBitVec_shiftLeft, BitVec.getLsbD_or, BitVec.getLsbD_and]
  interval_cases i <;> simp

/-- The low half of a word whose low half was cleared and then added to. -/
theorem toUInt32_cleared_add (x : UInt64) (y : UInt32) :
    ((x &&& 0xffffffff00000000) + y.toUInt64).toUInt32 = y := by
  have hlow : (x &&& 0xffffffff00000000).toUInt32 = 0 := by
    rw [UInt64.toUInt32_and, show (0xffffffff00000000 : UInt64).toUInt32 = 0 by decide,
      UInt32.and_zero]
  rw [UInt64.toUInt32_add, hlow, UInt32.zero_add, UInt32.toUInt32_toUInt64]

/-- **An id holds the number of its block.** -/
theorem numFromId_id (h : BlockHeader Key) : numFromId (h.id env) = h.blockNum := by
  show endianReverseU32 (((h.digest env).hash0 &&& 0xffffffff00000000) +
    (endianReverseU32 h.blockNum).toUInt64).toUInt32 = _
  rw [toUInt32_cleared_add, endianReverseU32_involutive]

end Forceio.Chain
