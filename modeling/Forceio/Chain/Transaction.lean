import Forceio.Chain.Authority
import Forceio.Lib.Exec

/-!
# Transactions: `action.hpp`, `transaction.hpp`

* `fc::unsigned_int` is a `uint32_t`; a `time_point_sec` is its seconds, a `time_point` and
  `microseconds` are their microseconds.
* `fc::raw::pack`, `sha256` and the recovery of a key from a signature are `fc`'s:
  `TransactionEnv` carries them. A digest is the hash of what was packed into its encoder.
-/

namespace Forceio.Chain

open Forceio.Lib Exec

section Require

variable {σ α : Type}

/-- `EOS_ASSERT` in code with a state. -/
def require (cond : Prop) [Decidable cond] (type : ExceptionType) (what : String) :
    EStateM FcException σ Unit :=
  lift (eosAssert cond type what)

variable {cond : Prop} [Decidable cond] {type : ExceptionType} {what : String} {s t : σ}

theorem require_of_pos (h : cond) : require cond type what s = .ok () s := by
  rw [require, eosAssert, if_pos h]
  rfl

theorem require_of_neg (h : ¬ cond) : require cond type what s = .error ⟨type, what⟩ s := by
  rw [require, eosAssert, if_neg h]
  rfl

theorem require_ok : require cond type what s = .ok () t ↔ cond ∧ t = s := by
  by_cases h : cond
  · rw [require_of_pos h, EStateM.Result.ok.injEq, and_iff_right h, and_iff_right rfl]
    exact eq_comm
  · rw [require_of_neg h]
    exact iff_of_false (by simp) fun hc => h hc.1

theorem require_bind_ok {f : Unit → EStateM FcException σ α} {a : α} :
    (require cond type what >>= f) s = .ok a t ↔ cond ∧ f () s = .ok a t :=
  check_bind_ok require_ok

theorem eosAssert_fails {E : FcException → Prop} (h : E ⟨type, what⟩) :
    Exec.Fails E (eosAssert cond type what) := by
  unfold eosAssert
  split
  · exact .ok ()
  · exact .error h

/-- An assertion that may fail throws its own exception. -/
theorem require_throws {E : FcException → Prop} (h : ¬ cond → E ⟨type, what⟩) :
    Exec.Throws E (require cond type what) s := by
  by_cases hc : cond
  · exact .of_ok (require_of_pos hc)
  · intro e s' he
    rw [require_of_neg hc] at he
    cases he
    exact h hc

end Require

/-- `bytes`. -/
abbrev Bytes := List UInt8

/-- `action`. -/
structure Action where
  account : AccountName
  name : AccountName
  authorization : List PermissionLevel := []
  data : Bytes := []
  deriving DecidableEq

/-- `transaction`, with its `transaction_header`. -/
structure Transaction where
  expiration : UInt32 := 0
  refBlockNum : UInt16 := 0
  refBlockPrefix : UInt32 := 0
  maxNetUsageWords : UInt32 := 0
  maxCpuUsageMs : UInt8 := 0
  delaySec : UInt32 := 0
  contextFreeActions : List Action := []
  actions : List Action := []
  transactionExtensions : List (UInt16 × Bytes) := []
  deriving DecidableEq

/-- What `fc` does with transactions. -/
structure TransactionEnv (Key Sig : Type) where
  pack : Transaction → Bytes
  packSha256 : Sha256 → Bytes
  packContextFreeData : List Bytes → Bytes
  sha256 : Bytes → Sha256
  /-- `public_key_type(signature, digest)`. -/
  recover : Sig → Sha256 → Except FcException Key

namespace Transaction

variable {Key Sig : Type} (env : TransactionEnv Key Sig)

variable (trx : Transaction)

/-- `transaction::id`. -/
def id : Sha256 := env.sha256 (env.pack trx)

/-- `transaction::sig_digest`. -/
def sigDigest (chainId : Sha256) (cfd : List Bytes) : Sha256 :=
  env.sha256 (env.packSha256 chainId ++ env.pack trx ++
    env.packSha256 (if cfd.isEmpty then default else env.sha256 (env.packContextFreeData cfd)))

/-- `transaction_header::set_reference_block`. -/
def setReferenceBlock (referenceBlock : Sha256) : Transaction :=
  { trx with
    refBlockNum := (numFromId referenceBlock).toUInt16
    refBlockPrefix := referenceBlock.hash1.toUInt32 }

end Transaction

end Forceio.Chain
