import Mathlib.Data.Finset.Insert
import Forceio.Chain.Transaction

/-!
# The keys of a transaction's signatures: `transaction::get_signature_keys`

Recovering a key from a signature is slow, so the function keeps the last thousand keys it recovered
in a cache of the thread. The cache is keyed by the signature, and an entry is used if it was made
for the same transaction id.

* The cache is a sequence with unique signatures: `emplace_back` of a signature that is there does
  nothing. An exception leaves the entries made before it, and nothing is evicted then.
* `public_key_type(sig, digest)` is any function, which may throw.
* A history is any list of calls; the cache of a new thread is empty.

A transaction id does not cover the chain id and the context-free data, the signed digest does.

Results:
* `getSignatureKeys_cached`: the cache changes nothing if the earlier calls with the same
  transaction id and one of the signatures had the same digest.
* `getSignatureKeys_stale`: otherwise it may.
-/

namespace Forceio.Chain

open Forceio.Lib Exec List

variable {Key Sig : Type}

/-! ## The function -/

/-- `cached_pub_key`. -/
structure CachedPubKey (Key Sig : Type) where
  trxId : Sha256
  pubKey : Key
  sig : Sig

/-- `recovery_cache_type`. -/
abbrev RecoveryCache (Key Sig : Type) := List (CachedPubKey Key Sig)

/-- `recovery_cache_size`. -/
def recoveryCacheSize : Nat := 1000

namespace RecoveryCache

/-- Erase from the front down to `recovery_cache_size`. -/
def trim (cache : RecoveryCache Key Sig) : RecoveryCache Key Sig :=
  drop (length cache - recoveryCacheSize) cache

variable [DecidableEq Sig]

/-- `recovery_cache.get<by_sig>().find(sig)`. -/
def find (cache : RecoveryCache Key Sig) (sig : Sig) : Option (CachedPubKey Key Sig) :=
  find? (fun e => e.sig = sig) cache

/-- `emplace_back`, which fails for a signature that is there. -/
def emplaceBack (cache : RecoveryCache Key Sig) (e : CachedPubKey Key Sig) :
    RecoveryCache Key Sig :=
  if (cache.find e.sig).isSome then cache else cache ++ [e]

theorem mem_emplaceBack {cache : RecoveryCache Key Sig} {e e' : CachedPubKey Key Sig}
    (h : e' ∈ cache.emplaceBack e) : e' ∈ cache ∨ e' = e := by
  unfold emplaceBack at h
  split at h
  · exact .inl h
  · simpa using h

end RecoveryCache

/-- Code over the thread's recovery cache. -/
abbrev RecoveryM (Key Sig α : Type) := EStateM FcException (RecoveryCache Key Sig) α

variable [DecidableEq Sig]

namespace Transaction

variable (env : TransactionEnv Key Sig)

/-- Recover the key of `sig` and remember it for the transaction `id`. -/
def recoverAndCache (id digest : Sha256) (sig : Sig) : RecoveryM Key Sig Key := do
  let recov ← lift (env.recover sig digest)
  modify fun cache => cache.emplaceBack ⟨id, recov, sig⟩
  return recov

/-- The key of one signature. -/
def recoverKey (id digest : Sha256) (useCache : Bool) (sig : Sig) : RecoveryM Key Sig Key := do
  if useCache then
    let cache ← get
    match cache.find sig with
    | some e => if e.trxId ≠ id then recoverAndCache env id digest sig else return e.pubKey
    | none => recoverAndCache env id digest sig
  else lift (env.recover sig digest)

variable [DecidableEq Key]

/-- The loop over the signatures. -/
def recoverKeys (id digest : Sha256) (allowDuplicateKeys useCache : Bool) :
    List Sig → Finset Key → RecoveryM Key Sig (Finset Key)
  | [], keys => return keys
  | sig :: sigs, keys => do
    let recov ← recoverKey env id digest useCache sig
    require (allowDuplicateKeys = true ∨ recov ∉ keys) .txDuplicateSig
      ("transaction includes more than one signature signed using the same key " ++
        "associated with public key: ${key}")
    recoverKeys id digest allowDuplicateKeys useCache sigs (insert recov keys)

/-- `transaction::get_signature_keys`. -/
def getSignatureKeys (trx : Transaction) (signatures : List Sig) (chainId : Sha256)
    (cfd : List Bytes) (allowDuplicateKeys useCache : Bool) : RecoveryM Key Sig (Finset Key) := do
  let digest := trx.sigDigest env chainId cfd
  let keys ← recoverKeys env (trx.id env) digest allowDuplicateKeys useCache signatures ∅
  if useCache then modify RecoveryCache.trim
  return keys

end Transaction

/-! ## Histories -/

/-- The arguments of a call. -/
structure KeysCall (Sig : Type) where
  trx : Transaction
  signatures : List Sig
  chainId : Sha256
  cfd : List Bytes
  allowDuplicateKeys : Bool := false
  useCache : Bool := true

namespace KeysCall

variable [DecidableEq Key] (env : TransactionEnv Key Sig)

/-- The digest the call's signatures sign. -/
def digest (call : KeysCall Sig) : Sha256 := call.trx.sigDigest env call.chainId call.cfd

/-- The call, with or without the cache. -/
def exec (call : KeysCall Sig) (useCache : Bool) : RecoveryM Key Sig (Finset Key) :=
  call.trx.getSignatureKeys env call.signatures call.chainId call.cfd call.allowDuplicateKeys
    useCache

end KeysCall

/-- The cache after a history of calls, those that threw included. -/
def runCalls [DecidableEq Key] (env : TransactionEnv Key Sig) (calls : List (KeysCall Sig)) :
    RecoveryCache Key Sig :=
  calls.foldl (fun cache call => stateOf (call.exec env call.useCache cache)) []

/-! ## What the cache holds -/

namespace Transaction

variable {env : TransactionEnv Key Sig} {id' digest : Sha256} {sig : Sig}
  {cache : RecoveryCache Key Sig}

/-- An entry was recovered from one of `sigs` for the transaction `id'` and `digest`. -/
def MadeFor (env : TransactionEnv Key Sig) (id' digest : Sha256) (sigs : List Sig)
    (e : CachedPubKey Key Sig) : Prop :=
  e.trxId = id' ∧ e.sig ∈ sigs ∧ env.recover e.sig digest = .ok e.pubKey

theorem recoverAndCache_of_ok {k : Key} (h : env.recover sig digest = .ok k) :
    recoverAndCache env id' digest sig cache = .ok k (cache.emplaceBack ⟨id', k, sig⟩) := by
  unfold recoverAndCache
  rw [bind_of_ok (lift_of_ok h)]
  rfl

theorem recoverAndCache_of_error {e : FcException} (h : env.recover sig digest = .error e) :
    recoverAndCache env id' digest sig cache = .error e cache := by
  unfold recoverAndCache
  rw [bind_of_error (lift_of_error h)]

theorem recoverAndCache_entries : ∀ e ∈ stateOf (recoverAndCache env id' digest sig cache),
      e ∈ cache ∨ MadeFor env id' digest [sig] e := by
  intro e he
  cases h : env.recover sig digest with
  | error x =>
    rw [recoverAndCache_of_error h] at he
    exact .inl he
  | ok k =>
    rw [recoverAndCache_of_ok h] at he
    rcases RecoveryCache.mem_emplaceBack he with he | rfl
    · exact .inl he
    · exact .inr ⟨rfl, mem_singleton.mpr rfl, h⟩

/-- With the cache, a key is recovered, or taken from the entry for the signature and the
transaction. -/
theorem recoverKey_cached_cases (env : TransactionEnv Key Sig) (id' digest : Sha256) (sig : Sig)
    (cache : RecoveryCache Key Sig) :
    recoverKey env id' digest true sig cache = recoverAndCache env id' digest sig cache ∨
      ∃ e ∈ cache, e.sig = sig ∧ e.trxId = id' ∧
        recoverKey env id' digest true sig cache = .ok e.pubKey cache := by
  cases hfind : cache.find sig with
  | none =>
    refine .inl ?_
    show (match cache.find sig with | some e => _ | none => _ : RecoveryM Key Sig Key) cache = _
    rw [hfind]
  | some e =>
    have hsig : e.sig = sig := by simpa using find?_some hfind
    by_cases hid : e.trxId = id'
    · refine .inr ⟨e, mem_of_find?_eq_some hfind, hsig, hid, ?_⟩
      show (match cache.find sig with | some e => _ | none => _ : RecoveryM Key Sig Key) cache = _
      rw [hfind]
      exact congrFun (if_neg (not_not.mpr hid)) cache
    · refine .inl ?_
      show (match cache.find sig with | some e => _ | none => _ : RecoveryM Key Sig Key) cache = _
      rw [hfind]
      exact congrFun (if_pos hid) cache

theorem recoverKey_entries (env : TransactionEnv Key Sig) (id' digest : Sha256) (useCache : Bool)
    (sig : Sig) (cache : RecoveryCache Key Sig) :
    ∀ e ∈ stateOf (recoverKey env id' digest useCache sig cache),
      e ∈ cache ∨ (useCache = true ∧ MadeFor env id' digest [sig] e) := by
  intro e he
  cases useCache with
  | false =>
    cases h : env.recover sig digest with
    | error x =>
      rw [show recoverKey env id' digest false sig cache = _ from lift_of_error h] at he
      exact .inl he
    | ok k =>
      rw [show recoverKey env id' digest false sig cache = _ from lift_of_ok h] at he
      exact .inl he
  | true =>
    rcases recoverKey_cached_cases env id' digest sig cache with hrun | ⟨e', -, -, -, hrun⟩
    · rw [hrun] at he
      exact (recoverAndCache_entries e he).imp_right fun h => ⟨rfl, h⟩
    · rw [hrun] at he
      exact .inl he

omit [DecidableEq Sig] in
theorem MadeFor.mono {sigs sigs' : List Sig} (hsub : sigs ⊆ sigs') {e : CachedPubKey Key Sig}
    (h : MadeFor env id' digest sigs e) : MadeFor env id' digest sigs' e :=
  ⟨h.1, hsub h.2.1, h.2.2⟩

variable [DecidableEq Key]

theorem recoverKeys_entries (allow useCache : Bool) :
    ∀ (sigs : List Sig) (keys : Finset Key) (cache : RecoveryCache Key Sig),
      ∀ e ∈ stateOf (recoverKeys env id' digest allow useCache sigs keys cache),
        e ∈ cache ∨ (useCache = true ∧ MadeFor env id' digest sigs e)
  | [], _, _, _, he => .inl he
  | sig :: sigs, keys, cache, e, he => by
    have hone := recoverKey_entries env id' digest useCache sig cache
    have hlift : ∀ e', e' ∈ cache ∨ (useCache = true ∧ MadeFor env id' digest [sig] e') →
        e' ∈ cache ∨ (useCache = true ∧ MadeFor env id' digest (sig :: sigs) e') :=
      fun e' h => h.imp_right fun h => ⟨h.1, h.2.mono (by simp)⟩
    unfold recoverKeys at he
    cases hrun : recoverKey env id' digest useCache sig cache with
    | error x cache' =>
      rw [hrun] at hone
      rw [bind_of_error hrun] at he
      exact hlift e (hone e he)
    | ok k cache' =>
      rw [hrun] at hone
      rw [bind_of_ok hrun] at he
      by_cases hcond : allow = true ∨ k ∉ keys
      · rw [bind_of_ok (require_of_pos hcond)] at he
        rcases recoverKeys_entries allow useCache sigs _ cache' e he with he | ⟨hc, he⟩
        · exact hlift e (hone e he)
        · exact .inr ⟨hc, he.mono (subset_cons_self sig sigs)⟩
      · rw [bind_of_error (require_of_neg hcond)] at he
        exact hlift e (hone e he)

/-- The loop gives the same with a cache that is right about the signatures as without. -/
theorem recoverKeys_cached (allow : Bool) :
    ∀ (sigs : List Sig) (keys : Finset Key) (cache cache' : RecoveryCache Key Sig),
      (∀ e ∈ cache, e.trxId = id' → e.sig ∈ sigs → env.recover e.sig digest = .ok e.pubKey) →
      outcome (recoverKeys env id' digest allow true sigs keys cache) =
        outcome (recoverKeys env id' digest allow false sigs keys cache')
  | [], _, _, _, _ => rfl
  | sig :: sigs, keys, cache, cache', hright => by
    -- one key: the same result, from an entry or recovered, and the cache stays right
    have hone : ∃ cache1, (∀ e ∈ cache1, e.trxId = id' → e.sig ∈ sigs →
        env.recover e.sig digest = .ok e.pubKey) ∧
        recoverKey env id' digest true sig cache = lift (env.recover sig digest) cache1 := by
      rcases recoverKey_cached_cases env id' digest sig cache with
        hrun | ⟨e, he, hsig, hid, hrun⟩
      · refine ⟨stateOf (recoverAndCache env id' digest sig cache), fun e he hid hmem => ?_, ?_⟩
        · rcases recoverAndCache_entries e he with he | he
          · exact hright e he hid (mem_cons_of_mem sig hmem)
          · exact he.2.2
        · rw [hrun]
          cases h : env.recover sig digest with
          | error x => rw [recoverAndCache_of_error h]; rfl
          | ok k => rw [recoverAndCache_of_ok h]; rfl
      · refine ⟨cache, fun e he hid hmem => hright e he hid (mem_cons_of_mem sig hmem), ?_⟩
        have hk := hright e he hid (hsig ▸ mem_cons_self)
        rw [hsig] at hk
        rw [hrun, lift_of_ok hk]
    obtain ⟨cache1, hright1, hrun⟩ := hone
    unfold recoverKeys
    cases h : env.recover sig digest with
    | error x =>
      rw [bind_of_error (hrun.trans (lift_of_error h)), bind_of_error
        (show recoverKey env id' digest false sig cache' = .error x cache' from
          lift_of_error h)]
      rfl
    | ok k =>
      rw [bind_of_ok (hrun.trans (lift_of_ok h)), bind_of_ok
        (show recoverKey env id' digest false sig cache' = .ok k cache' from lift_of_ok h)]
      by_cases hcond : allow = true ∨ k ∉ keys
      · rw [bind_of_ok (require_of_pos hcond), bind_of_ok (require_of_pos hcond)]
        exact recoverKeys_cached allow sigs _ cache1 cache' hright1
      · rw [bind_of_error (require_of_neg hcond), bind_of_error (require_of_neg hcond)]
        rfl

end Transaction

section Results

variable [DecidableEq Key] {env : TransactionEnv Key Sig}

/-- A call gives what its loop gives, and leaves at most what the loop left. -/
theorem KeysCall.exec_eq (call : KeysCall Sig) (useCache : Bool) (cache : RecoveryCache Key Sig) :
    outcome (call.exec env useCache cache) =
        outcome (Transaction.recoverKeys env (call.trx.id env) (call.digest env)
          call.allowDuplicateKeys useCache call.signatures ∅ cache) ∧
      stateOf (call.exec env useCache cache) ⊆
        stateOf (Transaction.recoverKeys env (call.trx.id env) (call.digest env)
          call.allowDuplicateKeys useCache call.signatures ∅ cache) := by
  unfold exec digest Transaction.getSignatureKeys
  cases hrun : Transaction.recoverKeys env (call.trx.id env)
    (call.trx.sigDigest env call.chainId call.cfd) call.allowDuplicateKeys useCache
    call.signatures ∅ cache with
  | error x cache' =>
    rw [bind_of_error hrun]
    exact ⟨rfl, fun _ => id⟩
  | ok keys cache' =>
    rw [bind_of_ok hrun]
    cases useCache with
    | true =>
      have htrim : (modify RecoveryCache.trim >>= fun _ => pure keys : RecoveryM Key Sig _) cache' =
          .ok keys cache'.trim := rfl
      simp only [if_true, htrim, outcome_ok, stateOf_ok, true_and]
      exact drop_subset _ cache'
    | false => exact ⟨rfl, fun _ => id⟩

/-- **Every entry of the cache** was recovered in an earlier call, for its transaction and its
digest. -/
theorem runCalls_entries (calls : List (KeysCall Sig)) :
    ∀ e ∈ runCalls env calls, ∃ call ∈ calls, call.useCache = true ∧
      Transaction.MadeFor env (call.trx.id env) (call.digest env) call.signatures e := by
  induction calls using reverseRecOn with
  | nil => intro e he; exact absurd he (not_mem_nil)
  | append_singleton calls call ih =>
    intro e he
    rw [runCalls, foldl_append] at he
    rcases Transaction.recoverKeys_entries _ _ _ _ _ e ((call.exec_eq call.useCache _).2 he) with
      he | ⟨hcache, hmade⟩
    · obtain ⟨call', hcall', h⟩ := ih e he
      exact ⟨call', mem_append_left _ hcall', h⟩
    · exact ⟨call, by simp, hcache, hmade⟩

/-- Every earlier call that used the cache for the same transaction id and one of the signatures
signed the same digest. -/
def SameDigest (env : TransactionEnv Key Sig) (calls : List (KeysCall Sig))
    (call : KeysCall Sig) : Prop :=
  ∀ c ∈ calls, c.useCache = true → c.trx.id env = call.trx.id env →
    (∃ sig ∈ c.signatures, sig ∈ call.signatures) → c.digest env = call.digest env

/-- **The cache changes nothing** for a call whose transaction id and signatures were only seen
with its own digest: the keys or the exception are those of the call without the cache. -/
theorem getSignatureKeys_cached (env : TransactionEnv Key Sig) (calls : List (KeysCall Sig))
    (call : KeysCall Sig) (h : SameDigest env calls call) :
    outcome (call.exec env true (runCalls env calls)) =
      outcome (call.exec env false (runCalls env calls)) := by
  rw [(call.exec_eq true _).1, (call.exec_eq false _).1]
  refine Transaction.recoverKeys_cached _ _ _ _ _ fun e he hid hsig => ?_
  obtain ⟨c, hc, hcache, htrx, hmem, hrecover⟩ := runCalls_entries calls e he
  rwa [← h c hc hcache (htrx.symm.trans hid) ⟨e.sig, hmem, hsig⟩]

end Results

/-! ## A stale key -/

/-- A transaction packs to the number of its actions, context-free data to the number of its
entries; the hash adds the bytes up, and the key recovered is the digest. -/
def toyTransactionEnv : TransactionEnv Nat Nat where
  pack trx := [UInt8.ofNat trx.actions.length]
  packSha256 d := [d.hash0.toUInt8]
  packContextFreeData cfd := [UInt8.ofNat cfd.length]
  sha256 bytes := ⟨(bytes.foldl (· + ·) 0).toUInt64, 0, 0, 0⟩
  recover _ digest := .ok digest.hash0.toNat

/-- A transaction with one signature and no context-free data. -/
def plainCall : KeysCall Nat := { trx := {}, signatures := [5], chainId := default, cfd := [] }

/-- The same transaction and signature with context-free data. -/
def alteredCall : KeysCall Nat := { plainCall with cfd := [[1]] }

theorem getSignatureKeys_cached_plain : SameDigest toyTransactionEnv [plainCall] plainCall ∧
      outcome (plainCall.exec toyTransactionEnv true (runCalls toyTransactionEnv [plainCall])) =
        outcome
          (plainCall.exec toyTransactionEnv false (runCalls toyTransactionEnv [plainCall])) := by
  have h : SameDigest toyTransactionEnv [plainCall] plainCall := by
    intro c hc _ _ _
    rw [mem_singleton.mp hc]
  exact ⟨h, getSignatureKeys_cached toyTransactionEnv [plainCall] plainCall h⟩

/-- **A stale key**: after the call without context-free data, the call that has some is given the
key recovered for the first digest. Without the cache it gives another key. -/
theorem getSignatureKeys_stale : outcome (alteredCall.exec toyTransactionEnv true
        (runCalls toyTransactionEnv [plainCall])) = .ok {0} ∧
      outcome (alteredCall.exec toyTransactionEnv false
        (runCalls toyTransactionEnv [plainCall])) = .ok {1} := by
  constructor <;> decide

end Forceio.Chain
