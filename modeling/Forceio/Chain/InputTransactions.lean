import Forceio.Chain.Chainbase

/-!
# Input transactions are not replayed: `controller.cpp`, `transaction_context.cpp`

Every input transaction leaves a record with its id until it has expired, and a transaction whose
id is recorded is refused.

* `validate_expiration` compares the expiration, in whole seconds, with the time of the block.
* `clear_expired_input_transactions` runs when a block starts, and takes records from the front of
  the index by expiration. The loop has one step per record (`mem_clearExpired`: that is enough).
* A transaction that throws anywhere is undone with its record. What else can throw, before
  (`validate_tapos`, `validate_referenced_accounts`, `init`) and after the record is made
  (authorization, execution, billing), is given with each transaction.
* The id is a hash of the transaction; that no two of the chain's transactions collide is a
  hypothesis.

Result:
* `acceptedIds_nodup`: no id is accepted twice.
-/

namespace Forceio.Chain

open Forceio.Lib Exec Table List

/-! ## The functions -/

/-- `transaction_object`. -/
structure TransactionObject where
  expiration : UInt32
  trxId : Sha256
  deriving DecidableEq

instance : Indexed TransactionObject where
  clash a b := a.trxId = b.trxId
  symm h := h.symm
  decidable _ _ := inferInstance

/-- `time_point(time_point_sec)`, in microseconds. -/
def timePoint (sec : UInt32) : Nat := sec.toNat * 1000000

/-- `validate_expiration`. -/
def validateExpiration (pendingBlockTime : Nat) (maxTransactionLifetime : UInt32)
    (trx : Transaction) : Except FcException Unit := do
  eosAssert (timePoint trx.expiration ≥ pendingBlockTime) .expiredTxException
    ("transaction has expired, expiration is ${trx.expiration} and pending block time is " ++
      "${pending_block_time}")
  eosAssert (timePoint trx.expiration ≤ pendingBlockTime + timePoint maxTransactionLifetime)
    .txExpTooFarException
    ("Transaction expiration is too far in the future relative to the reference time of " ++
      "${reference_time}, expiration is ${trx.expiration} and the maximum transaction lifetime is " ++
      "${max_til_exp} seconds")

/-- The loop of `clear_expired_input_transactions`. -/
def clearExpiredLoop (now : Nat) : Nat → Table TransactionObject → Table TransactionObject
  | 0, t => t
  | fuel + 1, t =>
    match t.leastBy fun r => toLex (r.2.expiration.toNat, r.1) with
    | none => t
    | some r =>
      if now > timePoint r.2.expiration then clearExpiredLoop now fuel (t.remove r.1) else t

/-- `clear_expired_input_transactions`. -/
def clearExpiredInputTransactions (now : Nat) (t : Table TransactionObject) :
    Table TransactionObject :=
  clearExpiredLoop now t.rows.length t

/-- Code over the deduplication records. -/
abbrev DedupeM (α : Type) := EStateM FcException (Table TransactionObject) α

/-- `record_transaction`. -/
def recordTransaction (id : Sha256) (expire : UInt32) : DedupeM Unit := fun t =>
  match t.create { expiration := expire, trxId := id } with
  | some (_, t') => .ok () t'
  | none => .error ⟨.txDuplicate, "duplicate transaction ${id}"⟩ t

/-- A transaction pushed as input, with what its other checks and its execution give. -/
structure InputTransaction where
  trx : Transaction
  otherChecks : Except FcException Unit := .ok ()
  execution : Except FcException Unit := .ok ()

section Push

variable {Key Sig : Type} (env : TransactionEnv Key Sig)

/-- `init_for_input_trx`, where it concerns the records. -/
def initForInputTrx (pendingBlockTime : Nat) (maxTransactionLifetime : UInt32)
    (x : InputTransaction) : DedupeM Unit := do
  lift (validateExpiration pendingBlockTime maxTransactionLifetime x.trx)
  lift x.otherChecks
  recordTransaction (x.trx.id env) x.trx.expiration

/-- `push_transaction`: whether the transaction is accepted, and the records. -/
def pushTransaction (pendingBlockTime : Nat) (maxTransactionLifetime : UInt32)
    (x : InputTransaction) (t : Table TransactionObject) : Bool × Table TransactionObject :=
  match initForInputTrx env pendingBlockTime maxTransactionLifetime x t, x.execution with
  | .ok _ t', .ok _ => (true, t')
  | _, _ => (false, t)

/-- A block with the transactions pushed while it is pending. -/
structure InputBlock where
  timestamp : Nat
  maxTransactionLifetime : UInt32
  inputs : List InputTransaction

/-- Push transactions one after another; the ids that are accepted, in order. -/
def pushAll (pendingBlockTime : Nat) (maxTransactionLifetime : UInt32) :
    List InputTransaction → Table TransactionObject → List Sha256 × Table TransactionObject
  | [], t => ([], t)
  | x :: xs, t =>
    let (accepted, t) := pushTransaction env pendingBlockTime maxTransactionLifetime x t
    let (ids, t) := pushAll pendingBlockTime maxTransactionLifetime xs t
    (if accepted then x.trx.id env :: ids else ids, t)

/-- The ids a chain of blocks accepts, and the records it leaves. -/
def applyBlocks : List InputBlock → Table TransactionObject → List Sha256 × Table TransactionObject
  | [], t => ([], t)
  | b :: bs, t =>
    let (ids, t) := pushAll env b.timestamp b.maxTransactionLifetime b.inputs
      (clearExpiredInputTransactions b.timestamp t)
    let (ids', t) := applyBlocks bs t
    (ids ++ ids', t)

end Push

/-! ## The purge -/

section Clear

variable {now : Nat} {r : Nat × TransactionObject}

theorem mem_clearExpiredLoop : ∀ (fuel : Nat) (t : Table TransactionObject), t.rows.length ≤ fuel →
      (r ∈ (clearExpiredLoop now fuel t).rows ↔ r ∈ t.rows ∧ now ≤ timePoint r.2.expiration)
  | 0, t, hfuel => by
    have hnil : t.rows = [] := length_eq_zero_iff.mp (Nat.le_zero.mp hfuel)
    show r ∈ t.rows ↔ _
    simp [hnil]
  | fuel + 1, t, hfuel => by
    unfold clearExpiredLoop
    cases hleast : t.leastBy fun r => toLex (r.2.expiration.toNat, r.1) with
    | none =>
      have hnil := leastBy_eq_none.mp hleast
      simp [hnil]
    | some first =>
      have hfirst := mem_of_leastBy hleast
      by_cases hexp : now > timePoint first.2.expiration
      · simp only [if_pos hexp]
        have hlen : (t.remove first.1).rows.length ≤ fuel := by
          have hlt : (t.remove first.1).rows.length < t.rows.length :=
            length_filter_lt_length_iff_exists.mpr ⟨first, hfirst, by simp⟩
          omega
        rw [mem_clearExpiredLoop fuel _ hlen, mem_remove]
        constructor
        · rintro ⟨⟨hr, -⟩, hle⟩
          exact ⟨hr, hle⟩
        · rintro ⟨hr, hle⟩
          refine ⟨⟨hr, fun hid => ?_⟩, hle⟩
          rw [eq_of_id hr hfirst hid] at hle
          exact absurd hle (Nat.not_le.mpr hexp)
      · -- the front has not expired, so nothing behind it has
        simp only [if_neg hexp]
        refine ⟨fun hr => ⟨hr, ?_⟩, fun h => h.1⟩
        have hsec : first.2.expiration.toNat ≤ r.2.expiration.toNat :=
          Prod.Lex.monotone_fst _ _ (leastBy_le hleast hr)
        have hmul : timePoint first.2.expiration ≤ timePoint r.2.expiration :=
          Nat.mul_le_mul_right _ hsec
        omega

/-- **The purge takes exactly the expired records.** -/
theorem mem_clearExpired {t : Table TransactionObject} :
    r ∈ (clearExpiredInputTransactions now t).rows ↔ r ∈ t.rows ∧ now ≤ timePoint r.2.expiration :=
  mem_clearExpiredLoop _ t (Nat.le_refl _)

end Clear

/-! ## No replay -/

section Replay

variable {Key Sig : Type} {env : TransactionEnv Key Sig} {now : Nat} {lifetime : UInt32}
  {t t' : Table TransactionObject}

/-- A transaction is recorded as long as it has not expired. -/
def Remembers (env : TransactionEnv Key Sig) (t : Table TransactionObject) (now : Nat)
    (trx : Transaction) : Prop :=
  now ≤ timePoint trx.expiration →
    ∃ r ∈ t.rows, r.2 = { expiration := trx.expiration, trxId := trx.id env }

theorem pushTransaction_cases (env : TransactionEnv Key Sig) (now : Nat) (lifetime : UInt32)
    (x : InputTransaction) (t : Table TransactionObject) :
    pushTransaction env now lifetime x t = (false, t) ∨
      ∃ n t', pushTransaction env now lifetime x t = (true, t') ∧ now ≤ timePoint x.trx.expiration ∧
        t.create { expiration := x.trx.expiration, trxId := x.trx.id env } = some (n, t') := by
  unfold pushTransaction
  cases hinit : initForInputTrx env now lifetime x t with
  | error e s => exact .inl rfl
  | ok u s =>
    cases hexec : x.execution with
    | error e => exact .inl rfl
    | ok u' =>
      refine .inr ?_
      obtain ⟨_, _, hvalidate, h1⟩ := bind_ok.mp hinit
      obtain ⟨hvalid, hs⟩ := lift_ok.mp hvalidate
      rw [hs] at h1
      obtain ⟨_, _, hother, h2⟩ := bind_ok.mp h1
      rw [(lift_ok.mp hother).2] at h2
      cases hcreate : t.create { expiration := x.trx.expiration, trxId := x.trx.id env } with
      | none =>
        unfold recordTransaction at h2
        rw [hcreate] at h2
        simp at h2
      | some r =>
        unfold recordTransaction at h2
        rw [hcreate] at h2
        cases h2
        exact ⟨r.1, r.2, rfl, (assert_bind_eq_ok.mp hvalid).1, rfl⟩

theorem pushTransaction_keeps {x : InputTransaction} {trx : Transaction} (lifetime : UInt32)
    (h : Remembers env t now trx) :
    Remembers env (pushTransaction env now lifetime x t).2 now trx := by
  rcases pushTransaction_cases env now lifetime x t with hpush | ⟨n, t', hpush, -, hcreate⟩
  · rw [hpush]
    exact h
  · rw [hpush]
    intro hnow
    obtain ⟨r, hr, hid⟩ := h hnow
    exact ⟨r, (mem_create hcreate).mpr (.inl hr), hid⟩

/-- **An accepted transaction is recorded**, and was not before. -/
theorem pushTransaction_remembers {x : InputTransaction}
    (h : (pushTransaction env now lifetime x t).1 = true) :
    Remembers env (pushTransaction env now lifetime x t).2 now x.trx ∧
      ∀ trx, Remembers env t now trx → trx.expiration = x.trx.expiration →
        trx.id env ≠ x.trx.id env := by
  rcases pushTransaction_cases env now lifetime x t with hpush | ⟨n, t', hpush, hnow, hcreate⟩
  · rw [hpush] at h
    simp at h
  · rw [hpush]
    refine ⟨fun _ => ⟨_, (mem_create hcreate).mpr (.inr rfl), rfl⟩, ?_⟩
    intro trx hrem hexp hid
    obtain ⟨r, hr, hrid⟩ := hrem (hexp ▸ hnow)
    refine (create_eq_some hcreate).1 r hr ?_
    rw [hrid]
    exact hid

/-- One block: the ids it accepts are distinct and new, and what was remembered stays so. -/
theorem pushAll_nodup {all : List Transaction}
    (hfree : ∀ trx ∈ all, ∀ trx' ∈ all, trx.id env = trx'.id env → trx = trx') :
    ∀ (xs : List InputTransaction) (t : Table TransactionObject), (∀ x ∈ xs, x.trx ∈ all) →
      (pushAll env now lifetime xs t).1.Nodup ∧
      (∀ i ∈ (pushAll env now lifetime xs t).1,
        (∃ x ∈ xs, x.trx.id env = i ∧ Remembers env (pushAll env now lifetime xs t).2 now x.trx) ∧
        ∀ trx ∈ all, Remembers env t now trx → trx.id env ≠ i) ∧
      ∀ trx, Remembers env t now trx → Remembers env (pushAll env now lifetime xs t).2 now trx
  | [], t, _ => ⟨nodup_nil, by simp [pushAll], fun _ => id⟩
  | x :: xs, t, hall => by
    obtain ⟨accepted, t1, hpush⟩ : ∃ accepted t1,
        pushTransaction env now lifetime x t = (accepted, t1) := ⟨_, _, rfl⟩
    have hkeep : ∀ trx, Remembers env t now trx → Remembers env t1 now trx := by
      intro trx htrx
      have hpushed := pushTransaction_keeps (x := x) lifetime htrx
      rwa [hpush] at hpushed
    obtain ⟨hnodup, hnew, hkeep'⟩ :=
      pushAll_nodup hfree xs t1 fun y hy => hall y (mem_cons_of_mem x hy)
    have hlater : ∀ i ∈ (pushAll env now lifetime xs t1).1, (∃ y ∈ x :: xs, y.trx.id env = i ∧
          Remembers env (pushAll env now lifetime xs t1).2 now y.trx) ∧
        ∀ trx ∈ all, Remembers env t now trx → trx.id env ≠ i := by
      intro i hi
      obtain ⟨⟨y, hy, hyi, hrem⟩, hold⟩ := hnew i hi
      exact ⟨⟨y, mem_cons_of_mem x hy, hyi, hrem⟩, fun trx htrx h => hold trx htrx (hkeep trx h)⟩
    simp only [pushAll, hpush]
    cases accepted with
    | false => exact ⟨hnodup, hlater, fun trx h => hkeep' trx (hkeep trx h)⟩
    | true =>
      have hacc : (pushTransaction env now lifetime x t).1 = true := by rw [hpush]
      obtain ⟨hself, hfresh⟩ := pushTransaction_remembers hacc
      rw [hpush] at hself
      refine ⟨nodup_cons.mpr ⟨fun hmem => ?_, hnodup⟩, ?_, fun trx h => hkeep' trx (hkeep trx h)⟩
      · exact (hnew _ hmem).2 x.trx (hall x mem_cons_self) hself rfl
      · intro i hi
        rcases mem_cons.mp hi with rfl | hi
        · refine ⟨⟨x, mem_cons_self, rfl, hkeep' x.trx hself⟩, fun trx htrx h heq => ?_⟩
          have := hfree trx htrx x.trx (hall x mem_cons_self) heq
          exact hfresh trx h (by rw [this]) heq
        · exact hlater i hi

theorem clearExpired_keeps {later : Nat} {trx : Transaction} (hle : now ≤ later)
    (h : Remembers env t now trx) :
    Remembers env (clearExpiredInputTransactions later t) later trx := by
  intro hlater
  obtain ⟨r, hr, hrec⟩ := h (hle.trans hlater)
  refine ⟨r, mem_clearExpired.mpr ⟨hr, ?_⟩, hrec⟩
  rw [hrec]
  exact hlater

/-- A chain of blocks: the ids it accepts are distinct, and not of what is remembered. -/
theorem applyBlocks_nodup {all : List Transaction}
    (hfree : ∀ trx ∈ all, ∀ trx' ∈ all, trx.id env = trx'.id env → trx = trx') :
    ∀ (bs : List InputBlock) (t : Table TransactionObject) (now : Nat),
      (∀ b ∈ bs, ∀ x ∈ b.inputs, x.trx ∈ all) → (∀ b ∈ bs, now ≤ b.timestamp) →
      (bs.Pairwise fun b b' => b.timestamp < b'.timestamp) →
      (applyBlocks env bs t).1.Nodup ∧
      ∀ i ∈ (applyBlocks env bs t).1, ∀ trx ∈ all, Remembers env t now trx → trx.id env ≠ i
  | [], _, _, _, _, _ => ⟨nodup_nil, by simp [applyBlocks]⟩
  | b :: bs, t, now, hall, hnow, hchain => by
    obtain ⟨hlt, hchain⟩ := pairwise_cons.mp hchain
    obtain ⟨ids, t1, hpush⟩ : ∃ ids t1, pushAll env b.timestamp b.maxTransactionLifetime b.inputs
        (clearExpiredInputTransactions b.timestamp t) = (ids, t1) := ⟨_, _, rfl⟩
    obtain ⟨hnodup, hnew, hkeep⟩ := pushAll_nodup hfree b.inputs
      (clearExpiredInputTransactions b.timestamp t) (hall b mem_cons_self)
    rw [hpush] at hnodup hnew hkeep
    obtain ⟨hnodup', hnew'⟩ := applyBlocks_nodup hfree bs t1 b.timestamp
      (fun b' h => hall b' (mem_cons_of_mem b h)) (fun b' h => Nat.le_of_lt (hlt b' h)) hchain
    have hclear := fun trx (h : Remembers env t now trx) =>
      clearExpired_keeps (hnow b mem_cons_self) h
    simp only [applyBlocks, hpush]
    refine ⟨nodup_append.mpr ⟨hnodup, hnodup', ?_⟩, ?_⟩
    · -- an id of this block is of a transaction that is remembered, so no later block accepts it
      intro i hi i' hi' heq
      obtain ⟨⟨x, hx, hxi, hrem⟩, -⟩ := hnew i hi
      exact hnew' i' hi' x.trx (hall b mem_cons_self x hx) hrem (hxi.trans heq)
    · intro i hi trx htrx hrem
      rcases mem_append.mp hi with hi | hi
      · exact (hnew i hi).2 trx htrx (hclear trx hrem)
      · exact hnew' i hi trx htrx (hkeep trx (hclear trx hrem))

/-- **No replay**: along every chain of blocks with increasing timestamps, none of whose
transactions collide, from any records, no id is accepted twice. -/
theorem acceptedIds_nodup (env : TransactionEnv Key Sig) (blocks : List InputBlock)
    (t : Table TransactionObject) (hchain : blocks.Pairwise fun b b' => b.timestamp < b'.timestamp)
    (hfree : ∀ trx ∈ blocks.flatMap fun b => b.inputs.map (·.trx),
      ∀ trx' ∈ blocks.flatMap fun b => b.inputs.map (·.trx),
        trx.id env = trx'.id env → trx = trx') : (applyBlocks env blocks t).1.Nodup := by
  refine (applyBlocks_nodup hfree blocks t 0 (fun b hb x hx => ?_) (fun _ _ => Nat.zero_le _)
    hchain).1
  exact mem_flatMap.mpr ⟨b, hb, mem_map.mpr ⟨x, hx, rfl⟩⟩

end Replay

/-! ## A replay that is refused -/

/-- A transaction packs to the seconds of its expiration, and the hash is the first byte. -/
def expirationEnv : TransactionEnv Unit Unit where
  pack trx := [trx.expiration.toUInt8]
  packSha256 _ := []
  packContextFreeData _ := []
  sha256 bytes := ⟨(bytes.headD 0).toUInt64, 0, 0, 0⟩
  recover _ _ := .ok ()

/-- A transaction that expires at second `sec`. -/
def expiring (sec : UInt32) : InputTransaction := { trx := { expiration := sec } }

/-- The first transaction is pushed at one second, and again when it expires and after that. -/
def replayedBlocks : List InputBlock :=
  [⟨1000000, 60, [expiring 2, expiring 2]⟩, ⟨2000000, 60, [expiring 2, expiring 3]⟩,
    ⟨2500000, 60, [expiring 2, expiring 3]⟩]

theorem acceptedIds_nodup_replayed :
    (applyBlocks expirationEnv replayedBlocks (.empty 0)).1 = [⟨2, 0, 0, 0⟩, ⟨3, 0, 0, 0⟩] ∧
      (applyBlocks expirationEnv replayedBlocks (.empty 0)).1.Nodup :=
  ⟨by decide +kernel, acceptedIds_nodup expirationEnv replayedBlocks (.empty 0) (by decide)
    (by decide +kernel)⟩

end Forceio.Chain
