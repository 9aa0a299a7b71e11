import Forceio.Chain.Transaction

/-!
# The transaction root

Model of `transaction_receipt::digest` (`block.hpp`), `packed_transaction::packed_digest`
(`transaction.cpp`) and `set_trx_merkle` (`controller.cpp`).

* The hashes are parameters (`ReceiptHash`). The digest of a receipt packs the id or the packed digest
  of its transaction, and not which of the two it is.
* `ReceiptTree` is what `merkle` hashes: the last node of an odd level stands in it twice.

Result:
* `sameRoot_iff`: equal roots are those of equal trees, and of equal lists if these are of one length
  and have the same kind of transaction in each place.
-/

namespace Forceio.Chain

open Forceio.Lib Forceio.Lib.PairTree List

/-! ## Roots and maps -/

section Maps

variable {D E : Type} [Inhabited D] [Inhabited E] {m : MerkleHash D} {n : MerkleHash E} {f : D → E}

omit [Inhabited D] [Inhabited E] in
theorem level_map (hnode : ∀ a b, f (m.node a b) = n.node (f a) (f b)) :
    ∀ l : List D, (level m.node l).map f = level n.node (l.map f)
  | [] => rfl
  | [a] => by simp [level, hnode]
  | a :: b :: l => by simp [level, hnode, level_map hnode l]

/-- A map that keeps the hash of a pair keeps the root. -/
theorem merkle_map (hzero : f default = default)
    (hnode : ∀ a b, f (m.node a b) = n.node (f a) (f b)) (l : List D) :
    merkle n (l.map f) = f (merkle m l) := by
  have hlevels : _ = _ := Function.Semiconj.iterate_right (level_map hnode) (Nat.clog 2 l.length) l
  unfold merkle
  rw [merkleLoop_eq_iterate m _ rfl, merkleLoop_eq_iterate n _ rfl, length_map, ← hlevels]
  cases (level m.node)^[Nat.clog 2 l.length] l with
  | nil => simp [hzero]
  | cons a rest => split <;> simp [hzero]

end Maps

/-! ## Receipts -/

/-- `transaction_receipt_header::status_enum`. -/
inductive ReceiptStatus where
  | executed
  | softFail
  | hardFail
  | delayed
  | expired
  deriving DecidableEq

/-- `packed_transaction::compression_type`. -/
inductive Compression where
  | none
  | zlib
  deriving DecidableEq

/-- What the digest of a receipt packs. -/
abbrev Digested := ReceiptStatus × UInt32 × UInt32 × Sha256

section Receipts

variable (Sig : Type)

/-- `packed_transaction`. -/
structure PackedTransaction where
  signatures : List Sig
  compression : Compression
  packedContextFreeData : Bytes
  packedTrx : Bytes
  deriving DecidableEq

/-- `transaction_receipt`. -/
structure TransactionReceipt where
  status : ReceiptStatus
  cpuUsageUs : UInt32
  netUsageWords : UInt32
  trx : Sha256 ⊕ PackedTransaction Sig
  deriving DecidableEq

/-- What is hashed: `digest_type::encoder` over what the digests pack, and `digest_type::hash` of a
pair. -/
structure ReceiptHash where
  prunable : List Sig × Bytes → Sha256
  packed : Compression × Bytes × Sha256 → Sha256
  receipt : Digested → Sha256
  pair : Sha256 × Sha256 → Sha256

end Receipts

variable {Sig : Type} {e : ReceiptHash Sig} {l1 l2 : List (TransactionReceipt Sig)}

/-- `packed_transaction::packed_digest`. -/
def PackedTransaction.packedDigest (e : ReceiptHash Sig) (p : PackedTransaction Sig) : Sha256 :=
  e.packed (p.compression, p.packedTrx, e.prunable (p.signatures, p.packedContextFreeData))

def TransactionReceipt.digested (e : ReceiptHash Sig) (r : TransactionReceipt Sig) : Digested :=
  (r.status, r.cpuUsageUs, r.netUsageWords, r.trx.elim id (PackedTransaction.packedDigest e))

/-- `transaction_receipt::digest`. -/
def TransactionReceipt.digest (e : ReceiptHash Sig) (r : TransactionReceipt Sig) : Sha256 :=
  e.receipt (r.digested e)

/-- The root of `set_trx_merkle`. -/
def transactionMroot (e : ReceiptHash Sig) (trxs : List (TransactionReceipt Sig)) : Sha256 :=
  merkle ⟨e.pair, makeCanonicalLeft, makeCanonicalRight⟩ (trxs.map (TransactionReceipt.digest e))

/-! ## Trees -/

/-- What is hashed, before it is. -/
inductive ReceiptTree where
  | empty
  | leaf (x : Digested)
  | node (l r : ReceiptTree)
  deriving DecidableEq

/-- What a digest of the tree is the hash of: nothing (`digest_type()`), a receipt or a pair. -/
abbrev HashInput := Option (Digested ⊕ Sha256 × Sha256)

def ReceiptHash.hash (e : ReceiptHash Sig) : HashInput → Sha256
  | none => default
  | some (.inl x) => e.receipt x
  | some (.inr p) => e.pair p

namespace ReceiptTree

instance : Inhabited ReceiptTree := ⟨.empty⟩

/-- A pair as it is. -/
def pairing : MerkleHash ReceiptTree := ⟨fun p => node p.1 p.2, id, id⟩

/-- The tree over a list of receipts. -/
def of (e : ReceiptHash Sig) (trxs : List (TransactionReceipt Sig)) : ReceiptTree :=
  merkle pairing (trxs.map fun r => leaf (r.digested e))

/-- The digest of a tree. -/
def digest (e : ReceiptHash Sig) : ReceiptTree → Sha256
  | empty => default
  | leaf x => e.receipt x
  | node l r => e.pair (makeCanonicalLeft (l.digest e), makeCanonicalRight (r.digest e))

/-- What is hashed last. -/
def input (e : ReceiptHash Sig) : ReceiptTree → HashInput
  | empty => none
  | leaf x => some (.inl x)
  | node l r => some (.inr (makeCanonicalLeft (l.digest e), makeCanonicalRight (r.digest e)))

/-- All that is hashed. -/
def inputs (e : ReceiptHash Sig) : ReceiptTree → List HashInput
  | node l r => (node l r).input e :: (l.inputs e ++ r.inputs e)
  | t => [t.input e]

def leaves : ReceiptTree → List Digested
  | empty => []
  | leaf x => [x]
  | node l r => l.leaves ++ r.leaves

theorem input_mem (t : ReceiptTree) : t.input e ∈ t.inputs e := by
  cases t <;> simp [inputs]

theorem hash_input (t : ReceiptTree) : e.hash (t.input e) = t.digest e := by
  cases t <;> rfl

end ReceiptTree

theorem transactionMroot_eq (l : List (TransactionReceipt Sig)) :
    transactionMroot e l = (ReceiptTree.of e l).digest e := by
  have hmap := merkle_map (m := ReceiptTree.pairing)
    (n := ⟨e.pair, makeCanonicalLeft, makeCanonicalRight⟩) (f := ReceiptTree.digest e) rfl
    (fun _ _ => rfl) (l.map fun r => .leaf (r.digested e))
  rw [map_map] at hmap
  exact hmap

theorem ReceiptTree.prefix_level : ∀ ts : List ReceiptTree,
    ts.flatMap leaves <+: (level pairing.node ts).flatMap leaves
  | [] => prefix_rfl
  | [a] => by simp [level, MerkleHash.node, MerkleHash.makeCanonicalPair, pairing, leaves]
  | a :: b :: ts => by
    simpa [level, MerkleHash.node, MerkleHash.makeCanonicalPair, pairing, leaves] using prefix_level ts

theorem ReceiptTree.prefix_leaves (l : List (TransactionReceipt Sig)) :
    l.map (TransactionReceipt.digested e) <+: (of e l).leaves := by
  have hloop : ∀ ts, ts.flatMap leaves <+: ((merkleLoop pairing ts).headD default).leaves := by
    intro ts
    fun_induction merkleLoop with
    | case1 ts hlt ih =>
      rw [merkleRound_eq_level] at ih ⊢
      exact (prefix_level ts).trans ih
    | case2 ts hle =>
      cases ts with
      | nil => exact prefix_rfl
      | cons a rest =>
        obtain rfl : rest = [] := by simpa using hle
        simp
  have hleaves := hloop (l.map fun r => leaf (r.digested e))
  cases l with
  | nil => exact nil_prefix
  | cons r l =>
    rw [flatMap_map] at hleaves
    simpa [of, merkle, leaves, Function.comp_def, ← map_eq_flatMap] using hleaves

theorem makeCanonicalLeft_right (x : Sha256) :
    makeCanonicalLeft (makeCanonicalRight x) = makeCanonicalLeft x := by
  have hbits : (x.hash0 ||| 0x80) &&& 0xFFFFFFFFFFFFFF7F = x.hash0 &&& 0xFFFFFFFFFFFFFF7F := by
    rw [← UInt64.toNat_inj, UInt64.toNat_and, UInt64.toNat_or, Nat.and_or_distrib_right]
    exact Nat.or_zero _
  unfold makeCanonicalLeft makeCanonicalRight
  rw [hbits]

/-- **No two inputs of the trees have one hash**, up to the bit that marks the side. -/
def NoCollision (e : ReceiptHash Sig) (t1 t2 : ReceiptTree) : Prop :=
  ∀ i ∈ t1.inputs e, ∀ j ∈ t2.inputs e,
    makeCanonicalLeft (e.hash i) = makeCanonicalLeft (e.hash j) → i = j

instance (e : ReceiptHash Sig) (t1 t2 : ReceiptTree) : Decidable (NoCollision e t1 t2) :=
  inferInstanceAs (Decidable (∀ i ∈ _, ∀ j ∈ _, _))

namespace NoCollision

variable {t1 t2 : ReceiptTree}

theorem input_eq (hfree : NoCollision e t1 t2)
    (h : makeCanonicalLeft (t1.digest e) = makeCanonicalLeft (t2.digest e)) :
    t1.input e = t2.input e := by
  refine hfree _ t1.input_mem _ t2.input_mem ?_
  rwa [ReceiptTree.hash_input, ReceiptTree.hash_input]

theorem eq_of_digest (hfree : NoCollision e t1 t2)
    (h : makeCanonicalLeft (t1.digest e) = makeCanonicalLeft (t2.digest e)) : t1 = t2 := by
  have hinput := hfree.input_eq h
  induction t1 generalizing t2 with
  | empty =>
    cases t2 <;> cases hinput
    rfl
  | leaf x =>
    cases t2 <;> cases hinput
    rfl
  | node l r ihl ihr =>
    cases t2 with
    | empty => cases hinput
    | leaf y => cases hinput
    | node l' r' =>
      obtain ⟨hl, hr⟩ := Prod.mk.inj (Sum.inr.inj (Option.some.inj hinput))
      have hr := congrArg makeCanonicalLeft hr
      rw [makeCanonicalLeft_right, makeCanonicalLeft_right] at hr
      have hfreel : NoCollision e l l' := fun i hi j hj =>
        hfree i (by simp [ReceiptTree.inputs, hi]) j (by simp [ReceiptTree.inputs, hj])
      have hfreer : NoCollision e r r' := fun i hi j hj =>
        hfree i (by simp [ReceiptTree.inputs, hi]) j (by simp [ReceiptTree.inputs, hj])
      rw [ihl hfreel hl (hfreel.input_eq hl), ihr hfreer hr (hfreer.input_eq hr)]

end NoCollision

/-! ## What the root commits to -/

theorem TransactionReceipt.eq_of_digested {r s : TransactionReceipt Sig}
    (h : r.digested e = s.digested e) (hkind : r.trx.isLeft = s.trx.isLeft)
    (hpacked : ∀ p q, r.trx = .inr p → s.trx = .inr q → p.packedDigest e = q.packedDigest e → p = q) :
    r = s := by
  obtain ⟨status, cpu, net, trx⟩ := r
  obtain ⟨status', cpu', net', trx'⟩ := s
  simp only [digested, Prod.mk.injEq] at h
  obtain ⟨rfl, rfl, rfl, htrx⟩ := h
  cases trx with
  | inl x =>
    cases trx' with
    | inl y =>
      obtain rfl : x = y := htrx
      rfl
    | inr q => cases hkind
  | inr p =>
    cases trx' with
    | inl y => cases hkind
    | inr q => rw [hpacked p q rfl rfl htrx]

/-- No two packed transactions of the lists have one digest. -/
def PackedApart (e : ReceiptHash Sig) (l1 l2 : List (TransactionReceipt Sig)) : Prop :=
  ∀ r ∈ l1, ∀ s ∈ l2, ∀ p q, r.trx = .inr p → s.trx = .inr q →
    p.packedDigest e = q.packedDigest e → p = q

/-- **The root commits to the tree of receipts**: where no inputs collide, two lists have one root
exactly if they make one tree, and then they are equal if they have the same kinds of transactions;
the lists of blocks with one id make one tree. -/
theorem sameRoot_iff (hfree : NoCollision e (.of e l1) (.of e l2)) (hpacked : PackedApart e l1 l2) :
    (transactionMroot e l1 = transactionMroot e l2 ↔ ReceiptTree.of e l1 = .of e l2) ∧
      (ReceiptTree.of e l1 = .of e l2 → l1.map (·.trx.isLeft) = l2.map (·.trx.isLeft) → l1 = l2) ∧
      ∀ {Key : Type} (env : ChainEnv Key Sig) (h1 h2 : BlockHeader Key),
        (h1.id env = h2.id env → h1 = h2) → h1.transactionMroot = transactionMroot e l1 →
          h2.transactionMroot = transactionMroot e l2 → h1.id env = h2.id env →
            ReceiptTree.of e l1 = .of e l2 := by
  have hroot : transactionMroot e l1 = transactionMroot e l2 ↔ ReceiptTree.of e l1 = .of e l2 := by
    rw [transactionMroot_eq, transactionMroot_eq]
    exact ⟨fun h => hfree.eq_of_digest (congrArg _ h), fun h => by rw [h]⟩
  refine ⟨hroot, fun htree hkinds => ?_, fun env h1 h2 hids hl1 hl2 hid => ?_⟩
  · have hlength : l1.length = l2.length := by simpa using congrArg length hkinds
    have hmap : l1.map (TransactionReceipt.digested e) = l2.map (TransactionReceipt.digested e) := by
      have hprefix := ReceiptTree.prefix_leaves (e := e) l1
      rw [htree] at hprefix
      have hfirst := prefix_of_prefix_length_le hprefix (ReceiptTree.prefix_leaves l2)
        (by simp [hlength])
      exact hfirst.eq_of_length (by simp [hlength])
    refine ext_getElem hlength fun i hi1 hi2 => ?_
    refine TransactionReceipt.eq_of_digested (e := e) ?_ ?_
      (hpacked _ (getElem_mem hi1) _ (getElem_mem hi2))
    · simpa [hi1, hi2] using congrArg (·[i]?) hmap
    · simpa [hi1, hi2] using congrArg (·[i]?) hkinds
  · rw [← hroot, ← hl1, ← hl2, hids hid]

/-! ## Lists with one root -/

/-- A hash that tells these receipts and their pairs apart. -/
def sampleHash : ReceiptHash Nat where
  prunable _ := default
  packed _ := ⟨9, 9, 9, 9⟩
  receipt x := ⟨1, x.2.1.toUInt64, 0, x.2.2.2.hash0⟩
  pair p := ⟨2, p.1.hash1, p.2.hash1, 3 * p.1.hash2 + 5 * p.2.hash2⟩

/-- Executed transactions at these costs. -/
def billed (costs : List UInt32) : List (TransactionReceipt Nat) :=
  costs.map fun cost => ⟨.executed, cost, 0, .inl ⟨9, 9, 9, 9⟩⟩

theorem sameRoot_swapped :
    NoCollision sampleHash (.of sampleHash (billed [1, 2])) (.of sampleHash (billed [2, 1])) ∧
      transactionMroot sampleHash (billed [1, 2]) ≠ transactionMroot sampleHash (billed [2, 1]) := by
  have hfree : NoCollision sampleHash (.of sampleHash (billed [1, 2]))
      (.of sampleHash (billed [2, 1])) := by decide +kernel
  have hpacked : PackedApart sampleHash (billed [1, 2]) (billed [2, 1]) := by
    intro r hr s _ p q hp
    obtain ⟨cost, -, rfl⟩ := mem_map.mp hr
    cases hp
  exact ⟨hfree, fun h => absurd ((sameRoot_iff hfree hpacked).1.mp h) (by decide +kernel)⟩

/-- **Different lists with one root**: the last of an odd number of receipts is repeated, and a packed
transaction is replaced by its digest. -/
theorem repeated_same_root : NoCollision sampleHash (.of sampleHash (billed [1, 2, 3]))
        (.of sampleHash (billed [1, 2, 3, 3])) ∧
      transactionMroot sampleHash (billed [1, 2, 3]) =
        transactionMroot sampleHash (billed [1, 2, 3, 3]) ∧
      transactionMroot sampleHash (billed [1]) =
        transactionMroot sampleHash [⟨.executed, 1, 0, .inr ⟨[], .none, [], []⟩⟩] := by
  decide +kernel

end Forceio.Chain
