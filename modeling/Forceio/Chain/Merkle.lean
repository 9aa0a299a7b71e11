import Forceio.Lib.BitSmear
import Forceio.Lib.PairTree

/-!
# Merkle roots: the incremental tree computes the batch root

Model of `merkle` (`libraries/chain/merkle.cpp`) and of `incremental_merkle_impl`
(`libraries/chain/include/eosio/chain/incremental_merkle.hpp`).

* The digest type, `digest_type::hash` on a pair and the two canonical markers are parameters
  (`MerkleHash`); `DigestType()` is `default`.
* `_node_count` and the `index` of `append` are `uint64_t`, so `UInt64` here. The bit tricks
  (`nextPowerOf2`, `clzPower2`) are word for word. `clz_power_2` returns the position of the set
  bit, not the number of leading zeros its comment promises; `calcluate_max_depth` needs the
  position.
* `appendLoop` is the `while (current_depth > 0)` loop. `*active_iter` past the end is undefined
  in C++ and reads `default` here; `appendLoop_spec` shows that it is never reached.
* `hashPairs` is the in-place `for` loop of `merkle`, `merkleLoop` its `while` loop. The `int i`
  of the `for` loop is a `Nat`: `2 * i` would overflow past `2^30` pairs.

Result:
* `getRoot_eq_merkle`: after any list of appends the stored root is the batch root.
-/

namespace Forceio.Chain

open Forceio.Lib Forceio.Lib.PairTree List

/-- The hash functions the Merkle code is written over. -/
structure MerkleHash (D : Type) where
  /-- `DigestType::hash` of a pair. -/
  hash : D × D → D
  makeCanonicalLeft : D → D
  makeCanonicalRight : D → D

namespace MerkleHash

variable {D : Type} (m : MerkleHash D)

/-- `make_canonical_pair`. -/
def makeCanonicalPair (l r : D) : D × D := (m.makeCanonicalLeft l, m.makeCanonicalRight r)

/-- `DigestType::hash(make_canonical_pair(l, r))`. -/
def node (l r : D) : D := m.hash (m.makeCanonicalPair l r)

end MerkleHash

/-! ## The depth of the tree -/

/-- `detail::next_power_of_2`. -/
def nextPowerOf2 (value : UInt64) : UInt64 :=
  let value := value - 1
  let value := value ||| (value >>> 1)
  let value := value ||| (value >>> 2)
  let value := value ||| (value >>> 4)
  let value := value ||| (value >>> 8)
  let value := value ||| (value >>> 16)
  let value := value ||| (value >>> 32)
  value + 1

/-- `detail::clz_power_2`. -/
def clzPower2 (value : UInt64) : Nat :=
  let lz := 64
  let lz := if value ≠ 0 then lz - 1 else lz
  let lz := if value &&& 0x00000000FFFFFFFF ≠ 0 then lz - 32 else lz
  let lz := if value &&& 0x0000FFFF0000FFFF ≠ 0 then lz - 16 else lz
  let lz := if value &&& 0x00FF00FF00FF00FF ≠ 0 then lz - 8 else lz
  let lz := if value &&& 0x0F0F0F0F0F0F0F0F ≠ 0 then lz - 4 else lz
  let lz := if value &&& 0x3333333333333333 ≠ 0 then lz - 2 else lz
  let lz := if value &&& 0x5555555555555555 ≠ 0 then lz - 1 else lz
  lz

/-- `detail::calcluate_max_depth` (the source's spelling). -/
def calcluateMaxDepth (nodeCount : UInt64) : Nat :=
  if nodeCount = 0 then 0 else clzPower2 (nextPowerOf2 nodeCount) + 1

/-- One `value |= value >> s` of `next_power_of_2`. -/
theorem smeared_word {k x : Nat} {v s : UInt64} (hv : BitSmear.Smeared k x v.toNat)
    (hs : s.toNat = k) (hk : k < 64) : BitSmear.Smeared (2 * k) x (v ||| (v >>> s)).toNat := by
  rw [UInt64.toNat_or, UInt64.toNat_shiftRight, hs, Nat.mod_eq_of_lt hk]
  exact hv.step

variable {n : UInt64}

theorem one_le_toNat (hn : n ≠ 0) : 1 ≤ n.toNat := by
  rcases Nat.eq_zero_or_pos n.toNat with h0 | h0
  · exact absurd (UInt64.toNat_inj.mp (by simpa using h0)) hn
  · exact h0

theorem clog_toNat_le (n : UInt64) : Nat.clog 2 n.toNat ≤ 64 :=
  Nat.clog_le_of_le_pow (le_of_lt n.toNat_lt)

/-- The least power of two not below `n`, modulo the word size. -/
theorem nextPowerOf2_toNat (hn : n ≠ 0) :
    (nextPowerOf2 n).toNat = 2 ^ Nat.clog 2 n.toNat % 2 ^ 64 := by
  have hpos := one_le_toNat hn
  have hpred : (n - 1).toNat = n.toNat - 1 :=
    UInt64.toNat_sub_of_le _ _ (by rw [UInt64.le_iff_toNat_le]; simpa using hpos)
  -- six doublings of the window reach all 64 bits
  have h1 : BitSmear.Smeared 1 (n.toNat - 1) (n - 1).toNat := by
    rw [hpred]
    exact BitSmear.Smeared.one _
  have h2 := smeared_word (s := 1) h1 rfl (by norm_num)
  have h4 := smeared_word (s := 2) h2 rfl (by norm_num)
  have h8 := smeared_word (s := 4) h4 rfl (by norm_num)
  have h16 := smeared_word (s := 8) h8 rfl (by norm_num)
  have h32 := smeared_word (s := 16) h16 rfl (by norm_num)
  have h64 := smeared_word (s := 32) h32 rfl (by norm_num)
  have hs := h64.of_pred hpos (clog_toNat_le n)
  unfold nextPowerOf2
  rw [UInt64.toNat_add, hs]
  simp only [UInt64.reduceToNat]
  rw [Nat.sub_add_cancel Nat.one_le_two_pow]

theorem clzPower2_two_pow : ∀ k < 64, clzPower2 (UInt64.ofNat (2 ^ k)) = k := by
  decide +kernel

/-- **The depth is exact** on the whole range of the node count: `2 ^ 64` as the implied count
wraps to `0`, for which `clz_power_2` answers `64`. -/
theorem calcluateMaxDepth_eq (hn : n ≠ 0) : calcluateMaxDepth n = Nat.clog 2 n.toNat + 1 := by
  have hp := nextPowerOf2_toNat hn
  have hclog := clog_toNat_le n
  have hw : nextPowerOf2 n = UInt64.ofNat (2 ^ Nat.clog 2 n.toNat) := by
    apply UInt64.toNat_inj.mp
    rw [hp, UInt64.toNat_ofNat']
  rw [calcluateMaxDepth, if_neg hn, hw]
  rcases Nat.lt_or_ge (Nat.clog 2 n.toNat) 64 with hlt | hge
  · rw [clzPower2_two_pow _ hlt]
  · rw [show Nat.clog 2 n.toNat = 64 by omega]
    decide

/-! ## The incremental tree -/

/-- `incremental_merkle_impl`. -/
structure IncrementalMerkle (D : Type) where
  activeNodes : List D
  nodeCount : UInt64
  deriving DecidableEq

/-- The default constructor: no nodes. -/
def IncrementalMerkle.empty (D : Type) : IncrementalMerkle D := ⟨[], 0⟩

section Incremental

variable {D : Type} [Inhabited D] (m : MerkleHash D)

/-- The loop of `append`: `current_depth`, `index`, `top`, `partial`, the old nodes from
`active_iter` on, and `updated_active_nodes`. Returns the final `top` and the updated nodes. -/
def appendLoop : Nat → UInt64 → D → Bool → List D → List D → D × List D
  | 0, _, top, _, _, updated => (top, updated)
  | depth + 1, index, top, partialNode, active, updated =>
    if index &&& 1 = 0 then
      -- a "left" value: its implied "right" is itself
      appendLoop depth (index >>> 1) (m.node top top) true active
        (if partialNode then updated else updated ++ [top])
    else
      -- a "right" value: its "left" is the next of the old nodes
      let leftValue := active.headD default
      appendLoop depth (index >>> 1) (m.node leftValue top) partialNode active.tail
        (if partialNode then updated ++ [leftValue] else updated)

/-- `incremental_merkle_impl::append`. -/
def IncrementalMerkle.append (t : IncrementalMerkle D) (digest : D) : IncrementalMerkle D :=
  let maxDepth := calcluateMaxDepth (t.nodeCount + 1)
  let r := appendLoop m (maxDepth - 1) t.nodeCount digest false t.activeNodes []
  { activeNodes := r.2 ++ [r.1], nodeCount := t.nodeCount + 1 }

/-- `incremental_merkle_impl::get_root`. -/
def IncrementalMerkle.getRoot (t : IncrementalMerkle D) : D :=
  if t.nodeCount > 0 then t.activeNodes.getLastD default else default

end Incremental

/-! ## The batch root -/

section Batch

variable {D : Type} [Inhabited D] (m : MerkleHash D)

/-- `for (i …; i < ids.size() / 2; i++) ids[i] = hash(pair(ids[2 * i], ids[2 * i + 1]))`, with
`n` iterations to go from index `i`. The writes stay behind the reads. -/
def hashPairs : Nat → Nat → List D → List D
  | 0, _, ids => ids
  | n + 1, i, ids =>
    hashPairs n (i + 1)
      (ids.set i (m.node (ids.getD (2 * i) default) (ids.getD (2 * i + 1) default)))

/-- `if (ids.size() % 2) ids.push_back(ids.back())`. -/
def padLast (ids : List D) : List D :=
  if ids.length % 2 = 1 then ids ++ [ids.getLastD default] else ids

/-- One round of `merkle`'s `while` loop. -/
def merkleRound (ids : List D) : List D :=
  let ids := padLast ids
  (hashPairs m (ids.length / 2) 0 ids).take (ids.length / 2)

theorem length_hashPairs : ∀ (n i : Nat) (ids : List D), (hashPairs m n i ids).length = ids.length
  | 0, _, _ => rfl
  | n + 1, i, ids => by rw [hashPairs, length_hashPairs n, length_set]

theorem length_padLast (ids : List D) : (padLast ids).length = ids.length + ids.length % 2 := by
  unfold padLast
  split
  · rename_i hodd
    rw [length_append, length_singleton, hodd]
  · omega

theorem length_merkleRound (ids : List D) : (merkleRound m ids).length = (ids.length + 1) / 2 := by
  simp only [merkleRound, length_take, length_hashPairs, length_padLast]
  omega

/-- `while (ids.size() > 1)`. -/
def merkleLoop (ids : List D) : List D :=
  if 1 < ids.length then merkleLoop (merkleRound m ids) else ids
termination_by ids.length
decreasing_by
  rw [length_merkleRound]
  omega

/-- `merkle`. -/
def merkle (ids : List D) : D :=
  if ids.length = 0 then default else (merkleLoop m ids).headD default

/-! ### The batch rounds are levels -/

/-- **The in-place loop.** With `done` written over the first `i` positions of `ids`, the rest of
the loop reads only untouched positions, so it appends the pairs of `ids` from `2 * i` on. -/
theorem take_hashPairs (ids : List D) :
    ∀ (n i : Nat) (done : List D), done.length = i → 2 * (i + n) ≤ ids.length →
      (hashPairs m n i (done ++ ids.drop i)).take (i + n) =
        done ++ (pairs m.node (ids.drop (2 * i))).take n
  | 0, i, done, hd, _ => by
    simp [hashPairs, hd]
  | n + 1, i, done, hd, hlen => by
    have read : ∀ j (hj : j < ids.length), i ≤ j →
        (done ++ ids.drop i).getD j default = ids[j] := by
      intro j hj hij
      rw [getD_eq_getElem?_getD, getElem?_append_right (by omega), getElem?_drop,
        show i + (j - done.length) = j by omega, getElem?_eq_getElem hj, Option.getD_some]
    have hdrop : ids.drop (2 * i) = ids[2 * i] :: ids[2 * i + 1] :: ids.drop (2 * (i + 1)) := by
      rw [drop_eq_getElem_cons (by omega), drop_eq_getElem_cons (by omega)]
      rfl
    have hset : ∀ v, (done ++ ids.drop i).set i v = (done ++ [v]) ++ ids.drop (i + 1) := by
      intro v
      rw [set_append_right _ _ (by omega), hd, Nat.sub_self,
        drop_eq_getElem_cons (show i < ids.length by omega), set_cons_zero,
        append_assoc]
      rfl
    rw [hashPairs, read (2 * i) (by omega) (by omega), read (2 * i + 1) (by omega) (by omega), hset,
      show i + (n + 1) = (i + 1) + n by omega,
      take_hashPairs ids n (i + 1) _ (by simp [hd]) (by omega), hdrop, pairs, take_succ_cons,
      append_assoc]
    rfl

theorem pairs_padLast (h : D → D → D) (ids : List D) : pairs h (padLast ids) = level h ids := by
  unfold padLast
  split
  · rename_i hodd
    obtain ⟨l, y, rfl, hl⟩ := exists_snoc_of_odd hodd
    rw [getLastD_concat, pairs_snoc_snoc h y y hl, level_snoc_even h y hl]
  · rename_i heven
    exact (level_eq_pairs h (by omega)).symm

/-- **One round of the `while` loop is one level.** -/
theorem merkleRound_eq_level (ids : List D) : merkleRound m ids = level m.node ids := by
  have hround := take_hashPairs m (padLast ids) ((padLast ids).length / 2) 0 [] rfl (by omega)
  simp only [drop_zero, nil_append, Nat.zero_add, Nat.mul_zero] at hround
  rw [merkleRound, hround, pairs_padLast, take_of_length_le]
  rw [length_level, length_padLast]
  omega

/-- The `while` loop runs `Nat.clog 2 ids.length` levels. -/
theorem merkleLoop_eq_iterate (d : Nat) :
    ∀ {ids : List D}, Nat.clog 2 ids.length = d → merkleLoop m ids = (level m.node)^[d] ids := by
  induction d with
  | zero =>
    intro ids hd
    have hle : ¬ 1 < ids.length := fun hlt => by
      have := Nat.clog_pos (b := 2) (by norm_num) hlt
      omega
    rw [merkleLoop, if_neg hle]
    rfl
  | succ d ih =>
    intro ids hd
    have hlt : 1 < ids.length := by
      by_contra hc
      have : Nat.clog 2 ids.length = 0 := Nat.clog_of_right_le_one (by omega) 2
      omega
    rw [merkleLoop, if_pos hlt, merkleRound_eq_level, Function.iterate_succ_apply]
    apply ih
    rw [length_level]
    have hclog : Nat.clog 2 ids.length = Nat.clog 2 ((ids.length + 1) / 2) + 1 :=
      Nat.clog_of_two_le (by norm_num) hlt
    omega

end Batch

/-! ## The loop of `append` -/

section Append

variable {D : Type} [Inhabited D] (m : MerkleHash D)

theorem and_one_eq_zero_iff (n : UInt64) : n &&& 1 = 0 ↔ n.toNat % 2 = 0 := by
  rw [← UInt64.toNat_inj, UInt64.toNat_and]
  simp [Nat.and_one_is_mod]

theorem shiftRight_one_toNat (n : UInt64) : (n >>> 1).toNat = n.toNat / 2 := by
  exact Nat.shiftRight_eq_div_pow _ 1

/-- **The loop of `append`.** `l` are the complete nodes of the level the loop is at (as many as
`index`) and `top` the next one. The old nodes ahead are the left nodes of `l`; the loop ends
with the root of `l ++ [top]` and leaves its left nodes in front. Once a left value with an implied
right has been met, every left node still ahead is kept. -/
theorem appendLoop_spec (d : Nat) :
    ∀ (index : UInt64) (l : List D) (top : D) (p : Bool) (rest updated : List D),
      l.length = index.toNat → index.toNat < 2 ^ d →
      let r := appendLoop m d index top p (leftNodes m.node l ++ rest) updated
      (level m.node)^[d] (l ++ [top]) = [r.1] ∧ (p = true → r.2 = updated ++ leftNodes m.node l) ∧
        (p = false → ∃ rest', r.2 ++ [r.1] = updated ++ (leftNodes m.node (l ++ [top]) ++ rest')) := by
  induction d with
  | zero =>
    intro index l top p rest updated hl hd
    have : l = [] := length_eq_zero_iff.mp (by omega)
    subst this
    rw [leftNodes_snoc_even m.node top rfl]
    simp [appendLoop, pairs]
  | succ d ih =>
    intro index l top p rest updated hl hd
    have hhalf := shiftRight_one_toNat index
    rw [Function.iterate_succ_apply, appendLoop]
    by_cases hpar : index.toNat % 2 = 0
    · have hl2 : l.length % 2 = 0 := by omega
      rw [if_pos ((and_one_eq_zero_iff index).mpr hpar), leftNodes_even m.node hl2,
        level_snoc_even m.node top hl2, leftNodes_snoc_even m.node top hl2]
      obtain ⟨h1, h2, -⟩ := ih (index >>> 1) (pairs m.node l) (m.node top top) true rest
        (if p then updated else updated ++ [top]) (by rw [length_pairs, hhalf, hl]) (by omega)
      generalize appendLoop m d (index >>> 1) (m.node top top) true
        (leftNodes m.node (pairs m.node l) ++ rest) (if p then updated else updated ++ [top]) = r
        at h1 h2
      refine ⟨h1, fun hp => ?_, fun hp => ⟨[r.1], ?_⟩⟩
      · rw [h2 rfl, hp, if_pos rfl]
      · rw [h2 rfl, hp]
        simp only [Bool.false_eq_true, if_false, append_assoc, cons_append, nil_append]
    · obtain ⟨l', y, rfl, hl'⟩ := exists_snoc_of_odd (l := l) (by omega)
      rw [if_neg (fun h0 => hpar ((and_one_eq_zero_iff index).mp h0)),
        leftNodes_snoc_even m.node y hl', level_snoc_odd m.node y top hl',
        leftNodes_snoc_odd m.node y top hl']
      simp only [length_append, length_singleton] at hl
      obtain ⟨h1, h2, h3⟩ := ih (index >>> 1) (pairs m.node l') (m.node y top) p rest
        (if p then updated ++ [y] else updated) (by rw [length_pairs, hhalf]; omega) (by omega)
      refine ⟨h1, fun hp => (h2 hp).trans ?_, fun hp => ?_⟩
      · rw [hp, if_pos rfl, append_assoc, singleton_append]
      · subst hp
        exact h3 rfl

/-! ## Appending a whole list -/

/-- The tree after appending `ids` one at a time. -/
def appendAll (t : IncrementalMerkle D) (ids : List D) : IncrementalMerkle D :=
  ids.foldl (fun t id => t.append m id) t

/-- What the tree holds after the digests `l`: their number, their left nodes in front, and (when
there are any) their root at the back. -/
structure Holds (t : IncrementalMerkle D) (l : List D) : Prop where
  count : t.nodeCount.toNat = l.length
  front : ∃ rest, t.activeNodes = leftNodes m.node l ++ rest
  back : l ≠ [] → t.activeNodes.getLastD default = merkle m l

theorem holds_empty : Holds m (IncrementalMerkle.empty D) [] :=
  ⟨rfl, ⟨[], by simp [IncrementalMerkle.empty]⟩, fun h => absurd rfl h⟩

theorem merkle_of_iterate {l : List D} {r : D} (hl : l ≠ [])
    (h : (level m.node)^[Nat.clog 2 l.length] l = [r]) : merkle m l = r := by
  have hpos := length_pos_iff.mpr hl
  rw [merkle, if_neg (by omega), merkleLoop_eq_iterate m _ rfl, h]
  rfl

variable {t : IncrementalMerkle D}

/-- **One `append` keeps the tree in step with the list**, as long as the count fits its word. -/
theorem Holds.append {l : List D} (h : Holds m t l) (d : D)
    (hlen : l.length + 1 < 2 ^ 64) : Holds m (t.append m d) (l ++ [d]) := by
  obtain ⟨rest, hfront⟩ := h.front
  have hcount : (t.nodeCount + 1).toNat = l.length + 1 := by
    rw [UInt64.toNat_add, h.count, UInt64.toNat_one, Nat.mod_eq_of_lt hlen]
  have hne : t.nodeCount + 1 ≠ 0 := fun h0 => by
    rw [h0] at hcount
    simp at hcount
  have hdepth : calcluateMaxDepth (t.nodeCount + 1) - 1 = Nat.clog 2 (l.length + 1) := by
    rw [calcluateMaxDepth_eq hne, hcount, Nat.add_sub_cancel]
  have hbound : t.nodeCount.toNat < 2 ^ Nat.clog 2 (l.length + 1) := by
    have := Nat.le_pow_clog (b := 2) (by norm_num) (l.length + 1)
    have hc := h.count
    omega
  obtain ⟨hroot, -, hnodes⟩ :=
    appendLoop_spec m _ t.nodeCount l d false rest [] h.count.symm hbound
  obtain ⟨rest', hnodes⟩ := hnodes rfl
  rw [← hfront, ← hdepth] at hroot hnodes
  refine ⟨?_, ⟨rest', hnodes⟩, fun _ => ?_⟩
  · rw [length_append, length_singleton]
    exact hcount
  · show getLastD (_ ++ [_]) default = _
    rw [getLastD_concat]
    refine (merkle_of_iterate m (by simp) ?_).symm
    rw [length_append, length_singleton, ← hdepth]
    exact hroot

theorem holds_appendAll {l : List D} :
    ∀ (ids : List D) {t : IncrementalMerkle D}, Holds m t l → l.length + ids.length < 2 ^ 64 →
      Holds m (appendAll m t ids) (l ++ ids)
  | [], t, h, _ => by simpa [appendAll] using h
  | d :: ids, t, h, hlen => by
    simp only [length_cons] at hlen
    have hstep := h.append m d (by omega)
    have := holds_appendAll (l := l ++ [d]) ids hstep
      (by simp only [length_append, length_singleton]; omega)
    rwa [append_assoc, singleton_append] at this

theorem Holds.getRoot {l : List D} (h : Holds m t l) : t.getRoot = merkle m l := by
  have hc := h.count
  unfold IncrementalMerkle.getRoot
  by_cases hl : l = []
  · subst hl
    have h0 : ¬ t.nodeCount > 0 := by
      rw [gt_iff_lt, UInt64.lt_iff_toNat_lt, hc]
      simp
    rw [if_neg h0]
    rfl
  · have hpos := length_pos_iff.mpr hl
    have h0 : t.nodeCount > 0 := by
      rw [gt_iff_lt, UInt64.lt_iff_toNat_lt, hc]
      simpa using hpos
    rw [if_pos h0, h.back hl]

/-- **The incremental root is the batch root**, for the whole list and after every prefix. The
bound is the range of `size()` of the `vector` that `merkle` takes. -/
theorem getRoot_eq_merkle (ids : List D) (hlen : ids.length < 2 ^ 64) :
    (appendAll m (IncrementalMerkle.empty D) ids).getRoot = merkle m ids ∧ ∀ n, n ≤ ids.length →
        (appendAll m (IncrementalMerkle.empty D) (ids.take n)).getRoot = merkle m (ids.take n) := by
  have root : ∀ l : List D, l.length < 2 ^ 64 →
      (appendAll m (IncrementalMerkle.empty D) l).getRoot = merkle m l := by
    intro l hl
    have hh := holds_appendAll m l (holds_empty m) (by simpa using hl)
    exact hh.getRoot m
  refine ⟨root ids hlen, fun n _ => root _ ?_⟩
  rw [length_take]
  omega

end Append

/-- Three digests under a hash that is not symmetric. -/
theorem getRoot_eq_merkle_three :
    (appendAll ⟨fun p => 3 * p.1 + p.2, id, id⟩ (IncrementalMerkle.empty Nat) [5, 7, 9]).getRoot =
      merkle ⟨fun p => 3 * p.1 + p.2, id, id⟩ [5, 7, 9] :=
  (getRoot_eq_merkle ⟨fun p => 3 * p.1 + p.2, id, id⟩ [5, 7, 9] (by simp)).1

end Forceio.Chain
