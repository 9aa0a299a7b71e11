import Forceio.Chain.HeaderChain

/-!
# Confirming a block twice

`next` rejects a header whose range `[block_num - confirmed, block_num]` reaches back to the last
block its producer made, so that no producer confirms a block twice on one branch. The bound is a
`uint32_t` subtraction: with `confirmed > block_num` it wraps to a huge number, every header passes,
and the counters of blocks the producer has confirmed are decremented again
(`double_decrement`). For headers whose range does not wrap the check does what it is for, also
across promotions: a producer that is dropped loses its entry, and when a later schedule brings it
back its entry is seeded with an irreversible number that lies above everything it had confirmed.

Result:
* `decrements_at_most_once`: no block is confirmed twice by one producer in any chain whose ranges
  do not wrap onto tracked blocks.
-/

namespace Forceio.Chain

open Forceio.Lib BlockHeaderState List

variable {Key Sig : Type}

/-- The blocks whose counters `set_confirmed` decrements in the step from `s` to `r`, one entry for
each decrement. -/
def decremented (s r : BlockHeaderState Key Sig) : List Nat :=
  let cc := s.grownConfirmCount
  (confirmTouched cc.length (r.header.confirmed.toNat + 1) cc).map
    fun j => r.blockNum - (cc.length - 1 - j)

/-- How often blocks by `p` decrement the counter of block `k` in a chain. -/
def decrementsBy (p : AccountName) (k : Nat) : List (BlockHeaderState Key Sig) → Nat
  | r :: s :: l =>
    (if r.header.producer = p then (decremented s r).count k else 0) + decrementsBy p k (s :: l)
  | _ => 0

theorem decrementsBy_cons_of_ne {r s : BlockHeaderState Key Sig}
    {l : List (BlockHeaderState Key Sig)} {p : AccountName} (hp : r.header.producer ≠ p) (k : Nat) :
    decrementsBy p k (r :: s :: l) = decrementsBy p k (s :: l) := by
  rw [decrementsBy, if_neg hp, Nat.zero_add]

/-- The range of the header does not wrap, or its producer's last block is no longer tracked. -/
def RangeKept (s : BlockHeaderState Key Sig) (h : SignedBlockHeader Key Sig) : Prop :=
  h.confirmed.toNat ≤ s.blockNum + 1 ∨
    ∀ last, s.producerToLastProduced.find h.producer = some last →
      last + s.confirmCount.length ≤ s.blockNum

section Steps

variable [Inhabited Sig] [DecidableEq Key] {env : ChainEnv Key Sig}
  {a s r : BlockHeaderState Key Sig} {l : List (BlockHeaderState Key Sig)}

omit [Inhabited Sig] [DecidableEq Key] in
/-- A decremented block is in the range of the header and still tracked. -/
theorem mem_decremented (hs : Shape s) {k : Nat} (hk : k ∈ decremented s r) :
    k ≤ r.blockNum ∧ r.blockNum ≤ k + r.header.confirmed.toNat ∧
      r.blockNum ≤ k + s.confirmCount.length := by
  obtain ⟨j, hj, rfl⟩ := mem_map.mp hk
  obtain ⟨h1, h2⟩ := mem_confirmTouched hj
  obtain ⟨hg, -⟩ := length_grownConfirmCount hs.tracked
  omega

theorem count_decremented_le (hs : Shape s) (hr : Step env s r) (k : Nat) :
    (decremented s r).count k ≤ 1 := by
  refine nodup_iff_count_le_one.mp ?_ k
  refine List.Nodup.map_on (fun i hi j hj hij => ?_) (nodup_confirmTouched _ _ _)
  obtain ⟨hi1, -⟩ := mem_confirmTouched hi
  obtain ⟨hj1, -⟩ := mem_confirmTouched hj
  obtain ⟨hg, -⟩ := length_grownConfirmCount hs.tracked
  have hnum := hs.blockNum_next hr
  have hcount := hs.counted
  omega

/-- What the state `s` at the head of the chain `l` knows of past confirmations: a tracked block
that `p` has confirmed is at most `p`'s recorded block. If `p` has no record, it was dropped from
the schedule, and a schedule that is pending was proposed after everything `p` confirmed. -/
def Recorded (s : BlockHeaderState Key Sig) (l : List (BlockHeaderState Key Sig)) : Prop :=
  ∀ p k, 0 < decrementsBy p k l → k ≤ s.blockNum ∧ (s.blockNum < k + s.confirmCount.length →
      match s.producerToLastProduced.find p with
      | some last => k ≤ last
      | none => s.pendingSchedule.producers ≠ [] → k < s.pendingScheduleLibNum)

/-- **One step keeps the record.** -/
theorem Recorded.next (hrec : Recorded s (s :: l)) (hs : Shape s) (hr : Step env s r) :
    Recorded r (r :: s :: l) := by
  intro p k hpos
  have hnum := hs.blockNum_next hr
  obtain ⟨hg, -⟩ := length_grownConfirmCount hs.tracked
  have hlen := (hs.counters_next hr).2.2
  by_cases hp : r.header.producer = p
  · -- the producer's own record is the new block
    subst hp
    have hk : k ≤ r.blockNum := by
      rw [decrementsBy, if_pos rfl] at hpos
      rcases Nat.eq_zero_or_pos ((decremented s r).count k) with hz | hz
      · have := (hrec r.header.producer k (by omega)).1
        omega
      · exact (mem_decremented hs (count_pos_iff.mp hz)).1
    refine ⟨hk, fun _ => ?_⟩
    rw [hr.lastProduced_find, if_pos rfl]
    exact hk
  · rw [decrementsBy_cons_of_ne hp] at hpos
    obtain ⟨hk, hold⟩ := hrec p k hpos
    refine ⟨by omega, fun hwin => ?_⟩
    have hold := hold (by omega)
    rw [hr.lastProduced_find, if_neg (Ne.symm hp)]
    rcases hr.spec.pending_cases with
      ⟨hprom, -, hpend⟩ | ⟨hprom, -, hpend, hlib⟩ | ⟨hprom, hpend, -, hlib⟩
    · rw [hprom, if_pos rfl]
      by_cases hmem : p ∈ s.pendingSchedule.names
      · rw [if_pos hmem]
        cases hf : s.producerToLastProduced.find p with
        | some last =>
          rw [hf] at hold
          exact hold
        | none =>
          -- brought back: seeded above everything it confirmed
          rw [hf] at hold
          obtain ⟨hne, hle⟩ := promotesAt_iff.mp hprom
          have := hold hne
          exact le_of_lt (by rw [Option.getD_none]; omega)
      · rw [if_neg hmem]
        exact fun hne => absurd hpend hne
    · rw [hprom, if_neg (by simp : ¬ (false = true)), hpend, hlib]
      exact hold
    · rw [hprom, if_neg (by simp : ¬ (false = true)), hlib]
      cases hf : s.producerToLastProduced.find p with
      | some last =>
        rw [hf] at hold
        exact hold
      | none => exact fun _ => by omega

/-- A header whose range is kept confirms nothing its producer has confirmed before. -/
theorem Recorded.fresh (hrec : Recorded s (s :: l)) (hs : Shape s) (hr : Step env s r)
    (hseed : Seeded s) (hkept : RangeKept s r.header) {k : Nat} (hk : k ∈ decremented s r) :
    decrementsBy r.header.producer k (s :: l) = 0 := by
  by_contra hne
  obtain ⟨hks, hold⟩ := hrec _ k (Nat.pos_of_ne_zero hne)
  obtain ⟨-, hrange, htracked⟩ := mem_decremented hs hk
  have hnum := hs.blockNum_next hr
  have hlt := (hs.next hr).blockNum_lt_size
  obtain ⟨last, hlast⟩ := hseed.lastProduced _ hr.producer_mem
  rw [hlast] at hold
  have hcheck := hr.spec.notDouble last hlast
  rcases hkept with hle | hout
  · rw [subU32_of_le (by omega) hlt] at hcheck
    omega
  · have := hout last hlast
    omega

variable [Inhabited Key] {g : GenesisState Key}

theorem HeaderChain.recorded (h : HeaderChain env g (s :: l)) : Recorded s (s :: l) := by
  generalize hl : s :: l = l' at h
  induction h generalizing s l with
  | start =>
    intro p k hpos
    exact absurd hpos (lt_irrefl 0)
  | @next s' r ss hp hr ih =>
    obtain ⟨rfl, -⟩ := cons.inj hl
    exact (ih rfl).next (hp.head_shape (Shape.genesis env g)) hr

/-- **No producer confirms a block twice on a branch** whose headers keep their range: for every
chain from genesis, with arbitrary counts and schedule changes, every producer name and every block,
at most one decrement of the block's counter comes from blocks of that producer. -/
theorem decrements_at_most_once (h : HeaderChain env g l)
    (hkept : l.IsChain fun r s => RangeKept s r.header) (p : AccountName) (k : Nat) :
    decrementsBy p k l ≤ 1 := by
  induction h with
  | start => exact Nat.zero_le 1
  | @next s r ss hp hr ih =>
    obtain ⟨hstep, hrest⟩ := isChain_cons_cons.mp hkept
    have hs := hp.head_shape (Shape.genesis env g)
    have hih := ih hrest
    by_cases hprod : r.header.producer = p
    · subst hprod
      rw [decrementsBy, if_pos rfl]
      have hone := count_decremented_le hs hr k
      rcases Nat.eq_zero_or_pos ((decremented s r).count k) with hz | hz
      · omega
      · cases ss with
        | nil => simpa [decrementsBy] using hone
        | cons t ss =>
          have hzero := (HeaderChain.recorded hp).fresh hs hr (HeaderChain.seeded hp) hstep
            (count_pos_iff.mp hz)
          omega
    · rw [decrementsBy_cons_of_ne hprod]
      exact hih

end Steps

/-- Producer 3 makes blocks 2 and 3. Block 3 claims `confirmed = 4`, which is more than its number:
`3 - 4` wraps and the check against its last block passes. -/
def wrappedRange : List (BlockHeaderState Nat Nat) :=
  toyChain [1, 2, 3] [toyHeader 1 1 2 3 0 0 none, toyHeader 2 2 5 3 4 0 none]

/-- **A wrapped range confirms twice**: block 2 is decremented twice by producer 3. -/
theorem double_decrement : HeaderChain toyEnv (toyGenesis [1, 2, 3]) wrappedRange ∧
      wrappedRange.length = 3 ∧ decrementsBy 3 2 wrappedRange = 2 :=
  ⟨toyChain_headerChain (by decide), by decide, by decide⟩

/-- Producers 3, 1 and 3 make blocks 2, 3 and 4 with ranges that do not wrap. -/
def keptRange : List (BlockHeaderState Nat Nat) :=
  toyChain [1, 2, 3] [toyHeader 1 1 2 3 0 0 none, toyHeader 2 2 3 1 1 0 none,
    toyHeader 3 3 5 3 1 0 none]

theorem decrements_at_most_once_keptRange : keptRange.length = 4 ∧ decrementsBy 3 2 keptRange = 1 ∧
      ∀ p k, decrementsBy p k keptRange ≤ 1 := by
  have hchain : HeaderChain toyEnv (toyGenesis [1, 2, 3]) keptRange :=
    toyChain_headerChain (by decide)
  refine ⟨by decide, by decide, decrements_at_most_once hchain ?_⟩
  have h : keptRange.IsChain fun r s => r.header.confirmed.toNat ≤ s.blockNum + 1 := by decide
  exact h.imp fun _ _ => Or.inl

end Forceio.Chain
