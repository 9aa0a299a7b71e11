import Forceio.Chain.HeaderChain

/-!
# The confirmation window

What the counters of `confirm_count` mean. Position `m` from the newest end is the counter of block
`block_num - m`. It starts at the confirmations the block needs, two thirds of the schedule active
before it plus one, and counts down once for every block that confirms it.

Result:
* `confirmation_window`: the whole invariant, for chains from genesis.
-/

namespace Forceio.Chain

open Forceio.Lib BlockHeaderState HeaderPath List

variable {Key Sig : Type}
variable (b : BlockHeaderState Key Sig)

/-- `b` confirms block `k`: its range `[block_num - confirmed, block_num]` contains `k`. -/
def Confirms (k : Nat) : Prop :=
  k ≤ b.blockNum ∧ (b.blockNum : Int) - b.header.confirmed.toNat ≤ k

instance (b : BlockHeaderState Key Sig) (k : Nat) : Decidable (Confirms b k) :=
  inferInstanceAs (Decidable (_ ∧ _))

/-- The number of blocks of the chain `l` that confirm block `k`. -/
def confirmers (l : List (BlockHeaderState Key Sig)) (k : Nat) : Nat :=
  l.countP fun b => decide (Confirms b k)

theorem confirmers_cons (l : List (BlockHeaderState Key Sig))
    (k : Nat) : confirmers (b :: l) k = confirmers l k + if Confirms b k then 1 else 0 := by
  unfold confirmers
  rw [countP_cons]
  simp only [decide_eq_true_eq]

theorem confirmers_eq_zero {l : List (BlockHeaderState Key Sig)} {k : Nat}
    (h : ∀ b ∈ l, b.blockNum < k) : confirmers l k = 0 := by
  unfold confirmers
  rw [countP_eq_zero]
  intro b hb
  rw [decide_eq_true_iff]
  exact fun hk => absurd hk.1 (not_le.mpr (h b hb))

/-- A block confirms the block `m` before it iff `m` is within its count. -/
theorem confirms_sub_iff {b : BlockHeaderState Key Sig} {m : Nat} (hm : m ≤ b.blockNum) :
    Confirms b (b.blockNum - m) ↔ m ≤ b.header.confirmed.toNat := by
  unfold Confirms
  omega

theorem decU8_of_pos {c : Nat} (h1 : 1 ≤ c) (h2 : c ≤ 255) : decU8 c = c - 1 := by
  unfold decU8
  omega

/-- Schedules within the limit need a number of confirmations that fits in a `uint8_t`. -/
theorem requiredConfs_le {s : BlockHeaderState Key Sig}
    (h : s.activeSchedule.producers.length ≤ maxProducers) : s.requiredConfs ≤ 84 := by
  unfold requiredConfs
  unfold maxProducers at h
  omega

section Paths

variable [Inhabited Sig] [DecidableEq Key] {env : ChainEnv Key Sig}
  {a s r : BlockHeaderState Key Sig} {l : List (BlockHeaderState Key Sig)}

/-! ## One step -/

/-- A counter that is still there after a step: the one before it, decremented if the new block
confirms its block, and then not zero. -/
theorem counter_next (hr : Step env s r) {m c : Nat} (hc : r.confirmCount.reverse[m]? = some c) :
    ∃ c0, s.grownConfirmCount.reverse[m]? = some c0 ∧
      (m ≤ r.header.confirmed.toNat → c = decU8 c0 ∧ c ≠ 0) ∧
      (¬ m ≤ r.header.confirmed.toNat → c = c0) := by
  obtain ⟨x, hcc, hspec⟩ := hr.confirmedSpec
  cases hspec with
  | through cc' hlen hget hne =>
    obtain ⟨h1, -⟩ := Prod.mk.inj hcc
    rw [h1, hget] at hc
    obtain ⟨c0, hc0, rfl⟩ := Option.map_eq_some_iff.mp hc
    refine ⟨c0, hc0, fun hm => ?_, fun hm => if_neg hm⟩
    rw [if_pos hm]
    exact ⟨rfl, hne m c0 hm hc0⟩
  | cut cc' z c' hz _ _ hlen hget hne =>
    obtain ⟨h1, -⟩ := Prod.mk.inj hcc
    rw [h1] at hc
    have hm : m < z := by
      have := (List.getElem?_eq_some_iff.mp hc).1
      rwa [length_reverse, hlen] at this
    rw [hget m hm] at hc
    obtain ⟨c0, hc0, rfl⟩ := Option.map_eq_some_iff.mp hc
    exact ⟨c0, hc0, fun _ => ⟨rfl, hne m c0 hm hc0⟩, fun h => absurd (by omega) h⟩

/-- A new proposed number is that of a block whose counter reached zero in this step. -/
theorem proposed_next (hs : Shape s) (hr : Step env s r)
    (hne : r.dposProposedIrreversibleBlocknum ≠ s.dposProposedIrreversibleBlocknum) :
    ∃ m c, m ≤ r.header.confirmed.toNat ∧ s.grownConfirmCount.reverse[m]? = some c ∧
      decU8 c = 0 ∧ m < r.blockNum ∧ r.dposProposedIrreversibleBlocknum = r.blockNum - m := by
  obtain ⟨x, hcc, hspec⟩ := hr.confirmedSpec
  cases hspec with
  | through cc' _ _ _ => exact absurd (Prod.mk.inj hcc).2 hne
  | cut cc' z c hz hget hzero _ _ _ =>
    have hzl := (List.getElem?_eq_some_iff.mp hget).1
    rw [length_reverse] at hzl
    obtain ⟨hg, -⟩ := length_grownConfirmCount hs.tracked
    have hcount := hs.counted
    have hnum := hs.blockNum_next hr
    have hlt := (hs.next hr).blockNum_lt_size
    refine ⟨z, c, hz, hget, hzero, by omega, ?_⟩
    rw [(Prod.mk.inj hcc).2, subU32_of_le (by omega) hlt]

/-! ## Along a path -/

/-- In the state `s` at the head of the chain `l`, a counter of a block after `a` is the number of
confirmations the block still misses. -/
def Counted (a s : BlockHeaderState Key Sig) (l : List (BlockHeaderState Key Sig)) : Prop :=
  ∀ m c, s.confirmCount.reverse[m]? = some c → a.blockNum + m < s.blockNum →
    ∃ p ∈ l, p.blockNum + 1 + m = s.blockNum ∧ 1 ≤ c ∧
      c + confirmers l (s.blockNum - m) = p.requiredConfs

/-- The same for the counters `generate_next` hands on, before the new block `r` confirms. -/
theorem Counted.grown (hc : Counted a s l) (hs : Shape s) (hr : Step env s r) (hsl : s ∈ l)
    (hl : ∀ t ∈ l, t.blockNum ≤ s.blockNum)
    (hsched : s.activeSchedule.producers.length ≤ maxProducers) {m c : Nat}
    (hm : s.grownConfirmCount.reverse[m]? = some c) (ham : a.blockNum + m < r.blockNum) :
    ∃ p ∈ l, p.blockNum + 1 + m = r.blockNum ∧ 1 ≤ c ∧
      c + confirmers l (r.blockNum - m) = p.requiredConfs := by
  have hnum := hs.blockNum_next hr
  rw [reverse_grownConfirmCount hs.tracked] at hm
  cases m with
  | zero =>
    -- the counter of the new block itself: nothing older confirms it
    obtain rfl := Option.some.inj hm
    have hreq := requiredConfs_le hsched
    have hz : confirmers l r.blockNum = 0 := confirmers_eq_zero fun b hb => by
      have := hl b hb
      omega
    refine ⟨s, hsl, by omega, ?_, ?_⟩
    · unfold requiredConfs at hreq ⊢
      omega
    · rw [Nat.sub_zero, hz]
      omega
  | succ m =>
    rw [getElem?_cons_succ, getElem?_take] at hm
    split at hm
    · obtain ⟨p, hp, hpm, hpos, hsum⟩ := hc m c hm (by omega)
      refine ⟨p, hp, by omega, hpos, ?_⟩
      rw [show r.blockNum - (m + 1) = s.blockNum - m by omega]
      exact hsum
    · simp at hm

/-- **One step keeps the meaning of the counters.** -/
theorem Counted.next (hc : Counted a s l) (hs : Shape s) (hr : Step env s r) (hsl : s ∈ l)
    (hl : ∀ t ∈ l, t.blockNum ≤ s.blockNum)
    (hsched : ∀ t ∈ l, t.activeSchedule.producers.length ≤ maxProducers) :
    Counted a r (r :: l) := by
  intro m c hm ham
  obtain ⟨c0, hc0, hin, hout⟩ := counter_next hr hm
  obtain ⟨p, hp, hpm, hpos, hsum⟩ := hc.grown hs hr hsl hl (hsched s hsl) hc0 ham
  have hreq := requiredConfs_le (hsched p hp)
  refine ⟨p, mem_cons_of_mem r hp, hpm, ?_⟩
  rw [confirmers_cons]
  by_cases hmn : m ≤ r.header.confirmed.toNat
  · obtain ⟨hdec, hne⟩ := hin hmn
    rw [decU8_of_pos hpos (by omega)] at hdec
    rw [if_pos ((confirms_sub_iff (by omega)).mpr hmn)]
    omega
  · rw [hout hmn, if_neg fun h => hmn ((confirms_sub_iff (by omega)).mp h)]
    exact ⟨hpos, by omega⟩

/-- **The meaning of the counters along a path.** -/
theorem HeaderPath.counted (h : HeaderPath env a (s :: l)) (ha : Shape a)
    (hsched : ∀ t ∈ s :: l, t.activeSchedule.producers.length ≤ maxProducers) :
    Counted a s (s :: l) := by
  generalize hl : s :: l = l' at h hsched
  induction h generalizing s l with
  | start =>
    obtain ⟨rfl, rfl⟩ := cons.inj hl
    intro m c _ hm
    omega
  | @next s' r ss hp hr ih =>
    obtain ⟨rfl, rfl⟩ := cons.inj hl
    exact (ih rfl fun t ht => hsched t (mem_cons_of_mem _ ht)).next (hp.head_shape ha) hr
      mem_cons_self (hp.blockNum_le ha) fun t ht => hsched t (mem_cons_of_mem _ ht)

theorem HeaderPath.proposed_le (h : HeaderPath env a (s :: l)) (ha : Shape a) :
    ∀ t ∈ l, t.dposProposedIrreversibleBlocknum ≤ s.dposProposedIrreversibleBlocknum :=
  (pairwise_cons.mp <| h.pairwise ha (fun h1 h2 => h2.trans h1) Shape.proposed_mono).1

variable [Inhabited Key] {g : GenesisState Key}

/-- **The confirmation window.** In every chain from genesis, whose schedules are within the limit:
the counters are at most 1024, and entry `j` is positive and belongs to block
`block_num - (size - 1 - j)`; it is what that block required, two thirds of the schedule active
before it plus one, less the blocks of the chain that confirm it. The proposed irreversible number
is at most `block_num - size` and no less than any ancestor's, and the irreversible number is at
most the proposed one. -/
theorem confirmation_window (h : HeaderChain env g (s :: l))
    (hsched : ∀ t ∈ s :: l, t.activeSchedule.producers.length ≤ maxProducers) :
    s.confirmCount.length ≤ 1024 ∧ s.confirmCount.length ≤ s.blockNum ∧
      (∀ j c : Nat, s.confirmCount[j]? = some c → 1 ≤ c ∧
        ∃ p ∈ l, p.blockNum + 1 = s.blockNum - (s.confirmCount.length - 1 - j) ∧
          (c : Int) = (p.activeSchedule.producers.length * 2 / 3 + 1 : Nat) -
            confirmers (s :: l) (p.blockNum + 1)) ∧
      s.dposProposedIrreversibleBlocknum ≤ s.blockNum - s.confirmCount.length ∧
      (∀ t ∈ l, t.dposProposedIrreversibleBlocknum ≤ s.dposProposedIrreversibleBlocknum) ∧
      s.dposIrreversibleBlocknum ≤ s.dposProposedIrreversibleBlocknum ∧
      s.dposProposedIrreversibleBlocknum ≤ s.blockNum := by
  have hs := head_shape h (Shape.genesis env g)
  have hcounted := counted h (Shape.genesis env g) hsched
  have hcount := hs.counted
  have hprop := hs.proposed
  refine ⟨hs.tracked, le_of_lt hcount, fun j c hj => ?_, by omega,
    proposed_le h (Shape.genesis env g), hs.irreversible, by omega⟩
  have hjl := (List.getElem?_eq_some_iff.mp hj).1
  have hrev : s.confirmCount.reverse[s.confirmCount.length - 1 - j]? = some c := by
    rw [getElem?_reverse (by omega), ← hj]
    congr 1
    omega
  obtain ⟨p, hp, hpm, hpos, hsum⟩ := hcounted _ c hrev (by rw [genesis_blockNum]; omega)
  rw [show s.blockNum - (s.confirmCount.length - 1 - j) = p.blockNum + 1 by omega] at hsum ⊢
  refine ⟨hpos, p, ?_, rfl, ?_⟩
  · rcases mem_cons.mp hp with rfl | hp
    · omega
    · exact hp
  · unfold requiredConfs at hsum
    omega

end Paths

/-- Blocks 2, 3 and 4 by three producers, each confirming all it can: block 2 is proposed. -/
def threeConfirm : List (BlockHeaderState Nat Nat) :=
  toyChain [1, 2, 3]
    [toyHeader 1 1 2 3 0 0 none, toyHeader 2 2 3 1 1 0 none, toyHeader 3 3 4 2 2 0 none]

theorem confirmation_window_threeConfirm :
    ∃ s l, threeConfirm = s :: l ∧ s.blockNum = 4 ∧ s.confirmCount = [1, 2] ∧
      s.dposProposedIrreversibleBlocknum = 2 ∧
      (∀ j c : Nat, s.confirmCount[j]? = some c → 1 ≤ c ∧
        ∃ p ∈ l, p.blockNum + 1 = s.blockNum - (s.confirmCount.length - 1 - j) ∧
          (c : Int) = (p.activeSchedule.producers.length * 2 / 3 + 1 : Nat) -
            confirmers (s :: l) (p.blockNum + 1)) := by
  have hne : threeConfirm ≠ [] := by decide
  have hchain : HeaderChain toyEnv (toyGenesis [1, 2, 3]) threeConfirm := toyChain_headerChain hne
  have hsched : ∀ t ∈ threeConfirm, t.activeSchedule.producers.length ≤ maxProducers := by decide
  have hhead : threeConfirm.head?.map
      (fun s => (s.blockNum, s.confirmCount, s.dposProposedIrreversibleBlocknum)) =
        some (4, [1, 2], 2) := by decide
  obtain ⟨s, l, hsl⟩ := exists_cons_of_ne_nil hne
  rw [hsl] at hchain hsched hhead
  simp only [head?_cons, Option.map_some, Option.some.injEq, Prod.mk.injEq] at hhead
  obtain ⟨hnum, hcc, hprop⟩ := hhead
  exact ⟨s, l, hsl, hnum, hcc, hprop, (confirmation_window hchain hsched).2.2.1⟩

end Forceio.Chain
