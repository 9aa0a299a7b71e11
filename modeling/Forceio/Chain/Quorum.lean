import Mathlib.Data.Finset.Card
import Forceio.Chain.Window

/-!
# Quorum intersection

The safety argument of the confirmation counters. A block is proposed as irreversible when its
counter reaches zero, that is when two thirds of the schedule plus one blocks have confirmed it
(`HeaderPath.quorum`). If producers never sign two different headers with overlapping ranges, these
blocks have distinct producers, so two quorums for the same number share a producer, whose two
headers must be one and the same; below it the two branches agree (`same_history`).

Results:
* `proposed_agree`: two branches that propose number `k` contain the same block at `k`.
* `minority_proposes_none`: without a quorum nothing new is proposed.
-/

namespace Forceio.Chain

open Forceio.Lib BlockHeaderState HeaderPath List

variable {Key Sig : Type} {a : BlockHeaderState Key Sig} {l : List (BlockHeaderState Key Sig)}
variable {k : Nat} {l1 l2 : List (BlockHeaderState Key Sig)}

/-- The producers of the blocks of a branch that confirm block `k`. -/
def confirmingProducers (l : List (BlockHeaderState Key Sig)) (k : Nat) : List AccountName :=
  (l.filter fun b => decide (Confirms b k)).map fun b => b.header.producer

theorem mem_confirmingProducers {p : AccountName} :
    p ∈ confirmingProducers l k ↔ ∃ b ∈ l, Confirms b k ∧ b.header.producer = p := by
  simp only [confirmingProducers, mem_map, mem_filter, decide_eq_true_iff, and_assoc]

variable [Inhabited Sig] [DecidableEq Key] {env : ChainEnv Key Sig}

/-- The blocks of a tree of branches, without the state `a` they all start from. -/
def treeBlocks (a : BlockHeaderState Key Sig) (T : Set (List (BlockHeaderState Key Sig))) :
    Set (BlockHeaderState Key Sig) :=
  {b | ∃ l ∈ T, b ∈ l ∧ a.blockNum < b.blockNum}

/-- A tree of headers over `a`, as the set of its branches: every step is accepted by `next`, the
active schedule is that of `a` throughout, and producers are honest: two different headers of one
producer have disjoint ranges. -/
structure HonestTree (env : ChainEnv Key Sig) (a : BlockHeaderState Key Sig)
    (T : Set (List (BlockHeaderState Key Sig))) : Prop where
  path : ∀ l ∈ T, HeaderPath env a l
  schedule : ∀ l ∈ T, ∀ b ∈ l, b.activeSchedule = a.activeSchedule
  honest : ∀ b ∈ treeBlocks a T, ∀ c ∈ treeBlocks a T, b.header.producer = c.header.producer →
    b.header.toBlockHeader ≠ c.header.toBlockHeader → ∀ k, ¬ (Confirms b k ∧ Confirms c k)

/-- The hash of the headers has no collision on the tree: blocks with one id have one header. -/
def CollisionFree (T : Set (List (BlockHeaderState Key Sig))) : Prop :=
  ∀ l ∈ T, ∀ l' ∈ T, ∀ b ∈ l, ∀ c ∈ l', b.id = c.id →
    b.header.toBlockHeader = c.header.toBlockHeader

/-! ## A proposed block has a quorum -/

/-- **A proposed number has a quorum of confirming blocks on its branch.** -/
theorem HeaderPath.quorum (h : HeaderPath env a l) (ha : Shape a)
    (hsched : ∀ t ∈ l, t.activeSchedule = a.activeSchedule)
    (hmax : a.activeSchedule.producers.length ≤ maxProducers) (hk : a.blockNum < k) :
    ∀ t ∈ l, t.dposProposedIrreversibleBlocknum = k → a.requiredConfs ≤ confirmers l k := by
  induction h with
  | start =>
    intro t ht hprop
    obtain rfl := mem_singleton.mp ht
    have := ha.proposed
    omega
  | @next s r ss hp hr ih =>
    intro t ht hprop
    have hrest : ∀ t ∈ s :: ss, t.activeSchedule = a.activeSchedule :=
      fun t ht => hsched t (mem_cons_of_mem r ht)
    have hlater : ∀ t ∈ s :: ss, t.dposProposedIrreversibleBlocknum = k →
        a.requiredConfs ≤ confirmers (r :: s :: ss) k := by
      intro t ht hprop
      rw [confirmers_cons]
      exact le_add_right (ih hrest t ht hprop)
    rcases mem_cons.mp ht with rfl | ht
    · by_cases hsame : t.dposProposedIrreversibleBlocknum = s.dposProposedIrreversibleBlocknum
      · exact hlater s mem_cons_self (by rw [← hsame, hprop])
      · -- the counter of block `k` reaches zero in this step
        have hs := hp.head_shape ha
        obtain ⟨m, c, hm, hget, hzero, hlt, hnum⟩ := proposed_next hs hr hsame
        have hlim : ∀ t ∈ s :: ss, t.activeSchedule.producers.length ≤ maxProducers :=
          fun t ht => by rw [hrest t ht]; exact hmax
        obtain ⟨p, hpm, -, hpos, hsum⟩ := (hp.counted ha hlim).grown hs hr mem_cons_self
          (hp.blockNum_le ha) (hlim s mem_cons_self) hget (by omega)
        have hreq : p.requiredConfs = a.requiredConfs := by
          unfold requiredConfs
          rw [hrest p hpm]
        have hc := requiredConfs_le (hlim p hpm)
        rw [decU8_of_pos hpos (by omega)] at hzero
        rw [← hprop, hnum, confirmers_cons, if_pos ((confirms_sub_iff (by omega)).mpr hm)]
        omega
    · exact hlater t ht hprop

/-! ## The producers of a quorum -/

/-- The producer of a block of the tree is one of the schedule. -/
theorem HeaderPath.producer_mem (h : HeaderPath env a l)
    (hsched : ∀ t ∈ l, t.activeSchedule = a.activeSchedule) {b : BlockHeaderState Key Sig}
    (hb : b ∈ l) (hne : b ≠ a) : b.header.producer ∈ a.activeSchedule.names := by
  obtain ⟨l1, l2, rfl, hp⟩ := h.of_mem hb
  cases hp with
  | start => exact absurd rfl hne
  | @next s _ ss _ hr =>
    have hmem := hr.producer_mem
    rwa [hsched s (by simp)] at hmem

variable {T : Set (List (BlockHeaderState Key Sig))}

/-- Blocks of one branch that confirm the same number have distinct producers. -/
theorem HonestTree.nodup_confirmingProducers
    (ht : HonestTree env a T) (hl : l ∈ T) (hk : a.blockNum < k) :
    (confirmingProducers l k).Nodup := by
  refine pairwise_map.mpr (List.Pairwise.imp_of_mem (fun {b c} hb hc hlt => ?_)
    ((ht.path l hl).pairwise_slot.filter _))
  intro hsame
  obtain ⟨hbl, hbk⟩ := mem_filter.mp hb
  obtain ⟨hcl, hck⟩ := mem_filter.mp hc
  rw [decide_eq_true_iff] at hbk hck
  refine ht.honest b ⟨l, hl, hbl, lt_of_lt_of_le hk hbk.1⟩ c ⟨l, hl, hcl, lt_of_lt_of_le hk hck.1⟩
    hsame (fun heq => ?_) k ⟨hbk, hck⟩
  rw [heq] at hlt
  exact UInt32.lt_irrefl _ hlt

/-- **Two quorums for one number share a producer.** -/
theorem HonestTree.common_producer
    (ht : HonestTree env a T) (h1 : l1 ∈ T) (h2 : l2 ∈ T) (hk : a.blockNum < k)
    (hq1 : a.requiredConfs ≤ confirmers l1 k) (hq2 : a.requiredConfs ≤ confirmers l2 k) :
    ∃ p, p ∈ confirmingProducers l1 k ∧ p ∈ confirmingProducers l2 k := by
  have hsub : ∀ l ∈ T, (confirmingProducers l k).toFinset ⊆ a.activeSchedule.names.toFinset := by
    intro l hl p hp
    obtain ⟨b, hb, hbk, rfl⟩ := mem_confirmingProducers.mp (mem_toFinset.mp hp)
    refine mem_toFinset.mpr ((ht.path l hl).producer_mem (ht.schedule l hl) hb ?_)
    rintro rfl
    exact absurd hbk.1 (not_le.mpr hk)
  have hcard : ∀ l ∈ T, (confirmingProducers l k).toFinset.card = confirmers l k := by
    intro l hl
    rw [toFinset_card_of_nodup (ht.nodup_confirmingProducers hl hk), confirmingProducers,
      length_map, confirmers, countP_eq_length_filter]
  have hn : a.activeSchedule.names.toFinset.card ≤ a.activeSchedule.producers.length := by
    refine le_trans (toFinset_card_le _) (le_of_eq ?_)
    exact length_map ..
  obtain ⟨p, hp⟩ := Finset.inter_nonempty_of_card_lt_card_add_card (hsub l1 h1) (hsub l2 h2) (by
    rw [hcard l1 h1, hcard l2 h2]
    unfold requiredConfs at hq1 hq2
    omega)
  rw [Finset.mem_inter, mem_toFinset, mem_toFinset] at hp
  exact ⟨p, hp⟩

/-! ## Below a common header -/

/-- **Below a common header two branches agree**, back to the state they start from. -/
theorem same_history {b c : BlockHeaderState Key Sig} (h1 : HeaderPath env a (b :: l1))
    (h2 : HeaderPath env a (c :: l2)) (hcoll : ∀ x ∈ b :: l1, ∀ y ∈ c :: l2, x.id = y.id →
      x.header.toBlockHeader = y.header.toBlockHeader)
    (hbc : b.header.toBlockHeader = c.header.toBlockHeader) :
    (b :: l1).map (fun t => t.header.toBlockHeader) =
      (c :: l2).map fun t => t.header.toBlockHeader := by
  have hslot : ∀ {x y : BlockHeaderState Key Sig} {l : List (BlockHeaderState Key Sig)},
      HeaderPath env a (x :: y :: l) → x.header.toBlockHeader ≠ a.header.toBlockHeader := by
    intro x y l h heq
    have hlt := h.pairwise_slot
    cases h with
    | next hp hr =>
      have hlt := (pairwise_cons.mp hlt).1 a hp.start_mem
      rw [heq] at hlt
      exact UInt32.lt_irrefl _ hlt
  generalize hl : b :: l1 = l at h1 hcoll
  induction h1 generalizing b c l1 l2 with
  | start =>
    obtain ⟨rfl, rfl⟩ := cons.inj hl
    cases h2 with
    | start => rfl
    | next hp hr => exact absurd hbc.symm (hslot (hp.next hr))
  | @next s r ss hp hr ih =>
    obtain ⟨rfl, rfl⟩ := cons.inj hl
    cases h2 with
    | start => exact absurd hbc (hslot (hp.next hr))
    | @next s' _ ss' hp' hr' =>
      have hprev : s.id = s'.id := by
        rw [← hr.spec.previous, ← hr'.spec.previous, hbc]
      have hhead := hcoll s (by simp) s' (by simp) hprev
      have := ih hp' hhead rfl fun x hx y hy =>
        hcoll x (mem_cons_of_mem _ hx) y (mem_cons_of_mem _ hy)
      rw [map_cons, this, hbc]
      rfl

/-- The block of number `k` below two blocks with the same header. -/
theorem same_block_below {b c : BlockHeaderState Key Sig} (ha : Shape a)
    (h1 : HeaderPath env a (b :: l1)) (h2 : HeaderPath env a (c :: l2))
    (hmap : (b :: l1).map (fun t => t.header.toBlockHeader) =
      (c :: l2).map fun t => t.header.toBlockHeader) (hk : a.blockNum < k) (hkb : k ≤ b.blockNum) :
    ∃ x ∈ b :: l1, ∃ y ∈ c :: l2, x.blockNum = k ∧ y.blockNum = k ∧ x.id = y.id ∧
      x.header.toBlockHeader = y.header.toBlockHeader := by
  have hlen := congrArg length hmap
  rw [length_map, length_map, length_cons, length_cons] at hlen
  have hb := h1.length_eq ha
  have hc := h2.length_eq ha
  obtain ⟨x, hx⟩ : ∃ x, (b :: l1)[b.blockNum - k]? = some x :=
    ⟨_, getElem?_eq_getElem (by rw [length_cons]; omega)⟩
  obtain ⟨y, hy⟩ : ∃ y, (c :: l2)[b.blockNum - k]? = some y :=
    ⟨_, getElem?_eq_getElem (by rw [length_cons]; omega)⟩
  have hxy : x.header.toBlockHeader = y.header.toBlockHeader := by
    have := congrArg (fun l => l[b.blockNum - k]?) hmap
    simp only [getElem?_map, hx, hy, Option.map_some, Option.some.injEq] at this
    exact this
  have hxk : x.blockNum = k := by
    have := h1.blockNum_getElem ha hx
    omega
  have hyk : y.blockNum = k := by
    have := h2.blockNum_getElem ha hy
    omega
  have hxm := mem_of_getElem? hx
  have hym := mem_of_getElem? hy
  refine ⟨x, hxm, y, hym, hxk, hyk, ?_, hxy⟩
  rw [h1.id_eq hxm (by rintro rfl; omega), h2.id_eq hym (by rintro rfl; omega), hxy]

/-- **Quorum intersection.** Let `a` be a state reachable from genesis, with an active schedule of
at most 125 producers, and `T` a tree of headers over it that keeps this schedule and whose
producers are honest. If the proposed irreversible number takes a value `k` beyond `a` on two
branches of `T`, then both contain the same block at number `k`. -/
theorem proposed_agree [Inhabited Key] {g : GenesisState Key}
    {past : List (BlockHeaderState Key Sig)} (hreach : HeaderChain env g (a :: past))
    (hmax : a.activeSchedule.producers.length ≤ maxProducers)
    {T : Set (List (BlockHeaderState Key Sig))} (ht : HonestTree env a T) (hcoll : CollisionFree T)
    {l1 l2 : List (BlockHeaderState Key Sig)} (hl1 : l1 ∈ T) (hl2 : l2 ∈ T) {k : Nat}
    (hk : a.blockNum < k) {t1 t2 : BlockHeaderState Key Sig} (ht1 : t1 ∈ l1) (ht2 : t2 ∈ l2)
    (hp1 : t1.dposProposedIrreversibleBlocknum = k)
    (hp2 : t2.dposProposedIrreversibleBlocknum = k) :
    ∃ x ∈ l1, ∃ y ∈ l2, x.blockNum = k ∧ y.blockNum = k ∧ x.id = y.id ∧
      x.header.toBlockHeader = y.header.toBlockHeader := by
  have ha : Shape a := head_shape hreach (Shape.genesis env g)
  have hq1 := (ht.path l1 hl1).quorum ha (ht.schedule l1 hl1) hmax hk t1 ht1 hp1
  have hq2 := (ht.path l2 hl2).quorum ha (ht.schedule l2 hl2) hmax hk t2 ht2 hp2
  obtain ⟨p, hm1, hm2⟩ := ht.common_producer hl1 hl2 hk hq1 hq2
  obtain ⟨b, hb, hbk, hbp⟩ := mem_confirmingProducers.mp hm1
  obtain ⟨c, hc, hck, hcp⟩ := mem_confirmingProducers.mp hm2
  have hbc : b.header.toBlockHeader = c.header.toBlockHeader := by
    by_contra hne
    exact ht.honest b ⟨l1, hl1, hb, lt_of_lt_of_le hk hbk.1⟩ c
      ⟨l2, hl2, hc, lt_of_lt_of_le hk hck.1⟩ (hbp.trans hcp.symm) hne k ⟨hbk, hck⟩
  obtain ⟨u1, v1, rfl, hpath1⟩ := (ht.path l1 hl1).of_mem hb
  obtain ⟨u2, v2, rfl, hpath2⟩ := (ht.path l2 hl2).of_mem hc
  have hmap := same_history hpath1 hpath2 (fun x hx y hy =>
    hcoll _ hl1 _ hl2 x (mem_append_right u1 hx) y (mem_append_right u2 hy)) hbc
  obtain ⟨x, hx, y, hy, h⟩ := same_block_below ha hpath1 hpath2 hmap hk hbk.1
  exact ⟨x, mem_append_right u1 hx, y, mem_append_right u2 hy, h⟩

/-- **A minority finalizes nothing**: while fewer producers than a quorum build a branch of an honest
tree, it proposes no block of its own as irreversible. -/
theorem minority_proposes_none {T : Set (List (BlockHeaderState Key Sig))} (ht : HonestTree env a T)
    (ha : Shape a) (hmax : a.activeSchedule.producers.length ≤ maxProducers) (hl : l ∈ T)
    (P : Finset AccountName) (hP : ∀ b ∈ l, a.blockNum < b.blockNum → b.header.producer ∈ P)
    (hfew : P.card < a.requiredConfs) :
    ∀ t ∈ l, t.dposProposedIrreversibleBlocknum ≤ a.blockNum := by
  intro t htl
  by_contra hlt
  have hk := not_le.mp hlt
  have hquorum := (ht.path l hl).quorum ha (ht.schedule l hl) hmax hk t htl rfl
  have hsub : (confirmingProducers l t.dposProposedIrreversibleBlocknum).toFinset ⊆ P := by
    intro p hp
    obtain ⟨b, hb, hbk, rfl⟩ := mem_confirmingProducers.mp (mem_toFinset.mp hp)
    exact hP b hb (lt_of_lt_of_le hk hbk.1)
  have hcard := Finset.card_le_card hsub
  rw [toFinset_card_of_nodup (ht.nodup_confirmingProducers hl hk), confirmingProducers, length_map,
    ← countP_eq_length_filter] at hcard
  exact absurd hquorum (not_le.mpr (hcard.trans_lt hfew))

/-! ## A tree with two branches -/

/-- Blocks 2, 3 and 4 of three producers, then block 5 by producer 3 or by producer 1. -/
def forkedBranch (last : SignedBlockHeader Nat Nat) : List (BlockHeaderState Nat Nat) :=
  toyChain [1, 2, 3] [toyHeader 1 1 2 3 0 0 none, toyHeader 2 2 3 1 1 0 none,
    toyHeader 3 3 4 2 2 0 none, last]

theorem forkedBranch_chain {last : SignedBlockHeader Nat Nat} (h : forkedBranch last ≠ []) :
    HeaderChain toyEnv (toyGenesis [1, 2, 3]) (forkedBranch last) :=
  toyChain_headerChain h

def leftBranch : List (BlockHeaderState Nat Nat) := forkedBranch (toyHeader 4 4 5 3 2 0 none)

def rightBranch : List (BlockHeaderState Nat Nat) := forkedBranch (toyHeader 4 4 6 1 1 0 none)

theorem mem_branches {l : List (BlockHeaderState Nat Nat)}
    (hl : l ∈ ({leftBranch, rightBranch} : Set (List (BlockHeaderState Nat Nat))))
    {b : BlockHeaderState Nat Nat} (hb : b ∈ l) : b ∈ leftBranch ++ rightBranch := by
  rcases hl with rfl | rfl
  · exact mem_append_left _ hb
  · exact mem_append_right _ hb

theorem forked_honest : HonestTree toyEnv ((toyGenesis [1, 2, 3]).headerState toyEnv)
    {leftBranch, rightBranch} where
  path := by
    rintro l (rfl | rfl)
    · exact forkedBranch_chain (by decide)
    · exact forkedBranch_chain (by decide)
  schedule := by
    rintro l (rfl | rfl)
    · decide
    · decide
  honest := by
    have hranges : ∀ b ∈ leftBranch ++ rightBranch, ∀ c ∈ leftBranch ++ rightBranch,
        1 < b.blockNum → 1 < c.blockNum → b.header.producer = c.header.producer →
        b.header.toBlockHeader ≠ c.header.toBlockHeader →
          b.blockNum + c.header.confirmed.toNat < c.blockNum ∨
            c.blockNum + b.header.confirmed.toNat < b.blockNum := by
      decide +kernel
    rintro b ⟨l, hl, hb, hb1⟩ c ⟨l', hl', hc, hc1⟩ hp hne k ⟨hbk, hck⟩
    have := hranges b (mem_branches hl hb) c (mem_branches hl' hc) hb1 hc1 hp hne
    unfold Confirms at hbk hck
    omega

theorem forked_collisionFree :
    CollisionFree ({leftBranch, rightBranch} : Set (List (BlockHeaderState Nat Nat))) := by
  have h : ∀ b ∈ leftBranch ++ rightBranch, ∀ c ∈ leftBranch ++ rightBranch, b.id = c.id →
      b.header.toBlockHeader = c.header.toBlockHeader := by
    decide +kernel
  exact fun l hl l' hl' b hb c hc => h b (mem_branches hl hb) c (mem_branches hl' hc)

/-- A branch built by producers 3 and 1 alone. -/
def shortBranch : List (BlockHeaderState Nat Nat) :=
  toyChain [1, 2, 3] [toyHeader 1 1 2 3 0 0 none, toyHeader 2 2 3 1 1 0 none]

theorem minority_proposes_none_short :
    shortBranch.length = 3 ∧ ∀ t ∈ shortBranch, t.dposProposedIrreversibleBlocknum ≤ 1 := by
  have hone : ∀ b ∈ shortBranch, ∀ c ∈ shortBranch, b.header.producer = c.header.producer →
      1 < b.blockNum → 1 < c.blockNum → b.header.toBlockHeader = c.header.toBlockHeader := by
    decide +kernel
  have hpath : HeaderChain toyEnv (toyGenesis [1, 2, 3]) shortBranch :=
    toyChain_headerChain (by decide)
  refine ⟨rfl, minority_proposes_none (T := {shortBranch}) ⟨fun l hl => hl ▸ hpath, ?_, ?_⟩
    (Shape.genesis toyEnv (toyGenesis [1, 2, 3])) (by decide) rfl {1, 3} (by decide) (by decide)⟩
  · rintro l rfl
    decide
  · rintro b ⟨_, rfl, hb, hb1⟩ c ⟨_, rfl, hc, hc1⟩ hp hne
    exact absurd (hone b hb c hc hp hb1 hc1) hne

/-- Both branches propose block 2, and it is the same block. -/
theorem proposed_agree_forked :
    leftBranch ≠ rightBranch ∧ ∃ x ∈ leftBranch, ∃ y ∈ rightBranch, x.blockNum = 2 ∧
      y.blockNum = 2 ∧ x.id = y.id ∧ x.header.toBlockHeader = y.header.toBlockHeader := by
  obtain ⟨t1, ht1, hp1⟩ : ∃ t ∈ leftBranch, t.dposProposedIrreversibleBlocknum = 2 := by decide
  obtain ⟨t2, ht2, hp2⟩ : ∃ t ∈ rightBranch, t.dposProposedIrreversibleBlocknum = 2 := by decide
  exact ⟨by decide, proposed_agree (start : HeaderChain toyEnv (toyGenesis [1, 2, 3]) _)
    (by decide) forked_honest forked_collisionFree (Or.inl rfl) (Or.inr rfl) (by decide)
    ht1 ht2 hp1 hp2⟩

end Forceio.Chain
