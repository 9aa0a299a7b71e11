import Forceio.Chain.PushBlock

/-!
# Pruning: the lowest blocks become irreversible

`add` prunes the lowest number once the head's irreversible number is past it: the first block of
`by_block_num` is signalled and erased, and the other blocks of its number are removed with all that
is built on them. Blocks of the current chain come first at their number, so the block that becomes
irreversible is the head's ancestor, and what is left is what was built on it.

* `LogFits`: a block is the one the block log expects next, or the one it ends with.
* `Trunk idx oldest`: the index is linked down to its lowest number, and `oldest` is its first block.
* `Ripe U idx oldest h c`: the controller's head and the best block are both built on `oldest`.

Results:
* `pruneLevel_spec`: the loop over the other blocks of the lowest number, whose iterator is never
  left on an erased block because a block of the current chain follows.
* `Trunk.prune`, `prune_spec`: what `prune` leaves.
-/

namespace Forceio.Chain

open Forceio.Lib Forceio.Lib.Forest ForkDatabase ForkIndex OrderedIndex BlockState
open List hiding filter_filter mem_filter

variable {Key Sig : Type} {env : ChainEnv Key Sig} {U : Sha256 → Prop} {o : ApplyOracle}
  {idx idx' : ForkIndex Key Sig} {n c b oldest : BlockState Key Sig} {blog : BlockLog Key Sig}
  {s t : Node Key Sig}

/-! ## The block log -/

/-- Where a block stands to the block log: the head of a snapshot before its first block, its first
block, its last block, or the one after that. -/
inductive LogFits (env : ChainEnv Key Sig) (blog : BlockLog Key Sig) (b : BlockData Key Sig) :
    Prop where
  | beforeFirst : blog.head = none → b.block = none → b.blockNum + 1 = blog.firstBlockNum →
      LogFits env blog b
  | isFirst : blog.head = none → b.block.isSome → b.blockNum = blog.firstBlockNum →
      LogFits env blog b
  | isLast (lh : SignedBlockHeader Key Sig) : blog.head = some lh →
      lh.toBlockHeader.id env = b.id → LogFits env blog b
  | isNext (lh : SignedBlockHeader Key Sig) : blog.head = some lh →
      lh.toBlockHeader.id env = b.header.previous → b.block.isSome → LogFits env blog b

variable {i : Sha256}

theorem blockNum_of_id {h : SignedBlockHeader Key Sig}
    (hid : h.toBlockHeader.id env = i) : h.toBlockHeader.blockNum.toNat = (numFromId i).toNat := by
  rw [← hid, numFromId_id]

/-- **A block that fits is logged**, and the blocks built on it fit the log it leaves. -/
theorem logIrreversible_spec (hsound : Sound env b.toBlockData)
    (hfit : LogFits env t.2.blog b.toBlockData) :
    ∃ blog', Controller.logIrreversible env b t = .ok () (t.1, { t.2 with blog := blog' }) ∧
      ∀ d, Sound env d → d.header.previous = b.id → d.block.isSome → LogFits env blog' d := by
  unfold Controller.logIrreversible
  rw [Controller.get_bind]
  cases hfit with
  | beforeFirst hhead hblock hnum =>
    refine ⟨t.2.blog, ?_, fun d hd hprev hsome => LogFits.isFirst hhead hsome ?_⟩
    · have hlt : b.blockNum < 2 ^ 32 :=
        lt_of_le_of_lt hsound.slot b.header.timestamp.toNat_lt
      simp only [hhead, hblock]
      refine assert_eq_ok.mpr ⟨?_, rfl⟩
      unfold subU32
      omega
    · rw [← hd.num, hprev, hsound.numFromId]
      exact hnum
  | isFirst hhead hblock hnum =>
    obtain ⟨h, hh⟩ := Option.isSome_iff_exists.mp hblock
    obtain rfl := hsound.block h hh
    refine ⟨{ t.2.blog with head := some b.header }, ?_, fun d hd hprev hsome =>
      LogFits.isNext b.header rfl (by rw [hprev, hsound.id]) hsome⟩
    simp only [hhead, hh]
    rw [assert_bind_of hnum]
    rfl
  | isLast lh hhead hid =>
    refine ⟨t.2.blog, ?_, fun d hd hprev hsome =>
      LogFits.isNext lh hhead (hid.trans hprev.symm) hsome⟩
    have hnum := (blockNum_of_id hid).trans hsound.numFromId
    simp only [hhead]
    rw [if_neg (by omega)]
    rfl
  | isNext lh hhead hid hblock =>
    obtain ⟨h, hh⟩ := Option.isSome_iff_exists.mp hblock
    obtain rfl := hsound.block h hh
    have hnum := (blockNum_of_id hid).trans (Nat.eq_sub_of_add_eq hsound.num)
    have hpos := hsound.num
    refine ⟨{ t.2.blog with head := some b.header }, ?_, fun d hd hprev hsome =>
      LogFits.isNext b.header rfl (by rw [hprev, hsound.id]) hsome⟩
    simp only [hhead, hh]
    rw [if_pos (by omega), assert_bind_of (by omega), assert_bind_of hid.symm]
    rfl

/-! ## The loop over the lowest number -/

theorem nodup_byNum (idx : ForkIndex Key Sig) : idx.byBlockNum.Nodup :=
  idx.permNum.nodup_iff.mpr idx.nodup.of_map

section Loop

variable {β : Type}

/-- **The last loop of `prune`** over the blocks `L` of the lowest number. The block `a` after them
is not built on any of them, so that the iterator stays valid to the end. -/
theorem pruneLevel_spec {num : Nat} {a : BlockState Key Sig} {R : List (BlockState Key Sig)}
    (ha : a.blockNum ≠ num) :
    ∀ (L : List (BlockState Key Sig)) (fuel : Nat) (t : ForkDatabase Key Sig × β),
      IsForest t.1.index.links → t.1.index.byBlockNum = L ++ a :: R →
      (∀ b ∈ L, b.blockNum = num) → (∀ b ∈ L, ¬ Anc t.1.index.links a.id b.id) →
      L.length < fuel →
      ∃ p ptr, pruneLevel num fuel (L ++ a :: R).head? t = .ok () (⟨t.1.index.filter p, ptr⟩, t.2) ∧
        (t.1.headPtr = t.1.index.firstPtr → ptr = (t.1.index.filter p).firstPtr) ∧
        ∀ x ∈ t.1.index.entries, p x = true ↔ ∀ b ∈ L, ¬ Anc t.1.index.links x.id b.id
  | _, 0, _, _, _, _, _, hfuel => absurd hfuel (Nat.not_lt_zero _)
  | [], fuel + 1, t, _, _, _, _, _ => by
    refine ⟨fun _ => true, t.1.headPtr, ?_, ?_, fun x _ => by simp⟩ <;>
      rw [filter_true fun _ _ => rfl]
    · unfold pruneLevel
      simp only [nil_append, List.head?_cons]
      rw [if_neg ha]
      rfl
    · exact id
  | b :: L, fuel + 1, t, hf, hlist, hnum, hspare, hfuel => by
    have hsub : ∀ x ∈ b :: L ++ a :: R, x ∈ t.1.index.entries := fun x hx =>
      mem_byNum.mp (hlist ▸ hx)
    have hb : b ∈ t.1.index.entries := hsub b mem_cons_self
    obtain ⟨hnot, -⟩ := nodup_cons.mp (hlist ▸ nodup_byNum t.1.index)
    -- the others of `L` are at the same number as `b`, so not built on it
    have hkeep : ∀ x ∈ L, ¬ Anc t.1.index.links x.id b.id := by
      intro x hx hanc
      have hmem := hsub x (mem_cons_of_mem _ (mem_append_left _ hx))
      have heq := hanc.eq_of_num hf (link_mem hmem) (link_mem hb) (by
        show x.blockNum ≤ b.blockNum
        rw [hnum x (mem_cons_of_mem _ hx), hnum b mem_cons_self])
      rw [eq_of_id hmem hb (congrArg Link.id heq)] at hx
      exact hnot (mem_append_left _ hx)
    obtain ⟨q, hq, hqiff⟩ := removed_eq_filter hb
    have hlist' : (t.1.index.filter q).byBlockNum = L ++ a :: R.filter q := by
      show t.1.index.byBlockNum.filter q = _
      rw [hlist, cons_append, filter_cons_of_neg, filter_append,
        filter_cons_of_pos ((hqiff a).mpr (hspare b mem_cons_self)),
        filter_eq_self.mpr fun x hx => (hqiff x).mpr (hkeep x hx)]
      exact fun h => (hqiff b).mp h (Anc.refl (link_mem hb))
    obtain ⟨y, hy⟩ : ∃ y, (L ++ a :: R.filter q).head? = some y := by
      cases L <;> exact ⟨_, rfl⟩
    have hymem : y ∈ (t.1.index.filter q).entries :=
      mem_byNum.mp (hlist' ▸ mem_of_mem_head? hy)
    have hrem : remove b.id t = .ok () (⟨t.1.index.filter q, (t.1.index.filter q).firstPtr⟩, t.2) :=
      hq ▸ remove_of_mem (hq ▸ hymem)
    obtain ⟨p, ptr, hrun, hptr, hp⟩ := pruneLevel_spec ha L fuel
      (⟨t.1.index.filter q, (t.1.index.filter q).firstPtr⟩, t.2) (isForest_filter hf q) hlist'
      (fun x hx => hnum x (mem_cons_of_mem _ hx))
      (fun x hx h => hspare x (mem_cons_of_mem _ hx) (anc_of_filter h))
      (Nat.lt_of_succ_lt_succ hfuel)
    refine ⟨fun x => q x && p x, ptr, ?_, fun _ => ?_, fun x hx => ?_⟩
    · have hnext : (t.1.index.byBlockNum.dropWhile fun c => c.id ≠ b.id).tail.head? = some y := by
        rw [hlist, ← hy]
        cases L <;> simp
      have hfind : ((t.1.index.filter q).find y.id).isSome := by
        rw [find_of_mem hymem]
        rfl
      unfold pruneLevel
      simp only [cons_append, List.head?_cons]
      rw [if_pos (hnum b mem_cons_self), get_bind, Exec.bind_of_ok hrem, get_bind, hnext]
      simp only
      rw [if_pos hfind, ← hy, hrun, filter_filter]
    · rw [← filter_filter]
      exact hptr rfl
    · rw [Bool.and_eq_true, hqiff, forall_mem_cons]
      refine and_congr_right fun hnot => ?_
      have hiff : ∀ j, Anc (t.1.index.filter q).links x.id j ↔ Anc t.1.index.links x.id j :=
        fun j => hq ▸ anc_removed_iff hb hnot
      rw [hp x (mem_filter.mpr ⟨hx, (hqiff x).mpr hnot⟩)]
      exact forall₂_congr fun y _ => not_congr (hiff y.id)

end Loop

/-! ## The lowest number -/

/-- An index that is linked down to its lowest number, with the first block of that number. -/
structure Trunk (idx : ForkIndex Key Sig) (oldest : BlockState Key Sig) : Prop where
  forest : IsForest idx.links
  lowest : idx.byBlockNum.head? = some oldest
  rooted : ∀ b ∈ idx.entries, oldest.blockNum < b.blockNum →
    ∃ p ∈ idx.entries, p.id = b.header.previous

theorem Trunk.mem (ht : Trunk idx oldest) : oldest ∈ idx.entries :=
  mem_byNum.mp (mem_of_mem_head? ht.lowest)

variable {x a : BlockState Key Sig} {L R : List (BlockState Key Sig)}

/-- Where every block above the number `m` has its predecessor, a block has an ancestor at `m`. -/
theorem exists_anc_lowest {m : Nat} (hf : IsForest idx.links)
    (hroot : ∀ b ∈ idx.entries, m < b.blockNum → ∃ p ∈ idx.entries, p.id = b.header.previous)
    (hc : c ∈ idx.entries) (hle : m ≤ c.blockNum) :
    ∃ a ∈ idx.entries, a.blockNum = m ∧ Anc idx.links c.id a.id := by
  have hlinks : ∀ y ∈ idx.links, m < y.num → ∃ z ∈ idx.links, z.id = y.prev := by
    intro y hy hlt
    obtain ⟨b, hb, rfl⟩ := mem_links.mp hy
    obtain ⟨p, hp, hid⟩ := hroot b hb hlt
    exact ⟨p.link, link_mem hp, hid⟩
  obtain ⟨y, hy, hnum, hanc⟩ := exists_lowest hf hlinks _ c.link (link_mem hc)
    (Nat.add_sub_cancel' hle).symm
  obtain ⟨a, ha, rfl⟩ := mem_links.mp hy
  exact ⟨a, ha, hnum, hanc⟩

/-- The first block of the lowest number is the ancestor at that number of `c`, if the ancestors of
`c` are marked and no other block is. A block of `U` has no mark, and is alone at its number. -/
theorem Trunk.anc_oldest (ht : Trunk idx oldest) (hc : c ∈ idx.entries)
    (hlone : ∀ a ∈ idx.entries, U a.id → ∀ b ∈ idx.entries, b.blockNum = a.blockNum → b.id = a.id)
    (hmarks : ∀ j, idx.Marked j ↔ Anc idx.links c.id j ∧ ¬ U j) : Anc idx.links c.id oldest.id := by
  obtain ⟨a, ha, hnum, hanc⟩ := exists_anc_lowest ht.forest ht.rooted hc (oldest_le ht.lowest c hc)
  by_cases hU : U a.id
  · rw [hlone a ha hU oldest ht.mem hnum.symm]
    exact hanc
  · have hmark := (marked_iff ha).mp ((hmarks a.id).mpr ⟨hanc, hU⟩)
    have hkey := le_of_head? idx.sortedNum ht.lowest a (mem_byNum.mpr ha)
    exact ((hmarks _).mp ((marked_iff ht.mem).mpr ((numKey_le hkey).2 hnum.symm hmark))).1

theorem Trunk.exists_rest (ht : Trunk idx oldest) : ∃ rest, idx.byBlockNum = oldest :: rest := by
  have hlowest := ht.lowest
  cases hlist : idx.byBlockNum with
  | nil =>
    rw [hlist] at hlowest
    simp at hlowest
  | cons b rest =>
    rw [hlist] at hlowest
    exact ⟨rest, by rw [Option.some.inj hlowest]⟩

/-- **The order by number at its start**: `oldest`, the others `L` of its number, then the first
block `a` above it, which is marked if a block of the next number is. -/
theorem Trunk.byNum (ht : Trunk idx oldest) (hx : x ∈ idx.entries)
    (hlt : oldest.blockNum < x.blockNum) :
    ∃ L a R, idx.byBlockNum = oldest :: (L ++ a :: R) ∧
      (∀ b ∈ L, b.blockNum = oldest.blockNum) ∧ (∀ b ∈ a :: R, oldest.blockNum < b.blockNum) ∧
      ∀ b ∈ idx.entries, b.blockNum = oldest.blockNum + 1 → b.inCurrentChain = true →
        a.blockNum = oldest.blockNum + 1 ∧ a.inCurrentChain = true := by
  obtain ⟨rest, hrest⟩ := ht.exists_rest
  have hmem : ∀ b, b ∈ idx.entries ↔ b = oldest ∨ b ∈ rest := fun b => by
    rw [← mem_byNum, hrest, mem_cons]
  have habove : ∀ b ∈ idx.entries, oldest.blockNum < b.blockNum → b ∈ rest := fun b hb hb' =>
    ((hmem b).mp hb).resolve_left fun heq => absurd hb' (by rw [heq]; exact lt_irrefl _)
  rcases split_first (fun b => decide (oldest.blockNum < b.blockNum)) rest with
    hnone | ⟨L, a, R, hsplit, hL, ha⟩
  · exact absurd hlt (of_decide_eq_false (hnone x (habove x hx hlt)))
  have ha : oldest.blockNum < a.blockNum := of_decide_eq_true ha
  have hLnum : ∀ b ∈ L, b.blockNum = oldest.blockNum := fun b hb => by
    have hle := oldest_le ht.lowest b ((hmem b).mpr (Or.inr (by rw [hsplit]; simp [hb])))
    have hge := of_decide_eq_false (hL b hb)
    omega
  have hsorted := idx.sortedNum
  rw [hrest, hsplit] at hsorted
  have hafter := (pairwise_append.mp (pairwise_cons.mp hsorted).2).2.1
  have hale : ∀ b ∈ a :: R, a.numKey ≤ b.numKey := by
    intro b hb
    rcases mem_cons.mp hb with rfl | hb
    · exact le_rfl
    · exact (pairwise_cons.mp hafter).1 b hb
  refine ⟨L, a, R, by rw [hrest, hsplit], hLnum, fun b hb =>
    lt_of_lt_of_le ha (numKey_le (hale b hb)).1, fun b hb hbnum hmark => ?_⟩
  have hbR : b ∈ a :: R := by
    have hbrest := habove b hb (by omega)
    rw [hsplit] at hbrest
    refine (mem_append.mp hbrest).resolve_left fun h => ?_
    have := hLnum b h
    omega
  obtain ⟨hle, himp⟩ := numKey_le (hale b hbR)
  have hanum : a.blockNum = oldest.blockNum + 1 := by omega
  exact ⟨hanum, himp (hanum.trans hbnum.symm) hmark⟩

/-- Where the blocks of the next number that are marked are the ancestors of a block `c` above
`oldest`, the first block above the lowest number is built on `oldest`. -/
theorem Trunk.byNum_of_marks (ht : Trunk idx oldest) (hbelow : Anc idx.links c.id oldest.id)
    (habove : c.id ≠ oldest.id) (hmarks : ∀ b ∈ idx.entries, b.blockNum = oldest.blockNum + 1 →
      (b.inCurrentChain = true ↔ Anc idx.links c.id b.id)) :
    ∃ L a R, idx.byBlockNum = oldest :: (L ++ a :: R) ∧
      (∀ b ∈ L, b.blockNum = oldest.blockNum) ∧ (∀ b ∈ a :: R, oldest.blockNum < b.blockNum) ∧
      Anc idx.links a.id oldest.id := by
  -- the block above `oldest` on the current chain
  obtain ⟨_, hx, hprev, hanc⟩ := hbelow.exists_above habove
  obtain ⟨a1, ha1, rfl⟩ := mem_links.mp hx
  have hlevel : a1.blockNum = oldest.blockNum + 1 :=
    ht.forest.level _ hx _ (link_mem ht.mem) hprev
  obtain ⟨L, a, R, hlist, hL, hR, hnext⟩ := ht.byNum ha1 (by omega)
  obtain ⟨hanum, hamark⟩ := hnext a1 ha1 hlevel ((hmarks a1 ha1 hlevel).mpr hanc)
  have hamem : a ∈ idx.entries := mem_byNum.mp (by rw [hlist]; simp)
  have hac : Anc idx.links c.id a.id := (hmarks a hamem hanum).mp hamark
  refine ⟨L, a, R, hlist, hL, hR, ?_⟩
  rw [eq_of_anc ht.forest hamem ha1 hac hanc (hanum.trans hlevel.symm)]
  refine Anc.step hx ?_
  rw [hprev]
  exact Anc.refl (link_mem ht.mem)

theorem mem_erase : b ∈ (idx.erase i).entries ↔ b ∈ idx.entries ∧ b.id ≠ i := by
  unfold ForkIndex.erase
  rw [mem_filter, decide_eq_true_eq]

section

variable (hlist : idx.byBlockNum = oldest :: (L ++ a :: R))

include hlist

theorem mem_others (hb : b ∈ L) : b ∈ idx.entries ∧ b ≠ oldest := by
  refine ⟨mem_byNum.mp (by rw [hlist]; simp [hb]), fun heq => ?_⟩
  exact (nodup_cons.mp (hlist ▸ nodup_byNum idx)).1 (mem_append_left _ (heq ▸ hb))

/-- What is built on `oldest` is not built on another block of its number. -/
theorem Trunk.not_anc_other (ht : Trunk idx oldest) (hL : ∀ b ∈ L, b.blockNum = oldest.blockNum)
    (hanc : Anc idx.links i oldest.id) : ∀ b ∈ L, ¬ Anc idx.links i b.id := by
  intro b hb hib
  obtain ⟨hmem, hne⟩ := mem_others hlist hb
  exact hne (eq_of_anc ht.forest hmem ht.mem hib hanc (hL b hb))

/-- A block above `oldest` is not built on another block of its number iff it is built on it. -/
theorem Trunk.survives (ht : Trunk idx oldest) (hL : ∀ b ∈ L, b.blockNum = oldest.blockNum)
    (hR : ∀ b ∈ a :: R, oldest.blockNum < b.blockNum) (hx : x ∈ idx.entries) :
    (∀ b ∈ L, ¬ Anc (idx.erase oldest.id).links x.id b.id) ↔ Anc idx.links x.id oldest.id := by
  have hmem : ∀ b, b ∈ idx.entries ↔ b = oldest ∨ b ∈ L ∨ b ∈ a :: R := fun b => by
    rw [← mem_byNum, hlist, mem_cons, mem_append]
  constructor
  · intro hnone
    obtain ⟨b, hb, hbnum, hanc⟩ := exists_anc_lowest ht.forest ht.rooted hx
      (oldest_le ht.lowest x hx)
    rcases (hmem b).mp hb with rfl | hbL | hbR
    · exact hanc
    · refine absurd (hanc.of_between fun z hz _ hzb => ?_) (hnone b hbL)
      obtain ⟨d, hd, rfl⟩ := mem_links.mp hz
      refine link_mem (mem_erase.mpr ⟨hd, fun hid => (mem_others hlist hbL).2 ?_⟩)
      obtain rfl := eq_of_id hd ht.mem hid
      exact (eq_of_id hd hb (congrArg Link.id
        (hzb.eq_of_num ht.forest hz (link_mem hb) (le_of_eq hbnum.symm)))).symm
    · have := hR b hbR
      omega
  · intro hanc b hb hxb
    exact ht.not_anc_other hlist hL hanc b hb (anc_of_filter hxb)

end

theorem byNum_erase {rest : List (BlockState Key Sig)} (h : idx.byBlockNum = b :: rest) :
    (idx.erase b.id).byBlockNum = rest := by
  have hnodup : (idx.byBlockNum.map fun x => x.id).Nodup :=
    (idx.permNum.map _).nodup_iff.mpr idx.nodup
  rw [h, map_cons, nodup_cons] at hnodup
  show idx.byBlockNum.filter _ = rest
  rw [h, filter_cons_of_neg (by simp), filter_eq_self]
  exact fun x hx => decide_eq_true fun hid => hnodup.1 (mem_map.mpr ⟨x, hx, hid⟩)

theorem makeIrreversible_eq {β : Type} {irr : BlockState Key Sig → ForkM Key Sig β Unit}
    {t : ForkDatabase Key Sig × β} {x : β} (hmem : oldest ∈ t.1.index.entries)
    (hirr : irr oldest t = .ok () (t.1, x)) :
    makeIrreversible irr oldest t = .ok () (t.1.erase oldest.id, x) := by
  unfold makeIrreversible
  rw [get_bind, find_of_mem hmem]
  simp only
  rw [Exec.bind_of_ok hirr, get_bind]
  rfl

/-- **What `prune` does** when the signal for the lowest block returns and the first block above its
number is not built on another block of its number: `oldest` leaves the database, and so do the
blocks that are not built on it. -/
theorem Trunk.prune {β : Type} {irr : BlockState Key Sig → ForkM Key Sig β Unit}
    {t : ForkDatabase Key Sig × β} {x : β} (ht : Trunk t.1.index oldest)
    (hlist : t.1.index.byBlockNum = oldest :: (L ++ a :: R))
    (hL : ∀ b ∈ L, b.blockNum = oldest.blockNum) (hR : ∀ b ∈ a :: R, oldest.blockNum < b.blockNum)
    (hspare : ∀ b ∈ L, ¬ Anc t.1.index.links a.id b.id) (hirr : irr oldest t = .ok () (t.1, x)) :
    ∃ p ptr, ForkDatabase.prune irr oldest t = .ok () (⟨t.1.index.filter p, ptr⟩, x) ∧
      ((t.1.erase oldest.id).headPtr = (t.1.erase oldest.id).index.firstPtr →
        ptr = (t.1.index.filter p).firstPtr) ∧
      ∀ y ∈ t.1.index.entries, p y = true ↔
        y.id ≠ oldest.id ∧ Anc t.1.index.links y.id oldest.id := by
  -- the index without `oldest`, where the loop over the lowest number starts
  have hlist' : (t.1.erase oldest.id).index.byBlockNum = L ++ a :: R := byNum_erase hlist
  have hlen : L.length < (t.1.erase oldest.id).index.entries.length + 1 := by
    rw [← (t.1.erase oldest.id).index.permNum.length_eq, hlist', length_append]
    omega
  obtain ⟨p, ptr, hrun, hptr, hp⟩ := pruneLevel_spec (ne_of_gt (hR a mem_cons_self)) L _
    (t.1.erase oldest.id, x) (isForest_filter ht.forest _) hlist' hL
    (fun b hb h => hspare b hb (anc_of_filter h)) hlen
  refine ⟨fun x => decide (x.id ≠ oldest.id) && p x, ptr, ?_, fun h => ?_, fun y hy => ?_⟩
  · have hbelow : pruneBelow irr oldest.blockNum (t.1.index.entries.length + 1) t = .ok () t := by
      unfold pruneBelow
      rw [get_bind]
      simp only [ht.lowest]
      rw [if_neg (lt_irrefl _)]
      rfl
    have hnext : (t.1.erase oldest.id).index.byBlockNum.find?
        (fun b => decide (oldest.blockNum ≤ b.blockNum)) = (L ++ a :: R).head? := by
      rw [hlist', ← List.head?_filter, filter_eq_self.mpr fun b hb => ?_]
      refine decide_eq_true ?_
      rcases mem_append.mp hb with hb | hb
      · exact le_of_eq (hL b hb).symm
      · exact le_of_lt (hR b hb)
    unfold ForkDatabase.prune
    rw [get_bind, Exec.bind_of_ok hbelow]
    unfold pruneAt
    rw [Exec.bind_of_ok (makeIrreversible_eq ht.mem hirr), get_bind, hnext, hrun]
    unfold ForkDatabase.erase ForkIndex.erase
    rw [filter_filter]
  · rw [hptr h]
    unfold ForkDatabase.erase ForkIndex.erase
    rw [filter_filter]
  · rw [Bool.and_eq_true, decide_eq_true_eq]
    refine and_congr_right fun hne => ?_
    rw [hp y (mem_erase.mpr ⟨hy, hne⟩)]
    exact ht.survives hlist hL hR hy

section Pruned

variable {p : BlockState Key Sig → Bool}
  (hp : ∀ x ∈ idx.entries, p x = true ↔ x.id ≠ oldest.id ∧ Anc idx.links x.id oldest.id)

include hp

theorem mem_pruned : x ∈ (idx.filter p).entries ↔
    x ∈ idx.entries ∧ x.id ≠ oldest.id ∧ Anc idx.links x.id oldest.id := by
  rw [mem_filter]
  exact and_congr_right fun hx => hp x hx

theorem Trunk.num_pruned (ht : Trunk idx oldest) (hx : x ∈ (idx.filter p).entries) :
    oldest.blockNum < x.blockNum := by
  obtain ⟨hx, hne, hanc⟩ := (mem_pruned hp).mp hx
  refine lt_of_not_ge fun hle => hne ?_
  exact congrArg Link.id (hanc.eq_of_num ht.forest (link_mem hx) (link_mem ht.mem) hle)

/-- The predecessor of a block that is left is `oldest` or left too. -/
theorem Trunk.pred_pruned (ht : Trunk idx oldest) (hx : x ∈ (idx.filter p).entries) :
    x.header.previous = oldest.id ∨ ∃ y ∈ (idx.filter p).entries,
      y.id = x.header.previous ∧ x.blockNum = y.blockNum + 1 := by
  obtain ⟨hmem, hne, hanc⟩ := (mem_pruned hp).mp hx
  have habove := ((anc_block_iff ht.forest hmem).mp hanc).resolve_left (Ne.symm hne)
  obtain ⟨y, hy, hid, hnum, hyanc⟩ := exists_parent ht.forest hmem habove
  by_cases heq : y.id = oldest.id
  · exact Or.inl (hid ▸ heq)
  · exact Or.inr ⟨y, (mem_pruned hp).mpr ⟨hy, heq, hyanc⟩, hid, hnum⟩

end Pruned

/-! ## Pruning under the head of the controller -/

/-- An index whose lowest number can be pruned: `oldest` is its first block, the ancestor at that
number of the controller's head `c` and of the best block `h`, which are both above it. -/
structure Ripe (U : Sha256 → Prop) (idx : ForkIndex Key Sig) (oldest h c : BlockState Key Sig) :
    Prop where
  forest : IsForest idx.links
  lowest : idx.byBlockNum.head? = some oldest
  rooted : ∀ b ∈ idx.entries, oldest.blockNum < b.blockNum →
    ∃ p ∈ idx.entries, p.id = b.header.previous
  clear : ∀ b ∈ idx.entries, oldest.blockNum < b.blockNum → ¬ U b.id
  marks : ∀ j, idx.Marked j ↔ Anc idx.links c.id j ∧ ¬ U j
  below : Anc idx.links c.id oldest.id
  above : c.id ≠ oldest.id
  first : idx.byLibBlockNum.head? = some h
  belowFirst : Anc idx.links h.id oldest.id
  aboveFirst : h.id ≠ oldest.id

variable {h : BlockState Key Sig}

theorem Ripe.trunk (hr : Ripe U idx oldest h c) : Trunk idx oldest :=
  ⟨hr.forest, hr.lowest, hr.rooted⟩

theorem Ripe.mem (hr : Ripe U idx oldest h c) : oldest ∈ idx.entries := hr.trunk.mem

/-- The first block above the lowest number is the block of the current chain built on
`oldest`. -/
theorem Ripe.byNum (hr : Ripe U idx oldest h c) :
    ∃ L a R, idx.byBlockNum = oldest :: (L ++ a :: R) ∧
      (∀ b ∈ L, b.blockNum = oldest.blockNum) ∧ (∀ b ∈ a :: R, oldest.blockNum < b.blockNum) ∧
      Anc idx.links a.id oldest.id := by
  refine hr.trunk.byNum_of_marks hr.below hr.above fun b hb hnum => ?_
  rw [← marked_iff hb, hr.marks]
  exact and_iff_left (hr.clear b hb (by omega))

/-- **What `prune` does** when the signal for the lowest block of the current chain returns: that
block leaves the database, and so do the blocks that are not built on it. -/
theorem prune_spec {irr : BlockState Key Sig → ControllerM Key Sig Unit} {ctl : Controller Key Sig}
    (hr : Ripe U t.1.index oldest h c) (hptr : t.1.headPtr = .entry h.id)
    (hirr : irr oldest t = .ok () (t.1, ctl)) :
    ∃ p, prune irr oldest t = .ok () (⟨t.1.index.filter p, .entry h.id⟩, ctl) ∧
      ∀ x ∈ t.1.index.entries, p x = true ↔
        x.id ≠ oldest.id ∧ Anc t.1.index.links x.id oldest.id := by
  obtain ⟨L, a, R, hlist, hL, hR, hbelow⟩ := hr.byNum
  obtain ⟨p, ptr, hrun, hfirst, hp⟩ := hr.trunk.prune hlist hL hR
    (hr.trunk.not_anc_other hlist hL hbelow) hirr
  have hhead : (t.1.index.filter p).byLibBlockNum.head? = some h :=
    head?_filter hr.first
      ((hp h (mem_of_head hr.first)).mpr ⟨hr.aboveFirst, hr.belowFirst⟩)
  have hstay : (t.1.erase oldest.id).headPtr = (t.1.erase oldest.id).index.firstPtr := by
    rw [firstPtr_of_head
      (head?_filter hr.first (decide_eq_true hr.aboveFirst))]
    unfold ForkDatabase.erase
    simp only [hptr, find_of_mem hr.mem]
    exact if_neg hr.aboveFirst
  rw [hfirst hstay, firstPtr_of_head hhead] at hrun
  exact ⟨p, hrun, hp⟩

end Forceio.Chain
