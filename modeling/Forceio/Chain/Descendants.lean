import Forceio.Chain.ForkLinkage

/-!
# Branches, subtrees and descendants

What `fetch_branch_from`, `remove` and `set_bft_irreversible` of `fork_database.cpp` do to an index as a
tree: a block's ancestors are those its chain of `previous` ids goes through.

* `remove` needs nothing but unique ids, not even that the ids form no cycle.
* For `fetch_branch_from` a parent has a number even if it is not in the index.
* `set_bft_irreversible` stops at blocks that are already as high. It misses no descendant because a
  block starts with the number of its parent, and numbers are only raised with all that is above.

Results:
* `remove_subtree`, `fetchBranchFrom_branches`.
* `Inherits.mem_bftRaised`: what `set_bft_irreversible` does where no block is behind its parent, and
  `bftRun_raised`: in every database built from one block.
-/

namespace Forceio.Chain

open Forceio.Lib Forceio.Lib.Forest ForkDatabase ForkIndex BlockState List

variable {Key Sig β : Type} {env : ChainEnv Key Sig} {idx idx' : ForkIndex Key Sig}
  {a b c n p : BlockState Key Sig}

/-! ## Removing a subtree -/

/-- The loop of `remove` has come to its end after as many rounds as there are blocks. -/
theorem removeLoop_add (k : Nat) : ∀ (fuel : Nat) (queue : List Sha256) (db : ForkDatabase Key Sig),
    Queue db.index.links queue → db.index.links.length ≤ fuel →
      db.removeLoop (fuel + k) queue = db.removeLoop fuel queue
  | 0, [], db, _, _ => by cases k <;> rfl
  | 0, i :: _, db, h, hfuel => by
    obtain ⟨x, hx, -⟩ := h.mem i mem_cons_self
    exact absurd (length_pos_of_mem hx) (by omega)
  | fuel + 1, [], db, _, _ => by rw [Nat.add_right_comm]; rfl
  | fuel + 1, i :: queue, db, h, hfuel => by
    have hlinks : (db.erase i).index.links = db.index.links.filter fun x => x.id ≠ i :=
      links_filter fun j => decide (j ≠ i)
    have hlt := h.length_lt
    rw [Nat.add_right_comm, removeLoop, removeLoop]
    refine removeLoop_add k fuel _ _ ?_ ?_
    · rw [children_eq, hlinks]
      exact h.step
    · rw [hlinks]
      omega

theorem stateOf_remove (i : Sha256) (db : ForkDatabase Key Sig) (x : β) :
    (Exec.stateOf (remove i (db, x))).1.index = db.index.removed i := by
  have hidx : (db.removeLoop (db.index.entries.length + 1) [i]).index = db.index.removed i :=
    removeLoop_index _ _ db
  rw [remove_eq, ← hidx]
  cases hhead : (db.removeLoop (db.index.entries.length + 1) [i]).index.byLibBlockNum.head? with
  | some b => rw [refreshHead_of_head hhead]; rfl
  | none =>
    unfold refreshHead
    rw [get_bind]
    simp only [hhead]
    rfl

/-- **`remove` removes a subtree only**: its loop ends, it takes out the block and its descendants, and
if a block is left the head is one that comes first in `by_lib_block_num`. -/
theorem remove_subtree (db : ForkDatabase Key Sig) (x : β) (hb : b ∈ db.index.entries) :
    (∀ k, db.removeLoop (db.index.entries.length + 1 + k) [b.id] =
      db.removeLoop (db.index.entries.length + 1) [b.id]) ∧
    (∀ c, c ∈ (Exec.stateOf (remove b.id (db, x))).1.index.entries ↔
      c ∈ db.index.entries ∧ ¬ Anc db.index.links c.id b.id) ∧
    ∀ c ∈ (Exec.stateOf (remove b.id (db, x))).1.index.entries,
      ∃ t h, remove b.id (db, x) = .ok () t ∧ t.1.headPtr = .entry h.id ∧ h ∈ t.1.index.entries ∧
        ∀ c ∈ t.1.index.entries, h.libKey ≤ c.libKey := by
  have hlen : db.index.links.length = db.index.entries.length := length_map _
  refine ⟨fun k => removeLoop_add k _ _ db ?_ (by omega), fun c => ?_, fun c hc => ?_⟩
  · exact Queue.single (map_id_links ▸ db.index.nodup) (link_mem hb)
  · rw [stateOf_remove]
    exact mem_removed hb
  · rw [stateOf_remove] at hc
    obtain ⟨h, hh⟩ := exists_best hc
    refine ⟨_, h, remove_of_head hh, rfl, mem_of_head hh, fun c hc => ?_⟩
    exact OrderedIndex.le_of_head? (db.index.removed b.id).sortedLib hh c (mem_byLib.mpr hc)

/-- The block 2 in slot 3 on the genesis block of the toy chain. -/
def toyOther : BlockState Nat Nat := toyNext (toyRoot [1]) (toyHeader 1 1 3 1 0 0 none)

/-- Two blocks 2 whose parent was pruned, and a block 3 on the second. -/
def toyForked : ForkDatabase Nat Nat := (TendOp.after toyEnv (toyFork 3) toyTended).1

theorem remove_subtree_fork :
    ((Exec.stateOf (remove toyOther.id (toyForked, ()))).1.index.entries.map fun b => b.id) =
        [toyId 2 2] ∧
      ¬ Anc toyForked.index.links (toySecond.mark true).id toyOther.id :=
  ⟨by decide, (((remove_subtree toyForked () (by decide)).2.1 (toySecond.mark true)).mp
    (by decide)).2⟩

/-! ## Branches -/

/-- **The branches of two blocks.** Where every block has a number one above its parent's, and both
blocks go down to the same id `j`, in the index or not: `fetch_branch_from` returns, from each block
its way from parent to parent, until the last two have one predecessor. The branches share a block
iff one of the two is an ancestor of the other, and then their last. -/
theorem fetchBranchFrom_branches (num : Sha256 → Nat)
    (hnum : ∀ c ∈ idx.entries, c.blockNum = num c.id ∧ c.blockNum = num c.header.previous + 1)
    (ha : a ∈ idx.entries) (hb : b ∈ idx.entries) {S T : List (BlockState Key Sig)} {j : Sha256}
    (hS : Branch idx a.header.previous S j) (hT : Branch idx b.header.previous T j) :
    ∃ P Q g, fetchBranchFrom idx a.id b.id = .ok (P, Q) ∧ Branch idx a.id P g ∧ Branch idx b.id Q g ∧
      P ≠ [] ∧ Q ≠ [] ∧ (∀ c ∈ P, c ∈ Q → P.getLast? = some c ∧ Q.getLast? = some c) ∧
      ((∃ c ∈ P, c ∈ Q) ↔ Anc idx.links a.id b.id ∨ Anc idx.links b.id a.id) := by
  have hf : IsForest idx.links := by
    refine ⟨map_id_links ▸ idx.nodup, fun x hx y hy hprev => ?_⟩
    obtain ⟨c, hc, rfl⟩ := mem_links.mp hx
    obtain ⟨d, hd, rfl⟩ := mem_links.mp hy
    have hprev : c.header.previous = d.id := hprev
    show c.blockNum = d.blockNum + 1
    rw [(hnum c hc).2, (hnum d hd).1, hprev]
  have hlen : ∀ {i S}, Branch idx i S j → num i = num j + S.length := by
    clear hS hT
    intro i S h
    induction h with
    | nil _ => rfl
    | cons hc _ ih => rw [← (hnum _ hc).1, (hnum _ hc).2, ih, length_cons, add_assoc]
  have hl : Level idx j (num j) := fun c hc S h => (hnum c hc).1.trans (hlen h)
  obtain ⟨P, Q, g, R, hfetch, -, hrest⟩ := fetchBranchFrom_eq hf hl ha hb hS hT
  exact ⟨P, Q, g, hfetch, hrest⟩

/-- The block 3 on it. -/
def toyTop : BlockState Nat Nat := toyNext toyOther (toyHeader 2 3 4 1 0 0 none)

theorem fetchBranchFrom_branches_fork :
    fetchBranchFrom toyForked.index (toySecond.mark true).id toyTop.id =
        .ok ([toySecond.mark true], [toyTop, toyOther]) ∧
      ∃ P Q g, fetchBranchFrom toyForked.index (toySecond.mark true).id toyTop.id = .ok (P, Q) ∧
        Branch toyForked.index (toySecond.mark true).id P g ∧ Branch toyForked.index toyTop.id Q g := by
  have hS : Branch toyForked.index (toySecond.mark true).header.previous [] (toyId 1 1) :=
    Branch.nil _
  have hT : Branch toyForked.index toyTop.header.previous [toyOther] (toyId 1 1) :=
    Branch.cons (b := toyOther) (by decide) (Branch.nil _)
  obtain ⟨P, Q, g, hok, hP, hQ, -⟩ := fetchBranchFrom_branches (fun i => (numFromId i).toNat)
    (by decide) (by decide) (by decide) hS hT
  exact ⟨rfl, P, Q, g, hok, hP, hQ⟩

/-! ## BFT irreversible numbers -/

/-- The state of a block whose header state `generate_next` made from its parent's. Other parts of the
header, and the id, are filled in later. -/
structure GeneratedFrom [Inhabited Sig] (env : ChainEnv Key Sig) (p n : BlockState Key Sig) : Prop where
  generated : ∃ slot hs, slot ≠ 0 ∧ p.toBlockHeaderState.generateNext env slot = .ok hs ∧
    n.header.previous = hs.header.previous ∧ n.header.timestamp = hs.header.timestamp ∧
    n.blockNum = hs.blockNum ∧ n.bftIrreversibleBlocknum = hs.bftIrreversibleBlocknum
  id : n.id = n.header.toBlockHeader.id env
  block : ∀ h, n.block = some h → h = n.header

theorem GeneratedFrom.sound [Inhabited Sig] (h : GeneratedFrom env p n)
    (hp : Sound env p.toBlockData) : Sound env n.toBlockData ∧ n.header.previous = p.id ∧
      n.blockNum = p.blockNum + 1 ∧ n.bftIrreversibleBlocknum = p.bftIrreversibleBlocknum := by
  obtain ⟨slot, hs, hslot, hgen, hprev, htime, hnum, hbft⟩ := h.generated
  obtain ⟨hlt, pk, -, rfl⟩ := (BlockHeaderState.generateNext_eq_ok_iff hslot).mp hgen
  have hprev : n.header.previous = p.id := hprev
  have htime : n.header.timestamp = slot := htime
  have hlt := UInt32.lt_iff_toNat_lt.mp hlt
  have hle := hp.slot
  have hmax := slot.toNat_lt
  have hnum : n.blockNum = p.blockNum + 1 := by
    rw [hnum]
    exact Nat.mod_eq_of_lt (by omega)
  refine ⟨⟨h.id, ?_, ?_, h.block⟩, hprev, hnum, hbft⟩
  · show (numFromId n.header.previous).toNat + 1 = n.blockNum
    rw [hprev, hp.numFromId, hnum]
  · show n.blockNum ≤ n.header.timestamp.toNat
    rw [htime]
    omega

/-- A fork database built from one block by adding blocks, by raising BFT numbers, by removing blocks
with their descendants, and by pruning, after which no block above the lowest number has lost its
parent. -/
inductive BftRun [Inhabited Sig] (env : ChainEnv Key Sig) : ForkIndex Key Sig → Prop where
  | set {n : BlockState Key Sig} {idx : ForkIndex Key Sig} : Sound env n.toBlockData →
      ForkIndex.empty.insert n = some idx → BftRun env idx
  | add {p n : BlockState Key Sig} {idx idx' : ForkIndex Key Sig} : BftRun env idx →
      p ∈ idx.entries → GeneratedFrom env p n → idx.insert n = some idx' → BftRun env idx'
  | remove {b : BlockState Key Sig} {idx : ForkIndex Key Sig} : BftRun env idx →
      b ∈ idx.entries → BftRun env (idx.removed b.id)
  | prune {idx idx' : ForkIndex Key Sig} : BftRun env idx → (∀ b ∈ idx'.entries, b ∈ idx.entries) →
      idx'.Linked → BftRun env idx'
  | setBftIrreversible {b : BlockState Key Sig} {idx : ForkIndex Key Sig} : BftRun env idx →
      b ∈ idx.entries → BftRun env (bftRaised idx b)

/-- No block is behind its parent, up to its own number. -/
structure Inherits (env : ChainEnv Key Sig) (idx : ForkIndex Key Sig) : Prop where
  sound : ∀ b ∈ idx.entries, Sound env b.toBlockData
  linked : idx.Linked
  inherits : ∀ c ∈ idx.entries, ∀ p ∈ idx.entries, p.id = c.header.previous →
    min p.bftIrreversibleBlocknum c.blockNum ≤ c.bftIrreversibleBlocknum

theorem Inherits.subset (h : Inherits env idx) (hsub : ∀ b ∈ idx'.entries, b ∈ idx.entries)
    (hlinked : idx'.Linked) : Inherits env idx' :=
  ⟨fun b hb => h.sound b (hsub b hb), hlinked,
    fun c hc p hp => h.inherits c (hsub c hc) p (hsub p hp)⟩

theorem Inherits.insert [Inhabited Sig] (h : Inherits env idx) (hp : p ∈ idx.entries)
    (hn : GeneratedFrom env p n) (hins : idx.insert n = some idx') : Inherits env idx' := by
  obtain ⟨hsound, hprev, hnum, hbft⟩ := hn.sound (h.sound p hp)
  have hfresh := (insert_eq_some hins).1
  have hchild := h.linked.childless h.sound hsound hfresh ⟨p, hp, hprev.symm⟩
  refine ⟨(forall_mem_insert hins).mpr ⟨h.sound, hsound⟩,
    h.linked.insert ⟨p, hp, hprev.symm, by omega⟩ hins,
    (forall_mem_insert hins).mpr ⟨fun c hc => ?_, ?_⟩⟩ <;> rw [forall_mem_insert hins]
  · exact ⟨h.inherits c hc, fun hid => absurd hid.symm (hchild c hc)⟩
  · refine ⟨fun q hq hid => ?_, fun hid => absurd (hid.trans hprev).symm (hfresh p hp)⟩
    rw [hbft, eq_of_id hq hp (hid.trans hprev)]
    exact min_le_left _ _

theorem Reaches.anc {k : Sha256} (hb : b ∈ idx.entries) (h : Reaches idx b.blockNum b.id k) :
    Anc idx.links k b.id := by
  induction h with
  | self => exact Anc.refl (link_mem hb)
  | child hc _ _ ih => exact Anc.step (link_mem hc) ih

/-- A descendant with a lower number is reached: so are all blocks below it. -/
theorem Inherits.reaches (h : Inherits env idx) (hb : b ∈ idx.entries) {k : Sha256}
    (hanc : Anc idx.links k b.id) : ∀ c ∈ idx.entries, c.id = k →
      c.bftIrreversibleBlocknum < b.blockNum → Reaches idx b.blockNum b.id k := by
  have hf := isForest_of_sound h.sound
  generalize hj : b.id = j at hanc
  induction hanc with
  | refl _ => exact fun _ _ _ _ => Reaches.self
  | @step x j hx hrest ih =>
    intro c hc hid hlt
    obtain ⟨d, hd, rfl⟩ := mem_links.mp hx
    obtain rfl := eq_of_id hc hd hid
    obtain ⟨p, hp, hpid⟩ := exists_of_anc_left hrest
    subst hj
    have hbelow : b.blockNum < c.blockNum := hrest.num_lt hf (link_mem hc) (link_mem hb)
    have hle := h.inherits c hc p hp hpid
    exact Reaches.child hc hlt (ih rfl p hp hpid (by omega))

/-- **What `set_bft_irreversible` does**: the block gets its own number, a descendant the larger of
this number and its own, and the others keep theirs. -/
theorem Inherits.mem_bftRaised (h : Inherits env idx) (hb : b ∈ idx.entries) (hc : c ∈ idx.entries) :
    (Anc idx.links c.id b.id → c.raised (if c.id = b.id then b.blockNum else
      max c.bftIrreversibleBlocknum b.blockNum) ∈ (bftRaised idx b).entries) ∧
    (¬ Anc idx.links c.id b.id → c ∈ (bftRaised idx b).entries) := by
  refine ⟨fun hanc => (Chain.mem_bftRaised hb).mpr ⟨c, hc, ?_⟩, fun hanc =>
    (Chain.mem_bftRaised hb).mpr ⟨c, hc, Or.inr ⟨fun hr => hanc (hr.anc hb), rfl⟩⟩⟩
  by_cases hid : c.id = b.id
  · rw [if_pos hid]
    exact Or.inl ⟨hid ▸ Reaches.self, rfl⟩
  · rw [if_neg hid]
    by_cases hlt : c.bftIrreversibleBlocknum < b.blockNum
    · rw [max_eq_right hlt.le]
      exact Or.inl ⟨h.reaches hb hanc c hc rfl hlt, rfl⟩
    · rw [max_eq_left (not_lt.mp hlt)]
      exact Or.inr ⟨fun hr => (hr.bft_lt hc).elim hid hlt, rfl⟩

theorem Inherits.bftRaised (h : Inherits env idx) (hb : b ∈ idx.entries) :
    Inherits env (bftRaised idx b) := by
  refine ⟨sound_bftRaised h.sound hb, linked_iff.mpr (links_bftRaised hb ▸ linked_iff.mp h.linked),
    fun c' hc' p' hp' hid => ?_⟩
  obtain ⟨c, hc, hcases⟩ := (Chain.mem_bftRaised hb).mp hc'
  obtain ⟨p, hp, ⟨hpr, rfl⟩ | ⟨hpr, rfl⟩⟩ := (Chain.mem_bftRaised hb).mp hp' <;>
    obtain ⟨hcr, rfl⟩ | ⟨hcr, rfl⟩ := hcases
  · exact min_le_left _ _
  · -- a block above a raised one that is not raised was not lower
    refine (min_le_left _ _).trans (not_lt.mp fun hlt => hcr ?_)
    exact Reaches.child hc hlt (hid ▸ hpr)
  · have hid : p'.id = c.header.previous := hid
    generalize hk : c.id = k at hcr
    cases hcr with
    | self => exact (min_le_right _ _).trans (eq_of_id hc hb hk ▸ le_refl _)
    | child hd _ hrest =>
      obtain rfl := eq_of_id hc hd hk
      exact absurd (hid ▸ hrest) hpr
  · exact h.inherits c' hc p' hp hid

theorem BftRun.inherits [Inhabited Sig] (h : BftRun env idx) : Inherits env idx := by
  induction h with
  | @set n idx hn hins =>
    have hone : ∀ {P : BlockState Key Sig → Prop}, P n → ∀ b ∈ idx.entries, P b := fun h =>
      (forall_mem_insert hins).mpr ⟨fun _ hb => absurd hb not_mem_nil, h⟩
    exact ⟨hone hn, hone fun hlow => absurd (hone (P := fun a => n.blockNum ≤ a.blockNum) le_rfl) hlow,
      hone (hone fun _ => min_le_left _ _)⟩
  | add _ hp hn hins ih => exact ih.insert hp hn hins
  | remove _ hb ih => exact ih.subset (fun c hc => ((mem_removed hb).mp hc).1) (ih.linked.removed hb)
  | prune _ hsub hlinked ih => exact ih.subset hsub hlinked
  | setBftIrreversible _ hb ih => exact ih.bftRaised hb

theorem BftRun.pruneOldest [Inhabited Sig] {s : TendState Key Sig}
    (h : BftRun env s.1.index) (htree : LinkedTree env s) (hptr : s.1.headPtr = s.1.index.firstPtr)
    (hspare : ∀ best ∈ s.1.index.entries, ∀ oldest, s.1.index.byBlockNum.head? = some oldest →
      oldest.blockNum < best.dposIrreversibleBlocknum → s.1.index.Spared oldest) :
    ∃ t, ForkDatabase.pruneOldest signalled s = .ok () t ∧ BftRun env t.1.index := by
  obtain ⟨t, hrun, ht, hsub⟩ := htree.pruneOldest hptr hspare
  exact ⟨t, hrun, h.prune hsub ht.linked⟩

/-- **BFT irreversibility reaches every descendant**, and its loop ends. -/
theorem bftRun_raised [Inhabited Sig] (h : BftRun env idx) (hb : b ∈ idx.entries)
    (ptr : HeadPtr Key Sig) (x : β) :
    ∃ index, setBftIrreversible b (⟨idx, ptr⟩, x) = .ok () (⟨index, ptr⟩, x) ∧
      (∀ k, updateLoop b.blockNum (idx.entries.length + 1 + k) [b.id] (idx.raise b.id b.blockNum) =
        index) ∧ index.links = idx.links ∧
      ∀ c ∈ idx.entries,
        (Anc idx.links c.id b.id → c.raised (if c.id = b.id then b.blockNum else
          max c.bftIrreversibleBlocknum b.blockNum) ∈ index.entries) ∧
        (¬ Anc idx.links c.id b.id → c ∈ index.entries) := by
  have hlen : (idx.raise b.id b.blockNum).entries.length = idx.entries.length := length_map _
  refine ⟨bftRaised idx b, rfl, fun k => ?_, links_bftRaised hb, fun c hc =>
    h.inherits.mem_bftRaised hb hc⟩
  rw [← hlen]
  exact (updateLoop_spec (mem_raise hb) (le_refl b.blockNum) (Nat.le_succ _)).2 k

/-- The genesis block and the block 2 on it. -/
def toyPair : ForkIndex Nat Nat :=
  ((ForkIndex.empty.insert (toyRoot [1])).bind fun idx => idx.insert toySecond).getD ForkIndex.empty

theorem bftRun_raised_pair :
    ∃ index, setBftIrreversible (toyRoot [1]) (⟨toyPair, .null⟩, ()) = .ok () (⟨index, .null⟩, ()) ∧
      toySecond.bftIrreversibleBlocknum = 0 ∧ toySecond.raised 1 ∈ index.entries := by
  have hroot : Sound toyEnv (toyRoot [1]).toBlockData :=
    ⟨by decide, by decide, by decide, fun h hh => (Option.some.inj hh).symm⟩
  have hgen : GeneratedFrom toyEnv (toyRoot [1]) toySecond :=
    ⟨⟨2, _, by decide, rfl, rfl, rfl, rfl, rfl⟩, by decide, fun h hh => (Option.some.inj hh).symm⟩
  have hrun : BftRun toyEnv toyPair := .add (.set hroot rfl) mem_cons_self hgen rfl
  obtain ⟨index, hset, -, -, hall⟩ := bftRun_raised hrun (b := toyRoot [1]) (by decide) .null ()
  refine ⟨index, hset, rfl, (hall toySecond (by decide)).1 ?_⟩
  exact Anc.step (x := toySecond.link) (link_mem (by decide))
    (Anc.refl (x := (toyRoot [1]).link) (link_mem (by decide)))

end Forceio.Chain
