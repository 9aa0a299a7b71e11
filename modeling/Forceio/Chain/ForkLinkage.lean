import Mathlib.Data.List.Chain
import Forceio.Chain.ForkHead
import Forceio.Chain.Prune

/-!
# Linkage of the fork database and the order of its signals

A database is started by one `set` and then changed by `add`, `remove` and `mark_in_current_chain`.
Blocks leave it in two ways: `remove` takes a block with all that is built on it, and `add` prunes
the lowest number, which signals and erases its first block and removes the other blocks of that
number. Either way no block above the lowest number loses its predecessor, and the blocks of the
lowest number are always built on the block that was signalled last.

* `signalled` is the slot that writes down the blocks it is called with.
* The loop of `prune` over the lowest number holds an iterator to the next block while it removes one
  with its descendants. `PruneSafe` says when that block is not among them, and some block is left.

Results:
* `forkDatabase_linked`: the database stays linked in every run of operations that may be called.
* `prune_empties`: a run where the loop takes out every block.
-/

namespace Forceio.Chain

open Forceio.Lib Forceio.Lib.Forest ForkDatabase ForkIndex BlockState List

variable {Key Sig : Type} {env : ChainEnv Key Sig} {idx idx' : ForkIndex Key Sig}
  {n b c oldest : BlockState Key Sig}

/-! ## Linked databases -/

/-- A block of the lowest number. -/
def ForkIndex.IsLowest (idx : ForkIndex Key Sig) (b : BlockState Key Sig) : Prop :=
  ∀ a ∈ idx.entries, b.blockNum ≤ a.blockNum

/-- Every block above the lowest number has its predecessor in the index. -/
def ForkIndex.Linked (idx : ForkIndex Key Sig) : Prop :=
  ∀ b ∈ idx.entries, ¬ idx.IsLowest b → ∃ p ∈ idx.entries, p.id = b.header.previous

theorem ForkIndex.Linked.removed (h : idx.Linked) (hb : b ∈ idx.entries) :
    (idx.removed b.id).Linked := by
  intro x hx hlow
  obtain ⟨p, hp, hid⟩ := h x ((mem_removed hb).mp hx).1 fun hxlow => hlow fun a ha =>
    hxlow a ((mem_removed hb).mp ha).1
  exact ⟨p, mem_removed_of_pred hb hx hp hid, hid⟩

/-- Each block is the child of the one before it, one number above it. -/
def Succeeding (blocks : List (BlockState Key Sig)) : Prop :=
  blocks.IsChain fun a b => b.header.previous = a.id ∧ b.blockNum = a.blockNum + 1

/-- A slot of `irreversible` that writes down the blocks it is called with. -/
def signalled (b : BlockState Key Sig) : ForkM Key Sig (List (BlockState Key Sig)) Unit :=
  slots (fun b blocks => .ok () (blocks ++ [b])) b

/-- The fork database and the blocks that were signalled. -/
abbrev TendState (Key Sig : Type) := ForkDatabase Key Sig × List (BlockState Key Sig)

/-- A linked database whose lowest blocks are built on the block signalled last. -/
structure LinkedTree (env : ChainEnv Key Sig) (s : TendState Key Sig) : Prop where
  sound : ∀ b ∈ s.1.index.entries, Sound env b.toBlockData
  linked : s.1.index.Linked
  nonempty : ∃ b, b ∈ s.1.index.entries
  past : ∀ z ∈ s.2, Sound env z.toBlockData
  order : Succeeding s.2
  next : ∀ z ∈ s.2.getLast?, ∀ b ∈ s.1.index.entries, s.1.index.IsLowest b →
    b.header.previous = z.id

variable {s t : TendState Key Sig}

theorem isLowest_of_head (h : idx.byBlockNum.head? = some oldest) : idx.IsLowest oldest :=
  oldest_le h

theorem LinkedTree.forest (h : LinkedTree env s) : IsForest s.1.index.links := isForest_of_sound h.sound

theorem LinkedTree.trunk (h : LinkedTree env s) (ho : s.1.index.byBlockNum.head? = some oldest) :
    Trunk s.1.index oldest :=
  ⟨h.forest, ho, fun b hb hlt => h.linked b hb fun hlow =>
    absurd (hlow oldest (mem_byNum.mp (mem_of_mem_head? ho))) (not_le.mpr hlt)⟩

theorem LinkedTree.exists_oldest (h : LinkedTree env s) :
    ∃ oldest, s.1.index.byBlockNum.head? = some oldest := by
  obtain ⟨b, hb⟩ := h.nonempty
  exact ForkIndex.exists_oldest hb

/-- No block is built on one that is new and has its predecessor in the index. -/
theorem ForkIndex.Linked.childless (h : idx.Linked)
    (hsound : ∀ b ∈ idx.entries, Sound env b.toBlockData) (hn : Sound env n.toBlockData)
    (hfresh : ∀ b ∈ idx.entries, b.id ≠ n.id) (hparent : ∃ p ∈ idx.entries, p.id = n.header.previous) :
    ∀ b ∈ idx.entries, b.header.previous ≠ n.id := by
  intro b hb hprev
  by_cases hlow : idx.IsLowest b
  · -- the number in the id of `n` would be below the lowest
    obtain ⟨p, hp, hid⟩ := hparent
    have h1 := (hsound b hb).num
    have h2 := hn.num
    have h3 := hlow p hp
    rw [hprev, hn.numFromId] at h1
    rw [← hid, (hsound p hp).numFromId] at h2
    omega
  · obtain ⟨p, hp, hid⟩ := h b hb hlow
    exact hfresh p hp (hid.trans hprev)

/-! ## Adding a block -/

theorem Joins.parent_lt (hj : Joins env idx n) (hsound : ∀ b ∈ idx.entries, Sound env b.toBlockData) :
    ∃ p ∈ idx.entries, p.id = n.header.previous ∧ p.blockNum < n.blockNum := by
  obtain ⟨p, hp, hid, hnum⟩ := hj.exists_parent hsound
  exact ⟨p, hp, hid, by omega⟩

section Insert

variable (hparent : ∃ p ∈ idx.entries, p.id = n.header.previous ∧ p.blockNum < n.blockNum)
  (hins : idx.insert n = some idx')
include hparent hins

theorem not_isLowest_insert : ¬ idx'.IsLowest n := by
  obtain ⟨p, hp, -, hlt⟩ := hparent
  exact fun hlow => absurd (hlow p ((mem_insert hins).mpr (Or.inl hp))) (not_le.mpr hlt)

/-- The blocks of the lowest number are the same after the insertion. -/
theorem isLowest_insert : idx'.IsLowest b ↔ idx.IsLowest b := by
  obtain ⟨p, hp, -, hlt⟩ := hparent
  unfold ForkIndex.IsLowest
  rw [forall_mem_insert hins]
  exact and_iff_left_of_imp fun h => (h p hp).trans hlt.le

theorem ForkIndex.Linked.insert (h : idx.Linked) : idx'.Linked := by
  intro b hb hlow
  obtain ⟨p, hp, hid⟩ : ∃ p ∈ idx.entries, p.id = b.header.previous := by
    rcases (mem_insert hins).mp hb with hb | rfl
    · exact h b hb fun hlow' => hlow ((isLowest_insert hparent hins).mpr hlow')
    · obtain ⟨p, hp, hid, -⟩ := hparent
      exact ⟨p, hp, hid⟩
  exact ⟨p, (mem_insert hins).mpr (Or.inl hp), hid⟩

end Insert

theorem LinkedTree.inserted (h : LinkedTree env s) (hj : Joins env s.1.index n)
    (hins : s.1.index.insert n = some idx') (ptr : HeadPtr Key Sig) :
    LinkedTree env (⟨idx', ptr⟩, s.2) := by
  have hparent := hj.parent_lt h.sound
  refine ⟨(forall_mem_insert hins).mpr ⟨h.sound, hj.sound⟩, h.linked.insert hparent hins,
    ⟨n, (mem_insert hins).mpr (Or.inr rfl)⟩, h.past, h.order,
    fun z hz => (forall_mem_insert hins).mpr ⟨fun b hb hb' => ?_, fun hlow => ?_⟩⟩
  · exact h.next z hz b hb ((isLowest_insert hparent hins).mp hb')
  · exact absurd hlow (not_isLowest_insert hparent hins)

/-! ## Pruning the lowest number -/

/-- The signal for a block of the lowest number continues the order. -/
theorem LinkedTree.signal (h : LinkedTree env s) (hmem : oldest ∈ s.1.index.entries)
    (hlow : s.1.index.IsLowest oldest) : Succeeding (s.2 ++ [oldest]) := by
  refine isChain_append.mpr ⟨h.order, isChain_singleton _, fun z hz b hb => ?_⟩
  obtain rfl := Option.some.inj hb
  have hprev := h.next z hz oldest hmem hlow
  refine ⟨hprev, ?_⟩
  rw [← (h.sound oldest hmem).num, hprev, (h.past z (mem_of_getLast? hz)).numFromId]

/-- **What pruning keeps**: the blocks built on the first one are linked down to its children. -/
theorem LinkedTree.pruned (h : LinkedTree env s) (ho : s.1.index.byBlockNum.head? = some oldest)
    {p : BlockState Key Sig → Bool} (hp : ∀ x ∈ s.1.index.entries, p x = true ↔
      x.id ≠ oldest.id ∧ Anc s.1.index.links x.id oldest.id)
    (hsome : ∃ x ∈ s.1.index.entries, x.id ≠ oldest.id ∧ Anc s.1.index.links x.id oldest.id)
    (ptr : HeadPtr Key Sig) : LinkedTree env (⟨s.1.index.filter p, ptr⟩, s.2 ++ [oldest]) := by
  have ht := h.trunk ho
  have hchild : ∀ x ∈ (s.1.index.filter p).entries, x.header.previous = oldest.id →
      (s.1.index.filter p).IsLowest x := by
    intro x hx hprev y hy
    have h1 : x.blockNum = oldest.blockNum + 1 :=
      h.forest.level _ (link_mem ((mem_pruned hp).mp hx).1) _ (link_mem ht.mem) hprev
    have h2 := ht.num_pruned hp hy
    omega
  refine ⟨fun b hb => h.sound b ((mem_pruned hp).mp hb).1, fun b hb hlow => ?_, ?_, fun z hz => ?_,
    h.signal ht.mem (isLowest_of_head ho), fun z hz b hb hlow => ?_⟩
  · rcases ht.pred_pruned hp hb with hprev | ⟨y, hy, hid, -⟩
    · exact absurd (hchild b hb hprev) hlow
    · exact ⟨y, hy, hid⟩
  · obtain ⟨x, hx, hx'⟩ := hsome
    exact ⟨x, (mem_pruned hp).mpr ⟨hx, hx'⟩⟩
  · rcases mem_append.mp hz with hz | hz
    · exact h.past z hz
    · rw [mem_singleton.mp hz]
      exact h.sound oldest ht.mem
  · rw [getLast?_concat] at hz
    obtain rfl := Option.some.inj hz
    refine (ht.pred_pruned hp hb).resolve_right ?_
    rintro ⟨y, hy, -, hnum⟩
    have := hlow y hy
    omega

/-- When `add` of the state `n` may prune. Either no block is irreversible above the lowest number,
and nothing is pruned; or one block has the lowest number; or the marked blocks are the ancestors of
a block `c` above it. -/
def ForkIndex.PruneSafe (idx : ForkIndex Key Sig) (n : BlockState Key Sig) : Prop :=
  (∀ a ∈ idx.entries, idx.IsLowest a → n.dposIrreversibleBlocknum ≤ a.blockNum ∧
      ∀ b ∈ idx.entries, b.dposIrreversibleBlocknum ≤ a.blockNum) ∨
    (∀ a ∈ idx.entries, ∀ b ∈ idx.entries, idx.IsLowest a → idx.IsLowest b → a = b) ∨
    ∃ c ∈ idx.entries, ¬ idx.IsLowest c ∧ ∀ j, idx.Marked j ↔ Anc idx.links c.id j

/-- The order by number where the loop over the lowest number is safe: `oldest`, the others of its
number, and a block above it that is not built on any of the others. -/
def ForkIndex.Spared (idx : ForkIndex Key Sig) (oldest : BlockState Key Sig) : Prop :=
  ∃ L a R, idx.byBlockNum = oldest :: (L ++ a :: R) ∧
    (∀ b ∈ L, b.blockNum = oldest.blockNum) ∧ (∀ b ∈ a :: R, oldest.blockNum < b.blockNum) ∧
    ∀ b ∈ L, ¬ Anc idx.links a.id b.id

/-- With one block of the lowest number the loop has nothing to remove. -/
theorem Trunk.spared_of_unique (ht : Trunk idx oldest) (hn : n ∈ idx.entries)
    (hlt : oldest.blockNum < n.blockNum)
    (hone : ∀ b ∈ idx.entries, b.blockNum = oldest.blockNum → b = oldest) : idx.Spared oldest := by
  obtain ⟨L, a, R, hlist, hL, hR, -⟩ := ht.byNum hn hlt
  refine ⟨L, a, R, hlist, hL, hR, fun b hb => ?_⟩
  obtain ⟨hmem, hne⟩ := mem_others hlist hb
  exact absurd (hone b hmem (hL b hb)) hne

/-- **When pruning is safe**: after the insertion, if the best block is irreversible above the lowest
number, the loop over that number keeps its iterator. -/
theorem ForkIndex.PruneSafe.spared (hsafe : idx.PruneSafe n) (hj : Joins env idx n)
    (hsound : ∀ b ∈ idx.entries, Sound env b.toBlockData) (hins : idx.insert n = some idx')
    (ht : Trunk idx' oldest) {h : BlockState Key Sig} (hh : h ∈ idx'.entries)
    (hlt : oldest.blockNum < h.dposIrreversibleBlocknum) : idx'.Spared oldest := by
  have hparent := hj.parent_lt hsound
  have hn : n ∈ idx'.entries := (mem_insert hins).mpr (Or.inr rfl)
  have hnlow := not_isLowest_insert hparent hins
  have hold : ∀ b ∈ idx'.entries, idx'.IsLowest b → b ∈ idx.entries ∧ idx.IsLowest b := by
    intro b hb hb'
    rcases (mem_insert hins).mp hb with hb | rfl
    · exact ⟨hb, (isLowest_insert hparent hins).mp hb'⟩
    · exact absurd hb' hnlow
  have hoLow := isLowest_of_head ht.lowest
  obtain ⟨homem, hoLow'⟩ := hold oldest ht.mem hoLow
  rcases hsafe with hirr | hone | ⟨c, hc, hcLow, hmarks⟩
  · obtain ⟨h1, h2⟩ := hirr oldest homem hoLow'
    rcases (mem_insert hins).mp hh with hh | rfl
    · exact absurd hlt (not_lt.mpr (h2 h hh))
    · exact absurd hlt (not_lt.mpr h1)
  · have hnlt : oldest.blockNum < n.blockNum := by
      refine lt_of_not_ge fun hge => hnlow fun a ha => le_trans hge (hoLow a ha)
    refine ht.spared_of_unique hn hnlt fun b hb hnum => ?_
    have hbLow : idx'.IsLowest b := fun a ha => hnum ▸ hoLow a ha
    obtain ⟨hbmem, hbLow'⟩ := hold b hb hbLow
    exact hone b hbmem oldest homem hbLow' hoLow'
  · have hc' : c ∈ idx'.entries := (mem_insert hins).mpr (Or.inl hc)
    have hmarks' : ∀ j, idx'.Marked j ↔ Anc idx'.links c.id j := fun j => by
      rw [hj.marked_iff hins, hmarks, hj.anc_iff hins (hj.fresh c hc)]
    have hbelow := ht.anc_oldest (U := fun _ => False) hc' (fun _ _ h => h.elim) fun j =>
      (hmarks' j).trans (and_iff_left not_false).symm
    have habove : c.id ≠ oldest.id := fun hid =>
      hcLow (eq_of_id hc homem hid ▸ hoLow')
    obtain ⟨L, a, R, hlist, hL, hR, hanc⟩ := ht.byNum_of_marks hbelow habove fun b hb _ => by
      rw [← Chain.marked_iff hb, hmarks']
    exact ⟨L, a, R, hlist, hL, hR, ht.not_anc_other hlist hL hanc⟩

/-- **The end of `add`.** -/
theorem LinkedTree.pruneOldest (h : LinkedTree env s) (hptr : s.1.headPtr = s.1.index.firstPtr)
    (hspare : ∀ best ∈ s.1.index.entries, ∀ oldest, s.1.index.byBlockNum.head? = some oldest →
      oldest.blockNum < best.dposIrreversibleBlocknum → s.1.index.Spared oldest) :
    ∃ t, pruneOldest signalled s = .ok () t ∧ LinkedTree env t ∧
      ∀ b ∈ t.1.index.entries, b ∈ s.1.index.entries := by
  obtain ⟨oldest, ho⟩ := h.exists_oldest
  obtain ⟨b, hb⟩ := h.nonempty
  obtain ⟨best, hbest⟩ := exists_best hb
  have hmem := mem_of_head hbest
  have hhead := head_of_mem (hptr.trans (firstPtr_of_head hbest)) hmem
  unfold ForkDatabase.pruneOldest
  rw [get_bind]
  simp only [hhead, ho]
  split
  · rename_i hlt
    obtain ⟨L, a, R, hlist, hL, hR, hnot⟩ := hspare best hmem oldest ho hlt
    have ht := h.trunk ho
    have hsignal : signalled oldest s = .ok () (s.1, s.2 ++ [oldest]) := rfl
    have hamem : a ∈ s.1.index.entries := mem_byNum.mp (by rw [hlist]; simp)
    obtain ⟨p, ptr, hrun, -, hp⟩ := ht.prune hlist hL hR hnot hsignal
    refine ⟨_, hrun, h.pruned ho hp ⟨a, hamem, ?_, ?_⟩ ptr, fun x hx => ((mem_pruned hp).mp hx).1⟩
    · intro hid
      have hlt := hR a mem_cons_self
      rw [eq_of_id hamem ht.mem hid] at hlt
      exact lt_irrefl _ hlt
    · exact (ht.survives hlist hL hR hamem).mp fun b hb hanc => hnot b hb (anc_of_filter hanc)
  · exact ⟨s, rfl, h, fun _ hb => hb⟩

/-! ## Removing, and changing flags -/

/-- Removing a block above the lowest number, with all that is built on it. -/
theorem LinkedTree.removed (h : LinkedTree env s) (hb : b ∈ s.1.index.entries)
    (hlow : ¬ s.1.index.IsLowest b) (ptr : HeadPtr Key Sig) :
    LinkedTree env (⟨s.1.index.removed b.id, ptr⟩, s.2) ∧
      ∃ x, x ∈ (s.1.index.removed b.id).entries := by
  have hiff : ∀ x, x ∈ (s.1.index.removed b.id).entries ↔
      x ∈ s.1.index.entries ∧ ¬ Anc s.1.index.links x.id b.id := fun x => mem_removed hb
  -- a block of the lowest number is not built on `b`
  obtain ⟨oldest, ho⟩ := h.exists_oldest
  have homem := (h.trunk ho).mem
  have hoLow := isLowest_of_head ho
  have hkept : oldest ∈ (s.1.index.removed b.id).entries := by
    refine (hiff oldest).mpr ⟨homem, fun hanc => hlow fun a ha => ?_⟩
    have hle : b.blockNum ≤ oldest.blockNum :=
      hanc.num_le h.forest _ (link_mem homem) rfl _ (link_mem hb) rfl
    exact le_trans hle (hoLow a ha)
  have hlowest : ∀ x, (s.1.index.removed b.id).IsLowest x → s.1.index.IsLowest x :=
    fun x hx a ha => le_trans (hx oldest hkept) (hoLow a ha)
  exact ⟨⟨fun x hx => h.sound x ((hiff x).mp hx).1, h.linked.removed hb, ⟨oldest, hkept⟩, h.past,
    h.order, fun z hz x hx hx' => h.next z hz x ((hiff x).mp hx).1 (hlowest x hx')⟩,
    oldest, hkept⟩

theorem linked_iff : idx.Linked ↔ ∀ x ∈ idx.links, ¬ (∀ y ∈ idx.links, x.num ≤ y.num) →
    ∃ y ∈ idx.links, y.id = x.prev := by
  simp [ForkIndex.Linked, ForkIndex.IsLowest, ForkIndex.links, link]

theorem LinkedTree.relabel (h : LinkedTree env s) (hlinks : idx'.links = s.1.index.links)
    (hsound : ∀ x ∈ idx'.entries, Sound env x.toBlockData) (ptr : HeadPtr Key Sig) :
    LinkedTree env (⟨idx', ptr⟩, s.2) := by
  have hmem : ∀ {x}, x ∈ idx'.entries → ∃ a ∈ s.1.index.entries, a.link = x.link := fun hx =>
    mem_links.mp (hlinks ▸ link_mem hx)
  have hold : ∀ {a}, a ∈ s.1.index.entries → ∃ x ∈ idx'.entries, x.link = a.link := fun ha =>
    mem_links.mp (hlinks ▸ link_mem ha)
  refine ⟨hsound, linked_iff.mpr (hlinks ▸ linked_iff.mp h.linked), ?_, h.past, h.order,
    fun z hz x hx hlow => ?_⟩
  · obtain ⟨a, ha⟩ := h.nonempty
    obtain ⟨x, hx, -⟩ := hold ha
    exact ⟨x, hx⟩
  · obtain ⟨a, ha, hxa⟩ := hmem hx
    refine (congrArg Link.prev hxa).symm.trans (h.next z hz a ha fun d hd => ?_)
    obtain ⟨y, hy, hyd⟩ := hold hd
    exact (congrArg Link.num hxa).le.trans ((hlow y hy).trans (congrArg Link.num hyd).le)

theorem LinkedTree.modify (h : LinkedTree env s) {i : Sha256}
    {g : BlockState Key Sig → BlockState Key Sig}
    {hg : ∀ b, (g b).id = b.id} (hlink : ∀ b, (g b).link = b.link)
    (hsound : ∀ b, Sound env b.toBlockData → Sound env (g b).toBlockData) :
    LinkedTree env (s.1.modify i g hg, s.2) := by
  refine h.relabel (links_modify hlink) (fun x hx => ?_) s.1.headPtr
  obtain ⟨a, ha, rfl⟩ := mem_modify.mp hx
  split
  · exact hsound a (h.sound a ha)
  · exact h.sound a ha

theorem sound_bftRaised (hsound : ∀ b ∈ idx.entries, Sound env b.toBlockData) (hb : b ∈ idx.entries) :
    ∀ x ∈ (bftRaised idx b).entries, Sound env x.toBlockData := by
  intro x hx
  obtain ⟨a, ha, ⟨-, rfl⟩ | ⟨-, rfl⟩⟩ := (mem_bftRaised hb).mp hx
  · have hs := hsound a ha
    exact ⟨hs.1, hs.2, hs.3, hs.4⟩
  · exact hsound x ha

/-! ## The operations -/

/-- An operation throws and changes nothing, or returns and leaves a linked database. The undefined
behaviour of `prune` would come after the block was inserted, so it is neither. -/
def KeepsLinkedTree (env : ChainEnv Key Sig) (s : TendState Key Sig)
    (r : EStateM.Result FcException (TendState Key Sig) Unit) : Prop :=
  (∃ e, r = .error e s) ∨ ∃ t, r = .ok () t ∧ LinkedTree env t

theorem KeepsLinkedTree.assert_bind {cond : Prop} [Decidable cond] {type : ExceptionType}
    {what : String} {f : Unit → ForkM Key Sig (List (BlockState Key Sig)) Unit}
    (h : cond → KeepsLinkedTree env s (f () s)) :
    KeepsLinkedTree env s ((assert cond type what >>= f) s) := by
  by_cases hcond : cond
  · rw [assert_bind_of hcond]
    exact h hcond
  · exact Or.inl ⟨_, Exec.bind_of_error (assert_of_not hcond)⟩

/-- A state as the constructor of `block_state` leaves it: sound, with its block, not marked. -/
structure Fresh (env : ChainEnv Key Sig) (n : BlockState Key Sig) : Prop where
  sound : Sound env n.toBlockData
  block : n.block.isSome
  unmarked : n.inCurrentChain = false

section

variable (h : LinkedTree env s)

include h

/-- The insertion and the pruning of `add`, once the predecessor is known. -/
theorem LinkedTree.insertBest (hn : Fresh env n)
    (hparent : ∃ p ∈ s.1.index.entries, p.id = n.header.previous) (hsafe : s.1.index.PruneSafe n) :
    KeepsLinkedTree env s ((insertBest n >>= fun _ => ForkDatabase.pruneOldest signalled) s) := by
  cases hins : s.1.index.insert n with
  | none =>
    refine Or.inl ⟨⟨.forkDatabaseException, "duplicate block added?"⟩, Exec.bind_of_error ?_⟩
    unfold ForkDatabase.insertBest
    rw [get_bind, hins]
    rfl
  | some idx =>
    obtain ⟨block, hblock⟩ := Option.isSome_iff_exists.mp hn.block
    have hfresh := (insert_eq_some hins).1
    have hj : Joins env s.1.index n := ⟨hn.sound, by rw [hblock, hn.sound.block block hblock],
      hn.unmarked, hparent, hfresh, h.linked.childless h.sound hn.sound hfresh hparent⟩
    have h' := h.inserted hj hins idx.firstPtr
    obtain ⟨t, hrun, ht, -⟩ := h'.pruneOldest rfl fun best hbest oldest ho hlt =>
      hsafe.spared hj h.sound hins (h'.trunk ho) hbest hlt
    refine Or.inr ⟨t, ?_, ht⟩
    rw [Exec.bind_of_ok (insertBest_eq_ok_iff (u := ()) |>.mpr ⟨idx, hins, rfl⟩), hrun]

theorem LinkedTree.add (hn : Fresh env n) {skip : Bool}
    (hparent : skip = true → ∃ p ∈ s.1.index.entries, p.id = n.header.previous)
    (hsafe : s.1.index.PruneSafe n) : KeepsLinkedTree env s (add signalled n skip s) := by
  refine KeepsLinkedTree.assert_bind fun _ => ?_
  cases skip with
  | true => exact h.insertBest hn (hparent rfl) hsafe
  | false =>
    obtain ⟨block, hblock⟩ := Option.isSome_iff_exists.mp hn.block
    have hvalidate : ∀ f : Unit → ForkM Key Sig (List (BlockState Key Sig)) Unit,
        (validatePrevious n >>= f) s = (assert (s.1.index.find n.header.previous).isSome
          .unlinkableBlockException "unlinkable block" >>= f) s := by
      intro f
      unfold validatePrevious
      rw [hblock, hn.sound.block block hblock]
      rfl
    show KeepsLinkedTree env s ((validatePrevious n >>= fun _ => _) s)
    rw [hvalidate]
    refine KeepsLinkedTree.assert_bind fun hfind => ?_
    obtain ⟨p, hp⟩ := Option.isSome_iff_exists.mp hfind
    exact h.insertBest hn ⟨p, find_eq_some_iff.mp hp⟩ hsafe

theorem LinkedTree.addBlock [Inhabited Sig] [DecidableEq Key] {block : SignedBlockHeader Key Sig}
    {skip : Bool} (hsafe : ∀ prior n, s.1.index.find block.previous = some prior →
      newState env prior block skip = .ok n → s.1.index.PruneSafe n) :
    KeepsLinkedTree env s (addBlock env signalled block skip s) := by
  refine KeepsLinkedTree.assert_bind fun _ => KeepsLinkedTree.assert_bind fun _ => ?_
  cases hprior : s.1.index.find block.previous with
  | none => exact Or.inl ⟨_, rfl⟩
  | some prior =>
    cases hstate : newState env prior block skip with
    | error e => exact Or.inl ⟨e, Exec.bind_of_error (Exec.lift_of_error hstate)⟩
    | ok n =>
      obtain ⟨hp, -⟩ := find_eq_some_iff.mp hprior
      obtain ⟨hsound, -, hblock, hprev, -⟩ := (h.sound prior hp).newState hstate
      have hn : Fresh env n := ⟨hsound, by rw [hblock]; rfl, (newState_eq_ok hstate).2.2.2⟩
      show KeepsLinkedTree env s ((Exec.lift (newState env prior block skip) >>= fun n =>
        ForkDatabase.add signalled n true) s)
      rw [Exec.bind_of_ok (Exec.lift_of_ok hstate)]
      exact h.add hn (fun _ => ⟨prior, hp, hprev.symm⟩) (hsafe prior n hprior hstate)

theorem LinkedTree.addConfirmation [DecidableEq Key] [Inhabited Key] (conf : HeaderConfirmation Sig) :
    KeepsLinkedTree env s (addConfirmation env conf s) := by
  unfold ForkDatabase.addConfirmation
  rw [get_bind]
  cases hfind : s.1.index.find conf.blockId with
  | none => exact Or.inl ⟨_, rfl⟩
  | some b =>
    obtain ⟨hb, hid⟩ := find_eq_some_iff.mp hfind
    cases hadd : b.toBlockHeaderState.addConfirmation env conf with
    | error e => exact Or.inl ⟨e, Exec.bind_of_error (Exec.lift_of_error hadd)⟩
    | ok hs =>
      have h' : LinkedTree env (s.1.modify conf.blockId (confirmedBy hs.confirmations)
          (confirmedBy_id _), s.2) :=
        h.modify (fun _ => rfl) fun _ hb => ⟨hb.1, hb.2, hb.3, hb.4⟩
      have hmem : b.confirmedBy hs.confirmations ∈ (s.1.index.modify conf.blockId
          (confirmedBy hs.confirmations) (confirmedBy_id _)).entries :=
        mem_modify.mpr ⟨b, hb, (if_pos hid).symm⟩
      refine Or.inr ?_
      simp only
      rw [Exec.bind_of_ok (Exec.lift_of_ok hadd), put_bind]
      split
      · exact ⟨_, rfl, h'.relabel (links_bftRaised hmem) (sound_bftRaised h'.sound hmem) _⟩
      · exact ⟨_, rfl, h'⟩

theorem LinkedTree.markInCurrentChain (b : BlockState Key Sig) (flag : Bool) :
    KeepsLinkedTree env s (markInCurrentChain b flag s) := by
  unfold ForkDatabase.markInCurrentChain
  rw [get_bind]
  split
  · exact KeepsLinkedTree.assert_bind fun _ => Or.inr ⟨_, rfl, h.modify (fun _ => rfl) fun _ hb =>
      ⟨hb.1, hb.2, hb.3, hb.4⟩⟩
  · exact Or.inr ⟨s, rfl, h⟩

end

theorem LinkedTree.set (hn : Sound env n.toBlockData)
    (hok : set env n (empty, []) = .ok () t) : LinkedTree env t := by
  have hone : t.1.index.entries = [n] ∧ t.2 = [] := by
    unfold ForkDatabase.set at hok
    rw [get_bind, put_bind, assert_bind_ok, assert_bind_ok] at hok
    obtain ⟨-, -, hok⟩ := hok
    cases hok
    exact ⟨rfl, rfl⟩
  obtain ⟨hentries, hsig⟩ := hone
  have hmem : ∀ b, b ∈ t.1.index.entries ↔ b = n := fun b => by
    rw [hentries, mem_singleton]
  refine ⟨fun b hb => (hmem b).mp hb ▸ hn, fun b hb hlow => ?_, ⟨n, (hmem n).mpr rfl⟩, ?_, ?_, ?_⟩
  · refine absurd (fun a ha => ?_) hlow
    rw [(hmem a).mp ha, (hmem b).mp hb]
  · rw [hsig]
    exact fun z hz => absurd hz not_mem_nil
  · rw [hsig]
    exact isChain_nil
  · rw [hsig]
    exact fun z hz => absurd hz (by simp)

/-! ## Runs -/

section Runs

variable [Inhabited Sig] [DecidableEq Key] [Inhabited Key]

/-- The operations on a database that was started by `set`. -/
inductive TendOp (Key Sig : Type) where
  | add (n : BlockState Key Sig) (skipValidatePrevious : Bool)
  | addBlock (b : SignedBlockHeader Key Sig) (skipValidateSignee : Bool)
  | addConfirmation (c : HeaderConfirmation Sig)
  | remove (id : Sha256)
  | markInCurrentChain (h : BlockState Key Sig) (inCurrentChain : Bool)

/-- Call an operation. -/
def TendOp.run (env : ChainEnv Key Sig) :
    TendOp Key Sig → ForkM Key Sig (List (BlockState Key Sig)) Unit
  | .add n skip => ForkDatabase.add signalled n skip
  | .addBlock b skip => ForkDatabase.addBlock env signalled b skip
  | .addConfirmation c => ForkDatabase.addConfirmation env c
  | .remove id => ForkDatabase.remove id
  | .markInCurrentChain h flag => ForkDatabase.markInCurrentChain h flag

/-- When an operation may be called. A state is added as its constructor leaves it, and without the
check of its predecessor only where that is known; the pruning of `add` has to be safe; and a block
that is removed is there, above the lowest number. -/
def TendOp.May (env : ChainEnv Key Sig) (idx : ForkIndex Key Sig) : TendOp Key Sig → Prop
  | .add n skip => Fresh env n ∧
      (skip = true → ∃ p ∈ idx.entries, p.id = n.header.previous) ∧ idx.PruneSafe n
  | .addBlock b skip => ∀ prior n, idx.find b.previous = some prior →
      newState env prior b skip = .ok n → idx.PruneSafe n
  | .remove id => ∃ b ∈ idx.entries, b.id = id ∧ ¬ idx.IsLowest b
  | _ => True

theorem LinkedTree.step (h : LinkedTree env s) {op : TendOp Key Sig} (hmay : op.May env s.1.index) :
    KeepsLinkedTree env s (op.run env s) := by
  cases op with
  | add n skip => exact h.add hmay.1 hmay.2.1 hmay.2.2
  | addBlock b skip => exact h.addBlock hmay
  | addConfirmation c => exact h.addConfirmation c
  | remove id =>
    obtain ⟨b, hb, rfl, hlow⟩ := hmay
    obtain ⟨ht, x, hx⟩ := h.removed hb hlow (s.1.index.removed b.id).firstPtr
    exact .inr ⟨_, remove_of_mem hx, ht⟩
  | markInCurrentChain b flag => exact h.markInCurrentChain b flag

/-- The database and the blocks signalled so far, after operations that each may throw. -/
def TendOp.after (env : ChainEnv Key Sig) :
    List (TendOp Key Sig) → TendState Key Sig → TendState Key Sig
  | [], s => s
  | op :: ops, s => after env ops (Exec.stateOf (op.run env s))

/-- Each operation of a run may be called where it is. -/
def TendOp.MayAlong (env : ChainEnv Key Sig) : List (TendOp Key Sig) → TendState Key Sig → Prop
  | [], _ => True
  | op :: ops, s => op.May env s.1.index ∧ MayAlong env ops (Exec.stateOf (op.run env s))

theorem LinkedTree.after : ∀ (ops : List (TendOp Key Sig)) (s : TendState Key Sig), LinkedTree env s →
    TendOp.MayAlong env ops s → LinkedTree env (TendOp.after env ops s)
  | [], _, h, _ => h
  | op :: ops, s, h, hmay => by
    refine LinkedTree.after ops _ ?_ hmay.2
    rcases h.step hmay.1 with ⟨e, he⟩ | ⟨t, ht, htended⟩
    · rw [he]
      exact h
    · rw [ht]
      exact htended

/-- **Linkage and the order of the signals.** After one `set` and every run of operations that may be
called, every block above the lowest number has its predecessor in the index, the blocks signalled
have consecutive numbers and each is the child of the one before, and an operation that throws
changes nothing. -/
theorem forkDatabase_linked (env : ChainEnv Key Sig) (n : BlockState Key Sig)
    (s : TendState Key Sig) (ops : List (TendOp Key Sig)) (hn : Sound env n.toBlockData)
    (hset : set env n (empty, []) = .ok () s) (hmay : TendOp.MayAlong env ops s) :
    (TendOp.after env ops s).1.index.Linked ∧ Succeeding (TendOp.after env ops s).2 ∧
      ∀ (op : TendOp Key Sig) (e : FcException) (t : TendState Key Sig),
        op.May env (TendOp.after env ops s).1.index →
        op.run env (TendOp.after env ops s) = .error e t → t = TendOp.after env ops s := by
  have h := LinkedTree.after ops s (LinkedTree.set hn hset) hmay
  refine ⟨h.linked, h.order, fun op e t hop hthrow => ?_⟩
  rcases h.step hop with ⟨e', he⟩ | ⟨t', ht, -⟩
  · rw [he] at hthrow
    cases hthrow
    rfl
  · rw [ht] at hthrow
    simp at hthrow

end Runs

/-! ## Two runs -/

/-- The marked blocks are the ancestors of `c`, where `c` is marked, with a marked block its
predecessor, and each marked block is found below `c`. -/
theorem marked_iff_anc (fuel : Nat) (hc : c ∈ idx.entries) (hmark : c.inCurrentChain = true)
    (hclosed : ∀ b ∈ idx.entries, ∀ p ∈ idx.entries, b.inCurrentChain = true →
      p.id = b.header.previous → p.inCurrentChain = true)
    (hfound : ∀ b ∈ idx.entries, b.inCurrentChain = true → isAnc idx.links fuel c.id b.id = true)
    (j : Sha256) : idx.Marked j ↔ Anc idx.links c.id j := by
  have hdown : ∀ {i j : Sha256}, Anc idx.links i j → idx.Marked i → idx.Marked j := by
    intro i j hanc
    induction hanc with
    | refl _ => exact id
    | step hx hrest ih =>
      intro hmarked
      obtain ⟨b, hb, rfl⟩ := mem_links.mp hx
      obtain ⟨p, hp, hid⟩ := exists_of_anc_left hrest
      exact ih ⟨p, hp, hid, hclosed b hb p hp ((marked_iff hb).mp hmarked) hid⟩
  constructor
  · rintro ⟨b, hb, rfl, hb'⟩
    exact anc_of_isAnc (hfound b hb hb')
  · exact fun hanc => hdown hanc ((marked_iff hc).mpr hmark)

instance (idx : ForkIndex Key Sig) (b : BlockState Key Sig) : Decidable (idx.IsLowest b) :=
  inferInstanceAs (Decidable (∀ a ∈ idx.entries, b.blockNum ≤ a.blockNum))

/-- The state for a block of the toy chain. -/
def toyNext (prev : BlockState Nat Nat) (h : SignedBlockHeader Nat Nat) : BlockState Nat Nat :=
  (newState toyEnv prev h false).toOption.getD prev

/-- A database started with the genesis block of one producer. -/
def toyTended : ForkDatabase Nat Nat × List (BlockState Nat Nat) :=
  Exec.stateOf (set toyEnv (toyRoot [1]) (empty, []))

/-- Block 2 of the toy chain in slot 2. -/
def toySecond : BlockState Nat Nat := toyNext (toyRoot [1]) (toyHeader 1 1 2 1 0 0 none)

/-- Block 3 on it in slot 4. -/
def toyThird : BlockState Nat Nat := toyNext toySecond (toyHeader 2 2 4 1 0 0 none)

/-- Two blocks 2 on the genesis block, the first of them marked with it, and a block 3 in slot 4 on
the block 2 of `slot`. -/
def toyFork (slot : UInt32) : List (TendOp Nat Nat) :=
  [.addBlock (toyHeader 1 1 2 1 0 0 none) false, .addBlock (toyHeader 1 1 3 1 0 0 none) false,
    .markInCurrentChain (toyRoot [1]) true, .markInCurrentChain toySecond true,
    .addBlock (toyHeader 2 slot 4 1 0 0 none) false]

/-- **The loop of `prune` over the lowest number can take out every block.** The block 3 is built on
the block 2 that is not marked, and block 4 makes the number 2 irreversible: the marked block 2 is
signalled, `remove` of the other takes all that is left, and the head would be the first of no
blocks. -/
theorem prune_empties : ((TendOp.after toyEnv (toyFork 3) toyTended).1.index.entries.map fun b =>
        (b.id, b.inCurrentChain)) =
        [(toyId 2 2, true), (toyId 2 3, false), (toyId 3 4, false)] ∧
      (match (TendOp.addBlock (toyHeader 3 4 5 1 0 0 none) false).run toyEnv
          (TendOp.after toyEnv (toyFork 3) toyTended) with
        | .error e t => some (e, t.1.index.entries.length, t.2.map fun b => b.id)
        | .ok _ _ => none) =
        some (⟨.undefinedBehavior, "begin of an empty index"⟩, 0, [toyId 1 1, toyId 2 2]) := by
  decide

/-- With block 3 on the marked block 2, and marked itself, block 4 makes that block 2 irreversible
and the other leaves. -/
theorem forkDatabase_linked_fork :
    let t := TendOp.after toyEnv (toyFork 2 ++ [.markInCurrentChain toyThird true,
      .addBlock (toyHeader 3 4 5 1 0 0 none) false]) toyTended
    (t.1.index.entries.map fun b => b.id) = [toyId 3 4, toyId 4 5] ∧
      (t.2.map fun b => b.id) = [toyId 1 1, toyId 2 2] ∧ t.1.index.Linked ∧ Succeeding t.2 := by
  have hroot : Sound toyEnv (toyRoot [1]).toBlockData := ⟨by decide, by decide, by decide, by
    intro h hh
    exact (Option.some.inj hh).symm⟩
  have hone : ∀ {idx : ForkIndex Nat Nat} {n : BlockState Nat Nat},
      (∀ a ∈ idx.entries, ∀ b ∈ idx.entries, idx.IsLowest a → idx.IsLowest b → a = b) →
      idx.PruneSafe n := fun h => Or.inr (Or.inl h)
  have hmay : TendOp.MayAlong toyEnv (toyFork 2 ++ [.markInCurrentChain toyThird true,
      .addBlock (toyHeader 3 4 5 1 0 0 none) false]) toyTended := by
    refine And.intro (fun _ _ _ _ => hone (by decide)) (And.intro (fun _ _ _ _ => hone (by decide))
      (And.intro trivial (And.intro trivial (And.intro (fun _ _ _ _ => hone (by decide))
      (And.intro trivial (And.intro (fun _ _ _ _ => ?_) trivial))))))
    -- both blocks 2 have the lowest number, and the marked chain goes on to block 3
    refine Or.inr (Or.inr ⟨toyThird.mark true, by decide, by decide,
      marked_iff_anc 2 (by decide) rfl (by decide) (by decide)⟩)
  obtain ⟨hlinked, horder, -⟩ := forkDatabase_linked toyEnv (toyRoot [1]) toyTended _ hroot rfl hmay
  exact ⟨by decide, by decide, hlinked, horder⟩

end Forceio.Chain
