import Forceio.Chain.Prune

/-!
# Unwinding a branch after pruning

`add` prunes before `maybe_switch_forks` leaves the current branch. The switch pops down to the
block where the two branches part, so it needs that block in the database. A new head whose
irreversible number is past that block, when it is at the lowest number, takes it away first.

* The runs start from one block, as `initialize_fork_db` and `read_from_snapshot` do; the first
  leaves that block without a mark.
* `UnwindSafe`: the block where the branches part is not at the lowest number, or that number is not
  pruned.

Results:
* `switch_unwinds`: in every run of safe pushes, whatever a switch throws comes from `apply_block`.
* `heads_agree_pruning`: head and marks agree after each of them.
-/

namespace Forceio.Chain

open Forceio.Lib Forceio.Lib.Forest ForkDatabase ForkIndex OrderedIndex BlockState
open Controller (createBlockState maybeSwitchForks onIrreversible pushBlock)

variable {Key Sig : Type} {env : ChainEnv Key Sig} {U : Sha256 → Prop} {o : ApplyOracle}
  {idx idx' : ForkIndex Key Sig} {n c b h oldest : BlockState Key Sig} {blog : BlockLog Key Sig}
  {m : Nat} {s t : Node Key Sig}

/-! ## Rooted databases -/

/-- The lowest number is `m`, above it every block has its predecessor, and at it every block fits
the block log. A block of `U` is alone at its number. -/
structure Rooted (env : ChainEnv Key Sig) (U : Sha256 → Prop) (blog : BlockLog Key Sig) (m : Nat)
    (idx : ForkIndex Key Sig) : Prop where
  shape : ∀ b ∈ idx.entries, Shape b.toBlockHeaderState
  lowest : ∀ b ∈ idx.entries, m ≤ b.blockNum
  pred : ∀ b ∈ idx.entries, m < b.blockNum → ∃ p ∈ idx.entries, p.id = b.header.previous
  lone : ∀ a ∈ idx.entries, U a.id → ∀ b ∈ idx.entries, b.blockNum = a.blockNum → b.id = a.id
  logged : ∀ b ∈ idx.entries, b.blockNum = m → LogFits env blog b.toBlockData

section

variable (hr : Rooted env U blog m idx)

include hr

theorem Rooted.same (hsame : SameData idx idx') : Rooted env U blog m idx' where
  shape := hsame.forall (P := fun d => Shape d.toBlockHeaderState) hr.shape
  lowest := hsame.forall (P := fun d => m ≤ d.blockNum) hr.lowest
  pred := hsame.forall (P := fun d => m < d.blockNum → ∃ p ∈ idx'.entries,
    p.id = d.header.previous) fun b hb hlt =>
      hsame.exists (P := fun d => d.id = b.header.previous) (hr.pred b hb hlt)
  lone := hsame.forall (P := fun d => U d.id → ∀ b ∈ idx'.entries, b.blockNum = d.blockNum →
    b.id = d.id) fun a ha hU =>
      hsame.forall (P := fun d => d.blockNum = a.blockNum → d.id = a.id) (hr.lone a ha hU)
  logged := hsame.forall (P := fun d => d.blockNum = m → LogFits env blog d) hr.logged

theorem Rooted.removed (hb : b ∈ idx.entries) : Rooted env U blog m (idx.removed b.id) := by
  have hsub : ∀ x, x ∈ (idx.removed b.id).entries → x ∈ idx.entries := fun x hx =>
    ((mem_removed hb).mp hx).1
  refine ⟨fun x hx => hr.shape x (hsub x hx), fun x hx => hr.lowest x (hsub x hx),
    fun x hx hlt => ?_, fun a ha hU x hx => hr.lone a (hsub a ha) hU x (hsub x hx),
    fun x hx => hr.logged x (hsub x hx)⟩
  obtain ⟨p, hp, hid⟩ := hr.pred x (hsub x hx) hlt
  exact ⟨p, mem_removed_of_pred hb hx hp hid, hid⟩

theorem Rooted.childless (hstock : Stocked env U idx) (hn : Sound env n.toBlockData)
    {p : BlockState Key Sig} (hp : p ∈ idx.entries) (hnum : n.blockNum = p.blockNum + 1)
    (hfresh : ∀ b ∈ idx.entries, b.id ≠ n.id) : ∀ b ∈ idx.entries, b.header.previous ≠ n.id := by
  intro b hb hprev
  have hlevel := (hstock.sound b hb).num
  rw [hprev, hn.numFromId] at hlevel
  have hlow := hr.lowest p hp
  obtain ⟨q, hq, hid⟩ := hr.pred b hb (by omega)
  exact hfresh q hq (hid.trans hprev)

theorem Rooted.insert (hstock : Stocked env U idx) (hj : Joins env idx n)
    (hshape : Shape n.toBlockHeaderState) (hins : idx.insert n = some idx') :
    Rooted env U blog m idx' := by
  obtain ⟨p, hp, hid, hnum⟩ := hj.exists_parent hstock.sound
  have hlow := hr.lowest p hp
  -- the ids of `U` are at the lowest number or below
  have hUnum : ∀ a ∈ idx.entries, U a.id → a.blockNum ≤ p.blockNum := fun a ha hU => by
    have := hstock.low a.id hU p hp
    rwa [(hstock.sound a ha).numFromId] at this
  have hUn : ¬ U n.id := fun hU => by
    have := hstock.low n.id hU p hp
    rw [hj.sound.numFromId] at this
    omega
  have hpred : ∀ b : BlockState Key Sig, (∃ q ∈ idx.entries, q.id = b.header.previous) →
      ∃ q ∈ idx'.entries, q.id = b.header.previous := by
    rintro b ⟨q, hq, hqid⟩
    exact ⟨q, (mem_insert hins).mpr (Or.inl hq), hqid⟩
  constructor <;> rw [forall_mem_insert hins]
  · exact ⟨hr.shape, hshape⟩
  · exact ⟨hr.lowest, by omega⟩
  · exact ⟨fun b hb hlt => hpred b (hr.pred b hb hlt), fun _ => hpred n ⟨p, hp, hid⟩⟩
  · refine ⟨fun a ha hU => ?_, fun hU => absurd hU hUn⟩
    rw [forall_mem_insert hins]
    have := hUnum a ha hU
    exact ⟨hr.lone a ha hU, by omega⟩
  · exact ⟨hr.logged, by omega⟩

/-! ## What pruning keeps -/

/-- The first block by number is the ancestor of the head at the lowest number. -/
theorem Rooted.below (hf : IsForest idx.links)
    (hmarks : ∀ j, idx.Marked j ↔ Anc idx.links c.id j ∧ ¬ U j) (hc : c ∈ idx.entries)
    (hold : idx.byBlockNum.head? = some oldest) :
    oldest.blockNum = m ∧ Anc idx.links c.id oldest.id := by
  obtain ⟨a, ha, hanum, -⟩ := exists_anc_lowest hf hr.pred hc (hr.lowest c hc)
  have hm : oldest.blockNum = m := le_antisymm (hanum ▸ oldest_le hold a ha)
    (hr.lowest oldest (mem_byNum.mp (List.mem_of_mem_head? hold)))
  have ht : Trunk idx oldest := ⟨hf, hold, hm ▸ hr.pred⟩
  exact ⟨hm, ht.anc_oldest hc hr.lone hmarks⟩

end

section Pruned

variable {p : BlockState Key Sig → Bool}
  (hp : ∀ x ∈ idx.entries, p x = true ↔ x.id ≠ oldest.id ∧ Anc idx.links x.id oldest.id)

include hp

theorem anc_of_pruned {i j : Sha256} (hij : Anc (idx.filter p).links i j) :
    Anc idx.links i j ∧ j ≠ oldest.id := by
  refine ⟨anc_of_filter hij, ?_⟩
  obtain ⟨a, ha, rfl⟩ := exists_of_anc_right hij
  exact ((mem_pruned hp).mp ha).2.1

theorem Settled.pruned (hset : Settled env U o idx c)
    (hkept : c ∈ (idx.filter p).entries) : Settled env U o (idx.filter p) c := by
  have hsub : ∀ x ∈ (idx.filter p).entries, x ∈ idx.entries := fun x hx =>
    ((mem_pruned hp).mp hx).1
  refine ⟨hset.toStocked.subset hsub, head?_filter hset.first (mem_filter.mp hkept).2,
    fun b hb hanc hpred => ?_⟩
  obtain ⟨q, hq, hid⟩ := hpred
  exact hset.applies b (hsub b hb) (anc_of_pruned hp hanc).1 ⟨q, hsub q hq, hid⟩

theorem Contest.pruned (hc : Contest U o idx n c) (hn : n ∈ (idx.filter p).entries)
    (hold : c ∈ (idx.filter p).entries) : Contest U o (idx.filter p) n c := by
  have hsub : ∀ x ∈ (idx.filter p).entries, x ∈ idx.entries := fun x hx =>
    ((mem_pruned hp).mp hx).1
  have hpred : ∀ b : BlockState Key Sig, (∃ q ∈ (idx.filter p).entries, q.id = b.header.previous) →
      ∃ q ∈ idx.entries, q.id = b.header.previous := by
    rintro b ⟨q, hq, hid⟩
    exact ⟨q, hsub q hq, hid⟩
  obtain ⟨rest, hrest⟩ := hc.order
  refine ⟨isForest_filter hc.forest p, fun b hb h => hc.blocks b (hsub b hb) (hpred b h),
    fun b hb h => hc.clear b (hsub b hb) (hpred b h),
    fun b hb hanc h => hc.applies b (hsub b hb) (anc_of_pruned hp hanc).1 (hpred b h),
    rest.filter p, ?_⟩
  show idx.byLibBlockNum.filter p = _
  rw [hrest, List.filter_cons_of_pos (mem_filter.mp hn).2,
    List.filter_cons_of_pos (mem_filter.mp hold).2]

variable (hr : Ripe U idx oldest h c)

include hr

theorem Ripe.anc_pruned {i j : Sha256} (hi : Anc idx.links i oldest.id)
    (hij : Anc idx.links i j) (hj : j ≠ oldest.id) : Anc (idx.filter p).links i j := by
  refine hij.of_between fun z hz hiz hzj => ?_
  obtain ⟨d, hd, rfl⟩ := mem_links.mp hz
  have hle : oldest.blockNum ≤ d.blockNum := oldest_le hr.lowest d hd
  refine link_mem ((mem_pruned hp).mpr ⟨hd, fun hid => hj ?_, ?_⟩)
  · obtain ⟨a, ha, rfl⟩ := exists_of_anc_right hij
    have hda : d = oldest := eq_of_id hd hr.mem hid
    subst hda
    exact (congrArg Link.id (hzj.eq_of_num hr.forest hz (link_mem ha)
      (oldest_le hr.lowest a ha))).symm
  · exact hiz.total hr.forest hz (link_mem hr.mem) hi hle

theorem Ripe.marked_pruned {j : Sha256} :
    (idx.filter p).Marked j ↔ Anc (idx.filter p).links c.id j ∧ ¬ U j := by
  constructor
  · rintro ⟨b, hb, rfl, hmark⟩
    obtain ⟨hmem, hne, -⟩ := (mem_pruned hp).mp hb
    obtain ⟨hanc, hU⟩ := (hr.marks b.id).mp ((marked_iff hmem).mpr hmark)
    exact ⟨hr.anc_pruned hp hr.below hanc hne, hU⟩
  · rintro ⟨hanc, hU⟩
    obtain ⟨b, hb, rfl⟩ := exists_of_anc_right hanc
    have hmem := ((mem_pruned hp).mp hb).1
    have hmark := (hr.marks b.id).mpr ⟨(anc_of_pruned hp hanc).1, hU⟩
    exact ⟨b, hb, rfl, (marked_iff hmem).mp hmark⟩

theorem Ripe.rooted_pruned {blog' : BlockLog Key Sig} (hroot : Rooted env U blog m idx)
    (hstock : Stocked env U idx) (hm : oldest.blockNum = m)
    (hlog : ∀ d, Sound env d → d.header.previous = oldest.id → d.block.isSome →
      LogFits env blog' d) : Rooted env U blog' (m + 1) (idx.filter p) := by
  have hsub : ∀ x ∈ (idx.filter p).entries, x ∈ idx.entries := fun x hx =>
    ((mem_pruned hp).mp hx).1
  have hnum : ∀ x ∈ (idx.filter p).entries, m < x.blockNum := fun x hx =>
    hm ▸ hr.trunk.num_pruned hp hx
  refine ⟨fun x hx => hroot.shape x (hsub x hx), hnum, fun x hx hlt => ?_,
    fun a ha hU => absurd hU (hr.clear a (hsub a ha) (hm ▸ hnum a ha)), fun x hx hxnum => ?_⟩
  · rcases hr.trunk.pred_pruned hp hx with hprev | ⟨y, hy, hid, -⟩
    · have hlevel : x.blockNum = oldest.blockNum + 1 :=
        hr.forest.level _ (link_mem (hsub x hx)) _ (link_mem hr.mem) hprev
      omega
    · exact ⟨y, hy, hid⟩
  · rcases hr.trunk.pred_pruned hp hx with hprev | ⟨y, hy, -, hlevel⟩
    · exact hlog _ (hstock.sound x (hsub x hx)) hprev
        (hstock.blocks x (hsub x hx) ⟨oldest, hr.mem, hprev.symm⟩)
    · have := hnum y hy
      omega

end Pruned

/-! ## The end of `add` -/

/-- The state `add` leaves `maybe_switch_forks`: the head `c` is still the best block, or the new
block `n` is, and the branches of the two meet. -/
inductive Added (env : ChainEnv Key Sig) (U : Sha256 → Prop) (o : ApplyOracle)
    (n c : BlockState Key Sig) (t : Node Key Sig) : Prop where
  | kept (settled : Settled env U o t.1.index c)
      (hat : At U t.1.index (.entry c.id) t.2.blog c.toBlockData t) : Added env U o n c t
  | contested (stocked : Stocked env U t.1.index) (contest : Contest U o t.1.index n c)
      (hat : At U t.1.index (.entry n.id) t.2.blog c.toBlockData t)
      (meet : n.header.previous = c.id ∨ ∃ f ∈ t.1.index.entries,
        Anc t.1.index.links n.header.previous f.id ∧ Anc t.1.index.links c.header.previous f.id) :
      Added env U o n c t

variable {readMode : DbReadMode}

/-- In the modes that switch forks a block that becomes irreversible is only logged. -/
theorem onIrreversible_eq (hmode : readMode ≠ .irreversible) {u : Unit}
    (h : Controller.logIrreversible env b s = .ok u t) :
    onIrreversible env o readMode b s = .ok () t := by
  unfold onIrreversible
  rw [Exec.bind_of_ok h, if_neg fun h => hmode h.2]
  rfl

/-- Pruning the lowest number, and what the invariants say of the state after it. -/
theorem prune_rooted (hmode : readMode ≠ .irreversible) (hr : Ripe U t.1.index oldest h c)
    (hroot : Rooted env U t.2.blog m t.1.index) (hstock : Stocked env U t.1.index)
    (hm : oldest.blockNum = m) (hat : At U t.1.index (.entry h.id) t.2.blog c.toBlockData t) :
    ∃ p blog', prune (onIrreversible env o readMode) oldest t =
        .ok () (⟨t.1.index.filter p, .entry h.id⟩, ⟨c.toBlockData, blog'⟩) ∧
      (∀ x ∈ t.1.index.entries, p x = true ↔
        x.id ≠ oldest.id ∧ Anc t.1.index.links x.id oldest.id) ∧
      Rooted env U blog' (m + 1) (t.1.index.filter p) ∧
      At U (t.1.index.filter p) (.entry h.id) blog' c.toBlockData
        (⟨t.1.index.filter p, .entry h.id⟩, ⟨c.toBlockData, blog'⟩) := by
  obtain ⟨blog', hlog, hnext⟩ := logIrreversible_spec (hstock.sound oldest hr.mem)
    (hroot.logged oldest hr.mem hm)
  have hctl : ({ t.2 with blog := blog' } : Controller Key Sig) = ⟨c.toBlockData, blog'⟩ := by
    rw [hat.ctl]
  rw [hctl] at hlog
  obtain ⟨p, hprune, hp⟩ := prune_spec hr hat.headPtr (onIrreversible_eq (o := o) hmode hlog)
  exact ⟨p, blog', hprune, hp, hr.rooted_pruned hp hroot hstock hm hnext, SameData.refl _, rfl, rfl,
    fun j => hr.marked_pruned hp⟩

theorem pruneOldest_of_lt {irr : BlockState Key Sig → ControllerM Key Sig Unit}
    (hh : t.1.head = some h) (ho : t.1.index.byBlockNum.head? = some oldest)
    (hlt : oldest.blockNum < h.dposIrreversibleBlocknum) :
    pruneOldest irr t = prune irr oldest t := by
  unfold pruneOldest
  rw [get_bind]
  simp only [hh, ho]
  rw [if_pos hlt]

/-- The end of `add` when the head stays the best block: its own irreversible number is at most its
number, so it is not pruned. -/
theorem pruneOldest_kept (hmode : readMode ≠ .irreversible) (hset : Settled env U o t.1.index c)
    (hat : At U t.1.index (.entry c.id) t.2.blog c.toBlockData t)
    (hroot : Rooted env U t.2.blog m t.1.index) (hold : t.1.index.byBlockNum.head? = some oldest) :
    ∃ t', pruneOldest (onIrreversible env o readMode) t = .ok () t' ∧
      Added env U o n c t' ∧ ∃ m', Rooted env U t'.2.blog m' t'.1.index := by
  have hc := mem_of_head hset.first
  have hhead := hset.head_eq hat
  rcases Nat.lt_or_ge oldest.blockNum c.dposIrreversibleBlocknum with hlt | hge
  · have hirr := (hroot.shape c hc).irreversible
    have hprop := (hroot.shape c hc).proposed
    have hnum : oldest.blockNum < c.blockNum := by omega
    have hne : c.id ≠ oldest.id := fun hid => by
      rw [eq_of_id hc (mem_byNum.mp (List.mem_of_mem_head? hold)) hid] at hnum
      exact lt_irrefl _ hnum
    obtain ⟨hm, hbelow⟩ := hroot.below hset.forest hat.marks hc hold
    have hr : Ripe U t.1.index oldest c c := ⟨hset.forest, hold, fun b hb h => hroot.pred b hb
      (hm ▸ h), fun b hb h => hset.clear hb (hroot.pred b hb (hm ▸ h)), hat.marks, hbelow, hne,
      hset.first, hbelow, hne⟩
    obtain ⟨p, blog', hprune, hp, hroot', hat'⟩ :=
      prune_rooted (o := o) hmode hr hroot hset.toStocked hm hat
    have hkept : c ∈ (t.1.index.filter p).entries := (mem_pruned hp).mpr ⟨hc, hne, hbelow⟩
    exact ⟨_, (pruneOldest_of_lt hhead hold hlt).trans hprune,
      Added.kept (hset.pruned hp hkept) hat', m + 1, hroot'⟩
  · exact ⟨t, pruneOldest_of_le hhead hold hge, Added.kept hset hat, m, hroot⟩

/-- The end of `add` when the new block is the best. -/
theorem pruneOldest_contested (hmode : readMode ≠ .irreversible) (hstock : Stocked env U t.1.index)
    (hcon : Contest U o t.1.index n c) (hat : At U t.1.index (.entry n.id) t.2.blog c.toBlockData t)
    (hroot : Rooted env U t.2.blog m t.1.index) (hold : t.1.index.byBlockNum.head? = some oldest)
    (hmeet : n.header.previous = c.id ∧ n.dposIrreversibleBlocknum ≤ c.blockNum ∨
      ∃ f ∈ t.1.index.entries, Anc t.1.index.links n.header.previous f.id ∧
        Anc t.1.index.links c.header.previous f.id ∧
        (f.blockNum = oldest.blockNum → n.dposIrreversibleBlocknum ≤ oldest.blockNum)) :
    ∃ t', pruneOldest (onIrreversible env o readMode) t = .ok () t' ∧
      Added env U o n c t' ∧ ∃ m', Rooted env U t'.2.blog m' t'.1.index := by
  have hc := hcon.mem_old
  have hn := hcon.mem_new
  have hf := hcon.forest
  have hhead := head_of_mem hat.headPtr hn
  rcases Nat.lt_or_ge oldest.blockNum n.dposIrreversibleBlocknum with hlt | hge
  · obtain ⟨hm, hbelow⟩ := hroot.below hf hat.marks hc hold
    have holdmem : oldest ∈ t.1.index.entries :=
      mem_byNum.mp (List.mem_of_mem_head? hold)
    have hne : ∀ x ∈ t.1.index.entries, oldest.blockNum < x.blockNum → x.id ≠ oldest.id :=
      fun x hx hlt hid => by
        rw [eq_of_id hx holdmem hid] at hlt
        exact lt_irrefl _ hlt
    -- both heads are built on the oldest block, and so is the block their branches meet in
    obtain ⟨hcnum, hnbelow, hmeet⟩ : oldest.blockNum < c.blockNum ∧
        Anc t.1.index.links n.header.previous oldest.id ∧
        (n.header.previous = c.id ∨ ∃ f ∈ t.1.index.entries, f.id ≠ oldest.id ∧
          Anc t.1.index.links f.id oldest.id ∧ Anc t.1.index.links n.header.previous f.id ∧
          Anc t.1.index.links c.header.previous f.id) := by
      rcases hmeet with ⟨hext, hirr⟩ | ⟨f, hfmem, hnf, hcf, hfnum⟩
      · exact ⟨lt_of_lt_of_le hlt hirr, hext ▸ hbelow, Or.inl hext⟩
      · have hle : oldest.blockNum ≤ f.blockNum := oldest_le hold f hfmem
        have hflt : oldest.blockNum < f.blockNum := by
          omega
        have hfc : f.blockNum < c.blockNum := hcf.num_lt hf (link_mem hc) (link_mem hfmem)
        have hcanc : Anc t.1.index.links c.id f.id := (anc_block_iff hf hc).mpr (Or.inr hcf)
        have hfold : Anc t.1.index.links f.id oldest.id :=
          hcanc.total hf (link_mem hfmem) (link_mem holdmem) hbelow hle
        exact ⟨lt_trans hflt hfc, hnf.trans hfold,
          Or.inr ⟨f, hfmem, hne f hfmem hflt, hfold, hnf, hcf⟩⟩
    have hnanc : Anc t.1.index.links n.id oldest.id := (anc_block_iff hf hn).mpr (Or.inr hnbelow)
    have hnnum : oldest.blockNum < n.blockNum := hnbelow.num_lt hf (link_mem hn) (link_mem holdmem)
    have hr : Ripe U t.1.index oldest n c := ⟨hf, hold, fun b hb h => hroot.pred b hb (hm ▸ h),
      fun b hb h => hstock.clear hb (hroot.pred b hb (hm ▸ h)), hat.marks, hbelow, hne c hc hcnum,
      hcon.first, hnanc, hne n hn hnnum⟩
    obtain ⟨p, blog', hprune, hp, hroot', hat'⟩ :=
      prune_rooted (o := o) hmode hr hroot hstock hm hat
    have hkeptn : n ∈ (t.1.index.filter p).entries :=
      (mem_pruned hp).mpr ⟨hn, hne n hn hnnum, hnanc⟩
    have hkeptc : c ∈ (t.1.index.filter p).entries :=
      (mem_pruned hp).mpr ⟨hc, hne c hc hcnum, hbelow⟩
    refine ⟨_, (pruneOldest_of_lt hhead hold hlt).trans hprune, Added.contested
      (hstock.subset fun x hx => ((mem_pruned hp).mp hx).1) (hcon.pruned hp hkeptn hkeptc) hat' ?_,
      m + 1, hroot'⟩
    rcases hmeet with hext | ⟨f, hfmem, hfne, hfold, hnf, hcf⟩
    · exact Or.inl hext
    · exact Or.inr ⟨f, (mem_pruned hp).mpr ⟨hfmem, hfne, hfold⟩,
        hr.anc_pruned hp hnbelow hnf hfne, hr.anc_pruned hp (hcf.trans hfold) hcf hfne⟩
  · refine ⟨t, pruneOldest_of_le hhead hold hge, Added.contested hstock hcon hat ?_, m, hroot⟩
    rcases hmeet with ⟨hext, -⟩ | ⟨f, hf, hnf, hcf, -⟩
    · exact Or.inl hext
    · exact Or.inr ⟨f, hf, hnf, hcf⟩

theorem Joins.byNum_head (hj : Joins env idx n) (hstock : Stocked env U idx)
    (hins : idx.insert n = some idx') (hold : idx.byBlockNum.head? = some oldest) :
    idx'.byBlockNum.head? = some oldest := by
  obtain ⟨p, hp, -, hnum⟩ := hj.exists_parent hstock.sound
  have hle := oldest_le hold p hp
  rw [(insert_eq_some hins).2.2.1, head?_insert, hold]
  refine if_neg (not_lt.mpr (le_of_lt (Prod.Lex.toLex_lt_toLex.mpr (Or.inl ?_))))
  omega

/-! ## Pushes -/

/-- The invariant of the runs: heads and marks agree, and the database is rooted. -/
def Tended (env : ChainEnv Key Sig) (U : Sha256 → Prop) (o : ApplyOracle)
    (s : Node Key Sig) : Prop :=
  Synced env U o s ∧ ∃ m, Rooted env U s.2.blog m s.1.index

/-- The two branches of a contest have all their predecessors in the database. -/
theorem Contest.fetch (hcon : Contest U o idx n c) {f : BlockState Key Sig}
    (hf : f ∈ idx.entries) (hnf : Anc idx.links n.header.previous f.id)
    (hcf : Anc idx.links c.header.previous f.id) :
    ∃ first second, fetchBranchFrom idx n.id c.id = .ok (first, second) ∧
      ∀ b ∈ first ++ second, (idx.find b.header.previous).isSome := by
  obtain ⟨S, T, g, hfetch, hg, hS, hT, -, -⟩ :=
    fetchBranchFrom_spec hcon.forest hf hcon.mem_new hcon.mem_old hnf hcf
  refine ⟨S, T, hfetch, fun b hb => ?_⟩
  obtain ⟨p, hp, hid⟩ : ∃ p ∈ idx.entries, p.id = b.header.previous := by
    rcases List.mem_append.mp hb with hb | hb
    · exact hS.exists_pred ⟨g, hg, rfl⟩ b hb
    · exact hT.exists_pred ⟨g, hg, rfl⟩ b hb
  rw [find_eq_some_iff.mpr ⟨hp, hid⟩]
  rfl

/-- What `maybe_switch_forks` leaves of the invariant. -/
theorem PushEnd.tended {r : EStateM.Result FcException _ Unit}
    (hroot : Rooted env U t.2.blog m t.1.index)
    (h : PushEnd env U o t.1.index n c t.2.blog r) : Tended env U o (Exec.stateOf r) := by
  cases h with
  | @done t' hsync hsame hlog =>
    have hroot' : Rooted env U t'.2.blog m t'.1.index := hlog ▸ hroot.same hsame
    exact ⟨hsync, m, hroot'⟩
  | @undone t' _ _ hsync hmem _ _ hsame hctl =>
    have hlog : t'.2.blog = t.2.blog := by rw [hctl]
    have hroot' : Rooted env U t'.2.blog m t'.1.index :=
      hlog ▸ (hroot.removed hmem).same hsame
    exact ⟨hsync, m, hroot'⟩

theorem Added.pushEnd (readMode : DbReadMode) (h : Added env U o n c t) :
    PushEnd env U o t.1.index n c t.2.blog (maybeSwitchForks o readMode t) := by
  cases h with
  | kept hset hat => exact maybeSwitchForks_settled readMode hset hat
  | contested hstock hcon hat hmeet =>
    exact maybeSwitchForks_contest readMode hstock hcon hat hmeet

/-- If it leaves the current branch, both branches have all their predecessors. -/
theorem Added.fetch (ha : Added env U o n c t) (hh : t.1.head = some h)
    (hprev : h.header.previous ≠ t.2.head.id) (hid : h.id ≠ t.2.head.id) :
    ∃ first second, fetchBranchFrom t.1.index h.id t.2.head.id = .ok (first, second) ∧
      ∀ b ∈ first ++ second, (t.1.index.find b.header.previous).isSome := by
  cases ha with
  | kept hset hat =>
    rw [hset.head_eq hat] at hh
    rw [← Option.some.inj hh, hat.ctl] at hid
    exact absurd rfl hid
  | contested _ hcon hat hmeet =>
    have hhead := head_of_mem hat.headPtr hcon.mem_new
    obtain rfl := Option.some.inj (hhead.symm.trans hh)
    rw [hat.ctl] at hprev ⊢
    obtain ⟨f, hf, hnf, hcf⟩ := hmeet.resolve_left hprev
    exact hcon.fetch hf hnf hcf

section Push

variable [Inhabited Sig] [DecidableEq Key] {blk : SignedBlockHeader Key Sig} {readMode : DbReadMode}

/-- If the block is better than the head, then it is built on the head, or its branch and that of
the head have a block in common below both, which is not at the lowest number if the new block's
irreversible number is past that. -/
def UnwindSafe (env : ChainEnv Key Sig) (s : Node Key Sig)
    (blk : SignedBlockHeader Key Sig) : Prop :=
  ∀ n ∈ created env s blk, ∀ c ∈ s.1.head, ∀ oldest ∈ s.1.index.byBlockNum.head?,
    n.libKey < c.libKey → n.header.previous = c.id ∨ ∃ f ∈ s.1.index.entries,
      Anc s.1.index.links n.header.previous f.id ∧ Anc s.1.index.links c.header.previous f.id ∧
      (f.blockNum = oldest.blockNum → n.dposIrreversibleBlocknum ≤ oldest.blockNum)

/-- The condition checked by going down from both blocks. -/
theorem unwindSafe_of_isAnc
    (h : ∀ n ∈ created env s blk, ∀ c ∈ s.1.head, ∀ oldest ∈ s.1.index.byBlockNum.head?,
      n.libKey < c.libKey → n.header.previous = c.id ∨ ∃ f ∈ s.1.index.entries,
        isAnc s.1.index.links s.1.index.entries.length n.header.previous f.id ∧
          isAnc s.1.index.links s.1.index.entries.length c.header.previous f.id ∧
          (f.blockNum = oldest.blockNum → n.dposIrreversibleBlocknum ≤ oldest.blockNum)) :
    UnwindSafe env s blk := by
  intro n hn c hc oldest hold hbetter
  rcases h n hn c hc oldest hold hbetter with hext | ⟨f, hf, hnf, hcf, hnum⟩
  · exact Or.inl hext
  · exact Or.inr ⟨f, hf, anc_of_isAnc hnf, anc_of_isAnc hcf, hnum⟩

theorem Rooted.joins (hroot : Rooted env U blog m s.1.index) (hstock : Stocked env U s.1.index)
    (hn : createBlockState env blk s = .ok n s) :
    Joins env s.1.index n ∧ Shape n.toBlockHeaderState ∧
      ∃ p ∈ s.1.index.entries, p.id = n.header.previous ∧
        n.dposIrreversibleBlocknum ≤ p.blockNum := by
  obtain ⟨-, hnew, p, hp, hstate⟩ := createBlockState_ok hn
  have hpmem := (find_eq_some_iff.mp hp).1
  obtain ⟨hsound, hheader, -, hprev, hnum⟩ := (hstock.sound p hpmem).newState hstate
  have hstep : Step env p.toBlockHeaderState n.toBlockHeaderState :=
    ⟨_, _, (newState_eq_ok hstate).1⟩
  have hfresh : ∀ b ∈ s.1.index.entries, b.id ≠ n.id := fun b hb => by
    rw [hsound.id, hheader]
    exact find_eq_none_iff.mp hnew b hb
  have hshape := hroot.shape p hpmem
  refine ⟨joins_of_created hstock hn (hroot.childless hstock hsound hpmem hnum hfresh),
    hshape.next hstep, p, hpmem, hprev.symm, ?_⟩
  have := hshape.irreversible_next hstep
  have := hshape.proposed
  omega

/-- **What `add` does** with the state created for a block. -/
theorem add_spec (hmode : readMode ≠ .irreversible) (hset : Settled env U o s.1.index c)
    (hat : At U s.1.index (.entry c.id) s.2.blog c.toBlockData s)
    (hroot : Rooted env U s.2.blog m s.1.index)
    (hn : createBlockState env blk s = .ok n s) (hsafe : UnwindSafe env s blk) :
    ∃ t, add (onIrreversible env o readMode) n false s = .ok () t ∧
      Added env U o n c t ∧ ∃ m', Rooted env U t.2.blog m' t.1.index := by
  obtain ⟨hj, hshape, p, hp, hpid, hirr⟩ := hroot.joins hset.toStocked hn
  have hc := mem_of_head hset.first
  have hhead := hset.head_eq hat
  obtain ⟨idx, hins⟩ := insert_of_fresh hj.fresh
  obtain ⟨oldest, hold⟩ := exists_oldest hc
  have hold' := hj.byNum_head hset.toStocked hins hold
  have hroot' := hroot.insert hset.toStocked hj hshape hins
  rw [hj.add hins (by rw [hhead]; rfl)]
  by_cases hbetter : n.libKey < c.libKey
  · have hcon := hj.contest hins hset hbetter
    rw [firstPtr_of_head hcon.first]
    refine pruneOldest_contested (t := (⟨idx, .entry n.id⟩, s.2)) hmode
      (hj.stocked hins hset.toStocked) hcon (hj.at hins hat hc) hroot' hold' ?_
    rcases hsafe n (mem_created hn) c hhead oldest hold hbetter with hext | ⟨f, hf, hnf, hcf, hnum⟩
    · rw [eq_of_id hp hc (hpid.trans hext)] at hirr
      exact Or.inl ⟨hext, hirr⟩
    · exact Or.inr ⟨f, (mem_insert hins).mpr (Or.inl hf), anc_insert hins hnf,
        anc_insert hins hcf, hnum⟩
  · have hset' := hj.settled hins hset hbetter
    rw [firstPtr_of_head hset'.first]
    exact pruneOldest_kept (t := (⟨idx, .entry c.id⟩, s.2)) hmode hset' (hj.at hins hat hc) hroot'
      hold'

/-! ## Runs -/

/-- A push unwinds: `add` returns, whatever `maybe_switch_forks` then throws was thrown by
`apply_block`, and if it leaves the current branch then every block of the two branches has its
predecessor in the database. -/
def Unwinds (env : ChainEnv Key Sig) (o : ApplyOracle) (readMode : DbReadMode)
    (s : Node Key Sig) (blk : SignedBlockHeader Key Sig) : Prop :=
  ∀ n ∈ created env s blk, ∃ t,
    add (onIrreversible env o readMode) n false s = .ok () t ∧
    (∀ e t', maybeSwitchForks o readMode t = .error e t' →
      ∃ f ∈ t.1.index.entries, o.throws f.header.previous f.id = some e) ∧
    ∀ h ∈ t.1.head, h.header.previous ≠ t.2.head.id → h.id ≠ t.2.head.id →
      ∃ first second, fetchBranchFrom t.1.index h.id t.2.head.id = .ok (first, second) ∧
        ∀ b ∈ first ++ second, (t.1.index.find b.header.previous).isSome

/-- **One push keeps the invariant and unwinds.** -/
theorem Tended.push (hmode : readMode ≠ .irreversible) (hs : Tended env U o s)
    (hsafe : UnwindSafe env s blk) :
    Tended env U o (Exec.stateOf (pushBlock env o readMode blk s)) ∧
      Unwinds env o readMode s blk := by
  cases hn : createBlockState env blk s with
  | error e s' =>
    obtain rfl := createBlockState_error hn
    have hpush : pushBlock env o readMode blk s' = .error e s' := Exec.bind_of_error hn
    rw [hpush]
    refine ⟨hs, fun n hmem => ?_⟩
    unfold created at hmem
    rw [hn] at hmem
    simp at hmem
  | ok n s' =>
    obtain rfl := (createBlockState_ok hn).1
    obtain ⟨⟨c, hset, hat⟩, m, hroot⟩ := hs
    obtain ⟨t, hadd, hadded, m', hroot'⟩ := add_spec hmode hset hat hroot hn hsafe
    have hend := hadded.pushEnd readMode
    rw [pushBlock_eq hmode hn hadd]
    refine ⟨hend.tended hroot', fun n' hn' => ?_⟩
    obtain rfl : n' = n := by
      unfold created at hn'
      rw [hn] at hn'
      exact (Option.some.inj hn').symm
    refine ⟨t, hadd, fun e t' ht => ?_, fun h hh hprev hid => ?_⟩
    · rw [ht] at hend
      cases hend with
      | undone _ hmem _ hthrow _ _ => exact ⟨_, hmem, hthrow⟩
    · exact hadded.fetch hh hprev hid

/-- The ids that never carry a mark: that of a first block put into the database without one. -/
def unmarkedRoot (root : BlockState Key Sig) (i : Sha256) : Prop :=
  i = root.id ∧ root.inCurrentChain = false

end Push

theorem tended_start {root : BlockState Key Sig} (hsound : Sound env root.toBlockData)
    (hshape : Shape root.toBlockHeaderState) (hlog : LogFits env blog root.toBlockData) :
    Tended env (unmarkedRoot root) o (startNode env root blog) := by
  refine ⟨synced_start hsound ?_ fun i hi => hi.1, root.blockNum, ?_⟩
  · unfold unmarkedRoot
    cases root.inCurrentChain <;> simp
  · obtain ⟨idx, hentries, -, -, hstart⟩ := startNode_eq blog hsound
    rw [hstart]
    have hone : ∀ {P : BlockState Key Sig → Prop}, P root → ∀ b ∈ idx.entries, P b :=
      fun h b hb => List.mem_singleton.mp (hentries ▸ hb) ▸ h
    exact ⟨hone hshape, hone le_rfl, hone fun hlt => absurd hlt (lt_irrefl _),
      hone fun _ => hone fun _ => rfl, hone fun _ => hlog⟩

/-- **A fork switch can unwind**: in every run of pushes from one block that are all safe, every
pop of a switch finds the predecessor of the popped block, and the assertion of `pop_block` never
fires: what a switch throws was thrown by `apply_block`. -/
theorem switch_unwinds [Inhabited Sig] [DecidableEq Key] (env : ChainEnv Key Sig) (o : ApplyOracle)
    {readMode : DbReadMode} (hmode : readMode ≠ .irreversible) (root : BlockState Key Sig)
    (blog : BlockLog Key Sig) (hsound : Sound env root.toBlockData)
    (hshape : Shape root.toBlockHeaderState) (hlog : LogFits env blog root.toBlockData)
    (blks : List (SignedBlockHeader Key Sig))
    (hrun : Along env o readMode (UnwindSafe env) blks (startNode env root blog)) :
    Along env o readMode (Unwinds env o readMode) blks (startNode env root blog) :=
  along_of_invariant (fun _ _ hs h => hs.push hmode h) blks _ (tended_start hsound hshape hlog) hrun

/-- What a push leaves behind, pruned or not, returned or thrown: heads and marks that agree, and a
database in which every block above the lowest number has its predecessor, and those at the lowest
number are next in the block log. -/
def AgreesRooted [Inhabited Sig] [DecidableEq Key] (env : ChainEnv Key Sig) (o : ApplyOracle)
    (readMode : DbReadMode) (s : Node Key Sig) (blk : SignedBlockHeader Key Sig) : Prop :=
  let t := Exec.stateOf (pushBlock env o readMode blk s)
  HeadsAgree t ∧ ∃ m, Rooted env (fun _ => False) t.2.blog m t.1.index

/-- **Heads and marks agree while blocks are pruned**, in every run of safe pushes from one marked
block. -/
theorem heads_agree_pruning [Inhabited Sig] [DecidableEq Key] (env : ChainEnv Key Sig)
    (o : ApplyOracle) {readMode : DbReadMode} (hmode : readMode ≠ .irreversible)
    (root : BlockState Key Sig) (blog : BlockLog Key Sig) (hmarked : root.inCurrentChain = true)
    (hsound : Sound env root.toBlockData) (hshape : Shape root.toBlockHeaderState)
    (hlog : LogFits env blog root.toBlockData) (blks : List (SignedBlockHeader Key Sig))
    (hrun : Along env o readMode (UnwindSafe env) blks (startNode env root blog)) :
    Along env o readMode (AgreesRooted env o readMode) blks (startNode env root blog) := by
  have hstart : Tended env (fun _ => False) o (startNode env root blog) := by
    have hnone : unmarkedRoot root = fun _ => False := by
      funext i
      simp [unmarkedRoot, hmarked]
    rw [← hnone]
    exact tended_start hsound hshape hlog
  refine along_of_invariant (fun s blk hs hsafe => ?_) blks _ hstart hrun
  have ht := (hs.push hmode hsafe).1
  exact ⟨ht, ht.1.headsAgree, ht.2⟩

/-! ## Two runs -/

/-- A node that starts a toy chain, as `initialize_fork_db` leaves it. -/
def genesisNode (producers : List AccountName) : Node Nat Nat :=
  startNode toyEnv (toyRoot producers) ⟨1, some (toyRoot producers).header⟩

/-- The only producer makes two blocks 2 and a block 3 on the second: block 3 has the irreversible
number 2, so block 1 is pruned when it is added, and the switch to it cannot pop the first
block 2. -/
theorem switch_stuck :
    Exec.thrown (pushBlock toyEnv (toyOracle []) .head (toyHeader 2 3 4 1 0 0 none)
      (toyPushes (toyOracle []) [toyHeader 1 1 2 1 0 0 none, toyHeader 1 1 3 1 0 0 none]
        (genesisNode [1]))) =
      some ⟨.blockValidateException, "attempt to pop beyond last irreversible block"⟩ := by
  decide +kernel

/-- With three producers nothing is pruned yet, and the same switch unwinds. -/
theorem switch_unwinds_threeProducers :
    Along toyEnv (toyOracle []) .head (Unwinds toyEnv (toyOracle []) .head)
      [toyHeader 1 1 2 3 0 0 none, toyHeader 1 1 3 1 0 0 none, toyHeader 2 3 4 2 0 0 none]
      (genesisNode [1, 2, 3]) := by
  refine switch_unwinds toyEnv (toyOracle []) (by decide) _ _ ?_ ?_ ?_ _
    ⟨unwindSafe_of_isAnc (by decide), unwindSafe_of_isAnc (by decide),
      unwindSafe_of_isAnc (by decide), trivial⟩
  · exact ⟨rfl, by decide, by decide, by decide⟩
  · exact Shape.genesis toyEnv (toyGenesis [1, 2, 3])
  · exact LogFits.isLast _ rfl rfl

/-- The only producer builds on its blocks; block 1 is pruned with the second. -/
theorem heads_agree_pruning_oneProducer :
    Along toyEnv (toyOracle []) .head (AgreesRooted toyEnv (toyOracle []) .head)
      [toyHeader 1 1 2 1 0 0 none, toyHeader 2 2 3 1 0 0 none]
      (startNode toyEnv { toyRoot [1] with inCurrentChain := true }
        ⟨1, some (toyRoot [1]).header⟩) := by
  refine heads_agree_pruning toyEnv (toyOracle []) (by decide) _ _ rfl ?_ ?_ ?_ _
    ⟨unwindSafe_of_isAnc (by decide), unwindSafe_of_isAnc (by decide), trivial⟩
  · exact ⟨rfl, by decide, by decide, by decide⟩
  · exact Shape.genesis toyEnv (toyGenesis [1])
  · exact LogFits.isLast _ rfl rfl

end Forceio.Chain
