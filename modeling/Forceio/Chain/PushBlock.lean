import Forceio.Chain.ForkSwitch
import Forceio.Chain.Irreversible

/-!
# Runs of `push_block`

After every push the controller's head is the head of the fork database, and the blocks marked as
the current chain are that head and its ancestors. This is an invariant of runs, `Synced`: the
insertion of `add` either leaves the best block where it is or sets up the contest that
`maybe_switch_forks` ends one way or the other.

* It needs that a better head on another branch has an ancestor in common with the current head that
  is neither of them (`BranchesMeet`). `fetch_branch_from` always goes down at least one block from
  both ends, so a new head that is a descendant of the current one, but not its child, makes
  `maybe_switch_forks` pop the current head too.

Result:
* `heads_agree`: head and marks agree after each push of a run.
-/

namespace Forceio.Chain

open Forceio.Lib Forceio.Lib.Forest ForkDatabase ForkIndex
open Controller (createBlockState maybeSwitchForks onIrreversible pushBlock)
open Exec (bind_of_error bind_of_ok stateOf)

variable {Key Sig : Type} {env : ChainEnv Key Sig} {U : Sha256 → Prop} {o : ApplyOracle}
  {idx idx' : ForkIndex Key Sig} {n c b : BlockState Key Sig} {blog : BlockLog Key Sig}
  {s t : Node Key Sig}

/-! ## What an index keeps -/

/-- The states of the index are sound, those whose predecessor is there have their block, and the
ids of `U` are at its lowest number or below. -/
structure Stocked (env : ChainEnv Key Sig) (U : Sha256 → Prop) (idx : ForkIndex Key Sig) : Prop where
  sound : ∀ b ∈ idx.entries, Sound env b.toBlockData
  blocks : ∀ b ∈ idx.entries, (∃ p ∈ idx.entries, p.id = b.header.previous) → b.block.isSome
  low : ∀ i, U i → ∀ b ∈ idx.entries, (numFromId i).toNat ≤ b.blockNum

/-- `c` is the best block of the index, and what is known of the blocks it is built on could be
applied. -/
structure Settled (env : ChainEnv Key Sig) (U : Sha256 → Prop) (o : ApplyOracle)
    (idx : ForkIndex Key Sig) (c : BlockState Key Sig) : Prop extends Stocked env U idx where
  first : idx.byLibBlockNum.head? = some c
  applies : ∀ b ∈ idx.entries, Anc idx.links c.id b.id →
    (∃ p ∈ idx.entries, p.id = b.header.previous) → o.throws b.header.previous b.id = none

/-- **The fork database and the controller agree**: the best block is the head of both, and it and
its ancestors are the marked blocks, except those of `U`. -/
def Synced (env : ChainEnv Key Sig) (U : Sha256 → Prop) (o : ApplyOracle)
    (s : Node Key Sig) : Prop :=
  ∃ c, Settled env U o s.1.index c ∧ At U s.1.index (.entry c.id) s.2.blog c.toBlockData s

theorem Stocked.forest (h : Stocked env U idx) : IsForest idx.links := isForest_of_sound h.sound

theorem Stocked.clear (h : Stocked env U idx) (hb : b ∈ idx.entries)
    (hp : ∃ p ∈ idx.entries, p.id = b.header.previous) : ¬ U b.id := by
  intro hU
  obtain ⟨p, hp, hid⟩ := hp
  have hlow := h.low _ hU p hp
  have hlevel : b.blockNum = p.blockNum + 1 :=
    h.forest.level _ (link_mem hb) _ (link_mem hp) hid.symm
  rw [(h.sound b hb).numFromId] at hlow
  omega

theorem Stocked.subset (h : Stocked env U idx) (hsub : ∀ b ∈ idx'.entries, b ∈ idx.entries) :
    Stocked env U idx' where
  sound b hb := h.sound b (hsub b hb)
  blocks b hb hp := by
    obtain ⟨p, hp, hid⟩ := hp
    exact h.blocks b (hsub b hb) ⟨p, hsub p hp, hid⟩
  low i hi b hb := h.low i hi b (hsub b hb)

theorem Stocked.same (h : Stocked env U idx) (hsame : SameData idx idx') : Stocked env U idx' where
  sound := hsame.forall (P := Sound env) h.sound
  blocks := hsame.forall (P := fun d => (∃ p ∈ idx'.entries, p.id = d.header.previous) →
    d.block.isSome) fun b hb hp =>
      h.blocks b hb (hsame.symm.exists (P := fun d => d.id = b.header.previous) hp)
  low i hi := hsame.forall (P := fun d => (numFromId i).toNat ≤ d.blockNum) (h.low i hi)

theorem Settled.same (h : Settled env U o idx c) (hsame : SameData idx idx') :
    ∃ c', c'.toBlockData = c.toBlockData ∧ Settled env U o idx' c' := by
  obtain ⟨c', hc', hcdata⟩ := hsame.head h.first
  refine ⟨c', hcdata, h.toStocked.same hsame, hc', hsame.forall (P := fun d =>
    Anc idx'.links c'.id d.id → (∃ p ∈ idx'.entries, p.id = d.header.previous) →
      o.throws d.header.previous d.id = none) fun b hb hanc hp => ?_⟩
  rw [hsame.links, hcdata] at hanc
  exact h.applies b hb hanc (hsame.symm.exists (P := fun d => d.id = b.header.previous) hp)

theorem Settled.head_eq (h : Settled env U o t.1.index c)
    (hat : At U t.1.index (.entry c.id) blog c.toBlockData t) : t.1.head = some c :=
  head_of_mem hat.headPtr (mem_of_head h.first)

theorem Settled.synced (h : Settled env U o idx c)
    (hat : At U idx (.entry c.id) blog c.toBlockData t) : Synced env U o t := by
  obtain ⟨c', hdata, hset⟩ := h.same hat.same
  refine ⟨c', hset, SameData.refl _, ?_, ?_, fun j => ?_⟩
  · rw [hat.headPtr, hdata]
  · rw [hat.ctl, hdata]
  · rw [hat.marks j, hat.same.links, hdata]

/-! ## A new block -/

/-- `n` is a new state on top of one of the index, and no state of the index is on top of it. -/
structure Joins (env : ChainEnv Key Sig) (idx : ForkIndex Key Sig) (n : BlockState Key Sig) :
    Prop where
  sound : Sound env n.toBlockData
  block : n.block = some n.header
  unmarked : n.inCurrentChain = false
  parent : ∃ p ∈ idx.entries, p.id = n.header.previous
  fresh : ∀ b ∈ idx.entries, b.id ≠ n.id
  childless : ∀ b ∈ idx.entries, b.header.previous ≠ n.id

theorem Joins.exists_parent (hj : Joins env idx n)
    (hsound : ∀ b ∈ idx.entries, Sound env b.toBlockData) :
    ∃ p ∈ idx.entries, p.id = n.header.previous ∧ n.blockNum = p.blockNum + 1 := by
  obtain ⟨p, hp, hid⟩ := hj.parent
  exact ⟨p, hp, hid, by rw [← hj.sound.num, ← hid, (hsound p hp).numFromId]⟩

theorem anc_insert (hins : idx.insert n = some idx') {i j : Sha256} (h : Anc idx.links i j) :
    Anc idx'.links i j := by
  rw [links_insert hins]
  exact h.mono fun x hx => List.mem_append_left _ hx

section Insert

variable (hj : Joins env idx n) (hins : idx.insert n = some idx')

include hj hins

theorem Joins.anc_iff {i j : Sha256} (hi : i ≠ n.id) : Anc idx'.links i j ↔ Anc idx.links i j := by
  rw [links_insert hins]
  refine anc_append_iff (fun x hx => ?_) hi
  obtain ⟨b, hb, rfl⟩ := mem_links.mp hx
  exact hj.childless b hb

/-- A state with its predecessor in the index after the insertion had it there before. -/
theorem Joins.pred (hb : b ∈ idx'.entries) (hp : ∃ p ∈ idx'.entries, p.id = b.header.previous) :
    ∃ p ∈ idx.entries, p.id = b.header.previous := by
  obtain ⟨p, hp, hid⟩ := hp
  rcases (mem_insert hins).mp hb with hb | rfl
  · rcases (mem_insert hins).mp hp with hp | rfl
    · exact ⟨p, hp, hid⟩
    · exact absurd hid.symm (hj.childless b hb)
  · exact hj.parent

theorem Joins.stocked (h : Stocked env U idx) : Stocked env U idx' := by
  obtain ⟨p, hp, -, hnum⟩ := hj.exists_parent h.sound
  refine ⟨(forall_mem_insert hins).mpr ⟨h.sound, hj.sound⟩, fun b hb hpred => ?_,
    fun i hi => (forall_mem_insert hins).mpr ⟨h.low i hi, ?_⟩⟩
  · have hpred := hj.pred hins hb hpred
    rcases (mem_insert hins).mp hb with hb | rfl
    · exact h.blocks b hb hpred
    · rw [hj.block]
      rfl
  · have := h.low i hi p hp
    omega

theorem Joins.applies (h : Settled env U o idx c) (hb : b ∈ idx'.entries)
    (hanc : Anc idx'.links c.id b.id) (hpred : ∃ p ∈ idx'.entries, p.id = b.header.previous) :
    o.throws b.header.previous b.id = none := by
  have hcn := hj.fresh c (mem_of_head h.first)
  have hanc := (hj.anc_iff hins hcn).mp hanc
  obtain ⟨a, ha, hid⟩ := exists_of_anc_right hanc
  have hb' : b ∈ idx.entries := by
    rcases (mem_insert hins).mp hb with hb | rfl
    · exact hb
    · exact absurd hid (hj.fresh a ha)
  exact h.applies b hb' hanc (hj.pred hins hb hpred)

/-- A new block that is not better than the head leaves it the best. -/
theorem Joins.settled (h : Settled env U o idx c) (hworse : ¬ n.libKey < c.libKey) :
    Settled env U o idx' c := by
  refine ⟨hj.stocked hins h.toStocked, ?_, fun b hb => hj.applies hins h hb⟩
  rw [head_insert hins, h.first]
  exact if_neg hworse

theorem Joins.contest (h : Settled env U o idx c) (hbetter : n.libKey < c.libKey) :
    Contest U o idx' n c := by
  have hstock := hj.stocked hins h.toStocked
  refine ⟨hstock.forest, hstock.blocks, fun b => hstock.clear, fun b hb => hj.applies hins h hb, ?_⟩
  rw [(insert_eq_some hins).2.2.2]
  have hfirst := h.first
  cases hlist : idx.byLibBlockNum with
  | nil =>
    rw [hlist] at hfirst
    simp at hfirst
  | cons a l =>
    rw [hlist] at hfirst
    obtain rfl := Option.some.inj hfirst
    exact ⟨l, OrderedIndex.insert_front hbetter⟩

theorem Joins.marked_iff {j : Sha256} : idx'.Marked j ↔ idx.Marked j := by
  constructor
  · rintro ⟨b, hb, hid, hmark⟩
    rcases (mem_insert hins).mp hb with hb | rfl
    · exact ⟨b, hb, hid, hmark⟩
    · rw [hj.unmarked] at hmark
      simp at hmark
  · rintro ⟨b, hb, hid, hmark⟩
    exact ⟨b, (mem_insert hins).mpr (Or.inl hb), hid, hmark⟩

end Insert

/-- **The state after the insertion of `add`.** -/
theorem Joins.at (hj : Joins env s.1.index n) (hins : s.1.index.insert n = some idx')
    (hat : At U s.1.index (.entry c.id) blog c.toBlockData s) (hc : c ∈ s.1.index.entries)
    {ptr : HeadPtr Key Sig} : At U idx' ptr blog c.toBlockData (⟨idx', ptr⟩, s.2) := by
  refine ⟨SameData.refl _, rfl, hat.ctl, fun j => ?_⟩
  rw [hj.marked_iff hins, hat.marks j, hj.anc_iff hins (hj.fresh c hc)]

/-! ## `maybe_switch_forks` keeps the invariant -/

/-- **What a push ends in** once the blocks of `idx` are in the database and `c` was the head: the
invariant holds with all of them, or without a block below `n` that threw and what is built on it,
and then the controller is as it was. -/
inductive PushEnd (env : ChainEnv Key Sig) (U : Sha256 → Prop) (o : ApplyOracle)
    (idx : ForkIndex Key Sig) (n c : BlockState Key Sig) (blog : BlockLog Key Sig) :
    EStateM.Result FcException (Node Key Sig) Unit → Prop where
  | done {t : Node Key Sig} (synced : Synced env U o t)
      (same : SameData idx t.1.index) (log : t.2.blog = blog) : PushEnd env U o idx n c blog (.ok () t)
  | undone {t : Node Key Sig} {e : FcException}
      {f : BlockState Key Sig} (synced : Synced env U o t) (mem : f ∈ idx.entries)
      (above : Anc idx.links n.id f.id) (throws : o.throws f.header.previous f.id = some e)
      (same : SameData (idx.removed f.id) t.1.index) (ctl : t.2 = ⟨c.toBlockData, blog⟩) :
      PushEnd env U o idx n c blog (.error e t)

/-- Without the failed block and what is built on it, the old head is settled again. -/
theorem Contest.settled (hc : Contest U o idx n c) (hstock : Stocked env U idx)
    {f : BlockState Key Sig} (hf : f ∈ idx.entries) (hn : Anc idx.links n.id f.id)
    (hnot : ¬ Anc idx.links c.id f.id) : Settled env U o (idx.removed f.id) c := by
  have hsub : ∀ b ∈ (idx.removed f.id).entries, b ∈ idx.entries := fun b hb =>
    ((mem_removed hf).mp hb).1
  refine ⟨hstock.subset hsub, hc.head_removed hf hn hnot, fun b hb hanc hp => ?_⟩
  obtain ⟨p, hp, hid⟩ := hp
  exact hc.applies b (hsub b hb) ((anc_removed_iff hf hnot).mp hanc) ⟨p, hsub p hp, hid⟩

theorem SwitchEnd.pushEnd {r : EStateM.Result FcException _ Unit} (hc : Contest U o idx n c)
    (hstock : Stocked env U idx) (h : SwitchEnd U o idx n c blog r) :
    PushEnd env U o idx n c blog r := by
  cases h with
  | switched hat happ =>
    have hset : Settled env U o idx n := ⟨hstock, hc.first, happ⟩
    exact PushEnd.done (hset.synced hat) hat.same (by rw [hat.ctl])
  | failed hmem habove hnot hthrow hat =>
    exact PushEnd.undone ((hc.settled hstock hmem habove hnot).synced hat) hmem habove hthrow
      hat.same hat.ctl

/-- **`maybe_switch_forks` with a better head.** -/
theorem maybeSwitchForks_contest (readMode : DbReadMode) (hstock : Stocked env U t.1.index)
    (hc : Contest U o t.1.index n c) (hat : At U t.1.index (.entry n.id) blog c.toBlockData t)
    (hmeet : n.header.previous = c.id ∨ ∃ f ∈ t.1.index.entries,
      Anc t.1.index.links n.header.previous f.id ∧ Anc t.1.index.links c.header.previous f.id) :
    PushEnd env U o t.1.index n c blog (maybeSwitchForks o readMode t) :=
  (maybeSwitchForks_spec readMode hc hat hmeet).pushEnd hc hstock

/-- **`maybe_switch_forks` with the head the controller has.** -/
theorem maybeSwitchForks_settled (readMode : DbReadMode) (hset : Settled env U o t.1.index c)
    (hat : At U t.1.index (.entry c.id) blog c.toBlockData t) :
    PushEnd env U o t.1.index n c blog (maybeSwitchForks o readMode t) := by
  have hmem := mem_of_head hset.first
  have hhead := hset.head_eq hat
  have hctl : t.2.head = c.toBlockData := by rw [hat.ctl]
  have hself : c.header.previous ≠ c.id := fun h =>
    not_anc_previous hset.forest hmem (by rw [h]; exact Anc.refl (link_mem hmem))
  unfold maybeSwitchForks
  rw [get_bind, Controller.get_bind, hhead]
  simp only [hctl]
  rw [if_neg hself, if_neg (not_not.mpr rfl)]
  exact PushEnd.done (hset.synced hat) (SameData.refl _) (by rw [hat.ctl])

/-! ## One push -/

variable {irr : BlockState Key Sig → ControllerM Key Sig Unit}

theorem Joins.add (hj : Joins env s.1.index n) (hins : s.1.index.insert n = some idx')
    (hhead : s.1.head.isSome) :
    add irr n false s = pruneOldest irr (⟨idx', idx'.firstPtr⟩, s.2) := by
  obtain ⟨p, hp, hid⟩ := hj.parent
  have hprev : validatePrevious n s = .ok () s := by
    unfold validatePrevious
    rw [get_bind, hj.block]
    refine assert_eq_ok.mpr ⟨?_, rfl⟩
    rw [find_eq_some_iff.mpr ⟨hp, hid⟩]
    rfl
  unfold ForkDatabase.add
  rw [get_bind, assert_bind_of hhead]
  simp only [Bool.not_false, if_true]
  rw [bind_of_ok hprev,
    bind_of_ok (insertBest_eq_ok_iff (u := ()) |>.mpr ⟨idx', hins, rfl⟩)]

/-- The end of `add` when the head's irreversible number is not past the lowest block. -/
theorem pruneOldest_of_le {h oldest : BlockState Key Sig} (hh : t.1.head = some h)
    (ho : t.1.index.byBlockNum.head? = some oldest)
    (hle : h.dposIrreversibleBlocknum ≤ oldest.blockNum) : pruneOldest irr t = .ok () t := by
  unfold pruneOldest
  rw [get_bind]
  simp only [hh, ho]
  rw [if_neg (not_lt.mpr hle)]
  rfl

section Push

variable [Inhabited Sig] [DecidableEq Key] {blk : SignedBlockHeader Key Sig} {readMode : DbReadMode}

theorem createBlockState_ok (h : createBlockState env blk s = .ok n t) :
    t = s ∧ s.1.index.find (blk.toBlockHeader.id env) = none ∧
      ∃ p, s.1.index.find blk.previous = some p ∧ newState env p blk false = .ok n := by
  unfold createBlockState at h
  rw [get_bind, assert_bind_ok, Option.isNone_iff_eq_none] at h
  obtain ⟨hnew, h⟩ := h
  cases hp : s.1.index.find blk.previous with
  | none =>
    rw [hp] at h
    simp [Exec.lift] at h
  | some p =>
    rw [hp] at h
    obtain ⟨hn, hs⟩ := Exec.lift_ok.mp h
    exact ⟨hs, hnew, p, rfl, hn⟩

theorem createBlockState_error {e : FcException}
    (h : createBlockState env blk s = .error e t) : t = s := by
  unfold createBlockState at h
  rw [get_bind] at h
  by_cases hnew : (s.1.index.find (blk.toBlockHeader.id env)).isNone
  · rw [assert_bind_of hnew] at h
    cases hp : s.1.index.find blk.previous with
    | none =>
      rw [hp] at h
      cases h
      rfl
    | some p =>
      rw [hp] at h
      simp only [Exec.lift] at h
      split at h
      · simp at h
      · cases h
        rfl
  · rw [bind_of_error (assert_of_not hnew)] at h
    cases h
    rfl

theorem joins_of_created (hstock : Stocked env U s.1.index)
    (h : createBlockState env blk s = .ok n t)
    (hchild : ∀ b ∈ s.1.index.entries, b.header.previous ≠ n.id) : Joins env s.1.index n := by
  obtain ⟨-, hnew, p, hp, hn⟩ := createBlockState_ok h
  obtain ⟨hp, hid⟩ := find_eq_some_iff.mp hp
  obtain ⟨hsound, hheader, hblock, hprev, -⟩ := (hstock.sound p hp).newState hn
  refine ⟨hsound, by rw [hblock, hheader], (newState_eq_ok hn).2.2.2, ⟨p, hp, hprev.symm⟩,
    fun b hb => ?_, hchild⟩
  rw [hsound.id, hheader]
  exact find_eq_none_iff.mp hnew b hb

/-- What is pushed is added, then the forks may be switched. -/
theorem pushBlock_eq (hmode : readMode ≠ .irreversible) (hn : createBlockState env blk s = .ok n s)
    (hadd : add (onIrreversible env o readMode) n false s = .ok () t) :
    pushBlock env o readMode blk s = maybeSwitchForks o readMode t := by
  unfold pushBlock Controller.pushState
  rw [bind_of_ok hn, bind_of_ok hadd, if_pos hmode]

/-- The state created for a block, if it is. -/
def created (env : ChainEnv Key Sig) (s : Node Key Sig)
    (blk : SignedBlockHeader Key Sig) : Option (BlockState Key Sig) :=
  match createBlockState env blk s with
  | .ok n _ => some n
  | .error _ _ => none

theorem mem_created (h : createBlockState env blk s = .ok n t) : n ∈ created env s blk := by
  unfold created
  rw [h]
  exact rfl

/-- `add` prunes nothing when the block is pushed. -/
def PrunesNothing (env : ChainEnv Key Sig) (s : Node Key Sig)
    (blk : SignedBlockHeader Key Sig) : Prop :=
  ∀ n ∈ created env s blk, ∀ idx ∈ s.1.index.insert n, ∀ h ∈ idx.byLibBlockNum.head?,
    ∀ oldest ∈ idx.byBlockNum.head?, h.dposIrreversibleBlocknum ≤ oldest.blockNum

instance : Decidable (PrunesNothing env s blk) := by
  unfold PrunesNothing
  infer_instance

/-- If the block is better than the head, then it is built on the head, or its branch and that of
the head have a block in common below both. No block in the database is already built on it. -/
def BranchesMeet (env : ChainEnv Key Sig) (s : Node Key Sig)
    (blk : SignedBlockHeader Key Sig) : Prop :=
  ∀ n ∈ created env s blk, ∀ c ∈ s.1.head, (∀ b ∈ s.1.index.entries, b.header.previous ≠ n.id) ∧
    (n.libKey < c.libKey → n.header.previous = c.id ∨ ∃ f ∈ s.1.index.entries,
      Anc s.1.index.links n.header.previous f.id ∧ Anc s.1.index.links c.header.previous f.id)

/-- The condition checked by going down from both blocks. -/
theorem branchesMeet_of_isAnc (h : ∀ n ∈ created env s blk, ∀ c ∈ s.1.head,
      (∀ b ∈ s.1.index.entries, b.header.previous ≠ n.id) ∧
      (n.libKey < c.libKey → n.header.previous = c.id ∨ ∃ f ∈ s.1.index.entries,
        isAnc s.1.index.links s.1.index.entries.length n.header.previous f.id ∧
          isAnc s.1.index.links s.1.index.entries.length c.header.previous f.id)) :
    BranchesMeet env s blk := by
  intro n hn c hc
  obtain ⟨hchild, hmeet⟩ := h n hn c hc
  refine ⟨hchild, fun hbetter => ?_⟩
  rcases hmeet hbetter with hext | ⟨f, hf, hnf, hcf⟩
  · exact Or.inl hext
  · exact Or.inr ⟨f, hf, anc_of_isAnc hnf, anc_of_isAnc hcf⟩

/-- **One push** of a block whose state can be created. -/
theorem pushBlock_spec (hmode : readMode ≠ .irreversible) (hset : Settled env U o s.1.index c)
    (hat : At U s.1.index (.entry c.id) s.2.blog c.toBlockData s)
    (hn : createBlockState env blk s = .ok n s) (hprune : PrunesNothing env s blk)
    (hmeet : BranchesMeet env s blk) :
    ∃ idx, s.1.index.insert n = some idx ∧
      PushEnd env U o idx n c s.2.blog (pushBlock env o readMode blk s) := by
  have hmem := mem_of_head hset.first
  have hhead := hset.head_eq hat
  obtain ⟨hchild, hcommon⟩ := hmeet n (mem_created hn) c hhead
  have hj := joins_of_created hset.toStocked hn hchild
  obtain ⟨idx, hins⟩ := insert_of_fresh hj.fresh
  refine ⟨idx, hins, ?_⟩
  have hat' : ∀ h : BlockState Key Sig,
      At U idx (.entry h.id) s.2.blog c.toBlockData (⟨idx, .entry h.id⟩, s.2) :=
    fun h => hj.at hins hat hmem
  have hadd : ∀ h, idx.byLibBlockNum.head? = some h →
      add (onIrreversible env o readMode) n false s =
        .ok () (⟨idx, .entry h.id⟩, s.2) := by
    intro h hh
    rw [hj.add hins (by rw [hhead]; rfl), firstPtr_of_head hh]
    obtain ⟨oldest, ho⟩ := exists_oldest (mem_of_head hh)
    exact pruneOldest_of_le (find_of_mem (mem_of_head hh)) ho
      (hprune n (mem_created hn) idx hins h hh oldest ho)
  by_cases hbetter : n.libKey < c.libKey
  · have hc := hj.contest hins hset hbetter
    rw [pushBlock_eq hmode hn (hadd n hc.first)]
    refine maybeSwitchForks_contest (t := (⟨idx, .entry n.id⟩, s.2)) readMode
      (hj.stocked hins hset.toStocked) hc (hat' n) ?_
    rcases hcommon hbetter with hext | ⟨f, hf, hnf, hcf⟩
    · exact Or.inl hext
    · exact Or.inr ⟨f, (mem_insert hins).mpr (Or.inl hf), anc_insert hins hnf, anc_insert hins hcf⟩
  · have hset' := hj.settled hins hset hbetter
    rw [pushBlock_eq hmode hn (hadd c hset'.first)]
    exact maybeSwitchForks_settled (t := (⟨idx, .entry c.id⟩, s.2)) readMode hset' (hat' c)

/-! ## Runs -/

/-- `P` holds of each push of a run, in the state it finds. A push that throws does not end the
run. -/
def Along (env : ChainEnv Key Sig) (o : ApplyOracle) (readMode : DbReadMode)
    (P : Node Key Sig → SignedBlockHeader Key Sig → Prop) :
    List (SignedBlockHeader Key Sig) → Node Key Sig → Prop
  | [], _ => True
  | blk :: rest, s =>
    P s blk ∧ Along env o readMode P rest (stateOf (pushBlock env o readMode blk s))

/-- What each push does in the states that satisfy an invariant it keeps. -/
theorem along_of_invariant {I : Node Key Sig → Prop}
    {P Q : Node Key Sig → SignedBlockHeader Key Sig → Prop} (hstep : ∀ s blk, I s → P s blk →
      I (stateOf (pushBlock env o readMode blk s)) ∧ Q s blk) :
    ∀ (blks : List (SignedBlockHeader Key Sig)) (s : Node Key Sig),
      I s → Along env o readMode P blks s → Along env o readMode Q blks s
  | [], _, _, _ => trivial
  | blk :: rest, s, hI, hP => by
    obtain ⟨hI', hQ⟩ := hstep s blk hI hP.1
    exact ⟨hQ, along_of_invariant hstep rest _ hI' hP.2⟩

/-- The head of the controller is the head of the fork database, and exactly it and its ancestors
are marked. -/
def HeadsAgree (s : Node Key Sig) : Prop :=
  ∃ h, s.1.head = some h ∧ s.2.head = h.toBlockData ∧
    ∀ b ∈ s.1.index.entries, b.inCurrentChain = true ↔ Anc s.1.index.links h.id b.id

/-- A switch to the new block `n` failed with `e`: the controller has its old head, and the blocks of
the database and `n` are there, except one on the branch of `n` that threw `e` and all its
descendants. -/
def SwitchUndone (o : ApplyOracle) (s : Node Key Sig) (n : BlockState Key Sig) (e : FcException)
    (t : Node Key Sig) : Prop :=
  t.2.head = s.2.head ∧
  ∃ f ∈ s.1.index.entries ++ [n], o.throws f.header.previous f.id = some e ∧
    Anc (s.1.index.links ++ [n.link]) n.id f.id ∧
    ∀ d, (∃ b ∈ t.1.index.entries, b.toBlockData = d) ↔
      (∃ b ∈ s.1.index.entries ++ [n], b.toBlockData = d) ∧
        ¬ Anc (s.1.index.links ++ [n.link]) d.id f.id

/-- What a push leaves behind: heads and marks that agree, and when it threw, the state it found if
the block was refused, and otherwise that of a switch undone. -/
def PushAgrees (env : ChainEnv Key Sig) (o : ApplyOracle) (readMode : DbReadMode)
    (s : Node Key Sig) (blk : SignedBlockHeader Key Sig) : Prop :=
  HeadsAgree (stateOf (pushBlock env o readMode blk s)) ∧
  ∀ e t, pushBlock env o readMode blk s = .error e t →
    (createBlockState env blk s = .error e s ∧ t = s) ∨
      ∃ n, createBlockState env blk s = .ok n s ∧ SwitchUndone o s n e t

end Push

theorem Synced.headsAgree (h : Synced env (fun _ => False) o s) : HeadsAgree s := by
  obtain ⟨c, hset, hat⟩ := h
  refine ⟨c, hset.head_eq hat, by rw [hat.ctl], fun b hb => ?_⟩
  rw [← Chain.marked_iff hb, hat.marks]
  exact and_iff_left not_false

theorem PushEnd.switchUndone {e : FcException}
    (hins : s.1.index.insert n = some idx) (hctl : s.2.head = c.toBlockData)
    (h : PushEnd env U o idx n c blog (.error e t)) : SwitchUndone o s n e t := by
  cases h with
  | @undone _ _ f hsync hmem habove hthrow hsame hc =>
    refine ⟨by rw [hc, hctl], f, ?_, hthrow, ?_, fun d => ?_⟩
    · rwa [← (insert_eq_some hins).2.1]
    · rwa [← links_insert hins]
    · rw [← links_insert hins, ← (insert_eq_some hins).2.1]
      constructor
      · rintro ⟨b, hb, rfl⟩
        obtain ⟨a, ha, hdata⟩ := hsame.symm.exists_mem hb
        obtain ⟨ha, hnot⟩ := (mem_removed hmem).mp ha
        exact ⟨⟨a, ha, hdata⟩, by rwa [← hdata]⟩
      · rintro ⟨⟨a, ha, rfl⟩, hnot⟩
        exact hsame.exists_mem ((mem_removed hmem).mpr ⟨ha, hnot⟩)

/-! ## Where runs start -/

/-- A database that was given its first state, and a controller with that head. -/
def startNode (env : ChainEnv Key Sig) (root : BlockState Key Sig) (blog : BlockLog Key Sig) :
    Node Key Sig :=
  stateOf (set env root (empty, ⟨root.toBlockData, blog⟩))

theorem startNode_eq (blog : BlockLog Key Sig) {root : BlockState Key Sig}
    (hroot : Sound env root.toBlockData) :
    ∃ idx : ForkIndex Key Sig, idx.entries = [root] ∧ idx.byBlockNum = [root] ∧
      idx.byLibBlockNum = [root] ∧
      startNode env root blog = (⟨idx, .entry root.id⟩, ⟨root.toBlockData, blog⟩) := by
  obtain ⟨idx, hins⟩ : ∃ idx, empty.insert root = some idx :=
    insert_of_fresh fun b hb => absurd hb List.not_mem_nil
  obtain ⟨-, hentries, hnum, hlib⟩ := insert_eq_some hins
  refine ⟨idx, hentries, hnum, hlib, ?_⟩
  have hset : set env root
      ((empty, ⟨root.toBlockData, blog⟩) : Node Key Sig) =
      .ok () (⟨idx, .entry root.id⟩, ⟨root.toBlockData, blog⟩) := by
    unfold ForkDatabase.set
    simp only [ForkDatabase.empty]
    rw [get_bind, put_bind, assert_bind_ok, assert_bind_ok, get_bind]
    simp only [hins, Option.getD_some, head, Option.all_none]
    exact ⟨hroot.id, rfl, rfl⟩
  unfold startNode
  rw [hset]
  rfl

/-- **The first state is in sync** if it is marked or is one of the states that never are. -/
theorem synced_start {root : BlockState Key Sig} (hroot : Sound env root.toBlockData)
    (hmark : root.inCurrentChain = true ↔ ¬ U root.id) (hU : ∀ i, U i → i = root.id) :
    Synced env U o (startNode env root blog) := by
  obtain ⟨idx, hentries, hnum, hlib, hstart⟩ := startNode_eq blog hroot
  rw [hstart]
  have hone : ∀ {P : BlockState Key Sig → Prop}, P root → ∀ b ∈ idx.entries, P b := fun h b hb =>
    List.mem_singleton.mp (hentries ▸ hb) ▸ h
  have hrmem : root ∈ idx.entries := hentries ▸ List.mem_singleton_self root
  have hsound : ∀ b ∈ idx.entries, Sound env b.toBlockData := hone hroot
  -- the root is not its own predecessor
  have hnopred : ∀ b ∈ idx.entries, ¬ ∃ p ∈ idx.entries, p.id = b.header.previous := by
    refine hone fun ⟨p, hp, hid⟩ => not_anc_previous (isForest_of_sound hsound) hrmem ?_
    rw [← hid, hone (P := fun b => b.id = root.id) rfl p hp]
    exact Anc.refl (link_mem hrmem)
  refine ⟨root, ⟨⟨hsound, fun b hb hp => absurd hp (hnopred b hb), fun i hi => hone ?_⟩, ?_,
    fun b hb _ hp => absurd hp (hnopred b hb)⟩, SameData.refl _, rfl, rfl, fun j => ?_⟩
  · rw [hU i hi, hroot.numFromId]
  · show idx.byLibBlockNum.head? = some root
    rw [hlib]
    rfl
  · show idx.Marked j ↔ Anc idx.links root.id j ∧ ¬ U j
    constructor
    · rintro ⟨b, hb, rfl, hb'⟩
      exact hone (P := fun b => b.inCurrentChain = true → Anc idx.links root.id b.id ∧ ¬ U b.id)
        (fun h => ⟨Anc.refl (link_mem hrmem), hmark.mp h⟩) b hb hb'
    · rintro ⟨hanc, hj⟩
      obtain ⟨b, hb, rfl⟩ := exists_of_anc_right hanc
      exact ⟨b, hb, rfl, hone (P := fun b => ¬ U b.id → b.inCurrentChain = true) hmark.mpr b hb hj⟩

section Run

variable [Inhabited Sig] [DecidableEq Key] {readMode : DbReadMode}

/-- **One push keeps the invariant**, returned or thrown. -/
theorem Synced.push {blk : SignedBlockHeader Key Sig} (hmode : readMode ≠ .irreversible)
    (hs : Synced env (fun _ => False) o s) (hprune : PrunesNothing env s blk)
    (hmeet : BranchesMeet env s blk) :
    Synced env (fun _ => False) o (stateOf (pushBlock env o readMode blk s)) ∧
      PushAgrees env o readMode s blk := by
  suffices h : Synced env (fun _ => False) o
      (stateOf (pushBlock env o readMode blk s)) ∧
      ∀ e t, pushBlock env o readMode blk s = .error e t →
        (createBlockState env blk s = .error e s ∧ t = s) ∨
          ∃ n, createBlockState env blk s = .ok n s ∧ SwitchUndone o s n e t from
    ⟨h.1, h.1.headsAgree, h.2⟩
  cases hn : createBlockState env blk s with
  | error e s' =>
    obtain rfl := createBlockState_error hn
    have hpush : pushBlock env o readMode blk s' = .error e s' := bind_of_error hn
    rw [hpush]
    refine ⟨hs, fun e' t ht => Or.inl ?_⟩
    cases ht
    exact ⟨rfl, rfl⟩
  | ok n s' =>
    obtain rfl := (createBlockState_ok hn).1
    obtain ⟨c, hset, hat⟩ := hs
    obtain ⟨idx, hins, hend⟩ := pushBlock_spec hmode hset hat hn hprune hmeet
    generalize pushBlock env o readMode blk s' = r at hend
    refine ⟨?_, fun e t ht => Or.inr ⟨n, rfl, ?_⟩⟩
    · cases hend with
      | done hsync _ _ => exact hsync
      | undone hsync _ _ _ _ _ => exact hsync
    · rw [ht] at hend
      exact hend.switchUndone hins (by rw [hat.ctl])

/-- **Fork choice and chain marking agree after every push** of a run in which nothing is pruned and
the branches meet, from a state in which they do: whether it returned or threw, the controller's
head is the head of the fork database, exactly the head and its ancestors are marked, and a switch
that failed is undone, without the block that failed and its descendants. -/
theorem heads_agree (env : ChainEnv Key Sig) (o : ApplyOracle) (hmode : readMode ≠ .irreversible)
    (blks : List (SignedBlockHeader Key Sig)) (s : Node Key Sig)
    (hs : Synced env (fun _ => False) o s) (hrun : Along env o readMode
      (fun s blk => PrunesNothing env s blk ∧ BranchesMeet env s blk) blks s) :
    Along env o readMode (PushAgrees env o readMode) blks s :=
  along_of_invariant (fun _ _ hs h => hs.push hmode h.1 h.2) blks s hs hrun

end Run

/-! ## Two runs -/

/-- Blocks of a toy chain that cannot be applied. -/
def toyOracle (bad : List Sha256) : ApplyOracle where
  throws _ block := if block ∈ bad then some ⟨.blockValidateException, "bad block"⟩ else none
  defined _ block e h := by
    split at h
    · cases h
      exact ExceptionType.noConfusion
    · simp at h

/-- The state after a toy node was sent the blocks. -/
def toyPushes (o : ApplyOracle) (blks : List (SignedBlockHeader Nat Nat)) (s : Node Nat Nat) :
    Node Nat Nat :=
  blks.foldl (fun s blk => stateOf (pushBlock toyEnv o .head blk s)) s

/-- A node started from a snapshot at block 8 of a toy chain with four producers. -/
def snapshotNode : Node Nat Nat :=
  let head := (toyChain [1, 2, 3, 4] (droppedHeaders.take 7)).headD
    ((toyGenesis [1]).headerState toyEnv)
  startNode toyEnv { toBlockHeaderState := head, block := none, inCurrentChain := true } ⟨9, none⟩

/-- The node gets block 9, whose irreversible number goes back from 3 to 0, so that block 8 stays
the best. Block 10 has the irreversible number 6, and the switch to it pops block 8, whose
predecessor is not in the database. Then block 10 is the head of the database and block 8 that of
the controller, and no block was pruned. -/
theorem heads_disagree :
    let s := toyPushes (toyOracle []) [toyHeader 8 10 12 1 2 1 none] snapshotNode
    let r := pushBlock toyEnv (toyOracle []) .head (toyHeader 9 12 13 4 2 1 none) s
    HeadsAgree snapshotNode ∧ Exec.thrown r = some ⟨.blockValidateException,
        "attempt to pop beyond last irreversible block"⟩ ∧
      (stateOf r).1.index.entries.map (fun b => b.blockNum) = [8, 9, 10] ∧
      ¬ HeadsAgree (stateOf r) := by
  intro s r
  refine ⟨(synced_start (o := toyOracle []) ⟨rfl, by decide, by decide, by decide⟩
    (iff_of_true rfl not_false) fun i hi => hi.elim).headsAgree, by decide +kernel,
      by decide +kernel, ?_⟩
  have hne : ∀ h ∈ (stateOf r).1.head, (stateOf r).2.head.id ≠ h.id := by decide +kernel
  generalize stateOf r = t at hne
  rintro ⟨h, hh, hdata, -⟩
  exact hne h hh (by rw [hdata])

/-- Two blocks 2 on the first block, and a block 3 on the second of them that cannot be applied: the
switch to it is undone. -/
theorem heads_agree_undone :
    Along toyEnv (toyOracle [toyId 3 4]) .head (PushAgrees toyEnv (toyOracle [toyId 3 4]) .head)
      [toyHeader 1 1 2 3 0 0 none, toyHeader 1 1 3 1 0 0 none, toyHeader 2 3 4 2 0 0 none]
      (startNode toyEnv { toyRoot [1, 2, 3] with inCurrentChain := true } ⟨2, none⟩) := by
  refine heads_agree toyEnv (toyOracle [toyId 3 4]) (by decide) _ _ (synced_start ?_ ?_ ?_)
    ⟨⟨by decide, branchesMeet_of_isAnc (by decide)⟩, ⟨by decide, branchesMeet_of_isAnc (by decide)⟩,
      ⟨by decide, branchesMeet_of_isAnc (by decide)⟩, trivial⟩
  · exact ⟨rfl, by decide, by decide, by decide⟩
  · exact iff_of_true rfl not_false
  · exact fun i hi => hi.elim

end Forceio.Chain
