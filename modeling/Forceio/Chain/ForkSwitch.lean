import Forceio.Chain.Controller
import Forceio.Chain.ForkTree

/-!
# Switching forks: `maybe_switch_forks`

The switch pops the old branch block by block, clearing marks, and applies the new one, setting
them. One invariant goes through all of its states: `At U idx ptr blog h t` says that `t` has the
blocks of `idx` and that the marked ones are the controller's head `h` and its ancestors.

* `U` are ids that never carry a mark: the genesis state is put into the database without one.

Results:
* `At.switchBack`: after a block that cannot be applied the old branch is the current chain again.
* `applyBranch_spec`, `switchTo_spec`, `extendHead_spec`: what a switch can end in.
-/

namespace Forceio.Chain

open Forceio.Lib Forceio.Lib.Forest ForkDatabase ForkIndex BlockState List
open Controller (applyBlock applyBlock_of_none applyBlock_of_some applyBranch assertInSync
  attempt_of_error attempt_of_ok extendHead maybeSwitchForks popBlock switchTo)
open Exec (bind_of_ok)

variable {Key Sig : Type}

/-! ## Marks -/

/-- The state with id `i` is marked as part of the current chain. -/
def ForkIndex.Marked (idx : ForkIndex Key Sig) (i : Sha256) : Prop :=
  ∃ b ∈ idx.entries, b.id = i ∧ b.inCurrentChain = true

variable {idx idx' : ForkIndex Key Sig} {i j : Sha256}

theorem marked_iff {b : BlockState Key Sig} (hb : b ∈ idx.entries) :
    idx.Marked b.id ↔ b.inCurrentChain = true := by
  constructor
  · rintro ⟨c, hc, hid, hmark⟩
    rwa [eq_of_id hc hb hid] at hmark
  · exact fun h => ⟨b, hb, rfl, h⟩

theorem marked_modify {f : BlockState Key Sig → BlockState Key Sig} {hf : ∀ b, (f b).id = b.id} :
    (idx.modify i f hf).Marked j ↔ ∃ a ∈ idx.entries, a.id = j ∧
      (if a.id = i then f a else a).inCurrentChain = true := by
  have hid : ∀ a : BlockState Key Sig, (if a.id = i then f a else a).id = a.id := fun a => by
    split
    · exact hf a
    · rfl
  unfold ForkIndex.Marked
  simp only [mem_modify]
  constructor
  · rintro ⟨_, ⟨a, ha, rfl⟩, rfl, hmark⟩
    exact ⟨a, ha, (hid a).symm, hmark⟩
  · rintro ⟨a, ha, rfl, hmark⟩
    exact ⟨_, ⟨a, ha, rfl⟩, hid a, hmark⟩

theorem marked_mark {c : Bool} {b : BlockState Key Sig} (hb : b ∈ idx.entries) :
    (idx.modify b.id (mark c) (mark_id c)).Marked j ↔
      if j = b.id then c = true else idx.Marked j := by
  rw [marked_modify]
  split
  · rename_i hj
    refine ⟨fun ⟨a, _, hid, hmark⟩ => ?_, fun hc => ⟨b, hb, hj.symm, ?_⟩⟩
    · rwa [if_pos (hid.trans hj)] at hmark
    · rwa [if_pos rfl]
  · rename_i hj
    refine exists_congr fun a => and_congr_right fun _ => and_congr_right fun hid => ?_
    rw [if_neg (hid ▸ hj)]

theorem marked_validate : (idx.modify i validate validate_id).Marked j ↔ idx.Marked j := by
  rw [marked_modify]
  refine exists_congr fun a => and_congr_right fun _ => and_congr_right fun _ => ?_
  split <;> rfl

variable {β : Type}

/-- **What `mark_in_current_chain` does** with a state of the index. -/
theorem markInCurrentChain_spec {t : ForkDatabase Key Sig × β} {b b' : BlockState Key Sig}
    (hb : b' ∈ t.1.index.entries) (hid : b'.id = b.id) (c : Bool) :
    ∃ idx', markInCurrentChain b c t = .ok () (⟨idx', t.1.headPtr⟩, t.2) ∧ SameData t.1.index idx' ∧
      ∀ j, idx'.Marked j ↔ if j = b.id then c = true else t.1.index.Marked j := by
  have hfind : t.1.index.find b.id = some b' := find_eq_some_iff.mpr ⟨hb, hid⟩
  unfold markInCurrentChain
  rw [get_bind, hfind]
  simp only [Option.getD_some, Option.isSome_some]
  split
  · refine ⟨t.1.index.modify b.id (mark c) (mark_id c), rfl,
      SameData.modify fun _ => rfl, fun j => ?_⟩
    rw [← hid]
    exact marked_mark hb
  · rename_i hflag
    refine ⟨t.1.index, rfl, SameData.refl _, fun j => ?_⟩
    split
    · rename_i hj
      rw [hj, ← hid, marked_iff hb, not_not.mp hflag]
    · exact Iff.rfl

/-! ## One block down, one block up -/

variable {U : Sha256 → Prop} {ptr : HeadPtr Key Sig} {blog : BlockLog Key Sig}
  {h : BlockData Key Sig} {t : Node Key Sig}

/-- The fork database has the blocks of `idx`, the controller's head is `h`, and the marked blocks
are `h` and its ancestors, except those of `U`. -/
structure At (U : Sha256 → Prop) (idx : ForkIndex Key Sig) (ptr : HeadPtr Key Sig)
    (blog : BlockLog Key Sig) (h : BlockData Key Sig) (t : Node Key Sig) : Prop where
  same : SameData idx t.1.index
  headPtr : t.1.headPtr = ptr
  ctl : t.2 = ⟨h, blog⟩
  marks : ∀ j, t.1.index.Marked j ↔ Anc idx.links h.id j ∧ ¬ U j

variable {b p : BlockState Key Sig} {readMode : DbReadMode} {o : ApplyOracle}

theorem At.mark (hat : At U idx ptr blog h t) (hb : b ∈ idx.entries) (c : Bool) :
    ∃ t', markInCurrentChain b c t = .ok () t' ∧ SameData idx t'.1.index ∧ t'.1.headPtr = ptr ∧
      t'.2 = ⟨h, blog⟩ ∧
      ∀ j, t'.1.index.Marked j ↔ if j = b.id then c = true else Anc idx.links h.id j ∧ ¬ U j := by
  obtain ⟨b', hb', hdata⟩ := hat.same.exists_mem hb
  obtain ⟨idx', hmark, hsame, hmarks⟩ :=
    markInCurrentChain_spec (b := b) hb' (congrArg (fun d => d.id) hdata) c
  refine ⟨_, hmark, hat.same.trans hsame, hat.headPtr, hat.ctl, fun j => ?_⟩
  rw [hmarks j]
  split
  · exact Iff.rfl
  · exact hat.marks j

/-- **One block down**: its mark is cleared and it is popped. -/
theorem At.leave (readMode : DbReadMode) (hf : IsForest idx.links)
    (hat : At U idx ptr blog b.toBlockData t) (hb : b ∈ idx.entries) (hp : p ∈ idx.entries)
    (hid : p.id = b.header.previous) (hblock : b.block.isSome) :
    ∃ t', (do markInCurrentChain b false; popBlock readMode :
        ControllerM Key Sig Unit) t = .ok () t' ∧
      At U idx ptr blog p.toBlockData t' := by
  obtain ⟨t1, hmark, hsame, hptr, hctl, hmarks⟩ := hat.mark hb false
  obtain ⟨p', hp', hdata⟩ := hsame.exists_mem hp
  have hfind : t1.1.index.find t1.2.head.header.previous = some p' := by
    rw [hctl]
    exact find_eq_some_iff.mpr ⟨hp', (congrArg (fun d => d.id) hdata).trans hid⟩
  have hpop : popBlock readMode t1 = _ :=
    Controller.popBlock_of_find hfind (by rw [hctl]; exact hblock)
  refine ⟨_, (bind_of_ok hmark).trans hpop, hsame, hptr, ?_, fun j => ?_⟩
  · rw [hctl, hdata]
  · show t1.1.index.Marked j ↔ _
    rw [hmarks j]
    show (if j = b.id then false = true else Anc idx.links b.id j ∧ ¬ U j) ↔
      Anc idx.links p.id j ∧ ¬ U j
    rw [hid]
    split
    · rename_i hj
      rw [hj]
      simp [not_anc_previous hf hb]
    · rename_i hj
      exact and_congr_left fun _ => (anc_block_iff hf hb).trans (or_iff_right hj)

/-- The head is moved up to a block on it, and that block is marked. -/
theorem At.up (hf : IsForest idx.links) (hat : At U idx ptr blog p.toBlockData t)
    (hb : b ∈ idx.entries) (hid : p.id = b.header.previous) (hU : ¬ U b.id)
    (hsame : SameData t.1.index idx')
    (hmarks : ∀ j, idx'.Marked j ↔ if j = b.id then true = true else t.1.index.Marked j) :
    At U idx ptr blog b.toBlockData (⟨idx', t.1.headPtr⟩, { t.2 with head := b.toBlockData }) := by
  refine ⟨hat.same.trans hsame, hat.headPtr, by rw [hat.ctl], fun j => ?_⟩
  rw [hmarks j, anc_block_iff hf hb, ← hid]
  split
  · rename_i hj
    subst hj
    exact ⟨fun _ => ⟨Or.inl rfl, hU⟩, fun _ => rfl⟩
  · rename_i hj
    rw [hat.marks j]
    exact and_congr_left fun _ => (or_iff_right hj).symm

theorem At.validate (hat : At U idx ptr blog h t) (b : BlockState Key Sig) :
    At U idx ptr blog h (t.1.modify b.id validate validate_id, t.2) := by
  have hsame : SameData t.1.index
      (t.1.index.modify b.id BlockState.validate BlockState.validate_id) :=
    SameData.modify fun _ => rfl
  exact ⟨hat.same.trans hsame, hat.headPtr, hat.ctl, fun j => marked_validate.trans (hat.marks j)⟩

/-- **One block up**, as the switch does it: apply, move the head, mark. -/
theorem At.apply (hf : IsForest idx.links) (hat : At U idx ptr blog p.toBlockData t)
    (hb : b ∈ idx.entries) (hid : p.id = b.header.previous) (hU : ¬ U b.id)
    (hblock : b.block.isSome) (hok : o.throws b.header.previous b.id = none) :
    ∃ t', (do
        applyBlock o b
        Controller.setHead b.toBlockData
        markInCurrentChain b true : ControllerM Key Sig Unit) t = .ok () t' ∧
      At U idx ptr blog b.toBlockData t' := by
  obtain ⟨b', hb', hdata⟩ := hat.same.exists_mem hb
  obtain ⟨idx', hmark, hsame, hmarks⟩ := markInCurrentChain_spec (b := b)
    (t := (t.1, { t.2 with head := b.toBlockData })) hb' (congrArg (fun d => d.id) hdata) true
  have happly : applyBlock o b t = .ok () t :=
    applyBlock_of_none hblock (by rw [hat.ctl]; exact hid ▸ hok)
  exact ⟨_, (bind_of_ok happly).trans ((bind_of_ok rfl).trans hmark),
    At.up (t := t) hf hat hb hid hU hsame hmarks⟩

/-! ## The loops -/

variable {g : BlockState Key Sig} {S : List (BlockState Key Sig)}

/-- **Leaving a branch**: the head ends at the block the branch is built on. -/
theorem At.leaveBranch (readMode : DbReadMode) (hf : IsForest idx.links) (hg : g ∈ idx.entries) :
    ∀ (S : List (BlockState Key Sig)) (b : BlockState Key Sig) (t : Node Key Sig), b ∈ idx.entries →
      Branch idx b.id S g.id → (∀ c ∈ S, c.block.isSome) → At U idx ptr blog b.toBlockData t →
      ∃ t', Controller.leaveBranch readMode S t = .ok () t' ∧ At U idx ptr blog g.toBlockData t'
  | [], b, t, hb, hbr, _, hat => by
    generalize hi : b.id = i at hbr
    generalize hj : g.id = j at hbr
    cases hbr with
    | nil _ =>
      obtain rfl := eq_of_id hb hg (hi.trans hj.symm)
      exact ⟨t, rfl, hat⟩
  | c :: S, b, t, hb, hbr, hblocks, hat => by
    obtain ⟨p, hp, hid⟩ := hbr.exists_pred ⟨g, hg, rfl⟩ c mem_cons_self
    generalize hi : b.id = i at hbr
    cases hbr with
    | cons hc hrest =>
      obtain rfl := eq_of_id hb hc hi
      obtain ⟨t1, hstep, hat1⟩ :=
        At.leave readMode hf hat hb hp hid (hblocks b mem_cons_self)
      obtain ⟨t2, hloop, hat2⟩ := At.leaveBranch readMode hf hg S p t1 hp (hid ▸ hrest)
        (fun d hd => hblocks d (mem_cons_of_mem _ hd)) hat1
      exact ⟨t2, (bind_of_ok hstep).trans hloop, hat2⟩

/-- **Applying a branch again**, block by block from the one it is built on. -/
theorem At.reapply (hf : IsForest idx.links) {top : BlockState Key Sig} (htop : top ∈ idx.entries) :
    ∀ (S : List (BlockState Key Sig)) (p : BlockState Key Sig) (t : Node Key Sig), p ∈ idx.entries →
      Upward idx p.id S top.id →
      (∀ c ∈ S, c.block.isSome ∧ o.throws c.header.previous c.id = none ∧ ¬ U c.id) →
      At U idx ptr blog p.toBlockData t →
      ∃ t', Controller.reapply o S t = .ok () t' ∧ At U idx ptr blog top.toBlockData t'
  | [], p, t, hp, hup, _, hat => by
    generalize hi : p.id = i at hup
    generalize hj : top.id = j at hup
    cases hup with
    | nil _ =>
      obtain rfl := eq_of_id hp htop (hi.trans hj.symm)
      exact ⟨t, rfl, hat⟩
  | c :: S, p, t, hp, hup, hall, hat => by
    cases hup with
    | cons hc hprev hrest =>
      obtain ⟨hblock, hok, hU⟩ := hall c mem_cons_self
      obtain ⟨t1, hstep, hat1⟩ := hat.apply hf hc hprev.symm hU hblock hok
      obtain ⟨t2, hloop, hat2⟩ := At.reapply hf htop S c t1 hc hrest
        (fun d hd => hall d (mem_cons_of_mem _ hd)) hat1
      exact ⟨t2, (bind_of_ok hstep).trans hloop, hat2⟩

theorem Branch.getLast (hbr : Branch idx i S j) (hne : S ≠ []) :
    ∃ b, S.getLast? = some b ∧ b.header.previous = j := by
  induction hbr with
  | nil _ => exact absurd rfl hne
  | @cons b S j _ hrest ih =>
    cases S with
    | nil =>
      generalize hm : b.header.previous = m at hrest
      cases hrest with
      | nil _ => exact ⟨b, rfl, hm⟩
    | cons c S =>
      obtain ⟨d, hd, hprev⟩ := ih (cons_ne_nil c S)
      exact ⟨d, by rw [getLast?_cons_cons, hd], hprev⟩

theorem At.assertInSync (hat : At U idx ptr blog g.toBlockData t) (hbr : Branch idx i S g.id)
    (hne : S ≠ []) (what : String) : assertInSync S what t = .ok () t := by
  obtain ⟨b, hb, hprev⟩ := hbr.getLast hne
  unfold Controller.assertInSync
  rw [Controller.get_bind, hb]
  exact assert_eq_ok.mpr ⟨by rw [hat.ctl]; exact hprev.symm, rfl⟩

/-! ## A block that cannot be applied -/

/-- The index when the database has just found a head `n` better than the controller's head `c`. A
block whose predecessor is in the index has its data, may be marked, and has been applied without an
exception if it is on the current chain. -/
structure Contest (U : Sha256 → Prop) (o : ApplyOracle) (idx : ForkIndex Key Sig)
    (n c : BlockState Key Sig) : Prop where
  forest : IsForest idx.links
  blocks : ∀ b ∈ idx.entries, (∃ p ∈ idx.entries, p.id = b.header.previous) → b.block.isSome
  clear : ∀ b ∈ idx.entries, (∃ p ∈ idx.entries, p.id = b.header.previous) → ¬ U b.id
  applies : ∀ b ∈ idx.entries, Anc idx.links c.id b.id →
    (∃ p ∈ idx.entries, p.id = b.header.previous) → o.throws b.header.previous b.id = none
  order : ∃ rest, idx.byLibBlockNum = n :: c :: rest

variable {n c f : BlockState Key Sig}

section

variable (hc : Contest U o idx n c)

include hc

theorem Contest.first : idx.byLibBlockNum.head? = some n := by
  obtain ⟨rest, hrest⟩ := hc.order
  rw [hrest]
  rfl

theorem Contest.mem_new : n ∈ idx.entries :=
  mem_of_head hc.first

theorem Contest.mem_old : c ∈ idx.entries := by
  obtain ⟨rest, hrest⟩ := hc.order
  exact mem_byLib.mp (hrest ▸ mem_cons_of_mem _ mem_cons_self)

/-- A block that cannot be applied is not on the current chain. -/
theorem Contest.not_anc (hf : f ∈ idx.entries) (hp : ∃ p ∈ idx.entries, p.id = f.header.previous)
    {e : FcException} (he : o.throws f.header.previous f.id = some e) :
    ¬ Anc idx.links c.id f.id := by
  intro h
  have hnone := hc.applies f hf h hp
  rw [he] at hnone
  simp at hnone

/-- Without a block below `n`, and what is built on it, the old head is the best block again. -/
theorem Contest.head_removed (hf : f ∈ idx.entries) (hn : Anc idx.links n.id f.id)
    (hnot : ¬ Anc idx.links c.id f.id) : (idx.removed f.id).byLibBlockNum.head? = some c := by
  obtain ⟨rest, hrest⟩ := hc.order
  obtain ⟨p, heq, hp⟩ := removed_eq_filter hf
  rw [heq]
  show (idx.byLibBlockNum.filter p).head? = some c
  rw [hrest, filter_cons_of_neg fun h => (hp n).mp h hn, filter_cons_of_pos ((hp c).mpr hnot)]
  rfl

end

/-- **Removing an invalid block** the head is not built on. -/
theorem At.removed (hat : At U idx ptr blog h t) (hmem : f ∈ idx.entries)
    (hnot : ¬ Anc idx.links h.id f.id) (hhead : (idx.removed f.id).byLibBlockNum.head? = some c) :
    ∃ t', setValidity f false t = .ok () t' ∧ At U (idx.removed f.id) (.entry c.id) blog h t' := by
  have hlinks := hat.same.links
  obtain ⟨f', hf', hdata⟩ := hat.same.exists_mem hmem
  have hfid : f'.id = f.id := congrArg (fun d => d.id) hdata
  have hsame := hat.same.removed f.id
  obtain ⟨c', hc', hcdata⟩ := hsame.head hhead
  have hcid : c'.id = c.id := congrArg (fun d => d.id) hcdata
  refine ⟨(⟨t.1.index.removed f.id, .entry c.id⟩, t.2), ?_, hsame, rfl, hat.ctl, fun j => ?_⟩
  · show remove f.id t = _
    rw [← hcid]
    exact remove_of_head hc'
  · have hmark : (t.1.index.removed f.id).Marked j ↔
        t.1.index.Marked j ∧ ¬ Anc idx.links j f.id := by
      have hmem' : ∀ b, b ∈ (t.1.index.removed f.id).entries ↔
          b ∈ t.1.index.entries ∧ ¬ Anc idx.links b.id f.id := fun b => by
        have := mem_removed hf' (b := b)
        rwa [hfid, hlinks] at this
      constructor
      · rintro ⟨b, hb, rfl, hbm⟩
        exact ⟨⟨b, ((hmem' b).mp hb).1, rfl, hbm⟩, ((hmem' b).mp hb).2⟩
      · rintro ⟨⟨b, hb, rfl, hbm⟩, hnb⟩
        exact ⟨b, (hmem' b).mpr ⟨hb, hnb⟩, rfl, hbm⟩
    rw [hmark, hat.marks j, anc_removed_iff hmem hnot]
    exact and_iff_left_of_imp fun h1 h2 => hnot (h1.1.trans h2)

variable {applied : List (BlockState Key Sig)}

/-- **Switching back**: after the invalid block was found on top of `p`, the old branch is the
current chain again. -/
theorem At.switchBack (readMode : DbReadMode) (hc : Contest U o idx n c)
    (hat : At U idx ptr blog p.toBlockData t)
    (hp : p ∈ idx.entries) (hmem : f ∈ idx.entries) (hid : p.id = f.header.previous)
    (hn : Anc idx.links n.id f.id) {e : FcException}
    (he : o.throws f.header.previous f.id = some e) (hg : g ∈ idx.entries)
    (happ : Branch idx p.id applied g.id) (hS : Branch idx c.id S g.id) (hne : S ≠ []) :
    ∃ t', Controller.switchBack o readMode f applied S t = .ok () t' ∧
      At U (idx.removed f.id) (.entry c.id) blog c.toBlockData t' := by
  have hf := hc.forest
  have hcf := hc.not_anc hmem ⟨p, hp, hid⟩ he
  have hpf : ¬ Anc idx.links p.id f.id := by rw [hid]; exact not_anc_previous hf hmem
  -- nothing the two branches go through is built on the removed block
  have hkeep : ∀ {k : Sha256} {T : List (BlockState Key Sig)}, ¬ Anc idx.links k f.id →
      Branch idx k T g.id → ∀ b ∈ T, b ∈ (idx.removed f.id).entries := fun hk hT b hb =>
    (mem_removed hmem).mpr ⟨hT.mem b hb, fun h => hk ((hT.anc hf hb).trans h)⟩
  have hgf : g ∈ (idx.removed f.id).entries := by
    refine (mem_removed hmem).mpr ⟨hg, fun h => hpf ?_⟩
    exact (happ.path.anc_iff hf).mpr (Or.inr h)
  have hf1 : IsForest (idx.removed f.id).links := isForest_filter hf _
  have hS1 := hS.mono (hkeep hcf hS)
  have hold : ∀ b ∈ S.reverse,
      b.block.isSome ∧ o.throws b.header.previous b.id = none ∧ ¬ U b.id := by
    intro b hb
    have hb : b ∈ S := mem_reverse.mp hb
    have hbp := hS.exists_pred ⟨g, hg, rfl⟩ b hb
    exact ⟨hc.blocks b (hS.mem b hb) hbp, hc.applies b (hS.mem b hb) (hS.anc hf hb) hbp,
      hc.clear b (hS.mem b hb) hbp⟩
  obtain ⟨t1, hrem, hat1⟩ := hat.removed hmem hpf (hc.head_removed hmem hn hcf)
  obtain ⟨t2, hleave, hat2⟩ := At.leaveBranch readMode hf1 hgf applied p t1
    ((mem_removed hmem).mpr ⟨hp, hpf⟩) (happ.mono (hkeep hpf happ))
    (fun b hb => hc.blocks b (happ.mem b hb) (happ.exists_pred ⟨g, hg, rfl⟩ b hb)) hat1
  have hsync := hat2.assertInSync hS1 hne
    "loss of sync between fork_db and chainbase during fork switch reversal"
  obtain ⟨t3, hre, hat3⟩ := At.reapply hf1 ((mem_removed hmem).mpr ⟨hc.mem_old, hcf⟩)
    S.reverse g t2 hgf hS1.reverse hold hat2
  exact ⟨t3, (bind_of_ok hrem).trans ((bind_of_ok hleave).trans
    ((bind_of_ok hsync).trans hre)), hat3⟩

/-! ## What a switch ends in -/

/-- **What a switch to `n` ends in**: `n` is the head, and all of its branch could be applied; or a
block `f` below it threw, `f` and all that is built on it are gone, and `c` is the head as before. -/
inductive SwitchEnd (U : Sha256 → Prop) (o : ApplyOracle) (idx : ForkIndex Key Sig)
    (n c : BlockState Key Sig) (blog : BlockLog Key Sig) :
    EStateM.Result FcException (Node Key Sig) Unit → Prop where
  | switched {t : Node Key Sig}
      (hat : At U idx (.entry n.id) blog n.toBlockData t)
      (applies : ∀ b ∈ idx.entries, Anc idx.links n.id b.id →
        (∃ p ∈ idx.entries, p.id = b.header.previous) →
        o.throws b.header.previous b.id = none) :
      SwitchEnd U o idx n c blog (.ok () t)
  | failed {t : Node Key Sig} {e : FcException}
      {f : BlockState Key Sig} (mem : f ∈ idx.entries) (above : Anc idx.links n.id f.id)
      (kept : ¬ Anc idx.links c.id f.id) (throws : o.throws f.header.previous f.id = some e)
      (hat : At U (idx.removed f.id) (.entry c.id) blog c.toBlockData t) :
      SwitchEnd U o idx n c blog (.error e t)

theorem applyBranch_spec (hc : Contest U o idx n c) (hg : g ∈ idx.entries)
    (hS : Branch idx c.id S g.id) (hne : S ≠ []) :
    ∀ (L : List (BlockState Key Sig)) (p : BlockState Key Sig) (applied : List (BlockState Key Sig))
      (t : Node Key Sig), p ∈ idx.entries →
      Upward idx p.id L n.id → Branch idx p.id applied g.id →
      (∀ b ∈ applied, o.throws b.header.previous b.id = none) →
      At U idx (.entry n.id) blog p.toBlockData t →
      SwitchEnd U o idx n c blog (applyBranch o readMode S L applied t)
  | [], p, applied, t, hp, hup, happ, hok, hat => by
    have hpn : p = n := by
      generalize hi : p.id = i at hup
      generalize hj : n.id = j at hup
      cases hup with
      | nil _ => exact eq_of_id hp hc.mem_new (hi.trans hj.symm)
    subst hpn
    refine SwitchEnd.switched hat fun b hb hanc hpred => ?_
    rcases (happ.path.anc_iff hc.forest).mp hanc with hin | hbelow
    · obtain ⟨x, hx, hid⟩ := mem_map.mp hin
      obtain ⟨d, hd, rfl⟩ := mem_map.mp hx
      obtain rfl := eq_of_id (happ.mem d hd) hb hid
      exact hok d hd
    · exact hc.applies b hb ((hS.path.anc_iff hc.forest).mpr (Or.inr hbelow)) hpred
  | b :: L, p, applied, t, hp, hup, happ, hok, hat => by
    have hbn : Anc idx.links n.id b.id :=
      hup.reverse.anc hc.forest (mem_reverse.mpr mem_cons_self)
    cases hup with
    | cons hb hprev hrest =>
      have hpred : ∃ q ∈ idx.entries, q.id = b.header.previous := ⟨p, hp, hprev.symm⟩
      have hblock := hc.blocks b hb hpred
      cases hthrow : o.throws b.header.previous b.id with
      | none =>
        obtain ⟨t1, hstep, hat1⟩ :=
          hat.apply hc.forest hb hprev.symm (hc.clear b hb hpred) hblock hthrow
        have hrun := bind_of_ok (f := fun _ => setValidity b true) hstep
        simp only [bind_assoc] at hrun
        unfold applyBranch
        rw [bind_of_ok (attempt_of_ok hrun)]
        refine applyBranch_spec hc hg hS hne L b (b :: applied) _ hb hrest
          (Branch.cons hb (hprev ▸ happ)) (fun d hd => ?_) (hat1.validate b)
        rcases mem_cons.mp hd with rfl | hd
        · exact hthrow
        · exact hok d hd
      | some e =>
        have happly : applyBlock o b t = .error e t :=
          applyBlock_of_some hblock (by rw [hat.ctl]; exact hprev ▸ hthrow)
        obtain ⟨t1, hback, hat1⟩ :=
          At.switchBack readMode hc hat hp hb hprev.symm hbn hthrow hg happ hS hne
        unfold applyBranch
        rw [bind_of_ok (attempt_of_error (Exec.bind_of_error happly)
          (o.defined _ _ e hthrow))]
        simp only
        rw [bind_of_ok hback]
        exact SwitchEnd.failed hb hbn (hc.not_anc hb hpred hthrow) hthrow hat1

/-- **The second case of `maybe_switch_forks`**: the new head and the old one have a common ancestor
that is neither of them. -/
theorem switchTo_spec (readMode : DbReadMode) (hc : Contest U o t.1.index n c)
    (hat : At U t.1.index (.entry n.id) blog c.toBlockData t) (hf : f ∈ t.1.index.entries)
    (hn : Anc t.1.index.links n.header.previous f.id)
    (hold : Anc t.1.index.links c.header.previous f.id) :
    SwitchEnd U o t.1.index n c blog (switchTo o readMode n t) := by
  obtain ⟨S, T, g, hfetch, hg, hS, hT, -, hne⟩ :=
    fetchBranchFrom_spec hc.forest hf hc.mem_new hc.mem_old hn hold
  obtain ⟨t1, hleave, hat1⟩ := At.leaveBranch readMode hc.forest hg T c t hc.mem_old hT
    (fun b hb => hc.blocks b (hT.mem b hb) (hT.exists_pred ⟨g, hg, rfl⟩ b hb)) hat
  unfold switchTo
  rw [get_bind, Controller.get_bind, hat.ctl,
    bind_of_ok (Exec.lift_ok.mpr ⟨hfetch, rfl⟩)]
  simp only
  rw [bind_of_ok hleave, bind_of_ok (hat1.assertInSync hT hne _)]
  exact applyBranch_spec hc hg hT hne S.reverse g [] t1 hg hS.reverse (Branch.nil _)
    (fun b hb => absurd hb not_mem_nil) hat1

/-- **The first case of `maybe_switch_forks`**: the new head is built on the old one. -/
theorem extendHead_spec (hc : Contest U o idx n c)
    (hat : At U idx (.entry n.id) blog c.toBlockData t) (hid : c.id = n.header.previous) :
    SwitchEnd U o idx n c blog (extendHead o n t) := by
  have hn := hc.mem_new
  have hpred : ∃ p ∈ idx.entries, p.id = n.header.previous := ⟨c, hc.mem_old, hid⟩
  have hblock := hc.blocks n hn hpred
  have hctl : t.2.head.id = n.header.previous := by rw [hat.ctl]; exact hid
  unfold extendHead
  cases hthrow : o.throws n.header.previous n.id with
  | none =>
    obtain ⟨n', hn', hdata⟩ := hat.same.exists_mem hn
    obtain ⟨idx', hmark, hsame, hmarks⟩ :=
      markInCurrentChain_spec (b := n) hn' (congrArg (fun d => d.id) hdata) true
    have happly : applyBlock o n t = .ok () t :=
      applyBlock_of_none hblock (by rw [hctl]; exact hthrow)
    have hup := (At.up hc.forest hat hn hid (hc.clear n hn hpred) hsame hmarks).validate n
    rw [bind_of_ok (attempt_of_ok
      ((bind_of_ok happly).trans ((bind_of_ok hmark).trans
        ((bind_of_ok rfl).trans rfl))))]
    refine SwitchEnd.switched hup fun b hb hanc hbpred => ?_
    rcases (anc_block_iff hc.forest hn).mp hanc with heq | hbelow
    · rw [eq_of_id hb hn heq]
      exact hthrow
    · exact hc.applies b hb (hid ▸ hbelow) hbpred
  | some e =>
    have happly : applyBlock o n t = .error e t :=
      applyBlock_of_some hblock (by rw [hctl]; exact hthrow)
    have hnot := hc.not_anc hn hpred hthrow
    have hself : Anc idx.links n.id n.id := Anc.refl (link_mem hn)
    obtain ⟨t1, hrem, hat1⟩ := hat.removed hn hnot (hc.head_removed hn hself hnot)
    rw [bind_of_ok (attempt_of_error (Exec.bind_of_error happly)
      (o.defined _ _ e hthrow))]
    simp only
    rw [bind_of_ok hrem]
    exact SwitchEnd.failed hn hself hnot hthrow hat1

theorem Contest.ne (hc : Contest U o idx n c) : n.id ≠ c.id := by
  obtain ⟨rest, hrest⟩ := hc.order
  have hnodup : (idx.byLibBlockNum.map fun b => b.id).Nodup :=
    (idx.permLib.map _).nodup_iff.mpr idx.nodup
  rw [hrest, map_cons, map_cons, nodup_cons] at hnodup
  exact fun h => hnodup.1 (h ▸ mem_cons_self)

/-- **`maybe_switch_forks` when the database has found a better head.** -/
theorem maybeSwitchForks_spec (readMode : DbReadMode) (hc : Contest U o t.1.index n c)
    (hat : At U t.1.index (.entry n.id) blog c.toBlockData t)
    (hmeet : n.header.previous = c.id ∨ ∃ f ∈ t.1.index.entries,
      Anc t.1.index.links n.header.previous f.id ∧ Anc t.1.index.links c.header.previous f.id) :
    SwitchEnd U o t.1.index n c blog (maybeSwitchForks o readMode t) := by
  have hhead := head_of_mem hat.headPtr hc.mem_new
  have hctl : t.2.head = c.toBlockData := by rw [hat.ctl]
  unfold maybeSwitchForks
  rw [get_bind, Controller.get_bind, hhead]
  simp only [hctl]
  by_cases hext : n.header.previous = c.id
  · rw [if_pos hext]
    exact extendHead_spec hc hat hext.symm
  · obtain ⟨f, hf, hnf, hcf⟩ := hmeet.resolve_left hext
    rw [if_neg hext, if_pos hc.ne]
    exact switchTo_spec readMode hc hat hf hnf hcf

end Forceio.Chain
