import Forceio.Chain.ForkDatabase

/-!
# The blocks of the fork database as a forest

A block's id holds its number, and a block is one above the block it names as its predecessor. So
the states of an index form a forest, whatever was added and removed, and the loops of
`fetch_branch_from` come to an end at the first common predecessor.

* `Sound env b`: what `next` and `set` make sure of in a state: its id, its number, its block.
* `SameData idx idx'`: the two indices differ in flags only.
* `Branch idx i S j`: `S` are the states from id `i` down, newest first, until one is built on `j`.

Results:
* `fetchBranchFrom_spec`: of two states with a common ancestor below both, `fetch_branch_from`
  returns the two branches down to a common predecessor, which is in the index.
* `mem_removed`: `remove` takes out a state and all that is built on it.
-/

namespace Forceio.Chain

open Forceio.Lib Forceio.Lib.Forest ForkIndex OrderedIndex BlockState
open List hiding mem_filter

variable {Key Sig : Type} {env : ChainEnv Key Sig}
variable {b : BlockState Key Sig}

/-! ## Sound states -/

/-- A state as `next` returns it: its id is its header's, its number is one more than the number in
its predecessor's id and at most its slot, and its block has its header. -/
structure Sound (env : ChainEnv Key Sig) (b : BlockData Key Sig) : Prop where
  id : b.id = b.header.toBlockHeader.id env
  num : (numFromId b.header.previous).toNat + 1 = b.blockNum
  slot : b.blockNum ≤ b.header.timestamp.toNat
  block : ∀ h, b.block = some h → h = b.header

theorem Sound.numFromId {b : BlockData Key Sig} (h : Sound env b) :
    (numFromId b.id).toNat = b.blockNum := by
  have hlt : b.blockNum < 2 ^ 32 := lt_of_le_of_lt h.slot b.header.timestamp.toNat_lt
  rw [h.id, numFromId_id]
  show (Chain.numFromId b.header.previous + 1).toNat = _
  rw [UInt32.toNat_add, ← h.num, show (1 : UInt32).toNat = 1 from rfl,
    Nat.mod_eq_of_lt (by rw [h.num]; exact hlt)]

theorem Sound.newState [Inhabited Sig] [DecidableEq Key] {prev n : BlockState Key Sig}
    {b : SignedBlockHeader Key Sig} {skip : Bool} (h : Sound env prev.toBlockData)
    (hn : ForkDatabase.newState env prev b skip = .ok n) :
    Sound env n.toBlockData ∧ n.header = b ∧ n.block = some b ∧ n.header.previous = prev.id ∧
      n.blockNum = prev.blockNum + 1 := by
  obtain ⟨hs, hnext, hpure⟩ := bind_eq_ok.mp hn
  cases hpure
  have hspec := BlockHeaderState.next_spec hnext
  obtain ⟨hnum, hslot⟩ := hspec.blockNum_eq h.slot
  have hprev : hs.header.previous = prev.id := by rw [hspec.header, hspec.previous]
  refine ⟨⟨?_, ?_, hslot, ?_⟩, hspec.header, rfl, hprev, hnum⟩
  · show hs.id = hs.header.toBlockHeader.id env
    rw [hspec.id, hspec.header]
  · show (Chain.numFromId hs.header.previous).toNat + 1 = hs.blockNum
    rw [hprev, h.numFromId, hnum]
  · intro x hx
    rw [← Option.some.inj hx]
    exact hspec.header.symm

variable {idx idx' idx'' : ForkIndex Key Sig}

theorem isForest_of_sound (h : ∀ b ∈ idx.entries, Sound env b.toBlockData) :
    IsForest idx.links := by
  refine ⟨?_, fun x hx y hy hprev => ?_⟩
  · rw [map_id_links]
    exact idx.nodup
  · obtain ⟨a, ha, rfl⟩ := mem_links.mp hx
    obtain ⟨b, hb, rfl⟩ := mem_links.mp hy
    have hprev : a.header.previous = b.id := hprev
    show a.blockNum = b.blockNum + 1
    rw [← (h a ha).num, hprev, (h b hb).numFromId]

theorem isForest_filter (hf : IsForest idx.links) (p : BlockState Key Sig → Bool) :
    IsForest (idx.filter p).links :=
  hf.sublist (filter_sublist.map _)

theorem anc_of_filter {i j : Sha256} {p : BlockState Key Sig → Bool}
    (h : Anc (idx.filter p).links i j) : Anc idx.links i j :=
  h.mono fun _ hx => (filter_sublist.map _).subset hx

theorem link_mem (hb : b ∈ idx.entries) : b.link ∈ idx.links :=
  mem_map_of_mem hb

variable {j i : Sha256} {f : BlockState Key Sig}

theorem anc_block_iff (hf : IsForest idx.links) (hb : b ∈ idx.entries) :
    Anc idx.links b.id j ↔ j = b.id ∨ Anc idx.links b.header.previous j :=
  Forest.anc_iff hf (link_mem hb)

theorem not_anc_previous (hf : IsForest idx.links) (hb : b ∈ idx.entries) :
    ¬ Anc idx.links b.header.previous b.id := fun h =>
  lt_irrefl _ (h.num_lt hf (link_mem hb) (link_mem hb))

theorem exists_of_anc_left (h : Anc idx.links i j) : ∃ b ∈ idx.entries, b.id = i := by
  obtain ⟨x, hx, rfl⟩ := h.mem_left
  obtain ⟨b, hb, rfl⟩ := mem_links.mp hx
  exact ⟨b, hb, rfl⟩

theorem exists_of_anc_right (h : Anc idx.links i j) : ∃ b ∈ idx.entries, b.id = j := by
  obtain ⟨x, hx, rfl⟩ := h.mem_right
  obtain ⟨b, hb, rfl⟩ := mem_links.mp hx
  exact ⟨b, hb, rfl⟩

/-! ## Indices that differ in flags -/

/-- The two indices have the same states in the same orders, except for flags. -/
structure SameData (idx idx' : ForkIndex Key Sig) : Prop where
  entries : idx'.entries.map (fun b => b.toBlockData) = idx.entries.map fun b => b.toBlockData
  byLib : idx'.byLibBlockNum.map (fun b => b.toBlockData) =
    idx.byLibBlockNum.map fun b => b.toBlockData

theorem SameData.refl (idx : ForkIndex Key Sig) : SameData idx idx := ⟨rfl, rfl⟩

section

variable (h : SameData idx idx')

include h

theorem SameData.trans (h' : SameData idx' idx'') : SameData idx idx'' :=
  ⟨h'.entries.trans h.entries, h'.byLib.trans h.byLib⟩

theorem SameData.symm : SameData idx' idx :=
  ⟨h.entries.symm, h.byLib.symm⟩

theorem SameData.links : idx'.links = idx.links := by
  have hlink : ∀ l : List (BlockState Key Sig), l.map link =
      (l.map fun b => b.toBlockData).map fun d => ⟨d.id, d.header.previous, d.blockNum⟩ :=
    fun l => by
      rw [map_map]
      rfl
  unfold ForkIndex.links
  rw [hlink, h.entries, hlink]

theorem SameData.exists_mem (hb : b ∈ idx.entries) :
    ∃ b' ∈ idx'.entries, b'.toBlockData = b.toBlockData := by
  have hmem : b.toBlockData ∈ idx'.entries.map fun b => b.toBlockData := by
    rw [h.entries]
    exact mem_map_of_mem hb
  exact mem_map.mp hmem

theorem SameData.forall {P : BlockData Key Sig → Prop} (hP : ∀ b ∈ idx.entries, P b.toBlockData) :
    ∀ b ∈ idx'.entries, P b.toBlockData := by
  intro b hb
  obtain ⟨a, ha, hdata⟩ := h.symm.exists_mem hb
  exact hdata ▸ hP a ha

theorem SameData.exists {P : BlockData Key Sig → Prop} (hP : ∃ b ∈ idx.entries, P b.toBlockData) :
    ∃ b ∈ idx'.entries, P b.toBlockData := by
  obtain ⟨a, ha, hPa⟩ := hP
  obtain ⟨b, hb, hdata⟩ := h.exists_mem ha
  exact ⟨b, hb, hdata ▸ hPa⟩

theorem SameData.head (hb : idx.byLibBlockNum.head? = some b) :
    ∃ b', idx'.byLibBlockNum.head? = some b' ∧ b'.toBlockData = b.toBlockData := by
  have hmap := congrArg head? h.byLib
  rw [head?_map, head?_map, hb] at hmap
  exact Option.map_eq_some_iff.mp hmap

end

theorem SameData.modify {f : BlockState Key Sig → BlockState Key Sig} {hf : ∀ b, (f b).id = b.id}
    (hdata : ∀ b, (f b).toBlockData = b.toBlockData) : SameData idx (idx.modify i f hf) := by
  have hmap : ∀ l : List (BlockState Key Sig),
      (mapWhere (fun b => decide (b.id = i)) f l).map (fun b => b.toBlockData) =
        l.map fun b => b.toBlockData := by
    intro l
    unfold mapWhere
    rw [map_map]
    refine map_congr_left fun b _ => ?_
    simp only [Function.comp]
    split
    · exact hdata b
    · rfl
  refine ⟨hmap _, ?_⟩
  have hkey : ∀ b, (f b).libKey = b.libKey := fun b => by
    unfold libKey
    rw [hdata b]
  rw [byLib_modify hkey]
  exact hmap _

theorem SameData.filter (h : SameData idx idx') (p : Sha256 → Bool) :
    SameData (idx.filter fun b => p b.id) (idx'.filter fun b => p b.id) := by
  have hfilter : ∀ l : List (BlockState Key Sig),
      (l.filter fun b => p b.id).map (fun b => b.toBlockData) =
        (l.map fun b => b.toBlockData).filter fun d => p d.id := by
    intro l
    rw [filter_map]
    rfl
  constructor
  · show (idx'.entries.filter _).map _ = (idx.entries.filter _).map _
    rw [hfilter, hfilter, h.entries]
  · show (idx'.byLibBlockNum.filter _).map _ = (idx.byLibBlockNum.filter _).map _
    rw [hfilter, hfilter, h.byLib]

theorem SameData.removed (h : SameData idx idx') (i : Sha256) :
    SameData (idx.removed i) (idx'.removed i) := by
  unfold ForkIndex.removed
  rw [h.links, show idx'.entries.length = idx.entries.length by
    simpa using congrArg List.length h.entries]
  exact h.filter fun j =>
    decide (j ∉ Forest.removeIds (idx.entries.length + 1) [i] idx.links)

/-! ## Removing -/

/-- **`remove` takes out a state and all that is built on it.** -/
theorem removed_eq_filter (hmem : f ∈ idx.entries) :
    ∃ p, idx.removed f.id = idx.filter p ∧ ∀ b, p b = true ↔ ¬ Anc idx.links b.id f.id := by
  have hlen : idx.links.length ≤ idx.entries.length + 1 :=
    le_of_eq_of_le (length_map _) (Nat.le_succ _)
  refine ⟨_, rfl, fun b => ?_⟩
  rw [decide_eq_true_eq]
  exact not_congr (mem_removeIds_iff (map_id_links ▸ idx.nodup) (link_mem hmem) hlen (k := b.id))

theorem mem_removed (hmem : f ∈ idx.entries) :
    b ∈ (idx.removed f.id).entries ↔ b ∈ idx.entries ∧ ¬ Anc idx.links b.id f.id := by
  obtain ⟨p, heq, hp⟩ := removed_eq_filter hmem
  rw [heq, mem_filter, hp]

theorem mem_removed_of_pred {p : BlockState Key Sig} (hmem : f ∈ idx.entries)
    (hb : b ∈ (idx.removed f.id).entries) (hp : p ∈ idx.entries) (hid : p.id = b.header.previous) :
    p ∈ (idx.removed f.id).entries := by
  obtain ⟨hb, hnot⟩ := (mem_removed hmem).mp hb
  refine (mem_removed hmem).mpr ⟨hp, fun hanc => hnot (Anc.step (link_mem hb) ?_)⟩
  show Anc _ b.header.previous _
  rwa [← hid]

theorem anc_removed_iff (hmem : f ∈ idx.entries) (hi : ¬ Anc idx.links i f.id) :
    Anc (idx.removed f.id).links i j ↔ Anc idx.links i j := by
  refine anc_removed (fun x hx => ?_) (fun x hx hnot => ?_) hi
  · obtain ⟨b, hb, rfl⟩ := mem_links.mp hx
    exact link_mem ((mem_removed hmem).mp hb).1
  · obtain ⟨b, hb, rfl⟩ := mem_links.mp hx
    exact link_mem ((mem_removed hmem).mpr ⟨hb, hnot⟩)

/-! ## Branches -/

/-- `S` are the states of the index from id `i` down, newest first, until one is built on `j`. -/
inductive Branch (idx : ForkIndex Key Sig) : Sha256 → List (BlockState Key Sig) → Sha256 → Prop where
  | nil (i : Sha256) : Branch idx i [] i
  | cons {b : BlockState Key Sig} {S : List (BlockState Key Sig)} {j : Sha256} :
      b ∈ idx.entries → Branch idx b.header.previous S j → Branch idx b.id (b :: S) j

variable {S T : List (BlockState Key Sig)} {i j k : Sha256}

section

variable (h : Branch idx i S j)

include h

theorem Branch.append (h' : Branch idx j T k) : Branch idx i (S ++ T) k := by
  induction h with
  | nil _ => exact h'
  | cons hb _ ih => exact Branch.cons hb (ih h')

theorem Branch.mem : ∀ b ∈ S, b ∈ idx.entries := by
  induction h with
  | nil _ => exact fun b hb => absurd hb not_mem_nil
  | cons hb _ ih =>
    intro c hc
    rcases mem_cons.mp hc with rfl | hc
    · exact hb
    · exact ih c hc

theorem Branch.path : Path idx.links i (S.map link) j := by
  induction h with
  | nil i => exact Path.nil i
  | cons hb _ ih => exact Path.cons (link_mem hb) ih

theorem Branch.anc (hf : IsForest idx.links) (hb : b ∈ S) : Anc idx.links i b.id :=
  (h.path.anc_iff hf).mpr (Or.inl (mem_map.mpr ⟨b.link, mem_map_of_mem hb, rfl⟩))

theorem Branch.exists_top (hj : ∃ g ∈ idx.entries, g.id = j) : ∃ b ∈ idx.entries, b.id = i := by
  cases h with
  | nil _ => exact hj
  | cons hb _ => exact ⟨_, hb, rfl⟩

/-- The states of a branch that ends in the index have their predecessors there. -/
theorem Branch.exists_pred (hj : ∃ g ∈ idx.entries, g.id = j) :
    ∀ b ∈ S, ∃ p ∈ idx.entries, p.id = b.header.previous := by
  induction h with
  | nil _ => exact fun b hb => absurd hb not_mem_nil
  | cons _ hrest ih =>
    intro c hc
    rcases mem_cons.mp hc with rfl | hc
    · exact hrest.exists_top hj
    · exact ih hj c hc

theorem Branch.mono (hsub : ∀ b ∈ S, b ∈ idx'.entries) : Branch idx' i S j := by
  induction h with
  | nil i => exact Branch.nil i
  | cons _ _ ih =>
    exact Branch.cons (hsub _ mem_cons_self)
      (ih fun c hc => hsub c (mem_cons_of_mem _ hc))

end

/-- A branch read from its oldest state up: each is built on the one before. -/
inductive Upward (idx : ForkIndex Key Sig) : Sha256 → List (BlockState Key Sig) → Sha256 → Prop where
  | nil (i : Sha256) : Upward idx i [] i
  | cons {b : BlockState Key Sig} {S : List (BlockState Key Sig)} {i j : Sha256} :
      b ∈ idx.entries → b.header.previous = i → Upward idx b.id S j → Upward idx i (b :: S) j

theorem Upward.snoc (h : Upward idx i S j) (hb : b ∈ idx.entries) (hprev : b.header.previous = j) :
    Upward idx i (S ++ [b]) b.id := by
  induction h with
  | nil _ => exact Upward.cons hb hprev (Upward.nil _)
  | cons hc hp _ ih => exact Upward.cons hc hp (ih hprev)

theorem Branch.reverse (h : Branch idx i S j) : Upward idx j S.reverse i := by
  induction h with
  | nil i => exact Upward.nil i
  | cons hb _ ih =>
    rw [reverse_cons]
    exact ih.snoc hb rfl

theorem Upward.reverse (h : Upward idx i S j) : Branch idx j S.reverse i := by
  induction h with
  | nil i => exact Branch.nil i
  | cons hb hprev _ ih =>
    rw [reverse_cons]
    exact ih.append (Branch.cons hb (hprev ▸ Branch.nil _))

/-! ## `fetch_branch_from` -/

section Fetch

open ForkDatabase (descend descendBoth fetchBranchFrom)

variable {a f : BlockState Key Sig} {n num : Nat}

/-- A state with `f` strictly below it has its predecessor in the index, one number lower. -/
theorem exists_parent (hf : IsForest idx.links) (ha : a ∈ idx.entries)
    (hanc : Anc idx.links a.header.previous f.id) :
    ∃ p ∈ idx.entries, p.id = a.header.previous ∧ a.blockNum = p.blockNum + 1 ∧
      Anc idx.links p.id f.id := by
  obtain ⟨p, hp, hid⟩ := exists_of_anc_left hanc
  exact ⟨p, hp, hid, hf.level _ (link_mem ha) _ (link_mem hp) hid.symm, hid ▸ hanc⟩

theorem Branch.top (h : Branch idx i S j) : S = [] ∧ i = j ∨ ∃ b ∈ idx.entries, b.id = i ∧
    ∃ S', S = b :: S' ∧ Branch idx b.header.previous S' j := by
  cases h with
  | nil _ => exact Or.inl ⟨rfl, rfl⟩
  | cons hb h => exact Or.inr ⟨_, hb, rfl, _, rfl, h⟩

theorem Branch.of_anc (h : Anc idx.links i j) : ∃ S, Branch idx i S j := by
  induction h with
  | refl _ => exact ⟨[], Branch.nil _⟩
  | step hx _ ih =>
    obtain ⟨b, hb, rfl⟩ := mem_links.mp hx
    obtain ⟨S, hS⟩ := ih
    exact ⟨b :: S, Branch.cons hb hS⟩

theorem Branch.anc_end (hf : IsForest idx.links) (h : Branch idx i S a.id) (ha : a ∈ idx.entries) :
    Anc idx.links i a.id :=
  (h.path.anc_iff hf).mpr (Or.inr (Anc.refl (link_mem ha)))

theorem Branch.blockNum_le (hf : IsForest idx.links) (h : Branch idx a.id S j)
    (ha : a ∈ idx.entries) (hb : b ∈ S) : b.blockNum ≤ a.blockNum :=
  (h.anc hf hb).num_le hf _ (link_mem ha) rfl _ (link_mem (h.mem b hb)) rfl

theorem eq_of_anc (hf : IsForest idx.links) (ha : a ∈ idx.entries) (hb : b ∈ idx.entries)
    (h : Anc idx.links i a.id) (h' : Anc idx.links i b.id) (hnum : a.blockNum = b.blockNum) : a = b :=
  eq_of_id ha hb (congrArg Link.id (h.unique hf (link_mem ha) (link_mem hb) h' hnum))

/-- `n` is the number of `j`: a branch down to `j` is as long as its top is above `n`. -/
def Level (idx : ForkIndex Key Sig) (j : Sha256) (n : Nat) : Prop :=
  ∀ a ∈ idx.entries, ∀ S, Branch idx a.id S j → a.blockNum = n + S.length

theorem level_of_mem (hf : IsForest idx.links) (hmem : f ∈ idx.entries) :
    Level idx f.id f.blockNum := fun a ha S h => by
  have hnum := h.path.num_eq hf (y := f.link) (link_mem hmem) a.link (link_mem ha) rfl
  rwa [length_map] at hnum

theorem descend_spec (hl : Level idx j n) (hnum : n < num) :
    ∀ (fuel : Nat) (S : List (BlockState Key Sig)) (a : BlockState Key Sig), a ∈ idx.entries →
      Branch idx a.header.previous S j → S.length < fuel →
      ∃ P a' R, descend idx num fuel a = .ok (P, a') ∧ a' ∈ idx.entries ∧ Branch idx a.id P a'.id ∧
        Branch idx a'.header.previous R j ∧ a'.blockNum = min a.blockNum num ∧
        ∀ c ∈ P, num < c.blockNum
  | 0, _, _, _, _, hfuel => absurd hfuel (Nat.not_lt_zero _)
  | fuel + 1, S, a, ha, hS, hfuel => by
    have hlevel := hl a ha (a :: S) (Branch.cons ha hS)
    rw [length_cons] at hlevel
    unfold descend
    split
    · rename_i hlt
      obtain ⟨rfl, -⟩ | ⟨p, hp, hid, S', rfl, hS'⟩ := hS.top
      · rw [length_nil] at hlevel
        omega
      · rw [length_cons] at hlevel hfuel
        have hlevel' := hl p hp (p :: S') (Branch.cons hp hS')
        rw [length_cons] at hlevel'
        obtain ⟨P, a', R, hd, ha', hP, hR, hmin, habove⟩ :=
          descend_spec hl hnum fuel S' p hp hS' (by omega)
        refine ⟨a :: P, a', R, ?_, ha', Branch.cons ha (hid ▸ hP), hR, by omega,
          forall_mem_cons.mpr ⟨hlt, habove⟩⟩
        simp only [find_eq_some_iff.mpr ⟨hp, hid⟩, hd]
        rfl
    · exact ⟨[], a, S, rfl, ha, Branch.nil _, hS, by omega, by simp⟩

/-- Both down from one number to a common predecessor. -/
theorem descendBoth_spec (hf : IsForest idx.links) : ∀ (fuel : Nat)
    (S T : List (BlockState Key Sig)) (a b : BlockState Key Sig), a ∈ idx.entries →
      b ∈ idx.entries → Branch idx a.header.previous S j → Branch idx b.header.previous T j →
      a.blockNum = b.blockNum → S.length = T.length → S.length < fuel →
      ∃ P Q g R, descendBoth idx fuel a b = .ok (P, Q) ∧ Branch idx g R j ∧
        Branch idx a.id P g ∧ Branch idx b.id Q g ∧ P ≠ [] ∧ Q ≠ [] ∧ (a ≠ b → ∀ c ∈ P, c ∉ Q)
  | 0, _, _, _, _, _, _, _, _, _, _, hfuel => absurd hfuel (Nat.not_lt_zero _)
  | fuel + 1, S, T, a, b, ha, hb, hS, hT, hnum, hlen, hfuel => by
    unfold descendBoth
    split
    · rename_i hne
      obtain ⟨rfl, hj⟩ | ⟨pa, hpa, hida, S', rfl, hS'⟩ := hS.top <;>
        obtain ⟨rfl, hj'⟩ | ⟨pb, hpb, hidb, T', rfl, hT'⟩ := hT.top
      · exact absurd (hj.trans hj'.symm) hne
      · simp at hlen
      · simp at hlen
      have hla := hf.level _ (link_mem ha) _ (link_mem hpa) hida.symm
      have hlb := hf.level _ (link_mem hb) _ (link_mem hpb) hidb.symm
      have hpnum : pa.blockNum = pb.blockNum := Nat.succ_injective (hla.symm.trans (hnum.trans hlb))
      obtain ⟨P, Q, g, R, hd, hR, hP, hQ, -, -, hapart⟩ := descendBoth_spec hf fuel S' T' pa pb
        hpa hpb hS' hT' hpnum (Nat.succ_injective hlen) (Nat.lt_of_succ_lt_succ hfuel)
      have hids : pa ≠ pb := fun heq => hne (by rw [← hida, ← hidb, heq])
      refine ⟨a :: P, b :: Q, g, R, ?_, hR, Branch.cons ha (hida ▸ hP), Branch.cons hb (hidb ▸ hQ),
        cons_ne_nil _ _, cons_ne_nil _ _, fun hab c hc hc' => ?_⟩
      · simp only [find_eq_some_iff.mpr ⟨hpa, hida⟩, find_eq_some_iff.mpr ⟨hpb, hidb⟩, hd]
        rfl
      · -- only states of one number could be the same, and those differ
        have hlow : ∀ c ∈ Q, c.blockNum < b.blockNum := fun c hc =>
          (hQ.blockNum_le hf hpb hc).trans_lt (Nat.lt_of_succ_le hlb.ge)
        have hlow' : ∀ c ∈ P, c.blockNum < a.blockNum := fun c hc =>
          (hP.blockNum_le hf hpa hc).trans_lt (Nat.lt_of_succ_le hla.ge)
        rcases mem_cons.mp hc with rfl | hc <;> rcases mem_cons.mp hc' with heq | hc'
        · exact hab heq
        · exact absurd (hlow c hc') (by omega)
        · exact absurd (hlow' c hc) (by rw [heq]; omega)
        · exact hapart hids c hc hc'
    · rename_i heq
      have heq : a.header.previous = b.header.previous := not_not.mp heq
      refine ⟨[a], [b], _, S, rfl, hS, Branch.cons ha (Branch.nil _),
        Branch.cons hb (heq ▸ Branch.nil _), cons_ne_nil _ _, cons_ne_nil _ _, ?_⟩
      simp

/-- **The branches of two states** that both go down to `j`: each from its state to its parents, the
last ones with one predecessor. They share a state only if one of the two is below the other, and
then their last. -/
theorem fetchBranchFrom_eq (hf : IsForest idx.links) (hl : Level idx j n) (ha : a ∈ idx.entries)
    (hb : b ∈ idx.entries) (hS : Branch idx a.header.previous S j)
    (hT : Branch idx b.header.previous T j) :
    ∃ P Q g R, fetchBranchFrom idx a.id b.id = .ok (P, Q) ∧ Branch idx g R j ∧
      Branch idx a.id P g ∧ Branch idx b.id Q g ∧ P ≠ [] ∧ Q ≠ [] ∧
      (∀ c ∈ P, c ∈ Q → P.getLast? = some c ∧ Q.getLast? = some c) ∧
      ((∃ c ∈ P, c ∈ Q) ↔ Anc idx.links a.id b.id ∨ Anc idx.links b.id a.id) := by
  have hlen : ∀ {c S}, c ∈ idx.entries → Branch idx c.header.previous S j →
      S.length < idx.entries.length + 1 ∧ c.blockNum = n + S.length + 1 := fun hc hS => by
    refine ⟨Nat.lt_succ_of_le ?_, by simpa [add_assoc] using hl _ hc _ (Branch.cons hc hS)⟩
    simpa [links] using hS.path.length_le hf
  have hnum := (hlen hb hT).2
  obtain ⟨P1, a', S', hd1, ha', hP1, hS', hmin1, habove1⟩ :=
    descend_spec hl (by omega : n < b.blockNum) _ S a ha hS (hlen ha hS).1
  have hnum' := (hlen ha' hS').2
  obtain ⟨Q1, b', T', hd2, hb', hQ1, hT', hmin2, habove2⟩ :=
    descend_spec hl (by omega : n < a'.blockNum) _ T b hb hT (hlen hb hT).1
  have hsame : a'.blockNum = b'.blockNum := by omega
  obtain ⟨P2, Q2, g, R, hd3, hR, hP2, hQ2, hP, hQ, hapart⟩ := descendBoth_spec hf _ S' T' a' b'
    ha' hb' hS' hT' hsame (by have := (hlen hb' hT').2; omega) (hlen ha' hS').1
  have hfetch : fetchBranchFrom idx a.id b.id = .ok (P1 ++ P2, Q1 ++ Q2) := by
    unfold fetchBranchFrom
    rw [find_of_mem ha, find_of_mem hb]
    simp only [hd1, hd2, hd3, bind, Except.bind, pure, Except.pure]
  have haa' := hP1.anc_end hf ha'
  have hbb' := hQ1.anc_end hf hb'
  -- the lower of the two is met at its own number
  have hmeet : a' = b' ↔ Anc idx.links a.id b.id ∨ Anc idx.links b.id a.id := by
    constructor
    · intro heq
      rcases le_total a.blockNum b.blockNum with hle | hle
      · rw [eq_of_anc hf ha ha' (Anc.refl (link_mem ha)) haa' (by omega), heq]
        exact Or.inr hbb'
      · rw [eq_of_anc hf hb hb' (Anc.refl (link_mem hb)) hbb' (by omega), ← heq]
        exact Or.inl haa'
    · rintro (h | h)
      · exact eq_of_anc hf ha' hb' haa' (h.trans hbb') hsame
      · exact eq_of_anc hf ha' hb' (h.trans haa') hbb' hsame
  have hshared : ∀ c ∈ P1 ++ P2, c ∈ Q1 ++ Q2 → a' = b' ∧ c ∈ P2 ∧ c ∈ Q2 := by
    intro c hc hc'
    have hleb := (hQ1.append hQ2).blockNum_le hf hb hc'
    have hcP : c ∈ P2 := (mem_append.mp hc).resolve_left fun h => by
      have := habove1 c h
      omega
    have hlea := hP2.blockNum_le hf ha' hcP
    have hcQ : c ∈ Q2 := (mem_append.mp hc').resolve_left fun h => by
      have := habove2 c h
      omega
    exact ⟨by_contra fun hne => hapart hne c hcP hcQ, hcP, hcQ⟩
  have hself : a' = b' → P2 = [a'] ∧ Q2 = [a'] := by
    rintro rfl
    rw [descendBoth, if_neg (not_not.mpr rfl)] at hd3
    cases hd3
    exact ⟨rfl, rfl⟩
  refine ⟨_, _, g, R, hfetch, hR, hP1.append hP2, hQ1.append hQ2,
    append_ne_nil_of_right_ne_nil _ hP, append_ne_nil_of_right_ne_nil _ hQ,
    fun c hc hc' => ?_, ?_⟩
  · obtain ⟨heq, hcP, hcQ⟩ := hshared c hc hc'
    obtain ⟨rfl, rfl⟩ := hself heq
    obtain rfl := mem_singleton.mp hcP
    exact ⟨by simp, by simp⟩
  · rw [← hmeet]
    refine ⟨fun ⟨c, hc, hc'⟩ => (hshared c hc hc').1, fun heq => ?_⟩
    obtain ⟨rfl, rfl⟩ := hself heq
    exact ⟨a', by simp, by simp⟩

/-- **`fetch_branch_from` of two states with a common ancestor strictly below both**: the two
branches down to a predecessor they share. -/
theorem fetchBranchFrom_spec (hf : IsForest idx.links) (hmem : f ∈ idx.entries)
    (ha : a ∈ idx.entries) (hb : b ∈ idx.entries) (hanca : Anc idx.links a.header.previous f.id)
    (hancb : Anc idx.links b.header.previous f.id) :
    ∃ S T g, fetchBranchFrom idx a.id b.id = .ok (S, T) ∧ g ∈ idx.entries ∧
      Branch idx a.id S g.id ∧ Branch idx b.id T g.id ∧ S ≠ [] ∧ T ≠ [] := by
  obtain ⟨S, hS⟩ := Branch.of_anc hanca
  obtain ⟨T, hT⟩ := Branch.of_anc hancb
  obtain ⟨P, Q, g, R, hfetch, hR, hP, hQ, hPne, hQne, -⟩ :=
    fetchBranchFrom_eq hf (level_of_mem hf hmem) ha hb hS hT
  obtain ⟨c, hc, rfl⟩ := hR.exists_top ⟨f, hmem, rfl⟩
  exact ⟨P, Q, c, hfetch, hc, hP, hQ, hPne, hQne⟩

end Fetch

end Forceio.Chain
