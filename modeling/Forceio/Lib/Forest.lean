import Mathlib.Data.List.Nodup
import Mathlib.Data.List.Perm.Subperm
import Mathlib.Data.Nat.Basic

/-!
# Forests of links

A collection of links, each with an id, the id of its predecessor and a level. In a forest ids are
unique and a link is one level above its predecessor, if that is in the collection.

Results:
* `Anc`: an id or one of its ancestors; `Path`: the links from one id down to another.
* `Anc.total`, `Anc.unique`: ancestors of one id are ancestors of each other, one at each level.
* `mem_removeIds_iff`: the queue that takes an id, its successors, their successors and so on
  reaches exactly the ids above it, in at most as many rounds as there are links.
-/

namespace Forceio.Lib

open List

/-- An id, the id of its predecessor, and its level. -/
structure Link (ι : Type) where
  id : ι
  prev : ι
  num : Nat

namespace Forest

variable {ι : Type}
variable {x y f : Link ι} {l' p : List (Link ι)} {i j : ι}

/-- Ids are unique, and levels go up by one along links. -/
structure IsForest (l : List (Link ι)) : Prop where
  nodup : (l.map Link.id).Nodup
  level : ∀ x ∈ l, ∀ y ∈ l, x.prev = y.id → x.num = y.num + 1

/-- `j` is `i` or an ancestor of it, all links within `l`. -/
inductive Anc (l : List (Link ι)) : ι → ι → Prop where
  | refl {x : Link ι} : x ∈ l → Anc l x.id x.id
  | step {x : Link ι} {j : ι} : x ∈ l → Anc l x.prev j → Anc l x.id j

/-- `p` lists the links of `l` from the one with id `i` down, until a predecessor is `j`. -/
inductive Path (l : List (Link ι)) : ι → List (Link ι) → ι → Prop where
  | nil (i : ι) : Path l i [] i
  | cons {x : Link ι} {p : List (Link ι)} {j : ι} :
      x ∈ l → Path l x.prev p j → Path l x.id (x :: p) j

variable {l : List (Link ι)}

theorem IsForest.eq_of_id (h : IsForest l) (hx : x ∈ l) (hy : y ∈ l) (hid : x.id = y.id) : x = y :=
  inj_on_of_nodup_map h.nodup hx hy hid

theorem IsForest.sublist (h : IsForest l) (hs : l'.Sublist l) : IsForest l' :=
  ⟨h.nodup.sublist (hs.map Link.id), fun x hx y hy => h.level x (hs.subset hx) y (hs.subset hy)⟩

/-! ## Ancestors -/

theorem Anc.mem_left (h : Anc l i j) : ∃ x ∈ l, x.id = i := by
  cases h with
  | refl hx => exact ⟨_, hx, rfl⟩
  | step hx _ => exact ⟨_, hx, rfl⟩

theorem Anc.mem_right (h : Anc l i j) : ∃ y ∈ l, y.id = j := by
  induction h with
  | refl hx => exact ⟨_, hx, rfl⟩
  | step _ _ ih => exact ih

theorem Anc.trans {k : ι} (h : Anc l i j) (h' : Anc l j k) : Anc l i k := by
  induction h with
  | refl _ => exact h'
  | step hx _ ih => exact Anc.step hx (ih h')

theorem anc_iff (hf : IsForest l) (hx : x ∈ l) : Anc l x.id j ↔ j = x.id ∨ Anc l x.prev j := by
  constructor
  · intro h
    generalize hi : x.id = i at h
    cases h with
    | refl _ => exact Or.inl rfl
    | step hy h' =>
      obtain rfl := hf.eq_of_id hx hy hi
      exact Or.inr h'
  · rintro (rfl | h)
    · exact Anc.refl hx
    · exact Anc.step hx h

theorem Anc.num_le (hf : IsForest l) (h : Anc l i j) :
    ∀ x ∈ l, x.id = i → ∀ y ∈ l, y.id = j → y.num ≤ x.num := by
  induction h with
  | refl _ =>
    intro x hx hi y hy hj
    exact le_of_eq (congrArg Link.num (hf.eq_of_id hy hx (hj.trans hi.symm)))
  | step hz h' ih =>
    intro x hx hi y hy hj
    obtain rfl := hf.eq_of_id hx hz hi
    obtain ⟨w, hw, hwid⟩ := h'.mem_left
    have hle := ih w hw hwid y hy hj
    have hlevel := hf.level x hx w hw hwid.symm
    omega

theorem Anc.num_lt (hf : IsForest l) (hx : x ∈ l) (hy : y ∈ l) (h : Anc l x.prev y.id) :
    y.num < x.num := by
  obtain ⟨w, hw, hwid⟩ := h.mem_left
  have hle := h.num_le hf w hw hwid y hy rfl
  have hlevel := hf.level x hx w hw hwid.symm
  omega

theorem Anc.eq_of_num (hf : IsForest l) (hx : x ∈ l) (hy : y ∈ l) (h : Anc l x.id y.id)
    (hn : x.num ≤ y.num) : x = y := by
  rcases (anc_iff hf hx).mp h with heq | h'
  · exact hf.eq_of_id hx hy heq.symm
  · exact absurd (h'.num_lt hf hx hy) (not_lt.mpr hn)

theorem Anc.mono (hsub : ∀ x ∈ l, x ∈ l') (h : Anc l i j) : Anc l' i j := by
  induction h with
  | refl hx => exact Anc.refl (hsub _ hx)
  | step hx _ ih => exact Anc.step (hsub _ hx) ih

theorem Anc.total (hf : IsForest l) (hx : x ∈ l) (hy : y ∈ l) (h : Anc l i x.id) (h' : Anc l i y.id)
    (hn : y.num ≤ x.num) : Anc l x.id y.id := by
  generalize hk : x.id = k at h
  induction h with
  | refl _ => exact h'
  | step hz h1 ih =>
    subst hk
    rcases (anc_iff hf hz).mp h' with hid | h2
    · obtain rfl := hf.eq_of_id hy hz hid
      exact absurd (h1.num_lt hf hz hx) (not_lt.mpr hn)
    · exact ih h2 rfl

theorem Anc.unique (hf : IsForest l) (hx : x ∈ l) (hy : y ∈ l) (h : Anc l i x.id)
    (h' : Anc l i y.id) (hn : x.num = y.num) : x = y :=
  (h.total hf hx hy h' (le_of_eq hn.symm)).eq_of_num hf hx hy (le_of_eq hn)

theorem Anc.exists_above (h : Anc l i j) (hne : i ≠ j) : ∃ x ∈ l, x.prev = j ∧ Anc l i x.id := by
  induction h with
  | refl _ => exact absurd rfl hne
  | @step x j hx h ih =>
    by_cases hprev : x.prev = j
    · exact ⟨x, hx, hprev, Anc.refl hx⟩
    · obtain ⟨y, hy, hyj, hanc⟩ := ih hprev
      exact ⟨y, hy, hyj, Anc.step hx hanc⟩

/-- Where links above level `m` have their predecessors, every link has an ancestor at level `m`. -/
theorem exists_lowest (hf : IsForest l) {m : Nat}
    (hroot : ∀ x ∈ l, m < x.num → ∃ y ∈ l, y.id = x.prev) :
    ∀ (k : Nat) (x : Link ι), x ∈ l → x.num = m + k → ∃ y ∈ l, y.num = m ∧ Anc l x.id y.id
  | 0, x, hx, hnum => ⟨x, hx, hnum, Anc.refl hx⟩
  | k + 1, x, hx, hnum => by
    obtain ⟨y, hy, hid⟩ := hroot x hx (by omega)
    have hlevel := hf.level x hx y hy hid.symm
    obtain ⟨z, hz, hzm, hanc⟩ := exists_lowest hf hroot k y hy (by omega)
    exact ⟨z, hz, hzm, Anc.step hx (hid ▸ hanc)⟩

/-- An ancestor stays one in a smaller collection that keeps everything in between. -/
theorem Anc.of_between (h : Anc l i j) (hkeep : ∀ x ∈ l, Anc l i x.id → Anc l x.id j → x ∈ l') :
    Anc l' i j := by
  induction h with
  | refl hx => exact Anc.refl (hkeep _ hx (Anc.refl hx) (Anc.refl hx))
  | step hx h ih =>
    refine Anc.step (hkeep _ hx (Anc.refl hx) (Anc.step hx h)) (ih fun y hy h1 h2 => ?_)
    exact hkeep y hy (Anc.step hx h1) h2

/-- A new link without successors adds no ancestors to the others. -/
theorem anc_append_iff {n : Link ι} (hn : ∀ x ∈ l, x.prev ≠ n.id) (hi : i ≠ n.id) :
    Anc (l ++ [n]) i j ↔ Anc l i j := by
  constructor
  · intro h
    induction h with
    | refl hx =>
      rcases mem_append.mp hx with hx | hx
      · exact Anc.refl hx
      · rw [mem_singleton.mp hx] at hi
        exact absurd rfl hi
    | step hx _ ih =>
      rcases mem_append.mp hx with hx | hx
      · exact Anc.step hx (ih (hn _ hx))
      · rw [mem_singleton.mp hx] at hi
        exact absurd rfl hi
  · exact fun h => h.mono fun x hx => mem_append_left _ hx

/-- Whether `j` is among the first `fuel` ids from `i` down. -/
def isAnc [DecidableEq ι] (l : List (Link ι)) : Nat → ι → ι → Bool
  | 0, _, _ => false
  | fuel + 1, i, j => l.any fun x => x.id = i && (x.id = j || isAnc l fuel x.prev j)

theorem anc_of_isAnc [DecidableEq ι] : ∀ {fuel : Nat} {i j : ι}, isAnc l fuel i j = true → Anc l i j
  | 0, _, _, h => absurd h (by simp [isAnc])
  | fuel + 1, i, j, h => by
    obtain ⟨x, hx, hcheck⟩ := any_eq_true.mp h
    rw [Bool.and_eq_true, Bool.or_eq_true, decide_eq_true_eq, decide_eq_true_eq] at hcheck
    obtain ⟨rfl, rfl | hrest⟩ := hcheck
    · exact Anc.refl hx
    · exact Anc.step hx (anc_of_isAnc hrest)

/-! ## Paths -/

theorem Path.mem (h : Path l i p j) : ∀ x ∈ p, x ∈ l := by
  induction h with
  | nil _ => exact fun x hx => absurd hx not_mem_nil
  | cons hx _ ih =>
    intro y hy
    rcases mem_cons.mp hy with rfl | hy
    · exact hx
    · exact ih y hy

/-- **The ancestors of the top of a path** are its ids and the ancestors below it. -/
theorem Path.anc_iff (hf : IsForest l) {k : ι} (h : Path l i p j) :
    Anc l i k ↔ k ∈ p.map Link.id ∨ Anc l j k := by
  induction h with
  | nil i => simp
  | cons hx _ ih => rw [Forest.anc_iff hf hx, ih, map_cons, mem_cons, or_assoc]

theorem Path.num_eq (hf : IsForest l) (hy : y ∈ l) (h : Path l i p y.id) :
    ∀ x ∈ l, x.id = i → x.num = y.num + p.length := by
  generalize hj : y.id = j at h
  induction h with
  | nil i =>
    intro x hx hi
    rw [hf.eq_of_id hx hy (hi.trans hj.symm)]
    rfl
  | @cons z p j hz hp ih =>
    intro x hx hi
    obtain rfl := hf.eq_of_id hx hz hi
    obtain ⟨w, hw, hid⟩ : ∃ w ∈ l, w.id = x.prev := by
      generalize x.prev = i at hp
      cases hp with
      | nil _ => exact ⟨y, hy, hj⟩
      | cons hw _ => exact ⟨_, hw, rfl⟩
    rw [hf.level x hx w hw hid.symm, ih hj w hw hid, length_cons]
    omega

theorem Path.nodup (hf : IsForest l) (h : Path l i p j) : (p.map Link.id).Nodup := by
  induction h with
  | nil _ => exact nodup_nil
  | @cons x p j hx hp ih =>
    refine nodup_cons.mpr ⟨fun hmem => ?_, ih⟩
    have hanc : Anc l x.prev x.id := (hp.anc_iff hf).mpr (Or.inl hmem)
    exact lt_irrefl _ (hanc.num_lt hf hx hx)

theorem Path.length_le (hf : IsForest l) (h : Path l i p j) : p.length ≤ l.length := by
  have hsub : (p.map Link.id).Subperm (l.map Link.id) := by
    refine subperm_of_subset (h.nodup hf) fun k hk => ?_
    obtain ⟨x, hx, rfl⟩ := mem_map.mp hk
    exact mem_map_of_mem (h.mem x hx)
  simpa using hsub.length_le

/-! ## Taking out a subtree -/

section Removal

/-- The queue on the way: ids of links that are left, none twice, and behind the first of them only
ids whose predecessor has been taken. -/
structure Queue (l : List (Link ι)) (q : List ι) : Prop where
  ids : (l.map Link.id).Nodup
  nodup : q.Nodup
  mem : ∀ k ∈ q, ∃ x ∈ l, x.id = k
  origin : ∀ x ∈ l, x.id ∈ q.tail → ∀ y ∈ l, y.id ≠ x.prev

theorem Queue.single (h : (l.map Link.id).Nodup) (hf : f ∈ l) : Queue l [f.id] :=
  ⟨h, nodup_singleton _, fun _ hk => ⟨f, hf, (mem_singleton.mp hk).symm⟩,
    fun _ _ hx => absurd hx not_mem_nil⟩

variable [DecidableEq ι]

/-- The ids that follow `i`. -/
def children (l : List (Link ι)) (i : ι) : List ι :=
  (l.filter fun x => x.prev = i).map Link.id

/-- The ids a queue takes out, in order: each in turn, after which its successors are queued. -/
def removeIds : Nat → List ι → List (Link ι) → List ι
  | 0, _, _ => []
  | _ + 1, [], _ => []
  | fuel + 1, i :: q, l =>
    let l := l.filter fun x => x.id ≠ i
    i :: removeIds fuel (q ++ children l i) l

theorem mem_children {k : ι} : k ∈ children l i ↔ ∃ x ∈ l, x.prev = i ∧ x.id = k := by
  simp [children, and_assoc]

/-- Nothing is taken out but what a set closed under successors holds. -/
theorem removeIds_subset (S : ι → Prop) : ∀ (fuel : Nat) (q : List ι) (l : List (Link ι)),
    (∀ i ∈ q, S i) → (∀ x ∈ l, S x.prev → S x.id) → ∀ k ∈ removeIds fuel q l, S k
  | 0, _, _, _, _, _, hk => absurd hk not_mem_nil
  | _ + 1, [], _, _, _, _, hk => absurd hk not_mem_nil
  | fuel + 1, i :: q, l, hq, hl, k, hk => by
    rcases mem_cons.mp hk with rfl | hk
    · exact hq _ mem_cons_self
    · refine removeIds_subset S fuel _ _ (fun j hj => ?_)
        (fun x hx => hl x (mem_filter.mp hx).1) k hk
      rcases mem_append.mp hj with hj | hj
      · exact hq j (mem_cons_of_mem _ hj)
      · obtain ⟨x, hx, hprev, rfl⟩ := mem_children.mp hj
        exact hl x (mem_filter.mp hx).1 (hprev ▸ hq i mem_cons_self)

theorem Queue.step {q : List ι} (h : Queue l (i :: q)) :
    Queue (l.filter fun x => x.id ≠ i) (q ++ children (l.filter fun x => x.id ≠ i) i) := by
  obtain ⟨hi, hq⟩ := nodup_cons.mp h.nodup
  have hmem : ∀ {x}, x ∈ l.filter (fun x => x.id ≠ i) ↔ x ∈ l ∧ x.id ≠ i := by simp
  have hchild : ∀ {k}, k ∈ children (l.filter fun x => x.id ≠ i) i →
      ∃ x ∈ l, x.id ≠ i ∧ x.prev = i ∧ x.id = k := fun hk => by
    obtain ⟨x, hx, hprev, hid⟩ := mem_children.mp hk
    exact ⟨x, (hmem.mp hx).1, (hmem.mp hx).2, hprev, hid⟩
  obtain ⟨y, hy, hyi⟩ := h.mem i mem_cons_self
  refine ⟨h.ids.sublist (filter_sublist.map _), ?_, fun k hk => ?_, fun x hx hxq z hz => ?_⟩
  · refine hq.append (h.ids.sublist ((filter_sublist.trans filter_sublist).map _)) ?_
    intro k hk hk'
    obtain ⟨x, hx, -, hprev, rfl⟩ := hchild hk'
    exact h.origin x hx hk y hy (hyi.trans hprev.symm)
  · rcases mem_append.mp hk with hk | hk
    · obtain ⟨x, hx, rfl⟩ := h.mem k (mem_cons_of_mem _ hk)
      exact ⟨x, hmem.mpr ⟨hx, fun heq => hi (heq ▸ hk)⟩, rfl⟩
    · obtain ⟨x, hx, hne, -, hid⟩ := hchild hk
      exact ⟨x, hmem.mpr ⟨hx, hne⟩, hid⟩
  · rcases mem_append.mp (mem_of_mem_tail hxq) with hk | hk
    · exact h.origin x (hmem.mp hx).1 hk z (hmem.mp hz).1
    · obtain ⟨w, hw, -, hprev, hid⟩ := hchild hk
      obtain rfl := inj_on_of_nodup_map h.ids hw (hmem.mp hx).1 hid
      exact hprev ▸ (hmem.mp hz).2

theorem Queue.length_lt {q : List ι} (h : Queue l (i :: q)) :
    (l.filter fun x => x.id ≠ i).length < l.length := by
  obtain ⟨x, hx, hid⟩ := h.mem i mem_cons_self
  exact length_filter_lt_length_iff_exists.mpr ⟨x, hx, by simp [hid]⟩

/-- With enough rounds the queue runs dry: all that is above an id taken is taken. -/
theorem Queue.closed : ∀ (fuel : Nat) (q : List ι) (l : List (Link ι)), Queue l q →
    l.length ≤ fuel → (∀ k ∈ q, k ∈ removeIds fuel q l) ∧
      ∀ x ∈ l, x.prev ∈ removeIds fuel q l → x.id ∈ removeIds fuel q l
  | 0, q, l, h, hfuel => by
    obtain rfl := eq_nil_of_length_eq_zero (Nat.le_zero.mp hfuel)
    exact ⟨fun k hk => absurd (h.mem k hk) (by simp), fun x hx => absurd hx not_mem_nil⟩
  | fuel + 1, [], l, _, _ => by simp [removeIds]
  | fuel + 1, i :: q, l, h, hfuel => by
    obtain ⟨h1, h2⟩ := Queue.closed fuel _ _ h.step (by have := h.length_lt; omega)
    refine ⟨fun k hk => ?_, fun x hx hprev => ?_⟩
    · rcases mem_cons.mp hk with rfl | hk
      · exact mem_cons_self
      · exact mem_cons_of_mem _ (h1 k (mem_append_left _ hk))
    · by_cases hid : x.id = i
      · exact hid ▸ mem_cons_self
      · have hx' : x ∈ l.filter fun x => x.id ≠ i := mem_filter.mpr ⟨hx, by simpa using hid⟩
        refine mem_cons_of_mem _ ?_
        rcases mem_cons.mp hprev with hi | hprev
        · exact h1 _ (mem_append_right _ (mem_children.mpr ⟨x, hx', hi, rfl⟩))
        · exact h2 x hx' hprev

/-- **The queue started at `f` takes out exactly what is above `f`**, itself included. -/
theorem mem_removeIds_iff (hids : (l.map Link.id).Nodup) (hmem : f ∈ l) {fuel : Nat}
    (hfuel : l.length ≤ fuel) {k : ι} : k ∈ removeIds fuel [f.id] l ↔ Anc l k f.id := by
  constructor
  · refine removeIds_subset (fun k => Anc l k f.id) fuel _ _ (fun i hi => ?_)
      (fun x hx h => Anc.step hx h) k
    rw [mem_singleton.mp hi]
    exact Anc.refl hmem
  · obtain ⟨hroot, hclosed⟩ := Queue.closed fuel _ _ (Queue.single hids hmem) hfuel
    have hroot := hroot f.id mem_cons_self
    generalize removeIds fuel [f.id] l = R at hroot hclosed ⊢
    generalize f.id = j at hroot ⊢
    intro h
    induction h with
    | refl _ => exact hroot
    | step hx _ ih => exact hclosed _ hx (ih hroot)

end Removal

/-- Without what is above `f`, the others keep their ancestors. -/
theorem anc_removed {f : ι} (hsub : ∀ x ∈ l', x ∈ l) (hkeep : ∀ x ∈ l, ¬ Anc l x.id f → x ∈ l')
    (hi : ¬ Anc l i f) : Anc l' i j ↔ Anc l i j := by
  constructor
  · exact fun h => h.mono hsub
  · intro h
    exact h.of_between fun x hx h1 _ => hkeep x hx fun h2 => hi (h1.trans h2)

end Forest

end Forceio.Lib
