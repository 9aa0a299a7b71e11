import Forceio.Chain.ForkDatabase

/-!
# What a completed confirmation raises: `set_bft_irreversible`

`set_bft_irreversible` raises the BFT irreversible number of a state and then, layer by layer, of the
states built on it. A layer goes on only through states it raised, and a state whose number is
already as high stops the traversal.

* `Reaches idx num i k`: the traversal that raises to `num` from `i` gets to `k`.
* `RaiseRun idx num ks idx'`: `idx'` is `idx` after raising the states `ks` one by one. It is what
  the three nested loops amount to.

Result:
* `mem_bftRaised`: the states after `set_bft_irreversible`.
-/

namespace Forceio.Chain

open Forceio.Lib ForkDatabase ForkIndex OrderedIndex List

variable {Key Sig : Type}

/-- What `set_bft_irreversible` reaches from `i`: the states built on it, through states whose BFT
number is below `num`. -/
inductive Reaches (idx : ForkIndex Key Sig) (num : Nat) (i : Sha256) : Sha256 → Prop where
  | self : Reaches idx num i i
  | child {b : BlockState Key Sig} : b ∈ idx.entries → b.bftIrreversibleBlocknum < num →
      Reaches idx num i b.header.previous → Reaches idx num i b.id

/-- Raising the states `ks`, one after the other, each found below `num`. -/
inductive RaiseRun (num : Nat) : ForkIndex Key Sig → List Sha256 → ForkIndex Key Sig → Prop where
  | nil (idx : ForkIndex Key Sig) : RaiseRun num idx [] idx
  | cons {idx idx' : ForkIndex Key Sig} {ks : List Sha256} {b : BlockState Key Sig} :
      b ∈ idx.entries → b.bftIrreversibleBlocknum < num →
      RaiseRun num (idx.raise b.id num) ks idx' →
      RaiseRun num idx (b.id :: ks) idx'

variable {num : Nat} {idx idx' idx'' : ForkIndex Key Sig} {ks ks' : List Sha256}

/-! ## Runs of raisings -/

section

variable (h : RaiseRun num idx ks idx')

include h

theorem RaiseRun.append (h' : RaiseRun num idx' ks' idx'') :
    RaiseRun num idx (ks ++ ks') idx'' := by
  induction h with
  | nil _ => exact h'
  | cons hb hlt _ ih => exact RaiseRun.cons hb hlt (ih h')

theorem RaiseRun.entries_eq :
    idx'.entries = idx.entries.map fun b => if b.id ∈ ks then b.raised num else b := by
  induction h with
  | nil idx => simp
  | @cons idx idx' ks b hb hlt hrest ih =>
    rw [ih]
    show (mapWhere _ _ idx.entries).map _ = _
    unfold mapWhere
    rw [map_map]
    refine map_congr_left fun c _ => ?_
    by_cases hc : c.id = b.id
    · have hin : c.id ∈ b.id :: ks := by rw [hc]; exact mem_cons_self
      rw [if_pos hin]
      simp only [Function.comp, hc, decide_true, if_true]
      split <;> rfl
    · have hiff : c.id ∈ b.id :: ks ↔ c.id ∈ ks := by simp [hc]
      simp [Function.comp, hc]

theorem RaiseRun.mem_iff {c : BlockState Key Sig} :
    c ∈ idx'.entries ↔ ∃ b ∈ idx.entries, c = if b.id ∈ ks then b.raised num else b := by
  rw [h.entries_eq, mem_map]
  exact exists_congr fun b => and_congr_right fun _ => eq_comm

theorem RaiseRun.links : idx'.links = idx.links := by
  induction h with
  | nil _ => rfl
  | cons _ _ _ ih => exact ih.trans (links_modify fun _ => rfl)

/-- What a run raises was below `num`, and it raises nothing twice. -/
theorem RaiseRun.found_below :
    ks.Nodup ∧ ∀ k ∈ ks, ∃ b ∈ idx.entries, b.id = k ∧ b.bftIrreversibleBlocknum < num := by
  induction h with
  | nil _ => exact ⟨nodup_nil, fun k hk => absurd hk not_mem_nil⟩
  | @cons idx idx' ks b hb hlt hrest ih =>
    obtain ⟨hnd, hall⟩ := ih
    have hpull : ∀ k ∈ ks, k ≠ b.id ∧
        ∃ c ∈ idx.entries, c.id = k ∧ c.bftIrreversibleBlocknum < num := by
      intro k hk
      obtain ⟨c, hc, rfl, hclt⟩ := hall k hk
      obtain ⟨a, ha, rfl⟩ := mem_modify.mp hc
      split at hclt
      · exact absurd hclt (lt_irrefl num)
      · rename_i hne
        rw [if_neg hne]
        exact ⟨hne, a, ha, rfl, hclt⟩
    refine ⟨nodup_cons.mpr ⟨fun hk => (hpull _ hk).1 rfl, hnd⟩, fun k hk => ?_⟩
    rcases mem_cons.mp hk with rfl | hk
    · exact ⟨b, hb, rfl, hlt⟩
    · exact (hpull k hk).2

/-- **A first state that is not raised stays first**, if no state is raised past it. -/
theorem RaiseRun.head_of_le {a : BlockState Key Sig} (ha : idx.byLibBlockNum.head? = some a)
    (hnot : a.id ∉ ks) (hle : ∀ b ∈ idx.entries, b.id ∈ ks → a.libKey ≤ (b.raised num).libKey) :
    idx'.byLibBlockNum.head? = some a := by
  induction h with
  | nil _ => exact ha
  | @cons idx idx' ks b hb hlt hrest ih =>
    have hne : a.id ≠ b.id := fun heq => hnot (by rw [heq]; exact mem_cons_self)
    refine ih ?_ (fun hk => hnot (mem_cons_of_mem _ hk)) fun c hc hk => ?_
    · refine head?_modify_of_le ha (by simpa using hne) fun c hc hcb => ?_
      obtain rfl := eq_of_id (mem_byLib.mp hc) hb (by simpa using hcb)
      exact hle c hb mem_cons_self
    · obtain ⟨d, hd, rfl⟩ := mem_modify.mp hc
      split at hk
      · rename_i heq
        rw [if_pos heq]
        exact hle d hd (mem_cons_of_mem _ hk)
      · rename_i hneq
        rw [if_neg hneq]
        exact hle d hd (mem_cons_of_mem _ hk)

end

/-! ## The loops -/

/-- The inner loop raises what it finds below `num` in the range. -/
theorem raiseRange_spec (num : Nat) : ∀ (range : List Sha256) (idx : ForkIndex Key Sig),
    RaiseRun num idx (raiseRange num range idx).2 (raiseRange num range idx).1 ∧
      (∀ k ∈ (raiseRange num range idx).2, k ∈ range) ∧
      ∀ b ∈ idx.entries, b.id ∈ range → b.bftIrreversibleBlocknum < num →
        b.id ∈ (raiseRange num range idx).2
  | [], idx => ⟨RaiseRun.nil idx, fun k hk => hk, fun b _ hk => absurd hk not_mem_nil⟩
  | i :: range, idx => by
    unfold raiseRange
    cases hfind : idx.find i with
    | none =>
      obtain ⟨h1, h2, h3⟩ := raiseRange_spec num range idx
      refine ⟨h1, fun k hk => mem_cons_of_mem _ (h2 k hk), fun b hb hk hlt => ?_⟩
      rcases mem_cons.mp hk with hi | hk
      · exact absurd hi (find_eq_none_iff.mp hfind b hb)
      · exact h3 b hb hk hlt
    | some a =>
      obtain ⟨ha, rfl⟩ := find_eq_some_iff.mp hfind
      simp only
      split
      · rename_i halt
        obtain ⟨h1, h2, h3⟩ := raiseRange_spec num range (idx.raise a.id num)
        refine ⟨RaiseRun.cons ha halt h1, fun k hk => ?_, fun b hb hk hlt => ?_⟩
        · rcases mem_cons.mp hk with rfl | hk
          · exact mem_cons_self
          · exact mem_cons_of_mem _ (h2 k hk)
        · by_cases hba : b.id = a.id
          · rw [hba]
            exact mem_cons_self
          · have hk : b.id ∈ range := (mem_cons.mp hk).resolve_left hba
            refine mem_cons_of_mem _ (h3 b (mem_modify.mpr ⟨b, hb, ?_⟩) hk hlt)
            rw [if_neg hba]
      · rename_i hage
        obtain ⟨h1, h2, h3⟩ := raiseRange_spec num range idx
        refine ⟨h1, fun k hk => mem_cons_of_mem _ (h2 k hk), fun b hb hk hlt => ?_⟩
        rcases mem_cons.mp hk with hi | hk
        · obtain rfl := eq_of_id hb ha hi
          exact absurd hlt hage
        · exact h3 b hb hk hlt

theorem mem_children {i k : Sha256} :
    k ∈ idx.children i ↔ ∃ b ∈ idx.entries, b.header.previous = i ∧ b.id = k := by
  unfold children
  simp [and_assoc]

/-- A layer raises what is below `num` among the states that follow it. -/
theorem update_spec (num : Nat) : ∀ (layer : List Sha256) (idx : ForkIndex Key Sig),
    RaiseRun num idx (update num layer idx).2 (update num layer idx).1 ∧
      (∀ k ∈ (update num layer idx).2, ∃ b ∈ idx.entries, b.id = k ∧ b.header.previous ∈ layer) ∧
      ∀ b ∈ idx.entries, b.header.previous ∈ layer → b.bftIrreversibleBlocknum < num →
        b.id ∈ (update num layer idx).2
  | [], idx => ⟨RaiseRun.nil idx, fun k hk => absurd hk not_mem_nil,
      fun b _ hk => absurd hk not_mem_nil⟩
  | i :: layer, idx => by
    obtain ⟨h1, h2, h3⟩ := raiseRange_spec num (idx.children i) idx
    obtain ⟨g1, g2, g3⟩ := update_spec num layer (raiseRange num (idx.children i) idx).1
    refine ⟨h1.append g1, fun k hk => ?_, fun b hb hprev hlt => ?_⟩
    · rcases mem_append.mp hk with hk | hk
      · obtain ⟨b, hb, hprev, hid⟩ := mem_children.mp (h2 k hk)
        exact ⟨b, hb, hid, by rw [hprev]; exact mem_cons_self⟩
      · obtain ⟨c, hc, hid, hprev⟩ := g2 k hk
        obtain ⟨b, hb, rfl⟩ := h1.mem_iff.mp hc
        refine ⟨b, hb, ?_, mem_cons_of_mem _ ?_⟩
        · split at hid <;> exact hid
        · split at hprev <;> exact hprev
    · by_cases hin : b.id ∈ (raiseRange num (idx.children i) idx).2
      · exact mem_append_left _ hin
      · rcases mem_cons.mp hprev with hi | hprev
        · exact absurd (h3 b hb (mem_children.mpr ⟨b, hb, hi, rfl⟩) hlt) hin
        · refine mem_append_right _ (g3 b (h1.mem_iff.mpr ⟨b, hb, ?_⟩) hprev hlt)
          rw [if_neg hin]

/-- The traversal on the way from `idx`: the states raised so far, with the root first, are those
whose successors were looked at and those of the next layer. -/
structure Wave (num : Nat) (idx : ForkIndex Key Sig) (root : Sha256) (done layer ks : List Sha256)
    (idx' : ForkIndex Key Sig) : Prop where
  run : RaiseRun num idx ks idx'
  split : root :: ks = done ++ layer
  sound : ∀ k ∈ ks, Reaches idx num root k
  closed : ∀ b ∈ idx.entries, b.header.previous ∈ done → b.bftIrreversibleBlocknum < num →
    b.id ∈ done ++ layer

variable {root : Sha256} {done layer : List Sha256}

theorem Wave.step (h : Wave num idx root done layer ks idx') :
    Wave num idx root (done ++ layer) (update num layer idx').2 (ks ++ (update num layer idx').2)
      (update num layer idx').1 := by
  obtain ⟨h1, h2, h3⟩ := update_spec num layer idx'
  have hrun := h.run.append h1
  refine ⟨hrun, by rw [← h.split, cons_append], fun k hk => ?_, fun b hb hprev hlt => ?_⟩
  · rcases mem_append.mp hk with hk' | hk'
    · exact h.sound k hk'
    · obtain ⟨b, hb, rfl, hlt⟩ := hrun.found_below.2 k hk
      refine Reaches.child hb hlt ?_
      obtain ⟨c, hc, hid, hprev⟩ := h2 b.id hk'
      obtain ⟨a, ha, rfl⟩ := h.run.mem_iff.mp hc
      obtain rfl : a = b := eq_of_id ha hb (by split at hid <;> exact hid)
      have hprev' : a.header.previous ∈ layer := by split at hprev <;> exact hprev
      have hin : a.header.previous ∈ root :: ks := h.split ▸ mem_append_right _ hprev'
      rcases mem_cons.mp hin with heq | hks
      · rw [heq]
        exact Reaches.self
      · exact h.sound _ hks
  · rcases mem_append.mp hprev with hdone | hlayer
    · exact mem_append_left _ (h.closed b hb hdone hlt)
    · by_cases hks : b.id ∈ ks
      · refine mem_append_left _ ?_
        rw [← h.split]
        exact mem_cons_of_mem _ hks
      · refine mem_append_right _ (h3 b (h.run.mem_iff.mpr ⟨b, hb, ?_⟩) hlayer hlt)
        rw [if_neg hks]

variable {r : BlockState Key Sig}

/-- No state is raised twice, and the root is not raised again, so a wave is no larger than the
index. -/
theorem Wave.length_le (h : Wave num idx root done layer ks idx') (hr : r ∈ idx.entries)
    (hid : r.id = root) (hge : num ≤ r.bftIrreversibleBlocknum) :
    done.length + layer.length ≤ idx.entries.length := by
  obtain ⟨hnd, hall⟩ := h.run.found_below
  have hnot : root ∉ ks := fun hk => by
    obtain ⟨b, hb, hbid, hlt⟩ := hall root hk
    rw [eq_of_id hb hr (hbid.trans hid.symm)] at hlt
    exact absurd hlt (not_lt.mpr hge)
  have hsub : (root :: ks).Subperm (idx.entries.map fun b => b.id) := by
    refine subperm_of_subset (nodup_cons.mpr ⟨hnot, hnd⟩) fun k hk => ?_
    rcases mem_cons.mp hk with rfl | hk
    · exact hid ▸ mem_map_of_mem hr
    · obtain ⟨b, hb, rfl, -⟩ := hall k hk
      exact mem_map_of_mem hb
  have hle := hsub.length_le
  rw [h.split, length_append, length_map] at hle
  exact hle

/-- A wave without a next layer has reached everything. -/
theorem Wave.reaches_iff (h : Wave num idx root done [] ks idx') {k : Sha256} :
    k = root ∨ k ∈ ks ↔ Reaches idx num root k := by
  have hdone : done = root :: ks := by rw [h.split, append_nil]
  constructor
  · rintro (rfl | hk)
    · exact Reaches.self
    · exact h.sound k hk
  · intro hr
    rw [← mem_cons]
    induction hr with
    | self => exact mem_cons_self
    | child hb hlt _ ih =>
      have := h.closed _ hb (by rw [hdone]; exact ih) hlt
      rwa [append_nil, hdone] at this

theorem Wave.updateLoop (hr : r ∈ idx.entries) (hid : r.id = root)
    (hge : num ≤ r.bftIrreversibleBlocknum) :
    ∀ (fuel : Nat) (done layer ks : List Sha256) (idx' : ForkIndex Key Sig),
      Wave num idx root done layer ks idx' → idx.entries.length ≤ fuel + done.length →
      (∃ done' ks', Wave num idx root done' [] ks' (ForkDatabase.updateLoop num fuel layer idx')) ∧
        ∀ k, ForkDatabase.updateLoop num (fuel + k) layer idx' =
          ForkDatabase.updateLoop num fuel layer idx'
  | 0, done, layer, ks, idx', h, hfuel => by
    have hle := h.length_le hr hid hge
    obtain rfl : layer = [] := eq_nil_of_length_eq_zero (by omega)
    exact ⟨⟨done, ks, h⟩, fun k => by cases k <;> rfl⟩
  | fuel + 1, done, [], ks, idx', h, _ => ⟨⟨done, ks, h⟩, fun k => by rw [Nat.add_right_comm]; rfl⟩
  | fuel + 1, done, i :: layer, ks, idx', h, hfuel => by
    obtain ⟨hwave, hsame⟩ := Wave.updateLoop hr hid hge fuel _ _ _ _ h.step (by
      rw [length_append, length_cons]
      omega)
    refine ⟨hwave, fun k => ?_⟩
    rw [Nat.add_right_comm]
    exact hsame k

/-- **The traversal raises exactly what it reaches.** -/
theorem updateLoop_spec (hr : r ∈ idx.entries) (hge : num ≤ r.bftIrreversibleBlocknum) {fuel : Nat}
    (hfuel : idx.entries.length ≤ fuel) :
    (∃ ks, RaiseRun num idx ks (updateLoop num fuel [r.id] idx) ∧
      ∀ k, k = r.id ∨ k ∈ ks ↔ Reaches idx num r.id k) ∧
      ∀ k, updateLoop num (fuel + k) [r.id] idx = updateLoop num fuel [r.id] idx := by
  have hstart : Wave num idx r.id [] [r.id] [] idx :=
    ⟨RaiseRun.nil idx, rfl, fun k hk => absurd hk not_mem_nil, fun b _ hk => absurd hk not_mem_nil⟩
  obtain ⟨⟨done, ks, h⟩, hsame⟩ := hstart.updateLoop hr rfl hge fuel _ _ _ _ (by simpa using hfuel)
  exact ⟨⟨ks, h.run, fun k => h.reaches_iff⟩, hsame⟩

/-! ## The first state -/

/-- A higher BFT number puts a state further to the front. -/
theorem libKey_raised_lt {b : BlockState Key Sig} (h : b.bftIrreversibleBlocknum < num)
    : (b.raised num).libKey < b.libKey := by
  refine OrderDual.toDual_lt_toDual.mpr (Prod.Lex.toLex_lt_toLex.mpr (Or.inr ⟨rfl, ?_⟩))
  exact Prod.Lex.toLex_lt_toLex.mpr (Or.inl h)

/-- The reach does not depend on the root's own numbers. -/
theorem Reaches.mono {idx' : ForkIndex Key Sig} {i k : Sha256}
    (hsub : ∀ b ∈ idx.entries, b.id ≠ i → b ∈ idx'.entries) (h : Reaches idx num i k) :
    Reaches idx' num i k := by
  induction h with
  | self => exact Reaches.self
  | @child b hb hlt _ ih =>
    by_cases hid : b.id = i
    · rw [hid]
      exact Reaches.self
    · exact Reaches.child (hsub b hb hid) hlt ih

/-- What is reached from another state has a BFT number below the one it is raised to. -/
theorem Reaches.bft_lt {b : BlockState Key Sig} {i : Sha256} (hb : b ∈ idx.entries)
    (h : Reaches idx num i b.id) : b.id = i ∨ b.bftIrreversibleBlocknum < num := by
  generalize hk : b.id = k at h
  cases h with
  | self => exact Or.inl rfl
  | child hc hclt _ => exact Or.inr (eq_of_id hb hc hk ▸ hclt)

/-- The index after `set_bft_irreversible` of the state `b`. -/
def bftRaised (idx : ForkIndex Key Sig) (b : BlockState Key Sig) : ForkIndex Key Sig :=
  let index := idx.raise b.id b.blockNum
  updateLoop b.blockNum (index.entries.length + 1) [b.id] index

/-- `h` stays ahead when the states built on `b` are raised: either it is raised with them and then
strictly better than all of them, or none of them is raised past it. -/
def StaysFirst (idx : ForkIndex Key Sig) (b h : BlockState Key Sig) : Prop :=
  (Reaches idx b.blockNum b.id h.id ∧ ∀ x ∈ idx.entries, Reaches idx b.blockNum b.id x.id →
      x.id ≠ h.id → (h.raised b.blockNum).libKey < (x.raised b.blockNum).libKey) ∨
    (¬ Reaches idx b.blockNum b.id h.id ∧ ∀ x ∈ idx.entries,
      Reaches idx b.blockNum b.id x.id → h.libKey ≤ (x.raised b.blockNum).libKey)

section Raise

variable {idx : ForkIndex Key Sig} {b : BlockState Key Sig}

variable (hb : b ∈ idx.entries)

include hb

theorem mem_raise : b.raised b.blockNum ∈ (idx.raise b.id b.blockNum).entries :=
  mem_modify.mpr ⟨b, hb, (if_pos rfl).symm⟩

/-- **What `set_bft_irreversible` raises**: the run of raisings after the first one, and the states
it leaves. -/
theorem bftRaised_run : ∃ ks, RaiseRun b.blockNum (idx.raise b.id b.blockNum) ks (bftRaised idx b) ∧
      ∀ k, k = b.id ∨ k ∈ ks ↔ Reaches idx b.blockNum b.id k := by
  obtain ⟨ks, hrun, hiff⟩ := (updateLoop_spec (mem_raise hb) (le_refl b.blockNum) (Nat.le_succ _)).1
  refine ⟨ks, hrun, fun k => (hiff k).trans ⟨Reaches.mono fun c hc hne => ?_,
    Reaches.mono fun c hc hne => ?_⟩⟩
  · obtain ⟨a, ha, rfl⟩ := mem_modify.mp hc
    split at hne
    · rename_i heq
      exact absurd heq hne
    · rename_i hneq
      rwa [if_neg hneq]
  · exact mem_modify.mpr ⟨c, hc, (if_neg hne).symm⟩

theorem links_bftRaised : (bftRaised idx b).links = idx.links := by
  obtain ⟨ks, hrun, -⟩ := bftRaised_run hb
  exact hrun.links.trans (links_modify fun _ => rfl)

theorem mem_bftRaised {y : BlockState Key Sig} : y ∈ (bftRaised idx b).entries ↔ ∃ a ∈ idx.entries,
      Reaches idx b.blockNum b.id a.id ∧ y = a.raised b.blockNum ∨
        ¬ Reaches idx b.blockNum b.id a.id ∧ y = a := by
  obtain ⟨ks, hrun, hiff⟩ := bftRaised_run hb
  have hone : ∀ a : BlockState Key Sig,
      (if (if a.id = b.id then a.raised b.blockNum else a).id ∈ ks then
          BlockState.raised b.blockNum (if a.id = b.id then a.raised b.blockNum else a)
        else (if a.id = b.id then a.raised b.blockNum else a)) = y ↔
      (Reaches idx b.blockNum b.id a.id ∧ y = a.raised b.blockNum ∨
        ¬ Reaches idx b.blockNum b.id a.id ∧ y = a) := by
    intro a
    rw [← hiff, eq_comm]
    by_cases h1 : a.id = b.id
    · by_cases h2 : b.id ∈ ks <;> simp [h1, h2, BlockState.raised]
    · by_cases h2 : a.id ∈ ks <;> simp [h1, h2]
  rw [hrun.mem_iff]
  constructor
  · rintro ⟨c, hc, hy⟩
    obtain ⟨a, ha, rfl⟩ := mem_modify.mp hc
    exact ⟨a, ha, (hone a).mp hy.symm⟩
  · rintro ⟨a, ha, hy⟩
    exact ⟨_, mem_modify.mpr ⟨a, ha, rfl⟩, ((hone a).mpr hy).symm⟩

/-- **The head stays the first state** under the condition `StaysFirst`. -/
theorem head_bftRaised (hlt : b.bftIrreversibleBlocknum < b.blockNum) {h : BlockState Key Sig}
    (hh : idx.byLibBlockNum.head? = some h) (hst : StaysFirst idx b h) :
    ∃ h', (bftRaised idx b).byLibBlockNum.head? = some h' ∧ h'.id = h.id := by
  have hmem := mem_of_head hh
  rcases hst with ⟨hreach, hstrict⟩ | ⟨hreach, hle⟩
  · -- the head is raised too, and ends up strictly before everything else
    refine ⟨h.raised b.blockNum, ?_, rfl⟩
    refine head?_of_lt (bftRaised idx b).sortedLib
      (mem_byLib.mpr ((mem_bftRaised hb).mpr ⟨h, hmem, Or.inl ⟨hreach, rfl⟩⟩))
      fun y hy => ?_
    obtain ⟨a, ha, ⟨hra, rfl⟩ | ⟨hra, rfl⟩⟩ := (mem_bftRaised hb).mp (mem_byLib.mp hy)
    · by_cases hid : a.id = h.id
      · exact Or.inl (by rw [eq_of_id ha hmem hid])
      · exact Or.inr (hstrict a ha hra hid)
    · have hbelow : h.bftIrreversibleBlocknum < b.blockNum :=
        (hreach.bft_lt hmem).elim (fun hid => eq_of_id hmem hb hid ▸ hlt) id
      refine Or.inr (lt_of_lt_of_le (libKey_raised_lt hbelow) ?_)
      exact le_of_head? idx.sortedLib hh y (mem_byLib.mpr ha)
  · -- the head is left where it is, and nothing is raised past it at any moment
    obtain ⟨ks, hrun, hiff⟩ := bftRaised_run hb
    have hne : h.id ≠ b.id := fun heq => hreach (heq ▸ Reaches.self)
    have hfirst : (idx.raise b.id b.blockNum).byLibBlockNum.head? = some h := by
      refine head?_modify_of_le hh (by simpa using hne) fun c hc hcb => ?_
      obtain rfl := eq_of_id (mem_byLib.mp hc) hb (by simpa using hcb)
      exact hle c hb Reaches.self
    refine ⟨h, hrun.head_of_le hfirst (fun hk => hreach ((hiff _).mp (Or.inr hk)))
      fun c hc hk => ?_, rfl⟩
    obtain ⟨a, ha, rfl⟩ := mem_modify.mp hc
    have hra : Reaches idx b.blockNum b.id a.id := (hiff _).mp (Or.inr (by
      split at hk <;> exact hk))
    split <;> exact hle a ha hra

end Raise

end Forceio.Chain
