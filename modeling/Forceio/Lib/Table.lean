import Mathlib.Algebra.Order.BigOperators.Group.Finset
import Mathlib.Tactic.Ring

/-!
# Tables with unique indices

A table holds objects under ids. An id is given when an object is created and never again. Objects
that have the same key in a unique index clash, and no two objects of a table do: `Table` carries
that, so that every lookup by a unique key finds the one row it can find.

Results:
* `mem_create`, `mem_update`, `mem_remove`: the rows after an operation.
* `ChangesOnly`: a change that touches only rows with a property.
* `total_create`, `total_update`, `total_remove`: sums over the rows.
-/

namespace Forceio.Lib

open List

/-- What the unique indices of an object say: which objects cannot be in a table together. -/
class Indexed (α : Type) where
  clash : α → α → Prop
  symm : ∀ {a b}, clash a b → clash b a
  decidable : DecidableRel clash

open Indexed (clash)

instance {α : Type} [Indexed α] : DecidableRel (clash : α → α → Prop) := Indexed.decidable

theorem Indexed.clash_comm {α : Type} [Indexed α] {a b : α} : clash a b ↔ clash b a :=
  ⟨Indexed.symm, Indexed.symm⟩

/-- Rows by ascending id, and the id of the next row. -/
structure Table (α : Type) [Indexed α] where
  rows : List (Nat × α)
  nextId : Nat
  ascending : rows.Pairwise fun r r' => r.1 < r'.1
  fresh : ∀ r ∈ rows, r.1 < nextId
  unique : rows.Pairwise fun r r' => ¬ clash r.2 r'.2

namespace Table

variable {α : Type} [Indexed α]
variable {n : Nat}

/-! ## Operations -/

/-- A table without rows that gives the ids from `nextId` on. -/
def empty (nextId : Nat) : Table α := ⟨[], nextId, .nil, by simp, .nil⟩

instance : Inhabited (Table α) := ⟨empty 0⟩

/-- The object under an id. -/
def get? (t : Table α) (id : Nat) : Option α := (t.rows.find? fun r => r.1 = id).map (·.2)

/-- The first row whose object has the property. -/
def find? (t : Table α) (p : α → Bool) : Option (Nat × α) := t.rows.find? fun r => p r.2

/-- The front of the index ordered by `key`. -/
def leastBy {κ : Type} [LinearOrder κ] (t : Table α) (key : Nat × α → κ) : Option (Nat × α) :=
  t.rows.argmin key

/-- A new row, unless some unique index has its key. -/
def create (t : Table α) (a : α) : Option (Nat × Table α) :=
  if h : ∃ r ∈ t.rows, clash r.2 a then none
  else some (t.nextId,
    { rows := t.rows ++ [(t.nextId, a)]
      nextId := t.nextId + 1
      ascending := by
        refine pairwise_append.mpr ⟨t.ascending, pairwise_singleton _ _, ?_⟩
        intro r hr r' hr'
        rw [mem_singleton.mp hr']
        exact t.fresh r hr
      fresh := by
        intro r hr
        rcases mem_append.mp hr with hr | hr
        · exact Nat.lt_succ_of_lt (t.fresh r hr)
        · rw [mem_singleton.mp hr]
          exact Nat.lt_succ_self _
      unique := by
        refine pairwise_append.mpr ⟨t.unique, pairwise_singleton _ _, ?_⟩
        intro r hr r' hr'
        rw [mem_singleton.mp hr']
        exact fun hc => h ⟨r, hr, hc⟩ })

/-- The table the objects make when they are created in turn; one that clashes is left out. -/
def ofObjects (objects : List α) : Table α :=
  objects.foldl (fun t a => (t.create a).elim t (·.2)) (empty 0)

/-- A change to objects that no unique index sees. -/
def KeepsKeys (f : α → α) : Prop := ∀ a b, clash (f a) b ↔ clash a b

/-- The row after a change to the object under `id`. -/
def updateRow (id : Nat) (f : α → α) (r : Nat × α) : Nat × α := if r.1 = id then (id, f r.2) else r

omit [Indexed α] in
theorem updateRow_fst (id : Nat) (f : α → α) (r : Nat × α) : (updateRow id f r).1 = r.1 := by
  unfold updateRow
  split
  · exact Eq.symm ‹_›
  · rfl

theorem clash_updateRow {f : α → α} (hf : KeepsKeys f) (id : Nat) (r r' : Nat × α) :
    clash (updateRow id f r).2 (updateRow id f r').2 ↔ clash r.2 r'.2 := by
  have hone : ∀ (r : Nat × α) (b : α), clash (updateRow id f r).2 b ↔
      clash r.2 b := by
    intro r b
    unfold updateRow
    split
    · exact hf _ _
    · rfl
  rw [hone, Indexed.clash_comm, hone, Indexed.clash_comm]

/-- Change the object under an id. -/
def update (t : Table α) (id : Nat) (f : α → α) (hf : KeepsKeys f) : Table α where
  rows := t.rows.map (updateRow id f)
  nextId := t.nextId
  ascending := by
    refine pairwise_map.mpr (t.ascending.imp ?_)
    intro r r' h
    rwa [updateRow_fst, updateRow_fst]
  fresh := by
    intro r hr
    obtain ⟨r', hr', rfl⟩ := mem_map.mp hr
    rw [updateRow_fst]
    exact t.fresh r' hr'
  unique := by
    refine pairwise_map.mpr (t.unique.imp ?_)
    intro r r' h
    rwa [clash_updateRow hf]

/-- Take the row under an id away. -/
def remove (t : Table α) (id : Nat) : Table α where
  rows := t.rows.filter fun r => r.1 ≠ id
  nextId := t.nextId
  ascending := t.ascending.sublist filter_sublist
  fresh := fun r hr => t.fresh r (mem_of_mem_filter hr)
  unique := t.unique.sublist filter_sublist

/-! ## Lookups -/

variable {t t' : Table α} {r r' : Nat × α} {id' : Nat} {a : α}

theorem eq_of_id (hr : r ∈ t.rows) (hr' : r' ∈ t.rows) (h : r.1 = r'.1) : r = r' := by
  have hne : t.rows.Pairwise fun r r' => r.1 ≠ r'.1 := t.ascending.imp fun h => Nat.ne_of_lt h
  have : Std.Symm fun r r' : Nat × α => r.1 ≠ r'.1 := ⟨fun _ _ h => h.symm⟩
  by_contra hneq
  exact hne.forall hr hr' hneq h

theorem eq_of_clash (hr : r ∈ t.rows) (hr' : r' ∈ t.rows) (h : clash r.2 r'.2) : r = r' := by
  have : Std.Symm fun r r' : Nat × α => ¬ clash r.2 r'.2 :=
    ⟨fun _ _ h h' => h (Indexed.symm h')⟩
  by_contra hneq
  exact t.unique.forall hr hr' hneq h

theorem get?_eq_some : t.get? id' = some a ↔ (id', a) ∈ t.rows := by
  unfold get?
  constructor
  · intro h
    obtain ⟨r, hr, rfl⟩ := Option.map_eq_some_iff.mp h
    have hid : r.1 = id' := by simpa using find?_some hr
    rw [← hid]
    exact mem_of_find?_eq_some hr
  · intro h
    cases hr : t.rows.find? fun r => r.1 = id' with
    | none =>
      have hne := find?_eq_none.mp hr _ h
      simp at hne
    | some r =>
      have hid : r.1 = id' := by simpa using find?_some hr
      rw [eq_of_id (mem_of_find?_eq_some hr) h hid]
      rfl

theorem get?_congr (h : ∀ a, (id', a) ∈ t.rows ↔ (id', a) ∈ t'.rows) : t.get? id' = t'.get? id' := by
  refine Option.ext fun a => ?_
  rw [get?_eq_some, get?_eq_some]
  exact h a

variable {p : α → Bool}

theorem mem_of_find? (h : t.find? p = some r) : r ∈ t.rows :=
  mem_of_find?_eq_some h

theorem of_find? (h : t.find? p = some r) : p r.2 = true :=
  find?_some (p := fun r : Nat × α => p r.2) h

theorem find?_eq_none : t.find? p = none ↔ ∀ r ∈ t.rows, p r.2 = false := by
  simp [find?]

theorem find?_eq_some_of_mem (hr : r ∈ t.rows) (hp : p r.2 = true)
    (hclash : ∀ b, p b = true → clash b r.2) : t.find? p = some r := by
  cases h : t.find? p with
  | none => exact absurd (find?_eq_none.mp h r hr) (by simp [hp])
  | some r' => rw [eq_of_clash (mem_of_find? h) hr (hclash _ (of_find? h))]

section Least

variable {κ : Type} [LinearOrder κ] {key : Nat × α → κ}

theorem leastBy_eq_none : t.leastBy key = none ↔ t.rows = [] := argmin_eq_none

theorem mem_of_leastBy (h : t.leastBy key = some r) : r ∈ t.rows := argmin_mem h

theorem leastBy_le (h : t.leastBy key = some r) (hr' : r' ∈ t.rows) : key r ≤ key r' :=
  le_of_mem_argmin hr' h

end Least

/-! ## Rows after an operation -/

theorem create_eq_some (h : t.create a = some (n, t')) :
    (∀ r ∈ t.rows, ¬ clash r.2 a) ∧ n = t.nextId ∧ t'.rows = t.rows ++ [(n, a)] ∧
      t'.nextId = n + 1 := by
  unfold create at h
  split at h
  · simp at h
  · rename_i hno
    obtain ⟨rfl, rfl⟩ := Prod.mk.inj (Option.some.inj h)
    exact ⟨fun r hr hc => hno ⟨r, hr, hc⟩, rfl, rfl, rfl⟩

theorem create_eq_none : t.create a = none ↔ ∃ r ∈ t.rows, clash r.2 a := by
  unfold create
  split <;> simp_all

theorem mem_create (h : t.create a = some (n, t')) : r ∈ t'.rows ↔ r ∈ t.rows ∨ r = (n, a) := by
  rw [(create_eq_some h).2.2.1]
  simp

theorem find?_create {p : α → Bool} (h : t.create a = some (n, t')) :
    t'.find? p = (t.find? p).or (if p a then some (n, a) else none) := by
  unfold find?
  rw [(create_eq_some h).2.2.1, find?_append, find?_singleton]

variable {f : α → α}

theorem mem_update {hf : KeepsKeys f} : r ∈ (t.update id' f hf).rows ↔
      (r ∈ t.rows ∧ r.1 ≠ id') ∨ ∃ b, (id', b) ∈ t.rows ∧ r = (id', f b) := by
  show r ∈ t.rows.map (updateRow id' f) ↔ _
  rw [mem_map]
  constructor
  · rintro ⟨r', hr', rfl⟩
    by_cases h : r'.1 = id'
    · refine .inr ⟨r'.2, h ▸ hr', ?_⟩
      rw [updateRow, if_pos h]
    · rw [updateRow, if_neg h]
      exact .inl ⟨hr', h⟩
  · rintro (⟨hr, h⟩ | ⟨b, hb, rfl⟩)
    · exact ⟨r, hr, by rw [updateRow, if_neg h]⟩
    · exact ⟨(id', b), hb, by rw [updateRow, if_pos rfl]⟩

theorem mem_update_of_mem {hf : KeepsKeys f} (h : (id', a) ∈ t.rows) :
    r ∈ (t.update id' f hf).rows ↔ (r ∈ t.rows ∧ r.1 ≠ id') ∨ r = (id', f a) := by
  rw [mem_update]
  refine or_congr_right ⟨?_, fun hr => ⟨a, h, hr⟩⟩
  rintro ⟨b, hb, rfl⟩
  cases eq_of_id hb h rfl
  rfl

theorem exists_mem_update (hf : KeepsKeys f) (h : ∃ a, (n, a) ∈ t.rows) :
    ∃ a, (n, a) ∈ (t.update id' f hf).rows := by
  obtain ⟨a, ha⟩ := h
  by_cases hid : n = id'
  · subst hid
    exact ⟨f a, mem_update.mpr (.inr ⟨a, ha, rfl⟩)⟩
  · exact ⟨a, mem_update.mpr (.inl ⟨ha, hid⟩)⟩

theorem mem_remove : r ∈ (t.remove id').rows ↔ r ∈ t.rows ∧ r.1 ≠ id' := by
  simp [remove]

theorem find?_update {hf : KeepsKeys f} {p : α → Bool} (hp : ∀ a, p (f a) = p a) :
    (t.update id' f hf).find? p = (t.find? p).map (updateRow id' f) := by
  have hrow : (fun r : Nat × α => p r.2) ∘ updateRow id' f = fun r => p r.2 := by
    funext r
    by_cases h : r.1 = id'
    · simp [updateRow, h, hp]
    · simp [updateRow, h]
  show (t.rows.map (updateRow id' f)).find? (fun r => p r.2) = _
  rw [find?_map, hrow]
  rfl

/-! ## What a change touches -/

/-- A row that is added, changed or removed has the property `P` before and `P'` after, whenever it
is there. -/
def ChangesOnly (P P' : α → Prop) (t t' : Table α) : Prop :=
  ∀ i, t.get? i ≠ t'.get? i → (∀ a, (i, a) ∈ t.rows → P a) ∧ ∀ a, (i, a) ∈ t'.rows → P' a

namespace ChangesOnly

variable {P P' : α → Prop}

theorem refl (t : Table α) : ChangesOnly P P' t t := fun _ h => absurd rfl h

theorem trans {t'' : Table α} (h : ChangesOnly P P t t') (h' : ChangesOnly P P t' t'') :
    ChangesOnly P P t t'' := by
  intro i hne
  by_cases hi : t.get? i = t'.get? i
  · obtain ⟨hbefore, hafter⟩ := h' i (hi ▸ hne)
    refine ⟨fun a ha => hbefore a ?_, hafter⟩
    rwa [← get?_eq_some, ← hi, get?_eq_some]
  · obtain ⟨hbefore, hafter⟩ := h i hi
    refine ⟨hbefore, fun a ha => ?_⟩
    by_cases hi' : t'.get? i = t''.get? i
    · refine hafter a ?_
      rwa [← get?_eq_some, hi', get?_eq_some]
    · exact (h' i hi').2 a ha

theorem create (h : t.create a = some (n, t')) (ha : P' a) : ChangesOnly P P' t t' := by
  intro i hne
  obtain rfl : i = n := by
    by_contra hi
    refine hne (get?_congr fun b => ?_)
    rw [mem_create h, Prod.mk.injEq, or_iff_left fun hand => hi hand.1]
  have hnew : ∀ b, (i, b) ∉ t.rows := by
    intro b hb
    have hlt := t.fresh _ hb
    rw [(create_eq_some h).2.1] at hlt
    exact lt_irrefl _ hlt
  refine ⟨fun b hb => absurd hb (hnew b), fun b hb => ?_⟩
  rcases (mem_create h).mp hb with hb | hb
  · exact absurd hb (hnew b)
  · cases hb
    exact ha

theorem update {f : α → α} {hf : KeepsKeys f} (h : (id', a) ∈ t.rows) (ha : P a) (ha' : P' (f a)) :
    ChangesOnly P P' t (t.update id' f hf) := by
  intro i hne
  obtain rfl : i = id' := by
    by_contra hi
    refine hne (get?_congr fun b => ?_)
    rw [mem_update_of_mem h, and_iff_left hi, Prod.mk.injEq, or_iff_left fun hand => hi hand.1]
  refine ⟨fun b hb => ?_, fun b hb => ?_⟩
  · cases eq_of_id hb h rfl
    exact ha
  · rcases (mem_update_of_mem h).mp hb with ⟨-, hi⟩ | hb
    · exact absurd rfl hi
    · cases hb
      exact ha'

theorem remove (h : (id', a) ∈ t.rows) (ha : P a) : ChangesOnly P P' t (t.remove id') := by
  intro i hne
  obtain rfl : i = id' := by
    by_contra hi
    refine hne (get?_congr fun b => ?_)
    rw [mem_remove, and_iff_left hi]
  refine ⟨fun b hb => ?_, fun b hb => absurd rfl (mem_remove.mp hb).2⟩
  cases eq_of_id hb h rfl
  exact ha

end ChangesOnly

/-! ## Sums over the rows -/

/-- The sum of `weight` over the objects. -/
def total (t : Table α) (weight : α → ℤ) : ℤ := (t.rows.map fun r => weight r.2).sum

variable {weight : α → ℤ}

theorem total_create (h : t.create a = some (n, t')) :
    t'.total weight = t.total weight + weight a := by
  simp [total, (create_eq_some h).2.2.1]

theorem rows_split (h : (id', a) ∈ t.rows) :
    ∃ l1 l2, t.rows = l1 ++ (id', a) :: l2 ∧ (∀ r ∈ l1, r.1 ≠ id') ∧ ∀ r ∈ l2, r.1 ≠ id' := by
  obtain ⟨l1, l2, hsplit⟩ := append_of_mem h
  have hasc := t.ascending
  rw [hsplit, pairwise_append] at hasc
  refine ⟨l1, l2, hsplit, fun r hr => ?_, fun r hr => ?_⟩
  · exact Nat.ne_of_lt (hasc.2.2 r hr _ mem_cons_self)
  · exact Nat.ne_of_gt ((pairwise_cons.mp hasc.2.1).1 r hr)

theorem total_update {f : α → α} {hf : KeepsKeys f} (h : (id', a) ∈ t.rows) :
    (t.update id' f hf).total weight = t.total weight - weight a + weight (f a) := by
  obtain ⟨l1, l2, hsplit, h1, h2⟩ := rows_split h
  have hkeep : ∀ l : List (Nat × α), (∀ r ∈ l, r.1 ≠ id') → l.map (updateRow id' f) = l := by
    intro l hl
    refine (map_congr_left fun r hr => ?_).trans (map_id l)
    rw [updateRow, if_neg (hl r hr), id]
  have hrows : (t.update id' f hf).rows = l1 ++ (id', f a) :: l2 := by
    show t.rows.map (updateRow id' f) = _
    rw [hsplit, map_append, map_cons, hkeep l1 h1, hkeep l2 h2, updateRow, if_pos rfl]
  rw [total, total, hrows, hsplit]
  simp only [map_append, map_cons, sum_append, sum_cons]
  ring

theorem total_remove (h : (id', a) ∈ t.rows) :
    (t.remove id').total weight = t.total weight - weight a := by
  obtain ⟨l1, l2, hsplit, h1, h2⟩ := rows_split h
  have hkeep : ∀ l : List (Nat × α), (∀ r ∈ l, r.1 ≠ id') → l.filter (fun r => r.1 ≠ id') = l :=
    fun l hl => filter_eq_self.mpr fun r hr => by simpa using hl r hr
  have hrows : (t.remove id').rows = l1 ++ l2 := by
    show t.rows.filter (fun r => r.1 ≠ id') = _
    rw [hsplit, filter_append, filter_cons_of_neg (by simp), hkeep l1 h1, hkeep l2 h2]
  rw [total, total, hrows, hsplit]
  simp only [map_append, map_cons, sum_append, sum_cons]
  ring

theorem total_update_of_eq {f : α → α} {hf : KeepsKeys f} (h : ∀ a, weight (f a) = weight a) :
    (t.update id' f hf).total weight = t.total weight := by
  have hrow : ∀ r : Nat × α, weight (updateRow id' f r).2 = weight r.2 := by
    intro r
    unfold updateRow
    split
    · exact h r.2
    · rfl
  show ((t.rows.map (updateRow id' f)).map fun r => weight r.2).sum = _
  rw [map_map]
  exact congrArg sum (map_congr_left fun r _ => hrow r)

theorem total_le_total {weight' : α → ℤ} (h : ∀ a, weight a ≤ weight' a) :
    t.total weight ≤ t.total weight' :=
  sum_le_sum fun r _ => h r.2

theorem total_nonneg (h : ∀ a, 0 ≤ weight a) : 0 ≤ t.total weight := by
  refine sum_nonneg fun x hx => ?_
  obtain ⟨r, -, rfl⟩ := mem_map.mp hx
  exact h r.2

theorem le_total_of_mem (h : ∀ a, 0 ≤ weight a) (hmem : (id', a) ∈ t.rows) :
    weight a ≤ t.total weight :=
  single_le_sum (fun x hx => by
    obtain ⟨r, -, rfl⟩ := mem_map.mp hx
    exact h r.2) _ (mem_map.mpr ⟨_, hmem, rfl⟩)

theorem total_eq_zero_iff (h : ∀ a, 0 ≤ weight a) :
    t.total weight = 0 ↔ ∀ r ∈ t.rows, weight r.2 = 0 := by
  constructor
  · intro htotal r hr
    refine all_zero_of_le_zero_le_of_sum_eq_zero (fun x hx => ?_) htotal
      (mem_map.mpr ⟨r, hr, rfl⟩)
    obtain ⟨r', -, rfl⟩ := mem_map.mp hx
    exact h r'.2
  · intro hzero
    refine sum_eq_zero fun x hx => ?_
    obtain ⟨r, hr, rfl⟩ := mem_map.mp hx
    exact hzero r hr

/-! ## Families of tables -/

section Family

variable {ι : Type} [Fintype ι] [DecidableEq ι] {β : ι → Type} [∀ i, Indexed (β i)]
  {ts : (i : ι) → Table (β i)} {weights : (i : ι) → β i → ℤ} {k : ι}

/-- The sum over the objects of all tables. -/
def totalAll (ts : (i : ι) → Table (β i)) (weights : (i : ι) → β i → ℤ) : ℤ :=
  ∑ i, (ts i).total (weights i)

theorem totalAll_set (tk : Table (β k)) : totalAll (Function.update ts k tk) weights =
      totalAll ts weights - (ts k).total (weights k) + tk.total (weights k) := by
  unfold totalAll
  rw [← Finset.add_sum_erase _ _ (Finset.mem_univ k),
    ← Finset.add_sum_erase _ (fun i => (ts i).total (weights i)) (Finset.mem_univ k),
    Function.update_self]
  have hrest : ∑ i ∈ Finset.univ.erase k, (Function.update ts k tk i).total (weights i) =
      ∑ i ∈ Finset.univ.erase k, (ts i).total (weights i) := by
    refine Finset.sum_congr rfl fun i hi => ?_
    rw [Function.update_of_ne (Finset.ne_of_mem_erase hi)]
  rw [hrest]
  ring

theorem totalAll_create {b : β k} {tk : Table (β k)} (h : (ts k).create b = some (n, tk)) :
    totalAll (Function.update ts k tk) weights = totalAll ts weights + weights k b := by
  rw [totalAll_set, total_create h]
  ring

theorem totalAll_update {b : β k} {f : β k → β k} {hf : KeepsKeys f} (h : (n, b) ∈ (ts k).rows) :
    totalAll (Function.update ts k ((ts k).update n f hf)) weights =
      totalAll ts weights - weights k b + weights k (f b) := by
  rw [totalAll_set, total_update h]
  ring

theorem totalAll_remove {b : β k} (h : (n, b) ∈ (ts k).rows) :
    totalAll (Function.update ts k ((ts k).remove n)) weights =
      totalAll ts weights - weights k b := by
  rw [totalAll_set, total_remove h]
  ring

omit [DecidableEq ι] in
theorem totalAll_eq_zero_iff (h : ∀ i b, 0 ≤ weights i b) :
    totalAll ts weights = 0 ↔ ∀ i, ∀ r ∈ (ts i).rows, weights i r.2 = 0 := by
  unfold totalAll
  rw [Finset.sum_eq_zero_iff_of_nonneg fun i _ => total_nonneg (h i)]
  simp only [Finset.mem_univ, true_imp_iff]
  exact forall_congr' fun i => total_eq_zero_iff (h i)

omit [DecidableEq ι] in
theorem totalAll_nonneg (h : ∀ i b, 0 ≤ weights i b) : 0 ≤ totalAll ts weights :=
  Finset.sum_nonneg fun i _ => total_nonneg (h i)

end Family

end Table

end Forceio.Lib
