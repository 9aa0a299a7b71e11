import Mathlib.Algebra.Order.BigOperators.Group.List
import Mathlib.Data.List.Pairwise
import Mathlib.Data.List.Sort
import Mathlib.Data.Prod.Lex
import Mathlib.Tactic.Ring

/-!
# Tables of rows under their own key

A row says what its key is, and a table keeps its rows in ascending key order, one row for a key.

Results:
* `mem_insert`, `mem_put`, `mem_erase`: the rows after an operation.
* `total_insert`, `total_put`, `total_erase`: sums over the rows.
* `mem_sortedBy`, `sortedBy_pairwise`: the rows in the order of another key, ties by their own.
-/

namespace Forceio.Lib

open List

/-- Rows with a key. -/
class Keyed (α : Type) (κ : outParam Type) where
  key : α → κ

/-- Rows in ascending key order. -/
structure KeyedTable (α : Type) {κ : Type} [LinearOrder κ] [Keyed α κ] where
  rows : List α
  ascending : rows.Pairwise fun a b => Keyed.key a < Keyed.key b

namespace KeyedTable

open Keyed

variable {α κ : Type} [LinearOrder κ] [Keyed α κ]

/-! ## Operations -/

/-- No rows. -/
def empty : KeyedTable α := ⟨[], .nil⟩

/-- The row under a key. -/
def find? (t : KeyedTable α) (k : κ) : Option α := t.rows.find? fun a => key a = k

/-- A row at its place, in place of the row that has its key. -/
def insertRow (a : α) : List α → List α
  | [] => [a]
  | b :: l =>
    if key a < key b then a :: b :: l
    else if key a = key b then a :: l
    else b :: insertRow a l

theorem mem_insertRow {a b : α} : ∀ {l : List α}, l.Pairwise (fun a b => key a < key b) →
    (b ∈ insertRow a l ↔ b = a ∨ (b ∈ l ∧ key b ≠ key a))
  | [], _ => by simp [insertRow]
  | c :: l, hl => by
    rw [pairwise_cons] at hl
    unfold insertRow
    by_cases hlt : key a < key c
    · rw [if_pos hlt, mem_cons]
      refine or_congr_right ⟨fun hb => ⟨hb, ?_⟩, And.left⟩
      rcases mem_cons.mp hb with rfl | hb
      · exact ne_of_gt hlt
      · exact ne_of_gt (lt_trans hlt (hl.1 b hb))
    · rw [if_neg hlt]
      by_cases heq : key a = key c
      · rw [if_pos heq, mem_cons, mem_cons]
        refine or_congr_right ⟨fun hb => ⟨.inr hb, heq ▸ ne_of_gt (hl.1 b hb)⟩, ?_⟩
        rintro ⟨rfl | hb, hne⟩
        · exact absurd heq.symm hne
        · exact hb
      · rw [if_neg heq, mem_cons, mem_insertRow hl.2, mem_cons]
        constructor
        · rintro (rfl | rfl | ⟨hb, hne⟩)
          · exact .inr ⟨.inl rfl, Ne.symm heq⟩
          · exact .inl rfl
          · exact .inr ⟨.inr hb, hne⟩
        · rintro (rfl | ⟨rfl | hb, hne⟩)
          · exact .inr (.inl rfl)
          · exact .inl rfl
          · exact .inr (.inr ⟨hb, hne⟩)

theorem ascending_insertRow (a : α) : ∀ {l : List α}, l.Pairwise (fun a b => key a < key b) →
    (insertRow a l).Pairwise fun a b => key a < key b
  | [], _ => by simp [insertRow]
  | c :: l, hl => by
    have hl' := pairwise_cons.mp hl
    unfold insertRow
    by_cases hlt : key a < key c
    · rw [if_pos hlt, pairwise_cons]
      refine ⟨fun b hb => ?_, hl⟩
      rcases mem_cons.mp hb with rfl | hb
      · exact hlt
      · exact lt_trans hlt (hl'.1 b hb)
    · rw [if_neg hlt]
      by_cases heq : key a = key c
      · rw [if_pos heq, pairwise_cons, heq]
        exact hl'
      · rw [if_neg heq, pairwise_cons]
        refine ⟨fun b hb => ?_, ascending_insertRow a hl'.2⟩
        rcases (mem_insertRow hl'.2).mp hb with rfl | ⟨hb, -⟩
        · exact lt_of_le_of_ne (not_lt.mp hlt) (Ne.symm heq)
        · exact hl'.1 b hb

/-- A row added. -/
def insert (t : KeyedTable α) (a : α) : KeyedTable α :=
  ⟨insertRow a t.rows, ascending_insertRow a t.ascending⟩

/-- The row that has the key of `a`, if there is one, replaced by `a`. -/
def put (t : KeyedTable α) (a : α) : KeyedTable α where
  rows := t.rows.map fun b => if key b = key a then a else b
  ascending := by
    have hkey : ∀ b : α, key (if key b = key a then a else b) = key b := by
      intro b
      split
      · exact Eq.symm ‹_›
      · rfl
    refine pairwise_map.mpr (t.ascending.imp fun h => ?_)
    rwa [hkey, hkey]

/-- The row under a key removed. -/
def erase (t : KeyedTable α) (k : κ) : KeyedTable α where
  rows := t.rows.filter fun a => key a ≠ k
  ascending := t.ascending.sublist filter_sublist

/-! ## Lookups -/

variable {t : KeyedTable α} {a b : α} {k : κ}

theorem eq_of_key (ha : a ∈ t.rows) (hb : b ∈ t.rows) (h : key a = key b) : a = b := by
  have : Std.Symm fun a b : α => key a ≠ key b := ⟨fun _ _ h => h.symm⟩
  by_contra hne
  exact (t.ascending.imp fun h => ne_of_lt h).forall ha hb hne h

theorem find?_eq_some_iff : t.find? k = some a ↔ a ∈ t.rows ∧ key a = k := by
  unfold find?
  constructor
  · intro h
    exact ⟨mem_of_find?_eq_some h, by simpa using find?_some h⟩
  · rintro ⟨hmem, rfl⟩
    cases h : t.rows.find? fun b => key b = key a with
    | none => exact absurd (find?_eq_none.mp h a hmem) (by simp)
    | some b =>
      have hkey : key b = key a := by simpa using find?_some h
      rw [eq_of_key (mem_of_find?_eq_some h) hmem hkey]

theorem find?_eq_none_iff : t.find? k = none ↔ ∀ a ∈ t.rows, key a ≠ k := by
  simp [find?, find?_eq_none]

/-! ## Rows after an operation -/

theorem mem_insert : b ∈ (t.insert a).rows ↔ b = a ∨ (b ∈ t.rows ∧ key b ≠ key a) :=
  mem_insertRow t.ascending

theorem mem_put (h : b ∈ (t.put a).rows) : b = a ∨ (b ∈ t.rows ∧ key b ≠ key a) := by
  obtain ⟨c, hc, rfl⟩ := mem_map.mp h
  by_cases hkey : key c = key a
  · exact .inl (if_pos hkey)
  · rw [if_neg hkey]
    exact .inr ⟨hc, hkey⟩

theorem forall_mem_insert {P : α → Prop} (ha : P a) (h : ∀ b ∈ t.rows, P b) :
    ∀ b ∈ (t.insert a).rows, P b := fun b hb =>
  (mem_insert.mp hb).elim (fun heq => heq ▸ ha) fun hold => h b hold.1

theorem forall_mem_put {P : α → Prop} (ha : P a) (h : ∀ b ∈ t.rows, P b) :
    ∀ b ∈ (t.put a).rows, P b := fun b hb =>
  (mem_put hb).elim (fun heq => heq ▸ ha) fun hold => h b hold.1

theorem mem_put_of_ne (h : b ∈ t.rows) (hne : key b ≠ key a) : b ∈ (t.put a).rows :=
  mem_map.mpr ⟨b, h, if_neg hne⟩

theorem mem_put_self (h : b ∈ t.rows) (hkey : key b = key a) : a ∈ (t.put a).rows :=
  mem_map.mpr ⟨b, h, if_pos hkey⟩

theorem mem_erase : b ∈ (t.erase k).rows ↔ b ∈ t.rows ∧ key b ≠ k := by
  simp [erase]

theorem find?_insert : (t.insert a).find? k = if k = key a then some a else t.find? k := by
  refine Option.ext fun b => ?_
  rw [find?_eq_some_iff, mem_insert]
  by_cases hk : k = key a
  · rw [if_pos hk, Option.some.injEq]
    constructor
    · rintro ⟨rfl | ⟨-, hne⟩, hkey⟩
      · rfl
      · exact absurd (hkey.trans hk) hne
    · rintro rfl
      exact ⟨.inl rfl, hk.symm⟩
  · rw [if_neg hk, find?_eq_some_iff]
    constructor
    · rintro ⟨rfl | ⟨hmem, -⟩, hkey⟩
      · exact absurd hkey.symm hk
      · exact ⟨hmem, hkey⟩
    · rintro ⟨hmem, rfl⟩
      exact ⟨.inr ⟨hmem, hk⟩, rfl⟩

theorem eq_of_mem_iff {t' : KeyedTable α} (h : ∀ b, b ∈ t.rows ↔ b ∈ t'.rows) : t = t' := by
  have hnodup : ∀ s : KeyedTable α, s.rows.Nodup := fun s =>
    s.ascending.imp fun {a b} hlt (heq : a = b) => absurd (heq ▸ hlt) (lt_irrefl _)
  have hperm := (perm_ext_iff_of_nodup (hnodup t) (hnodup t')).mpr h
  have hrows := hperm.eq_of_pairwise (fun _ _ _ _ hlt hgt => absurd hlt (lt_asymm hgt))
    t.ascending t'.ascending
  cases t
  cases hrows
  rfl

theorem put_eq_insert (h : t.find? (key a) ≠ none) : t.put a = t.insert a := by
  obtain ⟨c, hfind⟩ := Option.ne_none_iff_exists'.mp h
  obtain ⟨hc, hckey⟩ := find?_eq_some_iff.mp hfind
  refine eq_of_mem_iff fun b => ⟨fun hb => mem_insert.mpr (mem_put hb), fun hb => ?_⟩
  rcases mem_insert.mp hb with rfl | ⟨hb, hne⟩
  · exact mem_put_self hc hckey
  · exact mem_put_of_ne hb hne

theorem find?_put {k' : κ} (h : t.find? k' = some b) (hkey : key a = key b) :
    (t.put a).find? k = if k = k' then some a else t.find? k := by
  obtain rfl : key b = k' := (find?_eq_some_iff.mp h).2
  rw [put_eq_insert (by simp [hkey, h]), find?_insert, hkey]

theorem find?_erase {k' : κ} : (t.erase k').find? k = if k = k' then none else t.find? k := by
  refine Option.ext fun b => ?_
  rw [find?_eq_some_iff, mem_erase]
  by_cases hk : k = k'
  · rw [if_pos hk]
    constructor
    · rintro ⟨⟨-, hne⟩, hkey⟩
      exact absurd (hkey.trans hk) hne
    · exact fun h => absurd h (by simp)
  · rw [if_neg hk, find?_eq_some_iff]
    constructor
    · rintro ⟨⟨hmem, -⟩, hkey⟩
      exact ⟨hmem, hkey⟩
    · rintro ⟨hmem, rfl⟩
      exact ⟨⟨hmem, hk⟩, rfl⟩

/-- A search that cannot tell the replaced row from the new one finds the new one in its place. -/
theorem find?_rows_put {p : α → Bool} (hp : ∀ b ∈ t.rows, key b = key a → p b = p a) :
    (t.put a).rows.find? p = (t.rows.find? p).map fun b => if key b = key a then a else b := by
  have hcomp : ∀ l : List α, (∀ b ∈ l, key b = key a → p b = p a) →
      (l.map fun b => if key b = key a then a else b).find? p =
        (l.find? p).map fun b => if key b = key a then a else b := by
    intro l hl
    induction l with
    | nil => rfl
    | cons b l ih =>
      have hb : p (if key b = key a then a else b) = p b := by
        split
        · exact (hl b mem_cons_self ‹_›).symm
        · rfl
      rw [map_cons, find?_cons, find?_cons, hb, ih fun c hc => hl c (mem_cons_of_mem _ hc)]
      cases p b <;> rfl
  exact hcomp t.rows hp

/-! ## Sums over the rows -/

/-- The sum of `weight` over the rows. -/
def total (t : KeyedTable α) (weight : α → ℤ) : ℤ := (t.rows.map weight).sum

variable {weight : α → ℤ}

theorem sum_insertRow : ∀ {l : List α}, (∀ b ∈ l, key b ≠ key a) →
    ((insertRow a l).map weight).sum = (l.map weight).sum + weight a
  | [], _ => by simp [insertRow]
  | c :: l, hl => by
    unfold insertRow
    by_cases hlt : key a < key c
    · rw [if_pos hlt]
      simp only [map_cons, sum_cons]
      ring
    · rw [if_neg hlt, if_neg (Ne.symm (hl c mem_cons_self))]
      simp only [map_cons, sum_cons]
      rw [sum_insertRow fun b hb => hl b (mem_cons_of_mem _ hb)]
      ring

theorem total_insert (h : t.find? (key a) = none) :
    (t.insert a).total weight = t.total weight + weight a :=
  sum_insertRow (find?_eq_none_iff.mp h)

theorem total_erase (t : KeyedTable α) (k : κ) :
    (t.erase k).total weight = t.total weight - (t.find? k).elim 0 weight := by
  cases h : t.find? k with
  | none =>
    have hsame : t.erase k = t := eq_of_mem_iff fun b =>
      mem_erase.trans ⟨And.left, fun hb => ⟨hb, find?_eq_none_iff.mp h b hb⟩⟩
    rw [hsame, Option.elim_none, sub_zero]
  | some a =>
    obtain ⟨hmem, rfl⟩ := find?_eq_some_iff.mp h
    have hback : (t.erase (key a)).insert a = t := eq_of_mem_iff fun b => by
      rw [mem_insert, mem_erase]
      constructor
      · rintro (rfl | ⟨⟨hb, -⟩, -⟩)
        · exact hmem
        · exact hb
      · intro hb
        by_cases hkey : key b = key a
        · exact .inl (eq_of_key hb hmem hkey)
        · exact .inr ⟨⟨hb, hkey⟩, hkey⟩
    have htotal : _ = _ + weight a := total_insert (t := t.erase (key a)) (a := a)
      (by rw [find?_erase, if_pos rfl])
    rw [hback] at htotal
    rw [htotal, Option.elim_some, add_sub_cancel_right]

theorem total_upsert (t : KeyedTable α) (a : α) :
    (t.insert a).total weight = t.total weight - (t.find? (key a)).elim 0 weight + weight a := by
  have hinsert : t.insert a = (t.erase (key a)).insert a :=
    eq_of_mem_iff fun b => by simp [mem_insert, mem_erase]
  rw [hinsert, total_insert (by rw [find?_erase, if_pos rfl]), total_erase]

theorem total_put (h : b ∈ t.rows) (hkey : key b = key a) :
    (t.put a).total weight = t.total weight - weight b + weight a := by
  have hfind := find?_eq_some_iff.mpr ⟨h, hkey⟩
  rw [put_eq_insert (by simp [hfind]), total_upsert, hfind, Option.elim_some]

/-! ## Another order -/

section SortedBy

variable {μ : Type} [LinearOrder μ] (f : α → μ)

/-- The rows by `f`, those with the same `f` by their key. -/
def sortedBy (t : KeyedTable α) : List α :=
  t.rows.insertionSort fun a b => toLex (f a, key a) ≤ toLex (f b, key b)

theorem mem_sortedBy : a ∈ t.sortedBy f ↔ a ∈ t.rows :=
  (perm_insertionSort _ t.rows).mem_iff

theorem sortedBy_le (t : KeyedTable α) :
    (t.sortedBy f).Pairwise fun a b => toLex (f a, key a) ≤ toLex (f b, key b) :=
  pairwise_insertionSort _ t.rows

/-- **The other order**: by `f`, then by key. -/
theorem sortedBy_pairwise (t : KeyedTable α) :
    (t.sortedBy f).Pairwise fun a b => f a < f b ∨ (f a = f b ∧ key a < key b) := by
  have hne : (t.sortedBy f).Pairwise fun a b => key a ≠ key b :=
    (perm_insertionSort _ t.rows).symm.pairwise (t.ascending.imp fun h => ne_of_lt h)
      fun h => h.symm
  refine ((sortedBy_le f t).and hne).imp fun {a b} h => ?_
  rcases Prod.Lex.toLex_le_toLex.mp h.1 with hlt | ⟨heq, hkey⟩
  · exact .inl hlt
  · exact .inr ⟨heq, lt_of_le_of_ne hkey h.2⟩

/-- **The first row from a bound on**, in the other order. -/
theorem find?_sortedBy_iff {k : μ} : (t.sortedBy f).find? (fun b => k ≤ f b) = some a ↔
    a ∈ t.rows ∧ k ≤ f a ∧ ∀ b ∈ t.rows, k ≤ f b → toLex (f a, key a) ≤ toLex (f b, key b) := by
  have hfirst : ∀ {c}, (t.sortedBy f).find? (fun b => k ≤ f b) = some c → c ∈ t.rows ∧ k ≤ f c ∧
      ∀ b ∈ t.rows, k ≤ f b → toLex (f c, key c) ≤ toLex (f b, key b) := by
    intro c hc
    obtain ⟨hle, l1, l2, hsplit, hbefore⟩ := find?_eq_some_iff_append.mp hc
    refine ⟨(mem_sortedBy f).mp (mem_of_find?_eq_some hc), of_decide_eq_true hle,
      fun b hb hkb => ?_⟩
    have hmem : b ∈ l1 ++ c :: l2 := hsplit ▸ (mem_sortedBy f).mpr hb
    have hsorted := sortedBy_le f t
    rw [hsplit] at hsorted
    rcases mem_append.mp hmem with hb1 | hb2
    · exact absurd hkb (by simpa using hbefore b hb1)
    · rcases mem_cons.mp hb2 with rfl | hb2
      · exact le_refl _
      · exact (pairwise_cons.mp (pairwise_append.mp hsorted).2.1).1 b hb2
  refine ⟨hfirst, ?_⟩
  rintro ⟨ha, hka, hmin⟩
  cases hfind : (t.sortedBy f).find? (fun b => k ≤ f b) with
  | none =>
    have hnone := find?_eq_none.mp hfind a ((mem_sortedBy f).mpr ha)
    exact absurd hka (by simpa using hnone)
  | some c =>
    obtain ⟨hc, hkc, hcmin⟩ := hfirst hfind
    have heq := le_antisymm (hcmin a ha hka) (hmin c hc hkc)
    rw [eq_of_key hc ha (Prod.mk.inj (toLex_inj.mp heq)).2]

theorem getLast?_sortedBy_iff : (t.sortedBy f).getLast? = some a ↔
    a ∈ t.rows ∧ ∀ b ∈ t.rows, toLex (f b, key b) ≤ toLex (f a, key a) := by
  have hlast : ∀ {c}, (t.sortedBy f).getLast? = some c →
      c ∈ t.rows ∧ ∀ b ∈ t.rows, toLex (f b, key b) ≤ toLex (f c, key c) := by
    intro c hc
    obtain ⟨l, hl⟩ := getLast?_eq_some_iff.mp hc
    refine ⟨(mem_sortedBy f).mp (mem_of_getLast? hc), fun b hb => ?_⟩
    have hmem : b ∈ l ++ [c] := hl ▸ (mem_sortedBy f).mpr hb
    have hsorted := sortedBy_le f t
    rw [hl] at hsorted
    rcases mem_append.mp hmem with hb1 | hb2
    · exact (pairwise_append.mp hsorted).2.2 b hb1 c mem_cons_self
    · rw [mem_singleton.mp hb2]
  refine ⟨hlast, ?_⟩
  rintro ⟨ha, hmax⟩
  cases hget : (t.sortedBy f).getLast? with
  | none =>
    have hnil := getLast?_eq_none_iff.mp hget
    exact absurd ((mem_sortedBy f).mpr ha) (by simp [hnil])
  | some c =>
    obtain ⟨hc, hcmax⟩ := hlast hget
    have heq := le_antisymm (hmax c hc) (hcmax a ha)
    rw [eq_of_key hc ha (Prod.mk.inj (toLex_inj.mp heq)).2]

end SortedBy

end KeyedTable

end Forceio.Lib
