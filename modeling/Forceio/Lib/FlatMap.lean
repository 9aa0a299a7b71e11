import Mathlib.Data.List.GetD
import Mathlib.Data.List.Sort

/-!
# Flat maps and order statistics

`FlatMap` is a map kept as a key-sorted list of entries, as `boost::container::flat_map` keeps
it: iteration is in key order and every key has one entry. `FlatSet` is the set of the keys of one.
`orderStat l i` is the `i`-th smallest element of a list.

Results:
* `FlatMap.countP_set`: how a write changes the number of entries with a property.
* `le_orderStat_iff`: a bound on an order statistic is a bound on a count.
-/

namespace Forceio.Lib

open List

/-- A map from `κ` to `ν` as entries in strictly increasing key order. -/
@[ext] structure FlatMap (κ ν : Type) [LinearOrder κ] where
  entries : List (κ × ν)
  sorted : (entries.map Prod.fst).Pairwise (· < ·)

namespace FlatMap

variable {κ ν : Type} [LinearOrder κ]
variable {k : κ} {m : FlatMap κ ν}

/-- The empty map. -/
def empty : FlatMap κ ν := ⟨[], List.Pairwise.nil⟩

instance [DecidableEq ν] : DecidableEq (FlatMap κ ν) := fun a b =>
  decidable_of_iff (a.entries = b.entries) FlatMap.ext_iff.symm

/-- The value of the first entry for `k`. -/
def lookup : List (κ × ν) → κ → Option ν
  | [], _ => none
  | (k', v) :: l, k => if k = k' then some v else lookup l k

/-- Write `v` for `k` at its place. -/
def setEntry (k : κ) (v : ν) : List (κ × ν) → List (κ × ν)
  | [] => [(k, v)]
  | (k', v') :: l =>
    if k < k' then (k, v) :: (k', v') :: l
    else if k = k' then (k, v) :: l
    else (k', v') :: setEntry k v l

theorem mem_setEntry_key {q : κ} {v : ν} :
    ∀ {l : List (κ × ν)}, q ∈ (setEntry k v l).map Prod.fst ↔ q = k ∨ q ∈ l.map Prod.fst
  | [] => by simp [setEntry]
  | (k', v') :: l => by
    unfold setEntry
    split
    · simp
    · split
      · rename_i heq
        subst heq
        simp
      · simp only [map_cons, mem_cons, mem_setEntry_key (l := l)]
        tauto

theorem sorted_setEntry (k : κ) (v : ν) : ∀ {l : List (κ × ν)}, (l.map Prod.fst).Pairwise (· < ·) →
      ((setEntry k v l).map Prod.fst).Pairwise (· < ·)
  | [], _ => by simp [setEntry]
  | (k', v') :: l, hl => by
    rw [map_cons, pairwise_cons] at hl
    unfold setEntry
    split
    · rename_i hlt
      rw [map_cons, pairwise_cons]
      refine ⟨fun q hq => ?_, by rw [map_cons, pairwise_cons]; exact hl⟩
      rcases mem_cons.mp hq with rfl | hq
      · exact hlt
      · exact lt_trans hlt (hl.1 q hq)
    · rename_i hnlt
      split
      · rename_i heq
        rw [map_cons, pairwise_cons, heq]
        exact hl
      · rename_i hne
        rw [map_cons, pairwise_cons]
        refine ⟨fun q hq => ?_, sorted_setEntry k v hl.2⟩
        rcases mem_setEntry_key.mp hq with rfl | hq
        · exact lt_of_le_of_ne (not_lt.mp hnlt) (Ne.symm hne)
        · exact hl.1 q hq

/-- `find(k)`, as the value it points to. -/
def find (m : FlatMap κ ν) (k : κ) : Option ν := lookup m.entries k

/-- `m[k] = v`. -/
def set (m : FlatMap κ ν) (k : κ) (v : ν) : FlatMap κ ν :=
  ⟨setEntry k v m.entries, sorted_setEntry k v m.sorted⟩

/-- The keys, in order. -/
def keys (m : FlatMap κ ν) : List κ := m.entries.map Prod.fst

/-- The values, in key order. -/
def values (m : FlatMap κ ν) : List ν := m.entries.map Prod.snd

@[simp] theorem find_empty (k : κ) : (empty : FlatMap κ ν).find k = none := rfl

theorem lookup_setEntry (k q : κ) (v : ν) : ∀ l : List (κ × ν), (l.map Prod.fst).Pairwise (· < ·) →
      lookup (setEntry k v l) q = if q = k then some v else lookup l q
  | [], _ => by simp [setEntry, lookup]
  | (k', v') :: l, hl => by
    rw [map_cons, pairwise_cons] at hl
    unfold setEntry
    split
    · simp only [lookup]
    · split
      · rename_i heq
        subst heq
        simp only [lookup]
        split <;> rfl
      · rename_i hne
        simp only [lookup]
        rw [lookup_setEntry k q v l hl.2]
        by_cases hq : q = k'
        · subst hq
          rw [if_pos rfl, if_pos rfl, if_neg (Ne.symm hne)]
        · rw [if_neg hq, if_neg hq]

/-- **Reading after a write.** -/
theorem find_set (m : FlatMap κ ν) (k : κ) (v : ν) (q : κ) :
    (m.set k v).find q = if q = k then some v else m.find q :=
  lookup_setEntry k q v m.entries m.sorted

theorem mem_keys_set {q : κ} {v : ν} : q ∈ (m.set k v).keys ↔ q = k ∨ q ∈ m.keys :=
  mem_setEntry_key

theorem mem_lookup_iff {v : ν} : ∀ {l : List (κ × ν)}, (l.map Prod.fst).Pairwise (· < ·) →
      (lookup l k = some v ↔ (k, v) ∈ l)
  | [], _ => by simp [lookup]
  | (k', v') :: l, hl => by
    rw [map_cons, pairwise_cons] at hl
    simp only [lookup, mem_cons, Prod.mk.injEq]
    by_cases hk : k = k'
    · subst hk
      rw [if_pos rfl, Option.some.injEq]
      constructor
      · intro h
        exact Or.inl ⟨rfl, h.symm⟩
      · rintro (⟨-, h⟩ | h)
        · exact h.symm
        · exact absurd (hl.1 k (mem_map.mpr ⟨_, h, rfl⟩)) (lt_irrefl k)
    · rw [if_neg hk, mem_lookup_iff hl.2]
      constructor
      · exact Or.inr
      · rintro (⟨h, -⟩ | h)
        · exact absurd h hk
        · exact h

theorem find_eq_some_iff {v : ν} : m.find k = some v ↔ (k, v) ∈ m.entries :=
  mem_lookup_iff m.sorted

theorem mem_keys_iff : k ∈ m.keys ↔ ∃ v, m.find k = some v := by
  simp only [find_eq_some_iff, keys, mem_map]
  constructor
  · rintro ⟨⟨k', v⟩, h, rfl⟩
    exact ⟨v, h⟩
  · rintro ⟨v, h⟩
    exact ⟨(k, v), h, rfl⟩

theorem mem_values_iff {v : ν} : v ∈ m.values ↔ ∃ k, m.find k = some v := by
  simp only [find_eq_some_iff, values, mem_map]
  constructor
  · rintro ⟨⟨k, v'⟩, h, rfl⟩
    exact ⟨k, h⟩
  · rintro ⟨k, h⟩
    exact ⟨(k, v), h, rfl⟩

theorem countP_setEntry (p : κ × ν → Bool) (k : κ) (v : ν) :
    ∀ {l : List (κ × ν)}, (l.map Prod.fst).Pairwise (· < ·) → (setEntry k v l).countP p =
        l.countP (fun e => decide (e.1 ≠ k) && p e) + if p (k, v) then 1 else 0
  | [], _ => by simp [setEntry]
  | (k', v') :: l, hl => by
    rw [map_cons, pairwise_cons] at hl
    have hrest : k ≤ k' → l.countP (fun e => decide (e.1 ≠ k) && p e) = l.countP p := by
      intro hle
      apply countP_congr
      intro e he
      have hlt : k < e.1 := lt_of_le_of_lt hle (hl.1 e.1 (mem_map.mpr ⟨e, he, rfl⟩))
      simp [ne_of_gt hlt]
    unfold setEntry
    split
    · rename_i hlt
      simp only [countP_cons, hrest (le_of_lt hlt)]
      simp [ne_of_gt hlt]
    · split
      · rename_i heq
        subst heq
        simp only [countP_cons, hrest (le_refl _)]
        simp
      · rename_i hne
        simp only [countP_cons, countP_setEntry p k v hl.2]
        simp only [Ne.symm hne, ne_eq, not_false_eq_true, decide_true, Bool.true_and]
        omega

/-- **Counting after a write**: the other keys' entries with the property, and the new one. -/
theorem countP_set (p : κ × ν → Bool) (m : FlatMap κ ν) (k : κ) (v : ν) :
    (m.set k v).entries.countP p =
      m.entries.countP (fun e => decide (e.1 ≠ k) && p e) + if p (k, v) then 1 else 0 :=
  countP_setEntry p k v m.sorted

theorem length_setEntry_of_mem (v : ν) :
    ∀ {l : List (κ × ν)}, (l.map Prod.fst).Pairwise (· < ·) → k ∈ l.map Prod.fst →
      (setEntry k v l).length = l.length
  | [], _, hk => absurd hk not_mem_nil
  | (k', v') :: l, hl, hk => by
    rw [map_cons, pairwise_cons] at hl
    unfold setEntry
    rcases mem_cons.mp hk with rfl | hk
    · simp
    · have hlt : k' < k := hl.1 k hk
      rw [if_neg (not_lt.mpr (le_of_lt hlt)), if_neg (ne_of_gt hlt), length_cons,
        length_setEntry_of_mem v hl.2 hk, length_cons]

theorem length_set_of_mem (hk : k ∈ m.keys) (v : ν) :
    (m.set k v).entries.length = m.entries.length :=
  length_setEntry_of_mem v m.sorted hk

end FlatMap

/-- A set kept as its elements in strictly increasing order, as `boost::container::flat_set`. -/
abbrev FlatSet (κ : Type) [LinearOrder κ] := FlatMap κ Unit

/-- `insert(k)`. -/
def FlatSet.insert {κ : Type} [LinearOrder κ] (s : FlatSet κ) (k : κ) : FlatSet κ := s.set k ()

namespace FlatSet

variable {κ : Type} [LinearOrder κ]

/-- `insert(first, last)`. -/
def insertAll (s : FlatSet κ) (ks : List κ) : FlatSet κ := ks.foldl insert s

/-- `set_difference`. -/
def difference (s t : FlatSet κ) : FlatSet κ :=
  ⟨s.entries.filter fun e => e.1 ∉ t.keys, s.sorted.sublist (filter_sublist.map Prod.fst)⟩

theorem mem_keys_insertAll : ∀ {ks : List κ} {s : FlatSet κ},
    k ∈ (s.insertAll ks).keys ↔ k ∈ s.keys ∨ k ∈ ks
  | [], s => by simp [insertAll]
  | q :: ks, s => by
    show k ∈ ((s.insert q).insertAll ks).keys ↔ _
    rw [mem_keys_insertAll, insert, FlatMap.mem_keys_set, mem_cons]
    tauto

/-- A set is given by its elements. -/
theorem eq_of_mem_keys_iff {s t : FlatSet κ} (h : ∀ k, k ∈ s.keys ↔ k ∈ t.keys) : s = t := by
  have hkeys : s.keys = t.keys := by
    refine List.Perm.eq_of_pairwise' s.sorted t.sorted ?_
    exact (perm_ext_iff_of_nodup (s.sorted.imp fun h => ne_of_lt h)
      (t.sorted.imp fun h => ne_of_lt h)).mpr h
  have hentries : ∀ l : List (κ × Unit), l = (l.map Prod.fst).map fun k => (k, ()) := by
    intro l
    rw [map_map]
    exact (map_id l).symm
  refine FlatMap.ext ?_
  rw [hentries s.entries, hentries t.entries]
  exact congrArg _ hkeys

end FlatSet

/-! ## Order statistics -/

/-- The `i`-th smallest element (from `0`), `0` past the end. -/
def orderStat (l : List Nat) (i : Nat) : Nat := (l.insertionSort (· ≤ ·)).getD i 0

theorem le_getElem_iff_countP {x : Nat} :
    ∀ {l : List Nat}, l.Pairwise (· ≤ ·) → ∀ {i : Nat} (hi : i < l.length),
      x ≤ l[i] ↔ l.countP (fun a => decide (a < x)) ≤ i
  | [], _, i, hi => absurd hi (Nat.not_lt_zero i)
  | a :: l, hl, i, hi => by
    rw [pairwise_cons] at hl
    rw [countP_cons]
    have hzero : x ≤ a → l.countP (fun a => decide (a < x)) = 0 := by
      intro hxa
      rw [countP_eq_zero]
      intro b hb
      have := hl.1 b hb
      simp only [decide_eq_true_eq, not_lt]
      omega
    cases i with
    | zero =>
      by_cases hxa : x ≤ a
      · simp [hxa, hzero hxa]
      · simp [hxa]
    | succ i =>
      rw [getElem_cons_succ, le_getElem_iff_countP hl.2]
      by_cases hxa : x ≤ a
      · simp [hzero hxa, not_lt.mpr hxa]
      · simp only [not_le.mp hxa, decide_true, if_true]
        omega

/-- **A lower bound on an order statistic is an upper bound on a count.** -/
theorem le_orderStat_iff {l : List Nat} {i x : Nat} (hi : i < l.length) :
    x ≤ orderStat l i ↔ l.countP (fun a => decide (a < x)) ≤ i := by
  have hlen : i < (l.insertionSort (· ≤ ·)).length := by rwa [length_insertionSort]
  have hsorted : (l.insertionSort (· ≤ ·)).Pairwise (· ≤ ·) := pairwise_insertionSort _ l
  unfold orderStat
  rw [getD_eq_getElem _ _ hlen, le_getElem_iff_countP hsorted hlen,
    (perm_insertionSort (· ≤ ·) l).countP_eq]

theorem orderStat_mem {l : List Nat} {i : Nat} (hi : i < l.length) : orderStat l i ∈ l := by
  have hlen : i < (l.insertionSort (· ≤ ·)).length := by rwa [length_insertionSort]
  unfold orderStat
  rw [getD_eq_getElem _ _ hlen]
  exact (perm_insertionSort (· ≤ ·) l).mem_iff.mp (getElem_mem hlen)

end Forceio.Lib
