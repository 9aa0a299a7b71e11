import Mathlib.Data.Nat.Log
import Mathlib.Data.List.Basic
import Mathlib.Tactic.NormNum

/-!
# Balanced pairing of a list, level by level

`level h l` combines the elements of `l` two by two with `h`, an odd last element with itself.
Iterating it down to one element is the root of the balanced tree over `l`. `pairs h l` is the
part of the next level that no later element can change, and `leftNodes h l` the last element of
every odd-length level of it: one node per set bit of `l.length`, lowest level first.

Result:
* `level_snoc_even` / `level_snoc_odd`: how one more element changes the next level.
-/

namespace Forceio.Lib.PairTree

open List

variable {α : Type} (h : α → α → α)
variable {l : List α}

/-- The next level, an odd last element paired with itself. -/
def level : List α → List α
  | [] => []
  | [a] => [h a a]
  | a :: b :: l => h a b :: level l

/-- The next level without the pair of an odd last element. -/
def pairs : List α → List α
  | [] => []
  | [_] => []
  | a :: b :: l => h a b :: pairs l

theorem length_pairs : ∀ l : List α, (pairs h l).length = l.length / 2
  | [] => by simp [pairs]
  | [_] => by simp [pairs]
  | _ :: _ :: l => by
    simp only [pairs, length_cons, length_pairs l]
    omega

theorem length_level : ∀ l : List α, (level h l).length = (l.length + 1) / 2
  | [] => by simp [level]
  | [_] => by simp [level]
  | _ :: _ :: l => by
    simp only [level, length_cons, length_level l]
    omega

theorem level_eq_pairs : ∀ {l : List α}, l.length % 2 = 0 → level h l = pairs h l
  | [], _ => rfl
  | [_], hl => absurd hl (by simp)
  | a :: b :: l, hl => by
    simp only [length_cons] at hl
    rw [level, pairs, level_eq_pairs (l := l) (by omega)]

theorem level_snoc_even : ∀ {l : List α} (x : α), l.length % 2 = 0 →
    level h (l ++ [x]) = pairs h l ++ [h x x]
  | [], _, _ => rfl
  | [_], _, hl => absurd hl (by simp)
  | a :: b :: l, x, hl => by
    simp only [length_cons] at hl
    simp only [cons_append, level, pairs]
    rw [level_snoc_even x (by omega)]

theorem pairs_snoc_even : ∀ {l : List α} (x : α), l.length % 2 = 0 → pairs h (l ++ [x]) = pairs h l
  | [], _, _ => rfl
  | [_], _, hl => absurd hl (by simp)
  | a :: b :: l, x, hl => by
    simp only [length_cons] at hl
    simp only [cons_append, pairs]
    rw [pairs_snoc_even x (by omega)]

theorem pairs_snoc_snoc : ∀ {l : List α} (y x : α), l.length % 2 = 0 →
    pairs h (l ++ [y] ++ [x]) = pairs h l ++ [h y x]
  | [], _, _, _ => rfl
  | [_], _, _, hl => absurd hl (by simp)
  | a :: b :: l, y, x, hl => by
    simp only [length_cons] at hl
    simp only [cons_append, pairs]
    rw [pairs_snoc_snoc y x (by omega)]

theorem level_snoc_odd (y x : α) (hl : l.length % 2 = 0) :
    level h (l ++ [y] ++ [x]) = pairs h l ++ [h y x] := by
  rw [level_eq_pairs h (by simp only [length_append, length_singleton]; omega),
    pairs_snoc_snoc h y x hl]

theorem exists_snoc_of_odd (hl : l.length % 2 = 1) : ∃ l' y, l = l' ++ [y] ∧ l'.length % 2 = 0 := by
  have hne : l ≠ [] := fun e => by rw [e] at hl; simp at hl
  refine ⟨l.dropLast, l.getLast hne, (dropLast_append_getLast hne).symm, ?_⟩
  rw [length_dropLast]
  omega

/-! ## The left nodes -/

/-- The last element of every odd-length level of complete pairs, lowest level first. -/
def leftNodes (l : List α) : List α :=
  if l = [] then []
  else (if l.length % 2 = 1 then l.getLast?.toList else []) ++ leftNodes (pairs h l)
termination_by l.length
decreasing_by
  rename_i hne
  have hpos : 0 < l.length := length_pos_iff.mpr hne
  rw [length_pairs]
  omega

@[simp] theorem leftNodes_nil : leftNodes h ([] : List α) = [] := by
  rw [leftNodes]
  simp

theorem leftNodes_even (hl : l.length % 2 = 0) : leftNodes h l = leftNodes h (pairs h l) := by
  by_cases hne : l = []
  · rw [hne]
    rfl
  · rw [leftNodes, if_neg hne, if_neg (by omega), nil_append]

theorem leftNodes_snoc_even (x : α) (hl : l.length % 2 = 0) :
    leftNodes h (l ++ [x]) = x :: leftNodes h (pairs h l) := by
  have hodd : (l ++ [x]).length % 2 = 1 := by
    simp only [length_append, length_singleton]
    omega
  rw [leftNodes, if_neg (by simp), if_pos hodd, pairs_snoc_even h x hl]
  simp

theorem leftNodes_snoc_odd (y x : α) (hl : l.length % 2 = 0) :
    leftNodes h (l ++ [y] ++ [x]) = leftNodes h (pairs h l ++ [h y x]) := by
  rw [leftNodes_even h (by simp only [length_append, length_singleton]; omega),
    pairs_snoc_snoc h y x hl]

end Forceio.Lib.PairTree
