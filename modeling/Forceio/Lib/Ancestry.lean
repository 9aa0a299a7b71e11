import Mathlib.Data.Finset.Card

/-!
# Acyclic relations

`R i j` says that `j` is a parent of `i`; its transitive closure is ancestry. An acyclic relation
stays acyclic when a leaf is added, and whoever climbs it in a finite set gets to a root.

Results:
* `Acyclic.mono`, `Acyclic.addLeaf`: what keeps a relation acyclic.
* `Acyclic.exists_root`: climbing ends at a root.
-/

namespace Forceio.Lib

open Relation

variable {ι : Type} {R R' : ι → ι → Prop}

/-- Nothing is its own ancestor. -/
def Acyclic (R : ι → ι → Prop) : Prop := ∀ i, ¬ TransGen R i i

namespace Acyclic

theorem of_lt [Preorder ι] (h : ∀ i j, R i j → j < i) : Acyclic R := by
  have hlt : ∀ i j, TransGen R i j → j < i := by
    intro i j hij
    induction hij with
    | single hr => exact h _ _ hr
    | tail _ hr ih => exact lt_trans (h _ _ hr) ih
  exact fun i hi => lt_irrefl i (hlt i i hi)

theorem mono (h : Acyclic R) (hsub : ∀ i j, R' i j → R i j) : Acyclic R' :=
  fun i hi => h i (TransGen.mono hsub _ _ hi)

/-- A new element that is nobody's parent closes no cycle. -/
theorem addLeaf (h : Acyclic R) {n : ι} (hleaf : ∀ i, ¬ R' i n)
    (hold : ∀ i j, i ≠ n → R' i j → R i j) : Acyclic R' := by
  have hpath : ∀ i j, TransGen R' i j → i ≠ n → TransGen R i j := by
    intro i j hij hi
    induction hij with
    | single hr => exact .single (hold _ _ hi hr)
    | tail hpre hr ih =>
      refine ih.tail (hold _ _ ?_ hr)
      -- the last edge starts where another one ended
      rintro rfl
      obtain ⟨k, -, hk⟩ := TransGen.tail'_iff.mp hpre
      exact hleaf k hk
  intro i hi
  refine h i (hpath i i hi ?_)
  rintro rfl
  obtain ⟨k, -, hk⟩ := TransGen.tail'_iff.mp hi
  exact hleaf k hk

variable [DecidableEq ι] {i k : ι} {s : Finset ι}

/-- **A step up**: the parent is among the ancestors and is not one of its own. -/
theorem climb (h : Acyclic R) (hs : ∀ j, TransGen R i j → j ∈ s) (hik : R i k) :
    k ∈ s ∧ ∀ j, TransGen R k j → j ∈ s.erase k := by
  refine ⟨hs k (.single hik), fun j hj => Finset.mem_erase.mpr ⟨?_, hs j (.head hik hj)⟩⟩
  rintro rfl
  exact h j hj

/-- **Climbing ends at a root.** -/
theorem exists_root (h : Acyclic R) (i : ι) (s : Finset ι) (hs : ∀ j, TransGen R i j → j ∈ s) :
    ∃ r, ReflTransGen R i r ∧ ∀ k, ¬ R r k := by
  induction s using Finset.strongInduction generalizing i with
  | H s ih =>
    by_cases hroot : ∃ k, R i k
    · obtain ⟨k, hk⟩ := hroot
      obtain ⟨hmem, hanc⟩ := h.climb hs hk
      obtain ⟨r, hr, hr'⟩ := ih (s.erase k) (Finset.erase_ssubset hmem) k hanc
      exact ⟨r, .head hk hr, hr'⟩
    · exact ⟨i, .refl, fun k hk => hroot ⟨k, hk⟩⟩

end Acyclic

end Forceio.Lib
