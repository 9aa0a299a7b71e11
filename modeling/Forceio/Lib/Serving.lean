import Mathlib.Data.List.Pairwise

/-!
# Serving in order of priority

Of those that wait, some are served, one after the other, as they stand in a walk over them. A
priority is respected when those that are served are so in its order, and everyone with priority
over one that is served is served too.

Results:
* `serves_iff`: serving the first of a walk respects the priority exactly if everyone with priority
  over one that is served stands before them in the walk.
-/

namespace Forceio.Lib

open List

variable {α : Type} {prior before : α → α → Prop} {waiting walk served : List α}

/-- Those that are served respect a priority among all that wait. -/
def Serves (prior : α → α → Prop) (waiting served : List α) : Prop :=
  served.Pairwise prior ∧ ∀ a ∈ served, ∀ b ∈ waiting, prior b a → b ∈ served

theorem mem_of_before {rest : List α} (h : (served ++ rest).Pairwise before)
    (hasymm : ∀ a b, before a b → ¬ before b a) {a b : α} (ha : a ∈ served)
    (hb : b ∈ served ++ rest) (hbefore : before b a) : b ∈ served := by
  rcases mem_append.mp hb with hb | hb
  · exact hb
  · exact absurd hbefore (hasymm a b ((pairwise_append.mp h).2.2 a ha b hb))

/-- **Serving the first of a walk** respects the priority exactly if everyone with priority over one
that is served stands before them in the walk. -/
theorem serves_iff (hwalk : walk.Pairwise before) (hbefore : ∀ a b, before a b → ¬ before b a)
    (hprior : ∀ a b, prior a b → ¬ prior b a) (hfirst : served <+: walk)
    (hwaiting : ∀ a ∈ walk, a ∈ waiting)
    (htotal : ∀ a ∈ walk, ∀ b ∈ walk, a ≠ b → prior a b ∨ prior b a) :
    Serves prior waiting served ↔
      ∀ a ∈ served, ∀ b ∈ waiting, prior b a → b ∈ walk ∧ before b a := by
  obtain ⟨rest, rfl⟩ := hfirst
  have hserved := (pairwise_append.mp hwalk).1
  constructor
  · rintro ⟨hpairwise, hall⟩ a ha b hb hba
    have hbs := hall a ha b hb hba
    refine ⟨mem_append_left _ hbs, ?_⟩
    have hne : b ≠ a := by
      rintro rfl
      exact hprior b b hba hba
    -- The other order of the two would be one of the priority as well.
    have hboth : served.Pairwise fun x y => (before x y ∧ prior x y) ∨ (before y x ∧ prior y x) :=
      (hserved.and hpairwise).imp Or.inl
    have : Std.Symm fun x y => (before x y ∧ prior x y) ∨ (before y x ∧ prior y x) :=
      ⟨fun _ _ => Or.symm⟩
    rcases hboth.forall hbs ha hne with h | h
    · exact h.1
    · exact absurd hba (hprior a b h.2)
  · intro h
    refine ⟨?_, fun a ha b hb hba => ?_⟩
    · refine hserved.imp_of_mem fun {a b} ha hb hab => ?_
      have hne : a ≠ b := by
        rintro rfl
        exact hbefore a a hab hab
      have ha' := mem_append_left rest ha
      have hb' := mem_append_left rest hb
      refine (htotal a ha' b hb' hne).resolve_right fun hba => ?_
      exact hbefore a b hab (h a ha b (hwaiting b hb') hba).2
    · obtain ⟨hmem, hba'⟩ := h a ha b hb hba
      exact mem_of_before hwalk hbefore ha hmem hba'

end Forceio.Lib
