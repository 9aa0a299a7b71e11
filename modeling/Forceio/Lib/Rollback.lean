import Mathlib.Logic.Basic

/-!
# Runs of steps that are rolled back when they fail

A step takes a state to another one, or fails and leaves it as it was. A run attempts one step after
the other.

Results:
* `after_induction`: what successful steps keep holds after a run, where the steps may be assumed to
  meet a condition in the state they start from.
* `after_invariant`: the same without a condition.
-/

namespace Forceio.Lib.Rollback

variable {ε σ α : Type} (step : α → σ → Except ε σ)

/-- One step: a failure is rolled back. -/
def attempt (a : α) (s : σ) : σ :=
  match step a s with
  | .ok s' => s'
  | .error _ => s

/-- The state after a run. -/
def after : List α → σ → σ
  | [], s => s
  | a :: as, s => after as (attempt step a s)

/-- The steps of a run that succeed meet a condition in the state they start from. -/
def Along (C : σ → α → Prop) : List α → σ → Prop
  | [], _ => True
  | a :: as, s => (∀ s', step a s = .ok s' → C s a) ∧ Along C as (attempt step a s)

/-- Whether the steps of a run meet a condition can be computed. -/
instance decidableAlong (C : σ → α → Prop) [∀ s a, Decidable (C s a)] :
    ∀ (as : List α) (s : σ), Decidable (Along step C as s)
  | [], _ => .isTrue trivial
  | a :: as, s =>
    have : Decidable (Along step C as (attempt step a s)) := decidableAlong C as (attempt step a s)
    have : Decidable (∀ s', step a s = .ok s' → C s a) :=
      match step a s with
      | .error _ => .isTrue fun _ h => absurd h (by simp)
      | .ok s' => decidable_of_iff (C s a) ⟨fun h _ _ => h, fun h => h s' rfl⟩
    inferInstanceAs (Decidable (_ ∧ _))

variable {step}

theorem attempt_of_ok {a : α} {s s' : σ} (h : step a s = .ok s') : attempt step a s = s' := by
  unfold attempt
  rw [h]

theorem after_append : ∀ (as bs : List α) (s : σ),
    after step (as ++ bs) s = after step bs (after step as s)
  | [], _, _ => rfl
  | a :: as, bs, s => after_append as bs (attempt step a s)

theorem eq_ok_of_isOk {a : α} {s : σ} (h : (step a s).isOk = true) :
    step a s = .ok (attempt step a s) := by
  unfold attempt
  cases hrun : step a s with
  | ok s' => rfl
  | error e =>
    rw [hrun] at h
    simp [Except.isOk, Except.toBool] at h

/-- **Runs**: what successful steps that meet the condition keep holds in the end. -/
theorem after_induction {C : σ → α → Prop} {I : σ → Prop}
    (hstep : ∀ {s s' : σ} {a : α}, I s → C s a → step a s = .ok s' → I s') :
    ∀ (as : List α) (s : σ), I s → Along step C as s → I (after step as s)
  | [], _, h, _ => h
  | a :: as, s, h, halong => by
    refine after_induction hstep as (attempt step a s) ?_ halong.2
    unfold attempt
    cases hrun : step a s with
    | ok s' => exact hstep h (halong.1 s' hrun) hrun
    | error e => exact h

theorem along_of_forall {C : σ → α → Prop} (h : ∀ s a, C s a) :
    ∀ (as : List α) (s : σ), Along step C as s
  | [], _ => trivial
  | a :: as, s => ⟨fun _ _ => h s a, along_of_forall h as _⟩

/-- **Runs**: what successful steps keep holds in the end. -/
theorem after_invariant {I : σ → Prop} (hstep : ∀ {s s' : σ} {a : α}, I s → step a s = .ok s' → I s')
    (as : List α) (s : σ) (h : I s) : I (after step as s) :=
  after_induction (C := fun _ _ => True) (fun h _ => hstep h) as s h
    (along_of_forall (fun _ _ => trivial) as s)

end Forceio.Lib.Rollback
