import Mathlib.Logic.Basic

/-!
# Running stateful code that may throw

`EStateM ε σ α` is code over a state `σ` that returns or throws, and keeps its changes to the state
in both cases. These are the rules the proofs run such code with.

Results:
* `Refines`: code that does the same whenever other code returns; `Refines.bind`.
* `Fails`, `Throws`: what code can throw; `Throws.bind`.
* `Meets`: where code that returns ends, with what it can throw; `Meets.bind`.
* `Always`: what the state before and after code that returns have to do with each other;
  `Always.bind`.
-/

namespace Forceio.Lib

variable {ε σ α β : Type}

section Except

variable {x : Except ε α} {f : α → Except ε β} {a c : α} {b : β}

/-- Two computations in a row succeed iff the first does and then the second. -/
theorem bind_eq_ok : x >>= f = .ok b ↔ ∃ a, x = .ok a ∧ f a = .ok b := by
  cases x with
  | ok | error => simp [bind, Except.bind]

@[simp] theorem ok_bind : (Except.ok a >>= f) = f a := rfl

theorem pure_eq_ok : (pure a : Except ε α) = .ok c ↔ c = a :=
  ⟨fun h => (Except.ok.inj h).symm, fun h => congrArg Except.ok h.symm⟩

/-- A check that succeeds iff a condition holds, and then other code. -/
theorem check_bind_eq_ok {p : Prop} {x : Except ε Unit} {f : Unit → Except ε β}
    (h : x = .ok () ↔ p) : x >>= f = .ok b ↔ p ∧ f () = .ok b := by
  rw [bind_eq_ok, ← h]
  exact ⟨fun ⟨_, hx, hf⟩ => ⟨hx, hf⟩, fun ⟨hx, hf⟩ => ⟨(), hx, hf⟩⟩

end Except

namespace Exec

/-- The state a run ends in, returned or thrown. -/
def stateOf : EStateM.Result ε σ α → σ
  | .ok _ s => s
  | .error _ s => s

/-- What a run threw. -/
def thrown : EStateM.Result ε σ α → Option ε
  | .ok _ _ => none
  | .error e _ => some e

/-- What a run returned or threw, without its state. -/
def outcome : EStateM.Result ε σ α → Except ε α
  | .ok a _ => .ok a
  | .error e _ => .error e

/-- Code without a state, run in any state. -/
def lift (x : Except ε α) : EStateM ε σ α := fun s =>
  match x with
  | .ok a => .ok a s
  | .error e => .error e s

/-- Run `m` and hand its exception on as a value, except those `fatal` picks out. -/
def attempt (fatal : ε → Bool) (m : EStateM ε σ α) : EStateM ε σ (Except ε α) := fun s =>
  match m s with
  | .ok a s' => .ok (.ok a) s'
  | .error e s' => if fatal e then .error e s' else .ok (.error e) s'

/-- Run code over a part of the state. -/
def zoom {τ : Type} (get : σ → τ) (set : τ → σ → σ) (m : EStateM ε τ α) : EStateM ε σ α := fun s =>
  match m (get s) with
  | .ok a t => .ok a (set t s)
  | .error e t => .error e (set t s)

variable {a : α} {m : EStateM ε σ α} {f : α → EStateM ε σ β} {s s' : σ} {x : Except ε α}

@[simp] theorem stateOf_ok (a : α) (s : σ) : stateOf (.ok a s : EStateM.Result ε σ α) = s := rfl

@[simp] theorem outcome_ok (a : α) (s : σ) : outcome (.ok a s : EStateM.Result ε σ α) = .ok a := rfl

theorem outcome_eq_ok_iff {r : EStateM.Result ε σ α} : outcome r = .ok a ↔ ∃ s, r = .ok a s := by
  cases r with
  | ok | error => simp [outcome]

theorem eq_ok_of_thrown {r : EStateM.Result ε σ Unit} (h : thrown r = none) :
    r = .ok () (stateOf r) := by
  cases r with
  | ok u s => rfl
  | error e s => simp [thrown] at h

theorem bind_of_ok (h : m s = .ok a s') : (m >>= f) s = f a s' := by
  show EStateM.bind m f s = f a s'
  unfold EStateM.bind
  rw [h]

variable {e : ε}

theorem bind_of_error (h : m s = .error e s') : (m >>= f) s = .error e s' := by
  show EStateM.bind m f s = .error e s'
  unfold EStateM.bind
  rw [h]

variable {t : σ}

theorem bind_ok {b : β} :
    (m >>= f) s = .ok b t ↔ ∃ a s', m s = .ok a s' ∧ f a s' = .ok b t := by
  constructor
  · intro h
    cases hm : m s with
    | ok a s' =>
      rw [bind_of_ok hm] at h
      exact ⟨a, s', rfl, h⟩
    | error e s' =>
      rw [bind_of_error hm] at h
      simp at h
  · rintro ⟨a, s', hm, hf⟩
    rw [bind_of_ok hm, hf]

theorem lift_of_ok (h : x = .ok a) : lift x s = .ok a s := by
  subst h
  rfl

theorem lift_of_error (h : x = .error e) : lift x s = .error e s := by
  subst h
  rfl

theorem lift_ok : lift x s = .ok a t ↔ x = .ok a ∧ t = s := by
  unfold lift
  cases x with
  | ok b =>
    simp only [EStateM.Result.ok.injEq, Except.ok.injEq]
    exact and_congr_right fun _ => eq_comm
  | error e => simp

theorem get_bind {f : σ → EStateM ε σ β} : (get >>= f) s = f s s := rfl

/-- Code that leaves the state alone, and then other code. -/
theorem read_bind_ok {P : α → Prop} {b : β} (h : ∀ {a t}, m s = .ok a t ↔ P a ∧ t = s) :
    (m >>= f) s = .ok b t ↔ ∃ a, P a ∧ f a s = .ok b t := by
  rw [bind_ok]
  constructor
  · rintro ⟨a, s', hm, hf⟩
    obtain ⟨ha, rfl⟩ := h.mp hm
    exact ⟨a, ha, hf⟩
  · rintro ⟨a, ha, hf⟩
    exact ⟨a, s, h.mpr ⟨ha, rfl⟩, hf⟩

theorem lift_bind_ok {b : β} : (lift x >>= f) s = .ok b t ↔ ∃ a, x = .ok a ∧ f a s = .ok b t :=
  read_bind_ok lift_ok

theorem check_bind_ok {p : Prop} {m : EStateM ε σ Unit} {f : Unit → EStateM ε σ β} {b : β}
    (h : ∀ {u t}, m s = .ok u t ↔ p ∧ t = s) :
    (m >>= f) s = .ok b t ↔ p ∧ f () s = .ok b t := by
  rw [read_bind_ok h]
  exact ⟨fun ⟨_, hf⟩ => hf, fun hf => ⟨(), hf⟩⟩

theorem zoom_ok {τ : Type} {get : σ → τ} {set : τ → σ → σ} {m : EStateM ε τ α}
    : zoom get set m s = .ok a s' ↔ ∃ t, m (get s) = .ok a t ∧ s' = set t s := by
  unfold zoom
  cases m (get s) with
  | error e t => simp
  | ok b t =>
    simp only [EStateM.Result.ok.injEq]
    constructor
    · rintro ⟨rfl, rfl⟩
      exact ⟨t, ⟨rfl, rfl⟩, rfl⟩
    · rintro ⟨t', ⟨rfl, rfl⟩, rfl⟩
      exact ⟨rfl, rfl⟩

theorem attempt_of_ok {fatal : ε → Bool} (h : m s = .ok a s')
    : attempt fatal m s = .ok (.ok a) s' := by
  unfold attempt
  rw [h]

theorem attempt_of_error {fatal : ε → Bool} (h : m s = .error e s') (he : fatal e = false)
    : attempt fatal m s = .ok (.error e) s' := by
  unfold attempt
  rw [h]
  simp [he]

/-! ## Refinement -/

/-- **Refinement**: whenever `m` returns, `m'` returns the same and leaves the same state. -/
def Refines (m m' : EStateM ε σ α) : Prop := ∀ ⦃s a s'⦄, m s = .ok a s' → m' s = .ok a s'

namespace Refines

variable {m m' : EStateM ε σ α}

theorem refl (m : EStateM ε σ α) : Refines m m := fun _ _ _ h => h

theorem bind {f f' : α → EStateM ε σ β} (hm : Refines m m') (hf : ∀ a, Refines (f a) (f' a)) :
    Refines (m >>= f) (m' >>= f') := by
  intro s b s' h
  obtain ⟨a, t, ha, hb⟩ := bind_ok.mp h
  exact bind_ok.mpr ⟨a, t, hm ha, hf a hb⟩

theorem get_bind {f f' : σ → EStateM ε σ β} (hf : ∀ s, Refines (f s) (f' s)) :
    Refines (get >>= f) (get >>= f') := fun s _ _ h => hf s h

theorem lift {x x' : Except ε α} (h : ∀ a, x = .ok a → x' = .ok a) :
    Refines (lift x : EStateM ε σ α) (Exec.lift x') := by
  intro s a s' hx
  obtain ⟨ha, rfl⟩ := lift_ok.mp hx
  exact lift_ok.mpr ⟨h a ha, rfl⟩

end Refines

/-! ## Exceptions -/

theorem bind_eq_error {m : EStateM ε σ α} {f : α → EStateM ε σ β} {s : σ}
    (h : (m >>= f) s = .error e t) :
    m s = .error e t ∨ ∃ a s', m s = .ok a s' ∧ f a s' = .error e t := by
  cases hm : m s with
  | ok a s' =>
    rw [bind_of_ok hm] at h
    exact .inr ⟨a, s', rfl, h⟩
  | error e' s' =>
    rw [bind_of_error hm] at h
    cases h
    exact .inl rfl

/-- What code without a state throws has the property. -/
def Fails (E : ε → Prop) (x : Except ε α) : Prop := ∀ ⦃e⦄, x = .error e → E e

namespace Fails

variable {E : ε → Prop} {x : Except ε α}

theorem ok (a : α) : Fails E (.ok a : Except ε α) := fun _ h => absurd h (by simp)

theorem error (h : E e) : Fails E (.error e : Except ε α) := by
  intro e' he
  cases he
  exact h

theorem bind {f : α → Except ε β} (hx : Fails E x) (hf : ∀ a, x = .ok a → Fails E (f a)) :
    Fails E (x >>= f) := by
  cases x with
  | ok a => exact hf a rfl
  | error e => exact .error (hx rfl)

end Fails

/-- What the code throws from a state has the property. -/
def Throws (E : ε → Prop) (m : EStateM ε σ α) (s : σ) : Prop := ∀ ⦃e s'⦄, m s = .error e s' → E e

namespace Throws

variable {E : ε → Prop} {m : EStateM ε σ α} {s : σ}

theorem bind {f : α → EStateM ε σ β} (hm : Throws E m s)
    (hf : ∀ a s', m s = .ok a s' → Throws E (f a) s') : Throws E (m >>= f) s := by
  intro e s' h
  rcases bind_eq_error h with h | ⟨a, t, ha, h⟩
  · exact hm h
  · exact hf a t ha h

theorem of_ok {a : α} {s' : σ} (h : m s = .ok a s') : Throws E m s := by
  intro e t he
  rw [h] at he
  simp at he

theorem get_bind {f : σ → EStateM ε σ β} (hf : Throws E (f s) s) : Throws E (get >>= f) s := hf

theorem lift {x : Except ε α} (h : Fails E x) : Throws E (lift x : EStateM ε σ α) s := by
  intro e s' hx
  cases x with
  | ok a => simp [Exec.lift] at hx
  | error e' =>
    cases hx
    exact h rfl

theorem lift_bind {x : Except ε α} {f : α → EStateM ε σ β} (h : Fails E x)
    (hf : ∀ a, x = .ok a → Throws E (f a) s) : Throws E (Exec.lift x >>= f) s := by
  refine .bind (.lift h) fun a s' ha => ?_
  obtain ⟨hx, rfl⟩ := lift_ok.mp ha
  exact hf a hx

theorem zoom {τ : Type} {get : σ → τ} {set : τ → σ → σ} {n : EStateM ε τ α}
    (h : Throws E n (get s)) : Throws E (zoom get set n) s := by
  intro e s' hx
  unfold Exec.zoom at hx
  cases hn : n (get s) with
  | ok a t =>
    rw [hn] at hx
    simp at hx
  | error e' t =>
    rw [hn] at hx
    cases hx
    exact h hn

end Throws

/-- Where the code returns the state has the property, and under a condition it throws only what it
may. -/
structure Meets (C : Prop) (P : σ → Prop) (E : ε → Prop) (m : EStateM ε σ α) (s : σ) : Prop where
  ok : ∀ {a s'}, m s = .ok a s' → P s'
  throws : C → Throws E m s

namespace Meets

variable {C : Prop} {P : σ → Prop} {E : ε → Prop} {m : EStateM ε σ α} {s : σ}

theorem bind {f : α → EStateM ε σ β} (hm : C → Throws E m s)
    (hf : ∀ a s', m s = .ok a s' → Meets C P E (f a) s') : Meets C P E (m >>= f) s where
  ok h := by
    obtain ⟨a, t, ha, h⟩ := bind_ok.mp h
    exact (hf a t ha).ok h
  throws hc := (hm hc).bind fun a t ha => (hf a t ha).throws hc

theorem get_bind {f : σ → EStateM ε σ β} (hf : Meets C P E (f s) s) : Meets C P E (get >>= f) s :=
  ⟨hf.ok, hf.throws⟩

theorem lift_bind {x : Except ε α} {f : α → EStateM ε σ β} (hx : C → Fails E x)
    (hf : ∀ a, x = .ok a → Meets C P E (f a) s) : Meets C P E (Exec.lift x >>= f) s := by
  refine .bind (fun hc => .lift (hx hc)) fun a t ha => ?_
  obtain ⟨hx, rfl⟩ := lift_ok.mp ha
  exact hf a hx

end Meets

/-! ## Before and after -/

/-- Whenever the code returns, `R` relates the state before to the state after. -/
def Always (R : σ → σ → Prop) (m : EStateM ε σ α) : Prop := ∀ ⦃s a s'⦄, m s = .ok a s' → R s s'

namespace Always

variable {R : σ → σ → Prop} {m : EStateM ε σ α}

theorem bind {f : α → EStateM ε σ β} (htrans : ∀ {s t u}, R s t → R t u → R s u)
    (hm : Always R m) (hf : ∀ a, Always R (f a)) : Always R (m >>= f) := by
  intro s b s' h
  obtain ⟨a, t, ha, hb⟩ := bind_ok.mp h
  exact htrans (hm ha) (hf a hb)

theorem lift (hrefl : ∀ s, R s s) (x : Except ε α) : Always R (lift x : EStateM ε σ α) := by
  intro s a s' h
  obtain ⟨-, rfl⟩ := lift_ok.mp h
  exact hrefl s'

end Always

end Exec

end Forceio.Lib
