import Mathlib.Data.Finset.Card

/-!
# Chains of references without a cycle

A chain is followed from a start, and what was seen before is refused. There is a bound on the
length of a chain that is not refused, so a loop that does this ends.

Result:
* `chase_ne_spent`: with a step for every key there is and one more, the loop ends.
-/

namespace Forceio.Lib

variable {α κ ε : Type} [DecidableEq κ]

/-- Follow `next`, remember the keys. -/
def chase (next : α → Except ε (Option α)) (key : α → κ) (circular spent : ε) :
    Nat → List κ → α → Except ε Unit
  | 0, _, _ => .error spent
  | fuel + 1, seen, a =>
    match next a with
    | .error e => .error e
    | .ok none => .ok ()
    | .ok (some b) =>
      if key b ∈ seen then .error circular
      else chase next key circular spent fuel (key b :: seen) b

variable {next : α → Except ε (Option α)} {key : α → κ} {circular spent : ε}

theorem next_eq_ok_of_chase {fuel : Nat} {seen : List κ} {a : α}
    (h : chase next key circular spent fuel seen a = .ok ()) : ∃ o, next a = .ok o := by
  cases fuel with
  | zero => simp [chase] at h
  | succ fuel =>
    rw [chase] at h
    cases hnext : next a with
    | error e =>
      rw [hnext] at h
      simp at h
    | ok o => exact ⟨o, rfl⟩

/-- **The loop ends**: every round sees one key more. -/
theorem chase_ne_spent (ks : Finset κ) (hnext : ∀ a, next a ≠ .error spent)
    (hcircular : circular ≠ spent) (hkeys : ∀ a b, next a = .ok (some b) → key b ∈ ks) :
    ∀ {fuel : Nat} {seen : List κ} {a : α}, (ks \ seen.toFinset).card < fuel →
      chase next key circular spent fuel seen a ≠ .error spent
  | fuel + 1, seen, a, hfuel => by
    rw [chase]
    cases ha : next a with
    | error e =>
      intro h
      obtain rfl : e = spent := Except.error.inj h
      exact hnext a ha
    | ok o =>
      cases o with
      | none => simp
      | some b =>
        dsimp only
        by_cases hb : key b ∈ seen
        · rw [if_pos hb]
          exact fun h => hcircular (Except.error.inj h)
        · rw [if_neg hb]
          refine chase_ne_spent ks hnext hcircular hkeys ?_
          have hlt : (ks \ (key b :: seen).toFinset).card < (ks \ seen.toFinset).card := by
            refine Finset.card_lt_card ?_
            rw [Finset.ssubset_iff_of_subset]
            · exact ⟨key b, by simp [hkeys a b ha, hb], by simp⟩
            · intro k hk
              simp only [Finset.mem_sdiff, List.mem_toFinset, List.mem_cons, not_or] at hk ⊢
              exact ⟨hk.1, hk.2.2⟩
          omega

end Forceio.Lib
