import Mathlib.Data.Nat.Log
import Mathlib.Data.Nat.Bitwise
import Mathlib.Tactic.NormNum

/-!
# Smearing the top bit of a machine word

`x ||| (x >>> 1)`, then the same with shifts 2, 4, 8, …, copies the highest set bit of `x` into
every lower position. `Smeared k x y` says what has been reached when the shifts so far sum to
`k - 1`: bit `i` of `y` is set iff one of the bits `i, …, i + k - 1` of `x` is.

Result:
* `Smeared.eq_two_pow_sub_one`: once the window spans the word, `y` is one less than the least
  power of two above `x`.
-/

namespace Forceio.Lib.BitSmear

/-- Bit `i` of `y` is set iff a bit of `x` in `[i, i + k)` is. -/
def Smeared (k x y : Nat) : Prop :=
  ∀ i, y.testBit i = true ↔ ∃ j, i ≤ j ∧ j < i + k ∧ x.testBit j = true

theorem Smeared.one (x : Nat) : Smeared 1 x x := by
  intro i
  constructor
  · intro h
    exact ⟨i, le_refl i, by omega, h⟩
  · rintro ⟨j, h1, h2, h⟩
    have : j = i := by omega
    rwa [this] at h

/-- **One step doubles the window.** -/
theorem Smeared.step {k x y : Nat} (h : Smeared k x y) : Smeared (2 * k) x (y ||| (y >>> k)) := by
  intro i
  rw [Nat.testBit_or, Nat.testBit_shiftRight, Bool.or_eq_true, h i, h (k + i)]
  constructor
  · rintro (⟨j, h1, h2, hj⟩ | ⟨j, h1, h2, hj⟩)
    · exact ⟨j, h1, by omega, hj⟩
    · exact ⟨j, by omega, by omega, hj⟩
  · rintro ⟨j, h1, h2, hj⟩
    by_cases hlt : j < i + k
    · exact Or.inl ⟨j, h1, hlt, hj⟩
    · exact Or.inr ⟨j, by omega, by omega, hj⟩

/-- A window as wide as the word leaves all ones below the top bit of `x`. -/
theorem Smeared.eq_two_pow_sub_one {w x y s : Nat} (h : Smeared w x y) (hlt : x < 2 ^ s)
    (hge : s = 0 ∨ x.testBit (s - 1) = true) (hs : s ≤ w) : y = 2 ^ s - 1 := by
  apply Nat.eq_of_testBit_eq
  intro i
  have hhigh : ∀ j, s ≤ j → x.testBit j = false := fun j hj =>
    Nat.testBit_lt_two_pow (lt_of_lt_of_le hlt (Nat.pow_le_pow_right (by norm_num) hj))
  by_cases hi : i < s
  · have hbit : x.testBit (s - 1) = true := hge.resolve_left (by omega)
    have hy : y.testBit i = true := (h i).mpr ⟨s - 1, by omega, by omega, hbit⟩
    simp [hy, hi]
  · have hy : y.testBit i = false := by
      rw [Bool.eq_false_iff]
      intro hc
      obtain ⟨j, h1, -, hj⟩ := (h i).mp hc
      rw [hhigh j (by omega)] at hj
      exact Bool.false_ne_true hj
    simp [hy, hi]

/-- The top bit of `n - 1` sits just below `Nat.clog 2 n`. -/
theorem testBit_clog_pred {n : Nat} (hn : 2 ≤ n) : (n - 1).testBit (Nat.clog 2 n - 1) = true := by
  have hpos : 0 < Nat.clog 2 n := Nat.clog_pos (by norm_num) hn
  have hup : n - 1 < 2 ^ Nat.clog 2 n := by
    have := Nat.le_pow_clog (b := 2) (by norm_num) n
    omega
  have hlow : 2 ^ (Nat.clog 2 n - 1) ≤ n - 1 := by
    have := Nat.pow_pred_clog_lt_self (b := 2) (by norm_num) (x := n) (by omega)
    rw [Nat.pred_eq_sub_one] at this
    omega
  rw [show Nat.clog 2 n = (Nat.clog 2 n - 1) + 1 by omega, pow_succ] at hup
  rw [Nat.testBit_eq_decide_div_mod_eq, decide_eq_true_eq]
  have hdiv : (n - 1) / 2 ^ (Nat.clog 2 n - 1) = 1 := by
    apply Nat.div_eq_of_lt_le <;> omega
  rw [hdiv]

/-- **Smearing `n - 1` gives `2 ^ clog n - 1`.** -/
theorem Smeared.of_pred {w n y : Nat} (h : Smeared w (n - 1) y) (hn : 1 ≤ n)
    (hw : Nat.clog 2 n ≤ w) : y = 2 ^ Nat.clog 2 n - 1 := by
  refine h.eq_two_pow_sub_one ?_ ?_ hw
  · have := Nat.le_pow_clog (b := 2) (by norm_num) n
    omega
  · rcases Nat.lt_or_ge n 2 with h1 | h2
    · left
      have : n = 1 := by omega
      rw [this]
      exact Nat.clog_one_right 2
    · exact Or.inr (testBit_clog_pred h2)

end Forceio.Lib.BitSmear
