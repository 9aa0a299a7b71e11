import Mathlib.Tactic.Ring
import Forceio.Lib.Exec

/-!
# Assets: `eosiolib/asset.hpp`, `eosiolib/symbol.hpp`, `eosiolib/system.h`

Contracts stop with a message (`eosio_assert`), for want of an authority (`require_auth`), or in the
virtual machine (a division by zero, the end of a table dereferenced).

* An amount is an `int64_t` kept within `2 ^ 62`. One side of every sum is within that bound, so a
  sum that leaves it does not wrap back into it, and sums are taken exactly.
* A symbol is its precision and its name; the name is the packed letters, `value >> 8`.

Results:
* `add_eq_ok_iff`, `sub_eq_ok_iff`, `mul_eq_ok_iff`, `div_eq_ok_iff`: when the operators return.
-/

namespace Forceio.Eosiolib

open Forceio.Lib

/-! ## Stopping -/

/-- Why a contract stopped. -/
inductive ContractError where
  | assert (message : String)
  | missingAuthority (account : Nat)
  | inlineAction (message : String)
  | trap
  deriving DecidableEq, Repr

/-- `eosio_assert`. -/
def eosioAssert (cond : Prop) [Decidable cond] (message : String) : Except ContractError Unit :=
  if cond then .ok () else .error (.assert message)

variable {message : String} {cond : Prop}

theorem eosioAssert_eq_ok [Decidable cond] {u : Unit} :
    eosioAssert cond message = .ok u ↔ cond := by
  unfold eosioAssert
  split <;> simp_all

theorem eosioAssert_fails [Decidable cond]
    {E : ContractError → Prop} (h : ¬ cond → E (.assert message)) :
    Exec.Fails E (eosioAssert cond message) := by
  intro e he
  unfold eosioAssert at he
  split at he
  · simp at he
  · cases he
    exact h ‹_›

theorem assert_bind_eq_ok {β : Type} [Decidable cond] {f : Unit → Except ContractError β} {b : β} :
    eosioAssert cond message >>= f = .ok b ↔ cond ∧ f () = .ok b :=
  check_bind_eq_ok eosioAssert_eq_ok

/-! ## Machine integers -/

/-- The `int64_t` that the low 64 bits of a number are. -/
def int64 (x : Int) : Int := Int.bmod x (2 ^ 64)

/-- The `uint64_t` that the low 64 bits of a number are. -/
def uint64 (x : Int) : Nat := (x % 2 ^ 64).toNat

/-- The `uint32_t` that the low 32 bits of a number are. -/
def uint32 (x : Int) : Nat := (x % 2 ^ 32).toNat

theorem uint32_lt (x : Int) : uint32 x < 2 ^ 32 := by
  unfold uint32
  omega

/-- An `int64_t` division, which traps on zero. -/
def int64Div (x y : Int) : Except ContractError Int := if y = 0 then .error .trap else .ok (x.tdiv y)

theorem int64_of_range {x : Int} (hlow : -2 ^ 63 ≤ x) (hhigh : x < 2 ^ 63) : int64 x = x :=
  Int.bmod_eq_of_le_mul_two (by omega) (by omega)

/-- `precision`: the loop multiplies by ten, modulo `2 ^ 64`. -/
def precision (decimals : Nat) : Int := int64 (10 ^ decimals)

/-! ## Symbols -/

/-- `symbol_type`. -/
structure SymbolType where
  precision : Nat
  name : Nat
  deriving DecidableEq, Repr

/-- The loop of `is_valid_symbol` from some letter on: capital letters, then nothing. -/
def validLetters : Nat → Nat → Bool
  | 0, _ => true
  | n + 1, name =>
    decide ('A'.toNat ≤ name % 256 ∧ name % 256 ≤ 'Z'.toNat) &&
      if name / 256 % 256 = 0 then name / 256 = 0 else validLetters n (name / 256)

/-- `symbol_type::is_valid`. -/
def SymbolType.isValid (s : SymbolType) : Bool := validLetters 7 s.name

/-- The loop of `string_to_symbol`: other characters leave a gap. -/
def packLetters : List Char → Nat
  | [] => 0
  | c :: str => (if 'A' ≤ c ∧ c ≤ 'Z' then c.toNat else 0) + 256 * packLetters str

/-- `string_to_symbol`, of up to seven characters. -/
def stringToSymbol (precision : Nat) (str : String) : SymbolType :=
  ⟨precision % 256, packLetters str.toList % 2 ^ 56⟩

/-! ## Assets -/

/-- `asset`. -/
structure Asset where
  amount : Int
  symbol : SymbolType
  deriving DecidableEq, Repr

namespace Asset

/-- `asset::max_amount`. -/
def maxAmount : Int := 2 ^ 62 - 1

/-- `is_amount_within_range`. -/
def isAmountWithinRange (a : Asset) : Prop := -maxAmount ≤ a.amount ∧ a.amount ≤ maxAmount

instance (a : Asset) : Decidable a.isAmountWithinRange := inferInstanceAs (Decidable (_ ∧ _))

/-- `asset::is_valid`. -/
def isValid (a : Asset) : Prop := a.isAmountWithinRange ∧ a.symbol.isValid = true

instance (a : Asset) : Decidable a.isValid := inferInstanceAs (Decidable (_ ∧ _))

/-- The constructor. -/
def make (amount : Int) (symbol : SymbolType) : Except ContractError Asset := do
  eosioAssert (Asset.mk amount symbol).isAmountWithinRange
    "magnitude of asset amount must be less than 2^62"
  eosioAssert (symbol.isValid = true) "invalid symbol name"
  return ⟨amount, symbol⟩

/-- `operator+=`. -/
def add (a b : Asset) : Except ContractError Asset := do
  eosioAssert (b.symbol = a.symbol) "attempt to add asset with different symbol"
  eosioAssert (-maxAmount ≤ a.amount + b.amount) "addition underflow"
  eosioAssert (a.amount + b.amount ≤ maxAmount) "addition overflow"
  return { a with amount := a.amount + b.amount }

/-- `operator-=`. -/
def sub (a b : Asset) : Except ContractError Asset := do
  eosioAssert (b.symbol = a.symbol) "attempt to subtract asset with different symbol"
  eosioAssert (-maxAmount ≤ a.amount - b.amount) "subtraction underflow"
  eosioAssert (a.amount - b.amount ≤ maxAmount) "subtraction overflow"
  return { a with amount := a.amount - b.amount }

/-- `operator*=`, the product taken in 128 bits. -/
def mul (a : Asset) (b : Int) : Except ContractError Asset := do
  eosioAssert (a.amount * b ≤ maxAmount) "multiplication overflow"
  eosioAssert (a.amount * b ≥ -maxAmount) "multiplication underflow"
  return { a with amount := a.amount * b }

/-- `operator/=`. -/
def div (a : Asset) (b : Int) : Except ContractError Asset := do
  eosioAssert (b ≠ 0) "divide by zero"
  eosioAssert (¬ (a.amount = -2 ^ 63 ∧ b = -1)) "signed division overflow"
  return { a with amount := a.amount.tdiv b }

/-- A comparison of two amounts by `r`. -/
def compare (r : Int → Int → Bool) (a b : Asset) : Except ContractError Bool := do
  eosioAssert (a.symbol = b.symbol) "comparison of assets with different symbols is not allowed"
  return r a.amount b.amount

/-- `operator<=`. -/
def le (a b : Asset) : Except ContractError Bool := compare (fun x y => x ≤ y) a b

/-- `operator<`. -/
def lt (a b : Asset) : Except ContractError Bool := compare (fun x y => x < y) a b

/-- `operator>=`. -/
def ge (a b : Asset) : Except ContractError Bool := compare (fun x y => x ≥ y) a b

/-- `operator>`. -/
def gt (a b : Asset) : Except ContractError Bool := compare (fun x y => x > y) a b

variable {a b c : Asset} {x : Int} {s : SymbolType}

theorem make_eq_ok_iff : make x s = .ok c ↔
    (-maxAmount ≤ x ∧ x ≤ maxAmount) ∧ s.isValid = true ∧ c = ⟨x, s⟩ := by
  unfold make
  rw [assert_bind_eq_ok, assert_bind_eq_ok, pure_eq_ok]
  rfl

theorem add_eq_ok_iff : add a b = .ok c ↔ b.symbol = a.symbol ∧
    (-maxAmount ≤ a.amount + b.amount ∧ a.amount + b.amount ≤ maxAmount) ∧
      c = { a with amount := a.amount + b.amount } := by
  unfold add
  rw [assert_bind_eq_ok, assert_bind_eq_ok, assert_bind_eq_ok, pure_eq_ok, and_assoc]

theorem sub_eq_ok_iff : sub a b = .ok c ↔ b.symbol = a.symbol ∧
    (-maxAmount ≤ a.amount - b.amount ∧ a.amount - b.amount ≤ maxAmount) ∧
      c = { a with amount := a.amount - b.amount } := by
  unfold sub
  rw [assert_bind_eq_ok, assert_bind_eq_ok, assert_bind_eq_ok, pure_eq_ok, and_assoc]

theorem mul_eq_ok_iff : mul a x = .ok c ↔ (a.amount * x ≤ maxAmount ∧ a.amount * x ≥ -maxAmount) ∧
      c = { a with amount := a.amount * x } := by
  unfold mul
  rw [assert_bind_eq_ok, assert_bind_eq_ok, pure_eq_ok, and_assoc]

theorem div_eq_ok_iff : div a x = .ok c ↔ x ≠ 0 ∧ ¬ (a.amount = -2 ^ 63 ∧ x = -1) ∧
    c = { a with amount := a.amount.tdiv x } := by
  unfold div
  rw [assert_bind_eq_ok, assert_bind_eq_ok, pure_eq_ok]

theorem compare_eq_ok_iff {r : Int → Int → Bool} {v : Bool} :
    compare r a b = .ok v ↔ a.symbol = b.symbol ∧ v = r a.amount b.amount := by
  unfold compare
  rw [assert_bind_eq_ok, pure_eq_ok]

end Asset

end Forceio.Eosiolib
