import Forceio.Exchange.Effects

/-!
# Recorded balances

The balance of an account in a token is a number, zero without a row; what `sub_balance` and
`add_balance` do to it.

Results:
* `subBalance_balanceOf`, `addBalance_balanceOf`: one balance changes, by the amount.
-/

namespace Forceio.Exchange

open Forceio.Lib Forceio.Eosiolib KeyedTable
open Forceio.Chain (AccountName)
open World

variable {env : Env} {w w' : World}
variable {owner : AccountName} {name : Nat} {value : Asset}
variable {row : AccountInfo}

/-- The balance of an account under a symbol name. -/
def World.balanceOf (w : World) (owner : AccountName) (name : Nat) : Int :=
  match w.accountOf owner name with
  | none => 0
  | some row => row.balance.amount

theorem balanceOf_of_some (h : w.accountOf owner name = some row) :
    w.balanceOf owner name = row.balance.amount := by
  simp only [balanceOf, h]

theorem balanceOf_of_none (h : w.accountOf owner name = none) : w.balanceOf owner name = 0 := by
  simp only [balanceOf, h]

theorem balanceOf_congr (h : w'.accounts = w.accounts) (owner : AccountName) (name : Nat) :
    w'.balanceOf owner name = w.balanceOf owner name := by
  unfold balanceOf accountOf
  rw [h]

theorem key_of_accountOf (h : w.accountOf owner name = some row) :
    row ∈ w.accounts.rows ∧ row.owner = owner ∧ row.balance.symbol.name = name := by
  obtain ⟨hmem, hkey⟩ := find?_eq_some_iff.mp h
  exact ⟨hmem, Prod.mk.inj (toLex_inj.mp hkey)⟩

theorem toLex_pair_eq_iff {a a' n n' : Nat} : toLex (a, n) = toLex (a', n') ↔ a = a' ∧ n = n' := by
  rw [toLex_inj, Prod.mk.injEq]

theorem balanceOf_put {x : Int} (hrow : w.accountOf owner name = some row)
    (haccounts : w'.accounts = w.accounts.put (row.plus x)) (a : AccountName) (n : Nat) :
    w'.balanceOf a n = w.balanceOf a n + if a = owner ∧ n = name then x else 0 := by
  obtain ⟨-, rfl, rfl⟩ := key_of_accountOf hrow
  have hfind : w'.accountOf a n =
      if toLex (a, n) = toLex (row.owner, row.balance.symbol.name) then some (row.plus x)
      else w.accountOf a n := by
    unfold accountOf
    rw [haccounts]
    exact find?_put hrow rfl
  simp only [toLex_pair_eq_iff] at hfind
  split at hfind
  · next hkey =>
    rw [if_pos hkey, balanceOf_of_some hfind, hkey.1, hkey.2, balanceOf_of_some hrow]
    rfl
  · next hkey =>
    rw [if_neg hkey, add_zero]
    unfold balanceOf
    rw [hfind]

/-- **`sub_balance`** lowers one balance by the amount; there was enough of it. -/
theorem subBalance_balanceOf {u : Unit} (h : subBalance owner value w = .ok u w') :
    value.amount ≤ w.balanceOf owner value.symbol.name ∧ ∀ a n, w'.balanceOf a n =
      w.balanceOf a n - if a = owner ∧ n = value.symbol.name then value.amount else 0 := by
  obtain ⟨row, hrow, hle, ⟨heq, rfl⟩ | ⟨-, -, rfl⟩⟩ := subBalance_cases h
  · refine ⟨by rw [balanceOf_of_some hrow]; exact hle, fun a n => ?_⟩
    obtain ⟨-, hown, hname⟩ := key_of_accountOf hrow
    have hfind : ({ w with accounts := w.accounts.erase (Keyed.key row) } : World).accountOf a n =
        if toLex (a, n) = toLex (row.owner, row.balance.symbol.name) then none
        else w.accountOf a n := find?_erase
    simp only [toLex_pair_eq_iff, hown, hname] at hfind
    split at hfind
    · next hkey =>
      rw [if_pos hkey, balanceOf_of_none hfind, hkey.1, hkey.2, balanceOf_of_some hrow, heq, sub_self]
    · next hkey =>
      rw [if_neg hkey, sub_zero]
      unfold balanceOf
      rw [hfind]
  · refine ⟨by rw [balanceOf_of_some hrow]; exact hle, fun a n => ?_⟩
    rw [balanceOf_put hrow rfl a n]
    split <;> ring

/-- **`add_balance`** raises one balance by the amount. -/
theorem addBalance_balanceOf {u : Unit} (h : addBalance owner value w = .ok u w') (a : AccountName)
    (n : Nat) :
    w'.balanceOf a n =
      w.balanceOf a n + if a = owner ∧ n = value.symbol.name then value.amount else 0 := by
  obtain ⟨hnone, rfl⟩ | ⟨row, hrow, -, rfl⟩ := addBalance_cases h
  · have hfind : ({ w with accounts := w.accounts.insert ⟨owner, value⟩ } : World).accountOf a n =
        if toLex (a, n) = toLex (owner, value.symbol.name) then some ⟨owner, value⟩
        else w.accountOf a n := find?_insert
    simp only [toLex_pair_eq_iff] at hfind
    split at hfind
    · next hkey =>
      rw [if_pos hkey, balanceOf_of_some hfind, hkey.1, hkey.2, balanceOf_of_none hnone, zero_add]
    · next hkey =>
      rw [if_neg hkey, add_zero]
      unfold balanceOf
      rw [hfind]
  · exact balanceOf_put hrow rfl a n

end Forceio.Exchange
