import Mathlib.Data.List.DropRight
import Forceio.Chain.BlockHeader

/-!
# Names: `name.hpp`, `name.cpp`, `config.hpp.in`

A name is up to thirteen characters packed into 64 bits: five bits for each of the first twelve,
four for the last.

* The build chooses the root account; the names of the system accounts and of the virtual
  permissions are derived from it.
-/

namespace Forceio.Chain

/-! ## Packing -/

/-- `char_to_symbol`. -/
def charToSymbol (c : Char) : Nat :=
  if 'a' ≤ c ∧ c ≤ 'z' then c.toNat - 'a'.toNat + 6
  else if '1' ≤ c ∧ c ≤ '5' then c.toNat - '1'.toNat + 1
  else 0

/-- The loop of `string_to_name`: character `i` and the ones after it. -/
def stringToNameLoop : Nat → List Char → Nat
  | _, [] => 0
  | i, c :: str =>
    if i < 12 then
      ((charToSymbol c &&& 0x1f) <<< (64 - 5 * (i + 1))) ||| stringToNameLoop (i + 1) str
    else charToSymbol c &&& 0x0f

/-- `string_to_name`. -/
def stringToName (str : String) : AccountName := stringToNameLoop 0 str.toList

/-- `charmap` of `name::operator string`. -/
def charmap : List Char := ".12345abcdefghijklmnopqrstuvwxyz".toList

/-- The loop of `name::operator string`, from the last character to the first. -/
def nameToStringLoop : Nat → Nat → List Char → List Char
  | 0, _, str => str
  | n + 1, tmp, str => nameToStringLoop n (tmp >>> 5) (charmap.getD (tmp &&& 0x1f) '.' :: str)

/-- `name::to_string`: trailing dots are trimmed. -/
def nameToString (name : AccountName) : List Char :=
  (nameToStringLoop 12 (name >>> 4) [charmap.getD (name &&& 0x0f) '.']).rdropWhile (· = '.')

/-- `name.to_string().find(str) == 0`. -/
def nameStartsWith (name : AccountName) (str : String) : Bool :=
  str.toList.isPrefixOf (nameToString name)

/-! ## Names of the chain -/

/-- `config::active_name`. -/
def activeName : AccountName := stringToName "active"

/-- `config::owner_name`. -/
def ownerName : AccountName := stringToName "owner"

section Root

variable (rootAccount : String)

/-- `config::system_account_name`. -/
def systemAccountName : AccountName := stringToName rootAccount

/-- `config::producers_account_name`. -/
def producersAccountName : AccountName := stringToName (rootAccount ++ ".prods")

/-- `config::chain_config_name`. -/
def chainConfigName : AccountName := stringToName (rootAccount ++ ".config")

/-- `config::eosio_any_name`. -/
def eosioAnyName : AccountName := stringToName (rootAccount ++ ".any")

/-- `config::eosio_code_name`. -/
def eosioCodeName : AccountName := stringToName (rootAccount ++ ".code")

end Root

example : nameToString (stringToName "force.prods") = "force.prods".toList := by decide

end Forceio.Chain
