import Forceio.Exchange.Tables

/-!
# The memo of a deposit: `sys_match_match::parse`, `asset_from_string`

A token transfer to the escrow says in its memo what it is for: an order (`trade`), points
(`points`), or a stake (`freeze`).

* A string is the list of its characters.
* `atoll` reads what the C function reads; a number that does not fit keeps its low 64 bits.
* The referer of an order is passed on to `morder` only and is left out.
-/

namespace Forceio.Exchange

open Forceio.Eosiolib
open Forceio.Chain (AccountName stringToName stringToNameLoop)

/-! ## Strings -/

/-- `boost::split` at one character. -/
def splitAt (sep : Char) : List Char → List (List Char)
  | [] => [[]]
  | c :: str =>
    if c = sep then [] :: splitAt sep str
    else match splitAt sep str with
      | [] => [[c]]
      | part :: parts => (c :: part) :: parts

/-- The number that leading digits are, after `n`. -/
def leadingDigits : Int → List Char → Int
  | n, [] => n
  | n, c :: str => if c.isDigit then leadingDigits (10 * n + (c.toNat - '0'.toNat)) str else n

/-- `atoll`. -/
def atoll (str : List Char) : Int :=
  match str.dropWhile fun c => c = ' ' ∨ ('\t' ≤ c ∧ c ≤ '\r') with
  | '-' :: digits => int64 (-leadingDigits 0 digits)
  | '+' :: digits => int64 (leadingDigits 0 digits)
  | digits => int64 (leadingDigits 0 digits)

/-- `trim`. -/
def trim (str : List Char) : List Char :=
  ((str.dropWhile (· = ' ')).reverse.dropWhile (· = ' ')).reverse

/-! ## Assets -/

/-- `asset_from_string`. -/
def assetFromString (str : List Char) : Except ContractError Asset := do
  let s := trim str
  eosioAssert (' ' ∈ s) "Asset's amount and symbol should be separated with space"
  let amountStr := s.takeWhile (· ≠ ' ')
  let symbolStr := trim ((s.dropWhile (· ≠ ' ')).drop 1)
  eosioAssert (amountStr.head? ≠ some '-') "now do not support negetive asset"
  let intStr := amountStr.takeWhile (· ≠ '.')
  let fractStr := (amountStr.dropWhile (· ≠ '.')).drop 1
  eosioAssert ('.' ∉ amountStr ∨ fractStr ≠ []) "Missing decimal fraction after decimal point"
  let symbol := stringToSymbol fractStr.length (String.ofList symbolStr)
  Asset.make (int64 (atoll intStr * precision fractStr.length + atoll fractStr)) symbol

/-! ## Memos -/

/-- What a deposit is for. -/
inductive Memo where
  | trade (receiver : AccountName) (pairId : Nat) (price : Asset) (bidOrAsk : Bool)
      (excAcc : AccountName) (feeType : Nat)
  | points
  | freeze (action : AccountName) (pairId : Nat)
  deriving DecidableEq

/-- `N(regex)`. -/
def regexName : AccountName := stringToName "regex"

/-- `N(open)`. -/
def openName : AccountName := stringToName "open"

/-- `string_to_name`, of characters. -/
def charsToName (str : List Char) : AccountName := stringToNameLoop 0 str

/-- `sys_match_match::parse`. -/
def Memo.parse (memo : List Char) : Except ContractError Memo :=
  match splitAt ';' memo with
  | kind :: args =>
    if kind = "trade".toList then
      match args with
      | [receiver, pairId, price, bidOrAsk, excAcc, _, feeType] => do
        let price ← assetFromString price
        let side := uint32 (atoll bidOrAsk)
        eosioAssert (side = 0 ∨ side = 1) "type is not adapted with sys_match_match"
        return .trade (charsToName receiver) (uint32 (atoll pairId)) price (side = 1)
          (charsToName excAcc) (uint32 (atoll feeType))
      | _ => .error (.assert "memo is not adapted with sys_match_match")
    else if kind = "points".toList then return .points
    else if kind = "freeze".toList then
      match args with
      | [action, pairId] => do
        let action := charsToName action
        eosioAssert (action = regexName ∨ action = openName)
          "memo is not adapted with sys_match_match"
        return .freeze action (uint32 (atoll pairId))
      | _ => .error (.assert "memo is not adapted with sys_match_match")
    else .error (.assert "memo is invalid")
  | [] => .error (.assert "memo contains memeo")

example : assetFromString "1.5000 SYS".toList = .ok ⟨15000, stringToSymbol 4 "SYS"⟩ := by
  decide +kernel

/-- A sign after the decimal point makes an amount negative. -/
example : assetFromString "0.-001 SYS".toList = .ok ⟨-1, stringToSymbol 4 "SYS"⟩ := by
  decide +kernel

end Forceio.Exchange
