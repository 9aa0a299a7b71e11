import Forceio.Exchange.Actions

/-!
# Why the exchange contract stops

Most of what the contract computes stops with a message of its own. Three messages say that its
tables do not fit each other: no row of fees for an order that is filled, and no balance, or too
little of it, to take from.

* A check of a token contract stops in its inline action, not with a message of this contract.

Results:
* `Harmless.toAsset` and so on: what is computed without a table never stops
  with one of the three.
-/

namespace Forceio.Exchange

open Forceio.Lib Forceio.Eosiolib
open Forceio.Chain (AccountName)

/-- The message of `charge_fee` for a pair without a row. -/
def notOpened : String := "trading pair has not been opened or be frozen for exchange"

/-- The message of `sub_balance` for a balance that is too low. -/
def overdrawn : String := "overdrawn balance"

/-- The message of `sub_balance` without a balance. -/
def noBalance : String := "no balance object found"

/-- None of the three messages. -/
def Harmless (e : ContractError) : Prop :=
  e ≠ .assert notOpened ∧ e ≠ .assert overdrawn ∧ e ≠ .assert noBalance

instance (e : ContractError) : Decidable (Harmless e) := inferInstanceAs (Decidable (_ ∧ _))

namespace Harmless

open Exec (Fails)

variable {α : Type} {env : Env} {w : World}

theorem assert_bind {cond : Prop} [Decidable cond] {message : String}
    {f : Unit → Except ContractError α} (h : Harmless (.assert message)) (hf : Fails Harmless (f ())) :
    Fails Harmless (Eosiolib.eosioAssert cond message >>= f) :=
  (eosioAssert_fails fun _ => h).bind fun _ _ => hf

attribute [local simp] Harmless notOpened overdrawn noBalance

/-! ## Assets -/

theorem make (x : Int) (s : SymbolType) : Fails Harmless (Asset.make x s) :=
  assert_bind (by simp) (assert_bind (by simp) (.ok _))

theorem add (a b : Asset) : Fails Harmless (a.add b) :=
  assert_bind (by simp) (assert_bind (by simp) (assert_bind (by simp) (.ok _)))

theorem sub (a b : Asset) : Fails Harmless (a.sub b) :=
  assert_bind (by simp) (assert_bind (by simp) (assert_bind (by simp) (.ok _)))

theorem mul (a : Asset) (x : Int) : Fails Harmless (a.mul x) :=
  assert_bind (by simp) (assert_bind (by simp) (.ok _))

theorem div (a : Asset) (x : Int) : Fails Harmless (a.div x) :=
  assert_bind (by simp) (assert_bind (by simp) (.ok _))

theorem compare (r : Int → Int → Bool) (a b : Asset) : Fails Harmless (Asset.compare r a b) :=
  assert_bind (by simp) (.ok _)

theorem int64Div (x y : Int) : Fails Harmless (Eosiolib.int64Div x y) := by
  unfold Eosiolib.int64Div
  split
  · exact .error (by decide)
  · exact .ok _

/-! ## Tokens -/

theorem convert (s : SymbolType) (a : Asset) : Fails Harmless (Exchange.convert s a) := by
  unfold Exchange.convert
  split
  · exact (int64Div _ _).bind fun _ _ => make _ _
  · exact (int64Div _ _).bind fun _ _ => (int64Div _ _).bind fun _ _ => make _ _

theorem toAsset (chain : ChainName) (sym : SymbolType) (a : Asset) :
    Fails Harmless (Exchange.toAsset env chain sym a) := by
  unfold Exchange.toAsset
  cases env.supply chain sym.name with
  | none => exact .error (by simp)
  | some s => exact convert s a

/-! ## Fees -/

theorem calcfee (quant : Asset) (rate : Nat) : Fails Harmless (Exchange.calcfee quant rate) :=
  (mul _ _).bind fun _ _ => (div _ _).bind fun _ _ => .ok _

theorem charge (f : FeeInfo) (kind : FeeKind) (fee : Asset) : Fails Harmless (f.charge kind fee) := by
  rcases kind with (_ | _) | _
  · exact (add _ _).bind fun _ _ => .ok _
  · exact (add _ _).bind fun _ _ => .ok _
  · exact (add _ _).bind fun _ _ => .ok _

theorem getBalance (owner : AccountName) (sym : SymbolType) :
    Fails Harmless (Exchange.getBalance env w owner sym) := by
  unfold Exchange.getBalance
  cases w.accountOf owner sym.name with
  | none => exact toAsset _ _ _
  | some row => exact .ok _

theorem getAvgPrice (block : Nat) (baseChain quoteChain : ChainName) (baseSym quoteSym : SymbolType) :
    Fails Harmless (Exchange.getAvgPrice w block baseChain baseSym quoteChain quoteSym) := by
  refine (make _ _).bind fun zero _ => ?_
  cases w.pairOf baseChain baseSym quoteChain quoteSym with
  | none => exact .ok _
  | some p =>
    simp only
    split
    · cases w.windowAt p.id block with
      | none => exact .ok _
      | some d =>
        simp only
        split
        · exact (mul _ _).bind fun _ _ => div _ _
        · exact .ok _
    · exact .ok _

theorem pointsAsFee (block : Nat) (pair : TradingPair) (row : FeeInfo) (payer : AccountName)
    (baseOrQuote : Bool) (fee : Asset) (feeType : Nat) :
    Fails Harmless (Exchange.pointsAsFee env w block pair row payer baseOrQuote fee feeType) := by
  unfold Exchange.pointsAsFee
  split
  · refine (getBalance _ _).bind fun points _ => (getAvgPrice _ _ _ _ _).bind fun price _ => ?_
    split
    · exact (mul _ _).bind fun _ _ => (div _ _).bind fun _ _ => (toAsset _ _ _).bind fun _ _ =>
        (compare _ _ _).bind fun _ _ => .ok _
    · exact .ok _
  · exact .ok _

end Harmless

end Forceio.Exchange
