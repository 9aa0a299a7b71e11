import Forceio.Exchange.Calls

/-!
# Amounts

What the conversions and the fees of the contract compute, for tokens of at most 18 decimals: powers
of ten above that do not fit into 64 bits.

Results:
* `convert_valueLe`: a conversion never raises an amount.
* `dealValue_quote`: the value of some base, in the quote token, is the product over the unit of the
  base, rounded down.
* `calcfee_bounds`: a fee is at least zero, and at most the amount.
-/

namespace Forceio.Exchange

open Forceio.Lib Forceio.Eosiolib
open Forceio.Chain (AccountName)

variable {env : Env} {w w' : World}

/-- The most decimals whose power of ten fits into 64 bits. -/
def maxDecimals : Nat := 18

theorem precision_eq {n : Nat} (h : n ≤ maxDecimals) : precision n = 10 ^ n := by
  have hle : (10 : Int) ^ n ≤ 10 ^ 18 := pow_le_pow_right₀ (by norm_num) h
  have hpos : (0 : Int) < 10 ^ n := by positivity
  exact int64_of_range (by omega) (by omega)

theorem precision_pos {n : Nat} (h : n ≤ maxDecimals) : 0 < precision n := by
  rw [precision_eq h]
  positivity

theorem pow_tdiv_pow {m n : Nat} (h : m ≤ n) : ((10 : Int) ^ n).tdiv (10 ^ m) = 10 ^ (n - m) := by
  have hpos : (0 : Int) < 10 ^ m := by positivity
  have hsplit : (10 : Int) ^ n = 10 ^ (n - m) * 10 ^ m := by rw [← pow_add, Nat.sub_add_cancel h]
  rw [hsplit, Int.mul_tdiv_cancel _ (ne_of_gt hpos)]

variable {s : SymbolType}

/-- **A conversion to fewer decimals**, or to as many. -/
theorem convert_down {a a' : Asset} (hle : s.precision ≤ a.symbol.precision)
    (hdec : a.symbol.precision ≤ maxDecimals) (hlow : 0 ≤ a.amount) (hhigh : a.amount < 2 ^ 63)
    (h : convert s a = .ok a') : a' = ⟨a.amount / 10 ^ (a.symbol.precision - s.precision), s⟩ := by
  by_cases heq : s.precision = a.symbol.precision
  · rw [convert_same heq (by omega) hhigh h, heq, Nat.sub_self, pow_zero, Int.ediv_one]
  · unfold convert at h
    rw [if_neg (by omega)] at h
    obtain ⟨factor, hfactor, h⟩ := bind_eq_ok.mp h
    obtain ⟨amount, hamount, hmake⟩ := bind_eq_ok.mp h
    have hs : s.precision ≤ maxDecimals := hle.trans hdec
    unfold int64Div at hfactor hamount
    rw [if_neg (ne_of_gt (precision_pos hs)), precision_eq hdec, precision_eq hs,
      pow_tdiv_pow hle] at hfactor
    obtain rfl := Except.ok.inj hfactor
    have hpos : (0 : Int) < 10 ^ (a.symbol.precision - s.precision) := by positivity
    rw [if_neg (ne_of_gt hpos), Int.tdiv_eq_ediv_of_nonneg hlow] at hamount
    obtain rfl := Except.ok.inj hamount
    exact (Asset.make_eq_ok_iff.mp hmake).2.2

/-- An amount is worth no more than another one of the token, in other decimals. -/
def Asset.ValueLe (a b : Asset) : Prop :=
  a.amount * 10 ^ b.symbol.precision ≤ b.amount * 10 ^ a.symbol.precision

instance (a b : Asset) : Decidable (Asset.ValueLe a b) := inferInstanceAs (Decidable (_ ≤ _))

theorem int64_le {x : Int} (h : -2 ^ 63 ≤ x) : int64 x ≤ x := by
  by_cases hx : x < 2 ^ 63
  · exact (int64_of_range h hx).le
  · have hlt : int64 x < 2 ^ 63 := Int.bmod_lt (by decide)
    omega

theorem convert_up {a a' : Asset} (hle : a.symbol.precision ≤ s.precision)
    (hdec : s.precision ≤ maxDecimals) (h : convert s a = .ok a') :
    a' = ⟨int64 (a.amount * 10 ^ (s.precision - a.symbol.precision)), s⟩ := by
  have ha : a.symbol.precision ≤ maxDecimals := hle.trans hdec
  unfold convert at h
  rw [if_pos hle] at h
  obtain ⟨factor, hfactor, hmake⟩ := bind_eq_ok.mp h
  unfold int64Div at hfactor
  rw [if_neg (ne_of_gt (precision_pos ha)), precision_eq hdec, precision_eq ha,
    pow_tdiv_pow hle] at hfactor
  rw [Except.ok.inj hfactor]
  exact (Asset.make_eq_ok_iff.mp hmake).2.2

/-- **A conversion** never raises an amount. -/
theorem convert_valueLe {a a' : Asset} (hs : s.precision ≤ maxDecimals)
    (ha : a.symbol.precision ≤ maxDecimals) (hlow : 0 ≤ a.amount) (hhigh : a.amount < 2 ^ 63)
    (h : convert s a = .ok a') : Asset.ValueLe a' a := by
  unfold Asset.ValueLe
  rcases le_total a.symbol.precision s.precision with hle | hle
  · obtain rfl := convert_up hle hs h
    have hwrap : int64 (a.amount * 10 ^ (s.precision - a.symbol.precision)) ≤
        a.amount * 10 ^ (s.precision - a.symbol.precision) := int64_le (by
      have : 0 ≤ a.amount * 10 ^ (s.precision - a.symbol.precision) := by positivity
      omega)
    calc int64 (a.amount * 10 ^ (s.precision - a.symbol.precision)) * 10 ^ a.symbol.precision
        ≤ a.amount * 10 ^ (s.precision - a.symbol.precision) * 10 ^ a.symbol.precision :=
          mul_le_mul_of_nonneg_right hwrap (by positivity)
      _ = a.amount * 10 ^ s.precision := by rw [mul_assoc, ← pow_add, Nat.sub_add_cancel hle]
  · obtain rfl := convert_down hle ha hlow hhigh h
    calc a.amount / 10 ^ (a.symbol.precision - s.precision) * 10 ^ a.symbol.precision
        = a.amount / 10 ^ (a.symbol.precision - s.precision) *
            10 ^ (a.symbol.precision - s.precision) * 10 ^ s.precision := by
          rw [mul_assoc, ← pow_add, Nat.sub_add_cancel hle]
      _ ≤ a.amount * 10 ^ s.precision :=
          mul_le_mul_of_nonneg_right (Int.ediv_mul_le _ (by positivity)) (by positivity)

theorem mul_div_ok {a product value : Asset} {x y : Int} (ha : 0 ≤ a.amount) (hx : 0 ≤ x) (hy : 0 < y)
    (hmul : a.mul x = .ok product) (hdiv : product.div y = .ok value) :
    value = ⟨a.amount * x / y, a.symbol⟩ ∧ 0 ≤ value.amount ∧ value.amount ≤ Asset.maxAmount := by
  obtain ⟨⟨hmax, -⟩, rfl⟩ := Asset.mul_eq_ok_iff.mp hmul
  obtain ⟨-, -, rfl⟩ := Asset.div_eq_ok_iff.mp hdiv
  have hnonneg : 0 ≤ a.amount * x := mul_nonneg ha hx
  have hquotient : (a.amount * x).tdiv y = a.amount * x / y := Int.tdiv_eq_ediv_of_nonneg hnonneg
  refine ⟨congrArg (Asset.mk · a.symbol) hquotient, ?_, ?_⟩
  · show 0 ≤ (a.amount * x).tdiv y
    rw [hquotient]
    exact Int.ediv_nonneg hnonneg (le_of_lt hy)
  · show (a.amount * x).tdiv y ≤ _
    rw [hquotient]
    exact le_trans (Int.ediv_le_self _ hnonneg) hmax

/-- A fee in points, which have no more decimals than the token of the fee. -/
theorem pointsFee_nonneg {fee price value pointsFee : Asset} {sym : SymbolType}
    (hfee : 0 ≤ fee.amount) (hprice : 0 < price.amount)
    (hpriceDec : price.symbol.precision ≤ maxDecimals) (hfeeDec : fee.symbol.precision ≤ maxDecimals)
    (hvalue : (do (← fee.mul price.amount).div (precision price.symbol.precision)) = .ok value)
    (hsupply : env.supply mainChain sym.name = some s) (hs : s.precision ≤ fee.symbol.precision)
    (hconv : toAsset env mainChain sym value = .ok pointsFee) : 0 ≤ pointsFee.amount := by
  obtain ⟨product, hmul, hdiv⟩ := bind_eq_ok.mp hvalue
  obtain ⟨hvalue, hlow, hhigh⟩ :=
    mul_div_ok hfee (le_of_lt hprice) (precision_pos hpriceDec) hmul hdiv
  have hsym : value.symbol = fee.symbol := by rw [hvalue]
  unfold toAsset at hconv
  rw [hsupply] at hconv
  unfold Asset.maxAmount at hhigh
  rw [convert_down (hsym ▸ hs) (hsym ▸ hfeeDec) hlow (by omega) hconv]
  exact Int.ediv_nonneg hlow (by positivity)

/-- **The value of some base** in the quote token. -/
theorem dealValue_quote {pair : TradingPair} {price base value quant : Asset}
    (hcoherent : pair.Coherent env) (hbaseDec : pair.baseSym.precision ≤ maxDecimals)
    (hquoteDec : pair.quoteSym.precision ≤ maxDecimals) (hprice : price.symbol = pair.quote)
    (hbase : base.symbol = pair.base) (hp : 0 ≤ price.amount) (hb : 0 ≤ base.amount)
    (hvalue : dealValue price base = .ok value)
    (hquant : toAsset env pair.quoteChain pair.quoteSym value = .ok quant) :
    quant = ⟨price.amount * base.amount / 10 ^ pair.baseSym.precision, pair.quoteSym⟩ := by
  unfold toAsset at hquant
  rw [hcoherent.quote_supply] at hquant
  unfold dealValue at hvalue
  rw [hprice, hbase, hcoherent.base_precision, hcoherent.quote_precision] at hvalue
  split at hvalue
  · obtain ⟨product, hmul, hdiv⟩ := bind_eq_ok.mp hvalue
    obtain ⟨rfl, hlow, hhigh⟩ := mul_div_ok hp hb (precision_pos hbaseDec) hmul hdiv
    unfold Asset.maxAmount at hhigh
    rw [convert_same (by rw [hprice, hcoherent.quote_precision]) (by omega) (by omega) hquant,
      precision_eq hbaseDec]
  · obtain ⟨product, hmul, hdiv⟩ := bind_eq_ok.mp hvalue
    obtain ⟨rfl, hlow, hhigh⟩ := mul_div_ok hb hp (precision_pos hquoteDec) hmul hdiv
    have hsym : base.symbol.precision = pair.baseSym.precision := by
      rw [hbase, hcoherent.base_precision]
    unfold Asset.maxAmount at hhigh
    have hdown := convert_down (by rw [hsym]; omega) (hsym ▸ hbaseDec) hlow (by omega) hquant
    rw [hdown, precision_eq hquoteDec]
    simp only [hsym]
    have hpos : (0 : Int) ≤ 10 ^ pair.quoteSym.precision := by positivity
    rw [Int.ediv_ediv_of_nonneg hpos, ← pow_add, Nat.add_sub_cancel' (by omega), mul_comm]

theorem toAsset_base {pair : TradingPair} {deal quant : Asset} (hcoherent : pair.Coherent env)
    (hdeal : deal.symbol = pair.base) (hlow : -2 ^ 63 ≤ deal.amount) (hhigh : deal.amount < 2 ^ 63)
    (h : toAsset env pair.baseChain pair.baseSym deal = .ok quant) :
    quant = ⟨deal.amount, pair.baseSym⟩ := by
  unfold toAsset at h
  rw [hcoherent.base_supply] at h
  exact convert_same (by rw [hdeal, hcoherent.base_precision]) hlow hhigh h

/-- **A fee** of an amount of at least one unit. -/
theorem calcfee_bounds {quantity fee : Asset} {rate : Nat} (hquantity : 1 ≤ quantity.amount)
    (hrate : (rate : Int) ≤ maxFeeRate) (h : calcfee quantity rate = .ok fee) :
    0 ≤ fee.amount ∧ fee.amount ≤ quantity.amount ∧ fee.symbol = quantity.symbol := by
  obtain ⟨product, hmul, h⟩ := bind_eq_ok.mp h
  obtain ⟨quotient, hdiv, h⟩ := bind_eq_ok.mp h
  have hmax : (0 : Int) < maxFeeRate := by decide
  obtain ⟨rfl, hlow, -⟩ := mul_div_ok (by omega) (Int.natCast_nonneg rate) hmax hmul hdiv
  have hhigh : quantity.amount * rate / maxFeeRate ≤ quantity.amount := by
    refine Int.ediv_le_of_le_mul hmax ?_
    exact mul_le_mul_of_nonneg_left hrate (by omega)
  rw [pure_eq_ok.mp h]
  split
  · exact ⟨zero_le_one, hquantity, rfl⟩
  · exact ⟨hlow, hhigh, rfl⟩

end Forceio.Exchange
