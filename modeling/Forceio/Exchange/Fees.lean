import Forceio.Exchange.Amounts
import Forceio.Exchange.MainChain
import Forceio.Exchange.WellFormed

/-!
# Accrued fees (`charge_fee`, `claim`, `enpoints`, `setfee`)

`charge_fee` adds every fee to the row of an exchange and a pair, and `claim` sends what the row
records. The base and the quote token are told apart by name, `enpoints` sets the points of a row to
zero, the rate has no limit, and a fee is at least one unit whatever it is taken from.

* A fee in points is taken from the points of the payer.

Results:
* `feesAccrue_run`: with the calls that these slips need left out, what was charged since a pair was
  opened is what was claimed and what the row still records, and no fee is below zero or above the
  amount that it is taken from, or recorded under the other token.
* `quote_fee_as_base`: with a base and a quote token of one name, a fee in the quote token is recorded
  as a fee in the base token.
-/

namespace Forceio.Exchange

open Forceio.Lib Forceio.Eosiolib KeyedTable List
open Forceio.Chain (AccountName)
open World

variable {env : Env} {w w' : World}
variable {row row' : FeeInfo} {e : Event} {pair : TradingPair}
variable (excAcc : AccountName)
variable (pairId : Nat)

/-! ## What was charged and claimed -/

/-- The events since a pair was opened. -/
def sinceOpened (trace : List Event) : List Event :=
  trace.takeWhile fun e => e ≠ .opened excAcc pairId

namespace Event

/-- What an event charges to a row. -/
def chargedTo (kind : FeeKind) : Event → Int
  | .charged e p _ _ k fee => if e = excAcc ∧ p = pairId ∧ k = kind then fee.amount else 0
  | _ => 0

/-- What an event claims of a row. -/
def claimedOf (kind : FeeKind) : Event → Int
  | .claimed e p k fee => if e = excAcc ∧ p = pairId ∧ k = kind then fee.amount else 0
  | _ => 0

/-- A fee is at least zero, at most what it is taken from, and recorded under its token. -/
def FeeSound : Event → Prop
  | .charged _ _ leg quantity kind fee =>
    0 ≤ fee.amount ∧ fee.amount ≤ quantity.amount ∧ (kind = .token leg ∨ kind = .points)
  | _ => True

/-- Events that no fee depends on. -/
def isPlain : Event → Bool
  | .charged _ _ _ _ _ _ => false
  | .claimed _ _ _ _ => false
  | .opened _ _ => false
  | _ => true

end Event

/-- What is recorded of one kind of fee, nothing without a row. -/
def World.recordedFee (w : World) (excAcc : AccountName) (pairId : Nat) (kind : FeeKind) : Int :=
  match w.feeOf excAcc pairId with
  | none => 0
  | some row => (row.amountOf kind).amount

/-- What was charged is claimed, or still recorded. -/
def FeesAccrue (w : World) : Prop :=
  ∀ excAcc pairId kind,
    ((sinceOpened excAcc pairId w.trace).map (Event.chargedTo excAcc pairId kind)).sum =
      ((sinceOpened excAcc pairId w.trace).map (Event.claimedOf excAcc pairId kind)).sum +
        w.recordedFee excAcc pairId kind

/-- Every fee is sound. -/
def FeesSound (w : World) : Prop := ∀ e ∈ w.trace, e.FeeSound

/-! ## Conditions -/

/-- At most as many decimals as the powers of ten allow. -/
def Env.Decimals (env : Env) (chain : ChainName) (name : Nat) : Prop :=
  ∀ s ∈ env.supply chain name, s.precision ≤ maxDecimals

instance (env : Env) (chain : ChainName) (name : Nat) : Decidable (env.Decimals chain name) := by
  unfold Env.Decimals
  infer_instance

/-- Every deal moves at least one unit of both tokens. -/
def DealsWorth (env : Env) (_ : Incoming) (p : Plan) : Prop :=
  ∀ l ∈ p.range, ∀ od ∈ reached l p.base.amount, ∀ leg ∈ [Leg.base, .quote],
    ∀ quant ∈ (p.taker.dealOf env od.1 od.2 leg).toOption, 1 ≤ quant.amount

instance (env : Env) (i : Incoming) (p : Plan) : Decidable (DealsWorth env i p) := by
  unfold DealsWorth
  infer_instance

/-- The two tokens of a pair have different names and at most 18 decimals; a rate is at most the
whole; points are enabled in a token with no more decimals than those of the pair, and not when some
are recorded; and every deal moves at least one unit of both tokens. -/
def SoundFees (env : Env) (w : World) (c : Call) : Prop :=
  (match c.action with
    | .create _ baseChain baseSym _ quoteChain quoteSym _ =>
      baseSym.name ≠ quoteSym.name ∧ env.Decimals baseChain baseSym.name ∧
        env.Decimals quoteChain quoteSym.name
    | .setfee _ _ rate => (rate : Int) ≤ maxFeeRate
    | .enpoints excAcc pairId sym =>
      (∀ row ∈ w.feeOf excAcc pairId, row.points.amount = 0) ∧
        ∀ pair ∈ w.pairs.find? pairId, ∀ s ∈ env.supply mainChain sym.name,
          s.precision ≤ pair.baseSym.precision ∧ s.precision ≤ pair.quoteSym.precision
    | _ => True) ∧
  PlanMeets (DealsWorth env) w c

instance (env : Env) (w : World) (c : Call) : Decidable (SoundFees env w c) := by
  obtain ⟨auth, block, action⟩ := c
  unfold SoundFees
  refine @instDecidableAnd _ _ ?_ _
  cases action <;> infer_instance

/-! ## Rows -/

/-- A row as the calls above leave it. -/
structure FeeInfo.Moderate (pairs : KeyedTable TradingPair) (f : FeeInfo) : Prop where
  rate : (f.rate : Int) ≤ maxFeeRate
  off : f.pointsEnabled = false → f.points.amount = 0
  on : f.pointsEnabled = true → ∀ p, pairs.find? f.pairId = some p → ∀ leg,
    f.points.symbol.precision ≤ (p.symOf leg).precision

/-- Pairs, rows and events. -/
structure FeeInvariant (w : World) : Prop where
  accrue : FeesAccrue w
  sound : FeesSound w
  rows : ∀ f ∈ w.fees.rows, f.Moderate w.pairs
  names : ∀ p ∈ w.pairs.rows, p.baseSym.name ≠ p.quoteSym.name
  decimals : ∀ p ∈ w.pairs.rows, ∀ leg, (p.symOf leg).precision ≤ maxDecimals

theorem recordedFee_congr (hfees : w'.fees = w.fees) (excAcc : AccountName) (pairId : Nat)
    (kind : FeeKind) : w'.recordedFee excAcc pairId kind = w.recordedFee excAcc pairId kind := by
  unfold recordedFee feeOf
  rw [hfees]

theorem recordedFee_put (hrow : w.feeOf row.excAcc row.pairId = some row) (hid : row'.id = row.id)
    (hexc : row'.excAcc = row.excAcc) (hpair : row'.pairId = row.pairId)
    (hfees : w'.fees = w.fees.put row') (excAcc : AccountName) (pairId : Nat) (kind : FeeKind) :
    w'.recordedFee excAcc pairId kind = if row.excAcc = excAcc ∧ row.pairId = pairId then
      (row'.amountOf kind).amount else w.recordedFee excAcc pairId kind := by
  have hmem := (of_feeOf hrow).1
  have hput := feeOf_put hmem hid hexc hpair excAcc pairId hfees
  unfold recordedFee
  by_cases hkey : row.excAcc = excAcc ∧ row.pairId = pairId
  · obtain ⟨rfl, rfl⟩ := hkey
    rw [if_pos ⟨rfl, rfl⟩, hput, hrow, Option.map_some, if_pos rfl]
  · rw [if_neg hkey, hput]
    cases hf : w.feeOf excAcc pairId with
    | none => rfl
    | some f =>
      rw [Option.map_some, if_neg]
      intro hfid
      obtain ⟨hfmem, hfexc, hfpair⟩ := of_feeOf hf
      obtain rfl : f = row := eq_of_key hfmem hmem hfid
      exact hkey ⟨hfexc, hfpair⟩

theorem recordedFee_of_row (hrow : w.feeOf row.excAcc row.pairId = some row) (kind : FeeKind) :
    w.recordedFee row.excAcc row.pairId kind = (row.amountOf kind).amount := by
  unfold recordedFee
  rw [hrow]

theorem amountOf_setAmount (row : FeeInfo) (zero : Asset) (kind kind' : FeeKind) :
    (row.setAmount zero kind).amountOf kind' =
      if kind = kind' then zero else row.amountOf kind' := by
  rcases kind with (_ | _) | _ <;> rcases kind' with (_ | _) | _ <;> rfl

variable {kind : FeeKind} {fee : Asset}

theorem amountOf_charge (h : row.charge kind fee = .ok row')
    (kind' : FeeKind) : (row'.amountOf kind').amount =
      (row.amountOf kind').amount + if kind = kind' then fee.amount else 0 := by
  rw [charge_eq_ok h, amountOf_setAmount]
  by_cases hkind : kind = kind'
  · rw [if_pos hkind, if_pos hkind, hkind]
  · rw [if_neg hkind, if_neg hkind, add_zero]

/-! ## Events -/

theorem plain_event (he : e.isPlain = true) (excAcc : AccountName) (pairId : Nat) (kind : FeeKind) :
    e.chargedTo excAcc pairId kind = 0 ∧ e.claimedOf excAcc pairId kind = 0 ∧
      e ≠ .opened excAcc pairId ∧ e.FeeSound := by
  cases e with
  | charged | claimed | opened => simp [Event.isPlain] at he
  | _ => exact ⟨rfl, rfl, by simp, trivial⟩

theorem sinceOpened_cons {excAcc : AccountName} {pairId : Nat} {trace : List Event} :
    sinceOpened excAcc pairId (e :: trace) =
      if e = .opened excAcc pairId then [] else e :: sinceOpened excAcc pairId trace := by
  unfold sinceOpened
  by_cases he : e = .opened excAcc pairId <;> simp [he]

theorem FeesAccrue.event (h : FeesAccrue w) (htrace : w'.trace = e :: w.trace)
    (hopened : ∀ excAcc pairId, e = .opened excAcc pairId → ∀ kind,
      w'.recordedFee excAcc pairId kind = 0)
    (hchange : ∀ excAcc pairId, e ≠ .opened excAcc pairId → ∀ kind,
      e.chargedTo excAcc pairId kind + w.recordedFee excAcc pairId kind =
        e.claimedOf excAcc pairId kind + w'.recordedFee excAcc pairId kind) : FeesAccrue w' := by
  intro excAcc pairId kind
  have hold := h excAcc pairId kind
  rw [htrace, sinceOpened_cons]
  by_cases he : e = .opened excAcc pairId
  · rw [if_pos he, hopened excAcc pairId he kind]
    rfl
  · have hnew := hchange excAcc pairId he kind
    rw [if_neg he, map_cons, map_cons, sum_cons, sum_cons]
    omega

theorem FeesSound.event (h : FeesSound w) (htrace : w'.trace = e :: w.trace) (he : e.FeeSound) :
    FeesSound w' := by
  intro e' he'
  rw [htrace] at he'
  rcases mem_cons.mp he' with rfl | he'
  · exact he
  · exact h e' he'

namespace FeeInvariant

variable (h : FeeInvariant w)

include h

section Steps

variable (hpairs : w'.pairs = w.pairs)

include hpairs

theorem step (haccrue : FeesAccrue w') (hsound : FeesSound w')
    (hrows : ∀ f ∈ w'.fees.rows, f.Moderate w.pairs) : FeeInvariant w' :=
  ⟨haccrue, hsound, hpairs ▸ hrows, hpairs ▸ h.names, hpairs ▸ h.decimals⟩

theorem of_eq (htrace : w'.trace = w.trace) (hfees : w'.fees = w.fees) : FeeInvariant w' := by
  refine h.step hpairs (fun e p kind => ?_) (fun e he => h.sound e (htrace ▸ he))
    fun f hf => h.rows f (hfees ▸ hf)
  rw [htrace, recordedFee_congr hfees]
  exact h.accrue e p kind

theorem note (he : e.isPlain = true) (htrace : w'.trace = e :: w.trace)
    (hfees : w'.fees = w.fees) : FeeInvariant w' := by
  refine h.step hpairs (h.accrue.event htrace ?_ ?_)
    (h.sound.event htrace (plain_event he 0 0 .points).2.2.2) fun f hf => h.rows f (hfees ▸ hf)
  · intro excAcc pairId hopened kind
    exact absurd hopened (plain_event he excAcc pairId kind).2.2.1
  · intro excAcc pairId _ kind
    obtain ⟨hcharged, hclaimed, -⟩ := plain_event he excAcc pairId kind
    rw [recordedFee_congr hfees, hcharged, hclaimed]

theorem putFee (hrow : w.feeOf row.excAcc row.pairId = some row)
    (htrace : w'.trace = w.trace) (hfees : w'.fees = w.fees.put row') (hid : row'.id = row.id)
    (hexc : row'.excAcc = row.excAcc) (hpair : row'.pairId = row.pairId)
    (hamounts : ∀ kind, (row'.amountOf kind).amount = (row.amountOf kind).amount)
    (hmoderate : row.Moderate w.pairs → row'.Moderate w.pairs) : FeeInvariant w' := by
  refine h.step hpairs (fun e p kind => ?_) (fun e he => h.sound e (htrace ▸ he)) ?_
  · have hsame : w'.recordedFee e p kind = w.recordedFee e p kind := by
      rw [recordedFee_put hrow hid hexc hpair hfees]
      split
      · next hkey =>
        obtain ⟨rfl, rfl⟩ := hkey
        rw [hamounts, recordedFee_of_row hrow]
      · rfl
    rw [htrace, hsame]
    exact h.accrue e p kind
  · rw [hfees]
    exact forall_mem_put (hmoderate (h.rows row (of_feeOf hrow).1)) h.rows

theorem changed (hrow : w.feeOf row.excAcc row.pairId = some row)
    (htrace : w'.trace = e :: w.trace) (hfees : w'.fees = w.fees.put row')
    (hsame : row.SameSettings row') (hsound : e.FeeSound)
    (hopened : ∀ excAcc pairId, e ≠ .opened excAcc pairId)
    (hother : ∀ excAcc pairId kind, ¬ (row.excAcc = excAcc ∧ row.pairId = pairId) →
      e.chargedTo excAcc pairId kind = 0 ∧ e.claimedOf excAcc pairId kind = 0)
    (hchange : ∀ kind, e.chargedTo row.excAcc row.pairId kind + (row.amountOf kind).amount =
      e.claimedOf row.excAcc row.pairId kind + (row'.amountOf kind).amount)
    (hmoderate : row.Moderate w.pairs → row'.Moderate w.pairs) : FeeInvariant w' := by
  obtain ⟨hid, hexc, hpair, -⟩ := hsame
  refine h.step hpairs
    (h.accrue.event htrace (fun excAcc pairId he => absurd he (hopened excAcc pairId)) ?_)
    (h.sound.event htrace hsound) ?_
  · intro excAcc pairId _ kind
    rw [recordedFee_put hrow hid hexc hpair hfees]
    by_cases hkey : row.excAcc = excAcc ∧ row.pairId = pairId
    · rw [if_pos hkey]
      obtain ⟨rfl, rfl⟩ := hkey
      rw [recordedFee_of_row hrow]
      exact hchange kind
    · rw [if_neg hkey, (hother excAcc pairId kind hkey).1, (hother excAcc pairId kind hkey).2]
  · rw [hfees]
    exact forall_mem_put (hmoderate (h.rows row (of_feeOf hrow).1)) h.rows

end Steps

end FeeInvariant

theorem Charged.feeSound {leg : Leg} {quantity : Asset}
    (htables : TablesFit env w) (h : FeeInvariant w) (hpair : w.pairs.find? row.pairId = some pair)
    (hrow : row ∈ w.fees.rows)
    (hcharged : Charged env (fun q => 1 ≤ q.amount) w.deals pair row leg quantity kind fee) :
    0 ≤ fee.amount ∧ fee.amount ≤ quantity.amount ∧ (kind = .token leg ∨ kind = .points) := by
  have hmem := (find?_eq_some_iff.mp hpair).1
  have hmoderate := h.rows row hrow
  have hcoherent := htables.pairs.coherent pair hmem
  have hsupply : ∀ leg, env.supply (pair.chainOf leg) (pair.symOf leg).name = some (pair.symOf leg)
    | .base => hcoherent.base_supply
    | .quote => hcoherent.quote_supply
  cases hcharged with
  | token hquantity hfee hsym =>
    obtain ⟨hlow, hhigh, -⟩ := calcfee_bounds hquantity hmoderate.rate hfee
    have hname : quantity.symbol = pair.symOf leg := Option.some.inj (hsym.symm.trans (hsupply leg))
    refine ⟨hlow, hhigh, .inl (congrArg FeeKind.token ?_)⟩
    rw [hname]
    cases leg with
    | base => exact if_pos rfl
    | quote => exact if_neg fun heq => h.names pair hmem heq.symm
  | points hquantity hfee _ hsym henabled hname hprice hmark hvalue hconv hle =>
    refine ⟨?_, hle, .inr rfl⟩
    obtain ⟨hlow, -, hfeeSym⟩ := calcfee_bounds hquantity hmoderate.rate hfee
    rw [Option.some.inj (hsym.symm.trans (hsupply leg))] at hfeeSym
    -- The price is in the quote token of a marked pair.
    obtain ⟨d, hd, hdsym⟩ := hmark
    obtain ⟨q, hq, hqsym⟩ := htables.deals d hd
    have hpriceDec := h.decimals q (find?_eq_some_iff.mp hq).1 .quote
    rw [show q.symOf .quote = _ from hqsym.symm.trans hdsym] at hpriceDec
    obtain ⟨p, hp, -, -, hpoints⟩ := htables.fees row hrow
    have hissued : env.supply mainChain row.points.symbol.name = some row.points.symbol :=
      hpoints henabled
    rw [← hname] at hissued
    refine pointsFee_nonneg hlow hprice hpriceDec ?_ hvalue hissued ?_ hconv
    · rw [hfeeSym]
      exact h.decimals pair hmem leg
    · rw [hfeeSym]
      exact hmoderate.on henabled pair hpair leg

namespace FeeInvariant

variable (htables : TablesFit env w) (h : FeeInvariant w)

include htables h

theorem charged {leg : Leg} {quantity : Asset}
    (hpair : w.pairs.find? row.pairId = some pair) (hrow : w.feeOf row.excAcc row.pairId = some row)
    (hcharged : Charged env (fun q => 1 ≤ q.amount) w.deals pair row leg quantity kind fee)
    (hcharge : row.charge kind fee = .ok row') : FeeInvariant { w with
      fees := w.fees.put row'
      trace := .charged row.excAcc row.pairId leg quantity kind fee :: w.trace } := by
  have hsame := charge_sameSettings hcharge
  refine h.changed rfl hrow rfl rfl hsame (hcharged.feeSound htables h hpair (of_feeOf hrow).1)
    (fun _ _ => by simp) ?_ ?_ ?_
  · intro excAcc pairId k hkey
    exact ⟨if_neg fun heq => hkey ⟨heq.1, heq.2.1⟩, rfl⟩
  · intro k
    rw [amountOf_charge hcharge]
    simp only [Event.chargedTo, Event.claimedOf, true_and]
    omega
  · intro hmoderate
    obtain ⟨-, -, hpairId, -, hrate, hon, -⟩ := hsame
    refine ⟨hrate ▸ hmoderate.rate, fun hoff => ?_, fun hon' p hp leg => ?_⟩
    · have hold : (row.amountOf .points).amount = 0 := hmoderate.off (hon ▸ hoff)
      have hnew := amountOf_charge hcharge .points
      show (row'.amountOf .points).amount = 0
      rw [hnew, hold, zero_add]
      refine if_neg ?_
      rintro rfl
      cases hcharged with
      | points _ _ _ _ henabled _ _ _ _ _ _ => exact absurd (hon.symm.trans hoff ▸ henabled) (by simp)
    · have hsym : row'.points.symbol = row.points.symbol := by
        rw [charge_eq_ok hcharge]
        rcases kind with (_ | _) | _ <;> rfl
      rw [hsym]
      exact hmoderate.on (hon ▸ hon') p (hpairId ▸ hp) leg

theorem writes (hwrites : Writes env (fun q => 1 ≤ q.amount) w w') : FeeInvariant w' := by
  suffices hboth : TablesFit env w' ∧ FeeInvariant w' from hboth.2
  induction hwrites with
  | refl => exact ⟨htables, h⟩
  | tail _ hwrite ih =>
    refine ⟨ih.1.writes (.single hwrite), ?_⟩
    obtain ⟨htables, h⟩ := ih
    cases hwrite with
    | book orders => exact h.of_eq rfl rfl rfl
    | pay hpay =>
      cases hpay with
      | debit _ hrun =>
        obtain ⟨accounts, rfl⟩ := debit_frame hrun
        exact h.note rfl rfl rfl rfl
      | send hrun =>
        obtain rfl := inlineTransfer_frame hrun
        exact h.of_eq rfl rfl rfl
      | charge hpair hrow hcharged hcharge => exact h.charged htables hpair hrow hcharged hcharge
      | filled _ _ _ _ _ _ _ _ => exact h.note rfl rfl rfl rfl
      | nextOrder => exact h.of_eq rfl rfl rfl

theorem claims {excAcc : AccountName} {pairId : Nat}
    (hclaims : Claims env excAcc pairId w w') : FeeInvariant w' := by
  cases hclaims with
  | none => exact h
  | @paid kind pair row zero feeAcc w1 hpair hrow hpos hsend hzero hname hissued =>
    obtain rfl := inlineTransfer_frame hsend
    obtain ⟨hmem, rfl, rfl⟩ := of_feeOf hrow
    have hstart : FeeInvariant (w.changeHeld (row.tokenOf pair kind).1 (row.amountOf kind).symbol.name
        (-(row.amountOf kind).amount)) := h.of_eq rfl rfl rfl
    refine hstart.changed rfl hrow rfl rfl (setAmount_sameSettings row zero kind) trivial
      (fun _ _ => by simp) ?_ ?_ ?_
    · intro excAcc pairId k hkey
      exact ⟨rfl, if_neg fun heq => hkey ⟨heq.1, heq.2.1⟩⟩
    · intro k
      rw [amountOf_setAmount]
      simp only [Event.chargedTo, Event.claimedOf, true_and]
      by_cases hk : kind = k
      · rw [if_pos hk, if_pos hk, hzero, hk]
        ring
      · rw [if_neg hk, if_neg hk]
    · intro hmoderate
      rcases kind with (_ | _) | _
      · exact ⟨hmoderate.rate, hmoderate.off, hmoderate.on⟩
      · exact ⟨hmoderate.rate, hmoderate.off, hmoderate.on⟩
      · refine ⟨hmoderate.rate, fun _ => hzero, fun hon p hp leg => ?_⟩
        -- The points stay in their token.
        obtain ⟨-, -, -, -, hpoints⟩ := htables.fees row hmem
        have hsame : zero.symbol = row.points.symbol := by
          have hsupply : env.supply mainChain zero.symbol.name = some zero.symbol := hissued
          rw [hname] at hsupply
          exact Option.some.inj (hsupply.symm.trans (hpoints hon))
        show zero.symbol.precision ≤ _
        rw [hsame]
        exact hmoderate.on hon p hp leg

theorem stakes (hframe : StakeFrame w w') : FeeInvariant w' := by
  obtain ⟨e, he, htrace⟩ := hframe.trace
  have hplain : e.isPlain = true := by
    cases e <;> first | rfl | exact absurd he (by simp [Event.isBalance])
  rcases hframe.fees with hfees | ⟨row, n, hrow, hfees⟩
  · exact h.note hframe.pairs hplain htrace hfees
  · have hmid : FeeInvariant { w with fees := w'.fees } :=
      h.putFee rfl (htables.feeOf_eq hrow) rfl hfees rfl rfl rfl
        (fun kind => by rcases kind with (_ | _) | _ <;> rfl)
        fun hmoderate => ⟨hmoderate.rate, hmoderate.off, hmoderate.on⟩
    exact hmid.note hframe.pairs hplain htrace rfl

theorem opened (hpair : w.pairs.find? row.pairId = some pair)
    (hnew : w.feeOf row.excAcc row.pairId = none) (hid : w.fees.find? row.id = none)
    (hopens : row.Opens env pair) : FeeInvariant { w with
      fees := w.fees.insert row
      trace := .opened row.excAcc row.pairId :: w.trace } := by
  have htables' : TablesFit env { w with
      fees := w.fees.insert row
      trace := .opened row.excAcc row.pairId :: w.trace } := htables.opened hpair hnew hopens
  have hzero : ∀ kind, (row.amountOf kind).amount = 0
    | .token .base => hopens.base_zero
    | .token .quote => hopens.quote_zero
    | .points => congrArg Asset.amount hopens.points_zero
  refine ⟨h.accrue.event rfl ?_ ?_, fun e he => ?_, forall_mem_insert ?_ h.rows, h.names, h.decimals⟩
  · intro excAcc pairId heq kind
    obtain ⟨rfl, rfl⟩ := Event.opened.inj heq
    unfold recordedFee
    rw [htables'.feeOf_eq (mem_insert.mpr (.inl rfl))]
    exact hzero kind
  · intro excAcc pairId hne kind
    refine congrArg (0 + ·) ?_
    unfold recordedFee
    rw [htables.feeOf_congr htables' fun f hkey => ?_]
    rw [mem_insert]
    refine ⟨fun hf => hf.elim ?_ And.left, fun hf => .inr ⟨hf, ?_⟩⟩
    · rintro rfl
      exact absurd (by rw [hkey.1, hkey.2]) hne
    · exact find?_eq_none_iff.mp hid f hf
  · rcases mem_cons.mp he with rfl | he
    · trivial
    · exact h.sound e he
  · refine ⟨?_, fun _ => hzero .points, fun hon => absurd hon (by simp [hopens.disabled])⟩
    rw [hopens.rate_zero]
    decide

/-- `close2` leaves nothing behind. -/
theorem closed (hrow : row ∈ w.fees.rows) (hzero : ∀ kind, (row.amountOf kind).amount = 0) :
    FeeInvariant { w with fees := w.fees.erase row.id } := by
  have htables' : TablesFit env { w with fees := w.fees.erase row.id } := htables.eraseFee
  refine ⟨fun excAcc pairId kind => ?_, h.sound, fun f hf => h.rows f (mem_erase.mp hf).1,
    h.names, h.decimals⟩
  rw [h.accrue excAcc pairId kind]
  refine congrArg (_ + ·) ?_
  unfold recordedFee
  by_cases hkey : row.excAcc = excAcc ∧ row.pairId = pairId
  · obtain ⟨rfl, rfl⟩ := hkey
    cases hfound : ({ w with fees := w.fees.erase row.id } : World).feeOf row.excAcc row.pairId with
    | none => rw [htables.feeOf_eq hrow]; exact hzero kind
    | some f =>
      obtain ⟨hf, hexc, hpair⟩ := of_feeOf hfound
      obtain ⟨hf, hne⟩ := mem_erase.mp hf
      exact absurd (congrArg FeeInfo.id (htables.oneFee f hf row hrow hexc hpair)) hne
  · rw [htables.feeOf_congr htables' fun f hf => ?_]
    rw [mem_erase]
    refine ⟨And.left, fun hmem => ⟨hmem, fun hid => hkey ?_⟩⟩
    obtain rfl : f = row := eq_of_key hmem hrow hid
    exact hf

theorem created (hnew : w.pairs.find? pair.id = none)
    (hname : pair.baseSym.name ≠ pair.quoteSym.name)
    (hdecimals : ∀ leg, (pair.symOf leg).precision ≤ maxDecimals) :
    FeeInvariant { w with pairs := w.pairs.insert pair } := by
  refine ⟨h.accrue, h.sound, fun f hf => ?_, forall_mem_insert hname h.names,
    forall_mem_insert hdecimals h.decimals⟩
  have hmoderate := h.rows f hf
  refine ⟨hmoderate.rate, hmoderate.off, fun hon p hp => hmoderate.on hon p ?_⟩
  obtain ⟨q, hq, -⟩ := htables.fees f hf
  rw [hq, ← hp, find?_insert_pair hnew hq]

end FeeInvariant

/-! ## Runs -/

theorem DealsWorth.deals {i : Incoming} {t : Taker} {base : Asset} {range : Option (List Order)}
    (hrange : w.range t = .ok range) (h : DealsWorth env i ⟨t, base, range⟩) :
    Deals env w t base fun q => 1 ≤ q.amount := by
  intro l hl od hod leg quant hdeal
  obtain rfl := Except.ok.inj (hrange.symm.trans hl)
  refine h l rfl od hod leg (by cases leg <;> simp) quant ?_
  rw [hdeal]
  rfl

theorem Ran.feeInvariant {c : Call} (hw : WellFormed env w) (h : FeeInvariant w)
    (hc : SoundFees env w c) (hran : Ran env c w w') : FeeInvariant w' := by
  obtain ⟨htables, -⟩ := hw
  obtain ⟨haction, hdeals⟩ := hc
  cases hran with
  | registered _ _ _ => exact h.of_eq rfl rfl rfl
  | @created pair _ _ _ _ _ heq hsyms hnew hcoherent _ _ _ =>
    rw [heq] at haction
    obtain ⟨hne, hbase, hquote⟩ := haction
    refine h.created htables hnew (by rw [hsyms.1, hsyms.2]; exact hne) fun leg => ?_
    cases leg with
    | base => exact hbase _ (hsyms.1 ▸ hcoherent.base_supply)
    | quote => exact hquote _ (hsyms.2 ▸ hcoherent.quote_supply)
  | opened hpair hnew hid hopens => exact h.opened htables hpair hnew hid hopens
  | @closed pair row w1 hpair hrow hbase hquote hpoints hrefunds =>
    have hwrites := hrefunds.writes (L := fun q => 1 ≤ q.amount)
    have hpaid := h.writes htables hwrites
    have hzero : ∀ kind, (row.amountOf kind).amount = 0
      | .token .base => hbase
      | .token .quote => hquote
      | .points => hpoints.elim (h.rows row (of_feeOf hrow).1).off id
    have hfees : w1.fees = w.fees := hrefunds.frame.2
    exact hpaid.closed (htables.writes hwrites) (hfees ▸ (of_feeOf hrow).1) hzero
  | cancelled _ _ hrefunds =>
    exact h.writes htables (hrefunds.writes (L := fun q => 1 ≤ q.amount))
  | @configured row row' hrow hfees hrate =>
    obtain ⟨hid, hexc, hpair, hbase, hquote, hpoints, hon⟩ := hfees
    refine h.putFee rfl hrow rfl rfl hid hexc hpair (fun kind => ?_) fun hmoderate => ⟨?_, ?_, ?_⟩
    · rcases kind with (_ | _) | _
      · exact congrArg Asset.amount hbase
      · exact congrArg Asset.amount hquote
      · exact congrArg Asset.amount hpoints
    · rcases hrate with hrate | hrate
      · exact hrate ▸ hmoderate.rate
      · rw [hrate] at haction
        exact haction
    · rw [hon, hpoints]
      exact hmoderate.off
    · rw [hon, hpoints, hpair]
      exact hmoderate.on
  | @pointed row zero sym heq hrow hzero =>
    rw [heq] at haction
    obtain ⟨hnone, hdecimals⟩ := haction
    refine h.putFee rfl hrow rfl rfl rfl rfl rfl (fun kind => ?_) fun hmoderate => ⟨?_, ?_, ?_⟩
    · rcases kind with (_ | _) | _
      · rfl
      · rfl
      · exact (tokenZero_amount hzero).trans (hnone row hrow).symm
    · exact hmoderate.rate
    · exact fun hoff => absurd hoff (by simp)
    · intro _ p hp leg
      obtain ⟨hname, hissued⟩ := tokenZero_symbol hzero
      obtain ⟨hbase, hquote⟩ := hdecimals p hp zero.symbol (hname ▸ hissued)
      cases leg with
      | base => exact hbase
      | quote => exact hquote
  | claimed hbase hquote hpoints =>
    have h1 := h.claims htables hbase
    have h2 := h1.claims (htables.claims hbase) hquote
    exact h2.claims ((htables.claims hbase).claims hquote) hpoints
  | marked _ _ _ _ => exact h.note rfl rfl rfl rfl
  | done _ hrun =>
    obtain ⟨deals, rfl⟩ := doneAction_frame hrun
    exact h.of_eq rfl rfl rfl
  | withdrawn _ _ _ hsend hsub =>
    obtain rfl := inlineTransfer_frame hsend
    obtain ⟨accounts, rfl⟩ := subBalance_frame hsub
    exact h.note rfl rfl rfl rfl
  | deposited _ _ _ hcredit =>
    obtain ⟨accounts, rfl⟩ := credit_frame hcredit
    exact h.note rfl rfl rfl rfl
  | @staked sender action pairId q value memo w' _ _ _ _ _ hrun =>
    have htables0 : TablesFit env (w.changeHeld mainChain q.symbol.name q.amount) :=
      htables.of_eq rfl rfl rfl
    have h0 : FeeInvariant (w.changeHeld mainChain q.symbol.name q.amount) := h.of_eq rfl rfl rfl
    exact h0.stakes htables0 (freeze4_frame hrun)
  | unstaked _ hrun => exact h.stakes htables (unfreeze4_frame hrun)
  | @matched i w0 w1 w' hcomes hmatch hdone =>
    obtain ⟨m⟩ := hmatch
    obtain ⟨deals, rfl⟩ := runLater_frame hdone
    have hincoming := hcomes.incoming
    obtain ⟨held, rfl⟩ := hcomes.held
    have htables0 : TablesFit env { w with held := held } := htables.of_eq rfl rfl rfl
    have h0 : FeeInvariant { w with held := held } := h.of_eq rfl rfl rfl
    have hcredited : TablesFit env m.w1 ∧ FeeInvariant m.w1 := by
      obtain ⟨accounts, heq⟩ := credit_frame m.credits
      rw [heq]
      exact ⟨htables0.of_eq rfl rfl rfl, h0.note rfl rfl rfl rfl⟩
    obtain ⟨range, hrange⟩ := m.exists_range
    have hmeets : PlanMeets (DealsWorth env) { w with held := held } c := hdeals
    have hworth := m.meets hincoming hmeets hrange
    have hwrites := (m.spec (hworth.deals hrange)).1
    exact (hcredited.2.writes hcredited.1 hwrites).of_eq rfl rfl rfl

/-- **Accrued fees**: in every run whose calls meet the conditions, fees are sound, and what was charged
since a pair was opened is claimed or still recorded. -/
theorem feesAccrue_run (env : Env) (cs : List Call) (hrun : Along env (SoundFees env) cs {}) :
    FeesAccrue (after env cs {}) ∧ FeesSound (after env cs {}) := by
  have hstart : FeeInvariant {} := by
    refine ⟨fun e p kind => rfl, fun e he => absurd he (by simp), fun f hf => ?_, fun p hp => ?_,
      fun p hp => ?_⟩
    · simp [empty] at hf
    · simp [empty] at hp
    · simp [empty] at hp
  obtain ⟨-, -, hend⟩ :=
    WellFormed.induction (fun _ hw h hc hran => hran.feeInvariant hw h hc) cs hstart hrun
  exact ⟨hend.accrue, hend.sound⟩

/-- An ask is filled by a bid, at a fee of one per cent, and the fees are claimed. -/
def feeRun : List Call :=
  openRun ++ [callOf 2 (.setfee dex 0 100),
      callOf 2 (.deposit alice 5 ⟨10, abc⟩ "trade;alice;0;0.0500 SYS;0;dex;;1".toList),
      callOf 2 (.deposit bob mainChain ⟨5000, sys⟩ "trade;bob;0;0.0500 SYS;1;dex;;1".toList),
      callOf 3 (.claim 5 abc mainChain sys dex alice)]

theorem feesAccrue_feeRun : Along market (SoundFees market) feeRun {} ∧
    FeesAccrue (after market feeRun {}) ∧ FeesSound (after market feeRun {}) ∧
    ((after market feeRun {}).trace.map (Event.claimedOf dex 0 (.token .quote))).sum = 50 := by
  have hrun : Along market (SoundFees market) feeRun {} := by decide +kernel
  obtain ⟨haccrue, hsound⟩ := feesAccrue_run market feeRun hrun
  exact ⟨hrun, haccrue, hsound, by decide +kernel⟩

/-- A pair of the two tokens named `SYS` trades at a fee of one per cent. -/
def sameNameRun : List Call :=
  [callOf 1 (.deposit dex mainChain ⟨10000000, sys⟩ "freeze;regex;0".toList), callOf 1 (.regex dex),
    callOf 1 (.create abc 7 sys sys mainChain sys dex),
    callOf 1 (.deposit dex mainChain ⟨10000000, sys⟩ "freeze;open;0".toList),
    callOf 1 (.openPair 7 sys mainChain sys dex), callOf 2 (.setfee dex 0 100),
    callOf 2 (.deposit alice 7 ⟨1000, sys⟩ "trade;alice;0;1.0000 SYS;0;dex;;1".toList),
    callOf 2 (.deposit bob mainChain ⟨1000, sys⟩ "trade;bob;0;1.0000 SYS;1;dex;;1".toList)]

/-- **A fee in the quote token** is recorded as one in the base token. -/
theorem quote_fee_as_base : ¬ FeesSound (after twoChains sameNameRun {}) := by
  have hmem : Event.charged dex 0 .quote ⟨1000, sys⟩ (.token .base) ⟨10, sys⟩ ∈
      (after twoChains sameNameRun {}).trace := by
    decide +kernel
  intro h
  obtain ⟨-, -, hkind⟩ := h _ hmem
  exact absurd hkind (by decide)

end Forceio.Exchange
