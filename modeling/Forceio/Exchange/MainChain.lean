import Forceio.Exchange.Balances
import Forceio.Exchange.Opened

/-!
# Tokens of several chains (`withdraw`, `add_balance`, `sub_balance`)

A token is a chain and a symbol, but a balance is recorded under the symbol name alone, and
`withdraw` pays main chain tokens for it. An account that deposits a token of another chain can
withdraw the main chain token of the same name.

Results:
* `withdrawalsCovered_run`: as long as no pair trades a token of another chain that has the name of a
  main chain token, nobody withdraws more of a main chain token than was credited to them in it and
  not spent.
* `foreign_deposit_withdrawn`: with such a pair, a deposit in the token of the other chain is withdrawn
  in main chain tokens.
-/

namespace Forceio.Exchange

open Forceio.Lib Forceio.Eosiolib KeyedTable List
open Forceio.Chain (AccountName)

variable {env : Env} {w w' : World}
variable {chain : ChainName} {value : Asset} {e : Event}
variable {owner : AccountName}
variable (a : AccountName)

/-! ## What an account has been credited -/

/-- A token of the main chain, or one whose name the main chain does not have. -/
def Env.Apart (env : Env) (chain : ChainName) (name : Nat) : Prop :=
  chain = mainChain ∨ env.supply mainChain name = none

instance (env : Env) (chain : ChainName) (name : Nat) : Decidable (env.Apart chain name) := by
  unfold Env.Apart
  infer_instance

namespace Event

/-- What an event adds to a recorded balance. -/
def change (n : Nat) : Event → Int
  | .credited owner _ value => if owner = a ∧ value.symbol.name = n then value.amount else 0
  | .debited owner _ value => if owner = a ∧ value.symbol.name = n then -value.amount else 0
  | .withdrawn owner value => if owner = a ∧ value.symbol.name = n then -value.amount else 0
  | _ => 0

/-- What an event credits, or takes, in the main chain token of a name; withdrawals apart. -/
def mainChange (n : Nat) : Event → Int
  | .credited owner chain value =>
    if owner = a ∧ chain = mainChain ∧ value.symbol.name = n then value.amount else 0
  | .debited owner chain value =>
    if owner = a ∧ chain = mainChain ∧ value.symbol.name = n then -value.amount else 0
  | _ => 0

/-- What an event pays out as a withdrawal. -/
def withdrawal (n : Nat) : Event → Int
  | .withdrawn owner value => if owner = a ∧ value.symbol.name = n then value.amount else 0
  | _ => 0

/-- A balance is changed in a main chain token, or under a name that the main chain does not have. -/
def Apart (env : Env) : Event → Prop
  | .credited _ chain value => env.Issued chain value ∧ env.Apart chain value.symbol.name
  | .debited _ chain value => env.Issued chain value ∧ env.Apart chain value.symbol.name
  | .withdrawn _ value => env.supply mainChain value.symbol.name ≠ none
  | _ => True

end Event

/-- Withdrawals of a main chain token are covered by what was credited in it and not spent. -/
def WithdrawalsCovered (w : World) : Prop :=
  ∀ a n, (w.trace.map (Event.withdrawal a n)).sum ≤ (w.trace.map (Event.mainChange a n)).sum

/-- Pairs are created for tokens whose names are not mixed up, and the contract itself calls `match`
with no negative amount. -/
def TokensApart (env : Env) (w : World) (c : Call) : Prop :=
  match c.action with
  | .create _ baseChain baseSym _ quoteChain quoteSym _ =>
    env.Apart baseChain baseSym.name ∧ env.Apart quoteChain quoteSym.name
  | .matchOrder pairId _ _ _ quantity _ bid _ _ =>
    match w.pairs.find? pairId with
    | none => True
    | some pair =>
      match toAsset env (pair.chainOf (if bid then .quote else .base))
        (pair.symOf (if bid then .quote else .base)) quantity with
      | .ok value => 0 ≤ value.amount
      | .error _ => True
  | _ => True

instance (env : Env) (w : World) (c : Call) : Decidable (TokensApart env w c) := by
  unfold TokensApart
  split
  · infer_instance
  · split
    · infer_instance
    · split <;> infer_instance
  · infer_instance

/-! ## Balances and the trace -/

/-- Balances are what the trace says, none is negative, and names are not mixed up. -/
structure Accounted (env : Env) (w : World) : Prop where
  balance : ∀ a n, w.balanceOf a n = (w.trace.map (Event.change a n)).sum
  nonneg : ∀ a n, 0 ≤ w.balanceOf a n
  events : ∀ e ∈ w.trace, e.Apart env
  pairs : ∀ p ∈ w.pairs.rows, ∀ leg, env.Apart (p.chainOf leg) (p.symOf leg).name

namespace Accounted

variable (h : Accounted env w)

include h

theorem trades (htrades : w.Trades env chain value) :
    env.Issued chain value ∧ env.Apart chain value.symbol.name := by
  refine ⟨htrades.1, ?_⟩
  rcases htrades.2 with hmain | ⟨p, hp, leg, hchain, hname⟩
  · exact .inl hmain
  · rw [← hchain, ← hname]
    exact h.pairs p hp leg

theorem of_eq (haccounts : w'.accounts = w.accounts) (htrace : w'.trace = w.trace)
    (hpairs : w'.pairs = w.pairs) : Accounted env w' :=
  ⟨fun a n => by rw [balanceOf_congr haccounts, h.balance, htrace],
    fun a n => by rw [balanceOf_congr haccounts]; exact h.nonneg a n,
    fun e he => h.events e (htrace ▸ he), fun p hp => h.pairs p (hpairs ▸ hp)⟩

theorem changed (htrace : w'.trace = e :: w.trace) (hpairs : w'.pairs = w.pairs)
    (hapart : e.Apart env) (hbalance : ∀ a n, w'.balanceOf a n = w.balanceOf a n + e.change a n)
    (hnonneg : ∀ a n, 0 ≤ w'.balanceOf a n) : Accounted env w' := by
  refine ⟨fun a n => ?_, hnonneg, fun e' he' => ?_, fun p hp => h.pairs p (hpairs ▸ hp)⟩
  · rw [hbalance, h.balance, htrace, map_cons, sum_cons, add_comm]
  · rw [htrace] at he'
    rcases mem_cons.mp he' with rfl | he'
    · exact hapart
    · exact h.events e' he'

theorem note (haccounts : w'.accounts = w.accounts) (htrace : w'.trace = e :: w.trace)
    (hpairs : w'.pairs = w.pairs) (hapart : e.Apart env) (hzero : ∀ a n, e.change a n = 0) :
    Accounted env w' := by
  refine h.changed htrace hpairs hapart (fun a n => ?_) fun a n => ?_
  · rw [balanceOf_congr haccounts, hzero, add_zero]
  · rw [balanceOf_congr haccounts]
    exact h.nonneg a n

theorem lower (hle : value.amount ≤ w.balanceOf owner value.symbol.name)
    (hbalance : ∀ a n, w'.balanceOf a n =
      w.balanceOf a n - if a = owner ∧ n = value.symbol.name then value.amount else 0)
    (htrace : w'.trace = e :: w.trace) (hpairs : w'.pairs = w.pairs) (hapart : e.Apart env)
    (hchange : ∀ a n, e.change a n =
      if owner = a ∧ value.symbol.name = n then -value.amount else 0) : Accounted env w' := by
  refine h.changed htrace hpairs hapart (fun a n => ?_) fun a n => ?_
  · rw [hbalance, hchange]
    by_cases hkey : a = owner ∧ n = value.symbol.name
    · rw [if_pos hkey, if_pos ⟨hkey.1.symm, hkey.2.symm⟩, sub_eq_add_neg]
    · rw [if_neg hkey, if_neg fun hkey' => hkey ⟨hkey'.1.symm, hkey'.2.symm⟩, sub_zero, add_zero]
  · rw [hbalance]
    by_cases hkey : a = owner ∧ n = value.symbol.name
    · rw [if_pos hkey, hkey.1, hkey.2]
      omega
    · rw [if_neg hkey, sub_zero]
      exact h.nonneg a n

theorem debit {u : Unit} (htrades : w.Trades env chain value)
    (hrun : Exchange.debit owner chain value w = .ok u w') : Accounted env w' := by
  obtain ⟨w1, hsub, rfl⟩ := debit_ok_iff.mp hrun
  obtain ⟨hle, hbalance⟩ := subBalance_balanceOf hsub
  obtain ⟨accounts, rfl⟩ := subBalance_frame hsub
  exact h.lower hle hbalance rfl rfl (h.trades htrades) fun a n => rfl

theorem credit {u : Unit} (htrades : w.Trades env chain value) (hpos : 0 ≤ value.amount)
    (hrun : Exchange.credit owner chain value w = .ok u w') : Accounted env w' := by
  obtain ⟨w1, hadd, rfl⟩ := credit_ok_iff.mp hrun
  have hbalance := addBalance_balanceOf hadd
  obtain ⟨accounts, rfl⟩ := addBalance_frame hadd
  refine h.changed rfl rfl (h.trades htrades) (fun a n => ?_) fun a n => ?_
  · rw [Event.change]
    refine (hbalance a n).trans ?_
    by_cases hkey : a = owner ∧ n = value.symbol.name
    · rw [if_pos hkey, if_pos ⟨hkey.1.symm, hkey.2.symm⟩]
    · rw [if_neg hkey, if_neg fun hkey' => hkey ⟨hkey'.1.symm, hkey'.2.symm⟩]
  · have hold := h.nonneg a n
    refine (hbalance a n).ge.trans' ?_
    split <;> omega

theorem send {receiver : AccountName} {quantity : Asset} {u : Unit}
    (hrun : inlineTransfer env receiver chain quantity w = .ok u w') : Accounted env w' := by
  obtain rfl := inlineTransfer_frame hrun
  exact h.of_eq rfl rfl rfl

theorem writes {L : Asset → Prop} (hwrites : Writes env L w w') : Accounted env w' := by
  induction hwrites with
  | refl => exact h
  | tail _ hwrite ih =>
    cases hwrite with
    | book orders => exact ih.of_eq rfl rfl rfl
    | pay hpay =>
      cases hpay with
      | debit htrades hrun => exact ih.debit htrades hrun
      | send hrun => exact ih.send hrun
      | charge | filled => exact ih.note rfl rfl rfl trivial fun _ _ => rfl
      | nextOrder => exact ih.of_eq rfl rfl rfl

theorem flags {change frozen : Bool} {excAcc action : AccountName} {pairId : Nat}
    (hflags : Flags change frozen excAcc action pairId w w') : Accounted env w' := by
  cases hflags with
  | same _ => exact h
  | exchange | pair => exact h.of_eq rfl rfl rfl

theorem claims {excAcc : AccountName} {pairId : Nat} (hclaims : Claims env excAcc pairId w w') :
    Accounted env w' := by
  cases hclaims with
  | none => exact h
  | paid _ _ _ hsend _ _ _ => exact (h.send hsend).note rfl rfl rfl trivial fun _ _ => rfl

theorem created {pair : TradingPair} (hbase : env.Apart pair.baseChain pair.baseSym.name)
    (hquote : env.Apart pair.quoteChain pair.quoteSym.name) :
    Accounted env { w with pairs := w.pairs.insert pair } := by
  refine ⟨h.balance, h.nonneg, h.events, forall_mem_insert (fun leg => ?_) h.pairs⟩
  cases leg with
  | base => exact hbase
  | quote => exact hquote

end Accounted

/-- What a deposit for an order credits is positive, and so is what the contract's own calls do. -/
theorem Match.deposit_nonneg {c : Call} {i : Incoming} {w0 : World}
    (hcomes : Comes env i w c.action w0) (hc : TokensApart env w c)
    (m : Match env c.block i w0 w') : 0 ≤ m.deposit.amount := by
  have hdeposit := m.deposit_eq
  generalize haction : c.action = action at hcomes
  cases hcomes with
  | direct =>
    unfold TokensApart at hc
    rw [haction] at hc
    simp only [m.pair_eq] at hc
    unfold Incoming.given at hdeposit
    simp only [hdeposit] at hc
    exact hc
  | deposit hmemo hcheck =>
    rw [← m.pays.1] at hdeposit
    rw [toAsset_transferred hcheck m.pays.2.symm hdeposit]
    exact le_of_lt (checkTransfer_ok hcheck).1

theorem Ran.accounted {c : Call} (h : Accounted env w) (hc : TokensApart env w c)
    (hran : Ran env c w w') : Accounted env w' := by
  have main : ∀ {w : World} {sym : SymbolType} {a a' : Asset},
      toAsset env mainChain sym a = .ok a' → w.Trades env mainChain a' :=
    fun hvalue => ⟨(toAsset_supply hvalue).2, .inl rfl⟩
  cases hran with
  | registered | configured | pointed => exact h.of_eq rfl rfl rfl
  | created haction hsyms _ _ _ _ _ =>
    unfold TokensApart at hc
    rw [haction] at hc
    exact h.created (hsyms.1 ▸ hc.1) (hsyms.2 ▸ hc.2)
  | opened | marked => exact h.note rfl rfl rfl trivial fun _ _ => rfl
  | closed _ _ _ _ _ hrefunds =>
    exact (h.writes (hrefunds.writes (L := fun _ => True))).of_eq rfl rfl rfl
  | cancelled _ _ hrefunds => exact h.writes (hrefunds.writes (L := fun _ => True))
  | claimed hbase hquote hpoints => exact ((h.claims hbase).claims hquote).claims hpoints
  | done _ hrun =>
    obtain ⟨deals, rfl⟩ := doneAction_frame hrun
    exact h.of_eq rfl rfl rfl
  | @withdrawn owner q quantity w1 w2 _ _ hquantity hsend hsub =>
    obtain ⟨hle, hbalance⟩ := subBalance_balanceOf hsub
    have hissued : env.supply mainChain quantity.symbol.name ≠ none := by
      rw [(toAsset_supply hquantity).2]
      simp
    obtain ⟨accounts, rfl⟩ := subBalance_frame hsub
    exact (h.send hsend).lower hle hbalance rfl rfl hissued fun _ _ => rfl
  | @deposited sender q value memo w' _ hcheck hvalue hcredit =>
    have hstart : Accounted env (w.changeHeld mainChain q.symbol.name q.amount) :=
      h.of_eq rfl rfl rfl
    refine hstart.credit (main hvalue) ?_ hcredit
    rw [toAsset_transferred hcheck rfl hvalue]
    exact le_of_lt (checkTransfer_ok hcheck).1
  | @staked sender action pairId q value memo w' _ _ hcheck _ hvalue hrun =>
    obtain ⟨isNew, enough, v, w1, w2, hadds, -, hv, hcredit, hflags⟩ := freeze4_cases hrun
    have h1 : Accounted env w1 := by
      cases hadds with
      | new | more => exact h.of_eq rfl rfl rfl
    have hpos : 0 ≤ v.amount := by
      rw [toAsset_transferred hcheck rfl hvalue] at hv
      rw [toAsset_transferred hcheck rfl hv]
      exact le_of_lt (checkTransfer_ok hcheck).1
    exact (h1.credit (main hv) hpos hcredit).flags hflags
  | unstaked _ hrun =>
    obtain ⟨v, f, left, low, w1, w2, w3, -, hv, -, -, -, htakes, -, hdebit, hsend, hflags⟩ :=
      unfreeze4_cases hrun
    have h1 : Accounted env w1 := by
      cases htakes with
      | all | some => exact h.of_eq rfl rfl rfl
    exact ((h1.debit (main hv) hdebit).send hsend).flags hflags
  | matched hcomes hmatch hdone =>
    obtain ⟨m⟩ := hmatch
    obtain ⟨deals, rfl⟩ := runLater_frame hdone
    have hpos := m.deposit_nonneg hcomes hc
    obtain ⟨held, rfl⟩ := hcomes.held
    have hstart : Accounted env { w with held := held } := h.of_eq rfl rfl rfl
    have htrades : ({ w with held := held } : World).Trades env (m.pair.chainOf _) m.deposit :=
      ⟨(toAsset_supply m.deposit_eq).2, .inr ⟨m.pair, (find?_eq_some_iff.mp m.pair_eq).1, _,
        rfl, (toAsset_supply m.deposit_eq).1.symm⟩⟩
    have hwrites := (m.spec (L := fun _ => True) fun _ _ _ _ _ _ _ => trivial).1
    exact ((hstart.credit htrades hpos m.credits).writes hwrites).of_eq rfl rfl rfl

/-! ## Runs -/

/-- Under a name of the main chain, a balance is what was credited in the main chain token. -/
theorem mainChange_eq {n : Nat} (he : e.Apart env) (hn : env.supply mainChain n ≠ none)
    (a : AccountName) : e.mainChange a n = e.change a n + e.withdrawal a n := by
  have main : ∀ {chain name}, env.Apart chain name → name = n → chain = mainChain :=
    fun hapart hname => hapart.resolve_right (hname ▸ hn)
  cases e with
  | credited | debited =>
    simp only [Event.change, Event.mainChange, Event.withdrawal, add_zero]
    exact if_congr ⟨fun h => ⟨h.1, h.2.2⟩, fun h => ⟨h.1, main he.2 h.2, h.2⟩⟩ rfl rfl
  | withdrawn owner value =>
    simp only [Event.change, Event.mainChange, Event.withdrawal]
    split <;> simp
  | _ => rfl

/-- Nothing happens in main chain tokens under a name that the main chain does not have. -/
theorem main_eq_zero {n : Nat} (he : e.Apart env) (hn : env.supply mainChain n = none)
    (a : AccountName) : e.mainChange a n = 0 ∧ e.withdrawal a n = 0 := by
  have absent : ∀ {chain value}, env.Issued chain value → chain = mainChain →
      value.symbol.name ≠ n := by
    rintro chain value hissued rfl rfl
    exact absurd (hissued.symm.trans hn) (by simp)
  cases e with
  | credited | debited => exact ⟨if_neg fun h => absent he.1 h.2.1 h.2.2, rfl⟩
  | withdrawn owner value =>
    have hissued : env.supply mainChain value.symbol.name ≠ none := he
    refine ⟨rfl, if_neg ?_⟩
    rintro ⟨-, rfl⟩
    exact hissued hn
  | _ => exact ⟨rfl, rfl⟩

theorem Accounted.covered (h : Accounted env w) : WithdrawalsCovered w := by
  intro a n
  by_cases hn : env.supply mainChain n = none
  · have hzero : ∀ f : Event → Int, (∀ e ∈ w.trace, f e = 0) → (w.trace.map f).sum = 0 := by
      intro f hf
      exact sum_eq_zero fun x hx => by
        obtain ⟨e, he, rfl⟩ := mem_map.mp hx
        exact hf e he
    rw [hzero _ fun e he => (main_eq_zero (h.events e he) hn a).2,
      hzero _ fun e he => (main_eq_zero (h.events e he) hn a).1]
  · rw [map_congr_left fun e he => mainChange_eq (h.events e he) hn a, sum_map_add,
      ← h.balance a n]
    have hnonneg := h.nonneg a n
    omega

/-- **Tokens of different chains**: in every run in which no pair is created for a token of another
chain that has the name of a main chain token, withdrawals are covered by main chain tokens. -/
theorem withdrawalsCovered_run (env : Env) (cs : List Call) (hrun : Along env (TokensApart env) cs {}) :
    WithdrawalsCovered (after env cs {}) := by
  have hstart : Accounted env {} :=
    ⟨fun a n => rfl, fun a n => le_refl _, fun e he => absurd he (by simp),
      fun p hp => absurd hp (by simp [empty])⟩
  exact (Ran.induction (fun h hc hran => hran.accounted h hc) cs {} rfl hstart hrun).covered

/-- Points are deposited and withdrawn again. -/
def pointsRun : List Call :=
  bidRun ++
    [callOf 3 (.deposit bob mainChain ⟨30, sys⟩ "points".toList), callOf 4 (.withdraw bob ⟨20, sys⟩)]

theorem withdrawalsCovered_pointsRun : Along market (TokensApart market) pointsRun {} ∧
    WithdrawalsCovered (after market pointsRun {}) ∧
    ((after market pointsRun {}).trace.map (Event.withdrawal bob sys.name)).sum = 20 := by
  have hrun : Along market (TokensApart market) pointsRun {} := by decide +kernel
  exact ⟨hrun, withdrawalsCovered_run market pointsRun hrun, by decide +kernel⟩

/-- The tokens of the sample run with a second `SYS`, of chain `7`. -/
def twoChains : Env := envOf [(mainChain, sys), (5, abc), (7, sys)]

/-- A pair for the second `SYS` is opened; an ask deposits it, and main chain tokens are withdrawn. -/
def foreignRun : List Call :=
  [callOf 1 (.deposit dex mainChain ⟨10000000, sys⟩ "freeze;regex;0".toList), callOf 1 (.regex dex),
    callOf 1 (.create sys 7 sys abc 5 abc dex),
    callOf 1 (.deposit dex mainChain ⟨10000000, sys⟩ "freeze;open;0".toList),
    callOf 1 (.openPair 7 sys 5 abc dex),
    callOf 2 (.deposit alice 7 ⟨50, sys⟩ "trade;alice;0;3 ABC;0;dex;;1".toList),
    callOf 3 (.withdraw alice ⟨50, sys⟩)]

/-- **A deposit in a token of another chain** is withdrawn in the main chain token of its name. -/
theorem foreign_deposit_withdrawn : ¬ WithdrawalsCovered (after twoChains foreignRun {}) := by
  intro h
  have hwithdrawn : ((after twoChains foreignRun {}).trace.map (Event.withdrawal alice sys.name)).sum =
      50 := by
    decide +kernel
  have hcredited : ((after twoChains foreignRun {}).trace.map (Event.mainChange alice sys.name)).sum =
      0 := by
    decide +kernel
  have hcovered := h alice sys.name
  rw [hwithdrawn, hcredited] at hcovered
  exact absurd hcovered (by decide)

end Forceio.Exchange
