import Forceio.Exchange.Incoming
import Forceio.Exchange.Stakes

/-!
# Calls of the exchange contract

What a call that succeeds has checked, and the world it leaves: one case for every kind of action.
Everything about runs is proved from these cases.

Result:
* `Ran.induction`: what every kind of call keeps holds after every run.
-/

namespace Forceio.Exchange

open Forceio.Lib Exec Forceio.Eosiolib KeyedTable List
open Forceio.Chain (AccountName)

variable {env : Env} {w w' : World}
variable {pair : TradingPair} {o : Order} {chain baseChain quoteChain : ChainName}
  {excAcc : AccountName} {baseSym quoteSym : SymbolType} {pairId block : Nat}
  {auth : List AccountName}
variable {owner : AccountName}

/-! ## Refunds -/

theorem refundOrder_cases {u : Unit} (h : refundOrder env pair o w = .ok u w') :
    ∃ quant w1 w2, o.refund env pair = .ok quant ∧
      inlineTransfer env o.maker (o.refundChain pair) quant w = .ok ⟨⟩ w1 ∧
      debit o.maker (o.refundChain pair) quant w1 = .ok ⟨⟩ w2 ∧
      w' = { w2 with orders := w2.orders.erase o.id } := by
  obtain ⟨quant, hquant, h⟩ := lift_bind_ok.mp h
  obtain ⟨v, w1, hsend, h⟩ := bind_ok.mp h
  obtain ⟨v', w2, hdebit, h⟩ := bind_ok.mp h
  cases h
  exact ⟨quant, w1, w2, hquant, hsend, hdebit, rfl⟩

/-- Orders refunded one after the other, each as an order of its pair. -/
inductive Refunds (env : Env) : List (TradingPair × Order) → World → World → Prop
  | nil {w : World} : Refunds env [] w w
  | cons {pair : TradingPair} {o : Order} {l : List (TradingPair × Order)} {w w1 w' : World}
      (hpair : pair ∈ w.pairs.rows) (h : refundOrder env pair o w = .ok ⟨⟩ w1)
      (hrest : Refunds env l w1 w') : Refunds env ((pair, o) :: l) w w'

theorem refund_eq_ok {quant : Asset} (h : o.refund env pair = .ok quant) :
    ∃ leg amount, o.refundChain pair = pair.chainOf leg ∧
      toAsset env (pair.chainOf leg) (pair.symOf leg) amount = .ok quant := by
  unfold Order.refund at h
  unfold Order.refundChain
  by_cases hbid : o.bidOrAsk = true
  · rw [if_pos hbid] at h ⊢
    obtain ⟨value, -, h⟩ := bind_eq_ok.mp h
    exact ⟨.quote, value, rfl, h⟩
  · rw [if_neg hbid] at h ⊢
    exact ⟨.base, o.base, rfl, h⟩

theorem refund_trades {quant : Asset} (hpair : pair ∈ w.pairs.rows)
    (h : o.refund env pair = .ok quant) : w.Trades env (o.refundChain pair) quant := by
  obtain ⟨leg, amount, hchain, hquant⟩ := refund_eq_ok h
  obtain ⟨hname, hissued⟩ := toAsset_supply hquant
  rw [hchain]
  exact ⟨hissued, .inr ⟨pair, hpair, leg, rfl, hname.symm⟩⟩

namespace Refunds

variable {l : List (TradingPair × Order)}

theorem frame (h : Refunds env l w w') : w'.later = w.later ∧ w'.fees = w.fees := by
  induction h with
  | nil => exact ⟨rfl, rfl⟩
  | cons _ h _ ih =>
    obtain ⟨quant, w1, w2, -, hsend, hdebit, rfl⟩ := refundOrder_cases h
    obtain rfl := inlineTransfer_frame hsend
    obtain ⟨accounts, rfl⟩ := debit_frame hdebit
    exact ih

theorem writes {L : Asset → Prop} (h : Refunds env l w w') : Writes env L w w' := by
  induction h with
  | nil => exact .refl
  | cons hpair h _ ih =>
    obtain ⟨quant, w1, w2, hquant, hsend, hdebit, rfl⟩ := refundOrder_cases h
    refine .trans ?_ ih
    refine (Writes.of_pays ?_).tail (.book _)
    rw [← (inlineTransfer_sameBook hsend).pairs] at hpair
    exact (Relation.ReflTransGen.single (.send hsend)).tail (.debit (refund_trades hpair hquant) hdebit)

theorem mem_orders (h : Refunds env l w w') {o' : Order} :
    o' ∈ w'.orders.rows ↔ o' ∈ w.orders.rows ∧ ∀ po ∈ l, o'.id ≠ po.2.id := by
  induction h with
  | nil => simp
  | @cons pair o l w w1 w' _ h _ ih =>
    obtain ⟨quant, w2, w3, hquant, hsend, hdebit, rfl⟩ := refundOrder_cases h
    have hsame : SameBook w w3 := (inlineTransfer_sameBook hsend).trans (debit_sameBook hdebit)
    have hkey : ∀ o : Order, Keyed.key o = o.id := fun _ => rfl
    rw [ih]
    simp only [mem_erase, hkey, hsame.orders, mem_cons, forall_eq_or_imp, and_assoc]

end Refunds

theorem refundOrder_pairs {u : Unit} (h : refundOrder env pair o w = .ok u w') :
    w'.pairs = w.pairs := by
  obtain ⟨quant, w1, w2, -, hsend, hdebit, rfl⟩ := refundOrder_cases h
  exact (debit_sameBook hdebit).pairs.trans (inlineTransfer_sameBook hsend).pairs

theorem refundAll_refunds {u : Unit} :
    ∀ {l : List Order} {w w' : World}, pair ∈ w.pairs.rows → refundAll env pair excAcc l w = .ok u w' →
      Refunds env ((l.filter fun o => o.excAcc = excAcc).map fun o => (pair, o)) w w'
  | [], w, w', _, h => by
    obtain ⟨-, rfl⟩ := pure_ok.mp h
    exact .nil
  | o :: l, w, w', hpair, h => by
    unfold refundAll at h
    split at h
    · next hexc =>
      obtain ⟨v, w1, hrefund, h⟩ := bind_ok.mp h
      rw [filter_cons_of_pos (by simpa using hexc)]
      exact .cons hpair hrefund (refundAll_refunds (refundOrder_pairs hrefund ▸ hpair) h)
    · next hexc =>
      rw [filter_cons_of_neg (by simpa using hexc)]
      exact refundAll_refunds hpair h

theorem cancelOrder_ok {u : Unit} (h : cancelOrder env o w = .ok u w') :
    ∃ pair, w.pairByNames o = some pair ∧ refundOrder env pair o w = .ok ⟨⟩ w' := by
  unfold cancelOrder at h
  rw [get_bind_ok] at h
  cases hpair : w.pairByNames o with
  | none => rw [hpair] at h; exact absurd h throw_ne_ok
  | some pair =>
    rw [hpair] at h
    exact ⟨pair, rfl, (assert_bind_ok.mp h).2⟩

theorem cancelAll_refunds {u : Unit} : ∀ {l : List Order} {w w' : World},
    cancelAll env l w = .ok u w' → ∃ ps : List (TradingPair × Order), ps.map Prod.snd = l ∧
      (∀ po ∈ ps, w.pairByNames po.2 = some po.1) ∧ Refunds env ps w w'
  | [], w, w', h => by
    obtain ⟨-, rfl⟩ := pure_ok.mp h
    exact ⟨[], rfl, by simp, .nil⟩
  | o :: l, w, w', h => by
    obtain ⟨v, w1, hcancel, h⟩ := bind_ok.mp h
    obtain ⟨pair, hpair, hrefund⟩ := cancelOrder_ok hcancel
    obtain ⟨ps, hmap, hps, hrefunds⟩ := cancelAll_refunds h
    refine ⟨(pair, o) :: ps, by rw [map_cons, hmap], fun po hpo => ?_,
      .cons (mem_of_find?_eq_some hpair) hrefund hrefunds⟩
    rcases mem_cons.mp hpo with rfl | hpo
    · exact hpair
    · have hfind := hps po hpo
      unfold World.pairByNames at hfind ⊢
      rw [refundOrder_pairs hrefund] at hfind
      exact hfind

/-! ## Calls -/

/-- What `create` has computed of a pair. -/
structure TradingPair.Coherent (env : Env) (p : TradingPair) : Prop where
  base_supply : env.supply p.baseChain p.baseSym.name = some p.baseSym
  quote_supply : env.supply p.quoteChain p.quoteSym.name = some p.quoteSym
  base_precision : p.base.precision = p.baseSym.precision
  quote_precision : p.quote.precision = p.quoteSym.precision

/-- What `open` has computed of a row. -/
structure FeeInfo.Opens (env : Env) (pair : TradingPair) (row : FeeInfo) : Prop where
  base_supply : env.supply pair.baseChain pair.baseSym.name = some row.feesBase.symbol
  quote_supply : env.supply pair.quoteChain pair.quoteSym.name = some row.feesQuote.symbol
  base_zero : row.feesBase.amount = 0
  quote_zero : row.feesQuote.amount = 0
  points_zero : row.points = ⟨0, env.coreSymbol⟩
  disabled : row.pointsEnabled = false
  rate_zero : row.rate = 0

/-- What `mark` has computed of the first window of a pair. -/
structure DealInfo.Starts (env : Env) (pair : TradingPair) (window : DealInfo) : Prop where
  sum_supply : env.supply pair.quoteChain pair.quoteSym.name = some window.sum.symbol
  vol_supply : env.supply pair.baseChain pair.baseSym.name = some window.vol.symbol
  sum_zero : window.sum.amount = 0
  vol_zero : window.vol.amount = 0
  end_lt : window.blockHeightEnd < 2 ^ 32

/-- The token that a fee is recorded in: its chain and its name. -/
def FeeInfo.tokenOf (f : FeeInfo) (pair : TradingPair) : FeeKind → ChainName × Nat
  | .token leg => (pair.chainOf leg, (pair.symOf leg).name)
  | .points => (mainChain, f.points.symbol.name)

/-- One branch of `claim`. -/
inductive Claims (env : Env) (excAcc : AccountName) (pairId : Nat) (w : World) : World → Prop
  | none : Claims env excAcc pairId w w
  | paid {kind : FeeKind} {pair : TradingPair} {row : FeeInfo} {zero : Asset} {feeAcc : AccountName}
      {w1 : World} (hpair : w.pairs.find? pairId = some pair)
      (hrow : w.feeOf excAcc pairId = some row) (hpos : 0 < (row.amountOf kind).amount)
      (hsend : inlineTransfer env feeAcc (row.tokenOf pair kind).1 (row.amountOf kind) w = .ok ⟨⟩ w1)
      (hzero : zero.amount = 0) (hname : zero.symbol.name = (row.tokenOf pair kind).2)
      (hissued : env.Issued (row.tokenOf pair kind).1 zero) :
      Claims env excAcc pairId w { w1 with
        fees := w1.fees.put (row.setAmount zero kind)
        trace := .claimed excAcc pairId kind (row.amountOf kind) :: w1.trace }

theorem Claims.frame {excAcc : AccountName} {pairId : Nat} {w1 w2 w' : World}
    (hbase : Claims env excAcc pairId w w1) (hquote : Claims env excAcc pairId w1 w2)
    (hpoints : Claims env excAcc pairId w2 w') : ∃ held fees trace,
      w' = { w with held := held, fees := fees, trace := trace } ∧ w'.fills = w.fills := by
  have hone : ∀ {w w'}, Claims env excAcc pairId w w' → ∃ held fees trace,
      w' = { w with held := held, fees := fees, trace := trace } ∧ w'.fills = w.fills := by
    intro w w' h
    cases h with
    | none => exact ⟨_, _, _, rfl, rfl⟩
    | paid _ _ _ hsend _ _ _ =>
      obtain rfl := inlineTransfer_frame hsend
      exact ⟨_, _, _, rfl, rfl⟩
  obtain ⟨_, _, _, rfl, h1⟩ := hone hbase
  obtain ⟨_, _, _, rfl, h2⟩ := hone hquote
  obtain ⟨held, fees, trace, rfl, h3⟩ := hone hpoints
  exact ⟨held, fees, trace, rfl, h3.trans (h2.trans h1)⟩

/-- The start of an order: as `match`, or with the transfer of its deposit. -/
inductive Comes (env : Env) (i : Incoming) (w : World) : Action → World → Prop
  | direct : Comes env i w (.matchOrder i.pairId i.payer i.receiver i.chain i.quantity i.price i.bid
      i.excAcc i.feeType) w
  | deposit {memo : List Char} (hmemo : Memo.parse memo =
        .ok (.trade i.receiver i.pairId i.price i.bid i.excAcc i.feeType))
      (hcheck : checkTransfer env i.payer env.self i.chain i.quantity = .ok ()) :
      Comes env i w (.deposit i.payer i.chain i.quantity memo)
        (w.changeHeld i.chain i.quantity.symbol.name i.quantity.amount)

theorem Comes.incoming {i : Incoming} {a : Action} (h : Comes env i w a w') :
    a.incoming = some i := by
  cases h with
  | direct => rfl
  | deposit hmemo hcheck => simp only [Action.incoming, hmemo]

theorem Comes.held {i : Incoming} {a : Action} (h : Comes env i w a w') :
    ∃ held, w' = { w with held := held } := by
  cases h with
  | direct => exact ⟨w.held, rfl⟩
  | deposit hmemo hcheck => exact ⟨_, rfl⟩

/-- The kinds of calls that succeed. -/
inductive Ran (env : Env) (c : Call) (w : World) : World → Prop
  | registered {excAcc : AccountName} (haction : c.action = .regex excAcc)
      (henough : (stakeRequired env).amount ≤ (w.getFrozenAsset env excAcc regexName 0).amount)
      (hnew : w.exchanges.find? excAcc = none) :
      Ran env c w { w with exchanges := w.exchanges.insert { excAcc := excAcc } }
  | created {pair : TradingPair} {base baseSym quote quoteSym : SymbolType} {excAcc : AccountName}
      (haction : c.action =
        .create base pair.baseChain baseSym quote pair.quoteChain quoteSym excAcc)
      (hsyms : pair.baseSym.name = baseSym.name ∧ pair.quoteSym.name = quoteSym.name)
      (hnew : w.pairs.find? pair.id = none)
      (hcoherent : pair.Coherent env) (hlive : pair.frozen = 0)
      (hnames : ∀ p ∈ w.pairs.rows, ¬ (p.base.name = pair.base.name ∧ p.quote.name = pair.quote.name))
      (htokens : ∀ p ∈ w.pairs.rows,
        p.trades pair.baseChain pair.baseSym pair.quoteChain pair.quoteSym = false) :
      Ran env c w { w with pairs := w.pairs.insert pair }
  | opened {pair : TradingPair} {row : FeeInfo} (hpair : w.pairs.find? row.pairId = some pair)
      (hnew : w.feeOf row.excAcc row.pairId = none) (hid : w.fees.find? row.id = none)
      (hopens : row.Opens env pair) :
      Ran env c w { w with
        fees := w.fees.insert row
        trace := .opened row.excAcc row.pairId :: w.trace }
  | closed {pair : TradingPair} {row : FeeInfo} {w1 : World}
      (hpair : w.pairs.find? row.pairId = some pair)
      (hrow : w.feeOf row.excAcc row.pairId = some row)
      (hbase : row.feesBase.amount = 0) (hquote : row.feesQuote.amount = 0)
      (hpoints : row.pointsEnabled = false ∨ row.points.amount = 0)
      (hrefunds : Refunds env (((w.ordersOfPair row.pairId).filter fun o =>
        o.excAcc = row.excAcc).map fun o => (pair, o)) w w1) :
      Ran env c w { w1 with fees := w1.fees.erase row.id }
  | cancelled {ps : List (TradingPair × Order)} {w' : World}
      (hmem : ∀ po ∈ ps, po.2 ∈ w.orders.rows ∧ w.pairByNames po.2 = some po.1)
      (hids : (ps.map Prod.snd).Pairwise fun o o' => o.id ≠ o'.id)
      (hrefunds : Refunds env ps w w') : Ran env c w w'
  | configured {row row' : FeeInfo} (hrow : w.feeOf row.excAcc row.pairId = some row)
      (hfees : row.SameFees row')
      (hrate : row'.rate = row.rate ∨ c.action = .setfee row.excAcc row.pairId row'.rate) :
      Ran env c w { w with fees := w.fees.put row' }
  | pointed {row : FeeInfo} {zero : Asset} {sym : SymbolType}
      (haction : c.action = .enpoints row.excAcc row.pairId sym)
      (hrow : w.feeOf row.excAcc row.pairId = some row)
      (hzero : tokenZero env mainChain sym = .ok zero) :
      Ran env c w { w with fees := w.fees.put { row with pointsEnabled := true, points := zero } }
  | claimed {excAcc : AccountName} {pairId : Nat} {w1 w2 w' : World}
      (hbase : Claims env excAcc pairId w w1) (hquote : Claims env excAcc pairId w1 w2)
      (hpoints : Claims env excAcc pairId w2 w') : Ran env c w w'
  | marked {pair : TradingPair} {window : DealInfo} (hpair : w.pairs.find? window.pairId = some pair)
      (hunmarked : w.isMarked window.pairId = false) (hid : w.deals.find? window.id = none)
      (hstarts : window.Starts env pair) :
      Ran env c w { w with
        deals := w.deals.insert window
        trace := .marked window.pairId :: w.trace }
  | done {d : Done} {w' : World} (haction : c.action = .doneAction d)
      (hrun : doneAction env c.block c.auth d w = .ok ⟨⟩ w') : Ran env c w w'
  | withdrawn {owner : AccountName} {q quantity : Asset} {w1 w2 : World}
      (haction : c.action = .withdraw owner q)
      (hpending : w.checkPending owner q.symbol.name
        (w.orders.rows.filter fun o => o.id < 2 ^ 64 - 1) = .ok ())
      (hquantity : toAsset env mainChain q.symbol q = .ok quantity)
      (hsend : inlineTransfer env owner mainChain quantity w = .ok ⟨⟩ w1)
      (hsub : subBalance owner quantity w1 = .ok ⟨⟩ w2) :
      Ran env c w { w2 with trace := .withdrawn owner quantity :: w2.trace }
  | deposited {sender : AccountName} {q value : Asset} {memo : List Char} {w' : World}
      (haction : c.action = .deposit sender mainChain q memo)
      (hcheck : checkTransfer env sender env.self mainChain q = .ok ())
      (hvalue : toAsset env mainChain q.symbol q = .ok value)
      (hcredit : credit sender mainChain value (w.changeHeld mainChain q.symbol.name q.amount) =
        .ok ⟨⟩ w') : Ran env c w w'
  | staked {sender action : AccountName} {pairId : Nat} {q value : Asset} {memo : List Char}
      {w' : World} (haction : c.action = .deposit sender mainChain q memo)
      (hmemo : Memo.parse memo = .ok (.freeze action pairId))
      (hcheck : checkTransfer env sender env.self mainChain q = .ok ())
      (hcore : env.coreSymbol.name = q.symbol.name)
      (hvalue : toAsset env mainChain q.symbol q = .ok value)
      (hrun : freeze4 env c.auth sender action pairId value
        (w.changeHeld mainChain q.symbol.name q.amount) = .ok ⟨⟩ w') : Ran env c w w'
  | unstaked {excAcc action : AccountName} {pairId : Nat} {q : Asset} {w' : World}
      (haction : c.action = .unfreeze4 excAcc action pairId q)
      (hrun : unfreeze4 env c.auth excAcc action pairId q w = .ok ⟨⟩ w') : Ran env c w w'
  | matched {i : Incoming} {w0 w1 w' : World} (hcomes : Comes env i w c.action w0)
      (hmatch : Nonempty (Match env c.block i w0 w1))
      (hdone : runLater env c.block w1.later { w1 with later := [] } = .ok ⟨⟩ w') : Ran env c w w'

/-! ### One action after the other -/

theorem zero_of_convert {s : SymbolType} {a a' : Asset} (ha : a.amount = 0)
    (h : convert s a = .ok a') : a'.amount = 0 := by
  unfold convert at h
  split at h
  · obtain ⟨f, -, hmake⟩ := bind_eq_ok.mp h
    rw [(Asset.make_eq_ok_iff.mp hmake).2.2, ha, zero_mul]
    rfl
  · obtain ⟨f, -, h⟩ := bind_eq_ok.mp h
    obtain ⟨x, hx, hmake⟩ := bind_eq_ok.mp h
    unfold int64Div at hx
    split at hx
    · simp at hx
    · rw [(Asset.make_eq_ok_iff.mp hmake).2.2, ← Except.ok.inj hx, ha, Int.zero_tdiv]

theorem tokenZero_amount {sym : SymbolType} {a : Asset} (h : tokenZero env chain sym = .ok a) :
    a.amount = 0 := by
  obtain ⟨z, hz, h⟩ := bind_eq_ok.mp h
  unfold toAsset at h
  split at h
  · simp at h
  · next s hs =>
    refine zero_of_convert ?_ h
    rw [(Asset.make_eq_ok_iff.mp hz).2.2]

theorem getPairId_ok (h : getPairId w baseChain baseSym quoteChain quoteSym = .ok pairId) :
    ∃ pair, w.pairOf baseChain baseSym quoteChain quoteSym = some pair ∧ pair.id = pairId ∧
      w.pairs.find? pairId = some pair ∧
      pair.baseChain = baseChain ∧ pair.baseSym.name = baseSym.name ∧
      pair.quoteChain = quoteChain ∧ pair.quoteSym.name = quoteSym.name := by
  unfold getPairId at h
  cases hpair : w.pairOf baseChain baseSym quoteChain quoteSym with
  | none => rw [hpair] at h; simp at h
  | some pair =>
    rw [hpair] at h
    obtain rfl := Except.ok.inj h
    have htrades : pair.trades baseChain baseSym quoteChain quoteSym = true := by
      have hfound := find?_some hpair
      exact hfound
    refine ⟨pair, rfl, rfl, ?_, ?_⟩
    · exact find?_eq_some_iff.mpr ⟨mem_of_find?_eq_some hpair, rfl⟩
    · simpa [TradingPair.trades] using htrades

section Actions

variable {c : Call} {u : Unit}

theorem regex_ran (haction : c.action = .regex excAcc) (h : regex env auth excAcc w = .ok u w') :
    Ran env c w w' := by
  obtain ⟨-, h⟩ := auth_bind_ok h
  obtain ⟨-, henough, h⟩ := ge_bind_ok h
  obtain ⟨hnew, h⟩ := assert_bind_ok.mp h
  cases h
  exact .registered haction henough hnew

theorem create_ran {base quote : SymbolType}
    (haction : c.action = .create base baseChain baseSym quote quoteChain quoteSym excAcc)
    (h : create env auth base baseChain baseSym quote quoteChain quoteSym excAcc w = .ok u w') :
    Ran env c w w' := by
  obtain ⟨-, h⟩ := auth_bind_ok h
  obtain ⟨-, h⟩ := assert_bind_ok.mp h
  obtain ⟨-, h⟩ := assert_bind_ok.mp h
  obtain ⟨-, h⟩ := active_bind_ok h
  obtain ⟨htokens, h⟩ := assert_bind_ok.mp h
  obtain ⟨hnames, h⟩ := assert_bind_ok.mp h
  obtain ⟨baseToken, hbase, h⟩ := lift_bind_ok.mp h
  obtain ⟨quoteToken, hquote, h⟩ := lift_bind_ok.mp h
  obtain ⟨hbaseName, hbaseSupply⟩ := tokenZero_symbol hbase
  obtain ⟨hquoteName, hquoteSupply⟩ := tokenZero_symbol hquote
  generalize nextKey (w.pairs.rows.map TradingPair.id) = id at h
  cases hid : w.pairs.find? id with
  | some p => simp only [hid] at h; exact absurd h throw_ne_ok
  | none =>
    simp only [hid] at h
    cases h
    refine .created haction ⟨hbaseName, hquoteName⟩ hid ⟨hbaseSupply, hquoteSupply, rfl, rfl⟩ rfl
      hnames fun p hp => ?_
    have hnone := find?_eq_none.mp htokens p hp
    simpa [TradingPair.trades, hbaseName, hquoteName] using hnone

theorem openPair_ran
    (h : openPair env auth baseChain baseSym quoteChain quoteSym excAcc w = .ok u w') :
    Ran env c w w' := by
  obtain ⟨-, h⟩ := auth_bind_ok h
  obtain ⟨-, h⟩ := active_bind_ok h
  obtain ⟨pairId, hpairId, h⟩ := lift_bind_ok.mp h
  obtain ⟨enough, -, h⟩ := lift_bind_ok.mp h
  obtain ⟨-, h⟩ := assert_bind_ok.mp h
  obtain ⟨hnew, h⟩ := assert_bind_ok.mp h
  obtain ⟨feesBase, hbase, h⟩ := lift_bind_ok.mp h
  obtain ⟨feesQuote, hquote, h⟩ := lift_bind_ok.mp h
  obtain ⟨pair, -, -, hpair, hbc, hb, hqc, hq⟩ := getPairId_ok hpairId
  generalize nextKey (w.fees.rows.map FeeInfo.id) = id at h
  cases hid : w.fees.find? id with
  | some f => simp only [hid] at h; exact absurd h throw_ne_ok
  | none =>
    simp only [hid] at h
    cases h
    exact .opened hpair hnew hid ⟨tokenZero_supply hbase hbc hb, tokenZero_supply hquote hqc hq,
      tokenZero_amount hbase, tokenZero_amount hquote, rfl, rfl, rfl⟩

theorem close2_ran (h : close2 env auth pairId excAcc w = .ok u w') : Ran env c w w' := by
  obtain ⟨-, h⟩ := auth_bind_ok h
  obtain ⟨-, h⟩ := active_bind_ok h
  rw [get_bind_ok] at h
  cases hpair : w.pairs.find? pairId with
  | none => rw [hpair] at h; exact absurd h throw_ne_ok
  | some pair =>
    rw [hpair] at h
    cases hrow : w.feeOf excAcc pairId with
    | none => rw [hrow] at h; exact absurd h throw_ne_ok
    | some row =>
      rw [hrow] at h
      obtain ⟨⟨hbase, hquote, hpoints⟩, h⟩ := assert_bind_ok.mp h
      obtain ⟨v, w1, hrefund, h⟩ := bind_ok.mp h
      cases h
      obtain ⟨-, rfl, rfl⟩ := of_feeOf hrow
      exact .closed hpair hrow hbase hquote hpoints
        (refundAll_refunds (find?_eq_some_iff.mp hpair).1 hrefund)

theorem cancelAll_ran {l : List Order} (hmem : ∀ o ∈ l, o ∈ w.orders.rows)
    (hids : l.Pairwise fun o o' => o.id ≠ o'.id) (h : cancelAll env l w = .ok u w') :
    Ran env c w w' := by
  obtain ⟨ps, rfl, hps, hrefunds⟩ := cancelAll_refunds h
  refine .cancelled (fun po hpo => ⟨?_, hps po hpo⟩) hids hrefunds
  exact hmem po.2 (mem_map_of_mem hpo)

theorem cancel_ran {maker : AccountName} {type : Nat} {id : List Char}
    (h : cancel env auth maker type id w = .ok u w') : Ran env c w w' := by
  obtain ⟨-, h⟩ := assert_bind_ok.mp h
  obtain ⟨-, h⟩ := auth_bind_ok h
  rw [get_bind_ok] at h
  split at h
  · cases ho : w.orders.find? (uint64 (atoll id)) with
    | none => rw [ho] at h; exact absurd h throw_ne_ok
    | some o =>
      rw [ho] at h
      obtain ⟨-, h⟩ := assert_bind_ok.mp h
      refine cancelAll_ran (u := u) (l := [o]) (fun o' ho' => ?_) (pairwise_singleton _ o) ?_
      · rw [mem_singleton.mp ho']
        exact (find?_eq_some_iff.mp ho).1
      · exact bind_ok.mpr ⟨u, w', h, rfl⟩
  · obtain ⟨-, h⟩ := assert_bind_ok.mp h
    refine cancelAll_ran (fun o ho => mem_of_mem_filter ho) ?_ h
    exact (w.orders.ascending.sublist filter_sublist).imp fun hlt => ne_of_lt hlt

theorem configureFee_ran {change : FeeInfo → Except ContractError FeeInfo}
    (hchange : ∀ {f f'}, change f = .ok f' → f.SameFees f' ∧ (f'.rate = f.rate ∨
      c.action = .setfee excAcc pairId f'.rate))
    (h : configureFee auth excAcc pairId change w = .ok u w') : Ran env c w w' := by
  obtain ⟨-, h⟩ := auth_bind_ok h
  obtain ⟨-, h⟩ := active_bind_ok h
  obtain ⟨row, row', hrow, hrow', rfl⟩ := changeFee_cases h
  obtain ⟨hsame, hrate⟩ := hchange hrow'
  obtain ⟨-, rfl, rfl⟩ := of_feeOf hrow
  exact .configured hrow hsame hrate

theorem enpoints_ran {sym : SymbolType} (haction : c.action = .enpoints excAcc pairId sym)
    (h : enpoints env auth excAcc pairId sym w = .ok u w') : Ran env c w w' := by
  obtain ⟨-, h⟩ := auth_bind_ok h
  obtain ⟨-, h⟩ := active_bind_ok h
  obtain ⟨row, row', hrow, hrow', rfl⟩ := changeFee_cases h
  obtain ⟨zero, hzero, hrow'⟩ := bind_eq_ok.mp hrow'
  obtain rfl := pure_eq_ok.mp hrow'
  obtain ⟨-, rfl, rfl⟩ := of_feeOf hrow
  exact .pointed haction hrow hzero

theorem claimOne_claims {kind : FeeKind} {sym : FeeInfo → SymbolType} {feeAcc : AccountName}
    {b : Bool} (hpair : w.pairs.find? pairId = some pair)
    (htoken : ∀ row : FeeInfo, row.tokenOf pair kind = (chain, (sym row).name))
    (h : claimOne env kind chain sym excAcc pairId feeAcc w = .ok b w') :
    Claims env excAcc pairId w w' ∧ w'.pairs = w.pairs := by
  unfold claimOne at h
  rw [get_bind_ok] at h
  cases hrow : w.feeOf excAcc pairId with
  | none => rw [hrow] at h; exact absurd h throw_ne_ok
  | some row =>
    rw [hrow] at h
    simp only at h
    split at h
    · next hpos =>
      obtain ⟨v, w1, hsend, h⟩ := bind_ok.mp h
      obtain ⟨zero, hzero, h⟩ := lift_bind_ok.mp h
      obtain ⟨hname, hissued⟩ := tokenZero_symbol hzero
      have hpairs := (inlineTransfer_sameBook hsend).pairs
      cases h
      obtain ⟨hchain, hsym⟩ := Prod.mk.inj (htoken row)
      rw [← hchain] at hsend hissued
      exact ⟨.paid hpair hrow hpos.2 hsend (tokenZero_amount hzero) (hname.trans hsym.symm) hissued,
        hpairs⟩
    · obtain ⟨-, rfl⟩ := pure_ok.mp h
      exact ⟨.none, rfl⟩

theorem claim_ran {feeAcc : AccountName}
    (h : claim env auth baseChain baseSym quoteChain quoteSym excAcc feeAcc w = .ok u w') :
    Ran env c w w' := by
  obtain ⟨-, h⟩ := auth_bind_ok h
  obtain ⟨-, h⟩ := active_bind_ok h
  obtain ⟨pairId, hpairId, h⟩ := lift_bind_ok.mp h
  obtain ⟨pair, -, -, hpair, rfl, hbaseName, rfl, hquoteName⟩ := getPairId_ok hpairId
  cases hrow : w.feeOf excAcc pairId with
  | none => rw [hrow] at h; exact absurd h throw_ne_ok
  | some row =>
    rw [hrow] at h
    obtain ⟨-, h⟩ := assert_bind_ok.mp h
    obtain ⟨base, w1, hbase, h⟩ := bind_ok.mp h
    obtain ⟨quote, w2, hquote, h⟩ := bind_ok.mp h
    obtain ⟨points, w3, hpoints, h⟩ := bind_ok.mp h
    obtain ⟨-, rfl⟩ := assert_ok.mp h
    obtain ⟨hbase, hpairs1⟩ := claimOne_claims hpair
      (fun _ => congrArg (Prod.mk _) hbaseName) hbase
    rw [← hpairs1] at hpair
    obtain ⟨hquote, hpairs2⟩ := claimOne_claims hpair
      (fun _ => congrArg (Prod.mk _) hquoteName) hquote
    rw [← hpairs2] at hpair
    exact .claimed hbase hquote (claimOne_claims hpair (fun _ => rfl) hpoints).1

theorem withdraw_ran {q : Asset} (haction : c.action = .withdraw owner q)
    (h : withdraw env auth owner q w = .ok u w') : Ran env c w w' := by
  obtain ⟨-, h⟩ := auth_bind_ok h
  obtain ⟨v, hpending, h⟩ := lift_bind_ok.mp h
  obtain ⟨quantity, hquantity, h⟩ := lift_bind_ok.mp h
  obtain ⟨v1, w1, hsend, h⟩ := bind_ok.mp h
  obtain ⟨v2, w2, hsub, h⟩ := bind_ok.mp h
  cases h
  exact .withdrawn haction hpending hquantity hsend hsub

end Actions

/-- What `upd_mark` has computed when it writes a window of a pair. -/
inductive Marks (env : Env) (block : Nat) (sum vol : Asset) (w : World) (pairId : Nat) : World → Prop
  | none (hunmarked : w.isMarked pairId = false) : Marks env block sum vol w pairId w
  | added {d : DealInfo} (hmarked : w.isMarked pairId = true)
      (hwindow : w.windowAt pairId block = some d) (hin : block ≤ d.blockHeightEnd)
      (hsum : sum.symbol = d.sum.symbol) (hvol : vol.symbol = d.vol.symbol) :
      Marks env block sum vol w pairId { w with deals := w.deals.put { d with
        sum := ⟨d.sum.amount + sum.amount, d.sum.symbol⟩
        vol := ⟨d.vol.amount + vol.amount, d.vol.symbol⟩ } }
  | window {d window : DealInfo} (hmarked : w.isMarked pairId = true)
      (hwindow : w.windowAt pairId block = some d) (hout : d.blockHeightEnd < block)
      (hid : w.deals.find? window.id = none)
      (hnew : window.pairId = pairId ∧ window.sum = sum ∧ window.vol = vol ∧
        window.blockHeightEnd < 2 ^ 32) :
      Marks env block sum vol w pairId { w with deals := w.deals.insert window }

variable {u : Unit}

theorem updMark_marks {sum vol : Asset}
    (h : updMark env block baseChain baseSym quoteChain quoteSym sum vol w = .ok u w') :
    ∃ pair, w.pairOf baseChain baseSym quoteChain quoteSym = some pair ∧
      Marks env block sum vol w pair.id w' := by
  obtain ⟨pairId, hpairId, h⟩ := lift_bind_ok.mp h
  obtain ⟨pair, hpair, rfl, -⟩ := getPairId_ok hpairId
  refine ⟨pair, hpair, ?_⟩
  split at h
  · next hmarked =>
    cases hwindow : w.windowAt pair.id block with
    | none => rw [hwindow] at h; exact absurd h throw_ne_ok
    | some d =>
      rw [hwindow] at h
      simp only at h
      split at h
      · next hin =>
        obtain ⟨sum', hsum, h⟩ := lift_bind_ok.mp h
        obtain ⟨vol', hvol, h⟩ := lift_bind_ok.mp h
        obtain ⟨hsumSym, -, rfl⟩ := Asset.add_eq_ok_iff.mp hsum
        obtain ⟨hvolSym, -, rfl⟩ := Asset.add_eq_ok_iff.mp hvol
        cases h
        exact .added hmarked hwindow hin hsumSym hvolSym
      · next hin =>
        generalize nextKey (w.deals.rows.map DealInfo.id) = id at h
        cases hid : w.deals.find? id with
        | some d => simp only [hid] at h; exact absurd h throw_ne_ok
        | none =>
          simp only [hid] at h
          cases h
          exact .window hmarked hwindow (not_le.mp hin) hid
            ⟨rfl, rfl, rfl, Nat.mod_lt _ (by norm_num)⟩
  · next hmarked =>
    obtain ⟨-, rfl⟩ := pure_ok.mp h
    exact .none (by simpa using hmarked)

/-- **`done`**, inverted. -/
theorem doneAction_marks {d : Done} (h : doneAction env block auth d w = .ok u w') :
    ∃ value sum pair, dealValue d.price d.quantity = .ok value ∧
      toAsset env d.quoteChain d.price.symbol value = .ok sum ∧
      w.pairOf d.baseChain d.quantity.symbol d.quoteChain d.price.symbol = some pair ∧
      Marks env block sum d.quantity w pair.id w' := by
  obtain ⟨-, h⟩ := auth_bind_ok h
  obtain ⟨value, hvalue, h⟩ := lift_bind_ok.mp h
  obtain ⟨sum, hsum, h⟩ := lift_bind_ok.mp h
  obtain ⟨pair, hpair, hmarks⟩ := updMark_marks h
  exact ⟨value, sum, pair, hvalue, hsum, hpair, hmarks⟩

theorem doneAction_frame {d : Done} (h : doneAction env block auth d w = .ok u w') :
    ∃ deals, w' = { w with deals := deals } := by
  obtain ⟨value, sum, pair, -, -, -, hmarks⟩ := doneAction_marks h
  cases hmarks with
  | none | added | window => exact ⟨_, rfl⟩

theorem runLater_frame : ∀ {l : List Done} {w w' : World},
    runLater env block l w = .ok u w' → ∃ deals, w' = { w with deals := deals }
  | [], w, w', h => by
    obtain ⟨-, rfl⟩ := pure_ok.mp h
    exact ⟨_, rfl⟩
  | d :: l, w, w', h => by
    obtain ⟨v, w1, hd, h⟩ := bind_ok.mp h
    obtain ⟨deals, rfl⟩ := doneAction_frame hd
    obtain ⟨deals', rfl⟩ := runLater_frame h
    exact ⟨deals', rfl⟩

theorem mark_ran {c : Call}
    (h : mark env block auth baseChain baseSym quoteChain quoteSym w = .ok u w') :
    Ran env c w w' := by
  obtain ⟨-, h⟩ := auth_bind_ok h
  obtain ⟨pairId, hpairId, h⟩ := lift_bind_ok.mp h
  obtain ⟨hunmarked, h⟩ := assert_bind_ok.mp h
  obtain ⟨sum, hsum, h⟩ := lift_bind_ok.mp h
  obtain ⟨vol, hvol, h⟩ := lift_bind_ok.mp h
  obtain ⟨pair, -, -, hpair, hbc, hb, hqc, hq⟩ := getPairId_ok hpairId
  generalize nextKey (w.deals.rows.map DealInfo.id) = id at h
  cases hid : w.deals.find? id with
  | some d => simp only [hid] at h; exact absurd h throw_ne_ok
  | none =>
    simp only [hid] at h
    cases h
    exact .marked hpair hunmarked hid ⟨tokenZero_supply hsum hqc hq, tokenZero_supply hvol hbc hb,
      tokenZero_amount hsum, tokenZero_amount hvol, Nat.mod_lt _ (by norm_num)⟩

theorem Flags.later {change frozen : Bool} {action : AccountName}
    (h : Flags change frozen excAcc action pairId w w') : w'.later = w.later := by
  cases h with
  | same | exchange | pair => rfl

/-- A call leaves no `done` action to run. -/
theorem Ran.later {c : Call} (hlater : w.later = []) (hran : Ran env c w w') : w'.later = [] := by
  cases hran with
  | registered | created | opened | configured | pointed | marked => exact hlater
  | closed _ _ _ _ _ hrefunds => exact hrefunds.frame.1.trans hlater
  | cancelled _ _ hrefunds => exact hrefunds.frame.1.trans hlater
  | claimed hbase hquote hpoints =>
    obtain ⟨held, fees, trace, rfl, -⟩ := Claims.frame hbase hquote hpoints
    exact hlater
  | done _ hrun =>
    obtain ⟨deals, rfl⟩ := doneAction_frame hrun
    exact hlater
  | withdrawn _ _ _ hsend hsub =>
    obtain ⟨accounts, rfl⟩ := subBalance_frame hsub
    exact (Quiet.send hsend).later.trans hlater
  | deposited _ _ _ hcredit => exact (Quiet.credit hcredit).later.trans hlater
  | staked _ _ _ _ _ hrun =>
    obtain ⟨isNew, enough, value, w1, w2, hadds, -, -, hcredit, hflags⟩ := freeze4_cases hrun
    rw [hflags.later, (Quiet.credit hcredit).later]
    cases hadds with
    | new | more => exact hlater
  | unstaked _ hrun =>
    obtain ⟨value, f, left, low, w1, w2, w3, -, -, -, -, -, htakes, -, hdebit, hsend, hflags⟩ :=
      unfreeze4_cases hrun
    rw [hflags.later, (Quiet.send hsend).later, (Quiet.debit hdebit).later]
    cases htakes with
    | all | some => exact hlater
  | matched _ _ hdone =>
    obtain ⟨deals, rfl⟩ := runLater_frame hdone
    rfl

/-- What a call does, up to the `done` actions that it sends. -/
inductive Acted (env : Env) (c : Call) (w w' : World) : Prop
  | plain (hran : Ran env c w w') (hlater : w'.later = [])
  | matched {i : Incoming} {w0 : World} (hcomes : Comes env i w c.action w0)
      (hmatch : Nonempty (Match env c.block i w0 w'))

theorem deposit_acted {c : Call} {sender : AccountName} {q : Asset} {memo : List Char}
    (hlater : w.later = []) (haction : c.action = .deposit sender chain q memo)
    (h : deposit env c.block c.auth sender chain q memo w = .ok u w') : Acted env c w w' := by
  obtain ⟨-, h⟩ := auth_bind_ok h
  obtain ⟨v, hcheck, h⟩ := lift_bind_ok.mp h
  obtain ⟨parsed, hmemo, h⟩ := lift_bind_ok.mp h
  have plain : Ran env c w w' → Acted env c w w' := fun hran => .plain hran (hran.later hlater)
  cases parsed with
  | trade receiver pairId price bid excAcc feeType =>
    obtain ⟨-, hmatch⟩ := matchOrder_match
      (i := ⟨pairId, sender, receiver, chain, q, price, bid, excAcc, feeType⟩) h
    refine .matched ?_ hmatch
    rw [haction]
    exact .deposit hmemo hcheck
  | points =>
    obtain ⟨hchain, h⟩ := assert_bind_ok.mp h
    obtain ⟨value, hvalue, h⟩ := lift_bind_ok.mp h
    rw [hchain] at haction hcheck h
    exact plain (.deposited haction hcheck hvalue h)
  | freeze action pairId =>
    obtain ⟨⟨hchain, hcore⟩, h⟩ := assert_bind_ok.mp h
    obtain ⟨value, hvalue, h⟩ := lift_bind_ok.mp h
    rw [hchain] at haction hcheck h
    exact plain (.staked haction hmemo hcheck hcore hvalue h)

theorem act_acted {c : Call} (hlater : w.later = []) (h : c.act env w = .ok u w') :
    Acted env c w w' := by
  have plain : Ran env c w w' → Acted env c w w' := fun hran => .plain hran (hran.later hlater)
  unfold Call.act at h
  generalize haction : c.action = action at h
  cases action with
  | regex excAcc =>
    exact plain (regex_ran haction h)
  | create base baseChain baseSym quote quoteChain quoteSym excAcc =>
    exact plain (create_ran haction h)
  | openPair baseChain baseSym quoteChain quoteSym excAcc =>
    exact plain (openPair_ran h)
  | close baseChain baseSym quoteChain quoteSym excAcc =>
    obtain ⟨-, h⟩ := auth_bind_ok h
    obtain ⟨pairId, -, h⟩ := lift_bind_ok.mp h
    exact plain (close2_ran h)
  | close2 pairId excAcc =>
    exact plain (close2_ran h)
  | cancel maker type id =>
    exact plain (cancel_ran h)
  | matchOrder pairId payer receiver chain quantity price bid excAcc feeType =>
    obtain ⟨-, hmatch⟩ := matchOrder_match
      (i := ⟨pairId, payer, receiver, chain, quantity, price, bid, excAcc, feeType⟩) h
    refine .matched ?_ hmatch
    rw [haction]
    exact .direct
  | doneAction d =>
    exact plain (.done haction h)
  | mark baseChain baseSym quoteChain quoteSym =>
    exact plain (mark_ran h)
  | claim baseChain baseSym quoteChain quoteSym excAcc feeAcc =>
    exact plain (claim_ran h)
  | freeze excAcc pairId =>
    obtain ⟨row, hrow, rfl⟩ := freeze_ok h
    obtain ⟨-, rfl, rfl⟩ := of_feeOf hrow
    exact plain (.configured hrow ⟨rfl, rfl, rfl, rfl, rfl, rfl, rfl⟩ (.inl rfl))
  | unfreeze excAcc pairId =>
    obtain ⟨row, hrow, rfl⟩ := unfreeze_ok h
    obtain ⟨-, rfl, rfl⟩ := of_feeOf hrow
    exact plain (.configured hrow ⟨rfl, rfl, rfl, rfl, rfl, rfl, rfl⟩ (.inl rfl))
  | setfee excAcc pairId rate =>
    refine plain (configureFee_ran (fun {f f'} hf => ?_) h)
    cases hf
    exact ⟨⟨rfl, rfl, rfl, rfl, rfl, rfl, rfl⟩, .inr haction⟩
  | enpoints excAcc pairId sym =>
    exact plain (enpoints_ran haction h)
  | withdraw owner quantity =>
    exact plain (withdraw_ran haction h)
  | setminordqty excAcc pairId minQty =>
    refine plain (configureFee_ran (fun {f f'} hf => ?_) h)
    obtain ⟨q, -, hf⟩ := bind_eq_ok.mp hf
    obtain rfl := pure_eq_ok.mp hf
    exact ⟨⟨rfl, rfl, rfl, rfl, rfl, rfl, rfl⟩, .inl rfl⟩
  | unfreeze4 excAcc action pairId quantity =>
    exact plain (.unstaked haction h)
  | deposit sender chain quantity memo =>
    exact deposit_acted hlater haction h

/-- **Calls**, inverted. -/
theorem Ran.of_run {c : Call} (hlater : w.later = []) (h : c.run env w = .ok u w') :
    Ran env c w w' ∧ w'.later = [] := by
  obtain ⟨v, w1, hact, h⟩ := bind_ok.mp h
  rw [get_bind_ok, set_bind_ok] at h
  cases act_acted hlater hact with
  | plain hran hlater1 =>
    have hsame : ({ w1 with later := [] } : World) = w1 := by rw [← hlater1]
    rw [hlater1, hsame] at h
    obtain ⟨-, rfl⟩ := pure_ok.mp h
    exact ⟨hran, hlater1⟩
  | matched hcomes hmatch =>
    obtain ⟨deals, hdeals⟩ := runLater_frame h
    refine ⟨.matched hcomes hmatch h, ?_⟩
    rw [hdeals]

/-- **Runs of the contract**: what every call keeps holds after every run. -/
theorem Ran.induction {C : World → Call → Prop} {I : World → Prop}
    (hstep : ∀ {w w' : World} {c : Call}, I w → C w c → Ran env c w w' → I w') (cs : List Call)
    (w : World) (hlater : w.later = []) (h : I w) (halong : Along env C cs w) :
    I (after env cs w) := by
  have hrun := Rollback.after_induction (C := C) (I := fun w => w.later = [] ∧ I w)
    (fun {w w' c} hw hc hran => by
      obtain ⟨hran, hlater'⟩ := Ran.of_run hw.1 (Call.step_eq_ok_iff.mp hran)
      exact ⟨hlater', hstep hw.2 hc hran⟩) cs w ⟨hlater, h⟩ halong
  exact hrun.2

end Forceio.Exchange
