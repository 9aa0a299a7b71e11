import Forceio.Exchange.Loop

/-!
# Orders that come in

`Incoming` is an order that comes in, with a deposit or through `match`; `Match` is what `match`
computes for it and writes.

Result:
* `Match.spec`, `Match.fills`: what a match pays, the book after it, and the orders it fills.
-/

namespace Forceio.Exchange

open Forceio.Lib Exec Forceio.Eosiolib KeyedTable
open Forceio.Chain (AccountName)
open World

variable {env : Env} {w w' : World}

/-! ## Orders that come in -/

/-- The arguments of `match`. -/
structure Incoming where
  pairId : Nat
  payer : AccountName
  receiver : AccountName
  chain : ChainName
  quantity : Asset
  price : Asset
  bid : Bool
  excAcc : AccountName
  feeType : Nat

namespace Incoming

/-- The token that is deposited. -/
def given (i : Incoming) : Leg := if i.bid then .quote else .base

/-- The base that is bought or sold. -/
def base (i : Incoming) (pair : TradingPair) : Except ContractError Asset :=
  if i.bid then bidBase pair i.quantity i.price else convert pair.base i.quantity

/-- The incoming order as the loops read it. -/
def taker (i : Incoming) (w : World) (pair : TradingPair) (price : Asset) : Taker :=
  ⟨i.bid, pair, i.payer, i.receiver, price, i.excAcc, i.feeType, w.nextOrder⟩

end Incoming

/-- The order that an action brings in. -/
def Action.incoming : Action → Option Incoming
  | .matchOrder pairId payer receiver chain quantity price bid excAcc feeType =>
    some ⟨pairId, payer, receiver, chain, quantity, price, bid, excAcc, feeType⟩
  | .deposit sender chain quantity memo =>
    match Memo.parse memo with
    | .ok (.trade receiver pairId price bid excAcc feeType) =>
      some ⟨pairId, sender, receiver, chain, quantity, price, bid, excAcc, feeType⟩
    | _ => none
  | _ => none

/-- The orders that a taker walks, if it finds one. -/
def World.range (w : World) (t : Taker) : Except ContractError (Option (List Order)) := do
  if t.bid then
    let found ← w.hasAsk t.pair.id t.price
    return if found then some (w.asksUpTo t.pair.id t.price.amount) else none
  else
    return if w.hasBid t.pair.id t.price.amount then some (w.bidsFrom t.pair.id t.price.amount).reverse
      else none

/-- What an incoming order is compared with: the taker, its base, and the orders it walks. -/
structure Plan where
  taker : Taker
  base : Asset
  range : Option (List Order)

/-- The plan of an incoming order, computed from the tables it finds. -/
def Incoming.plan (w : World) (i : Incoming) : Except ContractError Plan :=
  match w.pairs.find? i.pairId with
  | none => .error (.assert "trading pair does not exist or be frozen")
  | some pair => do
    let base ← i.base pair
    let price ← convert pair.quote i.price
    let t := i.taker w pair price
    let range ← w.range t
    return ⟨t, base, range⟩

/-- The order that a call brings in, if it has a plan, has a property. -/
def PlanMeets (P : Incoming → Plan → Prop) (w : World) (c : Call) : Prop :=
  match c.action.incoming with
  | none => True
  | some i =>
    match i.plan w with
    | .error _ => True
    | .ok p => P i p

instance (P : Incoming → Plan → Prop) [∀ i p, Decidable (P i p)] (w : World) (c : Call) :
    Decidable (PlanMeets P w c) := by
  unfold PlanMeets
  split
  · infer_instance
  · split <;> infer_instance

/-- What happens to the order after its deposit is credited: it walks the other side, or rests. -/
inductive Settles (env : Env) (block : Nat) (w0 : World) (t : Taker) (deposit base : Asset)
    (w w' : World) : Prop
  | asks {value quant refund zero : Asset} (hbid : t.bid = true)
      (hvalue : dealValue t.price base = .ok value)
      (hquant : toAsset env t.pair.quoteChain t.pair.quoteSym value = .ok quant)
      (hrefund : deposit.sub quant = .ok refund) (hfound : w0.hasAsk t.pair.id t.price = .ok true)
      (hzero : zeroOf env t.pair .base = .ok zero)
      (hloop : Loop (AskStep env block t) (AskFinish env t) t
        (w0.asksUpTo t.pair.id t.price.amount) base (zero, refund) w w')
  | restBid {value quant refund : Asset} {w1 : World} (hbid : t.bid = true)
      (hvalue : dealValue t.price base = .ok value)
      (hquant : toAsset env t.pair.quoteChain t.pair.quoteSym value = .ok quant)
      (hrefund : deposit.sub quant = .ok refund) (hfound : w0.hasAsk t.pair.id t.price = .ok false)
      (hsend : if refund.amount > 0 then
        inlineTransfer env t.payer t.pair.quoteChain refund w = .ok () w1 else w1 = w)
      (hinsert : insertOrder (t.order base) w1 = .ok ⟨⟩ w')
  | bids {zero : Asset} (hbid : t.bid = false) (hfound : w0.hasBid t.pair.id t.price.amount = true)
      (hzero : zeroOf env t.pair .quote = .ok zero)
      (hloop : Loop (BidStep env block t
          (((w0.bidsFrom t.pair.id t.price.amount).head?.map Order.maker).getD 0))
        (BidFinish env t) t (w0.bidsFrom t.pair.id t.price.amount).reverse base zero w w')
  | restAsk (hbid : t.bid = false) (hfound : w0.hasBid t.pair.id t.price.amount = false)
      (hinsert : insertOrder (t.order base) w = .ok ⟨⟩ w')

/-- What `match` computes and writes. -/
structure Match (env : Env) (block : Nat) (i : Incoming) (w w' : World) where
  {row : FeeInfo} {pair : TradingPair} {deposit : Asset} {base : Asset} {converted : Asset}
  {price : Asset} {w1 : World}
  active : w.isExcFrozen i.excAcc = false
  row_eq : w.feeOf i.excAcc i.pairId = some row
  row_live : row.frozen = 0
  pair_eq : w.pairs.find? i.pairId = some pair
  pair_live : pair.frozen = 0
  pays : i.chain = pair.chainOf i.given ∧ i.quantity.symbol.name = (pair.symOf i.given).name
  deposit_eq : toAsset env (pair.chainOf i.given) (pair.symOf i.given) i.quantity = .ok deposit
  credits : credit i.payer (pair.chainOf i.given) deposit w = .ok ⟨⟩ w1
  id_lt : w.nextOrder < 2 ^ 64 - 2
  base_eq : i.base pair = .ok base
  converted_eq : toAsset env pair.baseChain pair.baseSym base = .ok converted
  enough : row.minQty.symbol = converted.symbol ∧ row.minQty.amount ≤ converted.amount
  price_eq : convert pair.quote i.price = .ok price
  settles : Settles env block w (i.taker w pair price) deposit base
    { w1 with nextOrder := w1.nextOrder + 1 } w'

theorem credit_nextOrder {owner : AccountName} {chain : ChainName} {value : Asset} {u : Unit}
    (h : credit owner chain value w = .ok u w') : w'.nextOrder = w.nextOrder := by
  obtain ⟨accounts, rfl⟩ := credit_frame h
  rfl

theorem nextOrderId_ok_iff {n : Nat} : nextOrderId w = .ok n w' ↔
    w.nextOrder < 2 ^ 64 - 2 ∧ n = w.nextOrder ∧ w' = { w with nextOrder := w.nextOrder + 1 } := by
  unfold nextOrderId
  rw [get_bind_ok, assert_bind_ok, set_bind_ok, pure_ok]
  refine and_congr_right fun _ => and_congr eq_comm eq_comm

variable {block : Nat} {t : Taker}

theorem matchForBid_match {i : Incoming} {row : FeeInfo} (hbid : i.bid = true)
    (hactive : w.isExcFrozen i.excAcc = false) (hrow : w.feeOf i.excAcc i.pairId = some row)
    (hlive : row.frozen = 0)
    (h : matchForBid env block i.pairId i.payer i.receiver i.chain i.quantity i.price i.excAcc
      i.feeType w = .ok ⟨⟩ w') : Nonempty (Match env block i w w') := by
  obtain ⟨pairId, payer, receiver, chain, quantity, price, bid, excAcc, feeType⟩ := i
  obtain rfl : bid = true := hbid
  unfold matchForBid at h
  rw [get_bind_ok] at h
  cases hpair : w.pairs.find? pairId with
  | none => rw [hpair] at h; exact absurd h throw_ne_ok
  | some pair =>
    rw [hpair] at h
    obtain ⟨hfrozen, h⟩ := assert_bind_ok.mp h
    obtain ⟨hpays, h⟩ := assert_bind_ok.mp h
    obtain ⟨-, h⟩ := assert_bind_ok.mp h
    obtain ⟨deposit, hdeposit, h⟩ := lift_bind_ok.mp h
    obtain ⟨u, w1, hcredit, h⟩ := bind_ok.mp h
    obtain ⟨orderId, w2, horder, h⟩ := bind_ok.mp h
    obtain ⟨hlt, rfl, rfl⟩ := nextOrderId_ok_iff.mp horder
    obtain ⟨base, hbase, h⟩ := lift_bind_ok.mp h
    obtain ⟨converted, hconverted, h⟩ := lift_bind_ok.mp h
    rw [hrow] at h
    obtain ⟨hsame, henough, h⟩ := ge_bind_ok h
    obtain ⟨price, hprice, h⟩ := lift_bind_ok.mp h
    obtain ⟨value, hvalue, h⟩ := lift_bind_ok.mp h
    obtain ⟨quant, hquant, h⟩ := lift_bind_ok.mp h
    obtain ⟨refund, hrefund, h⟩ := lift_bind_ok.mp h
    obtain ⟨found, hfound, h⟩ := lift_bind_ok.mp h
    have hnext := credit_nextOrder hcredit
    have htaker : (⟨true, pair, payer, receiver, price, excAcc, feeType, w1.nextOrder⟩ : Taker) =
        ⟨true, pair, payer, receiver, price, excAcc, feeType, w.nextOrder⟩ := by rw [hnext]
    rw [htaker] at h
    refine ⟨⟨hactive, hrow, hlive, hpair, hfrozen, hpays, hdeposit, hcredit, hnext ▸ hlt, hbase,
      hconverted, ⟨hsame.symm, henough⟩, hprice, ?_⟩⟩
    cases found with
    | true =>
      obtain ⟨zero, hzero, h⟩ := lift_bind_ok.mp h
      exact .asks rfl hvalue hquant hrefund hfound hzero (walkAsks_loop h)
    | false =>
      rw [if_neg (by simp)] at h
      obtain ⟨w3, hsend, h⟩ := ite_bind_ok h
      exact .restBid rfl hvalue hquant hrefund hfound hsend h

theorem matchForAsk_match {i : Incoming} {row : FeeInfo} (hbid : i.bid = false)
    (hactive : w.isExcFrozen i.excAcc = false) (hrow : w.feeOf i.excAcc i.pairId = some row)
    (hlive : row.frozen = 0)
    (h : matchForAsk env block i.pairId i.payer i.receiver i.chain i.quantity i.price i.excAcc
      i.feeType w = .ok ⟨⟩ w') : Nonempty (Match env block i w w') := by
  obtain ⟨pairId, payer, receiver, chain, quantity, price, bid, excAcc, feeType⟩ := i
  obtain rfl : bid = false := hbid
  unfold matchForAsk at h
  rw [get_bind_ok] at h
  cases hpair : w.pairs.find? pairId with
  | none => rw [hpair] at h; exact absurd h throw_ne_ok
  | some pair =>
    rw [hpair] at h
    obtain ⟨hfrozen, h⟩ := assert_bind_ok.mp h
    obtain ⟨hpays, h⟩ := assert_bind_ok.mp h
    obtain ⟨-, h⟩ := assert_bind_ok.mp h
    obtain ⟨deposit, hdeposit, h⟩ := lift_bind_ok.mp h
    obtain ⟨u, w1, hcredit, h⟩ := bind_ok.mp h
    obtain ⟨orderId, w2, horder, h⟩ := bind_ok.mp h
    obtain ⟨hlt, rfl, rfl⟩ := nextOrderId_ok_iff.mp horder
    obtain ⟨base, hbase, h⟩ := lift_bind_ok.mp h
    obtain ⟨converted, hconverted, h⟩ := lift_bind_ok.mp h
    rw [hrow] at h
    obtain ⟨hsame, henough, h⟩ := ge_bind_ok h
    obtain ⟨price, hprice, h⟩ := lift_bind_ok.mp h
    have hnext := credit_nextOrder hcredit
    have htaker : (⟨false, pair, payer, receiver, price, excAcc, feeType, w1.nextOrder⟩ : Taker) =
        ⟨false, pair, payer, receiver, price, excAcc, feeType, w.nextOrder⟩ := by rw [hnext]
    rw [htaker] at h
    refine ⟨⟨hactive, hrow, hlive, hpair, hfrozen, hpays, hdeposit, hcredit, hnext ▸ hlt,
      (if_neg (by simp)).trans hbase, hconverted, ⟨hsame.symm, henough⟩, hprice, ?_⟩⟩
    split at h
    · next hfound =>
      obtain ⟨zero, hzero, h⟩ := lift_bind_ok.mp h
      exact .bids rfl hfound hzero (walkBids_loop h)
    · next hfound =>
      have hnone : w.hasBid pair.id price.amount = false := by simpa using hfound
      exact .restAsk rfl hnone h

/-- **`match`**, inverted. -/
theorem matchOrder_match {auth : List AccountName} {i : Incoming}
    (h : matchOrder env block auth i.pairId i.payer i.receiver i.chain i.quantity i.price i.bid
      i.excAcc i.feeType w = .ok ⟨⟩ w') :
    env.self ∈ auth ∧ Nonempty (Match env block i w w') := by
  obtain ⟨hauth, h⟩ := auth_bind_ok h
  obtain ⟨hactive, h⟩ := assert_bind_ok.mp h
  cases hrow : w.feeOf i.excAcc i.pairId with
  | none => rw [hrow] at h; exact absurd h throw_ne_ok
  | some row =>
    rw [hrow] at h
    obtain ⟨hlive, h⟩ := assert_bind_ok.mp h
    refine ⟨hauth, ?_⟩
    cases hbid : i.bid with
    | true =>
      rw [hbid, if_pos rfl] at h
      exact matchForBid_match hbid hactive hrow hlive h
    | false =>
      rw [hbid, if_neg (by simp)] at h
      exact matchForAsk_match hbid hactive hrow hlive h

/-! ## What a match writes -/

theorem range_bid {found : Bool} (hbid : t.bid = true)
    (hfound : w.hasAsk t.pair.id t.price = .ok found) :
    w.range t = .ok (if found then some (w.asksUpTo t.pair.id t.price.amount) else none) := by
  unfold range
  rw [if_pos hbid, hfound]
  rfl

theorem range_ask (hbid : t.bid = false) :
    w.range t = .ok (if w.hasBid t.pair.id t.price.amount then
      some (w.bidsFrom t.pair.id t.price.amount).reverse else none) := by
  unfold range
  rw [if_neg (by simp [hbid])]
  rfl

/-- The book after an order has come in: its range is walked, or it rests. -/
inductive Booked (w0 : World) (t : Taker) (base : Asset) (orders orders' : KeyedTable Order) : Prop
  | walked {l : List Order} (hrange : w0.range t = .ok (some l))
      (horders : orders' = bookAfter t l base.amount orders)
  | rests (hrange : w0.range t = .ok none) (hnew : orders.find? t.orderId = none)
      (horders : orders' = orders.insert (t.order base))

theorem mem_of_range {l : List Order} (h : w.range t = .ok (some l)) {o : Order} (ho : o ∈ l)
    : o ∈ w.orders.rows := by
  have hindex : o ∈ w.orderIndex → o ∈ w.orders.rows := (mem_sortedBy _).mp
  unfold range at h
  split at h
  · obtain ⟨found, -, h⟩ := bind_eq_ok.mp h
    cases found with
    | false => exact absurd (pure_eq_ok.mp h) (by simp)
    | true =>
      obtain rfl := Option.some.inj (pure_eq_ok.mp h)
      exact hindex (List.mem_of_mem_filter ho)
  · have h := pure_eq_ok.mp h
    split at h
    · obtain rfl := Option.some.inj h
      rcases List.mem_append.mp (List.mem_reverse.mp ho) with hlow | hhigh
      · exact hindex (List.mem_of_mem_filter hlow)
      · have hlast := Option.mem_toList.mp (List.mem_of_mem_filter hhigh)
        exact hindex (List.mem_of_find?_eq_some hlast)
    · simp at h

theorem Booked.origin {base : Asset} {orders' : KeyedTable Order}
    (hbase : base.symbol = t.pair.base) (h : Booked w t base w.orders orders') {o' : Order}
    (ho' : o' ∈ orders'.rows) :
    (∃ o ∈ w.orders.rows, o' = o ∨ ∃ x, o' = o.withBase x) ∨
      ∃ x, o' = t.order ⟨x, t.pair.base⟩ := by
  cases h with
  | walked hrange horders =>
    rw [horders] at ho'
    rcases mem_bookAfter ho' with ho' | hleft
    · exact .inl ⟨o', ho', .inl rfl⟩
    · refine (leftover_cases hleft).imp_left fun ⟨o, ho, hform⟩ => ?_
      exact ⟨o, mem_of_range hrange ho, .inr hform⟩
  | rests hrange hnew horders =>
    rw [horders] at ho'
    rcases mem_insert.mp ho' with rfl | ⟨hmem, -⟩
    · exact .inr ⟨base.amount, by rw [← hbase]⟩
    · exact .inl ⟨o', hmem, .inl rfl⟩

/-- What is known of the deals of an order that comes in. -/
def Deals (env : Env) (w0 : World) (t : Taker) (base : Asset) (L : Asset → Prop) : Prop :=
  ∀ l, w0.range t = .ok (some l) → ∀ od ∈ reached l base.amount, ∀ leg quant,
    t.dealOf env od.1 od.2 leg = .ok quant → L quant

/-- The orders that are reached are filled. -/
def FillsRange (env : Env) (w0 : World) (t : Taker) (base : Asset) (w w' : World) : Prop :=
  ∃ range fs, w0.range t = .ok range ∧
    fs.map Fill.reached = range.elim [] (reached · base.amount) ∧ Filled env t fs w w'

variable {L : Asset → Prop}

theorem Settles.spec {w0 : World} {deposit base : Asset}
    (h : Settles env block w0 t deposit base w w') (hL : Deals env w0 t base L)
    (hprice : t.price.symbol = t.pair.quote) (hbase : base.symbol = t.pair.base)
    (hpair : w.pairs.find? t.pair.id = some t.pair) :
    Writes env L w w' ∧ Booked w0 t base w.orders w'.orders ∧ FillsRange env w0 t base w w' ∧
      ∀ l, w0.range t = .ok (some l) → IdFree t l base.amount w.orders := by
  have hone : ∀ {range l}, w0.range t = .ok range → w0.range t = .ok (some l) → range = some l :=
    fun hrange hl => Except.ok.inj (hrange.symm.trans hl)
  cases h with
  | asks hbid hvalue hquant hrefund hfound hzero hloop =>
    have hrange := range_bid hbid hfound
    obtain ⟨hwrites, ⟨horders, hfree⟩, fs, hmap, hfilled⟩ := hloop.spec (L := L)
      (fun hp hf => hf.finishes hp)
      (fun od hod => fun hs => hs.takes rfl hprice (hL _ hrange od hod)) hbase hpair
    exact ⟨hwrites, .walked hrange horders, ⟨_, fs, hrange, hmap, hfilled⟩,
      fun l hl => Option.some.inj (hone hrange hl) ▸ hfree⟩
  | @restBid value quant refund w1 hbid hvalue hquant hrefund hfound hsend hinsert =>
    have hrange := range_bid hbid hfound
    have hsent : Pays env L w w1 ∧ Quiet w w1 := by
      split at hsend
      · exact ⟨.single (.send hsend), .send hsend⟩
      · rw [hsend]
        exact ⟨.refl, .refl w⟩
    obtain ⟨hpays, hquiet⟩ := hsent
    obtain ⟨hnew, rfl⟩ := insertOrder_ok hinsert
    rw [hpays.sameBook.orders] at hnew
    refine ⟨(Writes.of_pays hpays).tail (.book _), .rests hrange hnew ?_,
      ⟨_, [], hrange, rfl, .of_quiet (hquiet.trans ⟨rfl, rfl⟩)⟩,
      fun l hl => absurd (hone hrange hl) (by simp)⟩
    show w1.orders.insert _ = _
    rw [hpays.sameBook.orders]
  | bids hbid hfound hzero hloop =>
    have hrange := range_ask (w := w0) hbid
    rw [if_pos hfound] at hrange
    obtain ⟨hwrites, ⟨horders, hfree⟩, fs, hmap, hfilled⟩ := hloop.spec (L := L)
      (fun hp hf => hf.finishes hp)
      (fun od hod => fun hs => hs.takes rfl hprice (hL _ hrange od hod)) hbase hpair
    exact ⟨hwrites, .walked hrange horders, ⟨_, fs, hrange, hmap, hfilled⟩,
      fun l hl => Option.some.inj (hone hrange hl) ▸ hfree⟩
  | restAsk hbid hfound hinsert =>
    have hrange := range_ask (w := w0) hbid
    rw [if_neg (by simp [hfound])] at hrange
    obtain ⟨hnew, rfl⟩ := insertOrder_ok hinsert
    exact ⟨.single (.book _), .rests hrange hnew rfl, ⟨_, [], hrange, rfl, .of_quiet ⟨rfl, rfl⟩⟩,
      fun l hl => absurd (hone hrange hl) (by simp)⟩

theorem Incoming.base_symbol {i : Incoming} {pair : TradingPair} {base : Asset}
    (h : i.base pair = .ok base) : base.symbol = pair.base := by
  unfold Incoming.base at h
  split at h
  · obtain ⟨x, -, h⟩ := bind_eq_ok.mp h
    obtain ⟨y, -, h⟩ := bind_eq_ok.mp h
    exact convert_symbol h
  · exact convert_symbol h

namespace Match

variable {block : Nat} {i : Incoming}

/-- The taker of a match. -/
def taker (m : Match env block i w w') : Taker := i.taker w m.pair m.price

variable (m : Match env block i w w')

theorem pair_id : m.pair.id = i.pairId :=
  (find?_eq_some_iff.mp m.pair_eq).2

theorem base_symbol : m.base.symbol = m.pair.base :=
  Incoming.base_symbol m.base_eq

theorem exists_range : ∃ range, w.range m.taker = .ok range := by
  cases m.settles with
  | asks hbid _ _ _ hfound _ _ => exact ⟨_, range_bid hbid hfound⟩
  | restBid hbid _ _ _ hfound _ _ => exact ⟨_, range_bid hbid hfound⟩
  | bids hbid _ _ _ => exact ⟨_, range_ask hbid⟩
  | restAsk hbid _ _ => exact ⟨_, range_ask hbid⟩

variable {range : Option (List Order)}

theorem plan_eq (hrange : w.range m.taker = .ok range) :
    i.plan w = .ok ⟨m.taker, m.base, range⟩ := by
  unfold Incoming.plan
  rw [m.pair_eq]
  refine bind_eq_ok.mpr ⟨m.base, m.base_eq, bind_eq_ok.mpr ⟨m.price, m.price_eq, ?_⟩⟩
  exact bind_eq_ok.mpr ⟨range, hrange, rfl⟩

theorem meets {P : Incoming → Plan → Prop} {c : Call} (hincoming : c.action.incoming = some i)
    (hc : PlanMeets P w c) (hrange : w.range m.taker = .ok range) :
    P i ⟨m.taker, m.base, range⟩ := by
  unfold PlanMeets at hc
  rw [hincoming] at hc
  simp only [m.plan_eq hrange] at hc
  exact hc

theorem settled (hL : Deals env w m.taker m.base L) :
    Writes env L { m.w1 with nextOrder := m.w1.nextOrder + 1 } w' ∧
      Booked w m.taker m.base w.orders w'.orders ∧
        FillsRange env w m.taker m.base { m.w1 with nextOrder := m.w1.nextOrder + 1 } w' ∧
          ∀ l, w.range m.taker = .ok (some l) → IdFree m.taker l m.base.amount w.orders := by
  have hcredit := credit_sameBook m.credits
  have hpair : ({ m.w1 with nextOrder := m.w1.nextOrder + 1 } : World).pairs.find? m.pair.id =
      some m.pair := by
    show m.w1.pairs.find? m.pair.id = _
    rw [hcredit.pairs, m.pair_id]
    exact m.pair_eq
  rw [← hcredit.orders]
  exact m.settles.spec hL (convert_symbol m.price_eq) m.base_symbol hpair

/-- **A match**: what is paid, and the book after it. -/
theorem spec (hL : Deals env w m.taker m.base L) :
    Writes env L m.w1 w' ∧ Booked w m.taker m.base w.orders w'.orders := by
  obtain ⟨hwrites, hbooked, -⟩ := m.settled hL
  exact ⟨(Relation.ReflTransGen.single (.pay .nextOrder)).trans hwrites, hbooked⟩

/-- **A match** fills the orders that its quantity reaches. -/
theorem fills : FillsRange env w m.taker m.base w w' := by
  obtain ⟨-, -, ⟨range, fs, hrange, hmap, hfilled⟩, -⟩ :=
    m.settled (L := fun _ => True) fun _ _ _ _ _ _ _ => trivial
  exact ⟨range, fs, hrange, hmap, hfilled.after ((Quiet.credit m.credits).trans ⟨rfl, rfl⟩)⟩

/-- Apart from the book, a match only pays. -/
theorem sameBook (m : Match env block i w w') : SameBook { w with orders := w'.orders } w' := by
  have hwrites := (m.spec (L := fun _ => True) fun _ _ _ _ _ _ _ => trivial).1
  exact ((credit_sameBook m.credits).withOrders w'.orders).trans hwrites.sameBook

end Match

end Forceio.Exchange
