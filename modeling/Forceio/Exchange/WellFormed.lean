import Forceio.Exchange.Calls

/-!
# Well-formed tables

What holds of the tables in every run, whatever the calls: pairs keep what `create` has computed, an
order, a row of fees and a window of marks are in the tokens of their pair, and there is one row of
fees for an exchange and a pair.

Results:
* `Ran.wellFormed`: every call keeps the tables well formed.
* `wellFormed_run`: so they are after every run.
-/

namespace Forceio.Exchange

open Forceio.Lib Exec Forceio.Eosiolib KeyedTable List
open Forceio.Chain (AccountName)

variable {env : Env} {w w' : World}
variable {pair : TradingPair} {block : Nat}
variable {pairs : KeyedTable TradingPair}
variable {c : Call}
variable {l : List (TradingPair × Order)}

/-! ## Tables -/

/-- What `create` keeps of the pairs. -/
structure PairsFit (env : Env) (pairs : KeyedTable TradingPair) : Prop where
  coherent : ∀ p ∈ pairs.rows, p.Coherent env
  names : ∀ p ∈ pairs.rows, ∀ q ∈ pairs.rows, p.base.name = q.base.name →
    p.quote.name = q.quote.name → p = q
  tokens : ∀ p ∈ pairs.rows, ∀ q ∈ pairs.rows,
    p.trades q.baseChain q.baseSym q.quoteChain q.quoteSym = true → p = q

theorem PairsFit.pairOf {p : TradingPair} {baseChain quoteChain : ChainName}
    {baseSym quoteSym : SymbolType} (h : PairsFit env w.pairs) (hp : p ∈ w.pairs.rows)
    (htrades : p.trades baseChain baseSym quoteChain quoteSym = true) :
    w.pairOf baseChain baseSym quoteChain quoteSym = some p := by
  unfold World.pairOf
  cases hfind : w.pairs.rows.find? fun p => p.trades baseChain baseSym quoteChain quoteSym with
  | none => exact absurd htrades (find?_eq_none.mp hfind p hp)
  | some q =>
    have hfound := find?_some hfind
    refine congrArg some (h.tokens q (mem_of_find?_eq_some hfind) p hp ?_)
    unfold TradingPair.trades at htrades hfound ⊢
    simp only [decide_eq_true_eq] at htrades hfound ⊢
    obtain ⟨hbc, hbs, hqc, hqs⟩ := htrades
    rw [hbc, hbs, hqc, hqs]
    exact hfound

/-- An order is in the tokens of its pair. -/
def World.OrderFits (w : World) (o : Order) : Prop :=
  ∃ p, w.pairs.find? o.pairId = some p ∧ o.base.symbol = p.base ∧ o.price.symbol = p.quote ∧
    o.price.isAmountWithinRange

/-- The fees of a row are in the tokens of its pair, and points that are enabled in a token. -/
def World.FeeFits (env : Env) (w : World) (f : FeeInfo) : Prop :=
  ∃ p, w.pairs.find? f.pairId = some p ∧ f.feesBase.symbol = p.baseSym ∧
    f.feesQuote.symbol = p.quoteSym ∧ (f.pointsEnabled = true → env.Issued mainChain f.points)

/-- A window sums up the quote token of its pair. -/
def World.DealFits (w : World) (d : DealInfo) : Prop :=
  ∃ p, w.pairs.find? d.pairId = some p ∧ d.sum.symbol = p.quoteSym

/-- The tables but for the orders. -/
structure TablesFit (env : Env) (w : World) : Prop where
  pairs : PairsFit env w.pairs
  fees : ∀ f ∈ w.fees.rows, w.FeeFits env f
  oneFee : ∀ f ∈ w.fees.rows, ∀ g ∈ w.fees.rows, f.excAcc = g.excAcc → f.pairId = g.pairId → f = g
  deals : ∀ d ∈ w.deals.rows, w.DealFits d

/-- The orders. -/
structure OrdersFit (w : World) : Prop where
  fits : ∀ o ∈ w.orders.rows, w.OrderFits o
  ids : ∀ o ∈ w.orders.rows, o.id < w.nextOrder

/-- **Well-formed tables.** -/
structure WellFormed (env : Env) (w : World) : Prop where
  tables : TablesFit env w
  orders : OrdersFit w

/-- The row of an exchange and a pair, if there is one, is the one that is looked up. -/
theorem TablesFit.feeOf_eq (h : TablesFit env w) {f : FeeInfo} (hf : f ∈ w.fees.rows) :
    w.feeOf f.excAcc f.pairId = some f := by
  cases hrow : w.feeOf f.excAcc f.pairId with
  | none =>
    have hnone := find?_eq_none.mp hrow f hf
    simp at hnone
  | some g =>
    obtain ⟨hg, hexc, hpair⟩ := of_feeOf hrow
    rw [h.oneFee g hg f hf hexc hpair]

variable {excAcc : AccountName} {pairId : Nat}

theorem TablesFit.feeOf_eq_some_iff (h : TablesFit env w)
    {f : FeeInfo} : w.feeOf excAcc pairId = some f ↔
      f ∈ w.fees.rows ∧ f.excAcc = excAcc ∧ f.pairId = pairId := by
  refine ⟨of_feeOf, ?_⟩
  rintro ⟨hf, rfl, rfl⟩
  exact h.feeOf_eq hf

theorem TablesFit.feeOf_congr (h : TablesFit env w) (h' : TablesFit env w')
    (hmem : ∀ f : FeeInfo, f.excAcc = excAcc ∧ f.pairId = pairId →
      (f ∈ w'.fees.rows ↔ f ∈ w.fees.rows)) : w'.feeOf excAcc pairId = w.feeOf excAcc pairId := by
  refine Option.ext fun f => ?_
  rw [h'.feeOf_eq_some_iff, h.feeOf_eq_some_iff]
  exact and_congr_left fun hkey => hmem f hkey

/-! ## Pairs -/

theorem PairsFit.insert (h : PairsFit env pairs) (hcoherent : pair.Coherent env)
    (hnames : ∀ p ∈ pairs.rows, ¬ (p.base.name = pair.base.name ∧ p.quote.name = pair.quote.name))
    (htokens : ∀ p ∈ pairs.rows,
      p.trades pair.baseChain pair.baseSym pair.quoteChain pair.quoteSym = false) :
    PairsFit env (pairs.insert pair) := by
  have htrades : ∀ {p q : TradingPair}, p.trades q.baseChain q.baseSym q.quoteChain q.quoteSym =
      q.trades p.baseChain p.baseSym p.quoteChain p.quoteSym := by
    intro p q
    simp only [TradingPair.trades, eq_comm]
  refine ⟨forall_mem_insert hcoherent h.coherent, fun p hp q hq hbase hquote => ?_,
    fun p hp q hq ht => ?_⟩
  · rcases mem_insert.mp hp with rfl | ⟨hp', -⟩ <;> rcases mem_insert.mp hq with rfl | ⟨hq', -⟩
    · rfl
    · exact absurd ⟨hbase.symm, hquote.symm⟩ (hnames q hq')
    · exact absurd ⟨hbase, hquote⟩ (hnames p hp')
    · exact h.names p hp' q hq' hbase hquote
  · rcases mem_insert.mp hp with rfl | ⟨hp', -⟩ <;> rcases mem_insert.mp hq with rfl | ⟨hq', -⟩
    · rfl
    · exact absurd ht (by rw [htrades, htokens q hq']; simp)
    · exact absurd ht (by rw [htokens p hp']; simp)
    · exact h.tokens p hp' q hq' ht

theorem find?_insert_pair {p : TradingPair} {k : Nat}
    (hnew : pairs.find? pair.id = none) (h : pairs.find? k = some p) :
    (pairs.insert pair).find? k = some p := by
  rw [find?_insert, if_neg]
  · exact h
  · rintro rfl
    exact absurd (hnew.symm.trans h) (by simp)

namespace TablesFit

variable (h : TablesFit env w)

include h

theorem of_eq (hpairs : w'.pairs = w.pairs) (hfees : w'.fees = w.fees) (hdeals : w'.deals = w.deals) :
    TablesFit env w' := by
  refine ⟨hpairs ▸ h.pairs, fun f hf => ?_, fun f hf g hg => ?_, fun d hd => ?_⟩
  · obtain ⟨p, hp, hrest⟩ := h.fees f (hfees ▸ hf)
    exact ⟨p, hpairs ▸ hp, hrest⟩
  · exact h.oneFee f (hfees ▸ hf) g (hfees ▸ hg)
  · obtain ⟨p, hp, hrest⟩ := h.deals d (hdeals ▸ hd)
    exact ⟨p, hpairs ▸ hp, hrest⟩

theorem created (hnew : w.pairs.find? pair.id = none) (hpairs : PairsFit env (w.pairs.insert pair)) :
    TablesFit env { w with pairs := w.pairs.insert pair } := by
  refine ⟨hpairs, fun f hf => ?_, h.oneFee, fun d hd => ?_⟩
  · obtain ⟨p, hp, hrest⟩ := h.fees f hf
    exact ⟨p, find?_insert_pair hnew hp, hrest⟩
  · obtain ⟨p, hp, hrest⟩ := h.deals d hd
    exact ⟨p, find?_insert_pair hnew hp, hrest⟩

theorem putFee {row row' : FeeInfo} (hrow : row ∈ w.fees.rows) (hpairs : w'.pairs = w.pairs)
    (hfees : w'.fees = w.fees.put row') (hdeals : w'.deals = w.deals) (hid : row'.id = row.id)
    (hexc : row'.excAcc = row.excAcc) (hpair : row'.pairId = row.pairId)
    (hfits : w.FeeFits env row → w.FeeFits env row') : TablesFit env w' := by
  have hcases : ∀ f ∈ w'.fees.rows, f = row' ∨ f ∈ w.fees.rows ∧ f.id ≠ row.id := by
    intro f hf
    rw [hfees] at hf
    rcases mem_put hf with rfl | ⟨hf, hne⟩
    · exact .inl rfl
    · exact .inr ⟨hf, fun heq => hne (heq.trans hid.symm)⟩
  have hfee : ∀ f ∈ w'.fees.rows, w.FeeFits env f :=
    hfees ▸ forall_mem_put (hfits (h.fees row hrow)) h.fees
  have hother : ∀ f ∈ w.fees.rows, f.id ≠ row.id →
      ¬ (f.excAcc = row'.excAcc ∧ f.pairId = row'.pairId) := by
    rintro f hf hne ⟨he, hp⟩
    exact hne (congrArg FeeInfo.id (h.oneFee f hf row hrow (he.trans hexc) (hp.trans hpair)))
  refine ⟨hpairs ▸ h.pairs, fun f hf => ?_, fun f hf g hg he hp => ?_, fun d hd => ?_⟩
  · obtain ⟨p, hp, hrest⟩ := hfee f hf
    exact ⟨p, hpairs ▸ hp, hrest⟩
  · rcases hcases f hf with rfl | ⟨hf, hfne⟩ <;> rcases hcases g hg with rfl | ⟨hg, hgne⟩
    · rfl
    · exact absurd ⟨he.symm, hp.symm⟩ (hother g hg hgne)
    · exact absurd ⟨he, hp⟩ (hother f hf hfne)
    · exact h.oneFee f hf g hg he hp
  · obtain ⟨p, hp, hrest⟩ := h.deals d (hdeals ▸ hd)
    exact ⟨p, hpairs ▸ hp, hrest⟩

theorem opened {row : FeeInfo} {trace : List Event} (hpair : w.pairs.find? row.pairId = some pair)
    (hnew : w.feeOf row.excAcc row.pairId = none) (hopens : row.Opens env pair) :
    TablesFit env { w with fees := w.fees.insert row, trace := trace } := by
  have hcoherent := h.pairs.coherent pair (find?_eq_some_iff.mp hpair).1
  have hnone : ∀ f ∈ w.fees.rows, ¬ (f.excAcc = row.excAcc ∧ f.pairId = row.pairId) := by
    simpa using find?_eq_none.mp hnew
  refine ⟨h.pairs, forall_mem_insert ?_ h.fees, fun f hf g hg he hp => ?_, h.deals⟩
  · refine ⟨pair, hpair, ?_, ?_, fun hon => absurd hon (by simp [hopens.disabled])⟩
    · exact Option.some.inj (hopens.base_supply.symm.trans hcoherent.base_supply)
    · exact Option.some.inj (hopens.quote_supply.symm.trans hcoherent.quote_supply)
  · rcases mem_insert.mp hf with rfl | ⟨hf', -⟩ <;> rcases mem_insert.mp hg with rfl | ⟨hg', -⟩
    · rfl
    · exact absurd ⟨he.symm, hp.symm⟩ (hnone g hg')
    · exact absurd ⟨he, hp⟩ (hnone f hf')
    · exact h.oneFee f hf' g hg' he hp

theorem eraseFee {id : Nat} : TablesFit env { w with fees := w.fees.erase id } := by
  refine ⟨h.pairs, fun f hf => h.fees f (mem_erase.mp hf).1, fun f hf g hg => ?_, h.deals⟩
  exact h.oneFee f (mem_erase.mp hf).1 g (mem_erase.mp hg).1


theorem charged {row row' : FeeInfo} {kind : FeeKind} {fee : Asset} {trace : List Event}
    (hrow : row ∈ w.fees.rows) (hcharge : row.charge kind fee = .ok row') :
    TablesFit env { w with fees := w.fees.put row', trace := trace } := by
  obtain ⟨hid, hexc, hpair, -⟩ := charge_sameSettings hcharge
  refine h.putFee hrow rfl rfl rfl hid hexc hpair ?_
  rintro ⟨p, hp, hbase, hquote, hpoints⟩
  rw [charge_eq_ok hcharge]
  rcases kind with (_ | _) | _ <;> exact ⟨p, hp, hbase, hquote, hpoints⟩

theorem claims (hclaims : Claims env excAcc pairId w w') : TablesFit env w' := by
  cases hclaims with
  | none => exact h
  | @paid kind pair row zero feeAcc w1 hpair hrow hpos hsend hzero hname hissued =>
    obtain rfl := inlineTransfer_frame hsend
    obtain ⟨hmem, -, hid⟩ := of_feeOf hrow
    have hcoherent := h.pairs.coherent pair (find?_eq_some_iff.mp hpair).1
    have hsame := setAmount_sameSettings row zero kind
    refine h.putFee hmem rfl rfl rfl hsame.1 hsame.2.1 hsame.2.2.1 ?_
    rintro ⟨p, hp, hbase, hquote, hpoints⟩
    obtain rfl : p = pair := Option.some.inj (hp.symm.trans (hid ▸ hpair))
    have hsupply : env.supply (row.tokenOf p kind).1 (row.tokenOf p kind).2 = some zero.symbol :=
      hname ▸ hissued
    rcases kind with (_ | _) | _
    · exact ⟨p, hp, Option.some.inj (hsupply.symm.trans hcoherent.base_supply), hquote, hpoints⟩
    · exact ⟨p, hp, hbase, Option.some.inj (hsupply.symm.trans hcoherent.quote_supply), hpoints⟩
    · exact ⟨p, hp, hbase, hquote, fun _ => hissued⟩

theorem writes {L : Asset → Prop} (hwrites : Writes env L w w') : TablesFit env w' := by
  induction hwrites with
  | refl => exact h
  | tail _ hwrite ih =>
    cases hwrite with
    | book orders => exact ih.of_eq rfl rfl rfl
    | pay hpay =>
      cases hpay with
      | debit _ hrun =>
        obtain ⟨accounts, rfl⟩ := debit_frame hrun
        exact ih.of_eq rfl rfl rfl
      | send hrun =>
        obtain rfl := inlineTransfer_frame hrun
        exact ih.of_eq rfl rfl rfl
      | charge _ hrow _ hcharge => exact ih.charged (of_feeOf hrow).1 hcharge
      | filled | nextOrder => exact ih.of_eq rfl rfl rfl

theorem stakes (hframe : StakeFrame w w') : TablesFit env w' := by
  rcases hframe.fees with hfees | ⟨row, n, hrow, hfees⟩
  · exact h.of_eq hframe.pairs hfees hframe.deals
  · exact h.putFee hrow hframe.pairs hfees hframe.deals rfl rfl rfl id

end TablesFit

/-! ## Marks -/

namespace TablesFit

theorem marks {sum vol : Asset} (h : TablesFit env w) (hpair : pair ∈ w.pairs.rows)
    (hsum : sum.symbol = pair.quoteSym) (hmarks : Marks env block sum vol w pair.id w') :
    TablesFit env w' := by
  cases hmarks with
  | none _ => exact h
  | @added d _ hwindow _ _ _ =>
    exact ⟨h.pairs, h.fees, h.oneFee,
      forall_mem_put (h.deals d (mem_of_windowAt hwindow)) h.deals⟩
  | window _ _ _ _ hnew =>
    obtain ⟨hid, hsum', -⟩ := hnew
    refine ⟨h.pairs, h.fees, h.oneFee, forall_mem_insert ⟨pair, ?_, hsum' ▸ hsum⟩ h.deals⟩
    rw [hid]
    exact find?_eq_some_iff.mpr ⟨hpair, rfl⟩

theorem done {auth : List AccountName} {d : Done} {u : Unit} (h : TablesFit env w)
    (hrun : doneAction env block auth d w = .ok u w') : TablesFit env w' := by
  obtain ⟨value, sum, pair, -, hsum, hpair, hmarks⟩ := doneAction_marks hrun
  have hmem := mem_of_find?_eq_some hpair
  have htrades : pair.trades d.baseChain d.quantity.symbol d.quoteChain d.price.symbol = true := by
    have hfound := find?_some hpair
    exact hfound
  obtain ⟨-, -, hchain, hname⟩ : pair.baseChain = d.baseChain ∧
      pair.baseSym.name = d.quantity.symbol.name ∧ pair.quoteChain = d.quoteChain ∧
      pair.quoteSym.name = d.price.symbol.name := by
    simpa [TradingPair.trades] using htrades
  obtain ⟨hsumName, hsupply⟩ := toAsset_supply hsum
  refine h.marks hmem (Option.some.inj (hsupply.symm.trans ?_)) hmarks
  rw [hsumName, ← hname, ← hchain]
  exact (h.pairs.coherent pair hmem).quote_supply

theorem runLater {u : Unit} : ∀ {l : List Done} {w w' : World}, TablesFit env w →
    Exchange.runLater env block l w = .ok u w' → TablesFit env w'
  | [], w, w', h, hrun => by
    obtain ⟨-, rfl⟩ := pure_ok.mp hrun
    exact h
  | d :: l, w, w', h, hrun => by
    obtain ⟨v, w1, hd, hrun⟩ := bind_ok.mp hrun
    exact runLater (h.done hd) hrun

end TablesFit

/-! ## Orders -/

namespace OrdersFit

theorem of_subset (h : OrdersFit w) (hpairs : w'.pairs = w.pairs)
    (horders : ∀ o ∈ w'.orders.rows, o ∈ w.orders.rows) (hnext : w.nextOrder ≤ w'.nextOrder) :
    OrdersFit w' := by
  refine ⟨fun o ho => ?_, fun o ho => lt_of_lt_of_le (h.ids o (horders o ho)) hnext⟩
  obtain ⟨p, hp, hrest⟩ := h.fits o (horders o ho)
  exact ⟨p, hpairs ▸ hp, hrest⟩

theorem of_eq (h : OrdersFit w) (hpairs : w'.pairs = w.pairs) (horders : w'.orders = w.orders)
    (hnext : w'.nextOrder = w.nextOrder) : OrdersFit w' :=
  h.of_subset hpairs (fun _ ho => horders ▸ ho) (le_of_eq hnext.symm)

theorem created (h : OrdersFit w) (hnew : w.pairs.find? pair.id = none) :
    OrdersFit { w with pairs := w.pairs.insert pair } := by
  refine ⟨fun o ho => ?_, h.ids⟩
  obtain ⟨p, hp, hrest⟩ := h.fits o ho
  exact ⟨p, find?_insert_pair hnew hp, hrest⟩

end OrdersFit

theorem Writes.nextOrder_le {L : Asset → Prop} (h : Writes env L w w') :
    w.nextOrder ≤ w'.nextOrder := by
  induction h with
  | refl => exact le_refl _
  | tail _ hwrite ih =>
    refine le_trans ih ?_
    cases hwrite with
    | book orders => exact le_refl _
    | pay hpay =>
      cases hpay with
      | debit _ hrun =>
        obtain ⟨accounts, rfl⟩ := debit_frame hrun
        exact le_refl _
      | send hrun =>
        obtain rfl := inlineTransfer_frame hrun
        exact le_refl _
      | charge | filled => exact le_refl _
      | nextOrder => exact Nat.le_succ _

theorem OrdersFit.refunds (h : OrdersFit w) (hrefunds : Refunds env l w w') : OrdersFit w' := by
  have hwrites := hrefunds.writes (L := fun _ => True)
  exact h.of_subset hwrites.sameBook.pairs (fun o ho => (hrefunds.mem_orders.mp ho).1)
    hwrites.nextOrder_le

theorem Match.nextOrder_lt {i : Incoming} (m : Match env block i w w') :
    w.nextOrder < w'.nextOrder := by
  have hle : m.w1.nextOrder + 1 ≤ w'.nextOrder :=
    (m.settled (L := fun _ => True) fun _ _ _ _ _ _ _ => trivial).1.nextOrder_le
  have hnext := credit_nextOrder m.credits
  omega

theorem OrdersFit.matched {i : Incoming} (h : OrdersFit w) (m : Match env block i w w') :
    OrdersFit w' := by
  have hbooked := (m.spec (L := fun _ => True) fun _ _ _ _ _ _ _ => trivial).2
  have hpairs : w'.pairs = w.pairs := m.sameBook.pairs
  refine ⟨fun o' ho' => ?_, fun o' ho' => ?_⟩
  · rcases hbooked.origin m.base_symbol ho' with ⟨o, ho, rfl | ⟨x, rfl⟩⟩ | ⟨x, rfl⟩
    · obtain ⟨p, hp, hrest⟩ := h.fits o' ho
      exact ⟨p, hpairs ▸ hp, hrest⟩
    · obtain ⟨p, hp, hrest⟩ := h.fits o ho
      exact ⟨p, hpairs ▸ hp, hrest⟩
    · refine ⟨m.pair, ?_, rfl, convert_symbol m.price_eq, convert_range m.price_eq⟩
      rw [hpairs]
      show w.pairs.find? m.pair.id = some m.pair
      rw [m.pair_id]
      exact m.pair_eq
  · refine lt_of_le_of_lt ?_ m.nextOrder_lt
    rcases hbooked.origin m.base_symbol ho' with ⟨o, ho, rfl | ⟨x, rfl⟩⟩ | ⟨x, rfl⟩
    · exact le_of_lt (h.ids o' ho)
    · exact le_of_lt (h.ids o ho)
    · exact le_refl _

/-! ## Runs -/

theorem Ran.wellFormed (h : WellFormed env w) (hran : Ran env c w w') : WellFormed env w' := by
  obtain ⟨htables, horders⟩ := h
  cases hran with
  | registered _ _ _ => exact ⟨htables.of_eq rfl rfl rfl, horders.of_eq rfl rfl rfl⟩
  | created _ _ hnew hcoherent _ hnames htokens =>
    exact ⟨htables.created hnew (htables.pairs.insert hcoherent hnames htokens), horders.created hnew⟩
  | opened hpair hnew _ hopens => exact ⟨htables.opened hpair hnew hopens, horders.of_eq rfl rfl rfl⟩
  | closed _ _ _ _ _ hrefunds =>
    have hpaid := htables.writes (hrefunds.writes (L := fun _ => True))
    exact ⟨hpaid.eraseFee, (horders.refunds hrefunds).of_eq rfl rfl rfl⟩
  | cancelled _ _ hrefunds =>
    exact ⟨htables.writes (hrefunds.writes (L := fun _ => True)), horders.refunds hrefunds⟩
  | @configured row row' hrow hfees _ =>
    obtain ⟨hid, hexc, hpair, hbase, hquote, hpoints, hon⟩ := hfees
    refine ⟨htables.putFee (of_feeOf hrow).1 rfl rfl rfl hid hexc hpair ?_,
      horders.of_eq rfl rfl rfl⟩
    unfold World.FeeFits
    rw [hpair, hbase, hquote, hpoints, hon]
    exact id
  | pointed _ hrow hzero =>
    refine ⟨htables.putFee (of_feeOf hrow).1 rfl rfl rfl rfl rfl rfl ?_, horders.of_eq rfl rfl rfl⟩
    rintro ⟨p, hp, hbase, hquote, -⟩
    exact ⟨p, hp, hbase, hquote, fun _ => (tokenZero_symbol hzero).2⟩
  | claimed hbase hquote hpoints =>
    have hclaimed := ((htables.claims hbase).claims hquote).claims hpoints
    obtain ⟨held, fees, trace, rfl, -⟩ := hbase.frame hquote hpoints
    exact ⟨hclaimed, horders.of_eq rfl rfl rfl⟩
  | @marked pair window hpair _ _ hstarts =>
    have hcoherent := htables.pairs.coherent pair (find?_eq_some_iff.mp hpair).1
    exact ⟨⟨htables.pairs, htables.fees, htables.oneFee, forall_mem_insert ⟨pair, hpair,
      Option.some.inj (hstarts.sum_supply.symm.trans hcoherent.quote_supply)⟩ htables.deals⟩,
      horders.of_eq rfl rfl rfl⟩
  | done _ hrun =>
    refine ⟨htables.done hrun, ?_⟩
    obtain ⟨deals, rfl⟩ := doneAction_frame hrun
    exact horders.of_eq rfl rfl rfl
  | withdrawn _ _ _ hsend hsub =>
    obtain rfl := inlineTransfer_frame hsend
    obtain ⟨accounts, rfl⟩ := subBalance_frame hsub
    exact ⟨htables.of_eq rfl rfl rfl, horders.of_eq rfl rfl rfl⟩
  | deposited _ _ _ hcredit =>
    obtain ⟨accounts, rfl⟩ := credit_frame hcredit
    exact ⟨htables.of_eq rfl rfl rfl, horders.of_eq rfl rfl rfl⟩
  | @staked sender action pairId q value memo w' _ _ _ _ _ hrun =>
    have hframe := freeze4_frame hrun
    have hstart : TablesFit env (w.changeHeld mainChain q.symbol.name q.amount) :=
      htables.of_eq rfl rfl rfl
    exact ⟨hstart.stakes hframe, horders.of_eq hframe.pairs hframe.orders hframe.nextOrder⟩
  | unstaked _ hrun =>
    have hframe := unfreeze4_frame hrun
    exact ⟨htables.stakes hframe, horders.of_eq hframe.pairs hframe.orders hframe.nextOrder⟩
  | @matched i w0 w1 w' hcomes hmatch hdone =>
    obtain ⟨m⟩ := hmatch
    obtain ⟨held, rfl⟩ := hcomes.held
    have htables0 : TablesFit env { w with held := held } := htables.of_eq rfl rfl rfl
    have horders0 : OrdersFit { w with held := held } := horders.of_eq rfl rfl rfl
    have hcredited : TablesFit env m.w1 := by
      obtain ⟨accounts, heq⟩ := credit_frame m.credits
      rw [heq]
      exact htables0.of_eq rfl rfl rfl
    have hpaid := hcredited.writes
      (m.spec (L := fun _ => True) fun _ _ _ _ _ _ _ => trivial).1
    have hnone : TablesFit env { w1 with later := [] } := hpaid.of_eq rfl rfl rfl
    have horders1 := horders0.matched m
    refine ⟨hnone.runLater hdone, ?_⟩
    obtain ⟨deals, rfl⟩ := runLater_frame hdone
    exact horders1.of_eq rfl rfl rfl

/-- Pairs stay, and orders are there that were, unless one comes in. -/
def BookKept (env : Env) (c : Call) (w w' : World) : Prop :=
  (∀ p ∈ w.pairs.rows, p ∈ w'.pairs.rows) ∧
    ((∀ o ∈ w'.orders.rows, o ∈ w.orders.rows) ∨ ∃ i held w1, c.action.incoming = some i ∧
      Nonempty (Match env c.block i { w with held := held } w1) ∧ w'.orders = w1.orders)

theorem BookKept.of_eq (hpairs : w'.pairs = w.pairs) (horders : w'.orders = w.orders) :
    BookKept env c w w' :=
  ⟨fun _ hp => hpairs ▸ hp, .inl fun _ ho => horders ▸ ho⟩

theorem BookKept.refunds (h : Refunds env l w w') : BookKept env c w w' := by
  have hpairs := (h.writes (L := fun _ => True)).sameBook.pairs
  exact ⟨fun p hp => hpairs ▸ hp, .inl fun o ho => (h.mem_orders.mp ho).1⟩

/-- **The pairs and orders after a call.** -/
theorem Ran.book (hran : Ran env c w w') : BookKept env c w w' := by
  cases hran with
  | registered | opened | configured | pointed | marked => exact .of_eq rfl rfl
  | created _ _ hnew _ _ _ _ =>
    refine ⟨fun p hp => ?_, .inl fun o ho => ho⟩
    exact mem_insert.mpr (.inr ⟨hp, find?_eq_none_iff.mp hnew p hp⟩)
  | closed _ _ _ _ _ hrefunds =>
    obtain ⟨hpairs, horders⟩ := BookKept.refunds (c := c) hrefunds
    exact ⟨hpairs, horders.imp id id⟩
  | cancelled _ _ hrefunds => exact .refunds hrefunds
  | claimed hbase hquote hpoints =>
    obtain ⟨held, fees, trace, rfl, -⟩ := hbase.frame hquote hpoints
    exact .of_eq rfl rfl
  | done _ hrun =>
    obtain ⟨deals, rfl⟩ := doneAction_frame hrun
    exact .of_eq rfl rfl
  | withdrawn _ _ _ hsend hsub =>
    obtain rfl := inlineTransfer_frame hsend
    obtain ⟨accounts, rfl⟩ := subBalance_frame hsub
    exact .of_eq rfl rfl
  | deposited _ _ _ hcredit =>
    obtain ⟨accounts, rfl⟩ := credit_frame hcredit
    exact .of_eq rfl rfl
  | staked _ _ _ _ _ hrun =>
    have hframe := freeze4_frame hrun
    exact .of_eq hframe.pairs hframe.orders
  | unstaked _ hrun =>
    have hframe := unfreeze4_frame hrun
    exact .of_eq hframe.pairs hframe.orders
  | matched hcomes hmatch hdone =>
    have hincoming := hcomes.incoming
    obtain ⟨held, rfl⟩ := hcomes.held
    obtain ⟨deals, rfl⟩ := runLater_frame hdone
    refine ⟨fun p hp => ?_, .inr ⟨_, held, _, hincoming, hmatch, rfl⟩⟩
    obtain ⟨m⟩ := hmatch
    exact m.sameBook.pairs ▸ hp

theorem WellFormed.empty : WellFormed env {} := by
  have hnone : ∀ {α κ : Type} [LinearOrder κ] [Keyed α κ] {a : α},
      a ∉ (KeyedTable.empty : KeyedTable α).rows := fun ha => absurd ha (by simp [KeyedTable.empty])
  exact ⟨⟨⟨fun _ h => absurd h hnone, fun _ h => absurd h hnone, fun _ h => absurd h hnone⟩,
    fun _ h => absurd h hnone, fun _ h => absurd h hnone, fun _ h => absurd h hnone⟩,
    ⟨fun _ h => absurd h hnone, fun _ h => absurd h hnone⟩⟩

/-- **Runs with well-formed tables**: what calls keep on well-formed tables holds after every run. -/
theorem WellFormed.induction {C : World → Call → Prop} {I : World → Prop}
    (hstep : ∀ {w w' : World} {c : Call}, w.later = [] → WellFormed env w → I w → C w c →
      Ran env c w w' → I w') (cs : List Call) (h : I {}) (halong : Along env C cs {}) :
    (after env cs {}).later = [] ∧ WellFormed env (after env cs {}) ∧ I (after env cs {}) :=
  Rollback.after_induction (C := C) (I := fun w => w.later = [] ∧ WellFormed env w ∧ I w)
    (fun {w w' c} hw hc hrun => by
      obtain ⟨hlater, hwell, hI⟩ := hw
      obtain ⟨hran, hlater'⟩ := Ran.of_run hlater (Call.step_eq_ok_iff.mp hrun)
      exact ⟨hlater', hran.wellFormed hwell, hstep hlater hwell hI hc hran⟩)
    cs {} ⟨rfl, .empty, h⟩ halong

/-- **The tables are well formed after every history** of calls, whoever makes them and whichever
fail, and no action is left waiting. -/
theorem wellFormed_run (env : Env) (cs : List Call) :
    (after env cs {}).later = [] ∧ WellFormed env (after env cs {}) := by
  refine Rollback.after_invariant (I := fun w => w.later = [] ∧ WellFormed env w)
    (fun {w w' c} hw hrun => ?_) cs {} ⟨rfl, .empty⟩
  obtain ⟨hran, hlater'⟩ := Ran.of_run hw.1 (Call.step_eq_ok_iff.mp hrun)
  exact ⟨hlater', hran.wellFormed hw.2⟩

end Forceio.Exchange
