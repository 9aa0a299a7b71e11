import Forceio.Exchange.Actions

/-!
# What the exchange contract does to its tables

`Pay` lists the writes of a fill, each with what the code has checked before it, so that what every
write keeps, every fill keeps.

Result:
* `Pays.sameBook`: fills leave everything but balances, fees and the tokens of the escrow alone; the
  loops write the order book.
-/

namespace Forceio.Exchange

open Forceio.Lib Forceio.Eosiolib Exec KeyedTable List
open Forceio.Chain (AccountName)
open World

variable {env : Env} {w w' : World} {L : Asset → Prop}
variable {u : Unit} {a a' quantity value deal cumulated : Asset} {s sym : SymbolType}
  {chain : ChainName} {owner payer excAcc receiver sender : AccountName} {block feeType : Nat}
  {row : FeeInfo} {leg : Leg} {t : Taker} {maker : Order} {fullMatch : Bool}

/-! ## Running the contract's code -/

section Running

variable {α β : Type} {b : β}
variable {row' : FeeInfo}
variable {x : Except ContractError α}
variable {pairId : Nat}

theorem get_bind_ok {f : World → ExchangeM β} :
    (get >>= f) w = .ok b w' ↔ f w w = .ok b w' := Iff.rfl

variable {f : PUnit → ExchangeM β}

theorem set_bind_ok {w1 : World} : (set w1 >>= f) w = .ok b w' ↔ f ⟨⟩ w1 = .ok b w' := Iff.rfl

theorem modify_bind_ok {g : World → World} :
    (modify g >>= f) w = .ok b w' ↔ f ⟨⟩ (g w) = .ok b w' := Iff.rfl

variable {message : String}

theorem assert_ok {cond : Prop} [Decidable cond] :
    assertThat cond message w = .ok u w' ↔ cond ∧ w' = w := by
  unfold assertThat
  rw [lift_ok, eosioAssert_eq_ok]

theorem assert_bind_ok {cond : Prop} [Decidable cond] {f : Unit → ExchangeM β} :
    (assertThat cond message >>= f) w = .ok b w' ↔ cond ∧ f () w = .ok b w' :=
  check_bind_ok assert_ok

theorem ge_bind_ok {f : Unit → ExchangeM β}
    (h : (lift (a.ge a') >>= fun enough => assertThat (enough = true) message >>= f) w = .ok b w') :
    a.symbol = a'.symbol ∧ a'.amount ≤ a.amount ∧ f () w = .ok b w' := by
  obtain ⟨enough, henough, h⟩ := lift_bind_ok.mp h
  obtain ⟨hsymbol, henough⟩ := Asset.compare_eq_ok_iff.mp henough
  obtain ⟨rfl, h⟩ := assert_bind_ok.mp h
  exact ⟨hsymbol, of_decide_eq_true henough.symm, h⟩

theorem auth_bind_ok {auth : List AccountName} {account : AccountName} {f : Unit → ExchangeM β}
    (h : (requireAuth auth account >>= f) w = .ok b w') : account ∈ auth ∧ f () w = .ok b w' := by
  obtain ⟨_, w1, hauth, h⟩ := bind_ok.mp h
  unfold requireAuth at hauth
  split at hauth
  · next hmem =>
    cases hauth
    exact ⟨hmem, h⟩
  · cases hauth

theorem note_bind_ok {e : Event} :
    (note e >>= f) w = .ok b w' ↔ f ⟨⟩ { w with trace := e :: w.trace } = .ok b w' := Iff.rfl

theorem pure_ok {a : β} : (pure a : ExchangeM β) w = .ok b w' ↔ a = b ∧ w = w' := by
  show EStateM.Result.ok a w = EStateM.Result.ok b w' ↔ _
  rw [EStateM.Result.ok.injEq]

theorem throw_ne_ok {e : ContractError} : (throw e : ExchangeM β) w ≠ .ok b w' := by
  intro h
  cases h

theorem ite_bind_ok {c : Prop} [Decidable c] {m : ExchangeM Unit} {f : Unit → ExchangeM β}
    (h : (if c then m >>= f else f ()) w = .ok b w') :
    ∃ w1, (if c then m w = .ok () w1 else w1 = w) ∧ f () w1 = .ok b w' := by
  split at h
  · next hc =>
    obtain ⟨_, w1, hm, h⟩ := bind_ok.mp h
    exact ⟨w1, by rwa [if_pos hc], h⟩
  · next hc => exact ⟨w, by rw [if_neg hc], h⟩

end Running

/-! ## Tokens -/

theorem convert_made (h : convert s a = .ok a') : ∃ x, Asset.make x s = .ok a' := by
  unfold convert at h
  split at h
  · obtain ⟨f, -, hmake⟩ := bind_eq_ok.mp h
    exact ⟨_, hmake⟩
  · obtain ⟨f, -, h⟩ := bind_eq_ok.mp h
    obtain ⟨x, -, hmake⟩ := bind_eq_ok.mp h
    exact ⟨x, hmake⟩

theorem convert_symbol (h : convert s a = .ok a') : a'.symbol = s := by
  obtain ⟨x, hmake⟩ := convert_made h
  rw [(Asset.make_eq_ok_iff.mp hmake).2.2]

theorem convert_range (h : convert s a = .ok a') : a'.isAmountWithinRange := by
  obtain ⟨x, hmake⟩ := convert_made h
  obtain ⟨hrange, -, rfl⟩ := Asset.make_eq_ok_iff.mp hmake
  exact hrange

theorem convert_same (hs : s.precision = a.symbol.precision) (hlow : -2 ^ 63 ≤ a.amount)
    (hhigh : a.amount < 2 ^ 63) (h : convert s a = .ok a') : a' = ⟨a.amount, s⟩ := by
  unfold convert at h
  rw [if_pos (le_of_eq hs.symm), hs] at h
  obtain ⟨f, hf, hmake⟩ := bind_eq_ok.mp h
  unfold int64Div at hf
  split at hf
  · simp at hf
  · next hzero =>
    rw [(Asset.make_eq_ok_iff.mp hmake).2.2, ← Except.ok.inj hf, Int.tdiv_self hzero, mul_one,
      int64_of_range hlow hhigh]

theorem toAsset_supply (h : toAsset env chain sym a = .ok a') :
    a'.symbol.name = sym.name ∧ env.supply chain a'.symbol.name = some a'.symbol := by
  unfold toAsset at h
  split at h
  · simp at h
  · next s hs =>
    rw [convert_symbol h, env.supply_name hs]
    exact ⟨rfl, hs⟩

theorem tokenZero_symbol (h : tokenZero env chain sym = .ok a) :
    a.symbol.name = sym.name ∧ env.supply chain a.symbol.name = some a.symbol := by
  obtain ⟨z, -, h⟩ := bind_eq_ok.mp h
  exact toAsset_supply h

theorem tokenZero_supply {chain' : ChainName} {sym' : SymbolType} (h : tokenZero env chain sym = .ok a)
    (hchain : chain' = chain) (hname : sym'.name = sym.name) :
    env.supply chain' sym'.name = some a.symbol := by
  obtain ⟨hsymbol, hsupply⟩ := tokenZero_symbol h
  rw [hchain, hname, ← hsymbol]
  exact hsupply

/-! ## Writes -/

/-- A token that a contract keeps a supply of, with its symbol. -/
def Env.Issued (env : Env) (chain : ChainName) (a : Asset) : Prop :=
  env.supply chain a.symbol.name = some a.symbol

/-- A token of the main chain, or of a pair. -/
def World.Trades (env : Env) (w : World) (chain : ChainName) (a : Asset) : Prop :=
  env.Issued chain a ∧ (chain = mainChain ∨
    ∃ p ∈ w.pairs.rows, ∃ leg, p.chainOf leg = chain ∧ (p.symOf leg).name = a.symbol.name)

/-- What `charge_fee` has computed when it writes a fee; `L` is what is known of the amounts it is
called with. -/
inductive Charged (env : Env) (L : Asset → Prop) (deals : KeyedTable DealInfo) (pair : TradingPair)
    (row : FeeInfo) : Leg → Asset → FeeKind → Asset → Prop
  | token {leg : Leg} {quantity fee : Asset} (hquantity : L quantity)
      (hfee : calcfee quantity row.rate = .ok fee)
      (hsupply : env.supply (pair.chainOf leg) (pair.symOf leg).name = some quantity.symbol) :
      Charged env L deals pair row leg quantity
        (.token (if quantity.symbol.name = pair.baseSym.name then .base else .quote)) fee
  | points {leg : Leg} {quantity fee points pointsFee price : Asset} {value : Asset}
      (hquantity : L quantity) (hfee : calcfee quantity row.rate = .ok fee) (hne : fee.amount ≠ 0)
      (hsupply : env.supply (pair.chainOf leg) (pair.symOf leg).name = some quantity.symbol)
      (henabled : row.pointsEnabled = true) (hname : points.symbol.name = row.points.symbol.name)
      (hprice : 0 < price.amount) (hmark : ∃ d ∈ deals.rows, d.sum.symbol = price.symbol)
      (hvalue : (do (← fee.mul price.amount).div (precision price.symbol.precision)) = .ok value)
      (hconv : toAsset env mainChain points.symbol value = .ok pointsFee)
      (hle : pointsFee.amount ≤ points.amount) :
      Charged env L deals pair row leg points .points pointsFee

/-- The writes of a fill: balances, fees, the tokens of the escrow, and what is noted. -/
inductive Pay (env : Env) (L : Asset → Prop) : World → World → Prop
  | debit {w w' : World} {owner : AccountName} {chain : ChainName} {value : Asset}
      (htrades : w.Trades env chain value) (h : debit owner chain value w = .ok ⟨⟩ w') :
      Pay env L w w'
  | send {w w' : World} {receiver : AccountName} {chain : ChainName} {quantity : Asset}
      (h : inlineTransfer env receiver chain quantity w = .ok ⟨⟩ w') : Pay env L w w'
  | charge {w : World} {pair : TradingPair} {row row' : FeeInfo} {leg : Leg} {quantity fee : Asset}
      {kind : FeeKind} (hpair : w.pairs.find? row.pairId = some pair)
      (hrow : w.feeOf row.excAcc row.pairId = some row)
      (hcharged : Charged env L w.deals pair row leg quantity kind fee)
      (h : row.charge kind fee = .ok row') :
      Pay env L w { w with
        fees := w.fees.put row'
        trace := .charged row.excAcc row.pairId leg quantity kind fee :: w.trace }
  | filled {w : World} {pair : TradingPair} {price deal base quote value : Asset} {d : Done}
      (orderId : Nat) (hpair : w.pairs.find? pair.id = some pair) (hdeal : deal.symbol = pair.base)
      (hprice : price.symbol = pair.quote)
      (hbase : toAsset env pair.baseChain pair.baseSym deal = .ok base)
      (hvalue : dealValue price deal = .ok value)
      (hquote : toAsset env pair.quoteChain pair.quoteSym value = .ok quote)
      (hd : d.pairId = pair.id ∧ d.baseChain = pair.baseChain ∧ d.quoteChain = pair.quoteChain ∧
        d.quantity = base ∧ toAsset env pair.quoteChain pair.quoteSym price = .ok d.price) :
      Pay env L w { w with
        later := w.later ++ [d]
        trace := .filled pair.id orderId base quote :: w.trace }
  | nextOrder {w : World} : Pay env L w { w with nextOrder := w.nextOrder + 1 }

/-- Sequences of them. -/
abbrev Pays (env : Env) (L : Asset → Prop) := Relation.ReflTransGen (Pay env L)

theorem getBalance_name {points : Asset} (h : getBalance env w owner sym = .ok points) :
    points.symbol.name = sym.name := by
  unfold getBalance at h
  split at h
  · exact (toAsset_supply h).1
  · next row hrow =>
    obtain rfl := Except.ok.inj h
    have hkey : Keyed.key row = toLex (owner, sym.name) := (find?_eq_some_iff.mp hrow).2
    exact congrArg (fun k => (ofLex k).2) hkey

theorem mem_of_windowAt {d : DealInfo} (h : w.windowAt pairId block = some d) :
    d ∈ w.deals.rows := by
  refine (mem_sortedBy DealInfo.byPairAndBlockHeight).mp ?_
  unfold windowAt at h
  split at h
  · exact mem_of_getLast? h
  · next hfind =>
    obtain rfl := Option.some.inj h
    exact mem_of_find?_eq_some hfind

theorem getAvgPrice_mark {baseChain quoteChain : ChainName} {baseSym quoteSym : SymbolType}
    {price : Asset} (hpos : price.amount ≠ 0)
    (h : getAvgPrice w block baseChain baseSym quoteChain quoteSym = .ok price) :
    ∃ d ∈ w.deals.rows, d.sum.symbol = price.symbol := by
  obtain ⟨zero, hzero, h⟩ := bind_eq_ok.mp h
  have absurd_zero : (pure zero : Except ContractError Asset) ≠ .ok price := by
    intro h'
    obtain rfl := pure_eq_ok.mp h'
    exact hpos (by rw [(Asset.make_eq_ok_iff.mp hzero).2.2])
  split at h
  · exact absurd h absurd_zero
  · split at h
    · split at h
      · exact absurd h absurd_zero
      · next d hwindow =>
        split at h
        · obtain ⟨product, hmul, h⟩ := bind_eq_ok.mp h
          refine ⟨d, mem_of_windowAt hwindow, ?_⟩
          rw [(Asset.div_eq_ok_iff.mp h).2.2, (Asset.mul_eq_ok_iff.mp hmul).2]
        · exact absurd h absurd_zero
    · exact absurd h absurd_zero

variable {fee : Asset}

theorem pointsAsFee_eq_some {pair : TradingPair} {baseOrQuote : Bool} {points pointsFee : Asset}
    (h : pointsAsFee env w block pair row payer baseOrQuote fee feeType =
      .ok (some (points, pointsFee))) :
    feeType = 2 ∧ row.pointsEnabled = true ∧ points.symbol.name = row.points.symbol.name ∧
      ∃ price value : Asset, 0 < price.amount ∧ (∃ d ∈ w.deals.rows, d.sum.symbol = price.symbol) ∧
        (do (← fee.mul price.amount).div (precision price.symbol.precision)) = .ok value ∧
        toAsset env mainChain points.symbol value = .ok pointsFee ∧
        pointsFee.amount ≤ points.amount := by
  unfold pointsAsFee at h
  split at h
  · next htype =>
    obtain ⟨balance, hbalance, h⟩ := bind_eq_ok.mp h
    obtain ⟨price, hmark, h⟩ := bind_eq_ok.mp h
    split at h
    · next hpos =>
      obtain ⟨product, hproduct, h⟩ := bind_eq_ok.mp h
      obtain ⟨value, hvalue, h⟩ := bind_eq_ok.mp h
      obtain ⟨converted, hconv, h⟩ := bind_eq_ok.mp h
      obtain ⟨enough, henough, h⟩ := bind_eq_ok.mp h
      obtain ⟨-, henough⟩ := Asset.compare_eq_ok_iff.mp henough
      cases enough with
      | false => exact absurd (pure_eq_ok.mp h) (by simp)
      | true =>
        obtain ⟨rfl, rfl⟩ := Prod.mk.inj (Option.some.inj (pure_eq_ok.mp h))
        refine ⟨htype.1, htype.2, getBalance_name hbalance, price, value, hpos.2,
          getAvgPrice_mark (ne_of_gt hpos.2) hmark, bind_eq_ok.mpr ⟨product, hproduct, hvalue⟩, hconv,
          ?_⟩
        exact of_decide_eq_true henough.symm
    · exact absurd (pure_eq_ok.mp h) (by simp)
  · exact absurd (pure_eq_ok.mp h) (by simp)

theorem of_feeOf (h : w.feeOf excAcc pairId = some row) :
    row ∈ w.fees.rows ∧ row.excAcc = excAcc ∧ row.pairId = pairId :=
  ⟨mem_of_find?_eq_some h, by simpa using find?_some h⟩

/-- The cases of `charge_fee`: nothing to charge, a fee in points, a fee in the token. -/
theorem chargeFee_cases {n : Nat} (hL : L quantity)
    (hsupply : ∀ pair, w.pairs.find? pairId = some pair →
      env.supply (pair.chainOf leg) (pair.symOf leg).name = some quantity.symbol)
    (h : chargeFee env block leg pairId payer quantity excAcc feeType w = .ok (n, fee) w') :
    (n = 1 ∧ fee.amount = 0 ∧ fee.symbol = quantity.symbol ∧ w' = w) ∨
      ∃ pair row row' w1 taken kind, w.pairs.find? pairId = some pair ∧ pair.frozen = 0 ∧
        w.feeOf excAcc pairId = some row ∧ Charged env L w.deals pair row leg taken kind fee ∧
        row.charge kind fee = .ok row' ∧
        ((n = 2 ∧ kind = .points ∧ feeType = 2 ∧ Exchange.debit payer mainChain fee w = .ok ⟨⟩ w1 ∧
            env.Issued mainChain fee) ∨
          (n = 1 ∧ w1 = w ∧ taken = quantity ∧ fee.symbol = quantity.symbol ∧ kind = .token
            (if quantity.symbol.name = pair.baseSym.name then .base else .quote))) ∧
        w' = { w1 with
          fees := w1.fees.put row'
          trace := .charged excAcc pairId leg taken kind fee :: w1.trace } := by
  unfold chargeFee at h
  rw [get_bind_ok] at h
  cases hpair : w.pairs.find? pairId with
  | none => rw [hpair] at h; exact absurd h throw_ne_ok
  | some pair =>
    rw [hpair] at h
    obtain ⟨hfrozen, h⟩ := assert_bind_ok.mp h
    cases hrow : w.feeOf excAcc pairId with
    | none => rw [hrow] at h; exact absurd h throw_ne_ok
    | some row =>
      rw [hrow] at h
      obtain ⟨fee0, hfee, h⟩ := lift_bind_ok.mp h
      have hsym : fee0.symbol = quantity.symbol := by
        obtain ⟨product, hmul, hrest⟩ := bind_eq_ok.mp hfee
        obtain ⟨quotient, hdiv, hrest⟩ := bind_eq_ok.mp hrest
        have hp := (Asset.mul_eq_ok_iff.mp hmul).2
        have hq := (Asset.div_eq_ok_iff.mp hdiv).2.2
        rw [pure_eq_ok.mp hrest, hq, hp]
        split <;> rfl
      split at h
      · next hzero =>
        obtain ⟨hpair', rfl⟩ := pure_ok.mp h
        obtain ⟨rfl, rfl⟩ := Prod.mk.inj hpair'
        exact .inl ⟨rfl, hzero, hsym, rfl⟩
      · next hzero =>
        refine .inr ?_
        obtain ⟨inPoints, hpoints, h⟩ := lift_bind_ok.mp h
        cases inPoints with
        | none =>
          obtain ⟨row', hcharge, h⟩ := lift_bind_ok.mp h
          rw [modify_bind_ok, note_bind_ok, pure_ok] at h
          obtain ⟨hn, hw⟩ := h
          obtain ⟨rfl, rfl⟩ := Prod.mk.inj hn
          simp only [decide_eq_true_eq] at hcharge hw
          exact ⟨pair, row, row', w, quantity, _, rfl, hfrozen, rfl,
            .token hL hfee (hsupply pair hpair), hcharge, .inr ⟨rfl, rfl, rfl, hsym, rfl⟩, hw.symm⟩
        | some both =>
          obtain ⟨points, pointsFee⟩ := both
          obtain ⟨u, w1, hdebit, h⟩ := bind_ok.mp h
          obtain ⟨row', hcharge, h⟩ := lift_bind_ok.mp h
          rw [modify_bind_ok, note_bind_ok, pure_ok] at h
          obtain ⟨hn, hw⟩ := h
          obtain ⟨rfl, rfl⟩ := Prod.mk.inj hn
          obtain ⟨htype, henabled, hname, price, value, hprice, hmark, hvalue, hconv, hle⟩ :=
            pointsAsFee_eq_some hpoints
          exact ⟨pair, row, row', w1, points, .points, rfl, hfrozen, rfl,
            .points hL hfee hzero (hsupply pair hpair) henabled hname hprice hmark hvalue hconv hle,
            hcharge,
            .inl ⟨rfl, rfl, htype, hdebit, (toAsset_supply hconv).2⟩, hw.symm⟩

/-! ## Balances -/

/-- A recorded balance changed by an amount. -/
def AccountInfo.plus (row : AccountInfo) (x : Int) : AccountInfo :=
  { row with balance := ⟨row.balance.amount + x, row.balance.symbol⟩ }

/-- **`sub_balance`**: the row of the owner is lowered, or erased when nothing is left. -/
theorem subBalance_cases (h : subBalance owner value w = .ok u w') :
    ∃ row, w.accountOf owner value.symbol.name = some row ∧ value.amount ≤ row.balance.amount ∧
      ((row.balance.amount = value.amount ∧
          w' = { w with accounts := w.accounts.erase (Keyed.key row) }) ∨
        (row.balance.amount ≠ value.amount ∧ value.symbol = row.balance.symbol ∧
          w' = { w with accounts := w.accounts.put (row.plus (-value.amount)) })) := by
  unfold subBalance at h
  rw [get_bind_ok] at h
  cases hrow : w.accountOf owner value.symbol.name with
  | none => rw [hrow] at h; exact absurd h throw_ne_ok
  | some row =>
    rw [hrow] at h
    obtain ⟨hle, h⟩ := assert_bind_ok.mp h
    refine ⟨row, rfl, hle, ?_⟩
    split at h
    · next heq =>
      cases h
      exact .inl ⟨heq, rfl⟩
    · next hne =>
      obtain ⟨balance, hsub, h⟩ := lift_bind_ok.mp h
      obtain ⟨hsym, -, rfl⟩ := Asset.sub_eq_ok_iff.mp hsub
      cases h
      exact .inr ⟨hne, hsym, rfl⟩

/-- **`add_balance`**: a new row, or the row of the owner raised. -/
theorem addBalance_cases (h : addBalance owner value w = .ok u w') :
    (w.accountOf owner value.symbol.name = none ∧
        w' = { w with accounts := w.accounts.insert ⟨owner, value⟩ }) ∨
      ∃ row, w.accountOf owner value.symbol.name = some row ∧ value.symbol = row.balance.symbol ∧
        w' = { w with accounts := w.accounts.put (row.plus value.amount) } := by
  unfold addBalance at h
  rw [get_bind_ok] at h
  cases hrow : w.accountOf owner value.symbol.name with
  | none =>
    rw [hrow] at h
    cases h
    exact .inl ⟨rfl, rfl⟩
  | some row =>
    rw [hrow] at h
    obtain ⟨balance, hadd, h⟩ := lift_bind_ok.mp h
    obtain ⟨hsym, -, rfl⟩ := Asset.add_eq_ok_iff.mp hadd
    cases h
    exact .inr ⟨row, rfl, hsym, rfl⟩

theorem bind_note_ok {m : ExchangeM Unit} {e : Event} : (m >>= fun _ => note e) w = .ok u w' ↔
    ∃ w1, m w = .ok () w1 ∧ w' = { w1 with trace := e :: w1.trace } := by
  rw [bind_ok]
  constructor
  · rintro ⟨v, w1, hm, hnote⟩
    cases hnote
    exact ⟨w1, hm, rfl⟩
  · rintro ⟨w1, hm, rfl⟩
    exact ⟨(), w1, hm, rfl⟩

theorem debit_ok_iff : debit owner chain value w = .ok u w' ↔
    ∃ w1, subBalance owner value w = .ok () w1 ∧
      w' = { w1 with trace := .debited owner chain value :: w1.trace } :=
  bind_note_ok

theorem credit_ok_iff : credit owner chain value w = .ok u w' ↔
    ∃ w1, addBalance owner value w = .ok () w1 ∧
      w' = { w1 with trace := .credited owner chain value :: w1.trace } :=
  bind_note_ok

/-! What they leave alone. -/

theorem subBalance_frame (h : subBalance owner value w = .ok u w') :
    ∃ accounts, w' = { w with accounts := accounts } := by
  obtain ⟨row, -, -, ⟨-, rfl⟩ | ⟨-, -, rfl⟩⟩ := subBalance_cases h
  · exact ⟨_, rfl⟩
  · exact ⟨_, rfl⟩

theorem addBalance_frame (h : addBalance owner value w = .ok u w') :
    ∃ accounts, w' = { w with accounts := accounts } := by
  obtain ⟨-, rfl⟩ | ⟨row, -, -, rfl⟩ := addBalance_cases h
  · exact ⟨_, rfl⟩
  · exact ⟨_, rfl⟩

theorem debit_frame (h : debit owner chain value w = .ok u w') : ∃ accounts, w' = { w with
      accounts := accounts
      trace := .debited owner chain value :: w.trace } := by
  obtain ⟨w1, hsub, rfl⟩ := debit_ok_iff.mp h
  obtain ⟨accounts, rfl⟩ := subBalance_frame hsub
  exact ⟨accounts, rfl⟩

theorem credit_frame (h : credit owner chain value w = .ok u w') : ∃ accounts, w' = { w with
      accounts := accounts
      trace := .credited owner chain value :: w.trace } := by
  obtain ⟨w1, hadd, rfl⟩ := credit_ok_iff.mp h
  obtain ⟨accounts, rfl⟩ := addBalance_frame hadd
  exact ⟨accounts, rfl⟩

/-- **An inline transfer**: an amount leaves the escrow. -/
theorem inlineTransfer_frame (h : inlineTransfer env receiver chain quantity w = .ok u w') :
    w' = w.changeHeld chain quantity.symbol.name (-quantity.amount) := by
  obtain ⟨_, -, h⟩ := lift_bind_ok.mp h
  obtain ⟨_, -, h⟩ := lift_bind_ok.mp h
  cases h
  rfl

theorem checkTransfer_ok (h : checkTransfer env sender receiver chain quantity = .ok ()) :
    0 < quantity.amount ∧ env.Issued chain quantity ∧ quantity.isAmountWithinRange := by
  obtain ⟨-, h⟩ := assert_bind_eq_ok.mp h
  obtain ⟨-, h⟩ := assert_bind_eq_ok.mp h
  obtain ⟨-, h⟩ := assert_bind_eq_ok.mp h
  obtain ⟨hvalid, h⟩ := assert_bind_eq_ok.mp h
  obtain ⟨hpos, h⟩ := assert_bind_eq_ok.mp h
  have hissued := eosioAssert_eq_ok.mp h
  exact ⟨hpos, hissued, hvalid.1⟩

/-- A quantity that a token contract has transferred is in the units of its token. -/
theorem toAsset_transferred (hcheck : checkTransfer env sender receiver chain quantity = .ok ())
    (hname : sym.name = quantity.symbol.name) (h : toAsset env chain sym quantity = .ok value) :
    value = quantity := by
  obtain ⟨-, hissued, hlow, hhigh⟩ := checkTransfer_ok hcheck
  unfold toAsset at h
  rw [hname, hissued] at h
  unfold Asset.maxAmount at hlow hhigh
  exact convert_same rfl (by omega) (by omega) h

/-! ## What a fill leaves alone -/

/-- The settings of a fee row. -/
def FeeInfo.SameSettings (f f' : FeeInfo) : Prop :=
  f'.id = f.id ∧ f'.excAcc = f.excAcc ∧ f'.pairId = f.pairId ∧ f'.frozen = f.frozen ∧
    f'.rate = f.rate ∧ f'.pointsEnabled = f.pointsEnabled ∧ f'.minQty = f.minQty

theorem setAmount_sameSettings (row : FeeInfo) (a : Asset) (kind : FeeKind) :
    row.SameSettings (row.setAmount a kind) := by
  rcases kind with (_ | _) | _
  · exact ⟨rfl, rfl, rfl, rfl, rfl, rfl, rfl⟩
  · exact ⟨rfl, rfl, rfl, rfl, rfl, rfl, rfl⟩
  · exact ⟨rfl, rfl, rfl, rfl, rfl, rfl, rfl⟩

theorem charge_eq_ok {kind : FeeKind} (h : row.charge kind fee = .ok row') :
    row' = row.setAmount
      { row.amountOf kind with amount := (row.amountOf kind).amount + fee.amount } kind := by
  rcases kind with (_ | _) | _
  all_goals
    obtain ⟨sum, hsum, h⟩ := bind_eq_ok.mp h
    rw [pure_eq_ok.mp h, (Asset.add_eq_ok_iff.mp hsum).2.2]
    rfl

theorem charge_sameSettings {kind : FeeKind}
    (h : row.charge kind fee = .ok row') : row.SameSettings row' :=
  charge_eq_ok h ▸ setAmount_sameSettings _ _ _

theorem feeOf_put (hrow : row ∈ w.fees.rows) (hid : row'.id = row.id)
    (hexc : row'.excAcc = row.excAcc) (hpair : row'.pairId = row.pairId) (excAcc : AccountName)
    (pairId : Nat) (hfees : w'.fees = w.fees.put row') :
    w'.feeOf excAcc pairId =
      (w.feeOf excAcc pairId).map fun f => if f.id = row.id then row' else f := by
  unfold feeOf
  rw [hfees, find?_rows_put, ← hid]
  · rfl
  · intro f hf hkey
    obtain rfl : f = row := eq_of_key hf hrow (hkey.trans hid)
    simp only [hexc, hpair]

/-- What the payments of a call leave alone. -/
structure SameBook (w w' : World) : Prop where
  exchanges : w'.exchanges = w.exchanges
  pairs : w'.pairs = w.pairs
  orders : w'.orders = w.orders
  deals : w'.deals = w.deals
  freezed : w'.freezed = w.freezed
  noFee : ∀ {e p}, w.feeOf e p = none → w'.feeOf e p = none
  fee : ∀ {e p row}, w.feeOf e p = some row →
    ∃ row', w'.feeOf e p = some row' ∧ row.SameSettings row'

variable {w'' : World}

namespace SameBook

theorem of_fees (hexchanges : w'.exchanges = w.exchanges) (hpairs : w'.pairs = w.pairs)
    (horders : w'.orders = w.orders) (hdeals : w'.deals = w.deals)
    (hfreezed : w'.freezed = w.freezed) (hfees : w'.fees = w.fees) : SameBook w w' := by
  have hfee : ∀ e p, w'.feeOf e p = w.feeOf e p := by
    intro e p
    unfold feeOf
    rw [hfees]
  refine ⟨hexchanges, hpairs, horders, hdeals, hfreezed, fun h => (hfee _ _).trans h, fun h => ?_⟩
  exact ⟨_, (hfee _ _).trans h, rfl, rfl, rfl, rfl, rfl, rfl, rfl⟩

theorem refl (w : World) : SameBook w w := .of_fees rfl rfl rfl rfl rfl rfl

theorem trans (h : SameBook w w') (h' : SameBook w' w'') : SameBook w w'' where
  exchanges := h'.exchanges.trans h.exchanges
  pairs := h'.pairs.trans h.pairs
  orders := h'.orders.trans h.orders
  deals := h'.deals.trans h.deals
  freezed := h'.freezed.trans h.freezed
  noFee hnone := h'.noFee (h.noFee hnone)
  fee hrow := by
    obtain ⟨row', hrow', hid, hexc, hpair, hfrozen, hrate, hpoints, hmin⟩ := h.fee hrow
    obtain ⟨row'', hrow'', hid', hexc', hpair', hfrozen', hrate', hpoints', hmin'⟩ := h'.fee hrow'
    exact ⟨row'', hrow'', hid'.trans hid, hexc'.trans hexc, hpair'.trans hpair,
      hfrozen'.trans hfrozen, hrate'.trans hrate, hpoints'.trans hpoints, hmin'.trans hmin⟩

theorem putFee (hrow : row ∈ w.fees.rows) (h : row.SameSettings row')
    (trace : List Event) : SameBook w { w with fees := w.fees.put row', trace := trace } := by
  obtain ⟨hid, hexc, hpair, hrest⟩ := h
  have hfee : ∀ e p, ({ w with fees := w.fees.put row', trace := trace } : World).feeOf e p =
      (w.feeOf e p).map fun f => if f.id = row.id then row' else f :=
    fun e p => feeOf_put hrow hid hexc hpair e p rfl
  refine ⟨rfl, rfl, rfl, rfl, rfl, fun hnone => ?_, fun {e p f} hf => ?_⟩
  · rw [hfee, hnone]
    rfl
  · refine ⟨_, (hfee e p).trans (by rw [hf]; rfl), ?_⟩
    show f.SameSettings (if f.id = row.id then row' else f)
    by_cases hfid : f.id = row.id
    · rw [if_pos hfid]
      obtain rfl : f = row := eq_of_key (of_feeOf hf).1 hrow hfid
      exact ⟨hid, hexc, hpair, hrest⟩
    · rw [if_neg hfid]
      exact ⟨rfl, rfl, rfl, rfl, rfl, rfl, rfl⟩

end SameBook

theorem subBalance_sameBook (h : subBalance owner value w = .ok u w') : SameBook w w' := by
  obtain ⟨accounts, rfl⟩ := subBalance_frame h
  exact .of_fees rfl rfl rfl rfl rfl rfl

theorem credit_sameBook (h : credit owner chain value w = .ok u w') : SameBook w w' := by
  obtain ⟨accounts, rfl⟩ := credit_frame h
  exact .of_fees rfl rfl rfl rfl rfl rfl

theorem debit_sameBook (h : debit owner chain value w = .ok u w') : SameBook w w' := by
  obtain ⟨accounts, rfl⟩ := debit_frame h
  exact .of_fees rfl rfl rfl rfl rfl rfl

theorem inlineTransfer_sameBook (h : inlineTransfer env receiver chain quantity w = .ok u w') :
    SameBook w w' := by
  obtain rfl := inlineTransfer_frame h
  exact .of_fees rfl rfl rfl rfl rfl rfl

/-- **Payments leave the book alone**, and the settings of the fees. -/
theorem Pay.sameBook (h : Pay env L w w') : SameBook w w' := by
  cases h with
  | debit _ h => exact debit_sameBook h
  | send h => exact inlineTransfer_sameBook h
  | charge hpair hrow hcharged h =>
    exact .putFee (of_feeOf hrow).1 (charge_sameSettings h) _
  | filled | nextOrder => exact .of_fees rfl rfl rfl rfl rfl rfl

theorem Pays.sameBook (h : Pays env L w w') : SameBook w w' := by
  induction h with
  | refl => exact .refl w
  | tail _ hpay ih => exact ih.trans hpay.sameBook

/-! ## Fills -/

variable {amount : Asset}

theorem payLeg_fst {pair : TradingPair} {debtor feePayer : AccountName} {r : Asset × Asset}
    (h : payLeg env block pair leg amount debtor feePayer excAcc feeType w = .ok r w') :
    toAsset env (pair.chainOf leg) (pair.symOf leg) amount = .ok r.1 := by
  obtain ⟨quant, hquant, h⟩ := lift_bind_ok.mp h
  obtain ⟨-, w1, -, h⟩ := bind_ok.mp h
  obtain ⟨⟨n, fee⟩, w2, -, h⟩ := bind_ok.mp h
  simp only at h
  split at h
  · obtain ⟨net, -, h⟩ := lift_bind_ok.mp h
    rw [← (pure_ok.mp h).1]
    exact hquant
  · rw [← (pure_ok.mp h).1]
    exact hquant

/-- The `done` action of a fill. -/
def Taker.doneOf (t : Taker) (maker : Order) (price quantity : Asset) : Done where
  takerExcAcc := t.excAcc
  quoteChain := t.pair.quoteChain
  price := price
  baseChain := t.pair.baseChain
  quantity := quantity
  pairId := t.pair.id
  buyOrderId := if t.bid then t.orderId else maker.id
  sellOrderId := if t.bid then maker.id else t.orderId

/-- The world after a fill is noted. -/
def World.noteFill (w : World) (t : Taker) (maker : Order) (d : Done) (gotten paid : Asset) : World :=
  { w with
    later := w.later ++ [d]
    trace := .filled t.pair.id maker.id (if t.bid then gotten else paid)
      (if t.bid then paid else gotten) :: w.trace }

/-- What a fill computes and writes. -/
structure Fills (env : Env) (block : Nat) (t : Taker) (maker : Order) (deal : Asset)
    (fullMatch : Bool) (cumulated cumulated' : Asset) (w w' : World) where
  {gotAmount : Asset} {givenAmount : Asset} {gotten : Asset} {net : Asset} {paid : Asset}
  {net' : Asset} {price : Asset} {quantity : Asset} {w1 : World} {w2 : World} {w3 : World} {w4 : World}
  gotAmount_eq : t.amountOf maker deal t.got = .ok gotAmount
  takes : payLeg env block t.pair t.got gotAmount maker.maker t.payer t.excAcc t.feeType w =
    .ok (gotten, net) w1
  cumulates : cumulated.add net = .ok cumulated'
  sends : if fullMatch then
    inlineTransfer env t.receiver (t.pair.chainOf t.got) cumulated' w1 = .ok () w2 else w2 = w1
  givenAmount_eq : t.amountOf maker deal t.given = .ok givenAmount
  gives : payLeg env block t.pair t.given givenAmount t.payer maker.maker maker.excAcc
    maker.feeType w2 = .ok (paid, net') w3
  paysMaker : inlineTransfer env maker.receiver (t.pair.chainOf t.given) net' w3 = .ok () w4
  price_eq : toAsset env t.pair.quoteChain t.pair.quoteSym (t.dealPrice maker) = .ok price
  quantity_eq : toAsset env t.pair.baseChain t.pair.baseSym deal = .ok quantity
  after_eq : w' = w4.noteFill t maker (t.doneOf maker price quantity) gotten paid

/-- **A fill**, inverted. -/
theorem fill_cases {cumulated' : Asset}
    (h : fill env block t maker deal fullMatch cumulated w = .ok cumulated' w') :
    Nonempty (Fills env block t maker deal fullMatch cumulated cumulated' w w') := by
  obtain ⟨gotAmount, hgot, h⟩ := lift_bind_ok.mp h
  obtain ⟨⟨gotten, net⟩, w1, htakes, h⟩ := bind_ok.mp h
  obtain ⟨sum, hcum, h⟩ := lift_bind_ok.mp h
  obtain ⟨w2, hsends, h⟩ := ite_bind_ok h
  obtain ⟨givenAmount, hgiven, h⟩ := lift_bind_ok.mp h
  obtain ⟨⟨paid, net'⟩, w3, hgives, h⟩ := bind_ok.mp h
  obtain ⟨u, w4, hpays, h⟩ := bind_ok.mp h
  obtain ⟨u', w5, hdone, h⟩ := bind_ok.mp h
  obtain ⟨rfl, rfl⟩ := h
  obtain ⟨price, hprice, hdone⟩ := lift_bind_ok.mp hdone
  obtain ⟨quantity, hquantity, hdone⟩ := lift_bind_ok.mp hdone
  cases hdone
  exact ⟨⟨hgot, htakes, hcum, hsends, hgiven, hgives, hpays, hprice, hquantity, rfl⟩⟩

/-! ## Deals -/

/-- Whether an event is a fill, or marks a pair. -/
def Event.isDeal : Event → Bool
  | .filled _ _ _ _ => true
  | .marked _ => true
  | _ => false

/-- The fills and marks so far, the last one first. -/
def World.fills (w : World) : List Event := w.trace.filter Event.isDeal

/-- Nothing is filled, and no `done` is sent. -/
structure Quiet (w w' : World) : Prop where
  later : w'.later = w.later
  fills : w'.fills = w.fills

namespace Quiet

theorem refl (w : World) : Quiet w w := ⟨rfl, rfl⟩

theorem trans (h : Quiet w w') (h' : Quiet w' w'') : Quiet w w'' :=
  ⟨h'.later.trans h.later, h'.fills.trans h.fills⟩

theorem debit (h : Exchange.debit owner chain value w = .ok u w') : Quiet w w' := by
  obtain ⟨accounts, rfl⟩ := debit_frame h
  exact ⟨rfl, rfl⟩

theorem credit (h : Exchange.credit owner chain value w = .ok u w') : Quiet w w' := by
  obtain ⟨accounts, rfl⟩ := credit_frame h
  exact ⟨rfl, rfl⟩

theorem send (h : inlineTransfer env receiver chain quantity w = .ok u w') : Quiet w w' := by
  obtain rfl := inlineTransfer_frame h
  exact ⟨rfl, rfl⟩

end Quiet

/-- A fill: the order, how much of it, the `done` that is sent, and the amounts that are noted. -/
structure Fill where
  order : Order
  deal : Int
  done : Done
  base : Asset
  quote : Asset

/-- The event of a fill. -/
def Fill.event (t : Taker) (f : Fill) : Event := .filled t.pair.id f.order.id f.base f.quote

/-- What a deal moves of a token. -/
def Taker.dealOf (env : Env) (t : Taker) (maker : Order) (deal : Int) (leg : Leg) :
    Except ContractError Asset := do
  toAsset env (t.pair.chainOf leg) (t.pair.symOf leg) (← t.amountOf maker ⟨deal, t.pair.base⟩ leg)

/-- What the amounts of a fill are. -/
structure Fill.Sound (env : Env) (t : Taker) (f : Fill) : Prop where
  price_symbol : t.price.symbol = f.order.price.symbol
  base_eq : t.dealOf env f.order f.deal .base = .ok f.base
  quote_eq : t.dealOf env f.order f.deal .quote = .ok f.quote
  price_eq : toAsset env t.pair.quoteChain t.pair.quoteSym (t.dealPrice f.order) = .ok f.done.price
  quantity_eq : f.done.quantity = f.base
  pairId_eq : f.done.pairId = t.pair.id
  chains : f.done.baseChain = t.pair.baseChain ∧ f.done.quoteChain = t.pair.quoteChain

theorem Fill.Sound.dealPrice_symbol {f : Fill} (h : f.Sound env t)
    (hprice : t.price.symbol = t.pair.quote) : (t.dealPrice f.order).symbol = t.pair.quote := by
  unfold Taker.dealPrice
  split
  · exact h.price_symbol.symm.trans hprice
  · exact hprice

theorem Fill.Sound.pay {f : Fill} (h : f.Sound env t) (hprice : t.price.symbol = t.pair.quote)
    (hpair : w.pairs.find? t.pair.id = some t.pair) :
    Pay env L w { w with later := w.later ++ [f.done], trace := f.event t :: w.trace } := by
  obtain ⟨value, hvalue, hquote⟩ := bind_eq_ok.mp h.quote_eq
  exact .filled f.order.id hpair rfl (h.dealPrice_symbol hprice) h.base_eq hvalue hquote
    ⟨h.pairId_eq, h.chains.1, h.chains.2, h.quantity_eq, h.price_eq⟩

/-- These fills are made, one after the other. -/
structure Filled (env : Env) (t : Taker) (fs : List Fill) (w w' : World) : Prop where
  later : w'.later = w.later ++ fs.map Fill.done
  fills : w'.fills = (fs.map (Fill.event t)).reverse ++ w.fills
  sound : ∀ f ∈ fs, f.Sound env t

namespace Filled

variable {fs gs : List Fill} {w1 : World}

theorem of_quiet (h : Quiet w w') : Filled env t [] w w' :=
  ⟨by rw [h.later, map_nil, append_nil], h.fills, fun f hf => absurd hf (by simp)⟩

theorem trans (h : Filled env t fs w w1) (h' : Filled env t gs w1 w') :
    Filled env t (fs ++ gs) w w' := by
  refine ⟨?_, ?_, fun f hf => ?_⟩
  · rw [h'.later, h.later, map_append, append_assoc]
  · rw [h'.fills, h.fills, map_append, reverse_append, append_assoc]
  · rcases mem_append.mp hf with hf | hf
    · exact h.sound f hf
    · exact h'.sound f hf

theorem single {f : Fill} (hsound : f.Sound env t) : Filled env t [f] w
    { w with later := w.later ++ [f.done], trace := f.event t :: w.trace } := by
  refine ⟨rfl, rfl, fun g hg => ?_⟩
  rw [mem_singleton.mp hg]
  exact hsound

theorem after (h : Filled env t fs w1 w') (hq : Quiet w w1) : Filled env t fs w w' := by
  have hnone : Filled env t [] w w1 := of_quiet hq
  exact hnone.trans h

theorem quiet (h : Filled env t fs w w1) (hq : Quiet w1 w') : Filled env t fs w w' := by
  have hnone : Filled env t [] w1 w' := of_quiet hq
  have hboth := h.trans hnone
  rwa [append_nil] at hboth

end Filled

/-! ## Payments -/

/-- Payments without a fill, in a world that has the pair. -/
def PaysIn (env : Env) (L : Asset → Prop) (pair : TradingPair) (w w' : World) : Prop :=
  w.pairs.find? pair.id = some pair → Pays env L w w' ∧ Quiet w w'

namespace PaysIn

variable {pair : TradingPair} {α β : Type}

theorem trans (h : PaysIn env L pair w w') (h' : PaysIn env L pair w' w'') :
    PaysIn env L pair w w'' := by
  intro hpair
  obtain ⟨hpays, hquiet⟩ := h hpair
  obtain ⟨hpays', hquiet'⟩ := h' (by rw [hpays.sameBook.pairs]; exact hpair)
  exact ⟨hpays.trans hpays', hquiet.trans hquiet'⟩

theorem refl (w : World) : PaysIn env L pair w w := fun _ => ⟨.refl, .refl w⟩

theorem bind {m : ExchangeM α} {f : α → ExchangeM β} (hm : Exec.Always (PaysIn env L pair) m)
    (hf : ∀ a, Exec.Always (PaysIn env L pair) (f a)) : Exec.Always (PaysIn env L pair) (m >>= f) :=
  Exec.Always.bind (fun h h' => h.trans h') hm hf

theorem lift (x : Except ContractError α) :
    Exec.Always (PaysIn env L pair) (lift x : ExchangeM α) :=
  Exec.Always.lift refl x

theorem pure (a : α) : Exec.Always (PaysIn env L pair) (pure a : ExchangeM α) := by
  intro w b w' h
  obtain ⟨-, rfl⟩ := pure_ok.mp h
  exact refl _

theorem lift_bind {f : α → ExchangeM β}
    (hf : ∀ a, x = .ok a → Exec.Always (PaysIn env L pair) (f a)) :
    Exec.Always (PaysIn env L pair) (Exec.lift x >>= f) := by
  intro w b w' h
  obtain ⟨a, ha, h⟩ := lift_bind_ok.mp h
  exact hf a ha h

theorem ite {p : Prop} [Decidable p] {m n : ExchangeM α} (hm : Exec.Always (PaysIn env L pair) m)
    (hn : Exec.Always (PaysIn env L pair) n) :
    Exec.Always (PaysIn env L pair) (if p then m else n) := by
  split
  · exact hm
  · exact hn

theorem debit {l : Leg} (hvalue : toAsset env (pair.chainOf l) (pair.symOf l) amount = .ok value) :
    Exec.Always (PaysIn env L pair) (Exchange.debit owner (pair.chainOf l) value) := by
  intro w u w' h hpair
  obtain ⟨hname, hissued⟩ := toAsset_supply hvalue
  have hmem := (find?_eq_some_iff.mp hpair).1
  exact ⟨.single (.debit ⟨hissued, .inr ⟨pair, hmem, l, rfl, hname.symm⟩⟩ h), .debit h⟩

theorem send : Exec.Always (PaysIn env L pair) (inlineTransfer env receiver chain quantity) :=
  fun _ _ _ h _ => ⟨.single (.send h), .send h⟩

theorem chargeFee (hL : L quantity) (hname : quantity.symbol.name = (pair.symOf leg).name)
    (hissued : env.Issued (pair.chainOf leg) quantity) :
    Exec.Always (PaysIn env L pair)
      (Exchange.chargeFee env block leg pair.id payer quantity excAcc feeType) := by
  rintro w ⟨n, fee⟩ w' h hpair
  have hsupply : ∀ p, w.pairs.find? pair.id = some p →
      env.supply (p.chainOf leg) (p.symOf leg).name = some quantity.symbol := by
    intro p hp
    obtain rfl : pair = p := Option.some.inj (hpair.symm.trans hp)
    rw [← hname]
    exact hissued
  rcases chargeFee_cases hL hsupply h with ⟨-, -, -, rfl⟩ |
    ⟨p, row, row', w1, taken, kind, hp, -, hrow, hcharged, hcharge, hpay, rfl⟩
  · exact ⟨.refl, .refl _⟩
  · obtain ⟨-, hexc, hid⟩ := of_feeOf hrow
    subst hexc
    rw [← hid] at hp hrow ⊢
    rcases hpay with ⟨-, rfl, -, hdebit, hissued'⟩ | ⟨-, rfl, rfl, -, rfl⟩
    · have hfirst : Pay env L w w1 := .debit ⟨hissued', .inl rfl⟩ hdebit
      have hrow1 : w1.feeOf row.excAcc row.pairId = some row := by
        obtain ⟨accounts, rfl⟩ := debit_frame hdebit
        exact hrow
      have hp1 : w1.pairs.find? row.pairId = some p := by
        rw [hfirst.sameBook.pairs]
        exact hp
      rw [← hfirst.sameBook.deals] at hcharged
      exact ⟨(Relation.ReflTransGen.single hfirst).tail (.charge hp1 hrow1 hcharged hcharge),
        (Quiet.debit hdebit).trans ⟨rfl, rfl⟩⟩
    · exact ⟨.single (.charge hp hrow hcharged hcharge), rfl, rfl⟩

theorem payLeg {debtor feePayer : AccountName}
    (hL : ∀ quant, toAsset env (pair.chainOf leg) (pair.symOf leg) amount = .ok quant → L quant) :
    Exec.Always (PaysIn env L pair)
      (Exchange.payLeg env block pair leg amount debtor feePayer excAcc feeType) := by
  refine lift_bind fun quant hquant => ?_
  obtain ⟨hname, hissued⟩ := toAsset_supply hquant
  refine bind (debit hquant) fun _ => bind (chargeFee (hL quant hquant) hname hissued) fun _ =>
    ite ?_ (pure _)
  exact bind (lift _) fun _ => pure _

theorem sendCumulated {p : TradingPair} :
    Exec.Always (PaysIn env L pair) (Exchange.sendCumulated env p leg receiver cumulated) := by
  exact ite (bind send fun _ => lift _) (pure _)

theorem refundBidder {cumulatedBase cumulatedRefund : Asset} : Exec.Always (PaysIn env L t.pair)
      (Exchange.refundBidder env t maker deal fullMatch cumulatedBase cumulatedRefund) := by
  refine bind (lift _) fun better => ite ?_ (ite ?_ (pure _))
  · refine bind (lift _) fun _ => bind (lift _) fun _ => lift_bind fun quant hquant => ?_
    refine bind (debit (l := .quote) hquant) fun _ => bind (lift _) fun _ => ?_
    cases fullMatch with
    | true => exact bind send fun _ => pure _
    | false => exact pure _
  · exact bind sendCumulated fun _ => bind sendCumulated fun _ => pure _

theorem refundMaker {lowestMaker : AccountName} :
    Exec.Always (PaysIn env L t.pair) (Exchange.refundMaker env t maker lowestMaker deal) := by
  refine bind (lift _) fun better => ?_
  cases better with
  | false => exact pure _
  | true =>
    refine bind (lift _) fun _ => bind (lift _) fun _ => lift_bind fun quant hquant => ?_
    exact bind send fun _ => debit (l := .quote) hquant

end PaysIn

/-- Some of an order is taken, with payments. -/
def Takes (env : Env) (L : Asset → Prop) (t : Taker) (o : Order) (deal : Int) (w w' : World) : Prop :=
  w.pairs.find? t.pair.id = some t.pair →
    ∃ f : Fill, f.order = o ∧ f.deal = deal ∧ Pays env L w w' ∧ Filled env t [f] w w'

theorem Takes.trans {o : Order} {x : Int} (h : Takes env L t o x w w')
    (h' : PaysIn env L t.pair w' w'') : Takes env L t o x w w'' := by
  intro hpair
  obtain ⟨f, hf, hdeal, hpays, hfilled⟩ := h hpair
  obtain ⟨hpays', hquiet⟩ := h' (by rw [hpays.sameBook.pairs]; exact hpair)
  exact ⟨f, hf, hdeal, hpays.trans hpays', hfilled.quiet hquiet⟩

/-- **A fill** of an order. -/
theorem fill_takes {cumulated' : Asset} (hdeal : deal.symbol = t.pair.base)
    (hsame : t.price.symbol = maker.price.symbol) (hprice : t.price.symbol = t.pair.quote)
    (hL : ∀ leg quant, t.dealOf env maker deal.amount leg = .ok quant → L quant)
    (h : fill env block t maker deal fullMatch cumulated w = .ok cumulated' w') :
    Takes env L t maker deal.amount w w' := by
  intro hpair
  obtain ⟨x, s⟩ := deal
  obtain rfl : s = t.pair.base := hdeal
  obtain ⟨r⟩ := fill_cases h
  have hgotten := payLeg_fst r.takes
  have hpaid := payLeg_fst r.gives
  have hgot := r.gotAmount_eq
  have hgiven := r.givenAmount_eq
  have hsends : PaysIn env L t.pair r.w1 r.w2 := by
    have hsends := r.sends
    cases fullMatch with
    | true => exact PaysIn.send hsends
    | false =>
      have heq : r.w2 = r.w1 := hsends
      rw [heq]
      exact .refl _
  have htakes : PaysIn env L t.pair w r.w1 :=
    PaysIn.payLeg (fun q hq => hL _ q (bind_eq_ok.mpr ⟨_, hgot, hq⟩)) r.takes
  have hgives : PaysIn env L t.pair r.w2 r.w3 :=
    PaysIn.payLeg (fun q hq => hL _ q (bind_eq_ok.mpr ⟨_, hgiven, hq⟩)) r.gives
  obtain ⟨hpays, hquiet⟩ :=
    ((htakes.trans hsends).trans (hgives.trans (PaysIn.send r.paysMaker))) hpair
  have hafter := r.after_eq
  unfold noteFill at hafter
  generalize r.w4 = w4 at hpays hquiet hafter
  have hnote : ∀ f : Fill, f.Sound env t → w' = { w4 with
      later := w4.later ++ [f.done]
      trace := f.event t :: w4.trace } → Pays env L w w' ∧ Filled env t [f] w w' := by
    rintro f hsound rfl
    exact ⟨hpays.tail (hsound.pay hprice (by rw [hpays.sameBook.pairs]; exact hpair)),
      (Filled.single hsound).after hquiet⟩
  unfold Taker.got at hgot hgotten
  unfold Taker.given at hgiven hpaid
  cases hbid : t.bid with
  | true =>
    rw [hbid] at hgot hgiven hgotten hpaid hafter
    have hamount : r.gotAmount = ⟨x, t.pair.base⟩ := (Except.ok.inj hgot).symm
    rw [hamount] at hgotten
    have hquantity : r.quantity = r.gotten := Except.ok.inj (r.quantity_eq.symm.trans hgotten)
    refine ⟨⟨maker, x, t.doneOf maker r.price r.quantity, r.gotten, r.paid⟩, rfl, rfl,
      hnote _ ?_ hafter⟩
    exact ⟨hsame, hgotten, bind_eq_ok.mpr ⟨_, hgiven, hpaid⟩, r.price_eq, hquantity, rfl, rfl, rfl⟩
  | false =>
    rw [hbid] at hgot hgiven hgotten hpaid hafter
    have hamount : r.givenAmount = ⟨x, t.pair.base⟩ := (Except.ok.inj hgiven).symm
    rw [hamount] at hpaid
    have hquantity : r.quantity = r.paid := Except.ok.inj (r.quantity_eq.symm.trans hpaid)
    refine ⟨⟨maker, x, t.doneOf maker r.price r.quantity, r.paid, r.gotten⟩, rfl, rfl,
      hnote _ ?_ hafter⟩
    exact ⟨hsame, hpaid, bind_eq_ok.mpr ⟨_, hgot, hgotten⟩, r.price_eq, hquantity, rfl, rfl, rfl⟩

end Forceio.Exchange
