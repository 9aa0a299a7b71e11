import Forceio.Exchange.Calls
import Forceio.Exchange.Failures

/-!
# Orders of opened pairs (`open`, `close2`, `charge_fee`)

An order is inserted for a pair that its exchange has opened, and `close2` refunds the orders of the
exchange before it erases the row of fees. Its range stops before the highest key of the pair, so
that a bid at that key, of price `-1`, stays in the book without a row.

Results:
* `ordersOpened_run`: in runs without bids of price `-1` every order has a row of fees, and
  `charge_fee` finds it.
* `close2_leaves_order`: a bid of price `-1` outlives the row of its pair.
-/

namespace Forceio.Exchange

open Forceio.Lib Exec Forceio.Eosiolib KeyedTable List
open Forceio.Chain (AccountName)

variable {env : Env} {w w' : World}

/-! ## Rows of fees -/

theorem feeOf_ne_none_iff {excAcc : AccountName} {pairId : Nat} :
    w.feeOf excAcc pairId ≠ none ↔ ∃ f ∈ w.fees.rows, f.excAcc = excAcc ∧ f.pairId = pairId := by
  simp [World.feeOf, find?_eq_none]

/-- Every order has a row of fees. -/
def OrdersOpened (w : World) : Prop := ∀ o ∈ w.orders.rows, w.feeOf o.excAcc o.pairId ≠ none

/-- An order below the highest key of its pair. -/
def Order.BelowTop (o : Order) : Prop := o.byPairPrice < lookupKey o.pairId false (2 ^ 64 - 1)

/-- An incoming bid is not of price `-1`. -/
def PricedBids : World → Call → Prop :=
  PlanMeets fun i p => i.bid = true → p.taker.price.amount ≠ -1

instance (w : World) (c : Call) : Decidable (PricedBids w c) :=
  inferInstanceAs (Decidable (PlanMeets _ w c))

theorem belowTop_of_price {o : Order} (hrange : o.price.isAmountWithinRange)
    (hprice : o.bidOrAsk = true → o.price.amount ≠ -1) : o.BelowTop := by
  unfold Order.BelowTop Order.byPairPrice lookupKey uint64
  unfold Asset.isAmountWithinRange Asset.maxAmount at hrange
  cases hbid : o.bidOrAsk with
  | true =>
    have hne := hprice hbid
    simp only [Bool.false_eq_true, if_false, if_true]
    omega
  | false =>
    simp only [Bool.false_eq_true, if_false]
    omega

/-- The range of `close2` holds every order of the pair below the highest key. -/
theorem mem_ordersOfPair {o : Order} (ho : o ∈ w.orders.rows) (htop : o.BelowTop) :
    o ∈ w.ordersOfPair o.pairId := by
  refine mem_filter.mpr ⟨(mem_sortedBy _).mpr ho, ?_⟩
  have hlow : lookupKey o.pairId true 0 ≤ o.byPairPrice := by
    unfold lookupKey Order.byPairPrice
    simp only [if_true]
    omega
  exact decide_eq_true ⟨hlow, htop⟩

/-! ## Steps -/

/-- The orders have rows, and `close2` reaches them. -/
structure OpenInvariant (w : World) : Prop where
  opened : OrdersOpened w
  below : ∀ o ∈ w.orders.rows, o.BelowTop

namespace OpenInvariant

variable (h : OpenInvariant w)

include h

/-- The book as it was, or less of it, and a row for every row there was. -/
theorem of_rows (horders : ∀ o ∈ w'.orders.rows, o ∈ w.orders.rows)
    (hfees : ∀ f ∈ w.fees.rows, ∃ f' ∈ w'.fees.rows, f'.excAcc = f.excAcc ∧ f'.pairId = f.pairId) :
    OpenInvariant w' := by
  refine ⟨fun o ho => ?_, fun o ho => h.below o (horders o ho)⟩
  obtain ⟨f, hf, hexc, hpair⟩ := feeOf_ne_none_iff.mp (h.opened o (horders o ho))
  obtain ⟨f', hf', hexc', hpair'⟩ := hfees f hf
  exact feeOf_ne_none_iff.mpr ⟨f', hf', hexc'.trans hexc, hpair'.trans hpair⟩

theorem of_eq (horders : w'.orders = w.orders) (hfees : w'.fees = w.fees) : OpenInvariant w' :=
  h.of_rows (fun _ ho => horders ▸ ho) fun f hf => ⟨f, hfees ▸ hf, rfl, rfl⟩

theorem putFee {row row' : FeeInfo} (hrow : row ∈ w.fees.rows) (horders : w'.orders = w.orders)
    (hfees : w'.fees = w.fees.put row') (hid : row'.id = row.id) (hexc : row'.excAcc = row.excAcc)
    (hpair : row'.pairId = row.pairId) : OpenInvariant w' := by
  refine h.of_rows (fun o ho => horders ▸ ho) fun f hf => ?_
  rw [hfees]
  by_cases hkey : f.id = row.id
  · obtain rfl : f = row := eq_of_key hf hrow hkey
    exact ⟨row', mem_put_self hf hid.symm, hexc, hpair⟩
  · exact ⟨f, mem_put_of_ne hf fun heq => hkey (heq.trans hid), rfl, rfl⟩

theorem stakes (hframe : StakeFrame w w') : OpenInvariant w' := by
  rcases hframe.fees with hfees | ⟨row, n, hrow, hfees⟩
  · exact h.of_eq hframe.orders hfees
  · exact h.putFee hrow hframe.orders hfees rfl rfl rfl

theorem sameBook (hsame : SameBook w w') : OpenInvariant w' := by
  refine ⟨fun o ho => ?_, fun o ho => h.below o (hsame.orders ▸ ho)⟩
  cases hrow : w.feeOf o.excAcc o.pairId with
  | none => exact absurd hrow (h.opened o (hsame.orders ▸ ho))
  | some row =>
    obtain ⟨row', hrow', -⟩ := hsame.fee hrow
    rw [hrow']
    simp

theorem refunds {l : List (TradingPair × Order)} (hrefunds : Refunds env l w w') :
    OpenInvariant w' := by
  have hless : OpenInvariant { w with orders := w'.orders } :=
    h.of_rows (fun o ho => (hrefunds.mem_orders.mp ho).1) fun f hf => ⟨f, hf, rfl, rfl⟩
  exact hless.sameBook (hrefunds.writes (L := fun _ => True)).sameBook

/-- `close2`: no order of the exchange is left in the pair when its row goes. -/
theorem closed {pair : TradingPair} {row : FeeInfo} {w1 : World}
    (hrow : w.feeOf row.excAcc row.pairId = some row)
    (hrefunds : Refunds env (((w.ordersOfPair row.pairId).filter fun o =>
      o.excAcc = row.excAcc).map fun o => (pair, o)) w w1) :
    OpenInvariant { w1 with fees := w1.fees.erase row.id } := by
  have hpaid := h.refunds hrefunds
  refine ⟨fun o ho => ?_, hpaid.below⟩
  obtain ⟨hold, hleft⟩ := hrefunds.mem_orders.mp ho
  -- An order of the closed pair would have been refunded.
  have hother : ¬ (o.excAcc = row.excAcc ∧ o.pairId = row.pairId) := by
    rintro ⟨hexc, hpair⟩
    have hmem : o ∈ w.ordersOfPair row.pairId := hpair ▸ mem_ordersOfPair hold (h.below o hold)
    refine hleft (pair, o) (mem_map_of_mem (mem_filter.mpr ⟨hmem, ?_⟩)) rfl
    exact decide_eq_true hexc
  obtain ⟨f, hf, hexc, hpair⟩ := feeOf_ne_none_iff.mp (hpaid.opened o ho)
  refine feeOf_ne_none_iff.mpr ⟨f, mem_erase.mpr ⟨hf, fun hkey => hother ?_⟩, hexc, hpair⟩
  obtain ⟨row', hrow', hid, -⟩ := (hrefunds.writes (L := fun _ => True)).sameBook.fee
    (show ({ w with orders := w1.orders } : World).feeOf row.excAcc row.pairId = some row from hrow)
  obtain ⟨hmem', hexc', hpair'⟩ := of_feeOf hrow'
  obtain rfl : f = row' := eq_of_key hf hmem' (hkey.trans hid.symm)
  exact ⟨hexc.symm.trans hexc', hpair.symm.trans hpair'⟩

/-- A match: the orders that are left keep their key, and the new one has a row. -/
theorem matched {block : Nat} {i : Incoming} (m : Match env block i w w')
    (hprice : i.bid = true → m.price.amount ≠ -1) : OpenInvariant w' := by
  have hbooked := (m.spec (L := fun _ => True) fun _ _ _ _ _ _ _ => trivial).2
  suffices hbook : OpenInvariant { w with orders := w'.orders } from hbook.sameBook m.sameBook
  refine ⟨fun o' ho' => ?_, fun o' ho' => ?_⟩
  · rcases hbooked.origin m.base_symbol ho' with ⟨o, ho, rfl | ⟨x, rfl⟩⟩ | ⟨base', rfl⟩
    · exact h.opened o' ho
    · exact h.opened o ho
    · have hrow : w.feeOf i.excAcc i.pairId ≠ none := by
        rw [m.row_eq]
        simp
      rw [← m.pair_id] at hrow
      exact hrow
  · rcases hbooked.origin m.base_symbol ho' with ⟨o, ho, rfl | ⟨x, rfl⟩⟩ | ⟨base', rfl⟩
    · exact h.below o' ho
    · exact h.below o ho
    · exact belowTop_of_price (convert_range m.price_eq) hprice

end OpenInvariant

theorem Ran.openInvariant {c : Call} (h : OpenInvariant w) (hc : PricedBids w c)
    (hran : Ran env c w w') : OpenInvariant w' := by
  cases hran with
  | registered | created | marked => exact h.of_eq rfl rfl
  | opened _ _ hid _ =>
    refine h.of_rows (fun o ho => ho) fun f hf => ⟨f, ?_, rfl, rfl⟩
    exact mem_insert.mpr (.inr ⟨hf, find?_eq_none_iff.mp hid f hf⟩)
  | closed _ hrow _ _ _ hrefunds => exact h.closed hrow hrefunds
  | cancelled _ _ hrefunds => exact h.refunds hrefunds
  | configured hrow hfees _ =>
    exact h.putFee (of_feeOf hrow).1 rfl rfl hfees.1 hfees.2.1 hfees.2.2.1
  | pointed _ hrow _ => exact h.putFee (of_feeOf hrow).1 rfl rfl rfl rfl rfl
  | claimed hbase hquote hpoints =>
    have key : ∀ {e p} {w w' : World}, Claims env e p w w' → OpenInvariant w → OpenInvariant w' := by
      intro e p w w' hclaims hw
      cases hclaims with
      | none => exact hw
      | @paid kind pair row zero feeAcc w1 _ hrow _ hsend _ _ _ =>
        obtain rfl := inlineTransfer_frame hsend
        have hsame := setAmount_sameSettings row zero kind
        exact hw.putFee (of_feeOf hrow).1 rfl rfl hsame.1 hsame.2.1 hsame.2.2.1
    exact key hpoints (key hquote (key hbase h))
  | done _ hrun =>
    obtain ⟨deals, rfl⟩ := doneAction_frame hrun
    exact h.of_eq rfl rfl
  | withdrawn _ _ _ hsend hsub =>
    exact ((h.sameBook (inlineTransfer_sameBook hsend)).sameBook
      (subBalance_sameBook hsub)).of_eq rfl rfl
  | @deposited sender q value memo w' _ _ hvalue hcredit =>
    have hstart : OpenInvariant (w.changeHeld mainChain q.symbol.name q.amount) := h.of_eq rfl rfl
    exact hstart.sameBook (credit_sameBook hcredit)
  | @staked sender action pairId q value memo w' _ _ _ _ _ hrun =>
    have hstart : OpenInvariant (w.changeHeld mainChain q.symbol.name q.amount) := h.of_eq rfl rfl
    exact hstart.stakes (freeze4_frame hrun)
  | unstaked _ hrun => exact h.stakes (unfreeze4_frame hrun)
  | matched hcomes hmatch hdone =>
    obtain ⟨m⟩ := hmatch
    obtain ⟨deals, rfl⟩ := runLater_frame hdone
    have hincoming := hcomes.incoming
    obtain ⟨held, rfl⟩ := hcomes.held
    have hstart : OpenInvariant { w with held := held } := h.of_eq rfl rfl
    obtain ⟨range, hrange⟩ := m.exists_range
    exact (hstart.matched m (m.meets hincoming hc hrange)).of_eq rfl rfl

/-! ## `charge_fee` -/

theorem subBalance_throws {E : ContractError → Prop} {owner : AccountName} {value : Asset}
    (hover : E (.assert overdrawn)) (hnone : E (.assert noBalance))
    (hplain : ∀ {e}, Harmless e → E e) : Exec.Throws E (subBalance owner value) w := by
  have hlift : ∀ {α : Type} {x : Except ContractError α}, Exec.Fails Harmless x →
      Exec.Fails E x := fun hx _ he => hplain (hx he)
  refine .get_bind ?_
  cases w.accountOf owner value.symbol.name with
  | none =>
    intro e w' he
    cases he
    exact hnone
  | some row =>
    refine .bind (.lift (eosioAssert_fails fun _ => hover)) fun _ w1 _ => ?_
    split
    · exact .of_ok rfl
    · exact .lift_bind (hlift (Harmless.sub _ _)) fun _ _ => .of_ok rfl

/-- **`charge_fee` finds the row** of a pair that is opened. -/
theorem chargeFee_throws {block : Nat} {leg : Leg} {pairId : Nat} {payer excAcc : AccountName}
    {quantity : Asset} {feeType : Nat} (hrow : w.feeOf excAcc pairId ≠ none) :
    Exec.Throws (· ≠ .assert notOpened)
      (chargeFee env block leg pairId payer quantity excAcc feeType) w := by
  have hplain : ∀ {e}, Harmless e → e ≠ .assert notOpened := fun he => he.1
  have hlift : ∀ {α : Type} {x : Except ContractError α}, Exec.Fails Harmless x →
      Exec.Fails (· ≠ .assert notOpened) x := fun hx _ he => (hx he).1
  refine .get_bind ?_
  cases w.pairs.find? pairId with
  | none =>
    intro e w' he
    cases he
    exact hplain (by decide +kernel)
  | some pair =>
    refine .bind (.lift (eosioAssert_fails fun _ => hplain (by decide +kernel))) fun _ w1 hw1 => ?_
    obtain ⟨-, rfl⟩ := Exec.lift_ok.mp hw1
    cases hfind : w1.feeOf excAcc pairId with
    | none => exact absurd hfind hrow
    | some row =>
      refine .lift_bind (hlift (Harmless.calcfee _ _)) fun fee _ => ?_
      split
      · exact .of_ok rfl
      · refine .lift_bind (hlift (Harmless.pointsAsFee _ _ _ _ _ _ _)) fun inPoints _ => ?_
        cases inPoints with
        | none => exact .lift_bind (hlift (Harmless.charge _ _ _)) fun _ _ => .of_ok rfl
        | some both =>
          refine .bind ?_ fun _ w2 _ => .lift_bind (hlift (Harmless.charge _ _ _)) fun _ _ => .of_ok rfl
          exact .bind (subBalance_throws (by decide +kernel) (by decide +kernel) hplain)
            fun _ _ _ => .of_ok rfl

/-! ## Runs -/

/-- **Orders of opened pairs**: in every run without bids of price `-1`, every resting order has a row
of fees, and whatever is credited and paid before the order is filled, `charge_fee` finds that row. -/
theorem ordersOpened_run (env : Env) (cs : List Call) (hrun : Along env PricedBids cs {}) :
    OrdersOpened (after env cs {}) ∧ ∀ o ∈ (after env cs {}).orders.rows, ∀ w1 w,
      SameBook (after env cs {}) w1 → Writes env (fun _ => True) w1 w →
        ∀ block leg payer quantity feeType e w',
          chargeFee env block leg o.pairId payer quantity o.excAcc feeType w = .error e w' →
            e ≠ .assert notOpened := by
  have hstart : OpenInvariant {} := ⟨fun o ho => absurd ho (by simp [empty]),
    fun o ho => absurd ho (by simp [empty])⟩
  have hend := Ran.induction (fun h hc hran => hran.openInvariant h hc) cs {} rfl hstart hrun
  refine ⟨hend.opened, fun o ho w1 w hcredit hwrites block leg payer quantity feeType e w' herror => ?_⟩
  refine chargeFee_throws ?_ herror
  cases hrow : (after env cs {}).feeOf o.excAcc o.pairId with
  | none => exact absurd hrow (hend.opened o ho)
  | some row =>
    obtain ⟨row', hrow', -⟩ := ((hcredit.withOrders w.orders).trans hwrites.sameBook).fee
      (show ({ after env cs {} with orders := w.orders } : World).feeOf o.excAcc o.pairId = some row
        from hrow)
    rw [hrow']
    simp

/-- A base token of another chain, without decimals. -/
def abc : SymbolType := stringToSymbol 0 "ABC"

/-- The tokens of the sample runs. -/
def market : Env := envOf [(mainChain, sys), (5, abc)]

/-- An exchange registers, and creates and opens the pair `0` of the two tokens. -/
def openRun : List Call :=
  [callOf 1 (.deposit dex mainChain ⟨10000000, sys⟩ "freeze;regex;0".toList), callOf 1 (.regex dex),
    callOf 1 (.create abc 5 abc sys mainChain sys dex),
    callOf 1 (.deposit dex mainChain ⟨10000000, sys⟩ "freeze;open;0".toList),
    callOf 1 (.openPair 5 abc mainChain sys dex)]

/-- It then takes a bid for `5` tokens at `0.0005` coins each. -/
def bidRun : List Call :=
  openRun ++
    [callOf 2 (.deposit alice mainChain ⟨25, sys⟩ "trade;alice;0;0.0005 SYS;1;dex;;1".toList)]

theorem ordersOpened_bidRun : Along market PricedBids bidRun {} ∧
    OrdersOpened (after market bidRun {}) ∧ (after market bidRun {}).orders.rows.length = 1 := by
  have hrun : Along market PricedBids bidRun {} := by decide +kernel
  exact ⟨hrun, (ordersOpened_run market bidRun hrun).1, by decide +kernel⟩

/-- A minimum quantity below zero lets a bid of price `-1` in before the pair is closed. -/
def loneBidRun : List Call :=
  openRun ++ [callOf 2 (.setminordqty dex 0 ⟨-100, abc⟩),
      callOf 2 (.deposit alice mainChain ⟨25, sys⟩ "trade;alice;0;0.-001 SYS;1;dex;;1".toList),
      callOf 3 (.close2 0 dex)]

/-- **A bid at the highest key** outlives the row of its pair. -/
theorem close2_leaves_order : ¬ OrdersOpened (after market loneBidRun {}) := by
  have horders : (after market loneBidRun {}).orders.rows.map (fun o => (o.excAcc, o.pairId)) =
      [(dex, 0)] := by
    decide +kernel
  have hfees : (after market loneBidRun {}).feeOf dex 0 = none := by decide +kernel
  intro h
  obtain ⟨o, ho, hkey⟩ : ∃ o ∈ (after market loneBidRun {}).orders.rows,
      (o.excAcc, o.pairId) = (dex, 0) := by
    refine mem_map.mp ?_
    rw [horders]
    exact mem_singleton_self _
  obtain ⟨hexc, hpair⟩ := Prod.mk.inj hkey
  exact h o ho (by rw [hexc, hpair, hfees])

end Forceio.Exchange
