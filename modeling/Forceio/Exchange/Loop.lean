import Forceio.Exchange.Effects

/-!
# The loops of the two sides

`match_for_bid` and `match_for_ask` walk their range in the same way: every order but the last is
filled whole and erased; the last fill either completes the taker, and the order is shrunk or erased,
or the range ends and the rest of the taker is inserted. `Loop` is that walk, for any payments.

* `reached` are the orders that a quantity reaches, with what is dealt of each.

Result:
* `Loop.spec`: what a walk pays, and the book after it.
-/

namespace Forceio.Exchange

open Forceio.Lib Exec Forceio.Eosiolib KeyedTable List
open Forceio.Chain (AccountName)

variable {env : Env} {w w' : World}
variable {block : Nat} {t : Taker} {o : Order} {deal : Asset} {full : Bool}

/-! ## Orders that a quantity reaches -/

/-- The orders that an amount of base reaches, and what it takes of each. -/
def reached : List Order → Int → List (Order × Int)
  | [], _ => []
  | o :: rest, base =>
    if base ≤ o.base.amount then [(o, base)]
    else (o, o.base.amount) :: reached rest (base - o.base.amount)

/-! ## The walk -/

/-- A walk over a range: `step` pays for one order and `finish` sends what is cumulated and erases
the last order, when the range ends. -/
inductive Loop {σ : Type} (step : Order → Asset → Bool → σ → World → σ → World → Prop)
    (finish : Order → σ → World → World → Prop) (t : Taker) :
    List Order → Asset → σ → World → World → Prop
  | none {base : Asset} {c : σ} {w : World} : Loop step finish t [] base c w w
  | last {o : Order} {rest : List Order} {base : Asset} {c c' : σ} {w w1 w' : World}
      (hsym : base.symbol = o.base.symbol) (hle : base.amount ≤ o.base.amount)
      (hstep : step o base true c w c' w1) (hshrink : shrinkOrder o base w1 = .ok ⟨⟩ w') :
      Loop step finish t (o :: rest) base c w w'
  | next {o : Order} {rest : List Order} {base base' : Asset} {c c' : σ} {w w1 w' : World}
      (hsym : base.symbol = o.base.symbol) (hlt : o.base.amount < base.amount)
      (hstep : step o o.base false c w c' w1) (hbase : base.sub o.base = .ok base')
      (hrest : rest ≠ [])
      (hloop : Loop step finish t rest base' c' { w1 with orders := w1.orders.erase o.id } w') :
      Loop step finish t (o :: rest) base c w w'
  | rest {o : Order} {base base' : Asset} {c c' : σ} {w w1 w2 w' : World}
      (hsym : base.symbol = o.base.symbol) (hlt : o.base.amount < base.amount)
      (hstep : step o o.base false c w c' w1) (hbase : base.sub o.base = .ok base')
      (hfinish : finish o c' w1 w2) (hinsert : insertOrder (t.order base') w2 = .ok ⟨⟩ w') :
      Loop step finish t [o] base c w w'

/-- The payments of `match_for_bid` for one order. -/
def AskStep (env : Env) (block : Nat) (t : Taker) (o : Order) (deal : Asset) (fullMatch : Bool)
    (c : Asset × Asset) (w : World) (c' : Asset × Asset) (w' : World) : Prop :=
  ∃ base w1, fill env block t o deal fullMatch c.1 w = .ok base w1 ∧
    refundBidder env t o deal fullMatch base c.2 w1 = .ok c' w'

/-- The end of the range of `match_for_bid`. -/
def AskFinish (env : Env) (t : Taker) (o : Order) (c : Asset × Asset) (w w' : World) : Prop :=
  ∃ w1 x y, sendCumulated env t.pair .base t.receiver c.1 { w with orders := w.orders.erase o.id } =
        .ok x w1 ∧
      sendCumulated env t.pair .quote t.payer c.2 w1 = .ok y w'

/-- The payments of `match_for_ask` for one order. -/
def BidStep (env : Env) (block : Nat) (t : Taker) (lowestMaker : AccountName) (o : Order)
    (deal : Asset) (fullMatch : Bool) (c : Asset) (w : World) (c' : Asset) (w' : World) : Prop :=
  ∃ w1, fill env block t o deal fullMatch c w = .ok c' w1 ∧
    refundMaker env t o lowestMaker deal w1 = .ok () w'

/-- The end of the range of `match_for_ask`. -/
def BidFinish (env : Env) (t : Taker) (o : Order) (c : Asset) (w w' : World) : Prop :=
  ∃ w1 x, sendCumulated env t.pair .quote t.receiver c w = .ok x w1 ∧
    w' = { w1 with orders := w1.orders.erase o.id }

theorem walkAsks_loop :
    ∀ {l : List Order} {base cumulatedBase cumulatedRefund : Asset} {w w' : World},
      walkAsks env block t l base cumulatedBase cumulatedRefund w = .ok ⟨⟩ w' →
      Loop (AskStep env block t) (AskFinish env t) t l base (cumulatedBase, cumulatedRefund) w w'
  | [], _, _, _, w, w', h => by
    obtain ⟨-, rfl⟩ := pure_ok.mp h
    exact .none
  | o :: rest, base, cumulatedBase, cumulatedRefund, w, w', h => by
    obtain ⟨fullMatch, hle, h⟩ := lift_bind_ok.mp h
    obtain ⟨hsym, hfull⟩ := Asset.compare_eq_ok_iff.mp hle
    obtain ⟨cumulated, w1, hfill, h⟩ := bind_ok.mp h
    obtain ⟨⟨x, y⟩, w2, hrefund, h⟩ := bind_ok.mp h
    cases fullMatch with
    | true =>
      exact .last hsym (of_decide_eq_true hfull.symm) ⟨cumulated, w1, hfill, hrefund⟩ h
    | false =>
      have hlt : o.base.amount < base.amount := not_le.mp (of_decide_eq_false hfull.symm)
      have hstep : AskStep env block t o o.base false (cumulatedBase, cumulatedRefund) w (x, y) w2 :=
        ⟨cumulated, w1, hfill, hrefund⟩
      obtain ⟨base', hbase, h⟩ := lift_bind_ok.mp h
      unfold eraseOrder at h
      rw [modify_bind_ok] at h
      split at h
      · next hrest =>
        obtain ⟨p, w3, hsend, h⟩ := bind_ok.mp h
        obtain ⟨q, w4, hsend', hinsert⟩ := bind_ok.mp h
        rw [hrest]
        exact .rest hsym hlt hstep hbase ⟨w3, p, q, hsend, hsend'⟩ hinsert
      · next hrest =>
        exact .next hsym hlt hstep hbase hrest (walkAsks_loop h)

variable {lowestMaker : AccountName}

theorem walkBids_loop : ∀ {l : List Order} {base cumulatedQuote : Asset} {w w' : World},
      walkBids env block t lowestMaker l base cumulatedQuote w = .ok ⟨⟩ w' →
      Loop (BidStep env block t lowestMaker) (BidFinish env t) t l base cumulatedQuote w w'
  | [], _, _, w, w', h => by
    obtain ⟨-, rfl⟩ := pure_ok.mp h
    exact .none
  | o :: rest, base, cumulatedQuote, w, w', h => by
    obtain ⟨fullMatch, hle, h⟩ := lift_bind_ok.mp h
    obtain ⟨hsym, hfull⟩ := Asset.compare_eq_ok_iff.mp hle
    obtain ⟨cumulated, w1, hfill, h⟩ := bind_ok.mp h
    obtain ⟨u, w2, hrefund, h⟩ := bind_ok.mp h
    cases fullMatch with
    | true =>
      exact .last hsym (of_decide_eq_true hfull.symm) ⟨w1, hfill, hrefund⟩ h
    | false =>
      have hlt : o.base.amount < base.amount := not_le.mp (of_decide_eq_false hfull.symm)
      have hstep : BidStep env block t lowestMaker o o.base false cumulatedQuote w cumulated w2 :=
        ⟨w1, hfill, hrefund⟩
      obtain ⟨base', hbase, h⟩ := lift_bind_ok.mp h
      split at h
      · next hrest =>
        obtain ⟨p, w3, hsend, h⟩ := bind_ok.mp h
        rw [hrest]
        exact .rest hsym hlt hstep hbase ⟨w3, p, hsend, rfl⟩ h
      · next hrest =>
        exact .next hsym hlt hstep hbase hrest (walkBids_loop h)

/-! ## Payments of the walk -/

theorem AskStep.takes {c c' : Asset × Asset} {L : Asset → Prop} (hdeal : deal.symbol = t.pair.base)
    (hprice : t.price.symbol = t.pair.quote)
    (hL : ∀ leg quant, t.dealOf env o deal.amount leg = .ok quant → L quant)
    (h : AskStep env block t o deal full c w c' w') : Takes env L t o deal.amount w w' := by
  obtain ⟨base, w1, hfill, hrefund⟩ := h
  obtain ⟨better, hbetter, -⟩ := lift_bind_ok.mp hrefund
  have hsame := (Asset.compare_eq_ok_iff.mp hbetter).1
  exact (fill_takes hdeal hsame hprice hL hfill).trans (PaysIn.refundBidder hrefund)

theorem BidStep.takes {c c' : Asset} {L : Asset → Prop} (hdeal : deal.symbol = t.pair.base)
    (hprice : t.price.symbol = t.pair.quote)
    (hL : ∀ leg quant, t.dealOf env o deal.amount leg = .ok quant → L quant)
    (h : BidStep env block t lowestMaker o deal full c w c' w') :
    Takes env L t o deal.amount w w' := by
  obtain ⟨w1, hfill, hrefund⟩ := h
  obtain ⟨better, hbetter, -⟩ := lift_bind_ok.mp hrefund
  have hsame := (Asset.compare_eq_ok_iff.mp hbetter).1.symm
  exact (fill_takes hdeal hsame hprice hL hfill).trans (PaysIn.refundMaker hrefund)

/-- Payments, with the book set. -/
inductive Write (env : Env) (L : Asset → Prop) : World → World → Prop
  | pay {w w' : World} (h : Pay env L w w') : Write env L w w'
  | book {w : World} (orders : KeyedTable Order) : Write env L w { w with orders := orders }

/-- Sequences of them. -/
abbrev Writes (env : Env) (L : Asset → Prop) := Relation.ReflTransGen (Write env L)

theorem SameBook.withOrders (h : SameBook w w') (orders : KeyedTable Order) :
    SameBook { w with orders := orders } { w' with orders := orders } :=
  ⟨h.exchanges, h.pairs, rfl, h.deals, h.freezed, h.noFee, h.fee⟩

namespace Write

theorem sameBook {L : Asset → Prop} (h : Write env L w w') :
    SameBook { w with orders := w'.orders } w' := by
  cases h with
  | book orders => exact .refl _
  | pay h => exact h.sameBook.withOrders w'.orders

end Write

namespace Writes

variable {L : Asset → Prop}

theorem sameBook (h : Writes env L w w') : SameBook { w with orders := w'.orders } w' := by
  induction h with
  | refl => exact .refl _
  | tail _ hwrite ih => exact (ih.withOrders _).trans hwrite.sameBook

theorem of_pays (h : Pays env L w w') : Writes env L w w' :=
  Relation.ReflTransGen.mono (fun _ _ hpay => Write.pay hpay) w w' h

end Writes

/-- What the end of a walk writes. -/
def Finishes (env : Env) (L : Asset → Prop) (o : Order) (w w' : World) : Prop :=
  Writes env L w w' ∧ Quiet w w' ∧ w'.orders = w.orders.erase o.id

variable {L : Asset → Prop}

theorem AskFinish.finishes {c : Asset × Asset} (hpair : w.pairs.find? t.pair.id = some t.pair)
    (h : AskFinish env t o c w w') : Finishes env L o w w' := by
  obtain ⟨w1, x, y, hbase, hrefund⟩ := h
  obtain ⟨hpays, hquiet⟩ : Pays env L { w with orders := w.orders.erase o.id } w' ∧ Quiet _ w' :=
    ((PaysIn.sendCumulated hbase).trans (PaysIn.sendCumulated hrefund)) hpair
  exact ⟨(Relation.ReflTransGen.single (.book _)).trans (Writes.of_pays hpays),
    ⟨hquiet.later, hquiet.fills⟩, hpays.sameBook.orders⟩

theorem BidFinish.finishes {c : Asset} (hpair : w.pairs.find? t.pair.id = some t.pair)
    (h : BidFinish env t o c w w') : Finishes env L o w w' := by
  obtain ⟨w1, x, hsend, rfl⟩ := h
  obtain ⟨hpays, hquiet⟩ : Pays env L w w1 ∧ Quiet w w1 := PaysIn.sendCumulated hsend hpair
  refine ⟨(Writes.of_pays hpays).tail (.book _), ⟨hquiet.later, hquiet.fills⟩, ?_⟩
  show w1.orders.erase o.id = _
  rw [hpays.sameBook.orders]

/-! ## The book after a walk -/

theorem insertOrder_ok {u : Unit} (h : insertOrder o w = .ok u w') :
    w.orders.find? o.id = none ∧ w' = { w with orders := w.orders.insert o } := by
  unfold insertOrder at h
  rw [get_bind_ok] at h
  cases hfind : w.orders.find? o.id with
  | some o' => rw [hfind] at h; exact absurd h throw_ne_ok
  | none =>
    rw [hfind] at h
    cases h
    exact ⟨rfl, rfl⟩

/-- A resting order with another amount of base. -/
def Order.withBase (o : Order) (base : Int) : Order := { o with base := ⟨base, o.base.symbol⟩ }

theorem shrinkOrder_ok {maker : Order} {u : Unit} (h : shrinkOrder maker deal w = .ok u w') :
    w' = { w with orders :=
      if deal.amount < maker.base.amount then
        w.orders.put (maker.withBase (maker.base.amount - deal.amount))
      else w.orders.erase maker.id } := by
  obtain ⟨less, hless, h⟩ := lift_bind_ok.mp h
  obtain ⟨-, rfl⟩ := Asset.compare_eq_ok_iff.mp hless
  by_cases hlt : deal.amount < maker.base.amount
  · rw [if_pos hlt]
    rw [if_pos (by simpa using hlt)] at h
    obtain ⟨base, hbase, h⟩ := lift_bind_ok.mp h
    obtain ⟨-, -, rfl⟩ := Asset.sub_eq_ok_iff.mp hbase
    cases h
    rfl
  · rw [if_neg hlt]
    rw [if_neg (by simpa using hlt)] at h
    cases h
    rfl

/-- The book after a walk. -/
def bookAfter (t : Taker) : List Order → Int → KeyedTable Order → KeyedTable Order
  | [], _, book => book
  | o :: rest, base, book =>
    if base ≤ o.base.amount then
      if base < o.base.amount then book.put (o.withBase (o.base.amount - base))
      else book.erase o.id
    else if rest = [] then
      (book.erase o.id).insert (t.order ⟨base - o.base.amount, t.pair.base⟩)
    else bookAfter t rest (base - o.base.amount) (book.erase o.id)

/-- What is left of the base when the whole range is walked. -/
def remaining : List Order → Int → Option Int
  | [], _ => none
  | o :: rest, base =>
    if base ≤ o.base.amount then none
    else if rest = [] then some (base - o.base.amount)
    else remaining rest (base - o.base.amount)

/-- The book after an amount is taken from an order: it keeps the rest, unless that is zero. -/
def dealt (book : KeyedTable Order) (od : Order × Int) : KeyedTable Order :=
  if od.2 = od.1.base.amount then book.erase od.1.id
  else book.put (od.1.withBase (od.1.base.amount - od.2))

/-- Where a walk inserts the rest of the taker, its id is free. -/
def IdFree (t : Taker) (l : List Order) (base : Int) (book : KeyedTable Order) : Prop :=
  remaining l base ≠ none → ((reached l base).foldl dealt book).find? t.orderId = none

/-- The order that a walk leaves smaller than it was, or new. -/
def leftover (t : Taker) : List Order → Int → Option Order
  | [], _ => none
  | o :: rest, base =>
    if base ≤ o.base.amount then
      if base < o.base.amount then some (o.withBase (o.base.amount - base)) else none
    else if rest = [] then some (t.order ⟨base - o.base.amount, t.pair.base⟩)
    else leftover t rest (base - o.base.amount)

theorem mem_bookAfter {o' : Order} : ∀ {l : List Order} {base : Int} {book : KeyedTable Order},
    o' ∈ (bookAfter t l base book).rows → o' ∈ book.rows ∨ leftover t l base = some o'
  | [], _, _, h => .inl h
  | o :: rest, base, book, h => by
    have hkeep : ∀ {k}, o' ∈ (book.erase k).rows → o' ∈ book.rows :=
      fun hmem => (mem_erase.mp hmem).1
    unfold bookAfter at h
    unfold leftover
    by_cases hle : base ≤ o.base.amount
    · rw [if_pos hle] at h ⊢
      by_cases hlt : base < o.base.amount
      · rw [if_pos hlt] at h ⊢
        rcases mem_put h with rfl | ⟨hmem, -⟩
        · exact .inr rfl
        · exact .inl hmem
      · rw [if_neg hlt] at h
        exact .inl (hkeep h)
    · rw [if_neg hle] at h ⊢
      by_cases hrest : rest = []
      · rw [if_pos hrest] at h ⊢
        rcases mem_insert.mp h with rfl | ⟨hmem, -⟩
        · exact .inr rfl
        · exact .inl (hkeep hmem)
      · rw [if_neg hrest] at h ⊢
        exact (mem_bookAfter h).imp_left hkeep

theorem leftover_cases {o' : Order} : ∀ {l : List Order} {base : Int}, leftover t l base = some o' →
    (∃ o ∈ l, ∃ x, o' = o.withBase x) ∨ ∃ x, o' = t.order ⟨x, t.pair.base⟩
  | [], _, h => absurd h (by simp [leftover])
  | o :: rest, base, h => by
    unfold leftover at h
    split at h
    · split at h
      · exact .inl ⟨o, mem_cons_self, _, (Option.some.inj h).symm⟩
      · simp at h
    · split at h
      · exact .inr ⟨_, (Option.some.inj h).symm⟩
      · refine (leftover_cases h).imp_left fun ⟨p, hp, hform⟩ => ?_
        exact ⟨p, mem_cons_of_mem _ hp, hform⟩

/-- The order of a fill, with what is dealt of it. -/
def Fill.reached (f : Fill) : Order × Int := (f.order, f.deal)

/-- **A walk**: what is paid, the book after it, and the fills, of the orders that are reached. -/
theorem Loop.spec {σ : Type} {step : Order → Asset → Bool → σ → World → σ → World → Prop}
    {finish : Order → σ → World → World → Prop} {l : List Order} {base : Asset} {c : σ}
    (h : Loop step finish t l base c w w')
    (hfinish : ∀ {o c w w'}, w.pairs.find? t.pair.id = some t.pair → finish o c w w' →
      Finishes env L o w w') (hstep : ∀ od ∈ reached l base.amount, ∀ {full c w c' w'},
      step od.1 ⟨od.2, t.pair.base⟩ full c w c' w' → Takes env L t od.1 od.2 w w')
    (hbase : base.symbol = t.pair.base) (hpair : w.pairs.find? t.pair.id = some t.pair) :
    Writes env L w w' ∧
      (w'.orders = bookAfter t l base.amount w.orders ∧ IdFree t l base.amount w.orders) ∧
      ∃ fs, fs.map Fill.reached = reached l base.amount ∧ Filled env t fs w w' := by
  induction h with
  | none => exact ⟨.refl, ⟨rfl, absurd rfl⟩, [], rfl, .of_quiet (.refl _)⟩
  | @last o rest base c c' w w1 w' hsym hle hs hshrink =>
    have hdeal : base = ⟨base.amount, t.pair.base⟩ := by rw [← hbase]
    rw [reached, if_pos hle] at hstep ⊢
    rw [hdeal] at hs
    obtain ⟨f, rfl, hf, hpays, hfilled⟩ := hstep (o, base.amount) mem_cons_self hs hpair
    rw [shrinkOrder_ok hshrink]
    refine ⟨(Writes.of_pays hpays).tail (.book _), ⟨?_, fun hleft => ?_⟩, [f], ?_,
      hfilled.quiet ⟨rfl, rfl⟩⟩
    · simp only [bookAfter, if_pos hle, hpays.sameBook.orders]
    · exact absurd (if_pos hle) hleft
    · exact congrArg (· :: []) (Prod.ext rfl hf)
  | @next o rest base base' c c' w w1 w' hsym hlt hs hsub hrest _ ih =>
    obtain ⟨-, -, rfl⟩ := Asset.sub_eq_ok_iff.mp hsub
    have hdeal : o.base = ⟨o.base.amount, t.pair.base⟩ := by rw [← hbase, hsym]
    rw [reached, if_neg (not_le.mpr hlt)] at hstep ⊢
    rw [hdeal] at hs
    obtain ⟨f, rfl, hf, hpays, hfilled⟩ := hstep (o, o.base.amount) mem_cons_self hs hpair
    have hpair1 := hpays.sameBook.pairs ▸ hpair
    obtain ⟨hwrites, ⟨horders, hfree⟩, fs, hmap, hrestFilled⟩ :=
      ih (fun od hod => hstep od (mem_cons_of_mem _ hod)) hbase hpair1
    have herase : ({ w1 with orders := w1.orders.erase f.order.id } : World).orders =
        w.orders.erase f.order.id := congrArg (·.erase f.order.id) hpays.sameBook.orders
    rw [herase] at horders hfree
    refine ⟨((Writes.of_pays hpays).tail (.book _)).trans hwrites, ⟨?_, ?_⟩, f :: fs, ?_,
      hfilled.trans (hrestFilled.after ⟨rfl, rfl⟩)⟩
    · rw [horders, bookAfter, if_neg (not_le.mpr hlt), if_neg hrest]
    · simpa [IdFree, remaining, reached, dealt, not_le.mpr hlt, hrest] using hfree
    · rw [map_cons, hmap]
      exact congrArg (· :: _) (Prod.ext rfl hf)
  | @rest o base base' c c' w w1 w2 w' hsym hlt hs hsub hend hinsert =>
    obtain ⟨-, -, rfl⟩ := Asset.sub_eq_ok_iff.mp hsub
    have hdeal : o.base = ⟨o.base.amount, t.pair.base⟩ := by rw [← hbase, hsym]
    rw [reached, if_neg (not_le.mpr hlt)] at hstep ⊢
    rw [hdeal] at hs
    obtain ⟨f, rfl, hf, hpays, hfilled⟩ := hstep (o, o.base.amount) mem_cons_self hs hpair
    have hpair1 := hpays.sameBook.pairs ▸ hpair
    obtain ⟨hwrites, hquiet, horders⟩ := hfinish hpair1 hend
    obtain ⟨hfree, rfl⟩ := insertOrder_ok hinsert
    rw [hpays.sameBook.orders] at horders
    rw [horders] at hfree
    refine ⟨((Writes.of_pays hpays).trans hwrites).tail (.book _), ⟨?_, fun _ => ?_⟩, [f], ?_,
      (hfilled.quiet hquiet).quiet ⟨rfl, rfl⟩⟩
    · rw [bookAfter, if_neg (not_le.mpr hlt), if_pos rfl, ← hbase]
      show w2.orders.insert _ = _
      rw [horders]
    · simpa [reached, dealt, not_le.mpr hlt, Taker.order] using hfree
    · exact congrArg (· :: []) (Prod.ext rfl hf)

end Forceio.Exchange
