import Mathlib.Algebra.Order.Ring.Abs
import Forceio.Exchange.Opened
import Forceio.Exchange.WellFormed

/-!
# Price marks (`mark`, `done`, `upd_mark`, `get_avg_price`)

A match sends `done` for every fill, and `done` adds the fill to a window of marks, if the pair is
marked. `done` can be sent by anyone for the exchange that they are, with any amounts; and
`upd_mark` looks for the window among those of all pairs, by a lower bound.

Results:
* `marksReflect_run`: if no account calls `done` itself, and no order comes in while the lookup finds
  the window of another pair, the windows of a marked pair sum up its fills since it was marked.
* `done_without_fill`: a call of `done` changes the marks without a fill.
-/

namespace Forceio.Exchange

open Forceio.Lib Exec Forceio.Eosiolib KeyedTable List
open Forceio.Chain (AccountName)

variable {env : Env} {w w' : World}
variable (pairId : Nat)

/-! ## Windows -/

/-- The base that the windows of a pair sum up. -/
def World.volume (w : World) (pairId : Nat) : Int :=
  w.deals.total fun d => if d.pairId = pairId then d.vol.amount else 0

/-- The quote that the windows of a pair sum up. -/
def World.turnover (w : World) (pairId : Nat) : Int :=
  w.deals.total fun d => if d.pairId = pairId then d.sum.amount else 0

/-- The events since a pair was marked. -/
def sinceMarked (trace : List Event) : List Event :=
  trace.takeWhile fun e => e ≠ .marked pairId

namespace Event

/-- The base of a fill of a pair. -/
def filledBase : Event → Int
  | .filled p _ base _ => if p = pairId then base.amount else 0
  | _ => 0

/-- The quote of a fill of a pair. -/
def filledQuote : Event → Int
  | .filled p _ _ quote => if p = pairId then quote.amount else 0
  | _ => 0

end Event

/-- The windows of a marked pair sum up its fills. -/
def MarksReflect (w : World) : Prop :=
  ∀ p, w.isMarked p = true → w.volume p = ((sinceMarked p w.trace).map (Event.filledBase p)).sum ∧
    w.turnover p = ((sinceMarked p w.trace).map (Event.filledQuote p)).sum

/-- Whether an event is a fill of a pair. -/
def Event.fills : Event → Bool
  | .filled p _ _ _ => p = pairId
  | _ => false

open Event (filledBase filledQuote fills isDeal)

/-- The windows of a pair are the same. -/
def World.SameWindows (w w' : World) (pairId : Nat) : Prop :=
  ∀ d : DealInfo, d.pairId = pairId → (d ∈ w'.deals.rows ↔ d ∈ w.deals.rows)

/-- The windows of a marked pair only change with a fill of it. -/
def MarksKept (w w' : World) : Prop :=
  ∀ p, w.isMarked p = true →
    w'.trace.filter (fills p) = w.trace.filter (fills p) → w.SameWindows w' p

/-- The lookup of `get_avg_price` finds a window of the pair. -/
def World.FindsOwn (w : World) (pairId block : Nat) : Prop :=
  ∃ d ∈ w.windowAt pairId block, d.pairId = pairId

/-- The average price of a marked pair, where its own windows are found, only changes with a fill of
it. -/
def AvgPricesKept (w w' : World) : Prop :=
  ∀ (block : Nat) (baseChain : ChainName) (baseSym : SymbolType) (quoteChain : ChainName)
    (quoteSym : SymbolType), ∀ pair ∈ w.pairOf baseChain baseSym quoteChain quoteSym,
    w.isMarked pair.id = true →
    w'.trace.filter (fills pair.id) = w.trace.filter (fills pair.id) →
    w.FindsOwn pair.id block → w'.FindsOwn pair.id block →
    getAvgPrice w' block baseChain baseSym quoteChain quoteSym =
      getAvgPrice w block baseChain baseSym quoteChain quoteSym

/-- The window that a fill is added to is one of the pair. -/
def World.OwnWindow (w : World) (pairId block : Nat) : Prop :=
  ∀ d ∈ w.windowAt pairId block, block ≤ d.blockHeightEnd → d.pairId = pairId

/-- No account calls `done`, and an order comes in for a marked pair only when the lookup finds a
window of the pair, or one that has ended. -/
def MarksApart (w : World) (c : Call) : Prop :=
  match c.action with
  | .doneAction _ => False
  | a =>
    match a.incoming with
    | none => True
    | some i => w.isMarked i.pairId = true → w.OwnWindow i.pairId c.block

instance (w : World) (pairId block : Nat) : Decidable (w.OwnWindow pairId block) := by
  unfold World.OwnWindow
  infer_instance

instance (w : World) (c : Call) : Decidable (MarksApart w c) := by
  obtain ⟨auth, block, action⟩ := c
  unfold MarksApart
  split
  · infer_instance
  · split <;> infer_instance

/-- The windows end in 32 bits, so that the windows of a pair are together in the index. -/
def WindowsFit (w : World) : Prop := ∀ d ∈ w.deals.rows, d.blockHeightEnd < 2 ^ 32

/-- **A pair is marked** when it has a window. -/
theorem isMarked_iff (hfit : WindowsFit w) {p : Nat} :
    w.isMarked p = true ↔ ∃ d ∈ w.deals.rows, d.pairId = p := by
  unfold World.isMarked World.dealIndex
  constructor
  · intro h
    split at h
    · simp at h
    · next d hfind =>
      exact ⟨d, ((find?_sortedBy_iff _).mp hfind).1, of_decide_eq_true h⟩
  · rintro ⟨d, hd, rfl⟩
    have hkey : d.pairId * 2 ^ 32 ≤ d.byPairAndBlockHeight := by
      unfold DealInfo.byPairAndBlockHeight
      omega
    split
    · next hnone =>
      have hall := find?_eq_none.mp hnone d ((mem_sortedBy _).mpr hd)
      exact absurd hkey (by simpa using hall)
    · next c hfind =>
      obtain ⟨hc, hlow, hmin⟩ := (find?_sortedBy_iff _).mp hfind
      have hle : c.byPairAndBlockHeight ≤ d.byPairAndBlockHeight := by
        rcases Prod.Lex.toLex_le_toLex.mp (hmin d hd hkey) with hlt | heq
        · exact le_of_lt hlt
        · exact le_of_eq heq.1
      have hc := hfit c hc
      have hd := hfit d hd
      unfold DealInfo.byPairAndBlockHeight at hlow hle
      exact decide_eq_true (by omega)

theorem windowAt_eq_some_iff {p b : Nat} {d : DealInfo} : w.windowAt p b = some d ↔
    d ∈ w.deals.rows ∧ ((p * 2 ^ 32 + b ≤ d.byPairAndBlockHeight ∧
          ∀ c ∈ w.deals.rows, p * 2 ^ 32 + b ≤ c.byPairAndBlockHeight →
            toLex (d.byPairAndBlockHeight, d.id) ≤ toLex (c.byPairAndBlockHeight, c.id)) ∨
        ((∀ c ∈ w.deals.rows, c.byPairAndBlockHeight < p * 2 ^ 32 + b) ∧ ∀ c ∈ w.deals.rows,
            toLex (c.byPairAndBlockHeight, c.id) ≤ toLex (d.byPairAndBlockHeight, d.id))) := by
  unfold World.windowAt World.dealIndex
  cases hfind : (w.deals.sortedBy DealInfo.byPairAndBlockHeight).find? fun d =>
      p * 2 ^ 32 + b ≤ d.byPairAndBlockHeight with
  | none =>
    have hall : ∀ c ∈ w.deals.rows, c.byPairAndBlockHeight < p * 2 ^ 32 + b := by
      intro c hc
      simpa using find?_eq_none.mp hfind c ((mem_sortedBy _).mpr hc)
    rw [getLast?_sortedBy_iff]
    constructor
    · rintro ⟨hd, hmax⟩
      exact ⟨hd, .inr ⟨hall, hmax⟩⟩
    · rintro ⟨hd, ⟨hle, -⟩ | ⟨-, hmax⟩⟩
      · exact absurd hle (not_le.mpr (hall d hd))
      · exact ⟨hd, hmax⟩
  | some c =>
    obtain ⟨hc, hle, -⟩ := (find?_sortedBy_iff _).mp hfind
    simp only
    rw [← hfind, find?_sortedBy_iff]
    constructor
    · rintro ⟨hd, hdle, hmin⟩
      exact ⟨hd, .inl ⟨hdle, hmin⟩⟩
    · rintro ⟨hd, ⟨hdle, hmin⟩ | ⟨hall, -⟩⟩
      · exact ⟨hd, hdle, hmin⟩
      · exact absurd hle (not_le.mpr (hall c hc))

/-- Where its own windows are found, the window only depends on them. -/
theorem World.SameWindows.windowAt {p b : Nat} (h : w.SameWindows w' p) (hown : w.FindsOwn p b)
    (hown' : w'.FindsOwn p b) : w'.windowAt p b = w.windowAt p b := by
  obtain ⟨d, hd, hdp⟩ := hown
  obtain ⟨d', hd', hdp'⟩ := hown'
  obtain ⟨hmem, hfound⟩ := windowAt_eq_some_iff.mp hd
  obtain ⟨hmem', hfound'⟩ := windowAt_eq_some_iff.mp hd'
  have hold := (h d' hdp').mp hmem'
  have hnew := (h d hdp).mpr hmem
  have hkeys : toLex (d'.byPairAndBlockHeight, d'.id) = toLex (d.byPairAndBlockHeight, d.id) := by
    rcases hfound with ⟨hle, hmin⟩ | ⟨hall, hmax⟩
    · rcases hfound' with ⟨hle', hmin'⟩ | ⟨hall', -⟩
      · exact le_antisymm (hmin' d hnew hle) (hmin d' hold hle')
      · exact absurd hle (not_le.mpr (hall' d hnew))
    · rcases hfound' with ⟨hle', -⟩ | ⟨-, hmax'⟩
      · exact absurd hle' (not_le.mpr (hall d' hold))
      · exact le_antisymm (hmax d' hold) (hmax' d hnew)
  obtain rfl : d' = d := eq_of_key hold hmem (Prod.mk.inj hkeys).2
  exact hd'.trans hd.symm

/-- What is found stays own when the rows are the same, up to own windows. -/
theorem World.OwnWindow.of_rows {p b : Nat} (h : w.OwnWindow p b)
    (hrows : ∀ d ∈ w'.deals.rows, d.pairId = p ∨ d ∈ w.deals.rows)
    (hkeep : ∀ c ∈ w.deals.rows, ∃ c' ∈ w'.deals.rows,
      c'.byPairAndBlockHeight = c.byPairAndBlockHeight ∧ c'.id = c.id) : w'.OwnWindow p b := by
  intro d hd hin
  obtain ⟨hmem, hfound⟩ := windowAt_eq_some_iff.mp hd
  rcases hrows d hmem with hown | hold
  · exact hown
  · refine h d (windowAt_eq_some_iff.mpr ⟨hold, ?_⟩) hin
    rcases hfound with ⟨hle, hmin⟩ | ⟨hall, hmax⟩
    · refine .inl ⟨hle, fun c hc hcle => ?_⟩
      obtain ⟨c', hc', hkey, hid⟩ := hkeep c hc
      rw [← hkey] at hcle ⊢
      rw [← hid]
      exact hmin c' hc' hcle
    · refine .inr ⟨fun c hc => ?_, fun c hc => ?_⟩
      · obtain ⟨c', hc', hkey, -⟩ := hkeep c hc
        rw [← hkey]
        exact hall c' hc'
      · obtain ⟨c', hc', hkey, hid⟩ := hkeep c hc
        rw [← hkey, ← hid]
        exact hmax c' hc'

/-! ## `done` -/

/-- What `done` adds to the quote of a window. -/
def Done.value (env : Env) (d : Done) : Except ContractError Asset := do
  toAsset env d.quoteChain d.price.symbol (← dealValue d.price d.quantity)

/-- When a deal value is returned: the product over the unit of the token with fewer decimals. -/
theorem dealValue_eq_ok_iff {price base value : Asset} {unit : Int}
    (hunit : unit = precision (min price.symbol.precision base.symbol.precision)) :
    dealValue price base = .ok value ↔ |price.amount * base.amount| ≤ Asset.maxAmount ∧ unit ≠ 0 ∧
      ¬ (price.amount * base.amount = -2 ^ 63 ∧ unit = -1) ∧
      value = ⟨(price.amount * base.amount).tdiv unit,
        if price.symbol.precision ≥ base.symbol.precision then price.symbol else base.symbol⟩ := by
  unfold dealValue
  rw [hunit, abs_le, and_comm (a := -_ ≤ _)]
  split
  case isTrue hle =>
    rw [min_eq_right hle]
    simp [bind_eq_ok, Asset.mul_eq_ok_iff, Asset.div_eq_ok_iff, and_assoc]
  case isFalse hlt =>
    rw [min_eq_left (le_of_not_ge hlt), mul_comm price.amount]
    simp [bind_eq_ok, Asset.mul_eq_ok_iff, Asset.div_eq_ok_iff, and_assoc]

theorem dealValue_congr {price price' base base' value : Asset}
    (hproduct : price'.amount * base'.amount = price.amount * base.amount)
    (hprice : price'.symbol.precision = price.symbol.precision)
    (hbase : base'.symbol.precision = base.symbol.precision) (h : dealValue price base = .ok value) :
    ∃ value', dealValue price' base' = .ok value' ∧ value'.amount = value.amount ∧
      value'.symbol.precision = value.symbol.precision := by
  rw [dealValue_eq_ok_iff rfl, ← hproduct, ← hprice, ← hbase] at h
  obtain ⟨hrange, hunit, hover, rfl⟩ := h
  refine ⟨_, (dealValue_eq_ok_iff rfl).mpr ⟨hrange, hunit, hover, rfl⟩, rfl, ?_⟩
  split
  · exact hprice
  · exact hbase

/-- The factors of a deal value are in the range of amounts, unless one of them is zero. -/
theorem dealValue_range {price base value : Asset} (h : dealValue price base = .ok value)
    (hprice : price.amount ≠ 0) (hbase : base.amount ≠ 0) :
    price.isAmountWithinRange ∧ base.isAmountWithinRange := by
  have hproduct := ((dealValue_eq_ok_iff rfl).mp h).1
  rw [abs_mul] at hproduct
  have hp := Int.one_le_abs hprice
  have hb := Int.one_le_abs hbase
  exact ⟨abs_le.mp (le_trans (le_mul_of_one_le_right (abs_nonneg _) hb) hproduct),
    abs_le.mp (le_trans (le_mul_of_one_le_left (abs_nonneg _) hp) hproduct)⟩

variable {t : Taker}

/-- **The `done` of a fill** adds what was filled. -/
theorem Fill.Sound.value {f : Fill} (hcoherent : t.pair.Coherent env)
    (hquote : t.price.symbol = t.pair.quote) (h : f.Sound env t) :
    f.done.value env = .ok f.quote := by
  have hprice := h.dealPrice_symbol hquote
  obtain ⟨value, hvalue, hquote⟩ := bind_eq_ok.mp h.quote_eq
  have hbase : toAsset env t.pair.baseChain t.pair.baseSym ⟨f.deal, t.pair.base⟩ = .ok f.base :=
    h.base_eq
  have hdone := h.price_eq
  unfold toAsset at hbase hdone
  rw [hcoherent.base_supply] at hbase
  rw [hcoherent.quote_supply] at hdone
  have hpricePrec : t.pair.quoteSym.precision = (t.dealPrice f.order).symbol.precision := by
    rw [hprice, hcoherent.quote_precision]
  -- Both amounts are unchanged, unless their product is zero.
  have hproduct : f.done.price.amount * f.done.quantity.amount =
      (t.dealPrice f.order).amount * f.deal := by
    rw [h.quantity_eq]
    by_cases hp : (t.dealPrice f.order).amount = 0
    · rw [zero_of_convert hp hdone, hp, zero_mul, zero_mul]
    by_cases hb : f.deal = 0
    · rw [zero_of_convert hb hbase, hb, mul_zero, mul_zero]
    obtain ⟨⟨hplow, hphigh⟩, hblow, hbhigh⟩ := dealValue_range hvalue hp hb
    unfold Asset.maxAmount at hplow hphigh hblow hbhigh
    rw [convert_same hpricePrec (by omega) (by omega) hdone,
      convert_same hcoherent.base_precision.symm (by omega) (by omega) hbase]
  have hsym : f.done.price.symbol = t.pair.quoteSym := convert_symbol hdone
  have hprecision : f.done.price.symbol.precision = (t.dealPrice f.order).symbol.precision := by
    rw [hsym, hpricePrec]
  have hqprecision : f.done.quantity.symbol.precision = t.pair.base.precision := by
    rw [h.quantity_eq, convert_symbol hbase, hcoherent.base_precision]
  obtain ⟨value', hvalue', hamount, hvprecision⟩ :=
    dealValue_congr hproduct hprecision hqprecision hvalue
  refine bind_eq_ok.mpr ⟨value', hvalue', ?_⟩
  rw [h.chains.2, hsym, ← hquote]
  show toAsset env t.pair.quoteChain t.pair.quoteSym value' = _
  unfold toAsset TradingPair.chainOf TradingPair.symOf
  unfold convert
  rw [hamount, hvprecision]

/-- What `done` adds to the windows of a pair. -/
def Done.added (env : Env) (leg : Leg) (pairId : Nat) (d : Done) : Int :=
  if d.pairId = pairId then
    match leg with
    | .base => d.quantity.amount
    | .quote => (d.value env).toOption.elim 0 Asset.amount
  else 0

/-- One of two amounts. -/
def Leg.elim (base quote : Asset) : Leg → Asset
  | .base => base
  | .quote => quote

/-- What the windows of a pair sum up of a token. -/
def World.summed (w : World) (leg : Leg) (pairId : Nat) : Int :=
  w.deals.total fun d => if d.pairId = pairId then (leg.elim d.vol d.sum).amount else 0

/-- What a fill of a pair fills of a token. -/
def Event.filledOf : Leg → Nat → Event → Int
  | .base => filledBase
  | .quote => filledQuote

/-! ## Steps -/

/-- The windows, with the `done` actions that are still to run, sum up the fills. -/
structure MarkInvariant (env : Env) (later : List Done) (w : World) : Prop where
  ends : WindowsFit w
  sums : ∀ leg p, w.isMarked p = true → w.summed leg p + (later.map (Done.added env leg p)).sum =
    ((sinceMarked p w.fills).map (Event.filledOf leg p)).sum

theorem isMarked_of_deals {p : Nat} (hdeals : w'.deals = w.deals) : w'.isMarked p = w.isMarked p := by
  unfold World.isMarked World.dealIndex
  rw [hdeals]

theorem MarkInvariant.of_eq {later : List Done} (h : MarkInvariant env later w)
    (hdeals : w'.deals = w.deals) (hfills : w'.fills = w.fills) : MarkInvariant env later w' := by
  refine ⟨fun d hd => h.ends d (hdeals ▸ hd), fun leg p hp => ?_⟩
  rw [hfills, ← h.sums leg p (isMarked_of_deals hdeals ▸ hp), World.summed, hdeals]
  rfl

theorem total_added {p q : Nat} {d c : DealInfo} {f : DealInfo → Int} {x : Int}
    (hd : d ∈ w.deals.rows) (hid : c.id = d.id) (hpair : c.pairId = d.pairId) (hq : d.pairId = q)
    (hx : f c = f d + x) :
    (w.deals.put c).total (fun d => if d.pairId = p then f d else 0) =
      w.deals.total (fun d => if d.pairId = p then f d else 0) + if q = p then x else 0 := by
  rw [total_put hd hid.symm, hpair, hq]
  split
  · rw [hx]
    omega
  · omega

theorem inserted_iff {d new : DealInfo} (hid : w.deals.find? new.id = none) (hne : d ≠ new) :
    d ∈ (w.deals.insert new).rows ↔ d ∈ w.deals.rows := by
  rw [mem_insert]
  refine ⟨fun h => h.elim (fun heq => absurd heq hne) And.left, fun h => .inr ⟨h, ?_⟩⟩
  exact find?_eq_none_iff.mp hid d h

theorem isMarked_congr (hfit : WindowsFit w) (hfit' : WindowsFit w') {p : Nat}
    (h : (∃ d ∈ w'.deals.rows, d.pairId = p) ↔ ∃ d ∈ w.deals.rows, d.pairId = p) :
    w'.isMarked p = w.isMarked p := by
  rw [Bool.eq_iff_iff, isMarked_iff hfit, isMarked_iff hfit', h]

variable {block : Nat}

/-- A window `x` of a marked pair was changed or added, and no other row. -/
theorem windows_changed {v : World} {q : Nat} {x : DealInfo} (hends : WindowsFit w)
    (hmarked : w.isMarked q = true) (hown : w.OwnWindow q block) (hx : x.pairId = q)
    (hend : x.blockHeightEnd < 2 ^ 32) (hrows : ∀ d ∈ v.deals.rows, d = x ∨ d ∈ w.deals.rows)
    (hkeep : ∀ c ∈ w.deals.rows, c ∈ v.deals.rows ∨ (x ∈ v.deals.rows ∧ c.pairId = q ∧
      x.byPairAndBlockHeight = c.byPairAndBlockHeight ∧ x.id = c.id)) :
    WindowsFit v ∧ (∀ p, v.isMarked p = w.isMarked p) ∧ v.OwnWindow q block ∧
      ∀ p, p ≠ q → w.SameWindows v p := by
  have hfit : WindowsFit v := by
    intro d hd
    rcases hrows d hd with rfl | hold
    · exact hend
    · exact hends d hold
  refine ⟨hfit, fun p => isMarked_congr hends hfit ⟨?_, ?_⟩,
    hown.of_rows (fun d hd => (hrows d hd).imp_left fun heq : d = x => heq ▸ hx) fun c hc => ?_,
    fun p hne d hd => ⟨fun hmem => ?_, fun hmem => ?_⟩⟩
  · rintro ⟨d, hd, rfl⟩
    rcases hrows d hd with rfl | hold
    · exact (isMarked_iff hends).mp (hx ▸ hmarked)
    · exact ⟨d, hold, rfl⟩
  · rintro ⟨c, hc, rfl⟩
    rcases hkeep c hc with hkept | ⟨hmem, hpair, -⟩
    · exact ⟨c, hkept, rfl⟩
    · exact ⟨x, hmem, hx.trans hpair.symm⟩
  · rcases hkeep c hc with hkept | ⟨hmem, -, hkeys⟩
    · exact ⟨c, hkept, rfl, rfl⟩
    · exact ⟨x, hmem, hkeys⟩
  · exact (hrows d hmem).resolve_left fun heq => hne (hd.symm.trans (heq ▸ hx))
  · exact (hkeep d hmem).resolve_right fun h => hne (hd.symm.trans h.2.1)

/-- What `upd_mark` does to the windows, where the one it finds is of the pair. -/
theorem Marks.spec {q : Nat} {sum vol : Asset} (hends : WindowsFit w)
    (hown : w.isMarked q = true → w.OwnWindow q block) (h : Marks env block sum vol w q w') :
    WindowsFit w' ∧ (∀ p, w'.isMarked p = w.isMarked p) ∧
      (∀ leg p, w.isMarked p = true → w'.summed leg p =
        w.summed leg p + if q = p then (leg.elim vol sum).amount else 0) ∧
      (w.isMarked q = true → w'.OwnWindow q block) ∧ ∀ p, p ≠ q → w.SameWindows w' p := by
  cases h with
  | none hunmarked =>
    refine ⟨hends, fun _ => rfl, fun leg p hp => ?_, hown, fun p _ x _ => Iff.rfl⟩
    have hne : q ≠ p := by
      rintro rfl
      exact absurd (hunmarked.symm.trans hp) (by simp)
    rw [if_neg hne, add_zero]
  | @added d hmarked hwindow hin hsumSym hvolSym =>
    have hmem := mem_of_windowAt hwindow
    have hdown := hown hmarked d hwindow hin
    generalize hd' : ({ d with
      sum := ⟨d.sum.amount + sum.amount, d.sum.symbol⟩
      vol := ⟨d.vol.amount + vol.amount, d.vol.symbol⟩ } : DealInfo) = d'
    have hid : d'.id = d.id := by rw [← hd']
    have hpair : d'.pairId = d.pairId := by rw [← hd']
    have hend : d'.blockHeightEnd = d.blockHeightEnd := by rw [← hd']
    obtain ⟨hfit, hsame, hown', hother⟩ := windows_changed (v := { w with deals := w.deals.put d' })
      hends hmarked (hown hmarked) (hpair.trans hdown) (hend ▸ hends d hmem)
      (fun c hc => (mem_put hc).imp_right And.left) fun c hc => by
        by_cases hcid : c.id = d.id
        · obtain rfl : c = d := eq_of_key hc hmem hcid
          refine .inr ⟨mem_put_self hc hid.symm, hdown, ?_, hid⟩
          unfold DealInfo.byPairAndBlockHeight
          rw [hpair, hend]
        · exact .inl (mem_put_of_ne hc fun heq => hcid (heq.trans hid))
    refine ⟨hfit, hsame, fun leg p _ => ?_, fun _ => hown', hother⟩
    exact total_added (f := fun x => (leg.elim x.vol x.sum).amount) hmem hid hpair hdown
      (by rw [← hd']; cases leg <;> rfl)
  | @window d new hmarked hwindow hout hid hnew =>
    obtain ⟨hpair, hnewSum, hnewVol, hend⟩ := hnew
    obtain ⟨hfit, hsame, hown', hother⟩ := windows_changed
      (v := { w with deals := w.deals.insert new }) hends hmarked (hown hmarked) hpair hend
      (fun c hc => (mem_insert.mp hc).imp_right And.left)
      fun c hc => .inl (mem_insert.mpr (.inr ⟨hc, find?_eq_none_iff.mp hid c hc⟩))
    refine ⟨hfit, hsame, fun leg p _ => (total_insert hid).trans ?_, fun _ => hown', hother⟩
    rw [hpair, ← hnewVol, ← hnewSum]
    cases leg <;> rfl

/-- **One `done`** of a fill. -/
theorem MarkInvariant.marks {d : Done} {later : List Done} {sum : Asset}
    (h : MarkInvariant env (d :: later) w) (hvalue : d.value env = .ok sum)
    (hown : w.isMarked d.pairId = true → w.OwnWindow d.pairId block)
    (hmarks : Marks env block sum d.quantity w d.pairId w') :
    MarkInvariant env later w' ∧ (w'.isMarked d.pairId = true → w'.OwnWindow d.pairId block) ∧
      ∀ p, p ≠ d.pairId → w.SameWindows w' p := by
  have hadded : ∀ leg p, d.added env leg p =
      if d.pairId = p then (leg.elim d.quantity sum).amount else 0 := by
    intro leg p
    unfold Done.added
    rw [hvalue]
    cases leg <;> rfl
  have hfills : w'.fills = w.fills := by cases hmarks <;> rfl
  obtain ⟨hfit, hsame, htotals, hown', hother⟩ := hmarks.spec h.ends hown
  refine ⟨⟨hfit, fun leg p hp => ?_⟩, fun hp => hown' (hsame _ ▸ hp), hother⟩
  rw [hsame] at hp
  rw [htotals leg p hp, ← hadded, add_assoc, hfills]
  exact h.sums leg p hp

/-- **The `done` actions** of a match. -/
theorem MarkInvariant.runLater {pair : TradingPair} {u : Unit} :
    ∀ {l : List Done} {w w' : World}, MarkInvariant env l w → (∀ d ∈ l, d.pairId = pair.id ∧
        w.pairOf d.baseChain d.quantity.symbol d.quoteChain d.price.symbol = some pair) →
      (w.isMarked pair.id = true → w.OwnWindow pair.id block) →
      Exchange.runLater env block l w = .ok u w' →
      MarkInvariant env [] w' ∧ ∀ p, p ≠ pair.id → w.SameWindows w' p
  | [], w, w', h, _, _, hrun => by
    obtain ⟨-, rfl⟩ := pure_ok.mp hrun
    exact ⟨h, fun p _ x _ => Iff.rfl⟩
  | d :: l, w, w', h, hl, hown, hrun => by
    obtain ⟨v, w1, hd, hrun⟩ := bind_ok.mp hrun
    obtain ⟨value, sum, pair', hvalue, hsum, hpair, hmarks⟩ := doneAction_marks hd
    obtain ⟨deals, hframe⟩ := doneAction_frame hd
    obtain ⟨hid, hpair'⟩ := hl d (mem_cons_self ..)
    obtain rfl : pair' = pair := Option.some.inj (hpair.symm.trans hpair')
    have hdone : d.value env = .ok sum := bind_eq_ok.mpr ⟨value, hvalue, hsum⟩
    rw [← hid] at hmarks hown
    obtain ⟨h1, hown1, hsame1⟩ := h.marks hdone hown hmarks
    rw [hid] at hown1 hsame1
    have hl1 : ∀ e ∈ l, e.pairId = pair'.id ∧
        w1.pairOf e.baseChain e.quantity.symbol e.quoteChain e.price.symbol = some pair' := by
      intro e he
      rw [hframe]
      exact hl e (mem_cons_of_mem _ he)
    obtain ⟨h', hsame⟩ := runLater h1 hl1 hown1 hrun
    exact ⟨h', fun p hp x hx => (hsame p hp x hx).trans (hsame1 p hp x hx)⟩

/-- `mark` starts with nothing filled. -/
theorem MarkInvariant.marked {pair : TradingPair} {window : DealInfo} (h : MarkInvariant env [] w)
    (hunmarked : w.isMarked window.pairId = false) (hid : w.deals.find? window.id = none)
    (hstarts : window.Starts env pair) :
    MarkInvariant env [] { w with
      deals := w.deals.insert window
      trace := .marked window.pairId :: w.trace } := by
  have hnone : ∀ d ∈ w.deals.rows, d.pairId ≠ window.pairId := fun d hd heq =>
    absurd ((isMarked_iff h.ends).mpr ⟨d, hd, heq⟩) (by simp [hunmarked])
  have hzero : ∀ leg, w.summed leg window.pairId = 0 := by
    intro leg
    refine sum_eq_zero fun x hx => ?_
    obtain ⟨d, hd, rfl⟩ := mem_map.mp hx
    exact if_neg (hnone d hd)
  have hfit : WindowsFit { w with
      deals := w.deals.insert window
      trace := .marked window.pairId :: w.trace } := forall_mem_insert hstarts.end_lt h.ends
  have hfills : ∀ p, sinceMarked p (Event.marked window.pairId :: w.fills) =
      if window.pairId = p then [] else .marked window.pairId :: sinceMarked p w.fills := by
    intro p
    unfold sinceMarked
    by_cases hp : window.pairId = p <;> simp [hp]
  have hother : ∀ p, window.pairId ≠ p → ({ w with
      deals := w.deals.insert window
      trace := .marked window.pairId :: w.trace } : World).isMarked p = w.isMarked p := by
    refine fun p hp => isMarked_congr h.ends hfit (exists_congr fun d => and_congr_left fun hd => ?_)
    exact inserted_iff hid fun heq => hp ((congrArg DealInfo.pairId heq).symm.trans hd)
  refine ⟨hfit, fun leg p hp => (add_zero _).trans ((total_insert hid).trans ?_)⟩
  have hstart : (leg.elim window.vol window.sum).amount = 0 ∧
      Event.filledOf leg p (.marked window.pairId) = 0 := by
    cases leg with
    | base => exact ⟨hstarts.vol_zero, rfl⟩
    | quote => exact ⟨hstarts.sum_zero, rfl⟩
  show w.summed leg p + _ = ((sinceMarked p (.marked window.pairId :: w.fills)).map _).sum
  rw [hfills]
  by_cases hne : window.pairId = p
  · rw [if_pos hne, if_pos hne, hstart.1, ← hne, hzero]
    rfl
  · rw [hother p hne] at hp
    rw [if_neg hne, if_neg hne, map_cons, sum_cons, hstart.2, zero_add]
    exact h.sums leg p hp

theorem MarkInvariant.filled {fs : List Fill} (h : MarkInvariant env [] w)
    (hdeals : w'.deals = w.deals) (hfilled : Filled env t fs w w')
    (hvalue : ∀ f ∈ fs, f.done.value env = .ok f.quote) :
    MarkInvariant env (fs.map Fill.done) w' := by
  have hsince : ∀ p (g : Event → Int), ((sinceMarked p w'.fills).map g).sum =
      (fs.map fun f => g (f.event t)).sum + ((sinceMarked p w.fills).map g).sum := by
    intro p g
    unfold sinceMarked
    rw [hfilled.fills, takeWhile_append_of_pos, map_append, sum_append,
      map_reverse, sum_reverse, map_map]
    · rfl
    · intro e he
      obtain ⟨f, -, rfl⟩ := mem_map.mp (mem_reverse.mp he)
      simp [Fill.event]
  have hadded : ∀ leg p, ((fs.map Fill.done).map (Done.added env leg p)).sum =
      (fs.map fun f => Event.filledOf leg p (f.event t)).sum := by
    intro leg p
    rw [map_map]
    refine congrArg sum (map_congr_left fun f hf => ?_)
    obtain ⟨-, -, -, -, hquantity, hid, -⟩ := hfilled.sound f hf
    cases leg with
    | base => simp only [Function.comp, Done.added, Fill.event, Event.filledOf, filledBase,
        hquantity, hid]
    | quote =>
      simp only [Function.comp, Done.added, Fill.event, Event.filledOf, filledQuote, hid, hvalue f hf]
      rfl
  refine ⟨fun d hd => h.ends d (hdeals ▸ hd), fun leg p hp => ?_⟩
  have hold := h.sums leg p (isMarked_of_deals hdeals ▸ hp)
  rw [hsince, hadded, ← hold, World.summed, hdeals]
  exact (add_comm _ _).trans (congrArg (_ + ·) (add_zero _).symm)

theorem Fill.Sound.pairOf {f : Fill} (hpairs : PairsFit env w.pairs)
    (hpair : t.pair ∈ w.pairs.rows) (h : f.Sound env t) :
    w.pairOf f.done.baseChain f.done.quantity.symbol f.done.quoteChain f.done.price.symbol =
      some t.pair := by
  have hbase : f.done.quantity.symbol.name = t.pair.baseSym.name := by
    have hconv : toAsset env t.pair.baseChain t.pair.baseSym ⟨f.deal, t.pair.base⟩ = .ok f.base :=
      h.base_eq
    rw [h.quantity_eq]
    exact (toAsset_supply hconv).1
  have hquote : f.done.price.symbol.name = t.pair.quoteSym.name := (toAsset_supply h.price_eq).1
  refine hpairs.pairOf hpair ?_
  unfold TradingPair.trades
  rw [h.chains.1, h.chains.2, hbase, hquote]
  simp

/-- What is summed up since a pair was marked only depends on fills and marks. -/
theorem sum_sinceMarked {g : Event → Int} {p : Nat} (hg : ∀ e, e.isDeal = false → g e = 0) :
    ∀ trace : List Event, ((sinceMarked p trace).map g).sum =
      ((sinceMarked p (trace.filter isDeal)).map g).sum
  | [] => rfl
  | e :: trace => by
    have ih := sum_sinceMarked hg (p := p) trace
    unfold sinceMarked at ih ⊢
    rw [takeWhile_cons]
    by_cases hdeal : e.isDeal = true
    · rw [filter_cons_of_pos hdeal, takeWhile_cons]
      split
      · rw [map_cons, map_cons, sum_cons, sum_cons, ih]
      · rfl
    · have hne : e ≠ .marked p := by
        rintro rfl
        exact hdeal rfl
      rw [filter_cons_of_neg hdeal, if_pos (decide_eq_true hne), map_cons, sum_cons,
        hg e (by simpa using hdeal), ih, zero_add]

theorem MarkInvariant.marksReflect (h : MarkInvariant env [] w) : MarksReflect w := by
  have hsums : ∀ leg p, w.isMarked p = true →
      w.summed leg p = ((sinceMarked p w.trace).map (Event.filledOf leg p)).sum := by
    intro leg p hp
    refine ((add_zero _).symm.trans (h.sums leg p hp)).trans (sum_sinceMarked (fun e he => ?_) _).symm
    cases leg <;> cases e <;> first | rfl | exact absurd he (by simp [isDeal])
  exact fun p hp => ⟨hsums .base p hp, hsums .quote p hp⟩

/-! ## Runs -/

theorem Quiet.refunds {l : List (TradingPair × Order)} (h : Refunds env l w w') : Quiet w w' := by
  induction h with
  | nil => exact .refl _
  | cons _ hrefund _ ih =>
    refine .trans ?_ ih
    obtain ⟨quant, w1, w2, -, hsend, hdebit, rfl⟩ := refundOrder_cases hrefund
    exact ((Quiet.send hsend).trans (Quiet.debit hdebit)).trans ⟨rfl, rfl⟩

theorem StakeFrame.fills (h : StakeFrame w w') : w'.fills = w.fills := by
  obtain ⟨e, he, htrace⟩ := h.trace
  unfold World.fills
  rw [htrace, filter_cons_of_neg]
  cases e <;> first | exact Bool.false_ne_true | exact absurd he (by simp [Event.isBalance])

theorem Filled.eq_nil {fs : List Fill} (h : Filled env t fs w w')
    (hnone : w'.trace.filter (Event.fills t.pair.id) = w.trace.filter (Event.fills t.pair.id)) :
    fs = [] := by
  have hdeals : ∀ trace : List Event, (trace.filter isDeal).filter (Event.fills t.pair.id) =
      trace.filter (Event.fills t.pair.id) := by
    intro trace
    rw [filter_filter]
    refine filter_congr fun e _ => ?_
    cases e <;> simp [Event.fills, isDeal]
  rw [← hdeals, ← hdeals w.trace] at hnone
  have hfills := congrArg (filter (Event.fills t.pair.id)) h.fills
  unfold World.fills at hfills
  rw [hnone, filter_append] at hfills
  have hevents := self_eq_append_left.mp hfills
  cases fs with
  | nil => rfl
  | cons f fs =>
    have hf : f.event t ∈ ((f :: fs).map (Fill.event t)).reverse.filter (Event.fills t.pair.id) :=
      mem_filter.mpr ⟨by simp, by simp [Fill.event, Event.fills]⟩
    rw [hevents] at hf
    simp at hf

/-- **Calls.** -/
theorem Ran.marks {c : Call} (hlater : w.later = []) (hwell : WellFormed env w)
    (h : MarkInvariant env [] w) (hc : MarksApart w c) (hran : Ran env c w w') :
    MarkInvariant env [] w' ∧ MarksKept w w' := by
  have hquiet : ∀ {w' : World}, w'.deals = w.deals → w'.fills = w.fills →
      MarkInvariant env [] w' ∧ MarksKept w w' := fun hdeals hfills =>
    ⟨h.of_eq hdeals hfills, fun _ _ _ d _ => by rw [hdeals]⟩
  cases hran with
  | registered | created | opened | configured | pointed => exact hquiet rfl rfl
  | closed _ _ _ _ _ hrefunds | cancelled _ _ hrefunds =>
    exact hquiet (hrefunds.writes (L := fun _ => True)).sameBook.deals (Quiet.refunds hrefunds).fills
  | claimed hbase hquote hpoints =>
    obtain ⟨held, fees, trace, rfl, hfills⟩ := hbase.frame hquote hpoints
    exact hquiet rfl hfills
  | @marked pair window _ hunmarked hid hstarts =>
    refine ⟨h.marked hunmarked hid hstarts, fun p hp _ d hd => ?_⟩
    refine inserted_iff hid ?_
    rintro rfl
    rw [hd] at hunmarked
    exact absurd (hunmarked.symm.trans hp) (by simp)
  | done haction _ =>
    unfold MarksApart at hc
    rw [haction] at hc
    exact hc.elim
  | withdrawn _ _ _ hsend hsub =>
    obtain rfl := inlineTransfer_frame hsend
    obtain ⟨accounts, rfl⟩ := subBalance_frame hsub
    exact hquiet rfl rfl
  | deposited _ _ _ hcredit =>
    obtain ⟨accounts, rfl⟩ := credit_frame hcredit
    exact hquiet rfl rfl
  | staked _ _ _ _ _ hrun =>
    have hframe := freeze4_frame hrun
    exact hquiet hframe.deals hframe.fills
  | unstaked _ hrun =>
    have hframe := unfreeze4_frame hrun
    exact hquiet hframe.deals hframe.fills
  | @matched i w0 w1 w' hcomes hmatch hdone =>
    obtain ⟨m⟩ := hmatch
    have hown : w.isMarked i.pairId = true → w.OwnWindow i.pairId c.block := by
      have hincoming := hcomes.incoming
      unfold MarksApart at hc
      split at hc
      · next haction => exact hc.elim
      · rw [hincoming] at hc
        exact hc
    obtain ⟨held, rfl⟩ := hcomes.held
    have h0 : MarkInvariant env [] { w with held := held } := h.of_eq rfl rfl
    obtain ⟨range, fs, -, -, hfilled⟩ := m.fills
    have hpairMem : m.pair ∈ w.pairs.rows := (find?_eq_some_iff.mp m.pair_eq).1
    have hpairs : PairsFit env w.pairs := hwell.tables.pairs
    have hdeals : w1.deals = w.deals := m.sameBook.deals
    have h1 : MarkInvariant env (fs.map Fill.done) w1 := h0.filled hdeals hfilled fun f hf =>
      (hfilled.sound f hf).value (hpairs.coherent m.pair hpairMem) (convert_symbol m.price_eq)
    have hpending : w1.later = fs.map Fill.done := by
      rw [hfilled.later]
      show w.later ++ _ = _
      rw [hlater, nil_append]
    rw [hpending] at hdone
    have hstart : MarkInvariant env (fs.map Fill.done) { w1 with later := [] } := h1.of_eq rfl rfl
    have hpairOf : ∀ d ∈ fs.map Fill.done, d.pairId = m.pair.id ∧
        ({ w1 with later := [] } : World).pairOf d.baseChain d.quantity.symbol d.quoteChain
          d.price.symbol = some m.pair := by
      intro d hd
      obtain ⟨f, hf, rfl⟩ := mem_map.mp hd
      have hsound := hfilled.sound f hf
      refine ⟨hsound.pairId_eq, ?_⟩
      rw [show ({ w1 with later := [] } : World).pairs = w.pairs from m.sameBook.pairs]
      exact hsound.pairOf hpairs hpairMem
    have hown1 : ({ w1 with later := [] } : World).isMarked m.pair.id = true →
        ({ w1 with later := [] } : World).OwnWindow m.pair.id c.block := by
      rw [show ({ w1 with later := [] } : World).deals = w.deals from hdeals, m.pair_id]
      exact hown
    obtain ⟨h', hsame⟩ := hstart.runLater hpairOf hown1 hdone
    refine ⟨h', fun p hp hnone => ?_⟩
    by_cases hpair : p = m.pair.id
    · obtain ⟨deals, hframe⟩ := runLater_frame hdone
      have htrace : w'.trace = w1.trace := by rw [hframe]
      rw [htrace, hpair] at hnone
      obtain rfl := hfilled.eq_nil hnone
      obtain ⟨-, rfl⟩ := pure_ok.mp hdone
      intro d _
      rw [← hdeals]
    · intro d hd
      rw [hsame p hpair d hd, ← hdeals]

/-- The average price is that of the windows of the pair. -/
theorem MarksKept.avgPrices (hpairs : PairsFit env w'.pairs)
    (hmem : ∀ p ∈ w.pairs.rows, p ∈ w'.pairs.rows) (hfit : WindowsFit w) (hfit' : WindowsFit w')
    (h : MarksKept w w') : AvgPricesKept w w' := by
  intro block baseChain baseSym quoteChain quoteSym pair hpair hmarked hnone hown hown'
  have htrades := find?_some hpair
  have hpair' := hpairs.pairOf (hmem pair (mem_of_find?_eq_some hpair)) htrades
  have hsame := h pair.id hmarked hnone
  have hmarked' : w'.isMarked pair.id = w.isMarked pair.id :=
    isMarked_congr hfit hfit' (exists_congr fun d => and_congr_left (hsame d))
  unfold getAvgPrice
  rw [hpair, hpair']
  simp only [hmarked', hsame.windowAt hown hown']

/-- **Marks**: as long as no account calls `done` and the window of every fill is found, the windows
of a marked pair sum up its fills since it was marked; they only change with a fill of it, and so
does the average price where they are found. -/
theorem marksReflect_run (env : Env) (cs : List Call) (h : Along env MarksApart cs {}) :
    MarksReflect (after env cs {}) ∧ ∀ c, MarksApart (after env cs {}) c →
      MarksKept (after env cs {}) (c.after env (after env cs {})) ∧
        AvgPricesKept (after env cs {}) (c.after env (after env cs {})) := by
  have hstart : MarkInvariant env [] {} := by
    have hnone : ∀ p, ({} : World).isMarked p = true → False := fun p hp => absurd hp (by
      simp [World.isMarked, World.dealIndex, sortedBy, empty])
    exact ⟨fun d hd => absurd hd (by simp [empty]), fun _ p hp => (hnone p hp).elim⟩
  obtain ⟨hlater, hwell, hend⟩ := WellFormed.induction
    (fun hlater hw h hc hran => (hran.marks hlater hw h hc).1) cs hstart h
  refine ⟨hend.marksReflect, fun c hc => ?_⟩
  unfold Call.after Rollback.attempt
  cases hrun : c.step env (after env cs {}) with
  | ok w' =>
    have hran := (Ran.of_run hlater (Call.step_eq_ok_iff.mp hrun)).1
    obtain ⟨hend', hkept⟩ := hran.marks hlater hwell hend hc
    exact ⟨hkept, hkept.avgPrices (hran.wellFormed hwell).tables.pairs hran.book.1
      hend.ends hend'.ends⟩
  | error e => exact ⟨fun p _ _ d _ => Iff.rfl, fun _ _ _ _ _ _ _ _ _ _ _ => rfl⟩

/-- The pair is marked, and an ask is filled by a bid. -/
def markRun : List Call :=
  openRun ++ [callOf 2 (.mark 5 abc mainChain sys),
      callOf 3 (.deposit alice 5 ⟨10, abc⟩ "trade;alice;0;0.0500 SYS;0;dex;;1".toList),
      callOf 3 (.deposit bob mainChain ⟨5000, sys⟩ "trade;bob;0;0.0500 SYS;1;dex;;1".toList)]

theorem marksReflect_markRun : Along market MarksApart markRun {} ∧
    MarksReflect (after market markRun {}) ∧ (after market markRun {}).isMarked 0 = true ∧
    (after market markRun {}).volume 0 = 10 ∧ (after market markRun {}).turnover 0 = 5000 := by
  have hrun : Along market MarksApart markRun {} := by decide +kernel
  exact ⟨hrun, (marksReflect_run market markRun hrun).1, by decide +kernel, by decide +kernel,
    by decide +kernel⟩

/-- After the fill, an account reports a `done` of its own. -/
def reportRun : List Call :=
  markRun ++
    [⟨[alice], 4, .doneAction ⟨alice, mainChain, ⟨9000000, sys⟩, 5, ⟨1000000, abc⟩, 0, 0, 0⟩⟩]

/-- **A `done` without a fill** changes the marks of a pair. -/
theorem done_without_fill : ¬ MarksReflect (after market reportRun {}) := by
  intro h
  have hmarked : (after market reportRun {}).isMarked 0 = true := by decide +kernel
  have hvolume : (after market reportRun {}).volume 0 = 1000010 := by decide +kernel
  have hfilled : ((sinceMarked 0 (after market reportRun {}).trace).map
      (filledBase 0)).sum = 10 := by decide +kernel
  have heq := (h 0 hmarked).1
  rw [hvolume, hfilled] at heq
  exact absurd heq (by decide)

end Forceio.Exchange
