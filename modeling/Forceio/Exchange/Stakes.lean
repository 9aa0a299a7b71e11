import Forceio.Exchange.Effects

/-!
# Stakes of the exchanges

What `freeze4` and `unfreeze4` do to the stakes and to the flags that follow them.

Results:
* `freeze4_cases`, `unfreeze4_cases`: the two, inverted.
-/

namespace Forceio.Exchange

open Forceio.Lib Exec Forceio.Eosiolib
open Forceio.Chain (AccountName)

variable {env : Env} {w w' : World}
variable {excAcc action : AccountName} {message : String} {pairId : Nat} {u : Unit}
  {quantity : Asset} {auth : List AccountName}

/-! ## Stakes -/

theorem active_bind_ok {β : Type} {b : β} {f : Unit → ExchangeM β}
    (h : (requireActive excAcc message >>= f) w = .ok b w') :
    w.isExcFrozen excAcc = false ∧ f () w = .ok b w' := by
  obtain ⟨u, w1, h, hf⟩ := bind_ok.mp h
  obtain ⟨hactive, rfl⟩ := assert_ok.mp h
  exact ⟨hactive, hf⟩

theorem changeFee_cases {change : FeeInfo → Except ContractError FeeInfo}
    (h : changeFee excAcc pairId message change w = .ok u w') :
    ∃ row row', w.feeOf excAcc pairId = some row ∧ change row = .ok row' ∧
      w' = { w with fees := w.fees.put row' } := by
  unfold changeFee at h
  rw [get_bind_ok] at h
  cases hrow : w.feeOf excAcc pairId with
  | none => rw [hrow] at h; exact absurd h throw_ne_ok
  | some row =>
    rw [hrow] at h
    obtain ⟨row', hchange, h⟩ := lift_bind_ok.mp h
    cases h
    exact ⟨row, row', rfl, hchange, rfl⟩

theorem setExcFrozen_cases {frozen : Bool} (h : setExcFrozen frozen message excAcc w = .ok u w') :
    ∃ e, w.exchanges.find? excAcc = some e ∧
      w' = { w with exchanges := w.exchanges.put { e with frozen := frozen } } := by
  unfold setExcFrozen at h
  rw [get_bind_ok] at h
  cases he : w.exchanges.find? excAcc with
  | none => rw [he] at h; exact absurd h throw_ne_ok
  | some e =>
    rw [he] at h
    cases h
    exact ⟨e, rfl, rfl⟩

/-- The fees and points of a row. -/
def FeeInfo.SameFees (f f' : FeeInfo) : Prop :=
  f'.id = f.id ∧ f'.excAcc = f.excAcc ∧ f'.pairId = f.pairId ∧ f'.feesBase = f.feesBase ∧
    f'.feesQuote = f.feesQuote ∧ f'.points = f.points ∧ f'.pointsEnabled = f.pointsEnabled

theorem of_freezeOf {f : FreezeInfo} (h : w.freezeOf excAcc action pairId = some f) :
    f ∈ w.freezed.rows ∧ f.excAcc = excAcc ∧ f.action = action ∧ f.pairId = pairId :=
  ⟨List.mem_of_find?_eq_some h, by simpa using List.find?_some h⟩

/-- A stake changed to an amount. -/
def FreezeInfo.withStake (f : FreezeInfo) (amount : Int) : FreezeInfo :=
  { f with staked := ⟨amount, f.staked.symbol⟩ }

/-- What happens to the stake under a key. -/
inductive AddsStake (excAcc action : AccountName) (pairId : Nat) (quantity : Asset) (w : World) :
    Bool → World → Prop
  | new {id : Nat} (hnone : w.freezeOf excAcc action pairId = none)
      (hid : w.freezed.find? (toLex (excAcc, id)) = none) :
      AddsStake excAcc action pairId quantity w true
        { w with freezed := w.freezed.insert ⟨id, excAcc, action, pairId, quantity⟩ }
  | more {f : FreezeInfo} (hrow : w.freezeOf excAcc action pairId = some f)
      (hsym : quantity.symbol = f.staked.symbol) :
      AddsStake excAcc action pairId quantity w false
        { w with freezed := w.freezed.put (f.withStake (f.staked.amount + quantity.amount)) }

theorem addStake_adds {isNew : Bool} (h : addStake excAcc action pairId quantity w = .ok isNew w') :
    AddsStake excAcc action pairId quantity w isNew w' := by
  unfold addStake at h
  rw [get_bind_ok] at h
  cases hrow : w.freezeOf excAcc action pairId with
  | none =>
    rw [hrow] at h
    simp only at h
    generalize nextKey ((w.freezed.rows.filter fun f => f.excAcc = excAcc).map FreezeInfo.id) = id
      at h
    cases hid : w.freezed.find? (toLex (excAcc, id)) with
    | some f => rw [hid] at h; exact absurd h throw_ne_ok
    | none =>
      rw [hid] at h
      cases h
      exact .new hrow hid
  | some f =>
    rw [hrow] at h
    obtain ⟨staked, hstaked, h⟩ := lift_bind_ok.mp h
    obtain ⟨hsym, -, rfl⟩ := Asset.add_eq_ok_iff.mp hstaked
    cases h
    exact .more hrow hsym

theorem regexName_ne_openName : regexName ≠ openName := by decide

theorem freeze_ok (h : freeze auth excAcc pairId w = .ok u w') :
    ∃ row, w.feeOf excAcc pairId = some row ∧
      w' = { w with fees := w.fees.put { row with frozen := 1 } } := by
  obtain ⟨-, h⟩ := auth_bind_ok h
  obtain ⟨-, h⟩ := active_bind_ok h
  obtain ⟨row, row', hrow, hrow', rfl⟩ := changeFee_cases h
  cases hrow'
  exact ⟨row, hrow, rfl⟩

theorem unfreeze_ok (h : unfreeze env auth excAcc pairId w = .ok u w') :
    ∃ row, w.feeOf excAcc pairId = some row ∧
      w' = { w with fees := w.fees.put { row with frozen := 0 } } := by
  obtain ⟨-, h⟩ := auth_bind_ok h
  obtain ⟨-, h⟩ := active_bind_ok h
  obtain ⟨enough, -, h⟩ := lift_bind_ok.mp h
  obtain ⟨-, h⟩ := assert_bind_ok.mp h
  obtain ⟨row, row', hrow, hrow', rfl⟩ := changeFee_cases h
  cases hrow'
  exact ⟨row, hrow, rfl⟩

/-- How the flags follow a change of stake: the exchange's for `regex`, the pair's for `open`, if
`change` says that the stake has passed its bound. -/
inductive Flags (change : Bool) (frozen : Bool) (excAcc action : AccountName) (pairId : Nat)
    (w : World) : World → Prop
  | same (hsame : change = true → action = regexName → w.exchanges.find? excAcc = none) :
      Flags change frozen excAcc action pairId w w
  | exchange {e : Exc} (hchange : change = true) (haction : action = regexName)
      (he : w.exchanges.find? excAcc = some e) :
      Flags change frozen excAcc action pairId w
        { w with exchanges := w.exchanges.put { e with frozen := frozen } }
  | pair {row : FeeInfo} (haction : action ≠ regexName) (hrow : w.feeOf excAcc pairId = some row)
      (n : Nat) :
      Flags change frozen excAcc action pairId w
        { w with fees := w.fees.put { row with frozen := n } }

theorem flags_of_ok {change frozen : Bool} {setPair : ExchangeM Unit}
    (hpair : ∀ {w w' : World} {v : Unit}, setPair w = .ok v w' → ∃ row n,
      w.feeOf excAcc pairId = some row ∧ w' = { w with fees := w.fees.put { row with frozen := n } })
    (h : (do
      let w ← get
      if change ∧ action = regexName ∧ w.isExcRegistered excAcc then
        setExcFrozen frozen message excAcc
      if change ∧ action = openName then
        let opened ← isPairOpened auth excAcc pairId
        if opened then setPair : ExchangeM Unit) w = .ok u w') :
    Flags change frozen excAcc action pairId w w' := by
  rw [get_bind_ok] at h
  split at h
  · next hregex =>
    obtain ⟨v, w1, hset, h⟩ := bind_ok.mp h
    obtain ⟨e, he, rfl⟩ := setExcFrozen_cases hset
    rw [if_neg (by simp [hregex.2.1, regexName_ne_openName])] at h
    obtain ⟨-, rfl⟩ := pure_ok.mp h
    exact .exchange hregex.1 hregex.2.1 he
  · next hregex =>
    split at h
    · next hopen =>
      have haction : action ≠ regexName := fun h' => regexName_ne_openName (h'.symm.trans hopen.2)
      obtain ⟨opened, w1, hopened, h⟩ := bind_ok.mp h
      obtain ⟨-, hopened⟩ := auth_bind_ok hopened
      obtain ⟨-, rfl⟩ := pure_ok.mp hopened
      cases opened with
      | true =>
        obtain ⟨row, n, hrow, rfl⟩ := hpair h
        exact .pair haction hrow n
      | false =>
        obtain ⟨-, rfl⟩ := pure_ok.mp h
        exact .same fun _ h' => absurd h' haction
    · obtain ⟨-, rfl⟩ := pure_ok.mp h
      refine .same fun hchange haction => ?_
      by_contra hne
      exact hregex ⟨hchange, haction, Option.isSome_iff_ne_none.mpr hne⟩

/-- **`freeze4`**, inverted. -/
theorem freeze4_cases (h : freeze4 env auth excAcc action pairId quantity w = .ok u w') :
    ∃ isNew enough value w1 w2, AddsStake excAcc action pairId quantity w isNew w1 ∧
      (enough = true ↔ isNew = true ∧ (action = regexName ∨ action = openName) ∧
        (stakeRequired env).amount ≤ quantity.amount) ∧
      toAsset env mainChain quantity.symbol quantity = .ok value ∧
      credit excAcc mainChain value w1 = .ok ⟨⟩ w2 ∧
      Flags enough false excAcc action pairId w2 w' := by
  obtain ⟨-, h⟩ := auth_bind_ok h
  obtain ⟨isNew, w1, hadd, h⟩ := bind_ok.mp h
  obtain ⟨enough, w1', henough, h⟩ := bind_ok.mp h
  have hflag : w1' = w1 ∧ (enough = true ↔ isNew = true ∧ (action = regexName ∨ action = openName) ∧
      (stakeRequired env).amount ≤ quantity.amount) := by
    split at henough
    · next hkey =>
      obtain ⟨hge, rfl⟩ := Exec.lift_ok.mp henough
      obtain ⟨-, rfl⟩ := Asset.compare_eq_ok_iff.mp hge
      exact ⟨rfl, by simp [hkey]⟩
    · next hkey =>
      obtain ⟨rfl, rfl⟩ := pure_ok.mp henough
      exact ⟨rfl, by simpa using fun h1 h2 => absurd ⟨h1, h2⟩ hkey⟩
  obtain ⟨hw, hflag⟩ := hflag
  rw [hw] at h
  obtain ⟨value, hvalue, h⟩ := lift_bind_ok.mp h
  obtain ⟨v, w2, hcredit, h⟩ := bind_ok.mp h
  refine ⟨isNew, enough, value, w1, w2, addStake_adds hadd, hflag, hvalue, hcredit, ?_⟩
  exact flags_of_ok (fun h' => (unfreeze_ok h').imp fun _ hrow => ⟨0, hrow⟩) h

/-- What happens to the stake that is given back. -/
inductive TakesStake (f : FreezeInfo) (quantity : Asset) (w : World) : Option Asset → World → Prop
  | all (heq : f.staked.amount = quantity.amount) :
      TakesStake f quantity w none { w with freezed := w.freezed.erase (Keyed.key f) }
  | some (hne : f.staked.amount ≠ quantity.amount) :
      TakesStake f quantity w (some ⟨f.staked.amount - quantity.amount, f.staked.symbol⟩)
        { w with freezed := w.freezed.put (f.withStake (f.staked.amount - quantity.amount)) }

theorem takeStake_takes {f : FreezeInfo} {left : Option Asset}
    (h : takeStake f quantity w = .ok left w') : TakesStake f quantity w left w' := by
  unfold takeStake at h
  split at h
  · next heq =>
    cases h
    exact .all heq
  · next heq =>
    obtain ⟨staked, hstaked, h⟩ := lift_bind_ok.mp h
    obtain ⟨hsym, -, rfl⟩ := Asset.sub_eq_ok_iff.mp hstaked
    cases h
    exact .some heq

/-- **`unfreeze4`**, inverted. -/
theorem unfreeze4_cases (h : unfreeze4 env auth excAcc action pairId quantity w = .ok u w') :
    ∃ value f left low w1 w2 w3, w.isExcFrozen excAcc = false ∧
      toAsset env mainChain quantity.symbol quantity = .ok value ∧
      w.freezeOf excAcc action pairId = some f ∧ f.staked.symbol = value.symbol ∧
      value.amount ≤ f.staked.amount ∧ TakesStake f value w left w1 ∧
      (low = true ↔ left = none ∨ ((action = regexName ∨ action = openName) ∧
        f.staked.amount - value.amount < (stakeRequired env).amount)) ∧
      debit excAcc mainChain value w1 = .ok ⟨⟩ w2 ∧
      inlineTransfer env excAcc mainChain value w2 = .ok ⟨⟩ w3 ∧
      Flags low true excAcc action pairId w3 w' := by
  obtain ⟨-, h⟩ := auth_bind_ok h
  obtain ⟨hactive, h⟩ := active_bind_ok h
  obtain ⟨value, hvalue, h⟩ := lift_bind_ok.mp h
  rw [get_bind_ok] at h
  cases hrow : w.freezeOf excAcc action pairId with
  | none => rw [hrow] at h; exact absurd h throw_ne_ok
  | some f =>
    rw [hrow] at h
    obtain ⟨hsym, hle, h⟩ := ge_bind_ok h
    obtain ⟨left, w1, htake, h⟩ := bind_ok.mp h
    obtain ⟨low, w1', hlow, h⟩ := bind_ok.mp h
    have htakes := takeStake_takes htake
    have hflag : w1' = w1 ∧ (low = true ↔ left = none ∨ ((action = regexName ∨ action = openName) ∧
        f.staked.amount - value.amount < (stakeRequired env).amount)) := by
      cases htakes with
      | all heq =>
        obtain ⟨rfl, rfl⟩ := pure_ok.mp hlow
        exact ⟨rfl, by simp⟩
      | some hne =>
        simp only at hlow
        split at hlow
        · next hkey =>
          obtain ⟨hlt, rfl⟩ := Exec.lift_ok.mp hlow
          obtain ⟨-, rfl⟩ := Asset.compare_eq_ok_iff.mp hlt
          exact ⟨rfl, by simp [hkey]⟩
        · next hkey =>
          obtain ⟨rfl, rfl⟩ := pure_ok.mp hlow
          exact ⟨rfl, by simp [hkey]⟩
    obtain ⟨hw, hflag⟩ := hflag
    rw [hw] at h
    obtain ⟨v, w2, hdebit, h⟩ := bind_ok.mp h
    obtain ⟨v', w3, hsend, h⟩ := bind_ok.mp h
    refine ⟨value, f, left, low, w1, w2, w3, hactive, hvalue, rfl, hsym, hle, htakes, hflag,
      hdebit, hsend, ?_⟩
    exact flags_of_ok (fun h' => (freeze_ok h').imp fun _ hrow => ⟨1, hrow⟩) h

/-! ## What stakes leave alone -/

/-- Changes of a balance. -/
def Event.isBalance : Event → Bool
  | .credited _ _ _ => true
  | .debited _ _ _ => true
  | .withdrawn _ _ => true
  | _ => false

/-- A change of stake leaves pairs, orders and windows alone, and sets at most the flag of a row of
fees. -/
structure StakeFrame (w w' : World) : Prop where
  pairs : w'.pairs = w.pairs
  orders : w'.orders = w.orders
  nextOrder : w'.nextOrder = w.nextOrder
  deals : w'.deals = w.deals
  fees : w'.fees = w.fees ∨
    ∃ row n, row ∈ w.fees.rows ∧ w'.fees = w.fees.put { row with frozen := n }
  trace : ∃ e, e.isBalance = true ∧ w'.trace = e :: w.trace

theorem Flags.frame {change frozen : Bool} {e : Event} {w1 : World}
    (h : Flags change frozen excAcc action pairId w1 w') (hpairs : w1.pairs = w.pairs)
    (horders : w1.orders = w.orders) (hnext : w1.nextOrder = w.nextOrder)
    (hdeals : w1.deals = w.deals) (hfees : w1.fees = w.fees) (he : e.isBalance = true)
    (htrace : w1.trace = e :: w.trace) : StakeFrame w w' := by
  cases h with
  | same | exchange => exact ⟨hpairs, horders, hnext, hdeals, .inl hfees, e, he, htrace⟩
  | @pair row haction hrow n =>
    refine ⟨hpairs, horders, hnext, hdeals, .inr ⟨row, n, ?_, ?_⟩, e, he, htrace⟩
    · rw [← hfees]
      exact (of_feeOf hrow).1
    · rw [← hfees]

theorem freeze4_frame (h : freeze4 env auth excAcc action pairId quantity w = .ok u w') :
    StakeFrame w w' := by
  obtain ⟨isNew, enough, value, w1, w2, hadds, -, hvalue, hcredit, hflags⟩ := freeze4_cases h
  obtain ⟨accounts, rfl⟩ := credit_frame hcredit
  cases hadds with
  | new | more => exact hflags.frame rfl rfl rfl rfl rfl rfl rfl

theorem unfreeze4_frame (h : unfreeze4 env auth excAcc action pairId quantity w = .ok u w') :
    StakeFrame w w' := by
  obtain ⟨value, f, left, low, w1, w2, w3, -, hvalue, -, -, -, htakes, -, hdebit, hsend, hflags⟩ :=
    unfreeze4_cases h
  obtain ⟨accounts, rfl⟩ := debit_frame hdebit
  obtain rfl := inlineTransfer_frame hsend
  cases htakes with
  | all | some => exact hflags.frame rfl rfl rfl rfl rfl rfl rfl

end Forceio.Exchange
