import Forceio.Relay.Contract

/-!
# What the actions of the relay contract do

Every action of the contract, inverted: the rows it found, the checks it passed and what it wrote.

Result:
* `transacted_induction`: what single actions keep, histories with inline actions keep.
-/

namespace Forceio.Relay

open Forceio.Lib Forceio.Eosiolib KeyedTable Rollback List
open Forceio.Chain (AccountName)

variable {env : Env} {w w' : World}
variable {auth : List AccountName} {chain : ChainName}
variable {actions : List RelayAction}

/-! ## Checks -/

theorem auth_bind_eq_ok {β : Type} {account : AccountName} {f : Unit → Except ContractError β}
    {b : β} :
    requireAuth auth account >>= f = .ok b ↔ account ∈ auth ∧ f () = .ok b := by
  unfold requireAuth
  by_cases h : account ∈ auth
  · simp [h, bind, Except.bind]
  · simp [h, bind, Except.bind]

theorem compare_assert_ok {β : Type} {r : Int → Int → Bool} {a b : Asset} {message : String}
    {f : Unit → Except ContractError β} {c : β}
    (h : (Asset.compare r a b >>= fun v => eosioAssert (v = true) message >>= f) = .ok c) :
    a.symbol = b.symbol ∧ r a.amount b.amount = true ∧ f () = .ok c := by
  obtain ⟨v, hv, h⟩ := bind_eq_ok.mp h
  obtain ⟨hsym, rfl⟩ := Asset.compare_eq_ok_iff.mp hv
  exact ⟨hsym, assert_bind_eq_ok.mp h⟩

variable {sum : Asset}

theorem reaches_eq_ok {u : UnconfirmBlock} {v : Bool} (h : u.reaches sum = .ok v) :
    v = decide (2 * sum.amount ≤ 3 * u.confirm.amount) := by
  obtain ⟨a, ha, h⟩ := bind_eq_ok.mp h
  obtain ⟨b, hb, h⟩ := bind_eq_ok.mp h
  obtain ⟨-, rfl⟩ := Asset.mul_eq_ok_iff.mp ha
  obtain ⟨-, rfl⟩ := Asset.mul_eq_ok_iff.mp hb
  obtain ⟨-, rfl⟩ := Asset.compare_eq_ok_iff.mp h
  simp only [ge_iff_le, mul_comm]

/-! ## Blocks -/

namespace BlockType

@[simp] theorem same_refl (b : BlockType) : b.same b = true := by simp [same]

theorem same_comm (b m : BlockType) : b.same m = m.same b := by
  simp [same, eq_comm]

theorem same_trans {a b c : BlockType} (h : a.same b = true) (h' : b.same c = true) :
    a.same c = true := by
  simp only [same, decide_eq_true_eq] at h h' ⊢
  obtain ⟨hid, hnum, ht, ha⟩ := h
  obtain ⟨hid', hnum', ht', ha'⟩ := h'
  exact ⟨hid.trans hid', hnum.trans hnum', ht.trans ht', ha.trans ha'⟩

end BlockType

/-- A stored block with one more confirmation. -/
def UnconfirmBlock.confirmedBy (u : UnconfirmBlock) (transfer : AccountName) (deposit : Asset) :
    UnconfirmBlock :=
  { u with
    confirm := ⟨deposit.amount + u.confirm.amount, deposit.symbol⟩
    confirmeds := u.confirmeds ++ [transfer] }

section Confirm

variable {transfer : AccountName} {deposit : Asset} {block : BlockType}

theorem confirmStored_none : ∀ {us : List UnconfirmBlock},
    confirmStored transfer deposit block us = .ok none → ∀ u ∈ us, u.base.same block = false
  | [], _, u, hu => absurd hu (by simp)
  | v :: us, h, u, hu => by
    unfold confirmStored at h
    split at h
    · obtain ⟨c, -, h⟩ := bind_eq_ok.mp h
      obtain ⟨v', -, h⟩ := bind_eq_ok.mp h
      exact absurd (pure_eq_ok.mp h) (by simp)
    · next hv =>
      obtain ⟨us', hus, h⟩ := bind_eq_ok.mp h
      have hnone : us' = none := by simpa using (pure_eq_ok.mp h).symm
      rcases mem_cons.mp hu with rfl | hu
      · simpa using hv
      · exact confirmStored_none (hnone ▸ hus) u hu

theorem confirmStored_some : ∀ {us us' : List UnconfirmBlock},
    confirmStored transfer deposit block us = .ok (some us') →
    ∃ l1 u l2, us = l1 ++ u :: l2 ∧ us' = l1 ++ u.confirmedBy transfer deposit :: l2 ∧
      u.base.same block = true ∧ transfer ∉ u.confirmeds ∧ u.confirm.symbol = deposit.symbol
  | [], us', h => absurd h (by simp [confirmStored])
  | v :: us, us', h => by
    unfold confirmStored at h
    split at h
    · next hv =>
      obtain ⟨c, hc, h⟩ := bind_eq_ok.mp h
      obtain ⟨v', hv', h⟩ := bind_eq_ok.mp h
      obtain ⟨hnew, hv'⟩ := assert_bind_eq_ok.mp hv'
      obtain ⟨hsym, -, rfl⟩ := Asset.add_eq_ok_iff.mp hc
      obtain rfl := pure_eq_ok.mp hv'
      obtain rfl := Option.some.inj (pure_eq_ok.mp h)
      exact ⟨[], v, us, rfl, rfl, hv, hnew, hsym⟩
    · obtain ⟨us1, hus, h⟩ := bind_eq_ok.mp h
      cases us1 with
      | none => exact absurd (pure_eq_ok.mp h) (by simp)
      | some us1 =>
        obtain rfl := Option.some.inj (pure_eq_ok.mp h)
        obtain ⟨l1, u, l2, rfl, rfl, hrest⟩ := confirmStored_some hus
        exact ⟨v :: l1, u, l2, rfl, rfl, hrest⟩

/-- **A confirmation**: of the stored block, or of a new one. -/
inductive Confirmed (env : Env) (transfer : AccountName) (deposit : Asset) (block : BlockType)
    (actions : List RelayAction) (us us' : List UnconfirmBlock) : Prop
  | stored (l1 : List UnconfirmBlock) (u : UnconfirmBlock) (l2 : List UnconfirmBlock)
      (hus : us = l1 ++ u :: l2) (hus' : us' = l1 ++ u.confirmedBy transfer deposit :: l2)
      (hsame : u.base.same block = true) (hnew : transfer ∉ u.confirmeds)
      (hsym : u.confirm.symbol = deposit.symbol)
  | added (hnew : ∀ u ∈ us, u.base.same block = false)
      (hus' : us' = env.sort (us ++ [⟨block, deposit, actions, [transfer]⟩]))

variable {us us' : List UnconfirmBlock} {R : BlockType → BlockType → Prop}

theorem pairwise_confirmedBy {u : UnconfirmBlock} {l1 l2 : List UnconfirmBlock} :
    (l1 ++ u.confirmedBy transfer deposit :: l2).Pairwise (fun u v => R u.base v.base) ↔
      (l1 ++ u :: l2).Pairwise fun u v => R u.base v.base := by
  rw [← pairwise_map (f := UnconfirmBlock.base) (R := R),
    ← pairwise_map (f := UnconfirmBlock.base) (R := R)]
  simp [UnconfirmBlock.confirmedBy]

theorem Confirmed.pairwise (h : Confirmed env transfer deposit block actions us us')
    (hR : ∀ {b m}, R b m → R m b) (hus : us.Pairwise fun u v => R u.base v.base)
    (hblock : ∀ u ∈ us, u.base.same block = false → R u.base block) :
    us'.Pairwise fun u v => R u.base v.base := by
  cases h with
  | stored l1 u l2 hus1 hus' _ _ _ =>
    subst hus1 hus'
    exact pairwise_confirmedBy.mpr hus
  | added hnew hus' =>
    subst hus'
    refine (env.sort_perm _).symm.pairwise (pairwise_append.mpr ⟨hus, pairwise_singleton _ _,
      fun u hu v hv => ?_⟩) hR
    rw [mem_singleton.mp hv]
    exact hblock u hu (hnew u hu)

theorem confirmBlock_confirmed (h : confirmBlock env transfer deposit block actions us = .ok us') :
    Confirmed env transfer deposit block actions us us' := by
  obtain ⟨r, hr, h⟩ := bind_eq_ok.mp h
  cases r with
  | some us1 =>
    obtain rfl := pure_eq_ok.mp h
    obtain ⟨l1, u, l2, hus, hus', hsame, hnew, hsym⟩ := confirmStored_some hr
    exact .stored l1 u l2 hus hus' hsame hnew hsym
  | none =>
    obtain ⟨ub, hub, h⟩ := bind_eq_ok.mp h
    obtain rfl := pure_eq_ok.mp hub
    obtain rfl := pure_eq_ok.mp h
    exact .added (confirmStored_none hr) rfl

end Confirm

variable {block : BlockType}

theorem findConfirmed_some {uc : UnconfirmBlock} :
    ∀ {us : List UnconfirmBlock}, findConfirmed sum block us = .ok (some uc) →
      uc ∈ us ∧ uc.base.same block = true ∧ 2 * sum.amount ≤ 3 * uc.confirm.amount
  | [], h => absurd h (by simp [findConfirmed])
  | u :: us, h => by
    have hrest : findConfirmed sum block us = .ok (some uc) → uc ∈ u :: us ∧
        uc.base.same block = true ∧ 2 * sum.amount ≤ 3 * uc.confirm.amount := by
      intro h
      obtain ⟨hmem, hboth⟩ := findConfirmed_some h
      exact ⟨mem_cons_of_mem _ hmem, hboth⟩
    unfold findConfirmed at h
    split at h
    · next hu =>
      obtain ⟨v, hv, h⟩ := bind_eq_ok.mp h
      have hv := reaches_eq_ok hv
      cases v with
      | true =>
        obtain rfl := Option.some.inj (pure_eq_ok.mp h)
        exact ⟨mem_cons_self, hu, of_decide_eq_true hv.symm⟩
      | false => exact hrest h
    · exact hrest h

theorem findConfirmed_none : ∀ {us : List UnconfirmBlock},
    findConfirmed sum block us = .ok none → ∀ u ∈ us, u.base.same block = true →
      3 * u.confirm.amount < 2 * sum.amount
  | [], _, u, hu, _ => absurd hu (by simp)
  | v :: us, h, u, hu, hsame => by
    unfold findConfirmed at h
    split at h
    · obtain ⟨x, hx, h⟩ := bind_eq_ok.mp h
      have hx := reaches_eq_ok hx
      cases x with
      | true => exact absurd (pure_eq_ok.mp h) (by simp)
      | false =>
        rcases mem_cons.mp hu with rfl | hu
        · exact not_le.mp (of_decide_eq_false hx.symm)
        · exact findConfirmed_none h u hu hsame
    · next hv =>
      rcases mem_cons.mp hu with rfl | hu
      · exact absurd hsame hv
      · exact findConfirmed_none h u hu hsame

/-! ## Actions -/

/-- What a commit found and wrote. -/
structure Committed (env : Env) (chain : ChainName) (transfer : AccountName) (block : BlockType)
    (actions : List RelayAction) (w w' : World) (sent : List BlockType) where
  {it : RelayTransfer} {ich : Channel} {relaystat : BlockRelayStat} {unconfirms : List UnconfirmBlock}
  it_eq : w.transfers.find? (toLex (chain, transfer)) = some it
  ich_eq : w.channels.find? chain = some ich
  relaystat_eq : w.relaystats.find? chain = some relaystat
  deposit_pos : 0 < it.deposit.amount
  deposit_symbol : it.deposit.symbol = env.coreSymbol
  confirms : Confirmed env transfer it.deposit block actions relaystat.unconfirms unconfirms
  sends : firstConfirmed ich.depositSum 8 unconfirms = .ok sent
  fresh : relaystat.last.isNil = true ∨ relaystat.last.num < block.num
  after_eq : w' = { w with
    relaystats := w.relaystats.put { relaystat with unconfirms := unconfirms }
    transfers := w.transfers.put { it with last := block }
    trace := .committed chain transfer block actions it.deposit :: w.trace }

theorem commit_cases {transfer : AccountName} {actions : List RelayAction} {sent : List BlockType}
    (h : commit env auth chain transfer block actions w = .ok (w', sent)) :
    (w' = w ∧ sent = [] ∧ ∃ relaystat, w.relaystats.find? chain = some relaystat ∧
      block.num ≤ relaystat.last.num) ∨
      Nonempty (Committed env chain transfer block actions w w' sent) := by
  obtain ⟨-, h⟩ := auth_bind_eq_ok.mp h
  split at h
  · simp at h
  · next it hit =>
    obtain ⟨hsym, hpos, h⟩ := compare_assert_ok h
    split at h
    · simp at h
    · next ich hich =>
      obtain ⟨-, -, h⟩ := compare_assert_ok h
      cases hstat : w.relaystats.find? chain with
      | none => rw [hstat] at h; simp at h
      | some relaystat =>
        rw [hstat] at h
        simp only at h
        split at h
        · next hold =>
          obtain ⟨rfl, rfl⟩ := Prod.mk.inj (pure_eq_ok.mp h)
          exact .inl ⟨rfl, rfl, relaystat, rfl, hold.2⟩
        · next hold =>
          obtain ⟨unconfirms, hconfirm, h⟩ := bind_eq_ok.mp h
          obtain ⟨sent', hsent, h⟩ := bind_eq_ok.mp h
          obtain ⟨rfl, rfl⟩ := Prod.mk.inj (pure_eq_ok.mp h)
          refine .inr ⟨⟨hit, hich, hstat, of_decide_eq_true hpos, hsym,
            confirmBlock_confirmed hconfirm, hsent, ?_, rfl⟩⟩
          by_cases hnil : relaystat.last.isNil = true
          · exact .inl hnil
          · exact .inr (not_le.mp fun hle => hold ⟨by simpa using hnil, hle⟩)

/-- What `onblock` found and wrote when it processed a block. -/
structure Processed (chain : ChainName) (block : BlockType) (w w' : World) where
  {ich : Channel} {relaystat : BlockRelayStat} {uc : UnconfirmBlock}
  ich_eq : w.channels.find? chain = some ich
  relaystat_eq : w.relaystats.find? chain = some relaystat
  newer : relaystat.last.num < block.num
  stored : uc ∈ relaystat.unconfirms
  same : uc.base.same block = true
  reaches : 2 * ich.depositSum.amount ≤ 3 * uc.confirm.amount
  after_eq : w' = { w with
    relaystats := w.relaystats.put { relaystat with
      last := block
      unconfirms := relaystat.unconfirms.filter fun ub => ub.base.num ≠ block.num }
    trace := .processed chain block uc.actions (w.dispatch chain block uc.actions) :: w.trace }

/-- What `onblock` found when it processed nothing. -/
def Skipped (chain : ChainName) (block : BlockType) (w : World) : Prop :=
  ∃ relaystat, w.relaystats.find? chain = some relaystat ∧ (block.num ≤ relaystat.last.num ∨
    ∃ ich, w.channels.find? chain = some ich ∧ ∀ u ∈ relaystat.unconfirms,
      u.base.same block = true → 3 * u.confirm.amount < 2 * ich.depositSum.amount)

theorem onblock_cases (h : onblock env auth chain block w = .ok w') :
    (w' = w ∧ Skipped chain block w) ∨ Nonempty (Processed chain block w w') := by
  obtain ⟨-, h⟩ := auth_bind_eq_ok.mp h
  split at h
  · simp at h
  · next relaystat hstat =>
    split at h
    · next hold =>
      exact .inl ⟨pure_eq_ok.mp h, relaystat, hstat, .inl hold⟩
    · next hold =>
      split at h
      · simp at h
      · next ich hich =>
        obtain ⟨-, -, h⟩ := compare_assert_ok h
        obtain ⟨r, hr, h⟩ := bind_eq_ok.mp h
        cases r with
        | none =>
          exact .inl ⟨pure_eq_ok.mp h, relaystat, hstat, .inr ⟨ich, hich, findConfirmed_none hr⟩⟩
        | some uc =>
          obtain ⟨hmem, hsame, hreach⟩ := findConfirmed_some hr
          obtain ⟨-, h⟩ := assert_bind_eq_ok.mp h
          rw [hstat] at h
          exact .inr ⟨⟨hich, hstat, not_le.mp hold, hmem, hsame, hreach, pure_eq_ok.mp h⟩⟩

/-- What a deposit found and wrote. -/
structure Deposited (env : Env) (chain : ChainName) (transfer : AccountName) (deposit : Asset)
    (w w' : World) where
  {channel : Channel} {row : RelayTransfer} {transfers : KeyedTable RelayTransfer} {old : Int}
  channel_eq : w.channels.find? chain = some channel
  symbol_eq : deposit.symbol = env.coreSymbol
  sum_symbol : deposit.symbol = channel.depositSum.symbol
  nonneg : 0 ≤ deposit.amount
  row_eq : row.chain = chain ∧ row.transfer = transfer ∧ row.deposit = deposit
  writes : (w.transfers.find? (toLex (chain, transfer)) = none ∧ old = 0 ∧
      transfers = w.transfers.insert row) ∨
    ∃ it, w.transfers.find? (toLex (chain, transfer)) = some it ∧ old = it.deposit.amount ∧
      transfers = w.transfers.put row
  after_eq : w' = { w with
    channels := w.channels.put { channel with
      depositSum := ⟨channel.depositSum.amount - old + deposit.amount, channel.depositSum.symbol⟩ }
    transfers := transfers }

theorem newTransfer_deposited {transfer : AccountName} {deposit : Asset}
    (h : newTransfer env chain transfer deposit w = .ok w') :
    Nonempty (Deposited env chain transfer deposit w w') := by
  obtain ⟨hsym, h⟩ := assert_bind_eq_ok.mp h
  obtain ⟨-, hpos, h⟩ := compare_assert_ok h
  have hpos : 0 ≤ deposit.amount := of_decide_eq_true hpos
  split at h
  · simp at h
  · next channel hchannel =>
    split at h
    · next hit =>
      obtain ⟨sum, hsum, h⟩ := bind_eq_ok.mp h
      obtain ⟨hsumSym, -, rfl⟩ := Asset.add_eq_ok_iff.mp hsum
      obtain rfl := pure_eq_ok.mp h
      refine ⟨{
        row := { chain, transfer, deposit }
        channel_eq := hchannel
        symbol_eq := hsym
        sum_symbol := hsumSym
        nonneg := hpos
        row_eq := ⟨rfl, rfl, rfl⟩
        writes := .inl ⟨hit, rfl, rfl⟩
        after_eq := ?_ }⟩
      simp
    · next it hit =>
      obtain ⟨-, -, h⟩ := compare_assert_ok h
      obtain ⟨sub, hsub, h⟩ := bind_eq_ok.mp h
      obtain ⟨-, -, rfl⟩ := Asset.sub_eq_ok_iff.mp hsub
      obtain ⟨sum, hsum, h⟩ := bind_eq_ok.mp h
      obtain ⟨hsumSym, -, rfl⟩ := Asset.add_eq_ok_iff.mp hsum
      obtain rfl := pure_eq_ok.mp h
      obtain ⟨-, hkey⟩ := find?_eq_some_iff.mp hit
      obtain ⟨hchain, htransfer⟩ : it.chain = chain ∧ it.transfer = transfer :=
        Prod.mk.inj (toLex_inj.mp hkey)
      exact ⟨{
        row := { it with deposit := deposit }
        channel_eq := hchannel
        symbol_eq := hsym
        sum_symbol := hsumSym
        nonneg := hpos
        row_eq := ⟨hchain, htransfer, rfl⟩
        writes := .inr ⟨it, hit, rfl, rfl⟩
        after_eq := rfl }⟩

/-- `onblock` succeeds and processes a block, with these actions. -/
def Processes (env : Env) (auth : List AccountName) (chain : ChainName) (block : BlockType)
    (actions : List RelayAction) (w w' : World) : Prop :=
  onblock env auth chain block w = .ok w' ∧
    ∃ sent, w'.trace = .processed chain block actions sent :: w.trace

theorem Processes.processed (h : Processes env auth chain block actions w w') :
    ∃ p : Processed chain block w w', p.uc.actions = actions := by
  obtain ⟨hrun, sent, htrace⟩ := h
  rcases onblock_cases hrun with ⟨rfl, -⟩ | ⟨⟨p⟩⟩
  · exact absurd htrace.symm (cons_ne_self _ _)
  · refine ⟨p, ?_⟩
    rw [p.after_eq] at htrace
    obtain ⟨-, -, hactions, -⟩ := Event.processed.inj (cons.inj htrace).1
    exact hactions

/-- **The actions that succeed.** -/
inductive Step (env : Env) (c : Call) (w : World) : World → Prop
  | same : Step env c w w
  | channel {chain : ChainName} (hnew : w.channels.find? chain = none)
      (hstat : w.relaystats.find? chain = none) :
      Step env c w { w with
        channels := w.channels.insert ⟨chain, env.zero⟩
        relaystats := w.relaystats.insert { chain := chain } }
  | mapped {h : MapHandler} (hother : ∀ g ∈ w.handlersOf h.chain,
        g.actaccount ≠ h.actaccount ∨ g.actname ≠ h.actname)
      (handlers : KeyedTable MapHandler) (hmem : ∀ g ∈ handlers.rows, g = h ∨ g ∈ w.handlers.rows) :
      Step env c w { w with handlers := handlers }
  | deposited {sender receiver : AccountName} {quantity : Asset} {memo : List Char} {w1 : World}
      (haction : c.action = .transfer sender receiver quantity memo)
      (hmemo : isDeposit env sender receiver memo = true)
      (hdeposit : Nonempty (Deposited env (memoChain memo) sender quantity w w1)) :
      Step env c w { w1 with trace := .received sender quantity memo :: w1.trace }
  | committed {chain : ChainName} {transfer : AccountName} {block : BlockType}
      {actions : List RelayAction} {sent : List BlockType} {w' : World}
      (haction : c.action = .commit chain transfer block actions)
      (hcommit : Nonempty (Committed env chain transfer block actions w w' sent)) : Step env c w w'
  | processed {chain : ChainName} {block : BlockType} {w' : World}
      (haction : c.action = .onblock chain block)
      (hprocess : Nonempty (Processed chain block w w')) : Step env c w w'

/-- **Actions**, inverted. -/
theorem Step.of_run {c : Call} (h : c.run env w = .ok w') : Step env c w w' := by
  unfold Call.run at h
  cases haction : c.action with
  | newchannel chain =>
    rw [haction] at h
    obtain ⟨-, h⟩ := auth_bind_eq_ok.mp h
    obtain ⟨-, h⟩ := assert_bind_eq_ok.mp h
    obtain ⟨hnew, h⟩ := assert_bind_eq_ok.mp h
    cases hstat : w.relaystats.find? chain with
    | some stat => rw [hstat] at h; simp at h
    | none =>
      rw [hstat] at h
      obtain rfl := pure_eq_ok.mp h
      exact .channel hnew hstat
  | newmap chain type actAccount actName account =>
    rw [haction] at h
    obtain ⟨-, h⟩ := auth_bind_eq_ok.mp h
    obtain ⟨-, h⟩ := assert_bind_eq_ok.mp h
    obtain ⟨hother, h⟩ := assert_bind_eq_ok.mp h
    split at h
    · obtain rfl := pure_eq_ok.mp h
      refine .mapped (h := ⟨chain, type, actAccount, actName, account⟩) hother _ fun g hg => ?_
      exact (mem_insert.mp hg).imp_right And.left
    · next old hh =>
      obtain rfl := pure_eq_ok.mp h
      obtain ⟨-, hkey⟩ := find?_eq_some_iff.mp hh
      obtain ⟨hchain, -⟩ : old.chain = chain ∧ old.name = type := Prod.mk.inj (toLex_inj.mp hkey)
      refine .mapped
        (h := { old with actaccount := actAccount, actname := actName, account := account })
        ?_ _ fun g hg => (mem_put hg).imp_right And.left
      rw [← hchain] at hother
      exact hother
  | transfer sender receiver quantity memo =>
    rw [haction] at h
    simp only at h
    unfold ontransfer at h
    split at h
    · next hdep =>
      obtain ⟨w1, hw1, h⟩ := bind_eq_ok.mp h
      obtain rfl := pure_eq_ok.mp h
      exact .deposited haction hdep (newTransfer_deposited hw1)
    · obtain rfl := pure_eq_ok.mp h
      exact .same
  | commit chain transfer block actions =>
    rw [haction] at h
    simp only at h
    cases hcommit : commit env c.auth chain transfer block actions w with
    | error e => rw [hcommit] at h; simp at h
    | ok r =>
      obtain ⟨w1, sent⟩ := r
      rw [hcommit] at h
      obtain rfl : w1 = w' := Except.ok.inj h
      rcases commit_cases hcommit with ⟨rfl, -, -⟩ | hcommitted
      · exact .same
      · exact .committed haction hcommitted
  | onblock chain block =>
    rw [haction] at h
    rcases onblock_cases h with ⟨rfl, -⟩ | hprocessed
    · exact .same
    · exact .processed haction hprocessed

theorem onblock_ok (h : ((Call.mk auth (.onblock chain block)).run env w).isOk = true) :
    onblock env auth chain block w = .ok (attempt (Call.run env) ⟨auth, .onblock chain block⟩ w) :=
  eq_ok_of_isOk h

/-! ## Inline actions -/

theorem transact_cases {c : Call} (h : c.transact env w = .ok w') :
    (∃ chain transfer block actions w1 sent, c.action = .commit chain transfer block actions ∧
      commit env c.auth chain transfer block actions w = .ok (w1, sent) ∧
      Call.onblocks env chain sent w1 = .ok w') ∨
    (∀ chain transfer block actions, c.action ≠ .commit chain transfer block actions) ∧
      c.run env w = .ok w' := by
  unfold Call.transact at h
  cases haction : c.action with
  | commit chain transfer block actions =>
    rw [haction] at h
    obtain ⟨⟨w1, sent⟩, hcommit, h⟩ := bind_eq_ok.mp h
    exact .inl ⟨chain, transfer, block, actions, w1, sent, rfl, hcommit, h⟩
  | _ =>
    rw [haction] at h
    exact .inr ⟨by simp, h⟩

variable {I : World → Prop}

theorem onblocks_induction (hstep : ∀ {w w' : World} {b : BlockType}, I w →
      onblock env [env.self] chain b w = .ok w' → I w') :
    ∀ {bs : List BlockType} {w : World}, I w → Call.onblocks env chain bs w = .ok w' → I w'
  | [], _, h, hrun => Except.ok.inj hrun ▸ h
  | _ :: _, _, h, hrun => by
    obtain ⟨w1, hblock, hrun⟩ := bind_eq_ok.mp hrun
    exact onblocks_induction hstep (hstep h hblock) hrun

/-- **Histories with inline actions**: what single actions that meet the condition keep holds in the
end, where `onblock` always meets it. -/
theorem transacted_induction {C : World → Call → Prop}
    (hstep : ∀ {w w' : World} {c : Call}, I w → C w c → c.run env w = .ok w' → I w')
    (hsent : ∀ w chain b, C w ⟨[env.self], .onblock chain b⟩) (cs : List Call) (h : I {})
    (halong : Along (Call.transact env) C cs {}) : I (transacted env cs) := by
  refine after_induction (fun {w w' c} h hc hrun => ?_) cs _ h halong
  rcases transact_cases hrun with
    ⟨chain, transfer, block, actions, w1, sent, haction, hcommit, hblocks⟩ | ⟨-, hrun⟩
  · refine onblocks_induction (fun {w w' b} h hrun => ?_) (hstep h hc ?_) hblocks
    · exact hstep (c := ⟨[env.self], .onblock chain b⟩) h (hsent w chain b) hrun
    · unfold Call.run
      rw [haction]
      show Prod.fst <$> commit env c.auth chain transfer block actions w = _
      rw [hcommit]
      rfl
  · exact hstep h hc hrun

theorem transacted_invariant
    (hstep : ∀ {w w' : World} {c : Call}, I w → c.run env w = .ok w' → I w') (cs : List Call)
    (h : I {}) : I (transacted env cs) :=
  transacted_induction (C := fun _ _ => True) (fun h _ => hstep h) (fun _ _ _ => trivial) cs h
    (along_of_forall (fun _ _ => trivial) cs _)

end Forceio.Relay
