import Forceio.Relay.Deposits

/-!
# Deposits and confirmations of the relay contract

`deposit_sum` is kept beside the deposits of the relayers, and `confirm` beside the relayers that
confirmed a stored block. A relayer is counted with its deposit at the time of its commit, and for
the actions that the first relayer committed.

Results:
* `sumsExact_run`: the sums are exact after every history.
* `actionsVouched_run`: as long as every relayer commits a stored block with the actions that are
  stored, two thirds of the deposits vouch for the actions of a block that is processed.
* `actions_of_a_minority`: otherwise the actions of one relayer are sent.
* `depositsBehind_run`: as long as no relayer that confirmed a stored block lowers its deposit, a block
  that is processed has two thirds of the deposits of that moment behind it.
* `deposit_withdrawn`: otherwise it may have next to nothing.
-/

namespace Forceio.Relay

open Forceio.Lib Forceio.Eosiolib KeyedTable Rollback List
open Forceio.Chain (AccountName)

variable {env : Env} {w w' : World}
variable {c : ChainName} {r : AccountName} {b : BlockType} {u : UnconfirmBlock}

/-! ## Statements -/

/-- The actions and the deposit of a commit of a block by a relayer. -/
def Event.commitOf (chain : ChainName) (block : BlockType) (relayer : AccountName) :
    Event → Option (List RelayAction × Asset)
  | .committed c r b actions deposit =>
    if c = chain ∧ r = relayer ∧ b.same block = true then some (actions, deposit) else none
  | _ => none

/-- The last commit of a block by a relayer. -/
def lastCommit (trace : List Event) (chain : ChainName) (block : BlockType) (relayer : AccountName) :
    Option (List RelayAction × Asset) :=
  trace.findSome? (Event.commitOf chain block relayer)

/-- The deposit of a relayer at the time of its commit of a block. -/
def depositAt (trace : List Event) (chain : ChainName) (block : BlockType) (relayer : AccountName) :
    Int :=
  (lastCommit trace chain block relayer).elim 0 fun c => c.2.amount

/-- The sums that the tables keep are exact. -/
structure SumsExact (w : World) : Prop where
  deposits : ∀ ch ∈ w.channels.rows, ch.depositSum.amount =
    w.transfers.total fun t => if t.chain = ch.chain then t.deposit.amount else 0
  confirms : ∀ s ∈ w.relaystats.rows, ∀ u ∈ s.unconfirms, u.confirmeds.Nodup ∧
    u.confirm.amount = (u.confirmeds.map (depositAt w.trace s.chain u.base)).sum

/-- Relayers that committed a block with exactly these actions had two thirds of a sum, with their
deposits at that time. -/
def Vouched (w : World) (chain : ChainName) (block : BlockType) (actions : List RelayAction)
    (sum : Asset) : Prop :=
  ∃ vs : List (AccountName × Asset), (vs.map Prod.fst).Nodup ∧
    (∀ v ∈ vs, ∃ b : BlockType, b.same block = true ∧
      Event.committed chain v.1 b actions v.2 ∈ w.trace) ∧
    2 * sum.amount ≤ 3 * (vs.map fun v => v.2.amount).sum

/-- The relayers that confirmed a block have two thirds of the deposits of the moment. -/
def Behind (w : World) (chain : ChainName) (block : BlockType) : Prop :=
  ∃ ich ∈ w.channels.find? chain, ∃ s ∈ w.relaystats.find? chain, ∃ u ∈ s.unconfirms,
    u.base.same block = true ∧ u.confirmeds.Nodup ∧
      2 * ich.depositSum.amount ≤ 3 * (u.confirmeds.map (w.deposit chain)).sum

instance (w : World) (chain : ChainName) (block : BlockType) : Decidable (Behind w chain block) :=
  inferInstanceAs (Decidable (∃ _ ∈ _, _))

/-- A commit of a stored block has the actions that are stored. -/
def SameActions (w : World) (c : Call) : Prop :=
  match c.action with
  | .commit chain _ block actions => ∀ s ∈ w.relaystats.find? chain, ∀ u ∈ s.unconfirms,
      u.base.same block = true → u.actions = actions
  | _ => True

/-- A relayer that confirmed a stored block does not lower its deposit. -/
def KeepsDeposits (env : Env) (w : World) (c : Call) : Prop :=
  match c.action with
  | .transfer sender receiver quantity memo => isDeposit env sender receiver memo = true →
      ∀ s ∈ w.relaystats.find? (memoChain memo), ∀ u ∈ s.unconfirms, sender ∈ u.confirmeds →
        w.deposit (memoChain memo) sender ≤ quantity.amount
  | _ => True

instance (w : World) : DecidablePred (SameActions w) := fun ⟨_, action⟩ => by
  unfold SameActions
  cases action <;> infer_instance

instance (env : Env) (w : World) : DecidablePred (KeepsDeposits env w) := fun ⟨_, action⟩ => by
  unfold KeepsDeposits
  cases action <;> infer_instance

/-! ## Commits in the trace -/

section Trace

variable {trace : List Event} {chain : ChainName} {block : BlockType} {relayer : AccountName}

theorem lastCommit_cons (e : Event) : lastCommit (e :: trace) chain block relayer =
    (e.commitOf chain block relayer).or (lastCommit trace chain block relayer) := by
  unfold lastCommit
  rw [findSome?_cons]
  cases e.commitOf chain block relayer <;> rfl

variable {actions : List RelayAction} {deposit : Asset}

/-- A commit of another chain, another block or another relayer changes nothing. -/
theorem lastCommit_other (h : ¬ (c = chain ∧ r = relayer ∧ b.same block = true)) :
    lastCommit (.committed c r b actions deposit :: trace) chain block relayer =
      lastCommit trace chain block relayer := by
  rw [lastCommit_cons, Event.commitOf, if_neg h]
  rfl

theorem lastCommit_own (h : b.same block = true) :
    lastCommit (.committed chain relayer b actions deposit :: trace) chain block relayer =
      some (actions, deposit) := by
  rw [lastCommit_cons, Event.commitOf, if_pos ⟨rfl, rfl, h⟩]
  rfl

theorem mem_of_lastCommit (h : lastCommit trace chain block relayer = some (actions, deposit)) :
    ∃ b : BlockType, b.same block = true ∧
      Event.committed chain relayer b actions deposit ∈ trace := by
  obtain ⟨e, he, hcommit⟩ := exists_of_findSome?_eq_some h
  cases e with
  | committed c r b as d =>
    rw [Event.commitOf] at hcommit
    split at hcommit
    · next hboth =>
      obtain ⟨rfl, rfl, hsame⟩ := hboth
      obtain ⟨rfl, rfl⟩ := Prod.mk.inj (Option.some.inj hcommit)
      exact ⟨b, hsame, he⟩
    · simp at hcommit
  | received | processed => simp [Event.commitOf] at hcommit

end Trace

/-! ## Exact sums -/

/-- What holds of the tables after every history. -/
structure Exact (w : World) : Prop extends SumsExact w where
  /-- Relayers are on channels. -/
  channel : ∀ t ∈ w.transfers.rows, w.channels.find? t.chain ≠ none
  /-- A block is stored once. -/
  distinct : ∀ s ∈ w.relaystats.rows, s.unconfirms.Pairwise fun u v => u.base.same v.base = false

section Confirm

variable {transfer : AccountName} {deposit : Asset} {block : BlockType} {actions : List RelayAction}
  {us us' : List UnconfirmBlock}

theorem Confirmed.distinct (h : Confirmed env transfer deposit block actions us us')
    (hus : us.Pairwise fun u v => u.base.same v.base = false) :
    us'.Pairwise fun u v => u.base.same v.base = false :=
  h.pairwise (R := fun b m => b.same m = false) (fun hbm => by rwa [BlockType.same_comm]) hus
    fun _ _ => id

/-- A stored block after a confirmation: another one, the one that was confirmed, or the new one. -/
theorem Confirmed.cases (h : Confirmed env transfer deposit block actions us us')
    (hus : us.Pairwise fun u v => u.base.same v.base = false) {v : UnconfirmBlock} (hv : v ∈ us') :
    (v ∈ us ∧ block.same v.base = false) ∨
      (∃ u ∈ us, v = u.confirmedBy transfer deposit ∧ block.same u.base = true ∧
        transfer ∉ u.confirmeds) ∨ v = ⟨block, deposit, actions, [transfer]⟩ := by
  cases h with
  | stored l1 u l2 hus1 hus' hsame hnew _ =>
    subst hus1 hus'
    rw [BlockType.same_comm] at hsame
    have hother : ∀ v : UnconfirmBlock, (u.base.same v.base = false ∨ v.base.same u.base = false) →
        block.same v.base = false := by
      intro v hne
      by_contra hv
      have huv : u.base.same v.base = true := by
        rw [BlockType.same_comm] at hsame
        exact BlockType.same_trans hsame (by simpa using hv)
      rcases hne with hne | hne
      · simp [hne] at huv
      · rw [BlockType.same_comm] at hne
        simp [hne] at huv
    obtain ⟨-, hl2, hl1⟩ := pairwise_append.mp hus
    rcases mem_append.mp hv with hv | hv
    · refine .inl ⟨mem_append_left _ hv, hother v (.inr (hl1 v hv u mem_cons_self))⟩
    · rcases mem_cons.mp hv with rfl | hv
      · exact .inr (.inl ⟨u, by simp, rfl, hsame, hnew⟩)
      · refine .inl ⟨mem_append_right _ (mem_cons_of_mem _ hv), hother v (.inl ?_)⟩
        exact (pairwise_cons.mp hl2).1 v hv
  | added hnew hus' =>
    subst hus'
    rcases mem_append.mp ((env.sort_perm _).mem_iff.mp hv) with hv | hv
    · rw [BlockType.same_comm]
      exact .inl ⟨hv, hnew v hv⟩
    · exact .inr (.inr (mem_singleton.mp hv))

end Confirm

section Sums

variable {trace : List Event} {chain : ChainName} {transfer : AccountName} {block : BlockType}
  {actions : List RelayAction} {deposit : Asset}

theorem depositAt_other (h : ¬ (chain = c ∧ transfer = r ∧ block.same b = true)) :
    depositAt (.committed chain transfer block actions deposit :: trace) c b r =
      depositAt trace c b r := by
  unfold depositAt
  rw [lastCommit_other h]

theorem depositAt_own (h : block.same b = true) :
    depositAt (.committed chain transfer block actions deposit :: trace) chain b transfer =
      deposit.amount := by
  unfold depositAt
  rw [lastCommit_own h]
  rfl

/-- The confirmations of a stored block of another chain, or of another block. -/
theorem sum_depositAt_other (h : chain ≠ c ∨ block.same u.base = false) : (u.confirmeds.map
      (depositAt (.committed chain transfer block actions deposit :: trace) c u.base)).sum =
      (u.confirmeds.map (depositAt trace c u.base)).sum := by
  refine congrArg sum (map_congr_left fun r _ => depositAt_other ?_)
  rintro ⟨hc, -, hsame⟩
  rcases h with h | h
  · exact h hc
  · simp [h] at hsame

theorem sum_depositAt_confirmed (hsame : block.same u.base = true) (hnew : transfer ∉ u.confirmeds) :
    ((u.confirmeds ++ [transfer]).map
      (depositAt (.committed chain transfer block actions deposit :: trace) chain u.base)).sum =
      (u.confirmeds.map (depositAt trace chain u.base)).sum + deposit.amount := by
  rw [map_append, sum_append, map_singleton, sum_singleton, depositAt_own hsame]
  refine congrArg (· + _) (congrArg sum (map_congr_left fun r hr => depositAt_other ?_))
  rintro ⟨-, rfl, -⟩
  exact hnew hr

end Sums

variable {sent : List BlockType}

namespace Exact

theorem empty : Exact {} := by
  refine ⟨⟨?_, ?_⟩, ?_, ?_⟩ <;> intro _ h <;> exact absurd h (by simp [KeyedTable.empty])

theorem of_eq (h : Exact w) (hchannels : w'.channels = w.channels)
    (htransfers : w'.transfers = w.transfers) (hstats : w'.relaystats = w.relaystats)
    (htrace : ∀ chain block r, lastCommit w'.trace chain block r = lastCommit w.trace chain block r) :
    Exact w' := by
  have hat : ∀ chain block, depositAt w'.trace chain block = depositAt w.trace chain block := by
    intro chain block
    funext r
    unfold depositAt
    rw [htrace]
  refine ⟨⟨fun ch hch => ?_, fun s hs u hu => ?_⟩, fun t ht => ?_, fun s hs => ?_⟩
  · rw [htransfers]
    exact h.deposits ch (hchannels ▸ hch)
  · rw [hat]
    exact h.confirms s (hstats ▸ hs) u hu
  · rw [hchannels]
    exact h.channel t (htransfers ▸ ht)
  · exact h.distinct s (hstats ▸ hs)

variable {chain : ChainName}

theorem opened (h : Exact w) (hnew : w.channels.find? chain = none) : Exact { w with
      channels := w.channels.insert ⟨chain, env.zero⟩
      relaystats := w.relaystats.insert { chain := chain } } := by
  refine ⟨⟨forall_mem_insert (sum_eq_zero fun x hx => ?_).symm h.deposits,
    forall_mem_insert (fun u hu => absurd hu (by simp)) h.confirms⟩, fun t ht => ?_,
    forall_mem_insert List.Pairwise.nil h.distinct⟩
  · obtain ⟨t, ht, rfl⟩ := mem_map.mp hx
    refine if_neg fun heq => h.channel t ht ?_
    rw [show t.chain = chain from heq]
    exact hnew
  · rw [find?_insert]
    split
    · simp
    · exact h.channel t ht

theorem deposited {chain : ChainName} {transfer : AccountName} {deposit : Asset} (h : Exact w)
    (d : Deposited env chain transfer deposit w w') : Exact w' := by
  have htotal := d.total
  have hold := d.old_eq
  cases d with
  | @mk channel row transfers old hchannel _ _ _ hrow hwrites hafter =>
    obtain hold : old = w.deposit chain transfer := hold
    obtain ⟨hmem, hkey⟩ := find?_eq_some_iff.mp hchannel
    obtain rfl : channel.chain = chain := hkey
    subst hafter
    have hput : ∀ c, (w.channels.put { channel with depositSum :=
          ⟨channel.depositSum.amount - old + deposit.amount, channel.depositSum.symbol⟩ }).find? c ≠
        none ↔ w.channels.find? c ≠ none := by
      intro c
      rw [find?_put hchannel (by exact rfl)]
      split
      · next heq => simp [heq, hchannel]
      · exact Iff.rfl
    refine ⟨⟨fun ch hch => ?_, h.confirms⟩, fun t ht => ?_, h.distinct⟩
    · rw [htotal ch.chain, ← hold]
      rcases mem_put hch with rfl | ⟨hch, hne⟩
      · rw [← h.deposits channel hmem, if_pos rfl]
        show channel.depositSum.amount - old + deposit.amount = _
        omega
      · rw [if_neg (show channel.chain ≠ ch.chain from Ne.symm hne), add_zero]
        exact h.deposits ch hch
    · refine (hput t.chain).mpr ?_
      have hrows : t = row ∨ t ∈ w.transfers.rows := by
        rcases hwrites with ⟨-, -, rfl⟩ | ⟨it, -, -, rfl⟩
        · exact (mem_insert.mp ht).imp_right And.left
        · exact (mem_put ht).imp_right And.left
      rcases hrows with rfl | ht
      · rw [hrow.1, hchannel]
        simp
      · exact h.channel t ht

theorem committed {transfer : AccountName} {block : BlockType} {actions : List RelayAction}
    (h : Exact w) (m : Committed env chain transfer block actions w w' sent)
    : Exact w' := by
  cases m with
  | @mk it ich relaystat unconfirms hit _ hstat _ _ hconfirms _ _ hafter =>
    obtain ⟨hitMem, hitKey⟩ := find?_eq_some_iff.mp hit
    obtain ⟨hstatMem, hstatKey⟩ := find?_eq_some_iff.mp hstat
    obtain rfl : relaystat.chain = chain := hstatKey
    obtain ⟨hchain, htransfer⟩ : it.chain = relaystat.chain ∧ it.transfer = transfer :=
      Prod.mk.inj (toLex_inj.mp hitKey)
    subst hafter
    have hdistinct := h.distinct relaystat hstatMem
    refine ⟨⟨fun ch hch => ?_, fun s hs u hu => ?_⟩, forall_mem_put (h.channel it hitMem) h.channel,
      forall_mem_put (hconfirms.distinct hdistinct) h.distinct⟩
    · rw [h.deposits ch hch]
      have hput := @transfers_put _ _ _ _ { it with last := block } hit ⟨hchain, htransfer⟩
      exact ((hput _).trans (sub_add_cancel _ _)).symm
    · show u.confirmeds.Nodup ∧ u.confirm.amount = (u.confirmeds.map (depositAt
        (.committed relaystat.chain transfer block actions it.deposit :: w.trace) s.chain u.base)).sum
      rcases mem_put hs with rfl | ⟨hs, hne⟩
      · rcases hconfirms.cases hdistinct hu with ⟨hold, hother⟩ | ⟨v, hv, rfl, hsame, hnew⟩ | rfl
        · rw [sum_depositAt_other (.inr hother)]
          exact h.confirms relaystat hstatMem u hold
        · obtain ⟨hnodup, hsum⟩ := h.confirms relaystat hstatMem v hv
          refine ⟨?_, ?_⟩
          · show (v.confirmeds ++ [transfer]).Nodup
            rw [nodup_append]
            refine ⟨hnodup, nodup_singleton _, fun a ha b hb => ?_⟩
            rw [mem_singleton.mp hb]
            rintro rfl
            exact hnew ha
          · refine Eq.trans ?_ (sum_depositAt_confirmed hsame hnew).symm
            rw [← hsum]
            exact add_comm _ _
        · refine ⟨nodup_singleton _, ?_⟩
          show it.deposit.amount = _
          rw [map_singleton, sum_singleton, depositAt_own (BlockType.same_refl block)]
      · rw [sum_depositAt_other (.inl (show relaystat.chain ≠ s.chain from Ne.symm hne))]
        exact h.confirms s hs u hu

theorem processed {block : BlockType} (h : Exact w) (p : Processed chain block w w')
    : Exact w' := by
  cases p with
  | @mk ich relaystat uc _ hstat _ _ _ _ hafter =>
    obtain ⟨hstatMem, hstatKey⟩ := find?_eq_some_iff.mp hstat
    subst hafter
    exact ⟨⟨h.deposits, forall_mem_put
      (fun u hu => h.confirms relaystat hstatMem u (mem_of_mem_filter hu)) h.confirms⟩, h.channel,
      forall_mem_put ((h.distinct relaystat hstatMem).sublist filter_sublist) h.distinct⟩

theorem step {c : Call} (h : Exact w) (hstep : Step env c w w') : Exact w' := by
  cases hstep with
  | same => exact h
  | channel hnew _ => exact h.opened hnew
  | mapped _ _ _ => exact h.of_eq rfl rfl rfl fun _ _ _ => rfl
  | deposited _ _ hdeposit =>
    obtain ⟨d⟩ := hdeposit
    exact (h.deposited d).of_eq rfl rfl rfl fun _ _ _ => rfl
  | committed _ hcommit =>
    obtain ⟨m⟩ := hcommit
    exact h.committed m
  | processed _ hprocess =>
    obtain ⟨p⟩ := hprocess
    exact h.processed p

theorem run (env : Env) (cs : List Call) : Exact (after env cs) :=
  after_invariant (I := Exact) (fun h hrun => h.step (Step.of_run hrun)) cs {} .empty

/-- Also with the inline actions of every commit. -/
theorem transacted (env : Env) (cs : List Call) : Exact (transacted env cs) :=
  transacted_invariant (I := Exact) (fun h hrun => h.step (Step.of_run hrun)) cs .empty

end Exact

/-- **Confirmation sums** are exact after every history. -/
theorem sumsExact_run (env : Env) (cs : List Call) : SumsExact (after env cs) :=
  (Exact.run env cs).toSumsExact

/-! ## Confirmations of stored blocks -/

/-- A block is stored on a channel. -/
def World.Stored (w : World) (chain : ChainName) (u : UnconfirmBlock) : Prop :=
  ∃ s ∈ w.relaystats.rows, s.chain = chain ∧ u ∈ s.unconfirms

variable {chain : ChainName} {block : BlockType}

theorem Processed.stored_before (p : Processed chain block w w') (hu : w'.Stored c u)
    : w.Stored c u := by
  obtain ⟨s, hs, hc, hu⟩ := hu
  cases p with
  | @mk ich relaystat uc _ hstat _ _ _ _ hafter =>
    subst hafter
    rcases mem_put hs with rfl | ⟨hs, -⟩
    · exact ⟨relaystat, (find?_eq_some_iff.mp hstat).1, hc, mem_of_mem_filter hu⟩
    · exact ⟨s, hs, hc, hu⟩

/-- A confirmation of a stored block after a step: an earlier one, or that of a commit. -/
inductive Confirmation (c : Call) (w w' : World) (chain : ChainName) (u : UnconfirmBlock)
    (r : AccountName) : Prop
  | old (v : UnconfirmBlock) (hstored : w.Stored chain v) (hbase : v.base = u.base)
      (hactions : v.actions = u.actions) (hconfirmed : r ∈ v.confirmeds)
      (hcommit : lastCommit w'.trace chain u.base r = lastCommit w.trace chain u.base r)
  | new (block : BlockType) (actions : List RelayAction) (deposit : Asset)
      (haction : c.action = .commit chain r block actions)
      (hactions : u.actions = actions ∨
        ∃ v, w.Stored chain v ∧ v.base.same block = true ∧ v.actions = u.actions)
      (hcommit : lastCommit w'.trace chain u.base r = some (actions, deposit))
      (hdeposit : w'.deposit chain r = deposit.amount)

theorem Committed.confirmation {c : Call} {transfer : AccountName} {actions : List RelayAction}
    (hexact : Exact w)
    (haction : c.action = .commit chain transfer block actions)
    (m : Committed env chain transfer block actions w w' sent) {c' : ChainName}
    (hu : w'.Stored c' u) (hr : r ∈ u.confirmeds) : Confirmation c w w' c' u r := by
  have hdeposit : w'.deposit chain transfer = m.it.deposit.amount := by
    rw [m.deposit]
    unfold World.deposit
    rw [m.it_eq]
    rfl
  cases m with
  | @mk it ich relaystat unconfirms hit _ hstat _ _ hconfirms _ _ hafter =>
    obtain ⟨hstatMem, hstatKey⟩ := find?_eq_some_iff.mp hstat
    obtain rfl : relaystat.chain = chain := hstatKey
    have htrace : w'.trace =
        .committed relaystat.chain transfer block actions it.deposit :: w.trace := by
      rw [hafter]
    obtain ⟨s, hs, rfl, hu⟩ := hu
    rw [hafter] at hs
    rcases mem_put hs with rfl | ⟨hs, hne⟩
    · rcases hconfirms.cases (hexact.distinct relaystat hstatMem) hu with
        ⟨hold, hother⟩ | ⟨v, hv, rfl, hsame, hnew⟩ | rfl
      · refine .old u ⟨relaystat, hstatMem, rfl, hold⟩ rfl rfl hr ?_
        rw [htrace, lastCommit_other fun hall => absurd hall.2.2 (by simp [hother])]
      · rcases mem_append.mp hr with hr | hr
        · refine .old v ⟨relaystat, hstatMem, rfl, hv⟩ rfl rfl hr ?_
          rw [htrace, lastCommit_other]
          rintro ⟨-, rfl, -⟩
          exact hnew hr
        · obtain rfl := mem_singleton.mp hr
          refine .new block actions it.deposit haction
            (.inr ⟨v, ⟨relaystat, hstatMem, rfl, hv⟩, ?_, rfl⟩) ?_ hdeposit
          · rw [BlockType.same_comm]
            exact hsame
          · rw [htrace]
            exact lastCommit_own hsame
      · obtain rfl := mem_singleton.mp hr
        refine .new block actions it.deposit haction (.inl rfl) ?_ hdeposit
        rw [htrace]
        exact lastCommit_own (BlockType.same_refl block)
    · refine .old u ⟨s, hs, rfl, hu⟩ rfl rfl hr ?_
      rw [htrace, lastCommit_other fun hall => hne (Eq.symm hall.1 : s.chain = relaystat.chain)]

theorem Step.confirmation {c : Call} (hstep : Step env c w w') (hexact : Exact w)
    (hu : w'.Stored chain u) (hr : r ∈ u.confirmeds) : Confirmation c w w' chain u r := by
  cases hstep with
  | same | mapped => exact .old u hu rfl rfl hr rfl
  | channel _ _ =>
    obtain ⟨s, hs, hc, hu⟩ := hu
    rcases mem_insert.mp hs with rfl | ⟨hs, -⟩
    · simp at hu
    · exact .old u ⟨s, hs, hc, hu⟩ rfl rfl hr rfl
  | deposited _ _ hdeposit =>
    obtain ⟨d⟩ := hdeposit
    rw [d.after_eq] at hu ⊢
    refine .old u hu rfl rfl hr ?_
    rfl
  | committed haction hcommit =>
    obtain ⟨m⟩ := hcommit
    exact m.confirmation hexact haction hu hr
  | processed _ hprocess =>
    obtain ⟨p⟩ := hprocess
    refine .old u (p.stored_before hu) rfl rfl hr ?_
    rw [p.after_eq]
    rfl

/-! ## The actions of a block -/

/-- Every relayer that confirmed a stored block committed the stored actions. -/
def ActionsCommitted (w : World) : Prop :=
  ∀ chain u, w.Stored chain u → ∀ r ∈ u.confirmeds,
    ∃ d, lastCommit w.trace chain u.base r = some (u.actions, d)

theorem ActionsCommitted.step {c : Call} (h : ActionsCommitted w) (hexact : Exact w)
    (hsame : SameActions w c) (hstep : Step env c w w') : ActionsCommitted w' := by
  intro chain u hu r hr
  cases hstep.confirmation hexact hu hr with
  | old v hstored hbase hactions hconfirmed hcommit =>
    rw [hcommit, ← hbase, ← hactions]
    exact h chain v hstored r hconfirmed
  | new block actions deposit haction hactions hcommit _ =>
    have hstored : u.actions = actions := by
      rcases hactions with hactions | ⟨v, ⟨s, hs, hc, hv⟩, hvSame, hactions⟩
      · exact hactions
      · unfold SameActions at hsame
        rw [haction] at hsame
        rw [← hactions]
        exact hsame s (find?_eq_some_iff.mpr ⟨hs, hc⟩) v hv hvSame
    rw [hcommit, hstored]
    exact ⟨deposit, rfl⟩

theorem ActionsCommitted.vouched (h : ActionsCommitted w) (hexact : Exact w) {s : BlockRelayStat}
    (hs : s ∈ w.relaystats.rows) (hu : u ∈ s.unconfirms) (hsame : u.base.same block = true)
    {sum : Asset} (hreach : 2 * sum.amount ≤ 3 * u.confirm.amount)
    : Vouched w s.chain block u.actions sum := by
  obtain ⟨hnodup, hconfirm⟩ := hexact.confirms s hs u hu
  have hcommits : ∀ r ∈ u.confirmeds, ∃ d, lastCommit w.trace s.chain u.base r = some (u.actions, d) :=
    h s.chain u ⟨s, hs, rfl, hu⟩
  have : Nonempty Asset := ⟨sum⟩
  choose! d hd using hcommits
  refine ⟨u.confirmeds.map fun r => (r, d r), ?_, ?_, ?_⟩
  · rw [map_map]
    exact (map_id _).symm ▸ hnodup
  · intro v hv
    obtain ⟨r, hr, rfl⟩ := mem_map.mp hv
    obtain ⟨b, hb, hmem⟩ := mem_of_lastCommit (hd r hr)
    exact ⟨b, BlockType.same_trans hb hsame, hmem⟩
  · rw [map_map]
    have hsum : u.confirmeds.map (depositAt w.trace s.chain u.base) =
        u.confirmeds.map fun r => (d r).amount := by
      refine map_congr_left fun r hr => ?_
      unfold depositAt
      rw [hd r hr]
      rfl
    rw [hsum] at hconfirm
    exact hconfirm ▸ hreach

theorem committed_empty : Exact {} ∧ ActionsCommitted {} := by
  refine ⟨.empty, ?_⟩
  rintro chain u ⟨s, hs, -⟩
  simp [empty] at hs

theorem committed_step {c : Call} (h : Exact w ∧ ActionsCommitted w) (hsame : SameActions w c)
    (hrun : c.run env w = .ok w') : Exact w' ∧ ActionsCommitted w' :=
  ⟨h.1.step (Step.of_run hrun), h.2.step h.1 hsame (Step.of_run hrun)⟩

variable {auth : List AccountName}

theorem Processes.vouched {actions : List RelayAction}
    (h : Processes env auth chain block actions w w') (hinv : Exact w ∧ ActionsCommitted w) :
    ∃ ich, w.channels.find? chain = some ich ∧ Vouched w chain block actions ich.depositSum := by
  obtain ⟨⟨hich, hstat, -, hstored, hsame, hreach, -⟩, rfl⟩ := h.processed
  obtain ⟨hmem, hkey⟩ := find?_eq_some_iff.mp hstat
  obtain rfl := hkey
  exact ⟨_, hich, hinv.2.vouched hinv.1 hmem hstored hsame hreach⟩

/-- **Relayed actions carry the deposits behind them**, as long as a block that is stored is always
committed with the same actions. -/
theorem actionsVouched_run (env : Env) (cs : List Call)
    (hsame : Rollback.Along (Call.run env) SameActions cs {}) {auth : List AccountName}
    {chain : ChainName} {block : BlockType} {actions : List RelayAction} {w' : World}
    (h : Processes env auth chain block actions (after env cs) w') :
    ∃ ich, (after env cs).channels.find? chain = some ich ∧
      Vouched (after env cs) chain block actions ich.depositSum :=
  h.vouched (after_induction committed_step cs {} committed_empty hsame)

theorem actionsVouched_transacted (env : Env) (cs : List Call)
    (hsame : Rollback.Along (Call.transact env) SameActions cs {}) {actions : List RelayAction}
    (h : Processes env auth chain block actions (transacted env cs) w') :
    ∃ ich, (transacted env cs).channels.find? chain = some ich ∧
      Vouched (transacted env cs) chain block actions ich.depositSum :=
  h.vouched (transacted_induction committed_step (fun _ _ _ => trivial) cs committed_empty hsame)

/-- Two relayers confirm a block with the same actions. -/
def agreedRun : List Call := opened [(2, 60), (3, 40)] ++
  [callOf (.commit side 2 (blockOf 1 5) [⟨8, 9, [], [1]⟩]),
    callOf (.commit side 3 (blockOf 1 5) [⟨8, 9, [], [1]⟩])]

theorem processes_agreedRun : ∃ w', Processes sampleEnv [1] side (blockOf 1 5) [⟨8, 9, [], [1]⟩]
    (after sampleEnv agreedRun) w' :=
  ⟨_, onblock_ok (by decide +kernel), [], by decide +kernel⟩

theorem actionsVouched_agreedRun : ∃ ich, (after sampleEnv agreedRun).channels.find? side = some ich ∧
    Vouched (after sampleEnv agreedRun) side (blockOf 1 5) [⟨8, 9, [], [1]⟩] ich.depositSum :=
  actionsVouched_run sampleEnv agreedRun (by decide +kernel) processes_agreedRun.choose_spec

theorem not_vouched {actions : List RelayAction} {sum : Asset} {v : AccountName × Asset}
    (honly : ∀ r b d, Event.committed chain r b actions d ∈ w.trace → (r, d) = v)
    (hpos : 0 ≤ v.2.amount) (hless : 3 * v.2.amount < 2 * sum.amount) :
    ¬ Vouched w chain block actions sum := by
  rintro ⟨vs, hnodup, hcommits, hsum⟩
  have hall : ∀ x ∈ vs, x = v := by
    intro x hx
    obtain ⟨b, -, hmem⟩ := hcommits x hx
    exact honly x.1 b x.2 hmem
  rw [eq_replicate_of_mem hall, map_replicate] at hnodup hsum
  rw [sum_replicate] at hsum
  have hone : vs.length ≤ 1 := nodup_replicate.mp hnodup
  have hle : vs.length • v.2.amount ≤ 1 • v.2.amount := nsmul_le_nsmul_left hpos hone
  rw [one_nsmul] at hle
  omega

/-- Relayer `2` commits a block with actions of its own before the others do. -/
def minorityRun : List Call := opened [(2, 10), (3, 50), (4, 40)] ++
  [callOf (.commit side 2 (blockOf 1 5) [⟨8, 9, [], [1]⟩]),
    callOf (.commit side 3 (blockOf 1 5) [⟨8, 9, [], [2]⟩])]

/-- The commit after which the block is processed. -/
def lastVote : Call := callOf (.commit side 4 (blockOf 1 5) [⟨8, 9, [], [2]⟩])

/-- The block that the last commit sends `onblock` for is processed with the actions of relayer `2`,
which has a tenth of the deposits. -/
theorem actions_of_a_minority :
    Prod.snd <$> commit sampleEnv lastVote.auth side 4 (blockOf 1 5) [⟨8, 9, [], [2]⟩]
        (after sampleEnv minorityRun) = .ok [blockOf 1 5] ∧
      (∃ w', Processes sampleEnv [1] side (blockOf 1 5) [⟨8, 9, [], [1]⟩]
        (after sampleEnv (minorityRun ++ [lastVote])) w') ∧
      ((after sampleEnv (minorityRun ++ [lastVote])).channels.find? side).map Channel.depositSum =
        some ⟨100, sys⟩ ∧
      ¬ Vouched (after sampleEnv (minorityRun ++ [lastVote])) side (blockOf 1 5) [⟨8, 9, [], [1]⟩]
        ⟨100, sys⟩ := by
  refine ⟨by decide +kernel, ⟨_, onblock_ok
    (by decide +kernel), [], by decide +kernel⟩, by decide +kernel, ?_⟩
  refine not_vouched (v := (2, ⟨10, sys⟩)) (fun r b d hmem => ?_) (by decide) (by decide)
  have htrace : (after sampleEnv (minorityRun ++ [lastVote])).trace =
      [.committed side 4 (blockOf 1 5) [⟨8, 9, [], [2]⟩] ⟨40, sys⟩,
        .committed side 3 (blockOf 1 5) [⟨8, 9, [], [2]⟩] ⟨50, sys⟩,
        .committed side 2 (blockOf 1 5) [⟨8, 9, [], [1]⟩] ⟨10, sys⟩,
        .received 4 ⟨40, sys⟩ "side".toList, .received 3 ⟨50, sys⟩ "side".toList,
        .received 2 ⟨10, sys⟩ "side".toList] := by decide +kernel
  rw [htrace] at hmem
  simp only [mem_cons, Event.committed.injEq, reduceCtorEq, not_mem_nil, or_false] at hmem
  rcases hmem with ⟨-, -, -, h, -⟩ | ⟨-, -, -, h, -⟩ | ⟨-, rfl, -, -, rfl⟩
  · exact absurd h (by decide)
  · exact absurd h (by decide)
  · rfl

/-! ## The deposits of a moment -/

/-- No relayer has less than it confirmed a stored block with. -/
def DepositsKept (w : World) : Prop :=
  ∀ chain u, w.Stored chain u → ∀ r ∈ u.confirmeds,
    depositAt w.trace chain u.base r ≤ w.deposit chain r

theorem DepositsKept.step {c : Call} (h : DepositsKept w) (hexact : Exact w)
    (hkeeps : KeepsDeposits env w c) (hstep : Step env c w w') : DepositsKept w' := by
  intro chain u hu r hr
  cases hstep.confirmation hexact hu hr with
  | old v hstored hbase _ hconfirmed hcommit =>
    have hat : depositAt w'.trace chain u.base r = depositAt w.trace chain v.base r := by
      unfold depositAt
      rw [hcommit, hbase]
    rw [hat]
    refine (h chain v hstored r hconfirmed).trans ?_
    rcases hstep.deposit chain r with hdeposit | ⟨receiver, quantity, memo, haction, hmemo, rfl,
      hdeposit⟩
    · exact hdeposit.ge
    · obtain ⟨s, hs, hc, hv⟩ := hstored
      unfold KeepsDeposits at hkeeps
      rw [haction] at hkeeps
      rw [hdeposit]
      exact hkeeps hmemo s (find?_eq_some_iff.mpr ⟨hs, hc⟩) v hv hconfirmed
  | new block actions deposit _ _ hcommit hdeposit =>
    unfold depositAt
    rw [hcommit, hdeposit]
    rfl

theorem kept_empty : Exact {} ∧ DepositsKept {} := by
  refine ⟨.empty, ?_⟩
  rintro chain u ⟨s, hs, -⟩
  simp [empty] at hs

theorem kept_step {c : Call} (h : Exact w ∧ DepositsKept w) (hkeeps : KeepsDeposits env w c)
    (hrun : c.run env w = .ok w') : Exact w' ∧ DepositsKept w' :=
  ⟨h.1.step (Step.of_run hrun), h.2.step h.1 hkeeps (Step.of_run hrun)⟩

theorem Processes.behind {actions : List RelayAction}
    (h : Processes env auth chain block actions w w') (hinv : Exact w ∧ DepositsKept w) :
    Behind w chain block := by
  obtain ⟨⟨hich, hstat, -, hstored, hsame, hreach, -⟩, -⟩ := h.processed
  obtain ⟨hmem, rfl⟩ := find?_eq_some_iff.mp hstat
  obtain ⟨hnodup, hconfirm⟩ := hinv.1.confirms _ hmem _ hstored
  refine ⟨_, hich, _, hstat, _, hstored, hsame, hnodup, hreach.trans ?_⟩
  rw [hconfirm]
  refine mul_le_mul_of_nonneg_left (sum_le_sum fun r hr => ?_) (by decide)
  exact hinv.2 _ _ ⟨_, hmem, rfl, hstored⟩ r hr

/-- **A processed block has two thirds of the deposits behind it**, as long as no relayer that
confirmed a stored block lowers its deposit. -/
theorem depositsBehind_run (env : Env) (cs : List Call)
    (hkeeps : Rollback.Along (Call.run env) (KeepsDeposits env) cs {}) {auth : List AccountName}
    {chain : ChainName} {block : BlockType} {actions : List RelayAction} {w' : World}
    (h : Processes env auth chain block actions (after env cs) w') :
    Behind (after env cs) chain block :=
  h.behind (after_induction kept_step cs {} kept_empty hkeeps)

theorem depositsBehind_transacted (env : Env) (cs : List Call)
    (hkeeps : Rollback.Along (Call.transact env) (KeepsDeposits env) cs {}) {actions : List RelayAction}
    (h : Processes env auth chain block actions (transacted env cs) w') :
    Behind (transacted env cs) chain block :=
  h.behind (transacted_induction kept_step (fun _ _ _ => trivial) cs kept_empty hkeeps)

theorem depositsBehind_agreedRun : Behind (after sampleEnv agreedRun) side (blockOf 1 5) :=
  depositsBehind_run sampleEnv agreedRun (by decide +kernel) processes_agreedRun.choose_spec

/-- A relayer confirms a block and then replaces its deposit by a small one. -/
def withdrawnRun : List Call := opened [(2, 60), (3, 40)] ++
  [callOf (.commit side 2 (blockOf 1 5) []), callOf (.transfer 2 1 ⟨1, sys⟩ "side".toList)]

/-- The next commit, of another block, sends `onblock` for the first one, which is processed with one
token of 41 behind it. -/
theorem deposit_withdrawn :
    Prod.snd <$> commit sampleEnv [3] side 3 (blockOf 2 6) [] (after sampleEnv withdrawnRun) =
        .ok [blockOf 1 5, blockOf 2 6] ∧
      (∃ w', Processes sampleEnv [1] side (blockOf 1 5) []
        (after sampleEnv (withdrawnRun ++ [callOf (.commit side 3 (blockOf 2 6) [])])) w') ∧
      ¬ Behind (after sampleEnv (withdrawnRun ++ [callOf (.commit side 3 (blockOf 2 6) [])])) side
        (blockOf 1 5) :=
  ⟨by decide +kernel, ⟨_, onblock_ok
    (by decide +kernel), [], by decide +kernel⟩, by decide +kernel⟩

end Forceio.Relay
