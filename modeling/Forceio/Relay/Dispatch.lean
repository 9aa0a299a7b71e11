import Forceio.Relay.Steps

/-!
# Blocks are handled once and in order

`onblock` processes a block only when its number is above the last one that was processed on the
channel, and `newmap` refuses a second handler for an action. Any order of the actions is covered,
also `onblock` for blocks that no commit sent it for.

Result:
* `handledOnce_run`: blocks are handled once and in order, in every history.
-/

namespace Forceio.Relay

open Forceio.Lib Forceio.Eosiolib KeyedTable List
open Forceio.Chain (AccountName)
open World

variable {env : Env} {w w' : World}

/-! ## Statements -/

/-- The number of a block that was processed on a channel. -/
def Event.processedNum (chain : ChainName) : Event → Option Nat
  | .processed c block _ _ => if c = chain then some block.num else none
  | _ => none

/-- The numbers of the blocks that a channel processed, the last first. -/
def World.processedNums (w : World) (chain : ChainName) : List Nat :=
  w.trace.filterMap (Event.processedNum chain)

/-- The handler of an action. -/
def World.handlerOf (w : World) (chain : ChainName) (act : RelayAction) : Option MapHandler :=
  (w.handlersOf chain).find? (·.handles act)

/-- The blocks of every channel were processed in order, and the next one that is processed sends each
of its stored actions to the one handler of that action, or to none when it has none. -/
structure HandledOnce (env : Env) (w : World) : Prop where
  ordered : ∀ chain, (w.processedNums chain).Pairwise (· > ·)
  sends : ∀ auth chain block w', onblock env auth chain block w = .ok w' →
    (w' = w ∧ Skipped chain block w) ∨ ∃ s uc, w.relaystats.find? chain = some s ∧
      uc ∈ s.unconfirms ∧ uc.base.same block = true ∧
      w'.trace = .processed chain block uc.actions (uc.actions.flatMap fun act =>
        ((w.handlerOf chain act).map (onaction block act)).toList) :: w.trace

/-! ## Order -/

/-- The blocks of every channel were processed in order, up to the last one. -/
structure Ordered (w : World) : Prop where
  decreasing : ∀ chain, (w.processedNums chain).Pairwise (· > ·)
  upToLast : ∀ chain, ∀ n ∈ w.processedNums chain,
    ∃ s, w.relaystats.find? chain = some s ∧ n ≤ s.last.num

namespace Ordered

theorem of_eq (h : Ordered w) (hnums : ∀ chain, w'.processedNums chain = w.processedNums chain)
    (hlast : ∀ chain s, w.relaystats.find? chain = some s →
      ∃ s', w'.relaystats.find? chain = some s' ∧ s'.last = s.last) : Ordered w' := by
  refine ⟨fun chain => ?_, fun chain n hn => ?_⟩
  · rw [hnums]
    exact h.decreasing chain
  · rw [hnums] at hn
    obtain ⟨s, hs, hle⟩ := h.upToLast chain n hn
    obtain ⟨s', hs', hlast⟩ := hlast chain s hs
    exact ⟨s', hs', by rw [hlast]; exact hle⟩

theorem committed {chain : ChainName} {transfer : AccountName} {block : BlockType}
    {actions : List RelayAction} {sent : List BlockType} (h : Ordered w)
    (m : Committed env chain transfer block actions w w' sent) : Ordered w' := by
  cases m with
  | @mk it ich relaystat unconfirms _ _ hstat _ _ _ _ _ hafter =>
    subst hafter
    refine h.of_eq (fun _ => rfl) fun c s hs => ?_
    show ∃ s', (w.relaystats.put _).find? c = some s' ∧ _
    rw [find?_put hstat (by exact rfl)]
    split
    · next heq =>
      rw [heq, hstat] at hs
      obtain rfl := Option.some.inj hs
      exact ⟨_, rfl, rfl⟩
    · exact ⟨s, hs, rfl⟩

theorem processed {chain : ChainName} {block : BlockType} (h : Ordered w)
    (p : Processed chain block w w') : Ordered w' := by
  cases p with
  | @mk ich relaystat uc _ hstat hnewer _ _ _ hafter =>
    subst hafter
    have hbelow : ∀ n ∈ w.processedNums chain, n < block.num := by
      intro n hn
      obtain ⟨s, hs, hle⟩ := h.upToLast chain n hn
      rw [hstat] at hs
      obtain rfl := Option.some.inj hs
      omega
    have hnums : ∀ (relaystats : KeyedTable BlockRelayStat) c, processedNums { w with
        relaystats := relaystats
        trace := .processed chain block uc.actions (w.dispatch chain block uc.actions) :: w.trace } c =
        if c = chain then block.num :: w.processedNums c else w.processedNums c := by
      intro relaystats c
      unfold processedNums
      rw [filterMap_cons, Event.processedNum]
      by_cases hc : c = chain
      · rw [if_pos hc.symm, if_pos hc]
      · rw [if_neg (Ne.symm hc), if_neg hc]
    refine ⟨fun c => ?_, fun c n hn => ?_⟩
    · rw [hnums]
      split
      · next hc =>
        rw [hc]
        exact pairwise_cons.mpr ⟨hbelow, h.decreasing chain⟩
      · exact h.decreasing c
    · rw [hnums] at hn
      show ∃ s, (w.relaystats.put _).find? c = some s ∧ _
      rw [find?_put hstat (by exact rfl)]
      by_cases hc : c = chain
      · rw [if_pos hc] at hn ⊢
        refine ⟨_, rfl, ?_⟩
        rcases mem_cons.mp hn with rfl | hn
        · exact le_rfl
        · rw [hc] at hn
          exact (hbelow n hn).le
      · rw [if_neg hc] at hn ⊢
        exact h.upToLast c n hn

theorem step {c : Call} (h : Ordered w) (hstep : Step env c w w') : Ordered w' := by
  cases hstep with
  | same => exact h
  | @channel chain _ hstat =>
    refine h.of_eq (fun _ => rfl) fun c s hs => ⟨s, ?_, rfl⟩
    show (w.relaystats.insert _).find? c = some s
    rw [find?_insert, if_neg, hs]
    rintro rfl
    exact absurd (hstat.symm.trans hs) (by simp)
  | mapped _ _ _ => exact ⟨h.decreasing, h.upToLast⟩
  | deposited _ _ hdeposit =>
    obtain ⟨d⟩ := hdeposit
    refine h.of_eq (fun c => ?_) fun c s hs => ⟨s, ?_, rfl⟩
    · rw [d.after_eq]
      rfl
    · rw [d.after_eq]
      exact hs
  | committed _ hcommit =>
    obtain ⟨m⟩ := hcommit
    exact h.committed m
  | processed _ hprocess =>
    obtain ⟨p⟩ := hprocess
    exact h.processed p

end Ordered

/-! ## Handlers -/

/-- An action has one handler at most. -/
def OneHandler (w : World) : Prop :=
  ∀ g ∈ w.handlers.rows, ∀ h ∈ w.handlers.rows, g.chain = h.chain → g.actaccount = h.actaccount →
    g.actname = h.actname → g = h

theorem OneHandler.step {c : Call} (h : OneHandler w) (hstep : Step env c w w') : OneHandler w' := by
  cases hstep with
  | same | channel => exact h
  | @mapped new hother handlers hmem =>
    have hfresh : ∀ g ∈ w.handlers.rows, g.chain = new.chain → g.actaccount = new.actaccount →
        g.actname ≠ new.actname := by
      intro g hg hchain haccount hname
      rcases hother g (mem_filter.mpr ⟨hg, by simpa using hchain⟩) with hne | hne
      · exact hne haccount
      · exact hne hname
    intro a ha b hb hchain haccount hname
    rcases hmem a ha with rfl | ha <;> rcases hmem b hb with rfl | hb
    · rfl
    · exact absurd hname.symm (hfresh b hb hchain.symm haccount.symm)
    · exact absurd hname (hfresh a ha hchain haccount)
    · exact h a ha b hb hchain haccount hname
  | deposited _ _ hdeposit =>
    obtain ⟨d⟩ := hdeposit
    rw [d.after_eq]
    exact h
  | committed _ hcommit =>
    obtain ⟨m⟩ := hcommit
    rw [m.after_eq]
    exact h
  | processed _ hprocess =>
    obtain ⟨p⟩ := hprocess
    rw [p.after_eq]
    exact h

/-- Where at most one row passes a test, all that pass it are the first one. -/
theorem filter_eq_toList_find? {α : Type} {p : α → Bool} : ∀ {l : List α}, l.Nodup →
    (∀ a ∈ l, ∀ b ∈ l, p a = true → p b = true → a = b) → l.filter p = (l.find? p).toList
  | [], _, _ => rfl
  | a :: l, hnodup, hone => by
    obtain ⟨hnew, hnodup⟩ := nodup_cons.mp hnodup
    by_cases ha : p a = true
    · have hnone : l.filter p = [] := by
        rw [filter_eq_nil_iff]
        intro b hb hpb
        have hab := hone a mem_cons_self b (mem_cons_of_mem _ hb) ha hpb
        exact hnew (hab ▸ hb)
      rw [filter_cons_of_pos ha, find?_cons_of_pos ha, hnone]
      rfl
    · rw [filter_cons_of_neg ha, find?_cons_of_neg ha]
      exact filter_eq_toList_find? hnodup fun b hb c hc =>
        hone b (mem_cons_of_mem _ hb) c (mem_cons_of_mem _ hc)

/-- **What a block sends**: each action to its handler, if it has one. -/
theorem OneHandler.dispatch_eq (h : OneHandler w) (chain : ChainName) (block : BlockType)
    (actions : List RelayAction) : w.dispatch chain block actions =
      actions.flatMap fun act => ((w.handlerOf chain act).map (onaction block act)).toList := by
  unfold dispatch handlerOf
  refine flatMap_congr fun act _ => ?_
  have hnodup : (w.handlersOf chain).Nodup := by
    refine List.Nodup.filter _ (w.handlers.ascending.imp fun {a b} hlt => ?_)
    rintro rfl
    exact lt_irrefl _ hlt
  rw [filter_eq_toList_find? hnodup]
  · cases (w.handlersOf chain).find? (·.handles act) <;> rfl
  · intro a ha b hb hpa hpb
    obtain ⟨ha, hachain⟩ := mem_filter.mp ha
    obtain ⟨hb, hbchain⟩ := mem_filter.mp hb
    obtain ⟨haccount, hname⟩ := of_decide_eq_true hpa
    obtain ⟨haccount', hname'⟩ := of_decide_eq_true hpb
    exact h a ha b hb ((of_decide_eq_true hachain).trans (of_decide_eq_true hbchain).symm)
      (haccount.trans haccount'.symm) (hname.trans hname'.symm)

/-! ## Histories -/

theorem handled_empty : Ordered {} ∧ OneHandler {} :=
  ⟨⟨fun _ => List.Pairwise.nil, fun _ _ hn => absurd hn (by simp [processedNums])⟩,
    fun _ hg => absurd hg (by simp [empty])⟩

theorem handled_step {c : Call} (h : Ordered w ∧ OneHandler w) (hrun : c.run env w = .ok w') :
    Ordered w' ∧ OneHandler w' :=
  ⟨h.1.step (Step.of_run hrun), h.2.step (Step.of_run hrun)⟩

theorem handledOnce_of_ordered (h : Ordered w ∧ OneHandler w) : HandledOnce env w := by
  refine ⟨h.1.decreasing, fun auth chain block w' hrun => ?_⟩
  rcases onblock_cases hrun with hskip | ⟨⟨p⟩⟩
  · exact .inl hskip
  · refine .inr ⟨p.relaystat, p.uc, p.relaystat_eq, p.stored, p.same, ?_⟩
    rw [← h.2.dispatch_eq]
    exact congrArg trace p.after_eq

/-- **Blocks are handled once and in order**, after every history of single actions in any order, and
after every history of transactions with the inline actions they send. -/
theorem handledOnce_run (env : Env) (cs : List Call) :
    HandledOnce env (after env cs) ∧ HandledOnce env (transacted env cs) :=
  ⟨handledOnce_of_ordered (Rollback.after_invariant handled_step cs {} handled_empty),
    handledOnce_of_ordered (transacted_invariant handled_step cs handled_empty)⟩

/-- Two relayers confirm a block with two actions, of which one has a handler. -/
def handledRun : List Call := opened [(2, 60), (3, 40)] ++ [callOf (.newmap side 6 8 9 5),
    callOf (.commit side 2 (blockOf 1 5) [⟨8, 9, [], [1]⟩, ⟨8, 8, [], [2]⟩]),
    callOf (.commit side 3 (blockOf 1 5) [⟨8, 9, [], [1]⟩, ⟨8, 8, [], [2]⟩])]

theorem handledOnce_handledRun : HandledOnce sampleEnv (transacted sampleEnv handledRun) ∧
    (transacted sampleEnv handledRun).trace.head? =
      some (.processed side (blockOf 1 5) [⟨8, 9, [], [1]⟩, ⟨8, 8, [], [2]⟩]
        [⟨5, side, 5, ⟨8, 9, [], [1]⟩⟩]) :=
  ⟨(handledOnce_run sampleEnv handledRun).2, by decide +kernel⟩

end Forceio.Relay
