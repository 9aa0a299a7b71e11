import Forceio.Relay.Steps

/-!
# Confirmed blocks are processed

A commit sends `onblock` for the first stored blocks that are confirmed, at most eight, and stops at
the first that is not. Blocks are stored by their number, and blocks of one number in any order, so
that the scan can stop at a rival of a confirmed block.

Results:
* `noneHeldBack_run`: where the scan meets no such rival and at most eight blocks are confirmed, no
  confirmed block of the smallest number is left after a commit.
* `held_back`: otherwise there may be one.
-/

namespace Forceio.Relay

open Forceio.Lib Forceio.Eosiolib KeyedTable Rollback List
open Forceio.Chain (AccountName)

variable {env : Env} {w w' : World}

/-! ## Statements -/

/-- The confirmations of a block reach two thirds of a sum. -/
def UnconfirmBlock.Reached (sum : Asset) (u : UnconfirmBlock) : Prop :=
  2 * sum.amount ≤ 3 * u.confirm.amount

instance (sum : Asset) (u : UnconfirmBlock) : Decidable (u.Reached sum) :=
  inferInstanceAs (Decidable (_ ≤ _))

/-- No stored block of the smallest number is confirmed. -/
def NoneHeldBack (w : World) (chain : ChainName) : Prop :=
  ∀ ich ∈ w.channels.find? chain, ∀ s ∈ w.relaystats.find? chain, ∀ u ∈ s.unconfirms,
    (∀ v ∈ s.unconfirms, u.base.num ≤ v.base.num) → ¬ u.Reached ich.depositSum

instance (w : World) (chain : ChainName) : Decidable (NoneHeldBack w chain) :=
  inferInstanceAs (Decidable (∀ _ ∈ _, _))

/-- What the scan of a commit of the block finds: the block and those that are stored are above the
last one processed, at most eight are confirmed, and one that is not stands before a confirmed one
only if no block of its own number is confirmed. -/
def Unhindered (w : World) (chain : ChainName) (block : BlockType) : Prop :=
  ∀ ich ∈ w.channels.find? chain, ∀ s ∈ w.relaystats.find? chain, s.last.num < block.num ∧
    (∀ u ∈ s.unconfirms, s.last.num < u.base.num) ∧
    s.unconfirms.countP (fun u => decide (u.Reached ich.depositSum)) ≤ 8 ∧
    s.unconfirms.Pairwise fun u v => v.Reached ich.depositSum → ¬ u.Reached ich.depositSum →
      ∀ t ∈ s.unconfirms, t.base.num = u.base.num → ¬ t.Reached ich.depositSum

instance (w : World) (chain : ChainName) (block : BlockType) :
    Decidable (Unhindered w chain block) :=
  inferInstanceAs (Decidable (∀ _ ∈ _, _))

/-! ## The scan -/

/-- The blocks that are sent are the first ones, all confirmed, up to eight or to one that is not. -/
theorem firstConfirmed_spec {sum : Asset} : ∀ {n : Nat} {us : List UnconfirmBlock}
    {sent : List BlockType}, firstConfirmed sum n us = .ok sent →
    ∃ taken rest, us = taken ++ rest ∧ sent = taken.map UnconfirmBlock.base ∧
      (∀ u ∈ taken, u.Reached sum) ∧ (taken.length = n ∨ ∀ v ∈ rest.head?, ¬ v.Reached sum)
  | 0, us, sent, h => ⟨[], us, rfl, (Except.ok.inj h).symm, by simp, .inl rfl⟩
  | _ + 1, [], sent, h => ⟨[], [], rfl, (Except.ok.inj h).symm, by simp, .inr (by simp)⟩
  | n + 1, u :: us, sent, h => by
    obtain ⟨reached, hreached, h⟩ := bind_eq_ok.mp h
    have hreached := reaches_eq_ok hreached
    cases reached with
    | true =>
      obtain ⟨tail, htail, h⟩ := bind_eq_ok.mp h
      obtain rfl := pure_eq_ok.mp h
      obtain ⟨taken, rest, rfl, rfl, htaken, hstop⟩ := firstConfirmed_spec htail
      refine ⟨u :: taken, rest, rfl, rfl, ?_, hstop.imp_left (congrArg (· + 1))⟩
      intro v hv
      rcases mem_cons.mp hv with rfl | hv
      · exact of_decide_eq_true hreached.symm
      · exact htaken v hv
    | false =>
      obtain rfl := pure_eq_ok.mp h
      refine ⟨[], u :: us, rfl, rfl, by simp, .inr fun v hv => ?_⟩
      obtain rfl : u = v := by simpa using hv
      exact of_decide_eq_false hreached.symm

/-! ## Stored blocks in order -/

/-- The blocks of every channel are stored by their number. -/
def World.Sorted (w : World) : Prop :=
  ∀ s ∈ w.relaystats.rows, s.unconfirms.Pairwise fun u v => u.base.num ≤ v.base.num

variable {actions : List RelayAction} {transfer : AccountName}

theorem Confirmed.sorted {deposit : Asset} {block : BlockType} {us us' : List UnconfirmBlock}
    (h : Confirmed env transfer deposit block actions us us')
    (hus : us.Pairwise fun u v => u.base.num ≤ v.base.num) :
    us'.Pairwise fun u v => u.base.num ≤ v.base.num := by
  cases h with
  | stored l1 u l2 hus1 hus' _ _ _ =>
    subst hus1 hus'
    exact (pairwise_confirmedBy (R := fun b m => b.num ≤ m.num)).mpr hus
  | added _ hus' =>
    subst hus'
    exact env.sort_sorted _

/-! ## The blocks that are sent -/

/-- **The inline actions** process the blocks that they are sent for and drop their rivals: a block of
a number that is already processed is skipped, and what is left is above the last one. -/
theorem onblocks_spec {chain : ChainName} {ich : Channel} {rest : List UnconfirmBlock} :
    ∀ {taken : List UnconfirmBlock} {w : World} {s : BlockRelayStat},
      w.channels.find? chain = some ich → w.relaystats.find? chain = some s →
      (taken ++ rest).Pairwise (fun u v => u.base.num ≤ v.base.num) →
      s.unconfirms = (taken ++ rest).filter (fun u => s.last.num < u.base.num) →
      (∀ u ∈ taken, u.Reached ich.depositSum) →
      Call.onblocks env chain (taken.map UnconfirmBlock.base) w = .ok w' →
      w'.channels = w.channels ∧ ∃ s', w'.relaystats.find? chain = some s' ∧
        s'.unconfirms = rest.filter (fun u => s'.last.num < u.base.num) ∧
        (s'.last.num = s.last.num ∨ ∃ t ∈ taken, s'.last.num = t.base.num)
  | [], w, s, _, hstat, _, hus, _, h => by
    obtain rfl : w = w' := Except.ok.inj h
    exact ⟨rfl, s, hstat, hus, .inl rfl⟩
  | u :: taken, w, s, hich, hstat, hsorted, hus, hreach, h => by
    obtain ⟨w1, hrun, htail⟩ := bind_eq_ok.mp h
    have hreach' : ∀ v ∈ taken, v.Reached ich.depositSum := fun v hv =>
      hreach v (mem_cons_of_mem _ hv)
    rw [cons_append, pairwise_cons] at hsorted
    obtain ⟨hle, hsorted⟩ := hsorted
    rw [cons_append, filter_cons] at hus
    rcases onblock_cases hrun with ⟨rfl, t, ht, hskip⟩ | ⟨⟨p⟩⟩
    · -- The number of the block is processed: it is stored and confirmed otherwise.
      obtain rfl : s = t := Option.some.inj (hstat.symm.trans ht)
      have hold : u.base.num ≤ s.last.num := by
        rcases hskip with hold | ⟨ich', hich', hbelow⟩
        · exact hold
        · refine not_lt.mp fun hlt => ?_
          obtain rfl : ich = ich' := Option.some.inj (hich.symm.trans hich')
          have hreached : 2 * ich.depositSum.amount ≤ 3 * u.confirm.amount :=
            hreach u mem_cons_self
          rw [if_pos (decide_eq_true hlt)] at hus
          have := hbelow u (hus ▸ mem_cons_self) (BlockType.same_refl _)
          omega
      rw [if_neg (by simpa using hold)] at hus
      obtain ⟨hchannels, s', hs', hleft, hlast⟩ :=
        onblocks_spec hich hstat hsorted hus hreach' htail
      exact ⟨hchannels, s', hs', hleft, hlast.imp_right fun ⟨t, ht, hnum⟩ =>
        ⟨t, mem_cons_of_mem _ ht, hnum⟩⟩
    · cases p with
      | @mk ich' relaystat uc _ hstat' hnewer _ _ _ hafter =>
        obtain rfl : s = relaystat := Option.some.inj (hstat.symm.trans hstat')
        have hstat1 : w1.relaystats.find? chain = some { s with
            last := u.base
            unconfirms := s.unconfirms.filter fun ub => ub.base.num ≠ u.base.num } := by
          rw [hafter]
          show (w.relaystats.put _).find? chain = _
          rw [find?_put hstat (by exact rfl), if_pos rfl]
        have hleft1 : s.unconfirms.filter (fun ub => ub.base.num ≠ u.base.num) =
            (taken ++ rest).filter fun v => u.base.num < v.base.num := by
          rw [hus, if_pos (decide_eq_true hnewer), filter_cons_of_neg (by simp), filter_filter]
          refine filter_congr fun v hv => ?_
          have hmin := hle v hv
          rw [← Bool.decide_and]
          exact decide_eq_decide.mpr (by omega)
        have hchannels : w1.channels = w.channels := by rw [hafter]
        obtain ⟨hchannels', s', hs', hleft, hlast⟩ := onblocks_spec
          (by rw [hchannels]; exact hich) hstat1 hsorted hleft1 hreach' htail
        refine ⟨hchannels'.trans hchannels, s', hs', hleft, .inr ?_⟩
        rcases hlast with hlast | ⟨t, ht, hnum⟩
        · exact ⟨u, mem_cons_self, hlast⟩
        · exact ⟨t, mem_cons_of_mem _ ht, hnum⟩

/-! ## Commits -/

/-- Where at most eight blocks are confirmed and the first eight are, no other one is. -/
theorem not_reached_of_countP {sum : Asset} {taken rest : List UnconfirmBlock} {u : UnconfirmBlock}
    (hfew : (taken ++ rest).countP (fun u => decide (u.Reached sum)) ≤ 8) (height : taken.length = 8)
    (htaken : ∀ u ∈ taken, u.Reached sum) (hu : u ∈ rest) : ¬ u.Reached sum := by
  intro hreached
  have hall : taken.countP (fun u => decide (u.Reached sum)) = 8 := by
    rw [← height, countP_eq_length]
    exact fun v hv => decide_eq_true (htaken v hv)
  have hone : 0 < rest.countP fun u => decide (u.Reached sum) :=
    countP_pos_iff.mpr ⟨u, hu, decide_eq_true hreached⟩
  rw [countP_append, hall] at hfew
  omega

/-- **A commit** whose scan is not hindered leaves no confirmed block in front. -/
theorem commit_noneHeldBack {auth : List AccountName} {chain : ChainName}
    {block : BlockType} {w1 : World} {sent : List BlockType}
    (hsorted : w.Sorted) (hcommit : commit env auth chain transfer block actions w = .ok (w1, sent))
    (hscan : Unhindered w1 chain block) (hsent : Call.onblocks env chain sent w1 = .ok w') :
    NoneHeldBack w' chain := by
  rcases commit_cases hcommit with ⟨rfl, rfl, s, hs, hle⟩ | ⟨⟨m⟩⟩
  · obtain rfl : w1 = w' := Except.ok.inj hsent
    intro ich hich
    exact absurd (hscan ich hich s hs).1 (by omega)
  · cases m with
    | @mk it ich s us _ hich hstat _ _ hconfirms hsends _ hafter =>
      obtain ⟨hs, hkey⟩ := find?_eq_some_iff.mp hstat
      have hstat1 : w1.relaystats.find? chain = some { s with unconfirms := us } := by
        have hput : { s with unconfirms := us } ∈ (w.relaystats.put { s with unconfirms := us }).rows :=
          mem_put_self hs rfl
        rw [hafter]
        exact find?_eq_some_iff.mpr ⟨hput, hkey⟩
      have hchannels1 : w1.channels = w.channels := by rw [hafter]
      have hich1 : w1.channels.find? chain = some ich := by rw [hchannels1, hich]
      obtain ⟨-, habove, hfew, hrivals⟩ := hscan ich hich1 _ hstat1
      obtain ⟨taken, rest, rfl, rfl, htaken, hstop⟩ := firstConfirmed_spec hsends
      have hincreasing := hconfirms.sorted (hsorted s hs)
      obtain ⟨hchannels, s', hs', hleft, hlast⟩ := onblocks_spec hich1 hstat1 hincreasing
        (filter_eq_self.mpr fun u hu => decide_eq_true (habove u hu)).symm htaken hsent
      intro ich' hich' t ht u hu hmin hreached
      obtain rfl : ich = ich' := Option.some.inj (hich1.symm.trans (hchannels ▸ hich'))
      obtain rfl : s' = t := Option.some.inj (hs'.symm.trans ht)
      rw [hleft] at hu hmin
      obtain ⟨hu, -⟩ := mem_filter.mp hu
      rcases hstop with height | hstop
      · exact not_reached_of_countP hfew height htaken hu hreached
      · cases rest with
        | nil => simp at hu
        | cons v rest =>
          -- The scan stopped at `v`, which no confirmed block has the number of.
          have hv : ¬ v.Reached ich.depositSum := hstop v rfl
          have hne : u ∈ rest := (mem_cons.mp hu).resolve_left fun heq => hv (heq ▸ hreached)
          have hnone := (pairwise_cons.mp (pairwise_append.mp hrivals).2.1).1 u hne hreached hv
          have hle := (pairwise_cons.mp (pairwise_append.mp hincreasing).2.1).1 u hne
          have hlast' : s'.last.num < v.base.num := by
            rcases hlast with hlast | ⟨t, ht, hnum⟩
            · rw [hlast]
              exact habove v (by simp)
            · have hbelow := (pairwise_append.mp hincreasing).2.2 t ht v mem_cons_self
              have hother : t.base.num ≠ v.base.num := fun heq =>
                hnone t (mem_append_left _ ht) heq (htaken t ht)
              omega
          have hge := hmin v (mem_filter.mpr ⟨mem_cons_self, decide_eq_true hlast'⟩)
          exact hnone u (mem_append_right _ hu) (by omega) hreached

theorem World.Sorted.step {c : Call} (h : w.Sorted) (hstep : Step env c w w') : w'.Sorted := by
  cases hstep with
  | same | mapped => exact h
  | channel _ _ =>
    intro s hs
    rcases mem_insert.mp hs with rfl | ⟨hs, -⟩
    · exact List.Pairwise.nil
    · exact h s hs
  | deposited _ _ hdeposit =>
    obtain ⟨d⟩ := hdeposit
    rw [d.after_eq]
    exact h
  | committed _ hcommit =>
    obtain ⟨m⟩ := hcommit
    cases m with
    | @mk it ich relaystat us _ _ hstat _ _ hconfirms _ _ hafter =>
      subst hafter
      intro s hs
      rcases mem_put hs with rfl | ⟨hs, -⟩
      · exact hconfirms.sorted (h relaystat (find?_eq_some_iff.mp hstat).1)
      · exact h s hs
  | processed _ hprocess =>
    obtain ⟨p⟩ := hprocess
    cases p with
    | @mk ich relaystat uc _ hstat _ _ _ _ hafter =>
      subst hafter
      intro s hs
      rcases mem_put hs with rfl | ⟨hs, -⟩
      · exact (h relaystat (find?_eq_some_iff.mp hstat).1).sublist filter_sublist
      · exact h s hs

/-- A relayer with one token of a hundred commits a block of a number before the others commit
theirs. -/
def rivalRun : List Call := opened [(2, 1), (3, 99)] ++ [callOf (.commit side 2 (blockOf 1 5) [])]

/-- Two relayers confirm the blocks from nine down to two, and one the first. -/
def nineRun : List Call := opened [(2, 60), (3, 40)] ++
  ((range 9).reverse.map fun n => callOf (.commit side 3 (blockOf (n + 1) n) [])) ++
  ((range 8).reverse.map fun n => callOf (.commit side 2 (blockOf (n + 2) (n + 1)) []))

end Forceio.Relay
