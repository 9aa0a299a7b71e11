import Forceio.Exchange.Calls

/-!
# Active exchanges and their stake (`regex`, `freeze4`, `unfreeze4`)

A registered exchange is active while its stake under `regex` and pair `0` covers `REG_STAKE`. The
flag is set where a stake is made or given back, from what that call sees, and follows the stake
only if

* `regex` stakes are made and given back under pair `0`: the flag is set for any pair;
* no stake that fell below `REG_STAKE` is topped up to it: only a new row unfreezes.

Results:
* `activeWhileStaked_run`: in runs without such calls the flag follows the stake.
* `topUp_stays_frozen`: a stake topped up to `REG_STAKE` leaves its exchange frozen.
-/

namespace Forceio.Exchange

open Forceio.Lib Forceio.Eosiolib KeyedTable
open Forceio.Chain (AccountName)
open World

variable {env : Env} {w w' : World}
variable {excAcc action : AccountName} {pairId : Nat} {f : FreezeInfo} {quantity : Asset}
variable {left : Option Asset}
variable {isNew : Bool}

/-! ## Stakes -/

/-- The stake of an exchange. -/
def World.regStake (env : Env) (w : World) (excAcc : AccountName) : Int :=
  (w.getFrozenAsset env excAcc regexName 0).amount

/-- At most one stake for each key of an exchange. -/
def World.OneStake (w : World) : Prop :=
  ∀ f ∈ w.freezed.rows, ∀ g ∈ w.freezed.rows, f.excAcc = g.excAcc → f.action = g.action →
    f.pairId = g.pairId → f = g

theorem freezeOf_eq_none_iff : w.freezeOf excAcc action pairId = none ↔
      ∀ f ∈ w.freezed.rows, ¬ (f.excAcc = excAcc ∧ f.action = action ∧ f.pairId = pairId) := by
  simp [freezeOf, List.find?_eq_none]

theorem freezeOf_eq_some_iff (hone : w.OneStake) : w.freezeOf excAcc action pairId = some f ↔
      f ∈ w.freezed.rows ∧ f.excAcc = excAcc ∧ f.action = action ∧ f.pairId = pairId := by
  refine ⟨of_freezeOf, ?_⟩
  rintro ⟨hf, rfl, rfl, rfl⟩
  cases hfind : w.freezeOf f.excAcc f.action f.pairId with
  | none => exact absurd ⟨rfl, rfl, rfl⟩ (freezeOf_eq_none_iff.mp hfind f hf)
  | some g =>
    obtain ⟨hg, hexc, haction, hpair⟩ := of_freezeOf hfind
    rw [hone g hg f hf hexc haction hpair]

theorem regStake_of_mem (hone : w.OneStake) (hf : f ∈ w.freezed.rows)
    (haction : f.action = regexName) (hpair : f.pairId = 0) :
    w.regStake env f.excAcc = f.staked.amount := by
  have hfind : w.freezeOf f.excAcc regexName 0 = some f :=
    (freezeOf_eq_some_iff hone).mpr ⟨hf, rfl, haction, hpair⟩
  simp only [regStake, getFrozenAsset, hfind]

theorem regStake_of_none (h : w.freezeOf excAcc regexName 0 = none) :
    w.regStake env excAcc = 0 := by
  simp only [regStake, getFrozenAsset, h]

/-- The stake of an exchange is a function of its rows for `regex` and pair `0`. -/
theorem regStake_congr (hone : w.OneStake) (hone' : w'.OneStake)
    (h : ∀ f, f.excAcc = excAcc → f.action = regexName → f.pairId = 0 →
      (f ∈ w'.freezed.rows ↔ f ∈ w.freezed.rows)) :
    w'.regStake env excAcc = w.regStake env excAcc := by
  have hfind : w'.freezeOf excAcc regexName 0 = w.freezeOf excAcc regexName 0 := by
    refine Option.ext fun f => ?_
    rw [freezeOf_eq_some_iff hone, freezeOf_eq_some_iff hone']
    constructor
    · rintro ⟨hf, hkey⟩
      exact ⟨(h f hkey.1 hkey.2.1 hkey.2.2).mp hf, hkey⟩
    · rintro ⟨hf, hkey⟩
      exact ⟨(h f hkey.1 hkey.2.1 hkey.2.2).mpr hf, hkey⟩
  simp only [regStake, getFrozenAsset, hfind]

/-! ## The property -/

/-- A registered exchange is active exactly while its stake covers `REG_STAKE`. -/
def ActiveWhileStaked (env : Env) (w : World) : Prop :=
  ∀ e ∈ w.exchanges.rows, (e.frozen = false ↔ (stakeRequired env).amount ≤ w.regStake env e.excAcc)

/-- `regex` stakes use pair `0`, and none is topped up from below `REG_STAKE` to it. -/
def StakesOnce (env : Env) (w : World) (c : Call) : Prop :=
  match c.action with
  | .deposit sender _ quantity memo => ∀ pairId, Memo.parse memo = .ok (.freeze regexName pairId) →
      pairId = 0 ∧ (w.exchanges.find? sender ≠ none →
        ∀ f, w.freezeOf sender regexName 0 = some f → f.staked.amount < (stakeRequired env).amount →
          f.staked.amount + quantity.amount < (stakeRequired env).amount)
  | .unfreeze4 _ action pairId _ => action = regexName → pairId = 0
  | _ => True

/-! ## Steps -/

/-- What the invariant is about. -/
structure StakeInvariant (env : Env) (w : World) : Prop where
  oneStake : w.OneStake
  active : ActiveWhileStaked env w

theorem StakeInvariant.of_eq (h : StakeInvariant env w) (hexchanges : w'.exchanges = w.exchanges)
    (hfreezed : w'.freezed = w.freezed) : StakeInvariant env w' := by
  refine ⟨?_, fun e he => ?_⟩
  · unfold World.OneStake
    rw [hfreezed]
    exact h.oneStake
  · rw [hexchanges] at he
    have hstake : w'.regStake env e.excAcc = w.regStake env e.excAcc := by
      unfold regStake getFrozenAsset freezeOf
      rw [hfreezed]
    rw [hstake]
    exact h.active e he

theorem SameBook.stakeInvariant (hsame : SameBook w w') (h : StakeInvariant env w) :
    StakeInvariant env w' := h.of_eq hsame.exchanges hsame.freezed

theorem Writes.stakeInvariant {L : Asset → Prop} (hwrites : Writes env L w w')
    (h : StakeInvariant env w) : StakeInvariant env w' :=
  h.of_eq hwrites.sameBook.exchanges hwrites.sameBook.freezed

theorem World.OneStake.withStake {f : FreezeInfo} {x : Int} (hone : w.OneStake)
    (hf : f ∈ w.freezed.rows) :
    ({ w with freezed := w.freezed.put (f.withStake x) } : World).OneStake := by
  intro g hg g' hg' hexc haction hpair
  rcases mem_put hg with rfl | ⟨hg, hgkey⟩
  · rcases mem_put hg' with rfl | ⟨hg', hgkey'⟩
    · rfl
    · exact absurd (congrArg Keyed.key (hone g' hg' f hf hexc.symm haction.symm hpair.symm)) hgkey'
  · rcases mem_put hg' with rfl | ⟨hg', -⟩
    · exact absurd (congrArg Keyed.key (hone g hg f hf hexc haction hpair)) hgkey
    · exact hone g hg g' hg' hexc haction hpair

variable {g : FreezeInfo}

theorem key_ne_of_other {f : FreezeInfo} (hf : f ∈ w.freezed.rows)
    (hg : ¬ (g.excAcc = f.excAcc ∧ g.action = f.action ∧ g.pairId = f.pairId))
    (hmem : g ∈ w.freezed.rows) : Keyed.key g ≠ Keyed.key f := by
  intro heq
  rw [eq_of_key hmem hf heq] at hg
  exact hg ⟨rfl, rfl, rfl⟩

theorem mem_withStake {f : FreezeInfo} {x : Int} (hf : f ∈ w.freezed.rows)
    (hg : ¬ (g.excAcc = f.excAcc ∧ g.action = f.action ∧ g.pairId = f.pairId)) :
    g ∈ (w.freezed.put (f.withStake x)).rows ↔ g ∈ w.freezed.rows := by
  refine ⟨fun hmem => ?_, fun hmem => mem_put_of_ne hmem fun heq => key_ne_of_other hf hg hmem heq⟩
  rcases mem_put hmem with rfl | ⟨hmem, -⟩
  · exact absurd ⟨rfl, rfl, rfl⟩ hg
  · exact hmem

theorem AddsStake.oneStake (h : AddsStake excAcc action pairId quantity w isNew w')
    (hone : w.OneStake) : w'.OneStake := by
  cases h with
  | @new id hnone hid =>
    have hother := freezeOf_eq_none_iff.mp hnone
    intro f hf g hg hexc haction hpair
    rcases mem_insert.mp hf with rfl | ⟨hf, -⟩
    · rcases mem_insert.mp hg with rfl | ⟨hg, -⟩
      · rfl
      · exact absurd ⟨hexc.symm, haction.symm, hpair.symm⟩ (hother g hg)
    · rcases mem_insert.mp hg with rfl | ⟨hg, -⟩
      · exact absurd ⟨hexc, haction, hpair⟩ (hother f hf)
      · exact hone f hf g hg hexc haction hpair
  | more hrow hsym => exact hone.withStake (of_freezeOf hrow).1

theorem AddsStake.mem_other (h : AddsStake excAcc action pairId quantity w isNew w')
    (hg : ¬ (g.excAcc = excAcc ∧ g.action = action ∧ g.pairId = pairId)) :
    g ∈ w'.freezed.rows ↔ g ∈ w.freezed.rows := by
  cases h with
  | @new id hnone hid =>
    rw [mem_insert]
    constructor
    · rintro (rfl | ⟨hmem, -⟩)
      · exact absurd ⟨rfl, rfl, rfl⟩ hg
      · exact hmem
    · exact fun hmem => .inr ⟨hmem, find?_eq_none_iff.mp hid g hmem⟩
  | @more f hrow hsym =>
    obtain ⟨hf, rfl, rfl, rfl⟩ := of_freezeOf hrow
    exact mem_withStake hf hg

theorem AddsStake.regStake (h : AddsStake excAcc regexName 0 quantity w isNew w')
    (hone : w.OneStake) : w'.regStake env excAcc = w.regStake env excAcc + quantity.amount := by
  have hone' := h.oneStake hone
  cases h with
  | @new id hnone hid =>
    rw [regStake_of_none hnone, zero_add]
    exact regStake_of_mem hone' (f := ⟨id, excAcc, regexName, 0, quantity⟩)
      (mem_insert.mpr (.inl rfl)) rfl rfl
  | @more f hrow hsym =>
    obtain ⟨hf, rfl, haction, hpair⟩ := of_freezeOf hrow
    rw [regStake_of_mem hone hf haction hpair]
    exact regStake_of_mem hone' (f := f.withStake (f.staked.amount + quantity.amount))
      (mem_put_self hf rfl) haction hpair

theorem TakesStake.oneStake (h : TakesStake f quantity w left w')
    (hf : f ∈ w.freezed.rows) (hone : w.OneStake) : w'.OneStake := by
  cases h with
  | all heq =>
    intro g hg g' hg' hexc haction hpair
    exact hone g (mem_erase.mp hg).1 g' (mem_erase.mp hg').1 hexc haction hpair
  | some hne => exact hone.withStake hf

theorem TakesStake.mem_other (h : TakesStake f quantity w left w') (hf : f ∈ w.freezed.rows)
    (hg : ¬ (g.excAcc = f.excAcc ∧ g.action = f.action ∧ g.pairId = f.pairId)) :
    g ∈ w'.freezed.rows ↔ g ∈ w.freezed.rows := by
  cases h with
  | all heq => exact ⟨fun hmem => (mem_erase.mp hmem).1,
      fun hmem => mem_erase.mpr ⟨hmem, key_ne_of_other hf hg hmem⟩⟩
  | some hne => exact mem_withStake hf hg

/-- The stake that is left; without its row it is zero. -/
theorem TakesStake.regStake (h : TakesStake f quantity w left w')
    (hf : f ∈ w.freezed.rows) (haction : f.action = regexName) (hpair : f.pairId = 0)
    (hone : w.OneStake) : w'.regStake env f.excAcc = f.staked.amount - quantity.amount := by
  have hone' := h.oneStake hf hone
  cases h with
  | all heq =>
    rw [heq, sub_self]
    refine regStake_of_none (freezeOf_eq_none_iff.mpr ?_)
    rintro g hg ⟨hexc, hact, hp⟩
    obtain ⟨hg, hne⟩ := mem_erase.mp hg
    rw [hone g hg f hf hexc (hact.trans haction.symm) (hp.trans hpair.symm)] at hne
    exact hne rfl
  | some hne =>
    exact regStake_of_mem hone' (f := f.withStake (f.staked.amount - quantity.amount))
      (mem_put_self hf rfl) haction hpair

/-- The flags after a change of stake: they follow the stake if the call sees what the change does to
the stake of `regex`. -/
theorem Flags.stakeInvariant {w2 : World} {change frozen : Bool} (h : StakeInvariant env w)
    (hexchanges : w2.exchanges = w.exchanges) (hone : w2.OneStake)
    (hother : ∀ e, ¬ (e = excAcc ∧ action = regexName) → w2.regStake env e = w.regStake env e)
    (hset : action = regexName → change = true →
      (frozen = false ↔ (stakeRequired env).amount ≤ w2.regStake env excAcc))
    (hkeep : action = regexName → w.exchanges.find? excAcc ≠ none → change = false →
      ((stakeRequired env).amount ≤ w.regStake env excAcc ↔
        (stakeRequired env).amount ≤ w2.regStake env excAcc))
    (hflags : Flags change frozen excAcc action pairId w2 w') : StakeInvariant env w' := by
  cases hflags with
  | pair haction hrow n =>
    refine ⟨hone, fun e he => ?_⟩
    have he : e ∈ w.exchanges.rows := hexchanges ▸ he
    rw [h.active e he, ← hother e.excAcc fun hkey => haction hkey.2]
    rfl
  | same hnone =>
    refine ⟨hone, fun e he => ?_⟩
    have he : e ∈ w.exchanges.rows := hexchanges ▸ he
    rw [h.active e he]
    by_cases hkey : e.excAcc = excAcc ∧ action = regexName
    · have hreg : w.exchanges.find? excAcc = some e :=
        find?_eq_some_iff.mpr ⟨he, hkey.1⟩
      have hchange : change = false := by
        by_contra hne
        have hfound := hnone (by simpa using hne) hkey.2
        rw [hexchanges, hreg] at hfound
        simp at hfound
      rw [hkey.1]
      exact hkeep hkey.2 (by simp [hreg]) hchange
    · rw [hother e.excAcc hkey]
  | @exchange e0 hchange haction he0 =>
    have hexc0 : e0.excAcc = excAcc := (find?_eq_some_iff.mp he0).2
    refine ⟨hone, fun e he => ?_⟩
    rcases mem_put he with rfl | ⟨hmem, hne⟩
    · show frozen = false ↔ _ ≤ w2.regStake env e0.excAcc
      rw [hexc0]
      exact hset haction hchange
    · have hmem : e ∈ w.exchanges.rows := hexchanges ▸ hmem
      have hexc : e.excAcc ≠ excAcc := fun heq => hne (heq.trans hexc0.symm)
      rw [h.active e hmem, ← hother e.excAcc fun hkey => hexc hkey.1]
      rfl

theorem SameBook.regStake (h : SameBook w w') (e : AccountName) :
    w'.regStake env e = w.regStake env e := by
  unfold World.regStake World.getFrozenAsset World.freezeOf
  rw [h.freezed]

theorem SameBook.oneStake (h : SameBook w w') (hone : w.OneStake) : w'.OneStake := by
  unfold World.OneStake
  rw [h.freezed]
  exact hone

variable {auth : List AccountName}

theorem StakeInvariant.freeze4 {u : Unit} (h : StakeInvariant env w)
    (hpos : 0 < quantity.amount) (hpairId : action = regexName → pairId = 0)
    (htop : action = regexName → w.exchanges.find? excAcc ≠ none →
      ∀ f, w.freezeOf excAcc regexName 0 = some f → f.staked.amount < (stakeRequired env).amount →
        f.staked.amount + quantity.amount < (stakeRequired env).amount)
    (hrun : Exchange.freeze4 env auth excAcc action pairId quantity w = .ok u w') :
    StakeInvariant env w' := by
  obtain ⟨isNew, enough, value, w1, w2, hadds, henough, hvalue, hcredit, hflags⟩ :=
    freeze4_cases hrun
  have hone1 := hadds.oneStake h.oneStake
  have hexchanges1 : w1.exchanges = w.exchanges := by cases hadds <;> rfl
  have hsame : SameBook w1 w2 := credit_sameBook hcredit
  refine hflags.stakeInvariant h (hsame.exchanges.trans hexchanges1) (hsame.oneStake hone1)
    (fun e he => ?_) (fun haction henough' => ?_) fun haction hreg henough' => ?_
  · rw [hsame.regStake]
    refine regStake_congr h.oneStake hone1 fun f hexc hact hpair => ?_
    refine hadds.mem_other fun hkey => he ⟨hexc.symm.trans hkey.1, ?_⟩
    exact hkey.2.1.symm.trans hact
  · obtain ⟨hisNew, -, hle⟩ := henough.mp henough'
    obtain rfl := hpairId haction
    subst haction
    rw [hsame.regStake, hadds.regStake h.oneStake]
    cases hadds with
    | new hfree hid =>
      rw [regStake_of_none hfree, zero_add]
      exact ⟨fun _ => hle, fun _ => rfl⟩
    | more hrow hsym => simp at hisNew
  · obtain rfl := hpairId haction
    subst haction
    rw [hsame.regStake, hadds.regStake h.oneStake]
    cases hadds with
    | new hfree hid =>
      have hlow : quantity.amount < (stakeRequired env).amount := by
        by_contra hle
        have := henough.mpr ⟨rfl, .inl rfl, not_lt.mp hle⟩
        rw [henough'] at this
        simp at this
      rw [regStake_of_none hfree]
      omega
    | @more f hrow hsym =>
      have hstake : w.regStake env excAcc = f.staked.amount := by
        simp only [regStake, getFrozenAsset, hrow]
      have hbelow := htop rfl hreg f hrow
      rw [hstake]
      refine ⟨fun hle => by omega, fun hle => ?_⟩
      by_contra hlt
      exact absurd (hbelow (not_le.mp hlt)) (not_lt.mpr hle)

theorem StakeInvariant.unfreeze4 {u : Unit} (h : StakeInvariant env w)
    (hpairId : action = regexName → pairId = 0)
    (hrun : Exchange.unfreeze4 env auth excAcc action pairId quantity w = .ok u w') :
    StakeInvariant env w' := by
  obtain ⟨value, f, left, low, w1, w2, w3, hactive, hvalue, hrow, -, -, htakes, hlow, hdebit, hsend,
    hflags⟩ := unfreeze4_cases hrun
  obtain ⟨hf, rfl, rfl, hpair⟩ := of_freezeOf hrow
  have hone1 := htakes.oneStake hf h.oneStake
  have hexchanges1 : w1.exchanges = w.exchanges := by cases htakes <;> rfl
  have hsame : SameBook w1 w3 := (debit_sameBook hdebit).trans (inlineTransfer_sameBook hsend)
  have hbound : (0 : Int) < (stakeRequired env).amount := by
    show (0 : Int) < 10000000
    norm_num
  refine hflags.stakeInvariant h (hsame.exchanges.trans hexchanges1) (hsame.oneStake hone1)
    (fun e he => ?_) (fun haction hlow' => ?_) fun haction hreg hlow' => ?_
  · rw [hsame.regStake]
    refine regStake_congr h.oneStake hone1 fun g hexc hact hpair => ?_
    refine htakes.mem_other hf fun hkey => he ⟨hexc.symm.trans hkey.1, ?_⟩
    exact hkey.2.1.symm.trans hact
  · have hzero : f.pairId = 0 := hpair.trans (hpairId haction)
    rw [hsame.regStake, htakes.regStake hf haction hzero h.oneStake]
    have hless : f.staked.amount - value.amount < (stakeRequired env).amount := by
      rcases hlow.mp hlow' with hnone | ⟨-, hless⟩
      · cases htakes with
        | all heq => rw [heq, sub_self]; exact hbound
        | some hne => simp at hnone
      · exact hless
    exact ⟨fun hfalse => absurd hfalse (by simp), fun hle => absurd hle (not_le.mpr hless)⟩
  · have hzero : f.pairId = 0 := hpair.trans (hpairId haction)
    rw [hsame.regStake, htakes.regStake hf haction hzero h.oneStake]
    have hmore : ¬ f.staked.amount - value.amount < (stakeRequired env).amount := by
      intro hless
      have := hlow.mpr (.inr ⟨.inl haction, hless⟩)
      rw [hlow'] at this
      simp at this
    -- The exchange is active, so its stake was enough before as well.
    refine iff_of_true ?_ (not_lt.mp hmore)
    unfold isExcFrozen at hactive
    split at hactive
    · simp at hactive
    · next e he =>
      obtain ⟨hmem, hexc⟩ := find?_eq_some_iff.mp he
      rw [← hexc]
      exact (h.active e hmem).mp hactive

theorem Ran.stakeInvariant {c : Call} (h : StakeInvariant env w) (hc : StakesOnce env w c)
    (hran : Ran env c w w') : StakeInvariant env w' := by
  cases hran with
  | @registered excAcc haction henough hnew =>
    exact ⟨h.oneStake, forall_mem_insert ⟨fun _ => henough, fun _ => rfl⟩ h.active⟩
  | created | opened | configured | pointed | marked => exact h.of_eq rfl rfl
  | closed _ _ _ _ _ hrefunds =>
    exact ((hrefunds.writes (L := fun _ => True)).stakeInvariant h).of_eq rfl rfl
  | cancelled _ _ hrefunds => exact (hrefunds.writes (L := fun _ => True)).stakeInvariant h
  | claimed hbase hquote hpoints =>
    obtain ⟨held, fees, trace, rfl, -⟩ := hbase.frame hquote hpoints
    exact h.of_eq rfl rfl
  | done _ hrun =>
    obtain ⟨deals, rfl⟩ := doneAction_frame hrun
    exact h.of_eq rfl rfl
  | withdrawn _ _ _ hsend hsub =>
    exact ((subBalance_sameBook hsub).stakeInvariant
      ((inlineTransfer_sameBook hsend).stakeInvariant h)).of_eq rfl rfl
  | deposited _ _ hvalue hcredit =>
    exact (credit_sameBook hcredit).stakeInvariant
      (h.of_eq rfl rfl)
  | @staked sender action pairId q value memo w' haction hmemo hcheck hcore hvalue hrun =>
    have hq : value = q := toAsset_transferred hcheck rfl hvalue
    unfold StakesOnce at hc
    rw [haction] at hc
    subst hq
    have hstart : StakeInvariant env (w.changeHeld mainChain value.symbol.name value.amount) :=
      h.of_eq rfl rfl
    refine hstart.freeze4 (checkTransfer_ok hcheck).1 (fun hregex => ?_) (fun hregex => ?_) hrun
    · rw [hregex] at hmemo
      exact (hc pairId hmemo).1
    · rw [hregex] at hmemo
      exact (hc pairId hmemo).2
  | @unstaked excAcc action pairId q w' haction hrun =>
    unfold StakesOnce at hc
    rw [haction] at hc
    exact h.unfreeze4 hc hrun
  | matched hcomes hmatch hdone =>
    obtain ⟨m⟩ := hmatch
    obtain ⟨deals, rfl⟩ := runLater_frame hdone
    obtain ⟨held, rfl⟩ := hcomes.held
    exact (m.sameBook.stakeInvariant (h.of_eq rfl rfl)).of_eq rfl rfl

/-! ## Runs -/

/-- **Active while staked**: in every run whose `regex` stakes use pair `0` and are not topped up from
below `REG_STAKE` to it, a registered exchange is active exactly while its stake covers
`REG_STAKE`. -/
theorem activeWhileStaked_run (env : Env) (cs : List Call) (hrun : Along env (StakesOnce env) cs {}) :
    ActiveWhileStaked env (after env cs {}) := by
  have hstart : StakeInvariant env {} := ⟨fun f hf => absurd hf (by simp [empty]),
    fun e he => absurd he (by simp [empty])⟩
  exact (Ran.induction (fun h hc hran => hran.stakeInvariant h hc) cs {} rfl hstart hrun).active

/-- An exchange that stakes, registers and takes a unit of its stake back. -/
def stakeRun : List Call :=
  [callOf 1 (.deposit dex mainChain ⟨10000000, sys⟩ "freeze;regex;0".toList), callOf 2 (.regex dex),
    callOf 3 (.unfreeze4 dex regexName 0 ⟨1, sys⟩)]

theorem activeWhileStaked_stakeRun :
    Along (envOf [(mainChain, sys)]) (StakesOnce (envOf [(mainChain, sys)])) stakeRun {} ∧
      ActiveWhileStaked (envOf [(mainChain, sys)]) (after (envOf [(mainChain, sys)]) stakeRun {}) := by
  have hrun : Along (envOf [(mainChain, sys)]) (StakesOnce (envOf [(mainChain, sys)])) stakeRun {} := by
    refine ⟨fun _ _ pairId hmemo => ⟨?_, fun _ f hf => ?_⟩, fun _ _ => trivial, fun _ _ _ => rfl,
      trivial⟩
    · have hparse : Memo.parse "freeze;regex;0".toList = .ok (.freeze regexName 0) := by
        decide +kernel
      cases hparse.symm.trans hmemo
      rfl
    · simp [freezeOf, empty] at hf
  exact ⟨hrun, activeWhileStaked_run _ _ hrun⟩

/-- The same exchange, which stakes the unit again. -/
def topUpRun : List Call :=
  stakeRun ++ [callOf 4 (.deposit dex mainChain ⟨1, sys⟩ "freeze;regex;0".toList)]

/-- **A stake topped up**: it covers `REG_STAKE` again and its exchange stays frozen. -/
theorem topUp_stays_frozen :
    ¬ ActiveWhileStaked (envOf [(mainChain, sys)]) (after (envOf [(mainChain, sys)]) topUpRun {}) := by
  have hrows : (after (envOf [(mainChain, sys)]) topUpRun {}).exchanges.rows = [⟨dex, true⟩] := by
    decide +kernel
  have hstake : (after (envOf [(mainChain, sys)]) topUpRun {}).regStake (envOf [(mainChain, sys)]) dex =
      (stakeRequired (envOf [(mainChain, sys)])).amount := by
    decide +kernel
  intro h
  have hiff := h ⟨dex, true⟩ (by rw [hrows]; exact List.mem_singleton_self _)
  exact absurd (hiff.mpr (le_of_eq hstake.symm)) (by simp)

end Forceio.Exchange
