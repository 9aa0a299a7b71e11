import Forceio.Chain.StartBlock

/-!
# The schedule pipeline

A producer schedule is proposed in the database, becomes pending in the header of a block, and is
promoted to active in a later one. `Production` follows a branch of produced blocks with the
database after each of them; in every block `set_proposed_producers` may be called any number of
times with any lists.

* A block that is aborted leaves neither a header state nor a change in the database, so a branch is
  the sequence of its committed blocks.
* At genesis the initial schedule is active and pending at once. The first produced block promotes
  it: the version stays 0 and nothing is irreversible yet (`initial_schedule_promoted`).

Result:
* `schedule_pipeline`: how schedules move from stage to stage.
-/

namespace Forceio.Chain

open Forceio.Lib BlockHeaderState List

variable {Key Sig : Type}
variable {t : BlockHeaderState Key Sig}

/-- What is up to the producer of a block: the slot and the count of confirmed blocks, the mode the
node runs in, the calls of `set_proposed_producers`, the digests of actions and transactions, and the
signature. -/
structure BlockInput (Key Sig : Type) where
  slot : UInt32
  slot_ne : slot ≠ 0
  confirmBlockCount : UInt16
  readMode : DbReadMode
  status : BlockStatus
  proposals : List (List (ProducerKey Key))
  actionDigests : List Sha256
  trxDigests : List Sha256
  signer : Sha256 → Sig

/-- The calls of `set_proposed_producers` in one block. -/
def proposeAll [DecidableEq Key] (headBlockNum : Nat) (q : BlockHeaderState Key Sig)
    (gpo : GlobalPropertyObject Key) (proposals : List (List (ProducerKey Key))) :
    GlobalPropertyObject Key :=
  proposals.foldl (fun gpo producers => (setProposedProducers headBlockNum q gpo producers).2) gpo

/-- Start a block on `s`, run its calls, finalize and sign it. -/
def produceBlock [Inhabited Sig] [DecidableEq Key] (env : ChainEnv Key Sig)
    (s : BlockHeaderState Key Sig) (gpo : GlobalPropertyObject Key) (inp : BlockInput Key Sig) :
    Except FcException (ProducedState Key Sig) := do
  let (q, gpo) ← startBlock env inp.readMode inp.status s gpo inp.slot inp.confirmBlockCount
  let p ← (finalizeBlock env q inp.actionDigests inp.trxDigests).sign env inp.signer
  pure (p, proposeAll s.blockNum q gpo inp.proposals)

/-- A branch of produced blocks, newest first, each with the database after it. -/
inductive Production [Inhabited Key] [Inhabited Sig] [DecidableEq Key] (env : ChainEnv Key Sig)
    (g : GenesisState Key) : List (ProducedState Key Sig) → Prop where
  | genesis : Production env g [(g.headerState env, .cleared)]
  | produce {s p : BlockHeaderState Key Sig} {gpo gpo' : GlobalPropertyObject Key}
      {l : List (ProducedState Key Sig)} (inp : BlockInput Key Sig) :
      Production env g ((s, gpo) :: l) → produceBlock env s gpo inp = .ok (p, gpo') →
      Production env g ((p, gpo') :: (s, gpo) :: l)

/-! ## What the stages know of each other -/

/-- What the three stages know of each other in a state `s` with the database `gpo`, at the end of a
branch with the older entries `l`. A pending schedule has the version after the active one and was
set by the block recorded with it, unless it is the initial schedule at genesis; a proposed schedule
has the version after the last one and was proposed in the block recorded with it. -/
structure Pipeline (s : BlockHeaderState Key Sig) (gpo : GlobalPropertyObject Key)
    (l : List (ProducedState Key Sig)) : Prop where
  slot : s.blockNum ≤ s.header.timestamp.toNat
  activeBound : s.activeSchedule.version < s.blockNum
  pendingBound : s.pendingSchedule.producers ≠ [] → s.pendingSchedule.version < s.blockNum
  pending : s.pendingSchedule.producers ≠ [] →
    (l = [] ∧ s.pendingSchedule = s.activeSchedule ∧ s.pendingScheduleLibNum = 0) ∨
      (s.pendingSchedule.version = s.activeSchedule.version + 1 ∧
        ∃ e ∈ (s, gpo) :: l, e.1.header.newProducers = some s.pendingSchedule ∧
          e.1.blockNum = s.pendingScheduleLibNum)
  proposed : ∀ num, gpo.proposedScheduleBlockNum = some num →
    gpo.proposedSchedule.version = (lastSchedule s).version + 1 ∧
      ∃ e ∈ (s, gpo) :: l, e.1.blockNum = num ∧ e.2 = gpo

section Stages

variable {s : BlockHeaderState Key Sig} {gpo : GlobalPropertyObject Key}
  {l : List (ProducedState Key Sig)}

theorem lastSchedule_of_empty
    (h : t.pendingSchedule.producers = []) : lastSchedule t = t.activeSchedule :=
  if_pos (by rw [h]; rfl)

theorem lastSchedule_of_pending
    (h : t.pendingSchedule.producers ≠ []) : lastSchedule t = t.pendingSchedule :=
  if_neg fun h0 => h (length_eq_zero_iff.mp h0)

theorem Pipeline.lastSchedule_lt (h : Pipeline s gpo l) : (lastSchedule s).version < s.blockNum := by
  by_cases he : s.pendingSchedule.producers = []
  · rw [lastSchedule_of_empty he]
    exact h.activeBound
  · rw [lastSchedule_of_pending he]
    exact h.pendingBound he

/-- At genesis the first block promotes the initial schedule. -/
theorem Pipeline.genesis_promotes (h : Pipeline s gpo l) {irr : Nat}
    (hne : s.pendingSchedule.producers ≠ []) (hkept : s.promotesAt irr = false) :
    s.pendingSchedule.version = s.activeSchedule.version + 1 ∧
      ∃ e ∈ (s, gpo) :: l, e.1.header.newProducers = some s.pendingSchedule ∧
        e.1.blockNum = s.pendingScheduleLibNum := by
  rcases h.pending hne with ⟨-, -, hlib⟩ | hset
  · have hprom : s.promotesAt irr = true := promotesAt_iff.mpr ⟨hne, by rw [hlib]; exact Nat.zero_le _⟩
    rw [hkept] at hprom
    simp at hprom
  · exact hset

/-- The proposal after a block: an old one is kept only by a block without new producers. -/
theorem Pipeline.proposed_next {p : BlockHeaderState Key Sig} {gpo' : GlobalPropertyObject Key}
    {proposals : List (List (ProducerKey Key))}
    (hbound : (lastSchedule p).version < p.blockNum) (hslot : p.blockNum < 2 ^ 32)
    (hkept : p.header.newProducers = none → ∀ num, gpo.proposedScheduleBlockNum = some num →
      gpo.proposedSchedule.version = (lastSchedule p).version + 1 ∧
        ∃ e ∈ (s, gpo) :: l, e.1.blockNum = num ∧ e.2 = gpo)
    (hcases : (p.header.newProducers = none ∧ gpo' = gpo) ∨ gpo' = .cleared ∨
      ∃ producers ∈ proposals, gpo' =
        ⟨some p.blockNum, ⟨addU32 (lastSchedule p).version 1, producers⟩⟩) :
    ∀ num, gpo'.proposedScheduleBlockNum = some num →
      gpo'.proposedSchedule.version = (lastSchedule p).version + 1 ∧
        ∃ e ∈ (p, gpo') :: (s, gpo) :: l, e.1.blockNum = num ∧ e.2 = gpo' := by
  intro num hnum
  rcases hcases with ⟨hnone, rfl⟩ | hg | ⟨producers, -, hg⟩
  · obtain ⟨hv, e, he, hes⟩ := hkept hnone num hnum
    exact ⟨hv, e, mem_cons_of_mem _ he, hes⟩
  · rw [hg] at hnum
    simp [GlobalPropertyObject.cleared] at hnum
  · refine ⟨?_, (p, gpo'), mem_cons_self, ?_, rfl⟩
    · rw [hg]
      exact addU32_of_lt (by omega)
    · rw [hg] at hnum
      exact Option.some.inj hnum

/-- When the proposed schedule is taken, nothing is pending and its version is the next one. -/
theorem Pipeline.promoteProposed_ok [Inhabited Sig] (h : Pipeline s gpo l) (env : ChainEnv Key Sig)
    (slot : UInt32) (pk : ProducerKey Key) (n : UInt16) :
    ∃ x, promoteProposed env gpo (pendingState env s slot pk n).1 (pendingState env s slot pk n).2 =
      .ok x := by
  unfold promoteProposed
  split
  · exact ⟨_, rfl⟩
  · rename_i num hnum
    split
    · rename_i hc
      obtain ⟨-, hlen, hkept⟩ := hc
      rw [pendingState, maybePromotePending_template] at hlen hkept ⊢
      simp only at hkept
      simp only [advanced, template, hkept, Bool.false_eq_true, if_false] at hlen
      have hempty := length_eq_zero_iff.mp hlen
      have hv := (h.proposed num hnum).1
      rw [lastSchedule_of_empty hempty] at hv
      have hact := h.activeBound
      have hlt : s.blockNum < 2 ^ 32 := lt_of_le_of_lt h.slot s.header.timestamp.toNat_lt
      refine ⟨_, bind_eq_ok.mpr ⟨_, setNewProducers_eq_ok_iff.mpr ⟨?_, ?_, rfl⟩, rfl⟩⟩
      · simp only [advanced, template, hkept, Bool.false_eq_true, if_false]
        rw [hv, addU32_of_lt (by omega)]
      · simp only [advanced, template, hkept, Bool.false_eq_true, if_false]
        exact hempty
    · exact ⟨_, rfl⟩

/-- **The assertions of `set_new_producers` hold in `start_block`**: it fails only where
`generate_next` does. -/
theorem startBlock_error [Inhabited Sig] {env : ChainEnv Key Sig} (h : Pipeline s gpo l)
    {mode : DbReadMode} {status : BlockStatus} {slot : UInt32} {n : UInt16} {e : FcException}
    (he : startBlock env mode status s gpo slot n = .error e) :
    s.generateNext env slot = .error e := by
  cases hgen : s.generateNext env slot with
  | error e' =>
    rw [startBlock_of_error hgen] at he
    rw [Except.error.inj he]
  | ok t =>
    obtain ⟨slot', pk, rfl⟩ := generateNext_template hgen
    rw [startBlock_of_ok hgen] at he
    split at he
    · obtain ⟨x, hx⟩ := h.promoteProposed_ok env slot' pk n
      rw [hx] at he
      simp at he
    · simp [pure, Except.pure] at he

end Stages

/-! ## One block -/

/-- The calls in a block leave the proposal as it was, or set one of their lists, with the version
after the last schedule. -/
theorem proposeAll_cases [DecidableEq Key] (headBlockNum : Nat) (q : BlockHeaderState Key Sig) :
    ∀ (proposals : List (List (ProducerKey Key))) (gpo : GlobalPropertyObject Key),
      proposeAll headBlockNum q gpo proposals = gpo ∨
        ∃ producers ∈ proposals, proposeAll headBlockNum q gpo proposals =
          ⟨some (addU32 headBlockNum 1), ⟨addU32 (lastSchedule q).version 1, producers⟩⟩
  | [], _ => Or.inl rfl
  | producers :: proposals, gpo => by
    have hcall : (setProposedProducers headBlockNum q gpo producers).2 = gpo ∨
        (setProposedProducers headBlockNum q gpo producers).2 =
          ⟨some (addU32 headBlockNum 1), ⟨addU32 (lastSchedule q).version 1, producers⟩⟩ := by
      unfold setProposedProducers
      simp only
      split
      · exact Or.inl rfl
      · split
        · exact Or.inl rfl
        · exact Or.inr rfl
    have hstep : proposeAll headBlockNum q gpo (producers :: proposals) =
        proposeAll headBlockNum q (setProposedProducers headBlockNum q gpo producers).2 proposals :=
      rfl
    rw [hstep]
    rcases proposeAll_cases headBlockNum q proposals
      (setProposedProducers headBlockNum q gpo producers).2 with h | ⟨ps, hps, h⟩
    · rw [h]
      rcases hcall with hc | hc
      · exact Or.inl hc
      · exact Or.inr ⟨producers, mem_cons_self, hc⟩
    · exact Or.inr ⟨ps, mem_cons_of_mem _ hps, h⟩

section Blocks

variable [Inhabited Sig] [DecidableEq Key] {env : ChainEnv Key Sig}
  {s p : BlockHeaderState Key Sig} {gpo gpo' : GlobalPropertyObject Key} {inp : BlockInput Key Sig}

/-- The new producers of a produced header are the proposed schedule, once the block it was proposed
in is irreversible. -/
def TakesProposal (gpo : GlobalPropertyObject Key) (p : BlockHeaderState Key Sig) : Prop :=
  p.header.newProducers = some gpo.proposedSchedule ∧
    ∃ num, gpo.proposedScheduleBlockNum = some num ∧ num ≤ p.dposIrreversibleBlocknum

/-- **What producing a block does**: the header state advances, new producers in its header are the
proposed schedule, and the database afterwards holds what was proposed before, nothing, or a
proposal of this block. -/
theorem produceBlock_cases (h : produceBlock env s gpo inp = .ok (p, gpo')) :
    AdvanceSpec env s p.header p ∧ (p.header.newProducers = none ∨ TakesProposal gpo p) ∧
      ((p.header.newProducers = none ∧ gpo' = gpo) ∨ gpo' = .cleared ∨
        ∃ producers ∈ inp.proposals, gpo' =
          ⟨some p.blockNum, ⟨addU32 (lastSchedule p).version 1, producers⟩⟩) := by
  obtain ⟨⟨q, gpo1⟩, hstart, h⟩ := bind_eq_ok.mp h
  obtain ⟨x, hsign, h⟩ := bind_eq_ok.mp h
  obtain ⟨rfl, rfl⟩ := Prod.mk.inj (Except.ok.inj h)
  obtain ⟨sig, rfl⟩ := sign_result hsign
  obtain ⟨pk, hprod⟩ := startBlock_produced inp.slot_ne hstart inp.actionDigests inp.trxDigests sig
  have hspec := hprod.advanceSpec
  obtain ⟨-, pk', -, hq⟩ := startBlock_eq_ok inp.slot_ne hstart
  have hcalls := proposeAll_cases s.blockNum q inp.proposals gpo1
  -- finalizing and signing leave the schedules and the irreversible number alone
  have hnp : (withSignature (finalizeBlock env q inp.actionDigests inp.trxDigests)
    sig).header.newProducers = q.header.newProducers := rfl
  have hlast : lastSchedule (withSignature (finalizeBlock env q inp.actionDigests inp.trxDigests)
    sig) = lastSchedule q := rfl
  have hirr : (withSignature (finalizeBlock env q inp.actionDigests inp.trxDigests)
    sig).dposIrreversibleBlocknum = q.dposIrreversibleBlocknum := rfl
  generalize withSignature (finalizeBlock env q inp.actionDigests inp.trxDigests) sig = p
    at hspec hnp hlast hirr ⊢
  rw [← hspec.blockNum, ← hlast] at hcalls
  refine ⟨hspec, ?_⟩
  rcases hq with ⟨hq, rfl⟩ | ⟨num, hnum, hle, -, hset, rfl⟩
  · have hnone : p.header.newProducers = none := by rw [hnp, hq, pendingState_header]
    exact ⟨Or.inl hnone, hcalls.imp (fun hc => ⟨hnone, hc⟩) Or.inr⟩
  · obtain ⟨-, -, hq⟩ := setNewProducers_eq_ok_iff.mp hset
    refine ⟨Or.inr ⟨by rw [hnp, hq], num, hnum, ?_⟩, Or.inr hcalls⟩
    rw [hirr, hq]
    exact hle

variable {l : List (ProducedState Key Sig)}

/-- **One block keeps the pipeline.** -/
theorem Pipeline.produce (h : Pipeline s gpo l) (hb : produceBlock env s gpo inp = .ok (p, gpo')) :
    Pipeline p gpo' ((s, gpo) :: l) := by
  obtain ⟨hspec, hnew, hdb⟩ := produceBlock_cases hb
  obtain ⟨hnum, hslot⟩ := hspec.blockNum_eq h.slot
  have hlt : p.blockNum < 2 ^ 32 := lt_of_le_of_lt hslot p.header.timestamp.toNat_lt
  have hact := h.activeBound
  rcases hspec.pending_cases with ⟨hprom, -, hpend⟩ | ⟨hprom, hnone, hpend, hlib⟩ |
    ⟨hprom, hpend, hsome, hlib⟩
  · -- the pending schedule is promoted
    have hne := (promotesAt_iff.mp hprom).1
    have hactive : p.activeSchedule = s.pendingSchedule := by rw [hspec.active, if_pos hprom]
    have hb' := h.pendingBound hne
    have hbound : p.activeSchedule.version < p.blockNum := by rw [hactive]; omega
    refine ⟨hslot, hbound, fun h0 => absurd hpend h0, fun h0 => absurd hpend h0,
      Pipeline.proposed_next (by rw [lastSchedule_of_empty hpend]; exact hbound) hlt ?_ hdb⟩
    intro _ num hn
    rw [lastSchedule_of_empty hpend, hactive, ← lastSchedule_of_pending hne]
    exact h.proposed num hn
  · -- nothing moves
    have hactive : p.activeSchedule = s.activeSchedule := by
      rw [hspec.active, if_neg (by rw [hprom]; simp)]
    have hlast : lastSchedule p = lastSchedule s := by
      unfold lastSchedule
      rw [hpend, hactive]
    have hlastlt := h.lastSchedule_lt
    refine ⟨hslot, by rw [hactive]; omega, fun h0 => ?_, fun h0 => Or.inr ?_,
      Pipeline.proposed_next (by rw [hlast]; omega) hlt ?_ hdb⟩
    · rw [hpend] at h0 ⊢
      have := h.pendingBound h0
      omega
    · rw [hpend, hactive, hlib]
      obtain ⟨hv, e, he, hes⟩ := h.genesis_promotes (hpend ▸ h0) hprom
      exact ⟨hv, e, mem_cons_of_mem _ he, hes⟩
    · intro _ num hn
      rw [hlast]
      exact h.proposed num hn
  · -- the proposed schedule becomes pending
    have hactive : p.activeSchedule = s.activeSchedule := by
      rw [hspec.active, if_neg (by rw [hprom]; simp)]
    rcases hnew with hnone | ⟨htake, num, hn, -⟩
    · rw [hnone] at hsome
      simp at hsome
    · have hsched : p.pendingSchedule = gpo.proposedSchedule :=
        Option.some.inj (hsome.symm.trans htake)
      have hv := (h.proposed num hn).1
      rw [lastSchedule_of_empty hpend] at hv
      have hbound : p.pendingSchedule.version < p.blockNum := by rw [hsched, hv]; omega
      have hactb : p.activeSchedule.version < p.blockNum := by rw [hactive]; omega
      refine ⟨hslot, hactb, fun _ => hbound, fun _ => Or.inr ⟨by rw [hsched, hactive, hv],
        (p, gpo'), mem_cons_self, hsome, hlib.symm⟩,
        Pipeline.proposed_next ?_ hlt ?_ hdb⟩
      · unfold lastSchedule
        split
        · exact hactb
        · exact hbound
      · intro hnone
        rw [hnone] at hsome
        simp at hsome

/-! ## Along a branch -/

variable [Inhabited Key] {g : GenesisState Key}

/-- **The pipeline along a branch.** -/
theorem Production.pipeline (h : Production env g ((s, gpo) :: l)) : Pipeline s gpo l := by
  generalize hl : (s, gpo) :: l = l' at h
  induction h generalizing s gpo l with
  | genesis =>
    obtain ⟨he, rfl⟩ := cons.inj hl
    obtain ⟨rfl, rfl⟩ := Prod.mk.inj he
    have hshape := Shape.genesis env g
    refine ⟨hshape.slot, ?_, fun _ => ?_, fun _ => Or.inl ⟨rfl, rfl, rfl⟩, fun num hn => ?_⟩
    · rw [genesis_blockNum]
      exact Nat.one_pos
    · rw [genesis_blockNum]
      exact Nat.one_pos
    · simp [GlobalPropertyObject.cleared] at hn
  | produce inp _ hb ih =>
    obtain ⟨he, rfl⟩ := cons.inj hl
    obtain ⟨rfl, rfl⟩ := Prod.mk.inj he
    exact (ih rfl).produce hb

/-- **The schedule pipeline.** Let `s` with the database `gpo` end a branch of produced blocks with
the older entries `l`; `l` is empty at genesis. Then `start_block` on `s` fails only if
`generate_next` does, never in `set_new_producers`. And whenever a further block is produced:
* if it promotes the pending schedule, this becomes the active one, and its version is one more than
  that of the active one before, except that the first block promotes the initial schedule, which is
  active already;
* if it does not promote, the active schedule stays;
* new producers in its header were proposed in a block of the branch that is irreversible by now;
* a schedule it promotes was made pending by a block of the branch that is irreversible by now,
  except the initial one. -/
theorem schedule_pipeline (h : Production env g ((s, gpo) :: l)) :
    (∀ mode status slot n e, startBlock env mode status s gpo slot n = .error e →
      s.generateNext env slot = .error e) ∧
    ∀ inp p gpo', produceBlock env s gpo inp = .ok (p, gpo') →
      (s.promotesAt p.dposIrreversibleBlocknum = true → p.activeSchedule = s.pendingSchedule ∧
        (l = [] → p.activeSchedule = s.activeSchedule) ∧
        (l ≠ [] → p.activeSchedule.version = s.activeSchedule.version + 1 ∧
          ∃ e ∈ (s, gpo) :: l, e.1.header.newProducers = some p.activeSchedule ∧
            e.1.blockNum ≤ p.dposIrreversibleBlocknum)) ∧
      (s.promotesAt p.dposIrreversibleBlocknum = false → p.activeSchedule = s.activeSchedule) ∧
      (∀ np, p.header.newProducers = some np → ∃ e ∈ (s, gpo) :: l,
        e.2 = ⟨some e.1.blockNum, np⟩ ∧ e.1.blockNum ≤ p.dposIrreversibleBlocknum) := by
  have hpipe := h.pipeline
  refine ⟨fun mode status slot n e he => startBlock_error hpipe he, fun inp p gpo' hb => ?_⟩
  obtain ⟨hspec, hnew, -⟩ := produceBlock_cases hb
  refine ⟨fun hprom => ?_, fun hprom => ?_, fun np hnp => ?_⟩
  · have hactive : p.activeSchedule = s.pendingSchedule := by rw [hspec.active, if_pos hprom]
    obtain ⟨hne, hle⟩ := promotesAt_iff.mp hprom
    rw [hactive]
    refine ⟨rfl, fun hl => ?_, fun hl => ?_⟩
    · subst hl
      cases h with
      | genesis => rfl
    · rcases hpipe.pending hne with ⟨hl', -⟩ | ⟨hv, e, he, hes, hen⟩
      · exact absurd hl' hl
      · exact ⟨hv, e, he, hes, by rw [hen]; exact hle⟩
  · rw [hspec.active, if_neg (by rw [hprom]; simp)]
  · rcases hnew with hnone | ⟨htake, num, hn, hle⟩
    · rw [hnone] at hnp
      simp at hnp
    · obtain ⟨-, e, he, hen, heg⟩ := hpipe.proposed num hn
      refine ⟨e, he, ?_, by rw [hen]; exact hle⟩
      rw [heg, hen, ← hn, ← Option.some.inj (htake.symm.trans hnp)]

/-- Produce blocks one after another on top of the branch `l`. -/
def produceAll (env : ChainEnv Key Sig) : List (BlockInput Key Sig) →
    List (ProducedState Key Sig) →
    Except FcException (List (ProducedState Key Sig))
  | [], l => pure l
  | _ :: _, [] => throw ⟨.undefinedBehavior, "no head to build on"⟩
  | inp :: inps, (s, gpo) :: l => do
    let x ← produceBlock env s gpo inp
    produceAll env inps (x :: (s, gpo) :: l)

theorem produceAll_production : ∀ {inps : List (BlockInput Key Sig)}
      {l l' : List (ProducedState Key Sig)},
      Production env g l → produceAll env inps l = .ok l' → Production env g l'
  | [], _, _, hl, h => by
    obtain rfl := Except.ok.inj h
    exact hl
  | _ :: _, [], _, hl, _ => by cases hl
  | inp :: inps, (s, gpo) :: l, l', hl, h => by
    obtain ⟨⟨p, gpo'⟩, hp, h⟩ := bind_eq_ok.mp h
    exact produceAll_production (hl.produce inp hp) h

end Blocks

/-! ## A sole producer that hands over -/

/-- A block by producer 1 in slot `slot + 1`, with the given calls of `set_proposed_producers`. -/
def soleInput (slot : UInt32) (h : slot + 1 ≠ 0) (proposals : List (List (ProducerKey Nat))) :
    BlockInput Nat Nat where
  slot := slot + 1
  slot_ne := h
  confirmBlockCount := 0
  readMode := .speculative
  status := .incomplete
  proposals := proposals
  actionDigests := []
  trxDigests := []
  signer := fun _ => 1

/-- Blocks 2 and 3 of producer 1. The first proposes producers 1 and 2, the second makes them
pending. -/
def handOver : List (BlockHeaderState Nat Nat × GlobalPropertyObject Nat) :=
  ((produceAll toyEnv [soleInput 1 (by decide) [[⟨1, 1⟩, ⟨2, 2⟩]], soleInput 2 (by decide) []]
    [((toyGenesis [1]).headerState toyEnv, .cleared)]).toOption).getD []

theorem handOver_production : Production toyEnv (toyGenesis [1]) handOver := by
  have hlen : handOver.length = 3 := by decide
  unfold handOver at hlen ⊢
  cases hr : produceAll toyEnv
      [soleInput 1 (by decide) [[⟨1, 1⟩, ⟨2, 2⟩]], soleInput 2 (by decide) []]
      [((toyGenesis [1]).headerState toyEnv, .cleared)] with
  | error e =>
    rw [hr] at hlen
    simp [Except.toOption] at hlen
  | ok l => exact produceAll_production Production.genesis hr

/-- **The first promotion is of the initial schedule**: block 2 promotes it from version 0 to
version 0, when not even the genesis block is irreversible. -/
theorem initial_schedule_promoted :
    Production toyEnv (toyGenesis [1]) [((toyGenesis [1]).headerState toyEnv, .cleared)] ∧
      ((produceBlock toyEnv ((toyGenesis [1]).headerState toyEnv) .cleared
        (soleInput 1 (by decide) [])).toOption.map fun x =>
          (((toyGenesis [1]).headerState toyEnv : BlockHeaderState Nat Nat).promotesAt
            x.1.dposIrreversibleBlocknum, x.1.activeSchedule.version,
            x.1.dposIrreversibleBlocknum)) = some (true, 0, 0) :=
  ⟨Production.genesis, by decide⟩

/-- Block 4 promotes the schedule proposed in block 2 and pending since block 3. -/
theorem schedule_pipeline_handOver : ∃ s gpo l p gpo', handOver = (s, gpo) :: l ∧
      produceBlock toyEnv s gpo (soleInput 3 (by decide) []) = .ok (p, gpo') ∧
      s.activeSchedule.version = 0 ∧ p.activeSchedule.version = 1 ∧
      ∃ e ∈ (s, gpo) :: l, e.1.header.newProducers = some p.activeSchedule ∧
        e.1.blockNum ≤ p.dposIrreversibleBlocknum := by
  have hlen : handOver.length = 3 := by decide
  have hrun : (handOver.head?.bind fun x =>
      (produceBlock toyEnv x.1 x.2 (soleInput 3 (by decide) [])).toOption.map fun y =>
        (x.1.activeSchedule.version, x.1.promotesAt y.1.dposIrreversibleBlocknum)) =
        some (0, true) := by decide
  have hprod : Production toyEnv (toyGenesis [1]) handOver := handOver_production
  cases hl : handOver with
  | nil =>
    rw [hl] at hlen
    simp at hlen
  | cons x l =>
    obtain ⟨s, gpo⟩ := x
    rw [hl] at hlen hrun hprod
    rw [head?_cons, Option.bind_some] at hrun
    cases hb : produceBlock toyEnv s gpo (soleInput 3 (by decide) []) with
    | error e =>
      rw [hb] at hrun
      simp [Except.toOption] at hrun
    | ok y =>
      obtain ⟨p, gpo'⟩ := y
      rw [hb] at hrun
      simp only [Except.toOption, Option.map_some, Option.some.injEq, Prod.mk.injEq] at hrun
      have hne : l ≠ [] := by
        rintro rfl
        simp at hlen
      obtain ⟨hv, he⟩ := (((schedule_pipeline hprod).2 _ p gpo' hb).1 hrun.2).2.2 hne
      exact ⟨s, gpo, l, p, gpo', rfl, hb, hrun.1, by rw [hv, hrun.1], he⟩

end Forceio.Chain
