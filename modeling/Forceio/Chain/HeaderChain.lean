import Forceio.Chain.Confirm

/-!
# Chains of header states

`HeaderPath env a l` says that `l`, newest state first, is a chain of header states that `next`
builds from the state `a`; a `HeaderChain` starts at the genesis state. Chains carry their whole
history, since what a counter of `confirm_count` means is a statement about it.

* Slots grow along a chain and are 32-bit, and the genesis block has number 1 in a slot of at least
  1. So a block number is at most its slot, and `uint32_t` block numbers never wrap.

Results:
* `Shape`: the bounds every reachable header state keeps; `Shape.next` is the step and
  `HeaderPath.shape` the run.
* `Shape.proposed_mono`: the proposed irreversible number never decreases.
-/

namespace Forceio.Chain

open Forceio.Lib BlockHeaderState FlatMap List

variable {Key Sig : Type}
variable {ss : List (BlockHeaderState Key Sig)}
variable (producers : List AccountName)

/-- The names of a schedule. -/
def ProducerSchedule.names (sched : ProducerSchedule Key) : List AccountName :=
  sched.producers.map ProducerKey.producerName

/-! ## Bounds on one state -/

/-- The bounds a header state keeps: the counters cover blocks after the proposed one, no number
runs ahead of the next, and the block number is at most its slot. -/
structure Shape (s : BlockHeaderState Key Sig) : Prop where
  slot : s.blockNum ≤ s.header.timestamp.toNat
  tracked : s.confirmCount.length ≤ maximumTrackedDposConfirmations
  counted : s.confirmCount.length < s.blockNum
  proposed : s.dposProposedIrreversibleBlocknum + s.confirmCount.length ≤ s.blockNum
  irreversible : s.dposIrreversibleBlocknum ≤ s.dposProposedIrreversibleBlocknum
  implied : ∀ q v, s.producerToLastImpliedIrb.find q = some v →
    v ≤ s.dposProposedIrreversibleBlocknum

variable {s : BlockHeaderState Key Sig}

theorem Shape.blockNum_lt_size (hs : Shape s) : s.blockNum < 2 ^ 32 :=
  lt_of_le_of_lt hs.slot s.header.timestamp.toNat_lt

/-- The counters handed to `set_confirmed`, from the newest: one for the new block, then the old
ones as far as they are tracked. -/
theorem reverse_grownConfirmCount (hs : s.confirmCount.length ≤ maximumTrackedDposConfirmations) :
    s.grownConfirmCount.reverse = s.requiredConfs % 2 ^ 8 ::
        s.confirmCount.reverse.take (maximumTrackedDposConfirmations - 1) := by
  unfold grownConfirmCount
  split
  · rename_i hlt
    rw [reverse_append, take_of_length_le (by rw [length_reverse]; omega)]
    rfl
  · rename_i hge
    rw [reverse_append, reverse_drop, le_antisymm hs (not_lt.mp hge)]
    rfl

theorem length_grownConfirmCount (hs : s.confirmCount.length ≤ maximumTrackedDposConfirmations) :
    s.grownConfirmCount.length ≤ s.confirmCount.length + 1 ∧
      s.grownConfirmCount.length ≤ maximumTrackedDposConfirmations := by
  have h := congrArg length (reverse_grownConfirmCount hs)
  rw [length_reverse, length_cons, length_take, length_reverse] at h
  have : maximumTrackedDposConfirmations = 1024 := rfl
  omega

/-- The irreversible number of a map is bounded by any bound on its values. -/
theorem calcDposLastIrreversible_le {m : FlatMap AccountName Nat} {b : Nat}
    (h : ∀ q v, m.find q = some v → v ≤ b) : calcDposLastIrreversible m ≤ b := by
  unfold calcDposLastIrreversible
  simp only
  split
  · exact Nat.zero_le b
  · rename_i hne
    obtain ⟨q, hq⟩ := mem_values_iff.mp
      (orderStat_mem (l := m.values) (i := (m.values.length - 1) / 3) (by omega))
    exact h q _ hq

/-- The entries of the new implied map, before a promotion filters it. -/
theorem Shape.implied_set (hs : Shape s) (p q : AccountName) (v : Nat)
    (h : (s.producerToLastImpliedIrb.set p s.dposProposedIrreversibleBlocknum).find q = some v) :
    v ≤ s.dposProposedIrreversibleBlocknum := by
  rw [find_set] at h
  split at h
  · exact le_of_eq (Option.some.inj h).symm
  · exact hs.implied q v h

/-- What a block does with the pending schedule: promote it, keep it, or set a first one. -/
theorem BlockHeaderState.AdvanceSpec.pending_cases {env : ChainEnv Key Sig}
    {r : BlockHeaderState Key Sig} {h : SignedBlockHeader Key Sig} (hr : AdvanceSpec env s h r) :
    (s.promotesAt r.dposIrreversibleBlocknum = true ∧ h.newProducers = none ∧
        r.pendingSchedule.producers = []) ∨
      (s.promotesAt r.dposIrreversibleBlocknum = false ∧ h.newProducers = none ∧
        r.pendingSchedule = s.pendingSchedule ∧
        r.pendingScheduleLibNum = s.pendingScheduleLibNum) ∨
      (s.promotesAt r.dposIrreversibleBlocknum = false ∧ s.pendingSchedule.producers = [] ∧
        h.newProducers = some r.pendingSchedule ∧ r.pendingScheduleLibNum = r.blockNum) := by
  cases hnp : h.newProducers with
  | none =>
    obtain ⟨hlib, hpend⟩ := hr.pendingKept hnp
    cases hprom : s.promotesAt r.dposIrreversibleBlocknum with
    | true =>
      rw [hprom, if_pos rfl] at hpend
      exact Or.inl ⟨rfl, rfl, by rw [hpend]⟩
    | false =>
      rw [hprom, if_neg (by simp)] at hpend
      exact Or.inr (Or.inl ⟨rfl, rfl, hpend, hlib⟩)
  | some np =>
    obtain ⟨hempty, hpend, hlib, -⟩ := hr.pendingNew np hnp
    have hprom : s.promotesAt r.dposIrreversibleBlocknum = false := by
      rw [Bool.eq_false_iff, ne_eq, promotesAt_iff]
      exact fun h => h.1 hempty
    exact Or.inr (Or.inr ⟨hprom, hempty, by rw [hpend], hlib⟩)

/-- Block numbers do not wrap: the next slot is a later one. -/
theorem BlockHeaderState.AdvanceSpec.blockNum_eq {env : ChainEnv Key Sig}
    {r : BlockHeaderState Key Sig} {h : SignedBlockHeader Key Sig} (hr : AdvanceSpec env s h r)
    (hs : s.blockNum ≤ s.header.timestamp.toNat) :
    r.blockNum = s.blockNum + 1 ∧ r.blockNum ≤ r.header.timestamp.toNat := by
  have hlt := UInt32.lt_iff_toNat_lt.mp hr.later
  have hmax := h.timestamp.toNat_lt
  rw [hr.blockNum, hr.header, addU32_of_lt (by omega)]
  omega

section Paths

variable [Inhabited Sig]

theorem genesis_blockNum [Inhabited Key] (env : ChainEnv Key Sig) (g : GenesisState Key) :
    (g.headerState env : BlockHeaderState Key Sig).blockNum = 1 := by
  show (numFromId default + 1).toNat = 1
  decide

theorem Shape.genesis [Inhabited Key] (env : ChainEnv Key Sig) (g : GenesisState Key) :
    Shape (g.headerState env : BlockHeaderState Key Sig) where
  slot := by
    rw [genesis_blockNum]
    exact UInt32.lt_iff_toNat_lt.mp g.initialTimestamp_pos
  tracked := Nat.zero_le _
  counted := by
    rw [genesis_blockNum]
    exact Nat.one_pos
  proposed := Nat.zero_le _
  irreversible := le_refl 0
  implied := fun q v h => absurd h (by simp [GenesisState.headerState])

variable [DecidableEq Key]

/-! ## Steps and paths -/

/-- `r` is what `next` returns on `s` for some header. -/
def Step (env : ChainEnv Key Sig) (s r : BlockHeaderState Key Sig) : Prop :=
  ∃ h skip, s.next env h skip = .ok r

/-- A chain of header states from `a`, newest first. -/
inductive HeaderPath (env : ChainEnv Key Sig) (a : BlockHeaderState Key Sig) :
    List (BlockHeaderState Key Sig) → Prop where
  | start : HeaderPath env a [a]
  | next {s r : BlockHeaderState Key Sig} {ss : List (BlockHeaderState Key Sig)} :
      HeaderPath env a (s :: ss) → Step env s r → HeaderPath env a (r :: s :: ss)

/-- A chain from the genesis state. -/
def HeaderChain [Inhabited Key] (env : ChainEnv Key Sig) (g : GenesisState Key)
    (l : List (BlockHeaderState Key Sig)) : Prop :=
  HeaderPath env (g.headerState env) l

variable {env : ChainEnv Key Sig} {a s r : BlockHeaderState Key Sig}
  {l : List (BlockHeaderState Key Sig)}

theorem Step.spec (hs : Step env s r) : NextSpec env s r.header r := by
  obtain ⟨h, skip, hn⟩ := hs
  have hspec := next_spec hn
  have hh := hspec.header
  subst hh
  exact hspec

theorem Shape.blockNum_next (hs : Shape s) (hr : Step env s r) : r.blockNum = s.blockNum + 1 :=
  (hr.spec.blockNum_eq hs.slot).1

theorem Step.confirmedSpec (hr : Step env s r) :
    ∃ x, (r.confirmCount, r.dposProposedIrreversibleBlocknum) = x ∧
      ConfirmedSpec r.blockNum s.dposProposedIrreversibleBlocknum s.grownConfirmCount
        r.header.confirmed.toNat x :=
  ⟨_, hr.spec.counters, confirmed_spec _ _ _ _⟩

/-- What the counters and the proposed number can become, in terms of the old ones. -/
theorem Shape.counters_next (hs : Shape s) (hr : Step env s r) :
    s.dposProposedIrreversibleBlocknum ≤ r.dposProposedIrreversibleBlocknum ∧
      r.dposProposedIrreversibleBlocknum + r.confirmCount.length ≤ r.blockNum ∧
      r.confirmCount.length ≤ s.grownConfirmCount.length := by
  obtain ⟨hg1, hg2⟩ := length_grownConfirmCount hs.tracked
  have hnum := hs.blockNum_next hr
  have hslot := UInt32.lt_iff_toNat_lt.mp hr.spec.later
  have hmax := r.header.timestamp.toNat_lt
  have hsl := hs.slot
  have hp := hs.proposed
  obtain ⟨x, hcc, hspec⟩ := hr.confirmedSpec
  cases hspec with
  | through cc' hlen _ _ =>
    obtain ⟨h1, h2⟩ := Prod.mk.inj hcc
    rw [h1, h2]
    omega
  | cut cc' z c _ hz _ hlen _ _ =>
    obtain ⟨h1, h2⟩ := Prod.mk.inj hcc
    have hzl := (List.getElem?_eq_some_iff.mp hz).1
    rw [length_reverse] at hzl
    rw [h1, h2, subU32_of_le (by omega) (by omega)]
    omega

/-- **The proposed irreversible number never decreases.** -/
theorem Shape.proposed_mono (hs : Shape s) (hr : Step env s r) :
    s.dposProposedIrreversibleBlocknum ≤ r.dposProposedIrreversibleBlocknum :=
  (hs.counters_next hr).1

/-- The irreversible number of a block is at most the proposed one of its predecessor. -/
theorem Shape.irreversible_next (hs : Shape s) (hr : Step env s r) :
    r.dposIrreversibleBlocknum ≤ s.dposProposedIrreversibleBlocknum := by
  rw [hr.spec.irreversible]
  exact calcDposLastIrreversible_le (hs.implied_set _)

/-- **One step keeps the bounds.** -/
theorem Shape.next (hs : Shape s) (hr : Step env s r) : Shape r := by
  obtain ⟨hmono, hprop, hlen⟩ := hs.counters_next hr
  obtain ⟨hg1, hg2⟩ := length_grownConfirmCount hs.tracked
  have hnum := hs.blockNum_next hr
  have hlt := UInt32.lt_iff_toNat_lt.mp hr.spec.later
  have hslot := hs.slot
  have hcount := hs.counted
  have hirr := hs.irreversible_next hr
  refine ⟨by omega, by omega, by omega, hprop, by omega, fun q v hq => ?_⟩
  rw [hr.spec.impliedIrb] at hq
  split at hq
  · rw [find_rebuildMap] at hq
    split at hq
    · obtain rfl := Option.some.inj hq
      cases hf : (s.producerToLastImpliedIrb.set r.header.producer
          s.dposProposedIrreversibleBlocknum).find q with
      | none => exact le_trans hirr hmono
      | some w => exact le_trans (hs.implied_set _ q w hf) hmono
    · simp at hq
  · exact le_trans (hs.implied_set _ q v hq) hmono

/-- **Every state of a path keeps the bounds.** -/
theorem HeaderPath.shape (h : HeaderPath env a l) (ha : Shape a) : ∀ s ∈ l, Shape s := by
  induction h with
  | start =>
    intro s hs
    rw [mem_singleton.mp hs]
    exact ha
  | next _ hr ih =>
    intro s hs
    rcases mem_cons.mp hs with rfl | hs
    · exact (ih _ mem_cons_self).next hr
    · exact ih s hs

theorem HeaderPath.head_shape (h : HeaderPath env a (s :: l)) (ha : Shape a) : Shape s :=
  h.shape ha s mem_cons_self

theorem HeaderPath.pairwise {R : BlockHeaderState Key Sig → BlockHeaderState Key Sig → Prop}
    (h : HeaderPath env a l) (ha : Shape a) (htrans : ∀ {x y z}, R x y → R y z → R x z)
    (hstep : ∀ {s r}, Shape s → Step env s r → R r s) : l.Pairwise R := by
  induction h with
  | start => exact pairwise_singleton _ _
  | next hp hr ih =>
    have hrs := hstep (hp.head_shape ha) hr
    refine pairwise_cons.mpr ⟨fun t ht => ?_, ih⟩
    rcases mem_cons.mp ht with rfl | ht
    · exact hrs
    · exact htrans hrs ((pairwise_cons.mp ih).1 t ht)

/-- The newest state has the largest number, and the others are below it. -/
theorem HeaderPath.blockNum_lt
    (h : HeaderPath env a (s :: ss)) (ha : Shape a) : ∀ t ∈ ss, t.blockNum < s.blockNum :=
  (pairwise_cons.mp <| h.pairwise ha (R := fun x y => y.blockNum < x.blockNum)
    (fun h1 h2 => h2.trans h1) fun hs hr => by have := hs.blockNum_next hr; omega).1

theorem HeaderPath.blockNum_le
    (h : HeaderPath env a (s :: ss)) (ha : Shape a) : ∀ t ∈ s :: ss, t.blockNum ≤ s.blockNum := by
  intro t ht
  rcases mem_cons.mp ht with rfl | ht
  · exact le_rfl
  · exact le_of_lt (h.blockNum_lt ha t ht)

theorem HeaderPath.start_mem (h : HeaderPath env a l) : a ∈ l := by
  induction h with
  | start => exact mem_singleton.mpr rfl
  | next _ _ ih => exact mem_cons_of_mem _ ih

theorem HeaderPath.pairwise_slot (h : HeaderPath env a l) :
    l.Pairwise fun b c => c.header.timestamp < b.header.timestamp := by
  induction h with
  | start => exact pairwise_singleton _ _
  | next _ hr ih =>
    refine pairwise_cons.mpr ⟨fun c hc => ?_, ih⟩
    rcases mem_cons.mp hc with rfl | hc
    · exact hr.spec.later
    · exact UInt32.lt_trans ((pairwise_cons.mp ih).1 c hc) hr.spec.later

variable {b : BlockHeaderState Key Sig}

theorem HeaderPath.of_mem (h : HeaderPath env a l) (hb : b ∈ l) :
    ∃ l1 l2, l = l1 ++ b :: l2 ∧ HeaderPath env a (b :: l2) := by
  induction h with
  | start =>
    obtain rfl := mem_singleton.mp hb
    exact ⟨[], [], rfl, HeaderPath.start⟩
  | @next s r ss hp hr ih =>
    rcases mem_cons.mp hb with rfl | hb
    · exact ⟨[], s :: ss, rfl, hp.next hr⟩
    · obtain ⟨l1, l2, hl, hp'⟩ := ih hb
      exact ⟨r :: l1, l2, by rw [hl]; rfl, hp'⟩

theorem HeaderPath.blockNum_getElem (h : HeaderPath env a (s :: l)) (ha : Shape a) {i : Nat}
    (hb : (s :: l)[i]? = some b) : b.blockNum + i = s.blockNum := by
  generalize hl : s :: l = l' at h hb
  induction h generalizing s l i with
  | start =>
    obtain ⟨rfl, rfl⟩ := cons.inj hl
    cases i with
    | zero => exact congrArg BlockHeaderState.blockNum (Option.some.inj hb).symm
    | succ i => simp at hb
  | @next s' r ss hp hr ih =>
    obtain ⟨rfl, rfl⟩ := cons.inj hl
    cases i with
    | zero => exact congrArg BlockHeaderState.blockNum (Option.some.inj hb).symm
    | succ i =>
      have := ih rfl (by rwa [getElem?_cons_succ] at hb)
      have hnum := (hp.head_shape ha).blockNum_next hr
      omega

theorem HeaderPath.length_eq (h : HeaderPath env a (s :: l)) (ha : Shape a) :
    a.blockNum + l.length = s.blockNum := by
  generalize hl : s :: l = l' at h
  induction h generalizing s l with
  | start =>
    obtain ⟨rfl, rfl⟩ := cons.inj hl
    rfl
  | @next s' r ss hp hr ih =>
    obtain ⟨rfl, rfl⟩ := cons.inj hl
    have := ih rfl
    have hnum := (hp.head_shape ha).blockNum_next hr
    rw [length_cons]
    omega

theorem HeaderPath.id_eq (h : HeaderPath env a l) (hb : b ∈ l) (hne : b ≠ a)
    : b.id = b.header.toBlockHeader.id env := by
  obtain ⟨-, l2, -, hp⟩ := h.of_mem hb
  cases hp with
  | start => exact absurd rfl hne
  | next _ hr => exact hr.spec.id

/-! ## Schedules along a chain -/

theorem Step.producer_mem (hr : Step env s r) : r.header.producer ∈ s.activeSchedule.names := by
  obtain ⟨pk, hpk, hname, -⟩ := hr.spec.producer
  exact mem_map.mpr ⟨pk, mem_of_getElem? hpk, hname⟩

theorem Step.lastProduced_find (hr : Step env s r) (q : AccountName) :
    r.producerToLastProduced.find q = if q = r.header.producer then some r.blockNum
      else if s.promotesAt r.dposIrreversibleBlocknum then
        if q ∈ s.pendingSchedule.names then
          some ((s.producerToLastProduced.find q).getD r.dposIrreversibleBlocknum)
        else none
      else s.producerToLastProduced.find q := by
  rw [hr.spec.lastProduced]
  split
  · rw [find_set, find_rebuildMap, find_set]
    by_cases hq : q = r.header.producer
    · rw [if_pos hq, if_pos hq]
    · rw [if_neg hq, if_neg hq, if_neg hq]
      rfl
  · rw [find_set]

theorem Step.impliedIrb_find (hr : Step env s r) (q : AccountName) :
    r.producerToLastImpliedIrb.find q = if s.promotesAt r.dposIrreversibleBlocknum then
        if q ∈ s.pendingSchedule.names then
          some (((s.producerToLastImpliedIrb.set r.header.producer
            s.dposProposedIrreversibleBlocknum).find q).getD r.dposIrreversibleBlocknum)
        else none
      else if q = r.header.producer then some s.dposProposedIrreversibleBlocknum
      else s.producerToLastImpliedIrb.find q := by
  rw [hr.spec.impliedIrb]
  split
  · rw [find_rebuildMap]
    rfl
  · rw [find_set]

/-- Every active producer has an entry in both maps. -/
structure Seeded (s : BlockHeaderState Key Sig) : Prop where
  lastProduced : ∀ q ∈ s.activeSchedule.names, ∃ v, s.producerToLastProduced.find q = some v
  impliedIrb : ∀ q ∈ s.activeSchedule.names, ∃ v, s.producerToLastImpliedIrb.find q = some v

/-- A promotion seeds the maps, and a step without one keeps the entries. At genesis the maps are
empty, and the first step promotes the initial schedule. -/
theorem Seeded.next
    (hs : Seeded s ∨ s.pendingSchedule = s.activeSchedule ∧ s.pendingScheduleLibNum = 0)
    (hr : Step env s r) : Seeded r := by
  cases hprom : s.promotesAt r.dposIrreversibleBlocknum with
  | true =>
    have hact : r.activeSchedule = s.pendingSchedule := by rw [hr.spec.active, if_pos hprom]
    refine ⟨fun q hq => ?_, fun q hq => ?_⟩
    · rw [hr.lastProduced_find, hprom]
      by_cases hqp : q = r.header.producer
      · exact ⟨_, if_pos hqp⟩
      · rw [if_neg hqp, if_pos rfl, if_pos (hact ▸ hq)]
        exact ⟨_, rfl⟩
    · exact ⟨_, by rw [hr.impliedIrb_find, hprom, if_pos rfl, if_pos (hact ▸ hq)]⟩
  | false =>
    have hact : r.activeSchedule = s.activeSchedule := by
      rw [hr.spec.active, if_neg (by rw [hprom]; simp)]
    rcases hs with hs | ⟨hpend, hlib⟩
    · refine ⟨fun q hq => ?_, fun q hq => ?_⟩
      · rw [hr.lastProduced_find, hprom, if_neg (by simp : ¬ (false = true))]
        by_cases hqp : q = r.header.producer
        · exact ⟨_, if_pos hqp⟩
        · rw [if_neg hqp]
          exact hs.lastProduced q (hact ▸ hq)
      · rw [hr.impliedIrb_find, hprom, if_neg (by simp : ¬ (false = true))]
        by_cases hqp : q = r.header.producer
        · exact ⟨_, if_pos hqp⟩
        · rw [if_neg hqp]
          exact hs.impliedIrb q (hact ▸ hq)
    · exfalso
      have hmem := hr.producer_mem
      rw [Bool.eq_false_iff, ne_eq, promotesAt_iff, not_and_or, hpend, hlib] at hprom
      rcases hprom with hprom | hprom
      · rw [ProducerSchedule.names, not_not.mp hprom] at hmem
        exact absurd hmem not_mem_nil
      · exact hprom (Nat.zero_le _)

theorem HeaderChain.seeded [Inhabited Key] {g : GenesisState Key}
    (h : HeaderChain env g (r :: s :: l)) : Seeded r := by
  generalize hl : r :: s :: l = l' at h
  induction h generalizing r s l with
  | start => exact absurd (cons.inj hl).2 (by simp)
  | @next s' r' ss hp hr ih =>
    obtain ⟨rfl, h2⟩ := cons.inj hl
    cases ss with
    | nil =>
      cases hp with
      | start => exact Seeded.next (Or.inr ⟨rfl, rfl⟩) hr
    | cons s'' ss => exact Seeded.next (Or.inl (ih rfl)) hr

/-! ## Replaying headers -/

/-- Feed headers to `next`, oldest first, on top of the states `l`. -/
def replay (env : ChainEnv Key Sig) : List (SignedBlockHeader Key Sig) →
    List (BlockHeaderState Key Sig) → Except FcException (List (BlockHeaderState Key Sig))
  | [], l => pure l
  | _ :: _, [] => throw ⟨.undefinedBehavior, "no state to build on"⟩
  | h :: hs, s :: ss => do
    let r ← s.next env h false
    replay env hs (r :: s :: ss)

theorem replay_path :
    ∀ {hs : List (SignedBlockHeader Key Sig)} {l l' : List (BlockHeaderState Key Sig)},
      HeaderPath env a l → replay env hs l = .ok l' → HeaderPath env a l'
  | [], _, _, hl, h => by
    obtain rfl := Except.ok.inj h
    exact hl
  | _ :: _, [], _, hl, _ => by cases hl
  | x :: hs, s :: ss, l', hl, h => by
    obtain ⟨r, hr, h⟩ := bind_eq_ok.mp h
    exact replay_path (hl.next ⟨x, false, hr⟩) h

end Paths

/-! ## A small environment

Enough of `fc` to run chains in: a digest keeps the slot of the header it is taken of, a signature
is the key it was made with. -/

/-- An environment in which `next` can be evaluated. -/
def toyEnv : ChainEnv Nat Nat where
  producerRepetitions := 1
  producerRepetitions_pos := Nat.one_pos
  hashHeader := fun h => ⟨0, h.timestamp.toUInt64, 0, 0⟩
  hashSchedule := fun s => ⟨0, s.version.toUInt64, 1, 0⟩
  hashPair := fun p => ⟨p.1.hash0, p.1.hash1, p.2.hash0, p.2.hash1⟩
  recover := fun sig _ => .ok sig

/-- A genesis in slot 1 whose producers sign with their own names. -/
def toyGenesis : GenesisState Nat where
  initialTimestamp := 1
  initialTimestamp_pos := by decide
  initialProducerList := producers.map fun p => ⟨p, p⟩
  chainId := default

/-- The id of block `n` in slot `slot`. -/
def toyId (n slot : UInt32) : Sha256 := ⟨(endianReverseU32 n).toUInt64, slot.toUInt64, 0, 0⟩

/-- The header of block `n + 1` by `producer` in slot `slot`, after block `n` in slot `prevSlot`. -/
def toyHeader (n prevSlot slot : UInt32) (producer : AccountName) (confirmed : UInt16)
    (scheduleVersion : Nat) (newProducers : Option (ProducerSchedule Nat)) :
    SignedBlockHeader Nat Nat where
  timestamp := slot
  producer := producer
  confirmed := confirmed
  previous := toyId n prevSlot
  scheduleVersion := scheduleVersion
  newProducers := newProducers
  producerSignature := producer

/-- The chain that `hs` builds on the toy genesis, when all of them are accepted. -/
def toyChain (hs : List (SignedBlockHeader Nat Nat)) : List (BlockHeaderState Nat Nat) :=
  ((replay toyEnv hs [(toyGenesis producers).headerState toyEnv]).toOption).getD []

theorem toyChain_headerChain {producers : List AccountName} {hs : List (SignedBlockHeader Nat Nat)}
    (h : toyChain producers hs ≠ []) :
    HeaderChain toyEnv (toyGenesis producers) (toyChain producers hs) := by
  unfold toyChain at h ⊢
  cases hr : replay toyEnv hs [(toyGenesis producers).headerState toyEnv] with
  | error e =>
    rw [hr] at h
    exact absurd rfl h
  | ok l => exact replay_path HeaderPath.start hr

end Forceio.Chain
