import Forceio.Chain.ForkDatabase
import Forceio.Chain.StartBlock

/-!
# Pushing blocks: `controller_impl`

Model of `create_block_state_future`, `push_block`, `maybe_switch_forks`, `pop_block` and
`on_irreversible` of `libraries/chain/controller.cpp`, and of the part of `block_log` they use.

* What `apply_block` does to the chain state is not modelled. It throws or it does not, and
  `ApplyOracle` says which, by the id of the head it is applied on and the id of the block, so that
  the answer is the same each time. It changes neither the head nor the fork database.
* `catch (const fc::exception&)` is `attempt`: it does not catch what has no defined behaviour.
* The controller's head is a shared pointer. `Controller.head` is the state it points to without its
  flags, which are only read through the fork database.
* A block is created and pushed in one call, as the callers do, with no block pending. Transactions,
  the reversible block store, the revisions of the chain state and the signals to plugins are left
  out.

Results:
* `popBlock_of_find`, `applyBlock_of_none`: what the two steps of a switch do when they succeed.
-/

namespace Forceio.Chain

open Forceio.Lib

/-- `block_log`: the number of its first block, and the last block it holds. -/
structure BlockLog (Key Sig : Type) where
  firstBlockNum : Nat
  head : Option (SignedBlockHeader Key Sig)

/-- `controller_impl` besides its fork database. -/
structure Controller (Key Sig : Type) where
  head : BlockData Key Sig
  blog : BlockLog Key Sig

/-- The exception `apply_block` throws for a block on a head, given their ids (head first). -/
structure ApplyOracle where
  throws : Sha256 → Sha256 → Option FcException
  defined : ∀ head block e, throws head block = some e → e.type ≠ .undefinedBehavior

/-- The fork database and the controller. -/
abbrev Node (Key Sig : Type) := ForkDatabase Key Sig × Controller Key Sig

/-- Code over both. -/
abbrev ControllerM (Key Sig α : Type) := ForkM Key Sig (Controller Key Sig) α

variable {Key Sig : Type}

namespace Controller

open ForkDatabase (assert undefined markInCurrentChain setValidity fetchBranchFrom)

def get : ControllerM Key Sig (Controller Key Sig) := fun s => .ok s.2 s

def setHead (b : BlockData Key Sig) : ControllerM Key Sig Unit :=
  fun s => .ok () (s.1, { s.2 with head := b })

/-- `blog.append`. -/
def append (b : SignedBlockHeader Key Sig) : ControllerM Key Sig Unit :=
  fun s => .ok () (s.1, { s.2 with blog := { s.2.blog with head := some b } })

/-- `try … catch (const fc::exception& e)`. -/
def attempt {α : Type} (m : ControllerM Key Sig α) : ControllerM Key Sig (Except FcException α) :=
  Exec.attempt (fun e => e.type = .undefinedBehavior) m

variable (o : ApplyOracle)

/-- `apply_block`. -/
def applyBlock (b : BlockState Key Sig) : ControllerM Key Sig Unit := do
  let c ← get
  match b.block with
  | none => undefined "null block"
  | some _ =>
    match o.throws c.head.id b.id with
    | some e => Exec.lift (.error e)
    | none => pure ()

/-- `pop_block`. -/
def popBlock (readMode : DbReadMode) : ControllerM Key Sig Unit := do
  let db ← ForkDatabase.get
  let c ← get
  match db.index.find c.head.header.previous with
  | none =>
    Exec.lift (.error ⟨.blockValidateException, "attempt to pop beyond last irreversible block"⟩)
  | some prev => do
    if readMode = .speculative then
      assert c.head.block.isSome .blockValidateException
        "attempting to pop a block that was sparsely loaded from a snapshot"
    setHead prev.toBlockData

/-! ## Switching forks -/

/-- The first case of `maybe_switch_forks`: the new head is built on the current one. -/
def extendHead (newHead : BlockState Key Sig) : ControllerM Key Sig Unit := do
  let except ← attempt do
    applyBlock o newHead
    markInCurrentChain newHead true
    setValidity newHead true
    setHead newHead.toBlockData
  match except with
  | .ok _ => pure ()
  | .error e => do
    setValidity newHead false
    Exec.lift (.error e)

/-- The loops that pop a branch, from its newest block. -/
def leaveBranch (readMode : DbReadMode) (branch : List (BlockState Key Sig)) :
    ControllerM Key Sig Unit :=
  branch.forM fun b => do
    markInCurrentChain b false
    popBlock readMode

/-- The assertion after a branch was left. -/
def assertInSync (second : List (BlockState Key Sig)) (what : String) :
    ControllerM Key Sig Unit := do
  let c ← get
  match second.getLast? with
  | some b => assert (c.head.id = b.header.previous) .forkDatabaseException what
  | none => undefined "back of an empty branch"

/-- The loop that applies the old branch again, from its oldest block. -/
def reapply (branch : List (BlockState Key Sig)) : ControllerM Key Sig Unit :=
  branch.forM fun b => do
    applyBlock o b
    setHead b.toBlockData
    markInCurrentChain b true

/-- What the switch does about a block that could not be applied: it is invalid, the blocks applied
before it are popped, and the old branch is applied again. -/
def switchBack (readMode : DbReadMode) (failed : BlockState Key Sig)
    (applied second : List (BlockState Key Sig)) : ControllerM Key Sig Unit := do
  setValidity failed false
  leaveBranch readMode applied
  assertInSync second "loss of sync between fork_db and chainbase during fork switch reversal"
  reapply o second.reverse

/-- The loop that applies the new branch, from its oldest block; `applied` has the blocks applied so
far, newest first. -/
def applyBranch (o : ApplyOracle) (readMode : DbReadMode) (second : List (BlockState Key Sig)) :
    List (BlockState Key Sig) → List (BlockState Key Sig) → ControllerM Key Sig Unit
  | [], _ => pure ()
  | b :: rest, applied => do
    let except ← attempt do
      applyBlock o b
      setHead b.toBlockData
      markInCurrentChain b true
      -- `(*ritr)->validated = true`
      setValidity b true
    match except with
    | .ok _ => applyBranch o readMode second rest (b :: applied)
    | .error e => do
      switchBack o readMode b applied second
      Exec.lift (.error e)

/-- The second case of `maybe_switch_forks`: the new head is on another branch. -/
def switchTo (readMode : DbReadMode) (newHead : BlockState Key Sig) : ControllerM Key Sig Unit := do
  let db ← ForkDatabase.get
  let c ← get
  let (first, second) ← Exec.lift (fetchBranchFrom db.index newHead.id c.head.id)
  leaveBranch readMode second
  assertInSync second "loss of sync between fork_db and chainbase during fork switch"
  applyBranch o readMode second first.reverse []

/-- `maybe_switch_forks`. -/
def maybeSwitchForks (readMode : DbReadMode) : ControllerM Key Sig Unit := do
  let db ← ForkDatabase.get
  let c ← get
  match db.head with
  | none => undefined "null head"
  | some newHead =>
    if newHead.header.previous = c.head.id then extendHead o newHead
    else if newHead.id ≠ c.head.id then switchTo o readMode newHead

/-! ## Irreversible blocks -/

variable (env : ChainEnv Key Sig)

/-- The part of `on_irreversible` that has to do with the block log. -/
def logIrreversible (s : BlockState Key Sig) : ControllerM Key Sig Unit := do
  let c ← get
  match c.blog.head, s.block with
  | none, some b => do
    assert (s.blockNum = c.blog.firstBlockNum) .blockLogException
      "block log has no blocks and is appending the wrong first block.  Expected ${expected}, but received: ${actual}"
    append b
  | none, none =>
    assert (s.blockNum = subU32 c.blog.firstBlockNum 1) .blockLogException
      "block log has no blocks and is not properly set up to start after the snapshot"
  | some lh, b =>
    if lh.toBlockHeader.blockNum.toNat < s.blockNum then
      assert (s.blockNum - 1 = lh.toBlockHeader.blockNum.toNat) .unlinkableBlockException
        "unlinkable block"
      match b with
      | none => undefined "null block"
      | some b => do
        assert (b.previous = lh.toBlockHeader.id env) .unlinkableBlockException
          "irreversible doesn't link to block log head"
        append b

/-- `on_irreversible`. -/
def onIrreversible (o : ApplyOracle) (readMode : DbReadMode) (s : BlockState Key Sig) :
    ControllerM Key Sig Unit := do
  logIrreversible env s
  if s.block.isSome ∧ readMode = .irreversible then
    let c ← get
    if s.blockNum = addU32 c.head.blockNum 1 then
      applyBlock o s
      setHead s.toBlockData
    else
      assert (c.head.blockNum = 1) .blockValidateException
        "Attempting to re-apply an irreversible block that was not the implied genesis block"
    let c ← get
    markInCurrentChain { toBlockData := c.head } true
    setValidity { toBlockData := c.head } true

/-! ## Pushing a block -/

section Push

variable [Inhabited Sig] [DecidableEq Key]

/-- `create_block_state_future`. -/
def createBlockState (env : ChainEnv Key Sig) (b : SignedBlockHeader Key Sig) :
    ControllerM Key Sig (BlockState Key Sig) := do
  let db ← ForkDatabase.get
  assert (db.index.find (b.toBlockHeader.id env)).isNone .forkDatabaseException
    "we already know about this block: ${id}"
  match db.index.find b.previous with
  | none => Exec.lift (.error ⟨.unlinkableBlockException, "unlinkable block ${id}"⟩)
  | some prev => Exec.lift (ForkDatabase.newState env prev b false)

/-- `push_block`, of the state created for the block. -/
def pushState (o : ApplyOracle) (readMode : DbReadMode) (n : BlockState Key Sig) :
    ControllerM Key Sig Unit := do
  ForkDatabase.add (onIrreversible env o readMode) n false
  if readMode ≠ .irreversible then maybeSwitchForks o readMode

/-- A block is received: its state is created and pushed. -/
def pushBlock (env : ChainEnv Key Sig) (o : ApplyOracle) (readMode : DbReadMode)
    (b : SignedBlockHeader Key Sig) : ControllerM Key Sig Unit := do
  let n ← createBlockState env b
  pushState env o readMode n

end Push

/-! ## The steps of a switch -/

variable {t : Node Key Sig} {b p : BlockState Key Sig} {o : ApplyOracle}

theorem get_bind {α : Type} {f : Controller Key Sig → ControllerM Key Sig α} :
    (get >>= f) t = f t.2 t := rfl

variable {t' : Node Key Sig}

theorem attempt_of_ok {α : Type} {m : ControllerM Key Sig α} {a : α} (h : m t = .ok a t') :
    attempt m t = .ok (.ok a) t' :=
  Exec.attempt_of_ok h

theorem attempt_of_error {α : Type} {m : ControllerM Key Sig α} {e : FcException}
    (h : m t = .error e t') (he : e.type ≠ .undefinedBehavior) : attempt m t = .ok (.error e) t' :=
  Exec.attempt_of_error h (decide_eq_false he)

theorem popBlock_of_find {readMode : DbReadMode}
    (hfind : t.1.index.find t.2.head.header.previous = some p) (hblock : t.2.head.block.isSome) :
    popBlock readMode t = .ok () (t.1, { t.2 with head := p.toBlockData }) := by
  unfold popBlock
  rw [ForkDatabase.get_bind, get_bind, hfind]
  simp only
  split
  · rw [ForkDatabase.assert_bind_of hblock]
    rfl
  · rfl

theorem applyBlock_of_none (hblock : b.block.isSome) (h : o.throws t.2.head.id b.id = none) :
    applyBlock o b t = .ok () t := by
  obtain ⟨x, hx⟩ := Option.isSome_iff_exists.mp hblock
  unfold applyBlock
  rw [get_bind, hx]
  simp only [h]
  rfl

theorem applyBlock_of_some {e : FcException} (hblock : b.block.isSome)
    (h : o.throws t.2.head.id b.id = some e) : applyBlock o b t = .error e t := by
  obtain ⟨x, hx⟩ := Option.isSome_iff_exists.mp hblock
  unfold applyBlock
  rw [get_bind, hx]
  simp only [h]
  rfl

end Controller

end Forceio.Chain
