import Forceio.Chain.ForkIndex
import Forceio.Lib.Exec

/-!
# The fork database: `fork_database`

Model of `libraries/chain/fork_database.cpp`.

* A `block_state_ptr` is shared: who holds one sees what is later done to the state. `HeadPtr` is
  `my->head`: null, a state of the index, or one that has been erased since.
* A member function is code over the database and whatever the slots of the `irreversible` signal
  work on (`ForkM`). An exception keeps the changes made before it.
* Null states and blocks are not arguments a caller passes; the assertions on them are left out.
  `*index.begin()` of an empty index, a null `block` and an iterator to an erased state throw
  `.undefinedBehavior`.

Results:
* `remove_eq_ok`: `remove` takes out the ids its queue reaches and points the head at the first of
  the rest.
-/

namespace Forceio.Chain

open Forceio.Lib Exec ForkIndex BlockState

variable {Key Sig : Type}

/-! ## The database -/

/-- `my->head`: null, a state of the index, or one that was erased after it became the head. -/
inductive HeadPtr (Key Sig : Type) where
  | null
  | entry (id : Sha256)
  | erased (b : BlockState Key Sig)

/-- `fork_database_impl`. -/
structure ForkDatabase (Key Sig : Type) where
  index : ForkIndex Key Sig
  headPtr : HeadPtr Key Sig

/-- Code over the fork database and the state `β` of the slots connected to `irreversible`. -/
abbrev ForkM (Key Sig β α : Type) := EStateM FcException (ForkDatabase Key Sig × β) α

namespace ForkDatabase

/-- A database nothing was put into. -/
def empty : ForkDatabase Key Sig := ⟨ForkIndex.empty, .null⟩

/-- `fork_database::head`. -/
def head (db : ForkDatabase Key Sig) : Option (BlockState Key Sig) :=
  match db.headPtr with
  | .null => none
  | .entry i => db.index.find i
  | .erased b => some b

theorem head_of_mem {db : ForkDatabase Key Sig} {b : BlockState Key Sig}
    (hptr : db.headPtr = .entry b.id) (hb : b ∈ db.index.entries) : db.head = some b := by
  unfold head
  rw [hptr]
  exact find_of_mem hb

/-- `my->index.erase`: a head that is erased lives on through its pointer. -/
def erase (db : ForkDatabase Key Sig) (i : Sha256) : ForkDatabase Key Sig where
  index := db.index.erase i
  headPtr :=
    match db.headPtr, db.index.find i with
    | .entry j, some b => if j = i then .erased b else .entry j
    | p, _ => p

/-- `my->index.modify`. -/
def modify (db : ForkDatabase Key Sig) (i : Sha256) (f : BlockState Key Sig → BlockState Key Sig)
    (hf : ∀ b, (f b).id = b.id) : ForkDatabase Key Sig :=
  { db with index := db.index.modify i f hf }

/-- The loop of `remove`: erase the next id of the queue, queue the ids that follow it. -/
def removeLoop : Nat → List Sha256 → ForkDatabase Key Sig → ForkDatabase Key Sig
  | 0, _, db => db
  | _ + 1, [], db => db
  | fuel + 1, i :: queue, db =>
    let db := db.erase i
    removeLoop fuel (queue ++ db.index.children i) db

variable {β : Type}

def get : ForkM Key Sig β (ForkDatabase Key Sig) := fun s => .ok s.1 s

def put (db : ForkDatabase Key Sig) : ForkM Key Sig β Unit := fun s => .ok () (db, s.2)

/-- `EOS_ASSERT`. -/
def assert (cond : Prop) [Decidable cond] (type : ExceptionType) (what : String) :
    ForkM Key Sig β Unit :=
  lift (eosAssert cond type what)

/-- Where the C++ has no defined behaviour. -/
def undefined {α : Type} (what : String) : ForkM Key Sig β α :=
  fun s => .error ⟨.undefinedBehavior, what⟩ s

/-- `my->head = *my->index.get<by_lib_block_num>().begin()`. -/
def refreshHead : ForkM Key Sig β Unit := do
  let db ← get
  match db.index.byLibBlockNum.head? with
  | some b => put { db with headPtr := .entry b.id }
  | none => undefined "begin of an empty index"

/-- `remove`. -/
def remove (id : Sha256) : ForkM Key Sig β Unit := do
  let db ← get
  put (db.removeLoop (db.index.entries.length + 1) [id])
  refreshHead

/-- `set_validity`. -/
def setValidity (h : BlockState Key Sig) (valid : Bool) : ForkM Key Sig β Unit := do
  if !valid then remove h.id
  else
    let db ← get
    put (db.modify h.id validate validate_id)

/-- `mark_in_current_chain`. -/
def markInCurrentChain (h : BlockState Key Sig) (inCurrentChain : Bool) : ForkM Key Sig β Unit := do
  let db ← get
  -- a state that is no longer in the index has the flag its pointer sees
  let current := ((db.index.find h.id).getD h).inCurrentChain
  if current ≠ inCurrentChain then
    assert ((db.index.find h.id).isSome) .forkDbBlockNotFound
      "could not find block in fork database"
    put (db.modify h.id (mark inCurrentChain)
      (mark_id inCurrentChain))

/-! ### Pruning -/

/-- The last loop of `prune`: `nitr` is moved on before the state it was at is removed, with all
that is built on it. -/
def pruneLevel (num : Nat) : Nat → Option (BlockState Key Sig) → ForkM Key Sig β Unit
  | 0, _ => undefined "loop without end"
  | _ + 1, none => pure ()
  | fuel + 1, some b => do
    if b.blockNum = num then
      let db ← get
      let nitr := (db.index.byBlockNum.dropWhile fun c => c.id ≠ b.id).tail.head?
      remove b.id
      let db ← get
      match nitr with
      | none => pure ()
      | some c =>
        if (db.index.find c.id).isSome then pruneLevel num fuel nitr
        else undefined "iterator to an erased state"

variable (irreversible : BlockState Key Sig → ForkM Key Sig β Unit)

/-- The signal of `prune`, and the state it is about leaves the index. -/
def makeIrreversible (h : BlockState Key Sig) : ForkM Key Sig β Unit := do
  let db ← get
  match db.index.find h.id with
  | some b => do
    irreversible b
    let db ← get
    put (db.erase h.id)
  | none => pure ()

/-- `prune` from the signal on. -/
def pruneAt (h : BlockState Key Sig) : ForkM Key Sig β Unit := do
  makeIrreversible irreversible h
  let db ← get
  let nitr := db.index.byBlockNum.find? fun b => h.blockNum ≤ b.blockNum
  pruneLevel h.blockNum (db.index.entries.length + 1) nitr

/-- The first loop of `prune`. The call it makes for the lowest state does not enter its own first
loop. -/
def pruneBelow (irreversible : BlockState Key Sig → ForkM Key Sig β Unit) (num : Nat) :
    Nat → ForkM Key Sig β Unit
  | 0 => undefined "loop without end"
  | fuel + 1 => do
    let db ← get
    match db.index.byBlockNum.head? with
    | some b =>
      if b.blockNum < num then
        pruneAt irreversible b
        pruneBelow irreversible num fuel
    | none => pure ()

/-- `prune`. -/
def prune (h : BlockState Key Sig) : ForkM Key Sig β Unit := do
  let db ← get
  pruneBelow irreversible h.blockNum (db.index.entries.length + 1)
  pruneAt irreversible h

/-! ### Adding -/

/-- `set`. The insertion comes before both assertions. -/
def set (env : ChainEnv Key Sig) (s : BlockState Key Sig) : ForkM Key Sig β Unit := do
  let db ← get
  let result := db.index.insert s
  put { db with index := result.getD db.index }
  assert (s.id = s.header.toBlockHeader.id env) .forkDatabaseException
    "block state id (${id}) is different from block state header id (${hid})"
  assert result.isSome .forkDatabaseException
    "unable to insert block state, duplicate state detected"
  let db ← get
  if db.head.all fun h => decide (h.blockNum < s.blockNum) then
    put { db with headPtr := .entry s.id }

/-- The insertion of `add`, and the new head. -/
def insertBest (n : BlockState Key Sig) : ForkM Key Sig β Unit := do
  let db ← get
  match db.index.insert n with
  | some index => put { db with index := index }
  | none => lift (.error ⟨.forkDatabaseException, "duplicate block added?"⟩)
  refreshHead

/-- The end of `add`: prune the lowest number once the head's irreversible number is past it. -/
def pruneOldest : ForkM Key Sig β Unit := do
  let db ← get
  match db.head, db.index.byBlockNum.head? with
  | some h, some oldest =>
    if oldest.blockNum < h.dposIrreversibleBlocknum then prune irreversible oldest
  | _, _ => undefined "begin of an empty index"

/-- The check of `add` that the predecessor of the block is known. -/
def validatePrevious (n : BlockState Key Sig) : ForkM Key Sig β Unit := do
  let db ← get
  match n.block with
  | some b => assert (db.index.find b.previous).isSome .unlinkableBlockException "unlinkable block"
  | none => undefined "null block"

/-- `add`, of a block state. -/
def add (n : BlockState Key Sig) (skipValidatePrevious : Bool) : ForkM Key Sig β Unit := do
  let db ← get
  assert db.head.isSome .forkDbBlockNotFound "no head block set"
  if !skipValidatePrevious then
    validatePrevious n
  insertBest n
  pruneOldest irreversible

/-- `block_state(prev, b, skip_validate_signee)`. -/
def newState [Inhabited Sig] [DecidableEq Key] (env : ChainEnv Key Sig)
    (prev : BlockState Key Sig) (b : SignedBlockHeader Key Sig) (skipValidateSignee : Bool) :
    Except FcException (BlockState Key Sig) := do
  let hs ← prev.toBlockHeaderState.next env b skipValidateSignee
  pure { toBlockHeaderState := hs, block := some b }

/-- `add`, of a signed block. -/
def addBlock [Inhabited Sig] [DecidableEq Key] (env : ChainEnv Key Sig)
    (irreversible : BlockState Key Sig → ForkM Key Sig β Unit) (b : SignedBlockHeader Key Sig)
    (skipValidateSignee : Bool) : ForkM Key Sig β Unit := do
  let db ← get
  assert db.head.isSome .forkDbBlockNotFound "no head block set"
  assert (db.index.find (b.toBlockHeader.id env)).isNone .forkDatabaseException
    "we already know about this block"
  match db.index.find b.previous with
  | none => lift (.error ⟨.unlinkableBlockException, "unlinkable block"⟩)
  | some prior => do
    let result ← lift (newState env prior b skipValidateSignee)
    add irreversible result true

/-! ### Confirmations -/

/-- The inner loop of `update`: the states of an equal range of `by_prev`. -/
def raiseRange (num : Nat) : List Sha256 → ForkIndex Key Sig → ForkIndex Key Sig × List Sha256
  | [], index => (index, [])
  | i :: range, index =>
    match index.find i with
    | some b =>
      if b.bftIrreversibleBlocknum < num then
        let r := raiseRange num range (index.raise i num)
        (r.1, i :: r.2)
      else raiseRange num range index
    | none => raiseRange num range index

/-- The lambda `update`: one layer of the traversal, returning the next. -/
def update (num : Nat) : List Sha256 → ForkIndex Key Sig → ForkIndex Key Sig × List Sha256
  | [], index => (index, [])
  | i :: layer, index =>
    let r := raiseRange num (index.children i) index
    let r' := update num layer r.1
    (r'.1, r.2 ++ r'.2)

/-- The loop of `set_bft_irreversible`. -/
def updateLoop (num : Nat) : Nat → List Sha256 → ForkIndex Key Sig → ForkIndex Key Sig
  | 0, _, index => index
  | _ + 1, [], index => index
  | fuel + 1, queue, index =>
    let r := update num queue index
    updateLoop num fuel r.2 r.1

/-- `set_bft_irreversible`, of the state `b` of the index. -/
def setBftIrreversible (b : BlockState Key Sig) : ForkM Key Sig β Unit := do
  let db ← get
  let index := db.index.raise b.id b.blockNum
  put { db with index := updateLoop b.blockNum (index.entries.length + 1) [b.id] index }

/-- Whether the confirmations of `b` with one more make it BFT irreversible. -/
def completes (b : BlockState Key Sig) : Bool :=
  b.bftIrreversibleBlocknum < b.blockNum ∧
    b.activeSchedule.producers.length * 2 / 3 + 1 ≤ b.confirmations.length

/-- `add`, of a header confirmation. -/
def addConfirmation [DecidableEq Key] [Inhabited Key] (env : ChainEnv Key Sig)
    (c : HeaderConfirmation Sig) : ForkM Key Sig β Unit := do
  let db ← get
  match db.index.find c.blockId with
  | none => lift (.error ⟨.forkDbBlockNotFound, "unable to find block id ${id}"⟩)
  | some b => do
    let hs ← lift (b.toBlockHeaderState.addConfirmation env c)
    put (db.modify c.blockId (confirmedBy hs.confirmations)
      (confirmedBy_id hs.confirmations))
    let b := b.confirmedBy hs.confirmations
    if completes b then setBftIrreversible b

/-! ### Branches -/

/-- The first two loops of `fetch_branch_from`: down from `b` while its number is above `num`. -/
def descend (index : ForkIndex Key Sig) (num : Nat) :
    Nat → BlockState Key Sig → Except FcException (List (BlockState Key Sig) × BlockState Key Sig)
  | 0, _ => .error ⟨.undefinedBehavior, "loop without end"⟩
  | fuel + 1, b =>
    if num < b.blockNum then
      match index.find b.header.previous with
      | some p => do
        let (branch, last) ← descend index num fuel p
        pure (b :: branch, last)
      | none => .error ⟨.undefinedBehavior, "null block state in a message"⟩
    else .ok ([], b)

/-- The last loop of `fetch_branch_from`: both down until they have the same predecessor. -/
def descendBoth (index : ForkIndex Key Sig) : Nat → BlockState Key Sig → BlockState Key Sig →
      Except FcException (List (BlockState Key Sig) × List (BlockState Key Sig))
  | 0, _, _ => .error ⟨.undefinedBehavior, "loop without end"⟩
  | fuel + 1, a, b =>
    if a.header.previous ≠ b.header.previous then
      match index.find a.header.previous, index.find b.header.previous with
      | some pa, some pb => do
        let (first, second) ← descendBoth index fuel pa pb
        pure (a :: first, b :: second)
      | _, _ => .error ⟨.undefinedBehavior, "null block state in a message"⟩
    else .ok ([a], [b])

/-- `fetch_branch_from`. -/
def fetchBranchFrom (index : ForkIndex Key Sig) (first second : Sha256) :
    Except FcException (List (BlockState Key Sig) × List (BlockState Key Sig)) :=
  match index.find first, index.find second with
  | some a, some b => do
    let fuel := index.entries.length + 1
    let (first, a) ← descend index b.blockNum fuel a
    let (second, b) ← descend index a.blockNum fuel b
    let (first', second') ← descendBoth index fuel a b
    pure (first ++ first', second ++ second')
  | _, _ => .error ⟨.undefinedBehavior, "null block state"⟩

end ForkDatabase

/-! ## The head pointer and `remove` -/

namespace ForkIndex

variable {idx : ForkIndex Key Sig}

/-- Where `my->head` should point: the first state of `by_lib_block_num`. -/
def firstPtr (idx : ForkIndex Key Sig) : HeadPtr Key Sig :=
  match idx.byLibBlockNum.head? with
  | some b => .entry b.id
  | none => .null

theorem firstPtr_of_head {b : BlockState Key Sig} (h : idx.byLibBlockNum.head? = some b) :
    idx.firstPtr = .entry b.id := by
  unfold firstPtr
  rw [h]

theorem mem_of_head {b : BlockState Key Sig} (h : idx.byLibBlockNum.head? = some b) :
    b ∈ idx.entries :=
  mem_byLib.mp (List.mem_of_mem_head? h)

end ForkIndex

namespace ForkDatabase

variable {β : Type} {db db' : ForkDatabase Key Sig}

variable {s t : ForkDatabase Key Sig × β} {type : ExceptionType} {u : Unit}
  {b n : BlockState Key Sig}

variable {α : Type}

theorem get_bind {f : ForkDatabase Key Sig → ForkM Key Sig β α}
    : (get >>= f) s = f s.1 s := rfl

variable {f : Unit → ForkM Key Sig β α}

theorem put_bind : (put db >>= f) s = f () (db, s.2) := rfl

variable {what : String} {cond : Prop}

theorem assert_eq_ok [Decidable cond] :
    assert cond type what s = .ok u t ↔ cond ∧ t = s := by
  unfold assert
  rw [lift_ok, eosAssert_eq_ok]

theorem assert_of_not [Decidable cond] (h : ¬ cond) :
    assert cond type what s = .error ⟨type, what⟩ s := by
  unfold assert eosAssert
  rw [if_neg h]
  rfl

theorem assert_bind_of [Decidable cond] (h : cond) : (assert cond type what >>= f) s = f () s :=
  bind_of_ok (assert_eq_ok.mpr ⟨h, rfl⟩)

theorem assert_bind_ok [Decidable cond] {a : α} :
    (assert cond type what >>= f) s = .ok a t ↔ cond ∧ f () s = .ok a t :=
  check_bind_ok assert_eq_ok

theorem removeLoop_index : ∀ (fuel : Nat) (queue : List Sha256) (db : ForkDatabase Key Sig),
    (db.removeLoop fuel queue).index =
      db.index.filter fun b => b.id ∉ Forest.removeIds fuel queue db.index.links
  | 0, _, db => (filter_true fun b _ => by simp [Forest.removeIds]).symm
  | _ + 1, [], db => (filter_true fun b _ => by simp [Forest.removeIds]).symm
  | fuel + 1, i :: queue, db => by
    have hlinks : (db.erase i).index.links = db.index.links.filter fun x => x.id ≠ i :=
      links_filter fun j => decide (j ≠ i)
    rw [removeLoop, removeLoop_index fuel, Forest.removeIds, children_eq, hlinks]
    show (db.index.filter _).filter _ = _
    rw [filter_filter]
    congr 1
    funext b
    simp

theorem refreshHead_of_head {x : β} (h : db.index.byLibBlockNum.head? = some b) :
    refreshHead (db, x) = .ok () ({ db with headPtr := .entry b.id }, x) := by
  show (match db.index.byLibBlockNum.head? with
    | some b => put { db with headPtr := .entry b.id }
    | none => undefined "begin of an empty index" : ForkM Key Sig β Unit) (db, x) = _
  rw [h]
  rfl

theorem refreshHead_eq_ok (h : refreshHead s = .ok u t) :
    ∃ b, s.1.index.byLibBlockNum.head? = some b ∧
      t = ({ s.1 with headPtr := s.1.index.firstPtr }, s.2) := by
  cases hb : s.1.index.byLibBlockNum.head? with
  | some b =>
    rw [show s = (s.1, s.2) from rfl, refreshHead_of_head hb] at h
    rw [firstPtr_of_head hb]
    simpa using h.symm
  | none =>
    have herr : refreshHead s = .error ⟨.undefinedBehavior, "begin of an empty index"⟩ s := by
      show (match s.1.index.byLibBlockNum.head? with
        | some b => put { s.1 with headPtr := .entry b.id }
        | none => undefined "begin of an empty index" : ForkM Key Sig β Unit) s = _
      rw [hb]
      rfl
    rw [herr] at h
    simp at h

theorem remove_eq (i : Sha256) (db : ForkDatabase Key Sig) (x : β) : remove i (db, x) =
      refreshHead (db.removeLoop (db.index.entries.length + 1) [i], x) := rfl

variable {i : Sha256}

theorem remove_of_head {x : β} (h : (db.index.removed i).byLibBlockNum.head? = some b) :
    remove i (db, x) = .ok () (⟨db.index.removed i, .entry b.id⟩, x) := by
  have hidx : (db.removeLoop (db.index.entries.length + 1) [i]).index = db.index.removed i :=
    removeLoop_index _ _ db
  rw [remove_eq, refreshHead_of_head (by rw [hidx]; exact h), hidx]

theorem remove_of_mem {x : β} (h : b ∈ (db.index.removed i).entries) :
    remove i (db, x) = .ok () (⟨db.index.removed i, (db.index.removed i).firstPtr⟩, x) := by
  obtain ⟨c, hhead⟩ := exists_best h
  rw [remove_of_head hhead, firstPtr_of_head hhead]

/-- **What `remove` does**: the ids its queue reaches are gone and the head is the first of the
rest. -/
theorem remove_eq_ok (h : remove i s = .ok u t) :
    ∃ b, (s.1.index.removed i).byLibBlockNum.head? = some b ∧
      t = (⟨s.1.index.removed i, (s.1.index.removed i).firstPtr⟩, s.2) := by
  have hidx : (s.1.removeLoop (s.1.index.entries.length + 1) [i]).index = s.1.index.removed i :=
    removeLoop_index _ _ s.1
  obtain ⟨b, hb, rfl⟩ := refreshHead_eq_ok h
  refine ⟨b, by rw [← hidx]; exact hb, ?_⟩
  simp only [hidx]

/-- The insertion of `add` succeeds iff the id is new, and then the head is the first state. -/
theorem insertBest_eq_ok_iff : insertBest n s = .ok u t ↔
      ∃ idx, s.1.index.insert n = some idx ∧ t = (⟨idx, idx.firstPtr⟩, s.2) := by
  unfold insertBest
  rw [get_bind]
  cases hins : s.1.index.insert n with
  | none =>
    simp only [reduceCtorEq, false_and, exists_false, iff_false]
    exact fun h => absurd h (by simp [bind_ok, lift])
  | some idx =>
    show refreshHead (⟨idx, s.1.headPtr⟩, s.2) = .ok u t ↔ _
    obtain ⟨b, hb⟩ := exists_best ((mem_insert hins).mpr (Or.inr rfl))
    rw [refreshHead_of_head hb, ← firstPtr_of_head hb]
    constructor
    · intro h
      exact ⟨idx, rfl, by simpa using h.symm⟩
    · rintro ⟨idx', heq, rfl⟩
      obtain rfl := Option.some.inj heq
      rfl

variable {irr : BlockState Key Sig → ForkM Key Sig β Unit}

/-- What `add` did when it returned: the insertion, then the pruning. -/
theorem add_eq_ok {skip : Bool} (h : add irr n skip s = .ok u t) :
    ∃ idx, s.1.index.insert n = some idx ∧
      pruneOldest irr (⟨idx, idx.firstPtr⟩, s.2) = .ok u t := by
  have hrest : ∀ s' : ForkDatabase Key Sig × β,
      (insertBest n >>= fun _ => pruneOldest irr) s' = .ok u t →
      ∃ idx, s'.1.index.insert n = some idx ∧
        pruneOldest irr (⟨idx, idx.firstPtr⟩, s'.2) = .ok u t := by
    intro s' h
    obtain ⟨_, s'', h1, h2⟩ := bind_ok.mp h
    obtain ⟨idx, hidx, rfl⟩ := insertBest_eq_ok_iff.mp h1
    exact ⟨idx, hidx, h2⟩
  unfold add at h
  rw [get_bind, assert_bind_ok] at h
  obtain ⟨-, h⟩ := h
  split at h
  · obtain ⟨_, s', h1, h2⟩ := bind_ok.mp h
    have hs : s' = s := by
      unfold validatePrevious at h1
      rw [get_bind] at h1
      cases hb : n.block with
      | some b =>
        rw [hb] at h1
        exact (assert_eq_ok.mp h1).2
      | none =>
        rw [hb] at h1
        simp [undefined] at h1
    rw [hs] at h2
    exact hrest s h2
  · exact hrest s h

theorem pruneOldest_eq_ok (hok : pruneOldest irr s = .ok u t) :
    t = s ∨ ∃ h oldest, s.1.head = some h ∧ s.1.index.byBlockNum.head? = some oldest ∧
      oldest.blockNum < h.dposIrreversibleBlocknum ∧ prune irr oldest s = .ok u t := by
  unfold pruneOldest at hok
  rw [get_bind] at hok
  cases hh : s.1.head with
  | none =>
    simp only [hh] at hok
    simp [undefined] at hok
  | some h =>
    cases ho : s.1.index.byBlockNum.head? with
    | none =>
      simp only [hh, ho] at hok
      simp [undefined] at hok
    | some oldest =>
      simp only [hh, ho] at hok
      split at hok
      · rename_i hlt
        exact Or.inr ⟨h, oldest, rfl, rfl, hlt, hok⟩
      · cases hok
        exact Or.inl rfl

theorem oldest_le {idx : ForkIndex Key Sig} {o : BlockState Key Sig}
    (h : idx.byBlockNum.head? = some o) : ∀ b ∈ idx.entries, o.blockNum ≤ b.blockNum :=
  fun b hb => (numKey_le
    (OrderedIndex.le_of_head? idx.sortedNum h b (mem_byNum.mpr hb))).1

theorem newState_eq_ok [Inhabited Sig] [DecidableEq Key] {env : ChainEnv Key Sig}
    {prev : BlockState Key Sig} {b : SignedBlockHeader Key Sig} {skip : Bool}
    (h : newState env prev b skip = .ok n) :
    prev.toBlockHeaderState.next env b skip = .ok n.toBlockHeaderState ∧ n.block = some b ∧
      n.validated = false ∧ n.inCurrentChain = false := by
  obtain ⟨hs, h1, h2⟩ := bind_eq_ok.mp h
  cases h2
  exact ⟨h1, rfl, rfl, rfl⟩

end ForkDatabase

/-- The genesis block of a toy chain, as `initialize_fork_db` puts it into the database. -/
def toyRoot (producers : List AccountName) : BlockState Nat Nat :=
  let hs := (toyGenesis producers).headerState toyEnv
  { toBlockHeaderState := hs, block := some hs.header }

end Forceio.Chain
