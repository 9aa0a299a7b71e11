import Forceio.Chain.BftConfirm

/-!
# The head of the fork database and the best block

`head()` is a cached pointer. `add` and `remove` point it at the first state of `by_lib_block_num`;
`set` compares block numbers only, a confirmation that completes a quorum moves states in that order
and leaves the pointer, and `prune` erases the state it is given even if that is the head.

* `ForkOp` are the operations of the class, `ForkOp.Safe` says when each keeps the pointer right.
* The slots of the `irreversible` signal work on a state of their own (`slots`).

Results:
* `head_is_best`: in every run of safe operations that does not throw, the head is the first state.
* `head_not_best`: a confirmation can put a state before the head.
-/

namespace Forceio.Chain

open Forceio.Lib ForkDatabase ForkIndex OrderedIndex BlockState

variable {Key Sig β : Type}
variable {b : BlockState Key Sig} {i : Sha256} {env : ChainEnv Key Sig}

/-- Slots that do not touch the database. -/
def slots (f : BlockState Key Sig → EStateM FcException β Unit) (b : BlockState Key Sig) :
    ForkM Key Sig β Unit := fun s =>
  match f b s.2 with
  | .ok u x => .ok u (s.1, x)
  | .error e x => .error e (s.1, x)

/-- The head is the first state of `by_lib_block_num`, and the states keep the bounds of header
states. -/
structure Best (db : ForkDatabase Key Sig) : Prop where
  head : db.headPtr = db.index.firstPtr
  shape : ∀ b ∈ db.index.entries, Shape b.toBlockHeaderState

variable {db : ForkDatabase Key Sig} {s t : ForkDatabase Key Sig × β} {u : Unit}
  {f : BlockState Key Sig → EStateM FcException β Unit}

theorem slots_eq_ok (h : slots f b s = .ok u t) : t.1 = s.1 := by
  unfold slots at h
  split at h
  · cases h
    rfl
  · simp at h

theorem Best.head_eq (h : Best db) : db.head = db.index.byLibBlockNum.head? := by
  unfold ForkDatabase.head
  rw [h.head]
  unfold firstPtr
  cases hb : db.index.byLibBlockNum.head? with
  | none => rfl
  | some b => exact find_of_mem (mem_of_head hb)

/-! ## Removing and pruning -/

theorem Best.remove (h : Best s.1) (hok : remove i s = .ok u t) : Best t.1 := by
  obtain ⟨-, -, rfl⟩ := remove_eq_ok hok
  exact ⟨rfl, fun b hb => h.shape b (mem_filter.mp hb).1⟩

theorem Best.erase (h : Best db) (hne : ∀ b, db.head = some b → b.id ≠ i) : Best (db.erase i) := by
  refine ⟨?_, fun b hb => h.shape b (mem_filter.mp hb).1⟩
  rw [h.head_eq] at hne
  unfold ForkDatabase.erase
  simp only [h.head]
  cases hb : db.index.byLibBlockNum.head? with
  | none =>
    have hnil : (db.index.erase i).byLibBlockNum.head? = none := by
      show (db.index.byLibBlockNum.filter _).head? = none
      rw [List.head?_eq_none_iff.mp hb]
      rfl
    unfold firstPtr
    rw [hb, hnil]
  | some b =>
    have hhead : (db.index.erase i).byLibBlockNum.head? = some b :=
      head?_filter hb (by simpa using hne b hb)
    rw [firstPtr_of_head hb, firstPtr_of_head hhead]
    cases db.index.find i with
    | none => rfl
    | some c => exact if_neg (hne b hb)

theorem Best.pruneLevel {num : Nat} : ∀ (fuel : Nat) (nitr : Option (BlockState Key Sig))
    (s : ForkDatabase Key Sig × β), Best s.1 → pruneLevel num fuel nitr s = .ok u t → Best t.1
  | 0, _, s, _, hok => absurd hok (by simp [ForkDatabase.pruneLevel, undefined])
  | _ + 1, none, s, h, hok => by
    cases hok
    exact h
  | fuel + 1, some b, s, h, hok => by
    unfold ForkDatabase.pruneLevel at hok
    split at hok
    · rw [get_bind] at hok
      obtain ⟨_, s', hrem, hok⟩ := Exec.bind_ok.mp hok
      have h' := h.remove hrem
      rw [get_bind] at hok
      generalize (s.1.index.byBlockNum.dropWhile _).tail.head? = nitr at hok
      cases nitr with
      | none =>
        cases hok
        exact h'
      | some c =>
        simp only at hok
        split at hok
        · exact Best.pruneLevel fuel _ s' h' hok
        · simp [undefined] at hok
    · cases hok
      exact h

variable {h n : BlockState Key Sig}

theorem Best.pruneAt (hb : Best s.1) (hne : ∀ b, s.1.head = some b → b.id ≠ h.id)
    (hok : pruneAt (slots f) h s = .ok u t) : Best t.1 := by
  obtain ⟨_, s', hirr, hok⟩ := Exec.bind_ok.mp hok
  refine Best.pruneLevel _ _ s' ?_ hok
  unfold makeIrreversible at hirr
  rw [get_bind] at hirr
  cases hfind : s.1.index.find h.id with
  | some b =>
    rw [hfind] at hirr
    obtain ⟨_, s1, hsig, hirr⟩ := Exec.bind_ok.mp hirr
    cases hirr
    rw [slots_eq_ok hsig]
    exact hb.erase hne
  | none =>
    rw [hfind] at hirr
    cases hirr
    exact hb

theorem Best.prune (hb : Best s.1) (hlow : ∀ b ∈ s.1.index.entries, h.blockNum ≤ b.blockNum)
    (hne : ∀ b, s.1.head = some b → b.id ≠ h.id) (hok : prune (slots f) h s = .ok u t) :
    Best t.1 := by
  unfold ForkDatabase.prune at hok
  rw [get_bind] at hok
  obtain ⟨_, s', hbelow, hok⟩ := Exec.bind_ok.mp hok
  have hs : s' = s := by
    unfold pruneBelow at hbelow
    rw [get_bind] at hbelow
    cases hhead : s.1.index.byBlockNum.head? with
    | some b =>
      have hmem := mem_byNum.mp (List.mem_of_mem_head? hhead)
      simp only [hhead] at hbelow
      rw [if_neg (not_lt.mpr (hlow b hmem))] at hbelow
      cases hbelow
      rfl
    | none =>
      simp only [hhead] at hbelow
      cases hbelow
      rfl
  rw [hs] at hok
  exact hb.pruneAt hne hok

/-! ## Adding -/

/-- A head is not pruned by its own irreversible number, which is at most its number. -/
theorem Best.pruneOldest (h : Best s.1) (hok : pruneOldest (slots f) s = .ok u t) : Best t.1 := by
  rcases pruneOldest_eq_ok hok with rfl | ⟨b, oldest, hb, ho, hlt, hprune⟩
  · exact h
  · refine h.prune (oldest_le ho) (fun c hc => ?_) hprune
    obtain rfl := Option.some.inj (hb.symm.trans hc)
    intro hid
    rw [h.head_eq] at hb
    have hmem := mem_of_head hb
    obtain rfl := eq_of_id hmem
      (mem_byNum.mp (List.mem_of_mem_head? ho)) hid
    have hshape := h.shape b hmem
    have h1 := hshape.irreversible
    have h2 := hshape.proposed
    omega

theorem Best.inserted {idx : ForkIndex Key Sig} (h : Best db) (hn : Shape n.toBlockHeaderState)
    (hins : db.index.insert n = some idx) : Best (⟨idx, idx.firstPtr⟩ : ForkDatabase Key Sig) :=
  ⟨rfl, (forall_mem_insert hins).mpr ⟨h.shape, hn⟩⟩

theorem Best.add {skip : Bool} (h : Best s.1) (hn : Shape n.toBlockHeaderState)
    (hok : add (slots f) n skip s = .ok u t) : Best t.1 := by
  obtain ⟨idx, hins, hprune⟩ := add_eq_ok hok
  exact Best.pruneOldest (h.inserted hn hins) hprune

theorem Best.addBlock [Inhabited Sig] [DecidableEq Key] {b : SignedBlockHeader Key Sig}
    {skip : Bool} (h : Best s.1) (hok : addBlock env (slots f) b skip s = .ok u t) : Best t.1 := by
  unfold ForkDatabase.addBlock at hok
  rw [get_bind, assert_bind_ok, assert_bind_ok] at hok
  obtain ⟨-, -, hok⟩ := hok
  cases hprior : s.1.index.find b.previous with
  | none =>
    rw [hprior] at hok
    simp [Exec.lift] at hok
  | some prior =>
    rw [hprior] at hok
    obtain ⟨n, s', hlift, hok⟩ := Exec.bind_ok.mp hok
    obtain ⟨hnew, hs⟩ := Exec.lift_ok.mp hlift
    rw [hs] at hok
    have hshape := h.shape prior (find_eq_some_iff.mp hprior).1
    exact h.add (hshape.next ⟨_, _, (newState_eq_ok hnew).1⟩) hok

/-- `set` on a database whose head is right: where the two orders agree on the new state. -/
theorem Best.set (h : Best s.1) (hn : Shape n.toBlockHeaderState)
    (hagree : ∀ b, s.1.head = some b → (b.blockNum < n.blockNum ↔ n.libKey < b.libKey))
    (hok : set env n s = .ok u t) : Best t.1 := by
  unfold ForkDatabase.set at hok
  rw [get_bind] at hok
  obtain ⟨_, s', hput, hok⟩ := Exec.bind_ok.mp hok
  cases hput
  rw [assert_bind_ok, assert_bind_ok] at hok
  obtain ⟨-, hins, hok⟩ := hok
  obtain ⟨idx, hins⟩ := Option.isSome_iff_exists.mp hins
  rw [get_bind, hins] at hok
  have hbest := h.inserted hn hins
  have hfirst := head_insert hins
  suffices hptr : t.1 = ⟨idx, idx.firstPtr⟩ by rw [hptr]; exact hbest
  have hold := h.head
  rw [h.head_eq] at hagree
  cases hb : s.1.index.byLibBlockNum.head? with
  | none =>
    have hnull : s.1.headPtr = .null := by
      rw [hold]
      unfold firstPtr
      rw [hb]
    rw [hb] at hfirst
    simp only [ForkDatabase.head, hnull, Option.all_none, if_true] at hok
    cases hok
    rw [firstPtr_of_head hfirst]
    rfl
  | some b =>
    have hentry := hold.trans (firstPtr_of_head hb)
    have hfind : idx.find b.id = some b :=
      find_of_mem ((mem_insert hins).mpr (Or.inl (mem_of_head hb)))
    rw [hb] at hfirst
    simp only [ForkDatabase.head, hentry, Option.getD_some, hfind, Option.all_some,
      decide_eq_true_eq, hagree b hb] at hok hfirst
    split at hok
    · rename_i hlt
      rw [if_pos hlt] at hfirst
      cases hok
      rw [firstPtr_of_head hfirst]
    · rename_i hge
      rw [if_neg hge] at hfirst
      cases hok
      rw [firstPtr_of_head hfirst]

/-! ## Flags and confirmations -/

theorem Best.modify {g : BlockState Key Sig → BlockState Key Sig} {hg : ∀ b, (g b).id = b.id}
    (h : Best db) (hkey : ∀ b, (g b).libKey = b.libKey)
    (hshape : ∀ b, Shape b.toBlockHeaderState → Shape (g b).toBlockHeaderState) :
    Best (db.modify i g hg) := by
  refine ⟨?_, fun b hb => ?_⟩
  · have hids : ((db.modify i g hg).index.byLibBlockNum.head?.map fun b => b.id) =
        db.index.byLibBlockNum.head?.map fun b => b.id := by
      show ((db.index.modify i g hg).byLibBlockNum.head?.map fun b => b.id) = _
      rw [head_modify hkey, Option.map_map]
      congr 1
      funext b
      simp only [Function.comp]
      split
      · exact hg b
      · rfl
    show db.headPtr = (db.modify i g hg).index.firstPtr
    rw [h.head]
    unfold firstPtr
    cases h1 : (db.modify i g hg).index.byLibBlockNum.head? <;>
      cases h2 : db.index.byLibBlockNum.head? <;> simp_all
  · have hb : b ∈ (db.index.modify i g hg).entries := hb
    obtain ⟨a, ha, rfl⟩ := mem_modify.mp hb
    split
    · exact hshape a (h.shape a ha)
    · exact h.shape a ha

theorem Best.setValidity {valid : Bool} (h : Best s.1) (hok : setValidity b valid s = .ok u t) :
    Best t.1 := by
  unfold ForkDatabase.setValidity at hok
  split at hok
  · exact h.remove hok
  · rw [get_bind] at hok
    cases hok
    exact h.modify (fun _ => rfl) fun _ hs => ⟨hs.1, hs.2, hs.3, hs.4, hs.5, hs.6⟩

/-! ## Confirmations -/

/-- A confirmation that comes to a quorum leaves the head first. -/
def ConfirmationSafe (db : ForkDatabase Key Sig) (c : HeaderConfirmation Sig) : Prop :=
  ∀ b, db.index.find c.blockId = some b → b.bftIrreversibleBlocknum < b.blockNum →
    b.activeSchedule.producers.length * 2 / 3 + 1 ≤ b.confirmations.length + 1 →
    ∀ h, db.head = some h → StaysFirst db.index b h

/-- New confirmations of `b` change nothing the condition looks at. -/
theorem StaysFirst.confirmed {idx : ForkIndex Key Sig} {h' : BlockState Key Sig}
    {cs : List (HeaderConfirmation Sig)} (hst : StaysFirst idx b h) (hid : h'.id = h.id)
    (hkey : h'.libKey = h.libKey)
    (hraised : (h'.raised b.blockNum).libKey = (h.raised b.blockNum).libKey) :
    StaysFirst (idx.modify b.id (confirmedBy cs) (confirmedBy_id cs)) (b.confirmedBy cs) h' := by
  have hreach : ∀ k, Reaches (idx.modify b.id (confirmedBy cs) (confirmedBy_id cs))
      b.blockNum b.id k ↔ Reaches idx b.blockNum b.id k := by
    refine fun k => ⟨Reaches.mono fun x hx hne => ?_, Reaches.mono fun x hx hne => ?_⟩
    · obtain ⟨a, ha, rfl⟩ := mem_modify.mp hx
      split at hne
      · rename_i heq
        exact absurd heq hne
      · rename_i hneq
        rwa [if_neg hneq]
    · exact mem_modify.mpr ⟨x, hx, (if_neg hne).symm⟩
  have hmem : ∀ x ∈ (idx.modify b.id (confirmedBy cs) (confirmedBy_id cs)).entries,
      ∃ a ∈ idx.entries, x.id = a.id ∧
        (x.raised b.blockNum).libKey = (a.raised b.blockNum).libKey := by
    intro x hx
    obtain ⟨a, ha, rfl⟩ := mem_modify.mp hx
    refine ⟨a, ha, ?_⟩
    split <;> exact ⟨rfl, rfl⟩
  have hnum : (b.confirmedBy cs).blockNum = b.blockNum := rfl
  have hroot : (b.confirmedBy cs).id = b.id := rfl
  unfold StaysFirst
  simp only [hnum, hroot, hreach, hid, hkey, hraised]
  rcases hst with ⟨h1, h2⟩ | ⟨h1, h2⟩
  · refine Or.inl ⟨h1, fun x hx hr hne => ?_⟩
    obtain ⟨a, ha, haid, hakey⟩ := hmem x hx
    rw [haid] at hr hne
    rw [hakey]
    exact h2 a ha hr hne
  · refine Or.inr ⟨h1, fun x hx hr => ?_⟩
    obtain ⟨a, ha, haid, hakey⟩ := hmem x hx
    rw [haid] at hr
    rw [hakey]
    exact h2 a ha hr

theorem Best.bftRaised (hbest : Best db) (hb : b ∈ db.index.entries)
    (hlt : b.bftIrreversibleBlocknum < b.blockNum) (hh : db.index.byLibBlockNum.head? = some h)
    (hst : StaysFirst db.index b h) :
    Best ({ db with index := Chain.bftRaised db.index b } : ForkDatabase Key Sig) := by
  obtain ⟨h', hh', hid⟩ := head_bftRaised hb hlt hh hst
  refine ⟨?_, fun y hy => ?_⟩
  · show db.headPtr = (Chain.bftRaised db.index b).firstPtr
    rw [hbest.head, firstPtr_of_head hh, firstPtr_of_head hh', hid]
  · obtain ⟨a, ha, ⟨-, rfl⟩ | ⟨-, rfl⟩⟩ := (mem_bftRaised hb).mp hy
    · have hs := hbest.shape a ha
      exact ⟨hs.1, hs.2, hs.3, hs.4, hs.5, hs.6⟩
    · exact hbest.shape y ha

theorem addConfirmation_eq_ok [DecidableEq Key] [Inhabited Key] {s r : BlockHeaderState Key Sig}
    {c : HeaderConfirmation Sig} (h : s.addConfirmation env c = .ok r) :
    r.confirmations = s.confirmations ++ [c] := by
  unfold BlockHeaderState.addConfirmation at h
  rw [assert_bind_eq_ok, assert_bind_eq_ok] at h
  obtain ⟨-, -, h⟩ := h
  obtain ⟨_, -, h⟩ := bind_eq_ok.mp h
  rw [assert_bind_eq_ok] at h
  cases h.2
  rfl

theorem Best.addConfirmation [DecidableEq Key] [Inhabited Key] {c : HeaderConfirmation Sig}
    (h : Best s.1) (hsafe : ConfirmationSafe s.1 c) (hok : addConfirmation env c s = .ok u t) :
    Best t.1 := by
  unfold ForkDatabase.addConfirmation at hok
  rw [get_bind] at hok
  cases hfind : s.1.index.find c.blockId with
  | none =>
    rw [hfind] at hok
    simp [Exec.lift] at hok
  | some b =>
    rw [hfind] at hok
    obtain ⟨hb, hid⟩ := find_eq_some_iff.mp hfind
    obtain ⟨hs, s', hlift, hok⟩ := Exec.bind_ok.mp hok
    obtain ⟨hadd, hs'⟩ := Exec.lift_ok.mp hlift
    obtain ⟨_, s1, hput, hok⟩ := Exec.bind_ok.mp hok
    cases hput
    rw [← hid] at hok
    have hbest : Best (s.1.modify b.id (confirmedBy hs.confirmations)
        (confirmedBy_id _)) :=
      h.modify (fun _ => rfl) fun _ hs => ⟨hs.1, hs.2, hs.3, hs.4, hs.5, hs.6⟩
    split at hok
    · rename_i hcomp
      obtain ⟨hlt, hquorum⟩ := of_decide_eq_true hcomp
      have hlen : hs.confirmations.length = b.confirmations.length + 1 := by
        rw [addConfirmation_eq_ok hadd, List.length_append, List.length_singleton]
      obtain ⟨a, hhead⟩ := exists_best hb
      have hst := hsafe b hfind hlt (le_of_le_of_eq hquorum hlen) a (by rw [h.head_eq, hhead])
      cases hok
      have hmem : b.confirmedBy hs.confirmations ∈ (s.1.index.modify b.id
          (confirmedBy hs.confirmations)
        (confirmedBy_id _)).entries :=
        mem_modify.mpr ⟨b, hb, (if_pos rfl).symm⟩
      have hfirst : (s.1.index.modify b.id (confirmedBy hs.confirmations)
          (confirmedBy_id _)).byLibBlockNum.head? =
            some (if a.id = b.id then a.confirmedBy hs.confirmations else a) := by
        have hkey : ∀ x : BlockState Key Sig,
            (x.confirmedBy hs.confirmations).libKey = x.libKey := fun _ => rfl
        rw [head_modify hkey, hhead]
        rfl
      refine hbest.bftRaised hmem hlt hfirst (hst.confirmed ?_ ?_ ?_) <;>
      · split <;> rfl
    · cases hok
      exact hbest

/-! ## Runs -/

/-- The operations of the class that change it. -/
inductive ForkOp (Key Sig : Type) where
  | set (s : BlockState Key Sig)
  | add (n : BlockState Key Sig) (skipValidatePrevious : Bool)
  | addBlock (b : SignedBlockHeader Key Sig) (skipValidateSignee : Bool)
  | remove (id : Sha256)
  | setValidity (h : BlockState Key Sig) (valid : Bool)
  | addConfirmation (c : HeaderConfirmation Sig)
  | prune (h : BlockState Key Sig)

namespace ForkOp

/-- Call an operation. -/
def run [Inhabited Sig] [DecidableEq Key] [Inhabited Key] (env : ChainEnv Key Sig)
    (irreversible : BlockState Key Sig → ForkM Key Sig β Unit) :
    ForkOp Key Sig → ForkM Key Sig β Unit
  | .set s => ForkDatabase.set env s
  | .add n skip => ForkDatabase.add irreversible n skip
  | .addBlock b skip => ForkDatabase.addBlock env irreversible b skip
  | .remove id => ForkDatabase.remove id
  | .setValidity h valid => ForkDatabase.setValidity h valid
  | .addConfirmation c => ForkDatabase.addConfirmation env c
  | .prune h => ForkDatabase.prune irreversible h

/-- When an operation keeps the head right. Of the states handed over it asks the bounds every header
state keeps; `set` needs the block numbers to order the new state and the head as `by_lib_block_num`
does, a confirmation must leave the head first, and `prune` is for a state of the lowest number
other than the head. -/
def Safe (db : ForkDatabase Key Sig) : ForkOp Key Sig → Prop
  | .set s => Shape s.toBlockHeaderState ∧
      ∀ h, db.head = some h → (h.blockNum < s.blockNum ↔ s.libKey < h.libKey)
  | .add n _ => Shape n.toBlockHeaderState
  | .addConfirmation c => ConfirmationSafe db c
  | .prune h => (∀ b ∈ db.index.entries, h.blockNum ≤ b.blockNum) ∧
      ∀ b, db.head = some b → b.id ≠ h.id
  | _ => True

variable [Inhabited Sig] [DecidableEq Key] [Inhabited Key]

/-- Every operation of the run is safe in the state it is called in. -/
def SafeAlong (env : ChainEnv Key Sig) (irreversible : BlockState Key Sig → ForkM Key Sig β Unit) :
    List (ForkOp Key Sig) → ForkDatabase Key Sig × β → Prop
  | [], _ => True
  | op :: ops, s => op.Safe s.1 ∧
      ∀ s', op.run env irreversible s = .ok () s' → SafeAlong env irreversible ops s'

/-- The step: a safe operation that returns leaves the head the first state. -/
theorem best_step {op : ForkOp Key Sig} (h : Best s.1) (hsafe : op.Safe s.1)
    (hok : op.run env (slots f) s = .ok u t) : Best t.1 := by
  cases op with
  | set n => exact h.set hsafe.1 hsafe.2 hok
  | add n skip => exact h.add hsafe hok
  | addBlock b skip => exact h.addBlock hok
  | remove i => exact h.remove hok
  | setValidity b valid => exact h.setValidity hok
  | addConfirmation c => exact h.addConfirmation hsafe hok
  | prune b => exact h.prune hsafe.1 hsafe.2 hok

theorem best_run : ∀ (ops : List (ForkOp Key Sig)) (s : ForkDatabase Key Sig × β), Best s.1 →
      SafeAlong env (slots f) ops s → ops.forM (run env (slots f)) s = .ok u t → Best t.1
  | [], s, h, _, hok => by
    cases hok
    exact h
  | op :: ops, s, h, hsafe, hok => by
    obtain ⟨_, s', hop, hok⟩ := Exec.bind_ok.mp hok
    exact best_run ops s' (best_step h hsafe.1 hop) (hsafe.2 s' hop) hok

end ForkOp

section Runs

variable [Inhabited Sig] [DecidableEq Key] [Inhabited Key]

/-- **The head of the fork database is its best block**: after every run of operations from an empty
database in which none throws and each is safe where it is called, `head()` is the first state of
`by_lib_block_num`, and no state has larger irreversible numbers and block number. -/
theorem head_is_best (env : ChainEnv Key Sig)
    (f : BlockState Key Sig → EStateM FcException β Unit) (ops : List (ForkOp Key Sig)) (x : β)
    (t : ForkDatabase Key Sig × β)
    (hrun : ops.forM (ForkOp.run env (slots f)) (ForkDatabase.empty, x) = .ok () t)
    (hsafe : ForkOp.SafeAlong env (slots f) ops (ForkDatabase.empty, x)) :
    t.1.head = t.1.index.byLibBlockNum.head? ∧ ∀ h, t.1.head = some h → ∀ b ∈ t.1.index.entries,
        toLex (b.dposIrreversibleBlocknum, toLex (b.bftIrreversibleBlocknum, b.blockNum)) ≤
          toLex (h.dposIrreversibleBlocknum, toLex (h.bftIrreversibleBlocknum, h.blockNum)) := by
  have hbest := ForkOp.best_run ops (ForkDatabase.empty, x)
    ⟨rfl, fun _ hb => absurd hb List.not_mem_nil⟩ hsafe hrun
  refine ⟨hbest.head_eq, fun h hh b hb => ?_⟩
  rw [hbest.head_eq] at hh
  exact OrderDual.toDual_le_toDual.mp
    (le_of_head? t.1.index.sortedLib hh b (mem_byLib.mpr hb))

end Runs

/-! ## Two runs -/

/-- Operations on an empty database without slots. -/
def toyOps (ops : List (ForkOp Nat Nat)) :
    EStateM.Result FcException (ForkDatabase Nat Nat × Unit) Unit :=
  ops.forM (ForkOp.run toyEnv (slots fun _ => pure ())) (ForkDatabase.empty, ())

/-- Two blocks 2 on the genesis block, and a confirmation of the second by the only producer: its BFT
number is then the highest, and the head is still the first block 2. -/
theorem head_not_best :
    (match toyOps [.set (toyRoot [1]), .addBlock (toyHeader 1 1 2 1 0 0 none) false,
        .addBlock (toyHeader 1 1 3 1 0 0 none) false,
        .addConfirmation ⟨toyId 2 3, 1, 1⟩] with
      | .ok _ t => some (t.1.head.map fun b => b.id, t.1.index.byLibBlockNum.head?.map fun b => b.id)
      | .error _ _ => none) =
      some (some (toyId 2 2), some (toyId 2 3)) := by
  decide

/-- A block 2, a confirmation of it, and its removal: the head is the genesis block again. -/
theorem head_is_best_removed :
    ∃ t, toyOps [.set (toyRoot [1, 2, 3]), .addBlock (toyHeader 1 1 2 3 0 0 none) false,
        .addConfirmation ⟨toyId 2 2, 1, 1⟩, .remove (toyId 2 2)] = .ok () t ∧
      t.1.head = t.1.index.byLibBlockNum.head? := by
  have hok : (match toyOps [.set (toyRoot [1, 2, 3]), .addBlock (toyHeader 1 1 2 3 0 0 none) false,
      .addConfirmation ⟨toyId 2 2, 1, 1⟩, .remove (toyId 2 2)] with
    | .ok _ _ => true
    | .error _ _ => false) = true := by decide
  have hquorum : (match toyOps [.set (toyRoot [1, 2, 3]),
      .addBlock (toyHeader 1 1 2 3 0 0 none) false] with
    | .ok _ t => t.1.index.entries.all fun b => decide
        (b.confirmations.length + 1 < b.activeSchedule.producers.length * 2 / 3 + 1)
    | .error _ _ => false) = true := by decide
  cases hrun : toyOps [.set (toyRoot [1, 2, 3]), .addBlock (toyHeader 1 1 2 3 0 0 none) false,
      .addConfirmation ⟨toyId 2 2, 1, 1⟩, .remove (toyId 2 2)] with
  | error e t =>
    rw [hrun] at hok
    simp at hok
  | ok u t =>
    refine ⟨t, rfl, (head_is_best toyEnv (fun _ => pure ()) _ () t hrun ⟨⟨?_, ?_⟩,
      fun s1 h1 => ⟨trivial, fun s2 h2 => ⟨?_, fun _ _ => ⟨trivial, fun _ _ => trivial⟩⟩⟩⟩).1⟩
    · exact Shape.genesis toyEnv (toyGenesis [1, 2, 3])
    · exact fun h hh => absurd hh (by simp [ForkDatabase.head, ForkDatabase.empty])
    · have hrun2 : toyOps [.set (toyRoot [1, 2, 3]),
          .addBlock (toyHeader 1 1 2 3 0 0 none) false] = .ok () s2 :=
        (Exec.bind_of_ok h1).trans ((Exec.bind_of_ok h2).trans rfl)
      rw [hrun2] at hquorum
      intro b hb _ hq
      exact absurd hq (not_le.mpr (of_decide_eq_true
        (List.all_eq_true.mp hquorum b (find_eq_some_iff.mp hb).1)))

end Forceio.Chain
