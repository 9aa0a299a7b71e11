import Forceio.Chain.IteratorCaches

/-!
# A contract changes its own tables and charges who consents

The database intrinsics of one action, run in one context from empty iterator caches. A contract
reads the tables of any account, but a successful call changes only tables whose code is the
receiver, and raises the RAM usage only of the receiver and of accounts that authorized the action.

* The intrinsic `db_store_i64` gives no code: it is the receiver's.
* A call of a run may find anything where a removed table was (see `previousRow`).

Result:
* `intrinsicRun_frame`: the frame, who pays, and no bad pointer, for every call of every run.
-/

namespace Forceio.Chain

open Forceio.Lib Exec ApplyState

/-! ## Frames -/

namespace TableLedger

/-- The table is there and has the given code. -/
def OwnedBy (l : TableLedger) (r : AccountName) (tid : Nat) : Prop :=
  ∃ t, (tid, t) ∈ l.tables.rows ∧ t.code = r

/-- **Only the tables of `r` change**: a row that is added, changed or removed belongs to a table of
`r` whenever it is there, and a table that is added, changed or removed is one of `r`. -/
structure Framed (r : AccountName) (l l' : TableLedger) : Prop where
  rows : ∀ k : RowKind, Table.ChangesOnly (fun o => l.OwnedBy r (k.tId o))
    (fun o => l'.OwnedBy r (k.tId o)) (l.rows k) (l'.rows k)
  tables : Table.ChangesOnly (fun t => t.code = r) (fun t => t.code = r) l.tables l'.tables

variable {l : TableLedger} {r : AccountName}

theorem Framed.refl (r : AccountName) (l : TableLedger) : l.Framed r l :=
  ⟨fun _ => .refl _, .refl _⟩

theorem Framed.charge {a : AccountName} {delta : Int} {l' : TableLedger} (h : l.Framed r l') :
    l.Framed r (l'.charge a delta) :=
  ⟨h.rows, h.tables⟩

theorem Framed.ofRows {tables : Table TableIdObject} {k : RowKind} {rows : Table k.Object}
    (hrows : Table.ChangesOnly (fun o => l.OwnedBy r (k.tId o))
      (fun o => ∃ t, (k.tId o, t) ∈ tables.rows ∧ t.code = r) (l.rows k) rows)
    (htables : Table.ChangesOnly (fun t => t.code = r) (fun t => t.code = r) l.tables tables) :
    l.Framed r ⟨tables, Function.update l.rows k rows, l.ram⟩ :=
  ⟨(Function.forall_update_iff l.rows _).mpr ⟨hrows, fun _ _ => .refl _⟩, htables⟩

end TableLedger

open TableLedger (Framed countUp countDown)

section Effects

variable {room : Nat × TableIdObject → Prop} {r : AccountName} {l l' : TableLedger}

/-- The five changes of a call stay within the tables of one account. -/
theorem LedgerEffect.framed (h : LedgerEffect room r l l') : l.Framed r l' := by
  cases h with
  | @stored k tid n t o rows mem own fits tabled create =>
    subst tabled
    exact .charge (.ofRows (.create create ⟨t.incCount, mem_countUp mem, own⟩)
      (.update mem own own))
  | @storedFirst k tid n t o tables rows createTable own zero tabled create =>
    subst tabled
    have mem : (k.tId o, t) ∈ tables.rows := (Table.mem_create createTable).mpr (.inr rfl)
    exact .charge (.charge (.ofRows (.create create ⟨t.incCount, mem_countUp mem, own⟩)
      (.trans (.create createTable own) (.update mem own own))))
  | @changed k n o t f hf mem memTable own tabled =>
    refine .charge (.charge (.ofRows (.update mem ⟨t, memTable, own⟩ ?_) (.refl _)))
    exact ⟨t, tabled ▸ memTable, own⟩
  | @dropped k n o t mem memTable own more =>
    exact .charge (.ofRows (.remove mem ⟨t, memTable, own⟩) (.update memTable own own))
  | @droppedLast k n o t mem memTable own last =>
    exact .charge (.charge (.ofRows (.remove mem ⟨t, memTable, own⟩) (.trans
      (.update memTable own own) (.remove (mem_countDown memTable) own))))

end Effects

/-! ## Consent -/

section Consent

variable {Key : Type} [LinearOrder Key] {α : Type} (ctx : ApplyContext Key)

/-- The account runs the code, or has authorized the action. -/
def Consents (a : AccountName) : Prop :=
  a = ctx.receiver ∨ ∃ auth ∈ ctx.act.authorization, auth.actor = a

/-- The RAM usage of accounts that did not consent does not grow. -/
def NoGrowth (s s' : ApplyState Key) : Prop :=
  ∀ a, ¬ Consents ctx a → s'.db.resources.ramOf a ≤ s.db.resources.ramOf a

variable {ctx}

theorem NoGrowth.of_resources {s s' : ApplyState Key} (h : s'.db.resources = s.db.resources) :
    NoGrowth ctx s s' := fun a _ => by rw [h]

variable (hpriv : ctx.privileged = false)

include hpriv in
/-- **Charging needs consent**: only an account that consented is charged. -/
theorem updateDbUsage_noGrowth (payer : AccountName) (delta : Int) :
    Exec.Always (NoGrowth ctx) (updateDbUsage ctx payer delta) := by
  intro s u s' h a ha
  have hram := congrFun (congrArg TableLedger.ram (updateDbUsage_ledger h)) a
  have hram' : s'.db.resources.ramOf a =
      s.db.resources.ramOf a + if payer = a then delta else 0 := hram
  rw [hram']
  by_cases hpayer : payer = a
  · subst hpayer
    rw [if_pos rfl]
    by_cases hdelta : delta > 0
    · -- a charge: the payer is not the receiver, so the action needs its authorization
      unfold updateDbUsage at h
      have hguard : delta > 0 ∧ ¬ (ctx.privileged = true ∨ payer = ctx.receiver) :=
        ⟨hdelta, fun hor => hor.elim (by simp [hpriv]) fun heq => ha (.inl heq)⟩
      rw [if_pos hguard] at h
      obtain ⟨-, h⟩ := require_bind_ok.mp h
      obtain ⟨v, t, hauth, -⟩ := bind_ok.mp h
      exact absurd (.inr (requireAuthorization_spec hauth).1) ha
    · omega
  · rw [if_neg hpayer, add_zero]

include hpriv in
theorem noGrowth_tableRelation : TableRelation ctx (NoGrowth ctx) where
  refl := fun _ _ _ => le_rfl
  trans := fun h h' a ha => (h' a ha).trans (h a ha)
  charge := updateDbUsage_noGrowth hpriv
  tables _ _ := .of_resources rfl
  rows k _ _ := .of_resources (by cases k <;> rfl)

include hpriv in
theorem TableCall.noGrowth (call : TableCall) : Exec.Always (NoGrowth ctx) (call.run ctx) :=
  (noGrowth_tableRelation hpriv).tableCall
    (fun k c s => .of_resources (by rw [setCache_db])) call

end Consent

/-! ## Intrinsics -/

/-- A database intrinsic. -/
inductive DbIntrinsic where
  | dbStoreI64 (scope table payer : AccountName) (id : UInt64) (buffer : Bytes)
  | dbUpdateI64 (iterator : Int) (payer : AccountName) (buffer : Bytes)
  | dbRemoveI64 (iterator : Int)
  | indexStore (k : IndexKind) (scope table payer : AccountName) (id : UInt64)
      (value : k.SecondaryKey)
  | indexUpdate (k : IndexKind) (iterator : Int) (payer : AccountName) (secondary : k.SecondaryKey)
  | indexRemove (k : IndexKind) (iterator : Int)
  | lookup (k : RowKind) (call : Lookup k)

section Intrinsics

variable {Key : Type} [LinearOrder Key] {ctx : ApplyContext Key} {danglingId : Nat → Nat}

namespace DbIntrinsic

/-- Run an intrinsic. -/
def run (ctx : ApplyContext Key) (danglingId : Nat → Nat) : DbIntrinsic → ApplyM Key Unit
  | .dbStoreI64 scope table payer id buffer => do
    let _ ← Forceio.Chain.dbStoreI64 ctx scope table payer id buffer
  | .dbUpdateI64 iterator payer buffer => Forceio.Chain.dbUpdateI64 ctx iterator payer buffer
  | .dbRemoveI64 iterator => Forceio.Chain.dbRemoveI64 ctx iterator
  | .indexStore k scope table payer id value => do
    let _ ← Forceio.Chain.indexStore ctx k scope table payer id value
  | .indexUpdate k iterator payer secondary =>
    Forceio.Chain.indexUpdate ctx k iterator payer secondary
  | .indexRemove k iterator => Forceio.Chain.indexRemove ctx k iterator
  | .lookup _ call => do
    let _ ← call.run danglingId

/-- An intrinsic changes tables of the receiver or only looks rows up. -/
theorem run_cases (ctx : ApplyContext Key) (danglingId : Nat → Nat) (call : DbIntrinsic) :
    (∃ tc : TableCall, call.run ctx danglingId = tc.run ctx ∧ tc.owner ctx = ctx.receiver) ∨
      ∃ (k : RowKind) (l : Lookup k), call.run ctx danglingId = (do let _ ← l.run danglingId) := by
  cases call with
  | dbStoreI64 scope table payer id buffer =>
    exact .inl ⟨.dbStoreI64 ctx.receiver scope table payer id buffer, rfl, rfl⟩
  | dbUpdateI64 iterator payer buffer => exact .inl ⟨.dbUpdateI64 iterator payer buffer, rfl, rfl⟩
  | dbRemoveI64 iterator => exact .inl ⟨.dbRemoveI64 iterator, rfl, rfl⟩
  | indexStore k scope table payer id value =>
    exact .inl ⟨.indexStore k scope table payer id value, rfl, rfl⟩
  | indexUpdate k iterator payer secondary =>
    exact .inl ⟨.indexUpdate k iterator payer secondary, rfl, rfl⟩
  | indexRemove k iterator => exact .inl ⟨.indexRemove k iterator, rfl, rfl⟩
  | lookup k call => exact .inr ⟨k, call, rfl⟩

variable {s s' : ApplyState Key} (call : DbIntrinsic)

/-- A successful intrinsic is a call that changes tables of the receiver, or a lookup. -/
theorem effect (h : call.run ctx danglingId s = .ok () s') :
    (∃ tc : TableCall, tc.run ctx s = .ok () s' ∧ tc.owner ctx = ctx.receiver) ∨ LooksUp s s' := by
  rcases run_cases ctx danglingId call with ⟨tc, hrun, howner⟩ | ⟨k, l, hrun⟩
  · exact .inl ⟨tc, hrun ▸ h, howner⟩
  · rw [hrun] at h
    obtain ⟨p, t, hl, hlast⟩ := bind_ok.mp h
    cases hlast
    exact .inr (l.looks.ok hl)

theorem framed (h : call.run ctx danglingId s = .ok () s') :
    s.db.ledger.Framed ctx.receiver s'.db.ledger := by
  rcases call.effect h with ⟨tc, hrun, howner⟩ | hlooks
  · have heffect : LedgerEffect (fun _ => True) (tc.owner ctx) s.db.ledger s'.db.ledger :=
      tc.effect hrun fun _ _ => trivial
    rw [← howner]
    exact heffect.framed
  · rw [hlooks.db]
    exact .refl _ _

theorem noGrowth (hpriv : ctx.privileged = false) (h : call.run ctx danglingId s = .ok () s') :
    NoGrowth ctx s s' := by
  rcases call.effect h with ⟨tc, hrun, -⟩ | hlooks
  · exact tc.noGrowth hpriv hrun
  · exact .of_resources (by rw [hlooks.db])

theorem change (h : call.run ctx danglingId s = .ok () s') (k : RowKind) : RowChange s s' k := by
  rcases call.effect h with ⟨tc, hrun, -⟩ | hlooks
  · exact tc.change hrun k
  · exact hlooks.change k

theorem validCaches (hs : ValidCaches s) (h : call.run ctx danglingId s = .ok () s') :
    ValidCaches s' := fun k => (call.change h k).valid (hs k)

theorem named (hs : ValidCaches s) (hl : s.db.ledger.Consistent) :
    Exec.Throws FcException.Named (call.run ctx danglingId) s := by
  rcases run_cases ctx danglingId call with ⟨tc, hrun, -⟩ | ⟨k, l, hrun⟩
  · rw [hrun]
    exact tc.named hs hl
  · rw [hrun]
    exact .bind (l.looks.named hs) fun _ _ _ => .of_ok rfl

end DbIntrinsic

/-! ## Runs -/

/-- **A run of successful intrinsics** in one context. -/
inductive IntrinsicRun (ctx : ApplyContext Key) :
    ApplyState Key → List DbIntrinsic → ApplyState Key → Prop
  | nil (s : ApplyState Key) : IntrinsicRun ctx s [] s
  | cons {s t s' : ApplyState Key} {danglingId : Nat → Nat} {call : DbIntrinsic}
      {calls : List DbIntrinsic} (step : call.run ctx danglingId s = .ok () t)
      (rest : IntrinsicRun ctx t calls s') : IntrinsicRun ctx s (call :: calls) s'

/-- The caches are empty, as when an action starts. -/
def NoIterators (s : ApplyState Key) : Prop := ∀ k, s.cache k = {}

variable {s0 s : ApplyState Key} {calls : List DbIntrinsic}

omit [LinearOrder Key] in
theorem NoIterators.validCaches (h : NoIterators s) : ValidCaches s := by
  intro k
  rw [h k]
  exact ⟨fun n hn => absurd hn List.not_mem_nil, fun n => Nat.zero_le _⟩

theorem IntrinsicRun.validCaches (h : IntrinsicRun ctx s0 calls s) (hs : ValidCaches s0) :
    ValidCaches s := by
  induction h with
  | nil s => exact hs
  | cons step rest ih => exact ih (DbIntrinsic.validCaches _ hs step)

/-- **A contract keeps to its own tables and to who consents**: at any point of a run from empty
caches by a receiver that is not privileged, a call that does not throw adds, changes and removes
only rows of the receiver's tables, and the accounts whose RAM usage it raises have authorized the
action, the receiver apart. No call reads through a bad pointer while the ledger is consistent. -/
theorem intrinsicRun_frame (hpriv : ctx.privileged = false) (hstart : NoIterators s0)
    (hrun : IntrinsicRun ctx s0 calls s) (call : DbIntrinsic) (danglingId : Nat → Nat) :
    (∀ s', call.run ctx danglingId s = .ok () s' → s.db.ledger.Framed ctx.receiver s'.db.ledger ∧
        ∀ a, a ≠ ctx.receiver → s.db.resources.ramOf a < s'.db.resources.ramOf a →
          ∃ auth ∈ ctx.act.authorization, auth.actor = a) ∧
      (s.db.ledger.Consistent →
        ∀ e s', call.run ctx danglingId s = .error e s' → e.type ≠ .undefinedBehavior) := by
  have hs : ValidCaches s := hrun.validCaches hstart.validCaches
  refine ⟨fun s' h => ⟨call.framed h, fun a ha hgrown => ?_⟩, fun hl e s' h => ?_⟩
  · by_contra hauth
    have hno : ¬ Consents ctx a := fun hc => hc.elim ha hauth
    exact absurd (call.noGrowth hpriv h a hno) (not_le.mpr hgrown)
  · exact call.named hs hl h

end Intrinsics

/-! ## The contract looks at its table -/

section Sample

/-- A row is stored, found and changed. -/
def contractIntrinsics : List DbIntrinsic :=
  [.dbStoreI64 contract contract contract 7 [1, 2, 3],
    .lookup .keyValue (.find contract contract contract (.primary 7)), .dbUpdateI64 0 0 [4]]

/-- The state after the first intrinsics. -/
def intrinsicState : Nat → ApplyState Nat
  | 0 => .start (contractOnly 0) contractCtx.act
  | i + 1 => stateOf
      ((contractIntrinsics.getD i (.dbRemoveI64 0)).run contractCtx id (intrinsicState i))

theorem contractIntrinsics_run :
    IntrinsicRun contractCtx (intrinsicState 0) contractIntrinsics (intrinsicState 3) :=
  .cons (t := intrinsicState 1) (eq_ok_of_thrown (by decide +kernel)) <|
  .cons (t := intrinsicState 2) (eq_ok_of_thrown (by decide +kernel)) <|
  .cons (t := intrinsicState 3) (eq_ok_of_thrown (by decide +kernel)) <|
  .nil _

theorem intrinsicRun_frame_contract :
    (DbIntrinsic.dbRemoveI64 0).run contractCtx id (intrinsicState 3) = .ok () (intrinsicState 4) ∧
      (intrinsicState 3).db.ledger.Framed contract (intrinsicState 4).db.ledger := by
  have hok : (DbIntrinsic.dbRemoveI64 0).run contractCtx id (intrinsicState 3) =
      .ok () (intrinsicState 4) := eq_ok_of_thrown (by decide +kernel)
  have hframe := intrinsicRun_frame rfl (fun k => by cases k <;> rfl) contractIntrinsics_run
    (.dbRemoveI64 0) id
  exact ⟨hok, (hframe.1 _ hok).1⟩

end Sample

end Forceio.Chain
