import Forceio.Chain.Transaction
import Forceio.Lib.Table

/-!
# The database operations: `chainbase::database`

Objects are created, changed and removed through the database, and found through their indices.
`TableOf σ α` says where the table of `α` is in a state `σ`.

* `create` throws if a unique index has the key of the new object.
* `get` throws for an unknown key; `find` gives a null pointer, `none`.
* A pointer to an object is the id of its row, and a dereferenced pointer the object under the id
  when it is read. A change to an object never changes the key of a unique index.
-/

namespace Forceio.Chain

open Forceio.Lib

/-- Where a table is in a state. -/
structure TableOf (σ α : Type) [Indexed α] where
  table : σ → Table α
  set : Table α → σ → σ
  table_set : ∀ t s, table (set t s) = t

namespace TableOf

variable {σ α : Type} [Indexed α] (T : TableOf σ α)

/-- `db.create`. -/
def create (a : α) : EStateM FcException σ Nat := fun s =>
  match (T.table s).create a with
  | some (n, t) => .ok n (T.set t s)
  | none => .error ⟨.logicError,
      "could not insert object, most likely a uniqueness constraint was violated"⟩ s

/-- `db.find`. -/
def find (p : α → Bool) : EStateM FcException σ (Option (Nat × α)) := fun s =>
  .ok ((T.table s).find? p) s

/-- `db.get`. -/
def get (p : α → Bool) : EStateM FcException σ (Nat × α) := fun s =>
  match (T.table s).find? p with
  | some r => .ok r s
  | none => .error ⟨.outOfRange, "unknown key"⟩ s

/-- The object a pointer points to. -/
def deref (n : Nat) : EStateM FcException σ α := fun s =>
  match (T.table s).get? n with
  | some a => .ok a s
  | none => .error ⟨.undefinedBehavior, "dangling pointer"⟩ s

/-- `db.modify`. -/
def modify (n : Nat) (f : α → α) (hf : Table.KeepsKeys f) : EStateM FcException σ Unit := fun s =>
  .ok () (T.set ((T.table s).update n f hf) s)

/-- `db.remove`. -/
def remove (n : Nat) : EStateM FcException σ Unit := fun s =>
  .ok () (T.set ((T.table s).remove n) s)

variable {T} {a : α} {n : Nat} {s s' : σ} {p : α → Bool} {r : Nat × α}

theorem create_eq_ok_iff : T.create a s = .ok n s' ↔
    ∃ t, (T.table s).create a = some (n, t) ∧ s' = T.set t s := by
  unfold create
  cases h : (T.table s).create a with
  | none => simp
  | some r =>
    obtain ⟨m, t⟩ := r
    simp only [EStateM.Result.ok.injEq, Option.some.injEq, Prod.mk.injEq]
    constructor
    · rintro ⟨rfl, rfl⟩
      exact ⟨t, ⟨rfl, rfl⟩, rfl⟩
    · rintro ⟨t', ⟨rfl, rfl⟩, rfl⟩
      exact ⟨rfl, rfl⟩

theorem get_eq_ok_iff : T.get p s = .ok r s' ↔ (T.table s).find? p = some r ∧ s' = s := by
  unfold get
  cases (T.table s).find? p with
  | none => simp
  | some r' =>
    simp only [EStateM.Result.ok.injEq, Option.some.injEq]
    exact and_congr_right fun _ => eq_comm

theorem deref_eq_ok_iff : T.deref n s = .ok a s' ↔ (n, a) ∈ (T.table s).rows ∧ s' = s := by
  rw [← Table.get?_eq_some]
  unfold deref
  cases (T.table s).get? n with
  | none => simp
  | some b =>
    simp only [EStateM.Result.ok.injEq, Option.some.injEq]
    exact and_congr_right fun _ => eq_comm

section Throws

variable {E : FcException → Prop}

theorem create_throws (h : E ⟨.logicError,
    "could not insert object, most likely a uniqueness constraint was violated"⟩) :
    Exec.Throws E (T.create a) s := by
  intro e s' he
  unfold create at he
  split at he
  · simp at he
  · cases he
    exact h

theorem get_throws (h : E ⟨.outOfRange, "unknown key"⟩) : Exec.Throws E (T.get p) s := by
  intro e s' he
  unfold get at he
  split at he
  · simp at he
  · cases he
    exact h

theorem deref_throws (h : (n, a) ∈ (T.table s).rows) : Exec.Throws E (T.deref n) s :=
  .of_ok (deref_eq_ok_iff.mpr ⟨h, rfl⟩)

end Throws

section Bind

variable {β : Type} {b : β}

theorem modify_bind {g : α → α} {hg : Table.KeepsKeys g} {f : Unit → EStateM FcException σ β} :
    (T.modify n g hg >>= f) s = f () (T.set ((T.table s).update n g hg) s) := rfl

theorem get_bind_ok {f : Nat × α → EStateM FcException σ β} : (T.get p >>= f) s = .ok b s' ↔
      ∃ r, (T.table s).find? p = some r ∧ f r s = .ok b s' :=
  Exec.read_bind_ok get_eq_ok_iff

theorem create_bind_ok {f : Nat → EStateM FcException σ β} (h : (T.create a >>= f) s = .ok b s') :
    ∃ n t, (T.table s).create a = some (n, t) ∧ f n (T.set t s) = .ok b s' := by
  obtain ⟨n, s1, h, hf⟩ := Exec.bind_ok.mp h
  obtain ⟨t, ht, rfl⟩ := create_eq_ok_iff.mp h
  exact ⟨n, t, ht, hf⟩

end Bind

end TableOf

end Forceio.Chain
