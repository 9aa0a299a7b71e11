import Forceio.Chain.ContractTables

/-!
# Looking rows up: `apply_context.hpp`, `apply_context.cpp`

`db_get_i64`, `db_find_i64`, `db_lowerbound_i64`, `db_upperbound_i64`, `db_end_i64`, `db_next_i64`
and `db_previous_i64`, and their counterparts in `generic_index`. They read the tables of any
account and change nothing but an iterator cache.

* The rows of a kind are ordered by table and primary key, those of a secondary index also by table,
  secondary key and primary key. The functions of the six kinds and two orders are one function each.
* `primary` and `secondary` are handed back through references, with the keys of the row the
  returned iterator stands for: the functions here return that row.
* An end iterator of a table that is gone still points to where the table was. `previous` reads an
  id there before it looks at anything else; `danglingId` says which.
-/

namespace Forceio.Chain

open Forceio.Lib Exec

/-! ## Orders -/

/-- `f64_lt` and `f128_lt`: `exponent` bits of exponent, a sign bit in front. -/
def softLess {w : Nat} (exponent : Nat) (a b : BitVec w) : Bool :=
  let sign (x : BitVec w) : Bool := 2 ^ (w - 1) ≤ x.toNat
  let magnitude (x : BitVec w) : Nat := x.toNat % 2 ^ (w - 1)
  let isNaN (x : BitVec w) : Bool := (2 ^ exponent - 1) * 2 ^ (w - 1 - exponent) < magnitude x
  if isNaN a || isNaN b then false
  else if sign a = sign b then a ≠ b && (sign a ^^ decide (a < b))
  else sign a && (magnitude a ≠ 0 || magnitude b ≠ 0)

/-- `SecondaryKeyLess`. -/
def IndexKind.less : (k : IndexKind) → k.SecondaryKey → k.SecondaryKey → Bool
  | .idx64, a, b => a < b
  | .idx128, a, b => a < b
  | .idx256, a, b => a.1 < b.1 || (a.1 = b.1 && a.2 < b.2)
  | .idxDouble, a, b => softLess 11 a b
  | .idxLongDouble, a, b => softLess 15 a b

namespace RowKind

/-- The secondary keys of a kind: primary rows have none. -/
abbrev SecondaryKey : RowKind → Type
  | .keyValue => Empty
  | .index k => k.SecondaryKey

/-- `primary_key`. -/
def primaryKey : (k : RowKind) → k.Object → UInt64
  | .keyValue, o => o.primaryKey
  | .index _, o => o.primaryKey

/-- Whether the secondary key of a row is less than a given one. -/
def secondaryLess : (k : RowKind) → k.Object → k.SecondaryKey → Bool
  | .keyValue, _, _ => false
  | .index k, o, value => k.less o.secondaryKey value

/-- Whether a given secondary key is less than that of a row. -/
def lessSecondary : (k : RowKind) → k.SecondaryKey → k.Object → Bool
  | .keyValue, _, _ => false
  | .index k, value, o => k.less value o.secondaryKey

/-- Whether a row comes before another by secondary key, then by primary key. -/
def bySecondary : (k : RowKind) → k.Object → k.Object → Bool
  | .keyValue, a, b => a.primaryKey < b.primaryKey
  | .index k, a, b => k.less a.secondaryKey b.secondaryKey ||
      (!k.less b.secondaryKey a.secondaryKey && a.primaryKey < b.primaryKey)

end RowKind

/-- The ordered indices of a kind. -/
inductive RowOrder where
  | primary
  | secondary
  deriving DecidableEq

/-- What is looked for in an index. -/
inductive RowKey (k : RowKind) where
  | primary (id : UInt64)
  | secondary (value : k.SecondaryKey)

section Orders

variable {k : RowKind}

/-- The index a key is looked for in. -/
def RowKey.order : RowKey k → RowOrder
  | .primary _ => .primary
  | .secondary _ => .secondary

/-- A row comes before another in an index. -/
def rowBefore (order : RowOrder) (a b : k.Object) : Bool :=
  k.tId a < k.tId b || (k.tId a = k.tId b &&
    match order with
    | .primary => decide (k.primaryKey a < k.primaryKey b)
    | .secondary => k.bySecondary a b)

/-- A row comes before a key of a table. -/
def rowBeforeKey (tid : Nat) (key : RowKey k) (o : k.Object) : Bool :=
  k.tId o < tid || (k.tId o = tid &&
    match key with
    | .primary id => decide (k.primaryKey o < id)
    | .secondary value => k.secondaryLess o value)

/-- A row comes after a key of a table. -/
def rowAfterKey (tid : Nat) (key : RowKey k) (o : k.Object) : Bool :=
  tid < k.tId o || (k.tId o = tid &&
    match key with
    | .primary id => decide (id < k.primaryKey o)
    | .secondary value => k.lessSecondary value o)

/-- The first row, by `before`, that has the property. -/
def firstRow (before : k.Object → k.Object → Bool) (p : k.Object → Bool) :
    List (Nat × k.Object) → Option (Nat × k.Object)
  | [] => none
  | r :: rows =>
    match firstRow before p rows with
    | none => if p r.2 then some r else none
    | some best => if p r.2 && before r.2 best.2 then some r else some best

theorem of_firstRow {before : k.Object → k.Object → Bool} {p : k.Object → Bool} :
    ∀ {rows : List (Nat × k.Object)} {r : Nat × k.Object}, firstRow before p rows = some r →
      r ∈ rows ∧ p r.2
  | [], r, h => absurd h (by simp [firstRow])
  | r' :: rows, r, h => by
    unfold firstRow at h
    cases hrest : firstRow before p rows with
    | none =>
      simp only [hrest] at h
      split at h
      · rw [← Option.some.inj h]
        exact ⟨List.mem_cons_self, ‹_›⟩
      · simp at h
    | some best =>
      simp only [hrest, Bool.and_eq_true] at h
      split at h
      · rw [← Option.some.inj h]
        exact ⟨List.mem_cons_self, And.left ‹_›⟩
      · rw [← Option.some.inj h]
        exact (of_firstRow hrest).imp_left (List.mem_cons_of_mem _)

end Orders

/-! ## Lookups -/

section Lookups

variable {Key : Type} [LinearOrder Key] {k : RowKind}

namespace IteratorCache

/-- `get_end_iterator_by_table_id`. -/
def getEndIteratorByTableId (c : IteratorCache) (tid : Nat) : Except FcException Int :=
  if tid ∈ c.tables then .ok (-(c.tables.idxOf tid + 2))
  else .error ⟨.tableNotInCache, "an invariant was broken, table should be in cache"⟩

/-- `find_table_by_end_iterator`: the id of the table the pointer was taken of. -/
def findTableByEndIterator (c : IteratorCache) (iterator : Int) :
    Except FcException (Option Nat) := do
  eosAssert (iterator < -1) .invalidTableIterator "not an end iterator"
  pure (c.tables[(-iterator - 2).toNat]?)

end IteratorCache

/-- Hand back a row: cache it and return its iterator. -/
def handBack (k : RowKind) (r : Nat × k.Object) : ApplyM Key (Int × Option k.Object) := do
  let s ← get
  let (iterator, cache) := (s.cache k).add r.1
  set (s.setCache k cache)
  pure (iterator, some r.2)

/-- `cache_table`. -/
def cacheTable (k : RowKind) (tid : Nat) : ApplyM Key Int := do
  let s ← get
  let (iterator, cache) := (s.cache k).cacheTable tid
  set (s.setCache k cache)
  pure iterator

/-- Search a table for a row: `-1` without the table, its end iterator without the row. -/
def searchTable (k : RowKind) (code scope table : AccountName)
    (search : Nat → List (Nat × k.Object) → Option (Nat × k.Object)) :
    ApplyM Key (Int × Option k.Object) := do
  let s ← get
  match s.db.findTable code scope table with
  | none => pure (-1, none)
  | some (tid, _) => do
    let tableEnd ← cacheTable k tid
    match search tid (s.db.rows k).rows with
    | none => pure (tableEnd, none)
    | some r => if k.tId r.2 = tid then handBack k r else pure (tableEnd, none)

/-- `db_find_i64`, `find_primary`, `find_secondary`. -/
def findRow (code scope table : AccountName) (key : RowKey k) : ApplyM Key (Int × Option k.Object) :=
  searchTable k code scope table fun tid =>
    firstRow (rowBefore key.order) fun o => !rowBeforeKey tid key o && !rowAfterKey tid key o

/-- `db_lowerbound_i64`, `lowerbound_primary`, `lowerbound_secondary`. -/
def lowerboundRow (code scope table : AccountName) (key : RowKey k) :
    ApplyM Key (Int × Option k.Object) :=
  searchTable k code scope table fun tid =>
    firstRow (rowBefore key.order) fun o => !rowBeforeKey tid key o

/-- `db_upperbound_i64`, `upperbound_primary`, `upperbound_secondary`. -/
def upperboundRow (code scope table : AccountName) (key : RowKey k) :
    ApplyM Key (Int × Option k.Object) :=
  searchTable k code scope table fun tid =>
    firstRow (rowBefore key.order) fun o => rowAfterKey tid key o

/-- `db_end_i64`, `end_secondary`. -/
def endRow (k : RowKind) (code scope table : AccountName) : ApplyM Key (Int × Option k.Object) :=
  searchTable k code scope table fun _ _ => none

/-- `db_next_i64`, `next_primary`, `next_secondary`. -/
def nextRow (k : RowKind) (order : RowOrder) (iterator : Int) :
    ApplyM Key (Int × Option k.Object) :=
  if iterator < -1 then pure (-1, none)
  else do
    let (_, obj) ← cachedRow k iterator
    let s ← get
    match firstRow (rowBefore order) (rowBefore order obj) (s.db.rows k).rows with
    | some r =>
      if k.tId r.2 = k.tId obj then handBack k r
      else do
        let tableEnd ← lift ((s.cache k).getEndIteratorByTableId (k.tId obj))
        pure (tableEnd, none)
    | none => do
      let tableEnd ← lift ((s.cache k).getEndIteratorByTableId (k.tId obj))
      pure (tableEnd, none)

/-- Step back to a row of a table. -/
def stepBack (k : RowKind) (order : RowOrder) (tid : Nat) (before : k.Object → Bool) :
    ApplyM Key (Int × Option k.Object) := do
  let s ← get
  match firstRow (fun a b => rowBefore order b a) before (s.db.rows k).rows with
  | none => pure (-1, none)
  | some r => if k.tId r.2 = tid then handBack k r else pure (-1, none)

/-- `db_previous_i64`, `previous_primary`, `previous_secondary`. -/
def previousRow (danglingId : Nat → Nat) (k : RowKind) (order : RowOrder) (iterator : Int) :
    ApplyM Key (Int × Option k.Object) :=
  if iterator < -1 then do
    let s ← get
    match ← lift ((s.cache k).findTableByEndIterator iterator) with
    | none => lift (.error ⟨.invalidTableIterator, "not a valid end iterator"⟩)
    | some cached =>
      let tid := if (s.db.tables.get? cached).isSome then cached else danglingId cached
      stepBack k order tid fun o => k.tId o ≤ tid
  else do
    let (_, obj) ← cachedRow k iterator
    stepBack k order (k.tId obj) fun o => rowBefore order o obj

/-- `db_get_i64`, `get`. -/
def getRow (k : RowKind) (iterator : Int) : ApplyM Key (Int × Option k.Object) := do
  let (_, obj) ← cachedRow k iterator
  pure (iterator, some obj)

/-- A call that looks a row up. -/
inductive Lookup (k : RowKind) where
  | find (code scope table : AccountName) (key : RowKey k)
  | lowerbound (code scope table : AccountName) (key : RowKey k)
  | upperbound (code scope table : AccountName) (key : RowKey k)
  | endOf (code scope table : AccountName)
  | next (order : RowOrder) (iterator : Int)
  | previous (order : RowOrder) (iterator : Int)
  | get (iterator : Int)

/-- Run a lookup. -/
def Lookup.run (danglingId : Nat → Nat) : Lookup k → ApplyM Key (Int × Option k.Object)
  | .find code scope table key => findRow code scope table key
  | .lowerbound code scope table key => lowerboundRow code scope table key
  | .upperbound code scope table key => upperboundRow code scope table key
  | .endOf code scope table => endRow k code scope table
  | .next order iterator => nextRow k order iterator
  | .previous order iterator => previousRow danglingId k order iterator
  | .get iterator => getRow k iterator

end Lookups

end Forceio.Chain
