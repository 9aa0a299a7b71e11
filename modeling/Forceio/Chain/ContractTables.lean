import Forceio.Chain.ApplyContext

/-!
# Contract tables: `apply_context.hpp`, `apply_context.cpp`

`db_store_i64`, `db_update_i64` and `db_remove_i64`, and `store`, `update` and `remove` of
`generic_index`, with the iterator caches and the billing they share.

* `RowKind` is the kind of a row: a primary row or a row of one of the five secondary indices.
* A buffer is shorter than `2 ^ 63`: sizes do not wrap. `table_id_object::count` is a `uint32_t`.
-/

namespace Forceio.Chain

open Forceio.Lib Database

/-! ## Kinds of rows -/

instance : Fintype IndexKind where
  elems := {.idx64, .idx128, .idx256, .idxDouble, .idxLongDouble}
  complete k := by cases k <;> decide

/-- Primary rows, and the rows of a secondary index. -/
inductive RowKind where
  | keyValue
  | index (k : IndexKind)
  deriving DecidableEq

instance : Fintype RowKind where
  elems := insert .keyValue (Finset.univ.image .index)
  complete k := by cases k <;> simp

namespace RowKind

/-- The objects of a kind. -/
abbrev Object : RowKind → Type
  | .keyValue => KeyValueObject
  | .index k => IndexObject k

instance : (k : RowKind) → Indexed k.Object
  | .keyValue => inferInstanceAs (Indexed KeyValueObject)
  | .index k => inferInstanceAs (Indexed (IndexObject k))

/-- `t_id`. -/
def tId : (k : RowKind) → k.Object → Nat
  | .keyValue, o => o.tId
  | .index _, o => o.tId

/-- `payer`. -/
def payer : (k : RowKind) → k.Object → AccountName
  | .keyValue, o => o.payer
  | .index _, o => o.payer

/-- What a row is billed. -/
def size : (k : RowKind) → k.Object → Int
  | .keyValue, o => o.value.length + keyValueObjectSize
  | .index k, _ => k.objectSize

theorem size_nonneg : (k : RowKind) → (o : k.Object) → 0 ≤ k.size o
  | .keyValue, _ => Int.natCast_nonneg (_ + _)
  | .index _, _ => Int.natCast_nonneg _

end RowKind

section Tables

variable {Key : Type}

/-- The table of the rows of a kind. -/
def Database.rows (db : Database Key) : (k : RowKind) → Table k.Object
  | .keyValue => db.keyValues
  | .index k => db.indices k

/-- Where the rows of a kind are. -/
def Database.rowsTable : (k : RowKind) → TableOf (Database Key) k.Object
  | .keyValue => keyValuesTable
  | .index k => indexTable k

/-- The iterator cache of a kind. -/
def ApplyState.cache (s : ApplyState Key) : RowKind → IteratorCache
  | .keyValue => s.keyvalCache
  | .index k => s.indexCaches k

/-- Change the iterator cache of a kind. -/
def ApplyState.setCache (k : RowKind) (c : IteratorCache) (s : ApplyState Key) : ApplyState Key :=
  match k with
  | .keyValue => { s with keyvalCache := c }
  | .index k => { s with indexCaches := Function.update s.indexCaches k c }

theorem Database.rowsTable_table (k : RowKind) (db : Database Key) :
    (rowsTable k).table db = db.rows k := by
  cases k <;> rfl

theorem ApplyState.setCache_db (k : RowKind) (c : IteratorCache) (s : ApplyState Key) :
    (s.setCache k c).db = s.db := by
  cases k <;> rfl

theorem ApplyState.setCache_cache (k : RowKind) (c : IteratorCache) (s : ApplyState Key) :
    (s.setCache k c).cache = Function.update s.cache k c := by
  funext k'
  by_cases hk : k' = k
  · subst hk
    rw [Function.update_self]
    cases k' with
    | keyValue => rfl
    | index i => exact Function.update_self i c s.indexCaches
  · rw [Function.update_of_ne hk]
    cases k with
    | keyValue =>
      cases k' with
      | keyValue => exact absurd rfl hk
      | index j => rfl
    | index i =>
      cases k' with
      | keyValue => rfl
      | index j => exact Function.update_of_ne (fun heq => hk (congrArg RowKind.index heq)) _ _

end Tables

/-! ## Iterator caches -/

namespace IteratorCache

variable (c : IteratorCache)

/-- `cache_table`: its end iterator. -/
def cacheTable (tid : Nat) : Int × IteratorCache :=
  if tid ∈ c.tables then (-(c.tables.idxOf tid + 2), c)
  else (-(c.tables.length + 2), { c with tables := c.tables ++ [tid] })

/-- `get`: the id of the row. -/
def get (iterator : Int) : Except FcException Nat := do
  eosAssert (iterator ≠ -1) .invalidTableIterator "invalid iterator"
  eosAssert (iterator ≥ 0) .tableOperationNotPermitted "dereference of end iterator"
  eosAssert (iterator < c.iteratorToObject.length) .invalidTableIterator "iterator out of range"
  match c.iteratorToObject.getD iterator.toNat none with
  | some n => pure n
  | none => throw ⟨.tableOperationNotPermitted, "dereference of deleted object"⟩

/-- `remove`. -/
def remove (iterator : Int) : Except FcException IteratorCache := do
  eosAssert (iterator ≠ -1) .invalidTableIterator "invalid iterator"
  eosAssert (iterator ≥ 0) .tableOperationNotPermitted "cannot call remove on end iterators"
  eosAssert (iterator < c.iteratorToObject.length) .invalidTableIterator "iterator out of range"
  pure { c with iteratorToObject := c.iteratorToObject.set iterator.toNat none }

/-- `add`. -/
def add (n : Nat) : Int × IteratorCache :=
  if some n ∈ c.iteratorToObject then (c.iteratorToObject.idxOf (some n), c)
  else (c.iteratorToObject.length, { c with iteratorToObject := c.iteratorToObject ++ [some n] })

end IteratorCache

section Calls

variable {Key : Type} [LinearOrder Key] (ctx : ApplyContext Key)

open Database (tablesTable rowsTable)
open ApplyState (onDb addRamUsage requireAuthorization)

/-! ## Billing -/

/-- `update_db_usage`: others than the receiver are charged with their authorization only. -/
def updateDbUsage (payer : AccountName) (delta : Int) : ApplyM Key Unit :=
  if delta > 0 ∧ ¬ (ctx.privileged = true ∨ payer = ctx.receiver) then do
    require (ctx.control.isRamBillingInNotifyAllowed = true ∨ ctx.receiver = ctx.act.account)
      .subjectiveBlockProductionException "Cannot charge RAM to other accounts during notify."
    requireAuthorization ctx payer
    addRamUsage payer delta
  else addRamUsage payer delta

/-- The table of a code, scope and name. -/
def Database.findTable (db : Database Key) (code scope table : AccountName) :
    Option (Nat × TableIdObject) :=
  db.tables.find? fun t => t.code = code && t.scope = scope && t.table = table

/-- `find_or_create_table`; the table is given by its id. -/
def findOrCreateTable (code scope table payer : AccountName) : ApplyM Key Nat := do
  let s ← get
  match s.db.findTable code scope table with
  | some (tid, _) => pure tid
  | none => do
    updateDbUsage ctx payer tableIdObjectSize
    onDb (tablesTable.create { code := code, scope := scope, table := table, payer := payer })

/-- `remove_table`. -/
def removeTable (tid : Nat) (t : TableIdObject) : ApplyM Key Unit := do
  updateDbUsage ctx t.payer (-tableIdObjectSize)
  onDb (tablesTable.remove tid)

/-! ## Rows -/

/-- The row an iterator stands for. -/
def cachedRow (k : RowKind) (iterator : Int) : ApplyM Key (Nat × k.Object) := do
  let s ← get
  let n ← Exec.lift ((s.cache k).get iterator)
  let obj ← onDb ((rowsTable k).deref n)
  pure (n, obj)

/-- `get_table`, and that the table belongs to the receiver. -/
def writableTable (k : RowKind) (tid : Nat) : ApplyM Key Unit := do
  let s ← get
  require (tid ∈ (s.cache k).tables) .tableNotInCache
    "an invariant was broken, table should be in cache"
  let t ← onDb (tablesTable.deref tid)
  require (t.code = ctx.receiver) .tableAccessViolation "db access violation"

/-- Create a row, count it and charge its payer; then cache the row and its table. -/
def addRow (k : RowKind) (tid : Nat) (obj : k.Object) : ApplyM Key Int := do
  let n ← onDb ((rowsTable k).create obj)
  onDb (tablesTable.modify tid .incCount TableIdObject.keepsKeys_incCount)
  updateDbUsage ctx (k.payer obj) (k.size obj)
  let s ← get
  let (iterator, cache) := ((s.cache k).cacheTable tid).2.add n
  set (s.setCache k cache)
  pure iterator

/-- Charge the payer a changed row has now: refund the old payer or settle the difference. -/
def rebill (oldPayer payer : AccountName) (oldSize newSize : Int) : ApplyM Key Unit :=
  if oldPayer ≠ payer then do
    updateDbUsage ctx oldPayer (-oldSize)
    updateDbUsage ctx payer newSize
  else if oldSize ≠ newSize then updateDbUsage ctx oldPayer (newSize - oldSize)
  else pure ()

/-- Take a row and its count away, and the table with its last row. -/
def dropRow (k : RowKind) (n tid : Nat) : ApplyM Key Unit := do
  onDb (tablesTable.modify tid .decCount TableIdObject.keepsKeys_decCount)
  onDb ((rowsTable k).remove n)
  let t ← onDb (tablesTable.deref tid)
  if t.count = 0 then removeTable ctx tid t else pure ()

/-- Take an iterator out of its cache. -/
def dropIterator (k : RowKind) (iterator : Int) : ApplyM Key Unit := do
  let s ← get
  let cache ← Exec.lift ((s.cache k).remove iterator)
  set (s.setCache k cache)

/-! ## Primary rows -/

/-- `db_store_i64` with a code: the payer is checked after the table is there. -/
def dbStoreI64Of (code scope table payer : AccountName) (id : UInt64) (buffer : Bytes) :
    ApplyM Key Int := do
  let tid ← findOrCreateTable ctx code scope table payer
  require (payer ≠ 0) .invalidTablePayer "must specify a valid account to pay for new record"
  addRow ctx .keyValue tid { tId := tid, primaryKey := id, payer := payer, value := buffer }

/-- `db_store_i64`. -/
def dbStoreI64 (scope table payer : AccountName) (id : UInt64) (buffer : Bytes) : ApplyM Key Int :=
  dbStoreI64Of ctx ctx.receiver scope table payer id buffer

/-- `db_update_i64`. -/
def dbUpdateI64 (iterator : Int) (payer : AccountName) (buffer : Bytes) : ApplyM Key Unit := do
  let (n, obj) ← cachedRow .keyValue iterator
  writableTable ctx .keyValue obj.tId
  let payer := if payer = 0 then obj.payer else payer
  rebill ctx obj.payer payer (obj.value.length + keyValueObjectSize)
    (buffer.length + keyValueObjectSize)
  onDb ((rowsTable .keyValue).modify n (.set payer buffer)
    (KeyValueObject.keepsKeys_set payer buffer))

/-- `db_remove_i64`. -/
def dbRemoveI64 (iterator : Int) : ApplyM Key Unit := do
  let (n, obj) ← cachedRow .keyValue iterator
  writableTable ctx .keyValue obj.tId
  updateDbUsage ctx obj.payer (-(obj.value.length + keyValueObjectSize))
  dropRow ctx .keyValue n obj.tId
  dropIterator .keyValue iterator

/-! ## Secondary indices -/

variable (k : IndexKind)

/-- `generic_index::store`. -/
def indexStore (scope table payer : AccountName) (id : UInt64) (value : k.SecondaryKey) :
    ApplyM Key Int := do
  require (payer ≠ 0) .invalidTablePayer "must specify a valid account to pay for new record"
  let tid ← findOrCreateTable ctx ctx.receiver scope table payer
  addRow ctx (.index k) tid
    { tId := tid, primaryKey := id, payer := payer, secondaryKey := value }

/-- `generic_index::update`. -/
def indexUpdate (iterator : Int) (payer : AccountName) (secondary : k.SecondaryKey) :
    ApplyM Key Unit := do
  let (n, obj) ← cachedRow (.index k) iterator
  writableTable ctx (.index k) obj.tId
  let payer := if payer = 0 then obj.payer else payer
  rebill ctx obj.payer payer k.objectSize k.objectSize
  onDb ((rowsTable (.index k)).modify n (.set payer secondary)
    (IndexObject.keepsKeys_set payer secondary))

/-- `generic_index::remove`: the payer is refunded before the access is checked. -/
def indexRemove (iterator : Int) : ApplyM Key Unit := do
  let (n, obj) ← cachedRow (.index k) iterator
  updateDbUsage ctx obj.payer (-k.objectSize)
  writableTable ctx (.index k) obj.tId
  dropRow ctx (.index k) n obj.tId
  dropIterator (.index k) iterator

end Calls

end Forceio.Chain
