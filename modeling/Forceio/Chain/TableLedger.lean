import Forceio.Chain.ContractTables

/-!
# Contract tables pay for their RAM

The abstract view of the contract tables is a ledger: tables, rows, and the RAM each account uses.
Every call is one of five changes to the ledger, and none of them changes the difference between
what an account uses and what its rows and tables owe.

* `table_id_object::count` is a `uint32_t`: with `2 ^ 32` rows in one table it is `0` again.

Results:
* `tableRun_ledger`: accounts pay what they owe, and counts are exact, after every run of calls.
* `store_wraps`: the store that makes the count of a table with `2 ^ 32` rows `0`.
-/

namespace Forceio.Chain

open Forceio.Lib Exec Table ApplyState Database List
open Function

variable (a : AccountName)

/-! ## Ledgers -/

/-- The contract tables, their rows, and the RAM usage of the accounts. -/
structure TableLedger where
  tables : Table TableIdObject
  rows : (k : RowKind) → Table k.Object
  ram : AccountName → Int

/-- The ledger of a database. -/
def Database.ledger {Key : Type} (db : Database Key) : TableLedger :=
  ⟨db.tables, db.rows, db.resources.ramOf⟩

namespace TableLedger

/-- Charge an account, or refund it. -/
def charge (delta : Int) (l : TableLedger) : TableLedger :=
  { l with ram := fun b => l.ram b + if a = b then delta else 0 }

/-- How many rows a table holds. -/
def rowsIn (l : TableLedger) (tid : Nat) : Int :=
  totalAll l.rows fun k o => if k.tId o = tid then 1 else 0

/-- What a table costs an account. -/
def tableBill (t : TableIdObject) : Int :=
  if t.payer = a then tableIdObjectSize else 0

/-- What an account owes: the sizes of the tables and of the rows it pays for. -/
def owed (l : TableLedger) (a : AccountName) : Int :=
  l.tables.total (tableBill a) + totalAll l.rows fun k o => if k.payer o = a then k.size o else 0

/-- What an account uses beyond what it owes for contract tables. -/
def slack (l : TableLedger) (a : AccountName) : Int := l.ram a - l.owed a

/-- **A consistent ledger**: each row has its table, each table has rows, and its count is the
number of them. -/
structure Consistent (l : TableLedger) : Prop where
  tabled : ∀ (k : RowKind), ∀ r ∈ (l.rows k).rows, ∃ t, (k.tId r.2, t) ∈ l.tables.rows
  inhabited : ∀ r ∈ l.tables.rows, 0 < l.rowsIn r.1
  counted : ∀ r ∈ l.tables.rows, (r.2.count.toNat : Int) = l.rowsIn r.1

/-- `++count` in a table. -/
def countUp (tables : Table TableIdObject) (tid : Nat) : Table TableIdObject :=
  tables.update tid .incCount TableIdObject.keepsKeys_incCount

/-- `--count` in a table. -/
def countDown (tables : Table TableIdObject) (tid : Nat) : Table TableIdObject :=
  tables.update tid .decCount TableIdObject.keepsKeys_decCount

end TableLedger

open TableLedger (charge countUp countDown tableBill)

/-- **What a call can do to a ledger**, where `room` says of which tables another row is stored and
`owner` is the code of the table. -/
inductive LedgerEffect (room : Nat × TableIdObject → Prop) (owner : AccountName) (l : TableLedger) :
    TableLedger → Prop
  | stored {k : RowKind} {tid n : Nat} {t : TableIdObject} {o : k.Object} {rows : Table k.Object}
      (mem : (tid, t) ∈ l.tables.rows) (own : t.code = owner) (fits : room (tid, t))
      (tabled : k.tId o = tid) (create : (l.rows k).create o = some (n, rows)) :
      LedgerEffect room owner l (charge (k.payer o) (k.size o)
        ⟨countUp l.tables tid, update l.rows k rows, l.ram⟩)
  | storedFirst {k : RowKind} {tid n : Nat} {t : TableIdObject} {o : k.Object}
      {tables : Table TableIdObject} {rows : Table k.Object}
      (createTable : l.tables.create t = some (tid, tables)) (own : t.code = owner)
      (zero : t.count = 0) (tabled : k.tId o = tid)
      (create : (l.rows k).create o = some (n, rows)) :
      LedgerEffect room owner l (charge (k.payer o) (k.size o) (charge
        t.payer tableIdObjectSize ⟨countUp tables tid, update l.rows k rows, l.ram⟩))
  | changed {k : RowKind} {n : Nat} {o : k.Object} {t : TableIdObject} {f : k.Object → k.Object}
      {hf : Table.KeepsKeys f} (mem : (n, o) ∈ (l.rows k).rows)
      (memTable : (k.tId o, t) ∈ l.tables.rows) (own : t.code = owner)
      (tabled : k.tId (f o) = k.tId o) :
      LedgerEffect room owner l (charge (k.payer (f o)) (k.size (f o))
        (charge (k.payer o) (-k.size o)
          ⟨l.tables, update l.rows k ((l.rows k).update n f hf), l.ram⟩))
  | dropped {k : RowKind} {n : Nat} {o : k.Object} {t : TableIdObject}
      (mem : (n, o) ∈ (l.rows k).rows) (memTable : (k.tId o, t) ∈ l.tables.rows)
      (own : t.code = owner) (more : t.decCount.count ≠ 0) :
      LedgerEffect room owner l (charge (k.payer o) (-k.size o)
        ⟨countDown l.tables (k.tId o), update l.rows k ((l.rows k).remove n), l.ram⟩)
  | droppedLast {k : RowKind} {n : Nat} {o : k.Object} {t : TableIdObject}
      (mem : (n, o) ∈ (l.rows k).rows) (memTable : (k.tId o, t) ∈ l.tables.rows)
      (own : t.code = owner) (last : t.decCount.count = 0) :
      LedgerEffect room owner l (charge t.payer (-tableIdObjectSize)
        (charge (k.payer o) (-k.size o)
          ⟨(countDown l.tables (k.tId o)).remove (k.tId o),
            update l.rows k ((l.rows k).remove n), l.ram⟩))

/-! ## Nothing leaks -/

section Slack

variable {room : Nat × TableIdObject → Prop} {owner : AccountName} {l l' : TableLedger}
  {tables : Table TableIdObject}
variable {iterator : Int} {payer code scope table : AccountName}

theorem ite_neg_zero {p : Prop} [Decidable p] {x : Int} :
    (if p then -x else 0) = -(if p then x else 0) := by
  split <;> simp

theorem tableBill_decCount (t : TableIdObject) : tableBill a t.decCount = tableBill a t := rfl

theorem total_countUp (tid : Nat) (a : AccountName) :
    (countUp tables tid).total (tableBill a) = tables.total (tableBill a) :=
  total_update_of_eq fun _ => rfl

theorem total_countDown (tid : Nat) (a : AccountName) :
    (countDown tables tid).total (tableBill a) = tables.total (tableBill a) :=
  total_update_of_eq fun _ => rfl

theorem mem_countUp {tid : Nat} {t : TableIdObject} (h : (tid, t) ∈ tables.rows) :
    (tid, t.incCount) ∈ (countUp tables tid).rows :=
  mem_update.mpr (.inr ⟨t, h, rfl⟩)

theorem mem_countDown {tid : Nat} {t : TableIdObject} (h : (tid, t) ∈ tables.rows) :
    (tid, t.decCount) ∈ (countDown tables tid).rows :=
  mem_update.mpr (.inr ⟨t, h, rfl⟩)

theorem LedgerEffect.slack_eq (h : LedgerEffect room owner l l') (a : AccountName) :
    l'.slack a = l.slack a := by
  unfold TableLedger.slack TableLedger.owed
  cases h with
  | stored mem own fits tabled create =>
    simp only [charge, totalAll_create create, total_countUp]
    ring
  | storedFirst createTable own zero tabled create =>
    simp only [charge, totalAll_create create, total_countUp,
      total_create createTable, tableBill]
    ring
  | changed mem memTable own tabled =>
    simp only [charge, totalAll_update mem, ite_neg_zero]
    ring
  | dropped mem memTable own more =>
    simp only [charge, totalAll_remove mem, total_countDown, ite_neg_zero]
    ring
  | droppedLast mem memTable own last =>
    simp only [charge, totalAll_remove mem, total_countDown,
      total_remove (mem_countDown memTable), ite_neg_zero, tableBill_decCount]
    rw [tableBill]
    ring

end Slack

/-! ## Counts are exact -/

variable {delta : Int}

namespace TableLedger

variable {room : Nat × TableIdObject → Prop} {owner : AccountName} {l l' : TableLedger}

theorem rowsIn_charge (delta : Int) (tid : Nat) :
    (l.charge a delta).rowsIn tid = l.rowsIn tid := rfl

theorem rowsIn_nonneg (tid : Nat) : 0 ≤ l.rowsIn tid :=
  totalAll_nonneg fun k o => by split <;> simp

theorem rowsIn_eq_zero_iff {tid : Nat} :
    l.rowsIn tid = 0 ↔ ∀ (k : RowKind), ∀ r ∈ (l.rows k).rows, k.tId r.2 ≠ tid := by
  unfold rowsIn
  rw [totalAll_eq_zero_iff fun k o => by split <;> simp]
  simp

theorem charge_charge (x y : Int) : (l.charge a x).charge a y = l.charge a (x + y) := by
  have hram : ((l.charge a x).charge a y).ram = (l.charge a (x + y)).ram := by
    funext b
    show l.ram b + (if a = b then x else 0) + (if a = b then y else 0) =
      l.ram b + if a = b then x + y else 0
    split <;> omega
  exact congrArg (TableLedger.mk l.tables l.rows) hram

theorem charge_zero : l.charge a 0 = l := by
  have hram : (l.charge a 0).ram = l.ram := by
    funext b
    show l.ram b + (if a = b then 0 else 0) = l.ram b
    rw [ite_self, add_zero]
  exact congrArg (TableLedger.mk l.tables l.rows) hram

theorem consistent_charge {a : AccountName} : (l.charge a delta).Consistent ↔ l.Consistent :=
  ⟨fun h => ⟨h.tabled, h.inhabited, h.counted⟩, fun h => ⟨h.tabled, h.inhabited, h.counted⟩⟩

section Create

variable {k : RowKind} {n : Nat} {o : k.Object} {rows : Table k.Object} {tables : Table TableIdObject}

theorem rowsIn_create (hcreate : (l.rows k).create o = some (n, rows)) (tid : Nat) :
    rowsIn ⟨tables, update l.rows k rows, l.ram⟩ tid =
      l.rowsIn tid + if k.tId o = tid then 1 else 0 :=
  totalAll_create hcreate

theorem mem_rows_create (hcreate : (l.rows k).create o = some (n, rows)) {k' : RowKind}
    {r : Nat × k'.Object} (hr : r ∈ (update l.rows k rows k').rows) :
    r ∈ (l.rows k').rows ∨ k'.tId r.2 = k.tId o := by
  by_cases hk : k' = k
  · subst hk
    rw [update_self] at hr
    rcases (mem_create hcreate).mp hr with hr | rfl
    · exact .inl hr
    · exact .inr rfl
  · rw [update_of_ne hk] at hr
    exact .inl hr

end Create

section Remove

variable {k : RowKind} {n : Nat} {o : k.Object} {tables : Table TableIdObject}

theorem rowsIn_remove (hmem : (n, o) ∈ (l.rows k).rows) (tid : Nat) :
    rowsIn ⟨tables, update l.rows k ((l.rows k).remove n), l.ram⟩ tid =
      l.rowsIn tid - if k.tId o = tid then 1 else 0 :=
  totalAll_remove hmem

theorem mem_rows_remove {k' : RowKind} {r : Nat × k'.Object}
    (hr : r ∈ (update l.rows k ((l.rows k).remove n) k').rows) : r ∈ (l.rows k').rows := by
  by_cases hk : k' = k
  · subst hk
    rw [update_self] at hr
    exact (mem_remove.mp hr).1
  · rwa [update_of_ne hk] at hr

end Remove

/-- Consistent, but for one table that may have no rows. -/
structure CountedBut (l : TableLedger) (tid : Nat) : Prop where
  tabled : ∀ (k : RowKind), ∀ r ∈ (l.rows k).rows, ∃ t, (k.tId r.2, t) ∈ l.tables.rows
  inhabited : ∀ r ∈ l.tables.rows, r.1 ≠ tid → 0 < l.rowsIn r.1
  counted : ∀ r ∈ l.tables.rows, (r.2.count.toNat : Int) = l.rowsIn r.1

section Step

variable {k : RowKind} {n tid : Nat} {o : k.Object} {t : TableIdObject} {rows : Table k.Object}

theorem Consistent.countedBut (h : l.Consistent) (tid : Nat) : l.CountedBut tid :=
  ⟨h.tabled, fun r hr _ => h.inhabited r hr, h.counted⟩

theorem Consistent.addTable (h : l.Consistent) {tables : Table TableIdObject}
    (hcreate : l.tables.create t = some (tid, tables)) (hzero : t.count = 0) :
    CountedBut ⟨tables, l.rows, l.ram⟩ tid := by
  have hmem : ∀ {r}, r ∈ tables.rows ↔ r ∈ l.tables.rows ∨ r = (tid, t) := mem_create hcreate
  refine ⟨fun k r hr => ?_, fun r hr hne => ?_, fun r hr => ?_⟩
  · obtain ⟨t', ht'⟩ := h.tabled k r hr
    exact ⟨t', hmem.mpr (.inl ht')⟩
  · rcases hmem.mp hr with hr | rfl
    · exact h.inhabited r hr
    · exact absurd rfl hne
  · rcases hmem.mp hr with hr | rfl
    · exact h.counted r hr
    · have hnone : rowsIn l tid = 0 := by
        refine rowsIn_eq_zero_iff.mpr fun k r hr hid => ?_
        obtain ⟨t', ht'⟩ := h.tabled k r hr
        have hlt := l.tables.fresh _ ht'
        rw [hid, (create_eq_some hcreate).2.1] at hlt
        exact lt_irrefl _ hlt
      rw [hzero]
      exact hnone.symm

theorem CountedBut.stored (h : l.CountedBut tid) (hmem : (tid, t) ∈ l.tables.rows)
    (hfits : t.count.toNat + 1 < 2 ^ 32) (htabled : k.tId o = tid)
    (hcreate : (l.rows k).create o = some (n, rows)) :
    Consistent ⟨countUp l.tables tid, update l.rows k rows, l.ram⟩ := by
  have hkeep : ∀ {r}, r ∈ (countUp l.tables tid).rows →
      (r ∈ l.tables.rows ∧ r.1 ≠ tid) ∨ r = (tid, t.incCount) := (mem_update_of_mem hmem).mp
  refine ⟨fun k' r hr => ?_, fun r hr => ?_, fun r hr => ?_⟩
  · refine exists_mem_update TableIdObject.keepsKeys_incCount ?_
    rcases mem_rows_create hcreate hr with hr | hid
    · exact h.tabled k' r hr
    · exact ⟨t, by rwa [hid, htabled]⟩
  · rw [rowsIn_create hcreate, htabled]
    rcases hkeep hr with ⟨hr, hne⟩ | rfl
    · rw [if_neg (Ne.symm hne), add_zero]
      exact h.inhabited r hr hne
    · rw [if_pos rfl]
      exact Int.lt_add_one_of_le (rowsIn_nonneg tid)
  · rw [rowsIn_create hcreate, htabled]
    rcases hkeep hr with ⟨hr, hne⟩ | rfl
    · rw [if_neg (Ne.symm hne), add_zero]
      exact h.counted r hr
    · rw [if_pos rfl, ← h.counted _ hmem]
      have hcount : t.incCount.count.toNat = t.count.toNat + 1 := by
        show (t.count + 1).toNat = _
        exact Nat.mod_eq_of_lt hfits
      rw [hcount]
      rfl

theorem Consistent.dropRow (h : l.Consistent) (hmem : (n, o) ∈ (l.rows k).rows)
    (htable : (k.tId o, t) ∈ l.tables.rows) :
    CountedBut ⟨countDown l.tables (k.tId o), update l.rows k ((l.rows k).remove n), l.ram⟩
      (k.tId o) := by
  have hkeep : ∀ {r}, r ∈ (countDown l.tables (k.tId o)).rows →
      (r ∈ l.tables.rows ∧ r.1 ≠ k.tId o) ∨ r = (k.tId o, t.decCount) :=
    (mem_update_of_mem htable).mp
  refine ⟨fun k' r hr => ?_, fun r hr hne => ?_, fun r hr => ?_⟩
  · exact exists_mem_update TableIdObject.keepsKeys_decCount (h.tabled k' r (mem_rows_remove hr))
  · rw [rowsIn_remove hmem, if_neg (Ne.symm hne), sub_zero]
    rcases hkeep hr with ⟨hr, -⟩ | rfl
    · exact h.inhabited r hr
    · exact absurd rfl hne
  · rw [rowsIn_remove hmem]
    rcases hkeep hr with ⟨hr, hne⟩ | rfl
    · rw [if_neg (Ne.symm hne), sub_zero]
      exact h.counted r hr
    · rw [if_pos rfl, ← h.counted _ htable]
      have hpos : 0 < t.count.toNat := by
        have := h.inhabited _ htable
        rw [← h.counted _ htable] at this
        exact Int.natCast_pos.mp this
      have hcount : t.decCount.count.toNat = t.count.toNat - 1 :=
        UInt32.toNat_sub_of_le _ _ (by
          exact hpos)
      rw [hcount]
      exact Int.natCast_pred_of_pos hpos

theorem CountedBut.consistent (h : l.CountedBut tid) (hmem : (tid, t) ∈ l.tables.rows)
    (hmore : t.count ≠ 0) : l.Consistent := by
  refine ⟨h.tabled, fun r hr => ?_, h.counted⟩
  by_cases hid : r.1 = tid
  · rw [eq_of_id hr hmem hid, ← h.counted _ hmem]
    have hne : t.count.toNat ≠ 0 := fun h0 => hmore (UInt32.toNat_inj.mp h0)
    exact Int.natCast_pos.mpr (Nat.pos_of_ne_zero hne)
  · exact h.inhabited r hr hid

theorem CountedBut.removeTable (h : l.CountedBut tid) (hmem : (tid, t) ∈ l.tables.rows)
    (hlast : t.count = 0) : Consistent ⟨l.tables.remove tid, l.rows, l.ram⟩ := by
  have hnone : ∀ (k : RowKind), ∀ r ∈ (l.rows k).rows, k.tId r.2 ≠ tid := by
    refine rowsIn_eq_zero_iff.mp ?_
    have hcount := h.counted _ hmem
    rw [hlast] at hcount
    exact hcount.symm
  refine ⟨fun k r hr => ?_, fun r hr => ?_, fun r hr => ?_⟩
  · obtain ⟨t', ht'⟩ := h.tabled k r hr
    exact ⟨t', mem_remove.mpr ⟨ht', hnone k r hr⟩⟩
  · obtain ⟨hr, hne⟩ := mem_remove.mp hr
    exact h.inhabited r hr hne
  · exact h.counted r (mem_remove.mp hr).1

theorem Consistent.changed (h : l.Consistent) {f : k.Object → k.Object} {hf : Table.KeepsKeys f}
    (hmem : (n, o) ∈ (l.rows k).rows) (htabled : k.tId (f o) = k.tId o) :
    Consistent ⟨l.tables, update l.rows k ((l.rows k).update n f hf), l.ram⟩ := by
  have hrows : ∀ tid, rowsIn ⟨l.tables, update l.rows k ((l.rows k).update n f hf), l.ram⟩
      tid = l.rowsIn tid := by
    intro tid
    refine (totalAll_update hmem).trans ?_
    rw [htabled]
    exact sub_add_cancel _ _
  refine ⟨fun k' r hr => ?_, fun r hr => ?_, fun r hr => ?_⟩
  · by_cases hk : k' = k
    · subst hk
      simp only [update_self] at hr
      rcases (mem_update_of_mem hmem).mp hr with ⟨hr, -⟩ | rfl
      · exact h.tabled k' r hr
      · rw [htabled]
        exact h.tabled k' _ hmem
    · simp only [update_of_ne hk] at hr
      exact h.tabled k' r hr
  · rw [hrows]
    exact h.inhabited r hr
  · rw [hrows]
    exact h.counted r hr

/-- **Every call keeps the ledger consistent**, if a table another row is stored in has room. -/
theorem Consistent.step (h : l.Consistent)
    (heffect : LedgerEffect (fun r => r.2.count.toNat + 1 < 2 ^ 32) owner l l') : l'.Consistent := by
  cases heffect with
  | stored mem own fits tabled create =>
    exact consistent_charge.mpr ((h.countedBut _).stored mem fits tabled create)
  | storedFirst createTable own zero tabled create =>
    refine consistent_charge.mpr (consistent_charge.mpr ?_)
    refine (h.addTable createTable zero).stored ((mem_create createTable).mpr (.inr rfl)) ?_
      tabled create
    rw [zero]
    decide
  | changed mem memTable own tabled => exact consistent_charge.mpr (consistent_charge.mpr (h.changed mem tabled))
  | dropped mem memTable own more =>
    exact consistent_charge.mpr ((h.dropRow mem memTable).consistent (mem_countDown memTable) more)
  | droppedLast mem memTable own last =>
    refine consistent_charge.mpr (consistent_charge.mpr ?_)
    exact (h.dropRow mem memTable).removeTable (mem_countDown memTable) last

end Step

end TableLedger

/-! ## What each function does to the ledger -/

section Functions

variable {Key : Type} {s s' : ApplyState Key} {k : RowKind}

open Database (tablesTable rowsTable)
open ApplyState (onDb)

theorem Database.ledger_setRows (db : Database Key) (rows : Table k.Object) :
    ((rowsTable k).set rows db).ledger =
      ⟨db.ledger.tables, update db.ledger.rows k rows, db.ledger.ram⟩ := by
  have hrows : ((rowsTable k).set rows db).rows = update db.rows k rows := by
    funext k'
    by_cases hk : k' = k
    · subst hk
      rw [update_self, ← rowsTable_table, TableOf.table_set]
    · rw [update_of_ne hk]
      cases k with
      | keyValue =>
        cases k' with
        | keyValue => exact absurd rfl hk
        | index i => rfl
      | index i =>
        cases k' with
        | keyValue => rfl
        | index j => exact update_of_ne (fun h => hk (congrArg RowKind.index h)) _ _
  unfold ledger
  rw [hrows]
  cases k <;> rfl

variable {o : k.Object} {n tid : Nat}

theorem createRow_ledger (h : onDb ((rowsTable k).create o) s = .ok n s') :
    ∃ rows, (s.db.ledger.rows k).create o = some (n, rows) ∧ s'.db.ledger =
      ⟨s.db.ledger.tables, update s.db.ledger.rows k rows, s.db.ledger.ram⟩ := by
  obtain ⟨db, hdb, rfl⟩ := onDb_ok.mp h
  obtain ⟨rows, hrows, rfl⟩ := TableOf.create_eq_ok_iff.mp hdb
  rw [rowsTable_table] at hrows
  exact ⟨rows, hrows, ledger_setRows _ _⟩

theorem modifyRow_ledger {f : k.Object → k.Object} {hf : Table.KeepsKeys f}
    (h : onDb ((rowsTable k).modify n f hf) s = .ok () s') :
    s'.db.ledger = ⟨s.db.ledger.tables,
      update s.db.ledger.rows k ((s.db.ledger.rows k).update n f hf), s.db.ledger.ram⟩ := by
  cases h
  exact (ledger_setRows _ _).trans (by rw [rowsTable_table]; rfl)

theorem removeRow_ledger (h : onDb ((rowsTable k).remove n) s = .ok () s') :
    s'.db.ledger = ⟨s.db.ledger.tables,
      update s.db.ledger.rows k ((s.db.ledger.rows k).remove n), s.db.ledger.ram⟩ := by
  cases h
  exact (ledger_setRows _ _).trans (by rw [rowsTable_table]; rfl)

theorem cachedRow_ledger (h : cachedRow k iterator s = .ok (n, o) s') :
    s' = s ∧ (n, o) ∈ (s.db.ledger.rows k).rows := by
  obtain ⟨m, -, h⟩ := lift_bind_ok.mp h
  obtain ⟨o', db, hderef, h⟩ := onDb_bind_ok.mp h
  cases h
  obtain ⟨hmem, rfl⟩ := TableOf.deref_eq_ok_iff.mp hderef
  rw [rowsTable_table] at hmem
  exact ⟨rfl, hmem⟩

theorem dropIterator_ledger (h : dropIterator k iterator s = .ok () s') : s'.db = s.db := by
  obtain ⟨cache, -, h⟩ := lift_bind_ok.mp h
  cases h
  exact setCache_db _ _ _

variable [LinearOrder Key] {ctx : ApplyContext Key}

/-- The authorizations that are used apart, only the payer's RAM changes. -/
theorem updateDbUsage_adds (h : updateDbUsage ctx payer delta s = .ok () s') :
    ∃ used, addRamUsage payer delta { s with usedAuthorizations := used } = .ok () s' := by
  unfold updateDbUsage at h
  split at h
  · obtain ⟨-, h⟩ := require_bind_ok.mp h
    obtain ⟨u, t, hauth, h⟩ := bind_ok.mp h
    obtain ⟨-, used, rfl⟩ := requireAuthorization_spec hauth
    exact ⟨used, h⟩
  · exact ⟨s.usedAuthorizations, h⟩

theorem updateDbUsage_ledger (h : updateDbUsage ctx payer delta s = .ok () s') :
    s'.db.ledger = s.db.ledger.charge payer delta := by
  obtain ⟨used, h⟩ := updateDbUsage_adds h
  obtain ⟨r, hr, hram⟩ := addRamUsage_spec h
  have hram' : r.ramOf = fun b => s.db.resources.ramOf b + if payer = b then delta else 0 := by
    funext b
    rw [hram]
    simp only [eq_comm]
  rw [hr]
  show (⟨_, _, r.ramOf⟩ : TableLedger) = _
  rw [hram']
  rfl

/-- A changed row costs its old payer nothing and its new payer its new size. -/
theorem rebill_ledger {oldPayer : AccountName} {oldSize newSize : Int}
    (h : rebill ctx oldPayer payer oldSize newSize s = .ok () s') :
    s'.db.ledger = (s.db.ledger.charge oldPayer (-oldSize)).charge payer newSize := by
  unfold rebill at h
  split at h
  · obtain ⟨u, t, hrefund, h⟩ := bind_ok.mp h
    rw [updateDbUsage_ledger h, updateDbUsage_ledger hrefund]
  · rename_i hpayer
    obtain rfl : oldPayer = payer := not_not.mp hpayer
    rw [TableLedger.charge_charge, neg_add_eq_sub]
    split at h
    · exact updateDbUsage_ledger h
    · rename_i hsize
      obtain rfl : oldSize = newSize := not_not.mp hsize
      cases h
      rw [sub_self, TableLedger.charge_zero]

theorem writableTable_ledger (h : writableTable ctx k tid s = .ok () s') :
    s' = s ∧ ∃ t, (tid, t) ∈ s.db.ledger.tables.rows ∧ t.code = ctx.receiver := by
  obtain ⟨-, h⟩ := require_bind_ok.mp h
  obtain ⟨t, db, hderef, h⟩ := onDb_bind_ok.mp h
  obtain ⟨hmem, rfl⟩ := TableOf.deref_eq_ok_iff.mp hderef
  obtain ⟨hcode, rfl⟩ := require_ok.mp h
  exact ⟨rfl, t, hmem, hcode⟩

omit [LinearOrder Key] in
theorem code_of_findTable {db : Database Key} {t : TableIdObject}
    (h : db.findTable code scope table = some (tid, t)) : t.code = code := by
  have hp := of_find? h
  simp only [Bool.and_eq_true, decide_eq_true_eq] at hp
  exact hp.1.1

theorem findOrCreateTable_of_some {t : TableIdObject}
    (h : s.db.findTable code scope table = some (tid, t)) :
    findOrCreateTable ctx code scope table payer s = .ok tid s := by
  unfold findOrCreateTable
  rw [get_bind, h]
  rfl

/-- A table that is there, or a new one its payer is charged for. -/
theorem findOrCreateTable_ledger (h : findOrCreateTable ctx code scope table payer s = .ok tid s') :
    (∃ t, s.db.findTable code scope table = some (tid, t) ∧ s' = s) ∨
      ∃ t tables, t.count = 0 ∧ t.code = code ∧ t.payer = payer ∧
        s.db.ledger.tables.create t = some (tid, tables) ∧
        s'.db.ledger = charge payer tableIdObjectSize
          ⟨tables, s.db.ledger.rows, s.db.ledger.ram⟩ := by
  unfold findOrCreateTable at h
  rw [get_bind] at h
  cases hfind : s.db.findTable code scope table with
  | some r =>
    rw [hfind] at h
    cases h
    exact .inl ⟨r.2, rfl, rfl⟩
  | none =>
    rw [hfind] at h
    obtain ⟨u, s1, hcharge, h⟩ := bind_ok.mp h
    obtain ⟨db, hdb, rfl⟩ := onDb_ok.mp h
    obtain ⟨tables, htables, rfl⟩ := TableOf.create_eq_ok_iff.mp hdb
    have hl := updateDbUsage_ledger hcharge
    have htables' : s1.db.ledger.tables.create _ = some (tid, tables) := htables
    rw [hl] at htables'
    refine .inr ⟨_, tables, rfl, rfl, rfl, htables', ?_⟩
    show (⟨tables, s1.db.ledger.rows, s1.db.ledger.ram⟩ : TableLedger) = _
    rw [hl]
    rfl

theorem addRow_ledger (h : addRow ctx k tid o s = .ok iterator s') :
    ∃ n rows, (s.db.ledger.rows k).create o = some (n, rows) ∧ s'.db.ledger =
      charge (k.payer o) (k.size o)
        ⟨countUp s.db.ledger.tables tid, update s.db.ledger.rows k rows,
          s.db.ledger.ram⟩ := by
  obtain ⟨n, s1, hcreate, h⟩ := bind_ok.mp h
  obtain ⟨rows, hrows, hl1⟩ := createRow_ledger hcreate
  obtain ⟨u, db, hcount, h⟩ := onDb_bind_ok.mp h
  obtain ⟨v, s2, hcharge, h⟩ := bind_ok.mp h
  have hl2 := updateDbUsage_ledger hcharge
  have hdb : s'.db = s2.db := by
    cases h
    exact setCache_db _ _ _
  refine ⟨n, rows, hrows, ?_⟩
  rw [hdb, hl2]
  cases hcount
  show charge _ _ ⟨countUp s1.db.ledger.tables tid, s1.db.ledger.rows,
    s1.db.ledger.ram⟩ = _
  rw [hl1]

theorem addRow_ok {u : ResourceUsageObject} (hnew : ∀ r ∈ (s.db.rows k).rows, ¬ Indexed.clash r.2 o)
    (hpayer : k.payer o = ctx.receiver) (husage : s.db.resources.usageOf (k.payer o) = some (n, u))
    (hfits : u.ramUsage + k.size o < 2 ^ 64) :
    ∃ iterator s', addRow ctx k tid o s = .ok iterator s' := by
  cases hcreate : (s.db.rows k).create o with
  | none =>
    obtain ⟨r, hr, hclash⟩ := create_eq_none.mp hcreate
    exact absurd hclash (hnew r hr)
  | some r =>
    obtain ⟨m, rows⟩ := r
    have hdb : (rowsTable k).create o s.db = .ok m ((rowsTable k).set rows s.db) :=
      TableOf.create_eq_ok_iff.mpr ⟨rows, by rwa [rowsTable_table], rfl⟩
    have hcharge : ∃ s', updateDbUsage ctx (k.payer o) (k.size o) (s.setDb (tablesTable.set
        (TableLedger.countUp ((rowsTable k).set rows s.db).tables tid)
        ((rowsTable k).set rows s.db))) = .ok () s' := by
      unfold updateDbUsage
      rw [if_neg fun h => h.2 (.inr hpayer)]
      refine addRamUsage_ok (n := n) (u := u) ?_ ?_ hfits
      · rw [← husage]
        cases k <;> rfl
      · exact k.size_nonneg o
    obtain ⟨s1, hs1⟩ := hcharge
    exact ⟨_, _, onDb_bind_ok.mpr ⟨m, _, hdb,
      onDb_bind_ok.mpr ⟨(), _, rfl, bind_ok.mpr ⟨(), s1, hs1, rfl⟩⟩⟩⟩

/-- A row and its count taken away, and the table if the count is zero. -/
theorem dropRow_ledger {t : TableIdObject} (hmem : (tid, t) ∈ s.db.ledger.tables.rows)
    (h : dropRow ctx k n tid s = .ok () s') :
    (t.decCount.count ≠ 0 ∧ s'.db.ledger = ⟨countDown s.db.ledger.tables tid,
        update s.db.ledger.rows k ((s.db.ledger.rows k).remove n), s.db.ledger.ram⟩) ∨
      (t.decCount.count = 0 ∧ s'.db.ledger = charge t.payer (-tableIdObjectSize)
        ⟨(countDown s.db.ledger.tables tid).remove tid,
          update s.db.ledger.rows k ((s.db.ledger.rows k).remove n), s.db.ledger.ram⟩) := by
  obtain ⟨u, db, hcount, h⟩ := onDb_bind_ok.mp h
  cases hcount
  obtain ⟨v, s2, hremove, h⟩ := bind_ok.mp h
  have hl2 := removeRow_ledger hremove
  obtain ⟨t', db, hderef, h⟩ := onDb_bind_ok.mp h
  obtain ⟨hmem', rfl⟩ := TableOf.deref_eq_ok_iff.mp hderef
  obtain rfl : t' = t.decCount := by
    have hmem'' : (tid, t') ∈ s2.db.ledger.tables.rows := hmem'
    rw [hl2] at hmem''
    exact congrArg Prod.snd (eq_of_id hmem'' (mem_countDown hmem) rfl)
  split at h
  · next hzero =>
    obtain ⟨w, s3, hrefund, h⟩ := bind_ok.mp h
    have hl3 := updateDbUsage_ledger hrefund
    cases h
    refine .inr ⟨hzero, ?_⟩
    show (⟨s3.db.ledger.tables.remove tid, s3.db.ledger.rows, s3.db.ledger.ram⟩ : TableLedger) = _
    rw [hl3]
    show charge _ _ ⟨s2.db.ledger.tables.remove tid, s2.db.ledger.rows,
      s2.db.ledger.ram⟩ = _
    rw [hl2]
    rfl
  · next hzero =>
    cases h
    exact .inl ⟨hzero, hl2⟩

end Functions

/-! ## Calls -/

/-- A call to change the contract tables; `db_store_i64` without a code has that of the receiver. -/
inductive TableCall where
  | dbStoreI64 (code scope table payer : AccountName) (id : UInt64) (buffer : Bytes)
  | dbUpdateI64 (iterator : Int) (payer : AccountName) (buffer : Bytes)
  | dbRemoveI64 (iterator : Int)
  | indexStore (k : IndexKind) (scope table payer : AccountName) (id : UInt64)
      (value : k.SecondaryKey)
  | indexUpdate (k : IndexKind) (iterator : Int) (payer : AccountName) (secondary : k.SecondaryKey)
  | indexRemove (k : IndexKind) (iterator : Int)

section Calls

variable {Key : Type} [LinearOrder Key] {room : Nat × TableIdObject → Prop}

variable (ctx : ApplyContext Key)

/-- Run a call. -/
def TableCall.run : TableCall → ApplyM Key Unit
  | .dbStoreI64 code scope table payer id buffer => do
    let _ ← dbStoreI64Of ctx code scope table payer id buffer
  | .dbUpdateI64 iterator payer buffer => Forceio.Chain.dbUpdateI64 ctx iterator payer buffer
  | .dbRemoveI64 iterator => Forceio.Chain.dbRemoveI64 ctx iterator
  | .indexStore k scope table payer id value => do
    let _ ← Forceio.Chain.indexStore ctx k scope table payer id value
  | .indexUpdate k iterator payer secondary =>
    Forceio.Chain.indexUpdate ctx k iterator payer secondary
  | .indexRemove k iterator => Forceio.Chain.indexRemove ctx k iterator

/-- The table a call stores a row in, if it is there. -/
def TableCall.target (db : Database Key) : TableCall → Option (Nat × TableIdObject)
  | .dbStoreI64 code scope table _ _ _ => db.findTable code scope table
  | .indexStore _ scope table _ _ _ => db.findTable ctx.receiver scope table
  | _ => none

/-- The code of the table a call changes. -/
def TableCall.owner : TableCall → AccountName
  | .dbStoreI64 code _ _ _ _ _ => code
  | _ => ctx.receiver

variable {ctx : ApplyContext Key} {s s' : ApplyState Key}

/-- **What a successful call ran**: it stored, changed or removed a row. -/
inductive TableCall.Ran (ctx : ApplyContext Key) (s s' : ApplyState Key) :
    Option (Nat × TableIdObject) → AccountName → Prop
  | stored {k : RowKind} {tid : Nat} {o : k.Object} {s1 : ApplyState Key}
      {code scope table payer : AccountName}
      {iterator : Int} (make : findOrCreateTable ctx code scope table payer s = .ok tid s1)
      (tabled : k.tId o = tid) (add : addRow ctx k tid o s1 = .ok iterator s') :
      Ran ctx s s' (s.db.findTable code scope table) code
  | changed {k : RowKind} {n : Nat} {o : k.Object} {s1 : ApplyState Key} {t : TableIdObject}
      {f : k.Object → k.Object} {hf : Table.KeepsKeys f} (mem : (n, o) ∈ (s.db.ledger.rows k).rows)
      (memTable : (k.tId o, t) ∈ s.db.ledger.tables.rows) (own : t.code = ctx.receiver)
      (modify : onDb ((rowsTable k).modify n f hf) s1 = .ok () s')
      (bill : rebill ctx (k.payer o) (k.payer (f o)) (k.size o) (k.size (f o)) s = .ok () s1)
      (tabled : k.tId (f o) = k.tId o) : Ran ctx s s' none ctx.receiver
  | removed {k : RowKind} {n : Nat} {o : k.Object} {s1 s2 : ApplyState Key} {t : TableIdObject}
      {iterator : Int} (read : cachedRow k iterator s = .ok (n, o) s)
      (memTable : (k.tId o, t) ∈ s.db.ledger.tables.rows) (own : t.code = ctx.receiver)
      (refund : updateDbUsage ctx (k.payer o) (-k.size o) s = .ok () s1)
      (drop : dropRow ctx k n (k.tId o) s1 = .ok () s2)
      (clear : dropIterator k iterator s2 = .ok () s') : Ran ctx s s' none ctx.receiver

theorem TableCall.ran (call : TableCall) (h : call.run ctx s = .ok () s') :
    Ran ctx s s' (call.target ctx s.db) (call.owner ctx) := by
  cases call with
  | dbStoreI64 code scope table payer id buffer =>
    obtain ⟨iterator, t, h, hlast⟩ := bind_ok.mp h
    cases hlast
    obtain ⟨tid, s1, htable, h⟩ := bind_ok.mp h
    obtain ⟨-, h⟩ := require_bind_ok.mp h
    exact .stored htable rfl h
  | indexStore k scope table payer id value =>
    obtain ⟨iterator, t, h, hlast⟩ := bind_ok.mp h
    cases hlast
    obtain ⟨-, h⟩ := require_bind_ok.mp h
    obtain ⟨tid, s1, htable, h⟩ := bind_ok.mp h
    exact .stored htable rfl h
  | dbUpdateI64 | indexUpdate =>
    obtain ⟨⟨n, o⟩, s1, hrow, h1⟩ := bind_ok.mp h
    obtain ⟨rfl, hmem⟩ := cachedRow_ledger hrow
    obtain ⟨u, s2, hwritable, h2⟩ := bind_ok.mp h1
    obtain ⟨rfl, t, ht, hcode⟩ := writableTable_ledger hwritable
    obtain ⟨v, s3, hbill, h3⟩ := bind_ok.mp h2
    exact .changed hmem ht hcode h3 hbill rfl
  | dbRemoveI64 iterator =>
    obtain ⟨⟨n, o⟩, s1, hrow, h1⟩ := bind_ok.mp h
    obtain ⟨rfl, -⟩ := cachedRow_ledger hrow
    obtain ⟨u, s2, hwritable, h2⟩ := bind_ok.mp h1
    obtain ⟨rfl, t, ht, hcode⟩ := writableTable_ledger hwritable
    obtain ⟨v, s3, hrefund, h3⟩ := bind_ok.mp h2
    obtain ⟨w, s4, hdrop, h4⟩ := bind_ok.mp h3
    exact .removed hrow ht hcode hrefund hdrop h4
  | indexRemove k iterator =>
    obtain ⟨⟨n, o⟩, s1, hrow, h1⟩ := bind_ok.mp h
    obtain ⟨rfl, -⟩ := cachedRow_ledger hrow
    obtain ⟨v, s2, hrefund, h2⟩ := bind_ok.mp h1
    obtain ⟨u, s3, hwritable, h3⟩ := bind_ok.mp h2
    obtain ⟨rfl, t, ht, hcode⟩ := writableTable_ledger hwritable
    obtain ⟨w, s4, hdrop, h4⟩ := bind_ok.mp h3
    rw [updateDbUsage_ledger hrefund] at ht
    exact .removed hrow ht hcode hrefund hdrop h4

theorem TableCall.Ran.effect {target : Option (Nat × TableIdObject)} {owner : AccountName}
    (h : Ran ctx s s' target owner) (hroom : ∀ r ∈ target, room r) :
    LedgerEffect room owner s.db.ledger s'.db.ledger := by
  cases h with
  | stored make tabled add =>
    obtain ⟨n, rows, hcreate, hl⟩ := addRow_ledger add
    rw [hl]
    rcases findOrCreateTable_ledger make with
      ⟨t, hfind, rfl⟩ | ⟨t, tables, hzero, hcode, rfl, ht, hl1⟩
    · exact .stored (mem_of_find? hfind) (code_of_findTable hfind) (hroom _ hfind) tabled hcreate
    · rw [hl1] at hcreate ⊢
      exact .storedFirst ht hcode hzero tabled hcreate
  | changed mem memTable own modify bill tabled =>
    rw [modifyRow_ledger modify, rebill_ledger bill]
    exact .changed mem memTable own tabled
  | removed read memTable own refund drop clear =>
    have hmem := (cachedRow_ledger read).2
    have hrefund := updateDbUsage_ledger refund
    rw [dropIterator_ledger clear]
    rcases dropRow_ledger (by rwa [hrefund]) drop with ⟨hmore, hl⟩ | ⟨hlast, hl⟩
    · rw [hl, hrefund]
      exact .dropped hmem memTable own hmore
    · rw [hl, hrefund]
      exact .droppedLast hmem memTable own hlast

/-- **Every successful call** is one of the five changes to the ledger. -/
theorem TableCall.effect (call : TableCall) (h : call.run ctx s = .ok () s')
    (hroom : ∀ r ∈ call.target ctx s.db, room r) :
    LedgerEffect room (call.owner ctx) s.db.ledger s'.db.ledger :=
  (call.ran h).effect hroom

/-! ## Runs -/

/-- **A run of successful calls** in any contexts. Of the state only the database carries over from
one call to the next; a table that a row is stored in has room for it. -/
inductive TableRun : Database Key → List (ApplyContext Key × TableCall) → Database Key → Prop
  | nil (db : Database Key) : TableRun db [] db
  | cons {db' : Database Key} {s s' : ApplyState Key} {ctx : ApplyContext Key} {call : TableCall}
      {calls : List (ApplyContext Key × TableCall)}
      (fits : ∀ r ∈ call.target ctx s.db, r.2.count.toNat + 1 < 2 ^ 32)
      (step : call.run ctx s = .ok () s') (rest : TableRun s'.db calls db') :
      TableRun s.db ((ctx, call) :: calls) db'

variable {db db' : Database Key} {calls : List (ApplyContext Key × TableCall)}

theorem TableRun.slack_eq (h : TableRun db calls db') (a : AccountName) :
    db'.ledger.slack a = db.ledger.slack a := by
  induction h with
  | nil db => rfl
  | cons fits step rest ih => exact ih.trans ((TableCall.effect _ step fits).slack_eq a)

theorem TableRun.consistent (h : TableRun db calls db') (hdb : db.ledger.Consistent) :
    db'.ledger.Consistent := by
  induction h with
  | nil db => exact hdb
  | cons fits step rest ih => exact ih (hdb.step (TableCall.effect _ step fits))

/-- The tables of a consistent ledger are those with rows. -/
theorem TableLedger.Consistent.exists_table_iff {l : TableLedger} (h : l.Consistent) {tid : Nat} :
    (∃ t, (tid, t) ∈ l.tables.rows) ↔ 0 < l.rowsIn tid := by
  constructor
  · rintro ⟨t, ht⟩
    exact h.inhabited _ ht
  · intro hpos
    by_contra hnone
    refine absurd (TableLedger.rowsIn_eq_zero_iff.mpr fun k r hr hid => hnone ?_) (Int.ne_of_gt hpos)
    exact hid ▸ h.tabled k r hr

/-- **Contract tables pay for their RAM**: after every run of calls the RAM usage of an account has
changed by what it owes for rows and tables, the count of a table is the number of its rows, and the
tables are those that have rows. -/
theorem tableRun_ledger (hrun : TableRun db calls db') (hdb : db.ledger.Consistent) :
    (∀ a, db'.ledger.ram a - db.ledger.ram a = db'.ledger.owed a - db.ledger.owed a) ∧
      (∀ r ∈ db'.ledger.tables.rows, (r.2.count.toNat : Int) = db'.ledger.rowsIn r.1) ∧
      ∀ tid, (∃ t, (tid, t) ∈ db'.ledger.tables.rows) ↔ 0 < db'.ledger.rowsIn tid := by
  have hdb' := hrun.consistent hdb
  refine ⟨fun a => ?_, hdb'.counted, fun tid => hdb'.exists_table_iff⟩
  have hslack := hrun.slack_eq a
  unfold TableLedger.slack at hslack
  omega

end Calls

/-! ## A contract and its table -/

section Sample

/-- The account that runs its own code and pays for it. -/
def contract : AccountName := 7

/-- The context of an action of the contract. -/
def contractCtx : ApplyContext Nat where
  control := .standard "force" .complete 0
  receiver := contract
  act := { account := contract, name := 8 }

/-- A database in which the contract uses `ram` bytes and has no tables. -/
def contractOnly (ram : Nat) : Database Nat :=
  let db : Database Nat := .empty ⟨1, 1, 1, 1⟩ ⟨1, 1, 1⟩
  { db with
    resources := { db.resources with usages := .ofObjects [{ owner := contract, ramUsage := ram }] } }

/-- A row and a secondary row are stored, and the row is changed and removed. -/
def contractCalls : List TableCall :=
  [.dbStoreI64 contract contract contract contract 7 [1, 2, 3],
    .indexStore .idx64 contract contract contract 7 5, .dbUpdateI64 0 0 [4], .dbRemoveI64 0]

/-- The state after the first calls. -/
def contractState : Nat → ApplyState Nat
  | 0 => .start (contractOnly 0) contractCtx.act
  | i + 1 => stateOf
      ((contractCalls.getD i (.dbRemoveI64 0)).run contractCtx (contractState i))

theorem contractOnly_consistent : (contractOnly 0).ledger.Consistent := by
  refine ⟨fun k r hr => ?_, fun r hr => absurd hr not_mem_nil, fun r hr => absurd hr not_mem_nil⟩
  cases k with
  | keyValue | index => exact absurd hr not_mem_nil

theorem contractCalls_run :
    TableRun (contractOnly 0) (contractCalls.map (contractCtx, ·)) (contractState 4).db :=
  .cons (s := contractState 0) (by decide +kernel) (eq_ok_of_thrown (by decide +kernel)) <|
  .cons (s := contractState 1) (by decide +kernel) (eq_ok_of_thrown (by decide +kernel)) <|
  .cons (s := contractState 2) (by decide +kernel) (eq_ok_of_thrown (by decide +kernel)) <|
  .cons (s := contractState 3) (by decide +kernel) (eq_ok_of_thrown (by decide +kernel)) <|
  .nil _

theorem tableRun_ledger_contract :
    (contractState 4).db.ledger.ram contract - (contractOnly 0).ledger.ram contract =
      (contractState 4).db.ledger.owed contract - (contractOnly 0).ledger.owed contract :=
  (tableRun_ledger contractCalls_run contractOnly_consistent).1 contract

/-- A row of the contract. -/
def contractRow (i : Nat) : KeyValueObject := ⟨0, UInt64.ofNat i, contract, []⟩

theorem contractRow_clash {i j : Nat} (hi : i < 2 ^ 64) (hj : j < 2 ^ 64)
    (h : Indexed.clash (contractRow i) (contractRow j)) : i = j := by
  have hkey : (UInt64.ofNat i).toNat = (UInt64.ofNat j).toNat := congrArg UInt64.toNat h.2
  rwa [UInt64.toNat_ofNat_of_lt' hi, UInt64.toNat_ofNat_of_lt' hj] at hkey

/-- The first `n` rows of the contract. -/
def contractRows (n : Nat) (hn : n ≤ 2 ^ 64) : Table KeyValueObject where
  rows := (range n).map fun i => (i, contractRow i)
  nextId := n
  ascending := pairwise_map.mpr pairwise_lt_range
  fresh := by
    intro r hr
    obtain ⟨i, hi, rfl⟩ := mem_map.mp hr
    exact mem_range.mp hi
  unique := by
    refine pairwise_map.mpr (pairwise_lt_range.imp_of_mem ?_)
    intro i j hi hj hlt hclash
    have hi' := (mem_range.mp hi).trans_le hn
    have hj' := (mem_range.mp hj).trans_le hn
    exact Nat.ne_of_lt hlt (contractRow_clash hi' hj' hclash)

/-- The table of the contract when it has `n` rows. -/
def contractTable (n : Nat) : TableIdObject :=
  { code := contract, scope := contract, table := contract, payer := contract,
    count := UInt32.ofNat n }

/-- The database when the table has `n` rows, all paid for. -/
def contractDb (n : Nat) (hn : n ≤ 2 ^ 64) : Database Nat :=
  { contractOnly (tableIdObjectSize + n * keyValueObjectSize) with
    tables := .ofObjects [contractTable n]
    keyValues := contractRows n hn }

variable {n : Nat} {hn : n ≤ 2 ^ 64}

theorem totalAll_contractDb {weights : (k : RowKind) → k.Object → Int} {x : Int}
    (h : ∀ i, weights .keyValue (contractRow i) = x) :
    totalAll (contractDb n hn).ledger.rows weights = n * x := by
  have hempty : ∀ k : RowKind, k ≠ .keyValue →
      ((contractDb n hn).ledger.rows k).total (weights k) = 0 := by
    intro k hk
    cases k with
    | keyValue => exact absurd rfl hk
    | index i => rfl
  unfold totalAll
  rw [Finset.sum_eq_single RowKind.keyValue (fun k _ hk => hempty k hk) (by simp)]
  show (((range n).map fun i => (i, contractRow i)).map fun r => weights .keyValue r.2).sum = _
  rw [map_map]
  show ((range n).map fun i => weights .keyValue (contractRow i)).sum = _
  simp only [h, map_const', length_range, sum_replicate, nsmul_eq_mul]

theorem rowsIn_contractDb (tid : Nat) :
    (contractDb n hn).ledger.rowsIn tid = n * if 0 = tid then 1 else 0 :=
  totalAll_contractDb fun _ => rfl

theorem contractDb_consistent (hpos : 0 < n) (hlt : n < 2 ^ 32) :
    (contractDb n hn).ledger.Consistent := by
  have htables : ∀ r ∈ (contractDb n hn).ledger.tables.rows, r = (0, contractTable n) :=
    fun r hr => mem_singleton.mp hr
  refine ⟨fun k r hr => ?_, fun r hr => ?_, fun r hr => ?_⟩
  · cases k with
    | keyValue =>
      obtain ⟨i, -, rfl⟩ := mem_map.mp hr
      exact ⟨contractTable n, mem_singleton_self _⟩
    | index i => exact absurd hr not_mem_nil
  · rw [htables r hr, rowsIn_contractDb, if_pos rfl, mul_one]
    exact Int.natCast_pos.mpr hpos
  · rw [htables r hr, rowsIn_contractDb, if_pos rfl, mul_one]
    show ((UInt32.ofNat n).toNat : Int) = n
    rw [UInt32.toNat_ofNat_of_lt' hlt]

theorem contractDb_slack : (contractDb n hn).ledger.slack contract = 0 := by
  have howed : (contractDb n hn).ledger.owed contract =
      tableIdObjectSize + n * (keyValueObjectSize : Int) := by
    unfold TableLedger.owed
    rw [totalAll_contractDb (x := (keyValueObjectSize : Int)) fun _ => rfl]
    rfl
  have hram : (contractDb n hn).ledger.ram contract =
      ((tableIdObjectSize + n * keyValueObjectSize : Nat) : Int) := rfl
  unfold TableLedger.slack
  rw [howed, hram]
  exact sub_self _

/-- The contract can store the next row, which is counted modulo `2 ^ 32`. -/
theorem store_contractDb (hlt : n < 2 ^ 32) : ∃ s',
    (TableCall.dbStoreI64 contract contract contract contract (UInt64.ofNat n) []).run contractCtx
        (.start (contractDb n hn) contractCtx.act) = .ok () s' ∧
      (0, (contractTable n).incCount) ∈ s'.db.ledger.tables.rows ∧
      s'.db.ledger.rowsIn 0 = n + 1 := by
  have hfind : (contractDb n hn).findTable contract contract contract = some (0, contractTable n) :=
    find?_eq_some_of_mem (mem_singleton_self _) (by simp [contractTable]) fun b hb => by
      show b.code = contract ∧ b.scope = contract ∧ b.table = contract
      simpa [and_assoc] using hb
  have hnew : ∀ r ∈ (contractDb n hn).keyValues.rows, ¬ Indexed.clash r.2 (contractRow n) := by
    intro r hr hclash
    obtain ⟨i, hi, rfl⟩ := mem_map.mp hr
    have hi' := mem_range.mp hi
    exact Nat.ne_of_lt hi' (contractRow_clash (by omega) (by omega) hclash)
  have hram : (contractDb n hn).resources.usageOf contract =
      some (0, { owner := contract, ramUsage := tableIdObjectSize + n * keyValueObjectSize }) :=
    find?_eq_some_of_mem (mem_singleton_self _) (by simp) fun b hb => by
      show b.owner = contract
      simpa using hb
  have hfits : ((tableIdObjectSize + n * keyValueObjectSize : Nat) : Int) +
      RowKind.keyValue.size (contractRow n) < 2 ^ 64 := by
    show ((112 + n * 112 : Nat) : Int) + (0 + 112) < 2 ^ 64
    omega
  have hadd : ∃ it s', addRow contractCtx .keyValue 0 (contractRow n)
      (.start (contractDb n hn) contractCtx.act) = .ok it s' := addRow_ok hnew rfl hram hfits
  obtain ⟨it, s', hs'⟩ := hadd
  obtain ⟨m, rows, hcreate, hl⟩ := addRow_ledger hs'
  refine ⟨s', ?_, ?_, ?_⟩
  · refine bind_ok.mpr ⟨it, s', ?_, rfl⟩
    refine bind_ok.mpr ⟨0, _, findOrCreateTable_of_some hfind, ?_⟩
    exact require_bind_ok.mpr ⟨by decide, hs'⟩
  · rw [hl]
    exact mem_countUp (mem_singleton_self _)
  · rw [hl, TableLedger.rowsIn_charge, TableLedger.rowsIn_create hcreate]
    show (contractDb n hn).ledger.rowsIn 0 + _ = _
    rw [rowsIn_contractDb, if_pos rfl, mul_one]
    rfl

/-- **The store that wraps the count**: with one row in each place a `uint32_t` can count, the next
row makes the count of its table zero. -/
theorem store_wraps : (contractDb (2 ^ 32 - 1) (by decide)).ledger.Consistent ∧
    (contractDb (2 ^ 32 - 1) (by decide)).ledger.slack contract = 0 ∧ ∃ s' t,
      (TableCall.dbStoreI64 contract contract contract contract (UInt64.ofNat (2 ^ 32 - 1)) []).run
          contractCtx (.start (contractDb (2 ^ 32 - 1) (by decide)) contractCtx.act) = .ok () s' ∧
        (0, t) ∈ s'.db.ledger.tables.rows ∧ t.count = 0 ∧ s'.db.ledger.rowsIn 0 = 2 ^ 32 := by
  obtain ⟨s', hrun, hmem, hrows⟩ :=
    @store_contractDb (2 ^ 32 - 1) (by norm_num) (by norm_num)
  refine ⟨contractDb_consistent (by norm_num) (by norm_num), contractDb_slack, s', _, hrun, hmem,
    by decide, ?_⟩
  rw [hrows]
  norm_num

end Sample

end Forceio.Chain
