import Forceio.Chain.TableLedger
import Forceio.Chain.TableLookups

/-!
# The pointers in the iterator caches: `apply_context.hpp`

An iterator is an index into a list of pointers to rows, and a call reaches a row through it.
`ValidCaches` is what makes the pointers good: each points to a row that exists, and no two to the
same row, so that the one that is cleared with a removed row was the only one.

* A row is reached with its table, through another pointer. It is good in a consistent ledger.
* Reading through a bad pointer is `undefinedBehavior`, the one exception the code does not throw.

Results:
* `TableCall.named`: with good pointers no call reads through a bad one.
* `Lookup.looks`: nor does a lookup, which changes nothing but the caches.
-/

namespace Forceio.Chain

open Forceio.Lib Exec Table ApplyState TableOf List
open Function

/-! ## What the calls are made of -/

section Parts

variable {Key : Type} [LinearOrder Key] {ctx : ApplyContext Key} {k : RowKind}
variable {tid : Nat} {order : RowOrder} {danglingId : Nat → Nat}

open Database (tablesTable rowsTable)

/-- A relation between states that charges and changes to the tables and rows keep. -/
structure TableRelation (ctx : ApplyContext Key) (R : ApplyState Key → ApplyState Key → Prop) :
    Prop where
  refl : ∀ s, R s s
  trans : ∀ {s t u}, R s t → R t u → R s u
  charge : ∀ payer delta, Exec.Always R (updateDbUsage ctx payer delta)
  tables : ∀ t s, R s (s.setDb (tablesTable.set t s.db))
  rows : ∀ (k : RowKind) t s, R s (s.setDb ((rowsTable k).set t s.db))

namespace TableRelation

variable {R : ApplyState Key → ApplyState Key → Prop} (h : TableRelation ctx R)

include h

theorem findOrCreateTable (code scope table payer : AccountName) :
    Exec.Always R (findOrCreateTable ctx code scope table payer) := by
  intro s tid s' hrun
  unfold Forceio.Chain.findOrCreateTable at hrun
  rw [get_bind] at hrun
  cases hfind : s.db.findTable code scope table with
  | some r =>
    rw [hfind] at hrun
    cases hrun
    exact h.refl s
  | none =>
    rw [hfind] at hrun
    obtain ⟨_, s1, hcharge, hrun⟩ := bind_ok.mp hrun
    obtain ⟨db, hdb, rfl⟩ := onDb_ok.mp hrun
    obtain ⟨tables, -, rfl⟩ := create_eq_ok_iff.mp hdb
    exact h.trans (h.charge _ _ hcharge) (h.tables _ _)

theorem rebill (oldPayer payer : AccountName) (oldSize newSize : Int) :
    Exec.Always R (rebill ctx oldPayer payer oldSize newSize) := by
  unfold Forceio.Chain.rebill
  split
  · exact .bind h.trans (h.charge _ _) fun _ => h.charge _ _
  · split
    · exact h.charge _ _
    · intro s u s' hrun
      cases hrun
      exact h.refl s

theorem modifyRow {n : Nat} {f : k.Object → k.Object} {hf : Table.KeepsKeys f} :
    Exec.Always R (onDb ((rowsTable k).modify n f hf)) := by
  intro s u s' hrun
  cases hrun
  exact h.rows k _ s

theorem createRow (o : k.Object) : Exec.Always R (onDb ((rowsTable k).create o)) := by
  intro s n s' hrun
  obtain ⟨db, hdb, rfl⟩ := onDb_ok.mp hrun
  obtain ⟨rows, -, rfl⟩ := create_eq_ok_iff.mp hdb
  exact h.rows k rows s

theorem removeRow (n : Nat) : Exec.Always R (onDb ((rowsTable k).remove n)) := by
  intro s u s' hrun
  cases hrun
  exact h.rows k _ s

theorem modifyTable {f : TableIdObject → TableIdObject} {hf : Table.KeepsKeys f} :
    Exec.Always R (onDb (tablesTable.modify tid f hf)) := by
  intro s u s' hrun
  cases hrun
  exact h.tables _ s

theorem derefTable (tid : Nat) : Exec.Always R (onDb (tablesTable.deref tid)) := by
  intro s t s' hrun
  obtain ⟨db, hdb, rfl⟩ := onDb_ok.mp hrun
  obtain ⟨-, rfl⟩ := deref_eq_ok_iff.mp hdb
  exact h.refl s

theorem removeTable (tid : Nat) (t : TableIdObject) : Exec.Always R (removeTable ctx tid t) := by
  refine .bind h.trans (h.charge _ _) fun _ => ?_
  intro s u s' hrun
  cases hrun
  exact h.tables _ s

theorem dropRow (n tid : Nat) : Exec.Always R (dropRow ctx k n tid) := by
  refine .bind h.trans h.modifyTable fun _ => .bind h.trans (h.removeRow n) fun _ => ?_
  refine .bind h.trans (h.derefTable tid) fun t => ?_
  split
  · exact h.removeTable tid t
  · intro s u s' hrun
    cases hrun
    exact h.refl s

theorem addRow (hcache : ∀ k c s, R s (s.setCache k c)) (tid : Nat) (o : k.Object) :
    Exec.Always R (addRow ctx k tid o) := by
  refine .bind h.trans (h.createRow o) fun n => .bind h.trans h.modifyTable fun _ => ?_
  refine .bind h.trans (h.charge _ _) fun _ => ?_
  intro s it s' hrun
  cases hrun
  exact hcache k _ s

omit [LinearOrder Key] h in
theorem dropIterator (hcache : ∀ k c s, R s (s.setCache k c)) (iterator : Int) :
    Exec.Always R (dropIterator k iterator) := by
  intro s u s' hrun
  obtain ⟨cache, -, hrun⟩ := lift_bind_ok.mp hrun
  cases hrun
  exact hcache k cache s

theorem tableCall (hcache : ∀ k c s, R s (s.setCache k c)) (call : TableCall) :
    Exec.Always R (call.run ctx) := by
  intro s u s' hrun
  obtain ⟨target, owner, hran⟩ : ∃ target owner, TableCall.Ran ctx s s' target owner :=
    ⟨_, _, call.ran hrun⟩
  cases hran with
  | stored make tabled add => exact h.trans (h.findOrCreateTable _ _ _ _ make) (h.addRow hcache _ _ add)
  | changed mem memTable own modify bill tabled =>
    exact h.trans (h.rebill _ _ _ _ bill) (h.modifyRow modify)
  | removed read memTable own refund drop clear =>
    have hdropped := h.trans (h.charge _ _ refund) (h.dropRow _ _ drop)
    exact h.trans hdropped (TableRelation.dropIterator hcache _ clear)

end TableRelation

end Parts

/-! ## Valid pointers -/

namespace IteratorCache

/-- **A valid cache**: each iterator that is not cleared stands for a live row, and no two for the
same. -/
structure Valid (c : IteratorCache) (live : Nat → Prop) : Prop where
  live : ∀ n, some n ∈ c.iteratorToObject → live n
  once : ∀ n, c.iteratorToObject.count (some n) ≤ 1

variable {c c' : IteratorCache} {live live' : Nat → Prop} {n : Nat} {iterator : Int}

theorem Valid.mono (h : c.Valid live) (hlive : ∀ n, live n → live' n) : c.Valid live' :=
  ⟨fun n hn => hlive n (h.live n hn), h.once⟩

theorem Valid.cacheTable (h : c.Valid live) (tid : Nat) : (c.cacheTable tid).2.Valid live := by
  unfold IteratorCache.cacheTable
  split
  · exact h
  · exact ⟨h.live, h.once⟩

theorem Valid.add (h : c.Valid live) (hn : live n) : (c.add n).2.Valid live := by
  unfold IteratorCache.add
  by_cases hmem : some n ∈ c.iteratorToObject
  · rw [if_pos hmem]
    exact h
  · rw [if_neg hmem]
    refine ⟨fun m hm => ?_, fun m => ?_⟩
    · rcases mem_append.mp hm with hm | hm
      · exact h.live m hm
      · exact Option.some.inj (mem_singleton.mp hm) ▸ hn
    · show (c.iteratorToObject ++ [some n]).count (some m) ≤ 1
      rw [count_append]
      by_cases hm : m = n
      · subst hm
        rw [count_eq_zero_of_not_mem hmem]
        simp
      · have hother : [some n].count (some m) = 0 :=
          count_eq_zero_of_not_mem (by simpa using hm)
        rw [hother]
        exact h.once m

/-- Rows that are there get iterators, and tables end iterators. -/
inductive Grows (live : Nat → Prop) (c : IteratorCache) : IteratorCache → Prop
  | refl : Grows live c c
  | cacheTable {c' : IteratorCache} (h : Grows live c c') (tid : Nat) :
      Grows live c (c'.cacheTable tid).2
  | add {c' : IteratorCache} {n : Nat} (h : Grows live c c') (hn : live n) :
      Grows live c (c'.add n).2

theorem Grows.valid (h : c.Grows live c') (hc : c.Valid live) : c'.Valid live := by
  induction h with
  | refl => exact hc
  | cacheTable _ tid ih => exact ih.cacheTable tid
  | add _ hn ih => exact ih.add hn

theorem get_eq_ok (h : c.get iterator = .ok n) :
    0 ≤ iterator ∧ c.iteratorToObject[iterator.toNat]? = some (some n) := by
  obtain ⟨-, h⟩ := assert_bind_eq_ok.mp h
  obtain ⟨hnonneg, h⟩ := assert_bind_eq_ok.mp h
  obtain ⟨-, h⟩ := assert_bind_eq_ok.mp h
  refine ⟨hnonneg, ?_⟩
  rw [getD_eq_getElem?_getD] at h
  cases hi : c.iteratorToObject[iterator.toNat]? with
  | none =>
    rw [hi] at h
    simp [throw, throwThe, MonadExceptOf.throw] at h
  | some r =>
    rw [hi] at h
    cases r with
    | none => simp [throw, throwThe, MonadExceptOf.throw] at h
    | some m =>
      cases h
      rfl

theorem remove_eq_ok (h : c.remove iterator = .ok c') :
    c'.iteratorToObject = c.iteratorToObject.set iterator.toNat none := by
  obtain ⟨-, h⟩ := assert_bind_eq_ok.mp h
  obtain ⟨-, h⟩ := assert_bind_eq_ok.mp h
  obtain ⟨-, h⟩ := assert_bind_eq_ok.mp h
  cases h
  rfl

theorem Valid.remove (h : c.Valid live) (hget : c.get iterator = .ok n)
    (hremove : c.remove iterator = .ok c') : c'.Valid fun m => live m ∧ m ≠ n := by
  obtain ⟨-, hi⟩ := get_eq_ok hget
  have hlist := remove_eq_ok hremove
  obtain ⟨hlt, hi⟩ := List.getElem?_eq_some_iff.mp hi
  have hcount : ∀ m, c'.iteratorToObject.count (some m) =
      c.iteratorToObject.count (some m) - if m = n then 1 else 0 := by
    intro m
    rw [hlist, count_set hlt, hi]
    by_cases hm : m = n
    · subst hm
      simp
    · simp [hm, Ne.symm hm]
  refine ⟨fun m hm => ⟨h.live m ?_, ?_⟩, fun m => ?_⟩
  · rw [hlist] at hm
    exact (mem_or_eq_of_mem_set hm).resolve_right (by simp)
  · rintro rfl
    have hpos := count_pos_iff.mpr hm
    have honce := h.once m
    rw [hcount m, if_pos rfl] at hpos
    omega
  · rw [hcount m]
    exact (Nat.sub_le _ _).trans (h.once m)

end IteratorCache

section Caches

variable {Key : Type} {k : RowKind} {s s' : ApplyState Key}

open Database (tablesTable rowsTable)

/-- The row is there. -/
def ApplyState.Live (s : ApplyState Key) (k : RowKind) (n : Nat) : Prop :=
  ∃ o, (n, o) ∈ (s.db.ledger.rows k).rows

/-- **The pointers in all caches are good.** -/
def ValidCaches (s : ApplyState Key) : Prop := ∀ k, (s.cache k).Valid (s.Live k)

/-- The caches did not change. -/
def SameCaches (s s' : ApplyState Key) : Prop := ∀ k, s'.cache k = s.cache k

theorem addRamUsage_sameCaches (a : AccountName) (delta : Int) :
    Exec.Always SameCaches (addRamUsage a delta : ApplyM Key Unit) := by
  intro s u s' h k
  obtain ⟨_, db, -, h⟩ := onDb_bind_ok.mp h
  cases h
  cases k <;> rfl

variable [LinearOrder Key] {ctx : ApplyContext Key}

theorem updateDbUsage_sameCaches (payer : AccountName) (delta : Int) :
    Exec.Always SameCaches (updateDbUsage ctx payer delta) := by
  intro s u s' h k
  obtain ⟨used, h⟩ := updateDbUsage_adds h
  rw [addRamUsage_sameCaches _ _ h k]
  cases k <;> rfl

theorem sameCaches_tableRelation : TableRelation ctx SameCaches where
  refl _ _ := rfl
  trans h h' k := (h' k).trans (h k)
  charge := updateDbUsage_sameCaches
  tables _ _ k := by cases k <;> rfl
  rows k _ _ k' := by cases k <;> cases k' <;> rfl

/-! ## Calls keep the pointers good -/

omit [LinearOrder Key] in
theorem cachedRow_get {iterator : Int} {n : Nat} {o : k.Object}
    (h : cachedRow k iterator s = .ok (n, o) s') : (s.cache k).get iterator = .ok n := by
  unfold cachedRow at h
  rw [get_bind] at h
  obtain ⟨m, hget, h⟩ := lift_bind_ok.mp h
  obtain ⟨o', db, -, h⟩ := onDb_bind_ok.mp h
  cases h
  exact hget

theorem addRow_change {o : k.Object} {iterator : Int} (h : addRow ctx k tid o s = .ok iterator s') :
    ∃ n rows, (s.db.ledger.rows k).create o = some (n, rows) ∧
      s'.db.ledger.rows = update s.db.ledger.rows k rows ∧
      s'.cache = update s.cache k (((s.cache k).cacheTable tid).2.add n).2 := by
  obtain ⟨n, rows, hcreate, hl⟩ := addRow_ledger h
  obtain ⟨m, s1, hrow, h⟩ := bind_ok.mp h
  obtain ⟨u, s2, hcount, h⟩ := bind_ok.mp h
  obtain ⟨v, s3, hcharge, h⟩ := bind_ok.mp h
  have hR : TableRelation ctx SameCaches := sameCaches_tableRelation
  have hsame : SameCaches s s3 :=
    hR.trans (hR.createRow o hrow) (hR.trans (hR.modifyTable hcount) (hR.charge _ _ hcharge))
  obtain rfl : m = n := by
    obtain ⟨rows', hcreate', -⟩ := createRow_ledger hrow
    rw [hcreate] at hcreate'
    exact (congrArg Prod.fst (Option.some.inj hcreate')).symm
  have hs' : s' = s3.setCache k ((((s3.cache k).cacheTable tid).2.add m).2) := by
    cases h
    rfl
  refine ⟨m, rows, hcreate, congrArg (·.rows) hl, ?_⟩
  rw [hs', setCache_cache, funext hsame]

/-- **What a call does to rows and iterators of a kind**: rows that are there get iterators, or one
row is created, changed or removed with its iterator. -/
inductive RowChange (s s' : ApplyState Key) (k : RowKind) : Prop
  | grown (hrows : s'.db.ledger.rows k = s.db.ledger.rows k)
      (hcache : (s.cache k).Grows (s.Live k) (s'.cache k))
  | created {o : k.Object} {n : Nat}
      (hcreate : (s.db.ledger.rows k).create o = some (n, s'.db.ledger.rows k))
      (hcache : (s.cache k).Grows (s'.Live k) (s'.cache k))
  | changed {n : Nat} {f : k.Object → k.Object} {hf : KeepsKeys f}
      (hrows : s'.db.ledger.rows k = (s.db.ledger.rows k).update n f hf)
      (hcache : s'.cache k = s.cache k)
  | removed {n : Nat} {iterator : Int} (hget : (s.cache k).get iterator = .ok n)
      (hremove : (s.cache k).remove iterator = .ok (s'.cache k))
      (hrows : s'.db.ledger.rows k = (s.db.ledger.rows k).remove n)

omit [LinearOrder Key] in
theorem RowChange.of_update {rows : Table k.Object} {c : IteratorCache}
    (hrows : s'.db.ledger.rows = update s.db.ledger.rows k rows)
    (hcaches : s'.cache = update s.cache k c)
    (h : s'.db.ledger.rows k = rows → s'.cache k = c → RowChange s s' k) (k' : RowKind) :
    RowChange s s' k' := by
  by_cases hk : k' = k
  · subst hk
    exact h (by rw [hrows, update_self]) (by rw [hcaches, update_self])
  · refine .grown (by rw [hrows, update_of_ne hk]) ?_
    rw [hcaches, update_of_ne hk]
    exact .refl

theorem TableCall.change (call : TableCall) (h : call.run ctx s = .ok () s') :
    ∀ k, RowChange s s' k := by
  have hR : TableRelation ctx SameCaches := sameCaches_tableRelation
  obtain ⟨target, owner, hran⟩ : ∃ target owner, TableCall.Ran ctx s s' target owner :=
    ⟨_, _, call.ran h⟩
  cases hran with
  | @stored k tid o s1 _ _ _ _ _ make tabled add =>
    obtain ⟨n, rows, hcreate, hrows, hcaches⟩ := addRow_change add
    have hrows1 : s1.db.ledger.rows = s.db.ledger.rows := by
      rcases findOrCreateTable_ledger make with ⟨t, -, rfl⟩ | ⟨t, tables, -, -, -, -, hl⟩
      · rfl
      · rw [hl]
        rfl
    rw [hrows1] at hcreate hrows
    rw [funext (hR.findOrCreateTable _ _ _ _ make)] at hcaches
    refine .of_update hrows hcaches fun hrow hcache => ?_
    subst hrow
    refine .created hcreate (hcache ▸ .add (.cacheTable .refl tid) ?_)
    exact ⟨o, (mem_create hcreate).mpr (.inr rfl)⟩
  | @changed k n o s1 t f hf mem memTable own modify bill tabled =>
    have hl := modifyRow_ledger modify
    rw [rebill_ledger bill] at hl
    have hrows : s'.db.ledger.rows =
        update s.db.ledger.rows k ((s.db.ledger.rows k).update n f hf) := congrArg (·.rows) hl
    have hsame : SameCaches s s' := hR.trans (hR.rebill _ _ _ _ bill) (hR.modifyRow modify)
    exact .of_update hrows (by rw [funext hsame, update_eq_self]) .changed
  | @removed k n o s1 s2 t iterator read memTable own refund drop clear =>
    have hrefund := updateDbUsage_ledger refund
    have hsame : SameCaches s s2 := hR.trans (hR.charge _ _ refund) (hR.dropRow _ _ drop)
    obtain ⟨c, hc, h⟩ := lift_bind_ok.mp clear
    cases h
    rw [hsame k] at hc
    refine .of_update ?_ ?_ fun hrow hcache => .removed (cachedRow_get read) (hcache ▸ hc) hrow
    · rw [setCache_db]
      rcases dropRow_ledger (by rwa [hrefund]) drop with ⟨-, hl⟩ | ⟨-, hl⟩
      · rw [hl, hrefund]
        rfl
      · rw [hl, hrefund]
        rfl
    · rw [setCache_cache, funext hsame]

omit [LinearOrder Key] in
theorem RowChange.valid (h : RowChange s s' k) (hs : (s.cache k).Valid (s.Live k)) :
    (s'.cache k).Valid (s'.Live k) := by
  cases h with
  | grown hrows hcache =>
    unfold ApplyState.Live
    rw [hrows]
    exact hcache.valid hs
  | created hcreate hcache =>
    refine hcache.valid (hs.mono ?_)
    rintro m ⟨o, ho⟩
    exact ⟨o, (mem_create hcreate).mpr (.inl ho)⟩
  | @changed n f hf hrows hcache =>
    -- the changed row is still there
    rw [hcache]
    refine hs.mono fun m hm => ?_
    unfold ApplyState.Live
    rw [hrows]
    exact exists_mem_update hf hm
  | removed hget hremove hrows =>
    -- the iterator is cleared with its row
    refine (hs.remove hget hremove).mono ?_
    rintro m ⟨⟨o, ho⟩, hne⟩
    exact ⟨o, by rw [hrows]; exact mem_remove.mpr ⟨ho, hne⟩⟩

end Caches

/-! ## No call reads through a bad pointer -/

/-- An exception that the code throws. -/
def FcException.Named (e : FcException) : Prop := e.type ≠ .undefinedBehavior

open FcException (Named)
open Exec (Throws Fails)

namespace IteratorCache

variable (c : IteratorCache) (iterator : Int)

theorem assert_named {cond : Prop} [Decidable cond] {type : ExceptionType} {what : String}
    (h : type ≠ .undefinedBehavior) : Fails Named (eosAssert cond type what) :=
  eosAssert_fails h

theorem get_named : Fails Named (c.get iterator) := by
  refine .bind (assert_named (by decide)) fun _ _ => .bind (assert_named (by decide)) fun _ _ => ?_
  refine .bind (assert_named (by decide)) fun _ _ => ?_
  split
  · exact .ok _
  · exact .error fun h => by cases h

theorem remove_named : Fails Named (c.remove iterator) := by
  refine .bind (assert_named (by decide)) fun _ _ => .bind (assert_named (by decide)) fun _ _ => ?_
  exact .bind (assert_named (by decide)) fun _ _ => .ok _

theorem findTableByEndIterator_named : Fails Named (c.findTableByEndIterator iterator) :=
  .bind (assert_named (by decide)) fun _ _ => .ok _

theorem getEndIteratorByTableId_named (tid : Nat) :
    Fails Named (c.getEndIteratorByTableId tid) := by
  unfold getEndIteratorByTableId
  split
  · exact .ok _
  · exact .error fun h => by cases h

end IteratorCache

section Named

variable {Key : Type} {α : Type} {k : RowKind} {s : ApplyState Key}

open Database (tablesTable rowsTable)

theorem require_named {σ : Type} {s : σ} {c : Prop} [Decidable c] {type : ExceptionType}
    {what : String} (h : type ≠ .undefinedBehavior) : Throws Named (require c type what) s :=
  require_throws fun _ => h

theorem TableOf.create_named {σ : Type} {s : σ} [Indexed α] (T : TableOf σ α) (a : α) :
    Throws Named (T.create a) s := create_throws fun h => by cases h

theorem addPendingRamUsage_named {r : ResourceDb} (a : AccountName) (delta : Int) :
    Throws Named (addPendingRamUsage a delta) r := by
  unfold addPendingRamUsage
  split
  · exact .of_ok rfl
  · refine .bind (get_throws fun h => by cases h) fun _ _ _ => .bind (require_named (by decide)) fun _ _ _ => ?_
    exact .bind (require_named (by decide)) fun _ _ _ => .of_ok rfl

theorem addRamUsage_named (a : AccountName) (delta : Int) : Throws Named (addRamUsage a delta) s :=
  .bind (.zoom (.zoom (addPendingRamUsage_named a delta))) fun _ _ _ => .of_ok rfl

theorem dropIterator_named (k : RowKind) (iterator : Int) :
    Throws Named (dropIterator k iterator) s :=
  .get_bind (.bind (.lift ((s.cache k).remove_named iterator)) fun _ _ _ => .of_ok rfl)

theorem cachedRow_named {iterator : Int} (hs : ValidCaches s) :
    Throws Named (cachedRow k iterator) s := by
  refine .get_bind (.bind (.lift ((s.cache k).get_named iterator)) fun n t hget => ?_)
  obtain ⟨hget, rfl⟩ := lift_ok.mp hget
  obtain ⟨o, ho⟩ := (hs k).live n (mem_of_getElem? (IteratorCache.get_eq_ok hget).2)
  refine .bind (.zoom (deref_throws (a := o) ?_)) fun _ _ _ => .of_ok rfl
  rw [Database.rowsTable_table]
  exact ho

variable [LinearOrder Key] {ctx : ApplyContext Key}

theorem updateDbUsage_named (payer : AccountName) (delta : Int) :
    Throws Named (updateDbUsage ctx payer delta) s := by
  unfold updateDbUsage
  split
  · refine .bind (require_named (by decide)) fun _ _ _ => ?_
    refine .bind (requireAuthorization_throws fun h => by cases h) fun _ _ _ => ?_
    exact addRamUsage_named payer delta
  · exact addRamUsage_named payer delta

theorem findOrCreateTable_named (code scope table payer : AccountName) :
    Throws Named (findOrCreateTable ctx code scope table payer) s := by
  refine .get_bind ?_
  cases s.db.findTable code scope table with
  | some r => exact .of_ok rfl
  | none =>
    exact .bind (updateDbUsage_named _ _) fun _ _ _ => .zoom (create_named _ _)

theorem addRow_named (tid : Nat) (o : k.Object) : Throws Named (addRow ctx k tid o) s := by
  refine .bind (.zoom (create_named _ _)) fun n _ _ => .bind (.of_ok rfl) fun _ _ _ => ?_
  exact .bind (updateDbUsage_named _ _) fun _ _ _ => .of_ok rfl

theorem rebill_named (oldPayer payer : AccountName) (oldSize newSize : Int) :
    Throws Named (rebill ctx oldPayer payer oldSize newSize) s := by
  unfold rebill
  split
  · exact .bind (updateDbUsage_named _ _) fun _ _ _ => updateDbUsage_named _ _
  · split
    · exact updateDbUsage_named _ _
    · exact .of_ok rfl

theorem writableTable_named {t : TableIdObject} (ht : (tid, t) ∈ s.db.ledger.tables.rows) :
    Throws Named (writableTable ctx k tid) s := by
  refine .get_bind (.bind (require_named (by decide)) fun _ s1 hcached => ?_)
  obtain ⟨-, rfl⟩ := require_ok.mp hcached
  exact .bind (.zoom (deref_throws ht)) fun _ _ _ => require_named (by decide)

theorem dropRow_named {n : Nat} {t : TableIdObject} (ht : (tid, t) ∈ s.db.ledger.tables.rows) :
    Throws Named (dropRow ctx k n tid) s := by
  refine .bind (.of_ok rfl) fun u s1 hcount => .bind (.of_ok rfl) fun v s2 hremove => ?_
  have ht2 : (tid, t.decCount) ∈ s2.db.ledger.tables.rows := by
    rw [removeRow_ledger hremove]
    cases hcount
    exact mem_countDown ht
  refine .bind (.zoom (deref_throws ht2)) fun t' s3 _ => ?_
  split
  · exact .bind (updateDbUsage_named _ _) fun _ _ _ => .of_ok rfl
  · exact .of_ok rfl

omit [LinearOrder Key] in
/-- The calls that go through an iterator: its row and the table of the row are there. -/
theorem cachedRow_bind_named {β : Type} {iterator : Int} {rest : Nat × k.Object → ApplyM Key β}
    (hs : ValidCaches s) (hl : s.db.ledger.Consistent)
    (hrest : ∀ n o t, (k.tId o, t) ∈ s.db.ledger.tables.rows → Throws Named (rest (n, o)) s) :
    Throws Named (cachedRow k iterator >>= rest) s := by
  refine .bind (cachedRow_named hs) fun r s1 hrow => ?_
  obtain ⟨n, o⟩ := r
  obtain ⟨rfl, hmem⟩ := cachedRow_ledger hrow
  obtain ⟨t, ht⟩ := hl.tabled k (n, o) hmem
  exact hrest n o t ht

/-- **With good pointers no call reads through a bad one.** -/
theorem TableCall.named (call : TableCall) (hs : ValidCaches s) (hl : s.db.ledger.Consistent) :
    Throws Named (call.run ctx) s := by
  cases call with
  | dbStoreI64 code scope table payer id buffer =>
    refine .bind (.bind (findOrCreateTable_named _ _ _ _) fun tid _ _ => ?_) fun _ _ _ => .of_ok rfl
    exact .bind (require_named (by decide)) fun _ _ _ => addRow_named tid _
  | indexStore i scope table payer id value =>
    refine .bind (.bind (require_named (by decide)) fun _ _ _ => ?_) fun _ _ _ => .of_ok rfl
    exact .bind (findOrCreateTable_named _ _ _ _) fun tid _ _ => addRow_named tid _
  | dbUpdateI64 | indexUpdate =>
    refine cachedRow_bind_named hs hl fun n o t ht => ?_
    refine .bind (writableTable_named ht) fun _ _ _ => ?_
    exact .bind (rebill_named _ _ _ _) fun _ _ _ => .of_ok rfl
  | dbRemoveI64 iterator =>
    refine cachedRow_bind_named hs hl fun n o t ht => ?_
    refine .bind (writableTable_named ht) fun _ s1 hwritable => ?_
    obtain ⟨rfl, -⟩ := writableTable_ledger hwritable
    refine .bind (updateDbUsage_named _ _) fun _ s2 hrefund => ?_
    refine .bind (dropRow_named (t := t) ?_) fun _ _ _ => dropIterator_named _ _
    rw [updateDbUsage_ledger hrefund]
    exact ht
  | indexRemove i iterator =>
    refine cachedRow_bind_named hs hl fun n o t ht => ?_
    refine .bind (updateDbUsage_named _ _) fun _ s1 hrefund => ?_
    have ht1 : (RowKind.tId (.index i) o, t) ∈ s1.db.ledger.tables.rows := by
      rw [updateDbUsage_ledger hrefund]
      exact ht
    refine .bind (writableTable_named ht1) fun _ s2 hwritable => ?_
    obtain ⟨rfl, -⟩ := writableTable_ledger hwritable
    exact .bind (dropRow_named ht1) fun _ _ _ => dropIterator_named _ _

end Named

/-! ## Lookups -/

section Lookups

variable {Key α β : Type} {k : RowKind} {s s' : ApplyState Key} {tid : Nat} {order : RowOrder}
  {danglingId : Nat → Nat} {iterator : Int}

/-- Only the caches changed: rows that are there got iterators. -/
structure LooksUp (s s' : ApplyState Key) : Prop where
  db : s'.db = s.db
  grows : ∀ k, (s.cache k).Grows (s.Live k) (s'.cache k)

theorem LooksUp.refl (s : ApplyState Key) : LooksUp s s := ⟨rfl, fun _ => .refl⟩

theorem LooksUp.setCache {c : IteratorCache} (h : LooksUp s s')
    (hc : (s.cache k).Grows (s.Live k) c) : LooksUp s (s'.setCache k c) := by
  refine ⟨(setCache_db _ _ _).trans h.db, fun k' => ?_⟩
  rw [setCache_cache]
  by_cases hk : k' = k
  · subst hk
    rwa [update_self]
  · rw [update_of_ne hk]
    exact h.grows k'

theorem LooksUp.cacheTable (tid : Nat) : LooksUp s (s.setCache k ((s.cache k).cacheTable tid).2) :=
  (refl s).setCache (.cacheTable .refl tid)

theorem LooksUp.add {r : Nat × k.Object} (h : LooksUp s s') (hr : r ∈ (s.db.rows k).rows) :
    LooksUp s (s'.setCache k ((s'.cache k).add r.1).2) :=
  h.setCache (.add (h.grows k) ⟨r.2, hr⟩)

theorem LooksUp.change (h : LooksUp s s') (k : RowKind) : RowChange s s' k :=
  .grown (by rw [h.db]) (h.grows k)

/-- **Code that only looks up**: it changes nothing but the caches, and with good pointers throws
only what the code throws. -/
structure Looks (m : ApplyM Key α) (s : ApplyState Key) : Prop where
  ok : ∀ {a s'}, m s = .ok a s' → LooksUp s s'
  named : ValidCaches s → Throws Named m s

namespace Looks

variable {m : ApplyM Key α} {f : α → ApplyM Key β}

theorem of_ok {a : α} (h : m s = .ok a s') (hs : LooksUp s s') : Looks m s where
  ok := by
    intro b t hb
    cases h.symm.trans hb
    exact hs
  named _ := .of_ok h

theorem get_bind {f : ApplyState Key → ApplyM Key α} (hf : Looks (f s) s) : Looks (get >>= f) s :=
  ⟨hf.ok, hf.named⟩

theorem read_bind (hread : ∀ {a s'}, m s = .ok a s' → s' = s)
    (hnamed : ValidCaches s → Throws Named m s) (hf : ∀ a, Looks (f a) s) : Looks (m >>= f) s where
  ok h := by
    obtain ⟨a, t, ha, h⟩ := bind_ok.mp h
    rw [hread ha] at h
    exact (hf a).ok h
  named hs := .bind (hnamed hs) fun a t ha => by
    rw [hread ha]
    exact (hf a).named hs

theorem lift_bind {x : Except FcException α} (hx : Fails Named x) (hf : ∀ a, Looks (f a) s) :
    Looks (lift x >>= f) s :=
  read_bind (fun h => (lift_ok.mp h).2) (fun _ => .lift hx) hf

theorem cachedRow_bind {f : Nat × k.Object → ApplyM Key β} (hf : ∀ r, Looks (f r) s) :
    Looks (cachedRow k iterator >>= f) s :=
  read_bind (fun h => (cachedRow_ledger h).1) cachedRow_named hf

end Looks

/-- A search that finds rows among those it is given. -/
theorem searchTable_looks {code scope table : AccountName}
    {search : Nat → List (Nat × k.Object) → Option (Nat × k.Object)}
    (hsearch : ∀ tid rows r, search tid rows = some r → r ∈ rows) :
    Looks (searchTable k code scope table search) s := by
  refine .get_bind ?_
  cases s.db.findTable code scope table with
  | none => exact .of_ok rfl (.refl s)
  | some found =>
    cases hr : search found.1 (s.db.rows k).rows with
    | none => exact .of_ok (by simp only [hr]; rfl) (.cacheTable found.1)
    | some r =>
      simp only [hr]
      split
      · exact .of_ok rfl (.add (.cacheTable found.1) (hsearch _ _ _ hr))
      · exact .of_ok rfl (.cacheTable found.1)

theorem stepBack_looks {before : k.Object → Bool} : Looks (stepBack k order tid before) s := by
  refine .get_bind ?_
  cases hr : firstRow (fun a b => rowBefore order b a) before (s.db.rows k).rows with
  | none => exact .of_ok rfl (.refl s)
  | some r =>
    show Looks (if k.tId r.2 = tid then handBack k r else pure (-1, none)) s
    split
    · exact .of_ok rfl (.add (.refl s) (of_firstRow hr).1)
    · exact .of_ok rfl (.refl s)

theorem nextRow_looks : Looks (nextRow k order iterator) s := by
  unfold nextRow
  split
  · exact .of_ok rfl (.refl s)
  · refine .cachedRow_bind fun r => ?_
    have hend : Looks (do
        let tableEnd ← lift ((s.cache k).getEndIteratorByTableId (k.tId r.2))
        pure (tableEnd, (none : Option k.Object))) s :=
      .lift_bind ((s.cache k).getEndIteratorByTableId_named _) fun _ => .of_ok rfl (.refl s)
    refine .get_bind ?_
    cases hr : firstRow (rowBefore order) (rowBefore order r.2) (s.db.rows k).rows with
    | none => exact hend
    | some next =>
      show Looks (if k.tId next.2 = k.tId r.2 then handBack k next else _) s
      split
      · exact .of_ok rfl (.add (.refl s) (of_firstRow hr).1)
      · exact hend

theorem previousRow_looks : Looks (previousRow danglingId k order iterator) s := by
  unfold previousRow
  split
  · refine .get_bind (.lift_bind ((s.cache k).findTableByEndIterator_named iterator) fun found => ?_)
    cases found with
    | none => exact ⟨fun h => absurd h (by simp [lift]), fun _ => .lift (.error fun h => by cases h)⟩
    | some cached => exact stepBack_looks
  · exact .cachedRow_bind fun _ => stepBack_looks

/-- **A lookup changes nothing but the caches**, and reads no row through a bad pointer. -/
theorem Lookup.looks (call : Lookup k) : Looks (call.run danglingId) s := by
  cases call with
  | find | lowerbound | upperbound => exact searchTable_looks fun _ _ _ hr => (of_firstRow hr).1
  | endOf code scope table =>
    show Looks (searchTable k code scope table fun _ _ => none) s
    exact searchTable_looks fun _ _ _ hr => absurd hr (by simp)
  | next order iterator => exact nextRow_looks
  | previous order iterator => exact previousRow_looks
  | get iterator => exact .cachedRow_bind fun _ => .of_ok rfl (.refl s)

end Lookups

end Forceio.Chain
