import Forceio.Chain.ResourceLimits

/-!
# The totals of the account limits

`set_account_limits` writes the limits of an account to a second, pending object, and
`process_account_limit_updates` moves the pending objects into the actual ones, one account at a time
by owner, with a running total per resource. A negative limit is no limit and counts as zero.

* `Resource` is which of the three limits is meant; the same is said of all of them.
* `LimitOp.noted` is what the calls are for: a map from accounts to the limits last set.
* `Fits`: each account with the larger of its actual and its pending limit, all accounts fit a
  `uint64_t`. The running total stays below that sum, whatever was moved so far.

Results:
* `accountLimits_settled`: in every run the totals are the sums of the actual limits, and where the
  limits fit, processing returns and leaves the limits last set.
* `process_overflows`: limits that fit before and after, and a running total that does not.
-/

namespace Forceio.Chain

open Forceio.Lib ResourceDb ResourceLimitsObject Exec Table TableOf
open Function

/-! ## Limits by resource -/

/-- What a limit is about. -/
inductive Resource where
  | ram
  | cpu
  | net
  deriving DecidableEq

namespace Resource

/-- The limit of an object. -/
def value : Resource → ResourceLimitsObject → Int
  | .ram, o => o.ramBytes
  | .cpu, o => o.cpuWeight
  | .net, o => o.netWeight

/-- The total in the state object. -/
def total : Resource → ResourceLimitsState → Nat
  | .ram, s => s.totalRamBytes
  | .cpu, s => s.totalCpuWeight
  | .net, s => s.totalNetWeight

/-- The arguments of `set_account_limits`. -/
def given (ramBytes netWeight cpuWeight : Int) : Resource → Int
  | .ram => ramBytes
  | .cpu => cpuWeight
  | .net => netWeight

/-- What an object counts for in the total: an actual, positive limit. -/
def actual (r : Resource) (o : ResourceLimitsObject) : Int :=
  if o.pending then 0 else max (r.value o) 0

theorem actual_nonneg (r : Resource) (o : ResourceLimitsObject) : 0 ≤ r.actual o := by
  unfold actual
  split
  · exact le_rfl
  · exact le_max_right _ _

end Resource

variable {db db' : ResourceDb} {a b : AccountName} {n : Nat} {o : ResourceLimitsObject}
  {row : Nat × ResourceLimitsObject} {r : Resource}

variable {limits : Table ResourceLimitsObject}

namespace ResourceDb

/-- The actual, or the pending, object of an account. -/
def limitsRow (db : ResourceDb) (pending : Bool) (a : AccountName) :
    Option (Nat × ResourceLimitsObject) :=
  db.limits.find? fun o => decide (o.pending = pending ∧ o.owner = a)

theorem limitsRow_true : (db.limits.find? fun o => o.pending && o.owner = a) = db.limitsRow true a := by
  congr 1
  funext o
  simp

theorem limitsRow_false :
    (db.limits.find? fun o => !o.pending && o.owner = a) = db.limitsRow false a := by
  congr 1
  funext o
  simp

variable {pending : Bool}

theorem limitsRow_eq_some_iff : db.limitsRow pending a = some (n, o) ↔
      (n, o) ∈ db.limits.rows ∧ o.pending = pending ∧ o.owner = a := by
  constructor
  · intro h
    exact ⟨mem_of_find? h, by simpa using of_find? h⟩
  · rintro ⟨hmem, hp, ho⟩
    refine find?_eq_some_of_mem hmem (by simp [hp, ho]) fun b hb => ?_
    obtain ⟨hp', ho'⟩ := of_decide_eq_true hb
    exact ⟨hp'.trans hp.symm, ho'.trans ho.symm⟩

theorem limitsRow_eq_none_iff : db.limitsRow pending a = none ↔
      ∀ row ∈ db.limits.rows, row.2.pending = pending → row.2.owner ≠ a := by
  rw [limitsRow, find?_eq_none]
  simp

theorem limitsRow_create (h : db.limits.create o = some (n, limits)) (hdb : db'.limits = limits) :
    db'.limitsRow pending b = (db.limitsRow pending b).or
      (if o.pending = pending ∧ o.owner = b then some (n, o) else none) := by
  unfold limitsRow
  rw [hdb, find?_create h]
  simp

theorem limitsRow_remove (h : (n, o) ∈ db.limits.rows) (hdb : db'.limits = db.limits.remove n) :
    db'.limitsRow pending b =
      if o.pending = pending ∧ o.owner = b then none else db.limitsRow pending b := by
  have hmem : ∀ row, row ∈ db'.limits.rows ↔ row ∈ db.limits.rows ∧ row.1 ≠ n := fun row => by
    rw [hdb, mem_remove]
  split
  · rename_i hkey
    refine limitsRow_eq_none_iff.mpr fun row hrow hp ho => ?_
    obtain ⟨hold, hne⟩ := (hmem row).mp hrow
    exact hne (congrArg Prod.fst (eq_of_clash hold h
      ⟨hp.trans hkey.1.symm, ho.trans hkey.2.symm⟩))
  · rename_i hkey
    refine Option.ext fun row => ?_
    rw [limitsRow_eq_some_iff, limitsRow_eq_some_iff, hmem]
    constructor
    · rintro ⟨⟨hold, -⟩, hrest⟩
      exact ⟨hold, hrest⟩
    · rintro ⟨hold, hp, ho⟩
      refine ⟨⟨hold, fun hid => hkey ?_⟩, hp, ho⟩
      cases eq_of_id hold h hid
      exact ⟨hp, ho⟩

/-- The limits of the object under `n` changed. -/
def changeLimits (db : ResourceDb) (n : Nat) (ram net cpu : Int) : ResourceDb :=
  { db with limits := db.limits.update n (.setLimits ram net cpu) (setLimits_keepsKeys ram net cpu) }

theorem limitsRow_changeLimits {ram net cpu : Int} (h : (n, o) ∈ db.limits.rows) :
    (db.changeLimits n ram net cpu).limitsRow pending b =
      if o.pending = pending ∧ o.owner = b then some (n, o.setLimits ram net cpu)
      else db.limitsRow pending b := by
  have hupdate : (db.changeLimits n ram net cpu).limitsRow pending b =
      (db.limitsRow pending b).map (updateRow n (.setLimits ram net cpu)) := by
    unfold changeLimits limitsRow
    rw [find?_update]
    exact fun _ => rfl
  rw [hupdate]
  split
  · rename_i hkey
    rw [limitsRow_eq_some_iff.mpr ⟨h, hkey.1, hkey.2⟩]
    simp [updateRow]
  · rename_i hkey
    cases hrow : db.limitsRow pending b with
    | none => rfl
    | some row =>
      obtain ⟨hmem, hp, ho⟩ := limitsRow_eq_some_iff.mp hrow
      have hne : row.1 ≠ n := fun hid => hkey (by
        cases eq_of_id hmem h hid
        exact ⟨hp, ho⟩)
      simp [updateRow, hne]

/-- The limits last set for an account. -/
def lastSet (db : ResourceDb) (a : AccountName) : Option (Resource → Int) :=
  ((db.limitsRow true a).or (db.limitsRow false a)).map fun row r => r.value row.2

/-- The actual limits of an account. -/
def actualLimits (db : ResourceDb) (a : AccountName) : Option (Resource → Int) :=
  (db.limitsRow false a).map fun row r => r.value row.2

/-- What an account counts for at most while pending objects are applied. -/
def peak (db : ResourceDb) (r : Resource) (o : ResourceLimitsObject) : Int :=
  if o.pending then 0
  else max (r.actual o) ((db.lastSet o.owner).elim 0 fun v => max (v r) 0)

/-- All accounts, each with the larger of its actual and its pending limit, fit a `uint64_t`. -/
def Fits (db : ResourceDb) : Prop := ∀ r, db.limits.total (db.peak r) < 2 ^ 64

/-- The totals are the sums of the actual limits, and a pending object has an actual one. -/
structure Kept (db : ResourceDb) : Prop where
  totals : ∀ r : Resource, (r.total db.state : Int) = db.limits.total r.actual
  backed : ∀ a, db.limitsRow false a = none → db.limitsRow true a = none

end ResourceDb

/-! ## `initialize_account` -/

/-- What `initialize_account` does to the limits: a new actual object, unless there is one. -/
theorem initializeAccount_cases (a : AccountName) (db : ResourceDb) :
    ((∃ row, db.limitsRow false a = some row) ∧ stateOf (initializeAccount a db) = db) ∨
      (db.limitsRow false a = none ∧ ∃ n limits,
        db.limits.create { owner := a } = some (n, limits) ∧
          (stateOf (initializeAccount a db)).limits = limits ∧
          (stateOf (initializeAccount a db)).state = db.state) := by
  have hclash : ∀ row : Nat × ResourceLimitsObject,
      Indexed.clash row.2 ({ owner := a } : ResourceLimitsObject) ↔
        row.2.pending = false ∧ row.2.owner = a := fun row => Iff.rfl
  cases hcreate : db.limits.create { owner := a } with
  | none =>
    obtain ⟨row, hmem, hrow⟩ := create_eq_none.mp hcreate
    refine Or.inl ⟨⟨row, limitsRow_eq_some_iff.mpr ⟨hmem, (hclash row).mp hrow⟩⟩, ?_⟩
    have hthrow : limitsTable.create { owner := a } db = .error ⟨.logicError,
        "could not insert object, most likely a uniqueness constraint was violated"⟩ db := by
      unfold TableOf.create
      rw [show limitsTable.table db = db.limits from rfl, hcreate]
    unfold initializeAccount
    rw [bind_of_error hthrow]
    rfl
  | some p =>
    obtain ⟨n, limits⟩ := p
    have hnew := (create_eq_some hcreate).1
    have hok : limitsTable.create { owner := a } db = .ok n { db with limits := limits } :=
      create_eq_ok_iff.mpr ⟨limits, hcreate, rfl⟩
    refine Or.inr ⟨limitsRow_eq_none_iff.mpr fun row hmem hp ho =>
      hnew row hmem ((hclash row).mpr ⟨hp, ho⟩), n, limits, rfl, ?_⟩
    unfold initializeAccount
    rw [bind_of_ok hok]
    cases husage : usagesTable.create { owner := a } { db with limits := limits } with
    | error e db' =>
      rw [bind_of_error husage]
      unfold TableOf.create at husage
      split at husage
      · simp at husage
      · cases husage
        exact ⟨rfl, rfl⟩
    | ok m db' =>
      rw [bind_of_ok husage]
      obtain ⟨usages, -, rfl⟩ := create_eq_ok_iff.mp husage
      exact ⟨rfl, rfl⟩

/-- The calls on the limits of accounts. -/
inductive LimitOp where
  | initializeAccount (account : AccountName)
  | setAccountLimits (account : AccountName) (ramBytes netWeight cpuWeight : Int)
  | processAccountLimitUpdates
  deriving DecidableEq

/-- The database after a call, also after one that throws. -/
def LimitOp.after : LimitOp → ResourceDb → ResourceDb
  | .initializeAccount a, db => stateOf (Chain.initializeAccount a db)
  | .setAccountLimits a ram net cpu, db => stateOf (Chain.setAccountLimits a ram net cpu db)
  | .processAccountLimitUpdates, db => stateOf (Chain.processAccountLimitUpdates db)

/-- What a call is for: the limits last set of each account. A new account has none, `-1`, and limits
are set only for an account there is. -/
def LimitOp.noted : LimitOp → (AccountName → Option (Resource → Int)) →
    AccountName → Option (Resource → Int)
  | .initializeAccount a, m => update m a ((m a).or (some fun _ => -1))
  | .setAccountLimits a ram net cpu, m =>
    update m a ((m a).map fun _ => Resource.given ram net cpu)
  | .processAccountLimitUpdates, m => m

open LimitOp (after noted)

theorem ResourceDb.Kept.lastSet_eq_none (h : db.Kept) (hrow : db.limitsRow false a = none) :
    db.lastSet a = none := by
  unfold lastSet
  rw [h.backed a hrow, hrow]
  rfl

/-- **A new account**: the totals stay, as it has no limits. -/
theorem ResourceDb.Kept.initializeAccount (h : db.Kept) (a : AccountName) :
    ((LimitOp.initializeAccount a).after db).Kept ∧
      ((LimitOp.initializeAccount a).after db).lastSet =
        (LimitOp.initializeAccount a).noted db.lastSet := by
  rcases initializeAccount_cases a db with ⟨⟨row, hrow⟩, hdb⟩ | ⟨hnone, n, limits, hcreate, hl, hs⟩
  · have hsome : (db.lastSet a).or (some fun _ => -1) = db.lastSet a := by
      unfold lastSet
      rw [hrow]
      cases db.limitsRow true a <;> rfl
    refine ⟨by rw [after, hdb]; exact h, ?_⟩
    rw [after, hdb, noted, hsome, update_eq_self]
  · have hrows : ∀ pending b, ((LimitOp.initializeAccount a).after db).limitsRow pending b =
        (db.limitsRow pending b).or (if false = pending ∧ a = b then some (n, { owner := a })
          else none) := fun pending b => limitsRow_create hcreate hl
    refine ⟨⟨fun r => ?_, fun b hb => ?_⟩, ?_⟩
    · have hzero : r.actual { owner := a } = 0 := by cases r <;> rfl
      show (r.total (stateOf (Chain.initializeAccount a db)).state : Int) = _
      rw [hs, h.totals r]
      show _ = (stateOf (Chain.initializeAccount a db)).limits.total _
      rw [hl, total_create hcreate, hzero, add_zero]
    · rw [hrows] at hb ⊢
      rw [h.backed b (Option.or_eq_none_iff.mp hb).1]
      simp
    · funext b
      by_cases hab : a = b
      · subst hab
        rw [noted, update_self, h.lastSet_eq_none hnone]
        unfold lastSet
        rw [hrows, hrows, hnone, h.backed a hnone]
        simp only [Bool.false_eq_true, false_and, if_false, and_self, if_true, Option.none_or,
          Option.map_some, Option.some.injEq]
        funext r
        cases r <;> rfl
      · rw [noted, update_of_ne (Ne.symm hab)]
        unfold lastSet
        rw [hrows, hrows]
        simp [hab]

/-! ## `set_account_limits` -/

/-- What `set_account_limits` does: it changes the pending object, or creates one, or throws for an
account without limits. -/
theorem setAccountLimits_cases (a : AccountName) (ram net cpu : Int) (db : ResourceDb) :
    (∃ n o, db.limitsRow true a = some (n, o) ∧ stateOf (setAccountLimits a ram net cpu db) =
        db.changeLimits n ram net cpu) ∨
      (db.limitsRow true a = none ∧ ∃ m o n limits, db.limitsRow false a = some (m, o) ∧
        db.limits.create { o with pending := true } = some (n, limits) ∧
        stateOf (setAccountLimits a ram net cpu db) =
          ({ db with limits := limits } : ResourceDb).changeLimits n ram net cpu) ∨
      (db.limitsRow true a = none ∧ db.limitsRow false a = none ∧
        stateOf (setAccountLimits a ram net cpu db) = db) := by
  have hfind : limitsTable.find (fun o => o.pending && o.owner = a) db =
      .ok (db.limitsRow true a) db := by
    rw [← limitsRow_true]
    rfl
  cases hpending : db.limitsRow true a with
  | some row =>
    obtain ⟨n, o⟩ := row
    rw [hpending] at hfind
    have hfound : findOrCreatePendingLimits a db = .ok (n, o) db := bind_of_ok hfind
    refine Or.inl ⟨n, o, rfl, ?_⟩
    unfold setAccountLimits
    rw [bind_of_ok hfound]
    rfl
  | none =>
    rw [hpending] at hfind
    have hnew : findOrCreatePendingLimits a db = _ := bind_of_ok hfind
    refine Or.inr ?_
    cases hactual : db.limitsRow false a with
    | none =>
      have hget : limitsTable.get (fun o => !o.pending && o.owner = a) db =
          .error ⟨.outOfRange, "unknown key"⟩ db := by
        unfold TableOf.get
        rw [show limitsTable.table db = db.limits from rfl, limitsRow_false, hactual]
      refine Or.inr ⟨rfl, rfl, ?_⟩
      unfold setAccountLimits
      rw [bind_of_error (hnew.trans (bind_of_error hget))]
      rfl
    | some row =>
      obtain ⟨m, o⟩ := row
      obtain ⟨-, -, ho⟩ := limitsRow_eq_some_iff.mp hactual
      have hget : limitsTable.get (fun o => !o.pending && o.owner = a) db = .ok (m, o) db :=
        get_eq_ok_iff.mpr ⟨limitsRow_false.trans hactual, rfl⟩
      cases hcreate : db.limits.create { o with pending := true } with
      | none =>
        obtain ⟨row, hmem, hp, ho'⟩ := create_eq_none.mp hcreate
        exact absurd (ho'.trans ho) (limitsRow_eq_none_iff.mp hpending row hmem hp)
      | some p =>
        obtain ⟨n, limits⟩ := p
        have hcreated : limitsTable.create { o with pending := true } db =
            .ok n { db with limits := limits } :=
          create_eq_ok_iff.mpr ⟨limits, hcreate, rfl⟩
        refine Or.inl ⟨rfl, m, o, n, limits, rfl, hcreate, ?_⟩
        unfold setAccountLimits
        rw [bind_of_ok (hnew.trans ((bind_of_ok hget).trans (bind_of_ok hcreated)))]
        rfl

theorem total_changeLimits_pending {ram net cpu : Int} (h : (n, o) ∈ db.limits.rows)
    (hp : o.pending = true) :
    (db.changeLimits n ram net cpu).limits.total r.actual = db.limits.total r.actual := by
  have hzero : ∀ o' : ResourceLimitsObject, o'.pending = true → r.actual o' = 0 := fun o' ho => by
    rw [Resource.actual, if_pos ho]
  have hupdate : (db.changeLimits n ram net cpu).limits.total r.actual =
      db.limits.total r.actual - r.actual o + r.actual (o.setLimits ram net cpu) := by
    unfold ResourceDb.changeLimits
    rw [total_update h]
  rw [hupdate, hzero o hp, hzero (o.setLimits ram net cpu) hp]
  ring

theorem ResourceDb.Kept.changeLimits {ram net cpu : Int} (h : db.Kept)
    (hrow : db.limitsRow true a = some (n, o)) :
    (db.changeLimits n ram net cpu).Kept ∧ (db.changeLimits n ram net cpu).lastSet =
      (LimitOp.setAccountLimits a ram net cpu).noted db.lastSet := by
  obtain ⟨hmem, hp, ho⟩ := limitsRow_eq_some_iff.mp hrow
  refine ⟨⟨fun r => ?_, fun b hb => ?_⟩, ?_⟩
  · rw [total_changeLimits_pending hmem hp]
    exact h.totals r
  · rw [limitsRow_changeLimits hmem, if_neg (by simp [hp])] at hb
    rw [limitsRow_changeLimits hmem, if_neg, h.backed b hb]
    rintro ⟨-, rfl⟩
    rw [← ho, h.backed _ hb] at hrow
    simp at hrow
  · funext b
    unfold lastSet
    rw [limitsRow_changeLimits hmem, limitsRow_changeLimits hmem]
    by_cases hab : a = b
    · subst hab
      simp only [hp, ho, and_self, if_true, noted, update_self, hrow,
        Option.some_or, Option.map_some, Option.some.injEq]
      funext r
      cases r <;> rfl
    · rw [noted, update_of_ne (Ne.symm hab), if_neg (by simp [ho, hab]),
        if_neg (by simp [ho, hab])]

theorem ResourceDb.Kept.copied {m : Nat} (h : db.Kept)
    (hnone : db.limitsRow true a = none) (hactual : db.limitsRow false a = some (m, o))
    (hcreate : db.limits.create { o with pending := true } = some (n, limits)) :
    ({ db with limits } : ResourceDb).Kept ∧ ({ db with limits } : ResourceDb).lastSet = db.lastSet ∧
      ({ db with limits } : ResourceDb).limitsRow true a = some (n, { o with pending := true }) := by
  obtain ⟨-, -, ho⟩ := limitsRow_eq_some_iff.mp hactual
  have hrows : ∀ pending b, ({ db with limits } : ResourceDb).limitsRow pending b =
      (db.limitsRow pending b).or (if true = pending ∧ a = b then
        some (n, { o with pending := true }) else none) := fun pending b => by
    rw [← ho]
    exact limitsRow_create hcreate rfl
  refine ⟨⟨fun r => ?_, fun b hb => ?_⟩, ?_, ?_⟩
  · show (r.total db.state : Int) = limits.total r.actual
    rw [total_create hcreate, h.totals r]
    simp [Resource.actual]
  · rw [hrows] at hb ⊢
    have hb := (Option.or_eq_none_iff.mp hb).1
    have hab : a ≠ b := by
      rintro rfl
      rw [hactual] at hb
      simp at hb
    rw [h.backed b hb]
    simp [hab]
  · funext b
    unfold lastSet
    rw [hrows, hrows]
    by_cases hab : a = b
    · subst hab
      rw [hnone, hactual]
      simp only [and_self, if_true, Option.none_or, Option.some_or, Option.map_some,
        Option.some.injEq]
      funext r
      cases r <;> rfl
    · simp [hab]
  · rw [hrows, hnone]
    simp

/-- **New limits for an account** are pending, and the totals stay. -/
theorem ResourceDb.Kept.setAccountLimits (h : db.Kept) (a : AccountName) (ram net cpu : Int) :
    ((LimitOp.setAccountLimits a ram net cpu).after db).Kept ∧
      ((LimitOp.setAccountLimits a ram net cpu).after db).lastSet =
        (LimitOp.setAccountLimits a ram net cpu).noted db.lastSet := by
  rcases setAccountLimits_cases a ram net cpu db with ⟨n, o, hrow, hdb⟩ |
    ⟨hnone, m, o, n, limits, hactual, hcreate, hdb⟩ | ⟨-, hnone, hdb⟩
  · rw [after, hdb]
    exact h.changeLimits hrow
  · obtain ⟨hkept, hlast, hrow⟩ := h.copied hnone hactual hcreate
    rw [after, hdb, ← hlast]
    exact hkept.changeLimits hrow
  · have hlast : (db.lastSet a).map (fun _ => Resource.given ram net cpu) = db.lastSet a := by
      rw [h.lastSet_eq_none hnone]
      rfl
    refine ⟨by rw [after, hdb]; exact h, ?_⟩
    rw [after, hdb, noted, hlast, update_eq_self]

/-! ## `process_account_limit_updates` -/

theorem updateStateAndValue_eq {total : Nat} {value pendingValue : Int} {which : String}
    (hold : max value 0 ≤ total) (hnew : total - max value 0 + max pendingValue 0 < 2 ^ 64) :
    updateStateAndValue total value pendingValue which =
      .ok (total - max value 0 + max pendingValue 0).toNat := by
  have hrevert : (if value > 0 then do
        eosAssert ((total : Int) ≥ value) .rateLimitingStateInconsistent
          ("underflow when reverting old value to " ++ which)
        pure (total - value.toNat)
      else pure total : Except FcException Nat) = .ok (total - max value 0).toNat := by
    by_cases hpos : value > 0
    · rw [if_pos hpos, assert_bind_eq_ok]
      refine ⟨by omega, ?_⟩
      rw [show total - value.toNat = (total - max value 0).toNat by omega]
      rfl
    · rw [if_neg hpos, show (total - max value 0).toNat = total by omega]
      rfl
  unfold updateStateAndValue
  rw [hrevert, ok_bind]
  by_cases hpos : pendingValue > 0
  · rw [if_pos hpos, assert_bind_eq_ok]
    refine ⟨by omega, ?_⟩
    rw [show (total - max value 0).toNat + pendingValue.toNat =
      (total - max value 0 + max pendingValue 0).toNat by omega]
    rfl
  · rw [if_neg hpos, show (total - max value 0 + max pendingValue 0).toNat =
      (total - max value 0).toNat by omega]
    rfl

section Apply

variable {m : Nat} {p : ResourceLimitsObject}

/-- The database once the pending object `(n, p)` is moved into the actual one under `m`, up to the
totals. -/
def ResourceDb.moved (db : ResourceDb) (m n : Nat) (p : ResourceLimitsObject) : ResourceDb :=
  let db1 := db.changeLimits m p.ramBytes p.netWeight p.cpuWeight
  { db1 with limits := db1.limits.remove n }

/-- The pending object `(n, p)` and the actual one `(m, o)` of one account. -/
structure ResourceDb.Moves (db : ResourceDb) (m n : Nat) (o p : ResourceLimitsObject) : Prop where
  actual : (m, o) ∈ db.limits.rows
  isActual : o.pending = false
  pending : (n, p) ∈ db.limits.rows
  isPending : p.pending = true
  owner : o.owner = p.owner

/-- The limits of `p` in `o`. -/
abbrev ResourceLimitsObject.setLimitsOf (o p : ResourceLimitsObject) : ResourceLimitsObject :=
  o.setLimits p.ramBytes p.netWeight p.cpuWeight

theorem Resource.value_moved (r : Resource) : r.value (o.setLimitsOf p) = r.value p := by
  cases r <;> rfl

variable (h : db.Moves m n o p)

include h

theorem limitsRow_pending : db.limitsRow true p.owner = some (n, p) :=
  limitsRow_eq_some_iff.mpr ⟨h.pending, h.isPending, rfl⟩

theorem mem_changeLimits_pending :
    (n, p) ∈ (db.changeLimits m p.ramBytes p.netWeight p.cpuWeight).limits.rows := by
  have hrow : (db.changeLimits m p.ramBytes p.netWeight p.cpuWeight).limitsRow true p.owner =
      some (n, p) := by
    rw [limitsRow_changeLimits h.actual, if_neg (by simp [h.isActual])]
    exact limitsRow_pending h
  exact (limitsRow_eq_some_iff.mp hrow).1

theorem limitsRow_moved (q : Bool) (b : AccountName) : (db.moved m n p).limitsRow q b =
      if p.owner = b then if q then none else some (m, o.setLimitsOf p)
      else db.limitsRow q b := by
  rw [limitsRow_remove (mem_changeLimits_pending h) rfl, limitsRow_changeLimits h.actual,
    h.isActual, h.owner, h.isPending]
  cases q <;> simp

theorem lastSet_moved : (db.moved m n p).lastSet = db.lastSet := by
  funext b
  unfold lastSet
  rw [limitsRow_moved h, limitsRow_moved h]
  by_cases hb : p.owner = b
  · subst hb
    rw [limitsRow_pending h]
    simp only [if_true, Bool.false_eq_true, if_false, Option.none_or, Option.some_or,
      Option.map_some, Option.some.injEq]
    funext r
    exact r.value_moved
  · rw [if_neg hb, if_neg hb]

theorem total_moved {weight : ResourceLimitsObject → ℤ} (hzero : weight p = 0) :
    (db.moved m n p).limits.total weight =
      db.limits.total weight - weight o + weight (o.setLimitsOf p) := by
  unfold ResourceDb.moved
  rw [total_remove (mem_changeLimits_pending h), hzero, sub_zero]
  unfold ResourceDb.changeLimits
  rw [total_update h.actual]

theorem actual_moved (r : Resource) : r.actual (o.setLimitsOf p) = max (r.value p) 0 := by
  have hkeep : (o.setLimitsOf p).pending = false := h.isActual
  rw [Resource.actual, if_neg (by simp [hkeep]), r.value_moved]

theorem total_actual_moved (r : Resource) : (db.moved m n p).limits.total r.actual =
      db.limits.total r.actual - max (r.value o) 0 + max (r.value p) 0 := by
  rw [total_moved h (by rw [Resource.actual, if_pos h.isPending]), actual_moved h, Resource.actual,
    if_neg (by simp [h.isActual])]

theorem total_peak_moved_le (r : Resource) :
    (db.moved m n p).limits.total ((db.moved m n p).peak r) ≤ db.limits.total (db.peak r) := by
  have hpeak : (db.moved m n p).peak r = db.peak r := by
    funext o'
    unfold peak
    rw [lastSet_moved h]
  have hlast : db.lastSet p.owner = some fun r => r.value p := by
    unfold lastSet
    rw [limitsRow_pending h]
    rfl
  have hnew : db.peak r (o.setLimitsOf p) = max (r.value p) 0 := by
    have hkeep : (o.setLimitsOf p).pending = false := h.isActual
    have howner : (o.setLimitsOf p).owner = p.owner := h.owner
    rw [peak, actual_moved h, if_neg (by simp [hkeep]), howner, hlast]
    exact max_self _
  have hold : max (r.value p) 0 ≤ db.peak r o := by
    unfold peak
    rw [if_neg (by simp [h.isActual]), h.owner, hlast]
    exact le_max_right _ _
  rw [hpeak, total_moved h (by rw [peak, if_pos h.isPending]), hnew]
  omega

end Apply

theorem actual_le_peak (db : ResourceDb) (r : Resource) (o : ResourceLimitsObject) :
    r.actual o ≤ db.peak r o := by
  unfold peak
  split
  · rename_i hp
    rw [Resource.actual, if_pos hp]
  · exact le_max_left _ _

/-- The total of a resource after a pending object is applied: the code's formula does not throw and
gives the sum of the actual limits. -/
theorem ResourceDb.Kept.newTotal {m : Nat} {p : ResourceLimitsObject} (h : db.Kept) (hfits : db.Fits)
    (hm : db.Moves m n o p) (r : Resource) (which : String) :
    ∃ total : Nat, updateStateAndValue (r.total db.state) (r.value o) (r.value p) which = .ok total ∧
      (total : Int) = (db.moved m n p).limits.total r.actual := by
  have hmoved := total_actual_moved hm r
  have hin : max (r.value o) 0 ≤ db.limits.total r.actual := by
    have hle := le_total_of_mem r.actual_nonneg hm.actual
    rwa [Resource.actual, if_neg (by simp [hm.isActual])] at hle
  have hbound : (db.moved m n p).limits.total r.actual < 2 ^ 64 :=
    lt_of_le_of_lt (total_le_total (actual_le_peak _ r))
      (lt_of_le_of_lt (total_peak_moved_le hm r) (hfits r))
  have hnonneg : 0 ≤ (db.moved m n p).limits.total r.actual := total_nonneg r.actual_nonneg
  rw [← h.totals r] at hin hmoved
  refine ⟨_, updateStateAndValue_eq hin (by rw [← hmoved]; exact hbound), ?_⟩
  rw [← hmoved]
  exact Int.toNat_of_nonneg hnonneg

/-- **The body of the loop** moves one pending object into the actual one. -/
theorem applyPendingLimits_spec {p : ResourceLimitsObject} (h : db.Kept) (hfits : db.Fits)
    (hmem : (n, p) ∈ db.limits.rows) (hp : p.pending = true) :
    ∃ db', applyPendingLimits n p db = .ok () db' ∧ db'.Kept ∧ db'.Fits ∧
      db'.lastSet = db.lastSet ∧ db'.limits.rows.length < db.limits.rows.length := by
  have hpending : db.limitsRow true p.owner = some (n, p) :=
    limitsRow_eq_some_iff.mpr ⟨hmem, hp, rfl⟩
  obtain ⟨⟨m, o⟩, hactual⟩ : ∃ row, db.limitsRow false p.owner = some row := by
    refine Option.ne_none_iff_exists'.mp fun hnone => ?_
    rw [h.backed _ hnone] at hpending
    simp at hpending
  obtain ⟨hmo, hop, howner⟩ := limitsRow_eq_some_iff.mp hactual
  have hm : db.Moves m n o p := ⟨hmo, hop, hmem, hp, howner⟩
  obtain ⟨ram, hram, hramTotal⟩ := h.newTotal hfits hm .ram "ram_bytes"
  obtain ⟨cpu, hcpu, hcpuTotal⟩ := h.newTotal hfits hm .cpu "cpu_weight"
  obtain ⟨net, hnet, hnetTotal⟩ := h.newTotal hfits hm .net "net_weight"
  have hget : limitsTable.get (fun o => !o.pending && o.owner = p.owner) db = .ok (m, o) db :=
    get_eq_ok_iff.mpr ⟨limitsRow_false.trans hactual, rfl⟩
  refine ⟨{ db.moved m n p with state := { db.state with
      totalRamBytes := ram, totalCpuWeight := cpu, totalNetWeight := net } }, ?_, ⟨fun r => ?_,
    fun b hb => ?_⟩, fun r => ?_, lastSet_moved hm, ?_⟩
  · have hram : updateStateAndValue db.state.totalRamBytes o.ramBytes p.ramBytes "ram_bytes" =
      .ok ram := hram
    have hcpu : updateStateAndValue db.state.totalCpuWeight o.cpuWeight p.cpuWeight "cpu_weight" =
      .ok cpu := hcpu
    have hnet : updateStateAndValue db.state.totalNetWeight o.netWeight p.netWeight "net_weight" =
      .ok net := hnet
    unfold applyPendingLimits
    rw [bind_of_ok hget]
    simp only
    rw [get_bind, bind_of_ok (lift_of_ok hram), bind_of_ok (lift_of_ok hcpu),
      bind_of_ok (lift_of_ok hnet)]
    rfl
  · cases r
    · exact hramTotal
    · exact hcpuTotal
    · exact hnetTotal
  · have hb : (db.moved m n p).limitsRow false b = none := hb
    show (db.moved m n p).limitsRow true b = none
    rw [limitsRow_moved hm] at hb ⊢
    by_cases howner : p.owner = b
    · rw [if_pos howner]
      rfl
    · rw [if_neg howner] at hb ⊢
      exact h.backed b hb
  · exact lt_of_le_of_lt (total_peak_moved_le hm r) (hfits r)
  · refine lt_of_lt_of_le (List.length_filter_lt_length_iff_exists.mpr
      ⟨_, mem_changeLimits_pending hm, by simp⟩) ?_
    exact le_of_eq (List.length_map _)

/-- Where the front of `by_owner` from the pending objects on is not pending, none is. -/
theorem not_pending_of_least
    (hleast : (db.limits.leastBy fun r => toLex (!r.2.pending, r.2.owner)) = some (n, o))
    (hp : o.pending = false) : ∀ row ∈ db.limits.rows, row.2.pending = false := by
  intro row hrow
  have hle := leastBy_le hleast hrow
  rcases Prod.Lex.toLex_le_toLex.mp hle with hlt | ⟨heq, -⟩
  · simp only [hp, Bool.not_false] at hlt
    exact absurd hlt (by cases row.2.pending <;> decide)
  · simp only [hp, Bool.not_false] at heq
    cases hrp : row.2.pending with
    | false => rfl
    | true =>
      rw [hrp] at heq
      exact absurd heq (by decide)

/-- **The loop** applies the pending objects one by one. -/
theorem processPending_spec : ∀ (fuel : Nat) (db : ResourceDb), db.Kept → db.Fits →
    db.limits.rows.length < fuel →
    ∃ db', processPending fuel db = .ok () db' ∧ db'.Kept ∧ db'.lastSet = db.lastSet ∧
      ∀ row ∈ db'.limits.rows, row.2.pending = false
  | 0, _, _, _, hfuel => absurd hfuel (Nat.not_lt_zero _)
  | fuel + 1, db, h, hfits, hfuel => by
    unfold processPending
    rw [get_bind]
    cases hleast : db.limits.leastBy fun r => toLex (!r.2.pending, r.2.owner) with
    | none =>
      refine ⟨db, rfl, h, rfl, fun row hrow => ?_⟩
      rw [leastBy_eq_none.mp hleast] at hrow
      exact absurd hrow List.not_mem_nil
    | some row =>
      obtain ⟨n, p⟩ := row
      simp only
      by_cases hp : p.pending = true
      · obtain ⟨db1, hrun, hkept, hfits1, hlast, hlen⟩ :=
          applyPendingLimits_spec h hfits (mem_of_leastBy hleast) hp
        obtain ⟨db', hrun', hkept', hlast', hnone⟩ :=
          processPending_spec fuel db1 hkept hfits1 (by omega)
        refine ⟨db', ?_, hkept', hlast'.trans hlast, hnone⟩
        rw [if_pos hp, bind_of_ok hrun, hrun']
      · rw [if_neg hp]
        exact ⟨db, rfl, h, rfl, not_pending_of_least hleast (by simpa using hp)⟩

/-- **Processing** applies every pending object. -/
theorem processAccountLimitUpdates_spec (h : db.Kept) (hfits : db.Fits) :
    ∃ db', processAccountLimitUpdates db = .ok () db' ∧ db'.Kept ∧
      (∀ row ∈ db'.limits.rows, row.2.pending = false) ∧ db'.lastSet = db.lastSet ∧
      db'.actualLimits = db.lastSet := by
  obtain ⟨db', hrun, hkept, hlast, hnone⟩ :=
    processPending_spec (db.limits.rows.length + 1) db h hfits (Nat.lt_succ_self _)
  refine ⟨db', hrun, hkept, hnone, hlast, ?_⟩
  rw [← hlast]
  funext a
  have hrow : db'.limitsRow true a = none :=
    limitsRow_eq_none_iff.mpr fun row hmem hp => absurd hp (by rw [hnone row hmem]; simp)
  unfold actualLimits lastSet
  rw [hrow, Option.none_or]

/-! ## Runs -/

/-- The database after a run. -/
def LimitOp.afterAll : List LimitOp → ResourceDb → ResourceDb
  | [], db => db
  | op :: ops, db => afterAll ops (op.after db)

/-- The limits last set in a run, from none. -/
def LimitOp.notedAll (ops : List LimitOp) : AccountName → Option (Resource → Int) :=
  ops.foldl (fun m op => op.noted m) fun _ => none

open LimitOp (afterAll)

/-- The limits fit wherever they are processed. -/
def LimitOp.FitsAlong : List LimitOp → ResourceDb → Prop
  | [], _ => True
  | op :: ops, db => (op = .processAccountLimitUpdates → db.Fits) ∧ FitsAlong ops (op.after db)

theorem ResourceDb.Kept.after (h : db.Kept) {op : LimitOp}
    (hfits : op = .processAccountLimitUpdates → db.Fits) :
    (op.after db).Kept ∧ (op.after db).lastSet = op.noted db.lastSet := by
  cases op with
  | initializeAccount a => exact h.initializeAccount a
  | setAccountLimits a ram net cpu => exact h.setAccountLimits a ram net cpu
  | processAccountLimitUpdates =>
    obtain ⟨db', hrun, hkept, -, hlast, -⟩ := processAccountLimitUpdates_spec h (hfits rfl)
    have hafter : LimitOp.processAccountLimitUpdates.after db = db' := by
      show stateOf (processAccountLimitUpdates db) = db'
      rw [hrun]
      rfl
    rw [hafter]
    exact ⟨hkept, hlast⟩

theorem ResourceDb.Kept.afterAll : ∀ (ops : List LimitOp) (db : ResourceDb)
    (m : AccountName → Option (Resource → Int)), db.Kept → db.lastSet = m →
    LimitOp.FitsAlong ops db →
    (afterAll ops db).Kept ∧
      (afterAll ops db).lastSet = ops.foldl (fun m op => op.noted m) m
  | [], _, _, h, hm, _ => ⟨h, hm⟩
  | op :: ops, db, m, h, hm, hfits => by
    obtain ⟨hkept, hlast⟩ := h.after hfits.1
    exact ResourceDb.Kept.afterAll ops (op.after db) (op.noted m) hkept (by rw [hlast, hm]) hfits.2

/-- **The totals of the account limits.** After every run of calls from empty tables in which the
limits fit wherever they are processed, each total is the sum of the positive actual limits; and if
the limits fit, processing throws nothing, leaves no pending object, and the actual limits of every
account are those last set for it. -/
theorem accountLimits_settled (db : ResourceDb) (ops : List LimitOp) (hempty : db.limits.rows = [])
    (hzero : ∀ r : Resource, r.total db.state = 0) (hfits : LimitOp.FitsAlong ops db) :
    (∀ r : Resource, (r.total (afterAll ops db).state : Int) =
        (afterAll ops db).limits.total r.actual) ∧
      ((afterAll ops db).Fits → ∃ db',
        processAccountLimitUpdates (afterAll ops db) = .ok () db' ∧
        (∀ row ∈ db'.limits.rows, row.2.pending = false) ∧
        db'.actualLimits = LimitOp.notedAll ops) := by
  have hnone : ∀ pending a, db.limitsRow pending a = none := fun pending a =>
    limitsRow_eq_none_iff.mpr fun row hrow => by
      rw [hempty] at hrow
      exact absurd hrow List.not_mem_nil
  have hkept : db.Kept := by
    refine ⟨fun r => ?_, fun a _ => hnone true a⟩
    rw [hzero r, total, hempty]
    rfl
  have hlast : db.lastSet = fun _ => none := by
    funext a
    unfold lastSet
    rw [hnone, hnone]
    rfl
  obtain ⟨hkept', hlast'⟩ := ResourceDb.Kept.afterAll ops db _ hkept hlast hfits
  refine ⟨hkept'.totals, fun hfit => ?_⟩
  obtain ⟨db', hrun, -, hdone, -, hactual⟩ := processAccountLimitUpdates_spec hkept' hfit
  exact ⟨db', hrun, hdone, hactual.trans hlast'⟩

/-- Empty tables. -/
def noLimits : ResourceDb where
  limits := .empty 0
  usages := .empty 0
  state := {}
  config := ⟨1, 1, 1, 1⟩
  gmr := ⟨1, 1, 1⟩

instance : Decidable db.Fits :=
  decidable_of_iff (∀ r ∈ [Resource.ram, .cpu, .net], db.limits.total (db.peak r) < 2 ^ 64)
    ⟨fun h r => h r (by cases r <;> simp), fun h r _ => h r⟩

instance LimitOp.decidableFitsAlong : ∀ (ops : List LimitOp) (db : ResourceDb),
    Decidable (LimitOp.FitsAlong ops db)
  | [], _ => inferInstanceAs (Decidable True)
  | op :: ops, db =>
    haveI := decidableFitsAlong ops (op.after db)
    inferInstanceAs (Decidable ((op = .processAccountLimitUpdates → db.Fits) ∧ _))

/-- Three accounts whose limits are set and processed, then set again, the second one's lower. -/
def threeAccounts (first : Int) : List LimitOp :=
  [.initializeAccount 1, .initializeAccount 2, .initializeAccount 3,
    .setAccountLimits 2 10 0 (2 ^ 63 - 1), .setAccountLimits 3 (-1) 5 (2 ^ 63 - 1),
    .processAccountLimitUpdates, .setAccountLimits 1 7 (-1) first, .setAccountLimits 2 1 1 0]

theorem accountLimits_settled_three :
    LimitOp.FitsAlong (threeAccounts 1) noLimits ∧ (afterAll (threeAccounts 1) noLimits).Fits ∧
      ∃ db', processAccountLimitUpdates (afterAll (threeAccounts 1) noLimits) = .ok () db' ∧
        (∀ row ∈ db'.limits.rows, row.2.pending = false) ∧
        db'.actualLimits = LimitOp.notedAll (threeAccounts 1) :=
  have halong : LimitOp.FitsAlong (threeAccounts 1) noLimits := by decide +kernel
  have hfits : (afterAll (threeAccounts 1) noLimits).Fits := by decide +kernel
  ⟨halong, hfits, (accountLimits_settled noLimits (threeAccounts 1) rfl
    (by intro r; cases r <;> rfl) halong).2 hfits⟩

/-- The sum of the positive limits last set. -/
def ResourceDb.totalLastSet (db : ResourceDb) (r : Resource) : Int :=
  db.limits.total fun o =>
    if o.pending then 0 else (db.lastSet o.owner).elim 0 fun v => max (v r) 0

/-- **The running total can overflow on the way.** The actual limits fit and so do those last set,
but the first account is raised before the second is lowered. -/
theorem process_overflows : LimitOp.FitsAlong (threeAccounts (2 ^ 63 - 1)) noLimits ∧
      (afterAll (threeAccounts (2 ^ 63 - 1)) noLimits).limits.total Resource.cpu.actual =
        2 ^ 64 - 2 ∧
      (afterAll (threeAccounts (2 ^ 63 - 1)) noLimits).totalLastSet .cpu = 2 ^ 64 - 2 ∧
      thrown (processAccountLimitUpdates
          (afterAll (threeAccounts (2 ^ 63 - 1)) noLimits)) =
        some ⟨.rateLimitingStateInconsistent, "overflow when applying new value to cpu_weight"⟩ := by
  decide +kernel

end Forceio.Chain
