import Forceio.Chain.Authority

/-!
# The authority checker: `authority_checker.hpp`

`satisfied` decides whether keys, permissions and a delay satisfy a permission. It walks the graph
of authorities to a bounded depth, keeps the result of every permission it has evaluated in a cache
for the rest of the call, and takes the keys a failed authority used back.

* `permission_to_authority` is `get_permission(p).auth`, as every caller passes it: it throws
  `permission_query_exception` for a permission that does not exist, `none` here, and the visitor
  goes on without it. For an empty name it throws `invalid_permission`, which the visitor does not
  catch. That is `none` too: no authority in the database has an empty name
  (`validate_authority_precondition`).
* `std::map<permission_level, permission_cache_status>` is a function; only `find` and `emplace` of
  an absent key are used.
* `recursion_depth` counts up to `recursion_depth_limit`; the recursion here is on what is left.
* `checktime` is only stored.

`Derives` is what the checker is for: the derivations of a permission from what was provided.

Results:
* `satisfied_derives`: a permission the checker finds satisfied has a derivation.
* `satisfied_exceeds_limit`: which may be higher than the recursion limit.
-/

namespace Forceio.Chain

open Forceio.Lib Authority List

variable {Key : Type}
variable {st : CheckState} {level : PermissionLevel} {auth : Authority Key}

/-! ## The checker -/

/-- `fc::seconds`, in microseconds. -/
def seconds (s : UInt32) : Int := 1000000 * s.toNat

/-- The members of an `authority_checker` that do not change, with the permission database as
its lookup by owner and name. -/
structure AuthorityChecker (Key : Type) where
  authorityOf : PermissionLevel → Option (Authority Key)
  recursionDepthLimit : Nat
  providedKeys : List Key
  providedPermissions : List PermissionLevel
  providedDelay : Int

/-- `permission_cache_status`. -/
inductive PermissionCacheStatus where
  | beingEvaluated
  | permissionUnsatisfied
  | permissionSatisfied
  deriving DecidableEq

/-- `_used_keys` and the cache of a call. -/
structure CheckState where
  usedKeys : List Bool
  cached : PermissionLevel → Option PermissionCacheStatus

variable {s : PermissionCacheStatus}

namespace CheckState

/-- `permission_status_in_cache`: an entry for the actor's empty permission counts for all of its
permissions. -/
def status (st : CheckState) (level : PermissionLevel) : Option PermissionCacheStatus :=
  match st.cached level with
  | some s => some s
  | none => st.cached ⟨level.actor, 0⟩

theorem status_of_cached (h : st.cached level = some s) : st.status level = some s := by
  rw [status, h]

theorem status_of_none (h : st.cached level = none) :
    st.status level = st.cached ⟨level.actor, 0⟩ := by
  rw [status, h]

/-- Write `s` for `level` into the cache. -/
def setStatus (st : CheckState) (level : PermissionLevel) (s : PermissionCacheStatus) :
    CheckState :=
  { st with cached := Function.update st.cached level (some s) }

theorem setStatus_cached_self (st : CheckState) (level : PermissionLevel)
    (s : PermissionCacheStatus) : (st.setStatus level s).cached level = some s := by
  simp [setStatus]

variable {l : PermissionLevel}

theorem setStatus_cached_of_ne (st : CheckState) (h : l ≠ level)
    (s : PermissionCacheStatus) : (st.setStatus level s).cached l = st.cached l := by
  simp [setStatus, h]

theorem setStatus_cached_iff {st : CheckState} {s' : PermissionCacheStatus} :
    (st.setStatus level s).cached l = some s' ↔
      (l = level ∧ s = s') ∨ (l ≠ level ∧ st.cached l = some s') := by
  by_cases h : l = level
  · simp [setStatus, h]
  · simp [setStatus, h]

theorem ne_of_cached {st : CheckState} {l' : PermissionLevel} {r r' : Option PermissionCacheStatus}
    (h : st.cached l = r) (h' : st.cached l' = r') (hne : r ≠ r') : l ≠ l' := by
  rintro rfl
  exact hne (h.symm.trans h')

end CheckState

namespace AuthorityChecker

/-- `permission_to_authority`. -/
def permissionToAuthority (c : AuthorityChecker Key) (level : PermissionLevel) :
    Option (Authority Key) :=
  if level.actor = 0 ∨ level.permission = 0 then none else c.authorityOf level

-- one proof that keys compare lawfully, for all decisions about them
local instance lawfulKey [LinearOrder Key] : LawfulBEq Key := inferInstance

section Visitor

variable [LinearOrder Key] (c : AuthorityChecker Key)
variable (evaluate : PermissionLevel → CheckState → Bool × CheckState)

/-- The three `operator()` of `weight_tally_visitor`: whether a factor adds its weight. -/
def visit : MetaPermission Key → CheckState → Bool × CheckState
  | .wait w, st => (decide (seconds w.waitSec ≤ c.providedDelay), st)
  | .key k, st =>
    if k.key ∈ c.providedKeys then
      (true, { st with usedKeys := st.usedKeys.set (c.providedKeys.idxOf k.key) true })
    else (false, st)
  | .account p, st => evaluate p.permission st

/-- The loop of `satisfied`: visit the factors until the total weight reaches the threshold. -/
def tally (threshold : UInt32) : List (MetaPermission Key) → UInt32 → CheckState → Bool × CheckState
  | [], _, st => (false, st)
  | m :: ms, total, st =>
    let (adds, st) := c.visit evaluate m st
    let total := if adds then total + m.weight.toUInt32 else total
    if threshold ≤ total then (true, st) else tally threshold ms total st

/-- `satisfied(authority, cached_permissions, depth)`: a failure takes the used keys back. -/
def satisfiedAuthority (auth : Authority Key) (st : CheckState) : Bool × CheckState :=
  let (r, st') := c.tally evaluate auth.threshold auth.metaPermissions 0 st
  if r then (true, st') else (false, { st' with usedKeys := st.usedKeys })

end Visitor

/-- `operator()(permission_level_weight)` with `depth` levels of recursion left. -/
def evaluate [LinearOrder Key] (c : AuthorityChecker Key) :
    Nat → PermissionLevel → CheckState → Bool × CheckState
  | 0, level, st => (decide (st.status level = some .permissionSatisfied), st)
  | depth + 1, level, st =>
    match st.status level with
    | some s => (decide (s = .permissionSatisfied), st)
    | none =>
      match c.permissionToAuthority level with
      | none => (false, st)
      | some auth =>
        let (r, st') :=
          c.satisfiedAuthority (c.evaluate depth) auth (st.setStatus level .beingEvaluated)
        (r, st'.setStatus level (if r then .permissionSatisfied else .permissionUnsatisfied))

/-- `initialize_permission_cache`. -/
def initialCache (c : AuthorityChecker Key) (level : PermissionLevel) :
    Option PermissionCacheStatus :=
  if level ∈ c.providedPermissions then some .permissionSatisfied else none

/-- `satisfied(permission)`, with `_used_keys` before and after. -/
def satisfied [LinearOrder Key] (c : AuthorityChecker Key) (level : PermissionLevel)
    (usedKeys : List Bool) : Bool × List Bool :=
  let (r, st) := c.evaluate c.recursionDepthLimit level ⟨usedKeys, c.initialCache⟩
  (r, st.usedKeys)

/-! ## Derivations -/

/-- A permission was provided: itself, or all permissions of its actor. -/
def Provided (c : AuthorityChecker Key) (level : PermissionLevel) : Prop :=
  level ∈ c.providedPermissions ∨ ⟨level.actor, 0⟩ ∈ c.providedPermissions

instance (c : AuthorityChecker Key) (level : PermissionLevel) : Decidable (c.Provided level) :=
  inferInstanceAs (Decidable (_ ∨ _))

/-- **A derivation of height at most `n`**: the permission was provided, or distinct factors of its
authority reach the threshold, each of them a provided key, a wait within the provided delay or a
permission with a derivation of its own. -/
inductive Derives (c : AuthorityChecker Key) : Nat → PermissionLevel → Prop
  | provided {n : Nat} {level : PermissionLevel} (h : c.Provided level) : Derives c n level
  | derived {n : Nat} {level : PermissionLevel} {auth : Authority Key}
      (hauth : c.permissionToAuthority level = some auth) (ms : List (MetaPermission Key))
      (distinct : ms.Nodup) (factors : ms ⊆ auth.factors)
      (keys : ∀ k, .key k ∈ ms → k.key ∈ c.providedKeys)
      (waits : ∀ w, .wait w ∈ ms → seconds w.waitSec ≤ c.providedDelay)
      (accounts : ∀ p, .account p ∈ ms → Derives c n p.permission)
      (reached : auth.threshold.toNat ≤ weightOf ms) : Derives c (n + 1) level

/-- The permission has a derivation. -/
def Derivable (c : AuthorityChecker Key) (level : PermissionLevel) : Prop :=
  ∃ n, c.Derives n level

variable {ms : List (MetaPermission Key)}

section Derives

variable {c : AuthorityChecker Key}

theorem Derives.mono {n : Nat} (h : c.Derives n level) :
    ∀ {m : Nat}, n ≤ m → c.Derives m level := by
  induction h with
  | provided h => exact fun _ => .provided h
  | derived hauth ms distinct factors keys waits accounts reached ih =>
    intro m hm
    obtain ⟨m, rfl⟩ := Nat.exists_eq_add_of_le hm
    rw [Nat.add_right_comm]
    exact .derived hauth ms distinct factors keys waits (fun p hp => ih p hp (by omega)) reached

/-- Whether a factor counts towards a threshold. -/
def Counts (c : AuthorityChecker Key) : MetaPermission Key → Prop
  | .wait w => seconds w.waitSec ≤ c.providedDelay
  | .key k => k.key ∈ c.providedKeys
  | .account p => c.Derivable p.permission

/-- One height bounds the derivations of finitely many factors. -/
theorem exists_height : ∀ {ms : List (MetaPermission Key)}, (∀ m ∈ ms, c.Counts m) →
    ∃ n, ∀ p, .account p ∈ ms → c.Derives n p.permission
  | [], _ => ⟨0, by simp⟩
  | m :: ms, h => by
    obtain ⟨n, hn⟩ := exists_height fun m' hm' => h m' (mem_cons_of_mem m hm')
    cases m with
    | account q =>
      obtain ⟨k, hk⟩ : c.Derivable q.permission := h _ mem_cons_self
      refine ⟨max n k, fun p hp => ?_⟩
      rcases mem_cons.mp hp with hpq | hp
      · rw [MetaPermission.account.inj hpq]
        exact hk.mono (le_max_right n k)
      · exact (hn p hp).mono (le_max_left n k)
    | key | wait => exact ⟨n, fun p hp => hn p (by simpa using hp)⟩

theorem derivable_of_counts (hauth : c.permissionToAuthority level = some auth)
    (distinct : ms.Nodup) (factors : ms ⊆ auth.factors)
    (hms : ∀ m ∈ ms, c.Counts m) (reached : auth.threshold.toNat ≤ weightOf ms) :
    c.Derivable level := by
  obtain ⟨n, hn⟩ := exists_height hms
  exact ⟨n + 1, .derived hauth ms distinct factors (fun k hk => hms _ hk) (fun w hw => hms _ hw)
    hn reached⟩

end Derives

/-! ## Soundness -/

section Sound

variable {c : AuthorityChecker Key}

/-- What the cache holds at any time: a satisfied permission is derivable, and an entry for an
empty permission name was provided. -/
structure CacheSound (c : AuthorityChecker Key) (st : CheckState) : Prop where
  satisfied : ∀ level, st.cached level = some .permissionSatisfied → c.Derivable level
  wildcard : ∀ a, st.cached ⟨a, 0⟩ ≠ none → ⟨a, 0⟩ ∈ c.providedPermissions

/-- An evaluation keeps the cache sound and only finds derivable permissions satisfied. -/
def EvaluatesSoundly (c : AuthorityChecker Key)
    (eval : PermissionLevel → CheckState → Bool × CheckState) : Prop :=
  ∀ level st, c.CacheSound st →
    c.CacheSound (eval level st).2 ∧ ((eval level st).1 = true → c.Derivable level)

variable {eval : PermissionLevel → CheckState → Bool × CheckState}

/-- Some of the factors `ms` count and carry `total` to the threshold. -/
def Reaches (c : AuthorityChecker Key) (ms : List (MetaPermission Key)) (total threshold : Nat) :
    Prop :=
  ∃ ns, ns.Sublist ms ∧ (∀ m ∈ ns, c.Counts m) ∧ threshold ≤ total + weightOf ns

variable {m : MetaPermission Key}

theorem Reaches.cons {adds : Bool} (hm : adds = true → c.Counts m) {total threshold : Nat}
    (h : c.Reaches ms (total + weightOf (if adds then [m] else [])) threshold) :
    c.Reaches (m :: ms) total threshold := by
  obtain ⟨ns, hsub, hns, hreached⟩ := h
  cases adds with
  | false => exact ⟨ns, hsub.cons m, hns, by simpa using hreached⟩
  | true =>
    refine ⟨m :: ns, hsub.cons_cons m, by simpa using ⟨hm rfl, hns⟩, ?_⟩
    simp only [if_true, weightOf_cons, weightOf_nil] at hreached ⊢
    omega

theorem CacheSound.setUsedKeys (h : c.CacheSound st) (used : List Bool) :
    c.CacheSound { st with usedKeys := used } := ⟨h.satisfied, h.wildcard⟩

theorem CacheSound.setStatus (h : c.CacheSound st)
    (hlevel : level.permission ≠ 0) (hs : s = .permissionSatisfied → c.Derivable level) :
    c.CacheSound (st.setStatus level s) := by
  refine ⟨fun l hl => ?_, fun a ha => ?_⟩
  · by_cases heq : l = level
    · subst heq
      rw [st.setStatus_cached_self] at hl
      exact hs (Option.some.inj hl)
    · rw [st.setStatus_cached_of_ne heq] at hl
      exact h.satisfied l hl
  · have hne : (⟨a, 0⟩ : PermissionLevel) ≠ level := fun heq => hlevel (by rw [← heq])
    rw [st.setStatus_cached_of_ne hne] at ha
    exact h.wildcard a ha

/-- A satisfied entry, of the permission itself or of its actor, stands for a derivation. -/
theorem CacheSound.derivable_of_status (h : c.CacheSound st)
    (hs : st.status level = some .permissionSatisfied) : c.Derivable level := by
  cases hc : st.cached level with
  | some s =>
    rw [CheckState.status_of_cached hc] at hs
    exact h.satisfied level (hc.trans hs)
  | none =>
    rw [CheckState.status_of_none hc] at hs
    exact ⟨0, .provided (.inr (h.wildcard _ (by rw [hs]; simp)))⟩

theorem permission_ne_of_authority (h : c.permissionToAuthority level = some auth) :
    level.permission ≠ 0 := by
  intro h0
  rw [permissionToAuthority, if_pos (Or.inr h0)] at h
  simp at h

variable [LinearOrder Key]

theorem Reaches.derivable (hauth : c.permissionToAuthority level = some auth) (hvalid : auth.Valid)
    (h : c.Reaches auth.metaPermissions 0 auth.threshold.toNat) : c.Derivable level := by
  obtain ⟨ms, hsub, hms, hreached⟩ := h
  refine derivable_of_counts hauth (hsub.nodup ?_)
    (fun m hm => mem_metaPermissions.mp (hsub.subset hm)) hms (by simpa using hreached)
  exact auth.metaPermissions_perm.nodup_iff.mpr hvalid.nodup

theorem visit_key_of_mem {k : KeyWeight Key} (hk : k.key ∈ c.providedKeys) (st : CheckState) :
    c.visit eval (.key k) st =
      (true, { st with usedKeys := st.usedKeys.set (c.providedKeys.idxOf k.key) true }) :=
  if_pos hk

theorem visit_key_of_not_mem {k : KeyWeight Key} (hk : k.key ∉ c.providedKeys)
    (st : CheckState) : c.visit eval (.key k) st = (false, st) :=
  if_neg hk

/-- The total after a factor that adds its weight or not. -/
def addWeight (total : UInt32) (m : MetaPermission Key) (adds : Bool) : UInt32 :=
  if adds then total + m.weight.toUInt32 else total

theorem tally_cons {st' : CheckState} {adds : Bool}
    (h : c.visit eval m st = (adds, st')) (threshold : UInt32) (ms : List (MetaPermission Key))
    (total : UInt32) :
    c.tally eval threshold (m :: ms) total st =
      if threshold ≤ addWeight total m adds then (true, st')
      else c.tally eval threshold ms (addWeight total m adds) st' := by
  rw [tally, h]
  rfl

omit [LinearOrder Key] in
theorem addWeight_toNat (total : UInt32) (m : MetaPermission Key)
    (h : total.toNat + m.weight.toNat < 2 ^ 32) (adds : Bool) :
    (addWeight total m adds).toNat = total.toNat + weightOf (if adds then [m] else []) := by
  cases adds with
  | true =>
    show (total + m.weight.toUInt32).toNat = _
    rw [UInt32.toNat_add, UInt16.toNat_toUInt32, Nat.mod_eq_of_lt h]
    simp
  | false => simp [addWeight]

theorem visit_sound (he : c.EvaluatesSoundly eval) (m : MetaPermission Key) (h : c.CacheSound st) :
    c.CacheSound (c.visit eval m st).2 ∧ ((c.visit eval m st).1 = true → c.Counts m) := by
  cases m with
  | account p => exact he p.permission st h
  | key k =>
    by_cases hk : k.key ∈ c.providedKeys
    · rw [visit_key_of_mem hk]
      exact ⟨h.setUsedKeys _, fun _ => hk⟩
    · rw [visit_key_of_not_mem hk]
      exact ⟨h, fun hf => absurd hf (by simp)⟩
  | wait w => exact ⟨h, fun hw => (decide_eq_true_eq.mp hw : seconds w.waitSec ≤ _)⟩

/-- The loop keeps the cache sound, and when it reaches the threshold the factors it counted do
so exactly: the total does not wrap. -/
theorem tally_sound (he : c.EvaluatesSoundly eval) (threshold : UInt32) :
    ∀ (ms : List (MetaPermission Key)) (total : UInt32) (st : CheckState), c.CacheSound st →
      total.toNat + weightOf ms < 2 ^ 32 →
      c.CacheSound (c.tally eval threshold ms total st).2 ∧
      ((c.tally eval threshold ms total st).1 = true → c.Reaches ms total.toNat threshold.toNat)
  | [], total, st, h, _ => ⟨h, fun hf => absurd hf (by simp [tally])⟩
  | m :: ms, total, st, h, hlt => by
    rw [weightOf_cons] at hlt
    obtain ⟨hst, hm⟩ := visit_sound he m h
    obtain ⟨adds, st', hv⟩ : ∃ adds st', c.visit eval m st = (adds, st') := ⟨_, _, rfl⟩
    rw [hv] at hst hm
    have htotal := addWeight_toNat total m (by omega) adds
    rw [tally_cons hv]
    split
    · rename_i hreached
      refine ⟨hst, fun _ => .cons hm ⟨[], by simp, by simp, ?_⟩⟩
      rw [← htotal]
      exact UInt32.le_iff_toNat_le.mp hreached
    · have hle : weightOf (if adds then [m] else []) ≤ m.weight.toNat := by
        cases adds <;> simp
      obtain ⟨hsound, hfound⟩ :=
        tally_sound he threshold ms (addWeight total m adds) st' hst (by omega)
      exact ⟨hsound, fun ht => .cons hm (htotal ▸ hfound ht)⟩

theorem satisfiedAuthority_sound (he : c.EvaluatesSoundly eval)
    (hauth : c.permissionToAuthority level = some auth) (hvalid : auth.Valid) (h : c.CacheSound st) :
    c.CacheSound (c.satisfiedAuthority eval auth st).2 ∧
      ((c.satisfiedAuthority eval auth st).1 = true → c.Derivable level) := by
  obtain ⟨hsound, hfound⟩ := tally_sound he auth.threshold auth.metaPermissions 0 st h
    (by simpa using hvalid.weight_lt)
  unfold satisfiedAuthority
  cases ht : c.tally eval auth.threshold auth.metaPermissions 0 st with
  | mk r st' =>
    rw [ht] at hsound hfound
    cases r with
    | false => exact ⟨hsound.setUsedKeys _, fun hf => absurd hf (by simp)⟩
    | true => exact ⟨hsound, fun _ => (hfound rfl).derivable hauth hvalid⟩

/-- All authorities of the database pass `validate`. -/
def Validated (c : AuthorityChecker Key) : Prop :=
  ∀ level auth, c.authorityOf level = some auth → auth.validate = true

theorem Validated.valid (h : c.Validated) (hauth : c.permissionToAuthority level = some auth) :
    auth.Valid := by
  unfold permissionToAuthority at hauth
  split at hauth
  · simp at hauth
  · exact .of_validate (h level auth hauth)

/-- **An evaluation at any depth is sound.** -/
theorem evaluate_sound (hv : c.Validated) : ∀ depth, c.EvaluatesSoundly (c.evaluate depth)
  | 0, level, st, h => ⟨h, fun hs => h.derivable_of_status (by simpa [evaluate] using hs)⟩
  | depth + 1, level, st, h => by
    unfold evaluate
    split
    · rename_i s hs
      refine ⟨h, fun heq => h.derivable_of_status ?_⟩
      rw [hs, of_decide_eq_true heq]
    · split
      · exact ⟨h, fun hf => absurd hf (by simp)⟩
      · rename_i auth hauth
        have hlevel := permission_ne_of_authority hauth
        obtain ⟨hsound, hfound⟩ := satisfiedAuthority_sound (evaluate_sound hv depth) hauth
          (hv.valid hauth) (h.setStatus (s := .beingEvaluated) hlevel (by simp))
        refine ⟨hsound.setStatus hlevel fun hs => hfound ?_, hfound⟩
        by_contra hr
        rw [if_neg hr] at hs
        simp at hs

/-- **Soundness**: a permission the checker finds satisfied, whatever keys were used before, has a
derivation from what was provided. -/
theorem satisfied_derives (c : AuthorityChecker Key) (hv : c.Validated) (level : PermissionLevel)
    (usedKeys : List Bool) (h : (c.satisfied level usedKeys).1 = true) : c.Derivable level := by
  refine (evaluate_sound hv c.recursionDepthLimit level _ ⟨fun l hl => ?_, fun a ha => ?_⟩).2 h
  · refine ⟨0, .provided (.inl ?_)⟩
    by_contra hl'
    exact absurd ((if_neg hl').symm.trans hl) (by simp)
  · by_contra hl'
    exact ha (if_neg hl')

end Sound

/-! ## Derivations by computation -/

section Decide

variable [LinearOrder Key]

/-- `Counts`, given which permissions are derived. -/
def countsWith (c : AuthorityChecker Key) (derived : PermissionLevel → Bool) :
    MetaPermission Key → Bool
  | .wait w => seconds w.waitSec ≤ c.providedDelay
  | .key k => k.key ∈ c.providedKeys
  | .account p => derived p.permission

/-- Whether there is a derivation of height at most `n`: all factors that count reach the
threshold. -/
def derivesWithin (c : AuthorityChecker Key) : Nat → PermissionLevel → Bool
  | 0, level => c.Provided level
  | n + 1, level =>
    c.Provided level || (c.permissionToAuthority level).any fun auth =>
      auth.threshold.toNat ≤ weightOf (auth.factors.filter (c.countsWith (c.derivesWithin n)))

variable {c : AuthorityChecker Key}

theorem derivesWithin_of_derives {n : Nat} (h : c.Derives n level) :
    c.derivesWithin n level = true := by
  induction h with
  | @provided n level h => cases n <;> simp [derivesWithin, h]
  | @derived n level auth hauth ms distinct factors keys waits accounts reached ih =>
    simp only [derivesWithin, hauth, Option.any_some, Bool.or_eq_true, decide_eq_true_eq]
    refine .inr (le_trans reached (weightOf_le_of_subset distinct fun m hm => ?_))
    refine mem_filter.mpr ⟨factors hm, ?_⟩
    cases m with
    | account p => exact ih p hm
    | key k => exact decide_eq_true (keys k hm)
    | wait w => exact decide_eq_true (waits w hm)

theorem derives_of_derivesWithin (hv : c.Validated) :
    ∀ {n : Nat} {level : PermissionLevel}, c.derivesWithin n level = true → c.Derives n level
  | 0, level, h => .provided (by simpa [derivesWithin] using h)
  | n + 1, level, h => by
    simp only [derivesWithin, Bool.or_eq_true, decide_eq_true_eq, Option.any_eq_true] at h
    rcases h with h | ⟨auth, hauth, hreached⟩
    · exact .provided h
    · refine .derived hauth _ ((hv.valid hauth).nodup.filter _) (fun m hm => mem_of_mem_filter hm)
        (fun k hk => ?_) (fun w hw => ?_) (fun p hp => ?_) hreached
      · exact of_decide_eq_true (mem_filter.mp hk).2
      · exact of_decide_eq_true (mem_filter.mp hw).2
      · exact derives_of_derivesWithin hv (mem_filter.mp hp).2

end Decide

/-! ## A derivation higher than the limit -/

/-- The lookup in a finite permission database. -/
def authorityTable (db : List (PermissionLevel × Authority Key)) (level : PermissionLevel) :
    Option (Authority Key) :=
  (db.find? fun e => e.1 = level).map Prod.snd

theorem validated_of_table [LinearOrder Key] {c : AuthorityChecker Key}
    {db : List (PermissionLevel × Authority Key)} (hc : c.authorityOf = authorityTable db)
    (h : ∀ e ∈ db, e.2.validate = true) : c.Validated := by
  intro level auth hauth
  rw [hc] at hauth
  obtain ⟨e, he, rfl⟩ := Option.map_eq_some_iff.mp hauth
  exact h e (mem_of_find?_eq_some he)

/-- Account 1 asks for accounts 2, 3 and 4 together; 4 is controlled by 3, 3 by 2, and 2 by a
key. -/
def delegationChain : List (PermissionLevel × Authority Nat) :=
  [(⟨1, 1⟩, { threshold := 6, accounts := [⟨⟨2, 1⟩, 3⟩, ⟨⟨3, 1⟩, 2⟩, ⟨⟨4, 1⟩, 1⟩] }),
    (⟨2, 1⟩, { threshold := 1, keys := [⟨7, 1⟩] }),
    (⟨3, 1⟩, { threshold := 1, accounts := [⟨⟨2, 1⟩, 1⟩] }),
    (⟨4, 1⟩, { threshold := 1, accounts := [⟨⟨3, 1⟩, 1⟩] })]

/-- A checker for `delegationChain` that may recurse twice. -/
def chainChecker : AuthorityChecker Nat where
  authorityOf := authorityTable delegationChain
  recursionDepthLimit := 2
  providedKeys := [7]
  providedPermissions := []
  providedDelay := 0

theorem satisfied_derives_chain :
    chainChecker.Validated ∧ (chainChecker.satisfied ⟨1, 1⟩ [false]).1 = true ∧
      chainChecker.Derivable ⟨1, 1⟩ := by
  have hv : chainChecker.Validated := validated_of_table rfl (by decide)
  have hs : (chainChecker.satisfied ⟨1, 1⟩ [false]).1 = true := by decide
  exact ⟨hv, hs, satisfied_derives chainChecker hv ⟨1, 1⟩ [false] hs⟩

/-- **The recursion limit does not bound the derivation**: each result found at depth two is in the
cache when the next account needs it, so a chain of four is accepted with a limit of two. -/
theorem satisfied_exceeds_limit :
    chainChecker.Validated ∧ (chainChecker.satisfied ⟨1, 1⟩ [false]).1 = true ∧
      ¬ chainChecker.Derives chainChecker.recursionDepthLimit ⟨1, 1⟩ ∧
      ¬ chainChecker.Derives (chainChecker.recursionDepthLimit + 1) ⟨1, 1⟩ := by
  refine ⟨validated_of_table rfl (by decide), by decide, fun h => ?_, fun h => ?_⟩
  · exact absurd (derivesWithin_of_derives h) (by decide)
  · exact absurd (derivesWithin_of_derives h) (by decide)

end AuthorityChecker

end Forceio.Chain
