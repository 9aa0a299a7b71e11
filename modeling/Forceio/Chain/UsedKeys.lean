import Forceio.Chain.AuthorityChecker

/-!
# Used keys

`check_authorization` and `get_required_keys` make one checker, call `satisfied` for one permission
after another and then read `used_keys()`. The keys it reports should do for the same calls.

* Every call starts with a fresh cache; `_used_keys` goes on from call to call.
* A failed authority takes its keys back, but what was found satisfied below it stays in the cache,
  and is counted later without its keys.

`RevertSafe` is the condition under which nothing is lost: no chain of permissions is cut off by the
recursion limit, and a satisfiable permission below an unsatisfiable one is not reached around it.

Results:
* `usedKeys_suffice`: the reported keys do, for calls that are `RevertSafe`.
* `usedKeys_lost`: they need not in general.
* `satisfiedAll_iff_derivable`, `satisfiedAll_moreKeys`: below the recursion limit the checker is
  exact, and more keys never take authority away.
-/

namespace Forceio.Chain.AuthorityChecker

open Forceio.Lib List

variable {Key : Type}
variable {level : PermissionLevel} {used : List Bool}

/-! ## The graph of permissions -/

variable {n : Nat}

section Graph

variable (c : AuthorityChecker Key)

/-- The permissions an evaluation of `level` may ask for. -/
def uses (level : PermissionLevel) : List PermissionLevel :=
  if c.Provided level then []
  else match c.permissionToAuthority level with
    | none => []
    | some auth => auth.accounts.map PermissionLevelWeight.permission

/-- No chain of permissions from `level` on is longer than `n`. -/
def fits : Nat → PermissionLevel → Bool
  | 0, level => c.Provided level || (c.permissionToAuthority level).isNone
  | n + 1, level => (c.uses level).all (fits n)

/-- The ways of at most `n` steps from `level`: the permissions passed and the one reached. -/
def paths : Nat → PermissionLevel → List (List PermissionLevel × PermissionLevel)
  | 0, level => [([], level)]
  | n + 1, level =>
    ([], level) :: (c.uses level).flatMap fun q =>
      (paths n q).map fun e => (level :: e.1, e.2)

variable {c}

theorem mem_uses {q : PermissionLevel} : q ∈ c.uses level ↔ ¬ c.Provided level ∧
      ∃ auth, c.permissionToAuthority level = some auth ∧ ∃ p ∈ auth.accounts, p.permission = q := by
  unfold uses
  split
  · rename_i h
    exact ⟨fun hq => absurd hq (by simp), fun hq => absurd h hq.1⟩
  · rename_i h
    split
    · rename_i hnone
      simp [hnone]
    · rename_i auth hauth
      simp [h, hauth]

theorem fits_of_uses {q : PermissionLevel} (h : c.fits n level = true)
    (hq : q ∈ c.uses level) : ∃ m < n, c.fits m q = true := by
  cases n with
  | zero =>
    obtain ⟨hprov, auth, hauth, -⟩ := mem_uses.mp hq
    simp [fits, hprov, hauth] at h
  | succ n => exact ⟨n, Nat.lt_succ_self n, all_eq_true.mp h q hq⟩

theorem not_transGen_of_fits (h : c.fits n level = true) :
    ¬ Relation.TransGen (fun a b => b ∈ c.uses a) level level := by
  have descend : ∀ {a b : PermissionLevel}, Relation.TransGen (fun a b => b ∈ c.uses a) a b →
      ∀ {n : Nat}, c.fits n a = true → ∃ m < n, c.fits m b = true := by
    intro a b hab
    induction hab with
    | single hq => exact fun hn => fits_of_uses hn hq
    | tail _ hq ih =>
      intro n hn
      obtain ⟨m, hm, hfit⟩ := ih hn
      obtain ⟨k, hk, hfit⟩ := fits_of_uses hfit hq
      exact ⟨k, hk.trans hm, hfit⟩
  intro hcycle
  induction n using Nat.strong_induction_on with
  | h n ih =>
    obtain ⟨m, hm, hfit⟩ := descend hcycle h
    exact ih m hm hfit

theorem derives_of_fits :
    ∀ {n m : Nat} {level : PermissionLevel}, c.fits n level = true → c.Derives m level →
      c.Derives n level
  | 0, m, level, hfit, h => by
    cases h with
    | provided h => exact .provided h
    | derived hauth =>
      simp only [fits, hauth, Option.isNone_some, Bool.or_false, decide_eq_true_eq] at hfit
      exact .provided hfit
  | n + 1, m, level, hfit, h => by
    cases h with
    | provided h => exact .provided h
    | derived hauth ms distinct factors keys waits accounts reached =>
      by_cases hprov : c.Provided level
      · exact .provided hprov
      · refine .derived hauth ms distinct factors keys waits (fun p hp => ?_) reached
        refine derives_of_fits (all_eq_true.mp hfit _ (mem_uses.mpr ⟨hprov, _, hauth, p, ?_, rfl⟩))
          (accounts p hp)
        exact Authority.account_mem_factors.mp (factors hp)

theorem nil_mem_paths (n : Nat) (level : PermissionLevel) : ([], level) ∈ c.paths n level := by
  cases n <;> simp [paths]

theorem mem_paths_snoc : ∀ {n : Nat} {root level q : PermissionLevel} {way : List PermissionLevel},
      (way, level) ∈ c.paths n root → way.length < n → q ∈ c.uses level →
        (way ++ [level], q) ∈ c.paths n root
  | n + 1, root, level, q, way, h, hlen, hq => by
    simp only [paths, mem_cons, Prod.mk.injEq, mem_flatMap, mem_map] at h
    rcases h with ⟨rfl, rfl⟩ | ⟨a, ha, ⟨way', level'⟩, hway, rfl, rfl⟩
    · simp only [paths, mem_cons, mem_flatMap, mem_map]
      exact .inr ⟨q, hq, ([], q), nil_mem_paths n q, rfl⟩
    · simp only [paths, mem_cons, mem_flatMap, mem_map]
      refine .inr ⟨a, ha, (way' ++ [level'], q), mem_paths_snoc hway ?_ hq, rfl⟩
      simpa using hlen

/-- A way leads from the root to its end, and what is left of the limit fits there. -/
theorem of_mem_paths : ∀ {n : Nat} {root level : PermissionLevel} {way : List PermissionLevel},
      (way, level) ∈ c.paths n root →
        (c.fits n root = true → way.length ≤ n ∧ c.fits (n - way.length) level = true) ∧
          Relation.ReflTransGen (fun a b => b ∈ c.uses a) root level ∧
          ∀ x ∈ way, Relation.TransGen (fun a b => b ∈ c.uses a) x level
  | 0, root, level, way, h => by
    simp only [paths, mem_singleton, Prod.mk.injEq] at h
    obtain ⟨rfl, rfl⟩ := h
    exact ⟨fun hfit => ⟨Nat.le_refl _, hfit⟩, .refl, by simp⟩
  | n + 1, root, level, way, h => by
    simp only [paths, mem_cons, Prod.mk.injEq, mem_flatMap, mem_map] at h
    rcases h with ⟨rfl, rfl⟩ | ⟨a, ha, ⟨way', level'⟩, hway, rfl, rfl⟩
    · exact ⟨fun hfit => ⟨Nat.zero_le _, hfit⟩, .refl, by simp⟩
    · obtain ⟨hfits, hreach, hbelow⟩ := of_mem_paths hway
      have hroot : Relation.TransGen (fun a b => b ∈ c.uses a) root level' := .head' ha hreach
      refine ⟨fun hfit => ?_, hroot.to_reflTransGen, forall_mem_cons.mpr ⟨hroot, hbelow⟩⟩
      obtain ⟨hlen, hfit⟩ := hfits (all_eq_true.mp hfit a ha)
      exact ⟨by simpa using hlen, by simpa [Nat.add_sub_add_right] using hfit⟩

theorem not_mem_way {root : PermissionLevel} {way : List PermissionLevel}
    (h : (way, level) ∈ c.paths n root) (hfit : c.fits n root = true) : level ∉ way := fun hmem =>
  not_transGen_of_fits ((of_mem_paths h).1 hfit).2 ((of_mem_paths h).2.2 level hmem)

end Graph

/-! ## Keys in use -/

section Keys

variable (c : AuthorityChecker Key)

/-- `used_keys()`: `filter_data_by_marker(provided_keys, _used_keys, true)`. -/
def usedKeys (used : List Bool) : List Key :=
  ((c.providedKeys.zip used).filter Prod.snd).map Prod.fst

/-- A checker that was given other keys. -/
def withKeys (keys : List Key) : AuthorityChecker Key :=
  { c with providedKeys := keys }

/-- The permission is derivable from the keys in use. -/
def DerivableFrom (used : List Bool) (level : PermissionLevel) : Prop :=
  (c.withKeys (c.usedKeys used)).Derivable level

variable {c : AuthorityChecker Key}

theorem mem_usedKeys {k : Key} :
    k ∈ c.usedKeys used ↔ ∃ i : Nat, c.providedKeys[i]? = some k ∧ used[i]? = some true := by
  unfold usedKeys
  rw [mem_map]
  constructor
  · rintro ⟨⟨a, b⟩, hab, rfl⟩
    obtain ⟨hab, htrue⟩ := mem_filter.mp hab
    obtain ⟨i, hi⟩ := mem_iff_getElem?.mp hab
    obtain ⟨ha, hb⟩ := getElem?_zip_eq_some.mp hi
    exact ⟨i, ha, hb.trans (congrArg some htrue)⟩
  · rintro ⟨i, hk, hused⟩
    refine ⟨(k, true), mem_filter.mpr ⟨mem_iff_getElem?.mpr ⟨i, ?_⟩, rfl⟩, rfl⟩
    exact getElem?_zip_eq_some.mpr ⟨hk, hused⟩

theorem usedKeys_subset_set (used : List Bool) (i : Nat) :
    c.usedKeys used ⊆ c.usedKeys (used.set i true) := by
  intro k hk
  obtain ⟨j, hj, hused⟩ := mem_usedKeys.mp hk
  refine mem_usedKeys.mpr ⟨j, hj, ?_⟩
  by_cases hij : i = j
  · subst hij
    rw [List.getElem?_set_self (List.getElem?_eq_some_iff.mp hused).1]
  · rw [getElem?_set_ne hij, hused]

theorem Derives.mono_keys {keys keys' : List Key} (hsub : keys ⊆ keys')
    (h : (c.withKeys keys).Derives n level) : (c.withKeys keys').Derives n level := by
  induction h with
  | provided h => exact .provided h
  | derived hauth ms distinct factors hkeys waits _ reached ih =>
    exact .derived hauth ms distinct factors (fun k hk => hsub (hkeys k hk)) waits ih reached

theorem DerivableFrom.mono {used' : List Bool} (hsub : c.usedKeys used ⊆ c.usedKeys used')
    (h : c.DerivableFrom used level) : c.DerivableFrom used' level := by
  obtain ⟨n, hn⟩ := h
  exact ⟨n, hn.mono_keys hsub⟩

variable {m : MetaPermission Key}

theorem Counts.mono_keys {used' : List Bool} (hsub : c.usedKeys used ⊆ c.usedKeys used')
    (h : (c.withKeys (c.usedKeys used)).Counts m) :
    (c.withKeys (c.usedKeys used')).Counts m := by
  cases m with
  | account p => exact DerivableFrom.mono hsub h
  | key k => exact hsub h
  | wait w => exact h

/-- The graph does not depend on the provided keys. -/
theorem fits_withKeys (keys : List Key) :
    ∀ (n : Nat) (level : PermissionLevel), (c.withKeys keys).fits n level = c.fits n level
  | 0, _ => rfl
  | n + 1, level => by
    have huses : (c.withKeys keys).uses level = c.uses level := rfl
    rw [fits, fits, huses, show (c.withKeys keys).fits n = c.fits n from
      funext (fits_withKeys keys n)]

theorem reaches_cons {adds : Bool} (hm : adds = true ↔ c.Counts m)
    (ms : List (MetaPermission Key)) (total threshold : Nat) :
    c.Reaches (m :: ms) total threshold ↔
      c.Reaches ms (total + Authority.weightOf (if adds then [m] else [])) threshold := by
  refine ⟨?_, .cons hm.mp⟩
  rintro ⟨ns, hsub, hns, hreached⟩
  cases hsub with
  | cons _ hsub => exact ⟨ns, hsub, hns, by omega⟩
  | @cons_cons ns' _ _ hsub =>
    rw [if_pos (hm.mpr (hns m mem_cons_self))]
    refine ⟨ns', hsub, fun m' hm' => hns m' (mem_cons_of_mem m hm'), ?_⟩
    simp only [Authority.weightOf_cons, Authority.weightOf_nil] at hreached ⊢
    omega

end Keys

/-! ## What an evaluation leaves behind -/

variable {auth : Authority Key}

section Grows

open CheckState (setStatus_cached_iff ne_of_cached)

/-- The cache is exact: what was provided is in it, and what it holds as unsatisfied cannot be
derived. -/
structure CacheExact (c : AuthorityChecker Key) (st : CheckState) : Prop where
  provided : ∀ l ∈ c.providedPermissions, st.cached l = some .permissionSatisfied
  unsatisfied : ∀ l, st.cached l = some .permissionUnsatisfied → ¬ c.Derivable l

/-- The permissions being evaluated are those of the way from the root. -/
def Evaluating (st : CheckState) (way : List PermissionLevel) : Prop :=
  ∀ l, st.cached l = some .beingEvaluated ↔ l ∈ way

/-- What is in the cache as satisfied is derivable from the keys in use, unless it is below a
permission that was found unsatisfied. -/
def Kept (c : AuthorityChecker Key) (root : PermissionLevel) (st : CheckState) : Prop :=
  ∀ l, st.cached l = some .permissionSatisfied → c.Provided l ∨ c.DerivableFrom st.usedKeys l ∨
    ∃ way x, (way, l) ∈ c.paths c.recursionDepthLimit root ∧ x ∈ way ∧
      st.cached x = some .permissionUnsatisfied

/-- An evaluation on the way `way` adds to the cache, below that way only, and to the used keys. -/
structure Grows (c : AuthorityChecker Key) (root : PermissionLevel) (way : List PermissionLevel)
    (st st' : CheckState) : Prop where
  old : ∀ l s, st.cached l = some s → st'.cached l = some s
  being : ∀ l, st'.cached l = some .beingEvaluated → st.cached l = some .beingEvaluated
  new : ∀ l, st.cached l = none → st'.cached l ≠ none →
    ∃ way', way <+: way' ∧ (way', l) ∈ c.paths c.recursionDepthLimit root
  used : c.usedKeys st.usedKeys ⊆ c.usedKeys st'.usedKeys
  length : st'.usedKeys.length = st.usedKeys.length

variable {c : AuthorityChecker Key} {root : PermissionLevel} {way : List PermissionLevel}
  {st st' st'' : CheckState}

theorem Grows.refl (root : PermissionLevel) (way : List PermissionLevel) (st : CheckState) :
    c.Grows root way st st :=
  ⟨fun _ _ => id, fun _ => id, fun _ h h' => absurd h h', fun _ => id, rfl⟩

theorem Grows.trans (h : c.Grows root way st st') (h' : c.Grows root way st' st'') :
    c.Grows root way st st'' where
  old l s hl := h'.old l s (h.old l s hl)
  being l hl := h.being l (h'.being l hl)
  new l hl hl' := by
    by_cases hmid : st'.cached l = none
    · exact h'.new l hmid hl'
    · exact h.new l hl hmid
  used := List.Subset.trans h.used h'.used
  length := h'.length.trans h.length

/-- What an evaluation on the way `way` needs. -/
structure EvalPre (c : AuthorityChecker Key) (way : List PermissionLevel) (st : CheckState) :
    Prop where
  sound : c.CacheSound st
  exact' : c.CacheExact st
  evaluating : Evaluating st way
  length : st.usedKeys.length = c.providedKeys.length

theorem EvalPre.next (h : c.EvalPre way st) (hg : c.Grows root way st st')
    (hs : c.CacheSound st') (he : c.CacheExact st') : c.EvalPre way st' where
  sound := hs
  exact' := he
  evaluating l := ⟨fun hl => (h.evaluating l).mp (hg.being l hl),
    fun hl => hg.old l _ ((h.evaluating l).mpr hl)⟩
  length := hg.length.trans h.length

theorem EvalPre.initial (c : AuthorityChecker Key) (hlen : used.length = c.providedKeys.length) :
    c.EvalPre [] ⟨used, c.initialCache⟩ := by
  have hsat : ∀ l s, c.initialCache l = some s → s = .permissionSatisfied ∧
      l ∈ c.providedPermissions := by
    intro l s hl
    unfold initialCache at hl
    split at hl
    · rename_i hmem
      exact ⟨(Option.some.inj hl).symm, hmem⟩
    · simp at hl
  refine ⟨⟨fun l hl => ⟨0, .provided (.inl (hsat l _ hl).2)⟩, fun a ha => ?_⟩,
    ⟨fun l hl => if_pos hl, fun l hl => absurd (hsat l _ hl).1 (by simp)⟩,
    fun l => iff_of_false (fun hl => absurd (hsat l _ hl).1 (by simp)) (by simp), hlen⟩
  by_contra hmem
  exact ha (if_neg hmem)

theorem Kept.initial (c : AuthorityChecker Key) (root : PermissionLevel) (used : List Bool) :
    c.Kept root ⟨used, c.initialCache⟩ := by
  intro l hl
  by_cases hmem : l ∈ c.providedPermissions
  · exact .inl (.inl hmem)
  · exact absurd ((if_neg hmem).symm.trans hl) (by simp)

theorem EvalPre.not_provided (h : c.EvalPre way st) (hs : st.status level = none) :
    ¬ c.Provided level := by
  cases hc : st.cached level with
  | some s => exact absurd ((CheckState.status_of_cached hc).symm.trans hs) (by simp)
  | none =>
    rw [CheckState.status_of_none hc] at hs
    rintro (hp | hp)
    · rw [h.exact'.provided _ hp] at hc
      simp at hc
    · rw [h.exact'.provided _ hp] at hs
      simp at hs

/-- What was kept is kept while keys in use and unsatisfied permissions stay. -/
theorem Kept.transfer (h : c.Kept root st) (hl : st.cached level = some .permissionSatisfied)
    (hsub : c.usedKeys st.usedKeys ⊆ c.usedKeys used)
    (hunsat : ∀ x, st.cached x = some .permissionUnsatisfied →
      st'.cached x = some .permissionUnsatisfied) :
    c.Provided level ∨ c.DerivableFrom used level ∨
      ∃ way x, (way, level) ∈ c.paths c.recursionDepthLimit root ∧ x ∈ way ∧
        st'.cached x = some .permissionUnsatisfied := by
  rcases h level hl with hp | hd | ⟨way', x, hway', hx, hx'⟩
  · exact .inl hp
  · exact .inr (.inl (hd.mono hsub))
  · exact .inr (.inr ⟨way', x, hway', hx, hunsat x hx'⟩)

variable {s : PermissionCacheStatus} {r : Option PermissionCacheStatus}

/-- An entry written for a permission that was not found unsatisfied. -/
theorem Kept.setStatus (h : c.Kept root st)
    (hc : st.cached level = r) (hr : some .permissionUnsatisfied ≠ r)
    (hd : s = .permissionSatisfied → c.DerivableFrom st.usedKeys level) :
    c.Kept root (st.setStatus level s) := by
  intro l hl
  rcases setStatus_cached_iff.mp hl with ⟨rfl, hs⟩ | ⟨-, hl⟩
  · exact .inr (.inl (hd hs))
  · refine h.transfer hl (fun _ => id) fun x hx => ?_
    exact setStatus_cached_iff.mpr (.inr ⟨ne_of_cached hx hc hr, hx⟩)

/-- An entry written for a permission that was not found satisfied. -/
theorem CacheExact.setStatus (h : c.CacheExact st)
    (hc : st.cached level = r) (hr : some .permissionSatisfied ≠ r)
    (hs : s = .permissionUnsatisfied → ¬ c.Derivable level) :
    c.CacheExact (CheckState.setStatus { st with usedKeys := used } level s) := by
  refine ⟨fun l hl => ?_, fun l hl => ?_⟩
  · have hp := h.provided l hl
    exact setStatus_cached_iff.mpr (.inr ⟨ne_of_cached hp hc hr, hp⟩)
  · rcases setStatus_cached_iff.mp hl with ⟨rfl, hs'⟩ | ⟨-, hl⟩
    · exact hs hs'
    · exact h.unsatisfied l hl

theorem EvalPre.enter (h : c.EvalPre way st)
    (hauth : c.permissionToAuthority level = some auth) (hc : st.cached level = none) :
    c.EvalPre (way ++ [level]) (st.setStatus level .beingEvaluated) := by
  refine ⟨h.sound.setStatus (permission_ne_of_authority hauth) (by simp),
    h.exact'.setStatus hc (by simp) (by simp), fun l => ?_, h.length⟩
  by_cases heq : l = level
  · rw [heq, st.setStatus_cached_self]
    simp
  · rw [st.setStatus_cached_of_ne heq, h.evaluating l]
    simp [heq]

/-- After the factors of `level` were visited, its result is written. -/
theorem Grows.leave (hc : st.cached level = none)
    (hg : c.Grows root (way ++ [level]) (st.setStatus level .beingEvaluated) st')
    (hway : (way, level) ∈ c.paths c.recursionDepthLimit root)
    (hused : c.usedKeys st.usedKeys ⊆ c.usedKeys used) (hlen : used.length = st.usedKeys.length)
    (hs : s ≠ .beingEvaluated) :
    c.Grows root way st (CheckState.setStatus { st' with usedKeys := used } level s) := by
  refine ⟨fun l t hl => ?_, fun l hl => ?_, fun l hl hl' => ?_, hused, hlen⟩
  · have hne := ne_of_cached hl hc (by simp)
    exact setStatus_cached_iff.mpr (.inr ⟨hne, hg.old l t ((st.setStatus_cached_of_ne hne _).trans hl)⟩)
  · rcases setStatus_cached_iff.mp hl with ⟨-, hs'⟩ | ⟨hne, hl⟩
    · exact absurd hs' hs
    · exact (st.setStatus_cached_of_ne hne _).symm.trans (hg.being l hl)
  · by_cases heq : l = level
    · exact ⟨way, prefix_refl way, heq ▸ hway⟩
    · rw [CheckState.setStatus_cached_of_ne _ heq] at hl'
      obtain ⟨way', hpre, hway'⟩ := hg.new l ((st.setStatus_cached_of_ne heq _).trans hl) hl'
      exact ⟨way', (prefix_append way [level]).trans hpre, hway'⟩

/-- A permission found unsatisfied takes its keys back; what was found on the way is below it. -/
theorem Kept.leave_unsatisfied (h : c.Kept root st) (hc : st.cached level = none)
    (hg : c.Grows root (way ++ [level]) (st.setStatus level .beingEvaluated) st') :
    c.Kept root
      (CheckState.setStatus { st' with usedKeys := st.usedKeys } level .permissionUnsatisfied) := by
  intro l hl
  rcases setStatus_cached_iff.mp hl with ⟨-, hs⟩ | ⟨hne, hl⟩
  · simp at hs
  have hl : st'.cached l = some .permissionSatisfied := hl
  have hbefore := st.setStatus_cached_of_ne hne .beingEvaluated
  cases hst : st.cached l with
  | none =>
    obtain ⟨way', hpre, hway'⟩ := hg.new l (hbefore.trans hst) (by simp [hl])
    refine .inr (.inr ⟨way', level, hway', hpre.subset (by simp), ?_⟩)
    exact CheckState.setStatus_cached_self _ level _
  | some s =>
    have hs := hg.old l s (hbefore.trans hst)
    refine h.transfer (hst.trans (hs.symm.trans hl)) (fun _ => id) fun x hx => ?_
    have hne' := ne_of_cached hx hc (by simp)
    exact setStatus_cached_iff.mpr
      (.inr ⟨hne', hg.old x _ ((st.setStatus_cached_of_ne hne' _).trans hx)⟩)

end Grows

section Exact

variable [LinearOrder Key] {c : AuthorityChecker Key} {root : PermissionLevel}
  {way : List PermissionLevel} {st st' : CheckState}
  {eval : PermissionLevel → CheckState → Bool × CheckState}

/-- **Nothing an unsatisfiable permission takes back is needed elsewhere**: two ways to the same
satisfiable permission pass the same unsatisfiable ones. -/
def Separated (c : AuthorityChecker Key) (n : Nat) (level : PermissionLevel) : Prop :=
  ∀ a ∈ c.paths n level, ∀ b ∈ c.paths n level, a.2 = b.2 → ¬ c.Provided a.2 →
    c.derivesWithin n a.2 = true → ∀ x ∈ b.1, c.derivesWithin n x = false → x ∈ a.1

instance (c : AuthorityChecker Key) (n : Nat) (level : PermissionLevel) :
    Decidable (c.Separated n level) :=
  inferInstanceAs (Decidable (∀ a ∈ c.paths n level, _))

/-- What a computation on the way `way` does that is to find out whether `P` holds; `Q` is what the
keys then in use give. -/
structure EvalPost (c : AuthorityChecker Key) (root : PermissionLevel)
    (way : List PermissionLevel) (st : CheckState) (P : Prop) (Q : List Bool → Prop)
    (out : Bool × CheckState) : Prop where
  grows : c.Grows root way st out.2
  sound : c.CacheSound out.2
  exact' : c.CacheExact out.2
  correct : out.1 = true ↔ P
  kept : c.Separated c.recursionDepthLimit root → c.Kept root st →
    c.Kept root out.2 ∧ (out.1 = true → Q out.2.usedKeys)

/-- `eval` finds out about the permissions at the end of the way `way`. -/
def EvaluatesExactly (c : AuthorityChecker Key) (root : PermissionLevel)
    (way : List PermissionLevel) (eval : PermissionLevel → CheckState → Bool × CheckState) : Prop :=
  ∀ level, (way, level) ∈ c.paths c.recursionDepthLimit root → ∀ st, c.EvalPre way st →
    c.EvalPost root way st (c.Derivable level) (c.DerivableFrom · level) (eval level st)

theorem EvalPre.fails (h : c.EvalPre way st) {P : Prop} (hP : ¬ P) (Q : List Bool → Prop) :
    c.EvalPost root way st P Q (false, st) :=
  ⟨.refl root way st, h.sound, h.exact', iff_of_false (by simp) hP,
    fun _ hkept => ⟨hkept, fun hf => absurd hf (by simp)⟩⟩

theorem mem_usedKeys_set (hlen : used.length = c.providedKeys.length) {k : Key}
    (hk : k ∈ c.providedKeys) : k ∈ c.usedKeys (used.set (c.providedKeys.idxOf k) true) := by
  have hi := idxOf_lt_length_of_mem hk
  refine mem_usedKeys.mpr ⟨c.providedKeys.idxOf k, ?_, ?_⟩
  · rw [getElem?_eq_getElem hi, getElem_idxOf hi]
  · rw [getElem?_set_self (by omega)]

/-! ### One factor -/

theorem visit_post (he : c.EvaluatesExactly root way eval) (h : c.EvalPre way st)
    (m : MetaPermission Key)
    (hm : ∀ p, m = .account p → (way, p.permission) ∈ c.paths c.recursionDepthLimit root) :
    c.EvalPost root way st (c.Counts m) (fun used => (c.withKeys (c.usedKeys used)).Counts m)
      (c.visit eval m st) := by
  cases m with
  | account p => exact he p.permission (hm p rfl) st h
  | key k =>
    by_cases hk : k.key ∈ c.providedKeys
    · rw [visit_key_of_mem hk]
      have hsub := usedKeys_subset_set (c := c) st.usedKeys (c.providedKeys.idxOf k.key)
      refine ⟨⟨fun _ _ => id, fun _ => id, fun _ hl hl' => absurd hl hl', hsub, by simp⟩,
        h.sound.setUsedKeys _, ⟨h.exact'.provided, h.exact'.unsatisfied⟩, iff_of_true rfl hk, ?_⟩
      exact fun _ hkept => ⟨fun _ hl => hkept.transfer hl hsub fun _ => id,
        fun _ => mem_usedKeys_set h.length hk⟩
    · rw [visit_key_of_not_mem hk]
      exact h.fails hk _
  | wait w =>
    refine ⟨.refl root way st, h.sound, h.exact', ?_, fun _ hkept => ⟨hkept, fun hw => ?_⟩⟩
    · exact decide_eq_true_iff
    · exact (decide_eq_true_iff.mp hw : seconds w.waitSec ≤ c.providedDelay)

/-! ### The loop over the factors -/

/-- The loop finds out whether the factors reach the threshold. -/
theorem tally_post (he : c.EvaluatesExactly root way eval) (threshold : UInt32) :
    ∀ (ms : List (MetaPermission Key)) (total : UInt32) (st : CheckState), c.EvalPre way st →
      (∀ p, .account p ∈ ms → (way, p.permission) ∈ c.paths c.recursionDepthLimit root) →
      total < threshold → total.toNat + Authority.weightOf ms < 2 ^ 32 →
      c.EvalPost root way st (c.Reaches ms total.toNat threshold.toNat)
        (fun used => (c.withKeys (c.usedKeys used)).Reaches ms total.toNat threshold.toNat)
        (c.tally eval threshold ms total st)
  | [], total, st, h, _, hlt, _ => by
    refine h.fails ?_ _
    rintro ⟨ns, hsub, -, hreached⟩
    rw [sublist_nil.mp hsub, Authority.weightOf_nil] at hreached
    have := UInt32.lt_iff_toNat_lt.mp hlt
    omega
  | m :: ms, total, st, h, hms, hlt, hfits => by
    rw [Authority.weightOf_cons] at hfits
    have hvisit := visit_post he h m fun p hp => hms p (hp ▸ mem_cons_self)
    obtain ⟨adds, st', hv⟩ : ∃ adds st', c.visit eval m st = (adds, st') := ⟨_, _, rfl⟩
    rw [hv] at hvisit
    have htotal := addWeight_toNat total m (by omega) adds
    have hle : Authority.weightOf (if adds then [m] else []) ≤ m.weight.toNat := by
      cases adds <;> simp
    -- with the keys then in use, the factor still counts, and so does what follows it
    have hfrom : ∀ {used : List Bool}, c.usedKeys st'.usedKeys ⊆ c.usedKeys used →
        (adds = true → (c.withKeys (c.usedKeys st'.usedKeys)).Counts m) →
        (c.withKeys (c.usedKeys used)).Reaches ms (addWeight total m adds).toNat threshold.toNat →
        (c.withKeys (c.usedKeys used)).Reaches (m :: ms) total.toNat threshold.toNat := by
      intro used hsub hcount hreaches
      rw [htotal] at hreaches
      exact .cons (fun h => (hcount h).mono_keys hsub) hreaches
    rw [tally_cons hv]
    split
    · rename_i hreached
      have hnil : ∀ {c' : AuthorityChecker Key},
          c'.Reaches ms (addWeight total m adds).toNat threshold.toNat :=
        ⟨[], by simp, by simp, by simpa using UInt32.le_iff_toNat_le.mp hreached⟩
      refine ⟨hvisit.grows, hvisit.sound, hvisit.exact', iff_of_true rfl ?_, fun hsep hkept => ?_⟩
      · rw [reaches_cons hvisit.correct, ← htotal]
        exact hnil
      · obtain ⟨hkept', hcount⟩ := hvisit.kept hsep hkept
        exact ⟨hkept', fun _ => hfrom (fun _ => id) hcount hnil⟩
    · rename_i hreached
      have hrest := tally_post he threshold ms (addWeight total m adds) st'
        (h.next hvisit.grows hvisit.sound hvisit.exact')
        (fun p hp => hms p (mem_cons_of_mem m hp)) (by simpa using hreached) (by omega)
      refine ⟨hvisit.grows.trans hrest.grows, hrest.sound, hrest.exact', ?_, fun hsep hkept => ?_⟩
      · rw [reaches_cons hvisit.correct, ← htotal]
        exact hrest.correct
      · obtain ⟨hkept', hcount⟩ := hvisit.kept hsep hkept
        obtain ⟨hkept'', hreaches⟩ := hrest.kept hsep hkept'
        exact ⟨hkept'', fun ht => hfrom hrest.grows.used hcount (hreaches ht)⟩

/-! ### One permission -/

/-- A derivation of a permission that was not provided is a choice of factors that reach the
threshold. -/
theorem derivable_iff_reaches
    (hauth : c.permissionToAuthority level = some auth) (hvalid : auth.Valid)
    (hprov : ¬ c.Provided level) :
    c.Derivable level ↔ c.Reaches auth.metaPermissions 0 auth.threshold.toNat := by
  classical
  refine ⟨?_, Reaches.derivable hauth hvalid⟩
  rintro ⟨n, hn⟩
  cases hn with
  | provided h => exact absurd h hprov
  | @derived n _ auth' hauth' ms distinct factors keys waits accounts reached =>
    rw [Option.some.inj (hauth'.symm.trans hauth)] at factors reached
    refine ⟨auth.metaPermissions.filter c.Counts, filter_sublist, ?_, ?_⟩
    · exact fun m hm => of_decide_eq_true (mem_filter.mp hm).2
    · rw [Nat.zero_add]
      refine le_trans reached (Authority.weightOf_le_of_subset distinct fun m hm => ?_)
      refine mem_filter.mpr ⟨Authority.mem_metaPermissions.mpr (factors hm), decide_eq_true ?_⟩
      cases m with
      | account p => exact ⟨n, accounts p hm⟩
      | key k => exact keys k hm
      | wait w => exact waits w hm

theorem status_post (hfit : c.fits c.recursionDepthLimit root = true) (hv : c.Validated)
    (hway : (way, level) ∈ c.paths c.recursionDepthLimit root) (h : c.EvalPre way st)
    {s : PermissionCacheStatus} (hs : st.status level = some s) :
    c.EvalPost root way st (c.Derivable level) (c.DerivableFrom · level)
      (decide (s = .permissionSatisfied), st) := by
  have hdirect : st.cached level = some s ∨ (s = .permissionSatisfied ∧ c.Provided level) := by
    cases hc : st.cached level with
    | some t => exact .inl ((CheckState.status_of_cached hc).symm.trans hs)
    | none =>
      rw [CheckState.status_of_none hc] at hs
      have hp := h.sound.wildcard level.actor (by rw [hs]; simp)
      rw [h.exact'.provided _ hp] at hs
      exact .inr ⟨(Option.some.inj hs).symm, .inr hp⟩
  refine ⟨.refl root way st, h.sound, h.exact', ?_, fun hsep hkept => ⟨hkept, fun hsat => ?_⟩⟩
  · refine ⟨fun hsat => h.sound.derivable_of_status (of_decide_eq_true hsat ▸ hs), fun hd => ?_⟩
    rcases hdirect with hc | ⟨hsat, -⟩
    · cases s with
      | permissionSatisfied => rfl
      | permissionUnsatisfied => exact absurd hd (h.exact'.unsatisfied level hc)
      | beingEvaluated => exact absurd ((h.evaluating level).mp hc) (not_mem_way hway hfit)
    · exact decide_eq_true hsat
  · obtain rfl := of_decide_eq_true hsat
    have hprovided : c.Provided level → c.DerivableFrom st.usedKeys level :=
      fun hp => ⟨0, .provided hp⟩
    rcases hdirect with hc | ⟨-, hp⟩
    · rcases hkept level hc with hp | hd | ⟨way', x, hway', hx, hunsat⟩
      · exact hprovided hp
      · exact hd
      · by_cases hp : c.Provided level
        · exact hprovided hp
        -- the permission that was found unsatisfied would have to be on the way taken now
        have hlevel : c.derivesWithin c.recursionDepthLimit level = true := by
          obtain ⟨n, hn⟩ := h.sound.satisfied level hc
          obtain ⟨hlen, hfit'⟩ := (of_mem_paths hway).1 hfit
          exact derivesWithin_of_derives ((derives_of_fits hfit' hn).mono (Nat.sub_le _ _))
        have hx' : c.derivesWithin c.recursionDepthLimit x = false := by
          by_contra hne
          refine h.exact'.unsatisfied x hunsat ⟨c.recursionDepthLimit, derives_of_derivesWithin hv ?_⟩
          simpa using hne
        have hmem := hsep _ hway _ hway' rfl hp hlevel x hx hx'
        rw [(h.evaluating x).mpr hmem] at hunsat
        simp at hunsat
    · exact hprovided hp

/-- An evaluation that stops without a result found no derivation. -/
theorem missing_post (h : c.EvalPre way st) (hs : st.status level = none)
    (hauth : c.permissionToAuthority level = none) :
    c.EvalPost root way st (c.Derivable level) (c.DerivableFrom · level) (false, st) := by
  refine h.fails ?_ _
  rintro ⟨n, hn⟩
  cases hn with
  | provided hp => exact h.not_provided hs hp
  | derived hauth' =>
    rw [hauth] at hauth'
    simp at hauth'

/-- **The checker is exact below the recursion limit**: an evaluation finds out whether the
permission has a derivation, and if the graph is separated, the keys then in use derive it. -/
theorem evaluate_post (hv : c.Validated) (hfit : c.fits c.recursionDepthLimit root = true) :
    ∀ (depth : Nat) (way : List PermissionLevel), way.length + depth = c.recursionDepthLimit →
        c.EvaluatesExactly root way (c.evaluate depth)
  | 0, way, hlen, level, hway, st, h => by
    unfold evaluate
    cases hs : st.status level with
    | some s => simpa using status_post hfit hv hway h hs
    | none =>
      have hfit' := ((of_mem_paths hway).1 hfit).2
      rw [show c.recursionDepthLimit - way.length = 0 by omega] at hfit'
      simp only [fits, h.not_provided hs, decide_false, Bool.false_or,
        Option.isNone_iff_eq_none] at hfit'
      simpa using missing_post h hs hfit'
  | depth + 1, way, hlen, level, hway, st, h => by
    cases hs : st.status level with
    | some s =>
      rw [evaluate, hs]
      exact status_post hfit hv hway h hs
    | none =>
      cases hauth : c.permissionToAuthority level with
      | none =>
        rw [evaluate, hs, hauth]
        exact missing_post h hs hauth
      | some auth =>
        have hprov := h.not_provided hs
        have hvalid := hv.valid hauth
        have hc : st.cached level = none := by
          cases hc : st.cached level with
          | none => rfl
          | some s => exact absurd ((CheckState.status_of_cached hc).symm.trans hs) (by simp)
        have hthreshold : (0 : UInt32) < auth.threshold :=
          UInt32.pos_iff_ne_zero.mpr hvalid.threshold
        have ht := tally_post (evaluate_post hv hfit depth (way ++ [level])
          (by simp only [length_append, length_singleton]; omega)) auth.threshold
          auth.metaPermissions 0 _ (h.enter hauth hc) (fun p hp => mem_paths_snoc hway (by omega)
            (mem_uses.mpr ⟨hprov, auth, hauth, p, Authority.account_mem_factors.mp
              (Authority.mem_metaPermissions.mp hp), rfl⟩)) hthreshold
          (by simpa using hvalid.weight_lt)
        obtain ⟨r, st', hr⟩ : ∃ r st', c.tally (c.evaluate depth) auth.threshold
          auth.metaPermissions 0 (st.setStatus level .beingEvaluated) = (r, st') := ⟨_, _, rfl⟩
        rw [hr] at ht
        have hbeing : st'.cached level = some .beingEvaluated :=
          ht.grows.old level _ (st.setStatus_cached_self level _)
        have hcorrect := ht.correct.trans (derivable_iff_reaches hauth hvalid hprov).symm
        have hlevel := permission_ne_of_authority hauth
        rw [evaluate, hs, hauth]
        simp only [satisfiedAuthority, hr]
        cases r with
        | true =>
          refine ⟨ht.grows.leave hc hway ht.grows.used ht.grows.length (by simp),
            ht.sound.setStatus hlevel fun _ => hcorrect.mp rfl,
            ht.exact'.setStatus hbeing (by simp) (by simp), hcorrect, fun hsep hkept => ?_⟩
          obtain ⟨hkept', hfrom⟩ := ht.kept hsep (hkept.setStatus hc (by simp) (by simp))
          have hd : c.DerivableFrom st'.usedKeys level :=
            (derivable_iff_reaches (c := c.withKeys (c.usedKeys st'.usedKeys)) hauth hvalid hprov).mpr
              (hfrom rfl)
          exact ⟨hkept'.setStatus hbeing (by simp) fun _ => hd, fun _ => hd⟩
        | false =>
          refine ⟨ht.grows.leave hc hway (fun _ => id) rfl (by simp),
            (ht.sound.setUsedKeys _).setStatus hlevel (by simp),
            ht.exact'.setStatus hbeing (by simp) fun _ hd => absurd (hcorrect.mpr hd) (by simp),
            hcorrect,
            fun _ hkept => ⟨hkept.leave_unsatisfied hc ht.grows, fun hf => absurd hf (by simp)⟩⟩

end Exact

/-! ## Sequences of calls -/

section Calls

variable [LinearOrder Key]

/-- A call of `satisfied`, with `override_provided_delay` where the caller gives one. -/
structure Call where
  level : PermissionLevel
  delay : Option Int := none

variable (c : AuthorityChecker Key)

/-- The checker while it answers a call. -/
def forCall (call : Call) : AuthorityChecker Key :=
  { c with providedDelay := call.delay.getD c.providedDelay }

/-- `_used_keys` of a new checker. -/
def noneUsed : List Bool := replicate c.providedKeys.length false

/-- One call after another, up to the first that fails. -/
def satisfiedAll (c : AuthorityChecker Key) : List Call → List Bool → Bool × List Bool
  | [], used => (true, used)
  | call :: calls, used =>
    let (r, used) := (c.forCall call).satisfied call.level used
    if r then satisfiedAll c calls used else (false, used)

/-- The chains of permissions from `level` stay within the recursion limit, and are separated. -/
def RevertSafe (level : PermissionLevel) : Prop :=
  c.fits c.recursionDepthLimit level = true ∧ c.Separated c.recursionDepthLimit level

instance (c : AuthorityChecker Key) (level : PermissionLevel) : Decidable (c.RevertSafe level) :=
  inferInstanceAs (Decidable (_ ∧ _))

variable {c : AuthorityChecker Key}

/-- **One call**: within the limit its answer is exact; if it is also separated, the keys in use
afterwards derive the permission. -/
theorem satisfied_post (hv : c.Validated) (level : PermissionLevel)
    (hfit : c.fits c.recursionDepthLimit level = true) (hlen : used.length = c.providedKeys.length) :
    ((c.satisfied level used).1 = true ↔ c.Derivable level) ∧
      c.usedKeys used ⊆ c.usedKeys (c.satisfied level used).2 ∧
      (c.satisfied level used).2.length = c.providedKeys.length ∧
      (c.Separated c.recursionDepthLimit level → (c.satisfied level used).1 = true →
        c.DerivableFrom (c.satisfied level used).2 level) := by
  have h := evaluate_post hv hfit c.recursionDepthLimit [] (by simp) level (nil_mem_paths _ _) _
    (EvalPre.initial c hlen)
  exact ⟨h.correct, h.grows.used, h.grows.length.trans hlen,
    fun hsep => (h.kept hsep (Kept.initial c level used)).2⟩

/-- **Calls within the limit**: they all succeed if the permissions asked for are derivable, and then
the keys in use derive them. -/
theorem satisfiedAll_post (hv : c.Validated) :
    ∀ (calls : List Call) (used : List Bool), used.length = c.providedKeys.length →
      (∀ call ∈ calls, (c.forCall call).fits c.recursionDepthLimit call.level = true) →
      ((c.satisfiedAll calls used).1 = true ↔
        ∀ call ∈ calls, (c.forCall call).Derivable call.level) ∧
      c.usedKeys used ⊆ c.usedKeys (c.satisfiedAll calls used).2 ∧
      ((∀ call ∈ calls, (c.forCall call).Separated c.recursionDepthLimit call.level) →
        (c.satisfiedAll calls used).1 = true → ∀ call ∈ calls,
          (c.forCall call).DerivableFrom (c.satisfiedAll calls used).2 call.level)
  | [], used, _, _ => ⟨by simp [satisfiedAll], fun _ => id, fun _ _ => by simp⟩
  | call :: calls, used, hlen, hfit => by
    obtain ⟨hcorrect, hused, hlen', hfrom⟩ :=
      satisfied_post (c := c.forCall call) hv call.level (hfit call mem_cons_self) hlen
    obtain ⟨r, used', hr⟩ : ∃ r used', (c.forCall call).satisfied call.level used = (r, used') :=
      ⟨_, _, rfl⟩
    rw [hr] at hcorrect hused hlen' hfrom
    simp only [satisfiedAll, hr, forall_mem_cons]
    cases r with
    | false =>
      refine ⟨iff_of_false (by simp) fun h => ?_, hused, fun _ hf => absurd hf (by simp)⟩
      exact absurd (hcorrect.mpr h.1) (by simp)
    | true =>
      obtain ⟨hall, hsub, hrest⟩ := satisfiedAll_post hv calls used' hlen'
        fun call' h => hfit call' (mem_cons_of_mem call h)
      refine ⟨?_, List.Subset.trans hused hsub, fun hsep ht => ⟨?_, hrest hsep.2 ht⟩⟩
      · exact hall.trans (and_iff_right (hcorrect.mp rfl)).symm
      · exact DerivableFrom.mono (c := c.forCall call) hsub (hfrom hsep.1 rfl)

/-- **The reported keys suffice**: if every call asks for a permission that is `RevertSafe` and all
calls succeed, then a new checker that is given only the keys `used_keys` reports succeeds too. -/
theorem usedKeys_suffice (c : AuthorityChecker Key) (hv : c.Validated) (calls : List Call)
    (hsafe : ∀ call ∈ calls, (c.forCall call).RevertSafe call.level)
    (h : (c.satisfiedAll calls c.noneUsed).1 = true) :
    let c' := c.withKeys (c.usedKeys (c.satisfiedAll calls c.noneUsed).2)
    (c'.satisfiedAll calls c'.noneUsed).1 = true := by
  intro c'
  have hfits : ∀ call ∈ calls, (c'.forCall call).fits c'.recursionDepthLimit call.level = true := by
    intro call hcall
    have hfit := (hsafe call hcall).1
    rw [← fits_withKeys (c := c.forCall call)] at hfit
    exact hfit
  refine (satisfiedAll_post (c := c') hv calls _ (by simp [noneUsed]) hfits).1.mpr ?_
  exact (satisfiedAll_post hv calls _ (by simp [noneUsed]) fun call hcall => (hsafe call hcall).1).2.2
    (fun call hcall => (hsafe call hcall).2) h

/-- **The checker is exact** within the recursion limit, whatever keys are in use before. -/
theorem satisfiedAll_iff_derivable (c : AuthorityChecker Key) (hv : c.Validated) (calls : List Call)
    (hfit : ∀ call ∈ calls, (c.forCall call).fits c.recursionDepthLimit call.level = true)
    (used : List Bool) (hlen : used.length = c.providedKeys.length) :
    (c.satisfiedAll calls used).1 = true ↔
      ∀ call ∈ calls, (c.forCall call).Derivable call.level :=
  (satisfiedAll_post hv calls used hlen hfit).1

/-- **More keys never take authority away**, below the recursion limit: calls that succeed do so with
more keys, with other keys in use before, in another order, and without some of them. -/
theorem satisfiedAll_moreKeys (c : AuthorityChecker Key) (hv : c.Validated)
    {calls calls' : List Call} (hcalls : calls' ⊆ calls)
    (hfit : ∀ call ∈ calls, (c.forCall call).fits c.recursionDepthLimit call.level = true)
    {keys : List Key} (hkeys : c.providedKeys ⊆ keys) {used' : List Bool}
    (hlen : used.length = c.providedKeys.length) (hlen' : used'.length = keys.length)
    (h : (c.satisfiedAll calls used).1 = true) :
    ((c.withKeys keys).satisfiedAll calls' used').1 = true := by
  refine (satisfiedAll_post (c := c.withKeys keys) hv calls' used' hlen' fun call hcall => ?_).1.mpr
    fun call hcall => ?_
  · rw [← hfit call (hcalls hcall)]
    exact fits_withKeys (c := c.forCall call) keys _ _
  · obtain ⟨n, hn⟩ := (satisfiedAll_post hv calls used hlen hfit).1.mp h call (hcalls hcall)
    exact ⟨n, Derives.mono_keys (c := c.forCall call) hkeys hn⟩

end Calls

/-! ## Keys that are taken back -/

/-- Account 1 is controlled by account 2 or account 3 alone. Account 2 asks for accounts 4 and 5;
account 3 and account 4 have a key, account 5 one that nobody holds. -/
def forkedAccounts : List (PermissionLevel × Authority Nat) :=
  [(⟨1, 1⟩, { threshold := 1, accounts := [⟨⟨2, 1⟩, 2⟩, ⟨⟨3, 1⟩, 1⟩] }),
    (⟨2, 1⟩, { threshold := 2, accounts := [⟨⟨4, 1⟩, 1⟩, ⟨⟨5, 1⟩, 1⟩] }),
    (⟨3, 1⟩, { threshold := 1, keys := [⟨7, 1⟩] }),
    (⟨4, 1⟩, { threshold := 1, keys := [⟨8, 1⟩] }),
    (⟨5, 1⟩, { threshold := 1, keys := [⟨9, 1⟩] })]

/-- `forkedAccounts` with the keys 7 and 8. -/
def forkedChecker : AuthorityChecker Nat where
  authorityOf := authorityTable forkedAccounts
  recursionDepthLimit := 6
  providedKeys := [7, 8]
  providedPermissions := []
  providedDelay := 0

/-- Account 2 fails and takes key 8 back; key 7 alone is reported, and is enough. -/
theorem usedKeys_suffice_forked :
    forkedChecker.Validated ∧ (forkedChecker.forCall ⟨⟨1, 1⟩, none⟩).RevertSafe ⟨1, 1⟩ ∧
      forkedChecker.satisfiedAll [⟨⟨1, 1⟩, none⟩] forkedChecker.noneUsed = (true, [true, false]) ∧
      ((forkedChecker.withKeys [7]).satisfiedAll [⟨⟨1, 1⟩, none⟩]
        (forkedChecker.withKeys [7]).noneUsed).1 = true := by
  have hv : forkedChecker.Validated := validated_of_table rfl (by decide)
  have hsafe : (forkedChecker.forCall ⟨⟨1, 1⟩, none⟩).RevertSafe ⟨1, 1⟩ := by decide
  have hrun : forkedChecker.satisfiedAll [⟨⟨1, 1⟩, none⟩] forkedChecker.noneUsed =
      (true, [true, false]) := by decide
  refine ⟨hv, hsafe, hrun, ?_⟩
  have h := usedKeys_suffice forkedChecker hv [⟨⟨1, 1⟩, none⟩] (by simpa using hsafe)
    (by rw [hrun])
  rwa [hrun] at h

theorem satisfiedAll_iff_derivable_forked : forkedChecker.Derivable ⟨1, 1⟩ :=
  (satisfiedAll_iff_derivable forkedChecker (validated_of_table rfl (by decide)) [⟨⟨1, 1⟩, none⟩]
    (by decide) [true, false] rfl).mp (by decide) _ mem_cons_self

/-- With key 9 account 2 is satisfied as well. -/
theorem satisfiedAll_moreKeys_forked :
    ((forkedChecker.withKeys [7, 8, 9]).satisfiedAll [⟨⟨1, 1⟩, none⟩, ⟨⟨1, 1⟩, none⟩]
      [false, true, false]).1 = true := by
  have h : (forkedChecker.satisfiedAll [⟨⟨1, 1⟩, none⟩] [false, false]).1 = true := by decide
  exact satisfiedAll_moreKeys forkedChecker (validated_of_table rfl (by decide)) (by simp) (by decide)
    (by decide) rfl rfl h

/-- As `forkedAccounts`, but accounts 2 and 1 share account 4. -/
def sharedAccounts : List (PermissionLevel × Authority Nat) :=
  [(⟨1, 1⟩, { threshold := 1, accounts := [⟨⟨2, 1⟩, 2⟩, ⟨⟨4, 1⟩, 1⟩] }),
    (⟨2, 1⟩, { threshold := 2, accounts := [⟨⟨4, 1⟩, 1⟩, ⟨⟨5, 1⟩, 1⟩] }),
    (⟨4, 1⟩, { threshold := 1, keys := [⟨8, 1⟩] }),
    (⟨5, 1⟩, { threshold := 1, keys := [⟨9, 1⟩] })]

/-- `sharedAccounts` with the key 8. -/
def sharedChecker : AuthorityChecker Nat where
  authorityOf := authorityTable sharedAccounts
  recursionDepthLimit := 6
  providedKeys := [8]
  providedPermissions := []
  providedDelay := 0

/-- **A key that decides is reported as unused**: account 4 is found satisfied by key 8 while
account 2 is evaluated; account 2 fails and takes the key back, account 4 stays in the cache and
satisfies account 1. Without the key the call fails. -/
theorem usedKeys_lost : sharedChecker.Validated ∧
      sharedChecker.satisfiedAll [⟨⟨1, 1⟩, none⟩] sharedChecker.noneUsed = (true, [false]) ∧
      sharedChecker.usedKeys [false] = [] ∧
      ((sharedChecker.withKeys []).satisfiedAll [⟨⟨1, 1⟩, none⟩]
        (sharedChecker.withKeys []).noneUsed).1 = false :=
  ⟨validated_of_table rfl (by decide), by decide, by decide, by decide⟩

end Forceio.Chain.AuthorityChecker
