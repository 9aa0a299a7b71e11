import Mathlib.Algebra.BigOperators.Group.List.Lemmas
import Mathlib.Algebra.Order.BigOperators.Group.List
import Mathlib.Data.Prod.Lex
import Forceio.Chain.BlockHeader
import Forceio.Lib.OrderedIndex

/-!
# Authorities: `authority.hpp`

`permission_level`, the weighted factors of an authority, `validate`, and the order in which
`authority_checker.hpp` visits the factors.

* Weights are `uint16_t` and thresholds `uint32_t`, as in the source; the running totals are
  `uint32_t` sums that may wrap.
* A public key is an element of any linear order: `fc` compares keys, nothing else is known of them.
* `meta_permission_set` is a `flat_multiset`: a new element goes after its equals.

Result:
* `Authority.Valid.weight_lt`: the weights of a validated authority add up to less than `2 ^ 32`.
-/

namespace Forceio.Chain

open Forceio.Lib OrderedIndex List

/-! ## Permission levels and factors -/

/-- `permission_level`. -/
structure PermissionLevel where
  actor : AccountName
  permission : AccountName
  deriving Repr

/-- Ascending by actor, ties broken by the permission. -/
instance : LinearOrder PermissionLevel :=
  LinearOrder.lift' (fun l => toLex (l.actor, l.permission)) (by
    rintro ⟨a, p⟩ ⟨b, q⟩ h
    simpa using h)

instance : LawfulBEq PermissionLevel := inferInstance

/-- `permission_level_weight`. -/
structure PermissionLevelWeight where
  permission : PermissionLevel
  weight : UInt16
  deriving DecidableEq

/-- `key_weight`. -/
structure KeyWeight (Key : Type) where
  key : Key
  weight : UInt16
  deriving DecidableEq

/-- `wait_weight`. -/
structure WaitWeight where
  waitSec : UInt32
  weight : UInt16
  deriving DecidableEq

/-- `authority`, and `shared_authority`, its form in the database. -/
structure Authority (Key : Type) where
  threshold : UInt32 := 0
  keys : List (KeyWeight Key) := []
  accounts : List PermissionLevelWeight := []
  waits : List WaitWeight := []
  deriving DecidableEq

/-- `detail::meta_permission`. -/
inductive MetaPermission (Key : Type) where
  | account (p : PermissionLevelWeight)
  | key (k : KeyWeight Key)
  | wait (w : WaitWeight)
  deriving DecidableEq

variable {Key : Type}

/-- `get_weight_visitor`. -/
def MetaPermission.weight : MetaPermission Key → UInt16
  | .account p => p.weight
  | .key k => k.weight
  | .wait w => w.weight

/-- `static_variant::which`. -/
def MetaPermission.which : MetaPermission Key → Nat
  | .account _ => 0
  | .key _ => 1
  | .wait _ => 2

/-- `meta_permission_comparator` as a number: descending by weight, ties broken by descending
`which`. -/
def MetaPermission.rank (m : MetaPermission Key) : Nat :=
  3 * (65535 - m.weight.toNat) + (2 - m.which)

namespace Authority

/-- All factors of an authority. -/
def factors (auth : Authority Key) : List (MetaPermission Key) :=
  auth.waits.map .wait ++ auth.keys.map .key ++ auth.accounts.map .account

/-- `meta_permission_set permissions`, filled with waits, keys and accounts. -/
def metaPermissions (auth : Authority Key) : List (MetaPermission Key) :=
  auth.factors.foldl (fun l m => insert MetaPermission.rank m l) []

/-! ## `validate` -/

/-- A loop of `validate`: add up the weights, stop at an element that is not above the last. -/
def tallyAscending {α : Type} (lt : α → α → Bool) (weight : α → UInt16) :
    Option α → UInt32 → List α → Option UInt32
  | _, total, [] => some total
  | prev, total, a :: l =>
    if prev.any fun p => !lt p a then none
    else tallyAscending lt weight (some a) (total + (weight a).toUInt32) l

/-- `validate`. -/
def validate [LinearOrder Key] (auth : Authority Key) : Bool :=
  if auth.keys.length + auth.accounts.length + auth.waits.length > 2 ^ 16 then false
  else if auth.threshold = 0 then false
  else
    let total :=
      (tallyAscending (fun p k => p.key < k.key) KeyWeight.weight none 0 auth.keys).bind fun t =>
      (tallyAscending (fun p a => p.permission < a.permission) PermissionLevelWeight.weight none t
        auth.accounts).bind fun t =>
      if auth.waits.head?.any fun w => w.waitSec = 0 then none
      else tallyAscending (fun p w => p.waitSec < w.waitSec) WaitWeight.weight none t auth.waits
    total.any fun t => auth.threshold ≤ t

/-! ## What a validated authority looks like -/

theorem pairwise_of_tallyAscending {α : Type} {lt : α → α → Bool} {weight : α → UInt16}
    (htrans : ∀ a b c, lt a b = true → lt b c = true → lt a c = true) :
    ∀ {prev : Option α} {total t : UInt32} {l : List α},
      tallyAscending lt weight prev total l = some t →
        l.Pairwise (fun a b => lt a b = true) ∧ ∀ p ∈ prev, ∀ a ∈ l, lt p a = true
  | _, _, _, [], _ => by simp
  | prev, total, t, a :: l, h => by
    unfold tallyAscending at h
    split at h
    · simp at h
    · rename_i hprev
      obtain ⟨hl, ha⟩ := pairwise_of_tallyAscending htrans h
      have habove : ∀ b ∈ l, lt a b = true := ha a rfl
      refine ⟨pairwise_cons.mpr ⟨habove, hl⟩, fun p hp b hb => ?_⟩
      have hpa : lt p a = true := by
        rw [Option.mem_def.mp hp] at hprev
        simpa using hprev
      rcases mem_cons.mp hb with rfl | hb
      · exact hpa
      · exact htrans p a b hpa (habove b hb)

/-- What `validate` checks and the checker relies on. -/
structure Valid [LinearOrder Key] (auth : Authority Key) : Prop where
  size : auth.factors.length ≤ 2 ^ 16
  threshold : auth.threshold ≠ 0
  keys : auth.keys.Pairwise fun a b => a.key < b.key
  accounts : auth.accounts.Pairwise fun a b => a.permission < b.permission
  waits : auth.waits.Pairwise fun a b => a.waitSec < b.waitSec

section Valid

variable [LinearOrder Key] {auth : Authority Key}

theorem Valid.of_validate (h : auth.validate = true) : auth.Valid := by
  unfold validate at h
  split at h
  · simp at h
  split at h
  · simp at h
  rename_i hthreshold
  obtain ⟨total, htotal, -⟩ := (Option.any_eq_true _ _).mp h
  obtain ⟨t1, hkeys, htotal⟩ := Option.bind_eq_some_iff.mp htotal
  obtain ⟨t2, haccounts, htotal⟩ := Option.bind_eq_some_iff.mp htotal
  split at htotal
  · simp at htotal
  refine ⟨?_, hthreshold, ?_, ?_, ?_⟩
  · simp only [factors, length_append, length_map]
    omega
  · simpa using (pairwise_of_tallyAscending (by simpa using fun a b c => lt_trans) hkeys).1
  · simpa using (pairwise_of_tallyAscending (by simpa using fun a b c => lt_trans) haccounts).1
  · simpa using (pairwise_of_tallyAscending
      (by simpa using fun a b c => UInt32.lt_trans) htotal).1

theorem Valid.nodup (h : auth.Valid) : auth.factors.Nodup := by
  have hwaits : auth.waits.Nodup := h.waits.imp (by rintro a _ hlt rfl; exact UInt32.lt_irrefl _ hlt)
  have hkeys : auth.keys.Nodup := h.keys.imp (by rintro a _ hlt rfl; exact lt_irrefl _ hlt)
  have haccounts : auth.accounts.Nodup :=
    h.accounts.imp (by rintro a _ hlt rfl; exact lt_irrefl _ hlt)
  unfold factors
  simp only [nodup_append, mem_map, mem_append]
  refine ⟨⟨hwaits.map fun _ _ => MetaPermission.wait.inj,
    hkeys.map fun _ _ => MetaPermission.key.inj, ?_⟩,
    haccounts.map fun _ _ => MetaPermission.account.inj, ?_⟩
  · rintro _ ⟨w, -, rfl⟩ _ ⟨k, -, rfl⟩
    simp
  · rintro _ (⟨w, -, rfl⟩ | ⟨k, -, rfl⟩) _ ⟨p, -, rfl⟩ <;> simp

end Valid

/-! ## The weights of a list of factors -/

/-- The exact sum of the weights of factors. -/
def weightOf (ms : List (MetaPermission Key)) : Nat := (ms.map fun m => m.weight.toNat).sum

@[simp] theorem weightOf_nil : weightOf ([] : List (MetaPermission Key)) = 0 := rfl

@[simp] theorem weightOf_cons (m : MetaPermission Key) (ms : List (MetaPermission Key)) :
    weightOf (m :: ms) = m.weight.toNat + weightOf ms := by
  simp [weightOf]

theorem weightOf_le_length : ∀ ms : List (MetaPermission Key), weightOf ms ≤ 65535 * ms.length
  | [] => by simp
  | m :: ms => by
    have ih := weightOf_le_length ms
    have hm := m.weight.toNat_lt
    rw [weightOf_cons, length_cons]
    omega

theorem weightOf_perm {ms ns : List (MetaPermission Key)} (h : ms.Perm ns) :
    weightOf ms = weightOf ns :=
  (h.map _).sum_eq

/-- Distinct factors taken from a list weigh no more than the list. -/
theorem weightOf_le_of_subset {ms ns : List (MetaPermission Key)} (hnd : ms.Nodup)
    (h : ms ⊆ ns) : weightOf ms ≤ weightOf ns := by
  obtain ⟨ks, hperm, hsub⟩ := subperm_of_subset hnd h
  rw [← weightOf_perm hperm]
  exact (hsub.map _).sum_le_sum fun _ _ => Nat.zero_le _

theorem metaPermissions_perm (auth : Authority Key) : auth.metaPermissions.Perm auth.factors := by
  have key : ∀ (ms l : List (MetaPermission Key)),
      (ms.foldl (fun l m => insert MetaPermission.rank m l) l).Perm (ms ++ l) := by
    intro ms
    induction ms with
    | nil => exact fun l => .refl _
    | cons m ms ih =>
      intro l
      refine (ih _).trans ?_
      exact ((perm_insert m l).append_left ms).trans perm_middle
  simpa [metaPermissions] using key auth.factors []

theorem mem_metaPermissions {auth : Authority Key} {m : MetaPermission Key} :
    m ∈ auth.metaPermissions ↔ m ∈ auth.factors :=
  auth.metaPermissions_perm.mem_iff

theorem account_mem_factors {auth : Authority Key} {p : PermissionLevelWeight} :
    .account p ∈ auth.factors ↔ p ∈ auth.accounts := by
  simp [factors]

/-- The running total of a validated authority never wraps. -/
theorem Valid.weight_lt [LinearOrder Key] {auth : Authority Key} (h : auth.Valid) :
    weightOf auth.metaPermissions < 2 ^ 32 := by
  rw [weightOf_perm auth.metaPermissions_perm]
  have h1 := weightOf_le_length auth.factors
  have h2 := h.size
  omega

end Authority

end Forceio.Chain
