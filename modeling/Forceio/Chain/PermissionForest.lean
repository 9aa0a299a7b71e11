import Forceio.Chain.NativeActions
import Forceio.Lib.Ancestry

/-!
# The permissions of an account form a tree

Every permission but `owner` has a parent, given by the id of its row. The row with id `0` is
reserved for no parent. The native actions keep this a forest with one tree per account, and in a
forest the loop of `permission_object::satisfies` ends and decides ancestry.

Result:
* `permissionForest_run`: one tree per account after every run, in which `satisfies` is ancestry.
-/

namespace Forceio.Chain

open Forceio.Lib Relation Table List

variable {Key : Type}

/-- The row with id `j` is the parent of the row with id `i`. -/
def ParentOf (permissions : Table (PermissionObject Key)) (i j : Nat) : Prop :=
  j ≠ 0 ∧ ∃ p, (i, p) ∈ permissions.rows ∧ p.parent = j

/-- The account has a permission of that name. -/
def HasPermission (permissions : Table (PermissionObject Key)) (owner name : AccountName) : Prop :=
  ∃ r ∈ permissions.rows, r.2.owner = owner ∧ r.2.name = name

/-- **The permission forest.** -/
structure PermissionForest (t : AuthTables Key) : Prop where
  reserved : ∃ p, (0, p) ∈ t.permissions.rows ∧ p.owner = 0 ∧ p.parent = 0
  owned : ∀ r ∈ t.permissions.rows, r.1 ≠ 0 → r.2.owner ≠ 0
  parent : ∀ r ∈ t.permissions.rows, r.1 ≠ 0 → HasParentIn t.permissions r.2
  acyclic : Acyclic (ParentOf t.permissions)
  accounts : ∀ a ∈ t.accounts.rows,
    HasPermission t.permissions a.2.name ownerName ∧ HasPermission t.permissions a.2.name activeName

/-! ## What the forest depends on -/

/-- Each permission of the first table is in the second, but for its authority and times. -/
def Covered (permissions permissions' : Table (PermissionObject Key)) : Prop :=
  ∀ r ∈ permissions.rows, ∃ r' ∈ permissions'.rows,
    r'.1 = r.1 ∧ r'.2.parent = r.2.parent ∧ r'.2.owner = r.2.owner ∧ r'.2.name = r.2.name

section Covered

variable {permissions permissions' : Table (PermissionObject Key)} {p : PermissionObject Key}

theorem Covered.of_subset (h : ∀ r ∈ permissions.rows, r ∈ permissions'.rows) :
    Covered permissions permissions' :=
  fun r hr => ⟨r, h r hr, rfl, rfl, rfl, rfl⟩

variable {auth : Authority Key}

theorem Covered.setAuth {id : Nat} {now : Nat}
    {hf : Table.KeepsKeys (PermissionObject.setAuth auth now)} :
    Covered permissions (permissions.update id (.setAuth auth now) hf) := by
  intro r hr
  by_cases hid : r.1 = id
  · refine ⟨(id, r.2.setAuth auth now), ?_, hid.symm, rfl, rfl, rfl⟩
    exact mem_update.mpr (.inr ⟨r.2, hid ▸ hr, rfl⟩)
  · exact ⟨r, mem_update.mpr (.inl ⟨hr, hid⟩), rfl, rfl, rfl, rfl⟩

theorem Covered.of_setAuth {id : Nat} {now : Nat}
    {hf : Table.KeepsKeys (PermissionObject.setAuth auth now)} :
    Covered (permissions.update id (.setAuth auth now) hf) permissions := by
  intro r hr
  rcases mem_update.mp hr with ⟨hr, -⟩ | ⟨q, hq, rfl⟩
  · exact ⟨r, hr, rfl, rfl, rfl, rfl⟩
  · exact ⟨_, hq, rfl, rfl, rfl, rfl⟩

theorem HasPermission.mono {owner name : AccountName} (hsub : Covered permissions permissions')
    (h : HasPermission permissions owner name) : HasPermission permissions' owner name := by
  obtain ⟨r, hr, rfl, rfl⟩ := h
  obtain ⟨r', hr', -, -, howner, hname⟩ := hsub r hr
  exact ⟨r', hr', howner, hname⟩

theorem HasParentIn.mono (hsub : Covered permissions permissions') (h : HasParentIn permissions p) :
    HasParentIn permissions' p := by
  unfold HasParentIn at h ⊢
  split at h
  · rwa [if_pos ‹_›]
  · rw [if_neg ‹_›]
    obtain ⟨q, hq, hid, howner⟩ := h
    obtain ⟨q', hq', hid', -, howner', -⟩ := hsub q hq
    exact ⟨q', hq', hid'.trans hid, howner'.trans howner⟩

theorem ParentOf.mono (hsub : Covered permissions permissions') {i j : Nat}
    (h : ParentOf permissions i j) : ParentOf permissions' i j := by
  obtain ⟨hj, p, hp, rfl⟩ := h
  obtain ⟨⟨k, q⟩, hq, rfl, hparent, -⟩ := hsub _ hp
  exact ⟨hj, q, hq, hparent⟩

end Covered

/-! ## One native action -/

namespace PermissionForest

variable {t t' : AuthTables Key} {linkable : AccountName → AccountName → Prop}

variable {r : Nat × PermissionObject Key}

section

variable (h : PermissionForest t)

include h

/-- A permission of an account is not the reserved row. -/
theorem id_ne_zero (hr : r ∈ t.permissions.rows) (howner : r.2.owner ≠ 0) : r.1 ≠ 0 := by
  intro hid
  obtain ⟨p, hp, hzero, -⟩ := h.reserved
  rw [eq_of_id hr hp hid] at howner
  exact howner hzero

theorem exists_row_of_parent (hr : r ∈ t.permissions.rows) :
    ∃ q, (r.2.parent, q) ∈ t.permissions.rows := by
  obtain ⟨p, hp, -, hpp⟩ := h.reserved
  by_cases hid : r.1 = 0
  · rw [eq_of_id hr hp hid, hpp]
    exact ⟨p, hp⟩
  · have hparent := h.parent r hr hid
    unfold HasParentIn at hparent
    split at hparent
    · rw [hparent]
      exact ⟨p, hp⟩
    · obtain ⟨q, hq, hqid, -⟩ := hparent
      exact ⟨q.2, by rwa [← hqid]⟩

theorem create {p : PermissionObject Key} {n : Nat} {permissions : Table (PermissionObject Key)}
    (hcreate : t.permissions.create p = some (n, permissions)) (howner : p.owner ≠ 0)
    (hparent : HasParentIn t.permissions p) :
    PermissionForest { t with permissions := permissions } := by
  have hmem : ∀ {r}, r ∈ permissions.rows ↔ r ∈ t.permissions.rows ∨ r = (n, p) :=
    mem_create hcreate
  have hsub : Covered t.permissions permissions := .of_subset fun r hr => hmem.mpr (.inl hr)
  have hn : n = t.permissions.nextId := (create_eq_some hcreate).2.1
  have hfresh : ∀ r ∈ t.permissions.rows, r.1 ≠ n := fun r hr =>
    hn ▸ Nat.ne_of_lt (t.permissions.fresh r hr)
  obtain ⟨q0, hq0, hzero⟩ := h.reserved
  refine ⟨⟨q0, hmem.mpr (.inl hq0), hzero⟩, fun r hr hid => ?_, fun r hr hid => ?_, ?_,
    fun a ha => ⟨(h.accounts a ha).1.mono hsub, (h.accounts a ha).2.mono hsub⟩⟩
  · rcases hmem.mp hr with hr | rfl
    · exact h.owned r hr hid
    · exact howner
  · rcases hmem.mp hr with hr | rfl
    · exact (h.parent r hr hid).mono hsub
    · exact hparent.mono hsub
  · refine h.acyclic.addLeaf (n := n) ?_ ?_
    · -- the parent of an old row is an old row, and so is the parent of the new one
      rintro i ⟨hn0, q, hq, hqn⟩
      rcases hmem.mp hq with hq | hq
      · obtain ⟨q', hq'⟩ := h.exists_row_of_parent hq
        exact hfresh _ hq' hqn
      · cases hq
        unfold HasParentIn at hparent
        split at hparent
        · exact hn0 (hqn.symm.trans hparent)
        · obtain ⟨q', hq', hid, -⟩ := hparent
          exact hfresh _ hq' (hid.trans hqn)
    · rintro i j hi ⟨hj, q, hq, hqj⟩
      rcases hmem.mp hq with hq | hq
      · exact ⟨hj, q, hq, hqj⟩
      · cases hq
        exact absurd rfl hi

/-- Authorities and times do not matter. -/
theorem congr {permissions : Table (PermissionObject Key)} (hto : Covered t.permissions permissions)
    (hfrom : Covered permissions t.permissions) :
    PermissionForest { t with permissions := permissions } := by
  obtain ⟨p, hp, howner, hparent⟩ := h.reserved
  obtain ⟨⟨k, p'⟩, hp', rfl, hparent', howner', -⟩ := hto _ hp
  refine ⟨⟨p', hp', howner'.trans howner, hparent'.trans hparent⟩,
    fun r hr hid => ?_, fun r hr hid => ?_, h.acyclic.mono fun i j hij => hij.mono hfrom,
    fun a ha => ⟨(h.accounts a ha).1.mono hto, (h.accounts a ha).2.mono hto⟩⟩
  · obtain ⟨q, hq, hqid, -, hqowner, -⟩ := hfrom r hr
    rw [← hqowner]
    exact h.owned q hq (by rwa [hqid])
  · obtain ⟨q, hq, hqid, hqparent, hqowner, hqname⟩ := hfrom r hr
    have hparent := (h.parent q hq (by rwa [hqid])).mono hto
    unfold HasParentIn at hparent ⊢
    rwa [← hqname, ← hqparent, ← hqowner]

/-- A permission without children, not `owner` and not `active`, can be taken out. -/
theorem delete (hr : r ∈ t.permissions.rows)
    (hnamed : r.2.owner ≠ 0 ∧ r.2.name ≠ activeName ∧ r.2.name ≠ ownerName)
    (hchildless : ∀ q ∈ t.permissions.rows, q.2.parent ≠ r.1) :
    PermissionForest { t with permissions := t.permissions.remove r.1 } := by
  have hsub : Covered (t.permissions.remove r.1) t.permissions :=
    .of_subset fun q hq => (mem_remove.mp hq).1
  have hkeep : ∀ {owner name}, name = activeName ∨ name = ownerName →
      HasPermission t.permissions owner name →
        HasPermission (t.permissions.remove r.1) owner name := by
    rintro owner name hname ⟨q, hq, rfl, rfl⟩
    refine ⟨q, mem_remove.mpr ⟨hq, fun hid => ?_⟩, rfl, rfl⟩
    rw [eq_of_id hq hr hid] at hname
    exact hname.elim hnamed.2.1 hnamed.2.2
  obtain ⟨p, hp, hzero⟩ := h.reserved
  refine ⟨⟨p, mem_remove.mpr ⟨hp, (h.id_ne_zero hr hnamed.1).symm⟩, hzero⟩,
    fun q hq => h.owned q (mem_remove.mp hq).1, fun q hq hid => ?_,
    h.acyclic.mono fun i j hij => hij.mono hsub,
    fun a ha => ⟨hkeep (.inr rfl) (h.accounts a ha).1, hkeep (.inl rfl) (h.accounts a ha).2⟩⟩
  have hq' := (mem_remove.mp hq).1
  have hparent := h.parent q hq' hid
  unfold HasParentIn at hparent ⊢
  split at hparent
  · rwa [if_pos ‹_›]
  · rw [if_neg ‹_›]
    obtain ⟨q', hq'mem, hid', howner⟩ := hparent
    refine ⟨q', mem_remove.mpr ⟨hq'mem, fun he => ?_⟩, hid', howner⟩
    exact hchildless q hq' (hid'.symm.trans he)

theorem newaccount {name : AccountName} {accounts : Table AccountObject} {i : Nat}
    (haccount : t.accounts.create { name := name } = some (i, accounts))
    (howner : HasPermission t.permissions name ownerName)
    (hactive : HasPermission t.permissions name activeName) :
    PermissionForest { t with accounts := accounts } := by
  refine ⟨h.reserved, h.owned, h.parent, h.acyclic, fun a ha => ?_⟩
  rcases (mem_create haccount).mp ha with ha | rfl
  · exact h.accounts a ha
  · exact ⟨howner, hactive⟩

end

/-- **Every native action keeps the forest.** -/
theorem step {packSize : Key → Nat} {l l' : NativeLedger Key} (h : PermissionForest l.tables)
    (heffect : PaidEffect linkable packSize l l') : PermissionForest l'.tables := by
  cases heffect with
  | @newaccount name owner active i ownerId activeId accounts withOwner permissions named account
      createOwner isOwner createActive isActive =>
    obtain ⟨howner, honame, hoparent⟩ := isOwner
    obtain ⟨haowner, haname, haparent⟩ := isActive
    have hmem := mem_create createOwner (r := (ownerId, owner))
    have hmem' := mem_create createActive (r := (activeId, active))
    have h1 : PermissionForest { l.tables with permissions := withOwner } := by
      refine h.create createOwner (by rwa [howner]) ?_
      unfold HasParentIn
      rwa [if_pos honame]
    have h2 : PermissionForest { l.tables with permissions := permissions } := by
      refine h1.create createActive (by rwa [haowner]) ?_
      unfold HasParentIn
      rw [if_neg (by rw [haname]; decide)]
      exact ⟨(ownerId, owner), hmem.mpr (.inr rfl), haparent.symm, howner.trans haowner.symm⟩
    refine h2.newaccount account ?_ ?_
    · exact ⟨_, (mem_create createActive).mpr (.inl (hmem.mpr (.inr rfl))), howner, honame⟩
    · exact ⟨_, hmem'.mpr (.inr rfl), haowner, haname⟩
  | authModified auth now mem => exact h.congr .setAuth .of_setAuth
  | authCreated named parent create => exact h.create create named.1 parent
  | authDeleted mem named unlinked childless => exact h.delete mem named childless
  | relinked | linked | unlinked => exact ⟨h.reserved, h.owned, h.parent, h.acyclic, h.accounts⟩

/-! ## Climbing -/

/-- The ids of the rows but the reserved one. -/
def ids (permissions : Table (PermissionObject Key)) : Finset Nat :=
  (permissions.rows.map Prod.fst).toFinset.erase 0

theorem card_ids_lt (h : PermissionForest t) :
    (ids t.permissions).card < t.permissions.rows.length := by
  obtain ⟨p, hp, -⟩ := h.reserved
  have hmem : 0 ∈ (t.permissions.rows.map Prod.fst).toFinset :=
    mem_toFinset.mpr (mem_map.mpr ⟨_, hp, rfl⟩)
  have hlt := Finset.card_erase_lt_of_mem hmem
  have hle := toFinset_card_le (t.permissions.rows.map Prod.fst)
  rw [length_map] at hle
  exact lt_of_lt_of_le hlt hle

theorem mem_ids_of_ancestor (h : PermissionForest t) {i j : Nat}
    (hij : TransGen (ParentOf t.permissions) i j) : j ∈ ids t.permissions := by
  obtain ⟨k, -, hj, p, hp, rfl⟩ := TransGen.tail'_iff.mp hij
  obtain ⟨q, hq⟩ := h.exists_row_of_parent hp
  exact Finset.mem_erase.mpr ⟨hj, mem_toFinset.mpr (mem_map.mpr ⟨_, hq, rfl⟩)⟩

/-- The ancestors of a row besides its parent are those of the parent. -/
theorem transGen_iff (h : PermissionForest t) {i j : Nat} {p : PermissionObject Key}
    (hp : (i, p) ∈ t.permissions.rows) (hne : j ≠ p.parent) :
    TransGen (ParentOf t.permissions) i j ↔ TransGen (ParentOf t.permissions) p.parent j := by
  constructor
  · intro hij
    obtain ⟨k, ⟨-, q, hq, rfl⟩, hkj⟩ := TransGen.head'_iff.mp hij
    obtain rfl : q = p := congrArg Prod.snd (eq_of_id hq hp rfl)
    exact (reflTransGen_iff_eq_or_transGen.mp hkj).resolve_left hne
  · intro hpj
    refine TransGen.head ⟨?_, p, hp, rfl⟩ hpj
    -- the reserved row has no parent
    intro hzero
    rw [hzero] at hpj
    obtain ⟨k, ⟨hk, q, hq, rfl⟩, -⟩ := TransGen.head'_iff.mp hpj
    obtain ⟨q0, hq0, -, hparent⟩ := h.reserved
    obtain rfl : q = q0 := congrArg Prod.snd (eq_of_id hq hq0 rfl)
    exact hk hparent

/-- **The loop decides ancestry**, within as many rounds as there are ancestors left. -/
theorem satisfiesLoop_eq (h : PermissionForest t) {id : Nat} (hid : id ≠ 0) :
    ∀ (fuel i : Nat) (p : PermissionObject Key) (s : Finset Nat), (i, p) ∈ t.permissions.rows →
      (∀ j, TransGen (ParentOf t.permissions) i j → j ∈ s) → s.card < fuel →
        ∃ b, satisfiesLoop t.permissions id fuel p = some b ∧
          (b = true ↔ TransGen (ParentOf t.permissions) i id)
  | 0, _, _, s, _, _, hfuel => absurd hfuel (Nat.not_lt_zero _)
  | fuel + 1, i, p, s, hp, hs, hfuel => by
    unfold satisfiesLoop
    by_cases hparent : id = p.parent
    · rw [if_pos hparent]
      exact ⟨true, rfl, iff_of_true rfl (.single ⟨hid, p, hp, hparent.symm⟩)⟩
    rw [if_neg hparent]
    by_cases hzero : p.parent = 0
    · rw [if_pos hzero]
      refine ⟨false, rfl, iff_of_false (by simp) fun hanc => ?_⟩
      obtain ⟨k, ⟨hk, q, hq, rfl⟩, -⟩ := TransGen.head'_iff.mp hanc
      obtain rfl : q = p := congrArg Prod.snd (eq_of_id hq hp rfl)
      exact hk hzero
    · rw [if_neg hzero]
      obtain ⟨q, hq⟩ := h.exists_row_of_parent hp
      obtain ⟨hmem, hanc⟩ := h.acyclic.climb hs ⟨hzero, p, hp, rfl⟩
      have hcard := Finset.card_erase_lt_of_mem hmem
      obtain ⟨b, hb, hiff⟩ :=
        h.satisfiesLoop_eq hid fuel p.parent q (s.erase p.parent) hq hanc (by omega)
      rw [get?_eq_some.mpr hq]
      exact ⟨b, hb, hiff.trans (h.transGen_iff hp hparent).symm⟩

/-- **`satisfies` ends and decides ancestry within one account.** -/
theorem satisfies_eq (h : PermissionForest t) {p q : Nat × PermissionObject Key}
    (hp : p ∈ t.permissions.rows) (hq : q ∈ t.permissions.rows) {fuel : Nat}
    (hfuel : t.permissions.rows.length ≤ fuel) :
    ∃ b, satisfies t.permissions fuel p q = some b ∧
      (b = true ↔ p.2.owner = q.2.owner ∧ ReflTransGen (ParentOf t.permissions) q.1 p.1) := by
  unfold satisfies
  by_cases howner : p.2.owner = q.2.owner
  · rw [if_neg (not_not.mpr howner)]
    by_cases hsame : p.1 = q.1
    · rw [if_pos (.inl hsame)]
      exact ⟨true, rfl, iff_of_true rfl ⟨howner, by rw [hsame]⟩⟩
    -- two different rows of one owner: neither is the reserved one
    have hp0 : p.1 ≠ 0 := by
      intro hp0
      obtain ⟨r, hr, hzero, -⟩ := h.reserved
      refine hsame (hp0.trans ?_)
      by_contra hq0
      refine h.owned q hq (Ne.symm hq0) (howner.symm.trans ?_)
      rw [eq_of_id hp hr hp0]
      exact hzero
    by_cases hparent : p.1 = q.2.parent
    · rw [if_pos (.inr hparent)]
      refine ⟨true, rfl, iff_of_true rfl ⟨howner, .single ⟨hp0, q.2, hq, hparent.symm⟩⟩⟩
    · rw [if_neg (not_or.mpr ⟨hsame, hparent⟩)]
      obtain ⟨r, hr⟩ := h.exists_row_of_parent hq
      rw [get?_eq_some.mpr hr]
      obtain ⟨b, hb, hiff⟩ := h.satisfiesLoop_eq hp0 fuel q.2.parent r (ids t.permissions) hr
        (fun j => h.mem_ids_of_ancestor) (lt_of_lt_of_le h.card_ids_lt hfuel)
      refine ⟨b, hb, hiff.trans ((h.transGen_iff hq hparent).symm.trans ?_)⟩
      rw [reflTransGen_iff_eq_or_transGen, and_iff_right howner]
      exact (or_iff_right hsame).symm
  · rw [if_pos howner]
    exact ⟨false, rfl, iff_of_false (by simp) fun hb => howner hb.1⟩

theorem owner_of_ancestor (h : PermissionForest t) (hr : r ∈ t.permissions.rows) (hid : r.1 ≠ 0)
    {j : Nat} (hrj : ReflTransGen (ParentOf t.permissions) r.1 j) :
    ∃ q, (j, q) ∈ t.permissions.rows ∧ j ≠ 0 ∧ q.owner = r.2.owner := by
  induction hrj with
  | refl => exact ⟨r.2, hr, hid, rfl⟩
  | tail _ hstep ih =>
    obtain ⟨q, hq, hi, howner⟩ := ih
    obtain ⟨hj, q', hq', rfl⟩ := hstep
    obtain rfl : q' = q := congrArg Prod.snd (eq_of_id hq' hq rfl)
    have hparent := h.parent _ hq hi
    unfold HasParentIn at hparent
    split at hparent
    · exact absurd hparent hj
    · obtain ⟨⟨k, o⟩, ho, rfl, hoowner⟩ := hparent
      exact ⟨o, ho, hj, hoowner.trans howner⟩

/-- **One tree per account**: every permission leads up to the owner permission. -/
theorem exists_owner (h : PermissionForest t) (hr : r ∈ t.permissions.rows) (hid : r.1 ≠ 0) :
    ∃ o ∈ t.permissions.rows, o.2.owner = r.2.owner ∧ o.2.name = ownerName ∧
      ReflTransGen (ParentOf t.permissions) r.1 o.1 := by
  obtain ⟨k, hk, hroot⟩ := h.acyclic.exists_root r.1 (ids t.permissions)
    fun j => h.mem_ids_of_ancestor
  obtain ⟨o, ho, hk0, howner⟩ := h.owner_of_ancestor hr hid hk
  refine ⟨(k, o), ho, howner, ?_, hk⟩
  by_contra hname
  have hparent := h.parent _ ho hk0
  unfold HasParentIn at hparent
  rw [if_neg hname] at hparent
  obtain ⟨q, hq, hqid, hqowner⟩ := hparent
  have hq0 : q.1 ≠ 0 := by
    refine h.id_ne_zero hq ?_
    rw [hqowner]
    exact h.owned _ ho hk0
  exact hroot q.1 ⟨hq0, o, ho, hqid.symm⟩

end PermissionForest

/-! ## Runs -/

section Run

variable [LinearOrder Key] {env : ActionEnv Key} {db db' : Database Key}
  {calls : List (NativeCall Key)}

/-- **The permissions of every account stay a tree under `owner`**, and `satisfies` decides
ancestry in it. -/
theorem permissionForest_run (hrun : NativeRun env (fun _ _ => True) db calls db')
    (h : PermissionForest db.authTables) :
    PermissionForest db'.authTables ∧
    (∀ r ∈ db'.permissions.rows, r.1 ≠ 0 → ∃ o ∈ db'.permissions.rows,
      o.2.owner = r.2.owner ∧ o.2.name = ownerName ∧
        ReflTransGen (ParentOf db'.permissions) r.1 o.1) ∧
    ∀ p ∈ db'.permissions.rows, ∀ q ∈ db'.permissions.rows,
      ∀ fuel ≥ db'.permissions.rows.length, ∃ b, satisfies db'.permissions fuel p q = some b ∧
          (b = true ↔ p.2.owner = q.2.owner ∧ ReflTransGen (ParentOf db'.permissions) q.1 p.1) := by
  have h' : PermissionForest db'.authTables :=
    hrun.invariant PermissionForest (fun _ _ _ => True) (fun _ _ _ _ _ => trivial)
      (fun _ _ h heffect => h.step heffect) h
  exact ⟨h', fun r hr hid => h'.exists_owner hr hid,
    fun p hp q hq fuel hfuel => h'.satisfies_eq hp hq hfuel⟩

end Run

/-! ### The life of an account -/

/-- The authority of one key. -/
def keyAuthority (key : Nat) : Authority Nat := { threshold := 1, keys := [⟨key, 1⟩] }

/-- A permission with the authority of key `1`. -/
def permissionRow (parent : Nat) (owner name : AccountName) : PermissionObject Nat where
  usageId := 0
  parent := parent
  owner := owner
  name := name
  lastUpdated := 0
  auth := keyAuthority 1

/-- A database with one account, `bob`, and its permissions. -/
def bobOnly : Database Nat :=
  { (Database.empty ⟨1, 1, 1, 1⟩ ⟨1, 1, 1⟩ : Database Nat) with
    accounts := .ofObjects [{ name := stringToName "bob" }]
    permissions := .ofObjects
      [permissionRow 0 0 0, permissionRow 0 (stringToName "bob") ownerName,
        permissionRow 1 (stringToName "bob") activeName]
    permissionUsages := .ofObjects [⟨0⟩, ⟨0⟩, ⟨0⟩] }

/-- Data for each action: `bob` creates `alice`, who adds the permission `money` and deletes it. -/
def aliceEnv : ActionEnv Nat where
  newaccount _ := .ok ⟨stringToName "bob", stringToName "alice", keyAuthority 1, keyAuthority 1⟩
  updateauth _ := .ok ⟨stringToName "alice", stringToName "money", activeName, keyAuthority 2⟩
  deleteauth _ := .ok ⟨stringToName "alice", stringToName "money"⟩
  linkauth _ := .error ⟨.outOfRange, "no data"⟩
  unlinkauth _ := .error ⟨.outOfRange, "no data"⟩
  canceldelay _ := .error ⟨.outOfRange, "no data"⟩
  packSize _ := 34

/-- A native action under the authority of `actor`, run on a validating node. -/
def nativeCall (action : NativeAction) (name actor : String) : NativeCall Nat where
  action := action
  ctx :=
    { control := .standard "force" .complete 0
      receiver := systemAccountName "force"
      act :=
        { account := systemAccountName "force"
          name := stringToName name
          authorization := [⟨stringToName actor, activeName⟩] } }

/-- An account is created, gets a permission and loses it again. -/
def aliceLife : List (NativeCall Nat) :=
  [nativeCall .newaccount "newaccount" "bob", nativeCall .updateauth "updateauth" "alice",
    nativeCall .deleteauth "deleteauth" "alice"]

/-- The database after that. -/
def bobAndAlice : Database Nat := (runNative aliceEnv aliceLife bobOnly).toOption.getD bobOnly

theorem bobOnly_forest : PermissionForest bobOnly.authTables where
  reserved := ⟨permissionRow 0 0 0, mem_cons_self, rfl, rfl⟩
  owned := by
    decide +kernel
  parent := by
    unfold HasParentIn
    decide +kernel
  acyclic := by
    refine .of_lt ?_
    rintro i _ ⟨hj, p, hp, rfl⟩
    have hlt : ∀ r ∈ bobOnly.permissions.rows, r.2.parent ≠ 0 → r.2.parent < r.1 := by
      decide +kernel
    exact hlt _ hp hj
  accounts := by
    show ∀ a ∈ bobOnly.accounts.rows, HasPermission bobOnly.permissions a.2.name ownerName ∧
      HasPermission bobOnly.permissions a.2.name activeName
    unfold HasPermission
    decide +kernel

theorem runNative_aliceLife : runNative aliceEnv aliceLife bobOnly = .ok bobAndAlice := by
  have h : (runNative aliceEnv aliceLife bobOnly).toOption.isSome = true := by decide +kernel
  unfold bobAndAlice
  cases hrun : runNative aliceEnv aliceLife bobOnly with
  | error e =>
    rw [hrun] at h
    simp [Except.toOption] at h
  | ok db => rfl

theorem permissionForest_run_alice : bobAndAlice.permissions.rows.length = 5 ∧
    PermissionForest bobAndAlice.authTables :=
  ⟨by decide +kernel, (permissionForest_run
    (.of_runNative (fun _ _ => trivial) runNative_aliceLife) bobOnly_forest).1⟩

end Forceio.Chain
