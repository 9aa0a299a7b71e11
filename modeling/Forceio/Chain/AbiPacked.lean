import Forceio.Chain.AbiParts

/-!
# What is packed is unpacked

A value that `variant_to_binary` packs is read back by `binary_to_variant`, and packs to the same
bytes again, if the decoder refuses no part of it.

* What is packed from the built-in types is unpacked: `PacksBack`.
* An array that stands for a struct may end at any extension, so the decoder needs an ABI in which
  extensions come last.

Result:
* `packVariant_unpacks`: the round trip.
-/

namespace Forceio.Chain

open Forceio.Lib VariantObject List

namespace AbiSerializer

variable {abis : AbiSerializer} {env : AbiEnv}

/-! ## What is packed -/

/-- Bytes that a value of a built-in type is packed to are unpacked, whatever follows, to a value
that is packed to them. Only an optional that was null becomes null. -/
def PacksBack (builtInTypes : TypeName → Option BuiltIn) : Prop :=
  ∀ {type t}, builtInTypes type = some t → ∀ {v isArray isOptional b},
    t.pack v isArray isOptional = .ok b → ∃ v', t.Canonical isArray isOptional v' b ∧
      (v'.isNull = true → isOptional = true ∧ v.isNull = true)

/-- **An ABI that can be read back**: only extensions follow an extension, and the tag of a variant
is a number of 32 bits. -/
structure Orderly (abis : AbiSerializer) : Prop extends abis.Regular where
  extensions : ∀ {name st}, abis.structs.find name = some st →
    st.fields.Pairwise fun f g => isExtension f.type = true → isExtension g.type = true
  alternatives : ∀ {name v}, abis.variants.find name = some v → v.types.length < 2 ^ 32

section PackFields

variable {agree : Bool → TypeName → Variant → Bytes → Prop}
  {check : Bool → TypeName → Variant → Bool}
  {pack : Bool → TypeName → Variant → Except FcException Bytes} {atEnd : Bool}

/-- After a field that is left out, all are. -/
theorem packObject_disallowed {vo : VariantObject} : ∀ {fields : List FieldDef} {b : Bytes},
    packObject pack atEnd vo true fields = .ok b →
      b = [] ∧ (∀ f ∈ fields, isExtension f.type = true) ∧
        ∀ f ∈ fields, contains vo (cStr f.name) = false
  | [], b, h => by
    obtain rfl := Except.ok.inj h
    exact ⟨rfl, by simp, by simp⟩
  | f :: fields, b, h => by
    rw [packObject] at h
    by_cases hcontains : contains vo (cStr f.name) = true
    · rw [if_pos hcontains, if_pos rfl] at h
      simp at h
    rw [if_neg hcontains] at h
    by_cases hextension : (isExtension f.type && atEnd) = true
    · rw [if_pos hextension] at h
      obtain ⟨rfl, hrest, hmissing⟩ := packObject_disallowed h
      rw [Bool.and_eq_true] at hextension
      exact ⟨rfl, forall_mem_cons.mpr ⟨hextension.1, hrest⟩,
        forall_mem_cons.mpr ⟨by simpa using hcontains, hmissing⟩⟩
    · rw [if_neg hextension, if_pos rfl] at h
      simp at h

variable (hmeets : ∀ ⦃e t v b⦄, pack e t v = .ok b → check e t v = true → b.length < 2 ^ 32 →
  ∃ v', agree e t v' b)
include hmeets

/-- **The fields that are packed from an object.** -/
theorem fields_of_packObject {vo : VariantObject} :
    ∀ {fields : List FieldDef} {b : Bytes}, (∀ f ∈ fields, '\x00' ∉ f.name) →
      packObject pack atEnd vo false fields = .ok b →
      everyEntry check atEnd vo fields = true → b.length < 2 ^ 32 →
        ∃ l, FieldsAgree agree atEnd fields l b ∧ ∀ f ∈ fields, contains vo f.name = true → l ≠ []
  | [], b, _, h, _, _ => by
    obtain rfl := Except.ok.inj h
    exact ⟨[], .done (by simp) (.inl rfl), by simp⟩
  | f :: fields, b, hnames, h, hcheck, hsize => by
    rw [forall_mem_cons] at hnames
    rw [everyEntry, Bool.and_eq_true] at hcheck
    rw [packObject, cStr_of_notMem hnames.1] at h
    by_cases hcontains : contains vo f.name = true
    · rw [if_pos hcontains, if_neg (by simp)] at h
      obtain ⟨v, hfind⟩ := contains_iff.mp hcontains
      rw [VariantObject.get, hfind, ok_bind] at h
      rw [hfind] at hcheck
      obtain ⟨bytes, hbytes, h⟩ := bind_eq_ok.mp h
      obtain ⟨rest, hrest, h⟩ := bind_eq_ok.mp h
      obtain rfl := Except.ok.inj h
      rw [length_append] at hsize
      obtain ⟨v', hv'⟩ := hmeets hbytes hcheck.1 (by omega)
      obtain ⟨l, hl, _⟩ := fields_of_packObject hnames.2 hrest hcheck.2 (by omega)
      exact ⟨_, .field hv' hl, fun _ _ _ => by simp⟩
    · rw [if_neg hcontains] at h
      by_cases hextension : (isExtension f.type && atEnd) = true
      · rw [if_pos hextension] at h
        obtain ⟨rfl, hrest, hmissing⟩ := packObject_disallowed h
        rw [Bool.and_eq_true] at hextension
        refine ⟨[], .done (forall_mem_cons.mpr ⟨hextension.1, hrest⟩) (.inr hextension.2), ?_⟩
        refine forall_mem_cons.mpr ⟨fun h => absurd h hcontains, fun g hg hfound => ?_⟩
        have hnone := hmissing g hg
        rw [cStr_of_notMem (hnames.2 g hg), hfound] at hnone
        simp at hnone
      · rw [if_neg hextension, if_neg (by simp)] at h
        simp at h

/-- **The fields that are packed from an array.** -/
theorem fields_of_packArray : ∀ {fields : List FieldDef} {va : List Variant} {b : Bytes},
      fields.Pairwise (fun f g => isExtension f.type = true → isExtension g.type = true) →
      packArray pack atEnd fields va = .ok b →
      everyItem check atEnd fields va = true → b.length < 2 ^ 32 →
        ∃ l, FieldsAgree agree atEnd fields l b ∧ (va ≠ [] → fields ≠ [] → l ≠ [])
  | [], va, b, _, h, _, _ => by
    obtain rfl := Except.ok.inj h
    exact ⟨[], .done (by simp) (.inl rfl), by simp⟩
  | f :: fields, [], b, hlast, h, _, _ => by
    rw [packArray] at h
    split at h
    · next hextension =>
      obtain rfl := Except.ok.inj h
      rw [Bool.and_eq_true] at hextension
      refine ⟨[], .done ?_ (.inr hextension.2), by simp⟩
      exact forall_mem_cons.mpr
        ⟨hextension.1, fun g hg => (pairwise_cons.mp hlast).1 g hg hextension.1⟩
    · simp at h
  | f :: fields, v :: va, b, hlast, h, hcheck, hsize => by
    rw [everyItem, Bool.and_eq_true] at hcheck
    obtain ⟨bytes, hbytes, h⟩ := bind_eq_ok.mp h
    obtain ⟨rest, hrest, h⟩ := bind_eq_ok.mp h
    obtain rfl := Except.ok.inj h
    rw [length_append] at hsize
    obtain ⟨v', hv'⟩ := hmeets hbytes hcheck.1 (by omega)
    obtain ⟨l, hl, _⟩ := fields_of_packArray (pairwise_cons.mp hlast).2 hrest hcheck.2 (by omega)
    exact ⟨_, .field hv' hl, fun _ _ => by simp⟩

end PackFields

/-- Values that are packed with some scopes. -/
def PackMeets (abis : AbiSerializer) (env : AbiEnv) (n : Nat) : Prop :=
  ∀ ⦃m atEnd type v b⦄, abis.variantToBinary env n atEnd type v = .ok b →
    abis.everyPart abis.partDecodable (fun _ _ _ => true) m atEnd type v = true →
    b.length < 2 ^ 32 → ∃ v', abis.Agrees env n m atEnd type v' b ∧
      (v'.isNull = true → isOptional (abis.resolveType type) = true ∧ v.isNull = true)

/-- Structs that are packed with some scopes. -/
def StructPackMeets (abis : AbiSerializer) (env : AbiEnv) (n : Nat) : Prop :=
  ∀ ⦃m atEnd type st v b⦄, abis.IsStruct type st → abis.variantToBinary env n atEnd type v = .ok b →
    abis.everyField abis.partDecodable (fun _ _ _ => true) m atEnd (abis.resolveType type) v = true →
    b.length < 2 ^ 32 → ∃ l, abis.StructAgrees env n m atEnd type l b ∧
      (abis.hasField m (abis.resolveType type) v = true → l ≠ [])

section Packed

variable {n : Nat}

theorem base_of_pack (hvalid : abis.validate = .ok ()) (hreg : abis.Regular)
    (ih : abis.StructPackMeets env n) {m : Nat} {name : TypeName} {st : StructDef}
    (hst : abis.structs.find name = some st) {vo : VariantObject} {b : Bytes}
    (h : (if st.base ≠ [] then
      abis.variantToBinary env n false (abis.resolveType st.base) (.object vo) else pure []) =
        .ok b)
    (hcheck : st.base ≠ [] → abis.everyField abis.partDecodable (fun _ _ _ => true) m false
      (abis.resolveType st.base) (.object vo) = true) (hsize : b.length < 2 ^ 32) :
    ∃ l, abis.BaseAgrees env n m st l b ∧ (st.base ≠ [] →
      abis.hasField m (abis.resolveType st.base) (.object vo) = true → l ≠ []) := by
  split at h
  · next hbase =>
    obtain ⟨st', hst'⟩ := exists_base hvalid hst hbase
    have hstruct : abis.IsStruct (abis.resolveType st.base) st' :=
      hreg.isStruct (by rwa [resolveType_resolveType])
    have hcheck' := hcheck hbase
    rw [← resolveType_resolveType st.base] at hcheck'
    obtain ⟨l, hl, hne⟩ := ih hstruct h hcheck' hsize
    rw [resolveType_resolveType] at hne
    exact ⟨l, .inr ⟨hbase, hl⟩, fun _ => hne⟩
  · next hbase =>
    obtain rfl := Except.ok.inj h
    exact ⟨[], .inl ⟨not_not.mp hbase, rfl, rfl⟩, fun h => absurd h hbase⟩

theorem structPackMeets_succ (hvalid : abis.validate = .ok ()) (habi : abis.Orderly)
    (ihv : abis.PackMeets env n) (ih : abis.StructPackMeets env n) :
    abis.StructPackMeets env (n + 1) := by
  intro m atEnd type st v b hst h hcheck hsize
  cases m with
  | zero => simp [everyField] at hcheck
  | succ m =>
    obtain ⟨_, hbase, hentries, hitems⟩ := everyField_struct hst.struct hcheck
    have hmeets : ∀ ⦃e t v b⦄, abis.variantToBinary env n e t v = .ok b →
        abis.everyPart abis.partDecodable (fun _ _ _ => true) m e t v = true → b.length < 2 ^ 32 →
          ∃ v', abis.Agrees env n m e t v' b := by
      intro e t v b hv hp hb
      obtain ⟨v', hv', _⟩ := ihv hv hp hb
      exact ⟨v', hv'⟩
    rcases variantToBinary_struct hst h with ⟨vo, rfl⟩ | ⟨va, rfl, hroot, hpack⟩
    · rw [variantToBinary_object hst] at h
      obtain ⟨b0, hb0, h⟩ := bind_eq_ok.mp h
      obtain ⟨b1, hb1, h⟩ := bind_eq_ok.mp h
      obtain rfl := Except.ok.inj h
      rw [length_append] at hsize
      obtain ⟨l0, hl0, hne0⟩ := base_of_pack hvalid habi.toRegular ih hst.struct hb0 hbase (by omega)
      obtain ⟨l1, hl1, hne1⟩ := fields_of_packObject hmeets (habi.names hst.struct) hb1
        (hentries vo rfl) (by omega)
      refine ⟨l0 ++ l1, .struct habi.toRegular hst hl0 hl1, fun hfield => ?_⟩
      rw [hasField, fieldNames, hst.struct] at hfield
      rw [any_append, Bool.or_eq_true] at hfield
      rcases hfield with hfield | hfield
      · by_cases hbase' : st.base ≠ []
        · rw [if_pos hbase'] at hfield
          simp [hne0 hbase' hfield]
        · rw [if_neg hbase'] at hfield
          simp at hfield
      · obtain ⟨k, hk, hfound⟩ := any_eq_true.mp hfield
        obtain ⟨f, hf, rfl⟩ := mem_map.mp hk
        simp [hne1 f hf hfound]
    · obtain ⟨l1, hl1, hne1⟩ := fields_of_packArray hmeets (habi.extensions hst.struct) hpack
        (hitems va rfl) hsize
      have hagrees := StructAgrees.struct habi.toRegular hst (.inl ⟨hroot, rfl, rfl⟩) hl1
      refine ⟨l1, hagrees, fun hfield => ?_⟩
      rw [hasField, fieldNames, hst.struct] at hfield
      simp only [hroot, ne_eq, not_true_eq_false, if_false, nil_append, Bool.and_eq_true,
        Bool.not_eq_true', isEmpty_eq_false_iff, map_eq_nil_iff] at hfield
      exact hne1 hfield.1 hfield.2

theorem elements_of_pack (ih : abis.PackMeets env n) {m : Nat} {type : TypeName} :
    ∀ {vars : List Variant} {items : List Bytes},
      List.Forall₂ (fun v b => abis.variantToBinary env n false type v = .ok b) vars items →
      (∀ v ∈ vars, abis.everyPart abis.partDecodable (fun _ _ _ => true) m false type v = true) →
      (isOptional (abis.resolveType type) = true → ∀ v ∈ vars, v.isNull = false) →
      items.flatten.length < 2 ^ 32 →
        ∃ vars', List.Forall₂ (abis.Agrees env n m false type) vars' items ∧
          vars'.length = vars.length ∧ ∀ v ∈ vars', v.isNull = false
  | [], _, .nil, _, _, _ => ⟨[], .nil, rfl, by simp⟩
  | v :: vars, b :: items, .cons hv htail, hcheck, hnull, hsize => by
    rw [flatten_cons, length_append] at hsize
    rw [forall_mem_cons] at hcheck
    obtain ⟨v', hv', hisNull⟩ := ih hv hcheck.1 (by omega)
    obtain ⟨vars', hvars', hlen, hnull'⟩ := elements_of_pack ih htail hcheck.2
      (fun hopt w hw => hnull hopt w (mem_cons_of_mem v hw)) (by omega)
    refine ⟨v' :: vars', .cons hv' hvars', by simp [hlen], ?_⟩
    refine forall_mem_cons.mpr ⟨?_, hnull'⟩
    by_contra hn
    obtain ⟨hopt, hv⟩ := hisNull (by simpa using hn)
    exact absurd (hnull hopt v (mem_cons_self ..)) (by simp [hv])

theorem length_le_of_agrees {m : Nat} {type : TypeName} : ∀ {vars : List Variant}
    {items : List Bytes}, List.Forall₂ (abis.Agrees env n m false type) vars items →
      vars.length ≤ items.flatten.length
  | [], _, .nil => le_rfl
  | v :: vars, b :: items, .cons hv htail => by
    have hrest := length_le_of_agrees htail
    have hpos := length_pos_iff.mpr hv.ne_nil
    rw [flatten_cons, length_append, length_cons]
    omega

theorem selectAlternative_eq_ok {types : List TypeName} {v value : Variant} {t : TypeName}
    (h : selectAlternative types v = .ok (t, value)) : v = .array [.string t, value] ∧ t ∈ types := by
  unfold selectAlternative at h
  split at h
  · split at h
    · split at h
      · simp only [Except.ok.injEq, Prod.mk.injEq] at h
        obtain ⟨rfl, rfl⟩ := h
        exact ⟨rfl, by assumption⟩
      · simp at h
    · simp at h
  · simp at h

theorem packMeets_succ (henv : env.Exact) (hbuiltIn : PacksBack abis.builtInTypes)
    (habi : abis.Orderly) (ih : abis.PackMeets env n) (ihs : abis.StructPackMeets env (n + 1)) :
    abis.PackMeets env (n + 1) := by
  intro m atEnd type v b h hcheck hsize
  cases m with
  | zero => simp [everyPart] at hcheck
  | succ m =>
    have hpart := everyPart_part hcheck
    cases hb : abis.builtInTypes (fundamentalType (abis.resolveType type)) with
    | some t =>
      rw [variantToBinary_builtIn hb] at h
      obtain ⟨v', hv', hnull⟩ := hbuiltIn hb h
      exact ⟨v', .builtIn hb hv', hnull⟩
    | none =>
      by_cases harray : isArray (abis.resolveType type) = true
      · have ht : abis.IsArrayType type := ⟨hb, harray⟩
        rw [variantToBinary_array ht] at h
        obtain ⟨vars, hvars, h⟩ := bind_eq_ok.mp h
        obtain ⟨items, hitems, h⟩ := bind_eq_ok.mp h
        obtain rfl := Except.ok.inj h
        obtain rfl : v = .array vars := by
          cases v <;> simp_all [Variant.getArray]
        rw [length_append] at hsize
        have hnull : isOptional (abis.resolveType (fundamentalType (abis.resolveType type))) = true →
            ∀ v ∈ vars, v.isNull = false := by
          intro hopt
          simpa [partDecodable, hb, harray, hopt] using hpart
        obtain ⟨vars', hvars', hlen, hnull'⟩ := elements_of_pack ih (mapM_eq_ok.mp hitems)
          (everyPart_array ht hcheck) hnull (by omega)
        have hcount := length_le_of_agrees hvars'
        rw [← hlen]
        exact ⟨.array vars', .array henv ht hvars' hnull' (by omega), by simp [Variant.isNull]⟩
      · cases hd : abis.variants.find (abis.resolveType type) with
        | some d =>
          have ht : abis.IsVariant type d := ⟨hb, by simpa using harray, habi.variants hd, hd⟩
          rw [variantToBinary_variant ht] at h
          obtain ⟨⟨t, value⟩, hselect, h⟩ := bind_eq_ok.mp h
          obtain ⟨bytes, hbytes, h⟩ := bind_eq_ok.mp h
          obtain rfl := Except.ok.inj h
          obtain ⟨rfl, hmem⟩ := selectAlternative_eq_ok hselect
          rw [length_append] at hsize
          obtain ⟨v', hv', _⟩ := ih hbytes (everyPart_variant ht hcheck) (by omega)
          have hlt : d.types.idxOf t < 2 ^ 32 :=
            lt_trans (idxOf_lt_length_iff.mpr hmem) (habi.alternatives hd)
          exact ⟨_, .alternative henv ht hmem hlt hv', by simp [Variant.isNull]⟩
        | none =>
          cases hs : abis.structs.find (abis.resolveType type) with
          | some st =>
            have hst := habi.isStruct hs
            obtain ⟨l, hl, hne⟩ := ihs hst h (everyPart_struct hst hcheck) hsize
            have hfield : abis.hasField m (abis.resolveType type) v = true := by
              simpa [partDecodable, hb, harray, hd] using hpart
            exact ⟨_, .struct hst hl (hne hfield), by simp [Variant.isNull]⟩
          | none => simp [variantToBinary, hb, harray, hd, hs] at h

/-- **What is packed is a value with its bytes.** -/
theorem meets_of_pack (henv : env.Exact) (hbuiltIn : PacksBack abis.builtInTypes)
    (hvalid : abis.validate = .ok ()) (habi : abis.Orderly) :
    ∀ n, abis.PackMeets env n ∧ abis.StructPackMeets env n
  | 0 => by
    constructor
    · intro m atEnd type v b h
      simp [variantToBinary] at h
    · intro m atEnd type st v b _ h
      simp [variantToBinary] at h
  | n + 1 => by
    obtain ⟨ihv, ihs⟩ := meets_of_pack henv hbuiltIn hvalid habi n
    have hstruct : abis.StructPackMeets env (n + 1) := structPackMeets_succ hvalid habi ihv ihs
    exact ⟨packMeets_succ henv hbuiltIn habi ihv hstruct, hstruct⟩

/-- **What is packed is unpacked**: every byte is read, and the value that is read packs to the
same bytes. -/
theorem packVariant_unpacks (henv : env.Exact) {base : AbiSerializer} {abi : AbiDef}
    (hset : base.setAbi abi = .ok abis) (hbuiltIn : PacksBack abis.builtInTypes)
    (habi : abis.Orderly) {type : TypeName} (htype : abis.isType type = .ok true) {v : Variant}
    {b : Bytes} (hpack : abis.packVariant env type v = .ok b)
    (hdecodable : abis.decodable (maxRecursionDepth - 2) type v = true) :
    ∃ v', abis.unpackBinary env type b = .ok (v', []) ∧ abis.packVariant env type v' = .ok b := by
  obtain ⟨known, hknown, hpack⟩ := bind_eq_ok.mp hpack
  obtain rfl : known = true := Except.ok.inj ((isTypeIn_succ hknown).symm.trans htype)
  obtain ⟨bytes, hbytes, hpack⟩ := bind_eq_ok.mp hpack
  split at hpack
  · next hsize =>
    obtain rfl := Except.ok.inj hpack
    have hlt : bytes.length < 2 ^ 32 := lt_of_le_of_lt hsize (by decide)
    obtain ⟨v', hv', _⟩ := (meets_of_pack henv hbuiltIn (setAbi_validate hset) habi _).1 hbytes
      hdecodable hlt
    have hunpack := hv'.unpack [] fun _ => rfl
    rw [append_nil] at hunpack
    refine ⟨v', hunpack, bind_eq_ok.mpr ⟨true, hknown, bind_eq_ok.mpr ⟨_, hv'.pack, ?_⟩⟩⟩
    exact if_pos hsize
  · simp at hpack

end Packed

theorem octets_packsBack : PacksBack (configureBuiltInTypes fun _ => octet) := by
  intro type t ht v isArray isOptional b h
  obtain rfl := eq_octet ht
  cases isArray with
  | true => simp [octet] at h
  | false =>
    cases isOptional with
    | true =>
      cases v with
      | null =>
        obtain rfl := Except.ok.inj h
        exact ⟨_, octet_canonical_null, fun _ => ⟨rfl, rfl⟩⟩
      | uint64 n =>
        obtain rfl := Except.ok.inj h
        exact ⟨_, octet_canonical_some _, fun hnull => absurd hnull (by simp [Variant.isNull])⟩
      | int64 | double | bool | string | array | object | blob => simp [octet] at h
    | false =>
      cases v with
      | uint64 n =>
        obtain rfl := Except.ok.inj h
        exact ⟨_, octet_canonical _, fun hnull => absurd hnull (by simp [Variant.isNull])⟩
      | null | int64 | double | bool | string | array | object | blob =>
        simp [octet] at h

theorem nested_orderly : nested.Orderly where
  toRegular := nested_regular
  extensions := fun h => nested_structs h (by decide)
  alternatives := fun h => absurd h (by simp [nested, octets])

/-- A struct in a struct, from which an extension at the end is left out. -/
def nestedValue : Variant :=
  .object [("a".toList, .object [("x".toList, .uint64 7), ("y".toList, .uint64 8)])]

theorem packVariant_unpacks_nested : nested.packVariant wordEnv "out".toList nestedValue = .ok [7, 8] ∧
    ∃ v', nested.unpackBinary wordEnv "out".toList [7, 8] = .ok (v', []) ∧
      nested.packVariant wordEnv "out".toList v' = .ok [7, 8] :=
  ⟨rfl, packVariant_unpacks wordEnv_exact (rfl : octets.setAbi nestedAbi = .ok nested) octets_packsBack
    nested_orderly rfl (v := nestedValue) rfl (by decide)⟩

/-- An optional with a name, a field after an extension, two fields of one name, and structs in
structs. -/
def looseAbi : AbiDef where
  version := "eosio::abi/1.1".toList
  types := [⟨"opt".toList, "uint8?".toList⟩]
  structs :=
    [{ name := "gap".toList, fields := [⟨"x".toList, "uint8".toList⟩, ⟨"y".toList, "uint8$".toList⟩,
        ⟨"z".toList, "uint8".toList⟩] },
      { name := "twin".toList, fields := [⟨"x".toList, "uint8".toList⟩, ⟨"x".toList, "uint8".toList⟩] },
      { name := "deep".toList, fields := [⟨"x".toList, "deep[]".toList⟩] }]

/-- The serializer of `looseAbi`. -/
def loose : AbiSerializer :=
  { octets with
    typedefs := FlatMap.empty.set "opt".toList "uint8?".toList
    structs := looseAbi.structs.foldl (fun m st => m.set st.name st) .empty }

/-- A struct with `n` others inside. -/
def deepValue : Nat → Variant
  | 0 => .object [("x".toList, .array [])]
  | n + 1 => .object [("x".toList, .array [deepValue n])]

/-- **A struct without fields** is packed to nothing, and this is refused. So are a null in an array,
a struct cut before an extension that a field follows, and structs for which the decoder has no
scopes left; of two fields of one name the second value is decoded for both. -/
theorem packVariant_empty : octets.setAbi nestedAbi = .ok nested ∧
    nested.isType "hi".toList = .ok true ∧
    nested.packVariant wordEnv "hi".toList (.object []) = .ok [] ∧
    (∀ r, nested.unpackBinary wordEnv "hi".toList [] ≠ .ok r) ∧
    octets.setAbi looseAbi = .ok loose ∧
    (∀ type ∈ ["opt[]", "gap", "deep", "twin"], loose.isType type.toList = .ok true) ∧
    (∀ c ∈ [("opt[]", Variant.array [.null]), ("gap", .array [.uint64 7]), ("deep", deepValue 12)],
      ∃ b, loose.packVariant wordEnv c.1.toList c.2 = .ok b ∧
        ∀ r, loose.unpackBinary wordEnv c.1.toList b ≠ .ok r) ∧
    loose.packVariant wordEnv "twin".toList (.array [.uint64 7, .uint64 8]) = .ok [7, 8] ∧
    ∃ v, loose.unpackBinary wordEnv "twin".toList [7, 8] = .ok (v, []) ∧
      loose.packVariant wordEnv "twin".toList v = .ok [8, 8] := by
  refine ⟨rfl, rfl, rfl, fun r h => (by cases h), rfl, ?_, ?_, rfl, _, rfl, rfl⟩
  · simp only [forall_mem_cons]
    exact ⟨rfl, rfl, rfl, rfl, forall_mem_nil _⟩
  · simp only [forall_mem_cons]
    refine ⟨⟨_, rfl, fun r h => ?_⟩, ⟨_, rfl, fun r h => ?_⟩, ⟨_, rfl, fun r h => ?_⟩, forall_mem_nil _⟩
    all_goals cases h

end AbiSerializer

end Forceio.Chain
