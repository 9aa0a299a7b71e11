import Forceio.Chain.AbiParts

/-!
# What is unpacked is packed

A value that `binary_to_variant` reads is packed by `variant_to_binary`, to bytes that are read as
the same value, if the encoder knows the types of its parts and where extensions are left out.

* What is unpacked of the built-in types is packed: `UnpacksBack`.

Result:
* `unpackBinary_packs`: the round trip.
-/

namespace Forceio.Chain

open Forceio.Lib VariantObject
open List hiding contains

namespace AbiSerializer

variable {abis : AbiSerializer} {env : AbiEnv}

/-! ## What is unpacked -/

/-- A value of a built-in type that is unpacked is packed to bytes that are unpacked to it, whatever
follows. -/
def UnpacksBack (builtInTypes : TypeName → Option BuiltIn) : Prop :=
  ∀ {type t}, builtInTypes type = some t → ∀ {s isArray isOptional v rest},
    t.unpack s isArray isOptional = .ok (v, rest) → ∃ b, t.Canonical isArray isOptional v b

theorem rethrowUnpack_eq_ok {α : Type} {x : Except FcException α} {what : String} {a : α} :
    rethrowUnpack x what = .ok a ↔ x = .ok a := by
  cases x <;> simp [rethrowUnpack]

section UnpackFields

variable {agree : Bool → TypeName → Variant → Bytes → Prop}
  {check : Bool → TypeName → Variant → Bool}
  {unpack : TypeName → Bytes → Except FcException (Variant × Bytes)}

theorem unpackFields_nil : ∀ {fields : List FieldDef} {x : Bool} {obj obj' : VariantObject}
    {rest : Bytes}, abis.unpackFields unpack x fields [] obj = .ok (obj', rest) →
      obj' = obj ∧ ∀ f ∈ fields, isExtension f.type = true
  | [], _, obj, obj', rest, h => by
    have hpair := Except.ok.inj h
    exact ⟨(congrArg Prod.fst hpair).symm, by simp⟩
  | f :: fields, x, obj, obj', rest, h => by
    rw [unpackFields, if_pos rfl] at h
    split at h
    · next hextension =>
      obtain ⟨rfl, hrest⟩ := unpackFields_nil h
      exact ⟨rfl, forall_mem_cons.mpr ⟨hextension, hrest⟩⟩
    · cases x <;> exact absurd h (by simp)

/-- **The fields that are unpacked**, and their bytes once the object they belong to is known. -/
theorem fields_of_unpack (hmeets : ∀ ⦃e t s v rest⦄, unpack (abis.resolveType t) s = .ok (v, rest) →
      check e t v = true → ∃ b, agree e t v b) :
    ∀ {fields : List FieldDef} {x : Bool} {s rest : Bytes} {obj obj' : VariantObject},
      (fields.map FieldDef.name).Nodup →
      (∀ f ∈ fields, find obj f.name = none) →
      abis.unpackFields unpack x fields s obj = .ok (obj', rest) →
        ∃ l, obj' = obj ++ l ∧ (l.map Prod.fst).Sublist (fields.map FieldDef.name) ∧
          ∀ ⦃vo atEnd⦄, (∀ e ∈ l, find vo e.1 = some e.2) →
            (∀ f ∈ fields, f.name ∉ l.map Prod.fst → find vo f.name = none) →
            everyEntry check atEnd vo fields = true → extensionsHeld atEnd ⟨[], [], fields⟩
              (.object vo) = true → ∃ b, FieldsAgree agree atEnd fields l b
  | [], x, s, rest, obj, obj', _, _, h => by
    have hpair := Except.ok.inj h
    obtain rfl : obj = obj' := congrArg Prod.fst hpair
    exact ⟨[], by simp, by simp, fun _ _ _ _ _ _ => ⟨[], .done (by simp) (.inl rfl)⟩⟩
  | f :: fields, x, s, rest, obj, obj', hnodup, hobj, h => by
    by_cases hs : s = []
    · subst hs
      obtain ⟨rfl, hextensions⟩ := unpackFields_nil h
      refine ⟨[], by simp, nil_sublist _, fun vo atEnd _ hmissing _ hheld => ?_⟩
      refine ⟨[], .done hextensions (.inr ?_)⟩
      have hnone := hmissing f (mem_cons_self ..) (by simp)
      have hextension := hextensions f (mem_cons_self ..)
      rw [extensionsHeld, Bool.or_eq_true, all_eq_true] at hheld
      refine hheld.resolve_right fun hall => ?_
      have hf := hall f (mem_cons_self ..)
      rw [hextension, contains, hnone] at hf
      simp at hf
    · rw [map_cons, nodup_cons] at hnodup
      rw [unpackFields, if_neg hs] at h
      have htype : (if isExtension f.type = true then removeBinExtension f.type else f.type) =
          removeBinExtension f.type := by
        by_cases hext : isExtension f.type = true
        · rw [if_pos hext]
        · rw [if_neg hext, removeBinExtension, if_neg hext]
      rw [htype] at h
      obtain ⟨⟨v, s'⟩, hv, h⟩ := bind_eq_ok.mp h
      dsimp only at h
      rw [set_of_find_eq_none (hobj f (mem_cons_self ..))] at h
      have hother : ∀ g ∈ fields, g.name ≠ f.name := fun g hg heq =>
        hnodup.1 (heq ▸ mem_map_of_mem hg)
      have hobj' : ∀ g ∈ fields, find (obj ++ [(f.name, v)]) g.name = none := by
        intro g hg
        rw [find_append, hobj g (mem_cons_of_mem f hg), Option.none_or]
        exact find_eq_none.mpr (by simpa using hother g hg)
      obtain ⟨l, rfl, hsub, hl⟩ := fields_of_unpack hmeets hnodup.2 hobj' h
      refine ⟨(f.name, v) :: l, by simp, hsub.cons_cons _, ?_⟩
      intro vo atEnd hfound hmissing hcheck hheld
      rw [forall_mem_cons] at hfound
      rw [everyEntry, Bool.and_eq_true, hfound.1] at hcheck
      obtain ⟨bytes, hbytes⟩ := hmeets hv hcheck.1
      have hmissing' : ∀ g ∈ fields, g.name ∉ l.map Prod.fst → find vo g.name = none := by
        intro g hg hnot
        refine hmissing g (mem_cons_of_mem f hg) ?_
        rw [map_cons, mem_cons, not_or]
        exact ⟨hother g hg, hnot⟩
      have hheld' : extensionsHeld atEnd ⟨[], [], fields⟩ (.object vo) = true := by
        rw [extensionsHeld, Bool.or_eq_true] at hheld ⊢
        refine hheld.imp_right fun hall => ?_
        rw [all_cons, Bool.and_eq_true] at hall
        exact hall.2
      obtain ⟨more, hmore⟩ := hl hfound.2 hmissing' hcheck.2 hheld'
      exact ⟨bytes ++ more, .field hbytes hmore⟩

end UnpackFields

/-- Values that are unpacked with some scopes. -/
def UnpackMeets (abis : AbiSerializer) (env : AbiEnv) (m : Nat) : Prop :=
  ∀ ⦃n atEnd type s v rest⦄, m ≤ n → abis.binaryToVariant env m type s = .ok (v, rest) →
    abis.everyPart abis.partEncodable extensionsHeld m atEnd type v = true →
      ∃ b, abis.Agrees env n m atEnd type v b

/-- Structs that are unpacked with some scopes. -/
def StructUnpackMeets (abis : AbiSerializer) (env : AbiEnv) (m : Nat) : Prop :=
  ∀ ⦃n type st s obj obj' rest⦄, m < n → abis.IsStruct type st →
    abis.binaryToStruct env m (abis.resolveType type) s obj = .ok (obj', rest) →
    (∀ k, abis.HasField (abis.resolveType type) k → find obj k = none) →
      ∃ l, obj' = obj ++ l ∧ (∀ k ∈ l.map Prod.fst, abis.HasField (abis.resolveType type) k) ∧
        (l.map Prod.fst).Nodup ∧
        ∀ ⦃vo atEnd⦄, abis.Holds (abis.resolveType type) vo l →
          abis.everyField abis.partEncodable extensionsHeld m atEnd (abis.resolveType type)
            (.object vo) = true → ∃ b, abis.StructAgrees env n m atEnd type l b

section Unpacked

variable {m : Nat}

theorem base_of_unpack (hreg : abis.Regular) (ih : abis.StructUnpackMeets env m) {n : Nat}
    (hn : m < n) {name : TypeName} {st : StructDef} (hst : abis.structs.find name = some st)
    {s rest : Bytes} {obj obj' : VariantObject}
    (h : (if st.base ≠ [] then abis.binaryToStruct env m (abis.resolveType st.base) s obj
      else pure (obj, s)) = .ok (obj', rest))
    (hobj : ∀ k, abis.HasField name k → find obj k = none) :
    ∃ l, obj' = obj ++ l ∧
      (∀ k ∈ l.map Prod.fst, st.base ≠ [] ∧ abis.HasField (abis.resolveType st.base) k) ∧
      (l.map Prod.fst).Nodup ∧
      ∀ ⦃vo⦄, (st.base ≠ [] → abis.Holds (abis.resolveType st.base) vo l) →
        (st.base ≠ [] → abis.everyField abis.partEncodable extensionsHeld m false
          (abis.resolveType st.base) (.object vo) = true) →
          ∃ b, abis.BaseAgrees env n m st l b := by
  split at h
  · next hbase =>
    cases m with
    | zero => simp [binaryToStruct] at h
    | succ m =>
      cases hst' : abis.structs.find (abis.resolveType st.base) with
      | none => simp [binaryToStruct, hst'] at h
      | some st' =>
        have hstruct : abis.IsStruct (abis.resolveType st.base) st' :=
          hreg.isStruct (by rwa [resolveType_resolveType])
        have hread := @ih n (abis.resolveType st.base) st' s obj obj' rest hn hstruct
        rw [resolveType_resolveType] at hread
        obtain ⟨l, hl, hkeys, hnodup, hagrees⟩ := hread h fun k hk => hobj k (.base hst hbase hk)
        refine ⟨l, hl, fun k hk => ⟨hbase, hkeys k hk⟩, hnodup, fun vo hvo hcheck => ?_⟩
        obtain ⟨b, hb⟩ := hagrees (hvo hbase) (hcheck hbase)
        exact ⟨b, .inr ⟨hbase, hb⟩⟩
  · next hbase =>
    obtain rfl : obj = obj' := congrArg Prod.fst (Except.ok.inj h)
    exact ⟨[], by simp, by simp, by simp, fun _ _ _ => ⟨[], .inl ⟨not_not.mp hbase, rfl, rfl⟩⟩⟩

theorem structUnpackMeets_succ (hreg : abis.Regular) (ihv : abis.UnpackMeets env m)
    (ih : abis.StructUnpackMeets env m) : abis.StructUnpackMeets env (m + 1) := by
  intro n type st s obj obj' rest hn hst h hobj
  obtain ⟨n, rfl⟩ : ∃ n', n = n' + 1 := ⟨n - 1, by omega⟩
  rw [binaryToStruct, hst.struct] at h
  obtain ⟨⟨obj1, s1⟩, hbase, h⟩ := bind_eq_ok.mp h
  obtain ⟨l0, rfl, hkeys, hnodup, hl0⟩ :=
    base_of_unpack hreg ih (n := n) (by omega) hst.struct hbase hobj
  have hdisjoint : ∀ f ∈ st.fields, f.name ∉ l0.map Prod.fst := fun f hf hk =>
    hreg.fresh hst.struct (hkeys _ hk).1 f hf (hkeys _ hk).2
  have hmeets : ∀ ⦃e t s v rest⦄,
      abis.binaryToVariant env m (abis.resolveType t) s = .ok (v, rest) →
      abis.everyPart abis.partEncodable extensionsHeld m e t v = true →
        ∃ b, abis.Agrees env n m e t v b := by
    intro e t s v rest hv hcheck
    rw [binaryToVariant_resolveType] at hv
    exact ihv (by omega) hv hcheck
  have hobj1 : ∀ f ∈ st.fields, find (obj ++ l0) f.name = none := by
    intro f hf
    rw [find_append, hobj f.name (.own hst.struct hf), Option.none_or]
    exact find_eq_none.mpr (hdisjoint f hf)
  obtain ⟨l1, rfl, hsub, hl1⟩ := fields_of_unpack hmeets (hreg.nodup hst.struct) hobj1 h
  have hown : ∀ k ∈ l1.map Prod.fst, ∃ f ∈ st.fields, f.name = k := fun k hk =>
    mem_map.mp (hsub.subset hk)
  refine ⟨l0 ++ l1, by simp, fun k hk => ?_, ?_, fun vo atEnd hvo hcheck => ?_⟩
  · rw [map_append, mem_append] at hk
    rcases hk with hk | hk
    · exact .base hst.struct (hkeys k hk).1 (hkeys k hk).2
    · obtain ⟨f, hf, rfl⟩ := hown k hk
      exact .own hst.struct hf
  · rw [map_append, nodup_append']
    refine ⟨hnodup, hsub.nodup (hreg.nodup hst.struct), fun k hk0 hk1 => ?_⟩
    obtain ⟨f, hf, rfl⟩ := hown k hk1
    exact hdisjoint f hf hk0
  · obtain ⟨hheld, hbaseCheck, hentries, _⟩ := everyField_struct hst.struct hcheck
    obtain ⟨b0, hb0⟩ := hl0 (fun hne => hvo.base hreg hst.struct hne hown) hbaseCheck
    have hmissing : ∀ f ∈ st.fields, f.name ∉ l1.map Prod.fst → find vo f.name = none := by
      intro f hf hnot
      refine hvo.missing f.name (.own hst.struct hf) ?_
      rw [map_append, mem_append, not_or]
      exact ⟨hdisjoint f hf, hnot⟩
    obtain ⟨b1, hb1⟩ := hl1 (fun e he => hvo.found e (mem_append_right _ he)) hmissing
      (hentries vo rfl) hheld
    exact ⟨b0 ++ b1, .struct hreg hst hb0 hb1⟩

theorem elements_of_unpack (ih : abis.UnpackMeets env m) {n : Nat} (hn : m ≤ n) {type : TypeName} :
    ∀ {size : Nat} {s rest : Bytes} {vars : List Variant},
      unpackArray (abis.binaryToVariant env m type) size s = .ok (vars, rest) →
      (∀ v ∈ vars, abis.everyPart abis.partEncodable extensionsHeld m false type v = true) →
        ∃ items, List.Forall₂ (abis.Agrees env n m false type) vars items ∧
          ∀ v ∈ vars, v.isNull = false
  | 0, s, rest, vars, h, _ => by
    obtain rfl : [] = vars := congrArg Prod.fst (Except.ok.inj h)
    exact ⟨[], .nil, by simp⟩
  | size + 1, s, rest, vars, h, hcheck => by
    obtain ⟨⟨v, s1⟩, hv, h⟩ := bind_eq_ok.mp h
    obtain ⟨hnull, h⟩ := assert_bind_eq_ok.mp h
    obtain ⟨⟨vs, s2⟩, hvs, h⟩ := bind_eq_ok.mp h
    obtain rfl : v :: vs = vars := congrArg Prod.fst (Except.ok.inj h)
    rw [forall_mem_cons] at hcheck
    obtain ⟨b, hb⟩ := ih hn hv hcheck.1
    obtain ⟨items, hitems, hnulls⟩ := elements_of_unpack ih hn hvs hcheck.2
    exact ⟨b :: items, .cons hb hitems, forall_mem_cons.mpr ⟨hnull, hnulls⟩⟩

theorem unpackMeets_succ (henv : env.Exact) (hbuiltIn : UnpacksBack abis.builtInTypes)
    (hreg : abis.Regular) (ih : abis.UnpackMeets env m) (ihs : abis.StructUnpackMeets env m) :
    abis.UnpackMeets env (m + 1) := by
  intro n atEnd type s v rest hn h hcheck
  obtain ⟨n, rfl⟩ : ∃ n', n = n' + 1 := ⟨n - 1, by omega⟩
  have hmn : m ≤ n := Nat.le_of_succ_le_succ hn
  have hpart := everyPart_part hcheck
  cases hb : abis.builtInTypes (fundamentalType (abis.resolveType type)) with
  | some t =>
    rw [binaryToVariant_builtIn hb, rethrowUnpack_eq_ok] at h
    obtain ⟨b, hcanonical⟩ := hbuiltIn hb h
    exact ⟨b, .builtIn hb hcanonical⟩
  | none =>
    by_cases harray : isArray (abis.resolveType type) = true
    · have ht : abis.IsArrayType type := ⟨hb, harray⟩
      rw [binaryToVariant_array ht] at h
      obtain ⟨⟨size, s1⟩, _, h⟩ := bind_eq_ok.mp h
      obtain ⟨⟨vars, s2⟩, hvars, h⟩ := bind_eq_ok.mp h
      obtain ⟨hlen, h⟩ := assert_bind_eq_ok.mp h
      obtain rfl : .array vars = v := congrArg Prod.fst (Except.ok.inj h)
      obtain ⟨items, hitems, hnull⟩ := elements_of_unpack ih hmn hvars
        (everyPart_array ht hcheck)
      have hlt : vars.length < 2 ^ 32 := hlen ▸ size.toNat_lt
      exact ⟨_, .array henv ht hitems hnull hlt⟩
    · have hoptional : isOptional (abis.resolveType type) = false := by
        simpa [partEncodable, hb, harray] using hpart
      cases hd : abis.variants.find (abis.resolveType type) with
      | some d =>
        have ht : abis.IsVariant type d := ⟨hb, by simpa using harray, hoptional, hd⟩
        rw [binaryToVariant_variant ht] at h
        obtain ⟨⟨select, s1⟩, _, h⟩ := bind_eq_ok.mp h
        dsimp only at h
        cases hselect : d.types[select.toNat]? with
        | none =>
          rw [hselect] at h
          simp at h
        | some t =>
          rw [hselect] at h
          obtain ⟨⟨value, s2⟩, hvalue, h⟩ := bind_eq_ok.mp h
          obtain rfl : .array [.string t, value] = v := congrArg Prod.fst (Except.ok.inj h)
          obtain ⟨b, hb'⟩ := ih hmn hvalue (everyPart_variant ht hcheck)
          obtain ⟨hi, hti⟩ := List.getElem?_eq_some_iff.mp hselect
          have hlt : d.types.idxOf t < 2 ^ 32 := by
            refine lt_of_le_of_lt ?_ select.toNat_lt
            by_contra hlt
            have hnot := not_of_lt_findIdx (not_le.mp hlt)
            simp [hti] at hnot
          exact ⟨_, .alternative henv ht (mem_of_getElem? hselect) hlt hb'⟩
      | none =>
        simp only [binaryToVariant, hb, harray, hoptional, hd, Bool.false_eq_true, if_false] at h
        obtain ⟨⟨mvo, s1⟩, hmvo, h⟩ := bind_eq_ok.mp h
        obtain ⟨hpos, h⟩ := assert_bind_eq_ok.mp h
        obtain rfl : .object mvo = v := congrArg Prod.fst (Except.ok.inj h)
        obtain ⟨st, hs⟩ : ∃ st, abis.structs.find (abis.resolveType type) = some st := by
          cases m with
          | zero => simp [binaryToStruct] at hmvo
          | succ m =>
            cases hs : abis.structs.find (abis.resolveType type) with
            | none => simp [binaryToStruct, hs] at hmvo
            | some st => exact ⟨st, rfl⟩
        have hst := hreg.isStruct hs
        obtain ⟨l, hmvo, _, hnodup, hl⟩ := ihs (n := n + 1) (by omega) hst hmvo fun _ _ => rfl
        obtain rfl : mvo = l := by rw [hmvo, nil_append]
        have hholds : abis.Holds (abis.resolveType type) mvo mvo :=
          ⟨fun e he => find_of_mem hnodup he, fun k _ hk => find_eq_none.mpr hk⟩
        obtain ⟨b, hb'⟩ := hl hholds (everyPart_struct hst hcheck)
        exact ⟨b, .struct hst hb' (length_pos_iff.mp hpos)⟩

/-- **What is unpacked is a value with its bytes.** -/
theorem meets_of_unpack (henv : env.Exact) (hbuiltIn : UnpacksBack abis.builtInTypes)
    (hreg : abis.Regular) : ∀ m, abis.UnpackMeets env m ∧ abis.StructUnpackMeets env m
  | 0 => by
    constructor
    · intro n atEnd type s v rest _ h
      simp [binaryToVariant] at h
    · intro n type st s obj obj' rest _ _ h
      simp [binaryToStruct] at h
  | m + 1 => by
    obtain ⟨ihv, ihs⟩ := meets_of_unpack henv hbuiltIn hreg m
    exact ⟨unpackMeets_succ henv hbuiltIn hreg ihv ihs, structUnpackMeets_succ hreg ihv ihs⟩

/-- **What is unpacked is packed**, to bytes that unpack to the same value. -/
theorem unpackBinary_packs (henv : env.Exact) (hbuiltIn : UnpacksBack abis.builtInTypes)
    (hreg : abis.Regular) {type : TypeName}
    (htype : abis.isTypeIn (maxRecursionDepth - 2) type = .ok true) {s rest : Bytes} {v : Variant}
    (hunpack : abis.unpackBinary env type s = .ok (v, rest))
    (hencodable : abis.encodable (maxRecursionDepth - 2) type v = true)
    (hsize : ∀ b, abis.variantToBinary env (maxRecursionDepth - 2) true type v = .ok b →
      b.length ≤ bufferSize) :
    ∃ b, abis.packVariant env type v = .ok b ∧ abis.unpackBinary env type b = .ok (v, []) := by
  obtain ⟨b, hb⟩ := (meets_of_unpack henv hbuiltIn hreg _).1 le_rfl hunpack hencodable
  have hread := hb.unpack [] fun _ => rfl
  rw [append_nil] at hread
  refine ⟨b, bind_eq_ok.mpr ⟨true, htype, bind_eq_ok.mpr ⟨b, hb.pack, ?_⟩⟩, hread⟩
  exact if_pos (hsize b hb.pack)

end Unpacked

theorem octets_unpacksBack : UnpacksBack (configureBuiltInTypes fun _ => octet) := by
  intro type t ht s isArray isOptional v rest h
  obtain rfl := eq_octet ht
  cases isArray with
  | true => simp [octet] at h
  | false =>
    cases isOptional with
    | true =>
      simp only [octet, Bool.false_eq_true, if_false, if_true] at h
      split at h
      · obtain rfl : .null = v := congrArg Prod.fst (Except.ok.inj h)
        exact ⟨_, octet_canonical_null⟩
      · obtain rfl := congrArg Prod.fst (Except.ok.inj h)
        exact ⟨_, octet_canonical_some _⟩
      · simp at h
    | false =>
      simp only [octet, Bool.false_eq_true, if_false] at h
      split at h
      · obtain rfl := congrArg Prod.fst (Except.ok.inj h)
        exact ⟨_, octet_canonical _⟩
      · simp at h

/-- A struct in a struct. -/
def readValue : Variant :=
  .object [("a".toList, .object [("x".toList, .uint64 7), ("y".toList, .uint64 8)])]

theorem unpackBinary_packs_nested :
    nested.unpackBinary wordEnv "out".toList [7, 8] = .ok (readValue, []) ∧
    ∃ b, nested.packVariant wordEnv "out".toList readValue = .ok b ∧
      nested.unpackBinary wordEnv "out".toList b = .ok (readValue, []) := by
  have hread : nested.unpackBinary wordEnv "out".toList [7, 8] = .ok (readValue, []) := rfl
  refine ⟨hread, unpackBinary_packs wordEnv_exact octets_unpacksBack nested_regular rfl hread
    (by decide) fun b hb => ?_⟩
  obtain rfl : [7, 8] = b := Except.ok.inj hb
  decide

/-- **An extension that is left out inside**: the bytes end in the inner struct, and the value that
is read is not packed. An optional of a struct is not packed either. -/
theorem unpackBinary_inner : octets.setAbi nestedAbi = .ok nested ∧
    nested.isType "out".toList = .ok true ∧ nested.isType "in?".toList = .ok true ∧
    (∃ v, nested.unpackBinary wordEnv "out".toList [7] = .ok (v, []) ∧
      ∀ b, nested.packVariant wordEnv "out".toList v ≠ .ok b) ∧
    ∃ v, nested.unpackBinary wordEnv "in?".toList [0] = .ok (v, []) ∧
      ∀ b, nested.packVariant wordEnv "in?".toList v ≠ .ok b := by
  refine ⟨rfl, rfl, rfl, ⟨_, rfl, fun b h => ?_⟩, ⟨_, rfl, fun b h => ?_⟩⟩ <;> cases h

end AbiSerializer

end Forceio.Chain
