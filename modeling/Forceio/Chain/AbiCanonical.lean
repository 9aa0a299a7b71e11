import Forceio.Chain.AbiSerializer

/-!
# Values and bytes that stand for each other

Both directions of the ABI serializer meet at pairs of a value and its bytes: the value packs to the
bytes, and the bytes, whatever follows them, unpack to the value. Here is how such pairs are put
together, for every kind of type.

* A field with a binary extension can be left out only where nothing follows, and so a pair is
  about a place that is `atEnd` or not.
* The two traversals count their scopes differently, so there are two numbers of scopes.

Results:
* `Regular`: an ABI in which a name is of one kind, and a field is found by its name.
* `Agrees`: a value and its bytes; `Agrees.builtIn`, `Agrees.array`, `Agrees.alternative`,
  `Agrees.struct`.
-/

namespace Forceio.Chain

open Forceio.Lib VariantObject
open List hiding contains

/-- A value of a built-in type and its bytes. -/
structure BuiltIn.Canonical (t : BuiltIn) (isArray isOptional : Bool) (v : Variant) (b : Bytes) :
    Prop where
  pack : t.pack v isArray isOptional = .ok b
  unpack : ∀ rest, t.unpack (b ++ rest) isArray isOptional = .ok (v, rest)
  ne_nil : b ≠ []

/-- A number is unpacked as it was packed, and takes a byte at least. -/
structure AbiEnv.Exact (env : AbiEnv) : Prop where
  unpackSize : ∀ n rest, env.unpackSize (env.packSize n ++ rest) = .ok (n, rest)
  ne_nil : ∀ n, env.packSize n ≠ []

/-! ## Objects -/

namespace VariantObject

variable {vo l : VariantObject} {k : FieldName} {v : Variant}
variable {b : Bytes} {fields : List FieldDef} {name : TypeName}

theorem contains_iff : contains vo k = true ↔ ∃ v, find vo k = some v := Option.isSome_iff_exists

theorem find_append : find (vo ++ l) k = (find vo k).or (find l k) := by
  rw [find, find?_append, Option.map_or]
  rfl

theorem find_eq_none : find vo k = none ↔ k ∉ vo.map Prod.fst := by
  rw [find, Option.map_eq_none_iff, find?_eq_none]
  constructor
  · rintro h hk
    obtain ⟨e, he, rfl⟩ := mem_map.mp hk
    exact h e he (by simp)
  · intro h e he heq
    have hkey : e.1 = k := by simpa using heq
    exact h (hkey ▸ mem_map_of_mem he)

theorem find_of_mem (hnodup : (vo.map Prod.fst).Nodup) (h : (k, v) ∈ vo) : find vo k = some v := by
  induction vo with
  | nil => exact absurd h not_mem_nil
  | cons e vo ih =>
    rw [map_cons, nodup_cons] at hnodup
    rcases mem_cons.mp h with rfl | h
    · simp [find]
    · have hne : e.1 ≠ k := fun heq => hnodup.1 (heq ▸ mem_map_of_mem h)
      rw [find, find?_cons_of_neg (by simpa using hne)]
      exact ih hnodup.2 h

theorem set_of_find_eq_none (h : find vo k = none) : set vo k v = vo ++ [(k, v)] := by
  rw [set, if_neg]
  rw [contains, h]
  simp

end VariantObject

theorem cStr_of_notMem {s : List Char} (h : '\x00' ∉ s) : cStr s = s := by
  rw [cStr, takeWhile_eq_self_iff]
  intro c hc
  simpa using fun heq : c = '\x00' => h (heq ▸ hc)

namespace AbiSerializer

variable {abis : AbiSerializer} {env : AbiEnv}

/-! ## Resolved types -/

theorem resolveLoop_cases (type : TypeName) : ∀ (i : Nat) (t : TypeName),
    abis.resolveLoop type i t = type ∨ abis.typedefs.find (abis.resolveLoop type i t) = none
  | 0, _ => .inl rfl
  | i + 1, t => by
    rw [resolveLoop]
    cases ht : abis.typedefs.find t with
    | none => exact .inr ht
    | some t' => exact resolveLoop_cases type i t'

/-- **A resolved type is resolved.** -/
theorem resolveType_resolveType (type : TypeName) :
    abis.resolveType (abis.resolveType type) = abis.resolveType type := by
  cases htype : abis.typedefs.find type with
  | none =>
    have hself : abis.resolveType type = type := by rw [resolveType, htype]
    rw [hself, hself]
  | some t =>
    have hloop : abis.resolveType type =
        abis.resolveLoop type abis.typedefs.entries.length t := by rw [resolveType, htype]
    have hcases : abis.resolveType type = type ∨
        abis.typedefs.find (abis.resolveType type) = none := by
      rw [hloop]
      exact resolveLoop_cases type _ t
    rcases hcases with h | h
    · rw [h, h]
    · rw [resolveType, h]

theorem binaryToVariant_resolveType (m : Nat) (type : TypeName) :
    abis.binaryToVariant env m (abis.resolveType type) = abis.binaryToVariant env m type := by
  funext stream
  cases m with
  | zero => rfl
  | succ m => rw [binaryToVariant, binaryToVariant, resolveType_resolveType]

/-! ## Kinds of types -/

/-- A struct has a field, or one of its bases has. -/
inductive HasField (abis : AbiSerializer) : TypeName → FieldName → Prop
  | own {type st field} : abis.structs.find type = some st → field ∈ st.fields →
      HasField abis type field.name
  | base {type st name} : abis.structs.find type = some st → st.base ≠ [] →
      HasField abis (abis.resolveType st.base) name → HasField abis type name

/-- **An ABI that says one thing**: no name of a struct or a variant is of another kind of type, a
name of a field is a C string, and no two fields of a struct and its bases have the same name. -/
structure Regular (abis : AbiSerializer) : Prop where
  structs : ∀ {name st}, abis.structs.find name = some st →
    abis.builtInTypes (fundamentalType name) = none ∧ isArray name = false ∧
      isOptional name = false ∧ abis.variants.find name = none
  variants : ∀ {name v}, abis.variants.find name = some v → isOptional name = false
  names : ∀ {name st}, abis.structs.find name = some st → ∀ field ∈ st.fields, '\x00' ∉ field.name
  nodup : ∀ {name st}, abis.structs.find name = some st → (st.fields.map FieldDef.name).Nodup
  fresh : ∀ {name st}, abis.structs.find name = some st → st.base ≠ [] → ∀ field ∈ st.fields,
    ¬ abis.HasField (abis.resolveType st.base) field.name

/-- The type is an array of a type that is not built in. -/
structure IsArrayType (abis : AbiSerializer) (type : TypeName) : Prop where
  builtIn : abis.builtInTypes (fundamentalType (abis.resolveType type)) = none
  array : isArray (abis.resolveType type) = true

/-- The type is a variant. -/
structure IsVariant (abis : AbiSerializer) (type : TypeName) (d : VariantDef) : Prop where
  builtIn : abis.builtInTypes (fundamentalType (abis.resolveType type)) = none
  array : isArray (abis.resolveType type) = false
  optional : isOptional (abis.resolveType type) = false
  variant : abis.variants.find (abis.resolveType type) = some d

/-- The type is a struct. -/
structure IsStruct (abis : AbiSerializer) (type : TypeName) (st : StructDef) : Prop where
  builtIn : abis.builtInTypes (fundamentalType (abis.resolveType type)) = none
  array : isArray (abis.resolveType type) = false
  optional : isOptional (abis.resolveType type) = false
  variant : abis.variants.find (abis.resolveType type) = none
  struct : abis.structs.find (abis.resolveType type) = some st

variable {st : StructDef}

theorem Regular.isStruct (h : abis.Regular) {type : TypeName}
    (hst : abis.structs.find (abis.resolveType type) = some st) : abis.IsStruct type st := by
  obtain ⟨hbuiltIn, harray, hoptional, hvariant⟩ := h.structs hst
  exact ⟨hbuiltIn, harray, hoptional, hvariant, hst⟩

variable {d : VariantDef} {t : BuiltIn}

section Equations

variable {room : Nat} {atEnd : Bool} {type : TypeName} {v : Variant} {stream : Bytes}

theorem variantToBinary_builtIn
    (h : abis.builtInTypes (fundamentalType (abis.resolveType type)) = some t) :
    abis.variantToBinary env (room + 1) atEnd type v =
      t.pack v (isArray (abis.resolveType type)) (isOptional (abis.resolveType type)) := by
  simp only [variantToBinary, h]

theorem binaryToVariant_builtIn
    (h : abis.builtInTypes (fundamentalType (abis.resolveType type)) = some t) :
    abis.binaryToVariant env (room + 1) type stream = rethrowUnpack
        (t.unpack stream (isArray (abis.resolveType type)) (isOptional (abis.resolveType type)))
        "Unable to unpack ${class} type '${type}' while processing '${p}'" := by
  simp only [binaryToVariant, h]

theorem variantToBinary_array (h : abis.IsArrayType type) :
    abis.variantToBinary env (room + 1) atEnd type v = (do
      let vars ← v.getArray
      let items ← vars.mapM
        (abis.variantToBinary env room false (fundamentalType (abis.resolveType type)))
      pure (env.packSize (UInt32.ofNat vars.length) ++ items.flatten)) := by
  simp only [variantToBinary, h.builtIn, h.array, if_true]

theorem binaryToVariant_array (h : abis.IsArrayType type) :
    abis.binaryToVariant env (room + 1) type stream = (do
      let (size, stream) ← rethrowUnpack (env.unpackSize stream)
        "Unable to unpack size of array '${p}'"
      let (vars, stream) ← unpackArray
        (abis.binaryToVariant env room (fundamentalType (abis.resolveType type))) size.toNat stream
      eosAssert (vars.length = size.toNat) .unpackException
        ("packed size does not match unpacked array size, packed size ${p} actual size ${a}")
      pure (.array vars, stream)) := by
  simp only [binaryToVariant, h.builtIn, h.array, if_true]

theorem variantToBinary_variant (h : abis.IsVariant type d) :
    abis.variantToBinary env (room + 1) atEnd type v = (do
      let (t, value) ← selectAlternative d.types v
      let bytes ← abis.variantToBinary env room atEnd t value
      pure (env.packSize (UInt32.ofNat (d.types.idxOf t)) ++ bytes)) := by
  simp only [variantToBinary, h.builtIn, h.array, h.variant, Bool.false_eq_true, if_false]

theorem binaryToVariant_variant (h : abis.IsVariant type d) :
    abis.binaryToVariant env (room + 1) type stream = (do
      let (select, stream) ← rethrowUnpack (env.unpackSize stream)
        "Unable to unpack tag of variant '${p}'"
      match d.types[select.toNat]? with
      | none => .error ⟨.unpackException, "Unpacked invalid tag (${select}) for variant '${p}'"⟩
      | some t => do
        let (value, stream) ← abis.binaryToVariant env room t stream
        pure (.array [.string t, value], stream)) := by
  -- What is left, if anything, are two spellings of the same `match`.
  simp only [binaryToVariant, h.builtIn, h.array, h.optional, h.variant, Bool.false_eq_true,
    if_false] <;> rfl

theorem variantToBinary_object (h : abis.IsStruct type st) (vo : VariantObject) :
    abis.variantToBinary env (room + 1) atEnd type (.object vo) = (do
      let base ←
        (if st.base ≠ [] then
          abis.variantToBinary env room false (abis.resolveType st.base) (.object vo)
          else pure [])
      let own ← packObject (abis.variantToBinary env room) atEnd vo false st.fields
      pure (base ++ own)) := by
  simp only [variantToBinary, h.builtIn, h.array, h.variant, h.struct, Bool.false_eq_true, if_false]

/-- A struct is packed from an object, or from an array if it has no base. -/
theorem variantToBinary_struct (h : abis.IsStruct type st)
    (hv : abis.variantToBinary env (room + 1) atEnd type v = .ok b) :
    (∃ vo, v = .object vo) ∨ ∃ va, v = .array va ∧ st.base = [] ∧
      packArray (abis.variantToBinary env room) atEnd st.fields va = .ok b := by
  simp only [variantToBinary, h.builtIn, h.array, h.variant, h.struct, Bool.false_eq_true,
    if_false] at hv
  cases v with
  | object vo => exact .inl ⟨vo, rfl⟩
  | array va => exact .inr ⟨va, rfl, assert_bind_eq_ok.mp hv⟩
  | null | int64 | uint64 | double | bool | string | blob => simp at hv

theorem binaryToVariant_struct (h : abis.IsStruct type st) :
    abis.binaryToVariant env (room + 1) type stream = (do
      let (mvo, stream) ← abis.binaryToStruct env room (abis.resolveType type) stream []
      eosAssert (mvo.length > 0) .unpackException "Unable to unpack '${p}' from stream"
      pure (.object mvo, stream)) := by
  simp only [binaryToVariant, h.builtIn, h.array, h.optional, h.variant, Bool.false_eq_true,
    if_false]

end Equations

/-! ## Fields -/

/-- The fields of a struct that are there, with their values, and the bytes of these. Only
extensions are left out, and only at the end. -/
inductive FieldsAgree (agree : Bool → TypeName → Variant → Bytes → Prop) (atEnd : Bool) :
    List FieldDef → VariantObject → Bytes → Prop
  | done {fields} : (∀ f ∈ fields, isExtension f.type = true) → fields = [] ∨ atEnd = true →
      FieldsAgree agree atEnd fields [] []
  | field {field fields v bytes l rest} :
      agree (atEnd && fields.isEmpty) (removeBinExtension field.type) v bytes →
      FieldsAgree agree atEnd fields l rest →
      FieldsAgree agree atEnd (field :: fields) ((field.name, v) :: l) (bytes ++ rest)

section Fields

variable {agree : Bool → TypeName → Variant → Bytes → Prop} {atEnd : Bool} {l : VariantObject}

theorem FieldsAgree.eq_nil (h : FieldsAgree agree atEnd [] l b) : b = [] := by
  cases h
  rfl

theorem FieldsAgree.sublist (h : FieldsAgree agree atEnd fields l b) :
    (l.map Prod.fst).Sublist (fields.map FieldDef.name) := by
  induction h with
  | done => exact nil_sublist _
  | field _ _ ih => exact ih.cons_cons _

theorem FieldsAgree.ne_nil (hagree : ∀ {e t v b}, agree e t v b → b ≠ [])
    (h : FieldsAgree agree atEnd fields l b) (hl : l ≠ []) : b ≠ [] := by
  cases h with
  | done => exact absurd rfl hl
  | field hv _ => simp [hagree hv]

variable {pack : Bool → TypeName → Variant → Except FcException Bytes}

theorem packObject_omitted {vo : VariantObject} : ∀ {fields : List FieldDef} {disallow : Bool},
    (∀ f ∈ fields, isExtension f.type = true) → fields = [] ∨ atEnd = true →
      (∀ f ∈ fields, find vo (cStr f.name) = none) →
        packObject pack atEnd vo disallow fields = .ok []
  | [], _, _, _, _ => rfl
  | f :: fields, disallow, hextension, hend, hnone => by
    have hend' : atEnd = true := hend.resolve_left (by simp)
    have hmissing : contains vo (cStr f.name) = false := by
      rw [contains, hnone f (mem_cons_self ..)]
      rfl
    have homitted : (isExtension f.type && atEnd) = true := by
      rw [hextension f (mem_cons_self ..), hend', Bool.and_self]
    rw [packObject, hmissing, if_neg (by simp), if_pos homitted]
    exact packObject_omitted (fun g hg => hextension g (mem_cons_of_mem f hg)) (.inr hend')
      fun g hg => hnone g (mem_cons_of_mem f hg)

/-- **Packing the fields** of an object that has them and not the others. -/
theorem FieldsAgree.packObject (hpack : ∀ {e t v b}, agree e t v b → pack e t v = .ok b)
    {vo : VariantObject} (h : FieldsAgree agree atEnd fields l b)
    (hnames : ∀ f ∈ fields, '\x00' ∉ f.name) (hnodup : (fields.map FieldDef.name).Nodup)
    (hfound : ∀ e ∈ l, find vo e.1 = some e.2)
    (hmissing : ∀ f ∈ fields, f.name ∉ l.map Prod.fst → find vo f.name = none) :
    packObject pack atEnd vo false fields = .ok b := by
  induction h with
  | done hextension hend =>
    refine packObject_omitted hextension hend fun f hf => ?_
    rw [cStr_of_notMem (hnames f hf)]
    exact hmissing f hf (by simp)
  | @field field fields v bytes l rest hv _ ih =>
    rw [map_cons, nodup_cons] at hnodup
    have hfind : find vo field.name = some v :=
      hfound (field.name, v) (mem_cons_self ..)
    have hrest : AbiSerializer.packObject pack atEnd vo false fields = .ok rest := by
      refine ih (fun f hf => hnames f (mem_cons_of_mem _ hf)) hnodup.2
        (fun e he => hfound e (mem_cons_of_mem _ he)) fun f hf hl => ?_
      refine hmissing f (mem_cons_of_mem _ hf) ?_
      rw [map_cons, mem_cons, not_or]
      refine ⟨fun heq => hnodup.1 ?_, hl⟩
      rw [← show f.name = field.name from heq]
      exact mem_map_of_mem hf
    have hcontains : contains vo field.name = true :=
      contains_iff.mpr ⟨v, hfind⟩
    have hget : VariantObject.get vo field.name = .ok v := by rw [VariantObject.get, hfind]
    rw [AbiSerializer.packObject, cStr_of_notMem (hnames field (mem_cons_self ..)), hcontains,
      if_pos rfl, if_neg (by simp), hget, ok_bind, hpack hv, ok_bind, hrest]
    rfl

variable {unpack : TypeName → Bytes → Except FcException (Variant × Bytes)}

theorem unpackFields_omitted {obj : VariantObject} : ∀ {fields : List FieldDef} {extension : Bool},
    (∀ f ∈ fields, isExtension f.type = true) →
      abis.unpackFields unpack extension fields [] obj = .ok (obj, [])
  | [], _, _ => rfl
  | f :: fields, _, hextension => by
    rw [unpackFields, if_pos rfl, if_pos (hextension f (mem_cons_self ..))]
    exact unpackFields_omitted fun g hg => hextension g (mem_cons_of_mem f hg)

/-- **Unpacking the fields** gives their values to an object without them. -/
theorem FieldsAgree.unpackFields
    (hunpack : ∀ {e t v b}, agree e t v b → b ≠ [] ∧ ∀ rest, (e = true → rest = []) →
      unpack (abis.resolveType t) (b ++ rest) = .ok (v, rest))
    (h : FieldsAgree agree atEnd fields l b) (hnodup : (fields.map FieldDef.name).Nodup)
    {rest : Bytes} (hrest : atEnd = true → rest = []) :
    ∀ {obj : VariantObject} {extension : Bool}, (∀ f ∈ fields, find obj f.name = none) →
        abis.unpackFields unpack extension fields (b ++ rest) obj = .ok (obj ++ l, rest) := by
  induction h with
  | done hextension hend =>
    intro obj extension _
    rw [nil_append, append_nil]
    rcases hend with rfl | hend
    · rfl
    · rw [hrest hend]
      exact unpackFields_omitted hextension
  | @field field fields v bytes l more hv htail ih =>
    intro obj extension hobj
    rw [map_cons, nodup_cons] at hnodup
    obtain ⟨hne, hread⟩ := hunpack hv
    have hnone := hobj field (mem_cons_self ..)
    have hstream : bytes ++ more ++ rest ≠ [] := by simp [hne]
    have htype : (if isExtension field.type = true then removeBinExtension field.type
        else field.type) = removeBinExtension field.type := by
      by_cases hext : isExtension field.type = true
      · rw [if_pos hext]
      · rw [if_neg hext, removeBinExtension, if_neg hext]
    have hmore : (atEnd && fields.isEmpty) = true → more ++ rest = [] := by
      intro hend
      rw [Bool.and_eq_true, List.isEmpty_iff] at hend
      obtain ⟨hend, rfl⟩ := hend
      rw [htail.eq_nil, hrest hend]
      rfl
    rw [AbiSerializer.unpackFields, if_neg hstream]
    dsimp only
    rw [htype, append_assoc, hread _ hmore, ok_bind]
    rw [set_of_find_eq_none hnone, ih hnodup.2, append_assoc]
    · rfl
    · intro f hf
      rw [find_append, hobj f (mem_cons_of_mem _ hf), Option.none_or]
      refine find_eq_none.mpr ?_
      rw [map_singleton, mem_singleton]
      intro heq
      refine hnodup.1 ?_
      rw [← show f.name = field.name from heq]
      exact mem_map_of_mem hf

end Fields

/-! ## Values -/

/-- **A value and its bytes**: `n` scopes to pack it, `m` scopes to unpack it. At the end nothing
follows. -/
structure Agrees (abis : AbiSerializer) (env : AbiEnv) (n m : Nat) (atEnd : Bool) (type : TypeName)
    (v : Variant) (b : Bytes) : Prop where
  pack : abis.variantToBinary env n atEnd type v = .ok b
  unpack : ∀ rest, (atEnd = true → rest = []) →
    abis.binaryToVariant env m type (b ++ rest) = .ok (v, rest)
  ne_nil : b ≠ []

/-- An object has some fields of a struct and its bases, and not the others. -/
structure Holds (abis : AbiSerializer) (type : TypeName) (vo l : VariantObject) : Prop where
  found : ∀ e ∈ l, find vo e.1 = some e.2
  missing : ∀ k, abis.HasField type k → k ∉ l.map Prod.fst → find vo k = none

/-- The fields of a struct and its bases, and their bytes. -/
structure StructAgrees (abis : AbiSerializer) (env : AbiEnv) (n m : Nat) (atEnd : Bool)
    (type : TypeName) (l : VariantObject) (b : Bytes) : Prop where
  pack : ∀ vo, abis.Holds (abis.resolveType type) vo l →
    abis.variantToBinary env n atEnd type (.object vo) = .ok b
  unpack : ∀ rest obj, (atEnd = true → rest = []) →
    (∀ k, abis.HasField (abis.resolveType type) k → find obj k = none) →
      abis.binaryToStruct env m (abis.resolveType type) (b ++ rest) obj = .ok (obj ++ l, rest)
  keys : ∀ k ∈ l.map Prod.fst, abis.HasField (abis.resolveType type) k
  nodup : (l.map Prod.fst).Nodup
  ne_nil : l ≠ [] → b ≠ []

section Values

variable {n m : Nat} {atEnd : Bool} {type : TypeName}

theorem Agrees.builtIn
    (ht : abis.builtInTypes (fundamentalType (abis.resolveType type)) = some t) {v : Variant}
    (h : t.Canonical (isArray (abis.resolveType type)) (isOptional (abis.resolveType type)) v b) :
    abis.Agrees env (n + 1) (m + 1) atEnd type v b where
  pack := by rw [variantToBinary_builtIn ht, h.pack]
  unpack := by
    intro rest _
    rw [binaryToVariant_builtIn ht, h.unpack]
    rfl
  ne_nil := h.ne_nil

theorem unpackArray_eq_ok {unpack : Bytes → Except FcException (Variant × Bytes)} {rest : Bytes} :
    ∀ {vars : List Variant} {items : List Bytes},
      List.Forall₂ (fun v b => ∀ rest, unpack (b ++ rest) = .ok (v, rest)) vars items →
        (∀ v ∈ vars, v.isNull = false) →
          unpackArray unpack vars.length (items.flatten ++ rest) = .ok (vars, rest)
  | [], _, .nil, _ => rfl
  | v :: vars, b :: items, .cons hv htail, hnull => by
    have hrest : unpackArray unpack vars.length (items.flatten ++ rest) = .ok (vars, rest) :=
      unpackArray_eq_ok htail fun w hw => hnull w (mem_cons_of_mem v hw)
    rw [length_cons, unpackArray, flatten_cons, append_assoc, hv, ok_bind]
    refine assert_bind_eq_ok.mpr ⟨hnull v (mem_cons_self ..), ?_⟩
    rw [hrest]
    rfl

theorem mapM_eq_ok {ε α β : Type} {f : α → Except ε β} : ∀ {xs : List α} {ys : List β},
    xs.mapM f = .ok ys ↔ List.Forall₂ (fun x y => f x = .ok y) xs ys
  | [], ys => by
    rw [mapM_nil, forall₂_nil_left_iff]
    exact ⟨fun h => (Except.ok.inj h).symm, fun h => congrArg Except.ok h.symm⟩
  | x :: xs, ys => by
    rw [mapM_cons, bind_eq_ok]
    constructor
    · rintro ⟨y, hy, h⟩
      obtain ⟨ys, hys, h⟩ := bind_eq_ok.mp h
      obtain rfl := Except.ok.inj h
      exact .cons hy (mapM_eq_ok.mp hys)
    · rintro (_ | ⟨hy, hys⟩)
      exact ⟨_, hy, bind_eq_ok.mpr ⟨_, mapM_eq_ok.mpr hys, rfl⟩⟩

theorem Agrees.array (henv : env.Exact) (ht : abis.IsArrayType type) {vars : List Variant}
    {items : List Bytes} (h : List.Forall₂
      (abis.Agrees env n m false (fundamentalType (abis.resolveType type))) vars items)
    (hnull : ∀ v ∈ vars, v.isNull = false) (hsize : vars.length < 2 ^ 32) :
    abis.Agrees env (n + 1) (m + 1) atEnd type (.array vars)
      (env.packSize (UInt32.ofNat vars.length) ++ items.flatten) where
  pack := by
    have hitems : vars.mapM (abis.variantToBinary env n false
        (fundamentalType (abis.resolveType type))) = .ok items :=
      mapM_eq_ok.mpr (h.imp fun _ _ hv => hv.pack)
    rw [variantToBinary_array ht, Variant.getArray, ok_bind, hitems, ok_bind]
    rfl
  unpack := by
    intro rest _
    have hitems : unpackArray
        (abis.binaryToVariant env m (fundamentalType (abis.resolveType type))) vars.length
          (items.flatten ++ rest) = .ok (vars, rest) :=
      unpackArray_eq_ok (h.imp fun _ _ hv rest => hv.unpack rest (by simp)) hnull
    have hcount : (UInt32.ofNat vars.length).toNat = vars.length := UInt32.toNat_ofNat_of_lt' hsize
    rw [binaryToVariant_array ht, append_assoc, henv.unpackSize]
    show (unpackArray _ (UInt32.ofNat vars.length).toNat _ >>= _) = _
    rw [hcount, hitems]
    exact assert_bind_eq_ok.mpr ⟨rfl, rfl⟩
  ne_nil := by simp [henv.ne_nil]

theorem Agrees.alternative (henv : env.Exact) (hd : abis.IsVariant type d)
    {t : TypeName} (ht : t ∈ d.types) (hlt : d.types.idxOf t < 2 ^ 32) {v : Variant}
    (h : abis.Agrees env n m atEnd t v b) :
    abis.Agrees env (n + 1) (m + 1) atEnd type (.array [.string t, v])
      (env.packSize (UInt32.ofNat (d.types.idxOf t)) ++ b) where
  pack := by
    have hselect : selectAlternative d.types (.array [.string t, v]) = .ok (t, v) := if_pos ht
    rw [variantToBinary_variant hd, hselect, ok_bind]
    dsimp only
    rw [h.pack]
    rfl
  unpack := by
    intro rest hrest
    have hselect : d.types[(UInt32.ofNat (d.types.idxOf t)).toNat]? = some t := by
      rw [UInt32.toNat_ofNat_of_lt' hlt]
      exact getElem?_idxOf ht
    rw [binaryToVariant_variant hd, append_assoc, henv.unpackSize]
    show (match d.types[(UInt32.ofNat (d.types.idxOf t)).toNat]? with | none => _ | some t => _) = _
    rw [hselect]
    dsimp only
    rw [h.unpack rest hrest]
    rfl
  ne_nil := by simp [henv.ne_nil]

/-- What the bases of a struct add: nothing, or the fields of the base. -/
def BaseAgrees (abis : AbiSerializer) (env : AbiEnv) (n m : Nat) (st : StructDef)
    (l : VariantObject) (b : Bytes) : Prop :=
  (st.base = [] ∧ l = [] ∧ b = []) ∨
    (st.base ≠ [] ∧ abis.StructAgrees env n m false (abis.resolveType st.base) l b)

section Bases

variable {st : StructDef} {l0 l1 : VariantObject} {b0 b1 : Bytes}

theorem BaseAgrees.keys (h : abis.BaseAgrees env n m st l0 b0) {k : FieldName}
    (hk : k ∈ l0.map Prod.fst) :
    st.base ≠ [] ∧ abis.HasField (abis.resolveType st.base) k := by
  rcases h with ⟨_, rfl, _⟩ | ⟨hbase, h⟩
  · simp at hk
  · have hfield := h.keys k hk
    rw [resolveType_resolveType] at hfield
    exact ⟨hbase, hfield⟩

theorem BaseAgrees.disjoint (h : abis.BaseAgrees env n m st l0 b0) (hreg : abis.Regular)
    (hst : abis.structs.find name = some st) {field : FieldDef} (hfield : field ∈ st.fields) :
    field.name ∉ l0.map Prod.fst := by
  intro hk
  obtain ⟨hbase, hhas⟩ := h.keys hk
  exact hreg.fresh hst hbase field hfield hhas

theorem Holds.base (hreg : abis.Regular) {vo : VariantObject}
    (hst : abis.structs.find name = some st) (hbase : st.base ≠ [])
    (hsub : ∀ k ∈ l1.map Prod.fst, ∃ f ∈ st.fields, f.name = k) (h : abis.Holds name vo (l0 ++ l1)) :
    abis.Holds (abis.resolveType st.base) vo l0 where
  found := fun e he => h.found e (mem_append_left _ he)
  missing := by
    intro k hk hnot
    refine h.missing k (.base hst hbase hk) ?_
    rw [map_append, mem_append, not_or]
    refine ⟨hnot, fun hk1 => ?_⟩
    obtain ⟨f, hf, rfl⟩ := hsub k hk1
    exact hreg.fresh hst hbase f hf hk

theorem BaseAgrees.pack (h : abis.BaseAgrees env n m st l0 b0) (hreg : abis.Regular)
    {vo : VariantObject} (hst : abis.structs.find name = some st)
    (hsub : ∀ k ∈ l1.map Prod.fst, ∃ f ∈ st.fields, f.name = k)
    (hvo : abis.Holds name vo (l0 ++ l1)) :
    (if st.base ≠ [] then
      abis.variantToBinary env n false (abis.resolveType st.base) (.object vo) else pure []) =
        .ok b0 := by
  rcases h with ⟨hbase, _, rfl⟩ | ⟨hbase, h⟩
  · rw [if_neg (by simpa using hbase)]
    rfl
  · rw [if_pos hbase]
    refine h.pack vo ?_
    rw [resolveType_resolveType]
    exact hvo.base hreg hst hbase hsub

theorem BaseAgrees.unpack (h : abis.BaseAgrees env n m st l0 b0) {obj : VariantObject}
    (hst : abis.structs.find name = some st)
    (hobj : ∀ k, abis.HasField name k → find obj k = none) (rest : Bytes) :
    (if st.base ≠ [] then
      abis.binaryToStruct env m (abis.resolveType st.base) (b0 ++ rest) obj
      else pure (obj, b0 ++ rest)) = .ok (obj ++ l0, rest) := by
  rcases h with ⟨hbase, rfl, rfl⟩ | ⟨hbase, h⟩
  · rw [if_neg (by simpa using hbase), append_nil]
    rfl
  · have hread := h.unpack rest obj (by simp)
    rw [resolveType_resolveType] at hread
    rw [if_pos hbase]
    exact hread fun k hk => hobj k (.base hst hbase hk)

/-- **A struct**: the fields of its base, and its own. -/
theorem StructAgrees.struct (hreg : abis.Regular) (hst : abis.IsStruct type st)
    (hbase : abis.BaseAgrees env n m st l0 b0)
    (hown : FieldsAgree (abis.Agrees env n m) atEnd st.fields l1 b1) :
    abis.StructAgrees env (n + 1) (m + 1) atEnd type (l0 ++ l1) (b0 ++ b1) := by
  have hsub : ∀ k ∈ l1.map Prod.fst, ∃ f ∈ st.fields, f.name = k := fun k hk =>
    mem_map.mp (hown.sublist.subset hk)
  have hdisjoint : ∀ k ∈ l0.map Prod.fst, k ∉ l1.map Prod.fst := by
    intro k hk0 hk1
    obtain ⟨f, hf, rfl⟩ := hsub k hk1
    exact hbase.disjoint hreg hst.struct hf hk0
  refine ⟨fun vo hvo => ?_, fun rest obj hrest hobj => ?_, fun k hk => ?_, ?_, fun hl => ?_⟩
  · have hfields : packObject (abis.variantToBinary env n) atEnd vo false st.fields = .ok b1 := by
      refine hown.packObject (fun h => h.pack) (hreg.names hst.struct) (hreg.nodup hst.struct)
        (fun e he => hvo.found e (mem_append_right _ he)) fun f hf hnot => ?_
      refine hvo.missing f.name (.own hst.struct hf) ?_
      rw [map_append, mem_append, not_or]
      exact ⟨hbase.disjoint hreg hst.struct hf, hnot⟩
    rw [variantToBinary_object hst, hbase.pack hreg hst.struct hsub hvo, ok_bind, hfields]
    rfl
  · rw [binaryToStruct, hst.struct]
    dsimp only
    rw [append_assoc, hbase.unpack hst.struct hobj (b1 ++ rest), ok_bind]
    rw [hown.unpackFields (fun h => ⟨h.ne_nil, fun rest hrest => ?_⟩) (hreg.nodup hst.struct) hrest,
      append_assoc]
    · intro f hf
      rw [find_append, hobj f.name (.own hst.struct hf), Option.none_or]
      exact find_eq_none.mpr (hbase.disjoint hreg hst.struct hf)
    · rw [binaryToVariant_resolveType]
      exact h.unpack rest hrest
  · rw [map_append, mem_append] at hk
    rcases hk with hk | hk
    · obtain ⟨hne, hhas⟩ := hbase.keys hk
      exact .base hst.struct hne hhas
    · obtain ⟨f, hf, rfl⟩ := hsub k hk
      exact .own hst.struct hf
  · rw [map_append, nodup_append']
    refine ⟨?_, hown.sublist.nodup (hreg.nodup hst.struct), fun k hk0 hk1 => hdisjoint k hk0 hk1⟩
    rcases hbase with ⟨_, rfl, _⟩ | ⟨_, h⟩
    · exact nodup_nil
    · exact h.nodup
  · by_cases hl1 : l1 = []
    · subst hl1
      rw [append_nil] at hl
      rcases hbase with ⟨_, hnil, _⟩ | ⟨_, h⟩
      · exact absurd hnil hl
      · simp [h.ne_nil hl]
    · simp [hown.ne_nil (fun h => h.ne_nil) hl1]

/-- The object of the fields of a struct, if there are any. -/
theorem Agrees.struct (hst : abis.IsStruct type st)
    (h : abis.StructAgrees env n m atEnd type l0 b0) (hl : l0 ≠ []) :
    abis.Agrees env n (m + 1) atEnd type (.object l0) b0 where
  pack := by
    refine h.pack l0 ⟨fun e he => find_of_mem h.nodup he, fun k _ hk => ?_⟩
    exact find_eq_none.mpr hk
  unpack := by
    intro rest hrest
    have hread := h.unpack rest [] hrest fun _ _ => rfl
    rw [binaryToVariant_struct hst, hread, ok_bind]
    exact assert_bind_eq_ok.mpr ⟨length_pos_iff.mpr hl, rfl⟩
  ne_nil := h.ne_nil hl

end Bases

end Values

end AbiSerializer

end Forceio.Chain
