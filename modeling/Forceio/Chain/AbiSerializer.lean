import Forceio.Chain.Transaction
import Forceio.Lib.Chase
import Mathlib.Data.Char

/-!
# The ABI serializer: `abi_def.hpp`, `abi_serializer.hpp`, `abi_serializer.cpp`

`set_abi` with `validate`, `is_type`, and the two traversals `binary_to_variant` and
`variant_to_binary`.

* A `string` is the list of its characters.
* `enter_scope` counts the scopes that are open and throws at `max_recursion_depth`. Here the
  traversals recurse on the number of scopes that may still be opened, `room`: they are total, and
  they throw exactly when the counter would.
* A `datastream` that is read is the bytes that remain, and one that is written is the bytes
  written; the size of the buffer is compared with all of them at the end.
* `pack_unpack<T>` of the built-in types, the packing of `unsigned_int` and `variant::as<bytes>` are
  of `fc`. The built-in types are a map, as `add_specialized_unpack_pack` can add to it.
* The deadline is never reached. The path that is printed in errors is left out, and so are the
  ricardian clauses and the index types of tables.
-/

namespace Forceio.Chain

open Forceio.Lib

/-- `type_name`. -/
abbrev TypeName := List Char

/-- `field_name`. -/
abbrev FieldName := List Char

/-! ## `fc::variant` -/

/-- `fc::variant`. -/
inductive Variant
  | null
  | int64 (x : Int)
  | uint64 (x : Nat)
  | double (bits : UInt64)
  | bool (x : Bool)
  | string (s : List Char)
  | array (xs : List Variant)
  | object (entries : List (FieldName × Variant))
  | blob (bytes : Bytes)

/-- The entries of a `variant_object`. -/
abbrev VariantObject := List (FieldName × Variant)

/-- `is_null`. -/
def Variant.isNull : Variant → Bool
  | .null => true
  | _ => false

/-- `get_array`. -/
def Variant.getArray : Variant → Except FcException (List Variant)
  | .array xs => .ok xs
  | _ => .error ⟨.badCastException, "Invalid cast from type '${type}' to Array"⟩

namespace VariantObject

/-- `find`. -/
def find (vo : VariantObject) (key : FieldName) : Option Variant :=
  (List.find? (fun e => e.1 = key) vo).map Prod.snd

/-- `contains`. -/
def contains (vo : VariantObject) (key : FieldName) : Bool := (find vo key).isSome

/-- `operator[]`. -/
def get (vo : VariantObject) (key : FieldName) : Except FcException Variant :=
  match find vo key with
  | some v => .ok v
  | none => .error ⟨.keyNotFoundException, "Key ${key}"⟩

/-- `mutable_variant_object::operator()`: the value of a key that is there is replaced. -/
def set (vo : VariantObject) (key : FieldName) (v : Variant) : VariantObject :=
  if contains vo key then List.map (fun e => if e.1 = key then (key, v) else e) vo
  else vo ++ [(key, v)]

end VariantObject

/-- `c_str`: a string up to its first null character. -/
def cStr (s : List Char) : List Char := s.takeWhile (· ≠ '\x00')

/-! ## `abi_def` -/

/-- `type_def`. -/
structure TypeDef where
  newTypeName : TypeName
  type : TypeName

/-- `field_def`. -/
structure FieldDef where
  name : FieldName
  type : TypeName

/-- `struct_def`. -/
structure StructDef where
  name : TypeName
  base : TypeName := []
  fields : List FieldDef := []

/-- `action_def`. -/
structure ActionDef where
  name : AccountName
  type : TypeName

/-- `table_def`. -/
structure TableDef where
  name : AccountName
  type : TypeName

/-- `error_message`. -/
structure ErrorMessage where
  errorCode : UInt64
  errorMsg : List Char

/-- `variant_def`. -/
structure VariantDef where
  name : TypeName
  types : List TypeName

/-- `abi_def`. -/
structure AbiDef where
  version : List Char
  types : List TypeDef := []
  structs : List StructDef := []
  actions : List ActionDef := []
  tables : List TableDef := []
  errorMessages : List ErrorMessage := []
  variants : List VariantDef := []

/-- `pack_unpack<T>`: unpacking gives what remains. The flags are `is_array` and `is_optional`. -/
structure BuiltIn where
  unpack : Bytes → Bool → Bool → Except FcException (Variant × Bytes)
  pack : Variant → Bool → Bool → Except FcException Bytes

/-- What the serializer uses of `fc`. -/
structure AbiEnv where
  packSize : UInt32 → Bytes
  unpackSize : Bytes → Except FcException (UInt32 × Bytes)
  asBytes : Variant → Except FcException Bytes

/-- `abi_serializer`. -/
structure AbiSerializer where
  typedefs : FlatMap TypeName TypeName := .empty
  structs : FlatMap TypeName StructDef := .empty
  actions : FlatMap AccountName TypeName := .empty
  tables : FlatMap AccountName TypeName := .empty
  errorMessages : FlatMap Nat (List Char) := .empty
  variants : FlatMap TypeName VariantDef := .empty
  builtInTypes : TypeName → Option BuiltIn

namespace AbiSerializer

/-- `max_recursion_depth`. -/
def maxRecursionDepth : Nat := 32

/-- The names that `configure_built_in_types` adds. -/
def builtInNames : List String :=
  ["bool", "int8", "uint8", "int16", "uint16", "int32", "uint32", "int64", "uint64", "int128",
    "uint128", "varint32", "varuint32", "float32", "float64", "float128", "time_point",
    "time_point_sec", "block_timestamp_type", "name", "bytes", "string", "checksum160",
    "checksum256", "checksum512", "public_key", "signature", "symbol", "symbol_code", "asset",
    "extended_asset"]

/-- `configure_built_in_types`. -/
def configureBuiltInTypes (packUnpack : TypeName → BuiltIn) (type : TypeName) : Option BuiltIn :=
  if type ∈ builtInNames.map String.toList then some (packUnpack type) else none

/-! ## Names of types -/

/-- `is_array`. -/
def isArray (type : TypeName) : Bool := "[]".toList.isSuffixOf type

/-- `is_optional`. -/
def isOptional (type : TypeName) : Bool := "?".toList.isSuffixOf type

/-- `ends_with(type, "$")`. -/
def isExtension (type : TypeName) : Bool := "$".toList.isSuffixOf type

/-- `fundamental_type`. -/
def fundamentalType (type : TypeName) : TypeName :=
  if isArray type then type.take (type.length - 2)
  else if isOptional type then type.take (type.length - 1)
  else type

/-- `_remove_bin_extension`. -/
def removeBinExtension (type : TypeName) : TypeName :=
  if isExtension type then type.take (type.length - 1) else type

/-- What `enter_scope` throws. -/
def recursionDepth : FcException :=
  ⟨.abiRecursionDepthException, "recursive definition, max_recursion_depth ${r} "⟩

variable (abis : AbiSerializer)

/-- `_is_type`. -/
def isTypeIn : Nat → TypeName → Except FcException Bool
  | 0, _ => .error recursionDepth
  | room + 1, rtype =>
    let type := fundamentalType rtype
    if (abis.builtInTypes type).isSome then .ok true
    else
      match abis.typedefs.find type with
      | some t => isTypeIn room t
      | none => .ok ((abis.structs.find type).isSome || (abis.variants.find type).isSome)

/-- `is_type`. -/
def isType (type : TypeName) : Except FcException Bool :=
  abis.isTypeIn (maxRecursionDepth - 1) type

/-- The loop of `resolve_type`, with what it found last. -/
def resolveLoop (type : TypeName) : Nat → TypeName → TypeName
  | 0, _ => type
  | i + 1, t =>
    match abis.typedefs.find t with
    | none => t
    | some t' => resolveLoop type i t'

/-- `resolve_type`. -/
def resolveType (type : TypeName) : TypeName :=
  match abis.typedefs.find type with
  | some t => abis.resolveLoop type abis.typedefs.entries.length t
  | none => type

/-- `get_struct`. -/
def getStruct (type : TypeName) : Except FcException StructDef :=
  match abis.structs.find (abis.resolveType type) with
  | some st => .ok st
  | none => .error ⟨.invalidTypeInsideAbi, "Unknown struct ${type}"⟩

/-! ## `set_abi` -/

/-- A loop that does not end. -/
def endless : FcException := ⟨.undefinedBehavior, "the loop does not end"⟩

/-- `EOS_ASSERT(_is_type(type, ctx), invalid_type_inside_abi, …)`. -/
def assertType (type : TypeName) (what : String) : Except FcException Unit := do
  let known ← abis.isType type
  eosAssert (known = true) .invalidTypeInsideAbi what

/-- The typedefs a typedef stands for are not circular. -/
def checkTypedef (t : TypeName × TypeName) : Except FcException Unit :=
  chase (fun type => .ok (abis.typedefs.find type)) id
    ⟨.abiCircularDefException, "Circular reference in type ${type}"⟩ endless
    (abis.typedefs.entries.length + 1) [t.1, t.2] t.2

/-- The base of a struct, if it has one. -/
def baseOf (st : StructDef) : Except FcException (Option StructDef) :=
  if st.base ≠ [] then (abis.getStruct st.base).map some else .ok none

/-- The bases of a struct are structs and are not circular. -/
def checkBases (st : StructDef) : Except FcException Unit :=
  chase abis.baseOf StructDef.name
    ⟨.abiCircularDefException, "Circular reference in struct ${type}"⟩ endless
    (abis.structs.entries.length + 1) [st.name] st

/-- `validate`. -/
def validate : Except FcException Unit := do
  abis.typedefs.entries.forM abis.checkTypedef
  abis.typedefs.values.forM fun type => abis.assertType type "${type}"
  abis.structs.values.forM fun st => do
    abis.checkBases st
    st.fields.forM fun field => abis.assertType (removeBinExtension field.type) "${type}"
  abis.variants.values.forM fun v => v.types.forM fun type => abis.assertType type "${type}"
  abis.actions.values.forM fun type => abis.assertType type "${type}"
  abis.tables.values.forM fun type => abis.assertType type "${type}"

/-- A typedef is added. -/
def addTypedef (td : TypeDef) : Except FcException AbiSerializer := do
  abis.assertType td.type "invalid type ${type}"
  let known ← abis.isType td.newTypeName
  eosAssert (known = false) .duplicateAbiTypeDefException "type already exists"
  pure { abis with typedefs := abis.typedefs.set td.newTypeName td.type }

/-- `set_abi`. -/
def setAbi (abi : AbiDef) : Except FcException AbiSerializer := do
  eosAssert ("eosio::abi/1.".toList.isPrefixOf abi.version = true) .unsupportedAbiVersionException
    "ABI has an unsupported version"
  let cleared : AbiSerializer :=
    { builtInTypes := abis.builtInTypes
      structs := abi.structs.foldl (fun m st => m.set st.name st) .empty }
  let typed ← abi.types.foldlM addTypedef cleared
  let abis :=
    { typed with
      actions := abi.actions.foldl (fun m a => m.set a.name a.type) .empty
      tables := abi.tables.foldl (fun m t => m.set t.name t.type) .empty
      errorMessages := abi.errorMessages.foldl (fun m e => m.set e.errorCode.toNat e.errorMsg) .empty
      variants := abi.variants.foldl (fun m v => m.set v.name v) .empty }
  eosAssert (abis.typedefs.entries.length = abi.types.length) .duplicateAbiTypeDefException
    "duplicate type definition detected"
  eosAssert (abis.structs.entries.length = abi.structs.length) .duplicateAbiStructDefException
    "duplicate struct definition detected"
  eosAssert (abis.actions.entries.length = abi.actions.length) .duplicateAbiActionDefException
    "duplicate action definition detected"
  eosAssert (abis.tables.entries.length = abi.tables.length) .duplicateAbiTableDefException
    "duplicate table definition detected"
  eosAssert (abis.errorMessages.entries.length = abi.errorMessages.length)
    .duplicateAbiErrMsgDefException "duplicate error message definition detected"
  eosAssert (abis.variants.entries.length = abi.variants.length) .duplicateAbiVariantDefException
    "duplicate variant definition detected"
  abis.validate
  pure abis

/-! ## `binary_to_variant` -/

/-- The loop over the fields of a struct. `extension` is `encountered_extension`. -/
def unpackFields (unpack : TypeName → Bytes → Except FcException (Variant × Bytes)) :
    Bool → List FieldDef → Bytes → VariantObject → Except FcException (VariantObject × Bytes)
  | _, [], stream, obj => .ok (obj, stream)
  | extension, field :: fields, stream, obj =>
    if stream = [] then
      if isExtension field.type then unpackFields unpack true fields stream obj
      else if extension then
        .error ⟨.abiException, "Encountered field '${f}' without binary extension designation " ++
          "while processing struct '${p}'"⟩
      else
        .error ⟨.unpackException,
          "Stream unexpectedly ended; unable to unpack field '${f}' of struct '${p}'"⟩
    else do
      let type := if isExtension field.type then removeBinExtension field.type else field.type
      let (v, stream) ← unpack (abis.resolveType type) stream
      unpackFields unpack (extension || isExtension field.type) fields stream
        (VariantObject.set obj field.name v)

/-- The loop over the elements of an array. -/
def unpackArray (unpack : Bytes → Except FcException (Variant × Bytes)) :
    Nat → Bytes → Except FcException (List Variant × Bytes)
  | 0, stream => .ok ([], stream)
  | size + 1, stream => do
    let (v, stream) ← unpack stream
    eosAssert (v.isNull = false) .unpackException "Invalid packed array '${p}'"
    let (vars, stream) ← unpackArray unpack size stream
    pure (v :: vars, stream)

/-- `EOS_RETHROW_EXCEPTIONS( unpack_exception, … )`. -/
def rethrowUnpack {α : Type} (x : Except FcException α) (what : String) : Except FcException α :=
  match x with
  | .ok a => .ok a
  | .error _ => .error ⟨.unpackException, what⟩

/-- `fc::raw::unpack` of a `char`. -/
def unpackChar : Bytes → Except FcException (UInt8 × Bytes)
  | [] => .error ⟨.outOfRange, "datastream"⟩
  | c :: stream => .ok (c, stream)

variable (env : AbiEnv)

mutual

/-- `_binary_to_variant`. -/
def binaryToVariant : Nat → TypeName → Bytes → Except FcException (Variant × Bytes)
  | 0, _, _ => .error recursionDepth
  | room + 1, type, stream =>
    let rtype := abis.resolveType type
    let ftype := fundamentalType rtype
    match abis.builtInTypes ftype with
    | some btype =>
      rethrowUnpack (btype.unpack stream (isArray rtype) (isOptional rtype))
        "Unable to unpack ${class} type '${type}' while processing '${p}'"
    | none =>
      if isArray rtype then do
        let (size, stream) ← rethrowUnpack (env.unpackSize stream)
          "Unable to unpack size of array '${p}'"
        let (vars, stream) ← unpackArray (binaryToVariant room ftype) size.toNat stream
        eosAssert (vars.length = size.toNat) .unpackException
          ("packed size does not match unpacked array size, packed size ${p} actual size ${a}")
        pure (.array vars, stream)
      else if isOptional rtype then do
        let (flag, stream) ← rethrowUnpack (unpackChar stream)
          "Unable to unpack presence flag of optional '${p}'"
        if flag ≠ 0 then binaryToVariant room ftype stream else pure (.null, stream)
      else
        match abis.variants.find rtype with
        | some v => do
          let (select, stream) ← rethrowUnpack (env.unpackSize stream)
            "Unable to unpack tag of variant '${p}'"
          match v.types[select.toNat]? with
          | none => .error ⟨.unpackException, "Unpacked invalid tag (${select}) for variant '${p}'"⟩
          | some t => do
            let (value, stream) ← binaryToVariant room t stream
            pure (.array [.string t, value], stream)
        | none => do
          let (mvo, stream) ← binaryToStruct room rtype stream []
          eosAssert (mvo.length > 0) .unpackException "Unable to unpack '${p}' from stream"
          pure (.object mvo, stream)

/-- `_binary_to_variant` of the fields of a struct and of its bases. -/
def binaryToStruct : Nat → TypeName → Bytes → VariantObject →
    Except FcException (VariantObject × Bytes)
  | 0, _, _, _ => .error recursionDepth
  | room + 1, type, stream, obj =>
    match abis.structs.find type with
    | none => .error ⟨.invalidTypeInsideAbi, "Unknown type ${type}"⟩
    | some st => do
      let (obj, stream) ←
        (if st.base ≠ [] then binaryToStruct room (abis.resolveType st.base) stream obj
          else pure (obj, stream))
      abis.unpackFields (binaryToVariant room) false st.fields stream obj

end

/-- `binary_to_variant`: the variant, and the bytes that are not read. -/
def unpackBinary (type : TypeName) (binary : Bytes) : Except FcException (Variant × Bytes) :=
  abis.binaryToVariant env (maxRecursionDepth - 2) type binary

/-! ## `variant_to_binary` -/

/-- The loop over the fields of a struct, for an object. -/
def packObject (pack : Bool → TypeName → Variant → Except FcException Bytes)
    (allowExtensions : Bool) (vo : VariantObject) : Bool → List FieldDef → Except FcException Bytes
  | _, [] => .ok []
  | disallowAdditionalFields, field :: fields =>
    if VariantObject.contains vo (cStr field.name) then
      if disallowAdditionalFields then
        .error ⟨.packException,
          "Unexpected field '${f}' found in input object while processing struct '${p}'"⟩
      else do
        let v ← VariantObject.get vo field.name
        let bytes ← pack (allowExtensions && fields.isEmpty) (removeBinExtension field.type) v
        let rest ← packObject pack allowExtensions vo disallowAdditionalFields fields
        pure (bytes ++ rest)
    else if isExtension field.type && allowExtensions then
      packObject pack allowExtensions vo true fields
    else if disallowAdditionalFields then
      .error ⟨.abiException, "Encountered field '${f}' without binary extension designation while " ++
        "processing struct '${p}'"⟩
    else
      .error ⟨.packException, "Missing field '${f}' in input object while processing struct '${p}'"⟩

/-- The loop over the fields of a struct, for an array. -/
def packArray (pack : Bool → TypeName → Variant → Except FcException Bytes)
    (allowExtensions : Bool) : List FieldDef → List Variant → Except FcException Bytes
  | [], _ => .ok []
  | field :: fields, v :: va => do
    let bytes ← pack (allowExtensions && fields.isEmpty) (removeBinExtension field.type) v
    let rest ← packArray pack allowExtensions fields va
    pure (bytes ++ rest)
  | field :: _, [] =>
    if isExtension field.type && allowExtensions then .ok []
    else
      .error ⟨.packException, "Early end to input array specifying the fields of struct '${p}'; " ++
        "require input for field '${f}'"⟩

/-- The alternative and the value that an array of two items stands for. -/
def selectAlternative (types : List TypeName) : Variant → Except FcException (TypeName × Variant)
  | .array [tag, value] =>
    match tag with
    | .string t =>
      if t ∈ types then .ok (t, value)
      else
        .error ⟨.packException,
          "Specified type '${t}' in input array is not valid within the variant '${p}'"⟩
    | _ =>
      .error ⟨.packException,
        "Encountered non-string as first item of input array while processing variant '${p}'"⟩
  | _ =>
    .error ⟨.packException,
      "Expected input to be an array of two items while processing variant '${p}'"⟩

/-- `_variant_to_binary`. -/
def variantToBinary : Nat → Bool → TypeName → Variant → Except FcException Bytes
  | 0, _, _, _ => .error recursionDepth
  | room + 1, allowExtensions, type, var =>
    let rtype := abis.resolveType type
    match abis.builtInTypes (fundamentalType rtype) with
    | some btype => btype.pack var (isArray rtype) (isOptional rtype)
    | none =>
      if isArray rtype then do
        let vars ← var.getArray
        let items ← vars.mapM (variantToBinary room false (fundamentalType rtype))
        pure (env.packSize (UInt32.ofNat vars.length) ++ items.flatten)
      else
        match abis.variants.find rtype with
        | some v => do
          let (t, value) ← selectAlternative v.types var
          let bytes ← variantToBinary room allowExtensions t value
          pure (env.packSize (UInt32.ofNat (v.types.idxOf t)) ++ bytes)
        | none =>
          match abis.structs.find rtype with
          | some st =>
            match var with
            | .object vo => do
              let base ←
                (if st.base ≠ [] then
                  variantToBinary room false (abis.resolveType st.base) (.object vo)
                  else pure [])
              let own ← packObject (variantToBinary room) allowExtensions vo false st.fields
              pure (base ++ own)
            | .array va => do
              eosAssert (st.base = []) .invalidTypeInsideAbi
                ("Using input array to specify the fields of the derived struct '${p}'; input " ++
                  "arrays are currently only allowed for structs without a base")
              packArray (variantToBinary room) allowExtensions st.fields va
            | _ =>
              .error ⟨.packException, "Unexpected input encountered while processing struct '${p}'"⟩
          | none => .error ⟨.invalidTypeInsideAbi, "Unknown type ${type}"⟩

/-- The size of the buffer. -/
def bufferSize : Nat := 1024 * 1024

/-- `variant_to_binary`. -/
def packVariant (type : TypeName) (var : Variant) : Except FcException Bytes := do
  if (← abis.isTypeIn (maxRecursionDepth - 2) type) = false then env.asBytes var
  else do
    let bytes ← abis.variantToBinary env (maxRecursionDepth - 2) true type var
    if bytes.length ≤ bufferSize then pure bytes else .error ⟨.outOfRange, "datastream"⟩

end AbiSerializer

end Forceio.Chain
