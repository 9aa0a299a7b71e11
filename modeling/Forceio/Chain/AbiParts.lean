import Forceio.Chain.AbiCanonical
import Forceio.Lib.RecordLog

/-!
# Accepted ABIs, and the parts of a value

What `set_abi` has checked of an ABI that it accepts, and conditions on every part of a value.

* `everyPart` follows the scopes of the decoder, so that a value that has no room is refused. It is
  computed, as the conditions of the two round trips are.
* The decoder refuses a struct without any field and a null element of an array, and it opens two
  scopes for a struct: `decodable`.
* The encoder leaves out extensions only at the end, and knows no optional of a type that is not
  built in: `encodable`.

Result:
* `setAbi_ends`: the loops of `validate` end.
-/

namespace Forceio.Chain

open Forceio.Lib VariantObject LittleEndian FlatMap List

namespace AbiSerializer

variable {abis : AbiSerializer} {env : AbiEnv}

/-! ## ABIs that are accepted -/

theorem forM_ok {ε α : Type} {f : α → Except ε Unit} : ∀ {xs : List α}, xs.forM f = .ok () →
    ∀ x ∈ xs, f x = .ok ()
  | [], _ => by simp
  | x :: xs, h => by
    obtain ⟨_, hx, hxs⟩ := bind_eq_ok.mp h
    exact forall_mem_cons.mpr ⟨hx, forM_ok hxs⟩

theorem forM_fails {ε α : Type} {E : ε → Prop} {f : α → Except ε Unit} : ∀ {xs : List α},
    (∀ x ∈ xs, Exec.Fails E (f x)) → Exec.Fails E (xs.forM f)
  | [], _ => .ok ()
  | x :: _, h =>
    .bind (h x (mem_cons_self ..)) fun _ _ =>
      forM_fails fun y hy => h y (mem_cons_of_mem x hy)

/-- Nothing but a loop that does not end is `endless`. -/
def Ends (e : FcException) : Prop := e ≠ endless

theorem isTypeIn_ends : ∀ (room : Nat) (type : TypeName), Exec.Fails Ends (abis.isTypeIn room type)
  | 0, _ => .error (by simp [Ends, recursionDepth, endless])
  | room + 1, type => by
    rw [isTypeIn]
    by_cases hbuiltIn : (abis.builtInTypes (fundamentalType type)).isSome = true
    · rw [if_pos hbuiltIn]
      exact .ok _
    · rw [if_neg hbuiltIn]
      cases abis.typedefs.find (fundamentalType type) with
      | none => exact .ok _
      | some t => exact isTypeIn_ends room t

theorem assertType_ends (type : TypeName) (what : String) :
    Exec.Fails Ends (abis.assertType type what) :=
  .bind (isTypeIn_ends _ _) fun _ _ => eosAssert_fails (by simp [Ends, endless])

theorem checkTypedef_ends (t : TypeName × TypeName) : Exec.Fails Ends (abis.checkTypedef t) := by
  rintro e h rfl
  refine chase_ne_spent abis.typedefs.values.toFinset (by simp) (by simp [endless])
    (fun a b hab => ?_) ?_ h
  · exact mem_toFinset.mpr (mem_values_iff.mpr ⟨a, Except.ok.inj hab⟩)
  · refine lt_of_le_of_lt (Finset.card_le_card Finset.sdiff_subset) ?_
    refine lt_of_le_of_lt (toFinset_card_le _) ?_
    simp [values]

variable {st : StructDef}

theorem getStruct_eq_ok {type : TypeName} :
    abis.getStruct type = .ok st ↔ abis.structs.find (abis.resolveType type) = some st := by
  rw [getStruct]
  cases abis.structs.find (abis.resolveType type) <;> simp

theorem checkBases_ends (st : StructDef) : Exec.Fails Ends (abis.checkBases st) := by
  rintro e h rfl
  refine chase_ne_spent (abis.structs.values.map StructDef.name).toFinset (fun a => ?_)
    (by simp [endless]) (fun a b hab => ?_) ?_ h
  · rw [baseOf]
    by_cases hbase : a.base ≠ []
    · rw [if_pos hbase, getStruct]
      cases abis.structs.find (abis.resolveType a.base) <;> simp [Except.map, endless]
    · rw [if_neg hbase]
      simp
  · rw [baseOf] at hab
    split at hab
    · cases hget : abis.getStruct a.base with
      | error e => exact absurd (hget ▸ hab) (by simp [Except.map])
      | ok st' =>
        rw [hget] at hab
        obtain rfl : st' = b := Option.some.inj (Except.ok.inj hab)
        rw [mem_toFinset]
        exact mem_map_of_mem (mem_values_iff.mpr ⟨_, getStruct_eq_ok.mp hget⟩)
    · simp at hab
  · refine lt_of_le_of_lt (Finset.card_le_card Finset.sdiff_subset) ?_
    refine lt_of_le_of_lt (toFinset_card_le _) ?_
    simp [values]

theorem validate_ends : Exec.Fails Ends abis.validate := by
  refine .bind (forM_fails fun t _ => checkTypedef_ends t) fun _ _ => ?_
  refine .bind (forM_fails fun type _ => assertType_ends type _) fun _ _ => ?_
  refine .bind (forM_fails fun st _ => .bind (checkBases_ends st) fun _ _ =>
    forM_fails fun field _ => assertType_ends _ _) fun _ _ => ?_
  refine .bind (forM_fails fun v _ => forM_fails fun type _ => assertType_ends type _) fun _ _ => ?_
  refine .bind (forM_fails fun type _ => assertType_ends type _) fun _ _ => ?_
  exact forM_fails fun type _ => assertType_ends type _

theorem addTypedef_ends (td : TypeDef) : Exec.Fails Ends (abis.addTypedef td) :=
  .bind (assertType_ends _ _) fun _ _ => .bind (isTypeIn_ends _ _) fun _ _ =>
    .bind (eosAssert_fails (by simp [Ends, endless])) fun _ _ => .ok _

theorem addTypedefs_ends : ∀ (types : List TypeDef) (abis : AbiSerializer),
    Exec.Fails Ends (types.foldlM addTypedef abis)
  | [], abis => .ok abis
  | td :: types, abis => by
    exact .bind (addTypedef_ends td) fun abis' _ => addTypedefs_ends types abis'

/-- **`set_abi` ends**: the loops that look for circular references do not run out of steps. -/
theorem setAbi_ends (abi : AbiDef) : Exec.Fails Ends (abis.setAbi abi) := by
  have hassert : ∀ {cond : Prop} [Decidable cond] {type : ExceptionType} {what : String},
      type ≠ .undefinedBehavior → Exec.Fails Ends (eosAssert cond type what) := fun htype =>
    eosAssert_fails fun h => htype (congrArg FcException.type h)
  refine .bind (hassert (by simp)) fun _ _ => .bind (addTypedefs_ends _ _) fun _ _ => ?_
  refine .bind (hassert (by simp)) fun _ _ => .bind (hassert (by simp)) fun _ _ => ?_
  refine .bind (hassert (by simp)) fun _ _ => .bind (hassert (by simp)) fun _ _ => ?_
  refine .bind (hassert (by simp)) fun _ _ => .bind (hassert (by simp)) fun _ _ => ?_
  exact .bind validate_ends fun _ _ => .ok _

theorem setAbi_validate {base : AbiSerializer} {abi : AbiDef} (h : base.setAbi abi = .ok abis) :
    abis.validate = .ok () := by
  obtain ⟨_, h⟩ := assert_bind_eq_ok.mp h
  obtain ⟨typed, _, h⟩ := bind_eq_ok.mp h
  obtain ⟨_, h⟩ := assert_bind_eq_ok.mp h
  obtain ⟨_, h⟩ := assert_bind_eq_ok.mp h
  obtain ⟨_, h⟩ := assert_bind_eq_ok.mp h
  obtain ⟨_, h⟩ := assert_bind_eq_ok.mp h
  obtain ⟨_, h⟩ := assert_bind_eq_ok.mp h
  obtain ⟨_, h⟩ := assert_bind_eq_ok.mp h
  obtain ⟨_, hvalid, h⟩ := bind_eq_ok.mp h
  obtain rfl := Except.ok.inj h
  exact hvalid

theorem exists_base (h : abis.validate = .ok ()) {name : TypeName}
    (hst : abis.structs.find name = some st) (hbase : st.base ≠ []) :
    ∃ st', abis.structs.find (abis.resolveType st.base) = some st' := by
  obtain ⟨_, _, h⟩ := bind_eq_ok.mp h
  obtain ⟨_, _, h⟩ := bind_eq_ok.mp h
  obtain ⟨_, hstructs, _⟩ := bind_eq_ok.mp h
  have hvalue := forM_ok hstructs st (mem_values_iff.mpr ⟨name, hst⟩)
  obtain ⟨_, hbases, _⟩ := bind_eq_ok.mp hvalue
  obtain ⟨o, ho⟩ := next_eq_ok_of_chase hbases
  rw [baseOf, if_pos hbase] at ho
  cases hget : abis.getStruct st.base with
  | error e => exact absurd (hget ▸ ho) (by simp [Except.map])
  | ok st' => exact ⟨st', getStruct_eq_ok.mp hget⟩

/-- A type that is known with some scopes is known with more. -/
theorem isTypeIn_succ {known : Bool} : ∀ {room : Nat} {type : TypeName},
    abis.isTypeIn room type = .ok known → abis.isTypeIn (room + 1) type = .ok known
  | 0, _, h => absurd h (by simp [isTypeIn])
  | room + 1, type, h => by
    rw [isTypeIn] at h ⊢
    by_cases hbuiltIn : (abis.builtInTypes (fundamentalType type)).isSome = true
    · rw [if_pos hbuiltIn] at h ⊢
      exact h
    · rw [if_neg hbuiltIn] at h ⊢
      cases htypedef : abis.typedefs.find (fundamentalType type) with
      | none =>
        rw [htypedef] at h
        exact h
      | some t =>
        rw [htypedef] at h
        exact isTypeIn_succ h

/-! ## Parts of a value -/

/-- The fields of a struct that an object has. -/
def everyEntry (check : Bool → TypeName → Variant → Bool) (atEnd : Bool) (vo : VariantObject) :
    List FieldDef → Bool
  | [] => true
  | field :: fields =>
    (match find vo field.name with
      | some v => check (atEnd && fields.isEmpty) (removeBinExtension field.type) v
      | none => true) && everyEntry check atEnd vo fields

/-- The fields of a struct that an array has. -/
def everyItem (check : Bool → TypeName → Variant → Bool) (atEnd : Bool) :
    List FieldDef → List Variant → Bool
  | field :: fields, v :: vars =>
    check (atEnd && fields.isEmpty) (removeBinExtension field.type) v &&
      everyItem check atEnd fields vars
  | _, _ => true

mutual

/-- A value and its parts meet a condition, and the decoder has the scopes for them. -/
def everyPart (abis : AbiSerializer) (p : Nat → TypeName → Variant → Bool)
    (q : Bool → StructDef → Variant → Bool) : Nat → Bool → TypeName → Variant → Bool
  | 0, _, _, _ => false
  | room + 1, atEnd, type, v =>
    let rtype := abis.resolveType type
    p room rtype v &&
      match abis.builtInTypes (fundamentalType rtype) with
      | some _ => true
      | none =>
        if isArray rtype then
          match v with
          | .array vars => vars.all (everyPart abis p q room false (fundamentalType rtype))
          | _ => true
        else
          match abis.variants.find rtype with
          | some _ =>
            match v with
            | .array [.string t, value] => everyPart abis p q room atEnd t value
            | _ => true
          | none => everyField abis p q room atEnd rtype v

/-- The fields of a struct and of its bases. -/
def everyField (abis : AbiSerializer) (p : Nat → TypeName → Variant → Bool)
    (q : Bool → StructDef → Variant → Bool) : Nat → Bool → TypeName → Variant → Bool
  | 0, _, _, _ => false
  | room + 1, atEnd, type, v =>
    match abis.structs.find type with
    | none => true
    | some st =>
      q atEnd st v &&
        (decide (st.base = []) || everyField abis p q room false (abis.resolveType st.base) v) &&
        match v with
        | .object vo => everyEntry (everyPart abis p q room) atEnd vo st.fields
        | .array vars => everyItem (everyPart abis p q room) atEnd st.fields vars
        | _ => true

end

/-- The names of the fields of a struct and of its bases. -/
def fieldNames (abis : AbiSerializer) : Nat → TypeName → List FieldName
  | 0, _ => []
  | room + 1, type =>
    match abis.structs.find type with
    | none => []
    | some st =>
      (if st.base ≠ [] then fieldNames abis room (abis.resolveType st.base) else []) ++
        st.fields.map FieldDef.name

/-- Some field of a struct is there. -/
def hasField (abis : AbiSerializer) (room : Nat) (type : TypeName) : Variant → Bool
  | .object vo => (abis.fieldNames room type).any (contains vo)
  | .array vars => !vars.isEmpty && !(abis.fieldNames room type).isEmpty
  | _ => false

/-- What the decoder asks of a part of a resolved type: no null in an array of optionals, and some
field in a struct. -/
def partDecodable (abis : AbiSerializer) (room : Nat) (rtype : TypeName) (v : Variant) : Bool :=
  if (abis.builtInTypes (fundamentalType rtype)).isSome then true
  else if isArray rtype then
    match v with
    | .array vars =>
      !isOptional (abis.resolveType (fundamentalType rtype)) || vars.all fun x => !x.isNull
    | _ => true
  else if (abis.variants.find rtype).isSome then true
  else abis.hasField room rtype v

/-- **The decoder has room for a value and refuses no part of it.** -/
def decodable (abis : AbiSerializer) (room : Nat) (type : TypeName) (v : Variant) : Bool :=
  abis.everyPart abis.partDecodable (fun _ _ _ => true) room true type v

/-- What the encoder asks of a part of a resolved type: it is not an optional of a type that is not
built in. -/
def partEncodable (abis : AbiSerializer) (_ : Nat) (rtype : TypeName) (_ : Variant) : Bool :=
  (abis.builtInTypes (fundamentalType rtype)).isSome || isArray rtype || !isOptional rtype

/-- Extensions of a struct are left out only at the end. -/
def extensionsHeld (atEnd : Bool) (st : StructDef) : Variant → Bool
  | .object vo => atEnd || st.fields.all fun f =>
      !isExtension f.type || contains vo f.name
  | _ => true

/-- **The encoder knows the type of every part of a value, and extensions are left out only at the
end.** -/
def encodable (abis : AbiSerializer) (room : Nat) (type : TypeName) (v : Variant) : Bool :=
  abis.everyPart abis.partEncodable extensionsHeld room true type v

section Parts

variable {p : Nat → TypeName → Variant → Bool} {q : Bool → StructDef → Variant → Bool}
  {room : Nat} {atEnd : Bool} {type : TypeName} {v : Variant}

theorem everyPart_part (h : abis.everyPart p q (room + 1) atEnd type v = true) :
    p room (abis.resolveType type) v = true := by
  exact (Bool.and_eq_true_iff.mp h).1

theorem everyPart_array (ht : abis.IsArrayType type) {vars : List Variant}
    (h : abis.everyPart p q (room + 1) atEnd type (.array vars) = true) : ∀ x ∈ vars,
      abis.everyPart p q room false (fundamentalType (abis.resolveType type)) x = true := by
  simp only [everyPart, ht.builtIn, ht.array, if_true, Bool.and_eq_true, all_eq_true] at h
  exact h.2

theorem everyPart_variant {d : VariantDef} (hd : abis.IsVariant type d) {t : TypeName}
    (h : abis.everyPart p q (room + 1) atEnd type (.array [.string t, v]) = true) :
    abis.everyPart p q room atEnd t v = true := by
  simp only [everyPart, hd.builtIn, hd.array, hd.variant, Bool.and_eq_true, Bool.false_eq_true,
    if_false] at h
  exact h.2

theorem everyPart_struct (hst : abis.IsStruct type st)
    (h : abis.everyPart p q (room + 1) atEnd type v = true) :
    abis.everyField p q room atEnd (abis.resolveType type) v = true := by
  simp only [everyPart, hst.builtIn, hst.array, hst.variant, Bool.and_eq_true, Bool.false_eq_true,
    if_false] at h
  exact h.2

/-- The fields of a struct, one level of bases at a time. -/
theorem everyField_struct (hst : abis.structs.find type = some st)
    (h : abis.everyField p q (room + 1) atEnd type v = true) : q atEnd st v = true ∧
      (st.base ≠ [] → abis.everyField p q room false (abis.resolveType st.base) v = true) ∧
      (∀ vo, v = .object vo → everyEntry (abis.everyPart p q room) atEnd vo st.fields = true) ∧
      ∀ vars, v = .array vars →
        everyItem (abis.everyPart p q room) atEnd st.fields vars = true := by
  rw [everyField, hst] at h
  simp only [Bool.and_eq_true, Bool.or_eq_true, decide_eq_true_eq] at h
  obtain ⟨⟨hq, hbase⟩, hfields⟩ := h
  refine ⟨hq, fun hne => hbase.resolve_left hne, ?_, ?_⟩
  · rintro vo rfl
    exact hfields
  · rintro vars rfl
    exact hfields

end Parts

/-! ## A small ABI -/

/-- A built-in type of one byte. -/
def octet : BuiltIn where
  unpack s isArray isOptional :=
    if isArray then .error ⟨.outOfRange, "datastream"⟩
    else if isOptional then
      match s with
      | 0 :: rest => .ok (.null, rest)
      | 1 :: c :: rest => .ok (.uint64 c.toNat, rest)
      | _ => .error ⟨.outOfRange, "datastream"⟩
    else
      match s with
      | c :: rest => .ok (.uint64 c.toNat, rest)
      | [] => .error ⟨.outOfRange, "datastream"⟩
  pack v isArray isOptional :=
    if isArray then .error ⟨.badCastException, "Array"⟩
    else if isOptional then
      match v with
      | .null => .ok [0]
      | .uint64 n => .ok [1, UInt8.ofNat n]
      | _ => .error ⟨.badCastException, "uint8"⟩
    else
      match v with
      | .uint64 n => .ok [UInt8.ofNat n]
      | _ => .error ⟨.badCastException, "uint8"⟩

theorem octet_canonical (c : UInt8) : octet.Canonical false false (.uint64 c.toNat) [c] :=
  ⟨by simp [octet], fun _ => rfl, by simp⟩

theorem octet_canonical_some (c : UInt8) : octet.Canonical false true (.uint64 c.toNat) [1, c] :=
  ⟨by simp [octet], fun _ => rfl, by simp⟩

theorem octet_canonical_null : octet.Canonical false true .null [0] :=
  ⟨rfl, fun _ => rfl, by simp⟩

theorem eq_octet {type : TypeName} {t : BuiltIn}
    (h : configureBuiltInTypes (fun _ => octet) type = some t) : t = octet := by
  rw [configureBuiltInTypes] at h
  split at h
  · exact (Option.some.inj h).symm
  · simp at h

/-- Sizes of four bytes. -/
def wordEnv : AbiEnv where
  packSize n := encode 4 n.toNat
  unpackSize s :=
    if 4 ≤ s.length then .ok (UInt32.ofNat (value (s.take 4)), s.drop 4)
    else .error ⟨.outOfRange, "datastream"⟩
  asBytes _ := .ok []

theorem wordEnv_exact : wordEnv.Exact where
  unpackSize := by
    intro n rest
    have hlen := length_encode 4 n.toNat
    have hle : 4 ≤ (encode 4 n.toNat ++ rest).length := by
      rw [length_append, hlen]
      omega
    dsimp only [wordEnv]
    rw [if_pos hle, take_left' hlen, drop_left' hlen, value_encode n.toNat_lt, UInt32.ofNat_toNat]
  ne_nil := by
    intro n h
    have hlen := length_encode 4 n.toNat
    rw [show encode 4 n.toNat = [] from h] at hlen
    simp at hlen

/-- A serializer of bytes. -/
def octets : AbiSerializer := { builtInTypes := configureBuiltInTypes fun _ => octet }

/-- A struct without fields, a struct with an extension, and a struct with this and another one. -/
def nestedAbi : AbiDef where
  version := "eosio::abi/1.1".toList
  structs :=
    [{ name := "hi".toList },
      { name := "in".toList, fields := [⟨"x".toList, "uint8".toList⟩, ⟨"y".toList, "uint8$".toList⟩] },
      { name := "out".toList, fields := [⟨"a".toList, "in".toList⟩, ⟨"b".toList, "uint8$".toList⟩] }]

/-- The serializer of `nestedAbi`. -/
def nested : AbiSerializer :=
  { octets with
    structs := nestedAbi.structs.foldl (fun m st => m.set st.name st) .empty }

@[elab_as_elim]
theorem nested_structs {p : TypeName → StructDef → Prop} {name : TypeName} {st : StructDef}
    (h : nested.structs.find name = some st) (hp : ∀ e ∈ nested.structs.entries, p e.1 e.2) :
    p name st :=
  hp _ (find_eq_some_iff.mp h)

theorem nested_regular : nested.Regular where
  structs := fun h => nested_structs h (by decide)
  variants := fun h => absurd h (by simp [nested, octets])
  names := fun h => nested_structs h (by decide)
  nodup := fun h => nested_structs h (by decide)
  fresh := fun {_ st} h => absurd (show st.base = [] from nested_structs h (by decide))

end AbiSerializer

end Forceio.Chain
