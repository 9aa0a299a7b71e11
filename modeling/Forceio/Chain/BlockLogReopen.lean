import Forceio.Chain.BlockLog

/-!
# A block log survives reopening

A log is written by `reset` and by appending consecutive blocks; then it is closed and opened again,
with its index file as it was, without it, or with an index file that is only the start of it.

* `Exact` is what is assumed of `fc`: packing is inverted by unpacking, which stops at the end of
  what was packed. That the id of a block contains its number follows for blocks with a header.
* A file offset is below `2 ^ 63`.

Result:
* `writeLog_reopens`: reopening gives back the log iff it has a block, its first block number is not
  zero and the index file can be used: it is whole, or empty, or its last eight bytes are not the
  position of the last block.
-/

namespace Forceio.Chain

open Forceio.Lib LittleEndian RecordLog List

namespace BlockLog

open LittleEndian (encode value)
open RecordLog (body positions index)

variable {Gs B : Type} {env : LogEnv Gs B}

/-- Packing is inverted by unpacking, and the id of a block contains its number. -/
structure Exact (env : LogEnv Gs B) : Prop where
  unpackGenesis : ∀ gs rest, env.unpackGenesis (env.packGenesis gs ++ rest) = .ok (gs, rest)
  unpack : ∀ b rest, env.unpack (env.pack b ++ rest) = .ok (b, rest)
  numFromId : ∀ b, numFromId (env.id b) = env.blockNum b

/-- Blocks whose id and number are those of a `block_header`. -/
theorem Exact.of_header {Key Sig : Type} (chain : ChainEnv Key Sig) (header : B → BlockHeader Key)
    (hid : ∀ b, env.id b = (header b).id chain) (hnum : ∀ b, env.blockNum b = (header b).blockNum)
    (hgenesis : ∀ gs rest, env.unpackGenesis (env.packGenesis gs ++ rest) = .ok (gs, rest))
    (hunpack : ∀ b rest, env.unpack (env.pack b ++ rest) = .ok (b, rest)) : Exact env where
  unpackGenesis := hgenesis
  unpack := hunpack
  numFromId b := by rw [hid, hnum, numFromId_id]

/-! ## What a log holds -/

/-- The start of a log. -/
def headerBytes (env : LogEnv Gs B) (gs : Gs) (version : Nat) (first : UInt32) : Bytes :=
  encode 4 version ++ (encode 4 first.toNat ++ (env.packGenesis gs ++ encode 8 npos))

/-- Where the first block starts. -/
def startPos (env : LogEnv Gs B) (gs : Gs) : Nat := 16 + (env.packGenesis gs).length

theorem length_headerBytes (gs : Gs) (version : Nat) (first : UInt32) :
    (headerBytes env gs version first).length = startPos env gs := by
  simp only [headerBytes, startPos, length_append, length_encode]
  omega

/-- **The files after some appends**: the header and the blocks with their positions, and the
positions. -/
structure Written (env : LogEnv Gs B) (gs : Gs) (version : Nat) (first : UInt32) (bs : List B)
    (s : BlockLogImpl B) : Prop where
  version_eq : s.version = version
  firstBlockNum : s.firstBlockNum = first
  genesis : s.genesisWrittenToBlockLog = true
  blockFile : s.blockFile = headerBytes env gs version first ++ body env.pack (startPos env gs) bs
  indexFile : s.indexFile = index (positions env.pack (startPos env gs) bs)
  head : ∀ b ∈ bs.getLast?, s.head = some b ∧ s.headId = env.id b

/-- Blocks numbered from the first one on. -/
def Consecutive (env : LogEnv Gs B) (first : UInt32) (bs : List B) : Prop :=
  ∀ i b, bs[i]? = some b → (env.blockNum b).toNat = first.toNat + i

section Writing

variable {gs : Gs} {version : Nat} {first : UInt32} {bs : List B} {s : BlockLogImpl B}

section Step

variable (h : Written env gs version first bs s)

include h

theorem Written.length_blockFile :
    s.blockFile.length = startPos env gs + (body env.pack (startPos env gs) bs).length := by
  rw [h.blockFile, length_append, length_headerBytes]

theorem append_written {b : B} (hnum : (env.blockNum b).toNat = first.toNat + bs.length) :
    ∃ s', append env s b = .ok s' ∧ Written env gs version first (bs ++ [b]) s' := by
  have hoffset : (env.blockNum b - s.firstBlockNum).toNat = bs.length := by
    rw [h.firstBlockNum, UInt32.toNat_sub_of_le]
    · omega
    · rw [UInt32.le_iff_toNat_le]
      omega
  have hindex : s.indexFile.length = 8 * (env.blockNum b - s.firstBlockNum).toNat := by
    rw [hoffset, h.indexFile, length_index, length_positions]
  refine ⟨_, assert_bind_eq_ok.mpr ⟨h.genesis, assert_bind_eq_ok.mpr ⟨hindex, rfl⟩⟩, ?_⟩
  refine ⟨h.version_eq, h.firstBlockNum, h.genesis, ?_, ?_, ?_⟩
  · show s.blockFile ++ _ = _
    rw [body_concat, h.length_blockFile, h.blockFile, append_assoc]
  · show s.indexFile ++ _ = _
    rw [positions_concat, h.length_blockFile, h.indexFile, index_append, index_singleton]
  · intro b' hb'
    rw [getLast?_concat] at hb'
    obtain rfl : b = b' := Option.some.inj hb'
    exact ⟨rfl, rfl⟩

theorem setVersion_written (version' : Nat) :
    Written env gs version' first bs (setVersion s version') := by
  refine ⟨rfl, h.firstBlockNum, h.genesis, ?_, h.indexFile, h.head⟩
  show encode 4 version' ++ s.blockFile.drop 4 = _
  rw [h.blockFile, headerBytes, append_assoc, drop_left' (length_encode 4 _), ← append_assoc]
  rfl

end Step

theorem appendAll_written : ∀ {blocks bs : List B} {s : BlockLogImpl B},
    Written env gs version first bs s → Consecutive env first (bs ++ blocks) →
      ∃ s', blocks.foldlM (append env) s = .ok s' ∧ Written env gs version first (bs ++ blocks) s'
  | [], bs, s, h, _ => ⟨s, rfl, by rwa [append_nil]⟩
  | b :: blocks, bs, s, h, hnum => by
    obtain ⟨s1, happend, h1⟩ := append_written h (hnum bs.length b (by simp))
    rw [append_cons] at hnum ⊢
    obtain ⟨s', hrest, h'⟩ := appendAll_written h1 hnum
    refine ⟨s', ?_, h'⟩
    rw [foldlM_cons, happend]
    exact hrest

/-- `reset`, and then appends. -/
def writeLog (env : LogEnv Gs B) (s : BlockLogImpl B) (gs : Gs) (firstBlock : Option B)
    (first : UInt32) (blocks : List B) : Except FcException (BlockLogImpl B) := do
  let s ← reset env s gs firstBlock first
  blocks.foldlM (append env) s

/-- **Writing a log** of consecutive blocks succeeds, whatever the log was before. -/
theorem writeLog_written (s : BlockLogImpl B) (gs : Gs) {firstBlock : Option B} {blocks : List B}
    (hnum : Consecutive env first (firstBlock.toList ++ blocks)) :
    ∃ s', writeLog env s gs firstBlock first blocks = .ok s' ∧
      Written env gs maxSupportedVersion first (firstBlock.toList ++ blocks) s' := by
  have hheader : Written env gs 0 first [] (resetHeader env s gs 0 first) := by
    refine ⟨rfl, rfl, rfl, ?_, rfl, fun b hb => absurd hb (by simp)⟩
    show headerBytes env gs 0 first = _
    rw [body, append_nil]
  have hreset : ∃ s1, reset env s gs firstBlock first = .ok s1 ∧
      Written env gs maxSupportedVersion first firstBlock.toList s1 := by
    cases firstBlock with
    | none => exact ⟨_, rfl, setVersion_written hheader _⟩
    | some b =>
      obtain ⟨s1, happend, h1⟩ := append_written hheader (hnum 0 b (by simp))
      refine ⟨_, ?_, setVersion_written h1 _⟩
      show (append env (resetHeader env s gs 0 first) b >>= _) = _
      rw [happend]
      rfl
  obtain ⟨s1, hs1, h1⟩ := hreset
  obtain ⟨s', hs', h'⟩ := appendAll_written h1 hnum
  refine ⟨s', ?_, h'⟩
  rw [writeLog, hs1]
  exact hs'

end Writing

/-! ## Reading what was written -/

theorem readNumber_encode {k n : Nat} (h : n < 256 ^ k) (rest : Bytes) :
    readNumber k (encode k n ++ rest) = .ok (n, rest) := by
  have hlen := length_encode k n
  rw [readNumber, if_pos (by rw [length_append, hlen]; omega), take_left' hlen,
    drop_left' hlen, value_encode h]

theorem readLast_append {n : Nat} (h : n < 256 ^ 8) (l : Bytes) :
    readLast (l ++ encode 8 n) = .ok n := by
  have hlen : (l ++ encode 8 n).length = l.length + 8 := by
    rw [length_append, length_encode]
  rw [readLast, if_pos (by omega), hlen, Nat.add_sub_cancel, drop_left, value_encode h]

theorem readNumber_index {ps : List Nat} {i p : Nat} (hp : ps[i]? = some p) (hlt : p < 256 ^ 8) :
    (readNumber 8 ((index ps).drop (8 * i))).map Prod.fst = .ok p := by
  have hi : i < ps.length := (List.getElem?_eq_some_iff.mp hp).1
  have hlen : 8 ≤ ((index ps).drop (8 * i)).length := by
    rw [length_drop, length_index]
    omega
  rw [readNumber, if_pos hlen, slice_index hp, value_encode hlt]
  rfl

/-- The block with a number in a log that starts with a number. -/
def blockAt (first : UInt32) (bs : List B) (n : UInt32) : Option B :=
  if first ≤ n then bs[(n - first).toNat]? else none

section Reading

variable {gs : Gs} {version : Nat} {first : UInt32} {bs : List B} {s : BlockLogImpl B} {b : B}

theorem Consecutive.last (h : Consecutive env first bs) (hb : bs.getLast? = some b) :
    (env.blockNum b).toNat = first.toNat + (bs.length - 1) :=
  h _ _ (by rwa [getLast?_eq_getElem?] at hb)

section Log

variable (h : Written env gs version first bs s) (henv : Exact env)
  (hsize : s.blockFile.length < 2 ^ 63) (hb : bs.getLast? = some b)

include h

theorem Written.length_lt : 8 < s.blockFile.length := by
  rw [h.length_blockFile, startPos]
  omega

include henv in
theorem Written.readBlock {i p : Nat} {b : B}
    (hp : (positions env.pack (startPos env gs) bs)[i]? = some p) (hb : bs[i]? = some b) :
    readBlock env s.blockFile p = .ok b := by
  obtain ⟨hle, rest, hrest⟩ := drop_position hp hb
  have hdrop : s.blockFile.drop p = env.pack b ++ rest := by
    rw [h.blockFile, ← hrest, drop_append, length_headerBytes,
      drop_eq_nil_of_le (by rw [length_headerBytes]; exact hle), nil_append]
  rw [BlockLog.readBlock, hdrop, henv.unpack]
  rfl

include hsize

theorem Written.position_lt {p : Nat} (hp : p ∈ positions env.pack (startPos env gs) bs) :
    p < 2 ^ 63 := by
  have hlt := (lt_of_mem_positions hp).2
  rw [h.length_blockFile] at hsize
  omega

include hb

/-- The last eight bytes of a log are the position of its last block. -/
theorem Written.readLast_last : ∃ p, readLast s.blockFile = .ok p ∧
    (positions env.pack (startPos env gs) bs).getLast? = some p ∧ p < 2 ^ 63 := by
  obtain ⟨bs, rfl⟩ := getLast?_eq_some_iff.mp hb
  have hlast : (positions env.pack (startPos env gs) (bs ++ [b])).getLast? =
      some (startPos env gs + (body env.pack (startPos env gs) bs).length) := by
    rw [positions_concat, getLast?_concat]
  have hlt := h.position_lt hsize (mem_of_getLast? hlast)
  refine ⟨_, ?_, hlast, hlt⟩
  rw [h.blockFile, body_concat, ← append_assoc, ← append_assoc, readLast_append (by omega)]

include henv

theorem Written.readHead_last : readHead env s.blockFile = .ok (some b) := by
  obtain ⟨p, hread, hlast, hlt⟩ := h.readLast_last hsize hb
  have hlen := h.length_lt
  rw [getLast?_eq_getElem?, length_positions] at hlast
  rw [getLast?_eq_getElem?] at hb
  rw [readHead, if_neg (by omega), hread, ok_bind, if_pos (by simp only [npos]; omega),
    h.readBlock henv hlast hb]
  rfl

/-- **Reading by number** a log with a block gives the block with the number, if there is one. -/
theorem Written.readBlockByNum (hnum : Consecutive env first bs) (n : UInt32) :
    readBlockByNum env s n = .ok (blockAt first bs n) := by
  obtain ⟨hhead, hheadId⟩ := h.head b hb
  have hlastNum := hnum.last hb
  have hpos : 0 < bs.length := length_pos_of_mem (mem_of_getLast? hb)
  rw [BlockLog.readBlockByNum, getBlockPos, hhead, hheadId, henv.numFromId, h.firstBlockNum]
  by_cases hfirst : first ≤ n
  · have hoffset : (n - first).toNat = n.toNat - first.toNat := UInt32.toNat_sub_of_le _ _ hfirst
    rw [UInt32.le_iff_toNat_le] at hfirst
    by_cases hn : n ≤ env.blockNum b
    · have hi : (n - first).toNat < bs.length := by
        rw [UInt32.le_iff_toNat_le] at hn
        omega
      obtain ⟨p, hp⟩ : ∃ p, (positions env.pack (startPos env gs) bs)[(n - first).toNat]? = some p :=
        ⟨_, getElem?_eq_getElem (by rwa [length_positions])⟩
      have hlt := h.position_lt hsize (mem_of_getElem? hp)
      have hb := getElem?_eq_getElem hi
      have hbNum : env.blockNum bs[(n - first).toNat] = n := by
        have := hnum _ _ hb
        exact UInt32.toNat_inj.mp (by omega)
      rw [if_pos ⟨rfl, hn, UInt32.le_iff_toNat_le.mpr hfirst⟩, h.indexFile,
        readNumber_index hp (by omega)]
      show (if p ≠ npos then _ else _) = _
      rw [if_pos (by simp only [npos]; omega), h.readBlock henv hp hb, blockAt,
        if_pos (UInt32.le_iff_toNat_le.mpr hfirst), hb]
      exact assert_bind_eq_ok.mpr ⟨hbNum, rfl⟩
    · have hi : bs.length ≤ (n - first).toNat := by
        rw [UInt32.le_iff_toNat_le] at hn
        omega
      rw [if_neg (fun hc => hn hc.2.1), blockAt, getElem?_eq_none hi, ite_self]
      rfl
  · rw [if_neg (fun hc => hfirst hc.2.2), blockAt, if_neg hfirst]
    rfl

end Log

/-! ## Opening -/

theorem constructIndexLoop_step (henv : Exact env) {endPos p fuel start : Nat} (hp : p < endPos)
    (hstart : start < 256 ^ 8) (r : B) (rest built : Bytes) :
    constructIndexLoop env endPos (fuel + 1) p (env.pack r ++ (encode 8 start ++ rest)) built =
      constructIndexLoop env endPos fuel start rest (built ++ encode 8 start) := by
  rw [constructIndexLoop, if_pos hp, henv.unpack, ok_bind]
  dsimp only
  rw [readNumber_encode hstart, ok_bind]

/-- **The index is built again**: every block is read, and its position after it. -/
theorem constructIndexLoop_body (henv : Exact env) {endPos : Nat} (hend : endPos < 256 ^ 8)
    {rs : List B} {start p fuel : Nat} {built : Bytes} (hp : p < start)
    (hlast : (positions env.pack start rs).getLast? = some endPos) (hfuel : rs.length < fuel) :
    constructIndexLoop env endPos fuel p (body env.pack start rs) built =
      .ok (built ++ index (positions env.pack start rs)) := by
  induction rs generalizing start p fuel built with
  | nil => simp [positions] at hlast
  | cons r rs ih =>
    have hstart := (lt_of_mem_positions (mem_of_getLast? hlast)).1
    obtain ⟨fuel, rfl⟩ : ∃ f, fuel = f + 1 := ⟨fuel - 1, by omega⟩
    rw [body, constructIndexLoop_step henv (by omega) (by omega)]
    have hindex : index (positions env.pack start (r :: rs)) = encode 8 start ++
        index (positions env.pack (start + (env.pack r).length + 8) rs) := rfl
    rw [hindex, ← append_assoc]
    cases rs with
    | nil =>
      have hlast' : start = endPos := by simpa [positions] using hlast
      obtain ⟨fuel, rfl⟩ : ∃ f, fuel = f + 1 := ⟨fuel - 1, by simp at hfuel; omega⟩
      rw [constructIndexLoop, if_neg (by omega)]
      exact congrArg Except.ok (append_nil _).symm
    | cons q rs =>
      have hlast' : (positions env.pack (start + (env.pack r).length + 8) (q :: rs)).getLast? =
          some endPos := by
        exact hlast
      exact ih (by omega) hlast' (by simpa using hfuel)

theorem Written.readLast_nil (h : Written env gs version first [] s) :
    readLast s.blockFile = .ok npos := by
  have hfile : s.blockFile =
      (encode 4 version ++ (encode 4 first.toNat ++ env.packGenesis gs)) ++ encode 8 npos := by
    rw [h.blockFile, headerBytes, body]
    simp
  rw [hfile, readLast_append (by simp only [npos]; omega)]

/-- A log without a block does not open: its head is null. -/
theorem Written.openLog_nil (h : Written env gs version first [] s) (indexFile : Bytes)
    (s' : BlockLogImpl B) : openLog env s.blockFile indexFile ≠ .ok s' := by
  have hlen := h.length_lt
  have hhead : readHead env s.blockFile = .ok none := by
    rw [readHead, if_neg (by omega), h.readLast_nil, ok_bind, if_neg (by simp)]
    rfl
  rw [openLog, if_pos (by omega)]
  intro hopen
  obtain ⟨⟨v, f⟩, _, hopen⟩ := bind_eq_ok.mp hopen
  dsimp only at hopen
  rw [hhead, ok_bind] at hopen
  simp at hopen

/-- A log that is open, with its last block. -/
def opened (env : LogEnv Gs B) (first : UInt32) (b : B) (blockFile indexFile : Bytes) :
    BlockLogImpl B :=
  { head := some b, headId := env.id b, genesisWrittenToBlockLog := true,
    version := maxSupportedVersion, firstBlockNum := first, blockFile := blockFile,
    indexFile := indexFile }

/-- A log that says zero is its first block does not open. -/
theorem Written.openLog_zero (h : Written env gs maxSupportedVersion 0 bs s) (indexFile : Bytes)
    (s' : BlockLogImpl B) : openLog env s.blockFile indexFile ≠ .ok s' := by
  have hlen := h.length_lt
  rw [openLog, if_pos (by omega)]
  intro hopen
  obtain ⟨⟨v, f⟩, hread, _⟩ := bind_eq_ok.mp hopen
  rw [BlockLog.readHeader, h.blockFile, headerBytes, append_assoc, readNumber_encode (by decide),
    ok_bind] at hread
  obtain ⟨_, hread⟩ := assert_bind_eq_ok.mp hread
  obtain ⟨_, hread⟩ := assert_bind_eq_ok.mp hread
  rw [if_pos (by decide), append_assoc, readNumber_encode (by decide), ok_bind] at hread
  exact absurd (assert_bind_eq_ok.mp hread).1 (by decide)

end Reading

/-! ## Reopening -/

/-- The index file of a log with a block **can be used**: it is whole, or empty, or its last eight
bytes are not the position of the last block. -/
def Usable (s : BlockLogImpl B) (indexFile : Bytes) : Prop :=
  indexFile = s.indexFile ∨ indexFile = [] ∨
    ∃ p, readLast indexFile = .ok p ∧ readLast s.blockFile ≠ .ok p

/-- **The log survives reopening**: it opens with the same head, and reading by number gives the
blocks written and nothing else, as before closing. -/
def Reopens (env : LogEnv Gs B) (s : BlockLogImpl B) (first : UInt32) (bs : List B)
    (indexFile : Bytes) : Prop :=
  ∃ s', openLog env s.blockFile indexFile = .ok s' ∧ s'.head = s.head ∧ s.head = bs.getLast? ∧
    ∀ n, readBlockByNum env s' n = .ok (blockAt first bs n) ∧
      readBlockByNum env s n = .ok (blockAt first bs n)

section Reopening

/-- An index that is kept although it cannot be used. -/
theorem usable_or_kept {s : BlockLogImpl B} {version : Nat} {indexFile kept : Bytes}
    (h : checkIndex env version s.blockFile indexFile = .ok kept) :
    Usable s indexFile ∨ kept = indexFile := by
  rw [checkIndex] at h
  by_cases hempty : indexFile.length ≠ 0
  · rw [if_pos hempty] at h
    obtain ⟨q, hq, h⟩ := bind_eq_ok.mp h
    obtain ⟨p, hp, h⟩ := bind_eq_ok.mp h
    by_cases heq : q = p
    · subst heq
      rw [if_neg (lt_irrefl q), if_neg (lt_irrefl q)] at h
      exact .inr (Except.ok.inj h).symm
    · refine .inl (.inr (.inr ⟨p, hp, fun hend => heq ?_⟩))
      exact Except.ok.inj (hq.symm.trans hend)
  · exact .inl (.inr (.inl (length_eq_zero_iff.mp (not_not.mp hempty))))

/-- An index that lacks the entry of the last block: reading the last block throws. -/
theorem readBlockByNum_short {s : BlockLogImpl B} {n : UInt32} (hhead : s.head.isSome)
    (hid : numFromId s.headId = n) (hfirst : s.firstBlockNum ≤ n)
    (hshort : s.indexFile.length < 8 * (n - s.firstBlockNum).toNat + 8) :
    readBlockByNum env s n = .error iosFailure := by
  have hlen : ¬ 8 ≤ (s.indexFile.drop (8 * (n - s.firstBlockNum).toNat)).length := by
    rw [length_drop]
    omega
  rw [BlockLog.readBlockByNum, getBlockPos, hid, if_pos ⟨hhead, UInt32.le_refl n, hfirst⟩,
    readNumber, if_neg hlen]
  rfl

variable {gs : Gs} {first : UInt32} {bs : List B} {s : BlockLogImpl B} {b : B}
  (h : Written env gs maxSupportedVersion first bs s) (hb : bs.getLast? = some b)
  (hfirst : first ≠ 0) (henv : Exact env) (hsize : s.blockFile.length < 2 ^ 63)
  (hnum : Consecutive env first bs) {indexFile : Bytes}

include h

include hfirst in
theorem Written.readHeader : readHeader s.blockFile = .ok (maxSupportedVersion, first) := by
  have hpos : first.toNat > 0 := by
    rcases Nat.eq_zero_or_pos first.toNat with h0 | h0
    · exact absurd (UInt32.toNat_inj.mp h0) hfirst
    · exact h0
  have hlt : first.toNat < 256 ^ 4 := first.toNat_lt
  rw [BlockLog.readHeader, h.blockFile, headerBytes, append_assoc,
    readNumber_encode (by decide), ok_bind]
  refine assert_bind_eq_ok.mpr ⟨by decide, assert_bind_eq_ok.mpr ⟨by decide, ?_⟩⟩
  rw [if_pos (by decide), append_assoc, readNumber_encode hlt, ok_bind]
  refine assert_bind_eq_ok.mpr ⟨hpos, ?_⟩
  rw [UInt32.ofNat_toNat]
  rfl

include hb

theorem Written.opened : Written env gs maxSupportedVersion first bs
    (opened env first b s.blockFile s.indexFile) := by
  refine ⟨rfl, rfl, rfl, h.blockFile, h.indexFile, fun b' hb' => ?_⟩
  obtain rfl : b = b' := Option.some.inj (hb.symm.trans hb')
  exact ⟨rfl, rfl⟩

include henv

include hnum in
/-- A log whose last block is read after opening had a whole index, or was given it again. -/
theorem Written.indexFile_eq {kept : Bytes} (hcut : kept <+: s.indexFile) {r : Option B}
    (hread : BlockLog.readBlockByNum env (BlockLog.opened env first b s.blockFile kept)
      (env.blockNum b) = .ok r) : kept = s.indexFile := by
  refine hcut.eq_of_length (le_antisymm hcut.length_le ?_)
  by_contra hlt
  have hlastNum := hnum.last hb
  have hle : first ≤ env.blockNum b := by
    rw [UInt32.le_iff_toNat_le]
    omega
  have hshort : kept.length < 8 * (env.blockNum b - first).toNat + 8 := by
    rw [h.indexFile, length_index, length_positions] at hlt
    rw [UInt32.toNat_sub_of_le _ _ hle]
    omega
  have herror : BlockLog.readBlockByNum env (BlockLog.opened env first b s.blockFile kept)
      (env.blockNum b) = .error iosFailure :=
    readBlockByNum_short rfl (henv.numFromId b) hle hshort
  exact absurd (herror.symm.trans hread) (by simp)

include hsize

include hfirst in
/-- Opening a log with a block, with the index that is found to be usable. -/
theorem Written.openLog_eq (indexFile : Bytes) : openLog env s.blockFile indexFile =
    (checkIndex env maxSupportedVersion s.blockFile indexFile).map
      (BlockLog.opened env first b s.blockFile) := by
  have hlen := h.length_lt
  rw [openLog, if_pos (by omega), h.readHeader hfirst, ok_bind]
  dsimp only
  rw [h.readHead_last henv hsize hb, ok_bind]
  cases checkIndex env maxSupportedVersion s.blockFile indexFile <;> rfl

/-- **`construct_index` gives the index** of a log with a block. -/
theorem constructIndex_written :
    constructIndex env maxSupportedVersion s.blockFile = .ok s.indexFile := by
  obtain ⟨p, hread, hlast, hlt⟩ := h.readLast_last hsize hb
  have hdrop : s.blockFile.drop 8 = env.packGenesis gs ++
      (encode 8 npos ++ body env.pack (startPos env gs) bs) := by
    have hfile : s.blockFile = (encode 4 maxSupportedVersion ++ encode 4 first.toNat) ++
        (env.packGenesis gs ++ (encode 8 npos ++ body env.pack (startPos env gs) bs)) := by
      rw [h.blockFile, headerBytes]
      simp only [append_assoc]
    rw [hfile, drop_left' (by simp)]
  have hfuel : bs.length < s.blockFile.length + 1 := by
    have hle : bs.length ≤ (body env.pack (startPos env gs) bs).length := length_le_length_body
    rw [h.length_blockFile]
    omega
  have hstart : 8 < startPos env gs := by
    rw [startPos]
    omega
  have hversion : (if maxSupportedVersion = 1 then 4 else 8) = 8 := rfl
  rw [constructIndex, hread, ok_bind]
  dsimp only
  rw [hversion, hdrop, henv.unpackGenesis, ok_bind]
  show constructIndexLoop env p _ 8 (body env.pack _ bs) [] = _
  rw [constructIndexLoop_body henv (by omega) hstart hlast hfuel, h.indexFile, nil_append]

theorem checkIndex_usable (husable : Usable s indexFile) :
    checkIndex env maxSupportedVersion s.blockFile indexFile = .ok s.indexFile := by
  have hbuilt := constructIndex_written h hb henv hsize
  obtain ⟨q, hread, hlast, hlt⟩ := h.readLast_last hsize hb
  rw [checkIndex, hbuilt]
  by_cases hempty : indexFile.length ≠ 0
  · rw [if_pos hempty, hread, ok_bind]
    cases hlastIndex : readLast indexFile with
    | error e =>
      rcases husable with rfl | rfl | ⟨p, hp, _⟩
      · have hpos : 0 < bs.length := length_pos_of_mem (mem_of_getLast? hb)
        rw [readLast, if_pos] at hlastIndex
        · simp at hlastIndex
        · rw [h.indexFile, length_index, length_positions]
          omega
      · exact absurd rfl hempty
      · exact absurd (hlastIndex.symm.trans hp) (by simp)
    | ok p =>
      rw [ok_bind]
      by_cases hpq : q < p
      · rw [if_pos hpq]
      by_cases hqp : q > p
      · rw [if_neg hpq, if_pos hqp]
      rw [if_neg hpq, if_neg hqp]
      obtain rfl : q = p := by omega
      rcases husable with rfl | rfl | ⟨p, hp, hne⟩
      · rfl
      · exact absurd rfl hempty
      · obtain rfl : q = p := Except.ok.inj (hlastIndex.symm.trans hp)
        exact absurd hread hne
  · rw [if_neg hempty]

omit hb in
include hnum in
/-- **Reopening a written log.** -/
theorem Written.reopens_iff (hcut : indexFile <+: s.indexFile) :
    Reopens env s first bs indexFile ↔ bs ≠ [] ∧ first ≠ 0 ∧ Usable s indexFile := by
  constructor
  · rintro ⟨s', hopen, _, _, hread⟩
    have hne : bs ≠ [] := by
      rintro rfl
      exact h.openLog_nil _ _ hopen
    have hfirst : first ≠ 0 := by
      rintro rfl
      exact h.openLog_zero _ _ hopen
    refine ⟨hne, hfirst, ?_⟩
    have hb := getLast?_eq_some_getLast hne
    rw [h.openLog_eq hb hfirst henv hsize] at hopen
    cases hcheck : checkIndex env maxSupportedVersion s.blockFile indexFile with
    | error e => exact absurd (hcheck ▸ hopen) (by simp [Except.map])
    | ok kept =>
      rw [hcheck] at hopen
      obtain rfl : BlockLog.opened env first _ s.blockFile kept = s' := Except.ok.inj hopen
      rcases usable_or_kept hcheck with husable | rfl
      · exact husable
      · exact .inl (h.indexFile_eq hb henv hnum hcut (hread _).1)
  · rintro ⟨hne, hfirst, husable⟩
    have hb := getLast?_eq_some_getLast hne
    have hopen := h.openLog_eq hb hfirst henv hsize indexFile
    rw [checkIndex_usable h hb henv hsize husable] at hopen
    obtain ⟨hhead, -⟩ := h.head _ hb
    exact ⟨_, hopen, hhead.symm, hhead.trans hb.symm, fun n =>
      ⟨(h.opened hb).readBlockByNum henv hsize hb hnum n, h.readBlockByNum henv hsize hb hnum n⟩⟩

end Reopening

/-- **A block log survives reopening** iff it has a block, its first block number is not zero and
the index file can be used. -/
theorem writeLog_reopens (henv : Exact env) (s : BlockLogImpl B) (gs : Gs) (firstBlock : Option B)
    (first : UInt32) (blocks : List B)
    (hnum : Consecutive env first (firstBlock.toList ++ blocks)) :
    ∃ s', writeLog env s gs firstBlock first blocks = .ok s' ∧
      (s'.blockFile.length < 2 ^ 63 → ∀ indexFile, indexFile <+: s'.indexFile →
        (Reopens env s' first (firstBlock.toList ++ blocks) indexFile ↔
          firstBlock.toList ++ blocks ≠ [] ∧ first ≠ 0 ∧ Usable s' indexFile)) := by
  obtain ⟨s', hwrite, h⟩ := writeLog_written s gs hnum
  exact ⟨s', hwrite, fun hsize indexFile hcut => h.reopens_iff henv hsize hnum hcut⟩

/-- A log of two kinds of blocks of one byte, numbered five and six. -/
def bitLog : LogEnv Unit Bool where
  packGenesis _ := []
  unpackGenesis bytes := .ok ((), bytes)
  pack b := [if b then 1 else 0]
  unpack bytes :=
    match bytes with
    | [] => .error iosFailure
    | x :: rest => .ok (x = 1, rest)
  blockNum b := if b then 6 else 5
  id b := ⟨if b then 0x06000000 else 0x05000000, 0, 0, 0⟩

/-- Their headers; every digest is zero. -/
def bitHeader (b : Bool) : BlockHeader Unit :=
  { previous := ⟨if b then 0x05000000 else 0x04000000, 0, 0, 0⟩ }

theorem bitLog_exact : Exact bitLog := by
  refine .of_header (⟨1, one_pos, fun _ => default, fun _ => default, fun _ => default,
    fun _ _ => .ok ()⟩ : ChainEnv Unit Unit) bitHeader ?_ (by decide) (fun _ _ => rfl)
      (fun b rest => by cases b <;> rfl)
  decide

/-- A log from a snapshot with two blocks, opened with an index that lacks the second. -/
theorem writeLog_reopens_bits : ∃ s', writeLog bitLog {} () none 5 [false, true] = .ok s' ∧
    Reopens bitLog s' 5 [false, true] (s'.indexFile.take 8) := by
  have hnum : Consecutive bitLog 5 [false, true] := by
    rintro (_ | _ | i) b hb <;> simp at hb <;> subst hb <;> decide
  obtain ⟨s', hwrite, hreopens⟩ := writeLog_reopens bitLog_exact {} () none 5 [false, true] hnum
  refine ⟨s', hwrite, (hreopens ?_ _ ( take_prefix 8 _)).mpr ⟨by simp, by decide, ?_⟩⟩
  all_goals obtain rfl := Except.ok.inj hwrite
  · decide
  · exact .inr (.inr ⟨16, by decide, by decide⟩)

/-- **A log without a block does not open.** -/
theorem emptyLog_reopens : ∃ s', writeLog bitLog {} () none 5 [] = .ok s' ∧
    openLog bitLog s'.blockFile s'.indexFile = .error ⟨.undefinedBehavior, "null pointer"⟩ ∧
    ¬ Reopens bitLog s' 5 [] s'.indexFile := by
  refine ⟨_, rfl, rfl, ?_⟩
  rintro ⟨s', hopen, -⟩
  cases hopen

end BlockLog

end Forceio.Chain
