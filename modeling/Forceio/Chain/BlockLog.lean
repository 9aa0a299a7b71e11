import Forceio.Chain.Transaction
import Forceio.Lib.RecordLog

/-!
# The block log: `block_log.hpp`, `block_log.cpp`

The log of the irreversible blocks and the index of their positions, as the two files they are kept
in.

* A file is its bytes. A stream that is opened to write stands at the end of the file, and to read
  past the end of a file throws `ios_base::failure`: the streams are told to throw. What is written
  can be read at once, since the streams are closed or flushed in between.
* `fc::raw::pack` and `unpack` of blocks and of the genesis state are given by `LogEnv`, with the
  number and the id of a block. Unpacking gives what is left to read.
* A null `signed_block_ptr` is `none`, and to dereference it has no defined behaviour.
* Closing a log keeps its two files; opening starts a new `block_log_impl`. Opening when the
  directory is not there, and `repair_log`, are left out.
-/

namespace Forceio.Chain

open Forceio.Lib LittleEndian

/-- What the log does with blocks and the genesis state. -/
structure LogEnv (Gs B : Type) where
  packGenesis : Gs → Bytes
  unpackGenesis : Bytes → Except FcException (Gs × Bytes)
  pack : B → Bytes
  unpack : Bytes → Except FcException (B × Bytes)
  blockNum : B → UInt32
  id : B → Sha256

/-- `block_log_impl` with its files. -/
structure BlockLogImpl (B : Type) where
  head : Option B := none
  headId : Sha256 := default
  genesisWrittenToBlockLog : Bool := false
  version : Nat := 0
  firstBlockNum : UInt32 := 0
  blockFile : Bytes := []
  indexFile : Bytes := []

namespace BlockLog

/-- `npos`. -/
def npos : Nat := 2 ^ 64 - 1

/-- `min_supported_version`. -/
def minSupportedVersion : Nat := 1

/-- `max_supported_version`. -/
def maxSupportedVersion : Nat := 2

/-! ## Streams -/

/-- `ios_base::failure`. -/
def iosFailure : FcException := ⟨.iosFailure, "basic_ios::clear: iostream error"⟩

/-- Read a number of `k` bytes, and what is left. -/
def readNumber (k : Nat) (stream : Bytes) : Except FcException (Nat × Bytes) :=
  if k ≤ stream.length then .ok (value (stream.take k), stream.drop k)
  else .error iosFailure

/-- The last eight bytes of a file: `seekg(-8, end)` and `read`. -/
def readLast (file : Bytes) : Except FcException Nat :=
  if 8 ≤ file.length then .ok (value (file.drop (file.length - 8)))
  else .error iosFailure

variable {Gs B : Type} (env : LogEnv Gs B)

/-! ## Reading -/

/-- `read_block`, without the position after it. -/
def readBlock (blockFile : Bytes) (pos : Nat) : Except FcException B :=
  (env.unpack (blockFile.drop pos)).map Prod.fst

/-- `read_head`. -/
def readHead (blockFile : Bytes) : Except FcException (Option B) :=
  if blockFile.length ≤ 8 then .ok none
  else do
    let pos ← readLast blockFile
    if pos ≠ npos then (readBlock env blockFile pos).map some else pure none

variable (s : BlockLogImpl B)

/-- `get_block_pos`. -/
def getBlockPos (blockNum : UInt32) : Except FcException Nat :=
  if s.head.isSome ∧ blockNum ≤ numFromId s.headId ∧ blockNum ≥ s.firstBlockNum then
    (readNumber 8 (s.indexFile.drop (8 * (blockNum - s.firstBlockNum).toNat))).map Prod.fst
  else .ok npos

/-- `read_block_by_num`. -/
def readBlockByNum (blockNum : UInt32) : Except FcException (Option B) := do
  let pos ← getBlockPos s blockNum
  if pos ≠ npos then do
    let b ← readBlock env s.blockFile pos
    eosAssert (env.blockNum b = blockNum) .reversibleBlocksException
      "Wrong block was read from block log."
    pure (some b)
  else pure none

/-! ## Writing -/

/-- `append`. -/
def append (s : BlockLogImpl B) (b : B) : Except FcException (BlockLogImpl B) := do
  eosAssert (s.genesisWrittenToBlockLog = true) .blockLogAppendFail
    "Cannot append to block log until the genesis is first written"
  let pos := s.blockFile.length
  eosAssert (s.indexFile.length = 8 * (env.blockNum b - s.firstBlockNum).toNat) .blockLogAppendFail
    "Append to index file occuring at wrong position."
  pure { s with
    blockFile := s.blockFile ++ (env.pack b ++ encode 8 pos)
    indexFile := s.indexFile ++ encode 8 pos
    head := some b
    headId := env.id b }

/-- The files before the first block, with a version number; `reset` writes `0` and at the end
replaces it. The head of the log before is kept. -/
def resetHeader (gs : Gs) (version : Nat) (firstBlockNum : UInt32) : BlockLogImpl B :=
  { s with
    version := version
    firstBlockNum := firstBlockNum
    genesisWrittenToBlockLog := true
    blockFile := encode 4 version ++ (encode 4 firstBlockNum.toNat ++
      (env.packGenesis gs ++ encode 8 npos))
    indexFile := [] }

/-- Write the version at the start of the log. -/
def setVersion (version : Nat) : BlockLogImpl B :=
  { s with
    version := version
    blockFile := encode 4 version ++ s.blockFile.drop 4 }

/-- `reset`. -/
def reset (gs : Gs) (firstBlock : Option B) (firstBlockNum : UInt32) :
    Except FcException (BlockLogImpl B) := do
  let s := resetHeader env s gs 0 firstBlockNum
  let s ←
    match firstBlock with
    | some b => append env s b
    | none => pure s
  pure (setVersion s maxSupportedVersion)

/-! ## Opening -/

/-- The loop of `construct_index`: `while (pos < end_pos)`. -/
def constructIndexLoop (endPos : Nat) : Nat → Nat → Bytes → Bytes → Except FcException Bytes
  | 0, _, _, _ => .error ⟨.undefinedBehavior, "the loop does not end"⟩
  | fuel + 1, pos, stream, index =>
    if pos < endPos then do
      let (_, stream) ← env.unpack stream
      let (pos, stream) ← readNumber 8 stream
      constructIndexLoop endPos fuel pos stream (index ++ encode 8 pos)
    else .ok index

/-- `construct_index`: the index file. Every round of the loop reads eight bytes or more. -/
def constructIndex (version : Nat) (blockFile : Bytes) : Except FcException Bytes := do
  let endPos ← readLast blockFile
  let pos := if version = 1 then 4 else 8
  let (_, stream) ← env.unpackGenesis (blockFile.drop pos)
  let stream ← if version > 1 then (readNumber 8 stream).map Prod.snd else pure stream
  constructIndexLoop env endPos (blockFile.length + 1) pos stream []

/-- The version and the first block number at the start of a log. -/
def readHeader (blockFile : Bytes) : Except FcException (Nat × UInt32) := do
  let (version, stream) ← readNumber 4 blockFile
  eosAssert (version > 0) .blockLogException "Block log was not setup properly"
  eosAssert (version ≥ minSupportedVersion ∧ version ≤ maxSupportedVersion)
    .blockLogUnsupportedVersion
    ("Unsupported version of block log. Block log version is ${version} while code supports " ++
      "version(s) [${min},${max}]")
  if version > 1 then do
    let (firstBlockNum, _) ← readNumber 4 stream
    eosAssert (firstBlockNum > 0) .blockLogException
      ("Block log is malformed, first recorded block number is 0 but must be greater than or " ++
        "equal to 1")
    pure (version, UInt32.ofNat firstBlockNum)
  else pure (version, 1)

/-- The index a log is opened with: the one there is if it ends with the position of the head. -/
def checkIndex (version : Nat) (blockFile indexFile : Bytes) : Except FcException Bytes :=
  if indexFile.length ≠ 0 then do
    let blockPos ← readLast blockFile
    let indexPos ← readLast indexFile
    if blockPos < indexPos then constructIndex env version blockFile
    else if blockPos > indexPos then constructIndex env version blockFile
    else pure indexFile
  else constructIndex env version blockFile

/-- `open`; an empty log loses its index. -/
def openLog (blockFile indexFile : Bytes) : Except FcException (BlockLogImpl B) :=
  if blockFile.length ≠ 0 then do
    let (version, firstBlockNum) ← readHeader blockFile
    match ← readHead env blockFile with
    | none => .error ⟨.undefinedBehavior, "null pointer"⟩
    | some head => do
      let indexFile ← checkIndex env version blockFile indexFile
      pure
        { head := some head, headId := env.id head, genesisWrittenToBlockLog := true,
          version := version, firstBlockNum := firstBlockNum, blockFile := blockFile,
          indexFile := indexFile }
  else .ok {}

end BlockLog

end Forceio.Chain
