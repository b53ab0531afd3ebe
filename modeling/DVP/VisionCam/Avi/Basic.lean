import DVP.Lib.Bytes

/-!
# The AVI parser

The parser of `source/dvp/VisionCam/FileVisionCam.cpp`. A file is a list of bytes. A variable that is read
from it keeps what it held before where the file ends, and nothing initializes it: what it holds is part of
the state. The functions answer `none` when the calls or the rounds they are given do not suffice. What is
printed is left out.
-/

namespace DVP.VisionCam.FileVisionCam

open Bytes

/-! ## Files -/

/-- The width of a `long`. -/
inductive Long where
  | bits32
  | bits64
  deriving DecidableEq, Repr

/-- The conversion of a `uint32_t`. -/
def Long.ofU32 : Long → BitVec 32 → Int
  | .bits32, n => n.toInt
  | .bits64, n => n.toNat

/-- The state of `m_file`, with the bytes of the variables that the calls of `fread` to come are given. -/
structure AviState where
  pos : Nat
  uninit : Nat → Nat → UInt8

section File

variable (content : List UInt8)

/-- `fread` of one item of `n` bytes, with the bytes of the variable. -/
def fread (n : Nat) (s : AviState) : List UInt8 × AviState :=
  ((List.range n).map fun i => content.getD (s.pos + i) (s.uninit 0 i),
    { pos := s.pos + min n (content.length - s.pos)
      uninit := fun k => s.uninit (k + 1) })

/-- `fseek` from the current position. A position before the start of the file is refused. -/
def fseek (offset : Int) (s : AviState) : AviState :=
  { s with pos := if 0 ≤ s.pos + offset then (s.pos + offset).toNat else s.pos }

/-- The number at byte `i` of a variable. -/
def field (bytes : List UInt8) (i : Nat) : BitVec 32 := unitOf 32 ((bytes.drop i).take 4)

/-! ## Chunks and lists -/

/-- `FOURCC_RIFF` starts a file. -/
def fourccRiff : BitVec 32 := 0x46464952

/-- `FOURCC_LIST` starts a list. -/
def fourccList : BitVec 32 := 0x5453494C

/-- `FOURCC_AVI` says that the file is an AVI file. -/
def fourccAvi : BitVec 32 := 0x20495641

/-- `FOURCC_MOVI` is the type of the list of pictures. -/
def fourccMovi : BitVec 32 := 0x69766F6D

/-- `FOURCC_AVIH` starts the header of an AVI file. -/
def fourccAvih : BitVec 32 := 0x68697661

/-- `FOURCC_STRH` starts the header of a stream. -/
def fourccStrh : BitVec 32 := 0x68727473

/-- `AVI_Header_t`. -/
structure AviHeader where
  riffcode : BitVec 32
  size : BitVec 32
  typecode : BitVec 32

/-- `AVI_List_t`. -/
structure AviList where
  listcode : BitVec 32
  size : BitVec 32
  typecode : BitVec 32

/-- `AVI_Chunk_t`. -/
structure AviChunk where
  chunkcode : BitVec 32
  size : BitVec 32

/-- `fread` of a code. -/
def freadCode (s : AviState) : BitVec 32 × AviState :=
  let (bytes, s) := fread content 4 s
  (field bytes 0, s)

/-- `fread` of the header of a list. -/
def freadList (s : AviState) : AviList × AviState :=
  let (bytes, s) := fread content 12 s
  (⟨field bytes 0, field bytes 4, field bytes 8⟩, s)

/-- `fread` of the header of a chunk. -/
def freadChunk (s : AviState) : AviChunk × AviState :=
  let (bytes, s) := fread content 8 s
  (⟨field bytes 0, field bytes 4⟩, s)

/-! ## The parser -/

variable (long : Long)

/-- `avi_chunk_parse`. -/
def aviChunkParse (aChunk : AviChunk) (s : AviState) : BitVec 32 × AviState :=
  let size := aChunk.size + 4 + 4
  if aChunk.chunkcode = fourccAvih then
    -- `AVI_MainHeader_t`
    (size, (fread content 56 s).2)
  else if aChunk.chunkcode = fourccStrh then
    -- `AVI_StreamHeader_t`
    (size, (fread content 56 s).2)
  else
    -- skip over unknown types
    (size, fseek (long.ofU32 aChunk.size) s)

/-- The next sub item, with the function that parses lists. -/
def aviItem (listParse : AviList → AviState → Option (BitVec 32 × AviState)) (s : AviState) :
    Option (BitVec 32 × AviState) :=
  let (code, s) := freadCode content s
  -- back up over the code
  let s := fseek (-4) s
  if code = fourccList then
    let (anotherList, s) := freadList content s
    listParse anotherList s
  else
    let (aChunk, s) := freadChunk content s
    some (aviChunkParse content long aChunk s)

/-- The loop of `avi_list_parse`, from what is left of `aList->size`. -/
def aviItems (listParse : AviList → AviState → Option (BitVec 32 × AviState)) :
    (rounds : Nat) → BitVec 32 → AviState → Option AviState
  | 0, _, _ => none
  | rounds + 1, size, s => do
    let (n, s) ← aviItem content long listParse s
    let size := size - n
    if size > 0 then aviItems listParse rounds size s else some s

/-- `avi_list_parse`, with the number of nested calls and of rounds of a loop that it is given. -/
def aviListParse : (depth rounds : Nat) → AviList → AviState → Option (BitVec 32 × AviState)
  | 0, _, _, _ => none
  | depth + 1, rounds, aList, s => do
    let size := aList.size + 4 + 4
    -- remove the list type size since we've already read it
    let s ← aviItems content long (aviListParse depth rounds) rounds (aList.size - 4) s
    return (size, s)

/-- `avi_header_parse`. -/
def aviHeaderParse (depth rounds : Nat) (aHeader : AviHeader) (s : AviState) :
    Option (BitVec 32 × AviState) :=
  if aHeader.riffcode = fourccRiff ∧ aHeader.typecode = fourccAvi then
    aviItem content long (aviListParse content long depth rounds) s
  else some (0, s)

/-- The loop at the start of `RunThread` from what `movList` holds. It answers `movList`, or nothing when
the thread exits. -/
def findMovi : (rounds : Nat) → AviList → AviState → Option (Option AviList × AviState)
  | 0, _, _ => none
  | rounds + 1, movList, s =>
    let b := if s.pos + 4 ≤ content.length then 1 else 0
    let (code, s) := freadCode content s
    if b = 0 then some (none, s)
    else
      let s := fseek (-4) s
      let (movList, s) :=
        if code = fourccList then freadList content s
        else
          let (aChunk, s) := freadChunk content s
          (movList, fseek (long.ofU32 aChunk.size) s)
      if movList.listcode ≠ fourccList ∧ movList.typecode ≠ fourccMovi then
        findMovi rounds movList s
      else some (some movList, s)

end File

end DVP.VisionCam.FileVisionCam
