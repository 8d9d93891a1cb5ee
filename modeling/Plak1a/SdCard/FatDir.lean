import Mathlib.Logic.Function.Basic
import Plak1a.SdCard.Fat

/-!
# `Read_Dir_Ent` and `Search_File`

A directory entry is a place in the sector buffer, `dir = &Buffer[a]`, and its fields
are read there at the time the source reads them: the name is written to the start of
the same buffer. What a call leaves behind its pointer arguments is part of its result.
-/

namespace Plak1a.SdCard.FatDir

open Plak1a.SdCard.Fat
open Plak1a.SdCard.Mmc (blockSize)

/-- `SPACE` -/
def space : UInt8 := 0x20

/-- `DIR_ENTRY_IS_FREE` -/
def dirEntryIsFree : UInt8 := 0xE5

/-- `ATTR_LONG_NAME` -/
def attrLongName : UInt8 := 0x0F

/-- `'.'` -/
def dot : UInt8 := 0x2E

section DirEntry

variable (buffer : Memory) (a : Nat)

/-- `dir->DIR_Name[b]` -/
def dirName (b : Nat) : UInt8 := buffer (a + b)

def dirAttr : UInt8 := buffer (a + 11)

def dirFstClusLO : UInt16 := word buffer (a + 26)

def dirFileSize : UInt32 :=
  (word buffer (a + 28)).toUInt32 + (word buffer (a + 30)).toUInt32 <<< 16

end DirEntry

/-- The returned cluster, `*Size`, `*Dir_Attrib`, the buffer and the globals after a call. -/
structure DirEnt where
  cluster : UInt16
  size : UInt32
  dirAttrib : UInt8
  buffer : Memory
  state : State

/-- A round of the loop over `b`, for the pointer as an index into the buffer. -/
def copyChar (a : Nat) (r : Nat × Memory) (b : Nat) : Nat × Memory :=
  let (pointer, buffer) := r
  if dirName buffer a b ≠ space then
    let (pointer, buffer) :=
      if b = 8 then (pointer + 1, Function.update buffer pointer dot) else (pointer, buffer)
    (pointer + 1, Function.update buffer pointer (dirName buffer a b))
  else (pointer, buffer)

/-- `for(b=0;b<11;b++)` -/
def copyName (a : Nat) (buffer : Memory) : Nat × Memory :=
  (List.range 11).foldl (copyChar a) (0, buffer)

/-- The branch of the entry asked for. -/
def takeEntry (a : Nat) (buffer : Memory) (s : State) : DirEnt :=
  let (pointer, buffer) := copyName a buffer
  let buffer := Function.update buffer pointer 0
  { cluster := dirFstClusLO buffer a
    size := dirFileSize buffer a
    dirAttrib := dirAttr buffer a
    buffer := buffer
    state := s }

/-- How the loop over the entries of a sector ends: with the entry whose name starts with
0, with the entry asked for, or at the end with `TMP_Entry_Count` as it is then. -/
inductive Parsed where
  | terminator
  | wanted (a : Nat)
  | exhausted (tmpEntryCount : UInt16)

/-- The loop over `a`, for the values that are left. -/
def parse (entryCount : UInt8) (buffer : Memory) : List Nat → UInt16 → Parsed
  | [], tmpEntryCount => .exhausted tmpEntryCount
  | a :: as, tmpEntryCount =>
    if dirName buffer a 0 = 0 then .terminator
    else if dirAttr buffer a ≠ attrLongName ∧ dirName buffer a 0 ≠ dirEntryIsFree then
      if tmpEntryCount = entryCount.toUInt16 then .wanted a
      else parse entryCount buffer as (tmpEntryCount + 1)
    else parse entryCount buffer as tmpEntryCount

/-- `for (a=0;a<BlockSize; a = a + 32)` -/
def offsets : List Nat := (List.range (blockSize / 32)).map (· * 32)

section Functions

variable (card : Card)

/-- `for (blk = Block;;blk++)`, for at most `fuel` sectors. -/
def scan (entryCount : UInt8) (size : UInt32) (dirAttrib : UInt8) :
    Nat → UInt16 → UInt16 → Memory → State → Option DirEnt
  | 0, _, _, _, _ => none
  | fuel + 1, blk, tmpEntryCount, buffer, s =>
    let (buffer, s) := mmcReadSector card blk.toUInt32 buffer s
    match parse entryCount buffer offsets tmpEntryCount with
    | .terminator => some ⟨0xFFFF, size, dirAttrib, buffer, s⟩
    | .wanted a => some (takeEntry a buffer s)
    | .exhausted tmpEntryCount =>
      scan entryCount size dirAttrib fuel (blk + 1) tmpEntryCount buffer s

/-- `Block` before the loop, with the buffer and the globals. -/
def dirBlock (fuel : Nat) (dirCluster : UInt16) (buffer : Memory) (s : State) :
    Option (UInt32 × Memory × State) :=
  if dirCluster = 0 then
    let (root, buffer, s) := rootDirAddr card buffer s
    some (root.toUInt32, buffer, s)
  else
    (loadFAT card fuel dirCluster 0 buffer s).map fun (block, buffer, s) =>
      ((block - 2) * s.clusterSize.toUInt32 + s.clusterOffset.toUInt32, buffer, s)

/-- `Read_Dir_Ent` with at most `fuel` rounds of each of its loops. -/
def readDirEnt (fuel : Nat) (dirCluster : UInt16) (entryCount : UInt8) (size : UInt32)
    (dirAttrib : UInt8) (buffer : Memory) (s : State) : Option DirEnt :=
  (dirBlock card fuel dirCluster buffer s).bind fun (block, buffer, s) =>
    scan card entryCount size dirAttrib fuel block.toUInt16 0 buffer s

/-- `strcmp(Buffer,File_Name) == 0`, from byte `i` on, for the characters of the file name
before its NUL. -/
def sameString (buffer : Memory) : Nat → List UInt8 → Bool
  | i, [] => buffer i = 0
  | i, c :: cs => buffer i = c && sameString buffer (i + 1) cs

/-- `for (a = 0;a < 100;a++)` with `todo` rounds left; the returned value, and what the last
`Read_Dir_Ent` has left with its result in `*Cluster`. -/
def searchLoop (fuel : Nat) (fileName : List UInt8) (dirClusterStore : UInt16) :
    Nat → UInt8 → DirEnt → Option (UInt8 × DirEnt)
  | 0, _, r => some (2, r)
  | todo + 1, a, r =>
    (readDirEnt card fuel dirClusterStore a r.size r.dirAttrib r.buffer r.state).bind fun r =>
      if r.cluster = 0xFFFF then some (0, r)
      else if sameString r.buffer 0 fileName then some (1, r)
      else searchLoop fuel fileName dirClusterStore todo (a + 1) r

/-- `Search_File`; `r` holds what its pointer arguments point to. -/
def searchFile (fuel : Nat) (fileName : List UInt8) (r : DirEnt) : Option (UInt8 × DirEnt) :=
  searchLoop card fuel fileName r.cluster 100 0 r

end Functions

end Plak1a.SdCard.FatDir
