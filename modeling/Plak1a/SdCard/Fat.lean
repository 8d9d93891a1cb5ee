import Plak1a.Lib.While
import Plak1a.Lib.Memory
import Plak1a.SdCard.Mmc

/-!
# The FAT16 functions of the SD card program

`mmc_read_sector` is taken to deliver the sector it is asked for; the sectors asked
for are kept in order. The structs are packed and little-endian, so that a field is
read at its byte offset. Arithmetic on promoted operands is done in `Nat` where it
cannot leave the range of `int`, and reduced where the source assigns it. A division
by a `ClusterSize` of 0 is undefined in the source and 0 here.
-/

namespace Plak1a.SdCard.Fat

open Plak1a.Lib Plak1a.SdCard.Mmc

abbrev Memory := Nat → UInt8

/-- The bytes of a sector by its number. -/
abbrev Card := Nat → Memory

/-- The globals of `fat.c`, and the sectors asked for since the start, in order. -/
structure State where
  clusterSize : UInt8
  fatOffset : UInt16
  clusterOffset : UInt16
  volumeBootRecordAddr : UInt16
  reads : List UInt32

/-- The globals at start-up. -/
def startUp : State := ⟨0, 0, 0, 0, []⟩

/-- Two bytes in little-endian order. -/
def word (buffer : Memory) (p : Nat) : UInt16 :=
  (buffer p).toUInt16 + (buffer (p + 1)).toUInt16 <<< 8

/-- `VBR_Addr` -/
def vbrAddr : Nat := 0x1C6

/-- `MasterBootRecord` -/
def masterBootRecord : UInt32 := 0

section BootSec

variable (bootp : Memory)

def bpbBytesPerSec : UInt16 := word bootp 11
def bpbSecPerClus : UInt8 := bootp 13
def bpbRsvdSecCnt : UInt16 := word bootp 14
def bpbNumFATs : UInt8 := bootp 16
def bpbRootEntCnt : UInt16 := word bootp 17
def bpbFATSz16 : UInt16 := word bootp 22

end BootSec

section Functions

variable (card : Card)

def mmcReadSector (addr : UInt32) (buffer : Memory) (s : State) : Memory × State :=
  (Memory.copy buffer 0 (card addr.toNat) 0 blockSize, { s with reads := s.reads ++ [addr] })

/-- The value, the buffer and the state afterwards. -/
def fatAddr (buffer : Memory) (s : State) : UInt16 × Memory × State :=
  let (buffer, s) := mmcReadSector card masterBootRecord buffer s
  let volumeBootRecordAddr := word buffer vbrAddr
  let (buffer, s) := mmcReadSector card volumeBootRecordAddr.toUInt32 buffer s
  (volumeBootRecordAddr, buffer, s)

def rootDirAddr (buffer : Memory) (s : State) : UInt16 × Memory × State :=
  let (buffer, s) := mmcReadSector card s.volumeBootRecordAddr.toUInt32 buffer s
  let firstRootDirSecNum := UInt16.ofNat ((bpbRsvdSecCnt buffer).toNat +
    (bpbNumFATs buffer).toNat * (bpbFATSz16 buffer).toNat)
  (firstRootDirSecNum + s.volumeBootRecordAddr, buffer, s)

/-- The variables of `Load_FAT`. -/
structure Walk where
  a : UInt16
  cluster : UInt16
  fatBlockStore : UInt16
  buffer : Memory
  state : State

/-- Neither the `return` nor the `break` is taken. -/
def moreClusters (block : UInt32) (w : Walk) : Bool :=
  w.a.toUInt32 ≠ block ∧ w.cluster ≠ 0xFFFF

/-- The rest of a round of `Load_FAT`. -/
def nextCluster (w : Walk) : Walk :=
  let fatByteAddresse := w.cluster.toNat * 2 % blockSize
  let fatBlockAddresse := UInt16.ofNat (w.cluster.toNat * 2 / blockSize +
    w.state.volumeBootRecordAddr.toNat + w.state.fatOffset.toNat)
  let (buffer, state) :=
    if fatBlockAddresse ≠ w.fatBlockStore then
      mmcReadSector card fatBlockAddresse.toUInt32 w.buffer w.state
    else (w.buffer, w.state)
  { a := w.a + 1
    cluster := word buffer fatByteAddresse
    fatBlockStore := fatBlockAddresse
    buffer := buffer
    state := state }

/-- `Load_FAT` with at most `fuel` tests of its loop: the value left in `*Block`, the
buffer and the state. The `break` leaves `*Block` as it was. -/
def loadFAT (fuel : Nat) (cluster : UInt16) (block : UInt32) (buffer : Memory) (s : State) :
    Option (UInt32 × Memory × State) :=
  (While.run (moreClusters block) (nextCluster card) fuel ⟨0, cluster, 0, buffer, s⟩).map
    fun w => (if w.a.toUInt32 = block then w.cluster.toUInt32 else block, w.buffer, w.state)

/-- `Cluster_Data_Store`; its own `Buffer` starts with the bytes given. -/
def clusterDataStore (buffer : Memory) (s : State) : State :=
  let (volumeBootRecordAddr, buffer, s) := fatAddr card buffer s
  let s := { s with volumeBootRecordAddr := volumeBootRecordAddr }
  let (buffer, s) := mmcReadSector card s.volumeBootRecordAddr.toUInt32 buffer s
  let s :=
    { s with
      clusterSize := bpbSecPerClus buffer
      fatOffset := bpbRsvdSecCnt buffer
      clusterOffset := UInt16.ofNat ((bpbBytesPerSec buffer).toNat * 32 / blockSize) }
  let (root, _, s) := rootDirAddr card buffer s
  { s with clusterOffset := s.clusterOffset + root }

/-- `Read_File`: the buffer and the state afterwards. -/
def readFile (fuel : Nat) (cluster : UInt16) (buffer : Memory) (blockCount : UInt32)
    (s : State) : Option (Memory × State) :=
  let clusterSize := s.clusterSize.toUInt32
  (loadFAT card fuel cluster (blockCount / clusterSize) buffer s).map fun (block, buffer, s) =>
    let block := (block - 2) * clusterSize + s.clusterOffset.toUInt32
    let block := block + blockCount % clusterSize
    mmcReadSector card block buffer s

end Functions

end Plak1a.SdCard.Fat
