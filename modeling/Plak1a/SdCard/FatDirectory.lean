import Mathlib.Data.List.DropRight
import Plak1a.Lib.Listing
import Plak1a.SdCard.FatDir
import Plak1a.SdCard.FatVolume

/-!
# Directories of a FAT16 volume

The root directory lies between the FATs and the data area, any other directory in the
clusters of its chain. Its entries are those of its sectors in order, up to the first
whose name starts with 0.
-/

namespace Plak1a.SdCard.FatDirectory

open Plak1a.Lib.Listing Plak1a.SdCard.Fat Plak1a.SdCard.FatDir Plak1a.SdCard.FatVolume
open Plak1a.SdCard.Mmc (blockSize)

inductive Directory (v : Volume) where
  | root
  | sub (c : UInt16) (cs : List UInt16) (chain : v.Chain c cs)

/-- The places of the entries in some sectors: the sector and the offset in it. -/
def entriesOf (sectors : List Nat) : List (Nat × Nat) :=
  sectors.flatMap fun k => offsets.map (Prod.mk k)

section Entry

variable (card : Card) (e : Nat × Nat)

def isTerminator : Bool := dirName (card e.1) e.2 0 = 0

/-- Neither free nor part of a long name. -/
def isOrdinary : Bool :=
  dirAttr (card e.1) e.2 ≠ attrLongName ∧ dirName (card e.1) e.2 0 ≠ dirEntryIsFree

end Entry

section Name

variable (sector : Memory) (a : Nat)

/-- The characters of the base and of the extension as stored. -/
def baseBytes : List UInt8 := (List.range' 0 8).map (dirName sector a)

def extensionBytes : List UInt8 := (List.range' 8 3).map (dirName sector a)

def unpadded (cs : List UInt8) : List UInt8 := cs.rdropWhile (· = space)

def baseName : List UInt8 := unpadded (baseBytes sector a)

def extension : List UInt8 := unpadded (extensionBytes sector a)

/-- The name in 8.3 form. -/
def shortName : List UInt8 :=
  baseName sector a ++ if extension sector a = [] then [] else dot :: extension sector a

end Name

namespace Directory

variable {v : Volume} (d : Directory v)

/-- The number by which the driver knows the directory. -/
def cluster : UInt16 :=
  match d with
  | root => 0
  | sub c _ _ => c

@[simp] theorem cluster_root : (root : Directory v).cluster = 0 := rfl

@[simp] theorem cluster_sub (c : UInt16) (cs : List UInt16) (chain : v.Chain c cs) :
    (sub c cs chain).cluster = c := rfl

def sectors : List Nat :=
  match d with
  | root => List.range' v.layout.rootStart (v.layout.rootEntCnt.toNat * 32 / blockSize)
  | sub _ cs _ =>
    cs.flatMap fun x => (List.range v.layout.secPerClus.toNat).map (v.layout.blockSector x)

def entries : List (Nat × Nat) := entriesOf d.sectors

/-- The ordinary entries before the terminator. -/
def ordinary : List (Nat × Nat) := listed (isTerminator v.card) (isOrdinary v.card) d.entries

/-- The search for the ordinary entry behind `n` others, in the sectors given. -/
def lookIn (v : Volume) (n : Nat) (sectors : List Nat) : Look (Nat × Nat) :=
  look (isTerminator v.card) (isOrdinary v.card) n (entriesOf sectors)

end Directory

theorem entriesOf_cons (k : Nat) (ks : List Nat) :
    entriesOf (k :: ks) = offsets.map (Prod.mk k) ++ entriesOf ks := List.flatMap_cons

theorem entriesOf_append (ks ls : List Nat) :
    entriesOf (ks ++ ls) = entriesOf ks ++ entriesOf ls := List.flatMap_append

variable {v : Volume} {d : Directory v} {n : Nat} {ks : List Nat}

theorem decided_of_take {m : Nat} (h : (Directory.lookIn v n (ks.take m)).Decided) :
    (Directory.lookIn v n ks).Decided := by
  rw [Directory.lookIn] at h
  rw [← List.take_append_drop m ks, Directory.lookIn, entriesOf_append, look_append_of_decided h]
  exact h

/-- Where the search is over in the first sectors of a directory, it has found what the
directory lists. -/
theorem lookIn_eq (hp : ks <+: d.sectors) (hd : (Directory.lookIn v n ks).Decided) :
    Directory.lookIn v n ks = .ofOption d.ordinary[n]? := by
  obtain ⟨ls, hls⟩ := hp
  have hall : look (isTerminator v.card) (isOrdinary v.card) n d.entries =
      Directory.lookIn v n ks := by
    rw [Directory.entries, ← hls, entriesOf_append]
    exact look_append_of_decided hd
  rw [← hall]
  exact look_decided (hall ▸ hd)

theorem chain_ne_zero {c : UInt16} {cs : List UInt16} (h : v.Chain c cs) : c ≠ 0 := by
  intro h0
  have hc := h.cell.1
  rw [h0] at hc
  exact absurd hc (by decide)

/-- The volume with other sectors in the root directory. -/
def withRoot (v : Volume) (root : Card) : Volume :=
  v.overlay (vbr_lt_rootStart v.layout) (v.layout.dataStart - v.layout.rootStart) root

/-- No sector of a directory is sector 0. -/
theorem sectors_pos (d : Directory v) : ∀ k ∈ d.sectors, v.layout.vbr.toNat < k := by
  have hstart := vbr_lt_rootStart v.layout
  intro k hk
  cases d with
  | root => exact Nat.lt_of_lt_of_le hstart (List.mem_range'_1.mp hk).1
  | sub c cs chain =>
    obtain ⟨x, _, hx⟩ := List.mem_flatMap.mp hk
    obtain ⟨b, _, rfl⟩ := List.mem_map.mp hx
    exact Nat.lt_of_lt_of_le hstart (rootStart_le_blockSector _ x b)

end Plak1a.SdCard.FatDirectory
