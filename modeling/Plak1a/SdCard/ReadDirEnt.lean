import Plak1a.SdCard.DirName

/-!
# What `Read_Dir_Ent` returns

For a directory in reach a call ends at the entry asked for or at the terminator. The
entry is returned as it is in the directory, but for names with blanks inside and for
two kinds of names in the first entry of a sector, where the string built in the buffer
runs into the extension or the attribute.
-/

namespace Plak1a.SdCard.ReadDirEnt

open Plak1a.Lib Plak1a.Lib.Listing Plak1a.SdCard.Fat Plak1a.SdCard.FatDir
open Plak1a.SdCard.FatDirectory Plak1a.SdCard.FatVolume Plak1a.SdCard.ReadFile
open Plak1a.SdCard.DirScan Plak1a.SdCard.DirInside Plak1a.SdCard.DirName
open Plak1a.SdCard.Mmc (blockSize)

section Congr

variable {buffer sector : Memory} {a : Nat}

theorem names_congr (h : ∀ i < blockSize, buffer i = sector i) (ha : a + 32 ≤ blockSize) :
    baseName buffer a = baseName sector a ∧ extension buffer a = extension sector a := by
  have hbytes (first n : Nat) (hn : first + n ≤ 11) :
      (List.range' first n).map (dirName buffer a) =
        (List.range' first n).map (dirName sector a) := by
    apply List.map_congr_left
    intro b hb
    have hlt := (List.mem_range'_1.mp hb).2
    exact h _ (by omega)
  constructor
  · exact congrArg unpadded (hbytes 0 8 (by decide))
  · exact congrArg unpadded (hbytes 8 3 (by decide))

theorem undisturbed_congr (h : ∀ i < blockSize, buffer i = sector i) (ha : a + 32 ≤ blockSize) :
    Undisturbed buffer a ↔ Undisturbed sector a := by
  obtain ⟨hbase, hext⟩ := names_congr h ha
  have hattr : dirAttr buffer a = dirAttr sector a := h _ (by omega)
  rw [Undisturbed, Undisturbed, NoGap, NoGap, hbase, hext, hattr]

theorem describes_congr (h : ∀ i < blockSize, buffer i = sector i) (ha : a + 32 ≤ blockSize)
    (r : DirEnt) : Describes buffer a r ↔ Describes sector a r := by
  obtain ⟨hbase, hext⟩ := names_congr h ha
  have hname : shortName buffer a = shortName sector a := by
    rw [shortName, shortName, hbase, hext]
  have hattr : dirAttr buffer a = dirAttr sector a := h _ (by omega)
  have hword (p : Nat) (hp : p ≤ 30) : word buffer (a + p) = word sector (a + p) := by
    rw [word, word, h _ (by omega), h _ (by omega)]
  have hsize : dirFileSize buffer a = dirFileSize sector a := by
    rw [dirFileSize, dirFileSize, hword 28 (by decide), hword 30 (by decide)]
  have hcluster : dirFstClusLO buffer a = dirFstClusLO sector a := hword 26 (by decide)
  constructor
  · intro hd
    refine ⟨?_, hd.dirAttrib.trans hattr, hd.size.trans hsize, hd.cluster.trans hcluster⟩
    rw [← hname]
    exact hd.name
  · intro hd
    refine ⟨?_, hd.dirAttrib.trans hattr.symm, hd.size.trans hsize.symm,
      hd.cluster.trans hcluster.symm⟩
    rw [hname]
    exact hd.name

end Congr

theorem offset_of_mem {sectors : List Nat} {e : Nat × Nat} (h : e ∈ entriesOf sectors) :
    (e.2 = 0 ∨ 32 ≤ e.2) ∧ e.2 + 32 ≤ blockSize := by
  obtain ⟨k, _, hk⟩ := List.mem_flatMap.mp h
  obtain ⟨a, ha, rfl⟩ := List.mem_map.mp hk
  exact (by decide : ∀ a ∈ offsets, (a = 0 ∨ 32 ≤ a) ∧ a + 32 ≤ blockSize) a ha

variable {v : Volume} {d : Directory v} {n : Nat} {e : Nat × Nat}

theorem mem_entries_of_ordinary (h : d.ordinary[n]? = some e) : e ∈ d.entries :=
  (List.takeWhile_sublist _).mem (List.mem_filter.mp (List.mem_of_getElem? h)).1

/-- An entry that has been found is returned right exactly if its name is undisturbed. -/
theorem describes_of_found {size : UInt32} {dirAttrib : UInt8} {t : State} {r : DirEnt}
    (he : e ∈ d.entries) (h : Outcome v.card size dirAttrib t (.found e) r) :
    Describes (v.card e.1) e.2 r ↔ Undisturbed (v.card e.1) e.2 := by
  obtain ⟨buffer, hbuf, hr⟩ := h
  obtain ⟨hstart, hend⟩ := offset_of_mem he
  rw [hr, ← describes_congr hbuf hend, ← undisturbed_congr hbuf hend]
  exact describes_iff buffer t hstart

/-- After `Cluster_Data_Store` the call returns the ordinary entry behind `Entry_Count`
others, or 0xFFFF when there is none. -/
def Lists (d : Directory v) (entryCount : UInt8) : Prop :=
  ∀ (stack buffer : Memory) (s : State) (size : UInt32) (dirAttrib : UInt8),
    ∃ fuel r, readDirEnt v.card fuel d.cluster entryCount size dirAttrib buffer
        (clusterDataStore v.card stack s) = some r ∧
      match d.ordinary[entryCount.toNat]? with
      | some e => Describes (v.card e.1) e.2 r
      | none => r.cluster = 0xFFFF

theorem undisturbed_of_lists {entryCount : UInt8} {m : Nat} (hm : InReach d entryCount.toNat m)
    (hl : Lists d entryCount) (he : d.ordinary[entryCount.toNat]? = some e) :
    Undisturbed (v.card e.1) e.2 := by
  obtain ⟨fuel, r, hread, hr⟩ := hl (fun _ => 0) (fun _ => 0) startUp 0 0
  have hk := hm.knows (fun _ => 0) startUp
  obtain ⟨t', r', _, hout, hcall⟩ := readDirEnt_inReach hm hk 0 0 (fun _ => 0)
  obtain rfl := readDirEnt_unique hk hread (hcall m (Nat.le_refl m)).1
  rw [he] at hr hout
  exact (describes_of_found (mem_entries_of_ordinary he) hout).mp hr

/-- For a directory in reach a call returns the entry asked for exactly if the name of that
entry is undisturbed; without such an entry it returns 0xFFFF. -/
theorem lists_iff (v : Volume) (d : Directory v) (entryCount : UInt8)
    (h : ∃ m, InReach d entryCount.toNat m) :
    Lists d entryCount ↔ ∀ e, d.ordinary[entryCount.toNat]? = some e →
      Undisturbed (v.card e.1) e.2 := by
  obtain ⟨m, hm⟩ := h
  constructor
  · exact fun hl e he => undisturbed_of_lists hm hl he
  · intro hall stack buffer s size dirAttrib
    obtain ⟨t', r, _, hout, hcall⟩ :=
      readDirEnt_inReach hm (hm.knows stack s) size dirAttrib buffer
    refine ⟨m, r, (hcall m (Nat.le_refl m)).1, ?_⟩
    cases he : d.ordinary[entryCount.toNat]? with
    | none =>
      rw [he] at hout
      obtain ⟨_, rfl⟩ := hout
      rfl
    | some e =>
      rw [he] at hout
      exact (describes_of_found (mem_entries_of_ordinary he) hout).mpr (hall e he)

/-- `ABCDEFGH.TXT`, an archive of five bytes in cluster 2. -/
def entryBytes : List UInt8 :=
  [0x41, 0x42, 0x43, 0x44, 0x45, 0x46, 0x47, 0x48, 0x54, 0x58, 0x54, 0x20] ++
    List.replicate 14 0 ++ [2, 0, 5, 0, 0, 0]

/-- The entry twice at the start of the root directory. -/
def twoEntries : Volume := withRoot (oneFileVolume smallRoot) fun k i =>
  if k = 96 ∧ i < 64 then entryBytes.getD (i % 32) 0 else 0

theorem twoEntries_inReach {n : Nat}
    (h : (Directory.lookIn twoEntries n
      ((Directory.root : Directory twoEntries).sectors.take 1)).Decided) :
    InReach (Directory.root : Directory twoEntries) n 1 := by
  refine ⟨by decide +kernel, h, ⟨96, by decide +kernel, by decide⟩, fun h0 => absurd rfl h0⟩

/-- The second entry is returned as it is. -/
theorem second_listed : Lists (Directory.root : Directory twoEntries) 1 := by
  apply (lists_iff twoEntries .root 1 ⟨1, twoEntries_inReach (by decide +kernel)⟩).mpr
  intro e he
  have hentry : (Directory.root : Directory twoEntries).ordinary[(1 : UInt8).toNat]? =
      some (96, 32) := by
    decide +kernel
  obtain rfl := Option.some.inj (hentry.symm.trans he)
  decide +kernel

/-- The first one, which has the same name, comes back as `ABCDEFGH....` with a dot for its
attribute. -/
theorem first_overwritten :
    shortName (twoEntries.card 96) 0 =
        [0x41, 0x42, 0x43, 0x44, 0x45, 0x46, 0x47, 0x48, dot, 0x54, 0x58, 0x54] ∧
      (readDirEnt twoEntries.card 1 0 0 0 0 (fun _ => 0)
        (clusterDataStore twoEntries.card (fun _ => 0) startUp)).map
          (fun r => ((List.range 13).map r.buffer, r.dirAttrib)) =
        some ([0x41, 0x42, 0x43, 0x44, 0x45, 0x46, 0x47, 0x48, dot, dot, dot, dot, 0], dot) ∧
      ¬ Lists (Directory.root : Directory twoEntries) 0 := by
  have hname : shortName (twoEntries.card 96) 0 =
      [0x41, 0x42, 0x43, 0x44, 0x45, 0x46, 0x47, 0x48, dot, 0x54, 0x58, 0x54] := by
    decide +kernel
  have hrun : (readDirEnt twoEntries.card 1 0 0 0 0 (fun _ => 0)
      (clusterDataStore twoEntries.card (fun _ => 0) startUp)).map
        (fun r => ((List.range 13).map r.buffer, r.dirAttrib)) =
      some ([0x41, 0x42, 0x43, 0x44, 0x45, 0x46, 0x47, 0x48, dot, dot, dot, dot, 0], dot) := by
    decide +kernel
  have hentry : (Directory.root : Directory twoEntries).ordinary[(0 : UInt8).toNat]? =
      some (96, 0) := by
    decide +kernel
  have hdisturbed : ¬ Undisturbed (twoEntries.card 96) 0 := by
    decide +kernel
  have hreach : InReach (Directory.root : Directory twoEntries) (0 : UInt8).toNat 1 :=
    twoEntries_inReach (by decide +kernel)
  exact ⟨hname, hrun, fun hl => hdisturbed (undisturbed_of_lists hreach hl hentry)⟩

end Plak1a.SdCard.ReadDirEnt
