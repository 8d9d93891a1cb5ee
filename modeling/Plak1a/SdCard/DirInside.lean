import Plak1a.SdCard.DirScan

/-!
# Whether the scan stays inside the directory

The scan of a directory is right as long as the sectors of the directory follow each
other below sector 2^16 up to one that decides, and begin where the driver looks. It
leaves a directory without terminator, and every chain that jumps before the entry asked
for.
-/

namespace Plak1a.SdCard.DirInside

open Plak1a.Lib.Listing Plak1a.SdCard.Fat Plak1a.SdCard.FatDir Plak1a.SdCard.FatDirectory
open Plak1a.SdCard.FatVolume Plak1a.SdCard.ReadFile Plak1a.SdCard.DirScan

/-- The sectors that a call of `Read_Dir_Ent` reads in its loop over `blk`. -/
def parsed (card : Card) (fuel : Nat) (dirCluster : UInt16) (entryCount : UInt8) (size : UInt32)
    (dirAttrib : UInt8) (buffer : Memory) (s : State) : Option (List Nat) :=
  (dirBlock card fuel dirCluster buffer s).bind fun (block, buffer, t) =>
    (scan card entryCount size dirAttrib fuel block.toUInt16 0 buffer t).map fun r =>
      (r.state.reads.drop t.reads.length).map UInt32.toNat

variable {v : Volume} {d : Directory v}

/-- After `Cluster_Data_Store` the call returns, having parsed the first sectors of the
directory in their order and no others. -/
def StaysInside (d : Directory v) (entryCount : UInt8) : Prop :=
  ∀ (stack buffer : Memory) (s : State) (size : UInt32) (dirAttrib : UInt8),
    ∃ fuel r ks, readDirEnt v.card fuel d.cluster entryCount size dirAttrib buffer
        (clusterDataStore v.card stack s) = some r ∧
      parsed v.card fuel d.cluster entryCount size dirAttrib buffer
        (clusterDataStore v.card stack s) = some ks ∧
      ks <+: d.sectors

/-- The terminator or the ordinary entry behind `n` others is in the first `m` sectors of
the directory, these follow each other below sector 2^16, and unless they are those of the
root directory, the root directory has the 512 entries the driver assumes. -/
structure InReach (d : Directory v) (n m : Nat) : Prop where
  le : m ≤ d.sectors.length
  decided : (Directory.lookIn v n (d.sectors.take m)).Decided
  consecutive : ∃ first, d.sectors.take m = List.range' first m ∧ first + m ≤ 2 ^ 16
  known : d.cluster ≠ 0 → v.layout.rootEntCnt.toNat = 512

theorem InReach.pos {n m : Nat} (h : InReach d n m) : 0 < m := by
  rcases Nat.eq_zero_or_pos m with rfl | hm
  · exact absurd h.decided Look.not_decided_more
  · exact hm

theorem first_of_take {m first : Nat} (hm : 0 < m) (h : d.sectors.take m = List.range' first m) :
    first = firstSector d := by
  obtain ⟨m, rfl⟩ := Nat.exists_eq_add_of_lt hm
  apply head_sectors
  rw [Nat.zero_add] at h
  have hget := congrArg (fun l => l[0]?) h
  rw [List.getElem?_take_of_lt (Nat.succ_pos m), List.range'_succ] at hget
  exact hget

theorem InReach.decided_all {n m : Nat} (h : InReach d n m) :
    (Directory.lookIn v n d.sectors).Decided := decided_of_take h.decided

theorem InReach.first_lt {n m : Nat} (h : InReach d n m) : firstSector d + m ≤ 2 ^ 16 := by
  obtain ⟨first, htake, hle⟩ := h.consecutive
  rwa [first_of_take h.pos htake] at hle

theorem vbr_lt_firstSector (d : Directory v) : v.layout.vbr.toNat < firstSector d := by
  have hstart := vbr_lt_rootStart v.layout
  cases d with
  | root => exact hstart
  | sub c cs chain => exact Nat.lt_of_lt_of_le hstart (rootStart_le_blockSector _ c 0)

/-- The driver's first sector number for a directory in reach. -/
theorem InReach.sectorsFrom_eq {n m : Nat} (h : InReach d n m) {blk : UInt16}
    (hblk : blk.toNat = firstBlk d % 2 ^ 16) {j : Nat} (hj : j ≤ m) :
    sectorsFrom blk j = d.sectors.take j := by
  have hpos := h.pos
  have hlt := h.first_lt
  obtain ⟨first, htake, _⟩ := h.consecutive
  obtain rfl := first_of_take hpos htake
  rw [(firstBlk_eq_iff (by omega)).mpr h.known] at hblk
  have hpre : (d.sectors.take m).take j = (List.range' (firstSector d) m).take j := by
    rw [htake]
  rw [List.take_take, Nat.min_eq_left hj, List.take_range'_of_length_ge hj] at hpre
  rw [DirScan.sectorsFrom_eq j (by omega), hblk, hpre]

theorem takeEntry_state (a : Nat) (buffer : Memory) (s : State) :
    (takeEntry a buffer s).state = s := by
  unfold takeEntry
  generalize copyName a buffer = r
  rfl

theorem Outcome.state {card : Card} {size : UInt32} {dirAttrib : UInt8} {t : State}
    {res : Look (Nat × Nat)} {r : DirEnt} (h : Outcome card size dirAttrib t res r) :
    r.state = t := by
  cases res with
  | ended =>
    obtain ⟨_, rfl⟩ := h
    rfl
  | found e =>
    obtain ⟨buffer, _, hr⟩ := h
    rw [hr, takeEntry_state]
  | more n => exact absurd h id

theorem parsed_of_scan {fuel : Nat} {entryCount : UInt8} {size block : UInt32}
    {dirAttrib : UInt8} {buffer buffer' : Memory} {t t' : State} {r : DirEnt} {bs : List UInt16}
    (hblock : dirBlock v.card fuel d.cluster buffer t = some (block, buffer', t'))
    (hscan : scan v.card entryCount size dirAttrib fuel block.toUInt16 0 buffer' t' = some r)
    (hr : r.state = afterRead t' bs) :
    readDirEnt v.card fuel d.cluster entryCount size dirAttrib buffer t = some r ∧
      parsed v.card fuel d.cluster entryCount size dirAttrib buffer t =
        some (bs.map UInt16.toNat) := by
  constructor
  · rw [readDirEnt, hblock]
    exact hscan
  · rw [parsed, hblock]
    show (scan _ _ _ _ _ _ _ _ _).map _ = _
    rw [hscan, Option.map_some, hr, afterRead, List.drop_left, List.map_map]
    rfl

/-- A call for a directory in reach: it returns what the directory lists. -/
theorem readDirEnt_inReach {entryCount : UInt8} {m : Nat} {t : State}
    (h : InReach d entryCount.toNat m) (hk : Knows v t) (size : UInt32) (dirAttrib : UInt8)
    (buffer : Memory) :
    ∃ t' r, Knows v t' ∧
      Outcome v.card size dirAttrib t' (.ofOption d.ordinary[entryCount.toNat]?) r ∧
      ∀ fuel, m ≤ fuel →
        readDirEnt v.card fuel d.cluster entryCount size dirAttrib buffer t = some r ∧
        ∃ ks, parsed v.card fuel d.cluster entryCount size dirAttrib buffer t = some ks ∧
          ks <+: d.sectors := by
  obtain ⟨block, buffer', t', hblock, hfirst, hk'⟩ := dirBlock_spec hk d buffer
  have hall := h.sectorsFrom_eq hfirst (Nat.le_refl m)
  obtain ⟨j, hj, hd, r, hr, hscan⟩ := scan_spec size dirAttrib m buffer' t'
    (show (0 : UInt16).toNat + entryCount.toNat = entryCount.toNat from Nat.zero_add _)
    (hall ▸ h.decided)
  have htake := h.sectorsFrom_eq hfirst hj
  refine ⟨afterRead t' (blks block.toUInt16 j), r, hk'.withReads _, ?_, fun fuel hfuel => ?_⟩
  · have hpre : d.sectors.take j <+: d.sectors := List.take_prefix _ _
    rw [htake] at hr hd
    rw [lookIn_eq hpre hd] at hr
    exact hr
  · have hm := h.pos
    obtain ⟨fuel, rfl⟩ := Nat.exists_eq_add_of_lt (Nat.lt_of_lt_of_le hm hfuel)
    rw [Nat.zero_add] at hfuel ⊢
    obtain ⟨hread, hparsed⟩ := parsed_of_scan (hblock fuel) (hscan _ hfuel) (Outcome.state hr)
    refine ⟨hread, _, hparsed, ?_⟩
    show sectorsFrom _ j <+: _
    rw [htake]
    exact List.take_prefix _ _

theorem scan_mono {entryCount : UInt8} {size : UInt32} {dirAttrib : UInt8} {fuel fuel' : Nat}
    {blk : UInt16} {buffer : Memory} {s : State} {r : DirEnt} (hle : fuel ≤ fuel')
    (h : scan v.card entryCount size dirAttrib fuel blk 0 buffer s = some r) :
    scan v.card entryCount size dirAttrib fuel' blk 0 buffer s = some r := by
  have hn : (0 : UInt16).toNat + entryCount.toNat = entryCount.toNat := Nat.zero_add _
  obtain ⟨_, _, _, r', _, hall⟩ :=
    scan_spec size dirAttrib fuel buffer s hn (decided_of_scan fuel hn h)
  obtain rfl := Option.some.inj ((hall fuel (Nat.le_refl fuel)).symm.trans h)
  exact hall fuel' hle

/-- The result of a call does not depend on the bound. -/
theorem readDirEnt_unique {entryCount : UInt8} {size : UInt32} {dirAttrib : UInt8}
    {fuel fuel' : Nat} {buffer : Memory} {t : State} {r r' : DirEnt} (hk : Knows v t)
    (h : readDirEnt v.card fuel d.cluster entryCount size dirAttrib buffer t = some r)
    (h' : readDirEnt v.card fuel' d.cluster entryCount size dirAttrib buffer t = some r') :
    r = r' := by
  obtain ⟨block, buffer', t', hblock, -⟩ := dirBlock_spec hk d buffer
  have hscan {fuel : Nat} {r : DirEnt}
      (h : readDirEnt v.card fuel d.cluster entryCount size dirAttrib buffer t = some r) :
      scan v.card entryCount size dirAttrib fuel block.toUInt16 0 buffer' t' = some r := by
    cases fuel with
    | zero =>
      obtain ⟨_, _, hnone⟩ := Option.bind_eq_some_iff.mp h
      cases hnone
    | succ fuel =>
      rw [readDirEnt, hblock] at h
      exact h
  have hmax := scan_mono (Nat.le_max_left fuel fuel') (hscan h)
  have hmax' := scan_mono (Nat.le_max_right fuel fuel') (hscan h')
  exact Option.some.inj (hmax.symm.trans hmax')

theorem InReach.knows {n m : Nat} (h : InReach d n m) (stack : Memory) (s : State) :
    Knows v (clusterDataStore v.card stack s) := by
  have hlt := vbr_lt_firstSector d
  have hle := h.first_lt
  exact knows_stored stack s (by omega)

theorem staysInside_of_inReach {entryCount : UInt8} {m : Nat}
    (h : InReach d entryCount.toNat m) : StaysInside d entryCount := by
  intro stack buffer s size dirAttrib
  obtain ⟨t', r, _, _, hcall⟩ :=
    readDirEnt_inReach h (h.knows stack s) size dirAttrib buffer
  obtain ⟨hread, ks, hparsed, hpre⟩ := hcall m (Nat.le_refl m)
  exact ⟨m, r, ks, hread, hparsed, hpre⟩

/-- The sectors a call has parsed are consecutive 16-bit numbers up to one that decides. -/
theorem of_parsed {fuel : Nat} {entryCount : UInt8} {size : UInt32} {dirAttrib : UInt8}
    {buffer : Memory} {t : State} {ks : List Nat}
    (h : parsed v.card fuel d.cluster entryCount size dirAttrib buffer t = some ks) :
    ∃ block buffer' t' j, dirBlock v.card fuel d.cluster buffer t = some (block, buffer', t') ∧
      ks = sectorsFrom block.toUInt16 j ∧ 0 < fuel ∧
      (Directory.lookIn v entryCount.toNat ks).Decided := by
  unfold parsed at h
  obtain ⟨⟨block, buffer', t'⟩, hblock, hmap⟩ := Option.bind_eq_some_iff.mp h
  obtain ⟨r, hscan, hks⟩ := Option.map_eq_some_iff.mp hmap
  have hn : (0 : UInt16).toNat + entryCount.toNat = entryCount.toNat := Nat.zero_add _
  obtain ⟨j, hj, hd, r', hr, hall⟩ :=
    scan_spec size dirAttrib fuel buffer' t' hn (decided_of_scan fuel hn hscan)
  obtain rfl := Option.some.inj ((hall fuel (Nat.le_refl fuel)).symm.trans hscan)
  refine ⟨block, buffer', t', j, hblock, ?_, ?_, ?_⟩
  · rw [← hks, Outcome.state hr, afterRead, List.drop_left, List.map_map]
    rfl
  · rcases Nat.eq_zero_or_pos fuel with rfl | hpos
    · cases hscan
    · exact hpos
  · rw [← hks, Outcome.state hr, afterRead, List.drop_left, List.map_map]
    exact hd

theorem reach_of_staysInside {entryCount : UInt8} (h : StaysInside d entryCount) :
    ∃ m, InReach d entryCount.toNat m := by
  obtain ⟨fuel, r, ks, _, hparsed, hpre⟩ := h (fun _ => 0) (fun _ => 0) startUp 0 0
  obtain ⟨block, buffer', t', j, hblock, rfl, hfuel, hd⟩ := of_parsed hparsed
  have hlen := length_sectorsFrom block.toUInt16 j
  have htake : d.sectors.take j = sectorsFrom block.toUInt16 j := by
    have heq := List.prefix_iff_eq_take.mp hpre
    rw [hlen] at heq
    exact heq.symm
  have hj : 0 < j := by
    rcases Nat.eq_zero_or_pos j with rfl | hj
    · exact absurd hd Look.not_decided_more
    · exact hj
  have hwrap : block.toUInt16.toNat + j ≤ 2 ^ 16 := by
    apply sectorsFrom_wrap j hj
    intro k hk
    have hpos := sectors_pos d k (hpre.mem hk)
    omega
  have hrange := htake.trans (sectorsFrom_eq j hwrap)
  have hfirst := first_of_take hj hrange
  have hvbr := vbr_lt_firstSector d
  -- below sector 2^16 the driver knows the volume, and its first sector is the right one
  obtain ⟨fuel, rfl⟩ := Nat.exists_eq_add_of_lt hfuel
  obtain ⟨block', _, _, hblock', hblk, _⟩ :=
    dirBlock_spec (knows_stored (fun _ => 0) startUp (by omega)) d (fun _ => 0)
  rw [Nat.zero_add, hblock' fuel] at hblock
  obtain ⟨rfl, -⟩ := Prod.mk.inj (Option.some.inj hblock)
  refine ⟨j, hlen ▸ hpre.length_le, ?_, ?_, ?_⟩
  · rw [htake]
    exact hd
  · exact ⟨_, hrange, hwrap⟩
  · exact (firstBlk_eq_iff (by omega)).mp (hblk.symm.trans hfirst)

/-- A call returns and parses sectors of the directory only, in their order, exactly if the
directory is in reach. -/
theorem staysInside_iff (v : Volume) (d : Directory v) (entryCount : UInt8) :
    StaysInside d entryCount ↔ ∃ m, InReach d entryCount.toNat m := by
  constructor
  · exact reach_of_staysInside
  · intro ⟨m, h⟩
    exact staysInside_of_inReach h

/-- A root directory of 16 sectors full of free entries, without a terminator. -/
def fullRoot : Volume := withRoot (oneFileVolume smallRoot) fun _ _ => dirEntryIsFree

/-- The scan goes on into the data area: sector 112 is that of the file in cluster 2. -/
theorem fullRoot_left :
    (Directory.root : Directory fullRoot).sectors = List.range' 96 16 ∧
      parsed fullRoot.card 17 0 0 0 0 (fun _ => 0)
        (clusterDataStore fullRoot.card (fun _ => 0) startUp) = some (List.range' 96 17) ∧
      ¬ StaysInside (Directory.root : Directory fullRoot) 0 := by
  have hparsed : parsed fullRoot.card 17 0 0 0 0 (fun _ => 0)
      (clusterDataStore fullRoot.card (fun _ => 0) startUp) = some (List.range' 96 17) := by
    decide +kernel
  have hopen : ¬ (Directory.lookIn fullRoot (0 : UInt8).toNat
      (Directory.root : Directory fullRoot).sectors).Decided := by
    decide +kernel
  refine ⟨rfl, hparsed, fun h => ?_⟩
  obtain ⟨m, hm⟩ := reach_of_staysInside h
  exact hopen hm.decided_all

end Plak1a.SdCard.DirInside
