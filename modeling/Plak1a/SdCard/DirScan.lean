import Plak1a.SdCard.FatDirectory
import Plak1a.SdCard.ReadFile

/-!
# Where the scan of a directory goes

`Read_Dir_Ent` computes the first sector of a directory and counts on from there in 16
bits until an entry decides. It follows no chain and knows no last sector, so it reads
the sectors of the directory exactly as long as these follow each other.
-/

namespace Plak1a.SdCard.DirScan

open Plak1a.Lib.Listing Plak1a.SdCard.Fat Plak1a.SdCard.FatDir Plak1a.SdCard.FatDirectory
open Plak1a.SdCard.FatWalk Plak1a.SdCard.FatVolume Plak1a.SdCard.ReadFile
open Plak1a.SdCard.Mmc (blockSize)

theorem offsets_lt : ∀ a ∈ offsets, a + 32 ≤ blockSize := by decide

section Parse

variable {card : Card} {buffer : Memory} {k : Nat}

/-- The loop over sector `k` has come to the same as the search. -/
def Matches (entryCount : UInt8) (k : Nat) : Look (Nat × Nat) → Parsed → Prop
  | .ended, p => p = .terminator
  | .found e, p => e.1 = k ∧ p = .wanted e.2
  | .more m, p => ∃ tmp : UInt16, p = .exhausted tmp ∧ tmp.toNat + m = entryCount.toNat

/-- `TMP_Entry_Count` and the entries still to be passed over add up to `Entry_Count`. -/
theorem parse_spec (h : ∀ i < blockSize, buffer i = card k i) (entryCount : UInt8) :
    ∀ (as : List Nat), (∀ a ∈ as, a + 32 ≤ blockSize) → ∀ {tmp : UInt16} {n : Nat},
      tmp.toNat + n = entryCount.toNat →
        Matches entryCount k
          (look (isTerminator card) (isOrdinary card) n (as.map (Prod.mk k)))
          (parse entryCount buffer as tmp) := by
  intro as
  induction as with
  | nil =>
    intro _ tmp n hn
    exact ⟨tmp, rfl, hn⟩
  | cons a as ih =>
    intro has tmp n hn
    have ha : a + 32 ≤ blockSize := has a List.mem_cons_self
    have has' : ∀ x ∈ as, x + 32 ≤ blockSize := fun x hx => has x (List.mem_cons_of_mem a hx)
    have hname : dirName buffer a 0 = dirName (card k) a 0 := h _ (by omega)
    have hattr : dirAttr buffer a = dirAttr (card k) a := h _ (by omega)
    rw [List.map_cons, parse, hname, hattr]
    by_cases hend : dirName (card k) a 0 = 0
    · have hend' : isTerminator card (k, a) = true := decide_eq_true hend
      rw [look_end hend', if_pos hend]
      rfl
    · have hend' : isTerminator card (k, a) = false := decide_eq_false hend
      rw [if_neg hend]
      by_cases hord : dirAttr (card k) a ≠ attrLongName ∧ dirName (card k) a 0 ≠ dirEntryIsFree
      · have hord' : isOrdinary card (k, a) = true := decide_eq_true hord
        rw [if_pos hord]
        cases n with
        | zero =>
          have htmp : tmp = entryCount.toUInt16 := by
            rw [← UInt16.toNat_inj, UInt8.toNat_toUInt16]
            exact hn
          rw [look_zero hend' hord', if_pos htmp]
          exact ⟨rfl, rfl⟩
        | succ n =>
          have hlt := entryCount.toNat_lt
          have htmp : tmp ≠ entryCount.toUInt16 := by
            rw [Ne, ← UInt16.toNat_inj, UInt8.toNat_toUInt16]
            omega
          rw [look_succ hend' hord', if_neg htmp]
          apply ih has'
          rw [UInt16.toNat_add, show (1 : UInt16).toNat = 1 from rfl]
          omega
      · have hord' : isOrdinary card (k, a) = false := decide_eq_false hord
        rw [look_skip hend' hord', if_neg hord]
        exact ih has' hn

end Parse

/-- The numbers that `blk` takes in so many rounds. -/
def blks (blk : UInt16) : Nat → List UInt16
  | 0 => []
  | m + 1 => blk :: blks (blk + 1) m

def sectorsFrom (blk : UInt16) (m : Nat) : List Nat := (blks blk m).map UInt16.toNat

/-- What a call leaves when its search has come to this: `t` are the globals then. -/
def Outcome (card : Card) (size : UInt32) (dirAttrib : UInt8) (t : State) :
    Look (Nat × Nat) → DirEnt → Prop
  | .ended, r => ∃ buffer, r = ⟨0xFFFF, size, dirAttrib, buffer, t⟩
  | .found e, r => ∃ buffer, (∀ i < blockSize, buffer i = card e.1 i) ∧
      r = takeEntry e.2 buffer t
  | .more _, _ => False

section Scan

variable {v : Volume} {entryCount : UInt8} {size : UInt32} {dirAttrib : UInt8}

theorem lookIn_cons (v : Volume) (n k : Nat) (ks : List Nat) :
    Directory.lookIn v n (k :: ks) =
      look (isTerminator v.card) (isOrdinary v.card) n
        (offsets.map (Prod.mk k) ++ entriesOf ks) := by
  rw [Directory.lookIn, entriesOf_cons]

/-- A sector without result leaves the search to the sectors behind it. -/
theorem lookIn_of_more {n m k : Nat} (ks : List Nat)
    (h : Directory.lookIn v n [k] = .more m) :
    Directory.lookIn v n (k :: ks) = Directory.lookIn v m ks := by
  rw [lookIn_cons, entriesOf, List.flatMap_nil, List.append_nil] at h
  rw [lookIn_cons]
  exact look_append_of_more h

theorem readSector_eq (card : Card) (blk : UInt16) (buffer : Memory) (s : State) {i : Nat}
    (hi : i < blockSize) :
    (mmcReadSector card blk.toUInt32 buffer s).1 i = card blk.toNat i := by
  rw [mmcReadSector_buffer _ _ _ _ hi, UInt16.toNat_toUInt32]

theorem parse_sector (v : Volume) (blk : UInt16) {tmp : UInt16} {n : Nat} (buffer : Memory)
    (s : State) (hn : tmp.toNat + n = entryCount.toNat) :
    Matches entryCount blk.toNat (Directory.lookIn v n [blk.toNat])
      (parse entryCount (mmcReadSector v.card blk.toUInt32 buffer s).1 offsets tmp) := by
  rw [lookIn_cons, entriesOf, List.flatMap_nil, List.append_nil]
  exact parse_spec (fun i hi => readSector_eq _ _ _ _ hi) entryCount offsets offsets_lt hn

/-- The globals when the sectors have been read. -/
def afterRead (s : State) (bs : List UInt16) : State :=
  { s with reads := s.reads ++ bs.map UInt16.toUInt32 }

theorem scan_succ (card : Card) (fuel : Nat) (blk tmp : UInt16) (buffer : Memory) (s : State) :
    scan card entryCount size dirAttrib (fuel + 1) blk tmp buffer s =
      match parse entryCount (mmcReadSector card blk.toUInt32 buffer s).1 offsets tmp with
      | .terminator => some ⟨0xFFFF, size, dirAttrib,
          (mmcReadSector card blk.toUInt32 buffer s).1, afterRead s [blk]⟩
      | .wanted a => some (takeEntry a (mmcReadSector card blk.toUInt32 buffer s).1
          (afterRead s [blk]))
      | .exhausted tmp => scan card entryCount size dirAttrib fuel (blk + 1) tmp
          (mmcReadSector card blk.toUInt32 buffer s).1 (afterRead s [blk]) := rfl

theorem afterRead_append (s : State) (bs cs : List UInt16) :
    afterRead (afterRead s bs) cs = afterRead s (bs ++ cs) := by
  simp only [afterRead, List.append_assoc, List.map_append]

variable (size dirAttrib)

theorem scan_of_decided {blk tmp : UInt16} {n : Nat} (buffer : Memory) (s : State)
    (hn : tmp.toNat + n = entryCount.toNat)
    (hd : (Directory.lookIn v n [blk.toNat]).Decided) :
    ∃ r, Outcome v.card size dirAttrib (afterRead s [blk]) (Directory.lookIn v n [blk.toNat]) r ∧
      ∀ fuel, scan v.card entryCount size dirAttrib (fuel + 1) blk tmp buffer s = some r := by
  have hparse := parse_sector v blk buffer s hn
  cases hres : Directory.lookIn v n [blk.toNat] with
  | ended =>
    rw [hres] at hparse
    refine ⟨⟨0xFFFF, size, dirAttrib, (mmcReadSector v.card blk.toUInt32 buffer s).1,
      afterRead s [blk]⟩, ⟨_, rfl⟩, fun fuel => ?_⟩
    rw [scan_succ, show parse _ _ _ _ = _ from hparse]
  | found e =>
    rw [hres] at hparse
    obtain ⟨hk, hwanted⟩ := hparse
    refine ⟨takeEntry e.2 (mmcReadSector v.card blk.toUInt32 buffer s).1 (afterRead s [blk]),
      ⟨_, fun i hi => hk ▸ readSector_eq _ _ _ _ hi, rfl⟩, fun fuel => ?_⟩
    rw [scan_succ, hwanted]
  | more m =>
    rw [hres] at hd
    exact absurd hd Look.not_decided_more

theorem scan_of_more {blk tmp : UInt16} {n m : Nat} (buffer : Memory) (s : State)
    (hn : tmp.toNat + n = entryCount.toNat) (hm : Directory.lookIn v n [blk.toNat] = .more m) :
    ∃ (buffer' : Memory) (tmp' : UInt16), tmp'.toNat + m = entryCount.toNat ∧
      ∀ fuel, scan v.card entryCount size dirAttrib (fuel + 1) blk tmp buffer s =
        scan v.card entryCount size dirAttrib fuel (blk + 1) tmp' buffer' (afterRead s [blk]) := by
  have hparse := parse_sector v blk buffer s hn
  rw [hm] at hparse
  obtain ⟨tmp', hexhausted, hcount⟩ := hparse
  refine ⟨(mmcReadSector v.card blk.toUInt32 buffer s).1, tmp', hcount, fun fuel => ?_⟩
  rw [scan_succ, hexhausted]

/-- The scan ends in the first sector that decides, having read the sectors up to it. -/
theorem scan_spec (m : Nat) : ∀ {blk tmp : UInt16} {n : Nat} (buffer : Memory) (s : State),
    tmp.toNat + n = entryCount.toNat →
    (Directory.lookIn v n (sectorsFrom blk m)).Decided →
      ∃ j ≤ m, (Directory.lookIn v n (sectorsFrom blk j)).Decided ∧
        ∃ r, Outcome v.card size dirAttrib (afterRead s (blks blk j))
            (Directory.lookIn v n (sectorsFrom blk j)) r ∧
          ∀ fuel, m ≤ fuel →
            scan v.card entryCount size dirAttrib fuel blk tmp buffer s = some r := by
  induction m with
  | zero => exact fun _ _ _ hd => absurd hd Look.not_decided_more
  | succ m ih =>
    intro blk tmp n buffer s hn hd
    cases hres : Directory.lookIn v n [blk.toNat] with
    | more k =>
      obtain ⟨buffer', tmp', hn', hscan⟩ :=
        scan_of_more size dirAttrib buffer s hn hres
      have hnext (j : Nat) : Directory.lookIn v n (sectorsFrom blk (j + 1)) =
          Directory.lookIn v k (sectorsFrom (blk + 1) j) := lookIn_of_more _ hres
      rw [hnext] at hd
      obtain ⟨j, hj, hdj, r, hr, hfuel⟩ := ih buffer' (afterRead s [blk]) hn' hd
      refine ⟨j + 1, Nat.succ_le_succ hj, hnext j ▸ hdj, r, ?_, fun fuel hle => ?_⟩
      · rw [hnext]
        rw [afterRead_append] at hr
        exact hr
      · obtain ⟨fuel, rfl⟩ := Nat.exists_eq_add_of_lt (Nat.lt_of_lt_of_le (Nat.succ_pos m) hle)
        rw [Nat.zero_add, hscan]
        exact hfuel fuel (by omega)
    | _ =>
      have hone : (Directory.lookIn v n [blk.toNat]).Decided := by
        rw [hres]
        rfl
      obtain ⟨r, hr, hscan⟩ := scan_of_decided size dirAttrib buffer s hn hone
      refine ⟨1, Nat.succ_le_succ (Nat.zero_le m), hone, r, hr, fun fuel hle => ?_⟩
      obtain ⟨fuel, rfl⟩ := Nat.exists_eq_add_of_lt (Nat.lt_of_lt_of_le (Nat.succ_pos m) hle)
      rw [Nat.zero_add]
      exact hscan fuel

variable {size dirAttrib}

/-- Without a deciding entry in the sectors within the bound, the scan has no result. -/
theorem decided_of_scan (fuel : Nat) : ∀ {blk tmp : UInt16} {n : Nat} {buffer : Memory}
    {s : State} {r : DirEnt}, tmp.toNat + n = entryCount.toNat →
    scan v.card entryCount size dirAttrib fuel blk tmp buffer s = some r →
      (Directory.lookIn v n (sectorsFrom blk fuel)).Decided := by
  induction fuel with
  | zero => exact fun _ h => nomatch h
  | succ fuel ih =>
    intro blk tmp n buffer s r hn h
    cases hres : Directory.lookIn v n [blk.toNat] with
    | more k =>
      obtain ⟨buffer', tmp', hn', hscan⟩ :=
        scan_of_more size dirAttrib buffer s hn hres
      rw [hscan] at h
      rw [show sectorsFrom blk (fuel + 1) = blk.toNat :: sectorsFrom (blk + 1) fuel from rfl,
        lookIn_of_more _ hres]
      exact ih hn' h
    | _ =>
      have hone : (Directory.lookIn v n [blk.toNat]).Decided := by
        rw [hres]
        rfl
      rw [lookIn_cons, entriesOf, List.flatMap_nil, List.append_nil] at hone
      rw [show sectorsFrom blk (fuel + 1) = blk.toNat :: sectorsFrom (blk + 1) fuel from rfl,
        lookIn_cons, look_append_of_decided hone]
      exact hone

end Scan

/-- What `Cluster_Data_Store` has found out about a volume below sector 2^16. -/
structure Knows (v : Volume) (t : State) : Prop where
  vbr : t.volumeBootRecordAddr.toNat = v.layout.vbr.toNat
  size : t.clusterSize = v.layout.secPerClus
  offset : t.clusterOffset.toNat = (v.layout.rootStart + 32) % 2 ^ 16

section Start

variable {v : Volume} {t : State}

theorem knows_stored (stack : Memory) (s : State) (hv : v.layout.vbr.toNat < 2 ^ 16) :
    Knows v (clusterDataStore v.card stack s) := by
  obtain ⟨hsize, _, hoffset⟩ := stored stack s hv
  obtain ⟨reads, ht⟩ := clusterDataStore_spec v.card stack s
  refine ⟨?_, hsize, hoffset⟩
  have hp := v.partition
  rw [ht]
  show (word (v.card 0) vbrAddr).toNat = _
  omega

theorem Knows.withReads (h : Knows v t) (reads : List UInt32) :
    Knows v { t with reads := reads } := ⟨h.vbr, h.size, h.offset⟩

/-- The first sector of the directory. -/
def firstSector (d : Directory v) : Nat :=
  match d with
  | .root => v.layout.rootStart
  | .sub c _ _ => v.layout.blockSector c 0

/-- The number the driver computes for it, but for its reduction to 16 bits. -/
def firstBlk (d : Directory v) : Nat :=
  match d with
  | .root => v.layout.rootStart
  | .sub c _ _ => v.layout.rootStart + 32 + (c.toNat - 2) * v.layout.secPerClus.toNat

theorem rootDirAddr_spec (h : Knows v t) (buffer : Memory) :
    ∃ buffer' reads, rootDirAddr v.card buffer t =
      (UInt16.ofNat v.layout.rootStart, buffer', { t with reads := reads }) := by
  have hword {p : Nat} (hp : p + 1 < blockSize) :
      word (mmcReadSector v.card t.volumeBootRecordAddr.toUInt32 buffer t).1 p =
        word (v.card v.layout.vbr.toNat) p := by
    rw [mmcReadSector_word _ _ _ _ hp, UInt16.toNat_toUInt32, h.vbr]
  have hbyte : (mmcReadSector v.card t.volumeBootRecordAddr.toUInt32 buffer t).1 16 =
      v.card v.layout.vbr.toNat 16 := by
    rw [mmcReadSector_buffer _ _ _ _ (by decide), UInt16.toNat_toUInt32, h.vbr]
  have hr : word (v.card v.layout.vbr.toNat) 14 = v.layout.rsvdSecCnt := v.rsvdSecCnt
  have hf : word (v.card v.layout.vbr.toNat) 22 = v.layout.fatSz16 := v.fatSz16
  have hn : v.card v.layout.vbr.toNat 16 = v.layout.numFATs := v.numFATs
  refine ⟨(mmcReadSector v.card t.volumeBootRecordAddr.toUInt32 buffer t).1,
    t.reads ++ [t.volumeBootRecordAddr.toUInt32], ?_⟩
  simp (disch := decide) only [rootDirAddr, mmcReadSector_state, bpbRsvdSecCnt, bpbNumFATs,
    bpbFATSz16, hword, hbyte, hr, hf, hn, Prod.mk.injEq, and_true]
  rw [← UInt16.toNat_inj, UInt16.toNat_add, h.vbr, UInt16.toNat_ofNat', UInt16.toNat_ofNat',
    Parameters.rootStart, Parameters.fatStart]
  omega

/-- The first cluster of a chain needs no FAT entry. -/
theorem loadFAT_zero (card : Card) (fuel : Nat) (c : UInt16) (buffer : Memory) (s : State) :
    loadFAT card (fuel + 1) c 0 buffer s = some (c.toUInt32, buffer, s) := by
  rw [loadFAT, Lib.While.run_stop fuel (by rfl)]
  rfl

theorem dirBlock_spec (h : Knows v t) (d : Directory v) (buffer : Memory) :
    ∃ block buffer' t', (∀ fuel, dirBlock v.card (fuel + 1) d.cluster buffer t =
        some (block, buffer', t')) ∧
      block.toUInt16.toNat = firstBlk d % 2 ^ 16 ∧ Knows v t' := by
  cases d with
  | root =>
    obtain ⟨buffer', reads, hroot⟩ := rootDirAddr_spec h buffer
    refine ⟨(UInt16.ofNat v.layout.rootStart).toUInt32, buffer', _, fun fuel => ?_, ?_,
      h.withReads reads⟩
    · rw [dirBlock, Directory.cluster_root, if_pos rfl, hroot]
    · rw [UInt16.toUInt16_toUInt32, UInt16.toNat_ofNat']
      rfl
  | sub c cs chain =>
    have hc := chain.cell.1
    refine ⟨(c.toUInt32 - 2) * t.clusterSize.toUInt32 + t.clusterOffset.toUInt32, buffer, t,
      fun fuel => ?_, ?_, h⟩
    · rw [dirBlock, Directory.cluster_sub, if_neg (chain_ne_zero chain), loadFAT_zero]
      rfl
    · have hblock := @sector_toNat c t.clusterOffset t.clusterSize 0 hc
        (h.size ▸ v.layout.spc_pos)
      rw [UInt32.zero_mod, UInt32.add_zero] at hblock
      rw [UInt32.toNat_toUInt16, hblock, h.size, h.offset, firstBlk]
      have hz : (0 : UInt32).toNat = 0 := rfl
      rw [hz, Nat.zero_mod]
      omega

/-- The two agree for the root directory, and for the others if it has 512 entries. -/
theorem firstBlk_eq_iff {d : Directory v} (hlt : firstSector d < 2 ^ 16) :
    firstBlk d % 2 ^ 16 = firstSector d ↔
      (d.cluster ≠ 0 → v.layout.rootEntCnt.toNat = 512) := by
  cases d with
  | root =>
    constructor
    · exact fun _ h => absurd rfl h
    · exact fun _ => Nat.mod_eq_of_lt hlt
  | sub c cs chain =>
    have hne := chain_ne_zero chain
    have hdvd := v.layout.root_dvd
    have hroot := v.layout.rootEntCnt.toNat_lt
    simp only [firstSector, Parameters.blockSector, Parameters.dataStart, Nat.zero_mod,
      show blockSize = 512 from rfl] at hlt ⊢
    simp only [firstBlk, Directory.cluster_sub, hne, ne_eq, not_false_eq_true, true_implies]
    omega

theorem head_sectors {d : Directory v} {k : Nat} (h : d.sectors[0]? = some k) :
    k = firstSector d := by
  cases d with
  | root =>
    obtain ⟨hlt, rfl⟩ := List.getElem?_eq_some_iff.mp h
    exact List.getElem_range' ..
  | sub c cs chain =>
    obtain ⟨n, hn⟩ := Nat.exists_eq_add_of_lt v.layout.spc_pos
    cases cs with
    | nil => cases chain.head?_eq
    | cons x cs =>
      obtain rfl := Option.some.inj chain.head?_eq
      rw [Directory.sectors, List.flatMap_cons, hn, List.range_succ_eq_map] at h
      exact (Option.some.inj h).symm

end Start

theorem sectorsFrom_eq (m : Nat) : ∀ {blk : UInt16}, blk.toNat + m ≤ 2 ^ 16 →
    sectorsFrom blk m = List.range' blk.toNat m := by
  induction m with
  | zero => exact fun _ => rfl
  | succ m ih =>
    intro blk h
    show blk.toNat :: sectorsFrom (blk + 1) m = _
    rw [List.range'_succ]
    congr 1
    cases m with
    | zero => rfl
    | succ m =>
      have hnext : (blk + 1).toNat = blk.toNat + 1 := by
        rw [UInt16.toNat_add, show (1 : UInt16).toNat = 1 from rfl]
        omega
      rw [ih (by omega), hnext]

theorem length_sectorsFrom (blk : UInt16) (m : Nat) : (sectorsFrom blk m).length = m := by
  induction m generalizing blk with
  | zero => rfl
  | succ m ih => exact congrArg Nat.succ (ih (blk + 1))

/-- The counter passes 0 when it wraps. -/
theorem sectorsFrom_wrap (m : Nat) : ∀ {blk : UInt16}, 0 < m →
    (∀ k ∈ sectorsFrom blk m, k ≠ 0) → blk.toNat + m ≤ 2 ^ 16 := by
  induction m with
  | zero => exact fun h => absurd h (Nat.lt_irrefl 0)
  | succ m ih =>
    intro blk _ h
    have hblk := blk.toNat_lt
    cases m with
    | zero => omega
    | succ m =>
      have hrest : (blk + 1).toNat + (m + 1) ≤ 2 ^ 16 :=
        ih (Nat.succ_pos m) fun k hk => h k (List.mem_cons_of_mem _ hk)
      have hne : (blk + 1).toNat ≠ 0 := h _ (List.mem_cons_of_mem _ List.mem_cons_self)
      rw [UInt16.toNat_add, show (1 : UInt16).toNat = 1 from rfl] at hrest hne
      omega

end Plak1a.SdCard.DirScan
