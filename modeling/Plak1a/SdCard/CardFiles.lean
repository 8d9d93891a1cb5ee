import Plak1a.SdCard.FatRequests
import Plak1a.SdCard.MmcSector
import Plak1a.SdCard.ReadFile

/-!
# Files on an MMC card

The FAT functions over `mmc_read_sector` over the SPI bus. Whatever the delays of the card, they do
what they do on a card that delivers each sector at once, as long as they ask for sectors that the
card has.
-/

namespace Plak1a.SdCard.CardFiles

open Plak1a.Lib Plak1a.Lib.Requests Plak1a.SdCard.Mmc Plak1a.SdCard.MmcCard
open Plak1a.SdCard.Fat (Memory)

/-- The sectors of a memory. -/
def sectors (data : Nat → UInt8) : Fat.Card := fun n i => data (n * blockSize + i)

/-- `mmc_read_sector` on the bus: the bytes that reach the buffer. -/
def serve (c : Card) (polls : Nat) (addr : UInt32) (s : MmcCard.State) :
    Option (List UInt8 × MmcCard.State) :=
  (mmcReadSector c.spi polls addr [] s).map Prod.snd

/-- A sector that the card has. The shift in `mmc_read_sector` leaves 23 bits of its number. -/
def Has (c : Card) (addr : UInt32) : Prop :=
  addr.toNat < 2 ^ 23 ∧ addr.toNat * blockSize + blockSize ≤ c.size

/-- The card is idle with these bytes, and the polls outlast the delays of the next `n` commands. -/
structure Idle (c : Card) (polls : Nat) (data : Nat → UInt8) (n : Nat) (s : MmcCard.State) :
    Prop where
  phase : s.phase = .idle
  data : s.data = data
  polls : ∀ k < n, c.nac (s.commands + k) < polls

variable {c : Card} {polls n : Nat} {data : Nat → UInt8} {s : MmcCard.State}

theorem serves (c : Card) (polls : Nat) (data : Nat → UInt8) :
    Serves (serve c polls) (FatRequests.deliver (sectors data)) (Has c) (Idle c polls data) where
  serve n addr s := by
    rintro ⟨ha, hin⟩ ⟨hphase, rfl, hpolls⟩
    have hs : s = s.goto .idle := by
      rw [State.goto, ← hphase]
    have hread := MmcSector.mmcReadSector_eq c s ha hin [] (hpolls 0 (Nat.succ_pos n))
    rw [← hs, List.drop_nil, List.append_nil] at hread
    refine ⟨(MmcSector.answered s).goto .idle, ?_, rfl, rfl, fun k hk => ?_⟩
    · rw [serve, hread]
      rfl
    · have h := hpolls (k + 1) (Nat.succ_lt_succ hk)
      rwa [← Nat.add_assoc, Nat.add_right_comm] at h

/-- Finitely many delays have a bound. -/
theorem exists_polls (f : Nat → Nat) (n : Nat) : ∃ b, ∀ k < n, f k < b := by
  induction n with
  | zero => exact ⟨0, fun k hk => absurd hk (Nat.not_lt_zero k)⟩
  | succ n ih =>
    obtain ⟨b, hb⟩ := ih
    refine ⟨max b (f n + 1), fun k hk => ?_⟩
    rcases Nat.lt_succ_iff_lt_or_eq.mp hk with hlt | rfl
    · exact Nat.lt_of_lt_of_le (hb k hlt) (Nat.le_max_left _ _)
    · exact Nat.lt_of_lt_of_le (Nat.lt_succ_self _) (Nat.le_max_right _ _)

/-- What a program does on a card that delivers it does over the bus. -/
theorem exec_of_runs {A : Type} {p : FatRequests.Sectors A} {a : A} {g t : Fat.State}
    (h : FatRequests.Runs (sectors s.data) p a g t) (hidle : s.phase = .idle)
    (hhas : ∀ r ∈ t.reads.drop g.reads.length, Has c r)
    (hpolls : ∀ k < t.reads.length - g.reads.length, c.nac (s.commands + k) < polls) :
    ∃ s', p.exec (serve c polls) s = some (a, s') ∧ s'.phase = .idle ∧ s'.data = s.data := by
  obtain ⟨rs, hrun, hreads⟩ := h
  rw [hreads, List.drop_left] at hhas
  rw [hreads, List.length_append, Nat.add_sub_cancel_left] at hpolls
  have hrs : (p.run (FatRequests.deliver (sectors s.data))).2 = rs := by rw [hrun]
  obtain ⟨s', hexec, hs'⟩ := exec_of_run (serves c polls s.data) (p := p) (n := 0) (s := s)
    (by rwa [hrs]) ⟨hidle, rfl, fun k hk => hpolls k (by rw [hrs] at hk; omega)⟩
  rw [hrun] at hexec
  exact ⟨s', hexec, hs'.phase, hs'.data⟩

theorem exists_exec {A : Type} {p : FatRequests.Sectors A} {a : A} {g t : Fat.State}
    (h : FatRequests.Runs (sectors s.data) p a g t) (hidle : s.phase = .idle)
    (hhas : ∀ r ∈ t.reads.drop g.reads.length, Has c r) :
    ∃ b, ∀ polls ≥ b, ∃ s', p.exec (serve c polls) s = some (a, s') ∧ s'.phase = .idle ∧
      s'.data = s.data := by
  obtain ⟨b, hb⟩ := exists_polls (fun k => c.nac (s.commands + k))
    (t.reads.length - g.reads.length)
  exact ⟨b, fun polls hpolls => exec_of_runs h hidle hhas fun k hk =>
    Nat.lt_of_lt_of_le (hb k hk) hpolls⟩

/-- `Cluster_Data_Store`, `Read_Dir_Ent`, `Search_File` and `Read_File` over the bus do what they do
on a card that delivers each sector at once, for every card, memory, delay and argument for which
they ask for sectors that the card has; and the card keeps its bytes. -/
theorem fat_over_bus (c : Card) (s : MmcCard.State) (hidle : s.phase = .idle) (g : Fat.State)
    (buffer : Memory) :
    ((∀ r ∈ (Fat.clusterDataStore (sectors s.data) buffer g).reads.drop g.reads.length, Has c r) →
      ∃ b, ∀ polls ≥ b, ∃ s',
        (FatRequests.clusterDataStore buffer g).exec (serve c polls) s =
          some (Fat.clusterDataStore (sectors s.data) buffer g, s') ∧
        s'.phase = .idle ∧ s'.data = s.data) ∧
    (∀ fuel dirCluster entryCount size dirAttrib r,
      FatDir.readDirEnt (sectors s.data) fuel dirCluster entryCount size dirAttrib buffer g =
        some r → (∀ a ∈ r.state.reads.drop g.reads.length, Has c a) →
      ∃ b, ∀ polls ≥ b, ∃ s',
        (FatRequests.readDirEnt fuel dirCluster entryCount size dirAttrib buffer g).exec
          (serve c polls) s = some (some r, s') ∧ s'.phase = .idle ∧ s'.data = s.data) ∧
    (∀ fuel fileName e r, FatDir.searchFile (sectors s.data) fuel fileName e = some r →
      (∀ a ∈ r.2.state.reads.drop e.state.reads.length, Has c a) →
      ∃ b, ∀ polls ≥ b, ∃ s',
        (FatRequests.searchFile fuel fileName e).exec (serve c polls) s = some (some r, s') ∧
        s'.phase = .idle ∧ s'.data = s.data) ∧
    ∀ fuel cluster blockCount r,
      Fat.readFile (sectors s.data) fuel cluster buffer blockCount g = some r →
      (∀ a ∈ r.2.reads.drop g.reads.length, Has c a) →
      ∃ b, ∀ polls ≥ b, ∃ s',
        (FatRequests.readFile fuel cluster buffer blockCount g).exec (serve c polls) s =
          some (some r, s') ∧ s'.phase = .idle ∧ s'.data = s.data := by
  refine ⟨fun hhas => ?_, fun _ _ _ _ _ r hr hhas => ?_, fun _ _ _ r hr hhas => ?_,
    fun _ _ _ r hr hhas => ?_⟩
  · exact exists_exec (FatRequests.runs_clusterDataStore _ _ _) hidle hhas
  · exact exists_exec (FatRequests.runs_readDirEnt hr) hidle hhas
  · exact exists_exec (FatRequests.runs_searchLoop hr) hidle hhas
  · exact exists_exec (FatRequests.runs_readFile hr) hidle hhas

/-- `Read_File` for one block after the other, and what is in the buffer after each of them. -/
def readBlocks (fuel : Nat) (cluster : UInt16) :
    List UInt32 → Memory → Fat.State → FatRequests.Sectors (Option (List Memory))
  | [], _, _ => pure (some [])
  | b :: bs, buffer, g => do
    match ← FatRequests.readFile fuel cluster buffer b g with
    | none => pure none
    | some (buffer, g) =>
      let rest ← readBlocks fuel cluster bs buffer g
      pure (rest.map (buffer :: ·))

/-- `Cluster_Data_Store`, and then the blocks of a file in any order. -/
def readFileBlocks (fuel : Nat) (stack : Memory) (cluster : UInt16) (bs : List UInt32)
    (buffer : Memory) (g : Fat.State) : FatRequests.Sectors (Option (List Memory)) := do
  let g ← FatRequests.clusterDataStore stack g
  readBlocks fuel cluster bs buffer g

open FatWalk FatVolume ReadFile

variable {v : Volume} {cluster : UInt16} {cs : List UInt16} {g : Fat.State}

/-- The volume with all its clusters is on the card. -/
structure Fits (c : Card) (g : Layout) : Prop where
  size : (g.dataStart + g.clusters * g.secPerClus.toNat) * blockSize ≤ c.size
  addressed : g.dataStart + g.clusters * g.secPerClus.toNat ≤ 2 ^ 23

theorem Fits.has {g : Layout} (h : Fits c g) {r : UInt32}
    (hr : r.toNat < g.dataStart + g.clusters * g.secPerClus.toNat) : Has c r := by
  refine ⟨Nat.lt_of_lt_of_le hr h.addressed, Nat.le_trans ?_ h.size⟩
  rw [← Nat.succ_mul]
  exact Nat.mul_le_mul_right _ hr

/-- The block of a data cluster is in the volume. -/
theorem blockSector_lt (g : Layout) {x : UInt16} (hx : g.DataCluster x) (b : Nat) :
    g.blockSector x b < g.dataStart + g.clusters * g.secPerClus.toNat := by
  have hmod := Nat.mod_lt b g.spc_pos
  obtain ⟨h2, hlt⟩ := hx
  have hmul : (x.toNat - 2 + 1) * g.secPerClus.toNat ≤ g.clusters * g.secPerClus.toNat :=
    Nat.mul_le_mul_right _ (by omega)
  rw [Nat.succ_mul] at hmul
  rw [Parameters.blockSector]
  omega

/-- The globals know the volume. -/
structure Knows (g : Fat.State) (l : Layout) : Prop where
  clusterSize : g.clusterSize = l.secPerClus
  fatBase : fatBase g = l.fatStart
  clusterOffset : g.clusterOffset.toNat = l.dataStart

/-- One block of a file: `Read_File` ends, its buffer starts with the bytes of the block, and all
sectors that it asks for are in the volume. -/
theorem readFile_block (hf : DriverFits v.layout.toParameters) (hg : Knows g v.layout)
    (hc : v.Chain cluster cs) {b : UInt32} {x : UInt16}
    (hx : cs[b.toNat / v.layout.secPerClus.toNat]? = some x) (buffer : Memory) :
    ∃ fuel buffer' rs, Fat.readFile v.card fuel cluster buffer b g =
        some (buffer', { g with reads := g.reads ++ rs }) ∧
      (∀ i < blockSize, buffer' i = v.card (v.layout.blockSector x b.toNat) i) ∧
      ∀ r ∈ rs, r.toNat < v.layout.dataStart + v.layout.clusters * v.layout.secPerClus.toNat := by
  have hdata := hf.2
  have hstart := dataStart_of_fits hf
  obtain ⟨hiter, hcell⟩ := Linked.Chain.getElem?_eq hc hx
  have hlen := (List.getElem?_eq_some_iff.mp hx).1
  have hmax := chain_length_lt hc
  have hnext : v.next = entry v.card (FatWalk.fatBase g) := by
    rw [hg.fatBase]
    rfl
  rw [hnext] at hiter hcell
  have hblock : (b / g.clusterSize.toUInt32).toNat = b.toNat / v.layout.secPerClus.toNat := by
    rw [UInt32.toNat_div, hg.clusterSize]
    rfl
  have hpos : 0 < FatWalk.fatBase g := by
    rw [hg.fatBase]
    exact Nat.add_pos_right _ v.layout.rsvd_pos
  have haddr : ∀ k ≤ b.toNat / v.layout.secPerClus.toNat,
      entrySector (FatWalk.fatBase g) ((entry v.card (FatWalk.fatBase g))^[k] cluster) <
        v.layout.rootStart := fun k hk => by
    rw [hg.fatBase] at hcell ⊢
    exact entrySector_lt v.layout (hcell k hk)
  obtain ⟨fuel, buffer', rs, hload, hrs⟩ := loadFAT_eq buffer hpos (by omega) hblock
    (fun k hk => Nat.lt_trans (haddr k (Nat.le_of_lt hk)) (by omega))
    fun k hk => cell_ne_ff (hcell k (Nat.le_of_lt hk))
  have hxcell : v.layout.DataCluster x := hiter ▸ hcell _ (Nat.le_refl _)
  let sector : UInt32 := (x.toUInt32 - 2) * g.clusterSize.toUInt32 + g.clusterOffset.toUInt32 +
    b % g.clusterSize.toUInt32
  have hsector : sector.toNat = v.layout.blockSector x b.toNat := by
    have h := @sector_toNat x g.clusterOffset g.clusterSize b hxcell.1
      (hg.clusterSize ▸ v.layout.spc_pos)
    rw [hg.clusterOffset, hg.clusterSize] at h
    rw [Parameters.blockSector, Nat.add_comm v.layout.dataStart, ← h]
    simp only [sector, hg.clusterSize]
  refine ⟨fuel, (Fat.mmcReadSector v.card sector buffer' g).1, rs ++ [sector], ?_,
    fun i hi => ?_, ?_⟩
  · rw [Fat.readFile, hload, Option.map_some, hiter, ← List.append_assoc]
    rfl
  · rw [mmcReadSector_buffer v.card sector buffer' g hi, hsector]
  · intro r hr
    rcases List.mem_append.mp hr with hr | hr
    · obtain ⟨k, hk, hr⟩ := hrs r hr
      rw [hr]
      have hlt := haddr k (Nat.le_of_lt hk)
      omega
    · rw [List.mem_singleton.mp hr, hsector]
      exact blockSector_lt v.layout hxcell _

theorem readFile_mono {card : Fat.Card} {m n : Nat} {b : UInt32} {buffer : Memory}
    {r : Memory × Fat.State} (h : Fat.readFile card m cluster buffer b g = some r) (hle : m ≤ n) :
    Fat.readFile card n cluster buffer b g = some r := by
  obtain ⟨q, hload, rfl⟩ := Option.map_eq_some_iff.mp h
  obtain ⟨w, hw, rfl⟩ := Option.map_eq_some_iff.mp hload
  rw [Fat.readFile, Fat.loadFAT, While.run_mono hw hle]
  rfl

/-- The buffers hold the blocks. -/
def Blocks (v : Volume) (cs : List UInt16) (bs : List UInt32) (buffers : List Memory) : Prop :=
  List.Forall₂ (fun b buffer => ∀ x, cs[b.toNat / v.layout.secPerClus.toNat]? = some x →
    ∀ i < blockSize, buffer i = v.card (v.layout.blockSector x b.toNat) i) bs buffers

/-- What is asked for from `g` to `t` is in the volume. -/
def Within (v : Volume) (g t : Fat.State) : Prop :=
  ∃ rs, t.reads = g.reads ++ rs ∧
    ∀ r ∈ rs, r.toNat < v.layout.dataStart + v.layout.clusters * v.layout.secPerClus.toNat

theorem Within.trans {v : Volume} {g t u : Fat.State} (h : Within v g t) (h' : Within v t u) :
    Within v g u := by
  obtain ⟨rs, hrs, hin⟩ := h
  obtain ⟨ts, hts, hin'⟩ := h'
  refine ⟨rs ++ ts, by rw [hts, hrs, List.append_assoc], fun r hr => ?_⟩
  exact (List.mem_append.mp hr).elim (hin r) (hin' r)

/-- All blocks are read, in any order and as often as wanted. -/
theorem runs_readBlocks (hf : DriverFits v.layout.toParameters) (hg : Knows g v.layout)
    (hc : v.Chain cluster cs) {bs : List UInt32}
    (hbs : ∀ b ∈ bs, b.toNat / v.layout.secPerClus.toNat < cs.length) (buffer : Memory) :
    ∃ bound buffers t, (∀ fuel ≥ bound,
        FatRequests.Runs v.card (readBlocks fuel cluster bs buffer g) (some buffers) g t) ∧
      Within v g t ∧ Blocks v cs bs buffers := by
  induction bs generalizing g buffer with
  | nil => exact ⟨0, [], g, fun _ _ => .pure _ _, ⟨[], (List.append_nil _).symm, nofun⟩, .nil⟩
  | cons b bs ih =>
    have hlen := hbs b List.mem_cons_self
    have hx := List.getElem?_eq_getElem hlen
    obtain ⟨fuel₁, buffer₁, rs, hread, hbuffer, hrs⟩ := readFile_block hf hg hc hx buffer
    let t₁ : Fat.State := { g with reads := g.reads ++ rs }
    obtain ⟨bound, buffers, t, hruns, hwithin, hblocks⟩ :=
      ih (g := t₁) ⟨hg.clusterSize, hg.fatBase, hg.clusterOffset⟩
        (fun b hb => hbs b (List.mem_cons_of_mem _ hb)) buffer₁
    refine ⟨max fuel₁ bound, buffer₁ :: buffers, t, fun fuel hfuel => ?_,
      Within.trans (t := t₁) ⟨rs, rfl, hrs⟩ hwithin, .cons ?_ hblocks⟩
    · have hfile := FatRequests.runs_readFile
        (readFile_mono hread (Nat.le_trans (Nat.le_max_left _ _) hfuel))
      exact hfile.bind ((hruns fuel (Nat.le_trans (Nat.le_max_right _ _) hfuel)).bind (.pure _ _))
    · intro y hy i hi
      obtain rfl := Option.some.inj (hx.symm.trans hy)
      exact hbuffer i hi

theorem clusterDataStore_within (hf : DriverFits v.layout.toParameters) (stack : Memory)
    (g : Fat.State) : Within v g (Fat.clusterDataStore v.card stack g) := by
  have hdata := hf.2
  have hstart := dataStart_of_fits hf
  have hvbr := vbr_lt_rootStart v.layout
  have hp := v.partition
  have hword : (Fat.word (v.card 0) Fat.vbrAddr).toNat = v.layout.vbr.toNat := by omega
  let vbr := (Fat.word (v.card 0) Fat.vbrAddr).toUInt32
  refine ⟨[Fat.masterBootRecord, vbr, vbr, vbr], ?_, fun r hr => ?_⟩
  · have hread : Fat.word (Fat.mmcReadSector v.card Fat.masterBootRecord stack g).1 Fat.vbrAddr =
        Fat.word (v.card 0) Fat.vbrAddr := mmcReadSector_word v.card _ stack g (by decide)
    simp only [Fat.clusterDataStore, Fat.fatAddr, Fat.rootDirAddr, mmcReadSector_state, hread,
      List.append_assoc]
    rfl
  · have hr' : r.toNat = 0 ∨ r.toNat = v.layout.vbr.toNat := by
      rcases List.mem_cons.mp hr with rfl | hr
      · exact .inl rfl
      · have hvbr : r = vbr := by simpa using hr
        rw [hvbr, UInt16.toNat_toUInt32]
        exact .inr hword
    omega

/-- On an MMC card with a FAT16 volume that the driver fits, `Cluster_Data_Store` and then
`Read_File` for the blocks of any file, in any order and as often as wanted, put the bytes of each
block into the buffer, over the SPI bus, whatever the delays of the card and the buffers held
before; and the card keeps its bytes. -/
theorem blocks_over_bus (c : Card) (s : MmcCard.State) (hidle : s.phase = .idle) (v : Volume)
    (hv : v.card = sectors s.data) (hf : DriverFits v.layout.toParameters)
    (hfits : Fits c v.layout) (hc : v.Chain cluster cs) {bs : List UInt32}
    (hbs : ∀ b ∈ bs, b.toNat / v.layout.secPerClus.toNat < cs.length) (stack buffer : Memory)
    (g : Fat.State) :
    ∃ bound polls buffers, Blocks v cs bs buffers ∧ ∀ fuel ≥ bound, ∀ n ≥ polls, ∃ s',
      (readFileBlocks fuel stack cluster bs buffer g).exec (serve c n) s =
        some (some buffers, s') ∧ s'.phase = .idle ∧ s'.data = s.data := by
  obtain ⟨hsize, hbase, hoffset⟩ := stored_of_fits hf stack g
  have hstore := FatRequests.runs_clusterDataStore v.card stack g
  obtain ⟨bound, buffers, t, hruns, hwithin, hblocks⟩ :=
    runs_readBlocks hf (g := Fat.clusterDataStore v.card stack g) ⟨hsize, hbase, hoffset⟩ hc hbs
      buffer
  obtain ⟨rs, hrs, hin⟩ := (clusterDataStore_within hf stack g).trans hwithin
  have hhas : ∀ r ∈ t.reads.drop g.reads.length, Has c r := by
    rw [hrs, List.drop_left]
    exact fun r hr => hfits.has (hin r hr)
  obtain ⟨b, hb⟩ := exists_polls (fun k => c.nac (s.commands + k))
    (t.reads.length - g.reads.length)
  refine ⟨bound, b, buffers, hblocks, fun fuel hfuel n hn => ?_⟩
  have hall := hstore.bind (f := fun t => readBlocks fuel cluster bs buffer t) (hruns fuel hfuel)
  rw [hv] at hall
  exact exec_of_runs hall hidle hhas fun k hk => Nat.lt_of_lt_of_le (hb k hk) hn

/-- The sectors of a volume one behind the other. -/
def bytes (card : Fat.Card) (a : Nat) : UInt8 := card (a / blockSize) (a % blockSize)

theorem sectors_bytes (card : Fat.Card) (n : Nat) {i : Nat} (hi : i < blockSize) :
    sectors (bytes card) n i = card n i := by
  show card ((n * blockSize + i) / blockSize) ((n * blockSize + i) % blockSize) = _
  rw [Nat.mul_comm, Nat.mul_add_div (Nat.zero_lt_of_lt hi), Nat.div_eq_of_lt hi, Nat.add_zero,
    Nat.mul_add_mod, Nat.mod_eq_of_lt hi]

theorem word_sectors (card : Fat.Card) (n : Nat) {p : Nat} (hp : p + 1 < blockSize) :
    Fat.word (sectors (bytes card) n) p = Fat.word (card n) p :=
  word_congr (fun _ hi => sectors_bytes card n hi) hp

/-- The volume in a memory. -/
def stored (v : Volume) : Volume where
  layout := v.layout
  card := sectors (bytes v.card)
  partition := by
    rw [word_sectors _ _ (by decide), word_sectors _ _ (by decide)]
    exact v.partition
  bytesPerSec := by
    rw [Fat.bpbBytesPerSec, word_sectors _ _ (by decide)]
    exact v.bytesPerSec
  secPerClus := (sectors_bytes _ _ (by decide)).trans v.secPerClus
  rsvdSecCnt := (word_sectors _ _ (by decide)).trans v.rsvdSecCnt
  numFATs := (sectors_bytes _ _ (by decide)).trans v.numFATs
  rootEntCnt := (word_sectors _ _ (by decide)).trans v.rootEntCnt
  fatSz16 := (word_sectors _ _ (by decide)).trans v.fatSz16

theorem stored_chain (h : v.Chain cluster cs) : (stored v).Chain cluster cs := by
  have hnext : (stored v).next = v.next :=
    funext fun x => word_sectors v.card _ (entry_offset x)
  rw [Volume.Chain, hnext]
  exact h

theorem rootSectors_dvd : 16 ∣ (512 : UInt16).toNat := by decide

/-- As `smallRoot`, with the root directory that the driver expects. -/
def plainLayout : Layout where
  toParameters := { smallRoot.toParameters with vbr := 0, rootEntCnt := 512 }
  rsvd_pos := smallRoot.rsvd_pos
  numFATs_pos := smallRoot.numFATs_pos
  root_dvd := rootSectors_dvd
  spc_pos := smallRoot.spc_pos
  clusters_ge := smallRoot.clusters_ge
  clusters_lt := smallRoot.clusters_lt
  fat_holds := smallRoot.fat_holds
  fits := by decide

/-- A card of 4 MiB with different delays. -/
def slowCard : Card where
  size := 8192 * 512
  size_dvd := Nat.dvd_mul_left 512 8192
  writeMisalign := false
  readMisalign := false
  ncr n := n % 9
  ncr_le n := Nat.le_of_lt_succ (Nat.mod_lt n (by decide))
  nac n := 3 * n
  busy n := n
  crc _ := (0, 0)

theorem blocks_over_bus_twice :
    let v := stored (oneFileVolume plainLayout)
    let s : MmcCard.State := ⟨bytes (oneFileVolume plainLayout).card, .idle, 0⟩
    ∃ bound polls buffers, Blocks v [2] [0, 0] buffers ∧ ∀ fuel ≥ bound, ∀ n ≥ polls, ∃ s',
      (readFileBlocks fuel (fun _ => 0) 2 [0, 0] (fun _ => 0) Fat.startUp).exec
        (serve slowCard n) s = some (some buffers, s') ∧ s'.phase = .idle ∧ s'.data = s.data :=
  blocks_over_bus slowCard ⟨bytes (oneFileVolume plainLayout).card, .idle, 0⟩ rfl
    (stored (oneFileVolume plainLayout)) rfl ⟨rfl, show 65 < 2 ^ 16 by decide⟩
    ⟨show (65 + 4085 * 1) * 512 ≤ 8192 * 512 by decide, show 65 + 4085 * 1 ≤ 2 ^ 23 by decide⟩
    (stored_chain (oneFileVolume_chain plainLayout))
    (List.forall_mem_cons.mpr ⟨by decide, List.forall_mem_singleton.mpr (by decide)⟩) _ _ _

end Plak1a.SdCard.CardFiles
