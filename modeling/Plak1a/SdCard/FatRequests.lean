import Plak1a.Lib.Requests
import Plak1a.SdCard.DirInside

/-!
# The FAT functions as programs that ask for sectors

A program asks for a sector by its number and is given the bytes that reach the buffer: those of
the sector, or none when the card refuses. On a card that delivers what it is asked for a program
is the function, and asks for the sectors that are added to `reads`.
-/

namespace Plak1a.SdCard.FatRequests

open Plak1a.Lib Plak1a.Lib.Requests Plak1a.SdCard.Fat Plak1a.SdCard.FatDir
open Plak1a.SdCard.Mmc (blockSize)

abbrev Sectors := Prog UInt32 (List UInt8)

/-- The buffer with the bytes that have reached it. -/
def overlay (data : List UInt8) (buffer : Memory) : Memory := fun i => data.getD i (buffer i)

/-- `mmc_read_sector` -/
def readSector (addr : UInt32) (buffer : Memory) (s : State) : Sectors (Memory × State) :=
  .ask addr fun data => .done (overlay data buffer, { s with reads := s.reads ++ [addr] })

/-- `FAT_Addr` -/
def fatAddr (buffer : Memory) (s : State) : Sectors (UInt16 × Memory × State) := do
  let (buffer, s) ← readSector masterBootRecord buffer s
  let volumeBootRecordAddr := word buffer vbrAddr
  let (buffer, s) ← readSector volumeBootRecordAddr.toUInt32 buffer s
  pure (volumeBootRecordAddr, buffer, s)

/-- `Root_Dir_Addr` -/
def rootDirAddr (buffer : Memory) (s : State) : Sectors (UInt16 × Memory × State) := do
  let (buffer, s) ← readSector s.volumeBootRecordAddr.toUInt32 buffer s
  let firstRootDirSecNum := UInt16.ofNat ((bpbRsvdSecCnt buffer).toNat +
    (bpbNumFATs buffer).toNat * (bpbFATSz16 buffer).toNat)
  pure (firstRootDirSecNum + s.volumeBootRecordAddr, buffer, s)

/-- The rest of a round of `Load_FAT`. -/
def nextCluster (w : Walk) : Sectors Walk := do
  let fatByteAddresse := w.cluster.toNat * 2 % blockSize
  let fatBlockAddresse := UInt16.ofNat (w.cluster.toNat * 2 / blockSize +
    w.state.volumeBootRecordAddr.toNat + w.state.fatOffset.toNat)
  let (buffer, state) ←
    if fatBlockAddresse ≠ w.fatBlockStore then
      readSector fatBlockAddresse.toUInt32 w.buffer w.state
    else pure (w.buffer, w.state)
  pure
    { a := w.a + 1
      cluster := word buffer fatByteAddresse
      fatBlockStore := fatBlockAddresse
      buffer := buffer
      state := state }

/-- The loop of `Load_FAT`. -/
def walk (block : UInt32) : (fuel : Nat) → Walk → Sectors (Option Walk)
  | 0, _ => pure none
  | fuel + 1, w =>
    if moreClusters block w then nextCluster w >>= walk block fuel else pure (some w)

/-- `Load_FAT` -/
def loadFAT (fuel : Nat) (cluster : UInt16) (block : UInt32) (buffer : Memory) (s : State) :
    Sectors (Option (UInt32 × Memory × State)) := do
  let w ← walk block fuel ⟨0, cluster, 0, buffer, s⟩
  pure (w.map fun w => (if w.a.toUInt32 = block then w.cluster.toUInt32 else block, w.buffer,
    w.state))

/-- `Cluster_Data_Store` -/
def clusterDataStore (buffer : Memory) (s : State) : Sectors State := do
  let (volumeBootRecordAddr, buffer, s) ← fatAddr buffer s
  let s := { s with volumeBootRecordAddr := volumeBootRecordAddr }
  let (buffer, s) ← readSector s.volumeBootRecordAddr.toUInt32 buffer s
  let s :=
    { s with
      clusterSize := bpbSecPerClus buffer
      fatOffset := bpbRsvdSecCnt buffer
      clusterOffset := UInt16.ofNat ((bpbBytesPerSec buffer).toNat * 32 / blockSize) }
  let (root, _, s) ← rootDirAddr buffer s
  pure { s with clusterOffset := s.clusterOffset + root }

/-- `Read_File` -/
def readFile (fuel : Nat) (cluster : UInt16) (buffer : Memory) (blockCount : UInt32) (s : State) :
    Sectors (Option (Memory × State)) := do
  let clusterSize := s.clusterSize.toUInt32
  match ← loadFAT fuel cluster (blockCount / clusterSize) buffer s with
  | none => pure none
  | some (block, buffer, s) =>
    let block := (block - 2) * clusterSize + s.clusterOffset.toUInt32
    let block := block + blockCount % clusterSize
    let r ← readSector block buffer s
    pure (some r)

/-- The loop over the sectors of a directory. -/
def scan (entryCount : UInt8) (size : UInt32) (dirAttrib : UInt8) :
    (fuel : Nat) → UInt16 → UInt16 → Memory → State → Sectors (Option DirEnt)
  | 0, _, _, _, _ => pure none
  | fuel + 1, blk, tmpEntryCount, buffer, s => do
    let (buffer, s) ← readSector blk.toUInt32 buffer s
    match parse entryCount buffer offsets tmpEntryCount with
    | .terminator => pure (some ⟨0xFFFF, size, dirAttrib, buffer, s⟩)
    | .wanted a => pure (some (takeEntry a buffer s))
    | .exhausted tmpEntryCount =>
      scan entryCount size dirAttrib fuel (blk + 1) tmpEntryCount buffer s

/-- `Block` before the loop of `Read_Dir_Ent`. -/
def dirBlock (fuel : Nat) (dirCluster : UInt16) (buffer : Memory) (s : State) :
    Sectors (Option (UInt32 × Memory × State)) :=
  if dirCluster = 0 then do
    let (root, buffer, s) ← rootDirAddr buffer s
    pure (some (root.toUInt32, buffer, s))
  else do
    let r ← loadFAT fuel dirCluster 0 buffer s
    pure (r.map fun (block, buffer, s) =>
      ((block - 2) * s.clusterSize.toUInt32 + s.clusterOffset.toUInt32, buffer, s))

/-- `Read_Dir_Ent` -/
def readDirEnt (fuel : Nat) (dirCluster : UInt16) (entryCount : UInt8) (size : UInt32)
    (dirAttrib : UInt8) (buffer : Memory) (s : State) : Sectors (Option DirEnt) := do
  match ← dirBlock fuel dirCluster buffer s with
  | none => pure none
  | some (block, buffer, s) => scan entryCount size dirAttrib fuel block.toUInt16 0 buffer s

/-- The loop of `Search_File`. -/
def searchLoop (fuel : Nat) (fileName : List UInt8) (dirClusterStore : UInt16) :
    (todo : Nat) → UInt8 → DirEnt → Sectors (Option (UInt8 × DirEnt))
  | 0, _, r => pure (some (2, r))
  | todo + 1, a, r => do
    match ← readDirEnt fuel dirClusterStore a r.size r.dirAttrib r.buffer r.state with
    | none => pure none
    | some r =>
      if r.cluster = 0xFFFF then pure (some (0, r))
      else if sameString r.buffer 0 fileName then pure (some (1, r))
      else searchLoop fuel fileName dirClusterStore todo (a + 1) r

/-- `Search_File` -/
def searchFile (fuel : Nat) (fileName : List UInt8) (r : DirEnt) :
    Sectors (Option (UInt8 × DirEnt)) :=
  searchLoop fuel fileName r.cluster 100 0 r

/-- The bytes of a sector. -/
def deliver (card : Card) (addr : UInt32) : List UInt8 :=
  (List.range blockSize).map (card addr.toNat)

/-- On this card the program returns `a`, and takes the globals from `s` to `t`. -/
def Runs (card : Card) {A : Type} (p : Sectors A) (a : A) (s t : State) : Prop :=
  ∃ rs, p.run (deliver card) = (a, rs) ∧ t.reads = s.reads ++ rs

variable {card : Card} {A B : Type} {p : Sectors A} {f : A → Sectors B} {a : A} {b : B}
  {s t u : State} {buffer : Memory}

theorem Runs.pure (a : A) (s : State) : Runs card (pure a) a s s := ⟨[], rfl, by simp⟩

theorem Runs.bind (hp : Runs card p a s t) (hf : Runs card (f a) b t u) :
    Runs card (p >>= f) b s u := by
  obtain ⟨rs, hrun, hreads⟩ := hp
  obtain ⟨ts, hrun', hreads'⟩ := hf
  refine ⟨rs ++ ts, ?_, ?_⟩
  · rw [run_bind, hrun]
    simp only [hrun']
  · rw [hreads', hreads, List.append_assoc]

/-- Globals with the same sectors asked for. -/
theorem Runs.congr {s' t' : State} (hs : s'.reads = s.reads) (ht : t'.reads = t.reads)
    (h : Runs card p a s t) : Runs card p a s' t' := by
  obtain ⟨rs, hrun, hreads⟩ := h
  exact ⟨rs, hrun, by rw [ht, hs, hreads]⟩

theorem overlay_deliver (card : Card) (addr : UInt32) (buffer : Memory) :
    overlay (deliver card addr) buffer = Memory.copy buffer 0 (card addr.toNat) 0 blockSize := by
  funext i
  rw [overlay, deliver, Memory.copy, List.getD_eq_getElem?_getD, List.getElem?_map]
  by_cases hi : i < blockSize
  · rw [List.getElem?_range hi, if_pos ⟨Nat.zero_le _, by omega⟩]
    simp
  · rw [List.getElem?_eq_none (by simpa using hi), if_neg (by omega)]
    rfl

theorem runs_readSector (card : Card) (addr : UInt32) (buffer : Memory) (s : State) :
    Runs card (readSector addr buffer s) (mmcReadSector card addr buffer s) s
      (mmcReadSector card addr buffer s).2 := by
  refine ⟨[addr], ?_, rfl⟩
  rw [mmcReadSector, ← overlay_deliver]
  rfl

theorem runs_fatAddr (card : Card) (buffer : Memory) (s : State) :
    Runs card (fatAddr buffer s) (Fat.fatAddr card buffer s) s
      (Fat.fatAddr card buffer s).2.2 :=
  (runs_readSector card _ _ _).bind ((runs_readSector card _ _ _).bind (.pure _ _))

theorem runs_rootDirAddr (card : Card) (buffer : Memory) (s : State) :
    Runs card (rootDirAddr buffer s) (Fat.rootDirAddr card buffer s) s
      (Fat.rootDirAddr card buffer s).2.2 :=
  (runs_readSector card _ _ _).bind (.pure _ _)

theorem runs_nextCluster (card : Card) (w : Walk) :
    Runs card (nextCluster w) (Fat.nextCluster card w) w.state
      (Fat.nextCluster card w).state := by
  rw [nextCluster, Fat.nextCluster]
  by_cases h : UInt16.ofNat (w.cluster.toNat * 2 / blockSize +
      w.state.volumeBootRecordAddr.toNat + w.state.fatOffset.toNat) ≠ w.fatBlockStore
  · simp only [if_pos h]
    exact (runs_readSector card _ _ _).bind (.pure _ _)
  · simp only [if_neg h]
    exact (Runs.pure _ _).bind (.pure _ _)

theorem runs_walk {block : UInt32} {fuel : Nat} {w w' : Walk}
    (h : While.run (moreClusters block) (Fat.nextCluster card) fuel w = some w') :
    Runs card (walk block fuel w) (some w') w.state w'.state := by
  induction fuel generalizing w with
  | zero => cases h
  | succ fuel ih =>
    rw [walk]
    cases hm : moreClusters block w with
    | false =>
      rw [While.run_stop fuel hm] at h
      cases h
      exact .pure _ _
    | true =>
      rw [While.run_more fuel hm] at h
      exact (runs_nextCluster card w).bind (ih h)

theorem runs_loadFAT {fuel : Nat} {cluster : UInt16} {block : UInt32}
    {r : UInt32 × Memory × State} (h : Fat.loadFAT card fuel cluster block buffer s = some r) :
    Runs card (loadFAT fuel cluster block buffer s) (some r) s r.2.2 := by
  obtain ⟨w, hw, rfl⟩ := Option.map_eq_some_iff.mp h
  exact (runs_walk hw).bind (.pure _ _)

theorem runs_clusterDataStore (card : Card) (buffer : Memory) (s : State) :
    Runs card (clusterDataStore buffer s) (Fat.clusterDataStore card buffer s) s
      (Fat.clusterDataStore card buffer s) :=
  (runs_fatAddr card _ _).bind
    (((runs_readSector card _ _ _).congr rfl rfl).bind
      (((runs_rootDirAddr card _ _).congr rfl rfl).bind ((Runs.pure _ _).congr rfl rfl)))

theorem runs_readFile {fuel : Nat} {cluster : UInt16} {blockCount : UInt32} {r : Memory × State}
    (h : Fat.readFile card fuel cluster buffer blockCount s = some r) :
    Runs card (readFile fuel cluster buffer blockCount s) (some r) s r.2 := by
  obtain ⟨⟨block, buffer', t⟩, hload, rfl⟩ := Option.map_eq_some_iff.mp h
  exact (runs_loadFAT hload).bind ((runs_readSector card _ _ _).bind (.pure _ _))

theorem runs_scan {entryCount dirAttrib : UInt8} {size : UInt32} {fuel : Nat}
    {blk tmp : UInt16} {r : DirEnt}
    (h : FatDir.scan card entryCount size dirAttrib fuel blk tmp buffer s = some r) :
    Runs card (scan entryCount size dirAttrib fuel blk tmp buffer s) (some r) s r.state := by
  induction fuel generalizing blk tmp buffer s with
  | zero => cases h
  | succ fuel ih =>
    rw [FatDir.scan] at h
    rw [scan]
    refine (runs_readSector card _ _ _).bind ?_
    generalize mmcReadSector card blk.toUInt32 buffer s = q at h ⊢
    obtain ⟨buffer', s'⟩ := q
    dsimp only at h ⊢
    cases hparse : parse entryCount buffer' offsets tmp with
    | terminator =>
      rw [hparse] at h
      obtain rfl := Option.some.inj h
      exact .pure _ _
    | wanted a =>
      rw [hparse] at h
      obtain rfl := Option.some.inj h
      have hreads := congrArg State.reads (DirInside.takeEntry_state a buffer' s')
      exact (Runs.pure _ s').congr rfl hreads
    | exhausted tmp' =>
      rw [hparse] at h
      exact ih h

theorem runs_dirBlock {fuel : Nat} {dirCluster : UInt16} {r : UInt32 × Memory × State}
    (h : FatDir.dirBlock card fuel dirCluster buffer s = some r) :
    Runs card (dirBlock fuel dirCluster buffer s) (some r) s r.2.2 := by
  rw [FatDir.dirBlock] at h
  rw [dirBlock]
  split at h
  · next h0 =>
    rw [if_pos h0]
    cases h
    exact (runs_rootDirAddr card _ _).bind (.pure _ _)
  · next h0 =>
    rw [if_neg h0]
    obtain ⟨q, hload, rfl⟩ := Option.map_eq_some_iff.mp h
    exact (runs_loadFAT hload).bind (.pure _ _)

theorem runs_readDirEnt {fuel : Nat} {dirCluster : UInt16} {entryCount dirAttrib : UInt8}
    {size : UInt32} {r : DirEnt}
    (h : FatDir.readDirEnt card fuel dirCluster entryCount size dirAttrib buffer s = some r) :
    Runs card (readDirEnt fuel dirCluster entryCount size dirAttrib buffer s) (some r) s
      r.state := by
  obtain ⟨⟨block, buffer', t⟩, hblock, hscan⟩ := Option.bind_eq_some_iff.mp h
  exact (runs_dirBlock hblock).bind (runs_scan hscan)

theorem runs_searchLoop {fuel todo : Nat} {fileName : List UInt8} {dirCluster : UInt16} {a : UInt8}
    {r : DirEnt} {q : UInt8 × DirEnt}
    (h : FatDir.searchLoop card fuel fileName dirCluster todo a r = some q) :
    Runs card (searchLoop fuel fileName dirCluster todo a r) (some q) r.state q.2.state := by
  induction todo generalizing a r with
  | zero =>
    cases h
    exact .pure _ _
  | succ todo ih =>
    obtain ⟨e, hent, h⟩ := Option.bind_eq_some_iff.mp h
    rw [searchLoop]
    refine (runs_readDirEnt hent).bind ?_
    split at h
    · next hc =>
      cases h
      simp only [hc, if_true]
      exact .pure _ _
    next hc =>
    split at h
    · next hname =>
      cases h
      simp only [hc, hname, if_true, if_false]
      exact .pure _ _
    · next hname =>
      simp only [hc, hname, if_false]
      exact ih h

end Plak1a.SdCard.FatRequests
