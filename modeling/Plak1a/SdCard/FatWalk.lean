import Mathlib.Algebra.Group.Nat.Defs
import Mathlib.Logic.Function.Iterate
import Plak1a.SdCard.Fat

/-!
# The FAT walk behind its one-sector cache

`Load_FAT` reads a FAT sector only when its number differs from the last one read, 0
standing for none. As long as no sector number wraps to 16 bits, each round follows
one FAT entry, so that `n` rounds lead to the `n`-th successor of the start cluster.
-/

namespace Plak1a.SdCard.FatWalk

open Plak1a.Lib Plak1a.Lib.Memory Plak1a.Lib.While Plak1a.SdCard.Fat
open Plak1a.SdCard.Mmc (blockSize)

/-- The first FAT sector, as the globals give it. -/
def fatBase (s : State) : Nat := s.volumeBootRecordAddr.toNat + s.fatOffset.toNat

/-- The number of the sector with the FAT entry of `x`, for a FAT that starts at `base`. -/
def entrySector (base : Nat) (x : UInt16) : Nat := base + x.toNat * 2 / blockSize

/-- The FAT entry of `x`. -/
def entry (card : Card) (base : Nat) (x : UInt16) : UInt16 :=
  word (card (entrySector base x)) (x.toNat * 2 % blockSize)

/-- The buffer holds the sector whose number is remembered. -/
def Cached (card : Card) (w : Walk) : Prop :=
  w.fatBlockStore = 0 ∨ ∀ i < blockSize, w.buffer i = card w.fatBlockStore.toNat i

variable {card : Card} {s : State} {w : Walk} {c : UInt16} {n : Nat}

theorem mmcReadSector_buffer (card : Card) (addr : UInt32) (buffer : Memory) (s : State) {i : Nat}
    (hi : i < blockSize) : (mmcReadSector card addr buffer s).1 i = card addr.toNat i := by
  show copy buffer 0 (card addr.toNat) 0 blockSize i = _
  rw [copy, if_pos ⟨Nat.zero_le _, by omega⟩, Nat.zero_add, Nat.sub_zero]

theorem word_congr {b b' : Memory} (h : ∀ i < blockSize, b i = b' i) {p : Nat}
    (hp : p + 1 < blockSize) : word b p = word b' p := by
  rw [word, word, h p (by omega), h (p + 1) hp]

theorem entry_offset (x : UInt16) : x.toNat * 2 % blockSize + 1 < blockSize := by
  rw [show blockSize = 512 from rfl]
  omega

/-- The buffer and the state after a round has looked for sector `block` in the cache. -/
def served (card : Card) (w : Walk) (block : UInt16) : Memory × State :=
  if block ≠ w.fatBlockStore then mmcReadSector card block.toUInt32 w.buffer w.state
  else (w.buffer, w.state)

/-- The cache never serves another sector, and reads no other. -/
theorem served_spec {block : UInt16} (hblock : block ≠ 0) (hc : Cached card w) :
    (∀ i < blockSize, (served card w block).1 i = card block.toNat i) ∧
      ∃ rs : List UInt32, (served card w block).2 =
          { w.state with reads := w.state.reads ++ rs } ∧
        ∀ r ∈ rs, r.toNat = block.toNat := by
  by_cases hs : block = w.fatBlockStore
  · rw [served, if_neg (not_not_intro hs)]
    constructor
    · rcases hc with h | h
      · exact absurd (hs.trans h) hblock
      · rwa [hs]
    · exact ⟨[], by rw [List.append_nil], fun r hr => absurd hr List.not_mem_nil⟩
  · rw [served, if_pos hs]
    constructor
    · intro i hi
      rw [mmcReadSector_buffer card _ _ _ hi, UInt16.toNat_toUInt32]
    · refine ⟨[block.toUInt32], rfl, ?_⟩
      intro r hr
      rw [List.mem_singleton.mp hr, UInt16.toNat_toUInt32]

theorem nextCluster_eq (card : Card) (w : Walk) :
    let block := UInt16.ofNat (entrySector (fatBase w.state) w.cluster)
    nextCluster card w =
      { a := w.a + 1
        cluster := word (served card w block).1 (w.cluster.toNat * 2 % blockSize)
        fatBlockStore := block
        buffer := (served card w block).1
        state := (served card w block).2 } := by
  have hnum : w.cluster.toNat * 2 / blockSize + w.state.volumeBootRecordAddr.toNat +
      w.state.fatOffset.toNat = entrySector (fatBase w.state) w.cluster := by
    rw [entrySector, fatBase]
    omega
  simp only [nextCluster, hnum]
  rfl

/-- What a round does: it follows one entry, and reads at most the sector of that entry. -/
theorem nextCluster_spec (hbase : 0 < fatBase w.state)
    (haddr : entrySector (fatBase w.state) w.cluster < 2 ^ 16) (hc : Cached card w) :
    (nextCluster card w).cluster = entry card (fatBase w.state) w.cluster ∧
      Cached card (nextCluster card w) ∧
      ∃ rs : List UInt32, (nextCluster card w).state =
          { w.state with reads := w.state.reads ++ rs } ∧
        ∀ r ∈ rs, r.toNat = entrySector (fatBase w.state) w.cluster := by
  have h16 : (UInt16.ofNat (entrySector (fatBase w.state) w.cluster)).toNat =
      entrySector (fatBase w.state) w.cluster := UInt16.toNat_ofNat_of_lt' haddr
  have hne : UInt16.ofNat (entrySector (fatBase w.state) w.cluster) ≠ 0 := by
    intro h
    have hpos : 0 < entrySector (fatBase w.state) w.cluster := Nat.add_pos_left hbase _
    rw [← h16, h] at hpos
    exact absurd hpos (by decide)
  obtain ⟨hbuf, rs, hstate, hrs⟩ := served_spec hne hc
  rw [nextCluster_eq]
  refine ⟨?_, Or.inr hbuf, rs, hstate, fun r hr => (hrs r hr).trans h16⟩
  show word _ _ = _
  rw [word_congr hbuf (entry_offset _), h16]
  rfl

/-- The state after `n` rounds of a walk from `c` that starts in `s`. -/
structure WalkAt (card : Card) (s : State) (c : UInt16) (n : Nat) (w : Walk) : Prop where
  a : w.a.toNat = n
  cluster : w.cluster = (entry card (fatBase s))^[n] c
  cached : Cached card w
  state : ∃ rs : List UInt32, w.state = { s with reads := s.reads ++ rs } ∧
    ∀ r ∈ rs, ∃ k < n, r.toNat = entrySector (fatBase s) ((entry card (fatBase s))^[k] c)

theorem walkAt_start (card : Card) (s : State) (c : UInt16) (buffer : Memory) :
    WalkAt card s c 0 ⟨0, c, 0, buffer, s⟩ :=
  ⟨rfl, rfl, Or.inl rfl, [], by rw [List.append_nil], fun r hr => absurd hr List.not_mem_nil⟩

theorem WalkAt.nextCluster (hbase : 0 < fatBase s) (hn : n + 1 < 2 ^ 16)
    (haddr : entrySector (fatBase s) ((entry card (fatBase s))^[n] c) < 2 ^ 16)
    (h : WalkAt card s c n w) : WalkAt card s c (n + 1) (nextCluster card w) := by
  obtain ⟨rs, hstate, hrs⟩ := h.state
  have hb : fatBase w.state = fatBase s := by rw [hstate]; rfl
  rw [← h.cluster, ← hb] at haddr
  obtain ⟨hcl, hca, ts, hts, hr⟩ := nextCluster_spec (hb ▸ hbase) haddr h.cached
  constructor
  · show (w.a + 1).toNat = n + 1
    rw [UInt16.toNat_add, h.a]
    exact Nat.mod_eq_of_lt hn
  · rw [hcl, hb, h.cluster, Function.iterate_succ_apply']
  · exact hca
  · refine ⟨rs ++ ts, by rw [hts, hstate, List.append_assoc], ?_⟩
    intro r hmem
    rcases List.mem_append.mp hmem with hmem | hmem
    · obtain ⟨k, hk, he⟩ := hrs r hmem
      exact ⟨k, by omega, he⟩
    · exact ⟨n, Nat.lt_succ_self n, by rw [hr r hmem, hb, h.cluster]⟩

/-- The walk over `n` entries ends after `n` rounds, where the counter has reached `*Block`
or the cluster is 0xFFFF and none was before. -/
theorem walk_ends {block : UInt32} (hbase : 0 < fatBase s) (hn : n < 2 ^ 16)
    (hle : n ≤ block.toNat) (hstop : block.toNat = n ∨ (entry card (fatBase s))^[n] c = 0xFFFF)
    (haddr : ∀ k < n, entrySector (fatBase s) ((entry card (fatBase s))^[k] c) < 2 ^ 16)
    (hff : ∀ k < n, (entry card (fatBase s))^[k] c ≠ 0xFFFF) :
    ∀ {m k : Nat} {w : Walk}, k + m = n → WalkAt card s c k w →
      ∃ w', Ends (moreClusters block) (nextCluster card) w w' ∧ WalkAt card s c n w' := by
  intro m
  induction m with
  | zero =>
    intro k w hk hw
    obtain rfl : k = n := by omega
    refine ⟨w, Ends.stop ?_, hw⟩
    rw [moreClusters, decide_eq_false_iff_not, ← UInt32.toNat_inj.ne, UInt16.toNat_toUInt32,
      hw.a, hw.cluster]
    intro ⟨hne, hcl⟩
    rcases hstop with h | h
    · exact hne h.symm
    · exact hcl h
  | succ m ih =>
    intro k w hk hw
    have hne : w.a.toUInt32 ≠ block := by
      rw [Ne, ← UInt32.toNat_inj, UInt16.toNat_toUInt32, hw.a]
      omega
    have hcl : w.cluster ≠ 0xFFFF := by
      rw [hw.cluster]
      exact hff k (by omega)
    obtain ⟨w', hw', hat⟩ :=
      ih (k := k + 1) (by omega) (hw.nextCluster hbase (by omega) (haddr k (by omega)))
    exact ⟨w', hw'.next (by rw [moreClusters, decide_eq_true_iff]; exact ⟨hne, hcl⟩), hat⟩

/-- `Load_FAT` leaves the `n`-th successor of the start cluster in `*Block`, or what was
there if the walk has met 0xFFFF before. -/
theorem loadFAT_ends {block : UInt32} (buffer : Memory) (hbase : 0 < fatBase s) (hn : n < 2 ^ 16)
    (hle : n ≤ block.toNat) (hstop : block.toNat = n ∨ (entry card (fatBase s))^[n] c = 0xFFFF)
    (haddr : ∀ k < n, entrySector (fatBase s) ((entry card (fatBase s))^[k] c) < 2 ^ 16)
    (hff : ∀ k < n, (entry card (fatBase s))^[k] c ≠ 0xFFFF) :
    ∃ fuel buffer' rs, loadFAT card fuel c block buffer s =
        some (if block.toNat = n then ((entry card (fatBase s))^[n] c).toUInt32 else block,
          buffer', { s with reads := s.reads ++ rs }) ∧
      ∀ r ∈ rs, ∃ k < n, r.toNat = entrySector (fatBase s) ((entry card (fatBase s))^[k] c) := by
  obtain ⟨w, ⟨fuel, hf⟩, hat⟩ :=
    walk_ends hbase hn hle hstop haddr hff (Nat.zero_add n) (walkAt_start card s c buffer)
  obtain ⟨rs, hstate, hrs⟩ := hat.state
  have heq : w.a.toUInt32 = block ↔ block.toNat = n := by
    rw [← UInt32.toNat_inj, UInt16.toNat_toUInt32, hat.a, eq_comm]
  refine ⟨fuel, w.buffer, rs, ?_, hrs⟩
  rw [loadFAT, hf, Option.map_some, hat.cluster, hstate]
  simp only [heq]

/-- `Load_FAT` leaves the `n`-th successor of the start cluster in `*Block`. -/
theorem loadFAT_eq {block : UInt32} (buffer : Memory) (hbase : 0 < fatBase s) (hn : n < 2 ^ 16)
    (hblock : block.toNat = n)
    (haddr : ∀ k < n, entrySector (fatBase s) ((entry card (fatBase s))^[k] c) < 2 ^ 16)
    (hff : ∀ k < n, (entry card (fatBase s))^[k] c ≠ 0xFFFF) :
    ∃ fuel buffer' rs, loadFAT card fuel c block buffer s =
        some (((entry card (fatBase s))^[n] c).toUInt32, buffer',
          { s with reads := s.reads ++ rs }) ∧
      ∀ r ∈ rs, ∃ k < n, r.toNat = entrySector (fatBase s) ((entry card (fatBase s))^[k] c) := by
  obtain ⟨fuel, buffer', rs, hload, hrs⟩ :=
    loadFAT_ends buffer hbase hn (Nat.le_of_eq hblock.symm) (Or.inl hblock) haddr hff
  rw [if_pos hblock] at hload
  exact ⟨fuel, buffer', rs, hload, hrs⟩

/-- A 16-bit counter does not reach 2^16: without 0xFFFF on its way the walk goes on for ever. -/
theorem loadFAT_none {block : UInt32} (buffer : Memory) (hbase : 0 < fatBase s)
    (hblock : 2 ^ 16 ≤ block.toNat)
    (haddr : ∀ k, entrySector (fatBase s) ((entry card (fatBase s))^[k] c) < 2 ^ 16)
    (hff : ∀ k, (entry card (fatBase s))^[k] c ≠ 0xFFFF) (fuel : Nat) :
    loadFAT card fuel c block buffer s = none := by
  have hbody (w : Walk)
      (h : ∃ k, w.cluster = (entry card (fatBase s))^[k] c ∧ fatBase w.state = fatBase s ∧
        Cached card w) :
      moreClusters block w = true ∧
        ∃ k, (nextCluster card w).cluster = (entry card (fatBase s))^[k] c ∧
          fatBase (nextCluster card w).state = fatBase s ∧ Cached card (nextCluster card w) := by
    obtain ⟨k, hcl, hb, hca⟩ := h
    obtain ⟨hcl', hca', rs, hstate, _⟩ :=
      nextCluster_spec (hb ▸ hbase) (by rw [hb, hcl]; exact haddr k) hca
    constructor
    · have ha := w.a.toNat_lt
      rw [moreClusters, decide_eq_true_iff, ← UInt32.toNat_inj.ne, UInt16.toNat_toUInt32]
      exact ⟨by omega, hcl ▸ hff k⟩
    · refine ⟨k + 1, ?_, ?_, hca'⟩
      · rw [hcl', hb, hcl, Function.iterate_succ_apply']
      · rw [hstate, ← hb]
        rfl
  rw [loadFAT, run_none hbody ⟨0, rfl, rfl, Or.inl rfl⟩, Option.map_none]

/-- What `Load_FAT` leaves does not depend on the bound. -/
theorem loadFAT_unique {fuel fuel' : Nat} {block : UInt32} {buffer : Memory}
    {r r' : UInt32 × Memory × State} (h : loadFAT card fuel c block buffer s = some r)
    (h' : loadFAT card fuel' c block buffer s = some r') : r = r' := by
  obtain ⟨w, hw, rfl⟩ := Option.map_eq_some_iff.mp h
  obtain ⟨w', hw', rfl⟩ := Option.map_eq_some_iff.mp h'
  obtain rfl := Ends.unique ⟨fuel, hw⟩ ⟨fuel', hw'⟩
  rfl

end Plak1a.SdCard.FatWalk
