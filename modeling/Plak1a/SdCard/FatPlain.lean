import Plak1a.SdCard.FatWalk

/-!
# Where the FAT walk ends, and what its cache serves

The walk without the cache looks up every entry in the sector of that number. The only
trace of the cache is the number 0, which stands for no sector: a walk that comes to
sector 0 first looks its entries up in the caller's buffer, until it reads another one.
The counter has 16 bits and the index 32, so that an index of more than 16 bits is never
met and only 0xFFFF ends the walk.
-/

namespace Plak1a.SdCard.FatPlain

open Plak1a.Lib.While Plak1a.SdCard.Fat Plak1a.SdCard.FatWalk
open Plak1a.SdCard.Mmc (blockSize)

/-- The sector with the FAT entry of `x`, by the 16 bits the driver computes. -/
def fatSector (s : State) (x : UInt16) : UInt16 := UInt16.ofNat (entrySector (fatBase s) x)

/-- A place on the plain walk, and if the walk has come to a sector other than 0. -/
structure Place where
  cluster : UInt16
  read : Bool

/-- Follow the FAT entry of a cluster. -/
def Place.next (card : Card) (buffer : Memory) (s : State) (p : Place) : Place :=
  let read := p.read || decide (fatSector s p.cluster ≠ 0)
  let sector := if read then card (fatSector s p.cluster).toNat else buffer
  { cluster := word sector (p.cluster.toNat * 2 % blockSize)
    read := read }

/-- The place after `k` entries from cluster `c`. -/
def place (card : Card) (buffer : Memory) (s : State) (c : UInt16) (k : Nat) : Place :=
  (Place.next card buffer s)^[k] ⟨c, false⟩

/-- The cluster after `k` entries from cluster `c`. -/
def plainWalk (card : Card) (buffer : Memory) (s : State) (c : UInt16) (k : Nat) : UInt16 :=
  (place card buffer s c k).cluster

variable {card : Card} {buffer : Memory} {s : State} {c : UInt16} {k n : Nat} {w : Walk}
  {block : UInt32}

theorem place_succ (card : Card) (buffer : Memory) (s : State) (c : UInt16) (k : Nat) :
    place card buffer s c (k + 1) = Place.next card buffer s (place card buffer s c k) := by
  rw [place, Function.iterate_succ_apply', place]

/-- All FAT entries lie in 256 sectors. -/
theorem entrySector_bounds (base : Nat) (x : UInt16) :
    base ≤ entrySector base x ∧ entrySector base x ≤ base + 255 := by
  have hx := x.toNat_lt
  rw [entrySector, show blockSize = 512 from rfl]
  omega

/-- On a volume whose FAT sectors have their own numbers the plain walk follows the FAT. -/
theorem plainWalk_eq (hbase : 0 < fatBase s) (haddr : fatBase s + 255 < 2 ^ 16) (k : Nat) :
    plainWalk card buffer s c k = (entry card (fatBase s))^[k] c := by
  induction k with
  | zero => rfl
  | succ k ih =>
    obtain ⟨hge, hle⟩ := entrySector_bounds (fatBase s) (place card buffer s c k).cluster
    have hsector : (fatSector s (place card buffer s c k).cluster).toNat =
        entrySector (fatBase s) (place card buffer s c k).cluster :=
      UInt16.toNat_ofNat_of_lt' (Nat.lt_of_le_of_lt hle haddr)
    have hne : fatSector s (place card buffer s c k).cluster ≠ 0 := by
      intro h
      rw [h, UInt16.toNat_zero] at hsector
      omega
    rw [Function.iterate_succ_apply', ← ih, plainWalk, place_succ, Place.next]
    simp only [hne, ne_eq, not_false_eq_true, decide_true, Bool.or_true, if_true, hsector]
    rfl

/-- The state of `Load_FAT` at place `k` of the plain walk. -/
structure AtPlace (card : Card) (buffer : Memory) (s : State) (c : UInt16) (k : Nat)
    (w : Walk) : Prop where
  base : fatBase w.state = fatBase s
  cluster : w.cluster = plainWalk card buffer s c k
  cached : (place card buffer s c k).read = true →
    ∀ i < blockSize, w.buffer i = card w.fatBlockStore.toNat i
  unread : (place card buffer s c k).read = false → w.fatBlockStore = 0 ∧ w.buffer = buffer

theorem atPlace_start (card : Card) (buffer : Memory) (s : State) (c : UInt16) :
    AtPlace card buffer s c 0 ⟨0, c, 0, buffer, s⟩ :=
  ⟨rfl, rfl, fun h => absurd h Bool.false_ne_true, fun _ => ⟨rfl, rfl⟩⟩

/-- What the cache serves is what the plain walk looks at. -/
theorem AtPlace.served (h : AtPlace card buffer s c k w) :
    (place card buffer s c (k + 1)).read = true ∧
        (∀ i < blockSize, (served card w (fatSector s w.cluster)).1 i =
          card (fatSector s w.cluster).toNat i) ∨
      (place card buffer s c (k + 1)).read = false ∧ fatSector s w.cluster = 0 ∧
        (served card w (fatSector s w.cluster)).1 = buffer := by
  have hread : (place card buffer s c (k + 1)).read =
      ((place card buffer s c k).read || decide (fatSector s w.cluster ≠ 0)) := by
    rw [place_succ, h.cluster]
    rfl
  by_cases hs : fatSector s w.cluster = w.fatBlockStore
  · rw [FatWalk.served, if_neg (not_not_intro hs)]
    cases hr : (place card buffer s c k).read with
    | true =>
      left
      refine ⟨by rw [hread, hr, Bool.true_or], ?_⟩
      rw [hs]
      exact h.cached hr
    | false =>
      obtain ⟨h0, hb⟩ := h.unread hr
      right
      refine ⟨?_, hs.trans h0, hb⟩
      rw [hread, hr, hs, h0]
      rfl
  · rw [FatWalk.served, if_pos hs]
    left
    constructor
    · rw [hread]
      cases hr : (place card buffer s c k).read with
      | true => rfl
      | false =>
        rw [(h.unread hr).1] at hs
        rw [decide_eq_true hs]
        rfl
    · intro i hi
      rw [mmcReadSector_buffer card _ _ _ hi, UInt16.toNat_toUInt32]

theorem AtPlace.nextCluster (h : AtPlace card buffer s c k w) :
    AtPlace card buffer s c (k + 1) (nextCluster card w) := by
  have hnum : UInt16.ofNat (entrySector (fatBase w.state) w.cluster) = fatSector s w.cluster := by
    rw [h.base]
    rfl
  have hbase : fatBase (FatWalk.served card w (fatSector s w.cluster)).2 = fatBase s := by
    rw [← h.base, FatWalk.served]
    split <;> rfl
  have hcl : plainWalk card buffer s c (k + 1) =
      word (if (place card buffer s c (k + 1)).read then card (fatSector s w.cluster).toNat
        else buffer) (w.cluster.toNat * 2 % blockSize) := by
    rw [plainWalk, place_succ, h.cluster]
    rfl
  rw [nextCluster_eq, hnum]
  rcases h.served with ⟨hr, hb⟩ | ⟨hr, h0, hb⟩
  · constructor
    · exact hbase
    · rw [hcl, hr, if_pos rfl]
      exact word_congr hb (entry_offset _)
    · exact fun _ => hb
    · exact fun hf => absurd (hr.symm.trans hf) (by decide)
  · constructor
    · exact hbase
    · rw [hcl, hr, if_neg Bool.false_ne_true]
      exact congrArg (word · _) hb
    · exact fun ht => absurd (hr.symm.trans ht) (by decide)
    · exact fun _ => ⟨h0, hb⟩

/-- The variables of `Load_FAT` after `k` rounds. -/
def rounds (card : Card) (c : UInt16) (buffer : Memory) (s : State) (k : Nat) : Walk :=
  (nextCluster card)^[k] ⟨0, c, 0, buffer, s⟩

theorem rounds_succ (card : Card) (c : UInt16) (buffer : Memory) (s : State) (k : Nat) :
    rounds card c buffer s (k + 1) = nextCluster card (rounds card c buffer s k) := by
  rw [rounds, Function.iterate_succ_apply', rounds]

theorem rounds_a (card : Card) (c : UInt16) (buffer : Memory) (s : State) (k : Nat) :
    (rounds card c buffer s k).a.toNat = k % 2 ^ 16 := by
  induction k with
  | zero => rfl
  | succ k ih =>
    rw [rounds_succ]
    show ((rounds card c buffer s k).a + 1).toNat = _
    rw [UInt16.toNat_add, ih, UInt16.toNat_one, Nat.mod_add_mod]

theorem rounds_atPlace (card : Card) (c : UInt16) (buffer : Memory) (s : State) (k : Nat) :
    AtPlace card buffer s c k (rounds card c buffer s k) := by
  induction k with
  | zero => exact atPlace_start card buffer s c
  | succ k ih =>
    rw [rounds_succ]
    exact ih.nextCluster

theorem moreClusters_rounds (card : Card) (c : UInt16) (block : UInt32) (buffer : Memory)
    (s : State) (k : Nat) : moreClusters block (rounds card c buffer s k) = false ↔
      k % 2 ^ 16 = block.toNat ∨ plainWalk card buffer s c k = 0xFFFF := by
  rw [moreClusters, decide_eq_false_iff_not, not_and_or, not_not, not_not, ← UInt32.toNat_inj,
    UInt16.toNat_toUInt32, rounds_a, (rounds_atPlace card c buffer s k).cluster]

/-- `Load_FAT` returns. -/
def Returns (card : Card) (c : UInt16) (block : UInt32) (buffer : Memory) (s : State) : Prop :=
  ∃ fuel, (loadFAT card fuel c block buffer s).isSome

theorem returns_iff_ends (card : Card) (c : UInt16) (block : UInt32) (buffer : Memory)
    (s : State) : Returns card c block buffer s ↔
      ∃ t, Ends (moreClusters block) (nextCluster card) ⟨0, c, 0, buffer, s⟩ t := by
  simp only [Returns, loadFAT, Option.isSome_map, Option.isSome_iff_exists, Ends]
  exact exists_comm

/-- `Load_FAT` returns exactly when its counter can reach the index or the walk along the FAT
meets 0xFFFF. -/
theorem loadFAT_returns_iff (card : Card) (c : UInt16) (block : UInt32) (buffer : Memory)
    (s : State) : Returns card c block buffer s ↔
      block.toNat < 2 ^ 16 ∨ ∃ k, plainWalk card buffer s c k = 0xFFFF := by
  rw [returns_iff_ends, ends_iff_iterate]
  constructor
  · intro ⟨k, hk⟩
    rcases (moreClusters_rounds card c block buffer s k).mp hk with hblock | hff
    · left
      rw [← hblock]
      exact Nat.mod_lt k (by decide)
    · exact Or.inr ⟨k, hff⟩
  · rintro (hlt | ⟨k, hff⟩)
    · exact ⟨block.toNat, (moreClusters_rounds ..).mpr (Or.inl (Nat.mod_eq_of_lt hlt))⟩
    · exact ⟨k, (moreClusters_rounds ..).mpr (Or.inr hff)⟩

/-- A FAT at sector 1 whose entries are all 2. -/
def cyclicCard : Card := fun _ i => if i % 2 = 0 then 2 else 0

/-- A chain that is a cycle, and the index 2^16: the counter wraps for ever. -/
theorem cycle_not_returns :
    ¬ ∀ (card : Card) (c : UInt16) (block : UInt32) (buffer : Memory) (s : State),
      Returns card c block buffer s := by
  intro h
  obtain ⟨fuel, hf⟩ := h cyclicCard 2 65536 (fun _ => 0) { startUp with fatOffset := 1 }
  rw [loadFAT_none _ (by decide) (by decide)] at hf
  · exact absurd hf (by decide)
  · intro k
    have hle := (entrySector_bounds 1 ((entry cyclicCard 1)^[k] 2)).2
    exact Nat.lt_of_le_of_lt hle (by decide)
  · intro k
    have h2 : (entry cyclicCard 1)^[k] 2 = 2 := Function.iterate_fixed (by decide) k
    show (entry cyclicCard 1)^[k] 2 ≠ 0xFFFF
    rw [h2]
    decide

theorem walkAt_rounds (hbase : 0 < fatBase s) (haddr : fatBase s + 255 < 2 ^ 16)
    (hk : k < 2 ^ 16) : WalkAt card s c k (rounds card c buffer s k) := by
  induction k with
  | zero => exact walkAt_start card s c buffer
  | succ k ih =>
    rw [rounds_succ]
    apply (ih (by omega)).nextCluster hbase hk
    exact Nat.lt_of_le_of_lt (entrySector_bounds _ _).2 haddr

/-- What round `k` of a walk from `c` reads is the FAT entry of the `k`-th successor, from a
buffer that holds the sector of that entry. -/
structure Serves (card : Card) (c : UInt16) (buffer : Memory) (s : State) (k : Nat) : Prop where
  follows : (rounds card c buffer s (k + 1)).cluster =
    word (rounds card c buffer s (k + 1)).buffer
      (((entry card (fatBase s))^[k] c).toNat * 2 % blockSize)
  sector : ∀ i < blockSize, (rounds card c buffer s (k + 1)).buffer i =
    card (entrySector (fatBase s) ((entry card (fatBase s))^[k] c)) i

theorem rounds_serves (hbase : 0 < fatBase s) (haddr : fatBase s + 255 < 2 ^ 16)
    (hk : k + 1 < 2 ^ 16) : Serves card c buffer s k := by
  have hw : WalkAt card s c k (rounds card c buffer s k) :=
    walkAt_rounds hbase haddr (Nat.lt_of_succ_lt hk)
  have hw' : WalkAt card s c (k + 1) (rounds card c buffer s (k + 1)) :=
    walkAt_rounds hbase haddr hk
  have hb : fatBase (rounds card c buffer s k).state = fatBase s := by
    obtain ⟨rs, hstate, _⟩ := hw.state
    rw [hstate]
    rfl
  have hround := nextCluster_eq card (rounds card c buffer s k)
  rw [← rounds_succ, hw.cluster, hb] at hround
  have hstore : (rounds card c buffer s (k + 1)).fatBlockStore.toNat =
      entrySector (fatBase s) ((entry card (fatBase s))^[k] c) := by
    rw [hround]
    exact UInt16.toNat_ofNat_of_lt' (Nat.lt_of_le_of_lt (entrySector_bounds _ _).2 haddr)
  constructor
  · rw [hround]
  · rcases hw'.cached with h0 | hsector
    · have hge := (entrySector_bounds (fatBase s) ((entry card (fatBase s))^[k] c)).1
      rw [h0, UInt16.toNat_zero] at hstore
      omega
    · rwa [hstore] at hsector

/-- The walk with the cache is the plain one: `Load_FAT` leaves the successor of the start
cluster that the index says, no round reads an entry from another sector, and the sectors
read lie in the first FAT, as far as it has the entries that are followed. -/
theorem loadFAT_plain (card : Card) (c : UInt16) (block : UInt32) (buffer : Memory) (s : State)
    (hn : block.toNat ≤ 65535) (hoffset : 1 ≤ s.fatOffset.toNat)
    (haddr : s.volumeBootRecordAddr.toNat + s.fatOffset.toNat + 255 < 65536)
    (hff : ∀ k < block.toNat, (entry card (fatBase s))^[k] c ≠ 0xFFFF) :
    (∃ fuel buffer' rs, loadFAT card fuel c block buffer s =
        some (((entry card (fatBase s))^[block.toNat] c).toUInt32, buffer',
          { s with reads := s.reads ++ rs }) ∧
      (∀ r ∈ rs, fatBase s ≤ r.toNat ∧ r.toNat ≤ fatBase s + 255) ∧
      ∀ size, (∀ k < block.toNat, ((entry card (fatBase s))^[k] c).toNat < 256 * size) →
        ∀ r ∈ rs, r.toNat < fatBase s + size) ∧
    ∀ k < block.toNat, Serves card c buffer s k := by
  have hbase : 0 < fatBase s := Nat.add_pos_right _ hoffset
  have hsector (x : UInt16) : entrySector (fatBase s) x < 2 ^ 16 :=
    Nat.lt_of_le_of_lt (entrySector_bounds _ x).2 haddr
  constructor
  · obtain ⟨fuel, buffer', rs, hload, hrs⟩ :=
      loadFAT_eq buffer hbase (Nat.lt_succ_of_le hn) rfl (fun k _ => hsector _) hff
    refine ⟨fuel, buffer', rs, hload, ?_, ?_⟩
    · intro r hr
      obtain ⟨k, _, he⟩ := hrs r hr
      rw [he]
      exact entrySector_bounds _ _
    · intro size hsize r hr
      obtain ⟨k, hk, he⟩ := hrs r hr
      have hx := hsize k hk
      rw [he, entrySector, show blockSize = 512 from rfl]
      omega
  · intro k hk
    exact rounds_serves hbase haddr (by omega)

/-- From cluster 300 in the second FAT sector to cluster 2 in the first, which stays cached. -/
theorem loadFAT_plain_three :
    (∃ fuel buffer' rs, loadFAT cyclicCard fuel 300 3 (fun _ => 0)
          { startUp with fatOffset := 1 } =
        some (((entry cyclicCard 1)^[3] 300).toUInt32, buffer',
          { startUp with fatOffset := 1, reads := [] ++ rs }) ∧
      (∀ r ∈ rs, 1 ≤ r.toNat ∧ r.toNat ≤ 1 + 255) ∧
      ∀ size, (∀ k < 3, ((entry cyclicCard 1)^[k] 300).toNat < 256 * size) →
        ∀ r ∈ rs, r.toNat < 1 + size) ∧
    ∀ k < 3, Serves cyclicCard 300 (fun _ => 0) { startUp with fatOffset := 1 } k :=
  loadFAT_plain cyclicCard 300 3 (fun _ => 0) { startUp with fatOffset := 1 } (by decide)
    (by decide) (by decide) (by decide)

end Plak1a.SdCard.FatPlain
