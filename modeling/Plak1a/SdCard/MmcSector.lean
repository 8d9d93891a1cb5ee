import Mathlib.Data.Nat.Bitwise
import Plak1a.Lib.Fields
import Plak1a.SdCard.MmcCard

/-!
# Sector writes and sector reads

`mmc_read_sector` addresses the card at `512 * addr`; in `mmc_write_sector` the same
shift is commented out, so a block goes to the byte address `addr` with its low byte
cleared. The two agree on sector 0 only, unless the card refuses that address or holds
the data already.
-/

namespace Plak1a.SdCard.MmcSector

open Lib.Fields Mmc MmcCard

theorem mask_byte (x : UInt32) {mask k : UInt32} (n : Nat) (hk : k.toNat = n) (hn : n < 32)
    (hmask : mask.toNat = (2 ^ 8 - 1) * 2 ^ n) :
    ((x &&& mask) >>> k).toUInt8.toNat = x.toNat / 2 ^ n % 2 ^ 8 := by
  rw [UInt32.toNat_toUInt8, toNat_shiftRight _ n hk hn, toNat_and_mask x n 8 hmask,
    Nat.mul_div_cancel _ (Nat.two_pow_pos n), Nat.mod_mod]

/-- The address with its low byte cleared. -/
def cleared (addr : UInt32) : Nat := addr.toNat / 2 ^ 8 * 2 ^ 8

/-- The card sees the cleared address. -/
theorem command_address (addr : UInt32) :
    ((addr &&& 0xFF000000) >>> 24).toUInt8.toNat * 2 ^ 24 +
      ((addr &&& 0x00FF0000) >>> 16).toUInt8.toNat * 2 ^ 16 +
      ((addr &&& 0x0000FF00) >>> 8).toUInt8.toNat * 2 ^ 8 + (0x00 : UInt8).toNat =
    cleared addr := by
  have := addr.toNat_lt
  rw [mask_byte addr 24 rfl (by decide) rfl, mask_byte addr 16 rfl (by decide) rfl,
    mask_byte addr 8 rfl (by decide) rfl]
  show addr.toNat / 2 ^ 24 % 2 ^ 8 * 2 ^ 24 + addr.toNat / 2 ^ 16 % 2 ^ 8 * 2 ^ 16 +
    addr.toNat / 2 ^ 8 % 2 ^ 8 * 2 ^ 8 + 0 = addr.toNat / 2 ^ 8 * 2 ^ 8
  omega

/-- The shift in `mmc_read_sector` turns a sector number into its byte address. -/
theorem cleared_shift {addr : UInt32} (h : addr.toNat < 2 ^ 23) :
    cleared (addr <<< 9) = addr.toNat * blockSize := by
  rw [cleared, toNat_shiftLeft addr 9 rfl (by decide)]
  simp only [blockSize]
  omega

section Sector

variable (c : Card) (s : State)

/-- The card after the command it has just answered. -/
def answered (s : State) : State := { s with commands := s.commands + 1 }

theorem response_ne (misalign : Bool) (addr : Nat) : c.response misalign addr ≠ 0xff := by
  unfold Card.response
  split
  · decide
  · split <;> decide

/-- Whatever the response, the driver gets it. -/
theorem writeCommandMMC_eq {code : UInt8} (hcode : code &&& 0xc0 = 0x40) {addr : UInt32}
    {r : UInt8} (hr : r ≠ 0xff) {q : List UInt8} {next : Phase} {s' : State}
    (h : c.execute (command code addr) s =
      s'.goto (.after (List.replicate (c.ncr s.commands) 0xff ++ r :: q) next)) :
    writeCommandMMC c.spi (command code addr) (s.goto .idle) = (r, s'.goto (.after q next)) := by
  have hncr := c.ncr_le s.commands
  rw [writeCommandMMC, command, writeBytes_command hcode, ← command, h]
  exact awaitResponse_after hr q _ _ (by simp only [responseReads]; omega)

theorem read_command {addr : UInt32} (h : c.response c.readMisalign (cleared addr) = 0) :
    writeCommandMMC c.spi (command 0x51 addr) (s.goto .idle) =
      (0, (answered s).goto (.after (List.replicate (c.nac s.commands) 0xff ++
        0xfe :: (Card.block s.data (cleared addr) ++
          [(c.crc (Card.block s.data (cleared addr))).1,
           (c.crc (Card.block s.data (cleared addr))).2])) .idle)) := by
  apply writeCommandMMC_eq c s (by decide) (by decide)
  simp only [Card.execute, command, command_address, h, if_true, ne_eq, not_true_eq_false,
    if_false]
  rfl

theorem read_command_refused {addr : UInt32}
    (h : c.response c.readMisalign (cleared addr) ≠ 0) :
    writeCommandMMC c.spi (command 0x51 addr) (s.goto .idle) =
      (c.response c.readMisalign (cleared addr), (answered s).goto .idle) := by
  apply writeCommandMMC_eq c s (q := []) (by decide) (response_ne c _ _)
  simp only [Card.execute, command, command_address, h, if_true, ne_eq, not_false_eq_true]
  rfl

theorem write_command {addr : UInt32} (h : c.response c.writeMisalign (cleared addr) = 0) :
    writeCommandMMC c.spi (command 0x58 addr) (s.goto .idle) =
      (0, (answered s).goto (.token (cleared addr))) := by
  apply writeCommandMMC_eq c s (q := []) (by decide) (by decide)
  simp only [Card.execute, command, command_address, h, if_true, ne_eq, not_true_eq_false,
    if_false, show ¬ (0x58 : UInt8) = 0x51 by decide]
  rfl

theorem write_command_refused {addr : UInt32}
    (h : c.response c.writeMisalign (cleared addr) ≠ 0) :
    writeCommandMMC c.spi (command 0x58 addr) (s.goto .idle) =
      (c.response c.writeMisalign (cleared addr), (answered s).goto .idle) := by
  apply writeCommandMMC_eq c s (q := []) (by decide) (response_ne c _ _)
  simp only [Card.execute, command, command_address, h, if_true, ne_eq, not_false_eq_true,
    if_false, show ¬ (0x58 : UInt8) = 0x51 by decide]
  rfl

/-- A sector on the card is read from 512 times its number. -/
theorem mmcReadSector_eq {addr : UInt32} (ha : addr.toNat < 2 ^ 23)
    (hin : addr.toNat * blockSize + blockSize ≤ c.size) (out : List UInt8) {polls : Nat}
    (hp : c.nac s.commands < polls) :
    mmcReadSector c.spi polls addr out (s.goto .idle) =
      some (0, Card.block s.data (addr.toNat * blockSize) ++ out.drop blockSize,
        (answered s).goto .idle) := by
  have hresp : c.response c.readMisalign (cleared (addr <<< 9)) = 0 := by
    rw [cleared_shift ha, Card.response, if_neg (by omega),
      if_neg (fun h => h.2 (Nat.mul_mod_left _ _))]
  have hlen := Card.block_length s.data (cleared (addr <<< 9))
  rw [mmcReadSector, mmcReadBlock, read_command c s hresp]
  dsimp only
  rw [if_neg (by decide), waitByte_after (by decide) _ _ _ hp, Option.map_some, Option.map_some]
  rw [readBytes_after hlen, readByteMMC_twice, cleared_shift ha]

theorem mmcReadSector_refused {addr : UInt32} (ha : addr.toNat < 2 ^ 23)
    (hout : c.size < addr.toNat * blockSize + blockSize) (out : List UInt8) (polls : Nat) :
    mmcReadSector c.spi polls addr out (s.goto .idle) =
      some (0, out, (answered s).goto .idle) := by
  have hresp : c.response c.readMisalign (cleared (addr <<< 9)) ≠ 0 := by
    rw [cleared_shift ha, Card.response, if_pos hout]
    decide
  rw [mmcReadSector, mmcReadBlock, read_command_refused c s hresp]
  dsimp only
  rw [if_pos hresp, Option.map_some]

/-- A block that the card takes goes to the cleared address. -/
theorem mmcWriteSector_eq {addr : UInt32} (h : c.response c.writeMisalign (cleared addr) = 0)
    {buffer : List UInt8} (hlen : buffer.length = blockSize) {polls : Nat}
    (hp : c.busy (s.commands + 1) + 1 < polls) :
    mmcWriteSector c.spi polls addr buffer (s.goto .idle) =
      some (0, { answered s with data := Card.store s.data (cleared addr) buffer }.goto .idle) := by
  have htoken : writeByteMMC c.spi 0xfe ((answered s).goto (.token (cleared addr))) =
      (answered s).goto (.receive (cleared addr) []) := rfl
  have hbusy : ∀ b ∈ (0xe5 : UInt8) :: List.replicate (c.busy (s.commands + 1)) 0x00,
      b ≠ 0xff := by
    intro b hb
    rcases List.mem_cons.mp hb with rfl | hb
    · decide
    · rw [List.eq_of_mem_replicate hb]
      decide
  have hwait := waitByte_idle (c := c)
    (s := { answered s with data := Card.store s.data (cleared addr) buffer }) _ hbusy polls
    (by rw [List.length_cons, List.length_replicate]; exact hp)
  rw [mmcWriteSector, write_command c s h]
  dsimp only
  rw [if_neg (by decide), readBytes_token, htoken, List.take_of_length_le (by omega),
    receive_block _ hlen]
  exact congrArg (Option.map _) hwait

theorem mmcWriteSector_refused {addr : UInt32}
    (h : c.response c.writeMisalign (cleared addr) ≠ 0) (buffer : List UInt8) (polls : Nat) :
    mmcWriteSector c.spi polls addr buffer (s.goto .idle) =
      some (c.response c.writeMisalign (cleared addr), (answered s).goto .idle) := by
  rw [mmcWriteSector, write_command_refused c s h]
  exact if_pos h

/-- More polls give the same result. -/
theorem mmcWriteSector_mono {n m : Nat} (hnm : n ≤ m) {addr : UInt32} {buffer : List UInt8}
    {r : UInt8 × State} (h : mmcWriteSector c.spi n addr buffer s = some r) :
    mmcWriteSector c.spi m addr buffer s = some r := by
  unfold mmcWriteSector at h ⊢
  dsimp only at h ⊢
  split at h
  · rename_i hr
    rw [if_pos hr]
    exact h
  · rename_i hr
    rw [if_neg hr]
    obtain ⟨s', hs', hr'⟩ := Option.map_eq_some_iff.mp h
    rw [waitByte_mono hs' hnm, Option.map_some, hr']

theorem mmcReadSector_mono {n m : Nat} (hnm : n ≤ m) {addr : UInt32} {out : List UInt8}
    {r : UInt8 × List UInt8 × State} (h : mmcReadSector c.spi n addr out s = some r) :
    mmcReadSector c.spi m addr out s = some r := by
  unfold mmcReadSector mmcReadBlock at h ⊢
  dsimp only at h ⊢
  split at h
  · rename_i hr
    rw [if_pos hr]
    exact h
  · rename_i hr
    rw [if_neg hr]
    obtain ⟨r', hr', rfl⟩ := Option.map_eq_some_iff.mp h
    obtain ⟨s', hs', rfl⟩ := Option.map_eq_some_iff.mp hr'
    rw [waitByte_mono hs' hnm, Option.map_some, Option.map_some]

/-- What a read of a sector leaves in `Buffer`. -/
def sectorRead (data : Nat → UInt8) (addr : UInt32) (out : List UInt8) : List UInt8 :=
  if addr.toNat * blockSize + blockSize ≤ c.size then Card.block data (addr.toNat * blockSize)
  else out

/-- A read ends, and its result is the sector's block wherever the card has one. -/
theorem exists_read_iff {addr : UInt32} (ha : addr.toNat < 2 ^ 23) {out : List UInt8}
    (hout : out.length = blockSize) {r : UInt8} {read : List UInt8} :
    (∃ n s₂, mmcReadSector c.spi n addr out (s.goto .idle) = some (r, read, s₂)) ↔
      r = 0 ∧ read = sectorRead c s.data addr out := by
  have hrun : ∃ n, mmcReadSector c.spi n addr out (s.goto .idle) =
      some (0, sectorRead c s.data addr out, (answered s).goto .idle) := by
    by_cases hin : addr.toNat * blockSize + blockSize ≤ c.size
    · refine ⟨c.nac s.commands + 1, ?_⟩
      rw [mmcReadSector_eq c s ha hin out (Nat.lt_succ_self _), sectorRead, if_pos hin,
        List.drop_of_length_le (by rw [hout]), List.append_nil]
    · refine ⟨0, ?_⟩
      rw [mmcReadSector_refused c s ha (by omega), sectorRead, if_neg hin]
  obtain ⟨n, hn⟩ := hrun
  constructor
  · intro ⟨m, s₂, hm⟩
    have h₁ := mmcReadSector_mono c _ (Nat.le_max_left n m) hn
    have h₂ := mmcReadSector_mono c _ (Nat.le_max_right n m) hm
    rw [h₁] at h₂
    cases h₂
    exact ⟨rfl, rfl⟩
  · rintro ⟨rfl, rfl⟩
    exact ⟨n, _, hn⟩

end Sector

/-- A sector number the address shift does not overflow. -/
def Sector := { a : UInt32 // a.toNat < 2 ^ 23 }

/-- The contents of one sector. -/
def Buffer := { bytes : List UInt8 // bytes.length = blockSize }

/-- After a successful write of `buf` to sector `a` a read of `a` returns `buf`, and a read
of any other sector returns what it returned before. -/
def Agree (c : Card) (s : State) (a : Sector) (buf : Buffer) : Prop :=
  ∀ polls s₁, mmcWriteSector c.spi polls a.1 buf.1 s = some (0, s₁) →
    (∀ out : Buffer, ∃ n s₂, mmcReadSector c.spi n a.1 out.1 s₁ = some (0, buf.1, s₂)) ∧
    ∀ b : Sector, b.1 ≠ a.1 → ∀ (out : Buffer) n r read s₂,
      mmcReadSector c.spi n b.1 out.1 s = some (r, read, s₂) →
        ∃ n' s₃, mmcReadSector c.spi n' b.1 out.1 s₁ = some (r, read, s₃)

/-- The card has a block at an address, and it is `buf`. -/
def Holds (c : Card) (data : Nat → UInt8) (addr : Nat) (buf : Buffer) : Prop :=
  addr + blockSize ≤ c.size ∧ Card.block data addr = buf.1

section Agreement

variable {c : Card} {s : State} {a : Sector} {buf : Buffer}

/-- The only state in which a successful write leaves the card. -/
def written (s : State) (a : Sector) (buf : Buffer) : State :=
  { answered s with data := Card.store s.data (cleared a.1) buf.1 }

theorem write_result (h : c.response c.writeMisalign (cleared a.1) = 0) :
    (∃ polls, mmcWriteSector c.spi polls a.1 buf.1 (s.goto .idle) =
      some (0, (written s a buf).goto .idle)) ∧
    ∀ polls s₁, mmcWriteSector c.spi polls a.1 buf.1 (s.goto .idle) = some (0, s₁) →
      s₁ = (written s a buf).goto .idle := by
  obtain ⟨n, hrun⟩ : ∃ n, mmcWriteSector c.spi n a.1 buf.1 (s.goto .idle) =
      some (0, (written s a buf).goto .idle) :=
    ⟨_, mmcWriteSector_eq c s h buf.2 (Nat.lt_succ_self _)⟩
  refine ⟨⟨n, hrun⟩, fun polls s₁ hs₁ => ?_⟩
  have h₁ := mmcWriteSector_mono c _ (Nat.le_max_left n polls) hrun
  have h₂ := mmcWriteSector_mono c _ (Nat.le_max_right n polls) hs₁
  rw [h₁] at h₂
  cases h₂
  rfl

/-- On a card that takes the block agreement is a matter of the two memories. -/
theorem agree_iff_memory (h : c.response c.writeMisalign (cleared a.1) = 0) :
    Agree c (s.goto .idle) a buf ↔
      (∀ out : Buffer, sectorRead c (written s a buf).data a.1 out.1 = buf.1) ∧
      ∀ b : Sector, b.1 ≠ a.1 → ∀ out : Buffer,
        sectorRead c (written s a buf).data b.1 out.1 = sectorRead c s.data b.1 out.1 := by
  obtain ⟨⟨polls, hrun⟩, honly⟩ := @write_result c s a buf h
  constructor
  · intro hagree
    obtain ⟨hself, hother⟩ := hagree polls _ hrun
    refine ⟨fun out => ?_, fun b hb out => ?_⟩
    · exact ((exists_read_iff c _ a.2 out.2).mp (hself out)).2.symm
    · obtain ⟨n, s₂, hn⟩ := (exists_read_iff c s b.2 out.2).mpr ⟨rfl, rfl⟩
      exact ((exists_read_iff c _ b.2 out.2).mp (hother b hb out n _ _ s₂ hn)).2.symm
  · intro ⟨hself, hother⟩ polls s₁ hs₁
    rw [honly polls s₁ hs₁]
    refine ⟨fun out => ?_, fun b hb out n r read s₂ hn => ?_⟩
    · exact (exists_read_iff c _ a.2 out.2).mpr ⟨rfl, (hself out).symm⟩
    · obtain ⟨rfl, rfl⟩ := (exists_read_iff c s b.2 out.2).mp ⟨n, s₂, hn⟩
      exact (exists_read_iff c _ b.2 out.2).mpr ⟨rfl, (hother b hb out).symm⟩

theorem taken_in_range (h : c.response c.writeMisalign (cleared a.1) = 0) :
    cleared a.1 + blockSize ≤ c.size := by
  by_contra hlt
  rw [Card.response, if_pos (by omega)] at h
  exact absurd h (by decide)

/-- A buffer that shows a sector was not read. -/
theorem eq_of_forall_buffer {p : Prop} {f : List UInt8} [Decidable p] {buf : Buffer}
    (h : ∀ out : Buffer, (if p then f else out.1) = buf.1) : p ∧ f = buf.1 := by
  by_cases hp : p
  · have hout := h buf
    rw [if_pos hp] at hout
    exact ⟨hp, hout⟩
  · have h₀ := h ⟨List.replicate blockSize 0, List.length_replicate⟩
    have h₁ := h ⟨List.replicate blockSize 1, List.length_replicate⟩
    rw [if_neg hp] at h₀ h₁
    have hrep := (List.replicate_inj.mp (h₀.trans h₁.symm)).2
    exact absurd hrep (by decide)

theorem nat_eq_of_zero {a : UInt32} (h : a = 0) : a.toNat = 0 := by
  rw [h]
  rfl

/-- In sector 0 the two addresses coincide. -/
theorem agree_zero (h : c.response c.writeMisalign (cleared a.1) = 0) (ha : a.1 = 0) :
    Agree c (s.goto .idle) a buf := by
  have hin := taken_in_range h
  have ha0 := nat_eq_of_zero ha
  have hw : cleared a.1 = 0 := by
    rw [cleared, ha0]
    rfl
  rw [agree_iff_memory h]
  refine ⟨fun out => ?_, fun b hb out => ?_⟩
  · rw [sectorRead, ha0, if_pos (by omega)]
    show Card.block (Card.store s.data (cleared a.1) buf.1) _ = _
    rw [hw, Nat.zero_mul, Card.block_store buf.2]
  · have hb0 : b.1.toNat ≠ 0 := fun h0 => hb (by
      rw [ha]
      exact UInt32.toNat_inj.mp h0)
    have hpos := Nat.mul_le_mul_right blockSize (Nat.one_le_iff_ne_zero.mpr hb0)
    unfold sectorRead
    split
    · exact Card.block_store_of_disjoint (.inr (by omega))
    · rfl

/-- Elsewhere the block goes to bytes of other sectors. -/
theorem disjoint_of_ne_zero (ha : a.1 ≠ 0) :
    cleared a.1 + blockSize ≤ a.1.toNat * blockSize := by
  have ha0 : a.1.toNat ≠ 0 := fun h0 => ha (UInt32.toNat_inj.mp h0)
  simp only [cleared, blockSize]
  omega

/-- A byte of another sector is as before when that sector reads as before. -/
theorem unchanged_of_other {data' : Nat → UInt8} {x : Nat} (hx : x < c.size) (hx32 : x < 2 ^ 32)
    (hne : x / 512 ≠ a.1.toNat) (out : Buffer)
    (hother : ∀ b : Sector, b.1 ≠ a.1 → ∀ out : Buffer,
      sectorRead c data' b.1 out.1 = sectorRead c s.data b.1 out.1) : data' x = s.data x := by
  have hb : (UInt32.ofNat (x / 512)).toNat = x / 512 := by
    rw [UInt32.toNat_ofNat', Nat.mod_eq_of_lt (by omega)]
  obtain ⟨k, hk⟩ := c.size_dvd
  have hin : x / 512 * blockSize + blockSize ≤ c.size := by
    simp only [blockSize]
    omega
  have hread := hother ⟨UInt32.ofNat (x / 512), by omega⟩ (fun he => hne (by rw [← he, hb])) out
  unfold sectorRead at hread
  rw [hb, if_pos hin, if_pos hin, Card.block_eq_iff] at hread
  have hbyte := hread (x % 512) (Nat.mod_lt _ (by decide))
  have hpos : x / 512 * blockSize + x % 512 = x := by
    simp only [blockSize]
    omega
  rwa [hpos] at hbyte

theorem holds_of_agree (h : c.response c.writeMisalign (cleared a.1) = 0) (ha : a.1 ≠ 0)
    (hagree : Agree c (s.goto .idle) a buf) :
    Holds c s.data (a.1.toNat * blockSize) buf ∧ Holds c s.data (cleared a.1) buf := by
  obtain ⟨hself, hother⟩ := (agree_iff_memory h).mp hagree
  have hin := taken_in_range h
  have hdisj := disjoint_of_ne_zero ha
  obtain ⟨hina, hblock⟩ := eq_of_forall_buffer hself
  have hold : Card.block (written s a buf).data (a.1.toNat * blockSize) =
      Card.block s.data (a.1.toNat * blockSize) :=
    Card.block_store_of_disjoint (.inr hdisj)
  refine ⟨⟨hina, hold ▸ hblock⟩, hin, ?_⟩
  have hnew : Card.block (written s a buf).data (cleared a.1) = buf.1 := Card.block_store buf.2
  rw [← hnew, Card.block_eq_iff]
  intro i hi
  have ha := a.2
  apply Eq.symm
  apply unchanged_of_other (by omega) ?_ ?_ buf hother
  all_goals
    simp only [cleared, blockSize] at *
    omega

theorem agree_of_holds (h : c.response c.writeMisalign (cleared a.1) = 0)
    (hself : Holds c s.data (a.1.toNat * blockSize) buf)
    (hthere : Holds c s.data (cleared a.1) buf) : Agree c (s.goto .idle) a buf := by
  have hsame : (written s a buf).data = s.data := by
    show Card.store s.data (cleared a.1) buf.1 = s.data
    rw [← hthere.2, Card.store_block]
  rw [agree_iff_memory h, hsame]
  refine ⟨fun out => ?_, fun _ _ _ => rfl⟩
  rw [sectorRead, if_pos hself.1, hself.2]

/-- Writing and reading agree exactly in sector 0, where the card refuses the cleared
address, or where it holds the buffer at both addresses before. -/
theorem write_read_agree_iff (c : Card) (s : State) (a : Sector) (buf : Buffer) :
    Agree c (s.goto .idle) a buf ↔
      a.1 = 0 ∨ c.response c.writeMisalign (cleared a.1) ≠ 0 ∨
        (Holds c s.data (a.1.toNat * blockSize) buf ∧ Holds c s.data (cleared a.1) buf) := by
  by_cases h : c.response c.writeMisalign (cleared a.1) = 0
  · constructor
    · intro hagree
      by_cases ha : a.1 = 0
      · exact .inl ha
      · exact .inr (.inr (holds_of_agree h ha hagree))
    · rintro (ha | hne | ⟨hself, hthere⟩)
      · exact agree_zero h ha
      · exact absurd h hne
      · exact agree_of_holds h hself hthere
  · refine ⟨fun _ => .inr (.inl h), fun _ polls s₁ hs₁ => ?_⟩
    rw [mmcWriteSector_refused c s h] at hs₁
    exact absurd (congrArg Prod.fst (Option.some.inj hs₁)) h

end Agreement

/-- An erased card of 1024 sectors. -/
def blankCard : Card where
  size := 1024 * 512
  size_dvd := Nat.dvd_mul_left 512 1024
  writeMisalign := false
  readMisalign := false
  ncr := fun _ => 1
  ncr_le := fun _ => by decide
  nac := fun _ => 2
  busy := fun _ => 3
  crc := fun _ => (0xff, 0xff)

def erased : State := { data := fun _ => 0, phase := .idle, commands := 0 }

def sectorOne : Sector := ⟨1, by decide⟩

def allOnes : Buffer := ⟨List.replicate blockSize 0xff, List.length_replicate⟩

/-- A block written to sector 1 of an erased card goes to sector 0: it is not read back. -/
theorem sector_one_misplaced : ¬ Agree blankCard (erased.goto .idle) sectorOne allOnes := by
  intro hagree
  have htaken : blankCard.response blankCard.writeMisalign (cleared sectorOne.1) = 0 := by decide
  have hone : sectorOne.1 ≠ 0 := by decide
  have hholds := (holds_of_agree htaken hone hagree).1
  have hbyte := congrArg (·[0]?) hholds.2
  dsimp only [allOnes] at hbyte
  rw [Card.block_getElem? (by decide), List.getElem?_replicate, if_pos (by decide)] at hbyte
  exact absurd hbyte (by decide)

end Plak1a.SdCard.MmcSector
