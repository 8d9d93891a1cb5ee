import Mathlib.Data.Nat.Find
import Plak1a.SdCard.Mmc

/-!
# Errors of a card that answers anything

The card is a stream of bytes, one for each transfer. In answer to a block command it
sends the response, the first byte other than 0xFF; to a read command with response 0
then the start token 0xFE, again the first byte other than 0xFF, and the block, or an
error token; to a write command with response 0 the data response right behind the
block, and 0 bytes while it is busy. `mmc_read_sector` has no result but 0 and skips
every byte before a 0xFE, `mmc_write_sector` does not look at the data response, and
neither gives up once the command is taken.
-/

namespace Plak1a.SdCard.MmcErrors

open Plak1a.SdCard.Mmc

/-- A card that sends the byte `rx t` in transfer `t`, whatever it receives. -/
def stream (rx : Nat → UInt8) (t : Nat) (_ : UInt8) : UInt8 × Nat := (rx t, t + 1)

/-- The `n` bytes from transfer `t` on. -/
def bytes (rx : Nat → UInt8) (t n : Nat) : List UInt8 := (List.range' t n).map rx

/-- From transfer `t` on the first byte other than 0xFF comes in transfer `u`. -/
structure NextByte (rx : Nat → UInt8) (t u : Nat) : Prop where
  le : t ≤ u
  idle : ∀ i, t ≤ i → i < u → rx i = 0xFF
  byte : rx u ≠ 0xFF

/-- The first transfer behind a command that starts in transfer `t`. -/
def afterCommand (t : Nat) : Nat := t + 7

/-- The transfer of the data response when the response came in transfer `p`: the 100 skipped
bytes, the start byte, the block and the two check bytes lie between them. -/
def dataResponse (p : Nat) : Nat := p + 1 + 100 + 1 + blockSize + 2

/-- `data` is the block the card has sent before transfer `stop` for the read command that
starts in transfer `t`. -/
def Sent (rx : Nat → UInt8) (t stop : Nat) (data : List UInt8) : Prop :=
  ∃ p q, NextByte rx (afterCommand t) p ∧ rx p = 0 ∧ NextByte rx (p + 1) q ∧ rx q = 0xFE ∧
    q + 1 + blockSize ≤ stop ∧ data = bytes rx (q + 1) blockSize

/-- The card accepts the block of the write command that starts in transfer `t`. -/
def Accepted (rx : Nat → UInt8) (t : Nat) : Prop :=
  ∃ p, NextByte rx (afterCommand t) p ∧ rx p = 0 ∧ rx (dataResponse p) &&& 0x1F = 0x05

/-- `mmc_read_sector` returns, and 0 only with the block the card has sent in `Buffer`. -/
def ReadReported (rx : Nat → UInt8) (t : Nat) (addr : UInt32) (buffer : List UInt8) : Prop :=
  ∃ polls r, mmcReadSector (stream rx) polls addr buffer t = some r ∧
    (r.1 = 0 → Sent rx t r.2.2 (r.2.1.take blockSize))

/-- `mmc_write_sector` returns, and 0 only if the card accepts the block. -/
def WriteReported (rx : Nat → UInt8) (t : Nat) (addr : UInt32) (buffer : List UInt8) : Prop :=
  ∃ polls r, mmcWriteSector (stream rx) polls addr buffer t = some r ∧ (r.1 = 0 → Accepted rx t)

/-- Response 0 comes in time and a start token behind it. -/
def ReadAnswered (rx : Nat → UInt8) (t : Nat) : Prop :=
  ∃ p q, p < afterCommand t + responseReads ∧ NextByte rx (afterCommand t) p ∧ rx p = 0 ∧
    NextByte rx (p + 1) q ∧ rx q = 0xFE

/-- If response 0 comes in time, the data response accepts the block and the card is idle
some time. -/
def WriteAnswered (rx : Nat → UInt8) (t : Nat) : Prop :=
  ∀ p < afterCommand t + responseReads, NextByte rx (afterCommand t) p → rx p = 0 →
    rx (dataResponse p) &&& 0x1F = 0x05 ∧ ∃ u ≥ dataResponse p, rx u = 0xFF

variable {rx : Nat → UInt8} {t u p q n polls : Nat} {b : UInt8} {addr : UInt32}
  {buffer : List UInt8}

theorem NextByte.unique (h : NextByte rx t p) (h' : NextByte rx t q) : p = q := by
  rcases Nat.lt_trichotomy p q with hlt | heq | hlt
  · exact absurd (h'.idle p h.le hlt) h.byte
  · exact heq
  · exact absurd (h.idle q h'.le hlt) h'.byte

theorem NextByte.succ (h : NextByte rx t u) (hne : t ≠ u) : NextByte rx (t + 1) u :=
  ⟨Nat.lt_of_le_of_ne h.le hne, fun i hi => h.idle i (Nat.le_of_succ_le hi), h.byte⟩

theorem nextByte_or_idle (rx : Nat → UInt8) (t n : Nat) :
    (∃ u < t + n, NextByte rx t u) ∨ ∀ i, t ≤ i → i < t + n → rx i = 0xFF := by
  induction n with
  | zero => exact Or.inr fun i hi hlt => absurd hlt (Nat.not_lt.mpr hi)
  | succ n ih =>
    rcases ih with ⟨u, hu, hnext⟩ | hidle
    · exact Or.inl ⟨u, by omega, hnext⟩
    · by_cases hff : rx (t + n) = 0xFF
      · right
        intro i hi hlt
        rcases Nat.lt_succ_iff_lt_or_eq.mp hlt with hlt | rfl
        · exact hidle i hi hlt
        · exact hff
      · exact Or.inl ⟨t + n, Nat.lt_succ_self _, Nat.le_add_right _ _, hidle, hff⟩

theorem writeBytes_stream (bs : List UInt8) (t : Nat) :
    writeBytes (stream rx) bs t = t + bs.length := by
  induction bs generalizing t with
  | nil => rfl
  | cons b bs ih =>
    rw [writeBytes, ih, List.length_cons]
    show t + 1 + bs.length = _
    omega

theorem readBytes_stream (n t : Nat) :
    readBytes (stream rx) n t = (bytes rx t n, t + n) := by
  induction n generalizing t with
  | zero => rfl
  | succ n ih =>
    have hnext : (readByteMMC (stream rx) t).2 = t + 1 := rfl
    have hcons : bytes rx t (n + 1) = rx t :: bytes rx (t + 1) n := by
      rw [bytes, List.range'_succ, List.map_cons, bytes]
    rw [readBytes, hnext, ih, hcons, show t + (n + 1) = t + 1 + n from by omega]
    rfl

theorem bytes_length (rx : Nat → UInt8) (t n : Nat) : (bytes rx t n).length = n := by
  rw [bytes, List.length_map, List.length_range']

theorem awaitResponse_next (h : NextByte rx t u) (hlt : u < t + n) :
    awaitResponse (stream rx) n 0xff t = (rx u, u + 1) := by
  induction n generalizing t with
  | zero => exact absurd h.le (Nat.not_le.mpr hlt)
  | succ n ih =>
    rw [awaitResponse, if_pos rfl]
    by_cases hu : t = u
    · subst hu
      show awaitResponse (stream rx) n (rx t) (t + 1) = _
      cases n with
      | zero => rfl
      | succ n => rw [awaitResponse, if_neg h.byte]
    · have hff : (readByteMMC (stream rx) t).1 = 0xff :=
        h.idle t (Nat.le_refl t) (Nat.lt_of_le_of_ne h.le hu)
      have hnext : (readByteMMC (stream rx) t).2 = t + 1 := rfl
      dsimp only
      rw [hff, hnext]
      exact ih (h.succ hu) (by omega)

theorem awaitResponse_idle (h : ∀ i, t ≤ i → i < t + n → rx i = 0xFF) :
    awaitResponse (stream rx) n 0xff t = (0xff, t + n) := by
  induction n generalizing t with
  | zero => rfl
  | succ n ih =>
    have hff : (readByteMMC (stream rx) t).1 = 0xff := h t (Nat.le_refl t) (by omega)
    have hnext : (readByteMMC (stream rx) t).2 = t + 1 := rfl
    rw [awaitResponse, if_pos rfl]
    dsimp only
    rw [hff, hnext, ih fun i hi hlt => h i (by omega) (by omega),
      show t + 1 + n = t + (n + 1) from by omega]

/-- The wait ends behind the first byte it waits for. -/
theorem waitByte_iff : waitByte (stream rx) b n t = some u ↔
    ∃ i, u = i + 1 ∧ t ≤ i ∧ i < t + n ∧ rx i = b ∧ ∀ j, t ≤ j → j < i → rx j ≠ b := by
  induction n generalizing t with
  | zero =>
    constructor
    · intro h
      cases h
    · intro ⟨i, _, hle, hlt, _⟩
      omega
  | succ n ih =>
    rw [waitByte]
    show (if rx t = b then some (t + 1) else waitByte (stream rx) b n (t + 1)) = some u ↔ _
    by_cases hb : rx t = b
    · rw [if_pos hb]
      constructor
      · intro h
        cases h
        exact ⟨t, rfl, Nat.le_refl t, by omega, hb, fun j hj hlt => by omega⟩
      · rintro ⟨i, rfl, hle, _, _, hne⟩
        rcases Nat.eq_or_lt_of_le hle with rfl | hlt
        · rfl
        · exact absurd hb (hne t (Nat.le_refl t) hlt)
    · rw [if_neg hb, ih]
      constructor
      · rintro ⟨i, rfl, hle, hlt, hi, hne⟩
        refine ⟨i, rfl, by omega, by omega, hi, ?_⟩
        intro j hj hji
        rcases Nat.eq_or_lt_of_le hj with rfl | hj
        · exact hb
        · exact hne j hj hji
      · rintro ⟨i, rfl, hle, hlt, hi, hne⟩
        have hti : t ≠ i := by
          rintro rfl
          exact hb hi
        exact ⟨i, rfl, by omega, by omega, hi, fun j hj => hne j (by omega)⟩

/-- A byte that comes some time is waited for long enough under some bound. -/
theorem exists_waitByte (h : ∃ i ≥ t, rx i = b) :
    ∃ polls u, waitByte (stream rx) b polls t = some u := by
  obtain ⟨hle, hb⟩ := Nat.find_spec h
  refine ⟨Nat.find h + 1, Nat.find h + 1, waitByte_iff.mpr ⟨Nat.find h, rfl, hle, by omega, hb, ?_⟩⟩
  intro j hj hlt hjb
  exact Nat.find_min h hlt ⟨hj, hjb⟩

theorem command_start (code : UInt8) (addr : UInt32) (t : Nat) :
    writeCommandMMC (stream rx) (command code addr) t =
      awaitResponse (stream rx) responseReads 0xff (afterCommand t) := by
  rw [writeCommandMMC, writeBytes_stream]
  rfl

theorem command_response (code : UInt8) (addr : UInt32)
    (h : NextByte rx (afterCommand t) p) (hlt : p < afterCommand t + responseReads) :
    writeCommandMMC (stream rx) (command code addr) t = (rx p, p + 1) := by
  rw [command_start, awaitResponse_next h hlt]

theorem command_silence (code : UInt8) (addr : UInt32)
    (h : ∀ i, afterCommand t ≤ i → i < afterCommand t + responseReads → rx i = 0xFF) :
    writeCommandMMC (stream rx) (command code addr) t =
      (0xff, afterCommand t + responseReads) := by
  rw [command_start, awaitResponse_idle h]

theorem mmcReadSector_zero {r : UInt8 × List UInt8 × Nat}
    (h : mmcReadSector (stream rx) polls addr buffer t = some r) : r.1 = 0 := by
  obtain ⟨_, _, rfl⟩ := Option.map_eq_some_iff.mp h
  rfl

theorem mmcReadSector_silence
    (h : ∀ i, afterCommand t ≤ i → i < afterCommand t + responseReads → rx i = 0xFF) :
    mmcReadSector (stream rx) polls addr buffer t =
      some (0, buffer, afterCommand t + responseReads) := by
  rw [mmcReadSector, mmcReadBlock, command_silence 0x51 _ h]
  rfl

theorem mmcReadSector_response (h : NextByte rx (afterCommand t) p)
    (hlt : p < afterCommand t + responseReads) (hzero : rx p = 0) :
    mmcReadSector (stream rx) polls addr buffer t =
      (waitByte (stream rx) 0xfe polls (p + 1)).map fun s =>
        (0, bytes rx s blockSize ++ buffer.drop blockSize, s + blockSize + 2) := by
  have hblock : mmcReadBlock (stream rx) polls (command 0x51 (addr <<< 9)) buffer blockSize t =
      (waitByte (stream rx) 0xfe polls (p + 1)).map fun s =>
        (bytes rx s blockSize ++ buffer.drop blockSize, s + blockSize + 2) := by
    rw [mmcReadBlock, command_response 0x51 _ h hlt, hzero, if_neg (not_not_intro rfl)]
    simp only [readBytes_stream]
    rfl
  rw [mmcReadSector, hblock, Option.map_map]
  rfl

theorem readReported_iff (rx : Nat → UInt8) (t : Nat) (addr : UInt32) (buffer : List UInt8) :
    ReadReported rx t addr buffer ↔ ReadAnswered rx t := by
  constructor
  · intro ⟨polls, r, hr, hsent⟩
    obtain ⟨p, q, hp, hzero, hq, hstart, hstop, _⟩ := hsent (mmcReadSector_zero hr)
    refine ⟨p, q, ?_, hp, hzero, hq, hstart⟩
    by_contra hlate
    have hidle : ∀ i, afterCommand t ≤ i → i < afterCommand t + responseReads → rx i = 0xFF :=
      fun i hi hlt => hp.idle i hi (by omega)
    rw [mmcReadSector_silence hidle] at hr
    cases hr
    have hle := hq.le
    dsimp only at hstop
    omega
  · intro ⟨p, q, hlt, hp, hzero, hq, hstart⟩
    have hwait : waitByte (stream rx) 0xfe (q + 1) (p + 1) = some (q + 1) := by
      refine waitByte_iff.mpr ⟨q, rfl, hq.le, by omega, hstart, ?_⟩
      intro j hj hjq
      rw [hq.idle j hj hjq]
      decide
    refine ⟨q + 1, (0, bytes rx (q + 1) blockSize ++ buffer.drop blockSize,
      q + 1 + blockSize + 2), ?_, ?_⟩
    · rw [mmcReadSector_response hp hlt hzero, hwait]
      rfl
    · intro _
      refine ⟨p, q, hp, hzero, hq, hstart, by dsimp only; omega, ?_⟩
      exact List.take_left' (bytes_length rx _ _)

theorem mmcWriteSector_silence
    (h : ∀ i, afterCommand t ≤ i → i < afterCommand t + responseReads → rx i = 0xFF) :
    mmcWriteSector (stream rx) polls addr buffer t =
      some (0xff, afterCommand t + responseReads) := by
  rw [mmcWriteSector, command_silence 0x58 _ h]
  rfl

theorem mmcWriteSector_error (h : NextByte rx (afterCommand t) p)
    (hlt : p < afterCommand t + responseReads) (hne : rx p ≠ 0) :
    mmcWriteSector (stream rx) polls addr buffer t = some (rx p, p + 1) := by
  rw [mmcWriteSector, command_response 0x58 _ h hlt]
  exact if_pos hne

theorem mmcWriteSector_response (hb : blockSize ≤ buffer.length)
    (h : NextByte rx (afterCommand t) p) (hlt : p < afterCommand t + responseReads)
    (hzero : rx p = 0) :
    mmcWriteSector (stream rx) polls addr buffer t =
      (waitByte (stream rx) 0xff polls (dataResponse p)).map fun s => (0, s) := by
  rw [mmcWriteSector, command_response 0x58 _ h hlt, hzero]
  dsimp only
  rw [if_neg (by decide), readBytes_stream]
  dsimp only
  rw [writeBytes_stream, List.length_take_of_le hb]
  rfl

theorem writeReported_iff (rx : Nat → UInt8) (t : Nat) (addr : UInt32)
    (hb : blockSize ≤ buffer.length) :
    WriteReported rx t addr buffer ↔ WriteAnswered rx t := by
  constructor
  · intro ⟨polls, r, hr, haccepted⟩ p hlt hp hzero
    rw [mmcWriteSector_response hb hp hlt hzero] at hr
    obtain ⟨s, hwait, rfl⟩ := Option.map_eq_some_iff.mp hr
    obtain ⟨u, _, hle, _, hidle, _⟩ := waitByte_iff.mp hwait
    obtain ⟨p', hp', _, hdata⟩ := haccepted rfl
    rw [hp'.unique hp] at hdata
    exact ⟨hdata, u, hle, hidle⟩
  · intro h
    rcases nextByte_or_idle rx (afterCommand t) responseReads with ⟨p, hlt, hp⟩ | hidle
    · by_cases hzero : rx p = 0
      · obtain ⟨hdata, hu⟩ := h p hlt hp hzero
        obtain ⟨polls, s, hwait⟩ := exists_waitByte hu
        refine ⟨polls, (0, s), ?_, fun _ => ⟨p, hp, hzero, hdata⟩⟩
        rw [mmcWriteSector_response hb hp hlt hzero, hwait]
        rfl
      · exact ⟨0, _, mmcWriteSector_error hp hlt hzero, fun hr => absurd hr hzero⟩
    · refine ⟨0, _, mmcWriteSector_silence hidle, ?_⟩
      intro hr
      exact absurd hr (by decide : (0xff : UInt8) ≠ 0)

/-- Errors are reported exactly when a read command is answered by response 0 and a block, and
a write command by an error or none, or by a data response that accepts the block and by the
end of the busy bytes. -/
theorem reported_iff (rx : Nat → UInt8) (t : Nat) (addr : UInt32) (buffer : List UInt8)
    (hb : blockSize ≤ buffer.length) :
    (ReadReported rx t addr buffer ↔ ReadAnswered rx t) ∧
      (WriteReported rx t addr buffer ↔ WriteAnswered rx t) :=
  ⟨readReported_iff rx t addr buffer, writeReported_iff rx t addr hb⟩

/-- A card that sends response 0 and the start token, and then a block of 0xFF bytes. -/
def emptyBlock (t : Nat) : UInt8 := if t = 8 then 0 else if t = 12 then 0xFE else 0xFF

theorem emptyBlock_reported :
    (ReadReported emptyBlock 0 1 (List.replicate blockSize 0) ↔ ReadAnswered emptyBlock 0) ∧
      (WriteReported emptyBlock 0 1 (List.replicate blockSize 0) ↔ WriteAnswered emptyBlock 0) :=
  reported_iff emptyBlock 0 1 (List.replicate blockSize 0) (Nat.le_of_eq List.length_replicate.symm)

/-- A socket without a card: every byte is 0xFF, and `mmc_read_sector` still returns 0. -/
theorem silence_unreported :
    ¬ ∀ (rx : Nat → UInt8) (t : Nat) (addr : UInt32) (buffer : List UInt8),
      blockSize ≤ buffer.length →
        ReadReported rx t addr buffer ∧ WriteReported rx t addr buffer := by
  intro h
  obtain ⟨⟨polls, r, hr, hsent⟩, _⟩ :=
    h (fun _ => 0xFF) 0 0 (List.replicate blockSize 0) (Nat.le_of_eq List.length_replicate.symm)
  obtain ⟨p, q, _, hzero, _⟩ := hsent (mmcReadSector_zero hr)
  exact absurd hzero (by decide : (0xFF : UInt8) ≠ 0)

end Plak1a.SdCard.MmcErrors
