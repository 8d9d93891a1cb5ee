import Mathlib.Algebra.Group.Nat.Defs
import Mathlib.Data.List.GetD
import Plak1a.Camera.C328r

/-!
# What a device sends, and what the driver makes of it

A wait for `n` bytes ends with the `n`-th byte or with the first time-out. The bytes it
has read by then are a burst of the device, and stand in the buffer in order. Every
reply the driver waits for is such a burst, so that its functions can be described by
the bursts of an arbitrary device.
-/

namespace Plak1a.Camera.Replies

open Plak1a.Lib.Memory Plak1a.Camera.C328r

variable {D : Type}

/-- The bytes that come one after the other, up to the first time-out and `n` at most. -/
def burst (uart0 : Device D) : Nat → D → List UInt8 × D
  | 0, d => ([], d)
  | n + 1, d =>
    match uart0.getch d with
    | (none, d) => ([], d)
    | (some ch, d) => (ch :: (burst uart0 n d).1, (burst uart0 n d).2)

/-- The replies to GET PICTURE. -/
def ackReply (uart0 : Device D) (d : D) (pictureType : UInt8) : List UInt8 × D :=
  burst uart0 6 (uart0.write d [CMD_PREFIX, CMD_GETPICTURE, pictureType, 0, 0, 0])

def dataReply (uart0 : Device D) (d : D) (pictureType : UInt8) : List UInt8 × D :=
  burst uart0 6 (ackReply uart0 d pictureType).2

/-- An ACK comes whole, and then a DATA command with these bytes for the size. -/
structure Announces (uart0 : Device D) (d : D) (pictureType low middle high : UInt8) : Prop where
  ack : ∃ b₀ b₃ b₄ b₅, (ackReply uart0 d pictureType).1 =
    [b₀, CMD_ACK, CMD_GETPICTURE, b₃, b₄, b₅]
  data : ∃ b₀ b₂, (dataReply uart0 d pictureType).1 = [b₀, CMD_DATA, b₂, low, middle, high]

/-- The size the driver decodes. -/
def dataSize (low middle high : UInt8) : Nat :=
  high.toNat <<< 8 ||| middle.toNat <<< 8 ||| low.toNat

/-- A device that has a byte or a time-out for each wait, whatever it is sent. -/
def stream (rx : Nat → Option UInt8) : Device Nat where
  write t _ := t
  getch t := (rx t, t + 1)

/-- A device that sends what the list says, and then nothing more. -/
def script (rx : List (Option UInt8)) : Device Nat := stream fun t => rx[t]?.join

/-- A device that notes what it is sent. -/
def recorder : Device (List (List UInt8)) where
  write commands command := commands ++ [command]
  getch commands := (none, commands)

variable {uart0 : Device D} {d : D} {pictureType low middle high : UInt8} {s p : Nat}

theorem burst_stream (f : Nat → UInt8) (n t : Nat) :
    burst (stream fun i => some (f i)) n t = ((List.range' t n).map f, t + n) := by
  induction n generalizing t with
  | zero => rfl
  | succ n ih =>
    have hlist : (List.range' t (n + 1)).map f = f t :: (List.range' (t + 1) n).map f := by
      rw [List.range'_succ, List.map_cons]
    rw [hlist, show t + (n + 1) = t + 1 + n from by omega, burst]
    show (f t :: (burst _ n (t + 1)).1, (burst _ n (t + 1)).2) = _
    rw [ih]

theorem burst_length_le (uart0 : Device D) (n : Nat) (d : D) :
    (burst uart0 n d).1.length ≤ n := by
  induction n generalizing d with
  | zero => exact Nat.le_refl 0
  | succ n ih =>
    rw [burst]
    cases uart0.getch d with
    | mk ch d' =>
      cases ch with
      | none => exact Nat.zero_le _
      | some ch => exact Nat.succ_le_succ (ih d')

/-- A wait stores a burst. -/
theorem waitForResponse_eq (uart0 : Device D) (n : Nat) (d : D) (m : Memory) (a : Nat) :
    waitForResponse uart0 n d m a =
      ⟨(burst uart0 n d).1.length, (burst uart0 n d).2, store m a (burst uart0 n d).1⟩ := by
  induction n generalizing d m a with
  | zero => rfl
  | succ n ih =>
    rw [waitForResponse, burst]
    cases h : uart0.getch d with
    | mk ch d' =>
      cases ch with
      | none => rfl
      | some ch =>
        dsimp only
        rw [ih]
        rfl

theorem exists_six {bs : List UInt8} (h : bs.length = 6) :
    ∃ b₀ b₁ b₂ b₃ b₄ b₅, bs = [b₀, b₁, b₂, b₃, b₄, b₅] := by
  match bs, h with
  | [b₀, b₁, b₂, b₃, b₄, b₅], _ => exact ⟨b₀, b₁, b₂, b₃, b₄, b₅, rfl⟩

theorem store_byte {m : Memory} {bs : List UInt8} {i : Nat} (h : i < bs.length) :
    store m 0 bs i = bs[i] := by
  have hi : store m 0 bs (0 + i) = bs[i] := holds_store i h
  rwa [Nat.zero_add] at hi

theorem packetSize_store {m : Memory} {bs : List UInt8} (h : bs.length = packageSize) :
    packetSize (store m 0 bs) = (bs.getD 3 0).toNat <<< 8 ||| (bs.getD 2 0).toNat := by
  have hlen : 4 ≤ bs.length := by rw [h]; decide
  rw [packetSize, store_byte (i := 3) (by omega), store_byte (i := 2) (by omega),
    List.getD_eq_getElem bs 0 (by omega), List.getD_eq_getElem bs 0 (by omega)]

theorem receiveACK_dev (uart0 : Device D) (d : D) (command : UInt8) :
    (receiveACK uart0 d command).2 = (burst uart0 6 d).2 := by
  rw [receiveACK, waitForResponse_eq]
  split <;> rfl

theorem receiveACK_zero_iff (uart0 : Device D) (d : D) (command : UInt8) :
    (receiveACK uart0 d command).1 = 0 ↔
      ∃ b₀ b₃ b₄ b₅, (burst uart0 6 d).1 = [b₀, CMD_ACK, command, b₃, b₄, b₅] := by
  rw [receiveACK, waitForResponse_eq]
  dsimp only
  constructor
  · intro h
    split at h
    · next hcond =>
      obtain ⟨hlen, hack, hcommand⟩ := hcond
      obtain ⟨b₀, b₁, b₂, b₃, b₄, b₅, hbs⟩ := exists_six hlen
      rw [hbs] at hack hcommand ⊢
      exact ⟨b₀, b₃, b₄, b₅, by rw [← hack, ← hcommand]; rfl⟩
    · exact absurd h (by decide : (-1 : Int) ≠ 0)
  · intro ⟨b₀, b₃, b₄, b₅, hbs⟩
    rw [if_pos]
    rw [hbs]
    exact ⟨rfl, rfl, rfl⟩

/-- `GetPictureCommand` succeeds exactly if a size is announced, and decodes its bytes. -/
theorem getPictureCommand_of_announces (h : Announces uart0 d pictureType low middle high) :
    getPictureCommand uart0 d pictureType =
      ⟨0, dataSize low middle high, (dataReply uart0 d pictureType).2⟩ := by
  obtain ⟨b₀, b₂, hdata⟩ := h.data
  have hack := (receiveACK_zero_iff uart0 _ CMD_GETPICTURE).mpr h.ack
  have hdev := receiveACK_dev uart0
    (uart0.write d [CMD_PREFIX, CMD_GETPICTURE, pictureType, 0, 0, 0]) CMD_GETPICTURE
  rw [getPictureCommand, sendCommand]
  dsimp only
  rw [hack, hdev, if_neg (not_not_intro rfl), waitForResponse_eq]
  show (if (dataReply uart0 d pictureType).1.length ≠ 6 ∨
      store responseBuffer 0 (dataReply uart0 d pictureType).1 1 ≠ CMD_DATA then _ else
    (⟨0, pictureDataSize (store responseBuffer 0 (dataReply uart0 d pictureType).1),
      (dataReply uart0 d pictureType).2⟩ : PictureInfo D)) = _
  rw [hdata, if_neg]
  · rfl
  · rintro (hlen | hcommand)
    · exact hlen rfl
    · exact hcommand rfl

theorem announces_of_stat (h : (getPictureCommand uart0 d pictureType).stat = 0) :
    ∃ low middle high, Announces uart0 d pictureType low middle high := by
  have hdev := receiveACK_dev uart0
    (uart0.write d [CMD_PREFIX, CMD_GETPICTURE, pictureType, 0, 0, 0]) CMD_GETPICTURE
  rw [getPictureCommand, sendCommand] at h
  dsimp only at h
  split at h
  · exact absurd h (by decide : (-1 : Int) ≠ 0)
  · next hack =>
    rw [hdev, waitForResponse_eq] at h
    split at h
    · exact absurd h (by decide : (-1 : Int) ≠ 0)
    · next hdata =>
      obtain ⟨hlen, hcommand⟩ := not_or.mp hdata
      obtain ⟨b₀, b₁, b₂, low, middle, high, hbs⟩ := exists_six (not_not.mp hlen)
      refine ⟨low, middle, high, (receiveACK_zero_iff _ _ _).mp (not_not.mp hack), b₀, b₂, ?_⟩
      dsimp only at hcommand
      rw [hbs] at hcommand
      exact hbs.trans (by rw [← not_not.mp hcommand]; rfl)

/-- Both upper bytes are shifted by eight: the high byte falls on the middle one. -/
theorem dataSize_eq_iff (hs : s < 2 ^ 24) :
    dataSize (UInt8.ofNat s) (UInt8.ofNat (s / 256)) (UInt8.ofNat (s / 65536)) = s ↔
      s < 2 ^ 16 := by
  rw [dataSize, UInt8.toNat_ofNat', UInt8.toNat_ofNat', UInt8.toNat_ofNat',
    ← Nat.shiftLeft_or_distrib, ← Nat.shiftLeft_add_eq_or_of_lt (by omega), Nat.shiftLeft_eq]
  have hor : s / 65536 % 2 ^ 8 ||| s / 256 % 2 ^ 8 < 2 ^ 8 :=
    Nat.or_lt_two_pow (by omega) (by omega)
  constructor
  · intro h
    omega
  · intro h
    rw [show s / 65536 = 0 from by omega, Nat.zero_mod, Nat.zero_or]
    omega

/-- The three size bytes of a DATA command with size `s`. -/
def AnnouncesSize (uart0 : Device D) (d : D) (pictureType : UInt8) (s : Nat) : Prop :=
  Announces uart0 d pictureType (UInt8.ofNat s) (UInt8.ofNat (s / 256)) (UInt8.ofNat (s / 65536))

/-- `SendACK` sends a command with `p` in its last two bytes, low byte first. -/
def SendsNumber (commandId p : Nat) : Prop :=
  ∃ b₀ b₁ b₂ b₃ low high : UInt8,
    sendACK recorder [] commandId p = [[b₀, b₁, b₂, b₃, low, high]] ∧
      low.toNat = p % 256 ∧ high.toNat = p / 256

/-- The cast drops the high byte of the package number before the shift. -/
theorem sendsNumber_iff (commandId : Nat) (hp : p < 2 ^ 16) :
    SendsNumber commandId p ↔ p < 2 ^ 8 := by
  have hlow : (UInt8.ofNat p).toNat = p % 256 := UInt8.toNat_ofNat'
  have hhigh : (UInt8.ofNat ((UInt8.ofNat p).toNat >>> 8)).toNat = 0 := by
    rw [UInt8.toNat_ofNat', hlow, Nat.shiftRight_eq_div_pow]
    omega
  constructor
  · intro ⟨b₀, b₁, b₂, b₃, low, high, hsent, _, hdiv⟩
    cases hsent
    rw [hhigh] at hdiv
    omega
  · intro h
    refine ⟨_, _, _, _, _, _, rfl, hlow, ?_⟩
    rw [hhigh]
    omega

/-- An announced size and an acknowledged package number keep their value exactly if they fit
two bytes and one byte. -/
theorem fields_iff (uart0 : Device D) (d : D) (pictureType : UInt8) (hs : s < 2 ^ 24)
    (ha : AnnouncesSize uart0 d pictureType s) (commandId : Nat) (hp : p < 2 ^ 16) :
    ((getPictureCommand uart0 d pictureType).stat = 0 ∧
        (getPictureCommand uart0 d pictureType).size = s ↔ s < 2 ^ 16) ∧
      (SendsNumber commandId p ↔ p < 2 ^ 8) := by
  rw [getPictureCommand_of_announces ha, ← dataSize_eq_iff hs]
  exact ⟨and_iff_right rfl, sendsNumber_iff commandId hp⟩

/-- A DATA command with the size 0x012345, in which the byte 0x01 falls on 0x23. -/
def largePicture : Device Nat :=
  script ([CMD_PREFIX, CMD_ACK, CMD_GETPICTURE, 0, 0, 0, CMD_PREFIX, CMD_DATA, 1, 0x45, 0x23,
    0x01].map some)

theorem largePicture_announces : AnnouncesSize largePicture 0 1 0x012345 :=
  ⟨⟨CMD_PREFIX, 0, 0, 0, by decide⟩, CMD_PREFIX, 1, by decide⟩

theorem largePicture_fields :
    ((getPictureCommand largePicture 0 1).stat = 0 ∧
        (getPictureCommand largePicture 0 1).size = 0x012345 ↔ 0x012345 < 2 ^ 16) ∧
      (SendsNumber 0 0x0102 ↔ 0x0102 < 2 ^ 8) :=
  fields_iff largePicture 0 1 (by decide) largePicture_announces 0 (by decide)

/-- The size of `largePicture` is decoded as 0x2345, and package 256 acknowledged as 0. -/
theorem largePicture_lost :
    (getPictureCommand largePicture 0 1).size = 0x2345 ∧
      sendACK recorder [] 0 256 = [[CMD_PREFIX, CMD_ACK, 0, 0, 0, 0]] ∧ ¬ SendsNumber 0 256 ∧
      ¬ ((∀ s < 2 ^ 24, AnnouncesSize largePicture 0 1 s →
            (getPictureCommand largePicture 0 1).size = s) ∧
          ∀ p < 2 ^ 16, SendsNumber 0 p) := by
  have hnumber : ¬ SendsNumber 0 256 := fun h =>
    absurd ((sendsNumber_iff 0 (by decide)).mp h) (by decide)
  refine ⟨by decide, rfl, hnumber, fun ⟨h, _⟩ => ?_⟩
  have hsize := h 0x012345 (by decide) largePicture_announces
  exact absurd hsize (by decide)

end Plak1a.Camera.Replies
