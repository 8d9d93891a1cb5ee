import Plak1a.Camera.Main
import Plak1a.Camera.Replies

/-!
# A raw picture from any device

`GetRawPicture` waits for as many bytes as the device announces, and after a time-out
once more for the rest. It knows no capacity, and its result counts the first wait only.
The conversion in `main` takes the bytes in pairs and looks at the index of the first
byte alone, so that it reads one byte too many when their number is odd.
-/

namespace Plak1a.Camera.RawPicture

open Plak1a.Lib.Memory Plak1a.Lib.While Plak1a.Camera.C328r Plak1a.Camera.Replies
open Plak1a.Camera.Main

variable {D : Type}

/-- The bytes behind the announcement of `n` bytes, up to the first time-out. -/
def firstPart (uart0 : Device D) (d : D) (pictureType : UInt8) (n : Nat) : List UInt8 × D :=
  burst uart0 n (dataReply uart0 d pictureType).2

/-- The bytes of the rest, up to the next time-out. -/
def secondPart (uart0 : Device D) (d : D) (pictureType : UInt8) (n : Nat) : List UInt8 × D :=
  burst uart0 (n - (firstPart uart0 d pictureType n).1.length) (firstPart uart0 d pictureType n).2

/-- The bytes of the picture that come in the call. -/
def imageBytes (uart0 : Device D) (d : D) (pictureType : UInt8) (n : Nat) : List UInt8 :=
  (firstPart uart0 d pictureType n).1 ++ (secondPart uart0 d pictureType n).1

/-- The addresses that `WaitForResponse` writes. -/
def waitWrites (uart0 : Device D) : Nat → D → Nat → List Nat
  | 0, _, _ => []
  | len + 1, d, p =>
    match uart0.getch d with
    | (none, _) => []
    | (some _, d) => p :: waitWrites uart0 len d (p + 1)

/-- The addresses of `dataBuffer` that `GetRawPicture` writes. -/
def rawWrites (uart0 : Device D) (d : D) (pictureType : UInt8) (dataBuffer : Memory) : List Nat :=
  let info := getPictureCommand uart0 d pictureType
  if info.stat ≠ 0 then []
  else
    let r := waitForResponse uart0 info.size info.dev dataBuffer 0
    waitWrites uart0 info.size info.dev 0 ++
      if r.stat ≠ info.size then waitWrites uart0 (info.size - r.stat) r.dev r.stat else []

/-- The variables of the conversion loop after `m` rounds. -/
def converts (buff : Memory) (img : Nat → UInt16) (m : Nat) : Convert :=
  (convertPair buff)^[m] (convertStart img)

/-- Every round of the conversion loop reads `buff` below `i` and writes within `img`. -/
def ConvertInBounds (i : Int) (buff : Memory) (img : Nat → UInt16) : Prop :=
  ∀ m, (∀ l ≤ m, morePairs i (converts buff img l) = true) →
    ((converts buff img m).j : Int) < i ∧ ((converts buff img m).j + 1 : Int) < i ∧
      (converts buff img m).k < imgSize

/-- A round of the capture loop stays within `buff` and `img`. -/
def CaptureInBounds (uart0 : Device D) (d : D) (buff : Memory) (img : Nat → UInt16) : Prop :=
  (∀ a ∈ rawWrites uart0 d R_Snapshot buff, a < buffSize) ∧
    ((getRawPicture uart0 d R_Snapshot buff).result ≠ -1 →
      ConvertInBounds (getRawPicture uart0 d R_Snapshot buff).result
        (getRawPicture uart0 d R_Snapshot buff).dataBuffer img)

/-- A result that is not negative counts the image bytes that stand at the start of the buffer. -/
def ReportsStored (uart0 : Device D) (d : D) (pictureType : UInt8) (dataBuffer : Memory) : Prop :=
  ∀ low middle high, Announces uart0 d pictureType low middle high →
    Holds (getRawPicture uart0 d pictureType dataBuffer).dataBuffer 0
        (imageBytes uart0 d pictureType (dataSize low middle high)) ∧
      (getRawPicture uart0 d pictureType dataBuffer).result =
        (imageBytes uart0 d pictureType (dataSize low middle high)).length

variable {uart0 : Device D} {d : D} {pictureType low middle high : UInt8}
  {dataBuffer buff : Memory} {img : Nat → UInt16} {m n : Nat} {i : Int}

theorem waitWrites_eq (uart0 : Device D) (n : Nat) (d : D) (p : Nat) :
    waitWrites uart0 n d p = List.range' p (burst uart0 n d).1.length := by
  induction n generalizing d p with
  | zero => rfl
  | succ n ih =>
    rw [waitWrites, burst]
    cases h : uart0.getch d with
    | mk ch d' =>
      cases ch with
      | none => rfl
      | some ch =>
        dsimp only
        rw [ih, List.length_cons, List.range'_succ]

theorem secondPart_of_whole (h : (firstPart uart0 d pictureType n).1.length = n) :
    secondPart uart0 d pictureType n = ([], (firstPart uart0 d pictureType n).2) := by
  rw [secondPart, h, Nat.sub_self, burst]

/-- Whole or not, the bytes of both waits are stored one behind the other. -/
theorem getRawPicture_of_announces (h : Announces uart0 d pictureType low middle high) :
    getRawPicture uart0 d pictureType dataBuffer =
      ⟨(firstPart uart0 d pictureType (dataSize low middle high)).1.length,
        sendACK uart0 (secondPart uart0 d pictureType (dataSize low middle high)).2
          CMD_DATA.toNat 0,
        store dataBuffer 0 (imageBytes uart0 d pictureType (dataSize low middle high))⟩ := by
  rw [getRawPicture, getPictureCommand_of_announces h]
  dsimp only
  rw [if_neg (not_not_intro rfl), waitForResponse_eq]
  show (if (firstPart uart0 d pictureType (dataSize low middle high)).1.length ≠
    dataSize low middle high then _ else _) = _
  by_cases hw : (firstPart uart0 d pictureType (dataSize low middle high)).1.length =
      dataSize low middle high
  · rw [if_neg (not_not_intro hw), imageBytes, secondPart_of_whole hw, List.append_nil, hw]
    rfl
  · rw [if_pos hw, waitForResponse_eq, imageBytes, store_append, Nat.zero_add]
    rfl

theorem rawWrites_of_announces (h : Announces uart0 d pictureType low middle high) :
    rawWrites uart0 d pictureType dataBuffer =
      List.range' 0 (imageBytes uart0 d pictureType (dataSize low middle high)).length := by
  rw [rawWrites, getPictureCommand_of_announces h]
  dsimp only
  rw [if_neg (not_not_intro rfl), waitForResponse_eq, waitWrites_eq, imageBytes,
    List.length_append]
  show List.range' 0 (firstPart uart0 d pictureType (dataSize low middle high)).1.length ++
    (if (firstPart uart0 d pictureType (dataSize low middle high)).1.length ≠ _ then _ else _) = _
  by_cases hw : (firstPart uart0 d pictureType (dataSize low middle high)).1.length =
      dataSize low middle high
  · rw [if_neg (not_not_intro hw), secondPart_of_whole hw]
    exact List.append_nil _
  · rw [if_pos hw, waitWrites_eq, ← List.range'_append_1, Nat.zero_add]
    rfl

theorem result_of_lost (h : (getPictureCommand uart0 d pictureType).stat ≠ 0) :
    (getRawPicture uart0 d pictureType dataBuffer).result = -1 := by
  rw [getRawPicture]
  exact congrArg Outcome.result (if_pos h)

theorem rawWrites_of_lost (h : (getPictureCommand uart0 d pictureType).stat ≠ 0) :
    rawWrites uart0 d pictureType dataBuffer = [] := by
  rw [rawWrites]
  exact if_pos h

/-- `GetRawPicture` reports what it stored exactly if no announcement comes, the first wait
brings everything or the second one nothing. -/
theorem reportsStored_iff (uart0 : Device D) (d : D) (pictureType : UInt8) (dataBuffer : Memory) :
    ReportsStored uart0 d pictureType dataBuffer ↔
      ∀ low middle high, Announces uart0 d pictureType low middle high →
        (firstPart uart0 d pictureType (dataSize low middle high)).1.length =
            dataSize low middle high ∨
          (secondPart uart0 d pictureType (dataSize low middle high)).1 = [] := by
  refine forall_congr' fun low => forall_congr' fun middle => forall_congr' fun high =>
    forall_congr' fun ha => ?_
  rw [getRawPicture_of_announces ha, imageBytes, List.length_append]
  dsimp only
  constructor
  · intro ⟨_, hcount⟩
    right
    rw [← List.length_eq_zero_iff]
    omega
  · intro h
    refine ⟨holds_store, ?_⟩
    have hnil : (secondPart uart0 d pictureType (dataSize low middle high)).1 = [] := by
      rcases h with hw | hnil
      · rw [secondPart_of_whole hw]
      · exact hnil
    rw [hnil, List.length_nil, Nat.add_zero]

theorem converts_indices (buff : Memory) (img : Nat → UInt16) (m : Nat) :
    (converts buff img m).j = 2 * m ∧ (converts buff img m).k = 2 + m := by
  induction m with
  | zero => exact ⟨rfl, rfl⟩
  | succ m ih =>
    rw [converts, Function.iterate_succ_apply']
    exact ⟨congrArg (· + 2) ih.1, congrArg (· + 1) ih.2⟩

theorem morePairs_converts (buff : Memory) (img : Nat → UInt16) (i : Int) (m : Nat) :
    morePairs i (converts buff img m) = true ↔ 2 * m < i := by
  rw [morePairs, decide_eq_true_iff, (converts_indices buff img m).1]
  omega

/-- The conversion loop ends, whatever number of bytes it is given. -/
theorem converts_ends (i : Int) (buff : Memory) (img : Nat → UInt16) :
    ∃ c, Ends (morePairs i) (convertPair buff) (convertStart img) c := by
  refine ends_iff_iterate.mpr ⟨i.toNat, ?_⟩
  rw [← Bool.not_eq_true]
  intro hmore
  have hlt := (morePairs_converts buff img i i.toNat).mp hmore
  omega

/-- A round of the capture loop ends, whatever the device does. -/
theorem capture_returns (uart0 : Device D) (d : D) (buff : Memory) (img : Nat → UInt16) :
    ∃ fuel r, capture uart0 fuel d buff img = some r := by
  obtain ⟨c, fuel, hrun⟩ := converts_ends (getRawPicture uart0 d R_Snapshot buff).result
    (getRawPicture uart0 d R_Snapshot buff).dataBuffer img
  by_cases h : (getRawPicture uart0 d R_Snapshot buff).result = -1
  · exact ⟨0, _, if_pos h⟩
  · refine ⟨fuel, (some ((getRawPicture uart0 d R_Snapshot buff).dataBuffer, c.img),
      (getRawPicture uart0 d R_Snapshot buff).dev), ?_⟩
    rw [capture, if_neg h, hrun]
    rfl

theorem convertInBounds_iff (buff : Memory) (img : Nat → UInt16) :
    ConvertInBounds n buff img ↔ 2 ∣ n ∧ n ≤ 2 * (imgSize - 2) := by
  constructor
  · intro h
    have hround {m : Nat} (hm : 2 * m < n) : 2 * m + 1 < n ∧ 2 + m < imgSize := by
      obtain ⟨hj, hk⟩ := converts_indices buff img m
      obtain ⟨_, hread, hwrite⟩ :=
        h m fun l hl => (morePairs_converts buff img n l).mpr (by omega)
      rw [hj] at hread
      rw [hk] at hwrite
      exact ⟨by omega, hwrite⟩
    constructor
    · by_contra hodd
      have hlast := hround (m := n / 2) (by omega)
      omega
    · by_contra hlong
      have hlast := hround (m := imgSize - 2) (by omega)
      rw [imgSize] at hlast
      omega
  · rintro ⟨⟨q, rfl⟩, hle⟩ m hmore
    obtain ⟨hj, hk⟩ := converts_indices buff img m
    have hlt := (morePairs_converts buff img _ m).mp (hmore m (Nat.le_refl m))
    rw [hj, hk]
    rw [imgSize] at hle ⊢
    exact ⟨by omega, by omega, by omega⟩

theorem within_iff {size : Nat} : (∀ a ∈ List.range' 0 n, a < size) ↔ n ≤ size := by
  simp only [List.mem_range'_1, Nat.zero_le, true_and, Nat.zero_add]
  exact ⟨fun h => Nat.le_of_not_lt fun hlt => Nat.lt_irrefl _ (h size hlt),
    fun h a ha => Nat.lt_of_lt_of_le ha h⟩

/-- A round of the capture loop stays in bounds exactly if no announcement comes, or the bytes
of both waits fit `buff` and those of the first one are an even number. -/
theorem captureInBounds_iff (uart0 : Device D) (d : D) (buff : Memory) (img : Nat → UInt16) :
    CaptureInBounds uart0 d buff img ↔
      ∀ low middle high, Announces uart0 d R_Snapshot low middle high →
        (firstPart uart0 d R_Snapshot (dataSize low middle high)).1.length +
            (secondPart uart0 d R_Snapshot (dataSize low middle high)).1.length ≤ buffSize ∧
          2 ∣ (firstPart uart0 d R_Snapshot (dataSize low middle high)).1.length := by
  have hannounced {low middle high : UInt8} (ha : Announces uart0 d R_Snapshot low middle high) :
      CaptureInBounds uart0 d buff img ↔
        (firstPart uart0 d R_Snapshot (dataSize low middle high)).1.length +
            (secondPart uart0 d R_Snapshot (dataSize low middle high)).1.length ≤ buffSize ∧
          2 ∣ (firstPart uart0 d R_Snapshot (dataSize low middle high)).1.length := by
    rw [CaptureInBounds, rawWrites_of_announces ha, within_iff, imageBytes, List.length_append,
      getRawPicture_of_announces ha]
    dsimp only
    rw [convertInBounds_iff, buffSize, imgSize]
    constructor
    · intro ⟨hle, hconvert⟩
      exact ⟨hle, (hconvert (by omega)).1⟩
    · intro ⟨hle, heven⟩
      exact ⟨hle, fun _ => ⟨heven, by omega⟩⟩
  constructor
  · exact fun h low middle high ha => (hannounced ha).mp h
  · intro h
    by_cases hstat : (getPictureCommand uart0 d R_Snapshot).stat = 0
    · obtain ⟨low, middle, high, ha⟩ := announces_of_stat hstat
      exact (hannounced ha).mpr (h low middle high ha)
    · rw [CaptureInBounds, rawWrites_of_lost hstat, result_of_lost hstat]
      exact ⟨fun a ha => absurd ha List.not_mem_nil, fun hne => absurd rfl hne⟩

/-- The announcement of `n` bytes, and then what the list says. -/
def shortDevice (n : UInt8) (rx : List (Option UInt8)) : Device Nat :=
  script ([CMD_PREFIX, CMD_ACK, CMD_GETPICTURE, 0, 0, 0, CMD_PREFIX, CMD_DATA, 1, n, 0, 0].map some
    ++ rx)

/-- Two bytes of four come, a time-out, and then the other two: four are stored, two reported. -/
theorem split_unreported :
    ¬ ∀ (uart0 : Device Nat) (d : Nat) (pictureType : UInt8) (dataBuffer : Memory),
      ReportsStored uart0 d pictureType dataBuffer := by
  intro h
  have hcount := (h (shortDevice 4 [some 1, some 2, none, some 3, some 4]) 0 1 responseBuffer
    4 0 0 ⟨⟨CMD_PREFIX, 0, 0, 0, rfl⟩, CMD_PREFIX, 1, rfl⟩).2
  exact absurd hcount (by decide)

/-- A picture of one byte: the conversion reads a second one. -/
theorem oddSize_outOfBounds :
    ¬ ∀ (uart0 : Device Nat) (d : Nat) (buff : Memory) (img : Nat → UInt16),
      CaptureInBounds uart0 d buff img := by
  intro h
  have hconvert := (h (shortDevice 1 [some 1]) 0 responseBuffer (fun _ => 0)).2 (by decide)
  exact absurd (hconvert 0 (by decide)).2.1 (by decide)

end Plak1a.Camera.RawPicture
