import Mathlib.Algebra.GroupWithZero.Nat
import Plak1a.Camera.Replies

/-!
# The packet loop of `GetJpegPicture` against any device

A round either stores the package that came whole or counts an error. How much it stores
is up to the device: the size field of the package is the length of the `memcpy` and the
progress of the loop, and the driver does not look at it. A field above 508 reads behind
the response array, fields that sum to more than the picture write behind its buffer,
and fields of 0 keep the loop going for ever.
-/

namespace Plak1a.Camera.JpegLoop

open Plak1a.Lib.Memory Plak1a.Lib.While Plak1a.Camera.C328r Plak1a.Camera.Replies

variable {D : Type}

/-- The device, and the size fields of the packages that have come whole. -/
structure Exchange (D : Type) where
  dev : D
  sizes : List Nat

/-- What comes in answer to an acknowledgement of the packages so far. -/
def Exchange.answer (uart0 : Device D) (x : Exchange D) : List UInt8 × D :=
  burst uart0 packageSize (uart0.write x.dev (ackCommand 0 x.sizes.length))

/-- The size field of the next package, if that comes whole. -/
def Exchange.sizeField (uart0 : Device D) (x : Exchange D) : Option Nat :=
  let bytes := (x.answer uart0).1
  if bytes.length = packageSize then
    some ((bytes.getD 3 0).toNat <<< 8 ||| (bytes.getD 2 0).toNat)
  else none

def Exchange.next (uart0 : Device D) (x : Exchange D) : Exchange D where
  dev := (x.answer uart0).2
  sizes := x.sizes ++ (x.sizeField uart0).toList

/-- The exchange after `k` answers of a device that was in state `d`. -/
def exchange (uart0 : Device D) (d : D) (k : Nat) : Exchange D :=
  (Exchange.next uart0)^[k] ⟨d, []⟩

/-- The loop asks for answer `k`: the sizes so far do not make up the picture, and at most
15 answers were not whole packages. -/
def Asked (uart0 : Device D) (d : D) (dataSize k : Nat) : Prop :=
  (exchange uart0 d k).sizes.sum < dataSize ∧ k ≤ (exchange uart0 d k).sizes.length + 15

/-- All packages the loop asks for fit the response array and the rest of the picture. -/
def SizesFit (uart0 : Device D) (d : D) (dataSize : Nat) : Prop :=
  ∀ k, Asked uart0 d dataSize k → ∀ n, (exchange uart0 d k).sizeField uart0 = some n →
    n ≤ packageSize - 4 ∧ (exchange uart0 d k).sizes.sum + n ≤ dataSize

/-- From some answer the loop asks for, all answers are whole packages with size field 0. -/
def Empties (uart0 : Device D) (d : D) (dataSize : Nat) : Prop :=
  ∃ k, Asked uart0 d dataSize k ∧ ∀ j ≥ k, (exchange uart0 d j).sizeField uart0 = some 0

/-- The loop starts here. -/
def start (d : D) (dataBuffer response : Memory) : Transfer D := ⟨d, dataBuffer, response, 0, 0, 0⟩

/-- The variables of the loop after `k` rounds. -/
def rounds (uart0 : Device D) (d : D) (dataBuffer response : Memory) (k : Nat) : Transfer D :=
  (receivePackage uart0)^[k] (start d dataBuffer response)

/-- The bytes of `response` that the `memcpy` of a round reads, each with the byte of
`dataBuffer` that it writes. -/
def memcpyAccesses (uart0 : Device D) (s : Transfer D) : List (Nat × Nat) :=
  let r := waitForResponse uart0 packageSize (sendACK uart0 s.dev 0 s.packageCounter) s.response 0
  if r.stat = packageSize then
    (List.range (packetSize r.buffer)).map fun i => (4 + i, s.bufferPosition + i)
  else []

/-- Every `memcpy` of the loop reads `response` and writes `dataBuffer` within bounds. -/
def InBounds (uart0 : Device D) (d : D) (dataSize : Nat) (dataBuffer response : Memory) : Prop :=
  ∀ k, (∀ j ≤ k, moreData dataSize (rounds uart0 d dataBuffer response j) = true) →
    ∀ a ∈ memcpyAccesses uart0 (rounds uart0 d dataBuffer response k),
      a.1 < packageSize ∧ a.2 < dataSize

variable {uart0 : Device D} {d : D} {dataBuffer response : Memory} {s : Transfer D}
  {x : Exchange D} {k n : Nat}

/-- The loop after `k` answers of the device. -/
structure Matches (x : Exchange D) (k : Nat) (s : Transfer D) : Prop where
  dev : s.dev = x.dev
  counter : s.packageCounter = x.sizes.length
  position : s.bufferPosition = x.sizes.sum
  errors : s.errorCounter + x.sizes.length = k

theorem Matches.wait (h : Matches x k s) :
    waitForResponse uart0 packageSize (sendACK uart0 s.dev 0 s.packageCounter) s.response 0 =
      ⟨(x.answer uart0).1.length, (x.answer uart0).2,
        store s.response 0 (x.answer uart0).1⟩ := by
  rw [waitForResponse_eq, h.dev, h.counter]
  rfl

/-- A round with a whole package. -/
theorem Matches.whole (h : Matches x k s) (hn : x.sizeField uart0 = some n) :
    Matches (x.next uart0) (k + 1) (receivePackage uart0 s) ∧
      memcpyAccesses uart0 s = (List.range n).map fun i => (4 + i, x.sizes.sum + i) := by
  have hsizes : (x.next uart0).sizes = x.sizes ++ [n] := by
    rw [Exchange.next, hn]
    rfl
  rw [Exchange.sizeField] at hn
  split at hn
  · next hlen =>
    have hfield : packetSize (store s.response 0 (x.answer uart0).1) = n :=
      (packetSize_store hlen).trans (Option.some.inj hn)
    rw [memcpyAccesses, receivePackage, h.wait]
    simp only [if_pos hlen, hfield, h.position]
    refine ⟨⟨rfl, ?_, ?_, ?_⟩, trivial⟩
    · rw [hsizes, List.length_append, h.counter]
      rfl
    · rw [hsizes, List.sum_append, List.sum_singleton]
    · rw [hsizes, List.length_append, List.length_singleton, ← Nat.add_assoc, h.errors]
  · cases hn

/-- A round without a whole package. -/
theorem Matches.lost (h : Matches x k s) (hn : x.sizeField uart0 = none) :
    Matches (x.next uart0) (k + 1) (receivePackage uart0 s) ∧ memcpyAccesses uart0 s = [] := by
  have hsizes : (x.next uart0).sizes = x.sizes := by
    rw [Exchange.next, hn]
    exact List.append_nil _
  rw [Exchange.sizeField] at hn
  split at hn
  · cases hn
  · next hlen =>
    rw [memcpyAccesses, receivePackage, h.wait]
    simp only [if_neg hlen]
    refine ⟨⟨rfl, ?_, ?_, ?_⟩, trivial⟩
    · rw [hsizes, h.counter]
    · rw [hsizes, h.position]
    · rw [hsizes, ← h.errors]
      exact Nat.add_right_comm _ _ _

theorem exchange_succ (uart0 : Device D) (d : D) (k : Nat) :
    exchange uart0 d (k + 1) = (exchange uart0 d k).next uart0 := by
  rw [exchange, Function.iterate_succ_apply', exchange]

theorem sizes_succ (uart0 : Device D) (d : D) (k : Nat) :
    (exchange uart0 d (k + 1)).sizes =
      (exchange uart0 d k).sizes ++ ((exchange uart0 d k).sizeField uart0).toList := by
  rw [exchange_succ]
  rfl

/-- The loop goes through the exchange, one answer a round. -/
theorem rounds_matches (uart0 : Device D) (d : D) (dataBuffer response : Memory) (k : Nat) :
    Matches (exchange uart0 d k) k (rounds uart0 d dataBuffer response k) := by
  induction k with
  | zero => exact ⟨rfl, rfl, rfl, rfl⟩
  | succ k ih =>
    rw [exchange_succ, rounds, Function.iterate_succ_apply']
    cases hn : (exchange uart0 d k).sizeField uart0 with
    | none => exact (ih.lost hn).1
    | some n => exact (ih.whole hn).1

theorem moreData_rounds (uart0 : Device D) (d : D) (dataSize : Nat) (dataBuffer response : Memory)
    (k : Nat) :
    moreData dataSize (rounds uart0 d dataBuffer response k) = true ↔
      Asked uart0 d dataSize k := by
  have h := rounds_matches uart0 d dataBuffer response k
  have hpos := h.position
  have herr := h.errors
  rw [moreData, decide_eq_true_iff, Asked, hpos]
  constructor
  · intro ⟨hlt, hle⟩
    exact ⟨hlt, by omega⟩
  · intro ⟨hlt, hle⟩
    exact ⟨hlt, by omega⟩

theorem Asked.of_succ {dataSize : Nat} (h : Asked uart0 d dataSize (k + 1)) :
    Asked uart0 d dataSize k := by
  obtain ⟨hlt, hle⟩ := h
  rw [sizes_succ, List.sum_append] at hlt
  rw [sizes_succ, List.length_append] at hle
  have hone : ((exchange uart0 d k).sizeField uart0).toList.length ≤ 1 := by
    cases (exchange uart0 d k).sizeField uart0 with
    | none => exact Nat.zero_le 1
    | some n => exact Nat.le_refl 1
  exact ⟨by omega, by omega⟩

/-- What the loop asks for comes before anything else it asks for. -/
theorem Asked.le {dataSize j : Nat} (h : Asked uart0 d dataSize k) (hj : j ≤ k) :
    Asked uart0 d dataSize j := by
  induction hj with
  | refl => exact h
  | step _ ih => exact ih h.of_succ

/-- A copy of `n` bytes stays within two arrays when its last byte does. -/
theorem copy_within_iff {p size limit : Nat} (hp : p < limit) :
    (∀ a ∈ (List.range n).map fun i => (4 + i, p + i), a.1 < size ∧ a.2 < limit) ↔
      n ≤ size - 4 ∧ p + n ≤ limit := by
  simp only [List.mem_map, List.mem_range]
  constructor
  · intro h
    cases n with
    | zero => exact ⟨Nat.zero_le _, Nat.le_of_lt hp⟩
    | succ n =>
      obtain ⟨hread, hwrite⟩ := h _ ⟨n, Nat.lt_succ_self n, rfl⟩
      exact ⟨by omega, by omega⟩
  · rintro ⟨hread, hwrite⟩ a ⟨i, hi, rfl⟩
    exact ⟨by omega, by omega⟩

theorem inBounds_iff (uart0 : Device D) (d : D) (dataSize : Nat) (dataBuffer response : Memory) :
    InBounds uart0 d dataSize dataBuffer response ↔ SizesFit uart0 d dataSize := by
  have hround (k : Nat) (ha : Asked uart0 d dataSize k) :
      (∀ a ∈ memcpyAccesses uart0 (rounds uart0 d dataBuffer response k),
        a.1 < packageSize ∧ a.2 < dataSize) ↔
      ∀ n, (exchange uart0 d k).sizeField uart0 = some n →
        n ≤ packageSize - 4 ∧ (exchange uart0 d k).sizes.sum + n ≤ dataSize := by
    have hmatch := rounds_matches uart0 d dataBuffer response k
    cases hn : (exchange uart0 d k).sizeField uart0 with
    | none =>
      rw [(hmatch.lost hn).2]
      exact iff_of_true (fun a ha => absurd ha List.not_mem_nil) (fun n h => by cases h)
    | some n =>
      rw [(hmatch.whole hn).2, copy_within_iff ha.1]
      constructor
      · rintro h m ⟨⟩
        exact h
      · exact fun h => h n rfl
  constructor
  · intro h k ha
    exact (hround k ha).mp (h k fun j hj => (moreData_rounds ..).mpr (ha.le hj))
  · intro h k hmore
    have ha := (moreData_rounds ..).mp (hmore k (Nat.le_refl k))
    exact (hround k ha).mpr (h k ha)

/-- A bounded sequence of numbers takes its greatest value. -/
theorem exists_greatest {f : Nat → Nat} {bound : Nat} (h : ∀ k, f k ≤ bound) :
    ∃ k, ∀ j, f j ≤ f k := by
  by_contra hno
  have hgrow (m : Nat) : ∃ k, m ≤ f k := by
    induction m with
    | zero => exact ⟨0, Nat.zero_le _⟩
    | succ m ih =>
      obtain ⟨k, hk⟩ := ih
      obtain ⟨j, hj⟩ := not_forall.mp (not_exists.mp hno k)
      exact ⟨j, by omega⟩
  obtain ⟨k, hk⟩ := hgrow (bound + 1)
  have hle := h k
  omega

/-- Bytes stored and answers lost, which together grow with every answer but an empty one. -/
def progress (uart0 : Device D) (d : D) (k : Nat) : Nat :=
  (exchange uart0 d k).sizes.sum + (k - (exchange uart0 d k).sizes.length)

theorem exchange_length_le (uart0 : Device D) (d : D) (k : Nat) :
    (exchange uart0 d k).sizes.length ≤ k := by
  have h := (rounds_matches uart0 d responseBuffer responseBuffer k).errors
  omega

theorem progress_succ (uart0 : Device D) (d : D) (k : Nat) :
    progress uart0 d (k + 1) =
      progress uart0 d k + ((exchange uart0 d k).sizeField uart0).getD 1 := by
  have hle := exchange_length_le uart0 d k
  rw [progress, progress, sizes_succ]
  cases (exchange uart0 d k).sizeField uart0 with
  | none =>
    rw [Option.toList_none, List.append_nil]
    show _ = _ + 1
    omega
  | some n =>
    rw [Option.toList_some, List.sum_append, List.sum_singleton, List.length_append,
      List.length_singleton]
    show _ = _ + n
    omega

/-- The loop goes on for ever exactly if the device ends in empty packages. -/
theorem asked_forever_iff (uart0 : Device D) (d : D) (dataSize : Nat) :
    (∀ k, Asked uart0 d dataSize k) ↔ Empties uart0 d dataSize := by
  constructor
  · intro h
    have hbound (k : Nat) : progress uart0 d k ≤ dataSize + 15 := by
      obtain ⟨hlt, hle⟩ := h k
      rw [progress]
      omega
    obtain ⟨k, hk⟩ := exists_greatest hbound
    have hmono {j : Nat} (hj : k ≤ j) : progress uart0 d k ≤ progress uart0 d j := by
      induction hj with
      | refl => exact Nat.le_refl _
      | step _ ih => exact Nat.le_trans ih (by rw [progress_succ]; exact Nat.le_add_right _ _)
    refine ⟨k, h k, ?_⟩
    intro j hj
    have hsucc := progress_succ uart0 d j
    have hle := hk (j + 1)
    have hge := hmono hj
    cases hn : (exchange uart0 d j).sizeField uart0 with
    | none =>
      rw [hn, Option.getD_none] at hsucc
      omega
    | some n =>
      rw [hn, Option.getD_some] at hsucc
      rw [show n = 0 from by omega]
  · intro ⟨k, ha, hempty⟩ j
    rcases Nat.le_total j k with hj | hj
    · exact ha.le hj
    · induction hj with
      | refl => exact ha
      | @step j hj ih =>
        obtain ⟨hlt, hle⟩ := ih
        rw [Asked, sizes_succ, hempty j hj, Option.toList_some, List.sum_append,
          List.sum_singleton, List.length_append, List.length_singleton]
        exact ⟨hlt, by omega⟩

theorem ends_iff (uart0 : Device D) (d : D) (dataSize : Nat) (dataBuffer response : Memory) :
    (∃ t, Ends (moreData dataSize) (receivePackage uart0) (start d dataBuffer response) t) ↔
      ¬ Empties uart0 d dataSize := by
  rw [ends_iff_iterate, ← asked_forever_iff, not_forall]
  apply exists_congr
  intro k
  rw [← moreData_rounds uart0 d dataSize dataBuffer response, Bool.not_eq_true]
  exact Iff.rfl

section Calls

variable (uart0 : Device D) (d : D) (pictureType : UInt8) (dataBuffer response : Memory)

/-- Every `memcpy` of `GetJpegPicture` stays within `response` and the announced size. -/
def StaysInBounds : Prop :=
  (getPictureCommand uart0 d pictureType).stat = 0 →
    InBounds uart0 (getPictureCommand uart0 d pictureType).dev
      (getPictureCommand uart0 d pictureType).size dataBuffer response

/-- `GetJpegPicture` stays in bounds exactly if no announcement comes or all packages fit. -/
theorem staysInBounds_iff : StaysInBounds uart0 d pictureType dataBuffer response ↔
    ∀ low middle high, Announces uart0 d pictureType low middle high →
      SizesFit uart0 (dataReply uart0 d pictureType).2 (dataSize low middle high) := by
  constructor
  · intro h low middle high ha
    rw [StaysInBounds, getPictureCommand_of_announces ha] at h
    exact (inBounds_iff ..).mp (h rfl)
  · intro h hstat
    obtain ⟨low, middle, high, ha⟩ := announces_of_stat hstat
    rw [getPictureCommand_of_announces ha]
    exact (inBounds_iff ..).mpr (h low middle high ha)

theorem returns_of_lost (h : (getPictureCommand uart0 d pictureType).stat ≠ 0) :
    ∃ o, Returns uart0 d pictureType dataBuffer response o :=
  ⟨_, 0, by rw [getJpegPicture]; exact if_pos h⟩

theorem returns_of_announces {low middle high : UInt8}
    (h : Announces uart0 d pictureType low middle high) :
    (∃ o, Returns uart0 d pictureType dataBuffer response o) ↔
      ¬ Empties uart0 (dataReply uart0 d pictureType).2 (dataSize low middle high) := by
  rw [← ends_iff uart0 _ _ dataBuffer response]
  simp only [Returns, getJpegPicture, getPictureCommand_of_announces h, ne_eq, not_true_eq_false,
    if_false, Option.map_eq_some_iff, Ends, start]
  constructor
  · intro ⟨_, fuel, t, ht, _⟩
    exact ⟨t, fuel, ht⟩
  · intro ⟨t, fuel, ht⟩
    exact ⟨_, fuel, t, ht, rfl⟩

/-- `GetJpegPicture` returns exactly if no announcement comes or the device does not end in
empty packages. -/
theorem getJpegPicture_returns_iff : (∃ o, Returns uart0 d pictureType dataBuffer response o) ↔
    ∀ low middle high, Announces uart0 d pictureType low middle high →
      ¬ Empties uart0 (dataReply uart0 d pictureType).2 (dataSize low middle high) := by
  constructor
  · intro h low middle high ha
    exact (returns_of_announces uart0 d pictureType dataBuffer response ha).mp h
  · intro h
    by_cases hstat : (getPictureCommand uart0 d pictureType).stat = 0
    · obtain ⟨low, middle, high, ha⟩ := announces_of_stat hstat
      exact (returns_of_announces uart0 d pictureType dataBuffer response ha).mpr
        (h low middle high ha)
    · exact returns_of_lost uart0 d pictureType dataBuffer response hstat

end Calls

/-- The announcement of 1000 bytes, and then the byte `b` for ever. -/
def monotone (b : UInt8) (t : Nat) : UInt8 :=
  [CMD_PREFIX, CMD_ACK, CMD_GETPICTURE, 0, 0, 0, CMD_PREFIX, CMD_DATA, 5, 0xE8, 0x03, 0].getD t b

theorem monotone_announces (b : UInt8) :
    Announces (stream fun t => some (monotone b t)) 0 5 0xE8 0x03 0 :=
  ⟨⟨CMD_PREFIX, 0, 0, 0, rfl⟩, CMD_PREFIX, 5, rfl⟩

theorem monotone_of_le (b : UInt8) {t : Nat} (h : 12 ≤ t) : monotone b t = b :=
  List.getD_eq_default _ _ h

theorem stream_sizeField (f : Nat → UInt8) (x : Exchange Nat) :
    x.sizeField (stream fun t => some (f t)) =
      some ((f (x.dev + 3)).toNat <<< 8 ||| (f (x.dev + 2)).toNat) := by
  have hbytes : (x.answer (stream fun t => some (f t))).1 =
      (List.range' x.dev packageSize).map f := by
    rw [Exchange.answer, burst_stream]
    rfl
  have hbyte {i : Nat} (hi : i < packageSize) :
      ((List.range' x.dev packageSize).map f).getD i 0 = f (x.dev + i) := by
    rw [List.getD_eq_getElem _ _ (by rw [List.length_map, List.length_range']; exact hi),
      List.getElem_map, List.getElem_range', Nat.one_mul]
  rw [Exchange.sizeField, hbytes, if_pos (by rw [List.length_map, List.length_range']),
    hbyte (by decide), hbyte (by decide)]

theorem monotone_dev (b : UInt8) (k : Nat) :
    12 ≤ (exchange (stream fun t => some (monotone b t)) 12 k).dev := by
  induction k with
  | zero => exact Nat.le_refl 12
  | succ k ih =>
    rw [exchange_succ, Exchange.next, Exchange.answer, burst_stream]
    exact Nat.le_trans ih (Nat.le_add_right _ _)

theorem monotone_sizeField (b : UInt8) (k : Nat) :
    (exchange (stream fun t => some (monotone b t)) 12 k).sizeField
      (stream fun t => some (monotone b t)) = some (b.toNat <<< 8 ||| b.toNat) := by
  have hdev := monotone_dev b k
  rw [stream_sizeField, monotone_of_le b (by omega), monotone_of_le b (by omega)]

/-- Packages of 0xFF bytes with the size field 65535. -/
theorem full_not_inBounds :
    ¬ ∀ (uart0 : Device Nat) (d : Nat) (pictureType : UInt8) (dataBuffer response : Memory),
      StaysInBounds uart0 d pictureType dataBuffer response := by
  intro h
  have hin := h (stream fun t => some (monotone 0xFF t)) 0 5 responseBuffer responseBuffer
  rw [StaysInBounds, getPictureCommand_of_announces (monotone_announces 0xFF)] at hin
  have hfit := (inBounds_iff ..).mp (hin rfl) 0 ⟨by decide, by decide⟩ _
    (monotone_sizeField 0xFF 0)
  exact absurd hfit.1 (by decide)

/-- Packages of 0 bytes with the size field 0. -/
theorem empty_not_returns :
    ¬ ∀ (uart0 : Device Nat) (d : Nat) (pictureType : UInt8) (dataBuffer response : Memory),
      ∃ o, Returns uart0 d pictureType dataBuffer response o := by
  intro h
  have hreturn := h (stream fun t => some (monotone 0 t)) 0 5 responseBuffer responseBuffer
  refine (returns_of_announces _ _ _ _ _ (monotone_announces 0)).mp hreturn
    ⟨0, ⟨by decide, by decide⟩, ?_⟩
  intro j _
  exact monotone_sizeField 0 j

end Plak1a.Camera.JpegLoop
