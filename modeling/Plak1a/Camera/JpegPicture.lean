import Mathlib.Algebra.Group.Nat.Defs
import Mathlib.Data.List.ReduceOption
import Plak1a.Camera.Replies

/-!
# A JPEG picture from a conforming camera

The camera announces the size of its picture and sends a package for each acknowledgement
that asks for one. Of a reply, any of the bytes may be lost on the line, and any may come only
after the wait for them has timed out; they are then the first ones of a later wait, in front
of the next reply. `GetJpegPicture` takes any `PACKAGE_SIZE` bytes that come in one wait for the
next package, so the short last package never counts as received and a late one can be stored
twice, and its result does not tell whether it gave up.
-/

namespace Plak1a.Camera.JpegPicture

open Plak1a.Lib Plak1a.Lib.Memory Plak1a.Lib.While Plak1a.Camera.C328r Plak1a.Camera.Replies

/-- ID, payload size with the low byte first, payload, check bytes. -/
structure Package where
  id : UInt8 × UInt8
  payload : List UInt8
  check : UInt8 × UInt8

def Package.bytes (p : Package) : List UInt8 :=
  [p.id.1, p.id.2, UInt8.ofNat p.payload.length, UInt8.ofNat (p.payload.length / 256)] ++
    p.payload ++ [p.check.1, p.check.2]

/-- The payload of a package of `PACKAGE_SIZE` bytes. -/
def payloadSize : Nat := 506

def payloads (ps : List Package) : List UInt8 := ps.flatMap Package.payload

/-- Only the last package may be shorter than `PACKAGE_SIZE`. -/
structure Picture where
  packages : List Package
  full : ∀ (i : Nat) (h : i + 1 < packages.length), packages[i].bytes.length = packageSize
  fits : ∀ p ∈ packages, 0 < p.payload.length ∧ p.bytes.length ≤ packageSize
  size_lt : (payloads packages).length < 2 ^ 24

def Picture.data (p : Picture) : List UInt8 := payloads p.packages

def Picture.size (p : Picture) : Nat := p.data.length

/-- A camera with a picture, and what the line makes of its `j`-th reply: bytes may be lost, and
each `none` stands for a wait that times out before the next byte. -/
structure Session where
  picture : Picture
  counter : UInt8
  line : Nat → List UInt8 → List (Option UInt8)
  line_sublist : ∀ (j : Nat) (reply : List UInt8), (line j reply).reduceOption.Sublist reply

/-- The replies to GET PICTURE: ACK, then DATA with the size in its last three bytes. -/
def Session.announcement (c : Session) (pictureType : UInt8) : List UInt8 :=
  [CMD_PREFIX, CMD_ACK, CMD_GETPICTURE, c.counter, 0, 0] ++
    [CMD_PREFIX, CMD_DATA, pictureType, UInt8.ofNat c.picture.size,
      UInt8.ofNat (c.picture.size / 256), UInt8.ofNat (c.picture.size / 65536)]

/-- An ACK asks for the package with the number in its last two bytes. -/
def Session.reply (c : Session) : List UInt8 → List UInt8
  | [_, command, pictureType, _, low, high] =>
    if command = CMD_GETPICTURE then c.announcement pictureType
    else if command = CMD_ACK then
      (c.picture.packages[low.toNat + 256 * high.toNat]?).elim [] Package.bytes
    else []
  | _ => []

/-- The bytes and the time-outs on their way to UART0, and the number of replies so far. -/
structure Line where
  pending : List (Option UInt8)
  replies : Nat

def Session.uart0 (c : Session) : Device Line where
  write d command := ⟨d.pending ++ c.line d.replies (c.reply command), d.replies + 1⟩
  getch d :=
    match d.pending with
    | [] => (none, d)
    | b :: bs => (b, { d with pending := bs })

/-- What comes in a wait for `len` bytes, after the camera has sent `reply`. -/
def Session.wait (c : Session) (len : Nat) (reply : List UInt8) (d : Line) : List UInt8 × Line :=
  burst c.uart0 len ⟨d.pending ++ c.line d.replies reply, d.replies + 1⟩

/-- A correct host obtains the packages, after `e` waits without the package it asked for: it waits
for as many bytes as the package has, takes nothing else for it, asks again where that is not what
came, and gives up after 16 of these waits. -/
inductive Obtained (c : Session) : List Package → Nat → Line → Prop
  | nil (e : Nat) (d : Line) : Obtained c [] e d
  | whole {p : Package} {ps : List Package} {e : Nat} {d d' : Line} (he : e ≤ 15)
      (hwait : c.wait p.bytes.length p.bytes d = (p.bytes, d')) (h : Obtained c ps e d') :
      Obtained c (p :: ps) e d
  | again {p : Package} {ps : List Package} {bytes : List UInt8} {e : Nat} {d d' : Line}
      (he : e ≤ 15) (hwait : c.wait p.bytes.length p.bytes d = (bytes, d'))
      (hp : bytes ≠ p.bytes) (h : Obtained c (p :: ps) (e + 1) d') : Obtained c (p :: ps) e d

/-- The payload size in the header of a package. -/
def sizeField (bytes : List UInt8) : Nat := (bytes.getD 2 0).toNat + 256 * (bytes.getD 3 0).toNat

/-- The runs of `PACKAGE_SIZE` bytes that come in one wait spell `rest`, after `k` of them and `e`
shorter ones: the bytes that the size field of a run counts are the next ones of `rest`. -/
inductive Spelled (c : Session) : List UInt8 → Nat → Nat → Line → Prop
  | done (k e : Nat) (d : Line) : Spelled c [] k e d
  | package {rest bytes : List UInt8} {k e : Nat} {d d' : Line} (he : e ≤ 15) (hrest : rest ≠ [])
      (hwait : c.wait packageSize (c.reply (ackCommand 0 k)) d = (bytes, d'))
      (hlen : bytes.length = packageSize)
      (hpayload : rest.take (sizeField bytes) <+: bytes.drop 4)
      (h : Spelled c (rest.drop (sizeField bytes)) (k + 1) e d') : Spelled c rest k e d
  | again {rest bytes : List UInt8} {k e : Nat} {d d' : Line} (he : e ≤ 15) (hrest : rest ≠ [])
      (hwait : c.wait packageSize (c.reply (ackCommand 0 k)) d = (bytes, d'))
      (hlen : bytes.length ≠ packageSize) (h : Spelled c rest k (e + 1) d') : Spelled c rest k e d

/-- The replies to GET PICTURE come whole and in time. -/
def Session.Announced (c : Session) (pictureType : UInt8) : Prop :=
  (c.announcement pictureType).map some <+: c.line 0 (c.announcement pictureType)

/-- What is on the line after them. -/
def Session.announced (c : Session) (pictureType : UInt8) : Line :=
  ⟨(c.line 0 (c.announcement pictureType)).drop (c.announcement pictureType).length, 1⟩

/-- A line on which bytes may be lost but none comes late. -/
def Session.InTime (c : Session) : Prop := ∀ (j : Nat) (reply : List UInt8), none ∉ c.line j reply

/-- A result that is not negative is the announced size and comes with the picture;
it is negative when the packages cannot be obtained. -/
def Fetched (c : Session) (pictureType : UInt8) (o : Outcome Line) : Prop :=
  (0 ≤ o.result → o.result = c.picture.size ∧ Holds o.dataBuffer 0 c.picture.data) ∧
    (¬ Obtained c c.picture.packages 0 (c.announced pictureType) → o.result < 0)

/-- `GetJpegPicture` returns, and every outcome is right, whatever the memory held. -/
def FetchesPicture (c : Session) (pictureType : UInt8) : Prop :=
  ∀ dataBuffer response : Memory,
    (∃ o, Returns c.uart0 ⟨[], 0⟩ pictureType dataBuffer response o) ∧
      ∀ o, Returns c.uart0 ⟨[], 0⟩ pictureType dataBuffer response o → Fetched c pictureType o

variable {c : Session} {s t : Transfer Line} {p : Package} {ps : List Package}
  {bytes rest : List UInt8} {d d' : Line} {k e : Nat} {pictureType : UInt8}

theorem bytes_length (p : Package) : p.bytes.length = p.payload.length + 6 := by
  simp only [Package.bytes, List.length_append, List.length_cons, List.length_nil]
  omega

theorem sizeField_bytes (hp : p.payload.length < 2 ^ 16) :
    sizeField p.bytes = p.payload.length := by
  show (UInt8.ofNat p.payload.length).toNat +
    256 * (UInt8.ofNat (p.payload.length / 256)).toNat = p.payload.length
  rw [UInt8.toNat_ofNat', UInt8.toNat_ofNat']
  omega

/-- The driver finds the size field in the bytes it has stored. -/
theorem packetSize_eq (m : Memory) (h : bytes.length = packageSize) :
    packetSize (store m 0 bytes) = sizeField bytes := by
  have hlow := (bytes.getD 2 0).toNat_lt
  rw [packetSize_store h, sizeField, ← Nat.shiftLeft_add_eq_or_of_lt hlow, Nat.shiftLeft_eq]
  omega

theorem reply_ackCommand (c : Session) (k : Nat) :
    c.reply (ackCommand 0 k) = (c.picture.packages[k % 256]?).elim [] Package.bytes := by
  have hlow : (UInt8.ofNat k).toNat = k % 256 := UInt8.toNat_ofNat'
  have hhigh : (UInt8.ofNat k).toNat >>> 8 = 0 := by
    rw [hlow, Nat.shiftRight_eq_div_pow]
    omega
  show (c.picture.packages[(UInt8.ofNat k).toNat +
    256 * (UInt8.ofNat ((UInt8.ofNat k).toNat >>> 8)).toNat]?).elim [] Package.bytes = _
  rw [hhigh, hlow]
  rfl

/-- The bytes of a wait that ends with its last byte stood first on the line. -/
theorem pending_of_burst (n : Nat) (d : Line) (h : (burst c.uart0 n d).1.length = n) :
    d.pending = (burst c.uart0 n d).1.map some ++ (burst c.uart0 n d).2.pending := by
  induction n generalizing d with
  | zero => rfl
  | succ n ih =>
    obtain ⟨pending, replies⟩ := d
    cases pending with
    | nil => exact absurd h (Nat.succ_ne_zero n).symm
    | cons b bs =>
      cases b with
      | none => exact absurd h (Nat.succ_ne_zero n).symm
      | some b => exact congrArg (some b :: ·) (ih ⟨bs, replies⟩ (Nat.succ.inj h))

/-- Bytes that are fewer than waited for, and nothing behind them. -/
theorem burst_map_short (bs : List UInt8) (n j : Nat) (hn : bs.length ≤ n) :
    burst c.uart0 n ⟨bs.map some, j⟩ = (bs, ⟨[], j⟩) := by
  induction n generalizing bs with
  | zero =>
    rw [List.eq_nil_of_length_eq_zero (Nat.le_zero.mp hn)]
    rfl
  | succ n ih =>
    cases bs with
    | nil => rfl
    | cons b bs =>
      show (b :: (burst c.uart0 n ⟨bs.map some, j⟩).1, (burst c.uart0 n ⟨bs.map some, j⟩).2) = _
      rw [ih bs (Nat.le_of_succ_le_succ hn)]

/-- A round of the loop, by what comes in its wait. -/
theorem receivePackage_whole
    (hwait : c.wait packageSize (c.reply (ackCommand 0 s.packageCounter)) s.dev = (bytes, d))
    (hlen : bytes.length = packageSize) :
    receivePackage c.uart0 s =
      ⟨d, copy s.dataBuffer s.bufferPosition (store s.response 0 bytes) 4 (sizeField bytes),
        store s.response 0 bytes, s.bufferPosition + sizeField bytes, s.packageCounter + 1,
        s.errorCounter⟩ := by
  have hburst : burst c.uart0 packageSize (sendACK c.uart0 s.dev 0 s.packageCounter) = (bytes, d) :=
    hwait
  rw [receivePackage, waitForResponse_eq, hburst]
  simp only [if_pos hlen, packetSize_eq _ hlen]

theorem receivePackage_short
    (hwait : c.wait packageSize (c.reply (ackCommand 0 s.packageCounter)) s.dev = (bytes, d))
    (hlen : bytes.length ≠ packageSize) :
    receivePackage c.uart0 s =
      ⟨d, s.dataBuffer, store s.response 0 bytes, s.bufferPosition, s.packageCounter,
        s.errorCounter + 1⟩ := by
  have hburst : burst c.uart0 packageSize (sendACK c.uart0 s.dev 0 s.packageCounter) = (bytes, d) :=
    hwait
  rw [receivePackage, waitForResponse_eq, hburst]
  simp only [if_neg hlen]

theorem moreData_iff (dataSize : Nat) (s : Transfer Line) :
    moreData dataSize s = true ↔ s.bufferPosition < dataSize ∧ s.errorCounter ≤ 15 := by
  rw [moreData, decide_eq_true_iff]

/-- The start of the picture is stored, and `rest` is what comes next. -/
structure Stored (c : Session) (rest : List UInt8) (s : Transfer Line) : Prop where
  rest : c.picture.data.drop s.bufferPosition = rest
  data : Holds s.dataBuffer 0 (c.picture.data.take s.bufferPosition)

theorem Stored.lt (h : Stored c rest s) (hrest : rest ≠ []) :
    s.bufferPosition < c.picture.size := by
  by_contra hge
  exact hrest (h.rest.symm.trans (List.drop_eq_nil_of_le (Nat.le_of_not_lt hge)))

/-- A run of `PACKAGE_SIZE` bytes that spells the next bytes stores them. -/
theorem Stored.whole (h : Stored c rest s) (hrest : rest ≠ [])
    (hwait : c.wait packageSize (c.reply (ackCommand 0 s.packageCounter)) s.dev = (bytes, d))
    (hlen : bytes.length = packageSize) (hpayload : rest.take (sizeField bytes) <+: bytes.drop 4) :
    Stored c (rest.drop (sizeField bytes)) (receivePackage c.uart0 s) := by
  have htake : (c.picture.data.take s.bufferPosition).length = s.bufferPosition :=
    List.length_take_of_le (Nat.le_of_lt (h.lt hrest))
  rw [receivePackage_whole hwait hlen]
  constructor
  · rw [← h.rest, List.drop_drop]
  · rw [List.take_add, h.rest]
    apply Holds.append
    · exact h.data.copy_after (by omega)
    · rw [Nat.zero_add, htake]
      apply Holds.copied
      · exact ((holds_store (m := s.response)).drop 4).of_isPrefix hpayload
      · exact List.length_take_le _ _

/-- The loop ends with the picture where the line spells it. -/
theorem loop_stores (h : Spelled c rest k e d) :
    ∀ {s : Transfer Line}, s.dev = d → s.packageCounter = k → s.errorCounter = e →
      Stored c rest s → ∃ t, Ends (moreData c.picture.size) (receivePackage c.uart0) s t ∧
        Holds t.dataBuffer 0 c.picture.data := by
  have hmore {rest : List UInt8} {s : Transfer Line} (hs : Stored c rest s) (hrest : rest ≠ [])
      (he : s.errorCounter ≤ 15) : moreData c.picture.size s = true :=
    (moreData_iff _ _).mpr ⟨hs.lt hrest, he⟩
  induction h with
  | done k e d =>
    intro s _ _ _ hs
    have hge : c.picture.size ≤ s.bufferPosition := List.drop_eq_nil_iff.mp hs.rest
    refine ⟨s, Ends.stop ?_, ?_⟩
    · rw [Bool.eq_false_iff, Ne, moreData_iff]
      omega
    · have hdata := hs.data
      rwa [List.take_of_length_le hge] at hdata
  | package he hrest hwait hlen hpayload _ ih =>
    rintro s rfl rfl rfl hs
    have hround := receivePackage_whole hwait hlen
    obtain ⟨t, ht, hdone⟩ := ih (by rw [hround]) (by rw [hround]) (by rw [hround])
      (hs.whole hrest hwait hlen hpayload)
    exact ⟨t, ht.next (hmore hs hrest he), hdone⟩
  | @again rest bytes k e d d' he hrest hwait hlen _ ih =>
    rintro s rfl rfl rfl hs
    have hround := receivePackage_short hwait hlen
    have hnext : Stored c rest (receivePackage c.uart0 s) := by
      rw [hround]
      exact ⟨hs.rest, hs.data⟩
    obtain ⟨t, ht, hdone⟩ := ih (by rw [hround]) (by rw [hround]) (by rw [hround]) hnext
    exact ⟨t, ht.next (hmore hs hrest he), hdone⟩

/-- What the loop has stored stays. -/
theorem loop_keeps {dataSize i : Nat}
    (h : Ends (moreData dataSize) (receivePackage c.uart0) s t) :
    i < s.bufferPosition → t.dataBuffer i = s.dataBuffer i := by
  apply Ends.induct (Q := fun s => i < s.bufferPosition → t.dataBuffer i = s.dataBuffer i) _ _ h
  · exact fun _ _ => rfl
  · intro s _ _ ih hi
    obtain ⟨bytes, d, hwait⟩ : ∃ bytes d,
        c.wait packageSize (c.reply (ackCommand 0 s.packageCounter)) s.dev = (bytes, d) :=
      ⟨_, _, rfl⟩
    by_cases hlen : bytes.length = packageSize
    · rw [receivePackage_whole hwait hlen] at ih
      rw [ih (Nat.lt_of_lt_of_le hi (Nat.le_add_right _ _))]
      exact copy_of_lt hi
    · rw [receivePackage_short hwait hlen] at ih
      exact ih hi

/-- Two runs of the loop that differ in what the memory held at the start. -/
structure Alike (s t : Transfer Line) : Prop where
  dev : s.dev = t.dev
  position : s.bufferPosition = t.bufferPosition
  counter : s.packageCounter = t.packageCounter
  errors : s.errorCounter = t.errorCounter
  dataBuffer : ∀ i ≥ s.bufferPosition, s.dataBuffer i ≠ t.dataBuffer i
  response : ∀ i ≥ packageSize, s.response i ≠ t.response i

theorem Alike.receivePackage (h : Alike s t) :
    Alike (receivePackage c.uart0 s) (receivePackage c.uart0 t) := by
  obtain ⟨bytes, d, hwait⟩ : ∃ bytes d,
      c.wait packageSize (c.reply (ackCommand 0 s.packageCounter)) s.dev = (bytes, d) :=
    ⟨_, _, rfl⟩
  have hwait' : c.wait packageSize (c.reply (ackCommand 0 t.packageCounter)) t.dev =
      (bytes, d) := by
    rw [← h.dev, ← h.counter, hwait]
  have hbound : bytes.length ≤ packageSize := by
    rw [show bytes = (c.wait packageSize (c.reply (ackCommand 0 s.packageCounter)) s.dev).1 by
      rw [hwait]]
    exact burst_length_le _ _ _
  have hbehind (i : Nat) (hi : i ≥ packageSize) :
      store s.response 0 bytes i ≠ store t.response 0 bytes i := by
    rw [store_of_ge (by omega), store_of_ge (by omega)]
    exact h.response i hi
  by_cases hlen : bytes.length = packageSize
  · rw [receivePackage_whole hwait hlen, receivePackage_whole hwait' hlen]
    refine ⟨rfl, congrArg (· + _) h.position, congrArg (· + 1) h.counter, h.errors, ?_, hbehind⟩
    intro i hi
    have hi' : s.bufferPosition + sizeField bytes ≤ i := hi
    dsimp only
    rw [copy_of_ge hi', copy_of_ge (by rw [← h.position]; exact hi')]
    exact h.dataBuffer i (Nat.le_trans (Nat.le_add_right _ _) hi')
  · rw [receivePackage_short hwait hlen, receivePackage_short hwait' hlen]
    exact ⟨rfl, h.position, h.counter, congrArg (· + 1) h.errors, h.dataBuffer, hbehind⟩

/-- What a round has stored of the picture came from its response array. -/
theorem holds_response {dataSize : Nat}
    (h : Ends (moreData dataSize) (receivePackage c.uart0) (receivePackage c.uart0 s) t)
    (hdata : Holds t.dataBuffer 0 c.picture.data)
    (hwait : c.wait packageSize (c.reply (ackCommand 0 s.packageCounter)) s.dev = (bytes, d))
    (hlen : bytes.length = packageSize) :
    Holds (store s.response 0 bytes) 4
      ((c.picture.data.drop s.bufferPosition).take (sizeField bytes)) := by
  intro i hi
  rw [List.length_take, List.length_drop] at hi
  have hround := receivePackage_whole hwait hlen
  have hstays : t.dataBuffer (s.bufferPosition + i) =
      (receivePackage c.uart0 s).dataBuffer (s.bufferPosition + i) := by
    apply loop_keeps h
    rw [hround]
    show _ < s.bufferPosition + sizeField bytes
    omega
  have hbyte := hdata (s.bufferPosition + i) (by omega)
  rw [Nat.zero_add, hstays, hround] at hbyte
  dsimp only at hbyte
  rw [copy_of_mem (Nat.le_add_right _ _) (by omega), Nat.add_sub_cancel_left] at hbyte
  rw [hbyte, List.getElem_take, List.getElem_drop]

/-- Where both runs end with the picture, the line has spelled it. -/
theorem spelled_of_holds (h : Ends (moreData c.picture.size) (receivePackage c.uart0) s t)
    (hdata : Holds t.dataBuffer 0 c.picture.data) :
    ∀ s' t', Alike s s' → Ends (moreData c.picture.size) (receivePackage c.uart0) s' t' →
      Holds t'.dataBuffer 0 c.picture.data →
      Spelled c (c.picture.data.drop s.bufferPosition) s.packageCounter s.errorCounter s.dev := by
  have hsame {s s' : Transfer Line} (ha : Alike s s') :
      moreData c.picture.size s = moreData c.picture.size s' := by
    rw [moreData, moreData, ha.position, ha.errors]
  apply Ends.induct (Q := fun s => ∀ s' t', Alike s s' →
    Ends (moreData c.picture.size) (receivePackage c.uart0) s' t' →
    Holds t'.dataBuffer 0 c.picture.data →
    Spelled c (c.picture.data.drop s.bufferPosition) s.packageCounter s.errorCounter s.dev) _ _ h
  · intro hstop s' t' ha ht' hdata'
    obtain rfl := ht'.of_stop ((hsame ha).symm.trans hstop)
    by_cases hpos : t.bufferPosition < c.picture.data.length
    · -- one run has kept its old byte here and the other one another
      have hbyte := hdata t.bufferPosition hpos
      rw [← hdata' t.bufferPosition hpos, Nat.zero_add] at hbyte
      exact absurd hbyte (ha.dataBuffer _ (Nat.le_refl _))
    · rw [List.drop_eq_nil_of_le (Nat.le_of_not_lt hpos)]
      exact .done _ _ _
  · intro s hmore hend ih s' t' ha ht' hdata'
    have hend' := ht'.of_next ((hsame ha).symm.trans hmore)
    obtain ⟨hpos, he⟩ := (moreData_iff _ _).mp hmore
    have hrest : c.picture.data.drop s.bufferPosition ≠ [] := by
      rw [Ne, List.drop_eq_nil_iff]
      exact Nat.not_le_of_lt hpos
    obtain ⟨bytes, d, hwait⟩ : ∃ bytes d,
        c.wait packageSize (c.reply (ackCommand 0 s.packageCounter)) s.dev = (bytes, d) :=
      ⟨_, _, rfl⟩
    have hwait' : c.wait packageSize (c.reply (ackCommand 0 s'.packageCounter)) s'.dev =
        (bytes, d) := by
      rw [← ha.dev, ← ha.counter, hwait]
    have hih := ih _ _ ha.receivePackage hend' hdata'
    by_cases hlen : bytes.length = packageSize
    · have hstored := holds_response hend hdata hwait hlen
      have hstored' := holds_response hend' hdata' hwait' hlen
      rw [← ha.position] at hstored'
      rw [receivePackage_whole hwait hlen] at hih
      refine .package he hrest hwait hlen ?_ (by rw [List.drop_drop]; exact hih)
      refine hstored.isPrefix (holds_store.drop 4) ?_
      -- behind the response array the two runs have different bytes
      by_contra hlong
      rw [List.length_drop, hlen] at hlong
      have hbyte := hstored (packageSize - 4) (by omega)
      rw [← hstored' (packageSize - 4) (by omega), store_of_ge (by rw [hlen]; decide),
        store_of_ge (by rw [hlen]; decide)] at hbyte
      exact absurd hbyte (ha.response _ (by decide))
    · rw [receivePackage_short hwait hlen] at hih
      exact .again he hrest hwait hlen hih

theorem reduceOption_map_some (bs : List UInt8) : (bs.map some).reduceOption = bs := by
  rw [List.reduceOption, List.filterMap_map]
  exact List.filterMap_some

/-- Without a time-out all that comes is bytes. -/
theorem map_some_reduceOption {xs : List (Option UInt8)} (h : none ∉ xs) :
    xs.reduceOption.map some = xs := by
  induction xs with
  | nil => rfl
  | cons x xs ih =>
    have htail := ih fun hm => h (List.mem_cons_of_mem _ hm)
    cases x with
    | none => exact absurd List.mem_cons_self h
    | some b => rw [List.reduceOption_cons_of_some, List.map_cons, htail]

/-- The driver decodes the size of the announcement if that is below 2^16. -/
def decodedSize (c : Session) : Nat :=
  dataSize (UInt8.ofNat c.picture.size) (UInt8.ofNat (c.picture.size / 256))
    (UInt8.ofNat (c.picture.size / 65536))

theorem decodedSize_eq_iff (c : Session) :
    decodedSize c = c.picture.size ↔ c.picture.size < 2 ^ 16 :=
  dataSize_eq_iff c.picture.size_lt

theorem getPictureCommand_announced (ha : c.Announced pictureType) :
    getPictureCommand c.uart0 ⟨[], 0⟩ pictureType =
      ⟨0, decodedSize c, c.announced pictureType⟩ := by
  obtain ⟨tail, htail⟩ := ha
  have hafter : c.announced pictureType = ⟨tail, 1⟩ := by
    rw [Session.announced, ← htail, List.drop_left' (List.length_map _)]
  have hack : ackReply c.uart0 ⟨[], 0⟩ pictureType =
      ([CMD_PREFIX, CMD_ACK, CMD_GETPICTURE, c.counter, 0, 0],
        ⟨([CMD_PREFIX, CMD_DATA, pictureType, UInt8.ofNat c.picture.size,
          UInt8.ofNat (c.picture.size / 256),
          UInt8.ofNat (c.picture.size / 65536)] : List UInt8).map some ++ tail, 1⟩) := by
    show burst c.uart0 6 ⟨c.line 0 (c.announcement pictureType), 1⟩ = _
    rw [← htail]
    rfl
  have hdata : dataReply c.uart0 ⟨[], 0⟩ pictureType =
      ([CMD_PREFIX, CMD_DATA, pictureType, UInt8.ofNat c.picture.size,
        UInt8.ofNat (c.picture.size / 256), UInt8.ofNat (c.picture.size / 65536)], ⟨tail, 1⟩) := by
    rw [dataReply, hack]
    rfl
  rw [getPictureCommand_of_announces ⟨⟨_, _, _, _, congrArg Prod.fst hack⟩, _, _,
    congrArg Prod.fst hdata⟩, hdata, hafter]
  rfl

/-- Twelve bytes that come in the two waits are the whole announcement. -/
theorem announced_of_stat (h : (getPictureCommand c.uart0 ⟨[], 0⟩ pictureType).stat = 0) :
    c.Announced pictureType := by
  obtain ⟨low, middle, high, ha⟩ := announces_of_stat h
  obtain ⟨b₀, b₃, b₄, b₅, hack⟩ := ha.ack
  obtain ⟨b₆, b₈, hdata⟩ := ha.data
  have hfirst : c.line 0 (c.announcement pictureType) =
      [b₀, CMD_ACK, CMD_GETPICTURE, b₃, b₄, b₅].map some ++
        (ackReply c.uart0 ⟨[], 0⟩ pictureType).2.pending := by
    rw [← hack]
    exact pending_of_burst (c := c) 6 ⟨c.line 0 (c.announcement pictureType), 1⟩ (by
      rw [show (burst c.uart0 6 ⟨c.line 0 (c.announcement pictureType), 1⟩).1 = _ from hack]
      rfl)
  have hsecond : (ackReply c.uart0 ⟨[], 0⟩ pictureType).2.pending =
      [b₆, CMD_DATA, b₈, low, middle, high].map some ++
        (dataReply c.uart0 ⟨[], 0⟩ pictureType).2.pending := by
    rw [← hdata]
    exact pending_of_burst 6 _ (by
      rw [show (burst c.uart0 6 (ackReply c.uart0 ⟨[], 0⟩ pictureType).2).1 = _ from hdata]
      rfl)
  have htwelve : ([b₀, CMD_ACK, CMD_GETPICTURE, b₃, b₄, b₅] ++
      [b₆, CMD_DATA, b₈, low, middle, high]).Sublist (c.announcement pictureType) := by
    refine List.Sublist.trans ?_ (c.line_sublist 0 (c.announcement pictureType))
    rw [hfirst, hsecond, ← List.append_assoc, ← List.map_append, List.reduceOption_append,
      reduceOption_map_some]
    exact List.sublist_append_left _ _
  have hall := htwelve.eq_of_length rfl
  rw [Session.Announced, hfirst, hsecond, ← List.append_assoc, ← List.map_append, hall]
  exact List.prefix_append _ _

theorem payloads_cons (p : Package) (ps : List Package) :
    payloads (p :: ps) = p.payload ++ payloads ps := List.flatMap_cons

theorem payloads_concat (ps : List Package) (p : Package) :
    payloads (ps ++ [p]) = payloads ps ++ p.payload :=
  List.flatMap_append.trans (congrArg (payloads ps ++ ·) (List.append_nil _))

theorem payloads_length (h : ∀ p ∈ ps, p.payload.length = payloadSize) :
    (payloads ps).length = payloadSize * ps.length := by
  induction ps with
  | nil => rfl
  | cons p ps ih =>
    rw [payloads_cons, List.length_append, ih fun q hq => h q (List.mem_cons_of_mem _ hq),
      h p List.mem_cons_self, List.length_cons, Nat.mul_succ, Nat.add_comm]

/-- All packages but the last carry `payloadSize` bytes. -/
theorem packages_cases (p : Picture) :
    p.packages = [] ∨ ∃ init last, p.packages = init ++ [last] ∧
      (∀ q ∈ init, q.payload.length = payloadSize) ∧
      0 < last.payload.length ∧ last.payload.length ≤ payloadSize := by
  rcases List.eq_nil_or_concat p.packages with h | ⟨init, last, h⟩
  · exact Or.inl h
  · right
    rw [List.concat_eq_append] at h
    have hlast := p.fits last (by rw [h]; exact List.mem_append_right _ List.mem_cons_self)
    have hlen := bytes_length last
    have hsz : packageSize = payloadSize + 6 := rfl
    refine ⟨init, last, h, ?_, hlast.1, by omega⟩
    intro q hq
    obtain ⟨i, hi, rfl⟩ := List.getElem_of_mem hq
    have hfull := p.full i (by rw [h, List.length_append, List.length_singleton]; omega)
    simp only [h, List.getElem_append_left hi] at hfull
    have hq := bytes_length init[i]
    omega

theorem size_eq {p : Picture} {init : List Package} {last : Package}
    (h : p.packages = init ++ [last]) (hinit : ∀ q ∈ init, q.payload.length = payloadSize) :
    p.size = payloadSize * init.length + last.payload.length := by
  rw [Picture.size, Picture.data, h, payloads_concat, List.length_append, payloads_length hinit]

theorem dvd_size_iff (p : Picture) :
    payloadSize ∣ p.size ↔ ∀ q ∈ p.packages, q.payload.length = payloadSize := by
  constructor
  · intro hd
    rcases packages_cases p with h | ⟨init, last, h, hinit, hpos, hle⟩
    · intro q hq
      rw [h] at hq
      cases hq
    · rw [size_eq h hinit, Nat.dvd_add_right (Nat.dvd_mul_right _ _)] at hd
      have hlast := Nat.le_antisymm hle (Nat.le_of_dvd hpos hd)
      intro q hq
      rw [h, List.mem_append, List.mem_singleton] at hq
      rcases hq with hq | rfl
      · exact hinit q hq
      · exact hlast
  · intro h
    rw [Picture.size, Picture.data, payloads_length h]
    exact Nat.dvd_mul_right _ _

theorem packages_length_le (p : Picture) (hs : p.size < 2 ^ 16) : p.packages.length ≤ 256 := by
  rcases packages_cases p with h | ⟨init, last, h, hinit, _, _⟩
  · rw [h]
    exact Nat.zero_le _
  · have hsize := size_eq h hinit
    rw [show payloadSize = 506 from rfl] at hsize
    rw [h, List.length_append, List.length_singleton]
    omega

theorem payloads_eq_nil (hps : payloads ps = []) (hpos : ∀ p ∈ ps, 0 < p.payload.length) :
    ps = [] := by
  cases ps with
  | nil => rfl
  | cons p ps =>
    have hlen := congrArg List.length hps
    rw [payloads_cons, List.length_append, List.length_nil] at hlen
    have hp := hpos p List.mem_cons_self
    omega

/-- On a line on which nothing comes late a wait takes all that is left of the reply. -/
theorem wait_inTime (hin : c.InTime) (hd : d.pending = []) {n : Nat} {reply : List UInt8}
    (hn : reply.length ≤ n) :
    ∃ bs : List UInt8, bs.Sublist reply ∧ c.wait n reply d = (bs, ⟨[], d.replies + 1⟩) := by
  have hsub := c.line_sublist d.replies reply
  have hline : c.line d.replies reply = (c.line d.replies reply).reduceOption.map some := by
    rw [map_some_reduceOption (hin d.replies reply)]
  refine ⟨_, hsub, ?_⟩
  rw [Session.wait, hd, List.nil_append, hline, reduceOption_map_some]
  exact burst_map_short _ _ _ (Nat.le_trans hsub.length_le hn)

/-- The reply to the acknowledgement of `pre` is the package that follows. -/
theorem reply_next {pre : List Package} (hnum : c.picture.packages.length ≤ 256)
    (hpk : c.picture.packages = pre ++ p :: ps) : c.reply (ackCommand 0 pre.length) = p.bytes := by
  rw [hpk, List.length_append, List.length_cons] at hnum
  rw [reply_ackCommand, Nat.mod_eq_of_lt (by omega), hpk,
    List.getElem?_append_right (Nat.le_refl _), Nat.sub_self]
  rfl

/-- There the line spells nothing but full packages. -/
theorem full_of_spelled (hin : c.InTime) (hnum : c.picture.packages.length ≤ 256)
    (h : Spelled c rest k e d) : ∀ pre ps, c.picture.packages = pre ++ ps →
      rest = payloads ps → k = pre.length → d.pending = [] →
      ∀ p ∈ ps, p.payload.length = payloadSize := by
  have hfits {pre ps : List Package} (hpk : c.picture.packages = pre ++ ps) (p : Package)
      (hp : p ∈ ps) := c.picture.fits p (hpk ▸ List.mem_append_right pre hp)
  have hnext {ps : List Package} (hrest : payloads ps ≠ []) : ∃ p ps', ps = p :: ps' := by
    cases ps with
    | nil => exact absurd rfl hrest
    | cons p ps => exact ⟨p, ps, rfl⟩
  induction h with
  | done k e d =>
    intro pre ps hpk hps _ _
    rw [payloads_eq_nil hps.symm fun p hp => (hfits hpk p hp).1]
    exact fun p hp => absurd hp List.not_mem_nil
  | @package rest bytes k e d d' _ hrest hwait hlen _ _ ih =>
    rintro pre ps hpk rfl rfl hd
    obtain ⟨p, ps, rfl⟩ := hnext hrest
    have hp := (hfits hpk p List.mem_cons_self).2
    rw [reply_next hnum hpk] at hwait
    obtain ⟨bs, hsub, hbs⟩ := wait_inTime hin hd hp
    obtain ⟨rfl, rfl⟩ := Prod.mk.inj (hbs.symm.trans hwait)
    obtain rfl := hsub.eq_of_length (by have := hsub.length_le; omega)
    have hfull : p.payload.length = payloadSize := by
      have hbytes := bytes_length p
      rw [hlen] at hbytes
      exact (Nat.add_right_cancel (show payloadSize + 6 = _ from hbytes)).symm
    have hsize : sizeField p.bytes = p.payload.length :=
      sizeField_bytes (by rw [hfull]; decide)
    have hdrop : (payloads (p :: ps)).drop (sizeField p.bytes) = payloads ps := by
      rw [hsize, payloads_cons, List.drop_left]
    have hrest := ih (pre ++ [p]) ps (by rw [hpk, List.append_assoc]; rfl) hdrop
      (by rw [List.length_append, List.length_singleton]) rfl
    intro q hq
    rcases List.mem_cons.mp hq with rfl | hq
    · exact hfull
    · exact hrest q hq
  | @again rest bytes k e d d' _ hrest hwait hlen _ ih =>
    rintro pre ps hpk rfl rfl hd
    obtain ⟨p, ps, rfl⟩ := hnext hrest
    have hp := (hfits hpk p List.mem_cons_self).2
    rw [reply_next hnum hpk] at hwait
    obtain ⟨bs, hsub, hbs⟩ := wait_inTime hin hd hp
    obtain ⟨rfl, rfl⟩ := Prod.mk.inj (hbs.symm.trans hwait)
    exact ih pre (p :: ps) hpk rfl rfl rfl

/-- When all packages are full, the line spells there what a correct host obtains. -/
theorem spelled_of_obtained (hin : c.InTime) (hnum : c.picture.packages.length ≤ 256)
    (hfull : ∀ p ∈ c.picture.packages, p.payload.length = payloadSize)
    (h : Obtained c ps e d) : ∀ pre, c.picture.packages = pre ++ ps →
      d.pending = [] → Spelled c (payloads ps) pre.length e d := by
  have hlength {pre ps : List Package} {p : Package} (hpk : c.picture.packages = pre ++ p :: ps) :
      p.payload.length = payloadSize ∧ p.bytes.length = packageSize := by
    have hp := hfull p (hpk ▸ List.mem_append_right pre List.mem_cons_self)
    exact ⟨hp, by rw [bytes_length, hp]; rfl⟩
  have hpos {ps : List Package} {p : Package} (hp : p.payload.length = payloadSize) :
      payloads (p :: ps) ≠ [] := by
    intro hnil
    have hlen := congrArg List.length hnil
    rw [payloads_cons, List.length_append, hp] at hlen
    exact absurd hlen (by simp [payloadSize])
  induction h with
  | nil e d => exact fun _ _ _ => .done _ _ _
  | @whole p ps e d d' he hwait _ ih =>
    intro pre hpk hd
    obtain ⟨hpayload, hlen⟩ := hlength hpk
    have hsize : sizeField p.bytes = p.payload.length :=
      sizeField_bytes (by rw [hpayload]; decide)
    obtain ⟨bs, _, hbs⟩ := wait_inTime hin hd (Nat.le_refl p.bytes.length)
    obtain ⟨rfl, rfl⟩ := Prod.mk.inj (hbs.symm.trans hwait)
    have hrest := ih (pre ++ [p]) (by rw [hpk, List.append_assoc]; rfl) rfl
    rw [List.length_append, List.length_singleton] at hrest
    rw [hlen] at hwait
    refine .package he (hpos hpayload) (by rw [reply_next hnum hpk]; exact hwait) hlen ?_ ?_
    · rw [hsize, payloads_cons, List.take_left]
      exact List.prefix_append p.payload [p.check.1, p.check.2]
    · rw [hsize, payloads_cons, List.drop_left]
      exact hrest
  | @again p ps bytes e d d' he hwait hne _ ih =>
    intro pre hpk hd
    obtain ⟨hpayload, hlen⟩ := hlength hpk
    obtain ⟨bs, hsub, hbs⟩ := wait_inTime hin hd (Nat.le_refl p.bytes.length)
    obtain ⟨rfl, rfl⟩ := Prod.mk.inj (hbs.symm.trans hwait)
    have hrest := ih pre hpk rfl
    rw [hlen] at hwait
    refine .again he (hpos hpayload) (by rw [reply_next hnum hpk]; exact hwait) ?_ hrest
    exact fun heq => hne (hsub.eq_of_length (heq.trans hlen.symm))

/-- The loop of `GetJpegPicture` starts here. -/
def start (c : Session) (pictureType : UInt8) (dataBuffer response : Memory) : Transfer Line :=
  ⟨c.announced pictureType, dataBuffer, response, 0, 0, 0⟩

theorem returns_lost {dataBuffer response : Memory} {o : Outcome Line}
    (ha : ¬ c.Announced pictureType) :
    Returns c.uart0 ⟨[], 0⟩ pictureType dataBuffer response o ↔
      o = ⟨-1, (getPictureCommand c.uart0 ⟨[], 0⟩ pictureType).dev, dataBuffer⟩ := by
  have hstat : (getPictureCommand c.uart0 ⟨[], 0⟩ pictureType).stat ≠ 0 :=
    fun h => ha (announced_of_stat h)
  simp only [Returns, getJpegPicture, if_pos hstat, Option.some.injEq, exists_const]
  exact eq_comm

theorem returns_announced {dataBuffer response : Memory} {o : Outcome Line}
    (ha : c.Announced pictureType) :
    Returns c.uart0 ⟨[], 0⟩ pictureType dataBuffer response o ↔
      ∃ t, Ends (moreData (decodedSize c)) (receivePackage c.uart0)
          (start c pictureType dataBuffer response) t ∧
        (⟨decodedSize c, sendACK c.uart0 t.dev 0 t.packageCounter, t.dataBuffer⟩ :
          Outcome Line) = o := by
  simp only [Returns, getJpegPicture, getPictureCommand_announced ha, ne_eq, not_true_eq_false,
    if_false, Option.map_eq_some_iff, Ends, start]
  constructor
  · intro ⟨fuel, t, ht, ho⟩
    exact ⟨t, ⟨fuel, ht⟩, ho⟩
  · intro ⟨t, ⟨fuel, ht⟩, ho⟩
    exact ⟨fuel, t, ht, ho⟩

theorem fetches_of_lost (ha : ¬ c.Announced pictureType) : FetchesPicture c pictureType := by
  intro dataBuffer response
  apply And.intro ⟨_, (returns_lost ha).mpr rfl⟩
  intro o h
  have hresult : o.result = -1 := by rw [(returns_lost ha).mp h]
  constructor
  · intro hn
    omega
  · intro _
    omega

/-- The driver succeeds where the line spells the picture. -/
theorem fetches_of_spelled (hs : c.picture.size < 2 ^ 16)
    (ho : Obtained c c.picture.packages 0 (c.announced pictureType))
    (hspelled : Spelled c c.picture.data 0 0 (c.announced pictureType)) :
    FetchesPicture c pictureType := by
  by_cases ha : c.Announced pictureType
  · intro dataBuffer response
    have hsize := (decodedSize_eq_iff c).mpr hs
    have hstored : Stored c c.picture.data (start c pictureType dataBuffer response) :=
      ⟨rfl, holds_nil dataBuffer 0⟩
    obtain ⟨u, hu, hdone⟩ := loop_stores hspelled rfl rfl rfl hstored
    rw [← hsize] at hu
    apply And.intro ⟨_, (returns_announced ha).mpr ⟨u, hu, rfl⟩⟩
    intro o h
    obtain ⟨t, ht, rfl⟩ := (returns_announced ha).mp h
    rw [ht.unique hu, hsize]
    exact ⟨fun _ => ⟨rfl, hdone⟩, fun hn => absurd ho hn⟩
  · exact fetches_of_lost ha

/-- After the announcement the loop ends with the picture, whatever the memory held. -/
theorem fetched_announced (h : FetchesPicture c pictureType) (ha : c.Announced pictureType)
    (dataBuffer response : Memory) :
    decodedSize c = c.picture.size ∧ Obtained c c.picture.packages 0 (c.announced pictureType) ∧
      ∃ t, Ends (moreData (decodedSize c)) (receivePackage c.uart0)
          (start c pictureType dataBuffer response) t ∧ Holds t.dataBuffer 0 c.picture.data := by
  obtain ⟨⟨o, ho⟩, hright⟩ := h dataBuffer response
  have hf := hright o ho
  obtain ⟨t, ht, rfl⟩ := (returns_announced ha).mp ho
  have hn : (0 : Int) ≤ decodedSize c := Int.natCast_nonneg _
  obtain ⟨hsize, hdata⟩ := hf.1 hn
  refine ⟨Int.ofNat_inj.mp hsize, ?_, t, ht, hdata⟩
  by_contra hno
  exact absurd (hf.2 hno) (Int.not_lt.mpr hn)

theorem fetches_iff (c : Session) (pictureType : UInt8) :
    FetchesPicture c pictureType ↔ ¬ c.Announced pictureType ∨
      (c.picture.size < 2 ^ 16 ∧ Obtained c c.picture.packages 0 (c.announced pictureType) ∧
        Spelled c c.picture.data 0 0 (c.announced pictureType)) := by
  constructor
  · intro h
    rw [or_iff_not_imp_left, not_not]
    intro ha
    obtain ⟨hsize, ho, t, ht, hdata⟩ := fetched_announced h ha (fun _ => 0) (fun _ => 0)
    obtain ⟨_, _, t', ht', hdata'⟩ := fetched_announced h ha (fun _ => 1) (fun _ => 1)
    rw [hsize] at ht ht'
    refine ⟨(decodedSize_eq_iff c).mp hsize, ho, spelled_of_holds ht hdata _ _ ?_ ht' hdata'⟩
    exact ⟨rfl, rfl, rfl, rfl, fun i _ => (by decide : (0 : UInt8) ≠ 1),
      fun i _ => (by decide : (0 : UInt8) ≠ 1)⟩
  · rintro (ha | ⟨hs, ho, hspelled⟩)
    · exact fetches_of_lost ha
    · exact fetches_of_spelled hs ho hspelled

/-- Nothing is left on the line of an announcement then. -/
theorem announced_inTime (hin : c.InTime) (pictureType : UInt8) :
    (c.announced pictureType).pending = [] := by
  have hsub := (c.line_sublist 0 (c.announcement pictureType)).length_le
  have hline : c.line 0 (c.announcement pictureType) =
      (c.line 0 (c.announcement pictureType)).reduceOption.map some := by
    rw [map_some_reduceOption (hin 0 _)]
  rw [Session.announced, hline, List.drop_eq_nil_iff, List.length_map]
  exact hsub

/-- Where nothing comes late the packages must be full and be obtained. -/
theorem inTime_iff (hin : c.InTime) (hs : c.picture.size < 2 ^ 16)
    (ho : Obtained c c.picture.packages 0 (c.announced pictureType)) :
    Spelled c c.picture.data 0 0 (c.announced pictureType) ↔ payloadSize ∣ c.picture.size := by
  have hnum := packages_length_le c.picture hs
  have hempty := announced_inTime hin pictureType
  rw [dvd_size_iff]
  constructor
  · exact fun h => full_of_spelled hin hnum h [] _ rfl rfl rfl hempty
  · exact fun h => spelled_of_obtained hin hnum h ho [] rfl hempty

/-- `GetJpegPicture` returns the picture, or a negative result when it cannot be obtained, exactly
if the announcement does not come whole and in time, or if the size fits two bytes, the packages
can be obtained and the runs of `PACKAGE_SIZE` bytes on the line spell the picture. Where nothing
comes late, these runs spell it exactly if the last package is as long as the others. -/
theorem fetchesPicture_iff (c : Session) (pictureType : UInt8) :
    (FetchesPicture c pictureType ↔ ¬ c.Announced pictureType ∨
      (c.picture.size < 2 ^ 16 ∧ Obtained c c.picture.packages 0 (c.announced pictureType) ∧
        Spelled c c.picture.data 0 0 (c.announced pictureType))) ∧
      (c.InTime → (FetchesPicture c pictureType ↔ ¬ c.Announced pictureType ∨
        (c.picture.size < 2 ^ 16 ∧ payloadSize ∣ c.picture.size ∧
          Obtained c c.picture.packages 0 (c.announced pictureType)))) := by
  refine ⟨fetches_iff c pictureType, fun hin => ?_⟩
  rw [fetches_iff]
  refine or_congr_right (and_congr_right fun hs => ?_)
  constructor
  · exact fun ⟨ho, hspelled⟩ => ⟨(inTime_iff hin hs ho).mp hspelled, ho⟩
  · exact fun ⟨hd, ho⟩ => ⟨ho, (inTime_iff hin hs ho).mpr hd⟩

/-- A reply that comes whole and in time, with nothing else on the line. -/
theorem wait_whole {reply : List UInt8} (hd : d.pending = [])
    (hline : c.line d.replies reply = reply.map some) :
    c.wait reply.length reply d = (reply, ⟨[], d.replies + 1⟩) := by
  rw [Session.wait, hd, List.nil_append, hline]
  exact burst_map_short _ _ _ (Nat.le_refl _)

/-- A package of `PACKAGE_SIZE` bytes. -/
def fullPackage (id b : UInt8) : Package := ⟨(id, 0), List.replicate payloadSize b, (0, 0)⟩

def twoPackages : Picture where
  packages := [fullPackage 0 0x11, fullPackage 1 0x22]
  full := fun i h => by
    obtain rfl : i = 0 := by
      simp only [List.length_cons, List.length_nil] at h
      omega
    exact (bytes_length _).trans (congrArg (· + 6) List.length_replicate)
  fits := by decide +kernel
  size_lt := by decide +kernel

/-- A session in which the first package is lost once. -/
def lostOnce : Session where
  picture := twoPackages
  counter := 0
  line := fun j reply => if j = 1 then [] else reply.map some
  line_sublist := fun j reply => by
    split
    · exact List.nil_sublist reply
    · rw [reduceOption_map_some]

theorem lostOnce_fetched : FetchesPicture lostOnce 5 := by
  have hin : lostOnce.InTime := by
    intro j reply
    show none ∉ if j = 1 then [] else reply.map some
    split <;> simp
  have hempty := announced_inTime hin 5
  refine ((fetchesPicture_iff lostOnce 5).2 hin).mpr
    (.inr ⟨by decide +kernel, by decide +kernel, ?_⟩)
  have hlost : lostOnce.wait (fullPackage 0 0x11).bytes.length (fullPackage 0 0x11).bytes
      (lostOnce.announced 5) = ([], ⟨[], 2⟩) := by
    rw [Session.wait, hempty]
    exact burst_map_short [] _ _ (Nat.zero_le _)
  refine .again (Nat.zero_le _) hlost (List.cons_ne_nil _ _).symm ?_
  refine .whole (by decide) (wait_whole rfl rfl) ?_
  exact .whole (by decide) (wait_whole rfl rfl) (.nil _ _)

/-- The same picture when the first package comes only after the wait for it. -/
def lateOnce : Session where
  picture := twoPackages
  counter := 0
  line := fun j reply => if j = 1 then none :: reply.map some else reply.map some
  line_sublist := fun j reply => by
    split <;> simp [reduceOption_map_some]

-- the result is the size, with the first package stored twice
example : (getJpegPicture lateOnce.uart0 4 ⟨[], 0⟩ 5 (fun _ => 0) (fun _ => 0)).map
    (fun o => (o.result, o.dataBuffer 505, o.dataBuffer 506)) = some (1012, 0x11, 0x11) := by
  decide +kernel

/-- A picture of one byte, on a line that loses and delays nothing. -/
def shortPicture : Session where
  picture :=
    { packages := [⟨(1, 0), [0xFF], (0, 0)⟩]
      full := fun i h => absurd (Nat.lt_of_succ_lt_succ h) (Nat.not_lt_zero i)
      fits := by decide
      size_lt := by decide }
  counter := 0
  line := fun _ reply => reply.map some
  line_sublist := fun _ reply => by rw [reduceOption_map_some]

/-- All of it arrives, the result is its size, and the buffer keeps its old byte. -/
theorem shortPicture_not_fetched :
    Obtained shortPicture shortPicture.picture.packages 0 (shortPicture.announced 5) ∧
      (getJpegPicture shortPicture.uart0 17 ⟨[], 0⟩ 5 (fun _ => 0) (fun _ => 0)).map
        (fun o => (o.result, o.dataBuffer 0)) = some (1, 0) ∧
      ¬ FetchesPicture shortPicture 5 := by
  have hrun : (getJpegPicture shortPicture.uart0 17 ⟨[], 0⟩ 5 (fun _ => 0) (fun _ => 0)).map
      (fun o => (o.result, o.dataBuffer 0)) = some (1, 0) := by
    decide +kernel
  refine ⟨.whole (Nat.zero_le _) (wait_whole rfl rfl) (.nil _ _), hrun, ?_⟩
  intro h
  obtain ⟨o, ho, hout⟩ := Option.map_eq_some_iff.mp hrun
  obtain ⟨hresult, hbyte⟩ := Prod.mk.inj hout
  have hf := (h (fun _ => 0) (fun _ => 0)).2 o ⟨17, ho⟩
  have hdata := (hf.1 (by rw [hresult]; decide)).2 0 (by decide)
  rw [Nat.add_zero, hbyte] at hdata
  exact absurd hdata (by decide)

end Plak1a.Camera.JpegPicture
