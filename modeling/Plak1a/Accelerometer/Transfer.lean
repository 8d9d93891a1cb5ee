import Plak1a.Accelerometer.I2c
import Plak1a.Lib.Run

/-!
# Retries of a transfer

A restart sends the address again and goes on where the counters stand. This is a retry
as long as nothing of the current direction has passed: nothing handed to the controller
since the write address, nothing stored since the read address. A refused address or data
byte is taken for an acknowledged one.
-/

namespace Plak1a.Accelerometer.Transfer

open Plak1a.Lib.Run Plak1a.Accelerometer.I2c

/-- The first `n` bytes of a buffer. -/
def bytes (buffer : Nat → UInt8) (n : Nat) : List UInt8 := (List.range n).map buffer

/-- The slave has acknowledged the whole request, and its answer is in the buffer. -/
def Delivered (buffer : Nat → UInt8) (len rx : Nat) (s : State) : Prop :=
  s.acked = bytes buffer len ∧ rx ≤ s.sent.length ∧ bytes s.rxBuffer rx = s.sent.take rx

/-- No data byte is refused, and the arbitration is lost only while nothing has been handed
to the controller or stored since the address. Data behind a refused write address is
refused as well. -/
def Retriable (s : State) : Status → Prop
  | .dataSent ack => ack = true
  | .arbitrationLost => s.pos = 0 ∧ s.rxWrPos = 0
  | _ => True

instance (s : State) (c : Status) : Decidable (Retriable s c) := by
  cases c <;> unfold Retriable <;> infer_instance

variable {buffer : Nat → UInt8} {len rx n : Nat} {s t : State} {c : Status}

theorem bytes_succ (buffer : Nat → UInt8) (n : Nat) :
    bytes buffer (n + 1) = bytes buffer n ++ [buffer n] := by
  rw [bytes, List.range_succ, List.map_append]
  rfl

theorem bytes_length (buffer : Nat → UInt8) (n : Nat) : (bytes buffer n).length = n := by
  rw [bytes, List.length_map, List.length_range]

theorem bytes_update (f : Nat → UInt8) (n : Nat) (b : UInt8) :
    bytes (Function.update f n b) (n + 1) = bytes f n ++ [b] := by
  rw [bytes_succ, Function.update_self]
  congr 1
  apply List.map_congr_left
  intro i hi
  rw [List.mem_range] at hi
  exact Function.update_of_ne (Nat.ne_of_lt hi) b f

/-- The counters and flags of a transfer that has not ended, whatever the bus does. -/
structure Counted (rx : Nat) (s : State) : Prop where
  sto : s.sto = false
  counts : s.rdnWr = 0 ∧ s.rxWrPos = 0 ∧ s.rxBytesRemaining = rx ∨
    s.rdnWr = 1 ∧ 0 ≤ s.rxBytesRemaining ∧ s.rxWrPos + s.rxBytesRemaining = rx
  address : s.phase = .address → s.dat = lis3l ||| s.rdnWr
  sendData : s.phase = .sendData → s.rdnWr = 0
  receive : s.phase = .receive → s.rdnWr = 1 ∧ (s.aa = true ↔ s.rxBytesRemaining ≠ 0)
  running : s.phase ≠ .off

theorem step_eq (h : step buffer s c = some t) :
    s.transferComplete = false ∧ s.conforming c = true ∧
      t = ((s.arrive c).handle buffer c).resume c := by
  unfold step at h
  split at h
  · cases h
  · rename_i hc
    obtain ⟨hconf, h⟩ := Option.ite_none_right_eq_some.mp h
    exact ⟨Bool.eq_false_iff.mpr hc, hconf, (Option.some.inj h).symm⟩

/-- A refused read address is sent again. -/
theorem step_refused (hsto : s.sto = false) (hs : step buffer s (.slaR false) = some t) :
    t = { s with addressed := false, sta := true, phase := .repeatedStart } := by
  rw [(step_eq hs).2.2]
  simp only [State.arrive, State.handle, State.resume, State.condition, hsto,
    Bool.false_eq_true, if_false, if_true]

/-- The byte that is not acknowledged ends the transfer. -/
theorem step_last {b : UInt8} (hs : step buffer s (.dataReceived false b) = some t) :
    t = { s with
      dat := b, sent := s.sent ++ [b], rxComplete := true, transferComplete := true
      sta := false, sto := false, phase := .off } := by
  rw [(step_eq hs).2.2]
  simp only [State.arrive, State.handle, State.resume, State.condition, if_true]

/-- The transmitter hands out the next byte, ends the transfer or turns to reading. -/
theorem transmit_cases (buffer : Nat → UInt8) (hsto : s.sto = false) :
    (0 < s.bytesRemaining ∧ (s.masterTransmit buffer).condition .sendData =
        { s with
          dat := buffer s.pos, pos := s.pos + 1, bytesRemaining := s.bytesRemaining - 1
          sta := false, phase := .sendData }) ∨
      (s.bytesRemaining ≤ 0 ∧ s.rxBytesRemaining = 0 ∧
        (s.masterTransmit buffer).condition .sendData =
          { s with sto := false, sta := false, transferComplete := true, phase := .off }) ∨
      (s.bytesRemaining ≤ 0 ∧ s.rxBytesRemaining ≠ 0 ∧
        (s.masterTransmit buffer).condition .sendData =
          { s with
            rdnWr := ~~~ s.rdnWr &&& 1, pos := 0, rxWrPos := 0, rxComplete := false, sta := true
            phase := .repeatedStart }) := by
  unfold State.masterTransmit
  by_cases hb : 0 < s.bytesRemaining
  · left
    refine ⟨hb, ?_⟩
    rw [if_pos hb]
    simp only [State.condition, hsto, Bool.false_eq_true, if_false]
  · right
    rw [if_neg hb]
    by_cases hr : s.rxBytesRemaining = 0
    · left
      refine ⟨by omega, hr, ?_⟩
      rw [if_pos hr]
      rfl
    · right
      refine ⟨by omega, hr, ?_⟩
      rw [if_neg hr]
      simp only [State.condition, hsto, Bool.false_eq_true, if_false, if_true]

/-- The address that goes out has the direction bit of `i2c_RdnWr`. -/
theorem sendAddress_eq (h : s.rdnWr = 0 ∨ s.rdnWr = 1) :
    ({ s with dat := lis3l ||| s.rdnWr } : State).sendAddress =
      if s.rdnWr = 0 then { s with dat := lis3l ||| s.rdnWr, phase := .address, acked := [] }
      else { s with dat := lis3l ||| s.rdnWr, phase := .address, sent := [] } := by
  unfold State.sendAddress
  rcases h with h | h
  · rw [if_pos (show (lis3l ||| s.rdnWr) &&& 1 = 0 by rw [h]; decide), if_pos h]
  · rw [if_neg (show ¬ (lis3l ||| s.rdnWr) &&& 1 = 0 by rw [h]; decide),
      if_neg (show ¬ s.rdnWr = 0 by rw [h]; decide)]

theorem sendAddress_transferComplete (s : State) :
    s.sendAddress.transferComplete = s.transferComplete := by
  unfold State.sendAddress
  split <;> rfl

theorem zero_ne_one : (0 : UInt8) ≠ 1 := by decide

theorem Counted.of_writing (h : Counted rx s) (hw : s.rdnWr = 0) :
    s.rxWrPos = 0 ∧ s.rxBytesRemaining = rx := by
  rcases h.counts with ⟨_, hcounts⟩ | ⟨hr, _⟩
  · exact hcounts
  · exact absurd (hw.symm.trans hr) zero_ne_one

theorem Counted.of_reading (h : Counted rx s) (hr : s.rdnWr = 1) :
    0 ≤ s.rxBytesRemaining ∧ s.rxWrPos + s.rxBytesRemaining = rx := by
  rcases h.counts with ⟨hw, _⟩ | ⟨_, hcounts⟩
  · exact absurd (hw.symm.trans hr) zero_ne_one
  · exact hcounts

theorem Counted.direction (h : Counted rx s) : s.rdnWr = 0 ∨ s.rdnWr = 1 :=
  h.counts.imp And.left And.left

/-- A status for writing comes in the writing direction. -/
theorem Counted.writing (h : Counted rx s) (ha : s.phase = .address) (hd : s.dat &&& 1 = 0) :
    s.rdnWr = 0 := by
  rcases h.direction with hw | hw
  · exact hw
  · rw [h.address ha, hw] at hd
    exact absurd hd (by decide)

theorem Counted.reading (h : Counted rx s) (ha : s.phase = .address) (hd : s.dat &&& 1 = 1) :
    s.rdnWr = 1 := by
  rcases h.direction with hw | hw
  · rw [h.address ha, hw] at hd
    exact absurd hd (by decide)
  · exact hw

theorem counted_transmit (hsto : s.sto = false) (hw : s.rdnWr = 0) (hp : s.rxWrPos = 0)
    (hr : s.rxBytesRemaining = rx) (ht : t = (s.masterTransmit buffer).condition .sendData)
    (hrun : t.transferComplete = false) : Counted rx t := by
  rcases transmit_cases buffer hsto with ⟨_, he⟩ | ⟨_, _, he⟩ | ⟨_, _, he⟩
  · rw [ht, he]
    exact ⟨hsto, Or.inl ⟨hw, hp, hr⟩, nofun, fun _ => hw, nofun, nofun⟩
  · rw [ht, he] at hrun
    cases hrun
  · rw [ht, he]
    refine ⟨hsto, Or.inr ⟨?_, ?_, ?_⟩, nofun, nofun, nofun, nofun⟩
    · show ~~~ s.rdnWr &&& 1 = 1
      rw [hw]
      decide
    · show 0 ≤ s.rxBytesRemaining
      omega
    · show ((0 : Nat) : Int) + s.rxBytesRemaining = rx
      omega

theorem counted_sendAddress (h : Counted rx s)
    (ht : t = ({ s with dat := lis3l ||| s.rdnWr } : State).sendAddress) : Counted rx t := by
  rw [ht, sendAddress_eq h.direction]
  split
  · exact ⟨h.sto, h.counts, fun _ => rfl, nofun, nofun, nofun⟩
  · exact ⟨h.sto, h.counts, fun _ => rfl, nofun, nofun, nofun⟩

theorem Counted.of_step (h : Counted rx s) (hs : step buffer s c = some t)
    (hrun : t.transferComplete = false) : Counted rx t := by
  obtain ⟨_, hconf, ht⟩ := step_eq hs
  cases c with
  | start => exact counted_sendAddress h ht
  | repeatedStart => exact counted_sendAddress h ht
  | slaW ack =>
    simp only [State.conforming, Bool.and_eq_true, decide_eq_true_eq] at hconf
    have hw := h.writing hconf.1 hconf.2
    obtain ⟨hp, hr⟩ := h.of_writing hw
    exact counted_transmit (s := s.arrive (.slaW ack)) h.sto hw hp hr ht hrun
  | dataSent ack =>
    simp only [State.conforming, Bool.and_eq_true, decide_eq_true_eq] at hconf
    have hw := h.sendData hconf.1
    obtain ⟨hp, hr⟩ := h.of_writing hw
    cases ack with
    | false => exact counted_transmit (s := s) h.sto hw hp hr ht hrun
    | true => exact counted_transmit (s := s.arrive (.dataSent true)) h.sto hw hp hr ht hrun
  | arbitrationLost =>
    have he : t = { s with sta := true, phase := .start } := ht
    rw [he]
    exact ⟨h.sto, h.counts, nofun, nofun, nofun, nofun⟩
  | slaR ack =>
    simp only [State.conforming, Bool.and_eq_true, decide_eq_true_eq] at hconf
    have hw := h.reading hconf.1 hconf.2
    cases ack with
    | false =>
      rw [step_refused h.sto hs]
      exact ⟨h.sto, h.counts, nofun, nofun, nofun, nofun⟩
    | true =>
      rw [ht]
      exact ⟨h.sto, h.counts, nofun, nofun, fun _ => ⟨hw, decide_eq_true_iff⟩, nofun⟩
  | dataReceived ack b =>
    simp only [State.conforming, Bool.and_eq_true, decide_eq_true_eq] at hconf
    obtain ⟨hw, haa⟩ := h.receive hconf.1
    cases ack with
    | false =>
      rw [step_last hs] at hrun
      cases hrun
    | true =>
      have hne := haa.mp hconf.2
      obtain ⟨hpos, hsum⟩ := h.of_reading hw
      rw [ht]
      refine ⟨h.sto, Or.inr ⟨hw, ?_, ?_⟩, nofun, nofun, fun _ => ⟨hw, decide_eq_true_iff⟩, nofun⟩
      · show 0 ≤ s.rxBytesRemaining - 1
        omega
      · show ((s.rxWrPos + 1 : Nat) : Int) + (s.rxBytesRemaining - 1) = rx
        omega

/-- No byte is stored outside the first `rx`. -/
theorem Counted.rxWrPos_lt (h : Counted rx s) {b : UInt8}
    (hs : step buffer s (.dataReceived true b) = some t) : s.rxWrPos < rx := by
  obtain ⟨_, hconf, _⟩ := step_eq hs
  simp only [State.conforming, Bool.and_eq_true, decide_eq_true_eq] at hconf
  obtain ⟨hw, haa⟩ := h.receive hconf.1
  have hne := haa.mp hconf.2
  obtain ⟨hpos, hsum⟩ := h.of_reading hw
  omega

/-- The transfer so far, when every restart came before the first byte of its direction. -/
structure Follows (buffer : Nat → UInt8) (len : Nat) (s : State) : Prop where
  nonneg : 0 ≤ s.bytesRemaining
  write : s.rdnWr = 0 → s.pos + s.bytesRemaining = len
  writeStart : s.rdnWr = 0 → s.phase ≠ .sendData → s.pos = 0
  writeAddress : s.rdnWr = 0 → s.phase = .address → s.acked = []
  sendData : s.phase = .sendData →
    ∃ n, s.pos = n + 1 ∧ s.dat = buffer n ∧ s.acked = bytes buffer n
  read : s.rdnWr = 1 → s.pos = 0 ∧ s.acked = bytes buffer len
  readStart : s.rdnWr = 1 → s.phase ≠ .receive → s.rxWrPos = 0
  readAddress : s.rdnWr = 1 → s.phase = .address → s.sent = []
  receive : s.phase = .receive → s.sent = bytes s.rxBuffer s.rxWrPos

/-- Either the transfer goes on or it has delivered. -/
def Outcome (buffer : Nat → UInt8) (len rx : Nat) (s : State) : Prop :=
  if s.transferComplete then Delivered buffer len rx s
  else Counted rx s ∧ Follows buffer len s

theorem follows_transmit (h : Counted rx s) (hw : s.rdnWr = 0) (hnn : 0 ≤ s.bytesRemaining)
    (hsum : s.pos + s.bytesRemaining = len) (hacked : s.acked = bytes buffer s.pos)
    (hrun : s.transferComplete = false)
    (ht : t = (s.masterTransmit buffer).condition .sendData) : Outcome buffer len rx t := by
  unfold Outcome
  have hcounts := h.of_writing hw
  have hct := fun ht' => counted_transmit h.sto hw hcounts.1 hcounts.2 ht ht'
  have hread : s.rdnWr ≠ 1 := fun hr => zero_ne_one (hw.symm.trans hr)
  rcases transmit_cases buffer h.sto with ⟨hpos, he⟩ | ⟨hle, hr, he⟩ | ⟨hle, hr, he⟩
  · have hrun' : t.transferComplete = false := by rw [ht, he]; exact hrun
    rw [hrun', if_neg Bool.false_ne_true]
    refine ⟨hct hrun', ?_⟩
    rw [ht, he]
    constructor
    · show 0 ≤ s.bytesRemaining - 1
      omega
    · intro _
      show ((s.pos + 1 : Nat) : Int) + (s.bytesRemaining - 1) = len
      omega
    · exact fun _ hne => absurd rfl hne
    · exact nofun
    · exact fun _ => ⟨s.pos, rfl, rfl, hacked⟩
    · exact fun hr => absurd hr hread
    · exact fun hr => absurd hr hread
    · exact nofun
    · exact nofun
  · have hdone : t.transferComplete = true := by rw [ht, he]
    rw [hdone, if_pos rfl, ht, he]
    have hrx : rx = 0 := by
      have := hcounts.2
      omega
    refine ⟨?_, by rw [hrx]; exact Nat.zero_le _, by rw [hrx]; rfl⟩
    show s.acked = _
    rw [hacked]
    congr 1
    omega
  · have hrun' : t.transferComplete = false := by rw [ht, he]; exact hrun
    rw [hrun', if_neg Bool.false_ne_true]
    refine ⟨hct hrun', ?_⟩
    have hone : ~~~ s.rdnWr &&& 1 = 1 := by rw [hw]; decide
    rw [ht, he]
    constructor
    · exact hnn
    · exact fun hz => absurd (hz.symm.trans hone) zero_ne_one
    · exact fun hz => absurd (hz.symm.trans hone) zero_ne_one
    · exact nofun
    · exact nofun
    · intro _
      refine ⟨rfl, ?_⟩
      show s.acked = _
      rw [hacked]
      congr 1
      omega
    · exact fun _ _ => rfl
    · exact nofun
    · exact nofun

theorem follows_sendAddress (h : Counted rx s) (hf : Follows buffer len s)
    (hd : s.phase ≠ .sendData) (hr : s.phase ≠ .receive)
    (ht : t = ({ s with dat := lis3l ||| s.rdnWr } : State).sendAddress) :
    Follows buffer len t := by
  rw [ht, sendAddress_eq h.direction]
  split
  · rename_i hw
    have hread : s.rdnWr ≠ 1 := fun hr => zero_ne_one (hw.symm.trans hr)
    exact ⟨hf.nonneg, hf.write, fun _ _ => hf.writeStart hw hd, fun _ _ => rfl, nofun,
      fun hr => absurd hr hread, fun hr => absurd hr hread, fun hr => absurd hr hread, nofun⟩
  · rename_i hw
    exact ⟨hf.nonneg, fun hz => absurd hz hw, fun hz => absurd hz hw, fun hz => absurd hz hw, nofun,
      hf.read, fun hone _ => hf.readStart hone hr, fun _ _ => rfl, nofun⟩

/-- A byte is received: stored and acknowledged, or the one behind the answer. -/
theorem follows_received (h : Counted rx s) (hf : Follows buffer len s) {ack : Bool} {b : UInt8}
    (hs : step buffer s (.dataReceived ack b) = some t) : Outcome buffer len rx t := by
  unfold Outcome
  obtain ⟨hrun, hconf, ht⟩ := step_eq hs
  simp only [State.conforming, Bool.and_eq_true, decide_eq_true_eq] at hconf
  obtain ⟨hw, haa⟩ := h.receive hconf.1
  obtain ⟨hpos, hacked⟩ := hf.read hw
  have hsent := hf.receive hconf.1
  have hwrite : s.rdnWr ≠ 0 := fun hz => zero_ne_one (hz.symm.trans hw)
  cases ack with
  | false =>
    have hall : s.rxWrPos = rx := by
      have hz : s.rxBytesRemaining = 0 := by
        apply Decidable.byContradiction
        intro hne
        rw [haa.mpr hne] at hconf
        exact absurd hconf.2 (by decide)
      have hsum := (h.of_reading hw).2
      omega
    rw [step_last hs, if_pos rfl]
    refine ⟨hacked, ?_, ?_⟩
    · show rx ≤ (s.sent ++ [b]).length
      rw [hsent, hall, List.length_append, bytes_length]
      exact Nat.le_add_right _ _
    · show bytes s.rxBuffer rx = (s.sent ++ [b]).take rx
      rw [hsent, hall, List.take_append_of_le_length (Nat.le_of_eq (bytes_length _ _).symm),
        List.take_of_length_le (Nat.le_of_eq (bytes_length _ _))]
  | true =>
    have hrun' : t.transferComplete = false := by
      rw [ht]
      exact hrun
    rw [hrun', if_neg Bool.false_ne_true]
    refine ⟨h.of_step hs hrun', ?_⟩
    rw [ht]
    constructor
    · exact hf.nonneg
    · exact hf.write
    · exact fun hz => absurd hz hwrite
    · exact nofun
    · exact nofun
    · exact hf.read
    · exact fun _ hne => absurd rfl hne
    · exact nofun
    · intro _
      show s.sent ++ [b] = bytes (Function.update s.rxBuffer s.rxWrPos b) (s.rxWrPos + 1)
      rw [bytes_update, hsent]

theorem Follows.of_step (h : Counted rx s) (hf : Follows buffer len s) (hc : Retriable s c)
    (hs : step buffer s c = some t) : Outcome buffer len rx t := by
  have hgoes (hrun' : t.transferComplete = false) (hf' : Follows buffer len t) :
      Outcome buffer len rx t := by
    unfold Outcome
    rw [hrun', if_neg Bool.false_ne_true]
    exact ⟨h.of_step hs hrun', hf'⟩
  obtain ⟨hrun, hconf, ht⟩ := step_eq hs
  cases c with
  | start =>
    have hphase : s.phase = .start := of_decide_eq_true hconf
    have hf' := follows_sendAddress h hf (by rw [hphase]; decide) (by rw [hphase]; decide) ht
    exact hgoes (by rw [ht]; exact (sendAddress_transferComplete _).trans hrun) hf'
  | repeatedStart =>
    have hphase : s.phase = .repeatedStart := of_decide_eq_true hconf
    have hf' := follows_sendAddress h hf (by rw [hphase]; decide) (by rw [hphase]; decide) ht
    exact hgoes (by rw [ht]; exact (sendAddress_transferComplete _).trans hrun) hf'
  | slaW ack =>
    simp only [State.conforming, Bool.and_eq_true, decide_eq_true_eq] at hconf
    have hw := h.writing hconf.1 hconf.2
    have hpos := hf.writeStart hw (by rw [hconf.1]; decide)
    have harr : Counted rx (s.arrive (.slaW ack)) :=
      ⟨h.sto, h.counts, h.address, h.sendData, h.receive, h.running⟩
    apply follows_transmit harr hw hf.nonneg (hf.write hw) _ hrun ht
    show s.acked = bytes buffer s.pos
    rw [hf.writeAddress hw hconf.1, hpos]
    rfl
  | dataSent ack =>
    obtain rfl : ack = true := hc
    simp only [State.conforming, Bool.and_eq_true, decide_eq_true_eq] at hconf
    have hw := h.sendData hconf.1
    obtain ⟨n, hpos, hdat, hacked⟩ := hf.sendData hconf.1
    have harr : Counted rx (s.arrive (.dataSent true)) :=
      ⟨h.sto, h.counts, h.address, h.sendData, h.receive, h.running⟩
    apply follows_transmit harr hw hf.nonneg (hf.write hw) _ hrun ht
    show s.acked ++ [s.dat] = bytes buffer s.pos
    rw [hacked, hdat, hpos, bytes_succ]
  | arbitrationLost =>
    have he : t = { s with sta := true, phase := .start } := ht
    apply hgoes (by rw [he]; exact hrun)
    rw [he]
    exact ⟨hf.nonneg, hf.write, fun _ _ => hc.1, nofun, nofun, hf.read, fun _ _ => hc.2, nofun,
      nofun⟩
  | slaR ack =>
    simp only [State.conforming, Bool.and_eq_true, decide_eq_true_eq] at hconf
    have hw := h.reading hconf.1 hconf.2
    have hwrite : s.rdnWr ≠ 0 := fun hz => zero_ne_one (hz.symm.trans hw)
    have hstart := hf.readStart hw (by rw [hconf.1]; decide)
    cases ack with
    | false =>
      have he := step_refused h.sto hs
      apply hgoes (by rw [he]; exact hrun)
      rw [he]
      exact ⟨hf.nonneg, hf.write, fun hz => absurd hz hwrite, nofun, nofun, hf.read,
        fun _ _ => hstart, nofun, nofun⟩
    | true =>
      apply hgoes (by rw [ht]; exact hrun)
      rw [ht]
      refine ⟨hf.nonneg, hf.write, fun hz => absurd hz hwrite, nofun, nofun, hf.read,
        fun _ hne => absurd rfl hne, nofun, fun _ => ?_⟩
      show s.sent = bytes s.rxBuffer s.rxWrPos
      rw [hf.readAddress hw hconf.1, hstart]
      rfl
  | dataReceived ack b => exact follows_received h hf hs

theorem outcome_call (buffer : Nat → UInt8) (len rx : Nat) (rxComplete : Bool)
    (rxBuffer : Nat → UInt8) (aa : Bool) (dat : UInt8) :
    Outcome buffer len rx (call len rx rxComplete rxBuffer aa dat) := by
  have hcounted : Counted rx (call len rx rxComplete rxBuffer aa dat) :=
    ⟨rfl, Or.inl ⟨rfl, rfl, rfl⟩, nofun, nofun, nofun, nofun⟩
  refine ⟨hcounted, Int.natCast_nonneg len, fun _ => Int.zero_add _, fun _ _ => rfl, nofun, nofun,
    ?_, ?_, nofun, nofun⟩
  · exact fun hr => absurd hr zero_ne_one
  · exact fun hr => absurd hr zero_ne_one

/-- In every run of statuses of a conforming bus in which no data byte is refused and the
arbitration is lost only before the first byte of its direction: when the transfer
returns, the slave has acknowledged the request since it was last addressed for writing,
and the bytes it sent since it was last addressed for reading are in the buffer. No byte
is stored at `rx` or behind it. -/
theorem transfer_survives {rxComplete aa : Bool} {rxBuffer : Nat → UInt8} {dat : UInt8}
    {cs : List Status}
    (hc : Along Retriable (step buffer) (call len rx rxComplete rxBuffer aa dat) cs)
    (ht : exec (step buffer) (call len rx rxComplete rxBuffer aa dat) cs = some t) :
    (t.transferComplete = true → Delivered buffer len rx t) ∧
      ∀ b u, step buffer t (.dataReceived true b) = some u → t.rxWrPos < rx := by
  have hout : Outcome buffer len rx t := by
    apply inv_of_along _ (outcome_call buffer len rx rxComplete rxBuffer aa dat) hc ht
    intro s c u hI hP hs
    unfold Outcome at hI
    rw [(step_eq hs).1, if_neg Bool.false_ne_true] at hI
    exact Follows.of_step hI.1 hI.2 hP hs
  unfold Outcome at hout
  constructor
  · intro hdone
    rwa [hdone, if_pos rfl] at hout
  · intro b u hs
    rw [(step_eq hs).1, if_neg Bool.false_ne_true] at hout
    exact hout.1.rxWrPos_lt hs

/-- One register byte is written and one read; the arbitration is lost with the first
address and the answering slave refuses its address once. -/
def retriedRead : List Status :=
  [.start, .arbitrationLost, .start, .slaW true, .dataSent true, .repeatedStart, .slaR false,
    .repeatedStart, .slaR true, .dataReceived true 7, .dataReceived false 9]

theorem retriedRead_delivered :
    ∃ t, exec (step fun _ => 0x28) (call 1 1 false (fun _ => 0) false 0) retriedRead = some t ∧
      t.transferComplete = true ∧ t.rxBuffer 0 = 7 ∧ Delivered (fun _ => 0x28) 1 1 t := by
  have hc : Along Retriable (step fun _ => 0x28) (call 1 1 false (fun _ => 0) false 0)
      retriedRead := by
    decide
  exact ⟨_, rfl, rfl, rfl, (transfer_survives hc rfl).1 rfl⟩

/-- The arbitration is lost with the second byte, and the transfer ends with the write
address acknowledged again and nothing behind it; a refused address has the request of
one byte end with that byte refused. -/
theorem restart_truncates :
    (∃ t, exec (step UInt8.ofNat) (call 2 0 false (fun _ => 0) false 0)
        [.start, .slaW true, .dataSent true, .arbitrationLost, .start, .slaW true] = some t ∧
      t.transferComplete = true ∧ t.acked = [] ∧ ¬ Delivered UInt8.ofNat 2 0 t) ∧
    ∃ t, exec (step UInt8.ofNat) (call 1 0 false (fun _ => 0) false 0)
        [.start, .slaW false, .dataSent false] = some t ∧
      t.transferComplete = true ∧ t.acked = [] ∧ ¬ Delivered UInt8.ofNat 1 0 t := by
  constructor
  · refine ⟨_, rfl, rfl, rfl, fun h => ?_⟩
    exact absurd h.1 (by decide)
  · refine ⟨_, rfl, rfl, rfl, fun h => ?_⟩
    exact absurd h.1 (by decide)

end Plak1a.Accelerometer.Transfer
