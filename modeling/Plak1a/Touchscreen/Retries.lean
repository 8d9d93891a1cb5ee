import Plak1a.Touchscreen.GetAdc
import Plak1a.Touchscreen.Splice

/-!
# What `GetADC` returns after bus retries

The transfer stores the bytes that its schedule of statuses says, whatever the converter sends.
With every restart at an even number of bytes they are words of single blocks. A restart at an
odd number joins high bytes of two blocks, and the channel in the first one does not tell.
-/

namespace Plak1a.Touchscreen.Retries

open Lib.Run I2c GetAdc Splice
open Accelerometer.I2c (Phase State)

/-- The bus in a state of the transfer. -/
structure Follows (conv : Converter) (s : Bus) (p : Transfer) : Prop where
  phase : s.i2c.phase = p.phase
  complete : s.i2c.transferComplete = p.complete
  blocks : s.blocks = p.blocks
  pos : s.i2c.rxWrPos = p.stored
  left : s.i2c.rxBytesRemaining = 8 - (p.stored : Int)
  sto : p.complete = false → s.i2c.sto = false
  address : p.phase = .address → s.i2c.dat &&& 1 = 1 ∧ s.i2c.sent = []
  receive : p.phase = .receive →
    s.i2c.aa = decide (p.stored < 8) ∧ s.i2c.sent.length = p.place
  sendData : p.phase ≠ .sendData
  bytes : ∀ i < p.stored, s.i2c.rxBuffer i = conv.byte (p.source i).1 (p.source i).2
  record : ∀ i < p.stored, p.source i ∈ s.record

variable {conv : Converter} {buffer : Nat → UInt8} {s t : Bus} {p q : Transfer} {e : Event}

theorem follows_call (conv : Converter) (before : State) : Follows conv (call before) start :=
  ⟨rfl, rfl, rfl, rfl, rfl, fun _ => rfl, nofun, nofun, nofun, nofun, nofun⟩

/-- What can come next does not depend on the data. -/
theorem conforming_eq (h : Follows conv s p) (e : Event) (b : UInt8) :
    s.i2c.conforming (e.status b) = p.enabled e := by
  cases e with
  | start => exact congrArg (fun phase => decide (phase = Phase.start)) h.phase
  | repeatedStart => exact congrArg (fun phase => decide (phase = Phase.repeatedStart)) h.phase
  | arbitrationLost => exact congrArg (fun phase => decide (phase ≠ Phase.off)) h.phase
  | slaW ack =>
    show (decide (s.i2c.phase = .address) && decide (s.i2c.dat &&& 1 = 0)) = false
    rw [h.phase]
    by_cases ha : p.phase = .address
    · rw [(h.address ha).1]
      exact Bool.and_false _
    · rw [decide_eq_false ha]
      rfl
  | slaR ack =>
    show (decide (s.i2c.phase = .address) && decide (s.i2c.dat &&& 1 = 1)) =
      decide (p.phase = .address)
    rw [h.phase]
    by_cases ha : p.phase = .address
    · rw [(h.address ha).1]
      exact Bool.and_true _
    · rw [decide_eq_false ha]
      rfl
  | dataSent ack =>
    show (decide (s.i2c.phase = .sendData) && (s.i2c.addressed || !ack)) = false
    rw [h.phase, decide_eq_false h.sendData]
    rfl
  | dataReceived ack =>
    show (decide (s.i2c.phase = .receive) && decide (s.i2c.aa = ack)) =
      (decide (p.phase = .receive) && decide (decide (p.stored < 8) = ack))
    rw [h.phase]
    by_cases hr : p.phase = .receive
    · rw [(h.receive hr).1]
    · rw [decide_eq_false hr]
      rfl

theorem address_reads : address &&& 1 = 1 := by decide

/-- The address goes out, for reading. -/
theorem follows_address (h : Follows conv s p) :
    Follows conv { s with i2c := ({ s.i2c with dat := address } : State).sendAddress }
      { p with phase := .address, place := 0 } := by
  have he : ({ s.i2c with dat := address } : State).sendAddress =
      { s.i2c with dat := address, phase := .address, sent := [] } :=
    if_neg (show ¬ address &&& 1 = 0 by decide)
  rw [he]
  exact ⟨rfl, h.complete, h.blocks, h.pos, h.left, h.sto, fun _ => ⟨address_reads, rfl⟩, nofun,
    nofun, h.bytes, h.record⟩

theorem follows_refused (h : Follows conv s p) (hrunning : p.complete = false) :
    Follows conv
      { s with i2c := ({ s.i2c with addressed := false, sta := true } : State).condition .off }
      { p with phase := .repeatedStart } := by
  have he : ({ s.i2c with addressed := false, sta := true } : State).condition .off =
      { s.i2c with addressed := false, sta := true, phase := .repeatedStart } := by
    simp only [State.condition, h.sto hrunning, Bool.false_eq_true, if_false, if_true]
  rw [he]
  exact ⟨rfl, h.complete, h.blocks, h.pos, h.left, h.sto, nofun, nofun, nofun, h.bytes, h.record⟩

/-- The address is acknowledged and a block begins. -/
theorem follows_accepted (h : Follows conv s p) (ho : Ordered p) (hphase : p.phase = .address) :
    Follows conv
      { s with
        i2c := { s.i2c with
          addressed := true, aa := s.i2c.rxBytesRemaining ≠ 0, sta := false, phase := .receive }
        blocks := s.blocks + 1 }
      (p.next (.slaR true)) := by
  have hle := ho.le
  refine ⟨rfl, h.complete, congrArg (· + 1) h.blocks, h.pos, h.left, h.sto, nofun,
    fun _ => ⟨?_, ?_⟩, nofun, h.bytes, h.record⟩
  · show decide (s.i2c.rxBytesRemaining ≠ 0) = decide (p.stored < 8)
    rw [h.left]
    exact decide_eq_decide.mpr (by omega)
  · show s.i2c.sent.length = p.place
    rw [(h.address hphase).2, ho.address hphase]
    rfl

/-- A byte is stored. -/
theorem follows_stored (h : Follows conv s p) (hphase : p.phase = .receive)
    (hlt : p.stored < 8) {b : UInt8} (hb : b = conv.byte s.blocks s.i2c.sent.length) :
    Follows conv
      { s with
        i2c := { s.i2c with
          dat := b, sent := s.i2c.sent ++ [b]
          rxBuffer := Function.update s.i2c.rxBuffer s.i2c.rxWrPos b
          rxWrPos := s.i2c.rxWrPos + 1
          rxBytesRemaining := s.i2c.rxBytesRemaining - 1
          aa := s.i2c.rxBytesRemaining - 1 ≠ 0, sta := false, phase := .receive }
        record := s.record ++ [(s.blocks, s.i2c.sent.length)] }
      (p.next (.dataReceived true)) := by
  have hlength := (h.receive hphase).2
  rw [h.blocks, hlength] at hb
  constructor
  · exact hphase.symm
  · exact h.complete
  · exact h.blocks
  · exact congrArg (· + 1) h.pos
  · show s.i2c.rxBytesRemaining - 1 = 8 - ((p.stored + 1 : Nat) : Int)
    rw [h.left]
    omega
  · exact h.sto
  · exact fun ha => absurd (hphase.symm.trans ha) nofun
  · refine fun _ => ⟨?_, ?_⟩
    · show decide (s.i2c.rxBytesRemaining - 1 ≠ 0) = decide (p.stored + 1 < 8)
      rw [h.left]
      exact decide_eq_decide.mpr (by omega)
    · show (s.i2c.sent ++ [b]).length = p.place + 1
      rw [List.length_append, hlength]
      rfl
  · exact h.sendData
  · intro i hi
    show Function.update s.i2c.rxBuffer s.i2c.rxWrPos b i =
      conv.byte (Function.update p.source p.stored (p.blocks, p.place) i).1
        (Function.update p.source p.stored (p.blocks, p.place) i).2
    rw [h.pos]
    obtain rfl | hi := Nat.eq_or_lt_of_le (Nat.le_of_lt_succ hi)
    · rw [Function.update_self, Function.update_self, hb]
    · rw [Function.update_of_ne (Nat.ne_of_lt hi), Function.update_of_ne (Nat.ne_of_lt hi)]
      exact h.bytes i hi
  · intro i hi
    show Function.update p.source p.stored (p.blocks, p.place) i ∈
      s.record ++ [(s.blocks, s.i2c.sent.length)]
    rw [h.blocks, hlength]
    obtain rfl | hi := Nat.eq_or_lt_of_le (Nat.le_of_lt_succ hi)
    · rw [Function.update_self]
      exact List.mem_append_right _ List.mem_cons_self
    · rw [Function.update_of_ne (Nat.ne_of_lt hi)]
      exact List.mem_append_left _ (h.record i hi)

/-- The byte behind the eighth ends the transfer. -/
theorem follows_last (h : Follows conv s p) (b : UInt8) (record : List (Nat × Nat)) :
    Follows conv
      { s with
        i2c := { s.i2c with
          dat := b, sent := s.i2c.sent ++ [b], rxComplete := true, transferComplete := true
          sta := false, sto := false, phase := .off }
        record := s.record ++ record }
      (p.next (.dataReceived false)) :=
  ⟨rfl, rfl, h.blocks, h.pos, h.left, nofun, nofun, nofun, nofun, h.bytes,
    fun i hi => List.mem_append_left _ (h.record i hi)⟩

theorem follows_step (h : Follows conv s p) (ho : Ordered p) (hrunning : p.complete = false)
    (he : p.enabled e = true) {b : UInt8} (hb : b = conv.byte s.blocks s.i2c.sent.length) :
    Follows conv
      (s.answer ((handle buffer (s.i2c.arrive (e.status b)) (e.status b)).resume (e.status b)) e)
      (p.next e) := by
  cases e with
  | start => exact follows_address h
  | repeatedStart => exact follows_address h
  | slaW ack => nomatch he
  | dataSent ack => nomatch he
  | arbitrationLost =>
    exact ⟨rfl, h.complete, h.blocks, h.pos, h.left, h.sto, nofun, nofun, nofun, h.bytes, h.record⟩
  | slaR ack =>
    cases ack with
    | false => exact follows_refused h hrunning
    | true => exact follows_accepted h ho (of_decide_eq_true he)
  | dataReceived ack =>
    cases ack with
    | false => exact follows_last h b _
    | true =>
      have hlt := ((Bool.and_eq_true_iff).mp he).2
      exact follows_stored h (receiving_of_enabled he) (by simpa using hlt) hb

/-- The bus and the transfer take the same events. -/
theorem follows_rel (h : Follows conv s p ∧ Ordered p) (e : Event) :
    Option.Rel (fun s p => Follows conv s p ∧ Ordered p) (step buffer conv s e) (p.step e) := by
  obtain ⟨hf, ho⟩ := h
  rw [step, Transfer.step]
  simp only [conforming_eq hf, hf.complete]
  cases hc : p.complete with
  | true => exact .none
  | false =>
    cases he : p.enabled e with
    | false => exact .none
    | true =>
      have hs : p.step e = some (p.next e) := if_pos ⟨hc, he⟩
      exact .some ⟨follows_step hf ho hc he rfl, ho.of_step hs⟩

theorem exec_follows (buffer : Nat → UInt8) (conv : Converter) (before : State)
    (events : List Event) :
    Option.Rel (fun s p => Follows conv s p ∧ Ordered p)
      (exec (step buffer conv) (call before) events) (exec Transfer.step start events) :=
  exec_rel (fun _ _ e h => follows_rel h e) ⟨follows_call conv before, ordered_start⟩ events

/-- The value is the result of a word for the channel that the converter has sent in one
block. -/
def Genuine (conv : Converter) (s : Bus) (channel : Int32) (value : UInt32) : Prop :=
  ∃ n k, k < 4 ∧ (n, 2 * k) ∈ s.record ∧ (n, 2 * k + 1) ∈ s.record ∧
    Int32.ofNat (conv.channel n k) = channel ∧ value = (conv.field n k).toUInt32

/-- The schedule of a transfer from its first start to its end. -/
def Completes (events : List Event) : Prop :=
  ∃ buffer conv before t, exec (step buffer conv) (call before) events = some t ∧
    t.i2c.transferComplete = true

/-- The claim for a schedule: whatever the converter sends, `GetADC` returns -1 or a value that
was sent. -/
def Survives (events : List Event) : Prop :=
  ∀ buffer conv before t, exec (step buffer conv) (call before) events = some t →
    t.i2c.transferComplete = true → ∀ channel, getAdc t.i2c.rxBuffer channel ≠ -1 →
      Genuine conv t channel (getAdc t.i2c.rxBuffer channel)

theorem genuine_of_aligned (h : Follows conv s p) (ho : Ordered p) (hstored : p.stored = 8)
    (ha : Aligned p) {channel : Int32} (hvalue : getAdc s.i2c.rxBuffer channel ≠ -1) :
    Genuine conv s channel (getAdc s.i2c.rxBuffer channel) := by
  obtain ⟨w, hw, hchannel, hget⟩ := getAdc_found hvalue
  obtain ⟨n, k, hk, hhigh, hlow⟩ := words_of_aligned ho hstored ha hw
  have hbyte := h.bytes (2 * w) (by omega)
  have hbyte' := h.bytes (2 * w + 1) (by omega)
  rw [hhigh] at hbyte
  rw [hlow] at hbyte'
  have hword := joined_word hbyte hbyte'
  refine ⟨n, k, hk, ?_, ?_, ?_, ?_⟩
  · rw [← hhigh]
    exact h.record (2 * w) (by omega)
  · rw [← hlow]
    exact h.record (2 * w + 1) (by omega)
  · rw [← hchannel, channelOf_of_joined hword]
  · rw [hget, field_of_joined hword]

/-- A converter with one word for channel 3, whose result is 0, and one for channel 0. -/
def splice (m k n : Nat) : Converter where
  word := fun a b => if a = m ∧ b = k then 0x3000 else if a = n ∧ b = 0 then 0x0C00 else 0

section
variable {m k n : Nat}

/-- The word for channel 3 is the only one. -/
theorem splice_channel {a b : Nat} (h : Int32.ofNat ((splice m k n).channel a b) = 3) :
    (splice m k n).field a b = 0 := by
  have hcases : (splice m k n).word a b = 0x3000 ∨ (splice m k n).word a b = 0x0C00 ∨
      (splice m k n).word a b = 0 := by
    simp only [splice]
    split
    · exact .inl rfl
    · split
      · exact .inr (.inl rfl)
      · exact .inr (.inr rfl)
  rw [Converter.channel] at h
  rw [Converter.field]
  obtain hword | hword | hword := hcases
  · rw [hword]
    decide
  · rw [hword] at h
    exact absurd h (by decide)
  · rw [hword] at h
    exact absurd h (by decide)

theorem splice_word : ((splice m k n).byte m (2 * k)).toNat = 0x30 := by
  rw [toNat_byte_high, splice]
  simp only [and_self, if_true]
  decide

theorem splice_first (hmn : m < n) : ((splice m k n).byte n 0).toNat = 0x0C := by
  have hne : n ≠ m := Nat.ne_of_gt hmn
  rw [show (0 : Nat) = 2 * 0 from rfl, toNat_byte_high, splice]
  simp only [hne, false_and, if_false, and_self, if_true]
  decide

/-- No other high byte has channel 3. -/
theorem splice_other {x : Nat × Nat} (heven : x.2 % 2 = 0) (hne : x ≠ (m, 2 * k)) :
    ((splice m k n).byte x.1 x.2).toNat ≤ 0x0C := by
  obtain ⟨a, o⟩ := x
  obtain ⟨b, rfl⟩ : ∃ b, o = 2 * b := ⟨o / 2, by show o = 2 * (o / 2); omega⟩
  have hword : ¬ (a = m ∧ b = k) := by
    intro ⟨ha, hb⟩
    rw [ha, hb] at hne
    exact hne rfl
  rw [toNat_byte_high, splice]
  simp only [hword, if_false]
  split <;> decide

end

/-- The result spliced from two blocks is not one of channel 3. -/
theorem not_genuine_of_splice {w m k n : Nat} (h : Follows (splice m k n) s p)
    (hstored : p.stored = 8) (hw : w < 4) (hmn : m < n) (hhigh : p.source (2 * w) = (m, 2 * k))
    (hlow : p.source (2 * w + 1) = (n, 0))
    (hbefore : ∀ v < w, (p.source (2 * v)).2 % 2 = 0 ∧ Before (p.source (2 * v)) (m, 2 * k)) :
    getAdc s.i2c.rxBuffer 3 ≠ -1 ∧ ¬ Genuine (splice m k n) s 3 (getAdc s.i2c.rxBuffer 3) := by
  have hword : (joined s.i2c.rxBuffer (2 * w)).toNat = 0x300C := by
    rw [joined_toNat, h.bytes (2 * w) (by omega), h.bytes (2 * w + 1) (by omega), hhigh, hlow,
      splice_word, splice_first hmn]
    rfl
  have hjoined : joined s.i2c.rxBuffer (2 * w) = 0x300C := UInt32.toNat_inj.mp hword
  have hget : getAdc s.i2c.rxBuffer 3 = 0x00C := by
    rw [getAdc_first hw (by rw [hjoined]; decide), hjoined]
    · rfl
    · intro v hv hchannel
      obtain ⟨heven, hlt⟩ := hbefore v hv
      have hne : p.source (2 * v) ≠ (m, 2 * k) := by
        intro he
        rw [he] at hlt
        obtain hlt | ⟨-, hlt⟩ := hlt <;> exact Nat.lt_irrefl _ hlt
      have hle := splice_other (n := n) heven hne
      rw [← h.bytes (2 * v) (by omega)] at hle
      have hlast := (s.i2c.rxBuffer (2 * v + 1)).toNat_lt
      rw [channelOf_eq, joined_toNat,
        show ((s.i2c.rxBuffer (2 * v)).toNat * 2 ^ 8 +
          (s.i2c.rxBuffer (2 * v + 1)).toNat) / 2 ^ 12 % 2 ^ 2 = 0 from by omega] at hchannel
      exact absurd hchannel (by decide)
  rw [hget]
  refine ⟨by decide, ?_⟩
  intro ⟨a, b, _, _, _, hchannel, hvalue⟩
  rw [splice_channel hchannel] at hvalue
  exact absurd hvalue (by decide)

/-- The transfer of a schedule, which all its runs follow. -/
theorem transfer_of_completes {events : List Event} (h : Completes events) :
    ∃ p, exec Transfer.step start events = some p ∧ p.complete = true := by
  obtain ⟨buffer, conv, before, t, ht, hcomplete⟩ := h
  have hrel := exec_follows buffer conv before events
  rw [ht] at hrel
  generalize exec Transfer.step start events = r at hrel ⊢
  cases hrel with
  | some hf => exact ⟨_, rfl, hf.1.complete.symm.trans hcomplete⟩

theorem survives_iff {events : List Event} (h : Completes events) :
    Survives events ↔ EvenRestarts events := by
  obtain ⟨p, hp, hcomplete⟩ := transfer_of_completes h
  have hordered := ordered_exec hp
  have hstored := hordered.complete hcomplete
  have hrel := fun buffer conv before => exec_follows buffer conv before events
  simp only [hp] at hrel
  rw [← aligned_iff hp hcomplete]
  constructor
  · intro hsurvives
    by_contra hnot
    obtain ⟨w, m, k, n, hw, hmn, hhigh, hlow, hbefore⟩ :=
      splice_of_not_aligned hordered hstored hnot
    obtain ⟨buffer, -, before, -⟩ := h
    have hf := hrel buffer (splice m k n) before
    cases ht : exec (step buffer (splice m k n)) (call before) events with
    | none =>
      rw [ht] at hf
      nomatch hf
    | some t =>
      rw [ht] at hf
      cases hf with
      | some hf =>
        obtain ⟨hvalue, hnot⟩ :=
          not_genuine_of_splice hf.1 hstored hw hmn hhigh hlow hbefore
        exact hnot (hsurvives buffer _ before t ht (hf.1.complete.trans hcomplete) 3 hvalue)
  · intro ha buffer conv before t ht _ channel hvalue
    have hf := hrel buffer conv before
    rw [ht] at hf
    cases hf with
    | some hf => exact genuine_of_aligned hf.1 hordered hstored ha hvalue

/-- The address is refused once and the arbitration is lost behind the first word. -/
def retried : List Event :=
  [.start, .slaR false, .repeatedStart, .slaR true, .dataReceived true, .dataReceived true,
    .arbitrationLost, .start, .slaR true] ++
    List.replicate 6 (.dataReceived true) ++ [.dataReceived false]

/-- The state before the first transfer. -/
def reset : State where
  pos := 0
  bytesRemaining := 0
  rxWrPos := 0
  rxBytesRemaining := 0
  rxComplete := false
  rdnWr := 0
  transferComplete := false
  rxBuffer := fun _ => 0
  sta := false
  sto := false
  aa := false
  dat := 0
  phase := .off
  addressed := false
  acked := []
  sent := []

/-- All channels in order, each at full scale. -/
def fullScale : Converter := ⟨fun _ k => UInt16.ofNat (k * 0x1000 + 0x0FFC)⟩

theorem survives_retried : Completes retried ∧ Survives retried := by
  have hcompletes : Completes retried := ⟨fun _ => 0, fullScale, reset, _, rfl, rfl⟩
  exact ⟨hcompletes, (survives_iff hcompletes).mpr (by decide)⟩

/-- The arbitration is lost behind the first byte. -/
def lost : List Event :=
  [.start, .slaR true, .dataReceived true, .arbitrationLost, .start, .slaR true] ++
    List.replicate 7 (.dataReceived true) ++ [.dataReceived false]

/-- The high bytes of channel 0 in both blocks make 0x0F0C, where all results are 0x0FFC. -/
theorem lost_not_survives : (∃ t, exec (step (fun _ => 0) fullScale) (call reset) lost = some t ∧
    t.i2c.transferComplete = true ∧ getAdc t.i2c.rxBuffer 0 = 0x0F0C) ∧ ¬ Survives lost := by
  have hrun : ∃ t, exec (step (fun _ => 0) fullScale) (call reset) lost = some t ∧
      t.i2c.transferComplete = true ∧ getAdc t.i2c.rxBuffer 0 = 0x0F0C :=
    ⟨_, rfl, rfl, by decide⟩
  refine ⟨hrun, fun h => ?_⟩
  obtain ⟨t, ht, hcomplete, hget⟩ := hrun
  have hgenuine := h _ fullScale reset t ht hcomplete 0
  rw [hget] at hgenuine
  obtain ⟨n, k, hk, -, -, -, hvalue⟩ := hgenuine (by decide)
  have hfield : ∀ k < 4, (fullScale.field n k).toUInt32 = 0x0FFC := by
    show ∀ k < 4, (UInt16.ofNat (k * 0x1000 + 0x0FFC) &&& 0x0FFC).toUInt32 = 0x0FFC
    decide
  rw [hfield k hk] at hvalue
  exact absurd hvalue (by decide)

end Plak1a.Touchscreen.Retries
