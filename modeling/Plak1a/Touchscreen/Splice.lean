import Mathlib.Logic.Function.Basic
import Mathlib.Data.Nat.Find
import Plak1a.Lib.Run
import Plak1a.Touchscreen.I2c

/-!
# Where the bytes of a transfer come from

What a transfer stores depends on the statuses alone: byte by byte the block it comes from and
its place there. A restart goes on at the same place of the buffer with the first byte of the
next block, so that buffer and block keep the same parity as long as every restart finds an even
number of bytes.
-/

namespace Plak1a.Touchscreen.Splice

open Lib.Run
open Accelerometer.I2c (Phase)
open I2c (Event)

/-- The transfer without the data. -/
structure Transfer where
  phase : Phase
  complete : Bool
  /-- blocks begun -/
  blocks : Nat
  /-- bytes received of the current block -/
  place : Nat
  stored : Nat
  /-- block and place of each stored byte -/
  source : Nat → Nat × Nat

namespace Transfer

/-- What an event does when it comes. -/
def next (p : Transfer) : Event → Transfer
  | .start => { p with phase := .address, place := 0 }
  | .repeatedStart => { p with phase := .address, place := 0 }
  | .arbitrationLost => { p with phase := .start }
  | .slaR true => { p with phase := .receive, blocks := p.blocks + 1 }
  | .slaR false => { p with phase := .repeatedStart }
  | .dataReceived true =>
    { p with
      place := p.place + 1
      stored := p.stored + 1
      source := Function.update p.source p.stored (p.blocks, p.place) }
  | .dataReceived false => { p with phase := .off, complete := true }
  | _ => p

/-- The events of reading; a byte is acknowledged until eight are stored. -/
def enabled (p : Transfer) : Event → Bool
  | .start => p.phase = .start
  | .repeatedStart => p.phase = .repeatedStart
  | .arbitrationLost => p.phase ≠ .off
  | .slaR _ => p.phase = .address
  | .dataReceived ack => p.phase = .receive && decide (p.stored < 8) = ack
  | _ => false

def step (p : Transfer) (e : Event) : Option Transfer :=
  if p.complete = false ∧ p.enabled e = true then some (p.next e) else none

end Transfer

def start : Transfer := ⟨.start, false, 0, 0, 0, fun _ => (0, 0)⟩

variable {p q : Transfer} {e : Event} {events : List Event}

theorem step_eq (h : p.step e = some q) :
    p.complete = false ∧ p.enabled e = true ∧ q = p.next e := by
  rw [Transfer.step] at h
  obtain ⟨⟨hc, he⟩, hq⟩ := Option.ite_none_right_eq_some.mp h
  exact ⟨hc, he, (Option.some.inj hq).symm⟩

theorem receiving_of_enabled {ack : Bool} (h : p.enabled (.dataReceived ack) = true) :
    p.phase = .receive := of_decide_eq_true ((Bool.and_eq_true_iff).mp h).1

/-- Later in the record: a later block, or a later place of the same one. -/
def Before (x y : Nat × Nat) : Prop := x.1 < y.1 ∨ x.1 = y.1 ∧ x.2 < y.2

/-- The byte that follows: the next one of the block, or the first one of a later block. -/
def Continues (x y : Nat × Nat) : Prop := y = (x.1, x.2 + 1) ∨ x.1 < y.1 ∧ y.2 = 0

/-- The order of what is stored. -/
structure Ordered (p : Transfer) : Prop where
  le : p.stored ≤ 8
  complete : p.complete = true → p.stored = 8
  address : p.phase = .address → p.place = 0
  place_le : p.place ≤ p.stored
  current : ∀ i < p.stored, (p.source i).1 ≤ p.blocks
  receive : p.phase = .receive → ∀ i < p.stored, Before (p.source i) (p.blocks, p.place)
  last : p.phase = .receive → ∀ i, p.place = i + 1 → p.source (p.stored - 1) = (p.blocks, i)
  offset_le : ∀ i < p.stored, (p.source i).2 ≤ i
  before : ∀ j < p.stored, ∀ i < j, Before (p.source i) (p.source j)
  continues : ∀ i, i + 1 < p.stored → Continues (p.source i) (p.source (i + 1))

theorem ordered_start : Ordered start :=
  ⟨by decide, nofun, nofun, by decide, nofun, nofun, nofun, nofun, nofun, nofun⟩

/-- The byte that is stored next continues the ones before. -/
theorem Ordered.continues_next (h : Ordered p) (hreceive : p.phase = .receive) {i : Nat}
    (hi : i + 1 = p.stored) : Continues (p.source i) (p.blocks, p.place) := by
  cases hplace : p.place with
  | zero =>
    obtain hlt | ⟨-, hlt⟩ := h.receive hreceive i (by omega)
    · exact .inr ⟨hlt, rfl⟩
    · rw [hplace] at hlt
      exact absurd hlt (Nat.not_lt_zero _)
  | succ k =>
    have hlast := h.last hreceive k hplace
    rw [show p.stored - 1 = i from by omega] at hlast
    rw [hlast]
    exact .inl rfl

theorem Ordered.of_stored (h : Ordered p) (hphase : p.phase = .receive) (hlt : p.stored < 8) :
    Ordered (p.next (.dataReceived true)) := by
  have hnew : ∀ i, i < p.stored →
      (p.next (.dataReceived true)).source i = p.source i := fun i hi =>
    Function.update_of_ne (Nat.ne_of_lt hi) _ _
  have hself : (p.next (.dataReceived true)).source p.stored = (p.blocks, p.place) :=
    Function.update_self ..
  -- what holds of the stored bytes and of the new one holds of all
  have hall : ∀ P : Nat → Nat × Nat → Prop, (∀ i < p.stored, P i (p.source i)) →
      P p.stored (p.blocks, p.place) →
      ∀ i < p.stored + 1, P i ((p.next (.dataReceived true)).source i) := by
    intro P hold hlast i hi
    obtain heq | hi := Nat.eq_or_lt_of_le (Nat.le_of_lt_succ hi)
    · rw [heq, hself]
      exact hlast
    · rw [hnew i hi]
      exact hold i hi
  have hrunning : p.complete = false := by
    cases hc : p.complete with
    | false => rfl
    | true => exact absurd (h.complete hc) (Nat.ne_of_lt hlt)
  constructor
  · exact hlt
  · exact fun hc => absurd (hrunning.symm.trans hc) Bool.false_ne_true
  · exact fun ha => absurd (hphase.symm.trans ha) nofun
  · exact Nat.succ_le_succ h.place_le
  · exact hall (fun _ x => x.1 ≤ p.blocks) h.current (Nat.le_refl p.blocks)
  · refine fun _ => hall (fun _ x => Before x (p.blocks, p.place + 1)) (fun i hi => ?_)
      (.inr ⟨rfl, Nat.lt_succ_self _⟩)
    obtain hb | ⟨hb, ho⟩ := h.receive hphase i hi
    · exact .inl hb
    · exact .inr ⟨hb, Nat.lt_succ_of_lt ho⟩
  · intro _ i hi
    cases hi
    exact hself
  · exact hall (fun i x => x.2 ≤ i) h.offset_le h.place_le
  · refine hall (fun j x => ∀ i < j, Before ((p.next (.dataReceived true)).source i) x)
      (fun j hj i hi => ?_) (fun i hi => ?_)
    · rw [hnew i (Nat.lt_trans hi hj)]
      exact h.before j hj i hi
    · rw [hnew i hi]
      exact h.receive hphase i hi
  · intro i hi
    rw [hnew i (by exact Nat.lt_of_succ_lt_succ hi)]
    obtain heq | hlt := Nat.eq_or_lt_of_le (Nat.le_of_lt_succ hi)
    · rw [heq, hself]
      exact h.continues_next hphase heq
    · rw [hnew (i + 1) hlt]
      exact h.continues i hlt

theorem Ordered.of_step (h : Ordered p) (hs : p.step e = some q) : Ordered q := by
  obtain ⟨hrunning, henabled, rfl⟩ := step_eq hs
  cases e with
  | start =>
    exact ⟨h.le, h.complete, fun _ => rfl, Nat.zero_le _, h.current, nofun, nofun, h.offset_le,
      h.before, h.continues⟩
  | repeatedStart =>
    exact ⟨h.le, h.complete, fun _ => rfl, Nat.zero_le _, h.current, nofun, nofun, h.offset_le,
      h.before, h.continues⟩
  | slaW ack => nomatch henabled
  | dataSent ack => nomatch henabled
  | arbitrationLost =>
    exact ⟨h.le, h.complete, nofun, h.place_le, h.current, nofun, nofun, h.offset_le, h.before,
      h.continues⟩
  | slaR ack =>
    have hplace := h.address (of_decide_eq_true henabled)
    cases ack with
    | false =>
      exact ⟨h.le, h.complete, nofun, h.place_le, h.current, nofun, nofun, h.offset_le, h.before,
        h.continues⟩
    | true =>
      refine ⟨h.le, h.complete, nofun, h.place_le, ?_, ?_, ?_, h.offset_le, h.before, h.continues⟩
      · exact fun i hi => Nat.le_succ_of_le (h.current i hi)
      · exact fun _ i hi => .inl (Nat.lt_succ_of_le (h.current i hi))
      · exact fun _ i hi => absurd (hplace.symm.trans hi) nofun
  | dataReceived ack =>
    have hphase := receiving_of_enabled henabled
    have hack := ((Bool.and_eq_true_iff).mp henabled).2
    cases ack with
    | true => exact h.of_stored hphase (by simpa using hack)
    | false =>
      have hall : ¬ p.stored < 8 := by simpa using hack
      have height : p.stored = 8 := by
        have hle := h.le
        omega
      exact ⟨h.le, fun _ => height, nofun, h.place_le, h.current, nofun, nofun, h.offset_le,
        h.before, h.continues⟩

/-- High bytes at even places of the buffer, low bytes at odd ones. -/
def Aligned (p : Transfer) : Prop := ∀ i < p.stored, (p.source i).2 % 2 = i % 2

/-- Each acknowledged read address comes behind an even number of stored bytes. -/
def EvenRestarts (events : List Event) : Prop :=
  ∀ done, done ++ [.slaR true] <+: events → done.count (.dataReceived true) % 2 = 0

theorem evenRestarts_iff : EvenRestarts events ↔ ∀ n < events.length,
    events[n]? = some (.slaR true) → (events.take n).count (.dataReceived true) % 2 = 0 := by
  constructor
  · intro h n _ hn
    refine h (events.take n) ?_
    rw [← Option.toList_some, ← hn, ← List.take_add_one]
    exact List.take_prefix (n + 1) events
  · intro h done ⟨rest, hevents⟩
    rw [List.append_assoc] at hevents
    have hn := h done.length (by rw [← hevents]; simp) (by rw [← hevents]; simp)
    rwa [← hevents, List.take_left] at hn

instance (events : List Event) : Decidable (EvenRestarts events) :=
  decidable_of_iff _ evenRestarts_iff.symm

/-- Only an acknowledged data byte is stored. -/
theorem next_of_ne (p : Transfer) (he : e ≠ .dataReceived true) :
    (p.next e).stored = p.stored ∧ (p.next e).source = p.source := by
  cases e with
  | dataReceived ack =>
    cases ack with
    | true => exact absurd rfl he
    | false => exact ⟨rfl, rfl⟩
  | slaR ack => cases ack <;> exact ⟨rfl, rfl⟩
  | start => exact ⟨rfl, rfl⟩
  | repeatedStart => exact ⟨rfl, rfl⟩
  | slaW ack => exact ⟨rfl, rfl⟩
  | dataSent ack => exact ⟨rfl, rfl⟩
  | arbitrationLost => exact ⟨rfl, rfl⟩

theorem aligned_next (he : e ≠ .dataReceived true) : Aligned (p.next e) ↔ Aligned p := by
  obtain ⟨hstored, hsource⟩ := next_of_ne p he
  rw [Aligned, hstored, hsource]
  rfl

/-- Receiving begins with the acknowledged address and goes on with each acknowledged byte. -/
theorem receive_next (henabled : p.enabled e = true) (hphase : (p.next e).phase = .receive) :
    e = .slaR true ∨ e = .dataReceived true := by
  cases e with
  | slaR ack =>
    cases ack with
    | true => exact .inl rfl
    | false => nomatch hphase
  | dataReceived ack =>
    cases ack with
    | true => exact .inr rfl
    | false => nomatch hphase
  | start => nomatch hphase
  | repeatedStart => nomatch hphase
  | slaW ack => nomatch henabled
  | dataSent ack => nomatch henabled
  | arbitrationLost => nomatch hphase

theorem stored_next (p : Transfer) (e : Event) :
    (p.next e).stored = p.stored + if e = .dataReceived true then 1 else 0 := by
  by_cases he : e = .dataReceived true
  · rw [if_pos he, he]
    rfl
  · rw [if_neg he, (next_of_ne p he).1, Nat.add_zero]

theorem stored_exec (h : exec Transfer.step p events = some q) :
    q.stored = p.stored + events.count (.dataReceived true) := by
  induction events generalizing p with
  | nil =>
    cases h
    rfl
  | cons e events ih =>
    obtain ⟨r, hr, hrest⟩ := Option.bind_eq_some_iff.mp h
    obtain ⟨-, -, rfl⟩ := step_eq hr
    rw [ih hrest, stored_next, List.count_cons, Nat.add_assoc]
    congr 1
    rw [Nat.add_comm]
    simp only [beq_iff_eq]

theorem ordered_exec (h : exec Transfer.step start events = some q) : Ordered q :=
  inv_of_exec (fun _ _ _ hp hs => hp.of_step hs) ordered_start h

/-- Buffer and block go along in parity. -/
structure InStep (p : Transfer) : Prop where
  ordered : Ordered p
  aligned : Aligned p
  parity : p.phase = .receive → p.place % 2 = p.stored % 2

theorem Aligned.of_stored (h : Aligned p) (hparity : p.place % 2 = p.stored % 2) :
    Aligned (p.next (.dataReceived true)) := by
  intro i hi
  show (Function.update p.source p.stored (p.blocks, p.place) i).2 % 2 = i % 2
  obtain rfl | hlt := Nat.eq_or_lt_of_le (Nat.le_of_lt_succ hi)
  · rw [Function.update_self]
    exact hparity
  · rw [Function.update_of_ne (Nat.ne_of_lt hlt)]
    exact h i hlt

theorem InStep.of_step (h : InStep p) (heven : e = .slaR true → p.stored % 2 = 0)
    (hs : p.step e = some q) : InStep q := by
  have hordered := h.ordered.of_step hs
  obtain ⟨hrunning, henabled, rfl⟩ := step_eq hs
  refine ⟨hordered, ?_, fun hphase => ?_⟩
  · by_cases he : e = .dataReceived true
    · rw [he] at henabled ⊢
      exact h.aligned.of_stored (h.parity (receiving_of_enabled henabled))
    · exact (aligned_next he).mpr h.aligned
  · obtain rfl | rfl := receive_next henabled hphase
    · show p.place % 2 = p.stored % 2
      rw [h.ordered.address (of_decide_eq_true henabled), heven rfl]
    · have hparity := h.parity (receiving_of_enabled henabled)
      show (p.place + 1) % 2 = (p.stored + 1) % 2
      omega

theorem aligned_of_even (h : exec Transfer.step start events = some q)
    (heven : EvenRestarts events) : Aligned q := by
  have halong : Along (fun p e => e = .slaR true → p.stored % 2 = 0) Transfer.step start
      events := by
    refine along_of_prefix fun done e hpre p hp he => ?_
    rw [stored_exec hp, show start.stored = 0 from rfl, Nat.zero_add]
    rw [he] at hpre
    exact heven done hpre
  have hstart : InStep start := ⟨ordered_start, nofun, nofun⟩
  exact (inv_of_along (fun _ _ _ hp he hs => hp.of_step he hs) hstart halong h).aligned

/-- An odd number of bytes is stored and a new block begins behind them. -/
def Astray (p : Transfer) : Prop := p.stored % 2 = 1 ∧ (p.phase = .receive → p.place = 0)

/-- What is stored stays. -/
theorem aligned_of_next (h : Aligned (p.next e)) : Aligned p := by
  by_cases he : e = .dataReceived true
  · rw [he] at h
    intro i hi
    have hnext : (Function.update p.source p.stored (p.blocks, p.place) i).2 % 2 = i % 2 :=
      h i (Nat.lt_succ_of_lt hi)
    rw [Function.update_of_ne (Nat.ne_of_lt hi)] at hnext
    exact hnext
  · exact (aligned_next he).mp h

/-- The next byte that is stored astray is a high byte at an odd place. -/
theorem Astray.of_step (ho : Ordered p) (h : Astray p) (hs : p.step e = some q) :
    Astray q ∨ ¬ Aligned q := by
  obtain ⟨hodd, hplace⟩ := h
  obtain ⟨hrunning, henabled, rfl⟩ := step_eq hs
  by_cases he : e = .dataReceived true
  · right
    rw [he] at henabled ⊢
    intro ha
    have hlast : (Function.update p.source p.stored (p.blocks, p.place) p.stored).2 % 2 =
        p.stored % 2 := ha p.stored (Nat.lt_succ_self _)
    rw [Function.update_self, hplace (receiving_of_enabled henabled), hodd] at hlast
    exact absurd hlast Nat.zero_ne_one
  · left
    refine ⟨by rw [(next_of_ne p he).1]; exact hodd, fun hphase => ?_⟩
    obtain rfl | hdata := receive_next henabled hphase
    · exact ho.address (of_decide_eq_true henabled)
    · exact absurd hdata he

/-- A transfer that goes astray does not come to its end with an aligned buffer. -/
theorem not_aligned_of_astray (ho : Ordered p) (h : Astray p)
    (he : exec Transfer.step p events = some q) (hc : q.complete = true) : ¬ Aligned q := by
  have hstep : ∀ p e q, Ordered p ∧ (Astray p ∨ ¬ Aligned p) → Transfer.step p e = some q →
      Ordered q ∧ (Astray q ∨ ¬ Aligned q) := by
    intro p e q ⟨ho, hcase⟩ hs
    refine ⟨ho.of_step hs, ?_⟩
    obtain hastray | hnot := hcase
    · exact hastray.of_step ho hs
    · obtain ⟨-, -, rfl⟩ := step_eq hs
      exact .inr fun ha => hnot (aligned_of_next ha)
  obtain ⟨hordered, hastray | hnot⟩ := inv_of_exec hstep ⟨ho, .inl h⟩ he
  · have hodd := hastray.1
    rw [hordered.complete hc] at hodd
    exact absurd hodd (by decide)
  · exact hnot

theorem even_of_aligned (h : exec Transfer.step start events = some q) (hc : q.complete = true)
    (ha : Aligned q) : EvenRestarts events := by
  intro done ⟨rest, hevents⟩
  rw [← hevents, exec_append] at h
  obtain ⟨r, hr, hrest⟩ := Option.bind_eq_some_iff.mp h
  rw [exec_append] at hr
  obtain ⟨p, hp, hstep⟩ := Option.bind_eq_some_iff.mp hr
  obtain ⟨r', hs, hnil⟩ := Option.bind_eq_some_iff.mp hstep
  cases hnil
  obtain ⟨hrunning, henabled, rfl⟩ := step_eq hs
  have hordered := ordered_exec hp
  have hstored : p.stored = done.count (.dataReceived true) := by
    rw [stored_exec hp, show start.stored = 0 from rfl, Nat.zero_add]
  rw [← hstored]
  by_contra hodd
  have hastray : Astray (p.next (.slaR true)) :=
    ⟨by show p.stored % 2 = 1; omega, fun _ => hordered.address (of_decide_eq_true henabled)⟩
  exact not_aligned_of_astray (hordered.of_step hs) hastray hrest hc ha

theorem aligned_iff (h : exec Transfer.step start events = some q) (hc : q.complete = true) :
    Aligned q ↔ EvenRestarts events :=
  ⟨even_of_aligned h hc, aligned_of_even h⟩

variable (ho : Ordered p) (hstored : p.stored = 8)
include ho hstored

/-- An aligned buffer holds words of single blocks. -/
theorem words_of_aligned (ha : Aligned p) {w : Nat} (hw : w < 4) :
    ∃ n k, k < 4 ∧ p.source (2 * w) = (n, 2 * k) ∧ p.source (2 * w + 1) = (n, 2 * k + 1) := by
  have heven := ha (2 * w) (by omega)
  have hodd := ha (2 * w + 1) (by omega)
  have hle := ho.offset_le (2 * w) (by omega)
  refine ⟨(p.source (2 * w)).1, (p.source (2 * w)).2 / 2, by omega, ?_, ?_⟩
  · exact Prod.ext rfl (by show _ = 2 * (_ / 2); omega)
  · obtain hnext | ⟨-, hzero⟩ := ho.continues (2 * w) (by omega)
    · rw [hnext]
      exact Prod.ext rfl (by show _ = 2 * (_ / 2) + 1; omega)
    · rw [hzero] at hodd
      omega

/-- The first word of a buffer that is not aligned whose bytes are high bytes of two blocks. -/
theorem splice_of_not_aligned (ha : ¬ Aligned p) :
    ∃ w m k n, w < 4 ∧ m < n ∧ p.source (2 * w) = (m, 2 * k) ∧ p.source (2 * w + 1) = (n, 0) ∧
      ∀ v < w, (p.source (2 * v)).2 % 2 = 0 ∧ Before (p.source (2 * v)) (m, 2 * k) := by
  have hex : ∃ i, i < p.stored ∧ (p.source i).2 % 2 ≠ i % 2 := by
    by_contra hnone
    refine ha fun i hi => ?_
    by_contra hne
    exact hnone ⟨i, hi, hne⟩
  obtain ⟨hi, hne⟩ := Nat.find_spec hex
  have hmin : ∀ j < Nat.find hex, (p.source j).2 % 2 = j % 2 := by
    intro j hj
    by_contra hnot
    exact Nat.find_min hex hj ⟨by omega, hnot⟩
  generalize Nat.find hex = i at hi hne hmin
  have hpos : i ≠ 0 := by
    intro hzero
    have hle := ho.offset_le 0 (by omega)
    rw [hzero] at hne
    omega
  obtain ⟨j, rfl⟩ := Nat.exists_eq_succ_of_ne_zero hpos
  have hparity := hmin j (Nat.lt_succ_self j)
  obtain hnext | ⟨hblock, hzero⟩ := ho.continues j hi
  · rw [Nat.succ_eq_add_one, hnext] at hne
    exact absurd (show ((p.source j).2 + 1) % 2 = (j + 1) % 2 by omega) hne
  · have heven : j % 2 = 0 := by
      rw [Nat.succ_eq_add_one, hzero] at hne
      omega
    obtain ⟨w, rfl⟩ : ∃ w, j = 2 * w := ⟨j / 2, by omega⟩
    have hplace : p.source (2 * w) = ((p.source (2 * w)).1, 2 * ((p.source (2 * w)).2 / 2)) :=
      Prod.ext rfl (by show _ = 2 * (_ / 2); omega)
    refine ⟨w, (p.source (2 * w)).1, (p.source (2 * w)).2 / 2, (p.source (2 * w + 1)).1, by omega,
      hblock, hplace, Prod.ext rfl hzero, fun v hv => ⟨?_, ?_⟩⟩
    · rw [hmin (2 * v) (by omega)]
      omega
    · rw [← hplace]
      exact ho.before (2 * w) (by omega) (2 * v) (by omega)

end Plak1a.Touchscreen.Splice
