import Plak1a.Flash.Bank
import Plak1a.Flash.Info
import Plak1a.Flash.Programmed

/-!
# `write_buff` on a device that takes its time

The functions of `WriteBuff` once more, with the writes to the bank and the polls of the data
bit. `ops` are the operations that a call may start, in their order; a wait is followed for
`polls` rounds. `base` is `info->start[0]`.
-/

namespace Plak1a.Flash.TimedWrite

open Info Bank WriteBuff

structure State where
  flash : Memory
  started : Nat
  cycles : List Cycle
  finished : Bool

/-- The command sequence that programs a half word. -/
def programCycles (base : UInt32) (dest : Nat) (data : UInt16) : List Cycle :=
  let addr0 := base + wordOffset cfgFlashAddr0
  let addr1 := base + wordOffset cfgFlashAddr1
  [.command addr0 0x00AA, .command addr1 0x0055, .command addr0 0x00A0,
    .datum (UInt32.ofNat dest) data]

section

variable (polls : Nat) (ops : Nat → Operation) (base : UInt32)

/-- A round of the loop of `write_word`. The data bit is inverted while the device is busy. -/
def writeHalf (dest : Nat) (data : UInt16) (s : State) : Option Nat × State :=
  let op := ops s.started
  let r := WriteBuff.writeHalf s.flash dest data
  let done i := op.done i && r.1
  let cycles := s.cycles ++ programCycles base dest data
  let started := s.started + 1
  match wait cfgFlashWriteTout polls done op.timer with
  | none => (none, ⟨r.2, started, cycles, false⟩)
  | some i =>
    if done i then (some 0, ⟨r.2, started, cycles, true⟩)
    -- The timeout returns without a reset.
    else (some 1, ⟨r.2, started, cycles, op.finishedBy (2 * i + 1)⟩)

/-- `write_word` -/
def writeWord (dest : Nat) (data : UInt32) (s : State) : Option Nat × State :=
  if load s.flash dest &&& data ≠ data then (some 2, s)
  else
    let r := writeHalf polls ops base dest data.toUInt16 s
    if r.1 = some 0 then writeHalf polls ops base (dest + 2) (data >>> 16).toUInt16 r.2 else r

/-- `write_buff` from the word aligned part on. -/
def writeAligned (ram : Memory) : (src wp cnt : Nat) → State → Option Nat × State
  | src, wp, cnt + 4, s =>
    let r := writeWord polls ops base wp (load ram src) s
    if r.1 = some 0 then writeAligned ram (src + 4) (wp + 4) cnt r.2 else r
  | src, wp, cnt, s =>
    if cnt = 0 then (some 0, s)
    else writeWord polls ops base wp (mergeTail ram s.flash ⟨0, wp, src, cnt, 0⟩).data s

/-- `write_buff` in a state of the bank. -/
def writeFrom (ram : Memory) (src addr cnt : Nat) (s : State) : Option Nat × State :=
  let l := addr % 4
  let wp := addr - l
  if l ≠ 0 then
    let m := mergeHead ram s.flash l ⟨0, wp, src, cnt, 0⟩
    let r := writeWord polls ops base wp m.data s
    if r.1 = some 0 then writeAligned polls ops base ram m.src (wp + 4) m.cnt r.2 else r
  else writeAligned polls ops base ram src wp cnt s

/-- `write_buff` -/
def writeBuff (ram : Memory) (src addr cnt : Nat) (flash : Memory) : Outcome :=
  let r := writeFrom polls ops base ram src addr cnt ⟨flash, 0, [], true⟩
  ⟨r.2.cycles, r.1, r.2.finished⟩

end

variable {polls : Nat} {ops : Nat → Operation} {base : UInt32} {ram flash : Memory}
  {src addr cnt dest : Nat} {s : State}

/-- What the functions that do not wait return, unless the call is still waiting or gave up. -/
def Agrees (r : Option Nat × State) (plain : Nat × Memory) : Prop :=
  r.1 = none ∨ r.1 = some 1 ∨ r.1 = some plain.1 ∧ r.2.flash = plain.2

/-- A function that goes on after a 0 agrees if both of its parts do. -/
theorem Agrees.next {r : Option Nat × State} {plain : Nat × Memory} (h : Agrees r plain)
    (next : State → Option Nat × State) (plainNext : Memory → Nat × Memory)
    (hnext : ∀ s, Agrees (next s) (plainNext s.flash)) :
    Agrees (if r.1 = some 0 then next r.2 else r)
      (if plain.1 ≠ 0 then plain else plainNext plain.2) := by
  rcases h with hnone | hone | ⟨hres, hflash⟩
  · rw [hnone, if_neg (Option.some_ne_none 0).symm]
    exact Or.inl hnone
  · rw [hone, if_neg (by decide)]
    exact Or.inr (Or.inl hone)
  · rw [hres]
    by_cases hzero : plain.1 = 0
    · rw [if_pos (congrArg some hzero), if_neg (not_not_intro hzero), ← hflash]
      exact hnext r.2
    · rw [if_neg (fun h => hzero (Option.some.inj h)), if_pos hzero]
      exact Or.inr (Or.inr ⟨hres, hflash⟩)

/-- The result of a round that does not wait. -/
def halfResult (r : Bool × Memory) : Nat × Memory := (if r.1 then 0 else 1, r.2)

theorem writeHalf_agrees (dest : Nat) (data : UInt16) (s : State) :
    Agrees (writeHalf polls ops base dest data s)
      (halfResult (WriteBuff.writeHalf s.flash dest data)) := by
  rw [writeHalf]
  dsimp only
  split
  · exact Or.inl rfl
  · rename_i i _
    split
    · rename_i hdone
      have hd7 := (Bool.and_eq_true_iff.mp hdone).2
      exact Or.inr (Or.inr ⟨by rw [halfResult, if_pos hd7], rfl⟩)
    · exact Or.inr (Or.inl rfl)

theorem plain_writeWord (flash : Memory) (dest : Nat) (data : UInt32) :
    WriteBuff.writeWord flash dest data =
      if load flash dest &&& data ≠ data then (2, flash)
      else
        let r := halfResult (WriteBuff.writeHalf flash dest data.toUInt16)
        if r.1 ≠ 0 then r
        else halfResult (WriteBuff.writeHalf r.2 (dest + 2) (data >>> 16).toUInt16) := by
  rw [WriteBuff.writeWord]
  split
  · rfl
  · cases hd7 : (WriteBuff.writeHalf flash dest data.toUInt16).1 with
    | true =>
      simp only [halfResult, hd7, if_true]
      split <;> rfl
    | false => simp only [halfResult, hd7]; rfl

theorem writeWord_agrees (dest : Nat) (data : UInt32) (s : State) :
    Agrees (writeWord polls ops base dest data s) (WriteBuff.writeWord s.flash dest data) := by
  rw [writeWord, plain_writeWord]
  split
  · exact Or.inr (Or.inr ⟨rfl, rfl⟩)
  · exact (writeHalf_agrees dest data.toUInt16 s).next _
      (fun flash => halfResult (WriteBuff.writeHalf flash (dest + 2) (data >>> 16).toUInt16))
      (writeHalf_agrees (dest + 2) (data >>> 16).toUInt16)

theorem writeAligned_of_lt (ram : Memory) (src wp : Nat) {n : Nat} (h : n < 4) (s : State) :
    writeAligned polls ops base ram src wp n s =
      if n = 0 then (some 0, s)
      else writeWord polls ops base wp (mergeTail ram s.flash ⟨0, wp, src, n, 0⟩).data s := by
  rcases n with _ | _ | _ | _ | n
  · rfl
  · rfl
  · rfl
  · rfl
  · omega

theorem writeAligned_agrees (ram : Memory) (src wp cnt : Nat) (s : State) :
    Agrees (writeAligned polls ops base ram src wp cnt s)
      (WriteBuff.writeAligned ram src wp cnt s.flash) := by
  induction cnt using Nat.strongRecOn generalizing src wp s with
  | _ cnt ih =>
    by_cases hcnt : 4 ≤ cnt
    · obtain ⟨n, rfl⟩ : ∃ n, cnt = n + 4 := ⟨cnt - 4, by omega⟩
      rw [writeAligned, WriteBuff.writeAligned]
      exact (writeWord_agrees wp (load ram src) s).next _ _ fun s => ih n (by omega) _ _ s
    · rw [writeAligned_of_lt ram src wp (by omega),
        Programmed.writeAligned_of_lt ram src wp (by omega)]
      split
      · exact Or.inr (Or.inr ⟨rfl, rfl⟩)
      · exact writeWord_agrees _ _ s

/-- A call that does not give up does what it does on a device that needs no time. -/
theorem writeFrom_agrees (ram : Memory) (src addr cnt : Nat) (s : State) :
    Agrees (writeFrom polls ops base ram src addr cnt s)
      (WriteBuff.writeBuff ram src addr cnt s.flash) := by
  rw [writeFrom, WriteBuff.writeBuff]
  dsimp only
  split
  · exact (writeWord_agrees _ _ s).next _ _ fun s => writeAligned_agrees ram _ _ _ s
  · exact writeAligned_agrees ram src _ cnt s

end Plak1a.Flash.TimedWrite
