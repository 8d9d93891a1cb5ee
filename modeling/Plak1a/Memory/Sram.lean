import Mathlib.Algebra.Group.Nat.Defs
import Mathlib.Data.Fintype.EquivFin
import Mathlib.Data.List.FinRange
import Mathlib.Logic.Function.Basic
import Plak1a.Lib.Masks
import Plak1a.Lib.Writers

/-!
# The memory test

`TestSRAM` writes every word with its own index, reads all of them back, and does the same
with the complements. The memory under test serves word `a` from cell `serve a`, and a cell
holds some of its bits at 0 and some at 1 whatever is written.
-/

namespace Plak1a.Memory.Sram

open Lib.Masks Lib.Writers

/-- `SRAM_SIZE / 4` -/
def words : Nat := 0x400000 / 4

structure Chip (n : Nat) where
  serve : Fin n → Fin n
  /-- the bits a cell forces to 0 -/
  zeros : Fin n → UInt32
  /-- the bits a cell forces to 1 -/
  ones : Fin n → UInt32

variable {n : Nat}

/-- What a cell gives back of a word. -/
def Chip.force (s : Chip n) (c : Fin n) (v : UInt32) : UInt32 := (v &&& ~~~ s.zeros c) ||| s.ones c

/-- What the cells were last written. -/
abbrev Content (n : Nat) := Fin n → UInt32

def Chip.read (s : Chip n) (content : Content n) (a : Fin n) : UInt32 :=
  s.force (s.serve a) (content (s.serve a))

/-- The loop that writes; `pAdd` is at word `a` while the count `i` is `a`. -/
def Chip.writeLoop (s : Chip n) (value : UInt32 → UInt32) (content : Content n) : Content n :=
  (List.finRange n).foldl
    (fun content a => Function.update content (s.serve a) (value (UInt32.ofNat a.val))) content

/-- The loop that reads: the word `pAdd` is at when it breaks. -/
def Chip.readLoop (s : Chip n) (value : UInt32 → UInt32) (content : Content n) : Option (Fin n) :=
  (List.finRange n).find? fun a => s.read content a ≠ value (UInt32.ofNat a.val)

/-- The call `TestSRAM()` on `n` words: the texts it puts out and what it leaves behind. -/
def testSram (s : Chip n) (content : Content n) : List String × Content n :=
  let out := ["Testing SRAM \n", "Writing (1) data to SRAM \n"]
  let content := s.writeLoop (fun i => i) content
  let out := out ++ ["Reading (1) data from SRAM \n"]
  let out := out ++ [if (s.readLoop (fun i => i) content).isNone then
    "Veryfied (1) data is OK! \n" else "*** Veryfied (1) is NOT OK!***\n"]
  let out := out ++ ["Writing (2) data to SRAM \n"]
  let content := s.writeLoop (fun i => ~~~ i) content
  let out := out ++ ["Reading (2) data from SRAM \n"]
  let out := out ++ [if (s.readLoop (fun i => ~~~ i) content).isNone then
    "Veryfied (2) data is OK! \n" else "*** Veryfied (2) is NOT OK! ***\n"]
  (out, content)

/-- Both passes end with their text for success. -/
def PrintsOk (s : Chip n) (content : Content n) : Prop :=
  "Veryfied (1) data is OK! \n" ∈ (testSram s content).1 ∧
    "Veryfied (2) data is OK! \n" ∈ (testSram s content).1

/-- A pass writes `value` and finds it again at every word. -/
def Chip.Verifies (s : Chip n) (value : UInt32 → UInt32) (content : Content n) : Prop :=
  ∀ a, s.read (s.writeLoop value content) a = value (UInt32.ofNat a.val)

/-- The word whose value a cell holds behind a pass. -/
def Chip.writer (s : Chip n) (c : Fin n) : Option (Fin n) :=
  lastWriter (fun a => s.serve a = c) (List.finRange n)

theorem readLoop_isNone (s : Chip n) (value : UInt32 → UInt32) (content : Content n) :
    (s.readLoop value (s.writeLoop value content)).isNone = true ↔ s.Verifies value content := by
  rw [Option.isNone_iff_eq_none, Chip.readLoop, List.find?_eq_none]
  constructor
  · intro h a
    simpa using h a (List.mem_finRange a)
  · intro h a _
    simpa using h a

theorem printsOk_iff (s : Chip n) (content : Content n) :
    PrintsOk s content ↔ s.Verifies (fun i => i) content ∧
      s.Verifies (fun i => ~~~ i) (s.writeLoop (fun i => i) content) := by
  rw [← readLoop_isNone, ← readLoop_isNone, PrintsOk]
  simp only [testSram]
  generalize (s.readLoop _ _).isNone = ok₁
  generalize (s.readLoop _ _).isNone = ok₂
  cases ok₁ <;> cases ok₂ <;> simp

/-- Behind a pass a word reads as the value of the last word its cell serves. -/
theorem read_writeLoop (s : Chip n) (value : UInt32 → UInt32) (content : Content n)
    {a b : Fin n} (hb : s.writer (s.serve a) = some b) :
    s.read (s.writeLoop value content) a = s.force (s.serve a) (value (UInt32.ofNat b.val)) := by
  have hcell : s.writeLoop value content (s.serve a) =
      ((s.writer (s.serve a)).map fun b => value (UInt32.ofNat b.val)).getD
        (content (s.serve a)) := by
    refine observe_foldl (fun content : Content n => content (s.serve a)) ?_ content _
    intro content b
    simp only [Function.update_apply, decide_eq_true_eq, eq_comm (b := s.serve b)]
  rw [Chip.read, hcell, hb]
  rfl

theorem exists_writer (s : Chip n) (a : Fin n) : ∃ b, s.writer (s.serve a) = some b :=
  exists_lastWriter (List.mem_finRange a) (decide_eq_true rfl)

theorem serve_of_writer {s : Chip n} {b c : Fin n} (h : s.writer c = some b) : s.serve b = c := by
  rw [Chip.writer] at h
  have hreaches := reaches_of_lastWriter h
  exact of_decide_eq_true hreaches

/-- A cell of an injective map has one writer. -/
theorem writer_of_injective {s : Chip n} (hs : Function.Injective s.serve) (a : Fin n) :
    s.writer (s.serve a) = some a := by
  obtain ⟨b, hb⟩ := exists_writer s a
  rw [hb, hs (serve_of_writer hb)]

theorem injective_of_writer {s : Chip n} (h : ∀ a, s.writer (s.serve a) = some a) :
    Function.Injective s.serve := by
  intro a b hab
  have hb := h b
  rw [← hab, h a] at hb
  exact Option.some.inj hb

theorem bit_force (s : Chip n) (c : Fin n) (v : UInt32) {i : Nat} (hi : i < 32) :
    bit (s.force c v) i = (bit v i && !bit (s.zeros c) i || bit (s.ones c) i) := by
  rw [Chip.force, bit_or, bit_and, bit_not _ hi]

theorem force_of_free {s : Chip n} {c : Fin n} (hzeros : s.zeros c = 0) (hones : s.ones c = 0)
    (v : UInt32) : s.force c v = v := by
  apply ext
  intro i hi
  rw [bit_force s c v hi, hzeros, hones, bit_zero, Bool.not_false, Bool.and_true, Bool.or_false]

/-- A forced bit reads alike in a word and in its complement. So a cell that turns a word and
its complement into another word and its complement forces none. -/
theorem free_of_force {s : Chip n} {c : Fin n} {v w : UInt32} (h : s.force c v = w)
    (hcompl : s.force c (~~~ v) = ~~~ w) : s.zeros c = 0 ∧ s.ones c = 0 := by
  have hbits : ∀ i < 32, bit (s.zeros c) i = false ∧ bit (s.ones c) i = false := by
    intro i hi
    have hw := bit_force s c v hi
    have hnot := bit_force s c (~~~ v) hi
    rw [h] at hw
    rw [hcompl, bit_not _ hi, bit_not _ hi] at hnot
    grind
  constructor
  · apply ext
    intro i hi
    rw [(hbits i hi).1, bit_zero]
  · apply ext
    intro i hi
    rw [(hbits i hi).2, bit_zero]

theorem ofNat_inj (hn : n ≤ 2 ^ 32) {a b : Fin n}
    (h : UInt32.ofNat a.val = UInt32.ofNat b.val) : a = b := by
  have htoNat := congrArg UInt32.toNat h
  rw [UInt32.toNat_ofNat_of_lt' (Nat.lt_of_lt_of_le a.isLt hn),
    UInt32.toNat_ofNat_of_lt' (Nat.lt_of_lt_of_le b.isLt hn)] at htoNat
  exact Fin.ext htoNat

/-- Two passes with a word and its complement: every word finds its own cell free of faults. -/
theorem free_of_verifies (hn : n ≤ 2 ^ 32) {s : Chip n} {content content' : Content n}
    (h₁ : s.Verifies (fun i => i) content) (h₂ : s.Verifies (fun i => ~~~ i) content') (a : Fin n) :
    s.writer (s.serve a) = some a ∧ s.zeros (s.serve a) = 0 ∧ s.ones (s.serve a) = 0 := by
  obtain ⟨b, hb⟩ := exists_writer s a
  have hword := (read_writeLoop s _ content hb).symm.trans (h₁ a)
  have hcompl := (read_writeLoop s _ content' hb).symm.trans (h₂ a)
  obtain ⟨hzeros, hones⟩ := free_of_force hword hcompl
  rw [force_of_free hzeros hones] at hword
  rw [ofNat_inj hn hword] at hb
  exact ⟨hb, hzeros, hones⟩

/-- A pass over an injective map without faults finds every value again. -/
theorem verifies_of_free {s : Chip n} (hs : Function.Injective s.serve)
    (hfree : ∀ c, s.zeros c = 0 ∧ s.ones c = 0) (value : UInt32 → UInt32) (content : Content n) :
    s.Verifies value content := by
  intro a
  have hcell := hfree (s.serve a)
  rw [read_writeLoop s value content (writer_of_injective hs a), force_of_free hcell.1 hcell.2]

theorem printsOk_iff_free (hn : n ≤ 2 ^ 32) (s : Chip n) (content : Content n) :
    PrintsOk s content ↔
      Function.Injective s.serve ∧ ∀ c, s.zeros c = 0 ∧ s.ones c = 0 := by
  rw [printsOk_iff]
  constructor
  · intro ⟨h₁, h₂⟩
    have hcells := free_of_verifies hn h₁ h₂
    have hinjective := injective_of_writer fun a => (hcells a).1
    refine ⟨hinjective, fun c => ?_⟩
    -- an injective map of the cells into themselves serves every cell
    obtain ⟨a, rfl⟩ := Finite.injective_iff_surjective.mp hinjective c
    exact (hcells a).2
  · intro ⟨hs, hfree⟩
    exact ⟨verifies_of_free hs hfree _ _, verifies_of_free hs hfree _ _⟩

/-- The memory of the board. -/
theorem testSram_sound (s : Chip words) (content : Content words) :
    PrintsOk s content ↔
      Function.Injective s.serve ∧ ∀ c, s.zeros c = 0 ∧ s.ones c = 0 :=
  printsOk_iff_free (by decide) s content

end Plak1a.Memory.Sram
