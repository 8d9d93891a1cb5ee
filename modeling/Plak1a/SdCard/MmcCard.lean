import Mathlib.Algebra.Group.Nat.Defs
import Plak1a.SdCard.Mmc

/-!
# A byte-addressed MMC card in SPI mode

The card collects six command bytes, answers with a response byte after at most eight
bytes of delay, and then sends a block behind its start token, waits for the start
token of a block to be written, or goes back to idle. Blocks may lie across sector
boundaries only where the card permits misaligned access; what it does not permit and
what lies past its end is refused. The delays before a data block and after a written
one are arbitrary but finite.
-/

namespace Plak1a.SdCard.MmcCard

open Mmc

/-- What does not change while a card is used. -/
structure Card where
  /-- Capacity in bytes. -/
  size : Nat
  size_dvd : 512 ∣ size
  writeMisalign : Bool
  readMisalign : Bool
  /-- Bytes before the response to the n-th command. -/
  ncr : Nat → Nat
  ncr_le : ∀ n, ncr n ≤ 8
  /-- Bytes before the data block of the n-th command. -/
  nac : Nat → Nat
  /-- Busy bytes after the block written by the n-th command. -/
  busy : Nat → Nat
  crc : List UInt8 → UInt8 × UInt8

inductive Phase
  | idle
  | command (got : List UInt8)
  | sending (first : UInt8) (rest : List UInt8) (next : Phase)
  /-- A block for `addr` is announced. -/
  | token (addr : Nat)
  | receive (addr : Nat) (got : List UInt8)

structure State where
  data : Nat → UInt8
  phase : Phase
  commands : Nat

/-- Sends the bytes `q` before it goes on with `next`. -/
def Phase.after (q : List UInt8) (next : Phase) : Phase :=
  match q with
  | [] => next
  | b :: bs => .sending b bs next

namespace Card

variable (c : Card)

/-- The response to a block command: 0, or the parameter or address error bit. -/
def response (misalign : Bool) (addr : Nat) : UInt8 :=
  if c.size < addr + blockSize then 0x40
  else if ¬ misalign ∧ addr % blockSize ≠ 0 then 0x20 else 0

/-- The 512 bytes at an address. -/
def block (data : Nat → UInt8) (addr : Nat) : List UInt8 :=
  (List.range blockSize).map fun i => data (addr + i)

/-- The memory after 512 bytes are written at an address. -/
def store (data : Nat → UInt8) (addr : Nat) (bytes : List UInt8) : Nat → UInt8 :=
  fun x => if addr ≤ x ∧ x < addr + blockSize then bytes.getD (x - addr) 0 else data x

theorem block_length (data : Nat → UInt8) (addr : Nat) : (block data addr).length = blockSize := by
  rw [block, List.length_map, List.length_range]

/-- Two memories agree on a block when they agree on its bytes. -/
theorem block_eq_iff {data data' : Nat → UInt8} {addr : Nat} :
    block data addr = block data' addr ↔ ∀ i < blockSize, data (addr + i) = data' (addr + i) := by
  simp only [block, List.map_inj_left, List.mem_range]

theorem block_getElem? {i : Nat} (hi : i < blockSize) (data : Nat → UInt8) (addr : Nat) :
    (block data addr)[i]? = some (data (addr + i)) := by
  rw [block, List.getElem?_map, List.getElem?_range hi, Option.map_some]

theorem block_store {data : Nat → UInt8} {addr : Nat} {bytes : List UInt8}
    (hlen : bytes.length = blockSize) : block (store data addr bytes) addr = bytes := by
  apply List.ext_getElem?
  intro i
  by_cases hi : i < blockSize
  · have hbyte : store data addr bytes (addr + i) = bytes.getD (addr + i - addr) 0 :=
      if_pos ⟨Nat.le_add_right _ _, by omega⟩
    rw [block_getElem? hi, hbyte, Nat.add_sub_cancel_left, List.getD_eq_getElem?_getD]
    have hsome : ∃ b, bytes[i]? = some b := ⟨_, List.getElem?_eq_getElem (by omega)⟩
    obtain ⟨b, hb⟩ := hsome
    rw [hb, Option.getD_some]
  · rw [List.getElem?_eq_none (by rw [block_length]; omega),
      List.getElem?_eq_none (by rw [hlen]; omega)]

/-- A block beside the written one is unchanged. -/
theorem block_store_of_disjoint {data : Nat → UInt8} {addr addr' : Nat} {bytes : List UInt8}
    (h : addr' + blockSize ≤ addr ∨ addr + blockSize ≤ addr') :
    block (store data addr bytes) addr' = block data addr' := by
  rw [block_eq_iff]
  intro i hi
  exact if_neg (by omega)

/-- Writing what is there already changes nothing. -/
theorem store_block (data : Nat → UInt8) (addr : Nat) :
    store data addr (block data addr) = data := by
  funext x
  unfold store
  split
  · rename_i hx
    have hi : x - addr < blockSize := by omega
    rw [List.getD_eq_getElem?_getD, block_getElem? hi, Option.getD_some,
      Nat.add_sub_cancel' hx.1]
  · rfl

/-- The answer to the six bytes of a command. -/
def execute (got : List UInt8) (s : State) : State :=
  let delay : List UInt8 := List.replicate (c.ncr s.commands) 0xff
  match got with
  | [code, a₃, a₂, a₁, a₀, _] =>
    let addr := a₃.toNat * 2 ^ 24 + a₂.toNat * 2 ^ 16 + a₁.toNat * 2 ^ 8 + a₀.toNat
    let s' := { s with commands := s.commands + 1 }
    if code = 0x51 then
      let r := c.response c.readMisalign addr
      if r ≠ 0 then { s' with phase := .after (delay ++ [r]) .idle }
      else
        let d := block s.data addr
        { s' with phase := .after (delay ++ 0 :: (List.replicate (c.nac s.commands) 0xff ++
            0xfe :: (d ++ [(c.crc d).1, (c.crc d).2]))) .idle }
    else if code = 0x58 then
      let r := c.response c.writeMisalign addr
      if r ≠ 0 then { s' with phase := .after (delay ++ [r]) .idle }
      else { s' with phase := .after (delay ++ [0]) (.token addr) }
    else { s' with phase := .after (delay ++ [0x04]) .idle }
  | _ => { s with phase := .idle }

/-- One byte on the bus. -/
def spi (s : State) (b : UInt8) : UInt8 × State :=
  match s.phase with
  | .idle => (0xff, if b &&& 0xc0 = 0x40 then { s with phase := .command [b] } else s)
  | .command got =>
    (0xff, if got.length < 5 then { s with phase := .command (got ++ [b]) }
      else c.execute (got ++ [b]) s)
  | .sending first rest next => (first, { s with phase := .after rest next })
  | .token addr => (0xff, if b = 0xfe then { s with phase := .receive addr [] } else s)
  | .receive addr got =>
    (0xff, if got.length < blockSize + 1 then { s with phase := .receive addr (got ++ [b]) }
      else { s with
        data := store s.data addr ((got ++ [b]).take blockSize)
        phase := .after (0xe5 :: List.replicate (c.busy s.commands) 0x00) .idle })

end Card

def State.goto (s : State) (p : Phase) : State := { s with phase := p }

section Loops

variable {c : Card} {s : State} {next : Phase}

theorem spi_after (b x : UInt8) (q : List UInt8) :
    c.spi (s.goto (.after (x :: q) next)) b = (x, s.goto (.after q next)) := rfl

theorem readBytes_after {xs : List UInt8} {n : Nat} (hlen : xs.length = n) (q : List UInt8) :
    readBytes c.spi n (s.goto (.after (xs ++ q) next)) = (xs, s.goto (.after q next)) := by
  induction xs generalizing n with
  | nil =>
    subst hlen
    rfl
  | cons x xs ih =>
    subst hlen
    rw [List.cons_append, List.length_cons, readBytes, readByteMMC, spi_after, ih rfl]

theorem readByteMMC_twice (x y : UInt8) :
    (readByteMMC c.spi (readByteMMC c.spi (s.goto (.after [x, y] next))).2).2 = s.goto next := rfl

theorem waitByte_after {x b : UInt8} (hx : x ≠ b) (q : List UInt8) (n polls : Nat)
    (hn : n < polls) :
    waitByte c.spi b polls (s.goto (.after (List.replicate n x ++ b :: q) next)) =
      some (s.goto (.after q next)) := by
  induction n generalizing polls with
  | zero =>
    obtain ⟨m, rfl⟩ := Nat.exists_eq_add_of_lt hn
    rw [Nat.zero_add, waitByte, readByteMMC]
    exact if_pos rfl
  | succ n ih =>
    cases polls with
    | zero => omega
    | succ polls =>
      rw [List.replicate_succ, List.cons_append, waitByte, readByteMMC, spi_after]
      dsimp only
      rw [if_neg hx]
      exact ih polls (by omega)

theorem awaitResponse_after {r : UInt8} (hr : r ≠ 0xff) (q : List UInt8) (n reads : Nat)
    (hn : n < reads) :
    awaitResponse c.spi reads 0xff (s.goto (.after (List.replicate n 0xff ++ r :: q) next)) =
      (r, s.goto (.after q next)) := by
  induction n generalizing reads with
  | zero =>
    cases reads with
    | zero => omega
    | succ reads =>
      rw [awaitResponse, if_pos rfl]
      show awaitResponse c.spi reads r (s.goto (.after q next)) = _
      cases reads with
      | zero => rfl
      | succ reads => rw [awaitResponse, if_neg hr]
  | succ n ih =>
    cases reads with
    | zero => omega
    | succ reads =>
      rw [awaitResponse, if_pos rfl]
      exact ih reads (by omega)

/-- Six bytes that start like a command make the card execute it. -/
theorem writeBytes_command {code : UInt8} (hcode : code &&& 0xc0 = 0x40)
    (a₃ a₂ a₁ a₀ crc : UInt8) :
    writeBytes c.spi [code, a₃, a₂, a₁, a₀, crc] (writeByteMMC c.spi 0xff (s.goto .idle)) =
      c.execute [code, a₃, a₂, a₁, a₀, crc] s := by
  have hff : writeByteMMC c.spi 0xff (s.goto .idle) = s.goto .idle := rfl
  have hfirst : writeByteMMC c.spi code (s.goto .idle) = s.goto (.command [code]) := if_pos hcode
  rw [hff, writeBytes, hfirst]
  rfl

theorem readBytes_token (addr n : Nat) :
    (readBytes c.spi n (s.goto (.token addr))).2 = s.goto (.token addr) := by
  induction n with
  | zero => rfl
  | succ n ih => exact ih

theorem writeBytes_receive (addr : Nat) (bs : List UInt8) :
    ∀ got : List UInt8, got.length + bs.length ≤ blockSize + 1 →
      writeBytes c.spi bs (s.goto (.receive addr got)) = s.goto (.receive addr (got ++ bs)) := by
  induction bs with
  | nil =>
    intro got _
    rw [List.append_nil]
    rfl
  | cons b bs ih =>
    intro got hlen
    rw [List.length_cons] at hlen
    have hb : writeByteMMC c.spi b (s.goto (.receive addr got)) =
        s.goto (.receive addr (got ++ [b])) := if_pos (by omega)
    rw [writeBytes, hb, ih _ (by rw [List.length_append, List.length_singleton]; omega),
      List.append_assoc]
    rfl

/-- The bytes of a block and its check bytes reach the memory. -/
theorem receive_block (addr : Nat) {bytes : List UInt8} (hlen : bytes.length = blockSize) :
    writeByteMMC c.spi 0xff (writeByteMMC c.spi 0xff
        (writeBytes c.spi bytes (s.goto (.receive addr [])))) =
      { s with
        data := Card.store s.data addr bytes
        phase := .after (0xe5 :: List.replicate (c.busy s.commands) 0x00) .idle } := by
  have hcrc : writeByteMMC c.spi 0xff (s.goto (.receive addr bytes)) =
      s.goto (.receive addr (bytes ++ [0xff])) := if_pos (by omega)
  have hlast : writeByteMMC c.spi 0xff (s.goto (.receive addr (bytes ++ [0xff]))) =
      { s with
        data := Card.store s.data addr ((bytes ++ [0xff] ++ [0xff]).take blockSize)
        phase := .after (0xe5 :: List.replicate (c.busy s.commands) 0x00) .idle } :=
    congrArg Prod.snd (congrArg (Prod.mk _) (if_neg (by
      rw [List.length_append, List.length_singleton]
      omega)))
  rw [writeBytes_receive addr bytes [] (by rw [List.length_nil]; omega), List.nil_append, hcrc,
    hlast, List.append_assoc, List.take_left' hlen]

/-- The busy loop outlasts whatever the card still sends. -/
theorem waitByte_idle (bs : List UInt8) (hbs : ∀ b ∈ bs, b ≠ 0xff) :
    ∀ polls, bs.length < polls →
      waitByte c.spi 0xff polls (s.goto (.after bs .idle)) = some (s.goto .idle) := by
  induction bs with
  | nil =>
    intro polls hn
    cases polls with
    | zero => omega
    | succ polls => rfl
  | cons b bs ih =>
    intro polls hn
    cases polls with
    | zero => omega
    | succ polls =>
      rw [waitByte, readByteMMC, spi_after]
      dsimp only
      rw [if_neg (hbs b List.mem_cons_self)]
      exact ih (fun b hb => hbs b (List.mem_cons_of_mem _ hb)) polls
        (by rw [List.length_cons] at hn; omega)

theorem waitByte_mono {σ : Type} {spi : σ → UInt8 → UInt8 × σ} {b : UInt8} {n : Nat} :
    ∀ {s s' : σ}, waitByte spi b n s = some s' → ∀ {m : Nat}, n ≤ m →
      waitByte spi b m s = some s' := by
  induction n with
  | zero => intro s s' h; cases h
  | succ n ih =>
    intro s s' h m hm
    obtain ⟨m, rfl⟩ := Nat.exists_eq_add_of_le' (Nat.lt_of_lt_of_le (Nat.succ_pos n) hm)
    rw [waitByte] at h ⊢
    split at h
    · rename_i hb
      rw [if_pos hb]
      exact h
    · rename_i hb
      rw [if_neg hb]
      exact ih h (by omega)

end Loops

end Plak1a.SdCard.MmcCard
