import Mathlib.Algebra.Group.Nat.Defs
import Mathlib.Logic.Relation
import Plak1a.Net.Tftp

/-!
# A transfer over a network that loses, repeats and reorders

The server sends a block when all blocks before it are acknowledged, and again at any time. Every
packet that was sent may be delivered at any time, any number of times, or never. The file has
fewer blocks than there are numbers.
-/

namespace Plak1a.Net.Transfer

open Tftp Lib Lib.Memory

/-- What the two sides agree on, and where the client puts the file. -/
structure Setup where
  file : List UInt8
  filename : List UInt8
  loadAddr : UInt32
  serverPort : UInt16
  blocksFit : file.length / 512 + 1 < 65536
  memoryFits : loadAddr.toNat + file.length < 2 ^ 32

variable (su : Setup)

/-- The number of blocks; the last one is short. -/
def blocks : Nat := su.file.length / 512 + 1

/-- Block `k`, counted from 1. -/
def blockOf (k : Nat) : List UInt8 := (su.file.drop ((k - 1) * 512)).take 512

def dataPacket (dest : UInt16) (k : Nat) : Packet :=
  ⟨dest, su.serverPort, htons tftpData ++ htons (UInt16.ofNat k) ++ blockOf su k⟩

def oackPacket (dest : UInt16) (options : List UInt8) : Packet :=
  ⟨dest, su.serverPort, htons tftpOack ++ options⟩

/-- What a server reads as an acknowledgement of block `k`. -/
def Acks (p : Packet) (k : Nat) : Prop := p.bytes = htons tftpAck ++ htons (UInt16.ofNat k)

structure System where
  client : Client
  acked : Nat
  toClient : List Packet
  toServer : List Packet

/-- The client handles a packet or the timeout. -/
def System.client_step (s : System) (r : Client × List Packet) : System :=
  { s with client := r.1, toServer := r.2 ++ s.toServer }

inductive Step : System → System → Prop
  | send (s : System) (k : Nat) (h₁ : 1 ≤ k) (h₂ : k ≤ s.acked + 1) (h₃ : k ≤ blocks su) :
      Step s { s with toClient := dataPacket su s.client.ourPort k :: s.toClient }
  | oack (s : System) (options : List UInt8) :
      Step s { s with toClient := oackPacket su s.client.ourPort options :: s.toClient }
  | ack (s : System) (p : Packet) (k : Nat) (h₁ : p ∈ s.toServer) (h₂ : Acks p k)
      (h₃ : k ≤ blocks su) : Step s { s with acked := max s.acked k }
  | deliver (s : System) (p : Packet) (h₁ : p ∈ s.toClient) (h₂ : s.client.net = .going) :
      Step s (s.client_step (tftpHandler su.filename su.loadAddr p s.client))
  | timeout (s : System) (h : s.client.net = .going) :
      Step s (s.client_step (tftpTimeout su.filename s.client))

/-- A client that has just sent its first request. -/
def System.start (timer : UInt32) (c : Client) : System :=
  let c := tftpStart timer c
  ⟨c, 0, [], [tftpSend su.filename c]⟩

/-- The first `k` blocks are in memory. -/
def Stored (m : Memory) (k : Nat) : Prop := Holds m su.loadAddr.toNat (su.file.take (k * 512))

/-- What holds of the client in every state of a transfer into the memory `m₀`, when the first
`acked` blocks are acknowledged. -/
structure ClientInv (m₀ : Memory) (acked : Nat) (c : Client) : Prop where
  acked : Stored su c.mem acked
  block : c.net ≠ .again → c.block.toNat ≤ blocks su ∧ Stored su c.mem c.block.toNat
  last : c.state = .data → c.blockWrapOffset = 0 ∧ Stored su c.mem c.lastBlock.toNat
  state : c.state ≠ .tooLarge ∧ c.state ≠ .badMagic
  server : c.state ≠ .rrq → c.serverPort = su.serverPort
  size : c.xferSize.toNat ≤ su.file.length
  success : c.net = .success →
    Holds c.mem su.loadAddr.toNat su.file ∧ c.xferSize.toNat = su.file.length
  frame : ∀ a, ¬(su.loadAddr.toNat ≤ a ∧ a < su.loadAddr.toNat + su.file.length) → c.mem a = m₀ a

/-- An acknowledgement of a block vouches for all blocks up to it. -/
def Vouched (m : Memory) (ps : List Packet) : Prop :=
  ∀ p ∈ ps, ∀ k ≤ blocks su, Acks p k → Stored su m k

structure Inv (m₀ : Memory) (s : System) : Prop where
  packets : ∀ p ∈ s.toClient, (∃ options, p = oackPacket su s.client.ourPort options) ∨
    ∃ k, 1 ≤ k ∧ k ≤ s.acked + 1 ∧ k ≤ blocks su ∧ p = dataPacket su s.client.ourPort k
  acks : Vouched su s.client.mem s.toServer
  client : ClientInv su m₀ s.acked s.client

/-- What a handler may do. -/
structure Good (m₀ : Memory) (acked : Nat) (c : Client) (r : Client × List Packet) : Prop where
  inv : ClientInv su m₀ acked r.1
  port : r.1.ourPort = c.ourPort
  keeps : ∀ k, Stored su c.mem k → Stored su r.1.mem k
  sent : Vouched su r.1.mem r.2

variable {su} {m₀ m : Memory} {acked j k : Nat} {c : Client} {s t : System} {p : Packet}

theorem ntohs_htons (n : UInt16) : ntohs (n >>> 8).toUInt8 n.toUInt8 = n := by
  have hn := n.toNat_lt
  rw [ntohs, ← UInt16.toNat_inj, UInt16.toNat_or, UInt16.toNat_shiftLeft, UInt8.toNat_toUInt16,
    UInt8.toNat_toUInt16, UInt16.toNat_toUInt8, UInt16.toNat_toUInt8, UInt16.toNat_shiftRight]
  simp only [show (8 : UInt16).toNat % 16 = 8 from rfl, Nat.shiftRight_eq_div_pow,
    Nat.shiftLeft_eq]
  have hor : n.toNat / 2 ^ 8 % 2 ^ 8 * 2 ^ 8 % 2 ^ 16 ||| n.toNat % 2 ^ 8 =
      2 ^ 8 * (n.toNat / 2 ^ 8) + n.toNat % 2 ^ 8 := by
    rw [Nat.two_pow_add_eq_or_of_lt (Nat.mod_lt _ (by decide)) (n.toNat / 2 ^ 8)]
    congr 1
    omega
  omega

theorem htons_inj {n n' : UInt16} (h : htons n = htons n') : n = n' := by
  obtain ⟨hhi, hlo⟩ := List.cons.inj h
  rw [← ntohs_htons n, ← ntohs_htons n', hhi, (List.cons.inj hlo).1]

theorem toNat_number (h : k ≤ blocks su) : (UInt16.ofNat k).toNat = k := by
  have hfit := su.blocksFit
  rw [blocks] at h
  have hlt : k < UInt16.size := Nat.lt_of_le_of_lt h hfit
  exact UInt16.toNat_ofNat_of_lt' hlt

theorem Stored.mono (h : Stored su m k) (hle : j ≤ k) : Stored su m j := by
  have hprefix : su.file.take (j * 512) = (su.file.take (k * 512)).take (j * 512) := by
    rw [List.take_take, Nat.min_eq_left (Nat.mul_le_mul_right 512 hle)]
  rw [Stored, hprefix]
  intro i hi
  have hi' : i < (su.file.take (k * 512)).length :=
    Nat.lt_of_lt_of_le hi (List.length_take_le' _ _)
  rw [List.getElem_take]
  exact h i hi'

theorem stored_zero (m : Memory) : Stored su m 0 := by
  rw [Stored, Nat.zero_mul, List.take_zero]
  exact holds_nil _ _

/-- All blocks are the file. -/
theorem stored_blocks : Stored su m (blocks su) ↔ Holds m su.loadAddr.toNat su.file := by
  rw [Stored, List.take_of_length_le]
  rw [blocks]
  omega

/-- Where block `k` goes. -/
def stored (su : Setup) (m : Memory) (k : Nat) : Memory :=
  store m (su.loadAddr.toNat + (k - 1) * 512) (blockOf su k)

theorem Stored.keep (h : Stored su m j) (k : Nat) : Stored su (stored su m k) j :=
  h.store_slice ((k - 1) * 512) 512

theorem Stored.next (h : Stored su m j) (hk : 1 ≤ k) (hle : k ≤ j + 1) :
    Stored su (stored su m k) k := by
  have hnext := h.store_next (i := (k - 1) * 512) (Nat.mul_le_mul_right 512 (by omega)) 512
  rw [show (k - 1) * 512 + 512 = k * 512 by omega] at hnext
  exact hnext

theorem length_blockOf (hk : 1 ≤ k) (hle : k ≤ blocks su) :
    (k - 1) * 512 + (blockOf su k).length = min (k * 512) su.file.length := by
  rw [blocks] at hle
  rw [blockOf, List.length_take, List.length_drop]
  omega

/-- Only an acknowledgement vouches for blocks, and that for those up to the last one. -/
theorem vouched_send (hle : c.block.toNat ≤ blocks su) (h : Stored su c.mem c.block.toNat) :
    Vouched su c.mem [tftpSend su.filename c] := by
  intro p hp k hk hack
  rw [List.mem_singleton] at hp
  subst hp
  have hnumber : htons tftpAck ++ htons c.block.toUInt16 =
      htons tftpAck ++ htons (UInt16.ofNat k) → Stored su c.mem k := by
    intro heq
    have hn := congrArg UInt16.toNat (htons_inj (List.append_cancel_left heq))
    have hfit := su.blocksFit
    rw [blocks] at hle
    rw [toNat_number hk, UInt32.toNat_toUInt16, Nat.mod_eq_of_lt (by omega)] at hn
    rw [← hn]
    exact h
  rw [Acks, tftpSend] at hack
  cases hstate : c.state with
  | data => exact hnumber (by rw [hstate] at hack; exact hack)
  | oack => exact hnumber (by rw [hstate] at hack; exact hack)
  | rrq =>
    rw [hstate] at hack
    exact absurd (List.cons.inj (List.cons.inj hack).2).1 (by decide)
  | tooLarge =>
    rw [hstate] at hack
    exact absurd (List.cons.inj (List.cons.inj hack).2).1 (by decide)
  | badMagic =>
    rw [hstate] at hack
    exact absurd (List.cons.inj (List.cons.inj hack).2).1 (by decide)

theorem toNat_block (hk : 1 ≤ k) (hle : k ≤ blocks su) :
    ((UInt16.ofNat k).toUInt32 - 1).toNat = k - 1 := by
  have hn := toNat_number hle
  have hlt := (UInt16.ofNat k).toNat_lt
  rw [UInt32.toNat_sub, UInt16.toNat_toUInt32, hn, show (1 : UInt32).toNat = 1 from rfl]
  omega

/-- Without a wrap around, block `k` goes to its place. -/
theorem storeBlock_eq (hk : 1 ≤ k) (hle : k ≤ blocks su) (hoffset : c.blockWrapOffset = 0) :
    ∃ size : UInt32, storeBlock su.loadAddr ((UInt16.ofNat k).toUInt32 - 1) (blockOf su k) c =
        { c with mem := stored su c.mem k, xferSize := size } ∧
      size.toNat = max c.xferSize.toNat (min (k * 512) su.file.length) := by
  have hblock := toNat_block hk hle
  have hlength := length_blockOf hk hle
  have hfit := su.blocksFit
  have hmemory := su.memoryFits
  have hblocks := hle
  rw [blocks] at hblocks
  have hoff : (((UInt16.ofNat k).toUInt32 - 1) * tftpBlockSize + c.blockWrapOffset).toNat =
      (k - 1) * 512 := by
    rw [hoffset, UInt32.add_zero, UInt32.toNat_mul, hblock, show tftpBlockSize.toNat = 512 from rfl]
    omega
  have haddr : (su.loadAddr + (((UInt16.ofNat k).toUInt32 - 1) * tftpBlockSize +
      c.blockWrapOffset)).toNat = su.loadAddr.toNat + (k - 1) * 512 := by
    rw [UInt32.toNat_add, hoff]
    omega
  have hnew : (((UInt16.ofNat k).toUInt32 - 1) * tftpBlockSize + c.blockWrapOffset +
      UInt32.ofNat (blockOf su k).length).toNat = min (k * 512) su.file.length := by
    rw [UInt32.toNat_add, hoff, UInt32.toNat_ofNat']
    omega
  refine ⟨(storeBlock su.loadAddr ((UInt16.ofNat k).toUInt32 - 1) (blockOf su k) c).xferSize,
    ?_, ?_⟩
  · rw [stored, ← haddr]
    rfl
  · rw [storeBlock]
    dsimp only
    split
    · rename_i hlt
      rw [UInt32.lt_iff_toNat_lt, hnew] at hlt
      omega
    · rename_i hge
      rw [UInt32.lt_iff_toNat_lt, hnew] at hge
      omega

theorem frame_stored (hk : 1 ≤ k) (hle : k ≤ blocks su) {a : Nat}
    (ha : ¬(su.loadAddr.toNat ≤ a ∧ a < su.loadAddr.toNat + su.file.length)) :
    stored su m k a = m a := by
  have hlength := length_blockOf hk hle
  rw [stored]
  by_cases hlt : a < su.loadAddr.toNat
  · exact store_of_lt (by omega)
  · exact store_of_ge (by omega)

/-- A block that comes with a new number. -/
theorem newBlock_good (hacked : Stored su c.mem acked) (hk : 1 ≤ k) (hk' : k ≤ acked + 1)
    (hle : k ≤ blocks su) (hblock : c.block = (UInt16.ofNat k).toUInt32) (hstate : c.state = .data)
    (hserver : c.serverPort = su.serverPort) (hoffset : c.blockWrapOffset = 0)
    (hgoing : c.net = .going) (hsize : c.xferSize.toNat ≤ su.file.length)
    (hframe : ∀ a, ¬(su.loadAddr.toNat ≤ a ∧ a < su.loadAddr.toNat + su.file.length) →
      c.mem a = m₀ a) :
    Good su m₀ acked c (newBlock su.filename su.loadAddr (blockOf su k) c) := by
  obtain ⟨size, hstore, hnew⟩ :=
    storeBlock_eq (c := { c with lastBlock := c.block }) hk hle hoffset
  rw [← hblock] at hstore
  have hnumber : c.block.toNat = k := by
    rw [hblock, UInt16.toNat_toUInt32, toNat_number hle]
  have hnext := hacked.next hk hk'
  have hlength := length_blockOf hk hle
  -- The client before the result is set.
  have hinv : ClientInv su m₀ acked
      { c with lastBlock := c.block, mem := stored su c.mem k, xferSize := size } := by
    refine ⟨hacked.keep k, fun _ => ?_, fun _ => ⟨hoffset, ?_⟩, ?_, fun _ => hserver, ?_,
      fun hs => ?_, fun a ha => ?_⟩
    · show c.block.toNat ≤ _ ∧ Stored su _ c.block.toNat
      rw [hnumber]
      exact ⟨hle, hnext⟩
    · show Stored su _ c.block.toNat
      rw [hnumber]
      exact hnext
    · rw [hstate]
      exact ⟨nofun, nofun⟩
    · show size.toNat ≤ _
      have hsize' : ({ c with lastBlock := c.block } : Client).xferSize.toNat ≤ su.file.length :=
        hsize
      omega
    · exact absurd (hgoing.symm.trans hs) nofun
    · exact (frame_stored hk hle ha).trans (hframe a ha)
  have hvouched := vouched_send (hinv.block (by rw [hgoing]; nofun)).1
    (hinv.block (by rw [hgoing]; nofun)).2
  rw [newBlock]
  dsimp only
  rw [hstore]
  by_cases hshort : (blockOf su k).length < tftpBlockSize.toNat
  · rw [if_pos hshort]
    have hlast : k = blocks su := by
      rw [show tftpBlockSize.toNat = 512 from rfl] at hshort
      rw [blocks] at hle ⊢
      omega
    refine ⟨⟨hinv.acked, fun _ => hinv.block (by rw [hgoing]; nofun), hinv.last, hinv.state,
      hinv.server, hinv.size, fun _ => ⟨?_, ?_⟩, hinv.frame⟩, rfl, fun j hj => hj.keep k,
      hvouched⟩
    · rw [← stored_blocks, ← hlast]
      exact hnext
    · show size.toNat = _
      have hsize' : ({ c with lastBlock := c.block } : Client).xferSize.toNat ≤ su.file.length :=
        hsize
      rw [blocks] at hlast
      omega
  · rw [if_neg hshort]
    exact ⟨hinv, rfl, fun j hj => hj.keep k, hvouched⟩

theorem vouched_nil (m : Memory) : Vouched su m [] := fun _ hp => absurd hp List.not_mem_nil

/-- A packet that is ignored. -/
theorem good_same (h : ClientInv su m₀ acked c) : Good su m₀ acked c (c, []) :=
  ⟨h, rfl, fun _ hk => hk, vouched_nil _⟩

theorem good_again (h : ClientInv su m₀ acked c) {c' : Client} (hmem : c'.mem = c.mem)
    (hsize : c'.xferSize = c.xferSize) (hport : c'.ourPort = c.ourPort) (hnet : c'.net = .again)
    (hlast : c'.state = .data → c'.blockWrapOffset = 0 ∧ Stored su c'.mem c'.lastBlock.toNat)
    (hstate : c'.state ≠ .tooLarge ∧ c'.state ≠ .badMagic)
    (hserver : c'.state ≠ .rrq → c'.serverPort = su.serverPort) :
    Good su m₀ acked c (c', []) := by
  refine ⟨⟨?_, fun hne => absurd hnet hne, hlast, hstate, hserver, ?_, fun hs => ?_, ?_⟩, hport, ?_,
    vouched_nil _⟩
  · exact hmem ▸ h.acked
  · exact hsize ▸ h.size
  · exact absurd (hnet.symm.trans hs) nofun
  · exact hmem ▸ h.frame
  · exact fun k hk => hmem ▸ hk

theorem countWrap_number (hk : 1 ≤ k) (hle : k ≤ blocks su) (c : Client) :
    countWrap { c with block := (UInt16.ofNat k).toUInt32 } =
      { c with block := (UInt16.ofNat k).toUInt32 } := by
  apply if_neg
  intro h0
  have hn := congrArg UInt32.toNat h0
  rw [UInt16.toNat_toUInt32, toNat_number hle, show (0 : UInt32).toNat = 0 from rfl] at hn
  omega

theorem dataBlock_again (hfirst : c.state = .rrq ∨ c.state = .oack) (hk : 1 ≤ k)
    (hle : k ≤ blocks su) (hone : k ≠ 1) :
    dataBlock su.filename su.loadAddr (UInt16.ofNat k) su.serverPort (blockOf su k) c =
      ({ firstBlock su.serverPort { c with block := (UInt16.ofNat k).toUInt32 } with
          net := .again }, []) := by
  rw [dataBlock, countWrap_number hk hle]
  dsimp only
  rw [if_pos hfirst]
  refine if_pos ⟨hfirst, fun h => hone ?_⟩
  have hn := congrArg UInt32.toNat h
  rwa [show (firstBlock _ _).block = (UInt16.ofNat k).toUInt32 from rfl, UInt16.toNat_toUInt32,
    toNat_number hle] at hn

theorem dataBlock_first (hfirst : c.state = .rrq ∨ c.state = .oack) :
    dataBlock su.filename su.loadAddr (UInt16.ofNat 1) su.serverPort (blockOf su 1) c =
      newBlock su.filename su.loadAddr (blockOf su 1)
        (firstBlock su.serverPort { c with block := (UInt16.ofNat 1).toUInt32 }) := by
  rw [dataBlock, countWrap_number (Nat.le_refl 1) (show 1 ≤ blocks su from Nat.succ_pos _)]
  dsimp only
  rw [if_pos hfirst]
  exact (if_neg fun h => h.2 rfl).trans (if_neg nofun)

theorem dataBlock_same (hfirst : ¬(c.state = .rrq ∨ c.state = .oack)) (hk : 1 ≤ k)
    (hle : k ≤ blocks su) (hsame : (UInt16.ofNat k).toUInt32 = c.lastBlock) :
    dataBlock su.filename su.loadAddr (UInt16.ofNat k) su.serverPort (blockOf su k) c =
      ({ c with block := (UInt16.ofNat k).toUInt32 }, []) := by
  rw [dataBlock, countWrap_number hk hle]
  dsimp only
  rw [if_neg hfirst, if_neg (fun h => hfirst h.1), if_pos hsame]

theorem dataBlock_new (hfirst : ¬(c.state = .rrq ∨ c.state = .oack)) (hk : 1 ≤ k)
    (hle : k ≤ blocks su) (hnew : (UInt16.ofNat k).toUInt32 ≠ c.lastBlock) :
    dataBlock su.filename su.loadAddr (UInt16.ofNat k) su.serverPort (blockOf su k) c =
      newBlock su.filename su.loadAddr (blockOf su k)
        { c with block := (UInt16.ofNat k).toUInt32 } := by
  rw [dataBlock, countWrap_number hk hle]
  dsimp only
  rw [if_neg hfirst, if_neg (fun h => hfirst h.1), if_neg hnew]

theorem state_data (h : c.state ≠ .tooLarge ∧ c.state ≠ .badMagic)
    (hfirst : ¬(c.state = .rrq ∨ c.state = .oack)) : c.state = .data := by
  cases hs : c.state with
  | data => rfl
  | rrq => exact absurd (.inl hs) hfirst
  | oack => exact absurd (.inr hs) hfirst
  | tooLarge => exact absurd hs h.1
  | badMagic => exact absurd hs h.2

/-- A block of the file that the server may send. -/
theorem dataBlock_good (h : ClientInv su m₀ acked c) (hgoing : c.net = .going) (hk : 1 ≤ k)
    (hk' : k ≤ acked + 1) (hle : k ≤ blocks su) :
    Good su m₀ acked c (dataBlock su.filename su.loadAddr (UInt16.ofNat k) su.serverPort
      (blockOf su k) c) := by
  by_cases hfirst : c.state = .rrq ∨ c.state = .oack
  · by_cases hone : k = 1
    · subst hone
      rw [dataBlock_first hfirst]
      have hgood := newBlock_good (c := firstBlock su.serverPort
        { c with block := (UInt16.ofNat 1).toUInt32 }) h.acked hk hk' hle rfl rfl rfl rfl hgoing
        h.size h.frame
      exact ⟨hgood.inv, hgood.port, hgood.keeps, hgood.sent⟩
    · rw [dataBlock_again hfirst hk hle hone]
      exact good_again h rfl rfl rfl rfl (fun _ => ⟨rfl, stored_zero _⟩) ⟨nofun, nofun⟩
        fun _ => rfl
  · have hstate := state_data h.state hfirst
    obtain ⟨hoffset, hlast⟩ := h.last hstate
    by_cases hsame : (UInt16.ofNat k).toUInt32 = c.lastBlock
    · have hnumber : c.lastBlock.toNat = k := by
        rw [← hsame, UInt16.toNat_toUInt32, toNat_number hle]
      rw [dataBlock_same hfirst hk hle hsame, hsame]
      refine ⟨⟨h.acked, fun _ => ⟨?_, hlast⟩, h.last, h.state, h.server, h.size, h.success,
        h.frame⟩, rfl, fun _ hj => hj, vouched_nil _⟩
      rw [hnumber]
      exact hle
    · rw [dataBlock_new hfirst hk hle hsame]
      have hgood := newBlock_good (c := { c with block := (UInt16.ofNat k).toUInt32 }) h.acked hk
        hk' hle rfl hstate (h.server (by rw [hstate]; nofun)) hoffset hgoing h.size h.frame
      exact ⟨hgood.inv, hgood.port, hgood.keeps, hgood.sent⟩

theorem handler_data (p : UInt16) (k : Nat) (c : Client) :
    tftpHandler su.filename su.loadAddr (dataPacket su p k) c = (c, []) ∨
      tftpHandler su.filename su.loadAddr (dataPacket su p k) c =
        dataBlock su.filename su.loadAddr (UInt16.ofNat k) su.serverPort (blockOf su k) c := by
  rw [tftpHandler]
  split
  · exact .inl rfl
  · split
    · exact .inl rfl
    · right
      show dataBlock _ _ (ntohs _ _) _ _ _ = _
      rw [ntohs_htons]
      rfl

theorem handler_oack (p : UInt16) (options : List UInt8) (c : Client) :
    tftpHandler su.filename su.loadAddr (oackPacket su p options) c = (c, []) ∨
      tftpHandler su.filename su.loadAddr (oackPacket su p options) c =
        ({ c with state := .oack, serverPort := su.serverPort },
          [tftpSend su.filename { c with state := .oack, serverPort := su.serverPort }]) := by
  rw [tftpHandler]
  split
  · exact .inl rfl
  · split
    · exact .inl rfl
    · exact .inr rfl

/-- A packet that the server may have sent. -/
theorem handler_good (h : ClientInv su m₀ acked c) (hgoing : c.net = .going)
    (hp : (∃ options, p = oackPacket su c.ourPort options) ∨
      ∃ k, 1 ≤ k ∧ k ≤ acked + 1 ∧ k ≤ blocks su ∧ p = dataPacket su c.ourPort k) :
    Good su m₀ acked c (tftpHandler su.filename su.loadAddr p c) := by
  rcases hp with ⟨options, rfl⟩ | ⟨k, hk, hk', hle, rfl⟩
  · rcases handler_oack c.ourPort options c with heq | heq
    · rw [heq]
      exact good_same h
    · rw [heq]
      have hblock := h.block (by rw [hgoing]; nofun)
      refine ⟨⟨h.acked, h.block, nofun, ⟨nofun, nofun⟩, fun _ => rfl, h.size, h.success, h.frame⟩,
        rfl, fun _ hj => hj, ?_⟩
      exact vouched_send (c := { c with state := .oack, serverPort := su.serverPort }) hblock.1
        hblock.2
  · rcases handler_data c.ourPort k c with heq | heq
    · rw [heq]
      exact good_same h
    · rw [heq]
      exact dataBlock_good h hgoing hk hk' hle

theorem timeout_good (h : ClientInv su m₀ acked c) (hgoing : c.net = .going) :
    Good su m₀ acked c (tftpTimeout su.filename c) := by
  rw [tftpTimeout]
  dsimp only
  split
  · exact good_again h rfl rfl rfl rfl h.last h.state h.server
  · have hblock := h.block (by rw [hgoing]; nofun)
    refine ⟨⟨h.acked, h.block, h.last, h.state, h.server, h.size, h.success, h.frame⟩, rfl,
      fun _ hj => hj, ?_⟩
    exact vouched_send (c := { c with timeoutCount := c.timeoutCount + 1 }) hblock.1 hblock.2

theorem Inv.client_step (h : Inv su m₀ s) {r : Client × List Packet}
    (hr : Good su m₀ s.acked s.client r) : Inv su m₀ (s.client_step r) := by
  refine ⟨?_, ?_, hr.inv⟩
  · show ∀ p ∈ s.toClient, (∃ options, p = oackPacket su r.1.ourPort options) ∨
      ∃ k, 1 ≤ k ∧ k ≤ s.acked + 1 ∧ k ≤ blocks su ∧ p = dataPacket su r.1.ourPort k
    rw [hr.port]
    exact h.packets
  · intro p hp k hk hack
    rcases List.mem_append.mp hp with hp | hp
    · exact hr.sent p hp k hk hack
    · exact hr.keeps k (h.acks p hp k hk hack)

theorem Step.inv (hstep : Step su s t) (h : Inv su m₀ s) : Inv su m₀ t := by
  cases hstep with
  | send k h₁ h₂ h₃ =>
    refine ⟨fun p hp => ?_, h.acks, h.client⟩
    rcases List.mem_cons.mp hp with rfl | hp
    · exact .inr ⟨k, h₁, h₂, h₃, rfl⟩
    · exact h.packets p hp
  | oack options =>
    refine ⟨fun p hp => ?_, h.acks, h.client⟩
    rcases List.mem_cons.mp hp with rfl | hp
    · exact .inl ⟨options, rfl⟩
    · exact h.packets p hp
  | ack p k h₁ h₂ h₃ =>
    refine ⟨fun p hp => ?_, h.acks, ?_⟩
    · refine (h.packets p hp).imp_right fun ⟨j, hj, hj', hle, heq⟩ => ⟨j, hj, ?_, hle, heq⟩
      exact Nat.le_trans hj' (Nat.succ_le_succ (Nat.le_max_left _ _))
    · have hacked : Stored su s.client.mem (max s.acked k) := by
        rcases Nat.le_total s.acked k with hle | hle
        · rw [Nat.max_eq_right hle]
          exact h.acks p h₁ k h₃ h₂
        · rw [Nat.max_eq_left hle]
          exact h.client.acked
      exact ⟨hacked, h.client.block, h.client.last, h.client.state, h.client.server, h.client.size,
        h.client.success, h.client.frame⟩
  | deliver p h₁ h₂ => exact h.client_step (handler_good h.client h₂ (h.packets p h₁))
  | timeout h₁ => exact h.client_step (timeout_good h.client h₁)

theorem Inv.run (h : Inv su m₀ s) (hrun : Relation.ReflTransGen (Step su) s t) : Inv su m₀ t := by
  induction hrun with
  | refl => exact h
  | tail _ hlast ih => exact hlast.inv ih

theorem inv_start (su : Setup) (timer : UInt32) (c : Client) :
    Inv su c.mem (System.start su timer c) := by
  have hblock : ClientInv su c.mem 0 (tftpStart timer c) :=
    ⟨stored_zero _, fun _ => ⟨Nat.zero_le _, stored_zero _⟩, nofun, ⟨nofun, nofun⟩,
      fun h => absurd rfl h, Nat.zero_le _, nofun, fun _ _ => rfl⟩
  refine ⟨fun _ hp => absurd hp List.not_mem_nil, ?_, hblock⟩
  exact vouched_send (Nat.zero_le _) (stored_zero _)

/-- In every state of every run, a client that reports success has the file in memory, byte for
byte, and its length, and nothing outside of the place of the file was written. -/
theorem transfer_safe (su : Setup) (timer : UInt32) (c : Client)
    (hrun : Relation.ReflTransGen (Step su) (System.start su timer c) s) :
    (s.client.net = .success → Holds s.client.mem su.loadAddr.toNat su.file ∧
      s.client.xferSize.toNat = su.file.length) ∧
    ∀ a, ¬(su.loadAddr.toNat ≤ a ∧ a < su.loadAddr.toNat + su.file.length) →
      s.client.mem a = c.mem a := by
  have hinv : Inv su c.mem s := (inv_start su timer c).run hrun
  exact ⟨hinv.client.success, hinv.client.frame⟩

theorem length_blockOf_lt (hk : 1 ≤ k) (hle : k ≤ blocks su) :
    (blockOf su k).length < tftpBlockSize.toNat ↔ k = blocks su := by
  have hlength := length_blockOf hk hle
  rw [show tftpBlockSize.toNat = 512 from rfl]
  rw [blocks] at hle ⊢
  omega

/-- What a new block leaves of the client's progress. -/
theorem newBlock_result (hk : 1 ≤ k) (hle : k ≤ blocks su)
    (hblock : c.block = (UInt16.ofNat k).toUInt32) (hstate : c.state = .data) :
    let r := newBlock su.filename su.loadAddr (blockOf su k) c
    r.1.state = .data ∧ r.1.lastBlock = (UInt16.ofNat k).toUInt32 ∧
      r.1.net = (if k = blocks su then .success else c.net) ∧ ∃ p, r.2 = [p] ∧ Acks p k := by
  have hack : ∀ c' : Client, c'.state = .data → c'.block = (UInt16.ofNat k).toUInt32 →
      Acks (tftpSend su.filename c') k := by
    intro c' hs hb
    rw [Acks, tftpSend, hs, hb]
    show htons tftpAck ++ htons (UInt16.ofNat k).toUInt32.toUInt16 = _
    rw [UInt16.toUInt16_toUInt32]
  have hshort := length_blockOf_lt hk hle
  rw [newBlock]
  dsimp only
  by_cases hlast : k = blocks su
  · rw [if_pos (hshort.mpr hlast)]
    exact ⟨hstate, hblock, (if_pos hlast).symm, _, rfl, hack _ hstate hblock⟩
  · rw [if_neg (hshort.not.mpr hlast)]
    exact ⟨hstate, hblock, (if_neg hlast).symm, _, rfl, hack _ hstate hblock⟩

/-- The last block that a client has taken in a transfer is acknowledged on the way, and there is
another one. -/
def Open (su : Setup) (s : System) : Prop :=
  s.client.net = .going → s.client.state = .data →
    s.client.lastBlock = 0 ∨ ∃ k, 1 ≤ k ∧ k < blocks su ∧
      s.client.lastBlock = (UInt16.ofNat k).toUInt32 ∧ ∃ p ∈ s.toServer, Acks p k

theorem open_new (s : System) (hk : 1 ≤ k) (hle : k ≤ blocks su)
    (hblock : c.block = (UInt16.ofNat k).toUInt32) (hstate : c.state = .data) :
    Open su (s.client_step (newBlock su.filename su.loadAddr (blockOf su k) c)) := by
  obtain ⟨_, hlast, hnet, p, hsent, hack⟩ := newBlock_result hk hle hblock hstate
  intro hgoing _
  have hlt : k < blocks su := by
    rcases Nat.lt_or_eq_of_le hle with hlt | heq
    · exact hlt
    · rw [if_pos heq] at hnet
      exact absurd (hnet.symm.trans hgoing) nofun
  refine .inr ⟨k, hk, hlt, hlast, p, List.mem_append_left _ ?_, hack⟩
  rw [hsent]
  exact List.mem_cons_self

theorem Open.more {s : System} (h : Open su s) {c : Client}
    (hnet : c.net = s.client.net) (hstate : c.state = .data → s.client.state = .data)
    (hlast : c.lastBlock = s.client.lastBlock) (ps : List Packet) :
    Open su (s.client_step (c, ps)) := by
  intro hgoing hdata
  rcases h (hnet.symm.trans hgoing) (hstate hdata) with h0 | ⟨k, hk, hlt, heq, p, hp, hack⟩
  · exact .inl (hlast.trans h0)
  · exact .inr ⟨k, hk, hlt, hlast.trans heq, p, List.mem_append_right _ hp, hack⟩

/-- The handler on a data packet in three cases. -/
theorem dataBlock_open (hstate : s.client.state ≠ .tooLarge ∧ s.client.state ≠ .badMagic)
    (h : Open su s) (hk : 1 ≤ k) (hle : k ≤ blocks su) :
    Open su (s.client_step (dataBlock su.filename su.loadAddr (UInt16.ofNat k)
      su.serverPort (blockOf su k) s.client)) := by
  by_cases hfirst : s.client.state = .rrq ∨ s.client.state = .oack
  · by_cases hone : k = 1
    · subst hone
      rw [dataBlock_first hfirst]
      exact open_new s hk hle rfl rfl
    · rw [dataBlock_again hfirst hk hle hone]
      exact fun hgoing _ => absurd hgoing nofun
  · have hdata := state_data hstate hfirst
    by_cases hsame : (UInt16.ofNat k).toUInt32 = s.client.lastBlock
    · rw [dataBlock_same hfirst hk hle hsame]
      exact h.more rfl id rfl []
    · rw [dataBlock_new hfirst hk hle hsame]
      exact open_new s hk hle rfl hdata

theorem Step.open (hstep : Step su s t) (hinv : Inv su m₀ s) (h : Open su s) :
    Open su t := by
  cases hstep with
  | send => exact h
  | oack => exact h
  | ack => exact h
  | deliver p h₁ h₂ =>
    rcases hinv.packets p h₁ with ⟨options, rfl⟩ | ⟨k, hk, _, hle, rfl⟩
    · rcases handler_oack s.client.ourPort options s.client with heq | heq
      · rw [heq]
        exact h.more rfl id rfl []
      · rw [heq]
        exact fun _ hdata => absurd hdata nofun
    · rcases handler_data s.client.ourPort k s.client with heq | heq
      · rw [heq]
        exact h.more rfl id rfl []
      · rw [heq]
        exact dataBlock_open hinv.client.state h hk hle
  | timeout h₁ =>
    rw [tftpTimeout]
    dsimp only
    split
    · exact fun hgoing _ => absurd hgoing nofun
    · exact h.more (c := { s.client with timeoutCount := s.client.timeoutCount + 1 }) rfl id rfl
        _

/-- A data packet of the server gets to the handler of blocks. -/
theorem handler_data_eq (h : ClientInv su m₀ acked c) :
    tftpHandler su.filename su.loadAddr (dataPacket su c.ourPort k) c =
      dataBlock su.filename su.loadAddr (UInt16.ofNat k) su.serverPort (blockOf su k) c := by
  refine (if_neg (not_not_intro rfl)).trans ?_
  refine (if_neg (fun hp => hp.2 (h.server hp.1).symm)).trans ?_
  show dataBlock _ _ (ntohs _ _) _ _ _ = _
  rw [ntohs_htons]
  rfl

/-- The server sends a block, and the client gets it. -/
theorem exchange (h : Inv su m₀ s) (hgoing : s.client.net = .going) (hk : 1 ≤ k)
    (hk' : k ≤ s.acked + 1) (hle : k ≤ blocks su) :
    ∃ t, Relation.ReflTransGen (Step su) s t ∧ t.client = (dataBlock su.filename su.loadAddr
      (UInt16.ofNat k) su.serverPort (blockOf su k) s.client).1 ∧ t.toServer = (dataBlock
        su.filename su.loadAddr (UInt16.ofNat k) su.serverPort (blockOf su k) s.client).2 ++
          s.toServer := by
  refine ⟨_, .head (.send s k hk hk' hle) (.single (.deliver _ _ List.mem_cons_self hgoing)),
    ?_, ?_⟩
  · exact congrArg Prod.fst (handler_data_eq h.client)
  · exact congrArg (Prod.snd · ++ s.toServer) (handler_data_eq h.client)

/-- The client has taken block `k` last, it is not the last one, and its acknowledgement is on the
way. -/
structure Taken (su : Setup) (k : Nat) (s : System) : Prop where
  going : s.client.net = .going
  state : s.client.state = .data
  number : 1 ≤ k ∧ k < blocks su
  last : s.client.lastBlock = (UInt16.ofNat k).toUInt32
  acks : ∃ p ∈ s.toServer, Acks p k

theorem number_ne (hj : j ≤ blocks su) (hk : k ≤ blocks su) (hne : j ≠ k) :
    (UInt16.ofNat j).toUInt32 ≠ (UInt16.ofNat k).toUInt32 := by
  intro heq
  have hn := congrArg UInt32.toNat heq
  rw [UInt16.toNat_toUInt32, UInt16.toNat_toUInt32, toNat_number hj, toNat_number hk] at hn
  exact hne hn

/-- From a new block the transfer goes on or is over. -/
theorem taken_new (hk : 1 ≤ k) (hle : k ≤ blocks su) {c : Client}
    (hblock : c.block = (UInt16.ofNat k).toUInt32) (hstate : c.state = .data)
    (hgoing : c.net = .going) (s : System)
    (hs : s.client = (newBlock su.filename su.loadAddr (blockOf su k) c).1)
    (hsent : ∃ ps, s.toServer = (newBlock su.filename su.loadAddr (blockOf su k) c).2 ++ ps) :
    s.client.net = .success ∨ Taken su k s := by
  obtain ⟨hdata, hlast, hnet, p, hp, hack⟩ := newBlock_result hk hle hblock hstate
  obtain ⟨ps, hps⟩ := hsent
  rw [← hs] at hdata hlast hnet
  by_cases heq : k = blocks su
  · rw [if_pos heq] at hnet
    exact .inl hnet
  · rw [if_neg heq, hgoing] at hnet
    refine .inr ⟨hnet, hdata, ⟨hk, by omega⟩, hlast, p, ?_, hack⟩
    rw [hps, hp]
    exact List.mem_cons_self

theorem Taken.next (h : Inv su m₀ s) (ht : Taken su k s) :
    ∃ t, Relation.ReflTransGen (Step su) s t ∧
      (t.client.net = .success ∨ Taken su (k + 1) t) := by
  obtain ⟨p, hp, hack⟩ := ht.acks
  obtain ⟨hk, hlt⟩ := ht.number
  have hstep := Step.ack s p k hp hack (Nat.le_of_lt hlt)
  obtain ⟨t, hrun, hclient, hsent⟩ := exchange (k := k + 1) (hstep.inv h) ht.going
    (Nat.succ_pos k) (Nat.succ_le_succ (Nat.le_max_right _ _)) hlt
  have hfirst : ¬(s.client.state = .rrq ∨ s.client.state = .oack) := by
    rw [ht.state]
    rintro (h | h) <;> cases h
  have hnew : (UInt16.ofNat (k + 1)).toUInt32 ≠ s.client.lastBlock := by
    rw [ht.last]
    exact number_ne hlt (Nat.le_of_lt hlt) (by omega)
  rw [dataBlock_new hfirst (Nat.succ_pos k) hlt hnew] at hclient hsent
  exact ⟨t, .head hstep hrun,
    taken_new (Nat.succ_pos k) hlt (c := { s.client with block := (UInt16.ofNat (k + 1)).toUInt32 })
      rfl ht.state ht.going t hclient ⟨_, hsent⟩⟩

/-- Block by block up to the last one. -/
theorem Taken.completes (h : Inv su m₀ s) (ht : Taken su k s) :
    ∃ t, Relation.ReflTransGen (Step su) s t ∧ t.client.net = .success := by
  have hlt := ht.number.2
  generalize hn : blocks su - k = n
  induction n generalizing s k with
  | zero => omega
  | succ n ih =>
    obtain ⟨t, hrun, hdone | htaken⟩ := ht.next h
    · exact ⟨t, hrun, hdone⟩
    · obtain ⟨u, hrun', hdone⟩ := ih (h.run hrun) htaken htaken.number.2 (by omega)
      exact ⟨u, hrun.trans hrun', hdone⟩

/-- From every state that a run reaches, unless the client has given up, the transfer can still be
completed. -/
theorem transfer_completes (su : Setup) (timer : UInt32) (c : Client)
    (hrun : Relation.ReflTransGen (Step su) (System.start su timer c) s)
    (hnet : s.client.net ≠ .again) :
    ∃ t, Relation.ReflTransGen (Step su) s t ∧ t.client.net = .success := by
  have hinv : Inv su c.mem s := (inv_start su timer c).run hrun
  have hopen : Open su s := by
    clear hnet hinv
    induction hrun with
    | refl => exact fun _ hdata => absurd hdata nofun
    | tail hrun hlast ih => exact hlast.open ((inv_start su timer c).run hrun) ih
  cases hgoing : s.client.net with
  | again => exact absurd hgoing hnet
  | success => exact ⟨s, .refl, hgoing⟩
  | going =>
    -- The first block again: it is taken, or has been taken last.
    have hone : 1 ≤ blocks su := Nat.succ_pos _
    obtain ⟨t, hrun', hclient, hsent⟩ := exchange (k := 1) hinv hgoing (Nat.le_refl 1)
      (Nat.succ_le_succ (Nat.zero_le _)) hone
    have hgo : t.client.net = .success ∨ Taken su 1 t := by
      by_cases hfirst : s.client.state = .rrq ∨ s.client.state = .oack
      · rw [dataBlock_first hfirst] at hclient hsent
        exact taken_new (Nat.le_refl 1) hone (c := firstBlock su.serverPort
          { s.client with block := (UInt16.ofNat 1).toUInt32 }) rfl rfl hgoing t hclient ⟨_, hsent⟩
      · have hdata := state_data hinv.client.state hfirst
        by_cases hsame : (UInt16.ofNat 1).toUInt32 = s.client.lastBlock
        · rw [dataBlock_same hfirst (Nat.le_refl 1) hone hsame] at hclient hsent
          rcases hopen hgoing hdata with h0 | ⟨k, hk, hlt, hlast, p, hp, hack⟩
          · rw [h0] at hsame
            exact absurd hsame (by decide)
          · have hk1 : k = 1 := by
              by_contra hne
              exact number_ne hone (Nat.le_of_lt hlt) (Ne.symm hne) (hsame.trans hlast)
            subst hk1
            refine .inr ⟨?_, ?_, ⟨hk, hlt⟩, ?_, p, ?_, hack⟩
            · rw [hclient]
              exact hgoing
            · rw [hclient]
              exact hdata
            · rw [hclient]
              exact hsame.symm
            · rw [hsent]
              exact hp
        · rw [dataBlock_new hfirst (Nat.le_refl 1) hone hsame] at hclient hsent
          exact taken_new (Nat.le_refl 1) hone
            (c := { s.client with block := (UInt16.ofNat 1).toUInt32 }) rfl hdata hgoing t hclient
            ⟨_, hsent⟩
    rcases hgo with hdone | htaken
    · exact ⟨t, hrun', hdone⟩
    · obtain ⟨u, hrun'', hdone⟩ := htaken.completes (hinv.run hrun')
      exact ⟨u, hrun'.trans hrun'', hdone⟩

/-- A file of two blocks, the second one of three bytes. -/
def twoBlocks : Setup where
  file := List.replicate 512 0xAB ++ [1, 2, 3]
  filename := [0x66]
  loadAddr := 0x81008000
  serverPort := 2000
  blocksFit := by decide +kernel
  memoryFits := by decide +kernel

def idle : Client := ⟨0, 0, 0, 0, 0, 0, 0, .rrq, .going, 0, fun _ => 0⟩

/-- The first acknowledgement is lost and sent again behind a timeout; the first block comes again
before it and once more in front of the second one. -/
theorem transfer_safe_two :
    ∃ s, Relation.ReflTransGen (Step twoBlocks) (System.start twoBlocks 0 idle) s ∧
      s.client.net = .success ∧ Holds s.client.mem 0x81008000 twoBlocks.file := by
  have hfirst : Relation.ReflTransGen (Step twoBlocks) (System.start twoBlocks 0 idle) _ :=
    .single (.send _ 1 (by decide) (by decide) (by decide +kernel))
  have htaken := hfirst.tail (.deliver _ _ List.mem_cons_self rfl)
  have hagain := htaken.tail (.deliver _ _ List.mem_cons_self (by decide +kernel))
  have htimeout := hagain.tail (.timeout _ (by decide +kernel))
  have hacked := htimeout.tail
    (.ack _ ⟨2000, 1024, htons tftpAck ++ htons 1⟩ 1 (by decide +kernel) rfl (by decide +kernel))
  have hsecond := hacked.tail (.send _ 2 (by decide) (by decide +kernel) (by decide +kernel))
  have hold := hsecond.tail
    (.deliver _ _ (List.mem_cons_of_mem _ List.mem_cons_self) (by decide +kernel))
  have hlast := hold.tail (.deliver _ _ List.mem_cons_self (by decide +kernel))
  obtain ⟨hdone, _⟩ := transfer_safe twoBlocks 0 idle hlast
  have hsuccess := hdone (by decide +kernel)
  exact ⟨_, hlast, by decide +kernel, hsuccess.1⟩

theorem transfer_completes_two :
    ∃ t, Relation.ReflTransGen (Step twoBlocks) (System.start twoBlocks 0 idle) t ∧
      t.client.net = .success :=
  transfer_completes twoBlocks 0 idle .refl nofun

end Plak1a.Net.Transfer
