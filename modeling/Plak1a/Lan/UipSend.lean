import Plak1a.Lib.Bytes
import Plak1a.Lib.Fields
import Plak1a.Lib.Memory
import Plak1a.Lan.TxComplete
import Plak1a.Lan.UipRead

/-!
# What `tapdev_send` puts on the wire

uIP keeps the headers of a packet in `uip_buf` and may keep its data elsewhere, at
`uip_appdata`. Three loops gather them in a buffer of their own, `lan9118_write` copies that
to the transmit buffer, and `sendToNet` cuts it into words. The link header is gathered
whatever the length, so that a shorter packet leaves bytes behind its end that are not sent.
-/

namespace Plak1a.Lan.UipSend

open Plak1a.Lib.Run Plak1a.Lib.Memory Plak1a.Lib.Bytes Transmit UipRead

def uipLlhLen : Nat := 14

def uipTcpipHlen : Nat := 40

/-- `dmtx` and `addr` -/
structure Gather where
  dmtx : Nat → UInt8
  addr : Nat

/-- `dmtx[addr++] = *(src + t)` for `n` values of `t` -/
def gatherLoop (src : Nat → UInt8) : (n t : Nat) → Gather → Gather
  | 0, _, g => g
  | n + 1, t, g =>
    gatherLoop src n (t + 1) ⟨Function.update g.dmtx g.addr (src t), g.addr + 1⟩

/-- The contents of `dmtx` at the call of `lan9118_write`; `addr` is not read any more there. -/
def gathered (uipBuf uipAppdata : Nat → UInt8) (uipLen : Nat) (dmtx : Nat → UInt8) : Nat → UInt8 :=
  let g := gatherLoop uipBuf uipLlhLen 0 ⟨dmtx, 0⟩
  let g :=
    if uipLen ≤ uipLlhLen + uipTcpipHlen then gatherLoop uipBuf (uipLen - uipLlhLen) uipLlhLen g
    else
      let g := gatherLoop uipBuf uipTcpipHlen uipLlhLen g
      gatherLoop uipAppdata (uipLen - uipTcpipHlen - uipLlhLen) 0 g
  g.dmtx

/-- `tapdev_send()`, up to the first access of `lan9118_write` to the chip. -/
def tapdevSend (addr : UInt32) (s : State) (uipBuf uipAppdata : Nat → UInt8) (uipLen : Nat)
    (dmtx : Nat → UInt8) : Option State :=
  step .uip addr s (.call (gathered uipBuf uipAppdata uipLen dmtx) uipLen)

/-- The words an action writes to `TX_FIFO_PORT`. -/
def pushed (addr : UInt32) (s : State) : Action → List UInt32
  | .task _ =>
    match s.pc with
    | .send len => sendToNet addr s.txbp len (s.lastTxTag + 1)
    | _ => []
  | _ => []

def isTask : Action → Bool
  | .task _ => true
  | _ => false

def isCall : Action → Bool
  | .call _ _ => true
  | _ => false

/-- The packet as uIP holds it. -/
def packet (uipBuf uipAppdata : Nat → UInt8) (i : Nat) : UInt8 :=
  if i < uipLlhLen + uipTcpipHlen then uipBuf i else uipAppdata (i - (uipLlhLen + uipTcpipHlen))

/-- The length field of the two command words. -/
def lengthField (w : UInt32) : Nat := (w &&& 0x7FF).toNat

/-- The two commands and the words of a packet. -/
def Carries (words : List UInt32) (p : Nat → UInt8) (len : Nat) : Prop :=
  ∃ a b ws, words = a :: b :: ws ∧ lengthField a = len ∧ lengthField b = len ∧
    ws.length = (len + 3) / 4 ∧ ∀ i < len, ∃ w, ws[i / 4]? = some w ∧ byteOf w (i % 4) = p i

theorem gatherLoop_eq (src : Nat → UInt8) (n : Nat) : ∀ (t : Nat) (g : Gather),
    gatherLoop src n t g = ⟨copy g.dmtx g.addr src t n, g.addr + n⟩ := by
  induction n with
  | zero =>
    intro t g
    have hnone : copy g.dmtx g.addr src t 0 = g.dmtx := by
      funext i
      rw [copy, if_neg (by omega)]
    rw [gatherLoop, hnone]
    rfl
  | succ n ih =>
    intro t g
    rw [gatherLoop, ih]
    have hcopy : copy (Function.update g.dmtx g.addr (src t)) (g.addr + 1) src (t + 1) n =
        copy g.dmtx g.addr src t (n + 1) := by
      funext i
      unfold copy
      by_cases hi : i = g.addr
      · subst hi
        rw [if_neg (by omega), Function.update_self, if_pos (by omega), Nat.sub_self, Nat.add_zero]
      · rw [Function.update_of_ne hi]
        by_cases hin : g.addr + 1 ≤ i ∧ i < g.addr + 1 + n
        · rw [if_pos hin, if_pos (by omega)]
          congr 1
          omega
        · rw [if_neg hin, if_neg (by omega)]
    rw [hcopy]
    congr 1
    dsimp only
    omega

theorem gathered_eq (uipBuf uipAppdata dmtx : Nat → UInt8) {uipLen i : Nat} (hi : i < uipLen) :
    gathered uipBuf uipAppdata uipLen dmtx i = packet uipBuf uipAppdata i := by
  unfold gathered packet uipLlhLen uipTcpipHlen
  simp only [gatherLoop_eq]
  by_cases hlink : i < 14
  · rw [if_pos (Nat.lt_of_lt_of_le hlink (by decide))]
    split
    · dsimp only
      rw [copy_of_lt (by omega), copy_of_mem (Nat.zero_le _) (by omega), Nat.zero_add, Nat.sub_zero]
    · dsimp only
      rw [copy_of_lt (by omega), copy_of_lt (by omega), copy_of_mem (Nat.zero_le _) (by omega),
        Nat.zero_add, Nat.sub_zero]
  · split
    · dsimp only
      rw [copy_of_mem (by omega) (by omega), if_pos (by omega)]
      congr 1
      omega
    · dsimp only
      by_cases hheader : i < 14 + 40
      · rw [copy_of_lt (by omega), copy_of_mem (by omega) (by omega), if_pos hheader]
        congr 1
        omega
      · rw [copy_of_mem (by omega) (by omega), if_neg hheader]
        congr 1
        omega

theorem wordAt_eq (m : Nat → UInt8) (i : Nat) :
    Transmit.wordAt m i = Lib.Bytes.wordAt m (4 * i) := by
  have hzero : shifted (m (4 * i)) 0 = (m (4 * i)).toUInt32 := UInt32.shiftLeft_zero
  rw [Lib.Bytes.wordAt, hzero]
  rfl

theorem lengthField_eq (w : UInt32) : lengthField w = w.toNat % 2 ^ 11 := by
  rw [lengthField, Lib.Fields.toNat_and_mask w 0 11 rfl]
  omega

/-- A command whose other bits lie above the length field. -/
theorem lengthField_or {w : UInt32} {len : Nat} (hw : w.toNat % 2 ^ 11 = 0) (hlen : len < 2 ^ 11) :
    lengthField (w ||| UInt32.ofNat len) = len := by
  rw [lengthField_eq, UInt32.toNat_or, Nat.or_mod_two_pow, hw, Nat.zero_or, UInt32.toNat_ofNat']
  omega

theorem lengthField_txCmdA {addr : UInt32} {len : Nat} (ha : addr &&& 0x3 = 0)
    (hlen : len < 2 ^ 11) : lengthField (txCmdA addr len) = len := by
  rw [txCmdA, ha]
  exact lengthField_or (by decide) hlen

theorem lengthField_txCmdB (lastTxTag : UInt16) {len : Nat} (hlen : len < 2 ^ 11) :
    lengthField (txCmdB lastTxTag len) = len := by
  apply lengthField_or _ hlen
  rw [Lib.Fields.toNat_shiftLeft _ 16 rfl (by decide)]
  omega

/-- The words of a transmit buffer that holds a packet. -/
theorem carries_sendToNet {addr : UInt32} {txbp p : Nat → UInt8} {len : Nat} (lastTxTag : UInt16)
    (ha : addr &&& 0x3 = 0) (hlen : len < 2 ^ 11) (hp : ∀ i < len, txbp i = p i) :
    Carries (sendToNet addr txbp len lastTxTag) p len := by
  refine ⟨_, _, _, rfl, lengthField_txCmdA ha hlen, lengthField_txCmdB lastTxTag hlen, ?_, ?_⟩
  · rw [List.length_map, List.length_range]
  · intro i hi
    refine ⟨Transmit.wordAt txbp (i / 4), ?_, ?_⟩
    · rw [List.getElem?_map, List.getElem?_range (by omega), Option.map_some]
    · rw [wordAt_eq, byteOf_wordAt _ _ (Nat.mod_lt i (by decide)), ← hp i hi]
      congr 1
      omega

/-- Whether the task of a call has written the frame. -/
def written : Pc → Bool
  | .drain _ _ | .send _ => false
  | _ => true

/-- What a call has done so far, with the words that it has pushed. -/
inductive Sending (addr : UInt32) (s₀ : State) (len : Nat) : State → List UInt32 → Prop
  | drain {s : State} {timeout : Nat} (hpc : s.pc = .drain len timeout)
      (hle : timeout ≤ txTimeoutCount) (htxbp : s.txbp = s₀.txbp)
      (htag : s.lastTxTag = s₀.lastTxTag) : Sending addr s₀ len s []
  | send {s : State} (hpc : s.pc = .send len) (htxbp : s.txbp = s₀.txbp)
      (htag : s.lastTxTag = s₀.lastTxTag) : Sending addr s₀ len s []
  | sent {s : State} (hpc : written s.pc = true) :
      Sending addr s₀ len s (sendToNet addr s₀.txbp len (s₀.lastTxTag + 1))

/-- The accesses that the task needs at least to come so far, 32 for the frame. -/
def accesses : Pc → Nat
  | .drain _ timeout => timeout
  | .send _ => txTimeoutCount + 1
  | _ => txTimeoutCount + 2

variable {addr clock : UInt32} {s₀ s t : State} {len : Nat} {os : List UInt32} {a : Action}

theorem accesses_written {pc : Pc} (h : written pc = true) : accesses pc = txTimeoutCount + 2 := by
  cases pc <;> first | rfl | cases h

/-- Behind the frame no access pushes anything. -/
theorem task_written (hpc : written s.pc = true) (ht : task .uip addr s clock = some t) :
    written t.pc = true ∧ pushed addr s (.task clock) = [] := by
  unfold task at ht
  unfold pushed
  cases hs : s.pc <;> rw [hs] at ht hpc <;> dsimp only at ht
  case idle => cases ht
  case drain => cases hpc
  case send => cases hpc
  case startTime =>
    cases ht
    exact ⟨rfl, rfl⟩
  case poll =>
    split at ht
    all_goals
      cases ht
      exact ⟨rfl, rfl⟩
  case testTime =>
    split at ht
    all_goals
      cases ht
      exact ⟨rfl, rfl⟩
  case popStatus =>
    split at ht
    · cases ht
    · split at ht
      all_goals
        cases ht
        exact ⟨rfl, rfl⟩

/-- One action of a call: the frame is pushed at one access, and every access comes nearer to
it. -/
theorem sending_step (h : Sending addr s₀ len s os) (ha : isCall a = false)
    (ht : step .uip addr s a = some t) : Sending addr s₀ len t (os ++ pushed addr s a) ∧
      min 32 (accesses s.pc + if isTask a then 1 else 0) ≤ accesses t.pc := by
  cases a with
  | call ptr len => cases ha
  | push i low =>
    have hsame : t.pc = s.pc ∧ t.txbp = s.txbp ∧ t.lastTxTag = s.lastTxTag := by
      rw [step] at ht
      split at ht
      · cases ht
      · cases ht
        exact ⟨rfl, rfl, rfl⟩
    obtain ⟨hpc, htxbp, htag⟩ := hsame
    have hpushed : pushed addr s (.push i low) = [] := rfl
    rw [hpc, hpushed, List.append_nil]
    refine ⟨?_, Nat.min_le_right _ _⟩
    cases h with
    | drain hs hle htxbp₀ htag₀ =>
      exact .drain (hpc.trans hs) hle (htxbp.trans htxbp₀) (htag.trans htag₀)
    | send hs htxbp₀ htag₀ => exact .send (hpc.trans hs) (htxbp.trans htxbp₀) (htag.trans htag₀)
    | sent hs => exact .sent (hpc ▸ hs)
  | task clock =>
    rw [step] at ht
    cases h with
    | drain hs hle htxbp htag =>
      have hpushed : pushed addr s (.task clock) = [] := by rw [pushed, hs]
      rw [hpushed, List.append_nil, hs]
      rw [task, hs] at ht
      dsimp only at ht
      split at ht
      · split at ht
        · cases ht
          exact ⟨.send rfl htxbp htag, Nat.le_trans (Nat.min_le_right _ _) (Nat.succ_le_succ hle)⟩
        · cases ht
          exact ⟨.drain rfl (by omega) htxbp htag, Nat.min_le_right _ _⟩
      · cases ht
        exact ⟨.send rfl htxbp htag, Nat.le_trans (Nat.min_le_right _ _) (Nat.succ_le_succ hle)⟩
    | send hs htxbp htag =>
      have hpushed : pushed addr s (.task clock) =
          sendToNet addr s₀.txbp len (s₀.lastTxTag + 1) := by
        rw [pushed, hs, htxbp, htag]
      rw [hpushed, hs]
      rw [task, hs] at ht
      cases ht
      exact ⟨.sent rfl, Nat.min_le_right _ _⟩
    | sent hs =>
      obtain ⟨hwritten, hpushed⟩ := task_written hs ht
      rw [hpushed, List.append_nil, accesses_written hwritten]
      exact ⟨.sent hwritten, Nat.min_le_left _ _⟩

/-- A call of `tapdev_send` pushes the commands and the words of the packet, once, with its 32nd
access at the latest, and nothing before. -/
theorem tapdevSend_transmits (uipBuf uipAppdata dmtx : Nat → UInt8) {uipLen : Nat}
    {as : List Action} (hlen : uipLen ≤ uipBufsize) (ha : addr &&& 0x3 = 0)
    (hcall : tapdevSend addr s uipBuf uipAppdata uipLen dmtx = some s₀)
    (hrun : exec (step .uip addr) s₀ as = some t) (hcalls : ∀ a ∈ as, isCall a = false) :
    let words := outputs (pushed addr) (step .uip addr) s₀ as
    (written t.pc = false → words = []) ∧
      (written t.pc = true → Carries words (packet uipBuf uipAppdata) uipLen) ∧
      (32 ≤ as.countP isTask → written t.pc = true) := by
  have hmtu : uipLen ≤ enetMaxMtu := Nat.le_trans hlen (by decide)
  have hfirst : s₀.pc = .drain uipLen 0 ∧ ∀ i < uipLen, s₀.txbp i = packet uipBuf uipAppdata i := by
    rw [tapdevSend, step] at hcall
    split at hcall
    · cases hcall
      rw [write]
      dsimp only
      rw [if_neg (Nat.not_lt.mpr hmtu)]
      refine ⟨rfl, fun i hi => ?_⟩
      rw [if_pos hi]
      exact gathered_eq uipBuf uipAppdata dmtx hi
    · cases hcall
  obtain ⟨hpc, htxbp⟩ := hfirst
  have hstart : Sending addr s₀ uipLen s₀ [] := .drain hpc (Nat.zero_le _) rfl rfl
  have halong : Along (fun _ a => isCall a = false) (step .uip addr) s₀ as :=
    along_of_mem (fun a ha _ => hcalls a ha) s₀
  have hsending : Sending addr s₀ uipLen t ([] ++ outputs (pushed addr) (step .uip addr) s₀ as) :=
    inv_of_outputs_along (J := Sending addr s₀ uipLen)
      (fun _ _ _ _ hs hcall ht => (sending_step hs hcall ht).1) hstart halong hrun
  have hprogress : min 32 (accesses s₀.pc + as.countP isTask) ≤ accesses t.pc :=
    progress_of_along (I := fun s => ∃ os, Sending addr s₀ uipLen s os) isTask 32
      (fun _ _ _ hsent hcall ht => by
        obtain ⟨_, hs⟩ := hsent
        exact ⟨⟨_, (sending_step hs hcall ht).1⟩, (sending_step hs hcall ht).2⟩)
      ⟨[], hstart⟩ halong hrun
  rw [List.nil_append] at hsending
  generalize outputs (pushed addr) (step .uip addr) s₀ as = words at hsending
  refine ⟨fun hunwritten => ?_, fun hwritten => ?_, fun hmany => ?_⟩
  · cases hsending with
    | drain => rfl
    | send => rfl
    | sent hwritten => rw [hunwritten] at hwritten; cases hwritten
  · cases hsending with
    | drain hs => rw [hs] at hwritten; cases hwritten
    | send hs => rw [hs] at hwritten; cases hwritten
    | sent => exact carries_sendToNet _ ha (Nat.lt_of_le_of_lt hlen (by decide)) htxbp
  · cases hsending with
    | drain hs hle =>
      rw [hs, accesses] at hprogress
      unfold txTimeoutCount at hle
      omega
    | send hs =>
      rw [hs, accesses] at hprogress
      unfold txTimeoutCount at hprogress
      omega
    | sent hwritten => exact hwritten

/-- The headers and seven bytes of application data, with nothing in the status FIFO. -/
theorem sevenData_transmitted :
    let s := opened fun _ => 0
    ∃ s₀ t, tapdevSend 0 s (fun i => UInt8.ofNat i) (fun i => UInt8.ofNat (200 + i)) 61
        (fun _ => 0xFF) = some s₀ ∧
      exec (step .uip 0) s₀ [.task 0, .task 0] = some t ∧
      Carries (outputs (pushed 0) (step .uip 0) s₀ [.task 0, .task 0])
        (packet (fun i => UInt8.ofNat i) fun i => UInt8.ofNat (200 + i)) 61 := by
  refine ⟨_, _, rfl, rfl, ?_⟩
  have hcall : tapdevSend 0 (opened fun _ => 0) (fun i => UInt8.ofNat i)
      (fun i => UInt8.ofNat (200 + i)) 61 (fun _ => 0xFF) = some _ := rfl
  have hsent := @tapdevSend_transmits 0 _ _ _ _ _ _ 61 [.task 0, .task 0] (by decide) (by decide)
    hcall rfl (by decide)
  exact hsent.2.1 rfl

end Plak1a.Lan.UipSend
