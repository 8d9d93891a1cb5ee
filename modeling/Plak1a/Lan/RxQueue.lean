import Plak1a.Lan.RxSync

/-!
# Every accepted frame is handed over once

`rxNdx` advances in every round, `rxNdxIn` with every accepted frame and `rxNdxOut` with
every packet handed over. A call starts with an empty queue and takes at most as many
rounds as there are buffers, so the buffers it fills are all different. The buffers
themselves come from the software above the driver.
-/

namespace Plak1a.Lan.RxQueue

open Receive RxSync Lib.Run

/-- An accepted frame and what its buffer holds once it is copied there. -/
structure Packet where
  buffer : Nat
  contents : List UInt32
  count : Nat

/-- The arguments of `NetReceive` for a packet: its buffer and its length without checksum. -/
def handOver (p : Packet) : List UInt32 × Int := (p.contents, (p.count : Int) - 4)

/-- The words of the frame at the head of the data FIFO once its status is popped. -/
def wordsCopied (c : Chip) (count : Nat) : List UInt32 :=
  (Chip.readWords (wordsOf count) { c with statuses := c.statuses.tail }).1

/-- The frame a round accepts, if any: it belongs into the buffer `rxNdx`. -/
def accepted (s : LanDriver) (e : Event) : List Packet :=
  match popped s.chip s.loopCount e with
  | none => []
  | some rxStatus =>
    if Accepts rxStatus then
      let count := lengthOf rxStatus
      let words := wordsCopied (s.chip.arrive e.arrivals) count
      [⟨s.rxNdx, words ++ (s.rxbp s.rxNdx).drop (wordsOf count), count⟩]
    else []

/-- The packets in the queue, oldest first: each entry names the buffer of its packet,
and nothing has written to that buffer since. -/
structure Waiting (s : LanDriver) (ps : List Packet) : Prop where
  entries : ∀ (k : Nat) (hk : k < ps.length),
    s.rxAvlQue ((s.rxNdxOut + k) % numRxBuff) = ⟨ps[k].buffer, ps[k].count⟩
  intact : ∀ p ∈ ps, s.rxbp p.buffer = p.contents

/-- All entries are free and the two indices of the queue agree. -/
structure AllFree (s : LanDriver) : Prop where
  entries : ∀ i < numRxBuff, (s.rxAvlQue i).index = -1
  indices : s.rxNdxIn = s.rxNdxOut

/-- The round takes the branch of the full queue. -/
def BuffersFull (s : LanDriver) (e : Event) : Prop :=
  ∃ rxStatus, popped s.chip s.loopCount e = some rxStatus ∧ checkedCount rxStatus ≠ 0 ∧
    (s.rxAvlQue s.rxNdxIn).index ≠ -1

def EndsCall (s : LanDriver) (e : Event) : Prop := (s.round e).returned ≠ s.returned

theorem Waiting.oldest {s : LanDriver} {p : Packet} {ps : List Packet} (h : Waiting s (p :: ps))
    (hout : s.rxNdxOut < numRxBuff) : s.rxAvlQue s.rxNdxOut = ⟨p.buffer, p.count⟩ := by
  have hentry := h.entries 0 (Nat.succ_pos _)
  rwa [Nat.add_zero, Nat.mod_eq_of_lt hout] at hentry

/-- A turn of the loop: the oldest packet goes up and its entry becomes free. -/
def freeOldest (s : LanDriver) (p : Packet) : LanDriver :=
  { s with
    received := handOver p :: s.received
    rxAvlQue := Function.update s.rxAvlQue s.rxNdxOut ⟨-1, p.count⟩
    rxNdxOut := nextIndex s.rxNdxOut }

theorem Waiting.pop {s : LanDriver} {p : Packet} {ps : List Packet} (h : Waiting s (p :: ps))
    (hout : s.rxNdxOut < numRxBuff) (hlen : ps.length < numRxBuff) :
    Waiting (freeOldest s p) ps := by
  constructor
  · intro k hk
    have hnext : (nextIndex s.rxNdxOut + k) % numRxBuff =
        (s.rxNdxOut + (k + 1)) % numRxBuff := by
      rw [nextIndex_eq hout, Nat.mod_add_mod]
      congr 1
      omega
    show Function.update _ _ _ ((nextIndex s.rxNdxOut + k) % numRxBuff) = _
    rw [hnext, Function.update_of_ne (entry_ne_oldest (by omega) (by omega) hout)]
    exact h.entries (k + 1) (Nat.succ_lt_succ hk)
  · exact fun q hq => h.intact q (List.mem_cons_of_mem _ hq)

theorem deliver_waiting {s : LanDriver} {p : Packet} {ps : List Packet}
    (h : Waiting s (p :: ps)) (hout : s.rxNdxOut < numRxBuff) (n : Nat) :
    LanDriver.deliver (n + 1) s = LanDriver.deliver n (freeOldest s p) := by
  have hused : (p.buffer : Int) ≠ -1 := by omega
  rw [LanDriver.deliver]
  dsimp only
  rw [h.oldest hout, if_neg hused, freeOldest, handOver, ← h.intact p List.mem_cons_self]
  rfl

/-- The loop hands the waiting packets over in order and touches no buffer. -/
theorem deliver_spec (n : Nat) : ∀ {s : LanDriver} {ps : List Packet},
    Queued s.rxNdxIn s.rxNdxOut s.rxAvlQue ps.length → Waiting s ps → ps.length ≤ numRxBuff →
      ps.length < n →
        (LanDriver.deliver n s).2.received = (ps.map handOver).reverse ++ s.received ∧
        (LanDriver.deliver n s).2.rxNdx = s.rxNdx := by
  induction n with
  | zero => intro s ps _ _ _ hn; omega
  | succ n ih =>
    intro s ps hq hw hle hn
    cases ps with
    | nil =>
      rw [LanDriver.deliver]
      dsimp only
      rw [if_pos hq.oldest_free]
      exact ⟨rfl, rfl⟩
    | cons p ps =>
      have hlen : ps.length < numRxBuff := hle
      obtain ⟨hreceived, hndx⟩ := ih (queued_free_oldest hq hlen p.count)
        (hw.pop hq.out_lt hlen) (Nat.le_of_lt hlen) (Nat.lt_of_succ_lt_succ hn)
      rw [deliver_waiting hw hq.out_lt, List.map_cons, List.reverse_cons, List.append_assoc]
      exact ⟨hreceived, hndx⟩

/-- What holds between two rounds. `start` is the buffer the call began with; the rounds
since then have used the buffers behind it, each at most once. -/
structure QueueInv (s : LanDriver) (ps : List Packet) : Prop where
  queued : Queued s.rxNdxIn s.rxNdxOut s.rxAvlQue ps.length
  waiting : Waiting s ps
  rounds : ps.length ≤ s.loopCount ∧ s.loopCount ≤ numRxBuff
  buffers : ∃ start < numRxBuff, s.rxNdx = (start + s.loopCount) % numRxBuff ∧
    ∀ p ∈ ps, ∃ k < s.loopCount, p.buffer = (start + k) % numRxBuff
  idle : s.handled = false → ps = []

theorem QueueInv.rxNdx_lt {s : LanDriver} {ps : List Packet} (h : QueueInv s ps) :
    s.rxNdx < numRxBuff := by
  obtain ⟨start, _, hndx, _⟩ := h.buffers
  rw [hndx]
  exact Nat.mod_lt _ (by decide)

/-- The buffer of the next round holds no waiting packet. -/
theorem QueueInv.rxNdx_ne {s : LanDriver} {ps : List Packet} (h : QueueInv s ps)
    (hloop : s.loopCount < numRxBuff) {p : Packet} (hp : p ∈ ps) : p.buffer ≠ s.rxNdx := by
  obtain ⟨start, hstart, hndx, hall⟩ := h.buffers
  obtain ⟨k, hk, hbuf⟩ := hall p hp
  rw [hndx, hbuf]
  exact entry_ne (by omega) hloop (by omega) hstart

/-- At the end of a call everything that waited has gone up. -/
theorem QueueInv.finish {s : LanDriver} {ps : List Packet} (h : QueueInv s ps) :
    s.finish.received = (ps.map handOver).reverse ++ s.received ∧ QueueInv s.finish [] := by
  obtain ⟨hrounds, hbound⟩ := h.rounds
  have hlen : ps.length ≤ numRxBuff := Nat.le_trans hrounds hbound
  have hlt : ps.length < numRxBuff + 1 := Nat.lt_succ_of_le hlen
  have hnil : ∀ t : LanDriver, Waiting t [] := fun t =>
    ⟨fun k hk => absurd hk (Nat.not_lt_zero k), fun p hp => absurd hp List.not_mem_nil⟩
  unfold LanDriver.finish
  by_cases hh : s.handled = true
  · have hempty := queued_deliver (numRxBuff + 1) h.queued hlen hlt
    obtain ⟨hreceived, hndx⟩ := deliver_spec (numRxBuff + 1) h.queued h.waiting hlen hlt
    simp only [hh, if_true]
    refine ⟨hreceived, hempty, hnil _, ⟨Nat.le_refl 0, Nat.zero_le _⟩, ?_, fun _ => rfl⟩
    refine ⟨s.rxNdx, h.rxNdx_lt, ?_, fun p hp => absurd hp List.not_mem_nil⟩
    show (LanDriver.deliver _ _).2.rxNdx = _
    rw [hndx, Nat.add_zero, Nat.mod_eq_of_lt h.rxNdx_lt]
  · have hps := h.idle (by simpa using hh)
    subst hps
    simp only [hh]
    refine ⟨rfl, h.queued, hnil _, ⟨Nat.le_refl 0, Nat.zero_le _⟩, ?_, fun _ => rfl⟩
    refine ⟨s.rxNdx, h.rxNdx_lt, ?_, fun p hp => absurd hp List.not_mem_nil⟩
    show s.rxNdx = _
    rw [Nat.add_zero, Nat.mod_eq_of_lt h.rxNdx_lt]

/-- The queue does not depend on the chip, the log and the results so far. -/
theorem QueueInv.frame {s : LanDriver} {ps : List Packet} (h : QueueInv s ps) (c : Chip)
    (log : Log) : QueueInv { s with chip := c, log := log } ps :=
  ⟨h.queued, ⟨h.waiting.entries, h.waiting.intact⟩, h.rounds, h.buffers, h.idle⟩

/-- `curBufNdx = rxNdx; loopCount++; if (++rxNdx >= NUM_RX_BUFF) rxNdx = 0;` -/
def counted (s : LanDriver) : LanDriver :=
  { s with loopCount := s.loopCount + 1, rxNdx := nextIndex s.rxNdx }

theorem counted_rxNdx {s : LanDriver} {start : Nat} (hlt : s.rxNdx < numRxBuff)
    (h : s.rxNdx = (start + s.loopCount) % numRxBuff) :
    (counted s).rxNdx = (start + (s.loopCount + 1)) % numRxBuff := by
  show nextIndex s.rxNdx = _
  rw [nextIndex_eq hlt, h, Nat.mod_add_mod, Nat.add_assoc]

/-- Counting a round uses up the buffer `rxNdx`. -/
theorem QueueInv.counted {s : LanDriver} {ps : List Packet} (h : QueueInv s ps)
    (hloop : s.loopCount < numRxBuff) : QueueInv (counted s) ps := by
  obtain ⟨start, hstart, hndx, hall⟩ := h.buffers
  refine ⟨h.queued, ⟨h.waiting.entries, h.waiting.intact⟩,
    ⟨Nat.le_succ_of_le h.rounds.1, hloop⟩,
    ⟨start, hstart, counted_rxNdx h.rxNdx_lt hndx, fun p hp => ?_⟩, h.idle⟩
  obtain ⟨k, hk, hbuf⟩ := hall p hp
  exact ⟨k, Nat.lt_succ_of_lt hk, hbuf⟩

/-- What an accepted frame leaves in the buffer `rxNdx`. -/
def packetOf (s : LanDriver) (count : Nat) : Packet :=
  ⟨s.rxNdx, (s.chip.readWords (wordsOf count)).1 ++ (s.rxbp s.rxNdx).drop (wordsOf count), count⟩

theorem Waiting.push {s : LanDriver} {ps : List Packet} (h : Waiting s ps)
    (hq : Queued s.rxNdxIn s.rxNdxOut s.rxAvlQue ps.length) (hlen : ps.length < numRxBuff)
    (hne : ∀ p ∈ ps, p.buffer ≠ s.rxNdx) (count : Nat) :
    Waiting (LanDriver.accept (counted s) s.rxNdx count) (ps ++ [packetOf s count]) := by
  constructor
  · intro k hk
    rw [List.length_append, List.length_singleton] at hk
    show Function.update s.rxAvlQue s.rxNdxIn _ ((s.rxNdxOut + k) % numRxBuff) = _
    by_cases hlast : k = ps.length
    · subst hlast
      rw [← hq.in_eq, Function.update_self, List.getElem_concat_length rfl]
      rfl
    · rw [hq.in_eq, Function.update_of_ne (entry_ne (by omega) hlen hlast hq.out_lt),
        List.getElem_append_left (by omega)]
      exact h.entries k (by omega)
  · intro p hp
    show Function.update s.rxbp s.rxNdx _ p.buffer = _
    rcases List.mem_append.mp hp with hp | hp
    · rw [Function.update_of_ne (hne p hp)]
      exact h.intact p hp
    · rw [List.mem_singleton.mp hp, packetOf, Function.update_self]
      rfl

/-- An accepted frame joins the queue; its buffer is none of those that wait. -/
theorem QueueInv.accept {s : LanDriver} {ps : List Packet} (h : QueueInv s ps)
    (hloop : s.loopCount < numRxBuff) (count : Nat) :
    QueueInv (LanDriver.accept (RxQueue.counted s) s.rxNdx count)
      (ps ++ [packetOf s count]) := by
  have hlen : ps.length < numRxBuff := Nat.lt_of_le_of_lt h.rounds.1 hloop
  obtain ⟨start, hstart, hndx, hall⟩ := h.buffers
  constructor
  · rw [List.length_append, List.length_singleton]
    exact queued_append h.queued hlen _ _
  · exact h.waiting.push h.queued hlen (fun p hp => h.rxNdx_ne hloop hp) count
  · rw [List.length_append, List.length_singleton]
    exact ⟨Nat.succ_le_succ h.rounds.1, hloop⟩
  · refine ⟨start, hstart, counted_rxNdx h.rxNdx_lt hndx, fun p hp => ?_⟩
    rcases List.mem_append.mp hp with hp | hp
    · obtain ⟨k, hk, hbuf⟩ := hall p hp
      exact ⟨k, Nat.lt_succ_of_lt hk, hbuf⟩
    · rw [List.mem_singleton.mp hp]
      exact ⟨s.loopCount, Nat.lt_succ_self _, hndx⟩
  · exact fun hh => Bool.noConfusion hh

/-- `frames` are the frames accepted so far: those handed over, then those that wait. -/
def Delivering (s : LanDriver) (frames : List Packet) : Prop :=
  ∃ handed waiting, frames = handed ++ waiting ∧ s.received.reverse = handed.map handOver ∧
    QueueInv s waiting

theorem Delivering.finish {s : LanDriver} {frames : List Packet} (h : Delivering s frames) :
    Delivering s.finish frames ∧ s.finish.received.reverse = frames.map handOver ∧
      QueueInv s.finish [] := by
  obtain ⟨handed, waiting, rfl, hreceived, hinv⟩ := h
  obtain ⟨hfinish, hempty⟩ := hinv.finish
  have hall : s.finish.received.reverse = (handed ++ waiting).map handOver := by
    rw [hfinish, List.reverse_append, List.reverse_reverse, hreceived, List.map_append]
  exact ⟨⟨handed ++ waiting, [], (List.append_nil _).symm, hall, hempty⟩, hall, hempty⟩

theorem Delivering.frame {s : LanDriver} {frames : List Packet} (h : Delivering s frames)
    (c : Chip) (log : Log) : Delivering { s with chip := c, log := log } frames := by
  obtain ⟨handed, waiting, hframes, hreceived, hinv⟩ := h
  exact ⟨handed, waiting, hframes, hreceived, hinv.frame c log⟩

theorem Delivering.counted {s : LanDriver} {frames : List Packet} (h : Delivering s frames)
    (hloop : s.loopCount < numRxBuff) : Delivering (counted s) frames := by
  obtain ⟨handed, waiting, hframes, hreceived, hinv⟩ := h
  exact ⟨handed, waiting, hframes, hreceived, hinv.counted hloop⟩

theorem Delivering.accept {s : LanDriver} {frames : List Packet} (h : Delivering s frames)
    (hloop : s.loopCount < numRxBuff) (count : Nat) :
    Delivering (LanDriver.accept (RxQueue.counted s) s.rxNdx count)
      (frames ++ [packetOf s count]) := by
  obtain ⟨handed, waiting, rfl, hreceived, hinv⟩ := h
  exact ⟨handed, waiting ++ [packetOf s count], List.append_assoc _ _ _, hreceived,
    hinv.accept hloop count⟩

/-- The entry at `rxNdxIn` is free as long as the call may go on. -/
theorem Delivering.room {s : LanDriver} {frames : List Packet} (h : Delivering s frames)
    (hloop : s.loopCount < numRxBuff) : (s.rxAvlQue s.rxNdxIn).index = -1 := by
  obtain ⟨_, waiting, _, _, hinv⟩ := h
  exact hinv.queued.insert_free (Nat.lt_of_le_of_lt hinv.rounds.1 hloop)

theorem Delivering.body {s : LanDriver} {frames : List Packet} (h : Delivering s frames)
    (hloop : s.loopCount < numRxBuff) (busy : Nat) (rxStatus : UInt32) :
    Delivering (s.body busy rxStatus) (frames ++
      if Accepts rxStatus then [packetOf s (lengthOf rxStatus)] else []) := by
  unfold LanDriver.body
  dsimp only
  by_cases haccepts : Accepts rxStatus
  · rw [checkedCount_of_accepts haccepts, if_neg haccepts.1, if_neg (not_not.mpr (h.room hloop)),
      if_pos haccepts]
    exact h.accept hloop _
  · rw [checkedCount_of_not_accepts haccepts, if_pos rfl, if_neg haccepts, List.append_nil]
    have hcounted := (h.counted hloop).frame (dropFrame rxStatus busy s.chip).2 s.log
    split
    · exact hcounted
    · exact hcounted.finish.1

theorem Delivering.round {s : LanDriver} {frames : List Packet} (h : Delivering s frames)
    (e : Event) : Delivering (s.round e) (frames ++ accepted s e) := by
  have harrived := h.frame (s.chip.arrive e.arrivals) s.log
  unfold LanDriver.round accepted popped
  dsimp only
  split
  · rename_i hst
    have hnone : (if numRxBuff ≤ s.loopCount then none
        else (s.chip.arrive e.arrivals).statuses.head?) = none := by
      rw [hst]
      exact ite_self _
    rw [hnone, List.append_nil]
    exact harrived.finish.1
  · rename_i rxStatus statuses hst
    split
    · rw [List.append_nil]
      exact harrived.finish.1
    · rename_i hloop
      rw [hst, List.head?_cons]
      have hbody := (h.frame ⟨statuses, (s.chip.arrive e.arrivals).data⟩ s.log).body
        (Nat.lt_of_not_le hloop) e.ffwdBusy rxStatus
      have hwords : wordsCopied (s.chip.arrive e.arrivals) (lengthOf rxStatus) =
          (Chip.readWords (wordsOf (lengthOf rxStatus))
            ⟨statuses, (s.chip.arrive e.arrivals).data⟩).1 := by
        rw [wordsCopied, hst]
        rfl
      dsimp only
      rw [hwords]
      exact hbody.frame _ _

/-- A round that lets the loop go on returns nothing; one that does not resets the counter. -/
theorem body_returned (s : LanDriver) (busy : Nat) (rxStatus : UInt32) :
    (s.body busy rxStatus).returned = s.returned ∨ (s.body busy rxStatus).loopCount = 0 := by
  unfold LanDriver.body
  dsimp only
  split
  · split
    · exact Or.inl rfl
    · exact Or.inr rfl
  · split
    · exact Or.inr rfl
    · exact Or.inl rfl

theorem loopCount_of_endsCall {s : LanDriver} {e : Event} (h : EndsCall s e) :
    (s.round e).loopCount = 0 := by
  unfold EndsCall at h
  unfold LanDriver.round at h ⊢
  dsimp only at h ⊢
  split at h
  · rfl
  · split at h
    · rename_i hloop
      rw [if_pos hloop]
      rfl
    · rename_i hloop
      rw [if_neg hloop]
      exact (body_returned _ _ _).resolve_left h

theorem QueueInv.allFree {s : LanDriver} (h : QueueInv s []) : AllFree s := by
  have hout := h.queued.out_lt
  constructor
  · intro i hi
    have hfree := h.queued.free ((i + (numRxBuff - s.rxNdxOut)) % numRxBuff) (Nat.zero_le _)
      (Nat.mod_lt _ (by decide))
    have hentry : s.rxNdxOut + (i + (numRxBuff - s.rxNdxOut)) = i + numRxBuff := by omega
    rw [Nat.add_mod_mod, hentry, Nat.add_mod_right, Nat.mod_eq_of_lt hi] at hfree
    exact hfree
  · rw [h.queued.in_eq, List.length_nil, Nat.add_zero, Nat.mod_eq_of_lt hout]

theorem Delivering.not_buffersFull {s : LanDriver} {frames : List Packet}
    (h : Delivering s frames) (e : Event) : ¬ BuffersFull s e := by
  intro ⟨rxStatus, hpop, _, hused⟩
  apply hused
  apply h.room
  unfold popped at hpop
  split at hpop
  · cases hpop
  · rename_i hloop
    exact Nat.lt_of_not_le hloop

theorem delivering_opened (fs : List Frame) (rxbp : Nat → List UInt32) :
    Delivering (LanDriver.opened fs rxbp) [] := by
  have hqueue := (inv_opened fs rxbp).room
  obtain ⟨j, hj, hq, hnone⟩ := hqueue
  obtain rfl := hnone rfl
  refine ⟨[], [], rfl, rfl, hq, ⟨fun k hk => absurd hk (Nat.not_lt_zero k), ?_⟩,
    ⟨Nat.le_refl 0, Nat.zero_le _⟩, ⟨0, by decide, rfl, ?_⟩, fun _ => rfl⟩
  · exact fun p hp => absurd hp List.not_mem_nil
  · exact fun p hp => absurd hp List.not_mem_nil

/-- All frames accepted along a run of the driver from `lan9118_open` on, in arrival order. -/
def acceptedAlong (fs : List Frame) (rxbp : Nat → List UInt32) (events : List Event) :
    List Packet :=
  outputs accepted lanStep (LanDriver.opened fs rxbp) events

theorem delivering_of_exec {fs : List Frame} {rxbp : Nat → List UInt32} {events : List Event}
    {s : LanDriver} (h : exec lanStep (LanDriver.opened fs rxbp) events = some s) :
    Delivering s (acceptedAlong fs rxbp events) := by
  have hrun : Delivering s ([] ++ acceptedAlong fs rxbp events) :=
    inv_of_outputs (fun s e t frames hs ht => by
      cases ht
      exact hs.round e) (delivering_opened fs rxbp) h
  rwa [List.nil_append] at hrun

/-- Whatever arrives and however the calls end: the frames handed over are the first of the
accepted ones in order, each once, and the others wait in the queue with their buffers as
they were filled; the queue is never found full; and after a call no frame waits. -/
theorem accepted_handed_over (fs : List Frame) (rxbp : Nat → List UInt32)
    (events : List Event) {s : LanDriver}
    (h : exec lanStep (LanDriver.opened fs rxbp) events = some s) :
    (∃ handed waiting, acceptedAlong fs rxbp events = handed ++ waiting ∧
      s.received.reverse = handed.map handOver ∧ Waiting s waiting) ∧
    (∀ e, ¬ BuffersFull s e) ∧
    ∀ e, EndsCall s e → AllFree (s.round e) ∧
      (s.round e).received.reverse = (acceptedAlong fs rxbp (events ++ [e])).map handOver := by
  have hdelivering := delivering_of_exec h
  refine ⟨?_, hdelivering.not_buffersFull, fun e he => ?_⟩
  · obtain ⟨handed, waiting, hframes, hreceived, hinv⟩ := hdelivering
    exact ⟨handed, waiting, hframes, hreceived, hinv.waiting⟩
  · have hnext : exec lanStep (LanDriver.opened fs rxbp) (events ++ [e]) = some (s.round e) := by
      rw [exec_append_of_exec h]
      rfl
    obtain ⟨handed, waiting, hframes, hreceived, hinv⟩ := delivering_of_exec hnext
    have hrounds := hinv.rounds.1
    rw [loopCount_of_endsCall he] at hrounds
    obtain rfl := List.length_eq_zero_iff.mp (Nat.le_zero.mp hrounds)
    rw [hframes, List.append_nil]
    exact ⟨hinv.allFree, hreceived⟩

/-- An errored frame, a proper one and the round that finds the FIFO empty. -/
theorem nextFrame_handed_over :
    ∃ s, exec lanStep (LanDriver.opened [longError, nextFrame] fun _ => []) [⟨[], 0⟩, ⟨[], 0⟩] =
        some s ∧ AllFree (s.round ⟨[], 0⟩) ∧
      (s.round ⟨[], 0⟩).received = [(List.replicate 16 0, 60)] := by
  refine ⟨_, rfl, ?_⟩
  obtain ⟨-, -, hend⟩ := accepted_handed_over [longError, nextFrame] (fun _ => [])
    [⟨[], 0⟩, ⟨[], 0⟩] rfl
  obtain ⟨hfree, hreceived⟩ := hend ⟨[], 0⟩ (by unfold EndsCall; nofun)
  refine ⟨hfree, ?_⟩
  rw [← List.reverse_reverse (LanDriver.received _), hreceived]
  rfl

end Plak1a.Lan.RxQueue
