import Plak1a.Lan.Receive
import Plak1a.Lib.Ring
import Plak1a.Lib.Run

/-!
# Status and data FIFO stay together

A frame that is dropped by hand loses `length` words instead of `ceil(length / 4)`.
The two counts agree up to one byte, and from sixteen bytes on the frame is dropped by
the chip; an errored frame in between takes words of the next frame with it. As long as
none is popped, the data FIFO holds exactly the frames whose status is still to come.
-/

namespace Plak1a.Lan.RxSync

open Receive Lib.Run

/-- An errored frame is short enough to be no longer than its words, or long enough for a
fast-forward. -/
def DrainsExactly (rxStatus : UInt32) : Prop :=
  errored rxStatus = true → lengthOf rxStatus ≤ 1 ∨ 16 ≤ lengthOf rxStatus

instance (rxStatus : UInt32) : Decidable (DrainsExactly rxStatus) :=
  inferInstanceAs (Decidable (_ → _))

/-- The data FIFO when the frames `fs` are in it. -/
def dataOf (fs : List Frame) : List (List UInt32) :=
  (fs.map Frame.words).filter fun ws => !ws.isEmpty

/-- The chip holds some frames, each with its status and all of its words. -/
def InSync (c : Chip) : Prop := ∃ fs : List Frame, c = ⟨fs.map Frame.status, dataOf fs⟩

theorem inSync_arrive {c : Chip} (h : InSync c) (fs : List Frame) : InSync (c.arrive fs) := by
  obtain ⟨gs, rfl⟩ := h
  refine ⟨gs ++ fs, ?_⟩
  simp only [Chip.arrive, dataOf, List.map_append, List.filter_append]

theorem dataOf_cons_of_nil {f : Frame} (h : f.words = []) (fs : List Frame) :
    dataOf (f :: fs) = dataOf fs := by
  simp [dataOf, h]

theorem dataOf_cons_of_ne {f : Frame} (h : f.words ≠ []) (fs : List Frame) :
    dataOf (f :: fs) = f.words :: dataOf fs := by
  simp [dataOf, h]

theorem readWords_frame (ws : List UInt32) (h : ws ≠ []) (st : List UInt32)
    (rest : List (List UInt32)) :
    Chip.readWords ws.length ⟨st, ws :: rest⟩ = (ws, ⟨st, rest⟩) := by
  induction ws with
  | nil => exact absurd rfl h
  | cons w ws ih =>
    cases ws with
    | nil => rfl
    | cons v ws =>
      rw [List.length_cons, Chip.readWords]
      show (w :: (Chip.readWords (v :: ws).length ⟨st, (v :: ws) :: rest⟩).1, _) = _
      rw [ih (by simp)]
      exact congrArg (Prod.mk _) (congrArg Prod.snd (ih (by simp)))

/-- Reading as many words as the frame at the head has removes exactly that frame. -/
theorem readWords_dataOf (f : Frame) (fs : List Frame) (st : List UInt32) :
    Chip.readWords (wordsOf (lengthOf f.status)) ⟨st, dataOf (f :: fs)⟩ =
      (f.words, ⟨st, dataOf fs⟩) := by
  rw [← f.words_length]
  by_cases h : f.words = []
  · rw [dataOf_cons_of_nil h, h]
    rfl
  · rw [dataOf_cons_of_ne h, readWords_frame _ h]

theorem level_dataOf (f : Frame) (fs : List Frame) (st st' : List UInt32) :
    Chip.level ⟨st, dataOf (f :: fs)⟩ =
      wordsOf (lengthOf f.status) + Chip.level ⟨st', dataOf fs⟩ := by
  rw [← f.words_length]
  by_cases h : f.words = []
  · rw [dataOf_cons_of_nil h, h, List.length_nil, Nat.zero_add]
    rfl
  · simp only [Chip.level, dataOf_cons_of_ne h, List.flatten_cons, List.length_append]

/-- The data FIFO side of a round that pops a status. -/
def consume (rxStatus : UInt32) (busy : Nat) (c : Chip) : Chip :=
  if checkedCount rxStatus = 0 then (dropFrame rxStatus busy c).2
  else (c.readWords (wordsOf (checkedCount rxStatus))).2

theorem checkedCount_eq {rxStatus : UInt32} (h : checkedCount rxStatus ≠ 0) :
    checkedCount rxStatus = lengthOf rxStatus := by
  unfold checkedCount at h ⊢
  dsimp only at h ⊢
  split at h
  · rename_i h₁
    rw [if_pos h₁] at *
    split at h
    · exact absurd rfl h
    · rename_i h₂
      rw [if_neg h₂]
      split at h
      · exact absurd rfl h
      · rename_i h₃
        rw [if_neg h₃]
  · rename_i h₁
    exact absurd (by omega) h

/-- Some bytes, no more than the maximum, and no error. -/
def Accepts (rxStatus : UInt32) : Prop :=
  lengthOf rxStatus ≠ 0 ∧ lengthOf rxStatus ≤ enetMaxMtu ∧ errored rxStatus = false

instance (rxStatus : UInt32) : Decidable (Accepts rxStatus) :=
  inferInstanceAs (Decidable (_ ∧ _ ∧ _))

theorem checkedCount_of_accepts {rxStatus : UInt32} (h : Accepts rxStatus) :
    checkedCount rxStatus = lengthOf rxStatus := by
  obtain ⟨hlen, hmtu, herr⟩ := h
  unfold checkedCount
  dsimp only
  rw [if_pos hlen, if_neg (Nat.not_lt.mpr hmtu), herr]
  rfl

theorem checkedCount_of_not_accepts {rxStatus : UInt32} (h : ¬ Accepts rxStatus) :
    checkedCount rxStatus = 0 := by
  unfold checkedCount
  dsimp only
  split
  · rename_i hlen
    split
    · rfl
    · rename_i hmtu
      split
      · rfl
      · rename_i herr
        exact absurd ⟨hlen, Nat.not_lt.mp hmtu, Bool.eq_false_iff.mpr herr⟩ h
  · rename_i hlen
    exact not_not.mp hlen

/-- A frame too short for a fast-forward is dropped only for its error or when empty. -/
theorem short_of_checkedCount {rxStatus : UInt32} (h : checkedCount rxStatus = 0)
    (hlen : lengthOf rxStatus < 16) : lengthOf rxStatus = 0 ∨ errored rxStatus = true := by
  by_contra hne
  obtain ⟨hne, herr⟩ := not_or.mp hne
  unfold checkedCount at h
  dsimp only at h
  rw [if_pos hne, if_neg (by simp only [enetMaxMtu]; omega), if_neg herr] at h
  exact hne h

theorem ffwdLoop_eq (timeout busy : Nat) : ffwdLoop timeout busy = busy - timeout := by
  induction timeout generalizing busy with
  | zero => rfl
  | succ n ih =>
    rw [ffwdLoop]
    split
    · omega
    · rw [ih]
      omega

/-- A status that drains exactly takes its frame out of the data FIFO, nothing else. -/
theorem consume_dataOf (f : Frame) (fs : List Frame) (st : List UInt32) {busy : Nat}
    (hbusy : busy ≤ ffwdTimeout) (h : DrainsExactly f.status) :
    consume f.status busy ⟨st, dataOf (f :: fs)⟩ = ⟨st, dataOf fs⟩ := by
  unfold consume
  by_cases hcount : checkedCount f.status = 0
  · rw [if_pos hcount]
    unfold dropFrame
    by_cases hlen : 4 * 4 ≤ lengthOf f.status
    · have hne : f.words ≠ [] := fun h0 => by
        have := f.words_length
        rw [h0, List.length_nil, wordsOf] at this
        omega
      have hdone : ffwdLoop ffwdTimeout busy = 0 := by
        rw [ffwdLoop_eq]
        omega
      simp only [hlen, hdone, decide_true, if_true, Chip.fastForward, dataOf_cons_of_ne hne,
        List.tail_cons]
    · have hle : lengthOf f.status ≤ 1 := by
        rcases short_of_checkedCount hcount (by omega) with h0 | herr
        · omega
        · have := h herr
          omega
      have hwords : lengthOf f.status = wordsOf (lengthOf f.status) := by
        rw [wordsOf]
        omega
      simp only [hlen, decide_false, Bool.false_eq_true, if_false]
      rw [hwords, readWords_dataOf]
  · rw [if_neg hcount, checkedCount_eq hcount, readWords_dataOf]

/-- Frames in the data FIFO are never used up. -/
def Packed (c : Chip) : Prop := ∀ ws ∈ c.data, ws ≠ []

theorem packed_dataOf (fs : List Frame) (st : List UInt32) : Packed ⟨st, dataOf fs⟩ := by
  intro ws hws h0
  have := (List.mem_filter.mp hws).2
  rw [h0] at this
  cases this

theorem readWord_packed {c : Chip} (h : Packed c) :
    c.readWord.2.level = c.level - 1 ∧ Packed c.readWord.2 := by
  obtain ⟨st, data⟩ := c
  match data with
  | [] => exact ⟨rfl, h⟩
  | [] :: rest => exact absurd rfl (h [] List.mem_cons_self)
  | [w] :: rest =>
    constructor
    · simp [Chip.readWord, Chip.level]
    · exact fun ws hws => h ws (List.mem_cons_of_mem _ hws)
  | (w :: v :: ws) :: rest =>
    constructor
    · simp [Chip.readWord, Chip.level]
    · intro us hus
      rcases List.mem_cons.mp hus with rfl | hus
      · exact List.cons_ne_nil v ws
      · exact h us (List.mem_cons_of_mem _ hus)

theorem level_readWords (n : Nat) : ∀ {c : Chip}, Packed c →
    (c.readWords n).2.level = c.level - n := by
  induction n with
  | zero => intro c _; rfl
  | succ n ih =>
    intro c h
    obtain ⟨hlevel, hpacked⟩ := readWord_packed h
    show (c.readWord.2.readWords n).2.level = _
    rw [ih hpacked, hlevel]
    omega

/-- A status that does not drain exactly takes words of the frame behind it. -/
theorem consume_misaligned (f g : Frame) (fs : List Frame) (st : List UInt32) (busy : Nat)
    (h : ¬ DrainsExactly f.status) (hg : g.words ≠ []) :
    consume f.status busy ⟨st, dataOf (f :: g :: fs)⟩ ≠ ⟨st, dataOf (g :: fs)⟩ := by
  intro heq
  obtain ⟨herr, hlen⟩ := Classical.not_imp.mp h
  obtain ⟨hlo, hhi⟩ := not_or.mp hlen
  have hcount : checkedCount f.status = 0 := by
    unfold checkedCount
    simp only [herr, if_true, ite_self]
    exact if_pos (by omega)
  have hdrop : consume f.status busy ⟨st, dataOf (f :: g :: fs)⟩ =
      (Chip.readWords (lengthOf f.status) ⟨st, dataOf (f :: g :: fs)⟩).2 := by
    have hslow : ¬ 4 * 4 ≤ lengthOf f.status := by omega
    simp only [consume, hcount, if_true, dropFrame, hslow, decide_false, Bool.false_eq_true,
      if_false]
  have hlevel := congrArg Chip.level (hdrop.symm.trans heq)
  have hone : 0 < Chip.level ⟨st, dataOf (g :: fs)⟩ := by
    rw [Chip.level, dataOf_cons_of_ne hg, List.flatten_cons, List.length_append]
    exact Nat.add_pos_left (List.length_pos_iff.mpr hg) _
  rw [level_readWords _ (packed_dataOf _ st), level_dataOf f _ st st, wordsOf] at hlevel
  omega

/-- The round of an exactly draining status: back in sync, and as many words fewer as the
status announces. -/
theorem consume_inSync {rxStatus : UInt32} {statuses : List UInt32} {data : List (List UInt32)}
    {busy : Nat} (h : InSync ⟨rxStatus :: statuses, data⟩) (hbusy : busy ≤ ffwdTimeout)
    (hd : DrainsExactly rxStatus) :
    InSync (consume rxStatus busy ⟨statuses, data⟩) ∧
      Chip.level ⟨statuses, data⟩ - (consume rxStatus busy ⟨statuses, data⟩).level =
        wordsOf (lengthOf rxStatus) := by
  obtain ⟨fs, hfs⟩ := h
  cases fs with
  | nil => cases hfs
  | cons f fs =>
    cases hfs
    rw [consume_dataOf f fs _ hbusy hd]
    refine ⟨⟨fs, rfl⟩, ?_⟩
    rw [level_dataOf f fs _ (fs.map Frame.status), Nat.add_sub_cancel]

/-- Every status popped so far has been matched by its own number of words. -/
def Matched (log : Log) : Prop := ∀ entry ∈ log, entry.2 = wordsOf (lengthOf entry.1)

/-- The status a round pops, if it gets that far. -/
def popped (c : Chip) (loopCount : Nat) (e : Event) : Option UInt32 :=
  if numRxBuff ≤ loopCount then none else (c.arrive e.arrivals).statuses.head?

/-- No fast-forward times out, and the status popped drains exactly. -/
def Admits (c : Chip) (loopCount : Nat) (e : Event) : Prop :=
  e.ffwdBusy ≤ ffwdTimeout ∧ ∀ rxStatus, popped c loopCount e = some rxStatus →
    DrainsExactly rxStatus

instance (c : Chip) (loopCount : Nat) (e : Event) : Decidable (Admits c loopCount e) :=
  @instDecidableAnd _ _ _ (Option.decidableForallMem (popped c loopCount e))

/-- What a round does to the chip once it has popped a status. -/
theorem popped_inSync {c : Chip} {loopCount : Nat} {e : Event} {rxStatus : UInt32}
    {statuses : List UInt32} (hc : InSync c) (he : Admits c loopCount e)
    (hloop : ¬ numRxBuff ≤ loopCount)
    (hst : (c.arrive e.arrivals).statuses = rxStatus :: statuses) :
    InSync (consume rxStatus e.ffwdBusy ⟨statuses, (c.arrive e.arrivals).data⟩) ∧
      Chip.level ⟨statuses, (c.arrive e.arrivals).data⟩ -
        (consume rxStatus e.ffwdBusy ⟨statuses, (c.arrive e.arrivals).data⟩).level =
          wordsOf (lengthOf rxStatus) := by
  have hsync := inSync_arrive hc e.arrivals
  have hpop : popped c loopCount e = some rxStatus := by
    rw [popped, if_neg hloop, hst, List.head?_cons]
  have hchip : c.arrive e.arrivals = ⟨rxStatus :: statuses, (c.arrive e.arrivals).data⟩ := by
    rw [← hst]
  rw [hchip] at hsync
  exact consume_inSync hsync he.1 (he.2 _ hpop)

/-- The `j` entries from `rxNdxOut` on are in use, the others are free. -/
structure Queued (rxNdxIn rxNdxOut : Nat) (rxAvlQue : Nat → RxQue) (j : Nat) : Prop where
  out_lt : rxNdxOut < numRxBuff
  in_eq : rxNdxIn = (rxNdxOut + j) % numRxBuff
  used : ∀ k < j, (rxAvlQue ((rxNdxOut + k) % numRxBuff)).index ≠ -1
  free : ∀ k, j ≤ k → k < numRxBuff → (rxAvlQue ((rxNdxOut + k) % numRxBuff)).index = -1

section Queue

variable {inp out j : Nat} {que : Nat → RxQue}

theorem nextIndex_eq {i : Nat} (h : i < numRxBuff) : nextIndex i = (i + 1) % numRxBuff := by
  unfold nextIndex
  split
  · rw [show i + 1 = numRxBuff by omega, Nat.mod_self]
  · rw [Nat.mod_eq_of_lt (by omega)]

/-- Two entries less than a turn apart are different. -/
theorem entry_ne {out j k : Nat} (hj : j < numRxBuff) (hk : k < numRxBuff) (hne : j ≠ k)
    (hout : out < numRxBuff) : (out + j) % numRxBuff ≠ (out + k) % numRxBuff :=
  fun h => hne (Lib.Ring.slot_injective hout hj hk h)

theorem entry_ne_oldest {out k : Nat} (h0 : k ≠ 0) (hk : k < numRxBuff)
    (hout : out < numRxBuff) : (out + k) % numRxBuff ≠ out := by
  have h := entry_ne hk (by decide) h0 hout
  rwa [Nat.add_zero, Nat.mod_eq_of_lt hout] at h

/-- Handing over the oldest packet frees its entry. -/
theorem queued_free_oldest (h : Queued inp out que (j + 1)) (hj : j < numRxBuff) (len : Nat) :
    Queued inp (nextIndex out) (Function.update que out ⟨-1, len⟩) j := by
  have hout := h.out_lt
  have hnext : ∀ k, (nextIndex out + k) % numRxBuff = (out + (k + 1)) % numRxBuff := by
    intro k
    rw [nextIndex_eq hout, Nat.mod_add_mod]
    congr 1
    omega
  constructor
  · rw [nextIndex_eq hout]
    exact Nat.mod_lt _ (by decide)
  · rw [hnext]
    exact h.in_eq
  · intro k hk
    rw [hnext, Function.update_of_ne (entry_ne_oldest (by omega) (by omega) hout)]
    exact h.used (k + 1) (by omega)
  · intro k hjk hk
    rw [hnext]
    by_cases hlast : k + 1 = numRxBuff
    · have hsame : (out + (k + 1)) % numRxBuff = out := by
        rw [hlast, Nat.add_mod_right, Nat.mod_eq_of_lt hout]
      rw [hsame, Function.update_self]
    · rw [Function.update_of_ne (entry_ne_oldest (by omega) (by omega) hout)]
      exact h.free (k + 1) (by omega) (by omega)

/-- An accepted frame takes the free entry at `rxNdxIn`. -/
theorem queued_append (h : Queued inp out que j) (hj : j < numRxBuff) (ndx len : Nat) :
    Queued (nextIndex inp) out (Function.update que inp ⟨ndx, len⟩) (j + 1) := by
  have hout := h.out_lt
  constructor
  · exact hout
  · rw [h.in_eq, nextIndex_eq (Nat.mod_lt _ (by decide)), Nat.mod_add_mod, Nat.add_assoc]
  · intro k hk
    by_cases hlast : k = j
    · rw [hlast, ← h.in_eq, Function.update_self]
      show (ndx : Int) ≠ -1
      omega
    · rw [h.in_eq, Function.update_of_ne (entry_ne (by omega) hj hlast hout)]
      exact h.used k (by omega)
  · intro k hjk hk
    rw [h.in_eq, Function.update_of_ne (entry_ne hk hj (by omega) hout)]
    exact h.free k (by omega) hk

theorem Queued.oldest_free (h : Queued inp out que 0) : (que out).index = -1 := by
  have hfree := h.free 0 (Nat.le_refl 0) (by decide)
  rwa [Nat.add_zero, Nat.mod_eq_of_lt h.out_lt] at hfree

theorem Queued.oldest_used (h : Queued inp out que (j + 1)) : (que out).index ≠ -1 := by
  have hused := h.used 0 (Nat.succ_pos j)
  rwa [Nat.add_zero, Nat.mod_eq_of_lt h.out_lt] at hused

theorem Queued.insert_free (h : Queued inp out que j) (hj : j < numRxBuff) :
    (que inp).index = -1 := by
  rw [h.in_eq]
  exact h.free j (Nat.le_refl j) hj

end Queue

/-- The second loop leaves the chip and the log alone. -/
theorem deliver_frame (n : Nat) : ∀ s : LanDriver,
    (LanDriver.deliver n s).2.chip = s.chip ∧ (LanDriver.deliver n s).2.log = s.log := by
  induction n with
  | zero => intro s; exact ⟨rfl, rfl⟩
  | succ n ih =>
    intro s
    rw [LanDriver.deliver]
    dsimp only
    split
    · exact ⟨rfl, rfl⟩
    · exact ih _

/-- The second loop empties the queue. -/
theorem queued_deliver (n : Nat) : ∀ {s : LanDriver} {j : Nat},
    Queued s.rxNdxIn s.rxNdxOut s.rxAvlQue j → j ≤ numRxBuff → j < n →
      Queued (LanDriver.deliver n s).2.rxNdxIn (LanDriver.deliver n s).2.rxNdxOut
        (LanDriver.deliver n s).2.rxAvlQue 0 := by
  induction n with
  | zero => intro s j _ _ hn; omega
  | succ n ih =>
    intro s j h hj hn
    rw [LanDriver.deliver]
    dsimp only
    cases j with
    | zero =>
      rw [if_pos h.oldest_free]
      exact h
    | succ j =>
      rw [if_neg h.oldest_used]
      apply ih (j := j)
      · exact queued_free_oldest h (by omega) _
      · omega
      · omega

/-- What holds between two rounds: no more packets are queued than rounds were taken. -/
structure Inv (s : LanDriver) : Prop where
  sync : InSync s.chip
  matched : Matched s.log
  room : ∃ j ≤ s.loopCount, Queued s.rxNdxIn s.rxNdxOut s.rxAvlQue j ∧
    (s.handled = false → j = 0)
  bound : s.loopCount ≤ numRxBuff

theorem inv_finish {s : LanDriver} (h : Inv s) : Inv s.finish := by
  obtain ⟨j, hj, hq, hnone⟩ := h.room
  have hbound := h.bound
  obtain ⟨hchip, hlog⟩ := deliver_frame (numRxBuff + 1) s
  unfold LanDriver.finish
  by_cases hh : s.handled = true
  · have hempty := queued_deliver (numRxBuff + 1) hq (by omega) (by omega)
    simp only [hh, if_true]
    constructor
    · rw [hchip]
      exact h.sync
    · rw [hlog]
      exact h.matched
    · exact ⟨0, Nat.le_refl 0, hempty, fun _ => rfl⟩
    · exact Nat.zero_le _
  · have hj0 := hnone (by simpa using hh)
    subst hj0
    simp only [hh]
    exact ⟨h.sync, h.matched, ⟨0, Nat.le_refl 0, hq, fun _ => rfl⟩, Nat.zero_le _⟩

theorem dropFrame_fst {busy : Nat} (hbusy : busy ≤ ffwdTimeout) (rxStatus : UInt32) (c : Chip) :
    (dropFrame rxStatus busy c).1 = true := by
  have hdone : ffwdLoop ffwdTimeout busy = 0 := by
    rw [ffwdLoop_eq]
    omega
  unfold dropFrame
  dsimp only
  rw [if_pos hdone]
  split <;> rfl

/-- With room in the queue a round touches the chip as `consume` says. -/
theorem body_spec {s : LanDriver} {j busy : Nat}
    (hq : Queued s.rxNdxIn s.rxNdxOut s.rxAvlQue j) (hj : j < numRxBuff)
    (hbusy : busy ≤ ffwdTimeout) (hnone : s.handled = false → j = 0) (rxStatus : UInt32) :
    (s.body busy rxStatus).chip = consume rxStatus busy s.chip ∧
      (s.body busy rxStatus).log = s.log ∧
      (s.body busy rxStatus).loopCount = s.loopCount + 1 ∧
      ∃ i ≤ j + 1, Queued (s.body busy rxStatus).rxNdxIn (s.body busy rxStatus).rxNdxOut
        (s.body busy rxStatus).rxAvlQue i ∧
        ((s.body busy rxStatus).handled = false → i = 0) := by
  unfold LanDriver.body consume
  dsimp only
  by_cases hcount : checkedCount rxStatus = 0
  · rw [if_pos hcount, if_pos hcount, if_pos (dropFrame_fst hbusy rxStatus s.chip)]
    exact ⟨rfl, rfl, rfl, j, Nat.le_succ j, hq, hnone⟩
  · rw [if_neg hcount, if_neg hcount, if_neg (not_not.mpr (hq.insert_free hj))]
    exact ⟨rfl, rfl, rfl, j + 1, Nat.le_refl _, queued_append hq hj _ _,
      fun h => Bool.noConfusion h⟩

theorem matched_cons {log : Log} {rxStatus : UInt32} {n : Nat} (h : Matched log)
    (hn : n = wordsOf (lengthOf rxStatus)) : Matched ((rxStatus, n) :: log) := by
  intro entry hentry
  rcases List.mem_cons.mp hentry with rfl | hentry
  · exact hn
  · exact h entry hentry

theorem inv_round {s : LanDriver} {e : Event} (h : Inv s)
    (he : Admits s.chip s.loopCount e) : Inv (s.round e) := by
  have harrived : Inv { s with chip := s.chip.arrive e.arrivals } :=
    { sync := inSync_arrive h.sync e.arrivals, matched := h.matched, room := h.room,
      bound := h.bound }
  unfold LanDriver.round
  dsimp only
  split
  · exact inv_finish harrived
  · rename_i rxStatus statuses hst
    split
    · exact inv_finish harrived
    · rename_i hloop
      obtain ⟨hcons, hlevel⟩ := popped_inSync h.sync he hloop hst
      obtain ⟨j, hj, hq, hnone⟩ := h.room
      obtain ⟨hc, hl, hn, i, hi, hqi, hnone'⟩ := body_spec
        (s := { s with chip := { s.chip.arrive e.arrivals with statuses := statuses } })
        hq (by omega) he.1 hnone rxStatus
      constructor
      · show InSync (LanDriver.body _ _ _).chip
        rw [hc]
        exact hcons
      · apply matched_cons
        · rw [hl]
          exact h.matched
        · rw [hc]
          exact hlevel
      · refine ⟨i, ?_, hqi, hnone'⟩
        show i ≤ (LanDriver.body _ _ _).loopCount
        rw [hn]
        exact Nat.le_trans hi (Nat.succ_le_succ hj)
      · show (LanDriver.body _ _ _).loopCount ≤ numRxBuff
        rw [hn]
        exact Nat.lt_of_not_le hloop

theorem inv_opened (fs : List Frame) (rxbp : Nat → List UInt32) :
    Inv (LanDriver.opened fs rxbp) := by
  have hempty : Queued 0 0 (fun _ => ⟨-1, 0⟩) 0 :=
    ⟨by decide, rfl, fun k hk => absurd hk (Nat.not_lt_zero k), fun _ _ _ => rfl⟩
  exact ⟨⟨fs, rfl⟩, fun _ h => absurd h List.not_mem_nil, ⟨0, Nat.le_refl 0, hempty, fun _ => rfl⟩,
    Nat.zero_le _⟩

theorem uip_body_spec {busy : Nat} (hbusy : busy ≤ ffwdTimeout) (s : UipDriver)
    (rxStatus : UInt32) : (s.body busy rxStatus).chip = consume rxStatus busy s.chip ∧
      (s.body busy rxStatus).log = s.log := by
  unfold UipDriver.body consume
  dsimp only
  by_cases hcount : checkedCount rxStatus = 0
  · rw [if_pos hcount, if_pos hcount, if_pos (dropFrame_fst hbusy rxStatus s.chip)]
    exact ⟨rfl, rfl⟩
  · rw [if_neg hcount, if_neg hcount]
    exact ⟨rfl, rfl⟩

theorem uip_inv_round {s : UipDriver} {e : Event} (h : InSync s.chip ∧ Matched s.log)
    (he : Admits s.chip s.loopCount e) : InSync (s.round e).chip ∧ Matched (s.round e).log := by
  have hsync := inSync_arrive h.1 e.arrivals
  unfold UipDriver.round
  dsimp only
  split
  · exact ⟨hsync, h.2⟩
  · rename_i rxStatus statuses hst
    split
    · exact ⟨hsync, h.2⟩
    · rename_i hloop
      obtain ⟨hcons, hlevel⟩ := popped_inSync h.1 he hloop hst
      obtain ⟨hc, hl⟩ := uip_body_spec he.1
        { s with chip := { s.chip.arrive e.arrivals with statuses := statuses } } rxStatus
      constructor
      · show InSync (UipDriver.body _ _ _).chip
        rw [hc]
        exact hcons
      · apply matched_cons
        · rw [hl]
          exact h.2
        · rw [hc]
          exact hlevel

def lanStep (s : LanDriver) (e : Event) : Option LanDriver := some (s.round e)

def uipStep (s : UipDriver) (e : Event) : Option UipDriver := some (s.round e)

def LanAdmits (s : LanDriver) (e : Event) : Prop := Admits s.chip s.loopCount e

def UipAdmits (s : UipDriver) (e : Event) : Prop := Admits s.chip s.loopCount e

instance (s : LanDriver) (e : Event) : Decidable (LanAdmits s e) :=
  inferInstanceAs (Decidable (Admits s.chip s.loopCount e))

instance (s : UipDriver) (e : Event) : Decidable (UipAdmits s e) :=
  inferInstanceAs (Decidable (Admits s.chip s.loopCount e))

/-- In both copies, whatever arrives and however many calls are made: as long as every
status popped drains exactly and no fast-forward times out, every status has been matched by
its own words and the data FIFO holds the frames whose status is still to come. -/
theorem reads_stay_in_sync (fs : List Frame) (events : List Event) :
    (∀ rxbp s, Along LanAdmits lanStep (LanDriver.opened fs rxbp) events →
      exec lanStep (LanDriver.opened fs rxbp) events = some s →
        Matched s.log ∧ InSync s.chip) ∧
    (∀ uipBuf s, Along UipAdmits uipStep (UipDriver.opened fs uipBuf) events →
      exec uipStep (UipDriver.opened fs uipBuf) events = some s →
        Matched s.log ∧ InSync s.chip) := by
  constructor
  · intro rxbp s halong hexec
    have hinv := inv_of_along (I := Inv) (fun s e t hs he ht => by
      cases ht
      exact inv_round hs he) (inv_opened fs rxbp) halong hexec
    exact ⟨hinv.matched, hinv.sync⟩
  · intro uipBuf s halong hexec
    have hinv := inv_of_along (I := fun s : UipDriver => InSync s.chip ∧ Matched s.log)
      (fun s e t hs he ht => by
        cases ht
        exact uip_inv_round hs he)
      ⟨⟨fs, rfl⟩, fun _ h => absurd h List.not_mem_nil⟩ halong hexec
    exact ⟨hinv.2, hinv.1⟩

/-- A frame of 64 bytes with the error bit: long enough for a fast-forward. -/
def longError : Frame := ⟨0x00408000, List.replicate 16 0xAAAAAAAA, by decide⟩

/-- A proper frame of 64 bytes. -/
def nextFrame : Frame := ⟨0x00400000, List.replicate 16 0, by decide⟩

/-- A proper frame of 61 bytes, whose last word is not full. -/
def oddFrame : Frame := ⟨0x003D0000, List.replicate 16 0x55555555, by decide⟩

/-- Three rounds, in the second of which the third frame arrives. -/
def threeRounds : List Event := [⟨[], 7⟩, ⟨[oddFrame], 0⟩, ⟨[], 0⟩]

theorem threeRounds_stay_in_sync :
    ∃ s t, exec lanStep (LanDriver.opened [longError, nextFrame] fun _ => []) threeRounds = some s ∧
      exec uipStep (UipDriver.opened [longError, nextFrame] fun _ => 0) threeRounds = some t ∧
      s.log = [(0x003D0000, 16), (0x00400000, 16), (0x00408000, 16)] ∧ t.log = s.log ∧
      (Matched s.log ∧ InSync s.chip) ∧ Matched t.log ∧ InSync t.chip := by
  obtain ⟨hlan, huip⟩ := reads_stay_in_sync [longError, nextFrame] threeRounds
  exact ⟨_, _, rfl, rfl, rfl, rfl, hlan _ _ (by decide) rfl, huip _ _ (by decide) rfl⟩

/-- A frame of 8 bytes with the error bit. -/
def shortError : Frame := ⟨0x00088000, [0, 0], by decide⟩

/-- The short errored frame has two words, and both drivers remove eight. -/
theorem shortError_takes_eight_words :
    ∃ s t, exec lanStep (LanDriver.opened [shortError, nextFrame] fun _ => []) [⟨[], 0⟩] = some s ∧
      exec uipStep (UipDriver.opened [shortError, nextFrame] fun _ => 0) [⟨[], 0⟩] = some t ∧
      ¬ Matched s.log ∧ ¬ Matched t.log := by
  refine ⟨_, _, rfl, rfl, fun h => ?_, fun h => ?_⟩
  · exact absurd (h (0x00088000, 8) (List.mem_singleton.mpr rfl)) (by decide)
  · exact absurd (h (0x00088000, 8) (List.mem_singleton.mpr rfl)) (by decide)

end Plak1a.Lan.RxSync
