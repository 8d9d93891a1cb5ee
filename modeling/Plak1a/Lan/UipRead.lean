import Plak1a.Lan.RxSync

/-!
# What `tapdev_read` finds in `uip_buf`

`lan9118_read` compares the length of a frame with the Ethernet maximum and copies that
many bytes to `uip_buf`, which `uip-conf.h` makes smaller. A frame no longer than the
buffer is there completely, provided the frames dropped before it took only their own
words out of the data FIFO.
-/

namespace Plak1a.Lan.UipRead

open Receive RxSync Lib.Run

/-- `UIP_CONF_BUFFER_SIZE` -/
def uipBufsize : Nat := 420

/-- `u8_t uip_buf[UIP_BUFSIZE + 2];` -/
def uipBufBytes : Nat := uipBufsize + 2

/-- `tapdev_read` behind the call of `lan9118_read`; `packetlen` is a `short`. -/
def tapdevRead (r : Int) : Nat :=
  let packetlen := Int.bmod r 65536
  if packetlen < 0 then 0 else packetlen.toNat

/-- The `count` of the `memcpy` of a round, 0 when it copies nothing. -/
def copied (s : UipDriver) (e : Event) : Nat :=
  match popped s.chip s.loopCount e with
  | none => 0
  | some rxStatus => checkedCount rxStatus

/-- Every byte that the round writes to `uip_buf` lies inside it. -/
def WritesInside (s : UipDriver) (e : Event) : Prop := ∀ i < copied s e, i < uipBufBytes

/-- A frame accepted in the round is no longer than the buffer. -/
def Fits (s : UipDriver) (e : Event) : Prop :=
  ∀ rxStatus, popped s.chip s.loopCount e = some rxStatus → Accepts rxStatus →
    lengthOf rxStatus ≤ uipBufBytes

instance (s : UipDriver) (e : Event) : Decidable (Fits s e) :=
  Option.decidableForallMem (p := fun rxStatus =>
    Accepts rxStatus → lengthOf rxStatus ≤ uipBufBytes) (popped s.chip s.loopCount e)

/-- All bytes of the frame are in `uip_buf`, from its start on. -/
structure InBuffer (s : UipDriver) (f : Frame) : Prop where
  inside : lengthOf f.status ≤ uipBufBytes
  bytes : ∀ i < lengthOf f.status, s.uipBuf i = UipDriver.byteAt f.words i

/-- The frames that had reached the chip by the end of the events. -/
def arrived (fs : List Frame) (events : List Event) : List Frame :=
  fs ++ events.flatMap Event.arrivals

theorem tapdevRead_nothing : tapdevRead (-1) = 0 := rfl

theorem tapdevRead_count {n : Nat} (h : n ≤ enetMaxMtu) : tapdevRead n = n := by
  unfold enetMaxMtu at h
  have hshort : Int.bmod n 65536 = n := by
    apply Int.bmod_eq_of_le <;> omega
  unfold tapdevRead
  dsimp only
  rw [hshort, if_neg (by omega), Int.toNat_natCast]

theorem body_uipBuf (s : UipDriver) (busy : Nat) (rxStatus : UInt32) (i : Nat)
    (h : checkedCount rxStatus ≤ i) : (s.body busy rxStatus).uipBuf i = s.uipBuf i := by
  unfold UipDriver.body
  dsimp only
  split
  · split <;> rfl
  · exact if_neg (Nat.not_lt.mpr h)

/-- The `memcpy` is all that a round does to the memory at `uip_buf`. -/
theorem round_uipBuf (s : UipDriver) (e : Event) (i : Nat) (h : copied s e ≤ i) :
    (s.round e).uipBuf i = s.uipBuf i := by
  unfold copied popped at h
  unfold UipDriver.round
  dsimp only
  split
  · rfl
  · rename_i rxStatus statuses hst
    split
    · rfl
    · rename_i hloop
      rw [if_neg hloop, hst, List.head?_cons] at h
      exact body_uipBuf _ _ rxStatus i h

theorem writesInside_iff (s : UipDriver) (e : Event) : WritesInside s e ↔ Fits s e := by
  unfold WritesInside Fits copied
  cases hpop : popped s.chip s.loopCount e with
  | none =>
    constructor
    · exact fun _ rxStatus h => nomatch h
    · exact fun _ i hi => absurd hi (Nat.not_lt_zero i)
  | some rxStatus =>
    dsimp only
    by_cases haccepts : Accepts rxStatus
    · rw [checkedCount_of_accepts haccepts]
      constructor
      · intro h st hst _
        cases hst
        by_contra hlong
        exact absurd (h uipBufBytes (Nat.lt_of_not_le hlong)) (Nat.lt_irrefl _)
      · exact fun h i hi => Nat.lt_of_lt_of_le hi (h rxStatus rfl haccepts)
    · rw [checkedCount_of_not_accepts haccepts]
      constructor
      · intro _ st hst h
        cases hst
        exact absurd h haccepts
      · exact fun _ i hi => absurd hi (Nat.not_lt_zero i)

/-- The chip holds the frames `fs`, oldest first, each with all of its words. -/
def Pending (c : Chip) (fs : List Frame) : Prop := c = ⟨fs.map Frame.status, dataOf fs⟩

theorem Pending.arrive {c : Chip} {fs : List Frame} (h : Pending c fs) (gs : List Frame) :
    Pending (c.arrive gs) (fs ++ gs) := by
  cases h
  simp only [Pending, Chip.arrive, dataOf, List.map_append, List.filter_append]

/-- What a call of `lan9118_read` that ends with `r` has found in the chip. -/
def Found (s : UipDriver) (r : Int) (f : Frame) : Prop :=
  Accepts f.status ∧ r = lengthOf f.status ∧
    ∀ i < lengthOf f.status, s.uipBuf i = UipDriver.byteAt f.words i

theorem body_pending {s : UipDriver} {f : Frame} {fs : List Frame} {busy : Nat}
    (hc : s.chip = ⟨fs.map Frame.status, dataOf (f :: fs)⟩) (hbusy : busy ≤ ffwdTimeout)
    (hd : DrainsExactly f.status) :
    Pending (s.body busy f.status).chip fs ∧
      ((s.body busy f.status).returned = s.returned ∨
        ∃ r, (s.body busy f.status).returned = r :: s.returned ∧
          Found (s.body busy f.status) r f) := by
  constructor
  · obtain ⟨hchip, _⟩ := uip_body_spec hbusy s f.status
    rw [hchip, hc]
    exact consume_dataOf f fs _ hbusy hd
  · unfold UipDriver.body
    dsimp only
    by_cases haccepts : Accepts f.status
    · rw [checkedCount_of_accepts haccepts, if_neg haccepts.1]
      refine Or.inr ⟨lengthOf f.status, rfl, haccepts, rfl, fun i hi => ?_⟩
      have hwords := readWords_dataOf f fs (fs.map Frame.status)
      rw [← hc] at hwords
      show (if i < lengthOf f.status then UipDriver.byteAt (s.chip.readWords _).1 i else _) = _
      rw [if_pos hi, hwords]
    · rw [checkedCount_of_not_accepts haccepts, if_pos rfl,
        if_pos (dropFrame_fst hbusy f.status s.chip)]
      exact Or.inl rfl

/-- A round takes at most the oldest frame; a call that returns its length has it complete. -/
theorem round_pending {s : UipDriver} {e : Event} {gs : List Frame} (h : Pending s.chip gs)
    (he : UipAdmits s e) :
    ∃ done left, gs ++ e.arrivals = done ++ left ∧ Pending (s.round e).chip left ∧
      ∀ r, (s.round e).returned = r :: s.returned →
        r = -1 ∨ ∃ f ∈ gs ++ e.arrivals, popped s.chip s.loopCount e = some f.status ∧
          Found (s.round e) r f := by
  have harrived := h.arrive e.arrivals
  unfold UipDriver.round
  dsimp only
  split
  · exact ⟨[], _, rfl, harrived, fun r hr => Or.inl (List.head_eq_of_cons_eq hr).symm⟩
  · rename_i rxStatus statuses hst
    split
    · exact ⟨[], _, rfl, harrived, fun r hr => Or.inl (List.head_eq_of_cons_eq hr).symm⟩
    · rename_i hloop
      cases hfs : gs ++ e.arrivals with
      | nil =>
        rw [hfs] at harrived
        rw [harrived] at hst
        cases hst
      | cons f fs =>
        rw [hfs] at harrived
        have hst' := hst
        rw [harrived] at hst'
        obtain ⟨rfl, rfl⟩ := List.cons.inj hst'
        have hpop : popped s.chip s.loopCount e = some f.status := by
          rw [popped, if_neg hloop, hst]
          rfl
        obtain ⟨hpending, hresult⟩ := body_pending
          (s := { s with
            chip := { s.chip.arrive e.arrivals with statuses := fs.map Frame.status } })
          (by rw [harrived]) he.1 (he.2 _ hpop)
        refine ⟨[f], fs, rfl, hpending, fun r hr => Or.inr ⟨f, List.mem_cons_self, hpop, ?_⟩⟩
        rcases hresult with hsame | ⟨r', hr', hfound⟩
        · exact absurd (hr.symm.trans hsame) (List.cons_ne_self r _)
        · obtain rfl := List.head_eq_of_cons_eq (hr.symm.trans hr')
          exact hfound

/-- Of the frames that have arrived the chip holds those that are still to be read. -/
def Holding (s : UipDriver) (frames : List Frame) : Prop :=
  ∃ done left, frames = done ++ left ∧ Pending s.chip left

theorem Holding.round {s : UipDriver} {e : Event} {frames : List Frame} (h : Holding s frames)
    (he : UipAdmits s e) : Holding (s.round e) (frames ++ e.arrivals) := by
  obtain ⟨done, left, rfl, hpending⟩ := h
  obtain ⟨taken, rest, hsplit, hrest, _⟩ := round_pending hpending he
  refine ⟨done ++ taken, rest, ?_, hrest⟩
  rw [List.append_assoc, hsplit, List.append_assoc]

theorem outputs_arrivals (events : List Event) (s : UipDriver) :
    outputs (fun _ e => e.arrivals) uipStep s events = events.flatMap Event.arrivals := by
  induction events generalizing s with
  | nil => rfl
  | cons e events ih =>
    rw [List.flatMap_cons, ← ih (s.round e)]
    rfl

theorem holding_of_along {fs : List Frame} {uipBuf : Nat → UInt8} {events : List Event}
    {s : UipDriver} (halong : Along UipAdmits uipStep (UipDriver.opened fs uipBuf) events)
    (h : exec uipStep (UipDriver.opened fs uipBuf) events = some s) :
    Holding s (arrived fs events) := by
  have hopened : Holding (UipDriver.opened fs uipBuf) fs := ⟨[], fs, rfl, rfl⟩
  have hrun : Holding s (fs ++ outputs (fun _ e => e.arrivals) uipStep _ events) :=
    inv_of_outputs_along (fun s e t frames hs he ht => by
      cases ht
      exact hs.round he) hopened halong h
  rwa [outputs_arrivals] at hrun

/-- Whatever arrives: all bytes written to `uip_buf` lie inside it exactly as long as every
frame accepted fits; and when, besides, every status popped drains exactly and no
fast-forward times out, each call of `tapdev_read` gives 0 or the length of a frame that is
completely in `uip_buf`. -/
theorem tapdevRead_complete (fs : List Frame) (uipBuf : Nat → UInt8) (events : List Event)
    {s : UipDriver} (h : exec uipStep (UipDriver.opened fs uipBuf) events = some s) :
    (Along WritesInside uipStep (UipDriver.opened fs uipBuf) events ↔
      Along Fits uipStep (UipDriver.opened fs uipBuf) events) ∧
    ∀ e, Along (fun s e => Fits s e ∧ UipAdmits s e) uipStep (UipDriver.opened fs uipBuf)
        (events ++ [e]) →
      ∀ r, (s.round e).returned = r :: s.returned →
        tapdevRead r = 0 ∨ ∃ f ∈ arrived fs (events ++ [e]),
          InBuffer (s.round e) f ∧ tapdevRead r = lengthOf f.status := by
  refine ⟨along_congr writesInside_iff _ _, fun e halong r hr => ?_⟩
  obtain ⟨hbefore, hlast⟩ := (along_append _ _ _).mp halong
  obtain ⟨hfits, hadmits⟩ := (hlast s h).1
  obtain ⟨done, left, harrived, hpending⟩ :=
    holding_of_along (along_mono (fun _ _ he => he.2) hbefore) h
  obtain ⟨_, _, _, _, hresult⟩ := round_pending hpending hadmits
  rcases hresult r hr with rfl | ⟨f, hf, hpop, haccepts, rfl, hbytes⟩
  · exact Or.inl tapdevRead_nothing
  · refine Or.inr ⟨f, ?_, ⟨hfits _ hpop haccepts, hbytes⟩, tapdevRead_count haccepts.2.1⟩
    have hall : arrived fs (events ++ [e]) = done ++ (left ++ e.arrivals) := by
      rw [← List.append_assoc, ← harrived, arrived, List.flatMap_append, List.flatMap_singleton,
        ← List.append_assoc, arrived]
    rw [hall]
    exact List.mem_append_right _ hf

/-- A frame of 64 bytes behind a long errored one, as the buffer takes it. -/
theorem nextFrame_read :
    ∃ s, exec uipStep (UipDriver.opened [longError, nextFrame] fun _ => 0) [⟨[], 0⟩] = some s ∧
      (s.round ⟨[], 0⟩).returned = [64] ∧
      ∃ f ∈ [longError, nextFrame], InBuffer (s.round ⟨[], 0⟩) f ∧ 64 = lengthOf f.status := by
  refine ⟨_, rfl, rfl, ?_⟩
  obtain ⟨-, hread⟩ := tapdevRead_complete [longError, nextFrame] (fun _ => 0) [⟨[], 0⟩] rfl
  exact (hread ⟨[], 0⟩ (by decide) 64 rfl).resolve_left (by decide)

/-- A proper frame of 600 bytes. -/
def longFrame : Frame := ⟨0x02580000, List.replicate 150 0, List.length_replicate⟩

/-- It is copied past the end of `uip_buf`, and its length is returned. -/
theorem longFrame_overruns :
    ¬ Along WritesInside uipStep (UipDriver.opened [longFrame] fun _ => 0) [⟨[], 0⟩] ∧
      (UipDriver.round (UipDriver.opened [longFrame] fun _ => 0) ⟨[], 0⟩).returned = [600] ∧
      tapdevRead 600 = 600 ∧ lengthOf longFrame.status = 600 ∧
      ¬ ∃ f ∈ arrived [longFrame] [⟨[], 0⟩],
        InBuffer (UipDriver.round (UipDriver.opened [longFrame] fun _ => 0) ⟨[], 0⟩) f ∧
          lengthOf f.status = 600 := by
  refine ⟨fun h => ?_, rfl, rfl, rfl, ?_⟩
  · exact absurd (h.1 422 (by decide)) (by decide)
  · rintro ⟨f, -, hbuf, hlen⟩
    have hinside := hbuf.inside
    rw [hlen] at hinside
    exact absurd hinside (by decide)

end Plak1a.Lan.UipRead
