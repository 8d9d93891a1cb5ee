import Plak1a.Lan.Mac

/-!
# A PHY register is written through four kinds of access

Every access to the MAC reads the command register before its command and waits behind it,
so that the words this register is read with decide which accesses are refused, which
time out and which complete. `SetPhyReg` looks at the MII before and after its two writes
and not at the writes themselves.
-/

namespace Plak1a.Lan.Phy

open Mac Lib.Countdown

/-- The words `MAC_CSR_CMD` and `MAC_CSR_DATA` will be read with. -/
structure Line where
  cmd : Nat → UInt32
  data : Nat → UInt32

def lineOf (c : Chip) : Line := ⟨c.reads .macCsrCmd, c.reads .macCsrData⟩

def rest (words : Nat → UInt32) : Nat → UInt32 := fun n => words (n + 1)

def pollWord (cmd : Nat → UInt32) : Bool × (Nat → UInt32) := (csrBusy (cmd 0), rest cmd)

/-- The MAC is idle before a command, and again within the time the command is given. -/
def Completes (cmd : Nat → UInt32) : Prop :=
  csrBusy (cmd 0) = false ∧ ∃ k < macTimeout, csrBusy (cmd (k + 1)) = false

instance (cmd : Nat → UInt32) : Decidable (Completes cmd) :=
  inferInstanceAs (Decidable (_ ∧ _))

/-- The words left behind an access: a refused one has read a single word. -/
def behind (cmd : Nat → UInt32) : Nat → UInt32 :=
  if csrBusy (cmd 0) then rest cmd else (countdown pollWord macTimeout (rest cmd)).2

def Line.behindWrite (l : Line) : Line := ⟨behind l.cmd, l.data⟩

/-- A read takes a word of data if it completes. -/
def Line.behindRead (l : Line) : Line :=
  ⟨behind l.cmd, if Completes l.cmd then rest l.data else l.data⟩

/-- A read of `MAC_MIIACC` completes and finds the MII idle. -/
def MiiIdle (l : Line) : Prop := Completes l.cmd ∧ miiBusy (l.data 0) = false

instance (l : Line) : Decidable (MiiIdle l) := inferInstanceAs (Decidable (_ ∧ _))

/-- One of `n` reads of `MAC_MIIACC` finds the MII idle. -/
def IdleWithin (n : Nat) (l : Line) : Prop := ∃ k < n, MiiIdle (Line.behindRead^[k] l)

/-- Both writes of `SetPhyReg` complete. -/
def WritesComplete (l : Line) : Prop :=
  Completes l.behindRead.cmd ∧ Completes l.behindRead.behindWrite.cmd

/-- The MII is found idle before the writes, and behind them in time. -/
def MiiAnswers (l : Line) : Prop :=
  MiiIdle l ∧ IdleWithin phyTimeout l.behindRead.behindWrite.behindWrite

variable {c t : Chip} {cmd : Nat → UInt32} {l : Line} {n : Nat}

theorem pollAt_pollWord (k : Nat) (cmd : Nat → UInt32) :
    pollAt pollWord k cmd = csrBusy (cmd k) := by
  induction k generalizing cmd with
  | zero => rfl
  | succ k ih =>
    rw [pollAt_succ]
    exact ih (rest cmd)

@[simp] theorem pollCsr_fst (c : Chip) : c.pollCsr.1 = csrBusy ((lineOf c).cmd 0) := rfl

theorem countdown_pollCsr (n : Nat) (c : Chip) :
    countdown pollWord n (lineOf c).cmd =
      ((countdown Chip.pollCsr n c).1, (lineOf (countdown Chip.pollCsr n c).2).cmd) :=
  countdown_map (f := fun c => (lineOf c).cmd) (fun _ => rfl) (fun _ => rfl)

/-- The wait behind a command times out exactly if all the words it reads are busy. -/
theorem macBusy_fst (n : Nat) (c : Chip) :
    (c.macBusy n).1 = true ↔ ∀ k < n, csrBusy ((lineOf c).cmd k) = true := by
  have hiff : (countdown pollWord n (lineOf c).cmd).1 = -1 ↔ _ := countdown_eq_neg_one_iff
  rw [countdown_pollCsr] at hiff
  show decide (_ = _) = true ↔ _
  rw [decide_eq_true_iff]
  simpa only [pollAt_pollWord] using hiff

theorem macBusy_line (n : Nat) (c : Chip) :
    lineOf (c.macBusy n).2 = ⟨(countdown pollWord n (lineOf c).cmd).2, (lineOf c).data⟩ ∧
      (c.macBusy n).2.log = c.log := by
  have hkeeps : (lineOf (countdown Chip.pollCsr n c).2).data = (lineOf c).data ∧
      (countdown Chip.pollCsr n c).2.log = c.log :=
    countdown_induct (I := fun t => (lineOf t).data = (lineOf c).data ∧ t.log = c.log)
      (fun t ht => ht) ⟨rfl, rfl⟩
  refine ⟨?_, hkeeps.2⟩
  rw [countdown_pollCsr]
  exact congrArg (Line.mk _) hkeeps.1

/-- The wait of an access that is not refused. -/
theorem macBusy_of_idle (h : csrBusy ((lineOf c).cmd 0) = false) :
    (c.pollCsr.2.macBusy macTimeout).1 = !decide (Completes (lineOf c).cmd) ∧
      lineOf (c.pollCsr.2.macBusy macTimeout).2 = (lineOf c).behindWrite ∧
      (c.pollCsr.2.macBusy macTimeout).2.log = c.log := by
  obtain ⟨hline, hlog⟩ := macBusy_line macTimeout c.pollCsr.2
  refine ⟨?_, ?_, hlog⟩
  · rw [Bool.eq_iff_iff, macBusy_fst, Bool.not_eq_true', decide_eq_false_iff_not]
    constructor
    · intro hall hcompletes
      obtain ⟨k, hk, hidle⟩ := hcompletes.2
      exact Bool.noConfusion ((hall k hk).symm.trans hidle)
    · intro hnot k hk
      by_contra hidle
      exact hnot ⟨h, k, hk, Bool.eq_false_iff.mpr hidle⟩
  · rw [hline, Line.behindWrite, behind, if_neg (Bool.eq_false_iff.mp h)]
    rfl

/-- A write is logged unless it is refused; the result tells whether it completed. -/
theorem setMacReg_spec (reg value : UInt32) (c : Chip) :
    (c.setMacReg reg value).1 = decide (Completes (lineOf c).cmd) ∧
      lineOf (c.setMacReg reg value).2 = (lineOf c).behindWrite ∧
      (c.setMacReg reg value).2.log = c.log ++
        if csrBusy ((lineOf c).cmd 0) then []
        else [.macWrite value (macWrCmd reg) (decide (Completes (lineOf c).cmd))] := by
  unfold Chip.setMacReg
  dsimp only
  rw [pollCsr_fst]
  cases hbusy : csrBusy ((lineOf c).cmd 0) with
  | true =>
    have hnot : ¬ Completes (lineOf c).cmd := fun h => Bool.noConfusion (hbusy.symm.trans h.1)
    refine ⟨(decide_eq_false hnot).symm, ?_, (List.append_nil _).symm⟩
    show Line.mk _ _ = _
    rw [Line.behindWrite, behind, if_pos hbusy]
    rfl
  | false =>
    obtain ⟨hwait, hline, hlog⟩ := macBusy_of_idle hbusy
    simp only [Bool.false_eq_true, if_false]
    rw [hwait, Bool.not_not]
    exact ⟨rfl, hline, congrArg (· ++ _) hlog⟩

/-- A read that does not complete gives all ones. -/
theorem getMacReg_spec (reg : UInt32) (c : Chip) :
    (c.getMacReg reg).1 =
        (if Completes (lineOf c).cmd then (lineOf c).data 0 else 0xffffffff) ∧
      lineOf (c.getMacReg reg).2 = (lineOf c).behindRead ∧
      (c.getMacReg reg).2.log = c.log ++
        if csrBusy ((lineOf c).cmd 0) then []
        else [.macRead (macRdCmd reg)
          (if Completes (lineOf c).cmd then some ((lineOf c).data 0) else none)] := by
  unfold Chip.getMacReg
  dsimp only
  rw [pollCsr_fst]
  cases hbusy : csrBusy ((lineOf c).cmd 0) with
  | true =>
    have hnot : ¬ Completes (lineOf c).cmd := fun h => Bool.noConfusion (hbusy.symm.trans h.1)
    rw [if_neg hnot]
    refine ⟨rfl, ?_, (List.append_nil _).symm⟩
    show Line.mk _ _ = _
    rw [Line.behindRead, behind, if_pos hbusy, if_neg hnot]
    rfl
  | false =>
    obtain ⟨hwait, hline, hlog⟩ := macBusy_of_idle hbusy
    have hdata := congrArg Line.data hline
    have hcmd := congrArg Line.cmd hline
    simp only [Bool.false_eq_true, if_false]
    rw [hwait]
    by_cases hcompletes : Completes (lineOf c).cmd
    · rw [decide_eq_true hcompletes, if_pos hcompletes, if_pos hcompletes]
      have hword : ((c.pollCsr.2.macBusy macTimeout).2.read .macCsrData).1 = (lineOf c).data 0 :=
        congrFun hdata 0
      refine ⟨hword, ?_, ?_⟩
      · rw [Line.behindRead, if_pos hcompletes]
        show Line.mk _ _ = _
        exact congrArg₂ Line.mk hcmd (congrArg rest hdata)
      · show _ ++ [Access.macRead _ (some ((c.pollCsr.2.macBusy macTimeout).2.read _).1)] = _
        rw [hword]
        exact congrArg (· ++ _) hlog
    · rw [decide_eq_false hcompletes, if_neg hcompletes, if_neg hcompletes]
      refine ⟨rfl, ?_, congrArg (· ++ _) hlog⟩
      rw [Line.behindRead, if_neg hcompletes]
      exact hline

/-- A read that does not complete counts as busy. -/
theorem pollMii_fst (c : Chip) : c.pollMii.1 = !decide (MiiIdle (lineOf c)) := by
  show miiBusy (c.getMacReg macMiiacc).1 = _
  rw [(getMacReg_spec macMiiacc c).1, Bool.eq_iff_iff, Bool.not_eq_true', decide_eq_false_iff_not]
  by_cases hcompletes : Completes (lineOf c).cmd
  · rw [if_pos hcompletes, MiiIdle, and_iff_right hcompletes, Bool.not_eq_false]
  · rw [if_neg hcompletes]
    exact iff_of_true rfl fun h => hcompletes h.1

theorem pollMii_line (c : Chip) : lineOf c.pollMii.2 = (lineOf c).behindRead :=
  (getMacReg_spec macMiiacc c).2.1

/-- The entries are reads. -/
def ReadsOnly (entries : List Access) : Prop := ∀ a ∈ entries, ∃ cmd data, a = .macRead cmd data

/-- One of the entries is a read of `MAC_MIIACC` that has found the MII idle. -/
def FindsIdle (entries : List Access) : Prop :=
  ∃ d, miiBusy d = false ∧ .macRead (macRdCmd macMiiacc) (some d) ∈ entries

theorem pollMii_log (c : Chip) : ∃ entries, c.pollMii.2.log = c.log ++ entries ∧
    ReadsOnly entries ∧ (MiiIdle (lineOf c) → FindsIdle entries) := by
  refine ⟨_, (getMacReg_spec macMiiacc c).2.2, fun a ha => ?_, fun hidle => ?_⟩
  · split at ha
    · exact absurd ha List.not_mem_nil
    · exact ⟨_, _, List.mem_singleton.mp ha⟩
  · rw [if_neg (Bool.eq_false_iff.mp hidle.1.1), if_pos hidle.1]
    exact ⟨_, hidle.2, List.mem_singleton_self _⟩

theorem idleWithin_succ :
    IdleWithin (n + 1) l ↔ MiiIdle l ∨ IdleWithin n l.behindRead := by
  constructor
  · intro h
    obtain ⟨k, hk, hidle⟩ := h
    cases k with
    | zero => exact Or.inl hidle
    | succ k => exact Or.inr ⟨k, Nat.lt_of_succ_lt_succ hk, hidle⟩
  · intro h
    rcases h with hidle | ⟨k, hk, hidle⟩
    · exact ⟨0, Nat.succ_pos n, hidle⟩
    · exact ⟨k + 1, Nat.succ_lt_succ hk, hidle⟩

/-- The polls of the MII end in time exactly if one of them finds it idle, and are reads. -/
theorem countdown_pollMii (n : Nat) : ∀ c : Chip,
    ((countdown Chip.pollMii n c).1 ≠ -1 ↔ IdleWithin n (lineOf c)) ∧
      ∃ entries, (countdown Chip.pollMii n c).2.log = c.log ++ entries ∧ ReadsOnly entries ∧
        (IdleWithin n (lineOf c) → FindsIdle entries) := by
  induction n with
  | zero =>
    intro c
    have hnone : ¬ IdleWithin 0 (lineOf c) := fun h => by
      obtain ⟨k, hk, _⟩ := h
      exact absurd hk (Nat.not_lt_zero k)
    refine ⟨iff_of_false (fun h => h rfl) hnone, [], (List.append_nil _).symm, ?_, ?_⟩
    · exact fun a ha => absurd ha List.not_mem_nil
    · exact fun h => absurd h hnone
  | succ n ih =>
    intro c
    obtain ⟨entries, hlog, hreads, hfinds⟩ := pollMii_log c
    by_cases hidle : MiiIdle (lineOf c)
    · have hpoll : c.pollMii.1 = false := by
        rw [pollMii_fst, decide_eq_true hidle]
        rfl
      have hwithin : IdleWithin (n + 1) (lineOf c) := idleWithin_succ.mpr (Or.inl hidle)
      rw [countdown_of_false hpoll]
      refine ⟨iff_of_true (by dsimp only; omega) hwithin, entries, hlog, hreads, fun _ => ?_⟩
      exact hfinds hidle
    · have hpoll : c.pollMii.1 = true := by
        rw [pollMii_fst, decide_eq_false hidle]
        rfl
      obtain ⟨hends, later, hlater, hreads', hfinds'⟩ := ih c.pollMii.2
      rw [pollMii_line] at hends hfinds'
      rw [countdown_of_true hpoll, idleWithin_succ, or_iff_right hidle]
      refine ⟨hends, entries ++ later, ?_, ?_, fun h => ?_⟩
      · rw [hlater, hlog, List.append_assoc]
      · intro a ha
        rcases List.mem_append.mp ha with ha | ha
        · exact hreads a ha
        · exact hreads' a ha
      · obtain ⟨d, hd, hmem⟩ := hfinds' h
        exact ⟨d, hd, List.mem_append_right _ hmem⟩

theorem phyBusy_fst (n : Nat) (c : Chip) :
    (c.phyBusy n).1 = false ↔ IdleWithin n (lineOf c) := by
  show decide (_ = _) = false ↔ _
  rw [decide_eq_false_iff_not]
  exact (countdown_pollMii n c).1

/-- What a write of a MAC register leaves in the log. -/
def writeEntries (reg value : UInt32) (cmd : Nat → UInt32) : List Access :=
  if csrBusy (cmd 0) then []
  else [.macWrite value (macWrCmd reg) (decide (Completes cmd))]

theorem mem_writeEntries {reg value : UInt32} {data word : UInt32} {done : Bool} :
    .macWrite data word done ∈ writeEntries reg value cmd ↔ csrBusy (cmd 0) = false ∧
      data = value ∧ word = macWrCmd reg ∧ done = decide (Completes cmd) := by
  unfold writeEntries
  cases hbusy : csrBusy (cmd 0) with
  | true => simp
  | false => simp

/-- The first write puts the value into `MAC_MIIDATA`, the second gives the command for the
register, and behind them the MII is read as not busy. -/
def Written (reg : UInt8) (value : UInt16) (c t : Chip) : Prop :=
  ∃ entries d, t.log = c.log ++ entries ∧ miiBusy d = false ∧
    List.Sublist
      [.macWrite value.toUInt32 (macWrCmd macMiidata) true,
        .macWrite (macMiiWrCmd phyAddr reg.toUInt32) (macWrCmd macMiiacc) true,
        .macRead (macRdCmd macMiiacc) (some d)] entries

/-- `SetPhyReg` succeeds exactly if the MII answers, and then its log is this. -/
theorem setPhyReg_spec (reg : UInt8) (value : UInt16) (c : Chip) :
    ((c.setPhyReg reg value).1 = true ↔ MiiAnswers (lineOf c)) ∧
      (MiiAnswers (lineOf c) → ∃ before after,
        (c.setPhyReg reg value).2.log = c.log ++ (before ++
          (writeEntries macMiidata value.toUInt32 (lineOf c).behindRead.cmd ++
            (writeEntries macMiiacc (macMiiWrCmd phyAddr reg.toUInt32)
              (lineOf c).behindRead.behindWrite.cmd ++ after))) ∧
          ReadsOnly before ∧ ReadsOnly after ∧ FindsIdle after) := by
  have hfst := pollMii_fst c
  have hline := pollMii_line c
  obtain ⟨before, hlog, hreads, _⟩ := pollMii_log c
  unfold Chip.setPhyReg MiiAnswers
  dsimp only
  by_cases hidle : MiiIdle (lineOf c)
  · rw [hfst, decide_eq_true hidle]
    simp only [Bool.not_true, Bool.false_eq_true, if_false]
    obtain ⟨_, hline₁, hlog₁⟩ := setMacReg_spec macMiidata value.toUInt32 c.pollMii.2
    generalize c.pollMii.2.setMacReg macMiidata value.toUInt32 = w₁ at hline₁ hlog₁
    obtain ⟨_, hline₂, hlog₂⟩ := setMacReg_spec macMiiacc (macMiiWrCmd phyAddr reg.toUInt32) w₁.2
    generalize w₁.2.setMacReg macMiiacc (macMiiWrCmd phyAddr reg.toUInt32) = w₂ at hline₂ hlog₂
    rw [hline] at hline₁ hlog₁
    rw [hline₁] at hline₂ hlog₂
    have hbusy := phyBusy_fst phyTimeout w₂.2
    obtain ⟨_, after, hlater, hreads', hfinds⟩ := countdown_pollMii phyTimeout w₂.2
    rw [hline₂] at hbusy hfinds
    have hlogs : (w₂.2.phyBusy phyTimeout).2.log = w₂.2.log ++ after := hlater
    constructor
    · rw [and_iff_right hidle, ← hbusy]
      cases (w₂.2.phyBusy phyTimeout).1 <;> simp
    · intro hanswers
      refine ⟨before, after, ?_, hreads, hreads', hfinds hanswers.2⟩
      rw [hbusy.mpr hanswers.2]
      simp only [Bool.false_eq_true, if_false]
      rw [hlogs, hlog₂, hlog₁, hlog, List.append_assoc, List.append_assoc, List.append_assoc]
      rfl
  · rw [hfst, decide_eq_false hidle]
    refine ⟨iff_of_false Bool.false_ne_true fun h => hidle h.1, fun h => absurd h.1 hidle⟩

theorem not_mem_of_readsOnly {entries : List Access} {data word : UInt32} {done : Bool}
    (h : ReadsOnly entries) : .macWrite data word done ∉ entries := by
  intro hmem
  obtain ⟨_, _, heq⟩ := h _ hmem
  cases heq

/-- `SetPhyReg` succeeds only with a written register exactly if both of its writes complete
or the MII does not answer, whatever the two registers of the MAC are read with. -/
theorem setPhyReg_written_iff (reg : UInt8) (value : UInt16) (c : Chip) :
    ((c.setPhyReg reg value).1 = true → Written reg value c (c.setPhyReg reg value).2) ↔
      (WritesComplete (lineOf c) ∨ ¬ MiiAnswers (lineOf c)) := by
  obtain ⟨hfst, hentries⟩ := setPhyReg_spec reg value c
  rw [hfst]
  by_cases hanswers : MiiAnswers (lineOf c)
  · rw [imp_iff_right hanswers, or_iff_left (not_not.mpr hanswers)]
    obtain ⟨before, after, hlog, hbefore, hafter, d, hd, hmem⟩ := hentries hanswers
    constructor
    · intro hwritten
      obtain ⟨entries, d, heq, _, hsub⟩ := hwritten
      obtain rfl := List.append_cancel_left (hlog.symm.trans heq)
      have hfirst := hsub.subset List.mem_cons_self
      have hsecond := hsub.subset (List.mem_cons_of_mem _ List.mem_cons_self)
      have hne : macWrCmd macMiidata ≠ macWrCmd macMiiacc := by decide
      simp only [List.mem_append, mem_writeEntries, not_mem_of_readsOnly hbefore,
        not_mem_of_readsOnly hafter, hne, hne.symm, false_and, and_false, or_false,
        false_or] at hfirst hsecond
      exact ⟨of_decide_eq_true hfirst.2.2.2.symm, of_decide_eq_true hsecond.2.2.2.symm⟩
    · intro hcomplete
      obtain ⟨hfirst, hsecond⟩ := hcomplete
      refine ⟨_, d, hlog, hd, List.Sublist.trans ?_ (List.sublist_append_right before _)⟩
      unfold writeEntries
      rw [if_neg (Bool.eq_false_iff.mp hfirst.1), if_neg (Bool.eq_false_iff.mp hsecond.1),
        decide_eq_true hfirst, decide_eq_true hsecond]
      exact ((List.singleton_sublist.mpr hmem).cons_cons _).cons_cons _
  · exact iff_of_true (fun h => absurd h hanswers) (Or.inr hanswers)

/-- The MAC is busy with something else when `MAC_MIIDATA` is to be written, and never
again. -/
def busyOnce : Chip where
  reads := fun r n => if r = .macCsrCmd ∧ n = 2 then 0x80000000 else 0
  log := []

/-- `MAC_MIIDATA` is not written, and `SetPhyReg` succeeds. -/
theorem busyOnce_succeeds : (busyOnce.setPhyReg 0 0x8000).1 = true ∧
    ¬ Written 0 0x8000 busyOnce (busyOnce.setPhyReg 0 0x8000).2 := by
  refine ⟨by decide, fun h => ?_⟩
  obtain ⟨entries, d, hlog, _, hsub⟩ := h
  rw [show busyOnce.log = [] from rfl, List.nil_append] at hlog
  have hfirst := hsub.subset List.mem_cons_self
  rw [← hlog] at hfirst
  revert hfirst
  decide

end Plak1a.Lan.Phy
