import Plak1a.Command.Run
import Plak1a.Env.Variables

/-!
# The commands that are about commands

`setenv`, `run` and `bootd` over the environment. The other commands are those of a system. The
calls of `run_command` within each other are as deep as the stack allows, so there is a shell for
every depth.
-/

namespace Plak1a.Command.Shell

open Macros Run Env Env.Data Env.Entries Env.Setenv Env.Variables Lib

/-- What a C function reads of a string. -/
def cstr (xs : List UInt8) : CString where
  chars := xs.takeWhile (· ≠ 0)
  noNul h := by simpa using List.mem_takeWhile_imp h

/-- The environment, `ctrlc_was_pressed`, and what the other commands are about. `boots` is a
count of the calls of `do_bootd` that the code does not keep. -/
structure Session (ω : Type) where
  env : EnvT
  ctrlcWasPressed : Bool
  rest : ω
  boots : Nat

variable {ω : Type}

/-- `clear_ctrlc` -/
def Session.clearCtrlc (s : Session ω) : Session ω := { s with ctrlcWasPressed := false }

/-- `getenv` -/
def Session.getenv (s : Session ω) (name : List UInt8) : Option (List UInt8) :=
  (Data.getenv s.env.data (cstr name)).getD none

def setenvName : List UInt8 := [0x73, 0x65, 0x74, 0x65, 0x6e, 0x76]
def runName : List UInt8 := [0x72, 0x75, 0x6e]
def bootName : List UInt8 := [0x62, 0x6f, 0x6f, 0x74]
def bootdName : List UInt8 := [0x62, 0x6f, 0x6f, 0x74, 0x64]
def bootcmdName : List UInt8 := [0x62, 0x6f, 0x6f, 0x74, 0x63, 0x6d, 0x64]

def setenvCmd : CmdTbl := ⟨setenvName, cfgMaxargs, false, false⟩
def runCmd : CmdTbl := ⟨runName, cfgMaxargs, true, false⟩
def bootCmd : CmdTbl := ⟨bootName, 1, true, true⟩
def bootdCmd : CmdTbl := ⟨bootdName, 1, true, true⟩

/-- What runs a command line, with flags of its own. -/
abbrev Runner (ω : Type) := List UInt8 → Flag → Session ω → Option (Int × Session ω)

/-- The table has these commands. The other ones may run command lines too, as `autoscr` does.
What is on the stack before the copy of a command is not determined. -/
structure System (ω : Type) where
  table : List CmdTbl
  board : Session ω → Board
  other : Runner ω → CmdTbl → Flag → List (List UInt8) → Session ω → Option (Int × Session ω)
  below : Nat → Session ω → UInt8
  setenv_found : Keyed.find CmdTbl.name table setenvName = some setenvCmd
  run_found : Keyed.find CmdTbl.name table runName = some runCmd
  boot_found : Keyed.find CmdTbl.name table bootName = some bootCmd
  bootd_found : Keyed.find CmdTbl.name table bootdName = some bootdCmd

/-- `do_setenv`; `args` are the arguments from `argv[1]` on. -/
def doSetenv (board : Board) (args : List (List UInt8)) (s : Session ω) :
    Option (Int × Session ω) :=
  match args with
  | [] => some (1, s)
  | name :: vals => do
    let (rc, env) ← setenv board s.env (cstr name) (vals.map cstr)
    some (rc, { s with env := env })

/-- The loop of `do_run`. -/
def runAll (run : Runner ω) (flag : Flag) :
    List (List UInt8) → Session ω → Option (Int × Session ω)
  | [], s => some (0, s)
  | name :: names, s =>
    match s.getenv name with
    | none => some (1, s)
    | some arg => do
      let (rc, s) ← run arg flag s
      if rc = -1 then some (1, s) else runAll run flag names s

/-- `do_run` -/
def doRun (run : Runner ω) (flag : Flag)
    (args : List (List UInt8)) (s : Session ω) : Option (Int × Session ω) :=
  if args = [] then some (1, s) else runAll run flag args s

/-- `do_bootd`; without the variable, `run_command` has no command. -/
def doBootd (run : Runner ω) (flag : Flag)
    (s : Session ω) : Option (Int × Session ω) := do
  let (rc, s) ← run ((s.getenv bootcmdName).getD []) flag { s with boots := s.boots + 1 }
  some (if rc < 0 then 1 else 0, s)

/-- The function of a command. -/
def System.call (sys : System ω) (run : Runner ω)
    (cmd : CmdTbl) (flag : Flag) (argv : List (List UInt8)) (s : Session ω) :
    Option (Int × Session ω) :=
  if cmd = setenvCmd then doSetenv (sys.board s) argv.tail s
  else if cmd = runCmd then doRun run flag argv.tail s
  else if cmd.bootd then doBootd run flag s
  else sys.other run cmd flag argv s

/-- The shell in which `run_command` may be called `depth` deep. -/
def System.shell (sys : System ω) : (depth : Nat) → Shell (Session ω)
  | 0 => ⟨sys.table, Session.getenv, sys.call fun _ _ _ => none, Session.clearCtrlc,
      Session.ctrlcWasPressed⟩
  | n + 1 =>
    ⟨sys.table, Session.getenv,
      sys.call fun cmd flag s => runCommand (sys.shell n) (sys.below n s) cmd flag s,
      Session.clearCtrlc, Session.ctrlcWasPressed⟩

@[simp] theorem shell_table (sys : System ω) (n : Nat) : (sys.shell n).table = sys.table := by
  cases n <;> rfl

@[simp] theorem shell_clearCtrlc (sys : System ω) (n : Nat) :
    (sys.shell n).clearCtrlc = Session.clearCtrlc := by
  cases n <;> rfl

@[simp] theorem shell_hadCtrlc (sys : System ω) (n : Nat) :
    (sys.shell n).hadCtrlc = Session.ctrlcWasPressed := by
  cases n <;> rfl

theorem shell_setenv (sys : System ω) (n : Nat) (flag : Flag) (argv : List (List UInt8))
    (s : Session ω) :
    (sys.shell n).call setenvCmd flag argv s = doSetenv (sys.board s) argv.tail s := by
  cases n <;> simp [System.shell, System.call]

/-- While `bootd` runs, the other commands call `do_bootd` at most through lines that they run
with `CMD_FLAG_BOOTD`. -/
def System.PassesOn (sys : System ω) : Prop :=
  ∀ (run : Runner ω) (cmd : CmdTbl) (flag : Flag) (argv : List (List UInt8)) (s t : Session ω)
    (r : Int), flag.bootd = true →
    (∀ arg flag' s r t, flag'.bootd = true → run arg flag' s = some (r, t) → t.boots = s.boots) →
    sys.other run cmd flag argv s = some (r, t) → t.boots = s.boots

variable {sys : System ω} {run : Runner ω}
  {s t : Session ω} {flag : Flag} {cmd : CmdTbl} {argv names : List (List UInt8)} {r : Int}
  {before : UInt8} {n : Nat}

theorem runAll_boots (hrun : ∀ arg s r t, run arg flag s = some (r, t) → t.boots = s.boots)
    (h : runAll run flag names s = some (r, t)) : t.boots = s.boots := by
  induction names generalizing s with
  | nil =>
    obtain ⟨-, rfl⟩ := Prod.mk.inj (Option.some.inj h)
    rfl
  | cons name names ih =>
    rw [runAll] at h
    cases hget : s.getenv name with
    | none =>
      simp only [hget] at h
      obtain ⟨-, rfl⟩ := Prod.mk.inj (Option.some.inj h)
      rfl
    | some arg =>
      simp only [hget] at h
      obtain ⟨⟨r', s'⟩, harg, h⟩ := Option.bind_eq_some_iff.mp h
      have hs' := hrun arg s r' s' harg
      simp only at h
      split at h
      · obtain ⟨-, rfl⟩ := Prod.mk.inj (Option.some.inj h)
        exact hs'
      · rw [ih h, hs']

theorem doRun_boots (hrun : ∀ arg s r t, run arg flag s = some (r, t) → t.boots = s.boots)
    (h : doRun run flag names s = some (r, t)) : t.boots = s.boots := by
  rw [doRun] at h
  split at h
  · obtain ⟨-, rfl⟩ := Prod.mk.inj (Option.some.inj h)
    rfl
  · exact runAll_boots hrun h

theorem doSetenv_boots {board : Board} (h : doSetenv board names s = some (r, t)) :
    t.boots = s.boots := by
  cases names with
  | nil =>
    obtain ⟨-, rfl⟩ := Prod.mk.inj (Option.some.inj h)
    rfl
  | cons name vals =>
    obtain ⟨p, -, h⟩ := Option.bind_eq_some_iff.mp h
    obtain ⟨-, rfl⟩ := Prod.mk.inj (Option.some.inj h)
    rfl

theorem call_boots (hsys : sys.PassesOn) (hflag : flag.bootd = true)
    (hrun : ∀ arg flag' s r t, flag'.bootd = true → run arg flag' s = some (r, t) →
      t.boots = s.boots)
    (hcmd : cmd.bootd = false) (h : sys.call run cmd flag argv s = some (r, t)) :
    t.boots = s.boots := by
  rw [System.call] at h
  split at h
  · exact doSetenv_boots h
  split at h
  · exact doRun_boots (fun arg s r t => hrun arg flag s r t hflag) h
  rw [if_neg (by simp [hcmd])] at h
  exact hsys run cmd flag argv s t r hflag hrun h

/-- A command line that runs while `bootd` does never calls it again. -/
theorem runCommand_boots (hsys : sys.PassesOn) (hflag : flag.bootd = true) (n : Nat)
    {cmd : List UInt8} (h : runCommand (sys.shell n) before cmd flag s = some (r, t)) :
    t.boots = s.boots := by
  induction n generalizing before cmd flag s r t with
  | zero =>
    refine runCommand_inv (I := fun u => u.boots = s.boots) hflag (fun _ h => h)
      (fun cmd argv s' r t hcmd hs' hcall => ?_) rfl h
    replace hcall : sys.call (fun _ _ _ => none) cmd flag argv s' = some (r, t) := hcall
    exact (call_boots hsys hflag (fun _ _ _ _ _ _ h => by cases h) hcmd hcall).trans hs'
  | succ n ih =>
    refine runCommand_inv (I := fun u => u.boots = s.boots) hflag (fun _ h => h)
      (fun cmd argv s' r t hcmd hs' hcall => ?_) rfl h
    exact (call_boots hsys hflag (fun _ _ _ _ _ hflag' h => ih hflag' h) hcmd hcall).trans hs'

theorem doBootd_boots
    (hrun : ∀ arg s r t, run arg flag s = some (r, t) → t.boots = s.boots)
    (h : doBootd run flag s = some (r, t)) : t.boots = s.boots + 1 := by
  obtain ⟨⟨r', s'⟩, hcmd, h⟩ := Option.bind_eq_some_iff.mp h
  obtain ⟨-, rfl⟩ := Prod.mk.inj (Option.some.inj h)
  exact hrun _ _ _ _ hcmd

theorem setenvName_plain : IsPlain setenvName := by decide

theorem runName_plain : IsPlain runName := by decide

theorem found (sys : System ω) (n : Nat) {name : List UInt8} {cmd : CmdTbl}
    (hfind : Keyed.find CmdTbl.name sys.table name = some cmd) (hkey : keyOf name = name) :
    findCmd (sys.shell n).table name = some cmd := by
  rw [findCmd_eq, shell_table, hkey, hfind]

theorem plain_proper {ws : List (List UInt8)} (hws : ∀ w ∈ ws, IsPlain w) :
    (Piece.text (spaced ws)).Proper ∧ Kept (Piece.text (spaced ws)) := by
  have hmem : ∀ c, c ≠ 0x20 → (∀ w ∈ ws, c ∉ w) → c ∉ spaced ws := fun c hc hw h =>
    (mem_spaced h).elim hc fun ⟨w, hm, hcw⟩ => hw w hm hcw
  refine ⟨⟨?_, ?_, ?_⟩, ?_⟩
  · exact hmem _ (by decide) fun w hw => (hws w hw).noQuote
  · exact hmem _ (by decide) fun w hw => (hws w hw).noBackslash
  · exact hmem _ (by decide) fun w hw => (hws w hw).noDollar
  · exact hmem _ (by decide) fun w hw => (hws w hw).noSemicolon

theorem spaced_head (w : List UInt8) (hw : w ≠ []) (ws : List (List UInt8)) :
    (spaced (w :: ws)).head? = w.head? := by
  cases ws with
  | nil => rw [spaced, List.intercalate_singleton]
  | cons w' ws =>
    rw [spaced, List.intercalate_cons_cons, List.append_assoc, List.head?_append_of_ne_nil _ hw]

/-- A line of plain words calls its command with them. -/
theorem runCommand_plain {sh : Shell (Session ω)} {name : List UInt8} (args : List (List UInt8))
    (hws : ∀ w ∈ name :: args, IsPlain w) (hlen : (spaced (name :: args)).length < cfgCbsize)
    (hfind : findCmd sh.table name = some cmd) (hargs : args.length < cmd.maxargs)
    (hmax : args.length < cfgMaxargs) (before : UInt8) (s : Session ω) (flag : Flag)
    (hboot : ¬(cmd.bootd ∧ flag.bootd)) :
    runCommand sh before (spaced (name :: args)) flag s =
      (sh.call cmd (if cmd.bootd then { flag with bootd := true } else flag) (name :: args)
        (sh.clearCtrlc s)).map fun p =>
          (if sh.hadCtrlc p.2 then 0 else outcome p.1 cmd.repeatable, p.2) := by
  obtain ⟨hproper, hkept⟩ := plain_proper hws
  have hrender : render [.text (spaced (name :: args))] = spaced (name :: args) := by
    simp [render, Piece.render]
  have hmeaning : ∀ lookup, meaning lookup [.text (spaced (name :: args))] =
      spaced (name :: args) := fun lookup => by
    simp [meaning, Piece.meaning]
  have hname := hws name List.mem_cons_self
  have hhead : (spaced (name :: args)).head? ≠ some quoteChar := by
    rw [spaced_head name hname.word.1]
    exact fun h => hname.noQuote (List.mem_of_head? h)
  have hne : spaced (name :: args) ≠ [] := fun h => by
    have hh := spaced_head name hname.word.1 args
    rw [h] at hh
    exact hname.word.1 (List.head?_eq_none_iff.mp hh.symm)
  have hsingle : Single [.text (spaced (name :: args))] :=
    ⟨by simpa using hproper, by simpa using hkept, by rwa [hrender]⟩
  have hrun := runCommand_single hsingle before s flag (.inr (by rwa [hrender]))
    (by rwa [hrender]) (by rwa [hmeaning])
    (by rw [hmeaning, words_spaced fun w hw => (hws w hw).word]) hfind hargs hmax hboot
  rwa [hrender] at hrun

/-- `boot` and `bootd` boot once, whatever the variables say that they run. -/
theorem bootd_once (hsys : sys.PassesOn) {name : List UInt8}
    (hname : name = bootName ∨ name = bootdName) {isRepeat : Bool}
    (h : runCommand (sys.shell n) before name ⟨isRepeat, false⟩ s = some (r, t)) :
    t.boots = s.boots + 1 := by
  have hcmd : ∃ cmd : CmdTbl, findCmd (sys.shell n).table name = some cmd ∧ cmd ≠ setenvCmd ∧
      cmd ≠ runCmd ∧ cmd.bootd = true ∧ 0 < cmd.maxargs := by
    rcases hname with rfl | rfl
    · exact ⟨bootCmd, found sys n sys.boot_found (by decide), by decide⟩
    · exact ⟨bootdCmd, found sys n sys.bootd_found (by decide), by decide⟩
  obtain ⟨cmd, hfind, hsetenv, hrun, hboot, hmaxargs⟩ := hcmd
  have hplain : IsPlain name ∧ name.length < cfgCbsize := by
    rcases hname with rfl | rfl <;> decide
  have hspaced : spaced [name] = name := List.intercalate_singleton
  have hline := runCommand_plain [] (by simpa using hplain.1) (by simpa [hspaced] using hplain.2)
    hfind hmaxargs (show 0 < cfgMaxargs by decide) before s ⟨isRepeat, false⟩
    (fun h => Bool.false_ne_true h.2)
  rw [hspaced, if_pos hboot] at hline
  obtain ⟨⟨r', t'⟩, hcall, heq⟩ := Option.map_eq_some_iff.mp (hline.symm.trans h)
  obtain ⟨-, rfl⟩ := Prod.mk.inj heq
  -- The variables run with `CMD_FLAG_BOOTD`, at every depth.
  have hboots : ∀ run : Runner ω,
      (∀ arg s r t, run arg ⟨isRepeat, true⟩ s = some (r, t) → t.boots = s.boots) →
      sys.call run cmd ⟨isRepeat, true⟩ [name] s.clearCtrlc = some (r', t') →
      t'.boots = s.boots + 1 := fun run hkeeps hcall => by
    rw [System.call, if_neg hsetenv, if_neg hrun, if_pos hboot] at hcall
    show t'.boots = s.clearCtrlc.boots + 1
    exact doBootd_boots hkeeps hcall
  rw [shell_clearCtrlc] at hcall
  cases n with
  | zero => exact hboots (fun _ _ _ => none) (fun _ _ _ _ h => by cases h) hcall
  | succ n =>
    exact hboots (fun cmd flag s => runCommand (sys.shell n) (sys.below n s) cmd flag s)
      (fun _ _ _ _ h => runCommand_boots hsys rfl n h) hcall

/-- No other commands. -/
def bare : System Unit where
  table := [setenvCmd, runCmd, bootCmd, bootdCmd]
  board _ := easyBoard
  other _ _ _ _ _ := none
  below _ _ := 0
  setenv_found := by decide
  run_found := by decide
  boot_found := by decide
  bootd_found := by decide

theorem bare_passesOn : bare.PassesOn := fun _ _ _ _ _ _ _ _ _ h => by cases h

/-- `bootcmd=run a;boot` and `a=bootd` -/
def bootsItself : Session Unit where
  env := ⟨0, fun i => (bootcmdName ++ [0x3d, 0x72, 0x75, 0x6e, 0x20, 0x61, 0x3b] ++ bootName ++
    [0, 0x61, 0x3d] ++ bootdName).getD i 0⟩
  ctrlcWasPressed := false
  rest := ()
  boots := 0

theorem bootd_once_itself :
    ∃ r t, runCommand (bare.shell 2) 0 bootName ⟨false, false⟩ bootsItself = some (r, t) ∧
      t.boots = 1 := by
  have hreturns : (runCommand (bare.shell 2) 0 bootName ⟨false, false⟩ bootsItself).isSome := by
    decide +kernel
  obtain ⟨⟨r, t⟩, hrun⟩ := Option.isSome_iff_exists.mp hreturns
  exact ⟨r, t, hrun, bootd_once bare_passesOn (.inl rfl) hrun⟩

/-- The loop of `autoscript` over a script; `line` is what has been read of a line. -/
def autoscript (run : Runner ω) (line : List UInt8) :
    (script : List UInt8) → Session ω → Option (Int × Session ω)
  | [], s => some (0, s)
  | c :: script, s =>
    if c = 0x0a then
      if 1 < line.length then do
        let (rc, s) ← run line ⟨false, false⟩ s
        if rc < 0 then some (1, s) else autoscript run [] script s
      else autoscript run [] script s
    else autoscript run (line ++ [c]) script s

def autoscrName : List UInt8 := [0x61, 0x75, 0x74, 0x6f, 0x73, 0x63, 0x72]

/-- `autoscr` with the script `setenv bootcmd`, `bootd`. -/
def scripted : System Unit where
  table := ⟨autoscrName, 2, false, false⟩ :: bare.table
  board _ := easyBoard
  other run _ _ _ s :=
    autoscript run [] (spaced [setenvName, bootcmdName] ++ [0x0a] ++ bootdName ++ [0x0a]) s
  below _ _ := 0
  setenv_found := by decide
  run_found := by decide
  boot_found := by decide
  bootd_found := by decide

-- The lines of a script run without the flag, so that it can boot again.
example : (runCommand (scripted.shell 3) 0 bootdName ⟨false, false⟩
    ⟨⟨0, fun i => (bootcmdName ++ 0x3d :: autoscrName).getD i 0⟩, false, (), 0⟩).map
      (fun p => p.2.boots) = some 2 := by
  decide +kernel

theorem doRun_one {name v : List UInt8} (hget : s.getenv name = some v) :
    doRun run flag [name] s =
      (run v flag s).map fun p => (if p.1 = -1 then 1 else 0, p.2) := by
  rw [doRun, if_neg (List.cons_ne_nil _ _), runAll]
  simp only [hget]
  cases run v flag s with
  | none => rfl
  | some p =>
    show (if p.1 = -1 then some (1, p.2) else runAll run flag [] p.2) = _
    by_cases hr : p.1 = -1
    · simp [hr]
    · simp [hr, runAll]

/-- What `ctrlc_was_pressed` was before a line makes no difference. -/
theorem runCommand_clearCtrlc (sys : System ω) (n : Nat) (before : UInt8) (line : List UInt8)
    (flag : Flag) (s : Session ω) :
    runCommand (sys.shell n) before line flag s.clearCtrlc =
      runCommand (sys.shell n) before line flag s := by
  rw [runCommand, runCommand, shell_clearCtrlc]
  rfl

/-- `run NAME` -/
def runLine (name : List UInt8) : List UInt8 := spaced [runName, name]

theorem runCommand_runLine {name v : List UInt8} (hname : IsPlain name)
    (hlen : (runLine name).length < cfgCbsize) (hget : s.getenv name = some v) (n : Nat)
    (before : UInt8) (flag : Flag) :
    runCommand (sys.shell (n + 1)) before (runLine name) flag s =
      (runCommand (sys.shell n) (sys.below n s.clearCtrlc) v flag s).map fun p =>
        (if p.2.ctrlcWasPressed then 0 else if p.1 = -1 then -1 else 1, p.2) := by
  have hcall := runCommand_plain [name] (by simpa using ⟨runName_plain, hname⟩)
    hlen (found sys (n + 1) sys.run_found (by decide)) (show 1 < 16 by decide)
    (show 1 < 16 by decide) before s flag (fun h => Bool.false_ne_true h.1)
  have hrun : (sys.shell (n + 1)).call runCmd flag [runName, name] s.clearCtrlc =
      (runCommand (sys.shell n) (sys.below n s.clearCtrlc) v flag s.clearCtrlc).map fun p =>
        (if p.1 = -1 then 1 else 0, p.2) := by
    show sys.call (fun cmd flag s => runCommand (sys.shell n) (sys.below n s) cmd flag s) runCmd
      flag [runName, name] s.clearCtrlc = _
    rw [System.call, if_neg (by decide), if_pos rfl]
    exact doRun_one hget
  rw [runLine, hcall]
  show ((sys.shell (n + 1)).call runCmd flag [runName, name] s.clearCtrlc).map _ = _
  rw [hrun, Option.map_map, runCommand_clearCtrlc]
  refine congrArg (Option.map · _) (funext fun p => ?_)
  show (if p.2.ctrlcWasPressed then (0 : Int)
    else outcome (if p.1 = -1 then 1 else 0) true, p.2) = _
  by_cases hr : p.1 = -1 <;> simp [hr, outcome]

/-- A variable that runs itself ends at no depth. -/
theorem run_itself {name : List UInt8} (hname : IsPlain name)
    (hlen : (runLine name).length < cfgCbsize) (hget : s.getenv name = some (runLine name))
    (n : Nat) : runCommand (sys.shell n) before (runLine name) flag s = none := by
  induction n generalizing before s with
  | zero =>
    have hcall := runCommand_plain [name] (by simpa using ⟨runName_plain, hname⟩)
      hlen (found sys 0 sys.run_found (by decide)) (show 1 < 16 by decide)
      (show 1 < 16 by decide) before s flag (fun h => Bool.false_ne_true h.1)
    have hrun : (sys.shell 0).call runCmd flag [runName, name] s.clearCtrlc = none := by
      show sys.call (fun _ _ _ => none) runCmd flag [runName, name] s.clearCtrlc = _
      rw [System.call, if_neg (by decide), if_pos rfl]
      exact doRun_one hget
    rw [runLine, hcall]
    exact congrArg (Option.map _) hrun
  | succ n ih =>
    rw [runCommand_runLine hname hlen hget, ih hget]
    rfl

theorem cstr_chars {xs : List UInt8} (h : 0 ∉ xs) : (cstr xs).chars = xs := by
  show xs.takeWhile (· ≠ 0) = xs
  rw [List.takeWhile_eq_self_iff]
  intro c hc
  exact decide_eq_true fun h0 => h (h0 ▸ hc)

theorem getenv_eq {vars : Vars} (h : Encodes s.env.data vars.entries) (name : List UInt8) :
    s.getenv name = vars.lookup (key (cstr name).chars) := by
  rw [Session.getenv, getenv_eq_lookup h]
  rfl

/-- `setenv NAME 'SCRIPT'` -/
def setenvPieces (name script : List UInt8) : List Piece :=
  [.text (spaced [setenvName, name] ++ [0x20]), .quoted script]

def setenvLine (name script : List UInt8) : List UInt8 := render (setenvPieces name script)

/-- A script that can be put in quotes. -/
structure Quotable (script : List UInt8) : Prop where
  noNul : 0 ∉ script
  noQuote : quoteChar ∉ script
  last : script.getLast? ≠ some backslash

theorem setenvPieces_single {name script : List UInt8} (hname : IsPlain name)
    (hscript : Quotable script) : Single (setenvPieces name script) := by
  have hplain : ∀ w ∈ [setenvName, name], IsPlain w := by
    simpa using ⟨setenvName_plain, hname⟩
  obtain ⟨⟨hquote, hback, hdollar⟩, hkept⟩ := plain_proper hplain
  have hsemi : semicolon ∉ spaced [setenvName, name] := hkept
  have hspace : (quoteChar ≠ 0x20 ∧ backslash ≠ 0x20) ∧ dollar ≠ 0x20 ∧ semicolon ≠ 0x20 := by
    decide
  refine ⟨?_, ?_, by simp [setenvPieces, render, Piece.render]⟩
  · intro p hp
    rcases List.mem_pair.mp hp with rfl | rfl
    · refine ⟨?_, ?_, ?_⟩
      · simpa [hspace] using hquote
      · simpa [hspace] using hback
      · simpa [hspace] using hdollar
    · exact ⟨hscript.noQuote, hscript.last⟩
  · intro p hp
    rcases List.mem_pair.mp hp with rfl | rfl
    · show semicolon ∉ _
      simpa [hspace] using hsemi
    · trivial

theorem setenvPieces_words {name : List UInt8} (hname : IsPlain name) (script : List UInt8)
    (lookup : List UInt8 → Option (List UInt8)) :
    words (meaning lookup (setenvPieces name script)) = setenvName :: name :: words script := by
  have hmeaning : meaning lookup (setenvPieces name script) =
      spaced [setenvName, name] ++ 0x20 :: script := by
    simp [setenvPieces, meaning, Piece.meaning]
  rw [hmeaning, words_append (by decide), words_spaced]
  · rfl
  · simpa using ⟨setenvName_plain.word, hname.word⟩

/-- A definition that is typed does to the environment what it means; nothing in the quotes is
replaced. -/
theorem runCommand_setenvLine (sys : System ω) {vars : Vars}
    (h : Encodes s.env.data vars.entries)
    {name script : List UInt8} (hname : IsPlain name) (hscript : Quotable script)
    (hlen : (setenvLine name script).length < cfgCbsize) (hcount : (words script).length ≤ 14)
    (n : Nat) (before : UInt8) (flag : Flag) :
    let define := vars.define (sys.board s.clearCtrlc) (cstr name) ((words script).map cstr)
    ∃ env, runCommand (sys.shell n) before (setenvLine name script) flag s =
        some (if define.1 = 0 then 0 else -1, { s with env := env, ctrlcWasPressed := false }) ∧
      Encodes env.data define.2.entries := by
  intro define
  obtain ⟨env, hsetenv, hencodes, -⟩ := setenv_of_encodes h (sys.board s.clearCtrlc) (cstr name)
    ((words script).map cstr)
  refine ⟨env, ?_, hencodes⟩
  have hmeaning : ∀ lookup, (meaning lookup (setenvPieces name script)).length ≤
      (setenvLine name script).length := fun lookup => by
    simp [setenvLine, setenvPieces, meaning, render, Piece.meaning, Piece.render]
  have hargs : (name :: words script).length < 16 := Nat.lt_succ_of_le (Nat.succ_le_succ hcount)
  have hrun := runCommand_single (setenvPieces_single hname hscript) before s flag
    (.inr (by simp [setenvPieces, render, Piece.render, spaced, setenvName, quoteChar])) hlen
    (Nat.lt_of_le_of_lt (hmeaning _) hlen)
    (setenvPieces_words hname script _) (found sys n sys.setenv_found (by decide)) hargs hargs
    (fun h => Bool.false_ne_true h.1)
  rw [setenvLine, hrun, shell_clearCtrlc, shell_hadCtrlc, shell_setenv]
  have hcall : doSetenv (sys.board s.clearCtrlc) (name :: words script) s.clearCtrlc =
      some ((define.1 : Int), { s.clearCtrlc with env := env }) := by
    show (setenv (sys.board s.clearCtrlc) s.env (cstr name) ((words script).map cstr)).bind _ = _
    rw [hsetenv]
    rfl
  show (doSetenv (sys.board s.clearCtrlc) (name :: words script) s.clearCtrlc).map _ = _
  rw [hcall]
  show some ((if false = true then (0 : Int) else outcome (define.1 : Int) false), _) = _
  by_cases hd : define.1 = 0 <;> simp [hd, outcome, Session.clearCtrlc]

/-- A script that is typed in quotes as the value of a variable is kept word for word, the other
variables stay as they are, and as long as the variable keeps its value to run it is to type the
script: what it returns, and all that it does. -/
theorem run_script {vars : Vars} (h : Encodes s.env.data vars.entries)
    {name script : List UInt8} (hname : IsPlain name) (hscript : Quotable script)
    (hlen : (setenvLine name script).length < cfgCbsize)
    (hcount : (words script).length ≤ 14) (hwords : words script ≠ [])
    (haccepted : (vars.define (sys.board s.clearCtrlc) (cstr name)
      ((words script).map cstr)).1 = 0) (n : Nat) (before : UInt8) (flag : Flag) :
    ∃ t, runCommand (sys.shell n) before (setenvLine name script) flag s = some (0, t) ∧
      t.getenv name = some (spaced (words script)) ∧
      (∀ name', key (cstr name').chars ≠ name → t.getenv name' = s.getenv name') ∧
      ∀ u : Session ω, u.getenv name = t.getenv name →
        ∀ n before flag, runCommand (sys.shell (n + 1)) before (runLine name) flag u =
          (runCommand (sys.shell n) (sys.below n u.clearCtrlc) (spaced (words script)) flag u).map
            fun p => (if p.2.ctrlcWasPressed then 0 else if p.1 = -1 then -1 else 1, p.2) := by
  obtain ⟨env, hrun, hencodes⟩ := runCommand_setenvLine sys h hname hscript hlen hcount n
    before flag
  obtain ⟨hrefused, hfull⟩ := Vars.define_eq_zero.mp haccepted
  have hchars : (cstr name).chars = name := cstr_chars hname.noNul
  have hkey : key name = name := key_of_not_mem fun hmem => hrefused (.inl (hchars.symm ▸ hmem))
  have hvals : (words script).map cstr ≠ [] := fun hnil => hwords (List.map_eq_nil_iff.mp hnil)
  have hjoined : joined ((words script).map cstr) = spaced (words script) := by
    rw [joined, List.map_map, List.map_congr_left (g := id), List.map_id]
    · rfl
    · intro w hw
      exact cstr_chars fun h0 => hscript.noNul (mem_words hw h0)
  let t : Session ω := { s with env := env, ctrlcWasPressed := false }
  have hget : t.getenv name = some (spaced (words script)) := by
    rw [getenv_eq (s := t) hencodes, Vars.lookup_define, hchars, hkey, if_pos ⟨rfl, hrefused⟩,
      if_neg (not_or.mpr ⟨hvals, hfull.resolve_left hvals⟩), hjoined]
  refine ⟨t, ?_, hget, ?_, ?_⟩
  · rw [hrun, haccepted]
    rfl
  · intro name' hne
    rw [getenv_eq (s := t) hencodes, Vars.lookup_define, hchars, if_neg (fun h => hne h.1),
      getenv_eq h]
  · intro u hsame n before flag
    have hline : (runLine name).length < cfgCbsize := by
      refine Nat.lt_of_le_of_lt ?_ hlen
      simp [runLine, setenvLine, setenvPieces, render, Piece.render, spaced, runName, setenvName]
      omega
    exact runCommand_runLine hname hline (hsame.trans hget) n before flag

/-- `setenv a 'run b;boot'` -/
theorem run_script_two :
    let name : List UInt8 := [0x61]
    let script : List UInt8 := runName ++ [0x20, 0x62, 0x3b] ++ bootName
    ∃ t : Session Unit, runCommand (bare.shell 0) 0 (setenvLine name script) ⟨false, false⟩
        ⟨cleared, false, (), 0⟩ = some (0, t) ∧ t.getenv name = some script ∧
      ∀ u : Session Unit, u.getenv name = t.getenv name →
        ∀ n before flag, runCommand (bare.shell (n + 1)) before (runLine name) flag u =
          (runCommand (bare.shell n) 0 script flag u).map fun p =>
            (if p.2.ctrlcWasPressed then 0 else if p.1 = -1 then -1 else 1, p.2) := by
  intro name script
  obtain ⟨t, hrun, hget, -, hsame⟩ := @run_script Unit bare ⟨cleared, false, (), 0⟩ Vars.empty
    cleared_encodes name script (by decide) ⟨by decide, by decide, by decide⟩
    (by decide) (by decide) (by decide) (by decide) 0 0 ⟨false, false⟩
  exact ⟨t, hrun, hget, hsame⟩

end Plak1a.Command.Shell
