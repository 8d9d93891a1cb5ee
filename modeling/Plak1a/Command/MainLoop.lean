import Mathlib.Data.List.Basic
import Plak1a.Command.Readline
import Plak1a.Command.Run
import Plak1a.Lib.Run

/-!
# The main loop

An empty line runs the last command again, unless that is not repeatable. The characters are those
that `readline` reads; the commands may read others.
-/

namespace Plak1a.Command.MainLoop

open Macros Run Readline Lib

variable {σ : Type}

/-- The variables of `main_loop`, and what the commands are about. -/
structure Loop (σ : Type) where
  lastcommand : List UInt8
  rc : Int
  session : σ
deriving DecidableEq

/-- What `readline` returns. -/
inductive Input where
  | line (text : List UInt8)
  | interrupt
deriving DecidableEq

/-- An invalid command, or one that is not repeatable, is forgotten. -/
def Loop.forget (s : Loop σ) : Loop σ := if s.rc ≤ 0 then { s with lastcommand := [] } else s

/-- The command that is run for a line. -/
def Loop.command (s : Loop σ) (text : List UInt8) : List UInt8 :=
  if text = [] then s.lastcommand else text

/-- One round of the loop; `below` is what is before the copy of the command. -/
def step (sh : Shell σ) (below : σ → UInt8) (s : Loop σ) : Input → Option (Loop σ)
  | .interrupt => some s.forget
  | .line text => do
    let cmd := s.command text
    let (rc, session) ← runCommand sh (below s.session) cmd ⟨text = [], false⟩ s.session
    some (Loop.forget ⟨cmd, rc, session⟩)

/-- The loop, for so many rounds or until it waits for a character. -/
def mainLoop (prompt : List UInt8) (sh : Shell σ) (below : σ → UInt8) :
    (rounds : Nat) → List UInt8 → Loop σ → Option (Loop σ)
  | 0, _, s => some s
  | n + 1, cs, s =>
    match readline prompt cs with
    | (.more _, _) => some s
    | (.line text, cs) => (step sh below s (.line text)).bind fun s =>
        mainLoop prompt sh below n cs s
    | (.interrupt, cs) => (step sh below s .interrupt).bind fun s =>
        mainLoop prompt sh below n cs s

def Loop.start (session : σ) : Loop σ := ⟨[], 1, session⟩

/-- The keys of a line, and whether it ends in `^C`. -/
structure Typed where
  keys : List UInt8
  stop : Bool

def Typed.chars (t : Typed) : List UInt8 := t.keys ++ [if t.stop then 0x03 else 0x0d]

def Typed.input (t : Typed) : Input :=
  if t.stop then .interrupt else .line (t.keys.foldl edit [])

variable {sh : Shell σ} {below : σ → UInt8} {prompt : List UInt8}

/-- The loop runs on the characters as it does on the lines that they make. -/
theorem mainLoop_typed (hprompt : ∀ c ∈ prompt, Terminal.Printable c) {ts : List Typed}
    (hts : ∀ t ∈ ts, ∀ c ∈ t.keys, Editing c) (s : Loop σ) :
    mainLoop prompt sh below ts.length (ts.flatMap Typed.chars) s =
      Run.exec (step sh below) s (ts.map Typed.input) := by
  induction ts generalizing s with
  | nil => rfl
  | cons t ts ih =>
    obtain ⟨hline, hstop⟩ := readline_ends hprompt (hts t List.mem_cons_self)
      (ts.flatMap Typed.chars)
    have hrest := ih fun t ht => hts t (List.mem_cons_of_mem _ ht)
    have hchars : (t :: ts).flatMap Typed.chars =
        t.keys ++ (if t.stop then 0x03 else 0x0d) :: ts.flatMap Typed.chars := by
      simp [Typed.chars]
    rw [List.length_cons, hchars, mainLoop, List.map_cons, Run.exec_cons, Typed.input]
    cases t.stop with
    | true =>
      rw [if_pos rfl, hstop]
      simp only [hrest]
      rfl
    | false =>
      simp only [Bool.false_eq_true, if_false, hline, hrest]

/-- A command that was run: whether the line was empty, the result, and the states before and
after it. -/
structure Ran (σ : Type) where
  cmd : List UInt8
  again : Bool
  rc : Int
  before : σ
  after : σ

/-- What a round runs. -/
def ran (sh : Shell σ) (below : σ → UInt8) (s : Loop σ) : Input → List (Ran σ)
  | .interrupt => []
  | .line text =>
    match runCommand sh (below s.session) (s.command text) ⟨text = [], false⟩ s.session with
    | none => []
    | some (rc, session) => [⟨s.command text, text = [], rc, s.session, session⟩]

/-- What was run may be repeated: all its commands were found, allowed, repeatable and successful,
and nobody stopped one of them. -/
def Ran.Repeatable (sh : Shell σ) (below : σ → UInt8) (e : Ran σ) : Prop :=
  e.cmd ≠ [] ∧ e.cmd.length < cfgCbsize ∧
    Clean sh (tokens e.cmd.length (below e.before) e.cmd) ⟨e.again, false⟩
      (sh.clearCtrlc e.before) e.after

/-- What the loop keeps. -/
def kept : Option (Ran σ) → List UInt8
  | some e => if 0 < e.rc then e.cmd else []
  | none => []

/-- The state of the loop against what has run so far. -/
structure Follows (sh : Shell σ) (below : σ → UInt8) (s : Loop σ) (log : List (Ran σ)) :
    Prop where
  rc : ∀ e, log.getLast? = some e → s.rc = e.rc
  last : s.lastcommand = kept log.getLast?
  repeated : ∀ pre e post, log = pre ++ e :: post → e.again = true → e.cmd = kept pre.getLast?
  result : ∀ e ∈ log, 0 < e.rc ↔ e.Repeatable sh below

variable {s t : Loop σ} {log : List (Ran σ)} {e : Ran σ}

theorem kept_forget (h : s.lastcommand = kept log.getLast?)
    (hrc : ∀ e, log.getLast? = some e → s.rc = e.rc) :
    s.forget.lastcommand = kept log.getLast? ∧ s.forget.rc = s.rc := by
  rw [Loop.forget]
  split
  · next hle =>
    refine ⟨?_, rfl⟩
    cases hlast : log.getLast? with
    | none => rfl
    | some e =>
      rw [kept, if_neg]
      rw [← hrc e hlast]
      exact Int.not_lt.mpr hle
  · exact ⟨h, rfl⟩

theorem step_follows (hlog : Follows sh below s log) {i : Input}
    (hstep : step sh below s i = some t) : Follows sh below t (log ++ ran sh below s i) := by
  cases i with
  | interrupt =>
    cases hstep
    obtain ⟨hlast, hrc⟩ := kept_forget hlog.last hlog.rc
    rw [ran, List.append_nil]
    exact ⟨fun e he => hrc.trans (hlog.rc e he), hlast, hlog.repeated, hlog.result⟩
  | line text =>
    obtain ⟨⟨rc, session⟩, hrun, hstep⟩ := Option.bind_eq_some_iff.mp hstep
    cases hstep
    have hran : ran sh below s (.line text) =
        [⟨s.command text, text = [], rc, s.session, session⟩] := by
      rw [ran, hrun]
    rw [hran]
    refine ⟨?_, ?_, ?_, ?_⟩
    · intro e he
      rw [List.getLast?_concat, Option.some.injEq] at he
      rw [← he, Loop.forget]
      split <;> rfl
    · rw [List.getLast?_concat, Loop.forget, kept]
      by_cases hrc : rc ≤ 0
      · rw [if_pos hrc, if_neg (Int.not_lt.mpr hrc)]
      · rw [if_neg hrc, if_pos (Int.not_le.mp hrc)]
    · intro pre e post heq hagain
      rcases List.eq_nil_or_concat' post with rfl | ⟨post, f, rfl⟩
      · obtain ⟨rfl, he⟩ := List.append_inj' heq rfl
        obtain rfl := (List.cons.inj he).1
        have htext : text = [] := of_decide_eq_true hagain
        show s.command text = _
        rw [Loop.command, if_pos htext]
        exact hlog.last
      · rw [← List.cons_append, ← List.append_assoc] at heq
        exact hlog.repeated pre e post (List.append_inj' heq rfl).1 hagain
    · intro e he
      rcases List.mem_append.mp he with he | he
      · exact hlog.result e he
      · obtain rfl := List.mem_singleton.mp he
        have hiff := runCommand_repeatable_iff sh (below s.session) (s.command text)
          ⟨text = [], false⟩ s.session session
        refine Iff.trans ?_ hiff
        constructor
        · exact fun h => ⟨rc, h, hrun⟩
        · rintro ⟨r, hr, hsame⟩
          obtain ⟨rfl, -⟩ := Prod.mk.inj (Option.some.inj (hrun.symm.trans hsame))
          exact hr

/-- In every run of the loop an empty line runs again what was run right before, if all of that was
repeatable and went well, and nothing otherwise. It does not matter how often `^C` discarded a line
in between. -/
theorem repeated_iff {is : List Input} {session : σ}
    (hrun : Run.exec (step sh below) (Loop.start session) is = some t)
    {pre post : List (Ran σ)}
    (hlog : Run.outputs (ran sh below) (step sh below) (Loop.start session) is =
      pre ++ e :: post) (hagain : e.again = true) :
    (∀ f, pre.getLast? = some f → f.Repeatable sh below → e.cmd = f.cmd) ∧
      ((∀ f, pre.getLast? = some f → ¬f.Repeatable sh below) → e.cmd = []) := by
  have hstart : Follows sh below (Loop.start session) [] :=
    ⟨nofun, rfl, fun pre e post h => absurd h.symm (by simp), nofun⟩
  have hfollows : Follows sh below t
      ([] ++ Run.outputs (ran sh below) (step sh below) (Loop.start session) is) :=
    Run.inv_of_outputs (J := fun s log => Follows sh below s log)
      (fun _ _ _ _ hj hstep => step_follows hj hstep) hstart hrun
  rw [List.nil_append, hlog] at hfollows
  have hcmd := hfollows.repeated pre e post rfl hagain
  have hmem : ∀ f, pre.getLast? = some f → f ∈ pre ++ e :: post := fun f hf =>
    List.mem_append_left _ (List.mem_of_getLast? hf)
  constructor
  · intro f hf hclean
    rw [hcmd, hf, kept, if_pos ((hfollows.result f (hmem f hf)).mpr hclean)]
  · intro hdirty
    rw [hcmd]
    cases hlast : pre.getLast? with
    | none => rfl
    | some f =>
      exact if_neg fun hr => hdirty f hlast ((hfollows.result f (hmem f hlast)).mp hr)

/-- A command `a` that always succeeds. -/
def oneCommand : Shell Unit where
  table := [⟨[0x61], 1, true, false⟩]
  getenv _ _ := none
  call _ _ _ s := some (0, s)
  clearCtrlc s := s
  hadCtrlc _ := false

/-- `a`, a line that is discarded, and an empty line. -/
theorem repeated_iff_discarded :
    ∃ f e, Run.outputs (ran oneCommand fun _ => 0) (step oneCommand fun _ => 0) (Loop.start ())
        [.line [0x61], .interrupt, .line []] = [f, e] ∧ e.again = true ∧ e.cmd = f.cmd := by
  let f : Ran Unit := ⟨[0x61], false, 1, (), ()⟩
  have hclean : f.Repeatable oneCommand fun _ => 0 :=
    (runCommand_repeatable_iff oneCommand 0 [0x61] ⟨false, false⟩ () ()).mp ⟨1, by decide, rfl⟩
  refine ⟨f, ⟨[0x61], true, 1, (), ()⟩, rfl, rfl, ?_⟩
  exact (@repeated_iff Unit oneCommand (fun _ => 0) ⟨[0x61], 1, ()⟩ ⟨[0x61], true, 1, (), ()⟩
    [.line [0x61], .interrupt, .line []] () rfl [f] [] rfl rfl).1 f rfl hclean

end Plak1a.Command.MainLoop
