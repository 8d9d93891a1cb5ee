import Plak1a.Command.Macros
import Plak1a.Lib.Keyed

/-!
# `run_command`

The table of commands, what they do and what `getenv` answers are those of a shell over states
`σ`. The character before the copy of the command is read for a quote at its start, so it is an
argument. Messages are left out.
-/

namespace Plak1a.Command.Run

open Macros Lib

/-- `cmd_tbl_t`; `bootd` if the function is `do_bootd`. -/
structure CmdTbl where
  name : List UInt8
  maxargs : Nat
  repeatable : Bool
  bootd : Bool
deriving DecidableEq

/-- `CMD_FLAG_REPEAT` and `CMD_FLAG_BOOTD` -/
structure Flag where
  isRepeat : Bool
  bootd : Bool
deriving DecidableEq

structure Shell (σ : Type) where
  table : List CmdTbl
  getenv : σ → List UInt8 → Option (List UInt8)
  call : CmdTbl → Flag → List (List UInt8) → σ → Option (Int × σ)
  clearCtrlc : σ → σ
  hadCtrlc : σ → Bool

def semicolon : UInt8 := 0x3b

/-- The part of a name that is looked up. -/
def keyOf (cmd : List UInt8) : List UInt8 := cmd.takeWhile (· ≠ 0x2e)

/-- The loop of `find_cmd`. -/
def findLoop (key : List UInt8) : List CmdTbl → (temp : Option CmdTbl) → (nFound : Nat) →
    Option CmdTbl
  | [], temp, nFound => if nFound = 1 then temp else none
  | c :: table, temp, nFound =>
    if key.isPrefixOf c.name then
      if key.length = c.name.length then some c else findLoop key table (some c) (nFound + 1)
    else findLoop key table temp nFound

/-- `find_cmd` -/
def findCmd (table : List CmdTbl) (cmd : List UInt8) : Option CmdTbl :=
  findLoop (keyOf cmd) table table.head? 0

/-- The loop that looks for a separator: the token, and what is behind the separator. `before` is
the character before, and `start` tells whether the token starts here. -/
def splitToken : (before : UInt8) → (inquotes start : Bool) → List UInt8 → List UInt8 × List UInt8
  | _, _, _, [] => ([], [])
  | before, inquotes, start, c :: str =>
    let inquotes := if c = quoteChar ∧ before ≠ backslash then !inquotes else inquotes
    if !inquotes ∧ c = semicolon ∧ !start ∧ before ≠ backslash then ([], str)
    else
      let (token, rest) := splitToken c inquotes false str
      (c :: token, rest)

/-- The tokens of a command; a separator is replaced by a NUL. -/
def tokens : (rounds : Nat) → (before : UInt8) → List UInt8 → List (List UInt8)
  | 0, _, _ => []
  | n + 1, before, str =>
    if str = [] then []
    else
      let (token, rest) := splitToken before false true str
      token :: tokens n 0 rest

variable {σ : Type}

/-- The loop of `run_command` over the tokens. There is no result when a token leaves the code
without a string, or a command does not return. -/
def runTokens (sh : Shell σ) : List (List UInt8) → Flag → (rc : Int) → (repeatable : Bool) → σ →
    Option (Int × σ)
  | [], _, rc, repeatable, s => some (if rc ≠ 0 then rc else if repeatable then 1 else 0, s)
  | token :: toks, flag, rc, repeatable, s => do
    let finaltoken ← processMacros (sh.getenv s) token
    let (argv, _) := parseLine cfgMaxargs finaltoken
    match argv with
    | [] => runTokens sh toks flag (-1) repeatable s
    | name :: _ =>
      match findCmd sh.table name with
      | none => runTokens sh toks flag (-1) repeatable s
      | some cmd =>
        if argv.length > cmd.maxargs then runTokens sh toks flag (-1) repeatable s
        else if cmd.bootd ∧ flag.bootd then runTokens sh toks flag (-1) repeatable s
        else
          let flag := if cmd.bootd then { flag with bootd := true } else flag
          let (r, s) ← sh.call cmd flag argv s
          let rc := if r ≠ 0 then -1 else rc
          let repeatable := repeatable && cmd.repeatable
          if sh.hadCtrlc s then some (0, s) else runTokens sh toks flag rc repeatable s

/-- `run_command` -/
def runCommand (sh : Shell σ) (before : UInt8) (cmd : List UInt8) (flag : Flag) (s : σ) :
    Option (Int × σ) :=
  let s := sh.clearCtrlc s
  if cmd = [] then some (-1, s)
  else if cmd.length ≥ cfgCbsize then some (-1, s)
  else runTokens sh (tokens cmd.length before cmd) flag 0 true s

variable {sh : Shell σ} {table : List CmdTbl} {key str rest xs tok : List UInt8}
  {before before' c : UInt8} {q start : Bool} {p : Piece} {n : Nat}

theorem findLoop_full (hfull : ∀ c ∈ table, c.name ≠ key) (temp : Option CmdTbl) (nFound : Nat) :
    findLoop key table temp nFound =
      match table.filter (key.isPrefixOf ·.name) with
      | [] => if nFound = 1 then temp else none
      | c :: cs => if nFound + (c :: cs).length = 1 then some c else none := by
  induction table generalizing temp nFound with
  | nil => rfl
  | cons c table ih =>
    have hrest := ih fun c hc => hfull c (List.mem_cons_of_mem _ hc)
    rw [findLoop]
    by_cases hp : key.isPrefixOf c.name = true
    · have hlen : key.length ≠ c.name.length := fun hlen =>
        hfull c List.mem_cons_self ((List.isPrefixOf_iff_prefix.mp hp).eq_of_length hlen).symm
      rw [if_pos hp, if_neg hlen, hrest, List.filter_cons, if_pos hp]
      cases hf : table.filter (key.isPrefixOf ·.name) with
      | nil => rfl
      | cons d ds =>
        simp only [List.length_cons]
        rw [if_neg (by omega), if_neg (by omega)]
    · rw [if_neg hp, hrest, List.filter_cons, if_neg hp]

/-- A command is the one of the same name, and without one the only one that is abbreviated. -/
theorem findCmd_eq (table : List CmdTbl) (cmd : List UInt8) :
    findCmd table cmd =
      match Keyed.find CmdTbl.name table (keyOf cmd) with
      | some c => some c
      | none =>
        match table.filter ((keyOf cmd).isPrefixOf ·.name) with
        | [c] => some c
        | _ => none := by
  rw [findCmd]
  generalize keyOf cmd = key
  cases hfind : Keyed.find CmdTbl.name table key with
  | none =>
    have hfull : ∀ c ∈ table, c.name ≠ key := fun c hc hname =>
      Keyed.find_eq_none.mp hfind (List.mem_map.mpr ⟨c, hc, hname⟩)
    rw [findLoop_full hfull]
    generalize table.filter (key.isPrefixOf ·.name) = found
    rcases found with _ | ⟨c, _ | ⟨d, ds⟩⟩
    · rfl
    · rfl
    · exact if_neg (by simp)
  | some c =>
    obtain ⟨pre, post, rfl, -, hname, hpre⟩ := Keyed.find_eq_some hfind
    generalize (pre ++ c :: post).head? = temp
    generalize 0 = nFound
    clear hfind
    induction pre generalizing temp nFound with
    | nil =>
      have hp : key.isPrefixOf c.name = true := by
        rw [hname]
        exact List.isPrefixOf_iff_prefix.mpr (List.prefix_refl key)
      rw [List.nil_append, findLoop, if_pos hp, if_pos (by rw [hname])]
    | cons d pre ih =>
      have hrest := fun temp nFound =>
        ih (fun e he => hpre e (List.mem_cons_of_mem _ he)) temp nFound
      have hd : d.name ≠ key := hpre d List.mem_cons_self
      rw [List.cons_append, findLoop]
      by_cases hp : key.isPrefixOf d.name = true
      · have hlen : key.length ≠ d.name.length := fun hlen =>
          hd ((List.isPrefixOf_iff_prefix.mp hp).eq_of_length hlen).symm
        rw [if_pos hp, if_neg hlen, hrest]
      · rw [if_neg hp, hrest]

/-- Nothing in a part of a line is a separator. -/
def Kept : Piece → Prop
  | .text s => semicolon ∉ s
  | .escaped _ => True
  | .quoted _ => True
  | .var name => semicolon ∉ name ∧ quoteChar ∉ name

/-- A text goes to the token whatever is behind it. -/
def Goes (before : UInt8) (start : Bool) (xs : List UInt8) (before' : UInt8) (start' : Bool) :
    Prop :=
  ∀ rest, splitToken before false start (xs ++ rest) =
    (xs ++ (splitToken before' false start' rest).1, (splitToken before' false start' rest).2)

/-- Characters that are no quotes; in quotes a semicolon is no separator. -/
theorem splitToken_chars (xs : List UInt8) (hquote : quoteChar ∉ xs)
    (hsemi : q = true ∨ semicolon ∉ xs) (before : UInt8) (start : Bool) (rest : List UInt8) :
    splitToken before q start (xs ++ rest) =
      (xs ++ (splitToken (xs.getLast?.getD before) q (start && xs.isEmpty) rest).1,
        (splitToken (xs.getLast?.getD before) q (start && xs.isEmpty) rest).2) := by
  induction xs generalizing before start with
  | nil => simp
  | cons c xs ih =>
    have hc : ¬(c = quoteChar ∧ before ≠ backslash) := fun h =>
      hquote (h.1 ▸ List.mem_cons_self)
    have hsep : ¬((!q) = true ∧ c = semicolon ∧ (!start) = true ∧ before ≠ backslash) := by
      rintro ⟨hq, rfl, -⟩
      rcases hsemi with h | h
      · simp [h] at hq
      · exact h List.mem_cons_self
    have hrest := ih (fun h => hquote (List.mem_cons_of_mem _ h))
      (hsemi.imp_right fun h hm => h (List.mem_cons_of_mem _ hm)) c false
    rw [List.cons_append, splitToken]
    simp only [if_neg hc, if_neg hsep, hrest]
    cases xs with
    | nil => simp
    | cons d xs => simp [List.getLast?_cons]

theorem splitToken_quote (hbefore : before ≠ backslash) (q start : Bool) (rest : List UInt8) :
    splitToken before q start (quoteChar :: rest) =
      (quoteChar :: (splitToken quoteChar (!q) false rest).1,
        (splitToken quoteChar (!q) false rest).2) := by
  have hsep : quoteChar ≠ semicolon := by decide
  rw [splitToken]
  simp [hbefore, hsep]

/-- A part of a line goes to the token it is in. -/
theorem goes_piece (hp : p.Proper) (hkept : Kept p) (hbefore : before ≠ backslash)
    (start : Bool) :
    ∃ before', before' ≠ backslash ∧ Goes before start p.render before'
      (start && p.render.isEmpty) := by
  cases p with
  | text xs =>
    obtain ⟨hquote, hback, -⟩ := hp
    refine ⟨xs.getLast?.getD before, ?_, splitToken_chars xs hquote (.inr hkept) before start⟩
    cases hlast : xs.getLast? with
    | none => exact hbefore
    | some c => exact fun h => hback (h ▸ List.mem_of_getLast? hlast)
  | escaped c =>
    refine ⟨c, hp, fun rest => ?_⟩
    show splitToken before false start (backslash :: c :: rest) = _
    rw [splitToken, splitToken]
    simp [Piece.render, backslash, quoteChar, semicolon]
  | quoted xs =>
    obtain ⟨hquote, hlast⟩ := hp
    have hclosed : xs.getLast?.getD quoteChar ≠ backslash := by
      cases hl : xs.getLast? with
      | none =>
        show quoteChar ≠ backslash
        decide
      | some c => exact fun h => hlast (hl.trans (congrArg some h))
    refine ⟨quoteChar, by decide, fun rest => ?_⟩
    have hrender : (Piece.quoted xs).render ++ rest = quoteChar :: (xs ++ quoteChar :: rest) := by
      simp [Piece.render]
    rw [hrender, splitToken_quote hbefore, Bool.not_false,
      splitToken_chars xs hquote (.inl rfl), splitToken_quote hclosed]
    simp [Piece.render]
  | var name =>
    obtain ⟨hsemi, hquote⟩ := hkept
    refine ⟨0x7d, by decide, fun rest => ?_⟩
    have hquote' : quoteChar ∉ (Piece.var name).render := by
      have hne : quoteChar ≠ dollar ∧ quoteChar ≠ 0x7b ∧ quoteChar ≠ 0x7d := by decide
      simp [Piece.render, hquote, hne]
    have hsemi' : semicolon ∉ (Piece.var name).render := by
      have hne : semicolon ≠ dollar ∧ semicolon ≠ 0x7b ∧ semicolon ≠ 0x7d := by decide
      simp [Piece.render, hsemi, hne]
    have hall := splitToken_chars (q := false) (Piece.var name).render hquote' (.inr hsemi')
      before start rest
    have hlast : (Piece.var name).render.getLast?.getD before = 0x7d := by
      simp [Piece.render, List.getLast?_cons]
    rwa [hlast] at hall

/-- A command that is one token: proper parts without a separator, and not empty. -/
structure Single (ps : List Piece) : Prop where
  proper : ∀ p ∈ ps, p.Proper
  kept : ∀ p ∈ ps, Kept p
  nonempty : render ps ≠ []

theorem goes_render {ps : List Piece} (hp : ∀ p ∈ ps, p.Proper) (hkept : ∀ p ∈ ps, Kept p)
    (hbefore : before ≠ backslash) (start : Bool) :
    ∃ before', before' ≠ backslash ∧ Goes before start (render ps) before'
      (start && (render ps).isEmpty) := by
  induction ps generalizing before start with
  | nil =>
    refine ⟨before, hbefore, fun rest => ?_⟩
    simp [render]
  | cons p ps ih =>
    obtain ⟨mid, hmid, hgoes⟩ := goes_piece (hp p List.mem_cons_self)
      (hkept p List.mem_cons_self) hbefore start
    obtain ⟨last, hlast, hrest⟩ := ih (fun p h => hp p (List.mem_cons_of_mem _ h))
      (fun p h => hkept p (List.mem_cons_of_mem _ h)) hmid (start && p.render.isEmpty)
    refine ⟨last, hlast, fun rest => ?_⟩
    have hline : render (p :: ps) = p.render ++ render ps := rfl
    have hstart : (start && (p.render ++ render ps).isEmpty) =
        (start && p.render.isEmpty && (render ps).isEmpty) := by
      cases p.render <;> simp
    rw [hline, hstart, List.append_assoc, hgoes, hrest, List.append_assoc]

/-- What is before a token matters to a quote at its start only. -/
theorem splitToken_before (hc : c ≠ quoteChar) (before before' : UInt8) (q : Bool)
    (str : List UInt8) :
    splitToken before q true (c :: str) = splitToken before' q true (c :: str) := by
  rw [splitToken, splitToken]
  simp [hc]

/-- The first token of a command is read. -/
theorem splitToken_single {ps : List Piece} (hps : Single ps)
    (hbefore : before ≠ backslash ∨ (render ps).head? ≠ some quoteChar) (rest : List UInt8) :
    splitToken before false true (render ps) = (render ps, []) ∧
      splitToken before false true (render ps ++ semicolon :: rest) = (render ps, rest) := by
  have hreplace : ∃ b, b ≠ backslash ∧ ∀ rest, splitToken before false true (render ps ++ rest) =
      splitToken b false true (render ps ++ rest) := by
    rcases hbefore with hb | hhead
    · exact ⟨before, hb, fun _ => rfl⟩
    · obtain ⟨c, xs, hxs⟩ := List.exists_cons_of_ne_nil hps.nonempty
      refine ⟨0, by decide, fun rest => ?_⟩
      rw [hxs, List.cons_append]
      refine splitToken_before (fun h => hhead ?_) _ _ _ _
      rw [hxs, h]
      rfl
  obtain ⟨b, hb, hreplace⟩ := hreplace
  obtain ⟨last, hlast, hgoes⟩ := goes_render hps.proper hps.kept hb true
  have hend : (true && (render ps).isEmpty) = false := by
    simpa using hps.nonempty
  rw [hend] at hgoes
  refine ⟨?_, ?_⟩
  · have h := hgoes []
    rw [← hreplace, List.append_nil] at h
    rw [h, splitToken, List.append_nil]
  · have hsep : semicolon ≠ quoteChar := by decide
    rw [hreplace, hgoes, splitToken]
    simp [hlast, hsep]

/-- Commands with separators between them. -/
def line (cmds : List (List Piece)) : List UInt8 := [semicolon].intercalate (cmds.map render)

theorem line_cons (ps ps' : List Piece) (cmds : List (List Piece)) :
    line (ps :: ps' :: cmds) = render ps ++ semicolon :: line (ps' :: cmds) := by
  simp [line, List.intercalate_cons_cons]

/-- The tokens of a line are its commands. -/
theorem tokens_line {cmds : List (List Piece)} (hcmds : ∀ ps ∈ cmds, Single ps)
    (hbefore : before ≠ backslash ∨ (line cmds).head? ≠ some quoteChar)
    (hn : (line cmds).length ≤ n) : tokens n before (line cmds) = cmds.map render := by
  induction cmds generalizing before n with
  | nil => cases n <;> rfl
  | cons ps cmds ih =>
    have hps := hcmds ps List.mem_cons_self
    have hpos := List.length_pos_of_ne_nil hps.nonempty
    cases cmds with
    | nil =>
      have hline : line [ps] = render ps := List.intercalate_singleton
      rw [hline] at hbefore hn ⊢
      obtain ⟨n, rfl⟩ : ∃ m, n = m + 1 := ⟨n - 1, by omega⟩
      rw [tokens, if_neg hps.nonempty, (splitToken_single hps hbefore []).1]
      show render ps :: tokens n 0 [] = _
      cases n <;> rfl
    | cons ps' cmds =>
      rw [line_cons] at hbefore hn ⊢
      rw [List.length_append, List.length_cons] at hn
      obtain ⟨n, rfl⟩ : ∃ m, n = m + 1 := ⟨n - 1, by omega⟩
      have hbefore' : before ≠ backslash ∨ (render ps).head? ≠ some quoteChar := by
        rwa [List.head?_append_of_ne_nil _ hps.nonempty] at hbefore
      have hrest : tokens n 0 (line (ps' :: cmds)) = (ps' :: cmds).map render :=
        ih (fun ps h => hcmds ps (List.mem_cons_of_mem _ h)) (.inl (by decide)) (by omega)
      have hne : render ps ++ semicolon :: line (ps' :: cmds) ≠ [] := by simp
      rw [tokens, if_neg hne, (splitToken_single hps hbefore' _).2]
      show render ps :: tokens n 0 (line (ps' :: cmds)) = _
      rw [hrest]
      rfl

/-- What `run_command` returns after its last command. -/
def outcome (rc : Int) (repeatable : Bool) : Int :=
  if rc ≠ 0 then -1 else if repeatable then 1 else 0

/-- A line of one command calls it with the words it means. -/
theorem runCommand_single {ps : List Piece} (hps : Single ps) (before : UInt8) (s : σ)
    (flag : Flag) (hbefore : before ≠ backslash ∨ (render ps).head? ≠ some quoteChar)
    (hlen : (render ps).length < cfgCbsize)
    (hmeaning : (meaning (sh.getenv (sh.clearCtrlc s)) ps).length < cfgCbsize)
    {name : List UInt8} {args : List (List UInt8)}
    (hwords : words (meaning (sh.getenv (sh.clearCtrlc s)) ps) = name :: args) {cmd : CmdTbl}
    (hfind : findCmd sh.table name = some cmd) (hargs : args.length < cmd.maxargs)
    (hmax : args.length < cfgMaxargs) (hboot : ¬(cmd.bootd ∧ flag.bootd)) :
    runCommand sh before (render ps) flag s =
      (sh.call cmd (if cmd.bootd then { flag with bootd := true } else flag) (name :: args)
        (sh.clearCtrlc s)).map fun p =>
          (if sh.hadCtrlc p.2 then 0 else outcome p.1 cmd.repeatable, p.2) := by
  have htokens : tokens (render ps).length before (render ps) = [render ps] := by
    have hline : line [ps] = render ps := List.intercalate_singleton
    have h : tokens (render ps).length before (line [ps]) = [ps].map render :=
      tokens_line (by simpa using hps) (by rwa [hline]) (Nat.le_of_eq (by rw [hline]))
    rwa [hline] at h
  have hparse : (parseLine cfgMaxargs (meaning (sh.getenv (sh.clearCtrlc s)) ps)).1 =
      name :: args := by
    rw [parseLine_words, hwords, List.take_of_length_le hmax]
  rw [runCommand, if_neg hps.nonempty, if_neg (Nat.not_le_of_lt hlen), htokens, runTokens,
    processMacros_fits hps.proper hmeaning]
  simp only [Option.bind_eq_bind, Option.bind_some, hparse, hfind]
  have hargs' : ¬(name :: args).length > cmd.maxargs := Nat.not_lt_of_le hargs
  rw [if_neg hargs', if_neg hboot]
  cases sh.call cmd (if cmd.bootd then { flag with bootd := true } else flag) (name :: args)
    (sh.clearCtrlc s) with
  | none => rfl
  | some p =>
    simp only [Option.bind_some, Option.map_some, runTokens, outcome, Bool.true_and]
    by_cases hr : p.1 = 0 <;> by_cases hctrlc : sh.hadCtrlc p.2 = true <;> simp [hr, hctrlc]

/-- What every command keeps that does not do `bootd` is kept by all commands that run while
`bootd` does. -/
theorem runTokens_inv {I : σ → Prop} {flag : Flag} (hflag : flag.bootd = true)
    (hcall : ∀ cmd argv s r t, cmd.bootd = false → I s → sh.call cmd flag argv s = some (r, t) →
      I t)
    {toks : List (List UInt8)} {rc r : Int} {repeatable : Bool} {s t : σ} (hs : I s)
    (hrun : runTokens sh toks flag rc repeatable s = some (r, t)) : I t := by
  induction toks generalizing rc repeatable s with
  | nil =>
    obtain ⟨-, rfl⟩ := Prod.mk.inj (Option.some.inj hrun)
    exact hs
  | cons token toks ih =>
    rw [runTokens] at hrun
    obtain ⟨finaltoken, -, hrun⟩ := Option.bind_eq_some_iff.mp hrun
    cases hargv : (parseLine cfgMaxargs finaltoken).1 with
    | nil =>
      simp only [hargv] at hrun
      exact ih hs hrun
    | cons name args =>
      simp only [hargv] at hrun
      cases hfind : findCmd sh.table name with
      | none =>
        simp only [hfind] at hrun
        exact ih hs hrun
      | some cmd =>
        simp only [hfind] at hrun
        split at hrun
        · exact ih hs hrun
        by_cases hboot : cmd.bootd = true
        · rw [if_pos ⟨hboot, hflag⟩] at hrun
          exact ih hs hrun
        rw [if_neg (fun h => hboot h.1), if_neg hboot] at hrun
        obtain ⟨⟨r', s'⟩, hcmd, hrun⟩ := Option.bind_eq_some_iff.mp hrun
        have hs' := hcall cmd _ s r' s' (by simpa using hboot) hs hcmd
        split at hrun
        · obtain ⟨-, rfl⟩ := Prod.mk.inj (Option.some.inj hrun)
          exact hs'
        · exact ih hs' hrun

theorem runCommand_inv {I : σ → Prop} {flag : Flag} (hflag : flag.bootd = true)
    (hclear : ∀ s, I s → I (sh.clearCtrlc s))
    (hcall : ∀ cmd argv s r t, cmd.bootd = false → I s → sh.call cmd flag argv s = some (r, t) →
      I t)
    {cmd : List UInt8} {r : Int} {s t : σ} (hs : I s)
    (hrun : runCommand sh before cmd flag s = some (r, t)) : I t := by
  rw [runCommand] at hrun
  have hstart := hclear s hs
  split at hrun
  · obtain ⟨-, rfl⟩ := Prod.mk.inj (Option.some.inj hrun)
    exact hstart
  split at hrun
  · obtain ⟨-, rfl⟩ := Prod.mk.inj (Option.some.inj hrun)
    exact hstart
  exact runTokens_inv hflag hcall hstart hrun

/-- Every token is a command that is found and called, is repeatable, returns 0 and is not stopped;
with the flags of the last one. -/
inductive Clean (sh : Shell σ) : List (List UInt8) → Flag → σ → σ → Prop where
  | nil (flag : Flag) (s : σ) : Clean sh [] flag s s
  | cons {token finaltoken name : List UInt8} {toks args : List (List UInt8)} {flag : Flag}
      {cmd : CmdTbl} {s t u : σ} :
      processMacros (sh.getenv s) token = some finaltoken →
      (parseLine cfgMaxargs finaltoken).1 = name :: args →
      findCmd sh.table name = some cmd →
      (name :: args).length ≤ cmd.maxargs →
      ¬(cmd.bootd ∧ flag.bootd) →
      cmd.repeatable = true →
      sh.call cmd (if cmd.bootd then { flag with bootd := true } else flag) (name :: args) s =
        some (0, t) →
      sh.hadCtrlc t = false →
      Clean sh toks (if cmd.bootd then { flag with bootd := true } else flag) t u →
      Clean sh (token :: toks) flag s u

/-- A failure, or a command that is not repeatable, is not made good by the commands behind it. -/
theorem runTokens_dirty {toks : List (List UInt8)} {flag : Flag} {rc r : Int} {repeatable : Bool}
    {s t : σ} (hrun : runTokens sh toks flag rc repeatable s = some (r, t))
    (hrc : rc = -1 ∨ rc = 0 ∧ repeatable = false) : r ≤ 0 := by
  induction toks generalizing flag rc repeatable s with
  | nil =>
    obtain ⟨rfl, -⟩ := Prod.mk.inj (Option.some.inj hrun)
    rcases hrc with rfl | ⟨rfl, rfl⟩ <;> simp
  | cons token toks ih =>
    rw [runTokens] at hrun
    obtain ⟨finaltoken, -, hrun⟩ := Option.bind_eq_some_iff.mp hrun
    cases hargv : (parseLine cfgMaxargs finaltoken).1 with
    | nil =>
      simp only [hargv] at hrun
      exact ih hrun (.inl rfl)
    | cons name args =>
      simp only [hargv] at hrun
      cases hfind : findCmd sh.table name with
      | none =>
        simp only [hfind] at hrun
        exact ih hrun (.inl rfl)
      | some cmd =>
        simp only [hfind] at hrun
        split at hrun
        · exact ih hrun (.inl rfl)
        split at hrun
        · exact ih hrun (.inl rfl)
        obtain ⟨⟨r', s'⟩, -, hrun⟩ := Option.bind_eq_some_iff.mp hrun
        split at hrun
        · obtain ⟨rfl, -⟩ := Prod.mk.inj (Option.some.inj hrun)
          exact Int.le_refl 0
        · refine ih hrun ?_
          rcases hrc with rfl | ⟨rfl, rfl⟩
          · exact .inl (ite_self _)
          · by_cases hr : r' = 0
            · exact .inr ⟨if_neg (not_not.mpr hr), rfl⟩
            · exact .inl (if_pos hr)

theorem runTokens_clean {toks : List (List UInt8)} {flag : Flag} {r : Int} {s t : σ}
    (hrun : runTokens sh toks flag 0 true s = some (r, t)) (hr : 0 < r) :
    Clean sh toks flag s t := by
  induction toks generalizing flag s with
  | nil =>
    obtain ⟨-, rfl⟩ := Prod.mk.inj (Option.some.inj hrun)
    exact .nil flag s
  | cons token toks ih =>
    rw [runTokens] at hrun
    obtain ⟨finaltoken, hmacros, hrun⟩ := Option.bind_eq_some_iff.mp hrun
    have hdirty : ∀ {flag : Flag} {rc : Int} {repeatable : Bool} {s : σ},
        runTokens sh toks flag rc repeatable s = some (r, t) →
        ¬(rc = -1 ∨ rc = 0 ∧ repeatable = false) := fun h hrc =>
      absurd (runTokens_dirty h hrc) (by omega)
    cases hargv : (parseLine cfgMaxargs finaltoken).1 with
    | nil =>
      simp only [hargv] at hrun
      exact absurd (.inl rfl) (hdirty hrun)
    | cons name args =>
      simp only [hargv] at hrun
      cases hfind : findCmd sh.table name with
      | none =>
        simp only [hfind] at hrun
        exact absurd (.inl rfl) (hdirty hrun)
      | some cmd =>
        simp only [hfind] at hrun
        split at hrun
        · exact absurd (.inl rfl) (hdirty hrun)
        next hargs =>
        split at hrun
        · exact absurd (.inl rfl) (hdirty hrun)
        next hboot =>
        obtain ⟨⟨r', s'⟩, hcall, hrun⟩ := Option.bind_eq_some_iff.mp hrun
        split at hrun
        · obtain ⟨rfl, -⟩ := Prod.mk.inj (Option.some.inj hrun)
          exact absurd hr (Int.lt_irrefl 0)
        next hctrlc =>
        have hkept := hdirty hrun
        have hr' : r' = 0 := by
          by_contra hne
          exact hkept (.inl (if_pos hne))
        subst hr'
        have hrep : cmd.repeatable = true := by
          by_contra hne
          exact hkept (.inr ⟨rfl, by simpa using hne⟩)
        refine .cons hmacros hargv hfind (Nat.le_of_not_lt hargs) hboot hrep hcall
          (by simpa using hctrlc) (ih ?_)
        simpa [hrep] using hrun

theorem Clean.runTokens {toks : List (List UInt8)} {flag : Flag} {s t : σ}
    (h : Clean sh toks flag s t) : runTokens sh toks flag 0 true s = some (1, t) := by
  induction h with
  | nil => rfl
  | cons hmacros hargv hfind hargs hboot hrep hcall hctrlc _ ih =>
    rw [Run.runTokens, hmacros]
    simp only [Option.bind_eq_bind, Option.bind_some, hargv, hfind]
    rw [if_neg (Nat.not_lt_of_le hargs), if_neg hboot, hcall, Option.bind_some, hctrlc, hrep]
    exact ih

/-- A line may be repeated exactly if all its commands are found, allowed, repeatable and
successful, and nobody stops one of them. -/
theorem runCommand_repeatable_iff (sh : Shell σ) (before : UInt8) (cmd : List UInt8) (flag : Flag)
    (s t : σ) :
    (∃ r, 0 < r ∧ runCommand sh before cmd flag s = some (r, t)) ↔
      cmd ≠ [] ∧ cmd.length < cfgCbsize ∧
        Clean sh (tokens cmd.length before cmd) flag (sh.clearCtrlc s) t := by
  rw [runCommand]
  constructor
  · rintro ⟨r, hr, hrun⟩
    split at hrun
    · obtain ⟨rfl, -⟩ := Prod.mk.inj (Option.some.inj hrun)
      exact absurd hr (by decide)
    next hne =>
    split at hrun
    · obtain ⟨rfl, -⟩ := Prod.mk.inj (Option.some.inj hrun)
      exact absurd hr (by decide)
    next hlen =>
    exact ⟨hne, Nat.lt_of_not_le hlen, runTokens_clean hrun hr⟩
  · rintro ⟨hne, hlen, hclean⟩
    refine ⟨1, by decide, ?_⟩
    rw [if_neg hne, if_neg (Nat.not_le_of_lt hlen)]
    exact hclean.runTokens

/-- A word whose characters only stand for themselves. -/
structure IsPlain (w : List UInt8) : Prop where
  word : IsWord w
  noNul : 0 ∉ w
  noQuote : quoteChar ∉ w
  noBackslash : backslash ∉ w
  noDollar : dollar ∉ w
  noSemicolon : semicolon ∉ w

instance (w : List UInt8) : Decidable (IsWord w) :=
  @instDecidableAnd _ _ inferInstance (List.decidableBAll _ w)

instance (w : List UInt8) : Decidable (IsPlain w) :=
  decidable_of_iff (IsWord w ∧ 0 ∉ w ∧ quoteChar ∉ w ∧ backslash ∉ w ∧ dollar ∉ w ∧ semicolon ∉ w)
    ⟨fun ⟨h1, h2, h3, h4, h5, h6⟩ => ⟨h1, h2, h3, h4, h5, h6⟩,
      fun ⟨h1, h2, h3, h4, h5, h6⟩ => ⟨h1, h2, h3, h4, h5, h6⟩⟩

theorem mem_spaced {ws : List (List UInt8)} (h : c ∈ spaced ws) : c = 0x20 ∨ ∃ w ∈ ws, c ∈ w := by
  induction ws with
  | nil => cases h
  | cons w ws ih =>
    cases ws with
    | nil =>
      rw [spaced, List.intercalate_singleton] at h
      exact .inr ⟨w, List.mem_cons_self, h⟩
    | cons w' ws =>
      have hline : spaced (w :: w' :: ws) = w ++ 0x20 :: spaced (w' :: ws) := by
        simp [spaced, List.intercalate_cons_cons]
      rw [hline, List.mem_append, List.mem_cons] at h
      rcases h with hw | hc | hrest
      · exact .inr ⟨w, List.mem_cons_self, hw⟩
      · exact .inl hc
      · rcases ih hrest with hc | ⟨v, hv, hc⟩
        · exact .inl hc
        · exact .inr ⟨v, List.mem_cons_of_mem _ hv, hc⟩

end Plak1a.Command.Run
