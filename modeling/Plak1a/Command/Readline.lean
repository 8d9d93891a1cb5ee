import Mathlib.Data.List.Basic
import Plak1a.Command.Macros
import Plak1a.Lib.Terminal

/-!
# `readline`

The line is edited where it is shown. `out` is what was written since the prompt.
-/

namespace Plak1a.Command.Readline

open Macros Lib Lib.Terminal

def tab : UInt8 := 0x09

/-- `erase_seq` -/
def eraseSeq : List UInt8 := [0x08, 0x20, 0x08]

/-- `tab_seq+(col&07)` -/
def tabSeq (col : Nat) : List UInt8 := List.replicate (8 - col % 8) 0x20

/-- The variables of `readline`; `buffer` is the console buffer up to `p`. -/
structure Line where
  buffer : List UInt8
  n : Nat
  col : Nat
  out : List UInt8
deriving DecidableEq

def Line.puts (l : Line) (s : List UInt8) : Line := { l with out := l.out ++ s }

/-- A character goes to the terminal; a tab is expanded. -/
def Line.echo (l : Line) (c : UInt8) : Line :=
  if c = tab then { l.puts (tabSeq l.col) with col := l.col + (8 - l.col % 8) }
  else { l.puts [c] with col := l.col + 1 }

/-- `while (col > plen)` with `rounds` left. -/
def Line.eraseTo (plen : Nat) : (rounds : Nat) → Line → Line
  | 0, l => l
  | n + 1, l =>
    if plen < l.col then Line.eraseTo plen n { l.puts eraseSeq with col := l.col - 1 } else l

/-- `delete_char` -/
def deleteChar (plen : Nat) (l : Line) : Line :=
  if l.n = 0 then l
  else
    let buffer := l.buffer.dropLast
    let shown :=
      -- The whole line is typed again, as a tab has no fixed width.
      if l.buffer.getLast? = some tab then buffer.foldl Line.echo (l.eraseTo plen l.col)
      else { l.puts eraseSeq with col := l.col - 1 }
    { shown with buffer := buffer, n := l.n - 1 }

/-- `^W`: characters are deleted until one of them is a blank. -/
def deleteWord (plen : Nat) : (rounds : Nat) → Line → Line
  | 0, l => l
  | n + 1, l =>
    let l' := deleteChar plen l
    if 0 < l'.n ∧ l.buffer.getLast? ≠ some 0x20 then deleteWord plen n l' else l'

/-- What a character does to `readline`. -/
inductive Read where
  | more (l : Line)
  | line (text : List UInt8)
  | interrupt
deriving DecidableEq

/-- The switch of `readline`. -/
def readChar (plen : Nat) (l : Line) (c : UInt8) : Read :=
  if c = 0x0d ∨ c = 0x0a then .line l.buffer
  else if c = 0 then .more l
  else if c = 0x03 then .interrupt
  else if c = 0x15 then .more { l.eraseTo plen l.col with buffer := [], n := 0 }
  else if c = 0x17 then .more (deleteWord plen (l.n + 1) l)
  else if c = 0x08 ∨ c = 0x7f then .more (deleteChar plen l)
  else if l.n < cfgCbsize - 2 then .more { l.echo c with buffer := l.buffer ++ [c], n := l.n + 1 }
  else .more (l.puts [0x07])

/-- `readline` starts with the prompt. -/
def start (prompt : List UInt8) : Line := ⟨[], 0, prompt.length, prompt⟩

/-- The loop of `readline`: what is read, and the characters behind it; or the line so far. -/
def readLoop (plen : Nat) : List UInt8 → Line → Read × List UInt8
  | [], l => (.more l, [])
  | c :: cs, l =>
    match readChar plen l c with
    | .more l => readLoop plen cs l
    | read => (read, cs)

def readline (prompt : List UInt8) (cs : List UInt8) : Read × List UInt8 :=
  readLoop prompt.length cs (start prompt)

/-- The text up to its last blank. -/
def eraseWord (text : List UInt8) : List UInt8 := (text.reverse.dropWhile (· ≠ 0x20)).tail.reverse

/-- What a character does to the text. -/
def edit (text : List UInt8) (c : UInt8) : List UInt8 :=
  if c = 0 then text
  else if c = 0x15 then []
  else if c = 0x17 then eraseWord text
  else if c = 0x08 ∨ c = 0x7f then text.dropLast
  else if text.length < cfgCbsize - 2 then text ++ [c]
  else text

/-- Where a tab takes a line to. -/
def expand (shown : List UInt8) (c : UInt8) : List UInt8 :=
  if c = tab then shown ++ tabSeq shown.length else shown ++ [c]

def display (prompt text : List UInt8) : List UInt8 := text.foldl expand prompt

/-- A character that a line may contain. -/
def Shown (c : UInt8) : Prop := c = tab ∨ Printable c

/-- A character that does not end the line. -/
def Editing (c : UInt8) : Prop := c ∈ [0, 0x15, 0x17, 0x08, 0x7f] ∨ Shown c

instance (c : UInt8) : Decidable (Shown c) := inferInstanceAs (Decidable (_ ∨ _))
instance (c : UInt8) : Decidable (Editing c) := inferInstanceAs (Decidable (_ ∨ _))

/-- The terminal shows a text, and `col` is the column of the cursor. -/
structure Displays (l : Line) (text : List UInt8) : Prop where
  shows : Shows (Screen.empty.puts l.out) text
  col : l.col = text.length

/-- The invariant of the loop. -/
structure Good (prompt : List UInt8) (l : Line) : Prop where
  displays : Displays l (display prompt l.buffer)
  n : l.n = l.buffer.length
  shown : ∀ c ∈ l.buffer, Shown c
  fits : l.buffer.length ≤ cfgCbsize - 2

variable {l : Line} {prompt text xs cs : List UInt8} {c : UInt8} {plen n : Nat}

theorem display_concat (prompt text : List UInt8) (c : UInt8) :
    display prompt (text ++ [c]) = expand (display prompt text) c := by
  rw [display, List.foldl_append]
  rfl

theorem prefix_display (prompt text : List UInt8) : prompt <+: display prompt text := by
  induction text generalizing prompt with
  | nil => exact List.prefix_refl _
  | cons c text ih =>
    refine List.IsPrefix.trans ?_ (ih (expand prompt c))
    rw [expand]
    split <;> exact List.prefix_append _ _

theorem Displays.puts (h : Displays l text) (hcs : ∀ c ∈ cs, Printable c) :
    Shows (Screen.empty.puts (l.puts cs).out) (text ++ cs) := by
  show Shows (Screen.empty.puts (l.out ++ cs)) _
  rw [puts_append]
  exact h.shows.puts hcs

theorem Displays.echo (h : Displays l text) (hc : Shown c) :
    Displays (l.echo c) (expand text c) := by
  rw [Line.echo, expand]
  split
  · rw [h.col]
    refine ⟨h.puts fun d hd => ?_, ?_⟩
    · rw [List.eq_of_mem_replicate hd]
      decide
    · rw [List.length_append, tabSeq, List.length_replicate]
  · next htab =>
    refine ⟨h.puts fun d hd => ?_, ?_⟩
    · rw [List.mem_singleton.mp hd]
      exact hc.resolve_left htab
    · rw [List.length_append, ← h.col]
      rfl

theorem Displays.echoAll (h : Displays l text) (hcs : ∀ c ∈ cs, Shown c) :
    Displays (cs.foldl Line.echo l) (display text cs) := by
  induction cs generalizing l text with
  | nil => exact h
  | cons c cs ih =>
    exact ih (h.echo (hcs c List.mem_cons_self)) fun d hd => hcs d (List.mem_cons_of_mem _ hd)

theorem Displays.erase (h : Displays l (text ++ [c])) :
    Displays { l.puts eraseSeq with col := l.col - 1 } text := by
  refine ⟨?_, ?_⟩
  · show Shows (Screen.empty.puts (l.out ++ eraseSeq)) text
    rw [puts_append]
    exact h.shows.erase
  · show l.col - 1 = _
    rw [h.col, List.length_append]
    exact Nat.add_sub_cancel _ _

/-- Everything behind the prompt is erased. -/
theorem Displays.eraseTo (h : Displays l (prompt ++ xs)) (hn : xs.length ≤ n) :
    Displays (l.eraseTo prompt.length n) prompt := by
  induction n generalizing l xs with
  | zero =>
    rw [List.eq_nil_of_length_eq_zero (Nat.le_zero.mp hn), List.append_nil] at h
    exact h
  | succ n ih =>
    rw [Line.eraseTo]
    rcases List.eq_nil_or_concat' xs with rfl | ⟨ys, c, rfl⟩
    · rw [List.append_nil] at h
      rw [if_neg (Nat.not_lt_of_le (Nat.le_of_eq h.col))]
      exact h
    · have hlt : prompt.length < l.col := by
        rw [h.col]
        simp
      rw [if_pos hlt]
      rw [← List.append_assoc] at h
      exact ih h.erase (by simpa using hn)

theorem Good.erased (h : Good prompt l) : Displays (l.eraseTo prompt.length l.col) prompt := by
  obtain ⟨xs, hxs⟩ := prefix_display prompt l.buffer
  have hd := h.displays
  rw [← hxs] at hd
  refine hd.eraseTo ?_
  rw [hd.col, List.length_append]
  exact Nat.le_add_left _ _

/-- One character is deleted, and the terminal shows the rest. -/
theorem Good.deleteChar (h : Good prompt l) :
    Good prompt (deleteChar prompt.length l) ∧
      (Readline.deleteChar prompt.length l).buffer = l.buffer.dropLast := by
  rw [Readline.deleteChar]
  split
  · next hn =>
    have hnil : l.buffer = [] := List.eq_nil_of_length_eq_zero (h.n.symm.trans hn)
    exact ⟨h, by rw [hnil]; rfl⟩
  next hn =>
  obtain ⟨xs, c, hbuffer⟩ : ∃ xs c, l.buffer = xs ++ [c] := by
    rcases List.eq_nil_or_concat' l.buffer with hnil | ⟨xs, c, hxs⟩
    · exact absurd (h.n.trans (congrArg List.length hnil)) hn
    · exact ⟨xs, c, hxs⟩
  have hdrop : l.buffer.dropLast = xs := by rw [hbuffer, List.dropLast_concat]
  have hlast : l.buffer.getLast? = some c := by rw [hbuffer, List.getLast?_concat]
  have hlen : l.buffer.length = xs.length + 1 := by rw [hbuffer, List.length_append]; rfl
  have hxs : ∀ d ∈ xs, Shown d := fun d hd =>
    h.shown d (by rw [hbuffer]; exact List.mem_append_left _ hd)
  have hdisplays : Displays (if l.buffer.getLast? = some tab then
      xs.foldl Line.echo (l.eraseTo prompt.length l.col)
      else { l.puts eraseSeq with col := l.col - 1 }) (display prompt xs) := by
    split
    · exact h.erased.echoAll hxs
    · next htab =>
      have hd := h.displays
      have hc : c ≠ tab := fun hc => htab (hlast.trans (congrArg some hc))
      rw [hbuffer, display_concat, expand, if_neg hc] at hd
      exact hd.erase
  rw [hdrop]
  refine ⟨⟨⟨hdisplays.shows, hdisplays.col⟩, ?_, hxs, ?_⟩, rfl⟩
  · show l.n - 1 = xs.length
    rw [h.n, hlen]
    rfl
  · have hfits := h.fits
    show xs.length ≤ _
    omega

theorem eraseWord_concat (text : List UInt8) (c : UInt8) :
    eraseWord (text ++ [c]) = if c = 0x20 then text else eraseWord text := by
  rw [eraseWord, List.reverse_concat, List.dropWhile_cons]
  by_cases hc : c = 0x20
  · simp [hc]
  · simp [hc, eraseWord]

/-- A word is deleted. -/
theorem Good.deleteWord (h : Good prompt l) (hn : l.n < n) :
    Good prompt (deleteWord prompt.length n l) ∧
      (Readline.deleteWord prompt.length n l).buffer = eraseWord l.buffer := by
  induction n generalizing l with
  | zero => exact absurd hn (Nat.not_lt_zero _)
  | succ n ih =>
    obtain ⟨hgood, hdrop⟩ := h.deleteChar
    rw [Readline.deleteWord]
    rcases List.eq_nil_or_concat' l.buffer with hnil | ⟨xs, c, hxs⟩
    · have hzero : (Readline.deleteChar prompt.length l).n = 0 := by
        rw [hgood.n, hdrop, hnil]
        rfl
      rw [if_neg (by rw [hzero]; exact fun h => Nat.lt_irrefl _ h.1)]
      exact ⟨hgood, by rw [hdrop, hnil]; rfl⟩
    · have hdrop' : (Readline.deleteChar prompt.length l).buffer = xs := by
        rw [hdrop, hxs, List.dropLast_concat]
      have hlast : l.buffer.getLast? = some c := by rw [hxs, List.getLast?_concat]
      rw [hlast, hxs, eraseWord_concat]
      split
      · next hmore =>
        have hc : c ≠ 0x20 := fun hc => hmore.2 (congrArg some hc)
        rw [if_neg hc, ← hdrop']
        refine ih hgood ?_
        have hlen := h.n
        rw [hxs, List.length_append, List.length_singleton] at hlen
        rw [hgood.n, hdrop']
        omega
      · next hstop =>
        refine ⟨hgood, ?_⟩
        rw [hdrop']
        split
        · rfl
        · next hc =>
          have hzero : ¬0 < (Readline.deleteChar prompt.length l).n := fun h =>
            hstop ⟨h, fun he => hc (Option.some.inj he)⟩
          rw [hgood.n, hdrop', Nat.not_lt, Nat.le_zero] at hzero
          rw [List.eq_nil_of_length_eq_zero hzero]
          rfl

/-- A character that does not end the line is edited in. -/
theorem Good.readChar (h : Good prompt l) (hc : Editing c) :
    ∃ l', readChar prompt.length l c = .more l' ∧ Good prompt l' ∧
      l'.buffer = edit l.buffer c := by
  have hcr : ¬(c = 0x0d ∨ c = 0x0a) ∧ c ≠ 0x03 := by
    rcases hc with hc | rfl | hc
    · simp only [List.mem_cons, List.not_mem_nil, or_false] at hc
      rcases hc with rfl | rfl | rfl | rfl | rfl <;> decide
    · decide
    · refine ⟨?_, ?_⟩
      · rintro (rfl | rfl) <;> exact absurd hc (by decide)
      · rintro rfl
        exact absurd hc (by decide)
  rw [Readline.readChar, if_neg hcr.1, edit]
  split
  · exact ⟨l, rfl, h, rfl⟩
  next h0 =>
  rw [if_neg hcr.2]
  split
  · refine ⟨_, rfl, ⟨⟨h.erased.shows, h.erased.col⟩, rfl, nofun, Nat.zero_le _⟩, rfl⟩
  next hu =>
  split
  · obtain ⟨hgood, hword⟩ := h.deleteWord (Nat.lt_succ_self l.n)
    exact ⟨_, rfl, hgood, hword⟩
  next hw =>
  split
  · obtain ⟨hgood, hdrop⟩ := h.deleteChar
    exact ⟨_, rfl, hgood, hdrop⟩
  next hdel =>
  have hshown : Shown c := by
    refine hc.resolve_left fun hmem => ?_
    simp only [List.mem_cons, List.not_mem_nil, or_false] at hmem
    rcases hmem with hm | hm | hm | hm | hm
    · exact h0 hm
    · exact hu hm
    · exact hw hm
    · exact hdel (.inl hm)
    · exact hdel (.inr hm)
  rw [h.n]
  split
  · next hlt =>
    have hecho := h.displays.echo hshown
    rw [← display_concat] at hecho
    refine ⟨_, rfl, ⟨⟨hecho.shows, hecho.col⟩, ?_, ?_, ?_⟩, rfl⟩
    · rw [List.length_append]
      rfl
    · intro d hd
      rcases List.mem_append.mp hd with hd | hd
      · exact h.shown d hd
      · rwa [List.mem_singleton.mp hd]
    · rw [List.length_append]
      exact hlt
  · refine ⟨_, rfl, ⟨⟨?_, h.displays.col⟩, h.n, h.shown, h.fits⟩, rfl⟩
    show Shows (Screen.empty.puts (l.out ++ [bell])) _
    rw [puts_append]
    exact h.displays.shows.bell

theorem start_good (hprompt : ∀ c ∈ prompt, Printable c) : Good prompt (start prompt) where
  displays := ⟨empty_shows.puts hprompt, rfl⟩
  n := rfl
  shown := nofun
  fits := Nat.zero_le _

theorem Good.readLoop (h : Good prompt l) (hcs : ∀ c ∈ cs, Editing c) :
    ∃ l', Good prompt l' ∧ l'.buffer = cs.foldl edit l.buffer ∧
      ∀ rest, readLoop prompt.length (cs ++ rest) l = readLoop prompt.length rest l' := by
  induction cs generalizing l with
  | nil => exact ⟨l, h, rfl, fun _ => rfl⟩
  | cons c cs ih =>
    obtain ⟨l₁, hread, hgood, hbuffer⟩ := h.readChar (hcs c List.mem_cons_self)
    obtain ⟨l₂, hgood₂, hbuffer₂, hrest⟩ := ih hgood fun d hd => hcs d (List.mem_cons_of_mem _ hd)
    refine ⟨l₂, hgood₂, ?_, fun rest => ?_⟩
    · rw [hbuffer₂, hbuffer]
      rfl
    · rw [List.cons_append, Readline.readLoop, hread]
      exact hrest rest

/-- What is read at the end of a line, and after `^C`. -/
theorem readline_ends (hprompt : ∀ c ∈ prompt, Printable c) (hcs : ∀ c ∈ cs, Editing c)
    (rest : List UInt8) :
    readline prompt (cs ++ 0x0d :: rest) = (.line (cs.foldl edit []), rest) ∧
      readline prompt (cs ++ 0x03 :: rest) = (.interrupt, rest) := by
  obtain ⟨l, -, hbuffer, hrest⟩ := (start_good hprompt).readLoop hcs
  have hline : readLoop prompt.length (0x0d :: rest) l = (.line l.buffer, rest) := rfl
  refine ⟨(hrest (0x0d :: rest)).trans (hline.trans ?_), hrest (0x03 :: rest)⟩
  rw [hbuffer]
  rfl

/-- After every sequence of keys the terminal shows the prompt and the text that the keys make,
with the tabs expanded and the cursor behind it. The text has room for its NUL and one more
character, and it is what is read at the end of the line; a `^C` discards it. -/
theorem readline_displays (hprompt : ∀ c ∈ prompt, Printable c) (hcs : ∀ c ∈ cs, Editing c) :
    ∃ l, readline prompt cs = (.more l, []) ∧ l.buffer = cs.foldl edit [] ∧
      l.buffer.length ≤ cfgCbsize - 2 ∧
      Shows (Screen.empty.puts l.out) (display prompt l.buffer) ∧
      ∀ rest, readline prompt (cs ++ 0x0d :: rest) = (.line l.buffer, rest) ∧
        readline prompt (cs ++ 0x03 :: rest) = (.interrupt, rest) := by
  obtain ⟨l, hgood, hbuffer, hrest⟩ := (start_good hprompt).readLoop hcs
  refine ⟨l, ?_, hbuffer, hgood.fits, hgood.displays.shows, fun rest => ?_⟩
  · have h := hrest []
    rwa [List.append_nil] at h
  · rw [hbuffer]
    exact readline_ends hprompt hcs rest

/-- `CFG_PROMPT` -/
def cfgPrompt : List UInt8 := [0x3d, 0x3e, 0x20, 0x20]

/-- `a`, a tab, `b c`, `^W` and a backspace: the tab is shown from the fifth column on. -/
theorem readline_displays_tab :
    ∃ l, readline cfgPrompt [0x61, 0x09, 0x62, 0x20, 0x63, 0x17, 0x08] = (.more l, []) ∧
      l.buffer = [0x61, 0x09] ∧ Shows (Screen.empty.puts l.out)
        [0x3d, 0x3e, 0x20, 0x20, 0x61, 0x20, 0x20, 0x20] := by
  obtain ⟨l, hread, hbuffer, -, hshows, -⟩ := @readline_displays cfgPrompt
    [0x61, 0x09, 0x62, 0x20, 0x63, 0x17, 0x08] (by simp [cfgPrompt, Printable, blank])
    (by simp [Editing, Shown, Printable, blank, tab])
  have hedit : l.buffer = [0x61, 0x09] := hbuffer.trans (by decide)
  rw [hedit] at hshows
  exact ⟨l, hread, hedit, hshows⟩

end Plak1a.Command.Readline
