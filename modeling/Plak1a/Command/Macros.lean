import Mathlib.Data.List.TakeWhile

/-!
# What the boot loader makes of a command line

`process_macros` and `parse_line`. A string is given without its NUL; `lookup` is what `getenv`
answers.
-/

namespace Plak1a.Command.Macros

def cfgCbsize : Nat := 256
def cfgMaxargs : Nat := 16

/-- `'\''`, `'\\'` and `'$'` -/
def quoteChar : UInt8 := 0x27
def backslash : UInt8 := 0x5c
def dollar : UInt8 := 0x24

/-- `'('`, `'{'`, `')'` and `'}'` -/
def isOpening (c : UInt8) : Bool := c = 0x28 || c = 0x7b
def isClosing (c : UInt8) : Bool := c = 0x29 || c = 0x7d

/-- `state` -/
inductive Waiting where
  | dollar | opening | closing | quote
deriving DecidableEq

/-- The variables of `process_macros`; `start` is the input from `varname_start` on. -/
structure Macro where
  state : Waiting
  prev : UInt8
  start : List UInt8
  output : List UInt8

/-- `*(output++) = c`, while there is room. -/
def Macro.put (s : Macro) (c : UInt8) : Macro :=
  if s.output.length < cfgCbsize then { s with output := s.output ++ [c] } else s

/-- The value of a variable goes to the output, as far as there is room. -/
def Macro.putAll (s : Macro) (value : List UInt8) : Macro :=
  { s with output := s.output ++ value.take (cfgCbsize - s.output.length) }

/-- The switch of `process_macros`; `input` is what is behind `c`. -/
def Macro.step (lookup : List UInt8 → Option (List UInt8)) (s : Macro) (c : UInt8)
    (input : List UInt8) : Macro :=
  match s.state with
  | .dollar =>
    if c = quoteChar ∧ s.prev ≠ backslash then { s with state := .quote }
    else if c = Macros.dollar ∧ s.prev ≠ backslash then { s with state := .opening }
    else s.put c
  | .opening =>
    if isOpening c then { s with state := .closing, start := input }
    else ({ s with state := .dollar }.put Macros.dollar).put c
  | .closing =>
    if isClosing c then
      let envname := s.start.take (s.start.length - input.length - 1)
      { s.putAll ((lookup envname).getD []) with state := .dollar }
    else s
  | .quote =>
    if c = quoteChar ∧ s.prev ≠ backslash then { s with state := .dollar }
    else s.put c

/-- The loop of `process_macros`. One level of escape characters is removed. -/
def macros (lookup : List UInt8 → Option (List UInt8)) : List UInt8 → Macro → Macro
  | [], s => s
  | c :: input, s =>
    if s.output.length = cfgCbsize then s
    else if s.state ≠ .quote ∧ c = backslash ∧ s.prev ≠ backslash then
      match input with
      | [] => s
      | c :: input =>
        macros lookup input
          { Macro.step lookup { s with prev := backslash } c input with prev := c }
    else macros lookup input { s.step lookup c input with prev := c }

/-- `process_macros`; there is no string if the output has no room for its NUL. -/
def processMacros (lookup : List UInt8 → Option (List UInt8)) (input : List UInt8) :
    Option (List UInt8) :=
  let output := (macros lookup input ⟨.dollar, 0, [], []⟩).output
  if output.length < cfgCbsize then some output else none

/-- `' '` and `'\t'` -/
def isBlank (c : UInt8) : Bool := c = 0x20 || c = 0x09

/-- `parse_line` with room for `room` arguments, and whether it puts a NULL behind them. -/
def parseLine : (room : Nat) → List UInt8 → List (List UInt8) × Bool
  | 0, _ => ([], false)
  | room + 1, line =>
    match line.dropWhile isBlank with
    | [] => ([], true)
    | c :: line =>
      let arg := (c :: line).takeWhile (!isBlank ·)
      match (c :: line).dropWhile (!isBlank ·) with
      | [] => ([arg], true)
      | _ :: line =>
        let (args, ended) := parseLine room line
        (arg :: args, ended)

/-- The parts of a line: characters that stand for themselves, one that is escaped, a quotation,
and a variable. -/
inductive Piece where
  | text (s : List UInt8)
  | escaped (c : UInt8)
  | quoted (s : List UInt8)
  | var (name : List UInt8)

def Piece.render : Piece → List UInt8
  | .text s => s
  | .escaped c => [backslash, c]
  | .quoted s => quoteChar :: (s ++ [quoteChar])
  | .var name => Macros.dollar :: 0x7b :: (name ++ [0x7d])

def Piece.meaning (lookup : List UInt8 → Option (List UInt8)) : Piece → List UInt8
  | .text s => s
  | .escaped c => [c]
  | .quoted s => s
  | .var name => (lookup name).getD []

/-- A backslash counts for the character behind it even when it is escaped itself, or is the last
one of a quotation. -/
def Piece.Proper : Piece → Prop
  | .text s => quoteChar ∉ s ∧ backslash ∉ s ∧ Macros.dollar ∉ s
  | .escaped c => c ≠ backslash
  | .quoted s => quoteChar ∉ s ∧ s.getLast? ≠ some backslash
  | .var name => backslash ∉ name ∧ ∀ c ∈ name, isClosing c = false

def render (ps : List Piece) : List UInt8 := ps.flatMap Piece.render

def meaning (lookup : List UInt8 → Option (List UInt8)) (ps : List Piece) : List UInt8 :=
  ps.flatMap (Piece.meaning lookup)

variable {lookup : List UInt8 → Option (List UInt8)} {s t : Macro} {c : UInt8}
  {input rest xs : List UInt8}

theorem macros_full (h : s.output.length = cfgCbsize) : macros lookup input s = s := by
  cases input with
  | nil => rw [macros]
  | cons c input =>
    rw [macros.eq_def]
    exact if_pos h

theorem macros_step (h : s.output.length ≠ cfgCbsize)
    (hc : ¬(s.state ≠ .quote ∧ c = backslash ∧ s.prev ≠ backslash)) :
    macros lookup (c :: input) s =
      macros lookup input { s.step lookup c input with prev := c } := by
  rw [macros.eq_def]
  exact (if_neg h).trans (if_neg hc)

theorem macros_escape (h : s.output.length ≠ cfgCbsize) (hs : s.state ≠ .quote)
    (hp : s.prev ≠ backslash) :
    macros lookup (backslash :: c :: input) s = macros lookup input
      { Macro.step lookup { s with prev := backslash } c input with prev := c } := by
  rw [macros.eq_def]
  exact (if_neg h).trans (if_pos ⟨hs, rfl, hp⟩)

theorem take_append_take (n : Nat) (xs ys : List UInt8) :
    (xs.take n ++ ys).take n = (xs ++ ys).take n := by
  rw [List.take_append, List.take_append, List.take_take, Nat.min_self, List.length_take]
  congr 2
  omega

theorem put_output (h : s.output.length ≤ cfgCbsize) (c : UInt8) :
    (s.put c).output = (s.output ++ [c]).take cfgCbsize := by
  rw [Macro.put]
  split
  · next hlt =>
    rw [List.take_of_length_le]
    simpa using Nat.succ_le_of_lt hlt
  · next hge => rw [List.take_append_of_le_length (by omega), List.take_of_length_le h]

@[simp] theorem put_state (s : Macro) (c : UInt8) : (s.put c).state = s.state := by
  rw [Macro.put]
  split <;> rfl

/-- Characters that only go to the output. Once it is full nothing changes it any more. -/
theorem macros_puts (lookup : List UInt8 → Option (List UInt8)) (xs : List UInt8)
    (hlen : s.output.length ≤ cfgCbsize)
    (hstep : ∀ c ∈ xs, ∀ (t : Macro) (input : List UInt8), t.state = s.state →
      t.step lookup c input = t.put c)
    (hesc : ∀ c ∈ xs, s.state = .quote ∨ c ≠ backslash) (rest : List UInt8) :
    ∃ t : Macro, t.state = s.state ∧ t.prev = xs.getLast?.getD s.prev ∧
      t.output = (s.output ++ xs).take cfgCbsize ∧
      (macros lookup (xs ++ rest) s).output = (macros lookup rest t).output := by
  induction xs generalizing s with
  | nil =>
    refine ⟨s, rfl, rfl, ?_, rfl⟩
    rw [List.append_nil, List.take_of_length_le hlen]
  | cons c xs ih =>
    by_cases hfull : s.output.length = cfgCbsize
    · refine ⟨{ s with prev := (c :: xs).getLast?.getD s.prev }, rfl, rfl, ?_, ?_⟩
      · rw [List.take_append_of_le_length (Nat.le_of_eq hfull.symm),
          List.take_of_length_le hlen]
      · rw [macros_full hfull]
        exact (congrArg Macro.output
          (macros_full (s := { s with prev := (c :: xs).getLast?.getD s.prev }) hfull)).symm
    · have hc : ¬(s.state ≠ .quote ∧ c = backslash ∧ s.prev ≠ backslash) := fun h =>
        (hesc c List.mem_cons_self).elim h.1 (fun hne => hne h.2.1)
      rw [List.cons_append, macros_step hfull hc, hstep c List.mem_cons_self s _ rfl]
      have hput := put_output hlen c
      obtain ⟨t, hstate, hprev, hout, heq⟩ := ih (s := { s.put c with prev := c })
        (by rw [hput]; exact List.length_take_le _ _)
        (fun c' hc' t input ht => hstep c' (List.mem_cons_of_mem _ hc') t input
          (ht.trans (put_state s c)))
        (fun c' hc' => by
          rw [put_state]
          exact hesc c' (List.mem_cons_of_mem _ hc'))
      refine ⟨t, hstate.trans (put_state s c), ?_, ?_, heq⟩
      · rw [hprev]
        cases xs with
        | nil => rfl
        | cons d xs => simp [List.getLast?_cons]
      · rw [hout]
        show ((s.put c).output ++ xs).take cfgCbsize = _
        rw [hput, take_append_take, List.append_assoc]
        rfl

/-- A name that is read up to what closes it. -/
theorem macros_name (lookup : List UInt8 → Option (List UInt8))
    (hlen : s.output.length ≠ cfgCbsize) (hs : s.state = .closing)
    (hxs : ∀ c ∈ xs, isClosing c = false) (hesc : backslash ∉ xs) (rest : List UInt8) :
    ∃ prev, macros lookup (xs ++ rest) s = macros lookup rest { s with prev := prev } := by
  induction xs generalizing s with
  | nil => exact ⟨s.prev, rfl⟩
  | cons c xs ih =>
    have hc : ¬(s.state ≠ .quote ∧ c = backslash ∧ s.prev ≠ backslash) := fun h =>
      hesc (h.2.1 ▸ List.mem_cons_self)
    have hstep : s.step lookup c (xs ++ rest) = s := by
      simp [Macro.step, hs, hxs c List.mem_cons_self]
    rw [List.cons_append, macros_step hlen hc, hstep]
    exact ih (s := { s with prev := c }) hlen hs (fun c hc => hxs c (List.mem_cons_of_mem _ hc))
      fun h => hesc (List.mem_cons_of_mem _ h)

/-- Between two parts of a line. -/
structure Ready (s : Macro) : Prop where
  state : s.state = .dollar
  prev : s.prev ≠ backslash
  length : s.output.length ≤ cfgCbsize

/-- What a part of a line puts out. -/
def Puts (lookup : List UInt8 → Option (List UInt8)) (s : Macro) (p : Piece)
    (rest : List UInt8) : Prop :=
  ∃ t, Ready t ∧ t.output = (s.output ++ p.meaning lookup).take cfgCbsize ∧
    (macros lookup (p.render ++ rest) s).output = (macros lookup rest t).output

theorem puts_text (h : Ready s) {xs : List UInt8}
    (hp : (.text xs : Piece).Proper) (rest : List UInt8) :
    Puts lookup s (.text xs : Piece) rest := by
  obtain ⟨hquote, hback, hdollar⟩ := hp
  obtain ⟨t, hstate, hprev, hout, heq⟩ := macros_puts lookup xs h.length
    (fun c hc t input ht => by
      have h1 : c ≠ quoteChar := fun h => hquote (h ▸ hc)
      have h2 : c ≠ Macros.dollar := fun h => hdollar (h ▸ hc)
      simp [Macro.step, ht.trans h.state, h1, h2])
    (fun c hc => .inr fun h => hback (h ▸ hc)) rest
  refine ⟨t, ⟨hstate.trans h.state, ?_, ?_⟩, hout, heq⟩
  · rw [hprev]
    cases hlast : xs.getLast? with
    | none => exact h.prev
    | some c => exact fun hc => hback (hc ▸ List.mem_of_getLast? hlast)
  · rw [hout]
    exact List.length_take_le _ _

theorem puts_escaped (h : Ready s) (hfull : s.output.length ≠ cfgCbsize) {c : UInt8}
    (hp : (.escaped c : Piece).Proper) (rest : List UInt8) :
    Puts lookup s (.escaped c : Piece) rest := by
  have hq : s.state ≠ .quote := by
    rw [h.state]
    nofun
  let s' : Macro := { s with prev := backslash }
  have hput : (s'.put c).output = (s.output ++ [c]).take cfgCbsize :=
    put_output (s := s') h.length c
  refine ⟨{ s'.put c with prev := c }, ⟨?_, hp, ?_⟩, hput, ?_⟩
  · exact (put_state s' c).trans h.state
  · show (s'.put c).output.length ≤ _
    rw [hput]
    exact List.length_take_le _ _
  · show (macros lookup (backslash :: c :: rest) s).output = _
    have hstep : s'.step lookup c rest = s'.put c := by
      simp [s', Macro.step, h.state]
    rw [macros_escape hfull hq h.prev, hstep]

theorem puts_quoted (h : Ready s) (hfull : s.output.length ≠ cfgCbsize) {xs : List UInt8}
    (hp : (.quoted xs : Piece).Proper) (rest : List UInt8) :
    Puts lookup s (.quoted xs : Piece) rest := by
  obtain ⟨hquote, hlast⟩ := hp
  have hc : ∀ s : Macro, ¬(s.state ≠ .quote ∧ quoteChar = backslash ∧ s.prev ≠ backslash) :=
    fun s h => absurd h.2.1 (by decide)
  have hopen : s.step lookup quoteChar (xs ++ ([quoteChar] ++ rest)) =
      { s with state := .quote } := by
    simp [Macro.step, h.state, h.prev]
  obtain ⟨t, hstate, hprev, hout, heq⟩ := macros_puts lookup xs
    (s := { s with state := .quote, prev := quoteChar }) h.length
    (fun c hc t input ht => by
      have h1 : c ≠ quoteChar := fun h => hquote (h ▸ hc)
      simp [Macro.step, ht, h1])
    (fun c hc => .inl rfl) ([quoteChar] ++ rest)
  have hback : t.prev ≠ backslash := by
    rw [hprev]
    cases hl : xs.getLast? with
    | none =>
      show quoteChar ≠ backslash
      decide
    | some c => exact fun h => hlast (hl.trans (congrArg some h))
  have hlen : t.output.length ≤ cfgCbsize := by
    rw [hout]
    exact List.length_take_le _ _
  have hrender : (Piece.quoted xs).render ++ rest =
      quoteChar :: (xs ++ ([quoteChar] ++ rest)) := by
    simp [Piece.render]
  rw [Puts, hrender, macros_step hfull (hc s), hopen]
  refine ⟨{ t with state := .dollar, prev := quoteChar },
    ⟨rfl, show quoteChar ≠ backslash by decide, hlen⟩, hout, heq.trans ?_⟩
  by_cases hfull' : t.output.length = cfgCbsize
  · rw [macros_full hfull']
    exact (congrArg Macro.output (macros_full
      (s := { t with state := .dollar, prev := quoteChar }) hfull')).symm
  · have hclose : t.step lookup quoteChar rest = { t with state := .dollar } := by
      simp [Macro.step, hstate, hback]
    rw [List.singleton_append, macros_step hfull' (hc t), hclose]

theorem puts_var (h : Ready s) (hfull : s.output.length ≠ cfgCbsize) {name : List UInt8}
    (hp : (.var name : Piece).Proper) (rest : List UInt8) :
    Puts lookup s (.var name : Piece) rest := by
  obtain ⟨hback, hclosing⟩ := hp
  let s₂ : Macro := { s with state := .closing, prev := 0x7b, start := name ++ 0x7d :: rest }
  have hrender : (Piece.var name).render ++ rest =
      Macros.dollar :: 0x7b :: (name ++ 0x7d :: rest) := by
    simp [Piece.render]
  have hopen : macros lookup ((Piece.var name).render ++ rest) s =
      macros lookup (name ++ 0x7d :: rest) s₂ := by
    rw [hrender, macros_step hfull (by simp [backslash, Macros.dollar])]
    rw [macros_step (by simpa [Macro.step, h.state, h.prev, quoteChar, Macros.dollar] using hfull)
      (by simp [backslash])]
    simp [s₂, Macro.step, h.state, h.prev, quoteChar, Macros.dollar, isOpening]
  obtain ⟨prev, hname⟩ := macros_name lookup (s := s₂) hfull rfl hclosing hback
    (0x7d :: rest)
  let s₃ : Macro := { s₂ with prev := prev }
  have htake : s₃.start.take (s₃.start.length - rest.length - 1) = name := by
    have hlen : s₃.start.length - rest.length - 1 = name.length := by
      simp only [s₃, s₂, List.length_append, List.length_cons]
      omega
    rw [hlen]
    simp [s₃, s₂]
  have hclose : s₃.step lookup 0x7d rest =
      { s₃.putAll ((lookup name).getD []) with state := .dollar } := by
    simp only [Macro.step, htake]
    rfl
  have hout : (s₃.putAll ((lookup name).getD [])).output =
      (s.output ++ (lookup name).getD []).take cfgCbsize := by
    show s.output ++ _ = _
    rw [List.take_append, List.take_of_length_le h.length]
  refine ⟨{ s₃.putAll ((lookup name).getD []) with state := .dollar, prev := 0x7d },
    ⟨rfl, show (0x7d : UInt8) ≠ backslash by decide, ?_⟩, hout, ?_⟩
  · show (s₃.putAll _).output.length ≤ _
    rw [hout]
    exact List.length_take_le _ _
  · rw [hopen, hname]
    show (macros lookup (0x7d :: rest) s₃).output = _
    rw [macros_step (s := s₃) hfull (by simp [backslash]), hclose]

/-- A part of a line puts out what it means. -/
theorem macros_piece (lookup : List UInt8 → Option (List UInt8)) (h : Ready s) {p : Piece}
    (hp : p.Proper) (rest : List UInt8) : Puts lookup s p rest := by
  by_cases hfull : s.output.length = cfgCbsize
  · refine ⟨s, h, ?_, ?_⟩
    · rw [List.take_append_of_le_length (Nat.le_of_eq hfull.symm), List.take_of_length_le h.length]
    · rw [macros_full hfull, macros_full hfull]
  cases p with
  | text xs => exact puts_text h hp rest
  | escaped c => exact puts_escaped h hfull hp rest
  | quoted xs => exact puts_quoted h hfull hp rest
  | var name => exact puts_var h hfull hp rest

/-- The output of a line is what its parts mean, as far as there is room. -/
theorem macros_render (h : Ready s) {ps : List Piece} (hps : ∀ p ∈ ps, p.Proper) :
    (macros lookup (render ps) s).output = (s.output ++ meaning lookup ps).take cfgCbsize := by
  induction ps generalizing s with
  | nil =>
    show (macros lookup [] s).output = _
    simp [macros, meaning, List.take_of_length_le h.length]
  | cons p ps ih =>
    obtain ⟨t, ht, hout, heq⟩ := macros_piece lookup h (hps p List.mem_cons_self)
      (render ps)
    have hrest := ih ht fun p hp => hps p (List.mem_cons_of_mem _ hp)
    rw [render, List.flatMap_cons, ← render, heq, hrest, hout, take_append_take, List.append_assoc]
    rfl

theorem start_ready : Ready ⟨.dollar, 0, [], []⟩ := ⟨rfl, by decide, Nat.zero_le _⟩

theorem processMacros_fits {ps : List Piece} (hps : ∀ p ∈ ps, p.Proper)
    {lookup : List UInt8 → Option (List UInt8)} (hfits : (meaning lookup ps).length < cfgCbsize) :
    processMacros lookup (render ps) = some (meaning lookup ps) := by
  rw [processMacros]
  simp only [macros_render start_ready hps, List.nil_append]
  rw [List.take_of_length_le (Nat.le_of_lt hfits), if_pos hfits]

/-- A line of proper parts is replaced by what they mean, for every environment; and it is lost
exactly when that has no room in 256 characters with its NUL. -/
theorem processMacros_render {ps : List Piece} (hps : ∀ p ∈ ps, p.Proper)
    (lookup : List UInt8 → Option (List UInt8)) :
    processMacros lookup (render ps) =
      if (meaning lookup ps).length < cfgCbsize then some (meaning lookup ps) else none := by
  by_cases hfits : (meaning lookup ps).length < cfgCbsize
  · rw [if_pos hfits, processMacros_fits hps hfits]
  · rw [if_neg hfits, processMacros]
    simp only [macros_render start_ready hps, List.nil_append, List.length_take]
    rw [if_neg (by omega)]

/-- `a;${b}` with the semicolon once in quotes and once escaped. -/
theorem processMacros_render_semicolons :
    processMacros (fun name => if name = [0x62] then some [0x78, 0x79] else none)
      (render [.text [0x61], .quoted [0x3b], .var [0x62], .escaped 0x3b]) =
        some [0x61, 0x3b, 0x78, 0x79, 0x3b] :=
  @processMacros_render [.text [0x61], .quoted [0x3b], .var [0x62], .escaped 0x3b]
    (by simp [Piece.Proper, quoteChar, backslash, dollar, isClosing]) _

/-- Words with a blank between them. -/
def spaced (ws : List (List UInt8)) : List UInt8 := [0x20].intercalate ws

/-- A word of a line: not empty, and without blanks. -/
def IsWord (w : List UInt8) : Prop := w ≠ [] ∧ ∀ c ∈ w, isBlank c = false

/-- The words of a line. -/
def words (line : List UInt8) : List (List UInt8) :=
  (line.splitOnP isBlank).filter (!·.isEmpty)

@[simp] theorem words_nil : words [] = [] := rfl

/-- A blank is between two words, and in none. -/
theorem words_append (hc : isBlank c = true) (xs ys : List UInt8) :
    words (xs ++ c :: ys) = words xs ++ words ys := by
  rw [words, List.splitOnP_append_cons xs ys hc, List.filter_append]
  rfl

theorem words_blank (hc : isBlank c = true) (line : List UInt8) :
    words (c :: line) = words line := by
  simpa using words_append hc [] line

theorem words_of_isWord {w : List UInt8} (hw : IsWord w) : words w = [w] := by
  rw [words, List.splitOnP_eq_singleton hw.2]
  simp [hw.1]

theorem words_spaced {ws : List (List UInt8)} (hws : ∀ w ∈ ws, IsWord w) :
    words (spaced ws) = ws := by
  induction ws with
  | nil => rfl
  | cons w ws ih =>
    have hw := words_of_isWord (hws w List.mem_cons_self)
    have hrest := ih fun w h => hws w (List.mem_cons_of_mem _ h)
    cases ws with
    | nil => rwa [spaced, List.intercalate_singleton]
    | cons w' ws =>
      have hline : spaced (w :: w' :: ws) = w ++ 0x20 :: spaced (w' :: ws) := by
        simp [spaced, List.intercalate_cons_cons]
      rw [hline, words_append (by decide), hw, hrest]
      rfl

/-- No blanks are left at the start. -/
theorem words_dropWhile (line : List UInt8) : words (line.dropWhile isBlank) = words line := by
  induction line with
  | nil => rfl
  | cons c line ih =>
    by_cases hc : isBlank c = true
    · rw [List.dropWhile_cons_of_pos hc, ih, words_blank hc]
    · rw [List.dropWhile_cons_of_neg hc]

/-- A line that starts with a character that is no blank starts with a word. -/
theorem isWord_takeWhile (hc : isBlank c = false) (line : List UInt8) :
    IsWord ((c :: line).takeWhile (!isBlank ·)) := by
  refine ⟨?_, fun d hd => ?_⟩
  · rw [List.takeWhile_cons_of_pos (by simp [hc])]
    exact List.cons_ne_nil _ _
  · simpa using List.mem_takeWhile_imp hd

/-- The arguments of a line are its first words. -/
theorem parseLine_words (room : Nat) (line : List UInt8) :
    (parseLine room line).1 = (words line).take room := by
  induction room generalizing line with
  | zero => rfl
  | succ room ih =>
    rw [parseLine, ← words_dropWhile line]
    cases hskip : line.dropWhile isBlank with
    | nil => rfl
    | cons c rest =>
      have hc : isBlank c = false := by
        have h := List.dropWhile_get_zero_not isBlank line (by simp [hskip])
        simpa [hskip] using h
      have hword := isWord_takeWhile hc rest
      have hsplit := List.takeWhile_append_dropWhile (p := (!isBlank ·)) (l := c :: rest)
      cases hdrop : (c :: rest).dropWhile (!isBlank ·) with
      | nil =>
        rw [hdrop, List.append_nil] at hsplit
        have hwords := (congrArg words hsplit).symm.trans (words_of_isWord hword)
        simp only [hdrop, hwords, List.take_succ_cons, List.take_nil]
      | cons d rest' =>
        have hd : isBlank d = true := by
          have h := List.dropWhile_get_zero_not (!isBlank ·) (c :: rest) (by simp [hdrop])
          simpa [hdrop] using h
        rw [hdrop] at hsplit
        have hwords := (congrArg words hsplit).symm.trans (words_append hd _ _)
        rw [words_of_isWord hword] at hwords
        simp only [hdrop, ih, hwords]
        rfl

theorem mem_splitOnP {p : UInt8 → Bool} {w : List UInt8} (hw : w ∈ xs.splitOnP p) (hc : c ∈ w) :
    c ∈ xs := by
  induction xs generalizing w with
  | nil =>
    rw [List.splitOnP_nil, List.mem_singleton] at hw
    exact hw ▸ hc
  | cons x xs ih =>
    rw [List.splitOnP_cons_eq_if_modifyHead] at hw
    split at hw
    · rcases List.mem_cons.mp hw with rfl | hw
      · cases hc
      · exact List.mem_cons_of_mem _ (ih hw hc)
    · obtain ⟨first, others, hsplit⟩ := List.exists_cons_of_ne_nil (List.splitOnP_ne_nil p xs)
      rw [hsplit, List.modifyHead_cons, List.mem_cons] at hw
      rcases hw with rfl | hw
      · rcases List.mem_cons.mp hc with rfl | hc
        · exact List.mem_cons_self
        · exact List.mem_cons_of_mem _ (ih (hsplit ▸ List.mem_cons_self) hc)
      · exact List.mem_cons_of_mem _ (ih (hsplit ▸ List.mem_cons_of_mem _ hw) hc)

/-- The characters of a word are in the line. -/
theorem mem_words {w line : List UInt8} (hw : w ∈ words line) (hc : c ∈ w) : c ∈ line :=
  mem_splitOnP (List.mem_filter.mp hw).1 hc

end Plak1a.Command.Macros
