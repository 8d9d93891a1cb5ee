import Mathlib.Data.List.TakeWhile
import Plak1a.Env.Data
import Plak1a.Lib.Keyed
import Plak1a.Lib.Memory

/-!
# What the environment stands for

A list of variables in the order of their definition. The data of an environment start with
their strings and the closing NUL; what lies behind it does not matter.
-/

namespace Plak1a.Env.Entries

open Data Lib Lib.Memory

/-- A variable: its name has no `'='`, neither string a NUL. -/
structure Entry where
  name : List UInt8
  value : List UInt8
  nameOk : ∀ c ∈ name, c ≠ 0 ∧ c ≠ equals
  valueOk : 0 ∉ value

/-- `name=value` -/
def Entry.text (e : Entry) : List UInt8 := e.name ++ equals :: e.value

def encode (es : List Entry) : List UInt8 := es.flatMap fun e => e.text ++ [0]

/-- The NUL that closes the list; a list without variables is closed by two. -/
def closing (es : List Entry) : List UInt8 := if es = [] then [0, 0] else [0]

/-- The data hold the variables. -/
structure Encodes (data : EnvData) (es : List Entry) : Prop where
  holds : Holds data 0 (encode es ++ closing es)
  fits : (encode es ++ closing es).length ≤ envSize

/-- The name that the code compares: a string may be given as `name=value`, too. -/
def key (name : List UInt8) : List UInt8 := name.takeWhile (· ≠ equals)

variable {data : EnvData} {es pre post : List Entry} {e : Entry} {name s rest : List UInt8}
  {i n p : Nat}

theorem Entry.text_noNul (e : Entry) : 0 ∉ e.text := by
  intro h
  rcases List.mem_append.mp h with hname | hvalue
  · exact (e.nameOk 0 hname).1 rfl
  · rcases List.mem_cons.mp hvalue with heq | hvalue
    · exact absurd heq (by decide)
    · exact e.valueOk hvalue

@[simp] theorem encode_nil : encode [] = [] := rfl

@[simp] theorem encode_cons (e : Entry) (es : List Entry) :
    encode (e :: es) = e.text ++ 0 :: encode es := by
  rw [encode, List.flatMap_cons, List.append_assoc]
  rfl

@[simp] theorem encode_append (es es' : List Entry) :
    encode (es ++ es') = encode es ++ encode es' := List.flatMap_append

theorem length_le_encode (es : List Entry) : es.length ≤ (encode es).length := by
  induction es with
  | nil => exact Nat.le_refl 0
  | cons e es ih =>
    rw [encode_cons, List.length_append, List.length_cons, List.length_cons]
    omega

theorem closing_eq (es : List Entry) : ∃ rest, closing es = 0 :: rest := by
  rw [closing]
  split
  · exact ⟨[0], rfl⟩
  · exact ⟨[], rfl⟩

theorem key_of_not_mem (h : equals ∉ name) : key name = name := by
  rw [key, List.takeWhile_eq_self_iff]
  exact fun c hc => decide_eq_true fun heq => h (heq ▸ hc)

theorem key_cons {c : UInt8} (h : c ≠ equals) (name : List UInt8) :
    key (c :: name) = c :: key name := by
  rw [key, List.takeWhile_cons, if_pos (decide_eq_true h)]
  rfl

theorem key_equals (name : List UInt8) : key (equals :: name) = [] := rfl

theorem strEnd_of_holds (h : Holds data p (s ++ 0 :: rest)) (hs : 0 ∉ s)
    (hfits : p + s.length < envSize) (hn : s.length < n) :
    strEnd data n p = some (p + s.length) := by
  induction s generalizing n p with
  | nil =>
    obtain ⟨n, rfl⟩ := Nat.exists_eq_succ_of_ne_zero (Nat.ne_of_gt hn)
    exact strEnd_stop hfits (holds_cons.mp h).1
  | cons c s ih =>
    obtain ⟨n, rfl⟩ := Nat.exists_eq_succ_of_ne_zero (Nat.ne_of_gt (Nat.zero_lt_of_lt hn))
    obtain ⟨hc, hrest⟩ := holds_cons.mp h
    obtain ⟨hc0, hs⟩ := not_or.mp (List.mem_cons.not.mp hs)
    rw [List.length_cons] at hfits hn ⊢
    rw [strEnd_more (by omega) (fun h0 => hc0 (h0.symm.trans hc)),
      ih hrest hs (by omega) (by omega)]
    congr 1
    omega

theorem envmatch_of_holds {nm : List UInt8} (h : Holds data p (nm ++ equals :: rest))
    (hnm : ∀ c ∈ nm, c ≠ 0 ∧ c ≠ equals) (hfits : p + nm.length < envSize) :
    envmatch data name p = some (if key name = nm then some (p + nm.length + 1) else none) := by
  induction nm generalizing name p with
  | nil =>
    have hp : data p = equals := (holds_cons.mp h).1
    have hi : p < envSize := hfits
    cases name with
    | nil =>
      rw [envmatch_nil hi (by rw [hp]; decide), hp]
      rfl
    | cons ch name =>
      by_cases hch : ch = equals
      · rw [hch, envmatch_equals hi hp]
        rfl
      · rw [envmatch_ne hi (fun heq => hch (heq.trans hp)), key_cons hch]
        rfl
  | cons c nm ih =>
    obtain ⟨hp, hrest⟩ := holds_cons.mp h
    obtain ⟨hc0, hceq⟩ := hnm c List.mem_cons_self
    rw [List.length_cons] at hfits ⊢
    have hi : p < envSize := by omega
    cases name with
    | nil =>
      rw [envmatch_nil hi (by rw [hp]; exact hc0), hp, if_neg hceq]
      rfl
    | cons ch name =>
      by_cases hch : ch = c
      · subst hch
        rw [envmatch_more hi hp hceq,
          ih hrest (fun d hd => hnm d (List.mem_cons_of_mem ch hd)) (by omega), key_cons hceq]
        by_cases hkey : key name = nm
        · rw [if_pos hkey, if_pos (by rw [hkey])]
          congr 2
          omega
        · rw [if_neg hkey, if_neg (fun heq => hkey (List.cons.inj heq).2)]
      · have hkey : key (ch :: name) ≠ c :: nm := by
          by_cases heq : ch = equals
          · rw [heq, key_equals]
            nofun
          · rw [key_cons heq]
            exact fun h => hch (List.cons.inj h).1
        rw [envmatch_ne hi (fun heq => hch (heq.trans hp)), if_neg hkey]

/-- What the code finds out about a variable at `p`. -/
theorem Entry.read (h : Holds data p (e.text ++ 0 :: rest))
    (hfits : p + e.text.length < envSize) (name : List UInt8) :
    p < envSize ∧ data p ≠ 0 ∧ strEnd data envSize p = some (p + e.text.length) ∧
      envmatch data name p =
        some (if key name = e.name then some (p + e.name.length + 1) else none) := by
  have hmatch : Holds data p (e.name ++ equals :: (e.value ++ 0 :: rest)) := by
    rw [Entry.text, List.append_assoc] at h
    exact h
  have hlength : e.text.length = e.name.length + 1 + e.value.length := by
    rw [Entry.text, List.length_append, List.length_cons]
    omega
  refine ⟨by omega, ?_, strEnd_of_holds h e.text_noNul hfits (by omega),
    envmatch_of_holds hmatch e.nameOk (by omega)⟩
  intro h0
  apply e.text_noNul
  have hne : e.text ≠ [] := by
    rw [← List.length_pos_iff, hlength]
    omega
  obtain ⟨c, s, hcs⟩ := List.exists_cons_of_ne_nil hne
  rw [hcs] at h ⊢
  rw [← (holds_cons.mp h).1, h0]
  exact List.mem_cons_self

/-- The loop passes over variables of other names. -/
theorem search_append (h : Holds data p (encode pre ++ rest))
    (hfits : p + (encode pre).length ≤ envSize) (hpre : ∀ e ∈ pre, e.name ≠ key name) :
    search data name (pre.length + n) p = search data name n (p + (encode pre).length) := by
  induction pre generalizing p with
  | nil =>
    rw [List.length_nil, Nat.zero_add]
    rfl
  | cons e pre ih =>
    rw [encode_cons, List.append_assoc, List.cons_append] at h
    rw [encode_cons, List.length_append, List.length_cons] at hfits ⊢
    obtain ⟨hlt, hc, hnxt, hmatch⟩ := e.read h (by omega) name
    rw [if_neg (fun heq => hpre e List.mem_cons_self heq.symm)] at hmatch
    rw [List.length_cons, Nat.add_right_comm pre.length 1, search_next hlt hc hnxt hmatch,
      ih _ (by omega) fun e he => hpre e (List.mem_cons_of_mem _ he)]
    · congr 1
      omega
    · rw [Nat.add_assoc]
      exact ((holds_append.mp h).2 |> holds_cons.mp).2

theorem search_none (h : Encodes data es) (hnone : Keyed.find Entry.name es (key name) = none) :
    search data name envSize 0 = some none := by
  have hall : ∀ e ∈ es, e.name ≠ key name := fun e he heq =>
    Keyed.find_eq_none.mp hnone (heq ▸ List.mem_map_of_mem he)
  obtain ⟨rest, hclosing⟩ := closing_eq es
  have hholds := h.holds
  have hfits := h.fits
  rw [hclosing] at hholds
  rw [hclosing, List.length_append, List.length_cons] at hfits
  have hle := length_le_encode es
  obtain ⟨n, hn⟩ := Nat.exists_eq_add_of_lt (show es.length < envSize by omega)
  rw [hn, Nat.add_assoc, search_append hholds (by omega) hall, Nat.zero_add]
  apply search_stop (by omega)
  rw [← Nat.zero_add (encode es).length]
  exact (holds_cons.mp (holds_append.mp hholds).2).1

theorem search_some (h : Encodes data (pre ++ e :: post)) (he : e.name = key name)
    (hpre : ∀ e ∈ pre, e.name ≠ key name) :
    search data name envSize 0 =
      some (some ⟨(encode pre).length, (encode pre).length + e.text.length,
        (encode pre).length + e.name.length + 1⟩) := by
  have hholds := h.holds
  have hfits := h.fits
  rw [encode_append, encode_cons, List.append_assoc] at hholds
  rw [encode_append, encode_cons, List.length_append, List.length_append, List.length_append,
    List.length_cons] at hfits
  have hle := length_le_encode pre
  obtain ⟨n, hn⟩ := Nat.exists_eq_add_of_lt (show pre.length < envSize by omega)
  have hentry : Holds data (encode pre).length (e.text ++ 0 :: (encode post ++
      closing (pre ++ e :: post))) := by
    have hrest := (holds_append.mp hholds).2
    rw [Nat.zero_add, List.append_assoc] at hrest
    exact hrest
  obtain ⟨hlt, hc, hnxt, hmatch⟩ := e.read hentry (by omega) name
  rw [if_pos he.symm] at hmatch
  rw [hn, Nat.add_assoc, search_append hholds (by omega) hpre, Nat.zero_add,
    search_found hlt hc hnxt hmatch]

theorem stringAt_of_holds (h : Holds data i (s ++ 0 :: rest)) (hs : 0 ∉ s)
    (hfits : i + s.length < envSize) : stringAt data i = some s := by
  rw [stringAt, strEnd_of_holds h hs hfits (by omega), Option.bind_eq_bind, Option.bind_some,
    Nat.add_sub_cancel_left]
  congr 1
  apply List.ext_getElem
  · rw [List.length_map, List.length_range']
  · intro k hk hk'
    rw [List.getElem_map, List.getElem_range', Nat.one_mul]
    exact h.left k hk'

/-- `getenv` finds the variable of the name. -/
theorem getenv_of_encodes (h : Encodes data es) (name : CString) :
    getenv data name = some ((Keyed.find Entry.name es (key name.chars)).map Entry.value) := by
  cases hfind : Keyed.find Entry.name es (key name.chars) with
  | none =>
    rw [getenv, search_none h hfind]
    rfl
  | some e =>
    obtain ⟨pre, post, rfl, -, hname, hpre⟩ := Keyed.find_eq_some hfind
    rw [getenv, search_some h hname hpre]
    have hholds := h.holds
    have hfits := h.fits
    rw [encode_append, encode_cons, Entry.text] at hholds
    rw [encode_append, encode_cons, Entry.text] at hfits
    simp only [List.append_assoc, List.cons_append] at hholds
    simp only [List.length_append, List.length_cons] at hfits
    have hvalue := (holds_cons.mp (holds_append.mp (holds_append.mp hholds).2).2).2
    rw [Nat.zero_add] at hvalue
    show (stringAt data _).map some = _
    rw [stringAt_of_holds hvalue e.valueOk (by omega)]
    rfl

end Plak1a.Env.Entries
