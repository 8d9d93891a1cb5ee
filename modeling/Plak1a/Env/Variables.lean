import Plak1a.Env.Rewrite
import Plak1a.Lib.Run

/-!
# The environment as a finite map

`define` is what a definition is for: the variable of the name is replaced by one behind all
others, if there is room. `setenv` does this to the data, in place.
-/

namespace Plak1a.Env.Variables

open Data Entries Setenv Rewrite Boot.Crc32 Lib

variable {data : EnvData} {board : Board} {s t : EnvT} {name name' : CString}
  {vals : List CString}

/-- Variables of different names. -/
structure Vars where
  entries : List Entry
  distinct : Keyed.Distinct Entry.name entries

def Vars.lookup (vars : Vars) (name : List UInt8) : Option (List UInt8) :=
  (Keyed.find Entry.name vars.entries name).map Entry.value

def Vars.erase (vars : Vars) (name : List UInt8) : Vars :=
  ⟨Keyed.erase Entry.name vars.entries name, vars.distinct.erase name⟩

/-- The values with a blank between them. -/
def joined (vals : List CString) : List UInt8 := [0x20].intercalate (vals.map CString.chars)

theorem joined_noNul (vals : List CString) : 0 ∉ joined vals := by
  induction vals with
  | nil => exact List.not_mem_nil
  | cons val vals ih =>
    cases vals with
    | nil =>
      rw [joined, List.map_cons, List.map_nil, List.intercalate_singleton]
      exact val.noNul
    | cons val' vals =>
      rw [joined, List.map_cons, List.map_cons, List.intercalate_cons_cons, List.mem_append,
        List.mem_append, not_or, not_or]
      exact ⟨⟨val.noNul, by decide⟩, ih⟩

/-- The variable that the arguments define. -/
def entryOf (name : CString) (hname : equals ∉ name.chars) (vals : List CString) : Entry where
  name := name.chars
  value := joined vals
  nameOk := fun _ hc => ⟨fun h0 => name.noNul (h0 ▸ hc), fun heq => hname (heq ▸ hc)⟩
  valueOk := joined_noNul vals

theorem entryOf_text (hname : equals ∉ name.chars) (hvals : vals ≠ []) :
    (entryOf name hname vals).text =
      name.chars ++ values equals (vals.map CString.chars) := by
  obtain ⟨val, vals, rfl⟩ := List.exists_cons_of_ne_nil hvals
  rw [List.map_cons, values_eq]
  rfl

/-- Put `e` behind the others in place of the variable of its name. -/
def Vars.replace (vars : Vars) (e : Entry) : Vars :=
  ⟨Keyed.erase Entry.name vars.entries e.name ++ [e],
    (vars.distinct.erase e.name).append (Keyed.not_mem_erase vars.distinct e.name)⟩

/-- There is no room for a definition even without the old one. -/
def Vars.full (vars : Vars) (name : CString) (vals : List CString) : Prop :=
  envSize < (encode (vars.erase name.chars).entries).length +
    needed name.chars (vals.map CString.chars)

/-- A definition that is refused: the name has a `'='`, or the old one may not be replaced. -/
def Vars.refused (board : Board) (vars : Vars) (name : CString) (vals : List CString) : Prop :=
  equals ∈ name.chars ∨ (vars.lookup name.chars).isSome ∧
    mayReplace board name.chars (vals.map CString.chars) = false

instance (vars : Vars) (name : CString) (vals : List CString) :
    Decidable (vars.full name vals) := Nat.decLt _ _

instance (board : Board) (vars : Vars) (name : CString) (vals : List CString) :
    Decidable (vars.refused board name vals) := inferInstanceAs (Decidable (_ ∨ _))

/-- What a call with these arguments means. -/
def Vars.define (board : Board) (vars : Vars) (name : CString) (vals : List CString) :
    Nat × Vars :=
  if h : vars.refused board name vals then (1, vars)
  else if vals = [] then (0, vars.erase name.chars)
  else if vars.full name vals then (1, vars.erase name.chars)
  else (0, vars.replace (entryOf name (fun hname => h (.inl hname)) vals))

variable {vars : Vars}

theorem Vars.define_refused (h : vars.refused board name vals) :
    vars.define board name vals = (1, vars) := dif_pos h

theorem Vars.define_erase (h : ¬vars.refused board name vals) (hvals : vals = []) :
    vars.define board name vals = (0, vars.erase name.chars) := by
  rw [Vars.define, dif_neg h, if_pos hvals]

theorem Vars.define_full (h : ¬vars.refused board name vals) (hvals : vals ≠ [])
    (hfull : vars.full name vals) :
    vars.define board name vals = (1, vars.erase name.chars) := by
  rw [Vars.define, dif_neg h, if_neg hvals, if_pos hfull]

theorem Vars.define_replace (h : ¬vars.refused board name vals) (hvals : vals ≠ [])
    (hfull : ¬vars.full name vals) :
    ∃ e, vars.define board name vals = (0, vars.replace e) ∧ e.name = name.chars ∧
      e.value = joined vals ∧ e.text = name.chars ++ values equals (vals.map CString.chars) := by
  have hname : equals ∉ name.chars := fun hname => h (.inl hname)
  refine ⟨entryOf name hname vals, ?_, rfl, rfl, entryOf_text hname hvals⟩
  rw [Vars.define, dif_neg h, if_neg hvals, if_neg hfull]

/-- The old definition is found, and deleted if there is one. -/
theorem search_delete (h : Encodes data vars.entries) (hname : equals ∉ name.chars) :
    ∃ found data', search data name.chars envSize 0 = some found ∧
      found.isSome = (vars.lookup name.chars).isSome ∧
      deleteOld data found = some data' ∧
      Encodes data' (vars.erase name.chars).entries := by
  have hkey : key name.chars = name.chars := key_of_not_mem hname
  cases hfind : Keyed.find Entry.name vars.entries name.chars with
  | none =>
    refine ⟨none, data, search_none h (hkey.symm ▸ hfind), ?_, rfl, ?_⟩
    · rw [Vars.lookup, hfind]
      rfl
    · show Encodes data (Keyed.erase ..)
      rw [Keyed.erase_of_find_none hfind]
      exact h
  | some e =>
    obtain ⟨pre, post, hes, herase, he, hpre⟩ := Keyed.find_eq_some hfind
    rw [hes] at h
    obtain ⟨data', hdelete, hencodes⟩ := delete_of_encodes h
    rw [← hkey] at he hpre
    refine ⟨_, data', search_some h he hpre, ?_, hdelete, ?_⟩
    · rw [Vars.lookup, hfind]
      rfl
    · show Encodes data' (Keyed.erase ..)
      rw [herase]
      exact hencodes

/-- A call of `setenv` does to the data what the definition means. -/
theorem setenv_of_encodes (h : Encodes s.data vars.entries) (board : Board) (name : CString)
    (vals : List CString) :
    ∃ t, setenv board s name vals = some ((vars.define board name vals).1, t) ∧
      Encodes t.data (vars.define board name vals).2.entries ∧
      t.crc = if (vars.define board name vals).1 = 0 then crc32 0 (dataBytes t.data)
        else s.crc := by
  by_cases hname : equals ∈ name.chars
  · rw [Vars.define_refused (.inl hname)]
    exact ⟨s, setenv_equals hname, h, rfl⟩
  obtain ⟨found, data', hsearch, hfound, hdelete, hencodes⟩ := search_delete h hname
  have hrefused : vars.refused board name vals ↔
      (found.isSome && !mayReplace board name.chars (vals.map CString.chars)) = true := by
    rw [Bool.and_eq_true, Bool.not_eq_true', hfound]
    exact or_iff_right hname
  by_cases hkeep : vars.refused board name vals
  · rw [Vars.define_refused hkeep]
    exact ⟨s, setenv_kept hname hsearch (hrefused.mp hkeep), h, rfl⟩
  have hcall := setenv_deleted hname hsearch (hrefused.not.mp hkeep) hdelete
  by_cases hvals : vals = []
  · rw [Vars.define_erase hkeep hvals, hcall, if_pos hvals]
    exact ⟨_, rfl, hencodes, rfl⟩
  by_cases hfull : vars.full name vals
  · rw [Vars.define_full hkeep hvals hfull, hcall, if_neg hvals, append_overflow hencodes hfull]
    exact ⟨_, rfl, hencodes, rfl⟩
  · obtain ⟨e, hdefine, hename, -, htext⟩ := Vars.define_replace hkeep hvals hfull
    rw [← hename] at htext
    have hroom := Nat.le_of_not_lt hfull
    rw [← hename] at hroom
    obtain ⟨data'', happend, hnew⟩ := append_of_encodes (hename ▸ hencodes) htext hroom
    rw [hdefine, hcall, if_neg hvals, ← hename, happend]
    exact ⟨_, rfl, hnew, rfl⟩

theorem Vars.lookup_erase_self (name : List UInt8) : (vars.erase name).lookup name = none := by
  rw [Vars.lookup, Vars.erase, Keyed.find_erase_self vars.distinct]
  rfl

theorem Vars.lookup_erase_of_ne {k nm : List UInt8} (h : k ≠ nm) :
    (vars.erase nm).lookup k = vars.lookup k := by
  rw [Vars.lookup, Vars.erase, Keyed.find_erase_of_ne h]
  rfl

theorem Vars.lookup_replace_self (e : Entry) : (vars.replace e).lookup e.name = some e.value := by
  rw [Vars.lookup, Vars.replace,
    Keyed.find_append_self (Keyed.find_erase_self vars.distinct e.name)]
  rfl

theorem Vars.lookup_replace_of_ne {e : Entry} {k : List UInt8} (h : k ≠ e.name) :
    (vars.replace e).lookup k = vars.lookup k := by
  rw [Vars.lookup, Vars.replace, Keyed.find_append_of_ne h, Keyed.find_erase_of_ne h]
  rfl

/-- Nothing but the variable of the name is another one after the call. -/
theorem Vars.lookup_define (k : List UInt8) :
    (vars.define board name vals).2.lookup k =
      if k = name.chars ∧ ¬vars.refused board name vals then
        if vals = [] ∨ vars.full name vals then none else some (joined vals)
      else vars.lookup k := by
  by_cases hrefused : vars.refused board name vals
  · rw [Vars.define_refused hrefused, if_neg (fun h => h.2 hrefused)]
  by_cases hvals : vals = []
  · rw [Vars.define_erase hrefused hvals]
    by_cases hk : k = name.chars
    · rw [hk, if_pos ⟨rfl, hrefused⟩, if_pos (.inl hvals), Vars.lookup_erase_self]
    · rw [if_neg (fun h => hk h.1), Vars.lookup_erase_of_ne hk]
  by_cases hfull : vars.full name vals
  · rw [Vars.define_full hrefused hvals hfull]
    by_cases hk : k = name.chars
    · rw [hk, if_pos ⟨rfl, hrefused⟩, if_pos (.inr hfull), Vars.lookup_erase_self]
    · rw [if_neg (fun h => hk h.1), Vars.lookup_erase_of_ne hk]
  · obtain ⟨e, hdefine, hname, hvalue, -⟩ := Vars.define_replace hrefused hvals hfull
    rw [hdefine]
    by_cases hk : k = name.chars
    · rw [hk, if_pos ⟨rfl, hrefused⟩, if_neg (not_or.mpr ⟨hvals, hfull⟩), ← hname, ← hvalue,
        Vars.lookup_replace_self]
    · rw [if_neg (fun h => hk h.1), Vars.lookup_replace_of_ne (hname.symm ▸ hk)]

/-- The result of a definition. -/
theorem Vars.define_eq_zero : (vars.define board name vals).1 = 0 ↔
    ¬vars.refused board name vals ∧ (vals = [] ∨ ¬vars.full name vals) := by
  by_cases hrefused : vars.refused board name vals
  · rw [Vars.define_refused hrefused]
    exact ⟨nofun, fun h => absurd hrefused h.1⟩
  by_cases hvals : vals = []
  · rw [Vars.define_erase hrefused hvals]
    exact ⟨fun _ => ⟨hrefused, .inl hvals⟩, fun _ => rfl⟩
  by_cases hfull : vars.full name vals
  · rw [Vars.define_full hrefused hvals hfull]
    exact ⟨nofun, fun h => absurd hfull (h.2.resolve_left hvals)⟩
  · obtain ⟨e, hdefine, -⟩ := Vars.define_replace hrefused hvals hfull
    rw [hdefine]
    exact ⟨fun _ => ⟨hrefused, .inr hfull⟩, fun _ => rfl⟩

theorem getenv_eq_lookup (h : Encodes data vars.entries) (name : CString) :
    getenv data name = some (vars.lookup (key name.chars)) := getenv_of_encodes h name

/-- The result of a call, and what each name stands for afterwards. A definition that does not
fit takes the old one with it. -/
theorem getenv_setenv (h : Encodes s.data vars.entries) (board : Board) (name : CString)
    (vals : List CString) :
    ∃ rc t, setenv board s name vals = some (rc, t) ∧
      (rc = 0 ↔ ¬vars.refused board name vals ∧ (vals = [] ∨ ¬vars.full name vals)) ∧
      ∀ name', getenv t.data name' =
        if key name'.chars = name.chars ∧ ¬vars.refused board name vals then
          some (if vals = [] ∨ vars.full name vals then none else some (joined vals))
        else getenv s.data name' := by
  obtain ⟨t, hcall, hencodes, -⟩ := setenv_of_encodes h board name vals
  refine ⟨_, t, hcall, Vars.define_eq_zero, ?_⟩
  intro name'
  rw [getenv_eq_lookup hencodes, getenv_eq_lookup h, Vars.lookup_define, apply_ite some]

/-- What `memset` leaves. -/
def cleared : EnvT := ⟨0, fun _ => 0⟩

def Vars.empty : Vars := ⟨[], List.nodup_nil⟩

theorem cleared_encodes : Encodes cleared.data Vars.empty.entries where
  holds := Memory.holds_cons.mpr ⟨rfl, Memory.holds_cons.mpr ⟨rfl, Memory.holds_nil _ _⟩⟩
  fits := by decide

/-- Every device is accepted. -/
def easyBoard : Board := ⟨fun _ _ => true, []⟩

/-- `setenv a 1 2` -/
theorem getenv_setenv_new :
    let name : CString := ⟨[0x61], by decide⟩
    let vals : List CString := [⟨[0x31], by decide⟩, ⟨[0x32], by decide⟩]
    ∃ t, setenv easyBoard cleared name vals = some (0, t) ∧
      getenv t.data name = some (some [0x31, 0x20, 0x32]) := by
  obtain ⟨rc, t, hcall, hrc, hget⟩ := getenv_setenv cleared_encodes
    easyBoard ⟨[0x61], by decide⟩ [⟨[0x31], by decide⟩, ⟨[0x32], by decide⟩]
  refine ⟨t, ?_, ?_⟩
  · rw [hcall, hrc.mpr (by decide)]
  · rw [hget, if_pos (by decide), if_neg (by decide)]
    rfl

/-- A call of `setenv`: what the rest of the boot loader answers, and the arguments. -/
structure Call where
  board : Board
  name : CString
  vals : List CString

def call (s : EnvT) (c : Call) : Option EnvT := (setenv c.board s c.name c.vals).map Prod.snd

def Vars.defineAll (vars : Vars) (calls : List Call) : Vars :=
  calls.foldl (fun vars c => (vars.define c.board c.name c.vals).2) vars

/-- A run of calls stays within the data and leaves what its definitions mean. -/
theorem run_encodes (h : Encodes s.data vars.entries) (calls : List Call) :
    ∃ t, Run.exec call s calls = some t ∧ Encodes t.data (vars.defineAll calls).entries := by
  induction calls generalizing s vars with
  | nil => exact ⟨s, rfl, h⟩
  | cons c calls ih =>
    obtain ⟨t, hcall, hencodes, -⟩ := setenv_of_encodes h c.board c.name c.vals
    have hstep : call s c = some t := by
      rw [call, hcall]
      rfl
    rw [Run.exec_cons_of_step hstep]
    exact ih hencodes

end Plak1a.Env.Variables
