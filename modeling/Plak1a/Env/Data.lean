import Mathlib.Logic.Function.Basic

/-!
# The environment of the boot loader

A list of NUL-terminated `name=value` strings, closed by a second NUL. An index counts from the
start of the data. An access outside of them, or behind the end of a string, has no result;
`getenv` tests for one only after it has been made.
-/

namespace Plak1a.Env.Data

def cfgEnvSize : Nat := 1024

/-- `ENV_SIZE`: what the sum of four bytes leaves. -/
def envSize : Nat := cfgEnvSize - 4

abbrev EnvData := Nat → UInt8

/-- A C string, without its NUL. -/
structure CString where
  chars : List UInt8
  noNul : 0 ∉ chars

/-- `'='` -/
def equals : UInt8 := 0x3d

/-- `env_get_char` -/
def get (data : EnvData) (i : Nat) : Option UInt8 := if i < envSize then some (data i) else none

/-- `env_data[i] = c` -/
def put (data : EnvData) (i : Nat) (c : UInt8) : Option EnvData :=
  if i < envSize then some (Function.update data i c) else none

/-- `for (nxt=env; *nxt; ++nxt)` -/
def strEnd (data : EnvData) : (rounds nxt : Nat) → Option Nat
  | 0, _ => none
  | n + 1, nxt => do
    let c ← get data nxt
    if c = 0 then some nxt else strEnd data n (nxt + 1)

/-- `envmatch`: the index of the value if the names are the same. -/
def envmatch (data : EnvData) : (s1 : List UInt8) → (i2 : Nat) → Option (Option Nat)
  | [], i2 => do
    let c ← get data i2
    -- Two NULs are the same, too: the comparison goes on behind the name.
    if c = 0 then none
    else some (if c = equals then some (i2 + 1) else none)
  | ch :: s1, i2 => do
    let c ← get data i2
    if ch = c then
      if ch = equals then some (some (i2 + 1)) else envmatch data s1 (i2 + 1)
    else some none

/-- A variable that was found: where it starts, its NUL, and its value. -/
structure Found where
  env : Nat
  nxt : Nat
  oldval : Nat
deriving DecidableEq

/-- The loop that `getenv`, `getenv_r` and `_do_setenv` look for a name with. -/
def search (data : EnvData) (name : List UInt8) : (rounds env : Nat) → Option (Option Found)
  | 0, _ => none
  | n + 1, env => do
    let c ← get data env
    if c = 0 then some none
    else
      let nxt ← strEnd data envSize env
      match ← envmatch data name env with
      | some oldval => some (some ⟨env, nxt, oldval⟩)
      | none => search data name n (nxt + 1)

/-- The string that a pointer into the data stands for. -/
def stringAt (data : EnvData) (i : Nat) : Option (List UInt8) := do
  let nxt ← strEnd data envSize i
  some ((List.range' i (nxt - i)).map data)

/-- `getenv`: the value, if there is one. -/
def getenv (data : EnvData) (name : CString) : Option (Option (List UInt8)) := do
  match ← search data name.chars envSize 0 with
  | none => some none
  | some found => (stringAt data found.oldval).map some

attribute [simp] strEnd envmatch search

variable {data : EnvData} {name s1 : List UInt8} {ch : UInt8} {i n nxt : Nat}

theorem get_of_lt (h : i < envSize) : get data i = some (data i) := if_pos h

theorem put_of_lt (h : i < envSize) (c : UInt8) :
    put data i c = some (Function.update data i c) := if_pos h

theorem strEnd_stop (h : i < envSize) (hc : data i = 0) : strEnd data (n + 1) i = some i := by
  rw [strEnd, get_of_lt h, hc]
  rfl

theorem strEnd_more (h : i < envSize) (hc : data i ≠ 0) :
    strEnd data (n + 1) i = strEnd data n (i + 1) := by
  rw [strEnd, get_of_lt h]
  exact if_neg hc

theorem envmatch_nil (h : i < envSize) (hc : data i ≠ 0) :
    envmatch data [] i = some (if data i = equals then some (i + 1) else none) := by
  rw [envmatch, get_of_lt h]
  exact if_neg hc

theorem envmatch_ne (h : i < envSize) (hc : ch ≠ data i) :
    envmatch data (ch :: s1) i = some none := by
  rw [envmatch, get_of_lt h]
  exact if_neg hc

theorem envmatch_equals (h : i < envSize) (hc : data i = equals) :
    envmatch data (equals :: s1) i = some (some (i + 1)) := by
  rw [envmatch, get_of_lt h, hc]
  rfl

theorem envmatch_more (h : i < envSize) (hc : data i = ch) (hne : ch ≠ equals) :
    envmatch data (ch :: s1) i = envmatch data s1 (i + 1) := by
  rw [envmatch, get_of_lt h, hc]
  exact (if_pos rfl).trans (if_neg hne)

theorem search_stop (h : i < envSize) (hc : data i = 0) :
    search data name (n + 1) i = some none := by
  rw [search, get_of_lt h, hc]
  rfl

theorem search_next (h : i < envSize) (hc : data i ≠ 0) (hnxt : strEnd data envSize i = some nxt)
    (hmatch : envmatch data name i = some none) :
    search data name (n + 1) i = search data name n (nxt + 1) := by
  rw [search, get_of_lt h, hnxt, hmatch]
  exact if_neg hc

theorem search_found {oldval : Nat} (h : i < envSize) (hc : data i ≠ 0)
    (hnxt : strEnd data envSize i = some nxt)
    (hmatch : envmatch data name i = some (some oldval)) :
    search data name (n + 1) i = some (some ⟨i, nxt, oldval⟩) := by
  rw [search, get_of_lt h, hnxt, hmatch]
  exact if_neg hc

end Plak1a.Env.Data
