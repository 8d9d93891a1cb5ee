import Mathlib.Algebra.GroupWithZero.Nat
import Plak1a.Boot.Crc32
import Plak1a.Boot.Strtoul
import Plak1a.Env.Data

/-!
# `_do_setenv` of the boot loader

The copy of the environment in RAM is changed in place. `CONFIG_ENV_OVERWRITE` is set. What is
done for some names behind the change (`ethaddr`, `ipaddr`, `loadaddr`, `bootfile`) does not
concern the environment.
-/

namespace Plak1a.Env.Setenv

open Data Boot.Crc32 Boot.Strtoul

/-- `env_t` -/
structure EnvT where
  crc : UInt32
  data : EnvData

/-- The bytes that are summed. -/
def dataBytes (data : EnvData) : List UInt8 := (List.range envSize).map data

/-- `env_crc_update` -/
def envCrcUpdate (data : EnvData) : EnvT := ⟨crc32 0 (dataBytes data), data⟩

/-- What the function is told by the rest of the boot loader: whether `console_assign` succeeds
for a console and a device, and the string at the address 0, which stands in for a value that is
missing where the code does not test for it. -/
structure Board where
  consoleAssign : (console : Nat) → (device : List UInt8) → Bool
  atNull : List UInt8

/-- `CFG_BAUDRATE_TABLE` -/
def baudrateTable : List UInt32 := [9600, 19200, 38400, 57600, 115200]

def stdinName : List UInt8 := [0x73, 0x74, 0x64, 0x69, 0x6e]
def stdoutName : List UInt8 := [0x73, 0x74, 0x64, 0x6f, 0x75, 0x74]
def stderrName : List UInt8 := [0x73, 0x74, 0x64, 0x65, 0x72, 0x72]
def baudrateName : List UInt8 := [0x62, 0x61, 0x75, 0x64, 0x72, 0x61, 0x74, 0x65]

/-- `console`; `none` for -1. -/
def console (name : List UInt8) : Option Nat :=
  if name = stdinName then some 0
  else if name = stdoutName then some 1
  else if name = stderrName then some 2
  else none

/-- The tests of an existing definition before it is deleted; `vals` are the arguments from
`argv[2]` on. -/
def mayReplace (board : Board) (name : List UInt8) (vals : List (List UInt8)) : Bool :=
  (match console name with
    | none => true
    | some console => vals.head?.any (board.consoleAssign console)) &&
  (name ≠ baudrateName ||
    baudrateTable.contains (simpleStrtoul (vals.headD board.atNull) 10).1)

/-- The loop that shifts the definitions behind the deleted one; the second result is `env`. -/
def shiftDown : (rounds : Nat) → EnvData → (env nxt : Nat) → Option (EnvData × Nat)
  | 0, _, _, _ => none
  | n + 1, data, env, nxt => do
    let c ← get data nxt
    let data ← put data env c
    if c ≠ 0 then shiftDown n data (env + 1) (nxt + 1)
    else
      let d ← get data (nxt + 1)
      if d = 0 then some (data, env) else shiftDown n data (env + 1) (nxt + 1)

/-- Delete the definition at `env`, whose NUL is at `nxt`. -/
def delete (data : EnvData) (env nxt : Nat) : Option EnvData := do
  let c ← get data (nxt + 1)
  if c = 0 then
    -- Behind the last one that is left, or two NULs if there is none.
    if 0 < env then put data env 0
    else
      let data ← put data env 0
      put data (env + 1) 0
  else
    let (data, env) ← shiftDown envSize data env (nxt + 1)
    put data (env + 1) 0

/-- The old definition is deleted, if there is one. -/
def deleteOld (data : EnvData) : Option Found → Option EnvData
  | none => some data
  | some found => delete data found.env found.nxt

/-- `for (env=env_data; *env || *(env+1); ++env)` -/
def listEnd (data : EnvData) : (rounds env : Nat) → Option Nat
  | 0, _ => none
  | n + 1, env => do
    let c ← get data env
    if c ≠ 0 then listEnd data n (env + 1)
    else
      let d ← get data (env + 1)
      if d = 0 then some env else listEnd data n (env + 1)

/-- A loop that copies a string with its NUL. -/
def putString : EnvData → (env : Nat) → List UInt8 → Option EnvData
  | data, env, [] => put data env 0
  | data, env, c :: s => do
    let data ← put data env c
    putString data (env + 1) s

/-- The loop over the values: `'='` before the first one, `' '` before the others. The second
result is `env`, which is left at the last NUL. -/
def putValues : EnvData → (env : Nat) → (separator : UInt8) → List (List UInt8) →
    Option (EnvData × Nat)
  | data, env, _, [] => some (data, env)
  | data, env, separator, val :: vals => do
    let data ← put data env separator
    let data ← putString data (env + 1) val
    putValues data (env + 1 + val.length) 0x20 vals

/-- `len` -/
def needed (name : List UInt8) (vals : List (List UInt8)) : Nat :=
  name.length + 2 + (vals.map fun val => val.length + 1).sum

/-- Append a definition; `none` inside for an overflow. -/
def append (data : EnvData) (name : List UInt8) (vals : List (List UInt8)) :
    Option (Option EnvData) := do
  let env ← listEnd data envSize 0
  let env := if 0 < env then env + 1 else env
  if needed name vals > envSize - env then some none
  else
    let data ← putString data env name
    let (data, env) ← putValues data (env + name.length) equals vals
    (put data (env + 1) 0).map some

/-- `_do_setenv`: the result, and the environment afterwards. -/
def setenv (board : Board) (s : EnvT) (name : CString) (vals : List CString) :
    Option (Nat × EnvT) := do
  let chars := vals.map CString.chars
  if equals ∈ name.chars then some (1, s)
  else
    let found ← search s.data name.chars envSize 0
    if found.isSome && !mayReplace board name.chars chars then some (1, s)
    else
      let data ← deleteOld s.data found
      if vals = [] then some (0, envCrcUpdate data)
      else
        match ← append data name.chars chars with
        -- The definition is gone, and the sum is not updated.
        | none => some (1, { s with data := data })
        | some data => some (0, envCrcUpdate data)

variable {data : EnvData} {env i n nxt : Nat}

theorem shiftDown_stop (hlt : env < nxt) (h : nxt + 1 < envSize) (hc : data nxt = 0)
    (hd : data (nxt + 1) = 0) :
    shiftDown (n + 1) data env nxt = some (Function.update data env 0, env) := by
  have hnxt : Function.update data env 0 (nxt + 1) = 0 := by
    rw [Function.update_of_ne (by omega), hd]
  rw [shiftDown, get_of_lt (by omega), hc]
  show ((put data env 0).bind fun data => _) = _
  rw [put_of_lt (by omega)]
  show ((get (Function.update data env 0) (nxt + 1)).bind fun d => _) = _
  rw [get_of_lt h, hnxt]
  rfl

theorem shiftDown_more (hlt : env < nxt) (h : nxt + 1 < envSize)
    (hne : data nxt = 0 → data (nxt + 1) ≠ 0) :
    shiftDown (n + 1) data env nxt =
      shiftDown n (Function.update data env (data nxt)) (env + 1) (nxt + 1) := by
  rw [shiftDown, get_of_lt (by omega)]
  show ((put data env (data nxt)).bind fun data => _) = _
  rw [put_of_lt (by omega)]
  by_cases hc : data nxt = 0
  · have hnxt : Function.update data env (data nxt) (nxt + 1) ≠ 0 := by
      rw [Function.update_of_ne (by omega)]
      exact hne hc
    refine (if_neg (not_not_intro hc)).trans ?_
    show ((get (Function.update data env (data nxt)) (nxt + 1)).bind fun d => _) = _
    rw [get_of_lt h]
    exact if_neg hnxt
  · exact if_pos hc

theorem listEnd_stop (h : i + 1 < envSize) (hc : data i = 0) (hd : data (i + 1) = 0) :
    listEnd data (n + 1) i = some i := by
  rw [listEnd, get_of_lt (by omega), get_of_lt h, hc, hd]
  rfl

theorem listEnd_more (h : i + 1 < envSize) (hne : data i = 0 → data (i + 1) ≠ 0) :
    listEnd data (n + 1) i = listEnd data n (i + 1) := by
  rw [listEnd, get_of_lt (by omega), get_of_lt h]
  by_cases hc : data i = 0
  · exact (if_neg (not_not_intro hc)).trans (if_neg (hne hc))
  · exact if_pos hc

variable {board : Board} {s : EnvT} {name : CString} {vals : List CString} {found : Option Found}
  {data' : EnvData}

theorem setenv_equals (h : equals ∈ name.chars) : setenv board s name vals = some (1, s) :=
  if_pos h

theorem setenv_kept (hname : equals ∉ name.chars)
    (hsearch : search s.data name.chars envSize 0 = some found)
    (h : (found.isSome && !mayReplace board name.chars (vals.map CString.chars)) = true) :
    setenv board s name vals = some (1, s) := by
  refine (if_neg hname).trans ?_
  rw [hsearch]
  exact if_pos h

theorem setenv_deleted (hname : equals ∉ name.chars)
    (hsearch : search s.data name.chars envSize 0 = some found)
    (h : ¬(found.isSome && !mayReplace board name.chars (vals.map CString.chars)) = true)
    (hdelete : deleteOld s.data found = some data') :
    setenv board s name vals =
      if vals = [] then some (0, envCrcUpdate data')
      else (append data' name.chars (vals.map CString.chars)).map fun
        | none => (1, { s with data := data' })
        | some data => (0, envCrcUpdate data) := by
  refine (if_neg hname).trans ?_
  rw [hsearch]
  refine (if_neg h).trans ?_
  rw [hdelete]
  refine if_congr Iff.rfl rfl ?_
  cases append data' name.chars (vals.map CString.chars) with
  | none => rfl
  | some result => cases result <;> rfl

end Plak1a.Env.Setenv
