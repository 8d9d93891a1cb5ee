import Plak1a.Lcd.Ili9320
import Plak1a.Lib.Ledger

/-!
# What the ili932x modules hold

`ili932x_init` and `ili932xfb_init` acquire resources one after the other and go to a label
when one is refused; the labels fall through. Each function is its return value and the log
of what it acquired and released. The work queued by `ili932x_enable` counts as a resource
that `ili932x_disable` releases. A chip that is not found gives any other word for its code.
-/

namespace Plak1a.Lcd.Init

open Lib.Ledger Ili9320

inductive Resource
  /-- `lcd_ili932x` -/
  | device
  /-- `lcd_ili932x->membase` -/
  | membase
  /-- `ili932x_buffer` -/
  | buffer
  | workqueue
  /-- `ili932x_updating` -/
  | refresh
  | driver
  /-- `ili932xfb_device` -/
  | fbDevice
  /-- `ili932xfb_device` in the device tree -/
  | fbDeviceAdded
deriving DecidableEq

inductive Release
  | kfree
  | iounmap
  | vfree
  | freePage
  | destroyWorkqueue
  | disable
  | platformDriverUnregister
  | platformDevicePut
  | platformDeviceDel
deriving DecidableEq

/-- The release function for each resource. -/
def frees : Resource → Release
  | .device => .kfree
  | .membase => .iounmap
  | .buffer => .vfree
  | .workqueue => .destroyWorkqueue
  | .refresh => .disable
  | .driver => .platformDriverUnregister
  | .fbDevice => .platformDevicePut
  | .fbDeviceAdded => .platformDeviceDel

abbrev Log := List (Entry Resource Release)

def einval : Int := 22

def enomem : Int := 12

def enodev : Int := 19

/-- `ili932x_enable` -/
def enable (updating : Bool) : UInt8 × Log :=
  if updating then (1, []) else (0, [.acquire .refresh])

/-- `ili932x_disable` -/
def disable (updating : Bool) : Log :=
  if updating then [.release .disable .refresh] else []

/-- What the calls of `ili932x_init` answer; `code` is what the chip drives on the bus. -/
structure Calls where
  kmalloc : Bool
  ioremap : Bool
  vmalloc : Bool
  createWorkqueue : Bool
  code : UInt32

/-- `ili932x_chip_probe` -/
def chipProbe (code : UInt32) : Int :=
  let chipId := (lcdTo16Bit code).toUInt16
  if chipId = 0x9325 then 0
  else if chipId = 0x9320 then 0
  else -1

/-- `remap_failed` -/
def remapFailed : Log := [.release .kfree .device]

/-- `page_err` -/
def pageErr : Log := .release .iounmap .membase :: remapFailed

/-- `cachealloced` -/
def cacheAlloced : Log := .release .vfree .buffer :: pageErr

/-- `ili932x_init` -/
def init (c : Calls) : Int × Log :=
  if !c.kmalloc then (-enomem, [])
  else
    let log : Log := [.acquire .device]
    if !c.ioremap then (-1, log ++ remapFailed)
    else
      let log := log ++ [.acquire .membase]
      if !c.vmalloc then (-enomem, log ++ pageErr)
      else
        let log := log ++ [.acquire .buffer]
        if !c.createWorkqueue then (-einval, log ++ cacheAlloced)
        else
          let log := log ++ [.acquire .workqueue]
          if chipProbe c.code < 0 then (-einval, log ++ cacheAlloced)
          else (0, log)

/-- `ili932x_exit` -/
def exit (updating : Bool) : Log :=
  disable updating ++
    [.release .destroyWorkqueue .workqueue, .release .freePage .buffer, .release .kfree .buffer,
      .release .iounmap .membase, .release .kfree .device]

/-- What the calls of `ili932xfb_init` answer, but for `ili932x_enable`. -/
structure FbCalls where
  driverRegister : Int
  deviceAlloc : Bool
  deviceAdd : Int

/-- `platform_device_put`, which takes no device for nothing to do -/
def platformDevicePut (device : Bool) : Log :=
  if device then [.release .platformDevicePut .fbDevice] else []

/-- `ili932xfb_init` -/
def fbInit (inited updating : Bool) (c : FbCalls) : Int × Log :=
  if !inited then (-einval, [])
  else
    let (busy, log) := enable updating
    if busy ≠ 0 then (-enodev, log)
    else
      let ret := c.driverRegister
      if ret = 0 then
        let log := log ++ [.acquire .driver]
        let log := if c.deviceAlloc then log ++ [.acquire .fbDevice] else log
        let ret := if c.deviceAlloc then c.deviceAdd else -enomem
        if ret ≠ 0 then
          (ret, log ++ platformDevicePut c.deviceAlloc ++
            [.release .platformDriverUnregister .driver])
        else (ret, log ++ [.acquire .fbDeviceAdded])
      else (ret, log)

/-- `ili932xfb_exit`; `platform_device_unregister` is the first two. -/
def fbExit (updating : Bool) : Log :=
  [.release .platformDeviceDel .fbDeviceAdded, .release .platformDevicePut .fbDevice,
    .release .platformDriverUnregister .driver] ++ disable updating

/-- What `ili932x` holds once it is initialised, and the refresh. -/
def loaded (inited updating : Bool) : Finset Resource :=
  (if inited then {.device, .membase, .buffer, .workqueue} else ∅) ∪
    if updating then {.refresh} else ∅

/-- What `ili932xfb` acquires -/
def fbResources : Finset Resource := {.refresh, .driver, .fbDevice, .fbDeviceAdded}

/-- A call that fails leaves what was held, one that succeeds holds everything. -/
def Undone (r : Int × Log) (before acquired : Finset Resource) : Prop :=
  (r.1 ≠ 0 → settle frees r.2 before = some before) ∧
    (r.1 = 0 → settle frees r.2 before = some (before ∪ acquired))

/-- A held resource is released once and by its own function. -/
def ReleasedOnce (r : Resource) (log : Log) : Prop := settle frees (part r log) {r} = some ∅

variable {inited updating : Bool} {log : Log} {before acquired : Finset Resource} {ret : Int}

theorem undone_of_failed (hret : ret ≠ 0) (h : settle frees log before = some before) :
    Undone (ret, log) before acquired :=
  ⟨fun _ => h, fun h0 => absurd h0 hret⟩

theorem not_undone (hret : ret ≠ 0) (h : settle frees log before ≠ some before) :
    ¬ Undone (ret, log) before acquired :=
  fun hundone => h (hundone.1 hret)

theorem undone_of_succeeded (h : settle frees log before = some (before ∪ acquired)) :
    Undone (0, log) before acquired :=
  ⟨fun hret => absurd rfl hret, fun _ => h⟩

/-- The labels release in the reverse order. -/
theorem undone_unwind (hret : ret ≠ 0) (rs : List Resource) (hnodup : rs.Nodup) :
    Undone (ret, acquireAll Release rs ++ releaseAll frees rs.reverse) ∅ acquired :=
  undone_of_failed hret (settle_unwind hnodup fun _ _ => Finset.notMem_empty _)

/-- No label releases the workqueue, which only a failed chip probe finds. -/
theorem init_undone_iff (c : Calls) : Undone (init c) ∅ (loaded true false) ↔
    ¬ (c.kmalloc = true ∧ c.ioremap = true ∧ c.vmalloc = true ∧ c.createWorkqueue = true ∧
      chipProbe c.code < 0) := by
  obtain ⟨kmalloc, ioremap, vmalloc, createWorkqueue, code⟩ := c
  cases kmalloc with
  | false => exact iff_of_true (undone_unwind (by decide) [] (by decide)) fun h => nomatch h.1
  | true =>
  cases ioremap with
  | false =>
    exact iff_of_true (undone_unwind (by decide) [.device] (by decide)) fun h => nomatch h.2.1
  | true =>
  cases vmalloc with
  | false =>
    exact iff_of_true (undone_unwind (by decide) [.device, .membase] (by decide))
      fun h => nomatch h.2.2.1
  | true =>
  cases createWorkqueue with
  | false =>
    exact iff_of_true (undone_unwind (by decide) [.device, .membase, .buffer] (by decide))
      fun h => nomatch h.2.2.2.1
  | true =>
  by_cases hchip : chipProbe code < 0
  · have hinit : init ⟨true, true, true, true, code⟩ =
        (-einval, acquireAll Release [.device, .membase, .buffer, .workqueue] ++
          releaseAll frees [.buffer, .membase, .device]) := if_pos hchip
    rw [hinit]
    exact iff_of_false (not_undone (by decide) (by decide))
      fun h => h ⟨rfl, rfl, rfl, rfl, hchip⟩
  · have hinit : init ⟨true, true, true, true, code⟩ =
        (0, acquireAll Release [.device, .membase, .buffer, .workqueue]) := if_neg hchip
    rw [hinit]
    exact iff_of_true (undone_of_succeeded (by decide)) fun h => hchip h.2.2.2.2

theorem fbInit_driver (h : ret ≠ 0) (deviceAlloc : Bool) (deviceAdd : Int) :
    fbInit true false ⟨ret, deviceAlloc, deviceAdd⟩ = (ret, acquireAll Release [.refresh]) :=
  if_neg h

theorem fbInit_alloc (deviceAdd : Int) : fbInit true false ⟨0, false, deviceAdd⟩ =
    (-enomem, acquireAll Release [.refresh, .driver] ++ releaseAll frees [.driver]) := rfl

theorem fbInit_add (h : ret ≠ 0) : fbInit true false ⟨0, true, ret⟩ =
    (ret, acquireAll Release [.refresh, .driver, .fbDevice] ++
      releaseAll frees [.fbDevice, .driver]) := if_pos h

theorem fbInit_done : fbInit true false ⟨0, true, 0⟩ =
    (0, acquireAll Release [.refresh, .driver, .fbDevice, .fbDeviceAdded]) := rfl

/-- No failure behind `ili932x_enable` disables the refresh. -/
theorem fbInit_undone_iff (inited updating : Bool) (c : FbCalls) :
    Undone (fbInit inited updating c) (loaded inited updating) fbResources ↔
      ¬ (inited = true ∧ updating = false ∧
        (c.driverRegister ≠ 0 ∨ c.deviceAlloc = false ∨ c.deviceAdd ≠ 0)) := by
  obtain ⟨driverRegister, deviceAlloc, deviceAdd⟩ := c
  cases inited with
  | false => exact iff_of_true (undone_of_failed (by decide) rfl) fun h => nomatch h.1
  | true =>
  cases updating with
  | true => exact iff_of_true (undone_of_failed (by decide) rfl) fun h => nomatch h.2.1
  | false =>
  by_cases hdriver : driverRegister = 0
  · subst hdriver
    cases deviceAlloc with
    | false =>
      rw [fbInit_alloc]
      exact iff_of_false (not_undone (by decide) (by decide))
        fun h => h ⟨rfl, rfl, Or.inr (Or.inl rfl)⟩
    | true =>
    by_cases hadd : deviceAdd = 0
    · subst hadd
      rw [fbInit_done]
      refine iff_of_true (undone_of_succeeded (by decide)) fun h => ?_
      rcases h.2.2 with h | h | h
      · exact h rfl
      · exact nomatch h
      · exact h rfl
    · rw [fbInit_add hadd]
      exact iff_of_false (not_undone hadd (by decide)) fun h => h ⟨rfl, rfl, Or.inr (Or.inr hadd)⟩
  · rw [fbInit_driver hdriver]
    exact iff_of_false (not_undone hdriver (by decide)) fun h => h ⟨rfl, rfl, Or.inl hdriver⟩

/-- Loading and unloading `ili932xfb` leaves what was held. -/
theorem fbExit_restores (inited updating : Bool) (c : FbCalls)
    (h : (fbInit inited updating c).1 = 0) :
    settle frees ((fbInit inited updating c).2 ++ fbExit true) (loaded inited updating) =
      some (loaded inited updating) := by
  obtain ⟨driverRegister, deviceAlloc, deviceAdd⟩ := c
  cases inited with
  | false => exact absurd h (show -einval ≠ 0 by decide)
  | true =>
  cases updating with
  | true => exact absurd h (show -enodev ≠ 0 by decide)
  | false =>
  by_cases hdriver : driverRegister = 0
  · subst hdriver
    cases deviceAlloc with
    | false => exact absurd h (by rw [fbInit_alloc]; decide)
    | true =>
    by_cases hadd : deviceAdd = 0
    · subst hadd
      have hundo : settle frees
          (acquireAll Release [.refresh, .driver, .fbDevice, .fbDeviceAdded] ++
            releaseAll frees [.fbDeviceAdded, .fbDevice, .driver, .refresh]) (loaded true false) =
          some (loaded true false) := settle_unwind (by decide) (by decide)
      exact hundo
    · rw [fbInit_add hadd] at h
      exact absurd h hadd
  · rw [fbInit_driver hdriver] at h
    exact absurd h hdriver

/-- The buffer from `vmalloc_32` is given to `free_page` and to `kfree`. -/
theorem exit_releases_iff (updating : Bool) :
    ∀ r ∈ loaded true updating, ReleasedOnce r (exit updating) ↔ r ≠ .buffer := by
  unfold ReleasedOnce
  cases updating <;> decide

/-- When the initialisations and the exit do what they should: the first but for a chip that
is not found at the end, the second but for failures behind the enabling of a refresh that
was off, and the exit for every resource but the buffer. -/
theorem lifecycle_iff (c : Calls) (inited updating : Bool) (fb : FbCalls) :
    (Undone (init c) ∅ (loaded true false) ↔
      ¬ (c.kmalloc = true ∧ c.ioremap = true ∧ c.vmalloc = true ∧ c.createWorkqueue = true ∧
        chipProbe c.code < 0)) ∧
    (Undone (fbInit inited updating fb) (loaded inited updating) fbResources ↔
      ¬ (inited = true ∧ updating = false ∧
        (fb.driverRegister ≠ 0 ∨ fb.deviceAlloc = false ∨ fb.deviceAdd ≠ 0))) ∧
    ∀ r ∈ loaded true updating, ReleasedOnce r (exit updating) ↔ r ≠ .buffer :=
  ⟨init_undone_iff c, fbInit_undone_iff inited updating fb, exit_releases_iff updating⟩

/-- Without a chip the workqueue stays, without a driver the refresh stays on, and the exit
goes wrong at the buffer. -/
theorem noChip_leaks :
    ¬ Undone (init ⟨true, true, true, true, 0⟩) ∅ (loaded true false) ∧
      ¬ Undone (fbInit true false ⟨-einval, true, 0⟩) (loaded true false) fbResources ∧
      settle frees (exit false) (loaded true false) = none := by
  refine ⟨?_, ?_, by decide⟩
  · exact not_undone (by decide) (by decide)
  · exact not_undone (by decide) (by decide)

end Plak1a.Lcd.Init
