import Plak1a.Lcd.Ili9320
import Plak1a.Lib.Ledger

/-!
# What the et0320fb driver holds

Every failure of `et0320fb_probe` goes to `et0320fb_remove`, which finds the frame buffer
info in the driver data of the device. Nothing clears the driver data: a failed call leaves
it pointing at an info that is released, and what a later call reads there is not known.
The log of a call is of what it acquired and released.
-/

namespace Plak1a.Lcd.Probe

open Lib.Ledger Ili9320

inductive Resource
  /-- the memory region of the registers -/
  | region
  | info
  /-- `par->regs` -/
  | regs
  /-- `info->screen_base` -/
  | screenBase
  /-- `info->cmap` -/
  | cmap
deriving DecidableEq

inductive Release
  | releaseMemRegion
  | framebufferRelease
  | iounmap
  | vfree
  | fbDeallocCmap
deriving DecidableEq

/-- The release function for each resource. -/
def frees : Resource → Release
  | .region => .releaseMemRegion
  | .info => .framebufferRelease
  | .regs => .iounmap
  | .screenBase => .vfree
  | .cmap => .fbDeallocCmap

abbrev Log := List (Entry Resource Release)

/-- The pointers of a frame buffer info, as far as they are null. -/
structure Info where
  regs : Bool
  cmap : Bool
  screenBase : Bool

/-- What the calls of `et0320fb_probe` answer; `aux` is what the chip drives on the bus. -/
structure Calls where
  requestMemRegion : Bool
  framebufferAlloc : Bool
  ioremap : Bool
  vmalloc : Bool
  allocCmap : Bool
  aux : UInt32
  registerFramebuffer : Int

def ebusy : Int := 16

def enomem : Int := 12

def enodev : Int := 19

def einval : Int := 22

/-- `ILI9320_CHIP_ID` -/
def chipId : UInt16 := 0x9320

/-- `et0320fb_remove`; `fb_dealloc_cmap` does nothing for an info without a colour map. -/
def remove (drvdata : Option Info) : Log :=
  (match drvdata with
    | none => []
    | some info =>
      (if info.regs then [.release .iounmap .regs] else []) ++
        (if info.cmap then [.release .fbDeallocCmap .cmap] else []) ++
        (if info.screenBase then [.release .iounmap .screenBase] else []) ++
        [.release .framebufferRelease .info]) ++
    [.release .releaseMemRegion .region]

/-- What a call returns and does, and the driver data behind it. -/
structure Outcome where
  ret : Int
  drvdata : Option Info
  log : Log

/-- The label `bail` -/
def bail (ret : Int) (drvdata : Option Info) (log : Log) : Outcome :=
  ⟨ret, drvdata, log ++ remove drvdata⟩

/-- `et0320fb_probe`; `et0320fb_hwinit` does not look at what `fb_alloc_cmap` answers. -/
def probe (drvdata : Option Info) (c : Calls) : Outcome :=
  if !c.requestMemRegion then bail (-ebusy) drvdata []
  else
    let log : Log := [.acquire .region]
    if !c.framebufferAlloc then bail (-enomem) drvdata log
    else
      let log := log ++ [.acquire .info]
      let info : Info := ⟨false, false, false⟩
      if !c.ioremap then bail (-enomem) (some info) log
      else
        let log := log ++ [.acquire .regs]
        let info := { info with regs := true }
        if !c.vmalloc then bail (-enomem) (some info) log
        else
          let log := log ++ [.acquire .screenBase]
          let info := { info with screenBase := true }
          if (lcdTo16Bit c.aux).toUInt16 ≠ chipId then bail (-enodev) (some info) log
          else
            let log := if c.allocCmap then log ++ [.acquire .cmap] else log
            let info := { info with cmap := c.allocCmap }
            if c.registerFramebuffer < 0 then bail (-einval) (some info) log
            else ⟨0, some info, log⟩

/-- A call that fails leaves nothing acquired and releases nothing it did not acquire. -/
def Atomic (r : Outcome) : Prop := r.ret ≠ 0 → settle frees r.log ∅ = some ∅

variable {r : Outcome} {drvdata : Option Info} {c : Calls}

theorem atomic_of_settles (h : settle frees r.log ∅ = some ∅) : Atomic r := fun _ => h

theorem not_atomic (hret : r.ret ≠ 0) (h : settle frees r.log ∅ = none) : ¬ Atomic r := by
  intro hatomic
  rw [hatomic hret] at h
  cases h

theorem atomic_unwind (ret : Int) (drvdata : Option Info) (rs : List Resource)
    (hnodup : rs.Nodup) :
    Atomic ⟨ret, drvdata, acquireAll Release rs ++ releaseAll frees rs.reverse⟩ :=
  atomic_of_settles (settle_unwind hnodup fun _ _ => Finset.notMem_empty _)

/-- Without the region the clean-up releases what is not held. -/
theorem settle_remove_empty (drvdata : Option Info) :
    settle frees (remove drvdata) ∅ = none := by
  rcases drvdata with _ | ⟨regs, cmap, screenBase⟩
  · decide
  · revert regs cmap screenBase
    decide +kernel

/-- So it does without an info of this call, whatever it reads in an earlier one. -/
theorem settle_remove_info (info : Info) :
    settle frees (.acquire .region :: remove (some info)) ∅ = none := by
  obtain ⟨regs, cmap, screenBase⟩ := info
  revert regs cmap screenBase
  decide +kernel

/-- The screen memory is not for `iounmap`. -/
theorem settle_remove_screenBase (cmap : Bool) :
    settle frees ((if cmap then
        acquireAll Release [.region, .info, .regs, .screenBase] ++ [.acquire .cmap]
        else acquireAll Release [.region, .info, .regs, .screenBase]) ++
      remove (some ⟨true, cmap, true⟩)) ∅ = none := by
  revert cmap
  decide +kernel

/-- The region is released although it is another driver's. -/
theorem probe_region (h : c.requestMemRegion = false) (drvdata : Option Info) :
    ¬ Atomic (probe drvdata c) := by
  rw [probe, h]
  exact not_atomic (show -ebusy ≠ 0 by decide) (settle_remove_empty drvdata)

/-- Driver data of an earlier call is released again. -/
theorem probe_info (hregion : c.requestMemRegion = true) (h : c.framebufferAlloc = false) :
    Atomic (probe drvdata c) ↔ drvdata = none := by
  rw [probe, hregion, h]
  cases drvdata with
  | none => exact iff_of_true (atomic_unwind _ _ [.region] (by decide)) rfl
  | some info =>
    exact iff_of_false (not_atomic (show -enomem ≠ 0 by decide) (settle_remove_info info))
      fun h => nomatch h

theorem probe_regs (hregion : c.requestMemRegion = true) (hinfo : c.framebufferAlloc = true)
    (h : c.ioremap = false) : Atomic (probe drvdata c) := by
  rw [probe, hregion, hinfo, h]
  exact atomic_unwind _ _ [.region, .info] (by decide)

theorem probe_screenBase (hregion : c.requestMemRegion = true)
    (hinfo : c.framebufferAlloc = true) (hregs : c.ioremap = true) (h : c.vmalloc = false) :
    Atomic (probe drvdata c) := by
  rw [probe, hregion, hinfo, hregs, h]
  exact atomic_unwind _ _ [.region, .info, .regs] (by decide)

/-- The last two failures find the screen memory. -/
theorem probe_chip (hregion : c.requestMemRegion = true) (hinfo : c.framebufferAlloc = true)
    (hregs : c.ioremap = true) (hscreen : c.vmalloc = true) :
    Atomic (probe drvdata c) ↔
      (lcdTo16Bit c.aux).toUInt16 = chipId ∧ 0 ≤ c.registerFramebuffer := by
  have hprobe : probe drvdata c =
      if (lcdTo16Bit c.aux).toUInt16 ≠ chipId then
        bail (-enodev) (some ⟨true, false, true⟩)
          (acquireAll Release [.region, .info, .regs, .screenBase])
      else
        let log := if c.allocCmap then
          acquireAll Release [.region, .info, .regs, .screenBase] ++ [.acquire .cmap]
          else acquireAll Release [.region, .info, .regs, .screenBase]
        if c.registerFramebuffer < 0 then bail (-einval) (some ⟨true, c.allocCmap, true⟩) log
        else ⟨0, some ⟨true, c.allocCmap, true⟩, log⟩ := by
    rw [probe, hregion, hinfo, hregs, hscreen]
    rfl
  rw [hprobe]
  by_cases hchip : (lcdTo16Bit c.aux).toUInt16 = chipId
  · rw [if_neg (not_not.mpr hchip)]
    dsimp only
    by_cases hregister : c.registerFramebuffer < 0
    · rw [if_pos hregister]
      exact iff_of_false
        (not_atomic (show -einval ≠ 0 by decide) (settle_remove_screenBase c.allocCmap))
        fun h => absurd hregister (Int.not_lt.mpr h.2)
    · rw [if_neg hregister]
      exact iff_of_true (fun hret => absurd rfl hret) ⟨hchip, Int.not_lt.mp hregister⟩
  · rw [if_pos hchip]
    exact iff_of_false (not_atomic (show -enodev ≠ 0 by decide) (settle_remove_screenBase false))
      fun h => hchip h.1

/-- The driver data is set as soon as there is an info, and never cleared. -/
theorem probe_drvdata (hregion : c.requestMemRegion = true) (hinfo : c.framebufferAlloc = true) :
    (probe drvdata c).drvdata ≠ none := by
  rw [probe, hregion, hinfo]
  cases c.ioremap with
  | false => exact Option.some_ne_none _
  | true =>
  cases c.vmalloc with
  | false => exact Option.some_ne_none _
  | true =>
  by_cases hchip : (lcdTo16Bit c.aux).toUInt16 ≠ chipId
  · simp only [Bool.not_true, Bool.false_eq_true, if_false, if_pos hchip]
    exact Option.some_ne_none _
  · simp only [Bool.not_true, Bool.false_eq_true, if_false, if_neg hchip]
    split <;> exact Option.some_ne_none _

/-- After a call that got an info, one that gets none is not atomic. -/
theorem probe_stale {c' : Calls} (hregion : c.requestMemRegion = true)
    (hinfo : c.framebufferAlloc = true) (hregion' : c'.requestMemRegion = true)
    (hinfo' : c'.framebufferAlloc = false) : ¬ Atomic (probe (probe drvdata c).drvdata c') := by
  rw [probe_info hregion' hinfo']
  exact probe_drvdata hregion hinfo

/-- A call is atomic exactly if it gets the region and then no info, with no driver data of an
earlier call, or no registers, or no screen memory, or does not fail. -/
theorem probe_atomic_iff (drvdata : Option Info) (c : Calls) :
    Atomic (probe drvdata c) ↔
      c.requestMemRegion = true ∧
        ((c.framebufferAlloc = false ∧ drvdata = none) ∨
          (c.framebufferAlloc = true ∧ (c.ioremap = false ∨ c.vmalloc = false ∨
            ((lcdTo16Bit c.aux).toUInt16 = chipId ∧ 0 ≤ c.registerFramebuffer)))) := by
  cases hregion : c.requestMemRegion with
  | false => exact iff_of_false (probe_region hregion drvdata) fun h => nomatch h.1
  | true =>
  cases hinfo : c.framebufferAlloc with
  | false =>
    rw [probe_info hregion hinfo]
    constructor
    · intro h
      exact ⟨rfl, Or.inl ⟨rfl, h⟩⟩
    · intro h
      rcases h.2 with h | h
      · exact h.2
      · exact nomatch h.1
  | true =>
  cases hregs : c.ioremap with
  | false =>
    exact iff_of_true (probe_regs hregion hinfo hregs) ⟨rfl, Or.inr ⟨rfl, Or.inl rfl⟩⟩
  | true =>
  cases hscreen : c.vmalloc with
  | false =>
    exact iff_of_true (probe_screenBase hregion hinfo hregs hscreen)
      ⟨rfl, Or.inr ⟨rfl, Or.inr (Or.inl rfl)⟩⟩
  | true =>
    rw [probe_chip hregion hinfo hregs hscreen]
    constructor
    · intro h
      exact ⟨rfl, Or.inr ⟨rfl, Or.inr (Or.inr h)⟩⟩
    · intro h
      rcases h.2 with h | h
      · exact nomatch h.1
      · rcases h.2 with h | h | h
        · exact nomatch h
        · exact nomatch h
        · exact h

/-- The calls of a probe that all succeed, on a chip that drives its code. -/
def found : Calls := ⟨true, true, true, true, true, convert16To18 chipId.toUInt32, 0⟩

/-- A region another driver owns is released, the screen memory is not for `iounmap`, and the
info of a failed call is released by the next. -/
theorem busyRegion_released :
    ¬ Atomic (probe none { found with requestMemRegion := false }) ∧
      ¬ Atomic (probe none { found with aux := 0 }) ∧
      ¬ Atomic (probe (probe none { found with ioremap := false }).drvdata
        { found with framebufferAlloc := false }) := by
  refine ⟨probe_region rfl none, ?_, probe_stale rfl rfl rfl rfl⟩
  rw [probe_chip rfl rfl rfl rfl]
  decide

end Plak1a.Lcd.Probe
