import Plak1a.Flash.Guarded

/-!
# The bank of the board

`flash_init` with one bank at `CFG_FLASH_BASE`. The range that it protects as that of the
monitor is counted from the end of the address space, and the bank lies in its middle.
-/

namespace Plak1a.Flash.Board

open Info Erase Tiling Access Sectors Guarded

def cfgFlashBase : UInt32 := 0x80000000

/-- `-CFG_MONITOR_LEN` -/
def monitorStart : UInt32 := 0xFFFC0000

/-- `flash_init`: the size, and `flash_info[0]` afterwards. -/
def flashInit (read : UInt32 → UInt16) (info : FlashInfo) : UInt32 × FlashInfo :=
  let info := { info with flashId := flashUnknown }
  let (size, info) := flashGetSize read cfgFlashBase info
  let info := flashGetOffsets cfgFlashBase info
  let info := flashProtect flagProtectSet monitorStart 0xFFFFFFFF info
  (size, { info with size })

variable {read : UInt32 → UInt16} {m : Manufacturer} {d : Device} {sect a : Nat}

/-- What is identified at the base of the board. -/
def found (read : UInt32 → UInt16) (m : Manufacturer) (d : Device) : FlashInfo :=
  let start := (sizeTable 0 (identified m d)).map (cfgFlashBase + ·)
  { identified m d with start, protect := start.map (protection read (m.man + d.type)) }

theorem sizes : ∀ d ∈ devices, cfgFlashBase.toNat + d.size.toNat < monitorStart.toNat ∧
    cfgFlashBase + d.size - 1 < monitorStart := by
  decide

theorem ids_known : ∀ m ∈ manufacturers, ∀ d ∈ devices, m.man + d.type ≠ flashUnknown := by
  decide

theorem found_start (hm : m ∈ manufacturers) (hd : d ∈ devices) :
    sectorStart (found read m d) 0 = cfgFlashBase := by
  have hstarts := (tables_at0 m hm d hd).starts
  obtain ⟨start, hstart⟩ := List.head?_eq_some_iff.mp hstarts
  rw [sectorStart, found]
  dsimp only
  rw [hstart]
  rfl

/-- Nothing is protected but what the device says, and the table stays as it was found. -/
theorem flashInit_eq (info : FlashInfo)
    (hm : manufacturer (read (cfgFlashBase + wordOffset 0)) = some m)
    (hd : device (read (cfgFlashBase + wordOffset 1)) = some d) :
    flashInit read info = (d.size, found read m d) := by
  have hmem := manufacturer_mem hm
  have hdev := device_mem hd
  have hoffsets : flashGetOffsets cfgFlashBase (found read m d) = found read m d := by
    have htable : offsetsTable cfgFlashBase (found read m d) = (found read m d).start := by
      show offsetsTable cfgFlashBase (identified m d) = _
      rw [offsetsTable_shift, same_table_at0 m hmem d hdev]
      rfl
    rw [flashGetOffsets, htable]
  have hprotect : flashProtect flagProtectSet monitorStart 0xFFFFFFFF (found read m d) =
      found read m d := by
    rw [flashProtect]
    split
    · rfl
    · refine if_pos (.inr (.inr ?_))
      rw [bankEnd, found_start hmem hdev]
      exact (sizes d hdev).2
  rw [flashInit, flashGetSize_eq _ hm hd]
  show (d.size, { flashProtect flagProtectSet monitorStart 0xFFFFFFFF
    (flashGetOffsets cfgFlashBase (found read m d)) with size := d.size }) = _
  rw [hoffsets, hprotect]
  rfl

/-- A device with a table of its own is ready for the commands. -/
theorem found_ready (hm : m ∈ manufacturers) (hd : d ∈ devices) (hlaid : Laid m d) :
    Ready (found read m d) := by
  have htable := tables_at0 m hm d hd
  have hroom := (sizes d hd).1
  have hmonitor := monitorStart.toNat_lt
  have haddr : cfgFlashBase.toNat + d.size.toNat ≤ 2 ^ 32 := by omega
  have htiles := (tiles_iff haddr htable).mpr hlaid
  constructor
  · rw [found_start hm hd]
    refine ⟨haddr, (List.length_map _).trans htable.length,
      room d hd, htiles, fun a hlo hhi => htiles.existsUnique hlo hhi,
      fun i hi => ⟨_, htiles.inPiece_self ((List.length_map _).symm ▸ hi)⟩, ?_⟩
    show offsetsTable cfgFlashBase (identified m d) = _
    rw [offsetsTable_shift, same_table_at0 m hm d hd]
    rfl
  · exact ids_known m hm d hd
  · exact ((List.length_map _).trans (List.length_map _)).trans htable.length
  · rw [found_start hm hd]
    show _ + d.size.toNat < _
    omega

/-- The protection of the monitor and the second table change nothing: what `flash_get_size` has
read is what the commands work with. -/
theorem flashInit_ready (info : FlashInfo)
    (hm : manufacturer (read (cfgFlashBase + wordOffset 0)) = some m)
    (hd : device (read (cfgFlashBase + wordOffset 1)) = some d) (hlaid : Laid m d) :
    Ready (flashInit read info).2 ∧
      flashInit read info =
        flashGetSize read cfgFlashBase { info with flashId := flashUnknown } := by
  rw [flashInit_eq info hm hd, flashGetSize_eq _ hm hd]
  exact ⟨found_ready (manufacturer_mem hm) (device_mem hd) hlaid, rfl⟩

/-- The AT49BV642D with an unprotected array. -/
def at49 (addr : UInt32) : UInt16 :=
  if addr = cfgFlashBase + wordOffset 0 then 0x001F
  else if addr = cfgFlashBase + wordOffset 1 then 0x01D2
  else 0

def at49Info : FlashInfo :=
  found at49 ⟨0x001F, flashManAtm⟩ ⟨0x01D2, flashAtbv642DT, 135, 0x00800000⟩

theorem at49_ready : Ready at49Info :=
  found_ready (manufacturer_mem (show manufacturer 0x001F = _ from rfl))
    (device_mem (show device 0x01D2 = _ from rfl)) (by decide)

theorem flashInit_ready_at49 :
    Ready (flashInit at49 ⟨0, 0, 0, [], []⟩).2 ∧
      flashInit at49 ⟨0, 0, 0, [], []⟩ =
        flashGetSize at49 cfgFlashBase ⟨0, 0, flashUnknown, [], []⟩ :=
  flashInit_ready (m := ⟨0x001F, flashManAtm⟩) (d := ⟨0x01D2, flashAtbv642DT, 135, 0x00800000⟩)
    ⟨0, 0, 0, [], []⟩ rfl rfl (by decide)

theorem at49_inSector (h : sect < at49Info.sectorCount)
    (ha : (sectorStart at49Info sect).toNat ≤ a ∧ a ≤ (sectorEnd at49Info sect).toNat) :
    InSector at49Info sect a := (inSector_iff at49_ready.table h).mpr ha

/-- The first sector. -/
theorem at49_selected : Selected at49Info 0x80000000 0x8000FFFF 0 0 := by
  refine ⟨by decide, by decide, ?_, .inl ?_⟩ <;> decide +kernel

/-- `protect on 80000000 8000ffff` -/
theorem flashSectProtect_at49 :
    let r := flashSectProtect 1 at49Info 0x80000000 0x8000FFFF
    r.1 = 0 ∧ r.2.protect.getD 0 0 = 1 := by
  rcases flashSectProtect_sets at49_ready 0x80000000 0x8000FFFF 1 with
    ⟨hrc, i, j, ⟨_, _, hfirst, _⟩, hset⟩ | ⟨_, hnone, _⟩
  · have hi : i = 0 := sectorStart_inj at49_ready.table (by omega) (by decide)
      (hfirst.symm.trans at49_selected.2.2.1)
    refine ⟨hrc, (hset 0 (by decide)).trans ?_⟩
    rw [if_pos ⟨by omega, Nat.zero_le j⟩]
  · exact absurd at49_selected (hnone 0 0)

/-- 0xFFFF0001 bytes from the second sector on end in the first one. -/
theorem flashWrite_wrapped_at49 :
    flashWrite at49Info (fun _ => 0) 0 0x80010000 0xFFFF0001 (fun _ => 0xFF) =
      WriteBuff.writeBuff (fun _ => 0) 0 0x80010000 0x7F0000 (fun _ => 0xFF) := by
  have hlen : (sectorStart at49Info 0).toNat + at49Info.size.toNat - (0x80010000 : UInt32).toNat =
      0x7F0000 := by decide +kernel
  rw [flashWrite_wrapped (i := 1) (j := 0) at49_ready (by decide)
    (at49_inSector (by decide) (by decide +kernel)) (at49_inSector (by decide) (by decide +kernel))
    (by decide) _ 0 _, hlen]
  rfl

/-- A write to the first sector after it was closed. -/
theorem protected_kept_at49 :
    let info := protectSectors 1 ⟨0, 0⟩ at49Info
    (flashWrite info (fun _ => 0) 0 0x80000000 4 (fun _ => 0xFF)).2 0x80000000 = 0xFF := by
  have hready : Ready (protectSectors 1 ⟨0, 0⟩ at49Info) :=
    at49_ready.withFlags (foldl_set_length _ _ _)
  have hprot : isProtected (protectSectors 1 ⟨0, 0⟩ at49Info) 0 = true := by decide +kernel
  have hin : InSector (protectSectors 1 ⟨0, 0⟩ at49Info) 0 0x80000000 :=
    (inSector_iff hready.table (by decide)).mpr (by decide +kernel)
  have hstep : Step ⟨protectSectors 1 ⟨0, 0⟩ at49Info, fun _ => 0xFF⟩ _ :=
    .write _ (fun _ => 0) 0 0x80000000 4 fun _ => ⟨by decide, by decide⟩
  have hkept := protected_kept hready hin hprot (.single ⟨hstep, hprot⟩)
  dsimp only at hkept ⊢
  exact hkept

end Plak1a.Flash.Board
