import Mathlib.Algebra.Group.Nat.Defs
import Mathlib.Data.List.Chain
import Plak1a.Flash.Info
import Plak1a.Lib.Cuts

/-!
# The sector table tiles the device

Both functions fill the table relative to its base, so that it is enough to look at the tables
of the known devices at address 0. The sectors of uniform size are twice as large under
`CONFIG_LPC`, but only one of the devices they are used for has its size doubled as well: the
tables of the others run past the end of the device.
-/

namespace Plak1a.Flash.Tiling

open Info Lib.Cuts

/-- The table has an entry for each sector, divides the range of the device, which is one of
addresses, and is the same after `flash_get_offsets`. -/
structure SectorTable (base : UInt32) (info : FlashInfo) : Prop where
  addresses : base.toNat + info.size.toNat ≤ 2 ^ 32
  count : info.start.length = info.sectorCount
  room : info.sectorCount ≤ cfgMaxFlashSect
  tiles : Tiles (info.start.map UInt32.toNat) base.toNat (base.toNat + info.size.toNat)
  partition : ∀ a, base.toNat ≤ a → a < base.toNat + info.size.toNat →
    ∃! i, InPiece (info.start.map UInt32.toNat) (base.toNat + info.size.toNat) i a
  nonempty : ∀ i < info.start.length,
    ∃ a, InPiece (info.start.map UInt32.toNat) (base.toNat + info.size.toNat) i a
  offsets : (flashGetOffsets base info).start = info.start

/-- The doubled size goes with the doubled stride of the uniform sectors, the others have
sectors of their own. -/
def Laid (m : Manufacturer) (d : Device) : Prop :=
  if m.man = flashManSst then d.type = flashSst160A else d.type ≠ flashAm640U

instance (m : Manufacturer) (d : Device) : Decidable (Laid m d) :=
  inferInstanceAs (Decidable (if m.man = flashManSst then _ else _))

/-- What `flash_get_size` knows before it fills the table. -/
def identified (m : Manufacturer) (d : Device) : FlashInfo :=
  ⟨d.size, d.sectorCount, m.man + d.type, [], []⟩

variable {read : UInt32 → UInt16} {base size : UInt32} {info : FlashInfo} {m : Manufacturer}
  {d : Device} {start : List UInt32}

/-- The same loop `b` further up. -/
def shift (b : UInt32) (c : Cursor) : Cursor := ⟨b + c.base, c.start.map (b + ·)⟩

theorem up_shift (b step : UInt32) (n : Nat) (c : Cursor) :
    (shift b c).up step n = shift b (c.up step n) := by
  induction n generalizing c with
  | zero => rfl
  | succ n ih =>
    rw [Cursor.up, Cursor.up, ← ih]
    congr 1
    simp only [shift, List.map_append, List.map_cons, List.map_nil, UInt32.add_assoc]

theorem down_shift (b step : UInt32) (n : Nat) (c : Cursor) :
    (shift b c).down step n = shift b (c.down step n) := by
  induction n generalizing c with
  | zero => rfl
  | succ n ih =>
    rw [Cursor.down, Cursor.down, ← ih]
    congr 1
    simp only [shift, List.map_cons, UInt32.sub_eq_add_neg, UInt32.add_assoc]

theorem cursor_shift (b base : UInt32) : Cursor.mk (b + base) [] = shift b ⟨base, []⟩ := rfl

theorem uniform_shift (b : UInt32) (n : Nat) : uniform b n = (uniform 0 n).map (b + ·) := by
  simp only [uniform, List.map_map, Function.comp_def, UInt32.zero_add]

theorem bottomBoot8_shift (b : UInt32) (n : Nat) :
    bottomBoot8 b n = (bottomBoot8 0 n).map (b + ·) := by
  rw [bottomBoot8, ← UInt32.add_zero b, cursor_shift, up_shift, up_shift, UInt32.add_zero]
  rfl

theorem topBoot8_shift (b size : UInt32) (n : Nat) :
    topBoot8 b size n = (topBoot8 0 size n).map (b + ·) := by
  rw [topBoot8, cursor_shift, down_shift, down_shift, topBoot8, UInt32.zero_add]
  rfl

theorem topBootStm_shift (b size : UInt32) (n : Nat) :
    topBootStm b size n = (topBootStm 0 size n).map (b + ·) := by
  simp only [topBootStm, cursor_shift, down_shift, UInt32.zero_add]
  rfl

theorem bottomBoot_shift (b : UInt32) (n : Nat) :
    bottomBoot b n = (bottomBoot 0 n).map (b + ·) := by
  simp only [bottomBoot, List.map_append, List.map_cons, List.map_nil, List.map_map,
    Function.comp_def, UInt32.zero_add, UInt32.sub_eq_add_neg, UInt32.add_assoc]

theorem topBoot_shift (b size : UInt32) (n : Nat) :
    topBoot b size n = (topBoot 0 size n).map (b + ·) := by
  simp only [topBoot, List.map_append, List.map_cons, List.map_nil, List.map_map,
    Function.comp_def, UInt32.zero_add, UInt32.sub_eq_add_neg, UInt32.add_assoc]

theorem sizeTable_shift (b : UInt32) (info : FlashInfo) :
    sizeTable b info = (sizeTable 0 info).map (b + ·) := by
  simp only [sizeTable, apply_ite (List.map (b + ·)), ← uniform_shift, ← bottomBoot8_shift,
    ← topBoot8_shift, ← topBootStm_shift, ← bottomBoot_shift, ← topBoot_shift]

theorem offsetsTable_shift (b : UInt32) (info : FlashInfo) :
    offsetsTable b info = (offsetsTable 0 info).map (b + ·) := by
  simp only [offsetsTable, apply_ite (List.map (b + ·)), ← uniform_shift, ← bottomBoot8_shift,
    ← topBoot8_shift, ← bottomBoot_shift, ← topBoot_shift]

/-- Where the table of a device lies at address 0. -/
structure TableAt0 (m : Manufacturer) (d : Device) (start : List UInt32) : Prop where
  length : start.length = d.sectorCount
  starts : start.head? = some 0
  increasing : start.IsChain (· < ·)
  below : (∀ c ∈ start, c < d.size) ↔ Laid m d

theorem tableAt0_iff : TableAt0 m d start ↔
    start.length = d.sectorCount ∧ start.head? = some 0 ∧ start.IsChain (· < ·) ∧
      (start.all (fun c => c < d.size) = true ↔ Laid m d) := by
  simp only [List.all_eq_true, decide_eq_true_iff]
  exact ⟨fun ⟨h₁, h₂, h₃, h₄⟩ => ⟨h₁, h₂, h₃, h₄⟩, fun ⟨h₁, h₂, h₃, h₄⟩ => ⟨h₁, h₂, h₃, h₄⟩⟩

instance : Decidable (TableAt0 m d start) := decidable_of_iff _ tableAt0_iff.symm

theorem tables_at0 : ∀ m ∈ manufacturers, ∀ d ∈ devices,
    TableAt0 m d (sizeTable 0 (identified m d)) := by
  decide +kernel

theorem same_table_at0 : ∀ m ∈ manufacturers, ∀ d ∈ devices,
    offsetsTable 0 (identified m d) = sizeTable 0 (identified m d) := by
  decide +kernel

theorem room : ∀ d ∈ devices, d.sectorCount ≤ cfgMaxFlashSect := by
  decide

/-- An address is in the range of the device exactly if its offset is below the size. -/
theorem in_range_iff {c : UInt32} (haddr : base.toNat + size.toNat ≤ 2 ^ 32) :
    base.toNat ≤ (base + c).toNat ∧ (base + c).toNat < base.toNat + size.toNat ↔ c < size := by
  have hc := c.toNat_lt
  have hb := base.toNat_lt
  rw [UInt32.toNat_add, UInt32.lt_iff_toNat_lt]
  omega

theorem toNat_add_of_lt {c : UInt32} (haddr : base.toNat + size.toNat ≤ 2 ^ 32) (hc : c < size) :
    (base + c).toNat = base.toNat + c.toNat := by
  rw [UInt32.lt_iff_toNat_lt] at hc
  rw [UInt32.toNat_add, Nat.mod_eq_of_lt (by omega)]

theorem tiles_iff (haddr : base.toNat + d.size.toNat ≤ 2 ^ 32) (h : TableAt0 m d start) :
    Tiles ((start.map (base + ·)).map UInt32.toNat) base.toNat (base.toNat + d.size.toNat) ↔
      Laid m d := by
  rw [← h.below, List.map_map]
  constructor
  · intro ht c hc
    have hmem := List.mem_map_of_mem (f := UInt32.toNat ∘ (base + ·)) hc
    exact (in_range_iff haddr).mp ⟨ht.le hmem, ht.below _ hmem⟩
  · intro hbelow
    refine ⟨?_, ?_, ?_⟩
    · rw [List.pairwise_map]
      apply (List.isChain_iff_pairwise.mp h.increasing).imp_of_mem
      intro a c ha hc hac
      rw [Function.comp_apply, Function.comp_apply, toNat_add_of_lt haddr (hbelow a ha),
        toNat_add_of_lt haddr (hbelow c hc)]
      exact Nat.add_lt_add_left (UInt32.lt_iff_toNat_lt.mp hac) base.toNat
    · rw [List.head?_map, h.starts, Option.map_some, Function.comp_apply, UInt32.add_zero]
    · intro a ha
      obtain ⟨c, hc, rfl⟩ := List.mem_map.mp ha
      exact ((in_range_iff haddr).mpr (hbelow c hc)).2

theorem manufacturer_mem {value : UInt16} (h : manufacturer value = some m) : m ∈ manufacturers :=
  List.mem_of_find?_eq_some h

theorem device_mem {value : UInt16} (h : device value = some d) : d ∈ devices :=
  List.mem_of_find?_eq_some h

/-- What `flash_get_size` leaves in `info` for a known device. -/
theorem flashGetSize_eq (info : FlashInfo)
    (hm : manufacturer (read (base + wordOffset 0)) = some m)
    (hd : device (read (base + wordOffset 1)) = some d) :
    let start := (sizeTable 0 (identified m d)).map (base + ·)
    flashGetSize read base info = (d.size,
      { identified m d with start, protect := start.map (protection read (m.man + d.type)) }) := by
  dsimp only
  rw [flashGetSize, hm, hd, ← sizeTable_shift]
  rfl

/-- The table is right exactly if the device lies within the address space and has sectors of
the size that is written for it. -/
theorem sectorTable_iff (info : FlashInfo)
    (hm : manufacturer (read (base + wordOffset 0)) = some m)
    (hd : device (read (base + wordOffset 1)) = some d) :
    SectorTable base (flashGetSize read base info).2 ↔
      base.toNat + d.size.toNat ≤ 2 ^ 32 ∧ Laid m d := by
  have htable := tables_at0 m (manufacturer_mem hm) d (device_mem hd)
  rw [flashGetSize_eq info hm hd]
  constructor
  · exact fun h => ⟨h.addresses, (tiles_iff h.addresses htable).mp h.tiles⟩
  · intro ⟨haddr, hlaid⟩
    have htiles := (tiles_iff haddr htable).mpr hlaid
    refine ⟨haddr, ?_, room d (device_mem hd), htiles, ?_, ?_, ?_⟩
    · exact (List.length_map _).trans htable.length
    · exact fun a hlo hhi => htiles.existsUnique hlo hhi
    · exact fun i hi => ⟨_, htiles.inPiece_self ((List.length_map _).symm ▸ hi)⟩
    · show offsetsTable base (identified m d) = _
      rw [offsetsTable_shift, same_table_at0 m (manufacturer_mem hm) d (device_mem hd)]

/-- The answers of an AMD device in autoselect mode. -/
def answers (base : UInt32) (id : UInt16) (addr : UInt32) : UInt16 :=
  if addr = base then 0x0001 else id

/-- The AM29LV160B at the base of the board is laid out right. -/
theorem sectorTable_am160B : SectorTable 0x80000000
    (flashGetSize (answers 0x80000000 0x2249) 0x80000000 ⟨0, 0, flashUnknown, [], []⟩).2 := by
  apply (sectorTable_iff (m := ⟨0x0001, flashManAmd⟩)
    (d := ⟨0x2249, flashAm160B, 35, 0x00200000⟩) _ rfl rfl).mpr
  exact ⟨by decide, by decide⟩

/-- The AM29LV640U has 8 MB, and its table goes on at the end of the device. -/
theorem am640U_beyond :
    let info := (flashGetSize (answers 0x80000000 0x22D7) 0x80000000
      ⟨0, 0, flashUnknown, [], []⟩).2
    info.size = 0x00800000 ∧ info.start[64]? = some 0x80800000 ∧ ¬ SectorTable 0x80000000 info := by
  have hsize : (flashGetSize (answers 0x80000000 0x22D7) 0x80000000
      ⟨0, 0, flashUnknown, [], []⟩).2.size = 0x00800000 := by decide +kernel
  have hstart : (flashGetSize (answers 0x80000000 0x22D7) 0x80000000
      ⟨0, 0, flashUnknown, [], []⟩).2.start[64]? = some 0x80800000 := by decide +kernel
  refine ⟨hsize, hstart, ?_⟩
  intro h
  have hmem := List.mem_map_of_mem (f := UInt32.toNat) (List.mem_of_getElem? hstart)
  have hlt := h.tiles.below _ hmem
  rw [hsize] at hlt
  exact absurd hlt (by decide)

end Plak1a.Flash.Tiling
