import Plak1a.Env.Variables
import Plak1a.Flash.Board

/-!
# `saveenv`, and the environment after a reset

The environment lies at the start of a flash sector. It is kept with the sum that the copy in RAM
has at the time; after a reset the sum is checked, and the default environment stands in for one
that is wrong.
-/

namespace Plak1a.Env.Saveenv

open Data Entries Setenv Boot.Crc32 Lib Lib.Bytes
open Flash.Info Flash.Bank Flash.Erase Flash.EraseTrace Flash.WriteBuff Flash.Access
open Flash.Sectors Flash.Guarded

def cfgEnvAddr : UInt32 := 0x807FE000
def cfgEnvSectSize : UInt32 := 0x2000

/-- `flash_offset` and `flash_sect_addr` -/
def flashOffset : UInt32 := cfgEnvAddr &&& (cfgEnvSectSize - 1)
def flashSectAddr : UInt32 := cfgEnvAddr &&& ~~~(cfgEnvSectSize - 1)

/-- `end_addr` -/
def endAddr : UInt32 := flashSectAddr + cfgEnvSectSize - 1

/-- The bytes of `env_t`. -/
def envBytes (s : EnvT) (i : Nat) : UInt8 := if i < 4 then byteOf s.crc i else s.data (i - 4)

/-- `env_buffer`, which lies at `buf`, after both calls of `memcpy`. -/
def envBuffer (ram : Memory) (buf : Nat) (s : EnvT) (flash : Memory) : Memory :=
  let ram := Memory.copy ram buf flash flashSectAddr.toNat cfgEnvSectSize.toNat
  Memory.copy ram (buf + flashOffset.toNat) (envBytes s) 0 cfgEnvSize

/-- `saveenv`: the result, and the bank afterwards; `erased` are the contents of the flash when
`flash_sect_erase` returns. There is no result while the code waits for the device. -/
def saveenv (polls : Nat) (op : Operation) (erased ram : Memory) (buf : Nat) (s : EnvT)
    (st : State) : Option (Nat × State) :=
  let buffer := envBuffer ram buf s st.flash
  let (rc, info) := flashSectProtect 0 st.info flashSectAddr endAddr
  if rc ≠ 0 then some (1, ⟨info, st.flash⟩)
  else do
    let rc ← (flashSectErase polls op info flashSectAddr endAddr).result
    -- This way leaves the sector unprotected.
    if rc ≠ 0 then some (1, ⟨info, erased⟩)
    else
      let (rc, flash) := flashWrite info buffer buf flashSectAddr cfgEnvSectSize erased
      let (_, info) := flashSectProtect 1 info flashSectAddr endAddr
      some (if rc ≠ 0 then 1 else 0, ⟨info, flash⟩)

/-- The environment in the flash. -/
def flashEnv (flash : Memory) : EnvT :=
  ⟨wordAt flash cfgEnvAddr.toNat, fun i => flash (cfgEnvAddr.toNat + 4 + i)⟩

/-- `env_init`: `gd->env_valid`. -/
def envInit (flash : Memory) : Bool :=
  crc32 0 (dataBytes (flashEnv flash).data) = (flashEnv flash).crc

/-- `env_relocate`: the copy in RAM, which is not filled with a default that is too large. -/
def envRelocate (envValid : Bool) (defaultEnvironment : List UInt8) (flash : Memory) :
    Option EnvT :=
  if !envValid then
    if envSize < defaultEnvironment.length then none
    else some (envCrcUpdate (Memory.store (fun _ => 0) 0 defaultEnvironment))
  else some (flashEnv flash)

/-- What is left of the environment after a reset. -/
def reset (defaultEnvironment : List UInt8) (flash : Memory) : Option EnvT :=
  envRelocate (envInit flash) defaultEnvironment flash

/-- The environment has a sector of its own. -/
structure EnvSector (info : FlashInfo) (i : Nat) : Prop where
  lt : i < info.sectorCount
  first : flashSectAddr = sectorStart info i
  last : endAddr = sectorEnd info i

/-- How the device behaves: it changes nothing but what it was told to erase, and that is blank
when the wait has seen it finished. -/
structure Device (info : FlashInfo) (o : Outcome) (flash erased : Memory) : Prop where
  obeys : Obeys info o.cycles flash erased
  blank : o.result = some 0 → ∀ c ∈ o.cycles, ∀ sect a,
    eraseAddr c = some (sectorStart info sect) → InSector info sect a → erased a = 0xFF

/-- The table while the sector of the environment is open. -/
def opened (info : FlashInfo) (i : Nat) : FlashInfo := protectSectors 0 ⟨i, i⟩ info

/-- The bytes of the environment in the flash. -/
def InEnv (a : Nat) : Prop := cfgEnvAddr.toNat ≤ a ∧ a < cfgEnvAddr.toNat + cfgEnvSize

instance (a : Nat) : Decidable (InEnv a) := inferInstanceAs (Decidable (_ ∧ _))

variable {info : FlashInfo} {i buf polls a : Nat} {op : Operation} {erased ram flash : Memory}
  {s t u : EnvT} {st st' : State}

theorem EnvSector.selected (hs : EnvSector info i) : Selected info flashSectAddr endAddr i i :=
  ⟨Nat.le_refl i, hs.lt, hs.first, .inl hs.last⟩

theorem EnvSector.inSector_iff (h : Ready info) (hs : EnvSector info i) :
    InSector info i a ↔ InRange flashSectAddr cfgEnvSectSize a := by
  rw [Flash.Sectors.inSector_iff h.table hs.lt, ← hs.first, ← hs.last]
  show _ ↔ flashSectAddr.toNat ≤ a ∧ a < endAddr.toNat + 1
  rw [Nat.lt_succ_iff]

theorem opened_ready (h : Ready info) (i : Nat) : Ready (opened info i) :=
  h.withFlags (foldl_set_length _ _ _)

theorem opened_unprotected (h : Ready info) (hi : i < info.sectorCount) :
    isProtected (opened info i) i = false := by
  have hflag : (opened info i).protect.getD i 0 = 0 := by
    show ((sectors i i).foldl (fun l i => l.set i 0) info.protect).getD i 0 = 0
    rw [foldl_set_getD _ _ _ (h.flags.symm ▸ hi), sectors_cast, if_pos]
    rw [List.mem_range'_1]
    omega
  rw [isProtected, hflag]
  rfl

/-- The sector is told to erase itself. -/
theorem erase_command (h : Ready info) (hs : EnvSector info i) (polls : Nat) (op : Operation) :
    ∃ c ∈ (flashSectErase polls op (opened info i) flashSectAddr endAddr).cycles,
      eraseAddr c = some (sectorStart info i) := by
  have hready := opened_ready h i
  have hs' : EnvSector (opened info i) i := ⟨hs.lt, hs.first, hs.last⟩
  obtain ⟨c, hc, heq⟩ := eraseSector_eq (opened_unprotected h hs.lt) i
  obtain ⟨tail, hcycles, -⟩ :=
    flashErase_cycles (opened info i) polls op (Nat.le_refl i) hready.known
  refine ⟨c, ?_, hc⟩
  rw [flashSectErase_selected hready hs'.selected, hcycles, List.mem_append]
  refine .inl (List.mem_flatMap.mpr ⟨i, ?_, ?_⟩)
  · rw [List.mem_range'_1]
    omega
  · rw [heq]
    exact List.mem_append_right _ List.mem_cons_self

/-- The buffer holds what the sector is to hold. -/
theorem envBuffer_eq (ram : Memory) (buf : Nat) (s : EnvT) (flash : Memory) {k : Nat}
    (hk : k < cfgEnvSectSize.toNat) :
    envBuffer ram buf s flash (buf + k) =
      if k < cfgEnvSize then envBytes s k else flash (flashSectAddr.toNat + k) := by
  have hoffset : flashOffset.toNat = 0 := by decide
  rw [envBuffer, hoffset, Nat.add_zero]
  by_cases henv : k < cfgEnvSize
  · rw [if_pos henv, Memory.copy_of_mem (Nat.le_add_right _ _) (by omega), Nat.zero_add,
      Nat.add_sub_cancel_left]
  · rw [if_neg henv, Memory.copy_of_ge (by omega),
      Memory.copy_of_mem (Nat.le_add_right _ _) (by omega), Nat.add_sub_cancel_left]

/-- A buffer at a word boundary is programmed into a blank sector as it is. -/
theorem writeBuff_blank {addr cnt : Nat} (haddr : addr % 4 = 0) (hbuf : buf % 4 = 0)
    (hblank : ∀ a, addr ≤ a → a < addr + cnt → flash a = 0xFF) (ram : Memory) :
    writeBuff ram buf addr cnt flash =
      (0, Flash.Programmed.target ram buf addr cnt flash) := by
  have herased : Flash.Programmed.Erased ram buf addr cnt flash := by
    intro k hk
    rw [hblank _ (by omega) (by omega)]
    exact UInt8.neg_one_and
  have hstraight : Flash.Programmed.Straight ram buf addr cnt := by
    intro w hw hle _
    dsimp only
    intro k hk
    omega
  obtain ⟨hrc, hdone, hblocked⟩ :=
    (Flash.Programmed.meets_iff_straight flash herased).mpr hstraight
  rcases hrc with hrc | hrc
  · exact Prod.ext hrc (hdone hrc)
  · obtain ⟨w, _, hb, _⟩ := hblocked hrc
    exact absurd hb herased.not_blocked

/-- The erase that `saveenv` waits for. -/
def eraseCall (polls : Nat) (op : Operation) (info : FlashInfo) (i : Nat) : Outcome :=
  flashSectErase polls op (opened info i) flashSectAddr endAddr

/-- No other sector is. -/
theorem erase_only (h : Ready info) (hs : EnvSector info i) {c : Cycle} {sect : Nat}
    (hc : c ∈ (eraseCall polls op info i).cycles)
    (haddr : eraseAddr c = some (sectorStart (opened info i) sect))
    (hsect : sect < (opened info i).sectorCount) : sect = i := by
  have hready := opened_ready h i
  have hs' : EnvSector (opened info i) i := ⟨hs.lt, hs.first, hs.last⟩
  obtain ⟨k, l, m, hsel, hkm, hml, _, hstart⟩ := flashSectErase_cycles hready hc haddr
  have hm := sectorStart_inj hready.table (Nat.lt_of_le_of_lt hml hsel.2.1) hsect hstart
  have hk : k = i := sectorStart_inj hready.table (Nat.lt_of_le_of_lt hsel.1 hsel.2.1) hs.lt
    (hsel.2.2.1.symm.trans hs.first)
  have hl : l = i := by
    rcases hsel.2.2.2 with hlast | ⟨_, hbehind⟩
    · exact sectorEnd_inj hready.table hsel.2.1 hs.lt (hlast.symm.trans hs.last)
    · exact absurd (UInt32.lt_of_lt_of_le hbehind (hs'.last ▸ sectorEnd_le hready.table hs.lt))
        (UInt32.lt_irrefl _)
  omega

/-- A sector whose erase was seen finished is blank, and the others are as they were. -/
theorem erased_eq (h : Ready info) (hs : EnvSector info i)
    (hdev : Device (opened info i) (eraseCall polls op info i) flash erased)
    (hresult : (eraseCall polls op info i).result = some 0) (a : Nat) :
    erased a = if InRange flashSectAddr cfgEnvSectSize a then 0xFF else flash a := by
  have hready := opened_ready h i
  have hs' : EnvSector (opened info i) i := ⟨hs.lt, hs.first, hs.last⟩
  by_cases hin : InSector (opened info i) i a
  · obtain ⟨c, hc, haddr⟩ := erase_command h hs polls op
    rw [if_pos ((hs'.inSector_iff hready).mp hin)]
    exact hdev.blank hresult c hc i a haddr hin
  · rw [if_neg (fun hr => hin ((hs'.inSector_iff hready).mpr hr))]
    by_contra hne
    obtain ⟨sect, hsect, c, hc, haddr⟩ := hdev.obeys a hne
    exact hin (erase_only h hs hc haddr (lt_count hready.table hsect) ▸ hsect)

/-- A device that always finishes. -/
theorem device_blank (h : Ready info) (hs : EnvSector info i) (polls : Nat) (op : Operation)
    (flash : Memory) :
    Device (opened info i) (eraseCall polls op info i) flash
      (fun a => if InRange flashSectAddr cfgEnvSectSize a then 0xFF else flash a) := by
  have hready := opened_ready h i
  have hs' : EnvSector (opened info i) i := ⟨hs.lt, hs.first, hs.last⟩
  constructor
  · intro a hne
    have hr : InRange flashSectAddr cfgEnvSectSize a := by
      by_contra hout
      exact hne (if_neg hout)
    exact ⟨i, (hs'.inSector_iff hready).mpr hr, erase_command h hs polls op⟩
  · intro _ c hc sect a haddr hsect
    have hi := erase_only h hs hc haddr (lt_count hready.table hsect)
    exact if_pos ((hs'.inSector_iff hready).mp (hi ▸ hsect))

/-- What is programmed into a blank sector. -/
theorem flashWrite_env (h : Ready info) (hs : EnvSector info i) (hbuf : buf % 4 = 0)
    (hblank : ∀ a, InRange flashSectAddr cfgEnvSectSize a → erased a = 0xFF) (ram : Memory) :
    flashWrite (opened info i) ram buf flashSectAddr cfgEnvSectSize erased =
      (0, Flash.Programmed.target ram buf flashSectAddr.toNat cfgEnvSectSize.toNat erased) := by
  have hready := opened_ready h i
  have hs' : EnvSector (opened info i) i := ⟨hs.lt, hs.first, hs.last⟩
  have hin : ∀ a, InRange flashSectAddr cfgEnvSectSize a → InSector (opened info i) i a :=
    fun a ha => (hs'.inSector_iff hready).mpr ha
  have hbank : ∀ a, InRange flashSectAddr cfgEnvSectSize a → InBank (opened info i) a := by
    intro a ha
    obtain ⟨hlen, hlo, hhi⟩ := hin a ha
    have htiles := tiles hready.table
    exact ⟨Nat.le_trans (htiles.le (List.getElem_mem _)) hlo,
      Nat.lt_of_lt_of_le hhi (htiles.pieceEnd_le i)⟩
  have hfree : ∀ sect a, InRange flashSectAddr cfgEnvSectSize a →
      InSector (opened info i) sect a → isProtected (opened info i) sect = false := by
    intro sect a ha hsect
    rw [inSector_unique hready.table hsect (hin a ha)]
    exact opened_unprotected h hs.lt
  have hstraight : Straight flashSectAddr cfgEnvSectSize := ⟨by decide, by decide⟩
  rcases flashWrite_eq hready hstraight ram buf erased with
    ⟨hout, _⟩ | ⟨⟨sect, a, ha, hsect, hp⟩, _⟩ | ⟨_, _, heq⟩
  · exact absurd hbank hout
  · rw [hfree sect a ha hsect] at hp
    cases hp
  · rw [heq]
    exact writeBuff_blank (by decide) hbuf (fun a hlo hhi => hblank a ⟨hlo, hhi⟩) ram

/-- The flash after `saveenv`: the copy in RAM in place of the old environment. -/
def saved (s : EnvT) (flash : Memory) : Memory :=
  fun a => if InEnv a then envBytes s (a - cfgEnvAddr.toNat) else flash a

/-- The call succeeds exactly if the erase does, and then the environment is in the flash, the
rest of its sector is what it was, and the sector is closed again. -/
theorem saveenv_eq (h : Ready st.info) (hs : EnvSector st.info i) (hbuf : buf % 4 = 0)
    (hdev : Device (opened st.info i) (eraseCall polls op st.info i) st.flash erased) :
    saveenv polls op erased ram buf s st =
      (eraseCall polls op st.info i).result.map fun rc =>
        if rc ≠ 0 then (1, ⟨opened st.info i, erased⟩)
        else (0, ⟨protectSectors 1 ⟨i, i⟩ (opened st.info i), saved s st.flash⟩) := by
  have hready := opened_ready h i
  have hs' : EnvSector (opened st.info i) i := ⟨hs.lt, hs.first, hs.last⟩
  rw [saveenv, flashSectProtect_selected h hs.selected]
  refine (if_neg (not_not_intro rfl)).trans ?_
  show ((eraseCall polls op st.info i).result.bind fun rc => _) = _
  cases hresult : (eraseCall polls op st.info i).result with
  | none => rfl
  | some rc =>
    rw [Option.bind_some, Option.map_some]
    by_cases hrc : rc = 0
    · subst hrc
      have herased := erased_eq h hs hdev hresult
      rw [if_neg (not_not_intro rfl), if_neg (not_not_intro rfl),
        show protectSectors 0 ⟨i, i⟩ st.info = opened st.info i from rfl,
        flashWrite_env h hs hbuf (fun a ha => by rw [herased a, if_pos ha]),
        flashSectProtect_selected hready hs'.selected]
      show some ((0 : Nat), State.mk _ (Flash.Programmed.target _ _ _ _ _)) = _
      congr 3
      funext a
      rw [Flash.Programmed.target, saved, herased a]
      by_cases ha : InRange flashSectAddr cfgEnvSectSize a
      · obtain ⟨hlo, hhi⟩ := ha
        refine (if_pos ⟨hlo, hhi⟩).trans ?_
        rw [envBuffer_eq ram buf s st.flash (by omega), Nat.add_sub_of_le hlo]
        refine if_congr ?_ rfl rfl
        exact ⟨fun hk => ⟨hlo, (Nat.sub_lt_iff_lt_add' hlo).mp hk⟩,
          fun hk => (Nat.sub_lt_iff_lt_add' hlo).mpr hk.2⟩
      · rw [if_neg ha]
        refine (if_neg ha).trans (if_neg ?_).symm
        exact fun henv => ha ⟨henv.1, Nat.lt_of_lt_of_le henv.2 (by decide)⟩
    · rw [if_pos hrc, if_pos hrc]
      rfl

/-- The environments are the same to the boot loader. -/
def Same (s t : EnvT) : Prop := t.crc = s.crc ∧ ∀ i < envSize, t.data i = s.data i

theorem Same.dataBytes (h : Same s t) : dataBytes t.data = dataBytes s.data :=
  List.map_congr_left fun i hi => h.2 i (List.mem_range.mp hi)

theorem Same.encodes {es : List Entry} (h : Same s t) (henv : Encodes s.data es) :
    Encodes t.data es := by
  have hfits := henv.fits
  refine ⟨fun k hk => ?_, hfits⟩
  rw [h.2 _ (by omega)]
  exact henv.holds k hk

theorem flashEnv_saved (s : EnvT) (flash : Memory) : Same s (flashEnv (saved s flash)) := by
  have hbyte : ∀ k < cfgEnvSize, saved s flash (cfgEnvAddr.toNat + k) = envBytes s k := by
    intro k hk
    rw [saved, if_pos ⟨Nat.le_add_right _ _, by omega⟩, Nat.add_sub_cancel_left]
  constructor
  · apply word_ext
    intro k hk
    show byteOf (wordAt _ _) k = _
    rw [byteOf_wordAt _ _ hk, hbyte k (Nat.lt_trans hk (by decide)), envBytes, if_pos hk]
  · intro k hk
    show saved s flash (cfgEnvAddr.toNat + 4 + k) = _
    have hsize : envSize + 4 = cfgEnvSize := rfl
    rw [Nat.add_assoc, hbyte _ (by omega), envBytes, if_neg (by omega), Nat.add_sub_cancel_left]

/-- The sum is that of the data. -/
def Summed (s : EnvT) : Prop := s.crc = crc32 0 (dataBytes s.data)

theorem envInit_saved (s : EnvT) (flash : Memory) :
    envInit (saved s flash) = true ↔ Summed s := by
  have hsame := flashEnv_saved s flash
  rw [envInit, decide_eq_true_iff, hsame.dataBytes, hsame.1]
  exact eq_comm

theorem reset_saved (h : Summed s) (flash : Memory) (defaultEnvironment : List UInt8) :
    reset defaultEnvironment (saved s flash) = some (flashEnv (saved s flash)) := by
  rw [reset, (envInit_saved s flash).mpr h]
  rfl

/-- A call that succeeds has saved the environment. -/
theorem saveenv_saved (h : Ready st.info) (hs : EnvSector st.info i) (hbuf : buf % 4 = 0)
    (hdev : Device (opened st.info i) (eraseCall polls op st.info i) st.flash erased)
    (hsave : saveenv polls op erased ram buf s st = some (0, st')) :
    st'.flash = saved s st.flash := by
  rw [saveenv_eq h hs hbuf hdev] at hsave
  obtain ⟨rc, -, heq⟩ := Option.map_eq_some_iff.mp hsave
  by_cases hrc : rc = 0
  · rw [if_neg (not_not_intro hrc)] at heq
    rw [← (Prod.mk.inj heq).2]
  · rw [if_pos hrc] at heq
    exact absurd (Prod.mk.inj heq).1 Nat.one_ne_zero

/-- What was saved is back after a reset if its sum was right, and else the default environment
takes its place. The rest of the flash is what it was. -/
theorem saveenv_reset (h : Ready st.info) (hs : EnvSector st.info i) (hbuf : buf % 4 = 0)
    (hdev : Device (opened st.info i) (eraseCall polls op st.info i) st.flash erased)
    (hsave : saveenv polls op erased ram buf s st = some (0, st'))
    (defaultEnvironment : List UInt8) :
    (∀ a, ¬InEnv a → st'.flash a = st.flash a) ∧
      (Summed s → ∃ t, reset defaultEnvironment st'.flash = some t ∧ Same s t) ∧
      (¬Summed s → reset defaultEnvironment st'.flash =
        envRelocate false defaultEnvironment st'.flash) := by
  rw [saveenv_saved h hs hbuf hdev hsave]
  refine ⟨fun a ha => if_neg ha, fun hsum => ?_, fun hsum => ?_⟩
  · exact ⟨_, reset_saved hsum _ _, flashEnv_saved s _⟩
  · rw [reset, Bool.eq_false_iff.mpr ((envInit_saved s _).not.mpr hsum)]

open Variables

/-- After a run of definitions that the last call of has accepted, `saveenv` and a reset, every
name stands for what it stood for before. -/
theorem saved_restored {vars : Vars} {calls : List Call} {c : Call}
    (henv : Encodes s.data vars.entries) (hrun : Run.exec call s calls = some t)
    (hlast : setenv c.board t c.name c.vals = some (0, u)) (h : Ready st.info)
    (hs : EnvSector st.info i) (hbuf : buf % 4 = 0)
    (hdev : Device (opened st.info i) (eraseCall polls op st.info i) st.flash erased)
    (hsave : saveenv polls op erased ram buf u st = some (0, st'))
    (defaultEnvironment : List UInt8) :
    ∃ r, reset defaultEnvironment st'.flash = some r ∧
      ∀ name, getenv r.data name = getenv u.data name := by
  obtain ⟨t', hrun', henv'⟩ := run_encodes henv calls
  obtain rfl := Option.some.inj (hrun'.symm.trans hrun)
  obtain ⟨u', hcall, hencodes, hcrc⟩ := setenv_of_encodes henv' c.board c.name c.vals
  obtain ⟨hrc, rfl⟩ := Prod.mk.inj (Option.some.inj (hcall.symm.trans hlast))
  rw [if_pos hrc] at hcrc
  have hsame := flashEnv_saved u' st.flash
  rw [saveenv_saved h hs hbuf hdev hsave]
  refine ⟨_, reset_saved hcrc st.flash defaultEnvironment, fun name => ?_⟩
  rw [getenv_of_encodes (hsame.encodes hencodes), getenv_of_encodes hencodes]

open Flash.Board

/-- The last sector of the bank of the board. -/
theorem at49_envSector : EnvSector at49Info 134 := by
  refine ⟨by decide, ?_, ?_⟩ <;> decide +kernel

/-- An erase that is finished when it is looked at for the first time. -/
def promptErase : Operation := ⟨some 0, fun _ => 0⟩

theorem at49_erased : (eraseCall 1 promptErase at49Info 134).result = some 0 := by
  decide +kernel

/-- What the last sector holds after an erase. -/
def at49Blank (flash : Memory) : Memory :=
  fun a => if InRange flashSectAddr cfgEnvSectSize a then 0xFF else flash a

/-- Any environment is saved. -/
theorem saveenv_at49 (s : EnvT) :
    saveenv 1 promptErase (at49Blank fun _ => 0) (fun _ => 0) 0 s ⟨at49Info, fun _ => 0⟩ =
      some (0, ⟨protectSectors 1 ⟨134, 134⟩ (opened at49Info 134), saved s fun _ => 0⟩) := by
  rw [saveenv_eq at49_ready at49_envSector rfl
    (device_blank at49_ready at49_envSector 1 promptErase _), at49_erased]
  rfl

/-- The definition saved is back, and not the default environment, which is empty. -/
theorem saveenv_reset_at49 :
    let c : Call := ⟨easyBoard, ⟨[0x61], by decide⟩, [⟨[0x31], by decide⟩]⟩
    ∃ u st' t, setenv c.board cleared c.name c.vals = some (0, u) ∧
      saveenv 1 promptErase (at49Blank fun _ => 0) (fun _ => 0) 0 u ⟨at49Info, fun _ => 0⟩ =
        some (0, st') ∧
      reset [] st'.flash = some t ∧ Same u t ∧ getenv t.data c.name = some (some [0x31]) := by
  obtain ⟨u, hcall, hencodes, hcrc⟩ := setenv_of_encodes cleared_encodes easyBoard
    ⟨[0x61], by decide⟩ [⟨[0x31], by decide⟩]
  have hdev := device_blank at49_ready at49_envSector 1 promptErase fun _ => 0
  obtain ⟨t, hreset, hsame⟩ :=
    (saveenv_reset at49_ready at49_envSector rfl hdev (saveenv_at49 u) []).2.1 hcrc
  refine ⟨u, _, t, hcall, saveenv_at49 u, hreset, hsame, ?_⟩
  rw [getenv_eq_lookup (hsame.encodes hencodes)]
  rfl

/-- `setenv a 1; saveenv; reset` -/
theorem saved_restored_at49 :
    let c : Call := ⟨easyBoard, ⟨[0x61], by decide⟩, [⟨[0x31], by decide⟩]⟩
    ∃ u st' r, setenv c.board cleared c.name c.vals = some (0, u) ∧
      saveenv 1 promptErase (at49Blank fun _ => 0) (fun _ => 0) 0 u ⟨at49Info, fun _ => 0⟩ =
        some (0, st') ∧
      reset [] st'.flash = some r ∧ getenv r.data c.name = some (some [0x31]) := by
  obtain ⟨u, hcall, hencodes, -⟩ := setenv_of_encodes cleared_encodes easyBoard
    ⟨[0x61], by decide⟩ [⟨[0x31], by decide⟩]
  have hdev := device_blank at49_ready at49_envSector 1 promptErase fun _ => 0
  have hrun : Run.exec call cleared [] = some cleared := rfl
  obtain ⟨r, hreset, hsame⟩ := saved_restored
    (c := ⟨easyBoard, ⟨[0x61], by decide⟩, [⟨[0x31], by decide⟩]⟩) cleared_encodes hrun hcall
    at49_ready at49_envSector rfl hdev (saveenv_at49 u) []
  refine ⟨u, _, r, hcall, saveenv_at49 u, hreset, ?_⟩
  rw [hsame, getenv_eq_lookup hencodes]
  rfl

end Plak1a.Env.Saveenv
