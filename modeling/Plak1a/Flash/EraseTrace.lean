import Mathlib.Data.List.Nodup
import Plak1a.Flash.Erase
import Plak1a.Flash.Tiling
import Plak1a.Lib.Trace

/-!
# Which sectors `flash_erase` reaches

Every unprotected sector of the range gets its erase command, and nothing else does. The
unlock sequence stands before each of them for SST devices and for the AT49BV642D, which the
code asks for by name; for the others it stands before the first sector of the range alone,
and not even there if that one is protected.
-/

namespace Plak1a.Flash.EraseTrace

open Info Bank Erase Tiling Lib.Trace

/-- The address of an erase command. -/
def eraseAddr : Cycle → Option UInt32
  | .command addr data => if data = 0x0050 ∨ data = 0x0030 then some addr else none
  | .datum _ _ => none

def IsErase (c : Cycle) : Prop := eraseAddr c ≠ none

/-- The sector is in the range and not protected. -/
def Requested (info : FlashInfo) (sFirst sLast sect : Nat) : Prop :=
  sFirst ≤ sect ∧ sect ≤ sLast ∧ isProtected info sect = false

instance (info : FlashInfo) (sFirst sLast sect : Nat) :
    Decidable (Requested info sFirst sLast sect) :=
  inferInstanceAs (Decidable (_ ∧ _))

/-- Each requested sector gets one erase command, which comes directly after the unlock
sequence; there are no others. -/
structure Reaches (info : FlashInfo) (sFirst sLast : Nat) (cycles : List Cycle) : Prop where
  once : ∀ sect < info.sectorCount,
    cycles.countP (fun c => eraseAddr c = some (sectorStart info sect)) =
      if Requested info sFirst sLast sect then 1 else 0
  only : ∀ c ∈ cycles, ∀ addr, eraseAddr c = some addr →
    ∃ sect, Requested info sFirst sLast sect ∧ sectorStart info sect = addr
  unlocked : Preceded IsErase (unlock info) cycles

/-- The sectors of the table start at different addresses. -/
def Distinct (info : FlashInfo) : Prop :=
  ∀ i < info.sectorCount, ∀ j < info.sectorCount, sectorStart info i = sectorStart info j → i = j

/-- The device is unlocked before every sector. -/
def UnlocksEach (info : FlashInfo) : Prop :=
  info.flashId &&& flashVendMask = flashManSst ∨ info.flashId &&& flashTypeMask = flashAtbv642DT

instance (info : FlashInfo) : Decidable (UnlocksEach info) :=
  inferInstanceAs (Decidable (_ ∨ _))

variable {info : FlashInfo} {sFirst sLast sect n : Nat} {op : Operation} {polls : Nat}

theorem isErase_of {c : Cycle} {addr : UInt32} (h : eraseAddr c = some addr) : IsErase c :=
  Option.ne_none_iff_exists'.mpr ⟨addr, h⟩

theorem countP_of_not_erase {tail : List Cycle} (htail : ∀ c ∈ tail, ¬ IsErase c) (addr : UInt32) :
    tail.countP (fun c => eraseAddr c = some addr) = 0 := by
  rw [List.countP_eq_zero]
  intro c hc hsome
  exact htail c hc (isErase_of (of_decide_eq_true hsome))

theorem unlock_not_erase : ∀ c ∈ unlock info, ¬ IsErase c := by
  intro c hc
  simp only [unlock, List.mem_cons, List.not_mem_nil, or_false] at hc
  rcases hc with rfl | rfl | rfl | rfl | rfl <;> exact not_not_intro rfl

theorem unlock_last (info : FlashInfo) :
    ∃ y, (unlock info).getLast? = some y ∧ ¬ IsErase y := ⟨_, rfl, not_not_intro rfl⟩

theorem eraseSector_protected (h : isProtected info sect = true) (sFirst : Nat) :
    eraseSector info sFirst sect = [] := if_pos h

/-- An unprotected sector gets one erase command, with or without the unlock sequence. -/
theorem eraseSector_eq (h : isProtected info sect = false) (sFirst : Nat) :
    ∃ c, eraseAddr c = some (sectorStart info sect) ∧
      eraseSector info sFirst sect =
        (if UnlocksEach info ∨ sect = sFirst then unlock info else []) ++ [c] := by
  rw [eraseSector, if_neg (Bool.eq_false_iff.mp h)]
  by_cases hsst : info.flashId &&& flashVendMask = flashManSst
  · refine ⟨.command (sectorStart info sect) 0x0050, rfl, ?_⟩
    have hu : UnlocksEach info := Or.inl hsst
    rw [if_pos hsst, if_pos (Or.inl hu)]
  · refine ⟨.command (sectorStart info sect) 0x0030, rfl, ?_⟩
    rw [if_neg hsst]
    by_cases hfirst : sect = sFirst ∨ info.flashId &&& flashTypeMask = flashAtbv642DT
    · have hu : UnlocksEach info ∨ sect = sFirst := hfirst.symm.imp_left Or.inr
      rw [if_pos hfirst, if_pos hu]
    · rw [if_neg hfirst, if_neg]
      · rfl
      · rintro ((h | h) | h)
        · exact hsst h
        · exact hfirst (Or.inr h)
        · exact hfirst (Or.inl h)

theorem mem_eraseSector {c : Cycle} {addr : UInt32} (hc : c ∈ eraseSector info sFirst sect)
    (ha : eraseAddr c = some addr) :
    isProtected info sect = false ∧ sectorStart info sect = addr := by
  cases hp : isProtected info sect with
  | true =>
    rw [eraseSector_protected hp] at hc
    exact absurd hc List.not_mem_nil
  | false =>
    obtain ⟨c', hc', heq⟩ := eraseSector_eq hp sFirst
    rw [heq, List.mem_append, List.mem_singleton] at hc
    rcases hc with hc | rfl
    · split at hc
      · exact absurd (isErase_of ha) (unlock_not_erase c hc)
      · exact absurd hc List.not_mem_nil
    · exact ⟨rfl, Option.some.inj (hc'.symm.trans ha)⟩

theorem endsIn_eraseSector (info : FlashInfo) (sFirst sect : Nat) :
    EndsIn IsErase (eraseSector info sFirst sect) := by
  intro x hx
  cases hp : isProtected info sect with
  | true =>
    rw [eraseSector_protected hp] at hx
    cases hx
  | false =>
    obtain ⟨c, hc, heq⟩ := eraseSector_eq hp sFirst
    rw [heq, List.getLast?_concat] at hx
    cases hx
    exact isErase_of hc

theorem preceded_eraseSector
    (h : isProtected info sect = false → UnlocksEach info ∨ sect = sFirst) :
    Preceded IsErase (unlock info) (eraseSector info sFirst sect) := by
  cases hp : isProtected info sect with
  | true =>
    rw [eraseSector_protected hp]
    exact preceded_of_forall_not fun c hc => absurd hc List.not_mem_nil
  | false =>
    obtain ⟨c, _, heq⟩ := eraseSector_eq hp sFirst
    rw [heq, if_pos (h hp)]
    exact preceded_concat unlock_not_erase

/-- Among the sectors of the table, the erase commands of one go to no other. -/
theorem countP_eraseSector (hd : Distinct info) (hn : n < info.sectorCount)
    (hs : sect < info.sectorCount) (sFirst : Nat) :
    (eraseSector info sFirst n).countP (fun c => eraseAddr c = some (sectorStart info sect)) =
      if n = sect ∧ isProtected info sect = false then 1 else 0 := by
  cases hp : isProtected info n with
  | true =>
    rw [eraseSector_protected hp, List.countP_nil, if_neg]
    rintro ⟨rfl, h⟩
    exact absurd (hp.symm.trans h) Bool.true_eq_false.mp
  | false =>
    obtain ⟨c, hc, heq⟩ := eraseSector_eq hp sFirst
    have hunlock : ∀ c ∈ if UnlocksEach info ∨ n = sFirst then unlock info else [],
        ¬ IsErase c := by
      intro c hc
      split at hc
      · exact unlock_not_erase c hc
      · exact absurd hc List.not_mem_nil
    rw [heq, List.countP_append, countP_of_not_erase hunlock, List.countP_singleton, hc,
      Nat.zero_add]
    congr 1
    rw [decide_eq_true_iff, Option.some_inj]
    apply propext
    constructor
    · intro h
      obtain rfl := hd n hn sect hs h
      exact ⟨rfl, hp⟩
    · rintro ⟨rfl, _⟩
      rfl

/-- The commands for the sectors of the range. -/
def commands (info : FlashInfo) (sFirst sLast : Nat) : List Cycle :=
  (List.range' sFirst (sLast + 1 - sFirst)).flatMap (eraseSector info sFirst)

theorem countP_commands (hd : Distinct info) (hs : sect < info.sectorCount) (first : Nat)
    (hn : sFirst + n ≤ info.sectorCount) :
    ((List.range' sFirst n).flatMap (eraseSector info first)).countP
        (fun c => eraseAddr c = some (sectorStart info sect)) =
      if sFirst ≤ sect ∧ sect < sFirst + n ∧ isProtected info sect = false then 1 else 0 := by
  induction n generalizing sFirst with
  | zero =>
    rw [if_neg (by omega)]
    rfl
  | succ n ih =>
    rw [List.range'_succ, List.flatMap_cons, List.countP_append,
      countP_eraseSector hd (by omega) hs, ih (by omega)]
    cases isProtected info sect with
    | true => simp
    | false =>
      simp only [and_true]
      split <;> split <;> split <;> omega

/-- What a call writes once its arguments are accepted. -/
theorem flashErase_cycles (info : FlashInfo) (polls : Nat) (op : Operation) (h : sFirst ≤ sLast)
    (hid : info.flashId ≠ flashUnknown) :
    ∃ tail, (flashErase polls op info sFirst sLast).cycles = commands info sFirst sLast ++ tail ∧
      ∀ c ∈ tail, ¬ IsErase c := by
  have hsectors : sectors sFirst sLast = List.range' sFirst (sLast + 1 - sFirst) := by
    rw [sectors, Int.toNat_natCast]
    congr 1
    omega
  have hnil : ∀ c ∈ ([] : List Cycle), ¬ IsErase c := fun c hc => absurd hc List.not_mem_nil
  have hreset : ∀ c ∈ [resetBank (sectorStart info 0)], ¬ IsErase c := by
    intro c hc
    rw [List.mem_singleton.mp hc]
    exact not_not_intro rfl
  rw [flashErase, if_neg (by omega), if_neg hid, Int.toNat_natCast, hsectors]
  split
  · exact ⟨_, rfl, hreset⟩
  · split
    · exact ⟨[], (List.append_nil _).symm, hnil⟩
    · split
      · exact ⟨_, rfl, hreset⟩
      · exact ⟨[], (List.append_nil _).symm, hnil⟩

/-- A sector behind the first one is erased without the unlock sequence. -/
theorem not_preceded_commands (heach : ¬ UnlocksEach info)
    (hreq : Requested info sFirst sLast sect) (hne : sect ≠ sFirst) (tail : List Cycle) :
    ¬ Preceded IsErase (unlock info) (commands info sFirst sLast ++ tail) := by
  obtain ⟨hge, hle, hp⟩ := hreq
  obtain ⟨c, hc, heq⟩ := eraseSector_eq hp sFirst
  obtain ⟨y, hy, hnot⟩ := unlock_last info
  have hrange : List.range' sFirst (sLast + 1 - sFirst) =
      List.range' sFirst (sect - sFirst) ++ sect :: List.range' (sect + 1) (sLast - sect) := by
    rw [← List.range'_succ, show sLast + 1 - sFirst = sect - sFirst + (sLast - sect + 1) by omega,
      ← List.range'_append_1, show sFirst + (sect - sFirst) = sect by omega]
  rw [if_neg (not_or.mpr ⟨heach, hne⟩), List.nil_append] at heq
  rw [commands, hrange, List.flatMap_append, List.flatMap_cons, heq, List.append_assoc,
    List.append_assoc, List.singleton_append]
  exact not_preceded (endsIn_flatMap (endsIn_eraseSector info sFirst)) (isErase_of hc) hy hnot

theorem preceded_commands
    (h : UnlocksEach info ∨ ∀ sect, Requested info sFirst sLast sect → sect = sFirst) :
    Preceded IsErase (unlock info) (commands info sFirst sLast) := by
  apply preceded_flatMap
  intro sect hsect
  have hbounds := List.mem_range'_1.mp hsect
  apply preceded_eraseSector
  exact fun hp => h.imp_right fun hfirst => hfirst sect ⟨hbounds.1, by omega, hp⟩

theorem reaches_iff (hd : Distinct info) (hlast : sLast < info.sectorCount) (h : sFirst ≤ sLast)
    {tail : List Cycle} (htail : ∀ c ∈ tail, ¬ IsErase c) :
    Reaches info sFirst sLast (commands info sFirst sLast ++ tail) ↔
      UnlocksEach info ∨ ∀ sect, Requested info sFirst sLast sect → sect = sFirst := by
  constructor
  · intro hr
    by_contra hnot
    obtain ⟨heach, hsect⟩ := not_or.mp hnot
    obtain ⟨sect, hreq⟩ := not_forall.mp hsect
    obtain ⟨hreq, hne⟩ := Classical.not_imp.mp hreq
    exact not_preceded_commands heach hreq hne tail hr.unlocked
  · intro hcond
    refine ⟨?_, ?_, ?_⟩
    · intro sect hs
      rw [List.countP_append, countP_of_not_erase htail, Nat.add_zero, commands,
        countP_commands hd hs sFirst (by omega)]
      apply if_congr _ rfl rfl
      constructor
      · exact fun ⟨hge, hlt, hp⟩ => ⟨hge, by omega, hp⟩
      · exact fun ⟨hge, hle, hp⟩ => ⟨hge, by omega, hp⟩
    · intro c hc addr ha
      rcases List.mem_append.mp hc with hc | hc
      · obtain ⟨sect, hsect, hc⟩ := List.mem_flatMap.mp hc
        obtain ⟨hp, hstart⟩ := mem_eraseSector hc ha
        have hbounds := List.mem_range'_1.mp hsect
        exact ⟨sect, ⟨hbounds.1, by omega, hp⟩, hstart⟩
      · exact absurd (isErase_of ha) (htail c hc)
    · exact (preceded_commands hcond).append (preceded_of_forall_not htail)

variable {read : UInt32 → UInt16} {base : UInt32} {m : Manufacturer} {d : Device}

theorem known_id : ∀ m ∈ manufacturers, ∀ d ∈ devices, m.man + d.type ≠ flashUnknown ∧
    (((m.man + d.type) &&& flashVendMask = flashManSst ∨
        (m.man + d.type) &&& flashTypeMask = flashAtbv642DT) ↔
      m.man = flashManSst ∨ d.type = flashAtbv642DT) := by
  decide

theorem distinct_table (hm : m ∈ manufacturers) (hd : d ∈ devices) (base : UInt32)
    (hstart : info.start = (sizeTable 0 (identified m d)).map (base + ·))
    (hcount : info.sectorCount = d.sectorCount) : Distinct info := by
  have htable := tables_at0 m hm d hd
  have hnodup : info.start.Nodup := by
    rw [hstart]
    apply List.Nodup.map fun a b hab => (UInt32.add_right_inj base).mp hab
    exact (List.isChain_iff_pairwise.mp htable.increasing).imp UInt32.ne_of_lt
  have hlength : info.start.length = info.sectorCount := by
    rw [hstart, List.length_map, htable.length, hcount]
  intro i hi j hj heq
  rw [← hlength] at hi hj
  rw [sectorStart, sectorStart, List.getD_eq_getElem _ _ hi, List.getD_eq_getElem _ _ hj] at heq
  exact (List.Nodup.getElem_inj_iff hnodup).mp heq

/-- On a known device `flash_erase` reaches every sector exactly if it unlocks the device
before each or there is no sector to erase but the first one of the range. -/
theorem flashErase_reaches_iff (old : FlashInfo)
    (hm : manufacturer (read (base + wordOffset 0)) = some m)
    (hd : device (read (base + wordOffset 1)) = some d) (protect : List UInt8)
    (h : sFirst ≤ sLast) (hlast : sLast < d.sectorCount) (polls : Nat) (op : Operation) :
    let info := { (flashGetSize read base old).2 with protect }
    Reaches info sFirst sLast (flashErase polls op info sFirst sLast).cycles ↔
      m.man = flashManSst ∨ d.type = flashAtbv642DT ∨
        ∀ sect, Requested info sFirst sLast sect → sect = sFirst := by
  have hm' := manufacturer_mem hm
  have hd' := device_mem hd
  obtain ⟨hid, hunlocks⟩ := known_id m hm' d hd'
  rw [flashGetSize_eq old hm hd]
  intro info
  rw [← or_assoc, ← hunlocks]
  obtain ⟨tail, htail, hnot⟩ := flashErase_cycles info polls op h hid
  rw [htail]
  exact reaches_iff (distinct_table hm' hd' base rfl rfl) hlast h hnot

/-- The last two sectors of the Atmel device. -/
theorem atbv642DT_reached :
    let read := fun addr => if addr = 0x80000000 then 0x001F else 0x01D2
    let info := { (flashGetSize read 0x80000000 ⟨0, 0, flashUnknown, [], []⟩).2 with
      protect := [] }
    Reaches info 133 134 (flashErase 1 ⟨some 0, fun _ => 0⟩ info 133 134).cycles := by
  apply (flashErase_reaches_iff (m := ⟨0x001F, flashManAtm⟩)
    (d := ⟨0x01D2, flashAtbv642DT, 135, 0x00800000⟩) _ rfl rfl [] (by decide) (by decide) _ _).mpr
  exact Or.inr (Or.inl rfl)

/-- The AM29LV160B is not unlocked before its second sector; the call returns 0. -/
theorem second_sector_locked :
    let info := { (flashGetSize (answers 0x80000000 0x2249) 0x80000000
      ⟨0, 0, flashUnknown, [], []⟩).2 with protect := [] }
    let r := flashErase 1 ⟨some 0, fun _ => 0⟩ info 0 1
    r.result = some 0 ∧
      r.cycles = unlock info ++ [.command 0x80000000 0x0030] ++
        .command 0x80004000 0x0030 :: [resetBank 0x80000000] ∧
      ¬ Reaches info 0 1 r.cycles := by
  intro info r
  have hcycles : r.cycles = unlock info ++ [.command 0x80000000 0x0030] ++
      .command 0x80004000 0x0030 :: [resetBank 0x80000000] := by decide +kernel
  refine ⟨by decide +kernel, hcycles, ?_⟩
  intro h
  have hunlocked := h.unlocked
  rw [hcycles] at hunlocked
  obtain ⟨y, hy, hnot⟩ := unlock_last info
  refine not_preceded ?_ (isErase_of rfl) hy hnot hunlocked
  intro c hc
  obtain rfl := Option.some.inj hc
  exact isErase_of rfl

end Plak1a.Flash.EraseTrace
