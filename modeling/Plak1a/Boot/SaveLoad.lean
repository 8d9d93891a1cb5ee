import Plak1a.Boot.LoadSerial
import Plak1a.Flash.Board

/-!
# What is saved as S-records is loaded again

The records of `save_serial` are followed through both functions one by one. `Loads` says that a
text takes the loader from one state to another whatever is behind it.
-/

namespace Plak1a.Boot.SaveLoad

open Flash.Info Flash.Access SRecord Number LoadSerial Lib
open Flash.WriteBuff (Memory)

/-- `n` bytes of memory. -/
def slice (m : Memory) (a n : Nat) : List UInt8 := (List.range' a n).map m

variable {m : Memory} {info : FlashInfo} {offset : UInt32} {bs text text' : List UInt8}
  {a d n r k k' count : Nat} {l l' l'' : Loader} {s : Saver}

/-- The bytes of a number, highest first. -/
def beBytes : (k n : Nat) → List UInt8
  | 0, _ => []
  | k + 1, n => beBytes k (n / 256) ++ [UInt8.ofNat (n % 256)]

@[simp] theorem length_beBytes (k n : Nat) : (beBytes k n).length = k := by
  induction k generalizing n with
  | zero => rfl
  | succ k ih => simp [beBytes, ih]

theorem toUInt8_masked (v : UInt32) : (v &&& 0xff).toUInt8 = v.toUInt8 := by
  rw [← UInt8.toNat_inj, UInt32.toNat_toUInt8, UInt32.toNat_toUInt8, UInt32.toNat_and,
    show (0xff : UInt32).toNat = 2 ^ 8 - 1 from rfl, Nat.and_two_pow_sub_one_eq_mod, Nat.mod_mod]

theorem byte_at (v : UInt32) {i : Nat} (hi : i < 4) :
    ((v >>> (8 * UInt32.ofNat i)) &&& 0xff).toUInt8 = UInt8.ofNat (v.toNat / 256 ^ i) := by
  have hshift : (8 * UInt32.ofNat i).toNat % 32 = 8 * i := by
    rw [UInt32.toNat_mul, UInt32.toNat_ofNat_of_lt' (by rw [UInt32.size]; omega),
      show (8 : UInt32).toNat = 8 from rfl]
    omega
  rw [toUInt8_masked, ← UInt8.toNat_inj, UInt32.toNat_toUInt8, UInt32.toNat_shiftRight, hshift,
    Nat.shiftRight_eq_div_pow, UInt8.toNat_ofNat', Nat.pow_mul]

theorem toUInt8_sum (xs : List UInt32) : xs.sum.toUInt8 = (xs.map UInt32.toUInt8).sum := by
  induction xs with
  | nil => rfl
  | cons x xs ih => simp [ih]

theorem sumBytes_eq {n : Nat} (hn : n ≤ 4) (v : UInt32) :
    (sumBytes n v).toUInt8 = ((List.range n).map fun i => UInt8.ofNat (v.toNat / 256 ^ i)).sum := by
  rw [sumBytes, toUInt8_sum, List.map_map]
  refine congrArg List.sum (List.map_congr_left fun i hi => ?_)
  exact byte_at v (Nat.lt_of_lt_of_le (List.mem_range.mp hi) hn)

theorem sumBytes_address (v : UInt32) : (sumBytes 4 v).toUInt8 = (beBytes 4 v.toNat).sum := by
  rw [sumBytes_eq (Nat.le_refl 4)]
  simp only [beBytes, List.range_succ, List.range_zero, List.nil_append, List.cons_append,
    List.map_cons, List.map_nil, List.sum_cons, List.sum_nil, Nat.div_div_eq_div_mul]
  rw [← UInt8.toNat_inj]
  simp only [UInt8.toNat_add, UInt8.toNat_ofNat', UInt8.toNat_zero]
  omega

theorem sumBytes_length {n : Nat} (h : n < 256) :
    (sumBytes 2 (UInt32.ofNat n)).toUInt8 = UInt8.ofNat n := by
  have hn : (UInt32.ofNat n).toNat = n := UInt32.toNat_ofNat_of_lt' (Nat.lt_trans h (by decide))
  rw [sumBytes_eq (by decide), hn]
  simp [List.range_succ, Nat.div_eq_of_lt h]

/-- The buffers of `save_serial` when `r` bytes are in them. -/
structure Collected (m : Memory) (a r : Nat) (s : Saver) : Prop where
  address : s.address.toNat = a
  reclen : s.reclen = r
  checksum : s.checksum.toUInt8 = (slice m a r).sum
  data : Spells s.data (slice m a r)

theorem Collected.start (m : Memory) (address : UInt32) :
    Collected m address.toNat 0 ⟨address, 0, 0, []⟩ := ⟨rfl, rfl, rfl, .nil⟩

/-- A character that `read_record` takes into the line. -/
def Plain (c : UInt8) : Prop := c ≠ cr ∧ c ≠ lf ∧ c ≠ 0 ∧ c ≠ controlC

instance (c : UInt8) : Decidable (Plain c) := inferInstanceAs (Decidable (_ ∧ _))

/-- A line of the loader, with the record that it is. -/
structure Line (text : List UInt8) (type : SrecType) (addr : UInt32) (bs : List UInt8) : Prop where
  decoded : srecDecode text = .ok (.record type bs.length addr bs)
  plain : ∀ c ∈ text, Plain c
  short : text.length < srecMaxRecLen

/-- The sum that is written makes the bytes of the record sum up to 0xFF. -/
theorem Collected.sum (h : Collected m a r s) (hr : 4 + r + 1 < 256) :
    UInt8.ofNat (4 + r + 1) + ((beBytes 4 s.address.toNat).sum + ((slice m a r).sum +
      (~~~(s.checksum + sumBytes 2 (UInt32.ofNat (4 + r + 1)) + sumBytes 4 s.address) &&&
        0xff).toUInt8)) = 0xFF := by
  rw [toUInt8_masked, UInt32.toUInt8_not, UInt32.toUInt8_add, UInt32.toUInt8_add, h.checksum,
    sumBytes_length hr, sumBytes_address, ← UInt8.add_assoc, ← UInt8.add_assoc]
  refine (not_sum _ _).mp (not_not_intro (congrArg _ ?_))
  ac_rfl

/-- Characters none of which is early. -/
def arrivals (text : List UInt8) : List Arrival := text.map (⟨·, false⟩)

theorem arrivals_append : arrivals (text ++ text') = arrivals text ++ arrivals text' :=
  List.map_append

/-- A text takes the loader from one state to another in `k` rounds. -/
def Loads (info : FlashInfo) (offset : UInt32) (text : List UInt8) (k : Nat) (l l' : Loader) :
    Prop :=
  ∀ n rest, loadSerial info offset (n + k) (arrivals text ++ rest) l =
    loadSerial info offset n rest l'

theorem Loads.trans (h : Loads info offset text k l l') (h' : Loads info offset text' k' l' l'') :
    Loads info offset (text ++ text') (k + k') l l'' := by
  intro n rest
  rw [arrivals_append, List.append_assoc, show n + (k + k') = n + k' + k by omega, h, h']

/-- `n` bytes from `a` on were moved to `d`. -/
structure Moved (m : Memory) (a d n : Nat) (l l' : Loader) : Prop where
  ram : l'.ram = Memory.copy l.ram d m a n
  flash : l'.flash = l.flash
  startAddr : l'.startAddr.toNat =
    if n = 0 then l.startAddr.toNat else min l.startAddr.toNat d
  endAddr : l'.endAddr.toNat =
    if n = 0 then l.endAddr.toNat else max l.endAddr.toNat (d + n - 1)

theorem Moved.refl (m : Memory) (a d : Nat) (l : Loader) : Moved m a d 0 l l := by
  refine ⟨?_, rfl, rfl, rfl⟩
  funext i
  rw [Memory.copy, if_neg (by omega)]

theorem Moved.trans (h : Moved m a d n l l') (h' : Moved m (a + n) (d + n) k l' l'') :
    Moved m a d (n + k) l l'' := by
  refine ⟨?_, h'.flash.trans h.flash, ?_, ?_⟩
  · rw [h'.ram, h.ram, Memory.copy_copy]
  · rw [h'.startAddr, h.startAddr]
    split <;> split <;> split <;> omega
  · rw [h'.endAddr, h.endAddr]
    split <;> split <;> split <;> omega

theorem toNat_lower (a b : UInt32) : (if a < b then a else b).toNat = min b.toNat a.toNat := by
  split <;> rename_i h <;> simp only [UInt32.lt_iff_toNat_lt] at h <;> omega

theorem toNat_higher (a b : UInt32) : (if a > b then a else b).toNat = max b.toNat a.toNat := by
  split <;> rename_i h <;> simp only [gt_iff_lt, UInt32.lt_iff_toNat_lt] at h <;> omega

theorem toNat_last {storeAddr : UInt32} (hd : storeAddr.toNat = d) (hr : 0 < r)
    (hfit : d + r ≤ 2 ^ 32) : (storeAddr + UInt32.ofInt r - 1).toNat = d + r - 1 := by
  have hofInt : (UInt32.ofInt r).toNat = r % 2 ^ 32 := by
    show (UInt32.ofNat ((r : Int) % 2 ^ 32).toNat).toNat = _
    rw [UInt32.toNat_ofNat']
    omega
  rw [UInt32.toNat_sub, UInt32.toNat_add, hd, hofInt, show (1 : UInt32).toNat = 1 from rfl]
  omega

/-- The size that `load_serial` reports after a block. -/
theorem Moved.size {count : UInt32}
    (h : Moved m a d count.toNat { l with startAddr := 0xFFFFFFFF, endAddr := 0 } l')
    (hfit : d + count.toNat ≤ 2 ^ 32) :
    l'.endAddr - l'.startAddr + 1 = if count = 0 then 2 else count := by
  have hstart := h.startAddr
  have hend := h.endAddr
  rw [← UInt32.toNat_inj, UInt32.toNat_add, UInt32.toNat_sub, hstart, hend]
  by_cases hcount : count = 0
  · subst hcount
    rfl
  · have hpos : count.toNat ≠ 0 := fun h => hcount (UInt32.toNat_inj.mp h)
    rw [if_neg hpos, if_neg hpos, if_neg hcount]
    show ((2 ^ 32 - min 4294967295 d + max 0 (d + count.toNat - 1)) % 2 ^ 32 + 1) % 2 ^ 32 = _
    have hlt := count.toNat_lt
    omega

/-- No byte of RAM outside of the range that was noted is another one. -/
def Framed (ram : Memory) (l : Loader) : Prop :=
  ∀ x, x < l.startAddr.toNat ∨ l.endAddr.toNat < x → l.ram x = ram x

theorem Framed.noted {ram : Memory} (h : Framed ram l) (storeAddr : UInt32) (binlen : Int) :
    Framed ram (noteRange storeAddr binlen l) := by
  intro x hx
  refine h x ?_
  have hstart := toNat_lower storeAddr l.startAddr
  have hend := toNat_higher (storeAddr + UInt32.ofInt binlen - 1) l.endAddr
  simp only [noteRange, hstart, hend] at hx
  omega

theorem Framed.stored {ram : Memory} {storeAddr : UInt32} {binlen : Int} {rc : Nat}
    (h : Framed ram l) (hstore : storeData info storeAddr binlen l = some (rc, l')) :
    Framed ram (noteRange storeAddr binlen l') ∧ (rc ≠ 0 → Framed ram l') := by
  rw [storeData] at hstore
  split at hstore
  · obtain ⟨rfl, rfl⟩ := Prod.mk.inj (Option.some.inj hstore)
    have hflash : Framed ram { l with flash := (flashWrite info l.binbuf 0 storeAddr
      (UInt32.ofInt binlen) l.flash).2 } := h
    exact ⟨hflash.noted storeAddr binlen, fun _ => hflash⟩
  · split at hstore
    · cases hstore
    · next hfits =>
      obtain ⟨rfl, rfl⟩ := Prod.mk.inj (Option.some.inj hstore)
      refine ⟨?_, fun h0 => absurd rfl h0⟩
      intro x hx
      obtain ⟨n, rfl⟩ := Int.eq_ofNat_of_zero_le (show 0 ≤ binlen by omega)
      have hold := h.noted storeAddr n x hx
      have hstart := toNat_lower storeAddr l.startAddr
      have hend := toNat_higher (storeAddr + UInt32.ofInt n - 1) l.endAddr
      show Memory.copy l.ram storeAddr.toNat l.binbuf 0 n x = ram x
      rw [Memory.copy, if_neg, ← hold]
      · rfl
      · -- The bytes of the block are in the range.
        intro hin
        have hlast := toNat_last (d := storeAddr.toNat) (r := n)
          (rfl : storeAddr.toNat = storeAddr.toNat)
          (by omega) (by omega)
        simp only [noteRange, hstart, hend, hlast] at hx
        omega

end Plak1a.Boot.SaveLoad
