import Mathlib.Data.Nat.Find
import Plak1a.Lcd.Ili932x

/-!
# Mapping the frame buffer

`ili932xfb_mmap` inserts the pages of the buffer one by one. Only the size of the request
ends its loop: neither the offset of the request nor the size of the buffer is looked at.
What `vm_insert_page` answers is a parameter. The driver writes the port registers of the
LPC22xx, whose kernels have no MMU: there `vm_insert_page` refuses every page.
-/

namespace Plak1a.Lcd.Mmap

open Ili932x

def pageSize : Nat := 4096

/-- The pages of `ili932x_buffer`, the last one not full. -/
def bufferPages : Nat := (fbSize + pageSize - 1) / pageSize

/-- The kernel asks for whole pages. -/
structure Vma where
  vmStart : Nat
  vmEnd : Nat
  /-- in pages -/
  vmPgoff : Nat
  pages : Nat
  vmEnd_eq : vmEnd = vmStart + pages * pageSize

/-- A page of the buffer that was looked up, by its number, and what `vm_insert_page`
answered for it and an address. -/
structure Insertion where
  addr : Nat
  page : Nat
  result : Int
deriving DecidableEq

def eagain : Int := 11

/-- The loop of `ili932xfb_mmap`; `pos` is counted from the start of the buffer. -/
def mmapLoop (vmInsertPage : Nat → Nat → Int) (size start pos : Nat) : Int × List Insertion :=
  if 0 < size then
    let page := pos / pageSize
    let result := vmInsertPage start page
    if result ≠ 0 then (-eagain, [⟨start, page, result⟩])
    else
      let size := if pageSize < size then size - pageSize else 0
      let rest := mmapLoop vmInsertPage size (start + pageSize) (pos + pageSize)
      (rest.1, ⟨start, page, result⟩ :: rest.2)
  else (0, [])
termination_by size
decreasing_by
  have hpage : 0 < pageSize := by decide
  split <;> omega

/-- `ili932xfb_mmap` -/
def mmap (vmInsertPage : Nat → Nat → Int) (vma : Vma) : Int × List Insertion :=
  mmapLoop vmInsertPage (vma.vmEnd - vma.vmStart) vma.vmStart 0

/-- The call fails or maps the pages from the offset on, and no page it looks up is behind
the buffer. -/
structure ExposesBuffer (vma : Vma) (r : Int × List Insertion) : Prop where
  mapped : r.1 ≠ 0 ∨ ∀ i < vma.pages,
    ⟨vma.vmStart + i * pageSize, vma.vmPgoff + i, 0⟩ ∈ r.2
  within : ∀ x ∈ r.2, x.page < bufferPages

/-- The insertion for page `i` of the range is refused. -/
def Refused (vmInsertPage : Nat → Nat → Int) (vma : Vma) (i : Nat) : Prop :=
  vmInsertPage (vma.vmStart + i * pageSize) i ≠ 0

variable {vmInsertPage : Nat → Nat → Int} {vma : Vma} {n k start m i : Nat}

theorem mmapLoop_zero : mmapLoop vmInsertPage 0 start k = (0, []) := by
  rw [mmapLoop, if_neg (Nat.lt_irrefl 0)]

/-- A round for a page, with `n` more to come. -/
theorem mmapLoop_succ (start k n : Nat) :
    mmapLoop vmInsertPage ((n + 1) * pageSize) start (k * pageSize) =
      if vmInsertPage start k ≠ 0 then (-eagain, [⟨start, k, vmInsertPage start k⟩])
      else
        let rest := mmapLoop vmInsertPage (n * pageSize) (start + pageSize) ((k + 1) * pageSize)
        (rest.1, ⟨start, k, vmInsertPage start k⟩ :: rest.2) := by
  have hpage : k * pageSize / pageSize = k := Nat.mul_div_cancel k (by decide)
  have hsize : (if pageSize < (n + 1) * pageSize then (n + 1) * pageSize - pageSize else 0) =
      n * pageSize := by
    rw [Nat.succ_mul]
    split <;> omega
  rw [mmapLoop, if_pos (by simp only [pageSize]; omega)]
  dsimp only
  rw [hpage, hsize, Nat.succ_mul k pageSize]

/-- The insertions for some pages, none of them refused. -/
def accepted (start k m : Nat) : List Insertion :=
  (List.range m).map fun i => ⟨start + i * pageSize, k + i, 0⟩

theorem accepted_succ (start k m : Nat) :
    accepted start k (m + 1) = ⟨start, k, 0⟩ :: accepted (start + pageSize) (k + 1) m := by
  unfold accepted
  rw [List.range_succ_eq_map, List.map_cons, List.map_map, Nat.zero_mul, Nat.add_zero,
    Nat.add_zero]
  refine congrArg _ (List.map_congr_left fun i _ => ?_)
  show Insertion.mk (start + (i + 1) * pageSize) (k + (i + 1)) 0 = _
  rw [Nat.succ_mul, Nat.add_comm (i * pageSize), Nat.add_assoc, Nat.add_assoc, Nat.add_comm i]

/-- As long as no insertion is refused, the loop goes on. -/
theorem mmapLoop_accepted (h : ∀ i < m, vmInsertPage (start + i * pageSize) (k + i) = 0) :
    mmapLoop vmInsertPage ((m + n) * pageSize) start (k * pageSize) =
      let rest := mmapLoop vmInsertPage (n * pageSize) (start + m * pageSize)
        ((k + m) * pageSize)
      (rest.1, accepted start k m ++ rest.2) := by
  induction m generalizing start k with
  | zero => rw [Nat.zero_add, Nat.zero_mul, Nat.add_zero, Nat.add_zero]; rfl
  | succ m ih =>
    have hhead : vmInsertPage start k = 0 := by
      have h0 := h 0 (Nat.succ_pos m)
      rwa [Nat.zero_mul] at h0
    have htail : ∀ i < m, vmInsertPage (start + pageSize + i * pageSize) (k + 1 + i) = 0 := by
      intro i hi
      have hi' := h (i + 1) (Nat.succ_lt_succ hi)
      rwa [Nat.succ_mul, Nat.add_comm (i * pageSize), ← Nat.add_assoc, Nat.add_comm i,
        ← Nat.add_assoc] at hi'
    rw [Nat.add_right_comm, mmapLoop_succ, hhead, if_neg (fun hne => hne rfl)]
    dsimp only
    rw [ih htail, accepted_succ, Nat.succ_mul m, Nat.add_comm (m * pageSize), ← Nat.add_assoc,
      Nat.add_right_comm k, Nat.add_assoc k]
    rfl

/-- A refusal ends the loop. -/
theorem mmapLoop_refused (h : vmInsertPage start k ≠ 0) :
    mmapLoop vmInsertPage ((n + 1) * pageSize) start (k * pageSize) =
      (-eagain, [⟨start, k, vmInsertPage start k⟩]) := by
  rw [mmapLoop_succ, if_pos h]

theorem mem_accepted {x : Insertion} :
    x ∈ accepted start k m ↔ ∃ i < m, ⟨start + i * pageSize, k + i, 0⟩ = x := by
  unfold accepted
  simp only [List.mem_map, List.mem_range]

/-- What the call does up to the first refusal, or to the end. -/
theorem mmap_cases (vmInsertPage : Nat → Nat → Int) (vma : Vma) :
    ((∀ i < vma.pages, ¬ Refused vmInsertPage vma i) ∧
      mmap vmInsertPage vma = (0, accepted vma.vmStart 0 vma.pages)) ∨
    ∃ i < vma.pages, Refused vmInsertPage vma i ∧ (∀ j < i, ¬ Refused vmInsertPage vma j) ∧
      mmap vmInsertPage vma = (-eagain, accepted vma.vmStart 0 i ++
        [⟨vma.vmStart + i * pageSize, i, vmInsertPage (vma.vmStart + i * pageSize) i⟩]) := by
  have hloop : mmap vmInsertPage vma =
      mmapLoop vmInsertPage (vma.pages * pageSize) vma.vmStart (0 * pageSize) := by
    rw [mmap, vma.vmEnd_eq, Nat.add_sub_cancel_left, Nat.zero_mul]
  have haccepts : ∀ {m}, (∀ i < m, ¬ Refused vmInsertPage vma i) →
      ∀ i < m, vmInsertPage (vma.vmStart + i * pageSize) (0 + i) = 0 := by
    intro m h i hi
    rw [Nat.zero_add]
    exact not_not.mp (h i hi)
  by_cases hall : ∀ i < vma.pages, ¬ Refused vmInsertPage vma i
  · refine Or.inl ⟨hall, ?_⟩
    have hrun := mmapLoop_accepted (n := 0) (haccepts hall)
    rw [Nat.add_zero, Nat.zero_mul, mmapLoop_zero] at hrun
    dsimp only at hrun
    rw [hloop, Nat.zero_mul, hrun, List.append_nil]
  · right
    obtain ⟨i, hi, hleast⟩ : ∃ i, (i < vma.pages ∧ Refused vmInsertPage vma i) ∧
        ∀ j < i, ¬ (j < vma.pages ∧ Refused vmInsertPage vma j) := by
      classical
      have hex : ∃ i, i < vma.pages ∧ Refused vmInsertPage vma i := by
        by_contra hnone
        exact hall fun i hi hr => hnone ⟨i, hi, hr⟩
      exact ⟨Nat.find hex, Nat.find_spec hex, fun j hj => Nat.find_min hex hj⟩
    have hbefore : ∀ j < i, ¬ Refused vmInsertPage vma j := fun j hj hr =>
      hleast j hj ⟨Nat.lt_trans hj hi.1, hr⟩
    refine ⟨i, hi.1, hi.2, hbefore, ?_⟩
    obtain ⟨n, hn⟩ : ∃ n, vma.pages = i + (n + 1) := ⟨vma.pages - i - 1, by omega⟩
    have hrefused : vmInsertPage (vma.vmStart + i * pageSize) (0 + i) ≠ 0 := by
      rw [Nat.zero_add]
      exact hi.2
    rw [hloop, hn, mmapLoop_accepted (haccepts hbefore)]
    dsimp only
    rw [mmapLoop_refused hrefused, Nat.zero_add]

/-- The call exposes the buffer alone exactly if a page of it is refused, or the request is
no larger than the buffer and without an offset. -/
theorem mmap_exposes_iff (vmInsertPage : Nat → Nat → Int) (vma : Vma) :
    ExposesBuffer vma (mmap vmInsertPage vma) ↔
      (∃ i < vma.pages, i < bufferPages ∧ Refused vmInsertPage vma i) ∨
        (vma.pages ≤ bufferPages ∧ (vma.vmPgoff = 0 ∨ vma.pages = 0)) := by
  rcases mmap_cases vmInsertPage vma with ⟨hall, hcall⟩ | ⟨i, hi, hrefused, hbefore, hcall⟩
  · have hnone : ¬ ∃ i < vma.pages, i < bufferPages ∧ Refused vmInsertPage vma i := by
      intro h
      obtain ⟨i, hi, _, hr⟩ := h
      exact hall i hi hr
    rw [hcall, or_iff_right hnone]
    constructor
    · intro h
      refine ⟨?_, ?_⟩
      · by_contra hlarge
        have hbehind := h.within ⟨vma.vmStart + bufferPages * pageSize, 0 + bufferPages, 0⟩
          (mem_accepted.mpr ⟨bufferPages, by omega, rfl⟩)
        dsimp only at hbehind
        omega
      · by_cases hpages : vma.pages = 0
        · exact Or.inr hpages
        · left
          obtain ⟨i, hi, heq⟩ := mem_accepted.mp
            ((h.mapped.resolve_left fun hne => hne rfl) 0 (Nat.pos_of_ne_zero hpages))
          injection heq with haddr hpage _
          have hi0 : i * pageSize = 0 * pageSize := Nat.add_left_cancel haddr
          rw [pageSize] at hi0
          omega
    · intro h
      obtain ⟨hpages, hoffset⟩ := h
      constructor
      · refine Or.inr fun i hi => mem_accepted.mpr ⟨i, hi, ?_⟩
        rcases hoffset with hoffset | hzero
        · rw [hoffset]
        · omega
      · intro x hx
        obtain ⟨i, hi, rfl⟩ := mem_accepted.mp hx
        show 0 + i < bufferPages
        omega
  · rw [hcall]
    constructor
    · intro h
      have hlast := h.within _ (List.mem_append_right _ (List.mem_singleton_self _))
      exact Or.inl ⟨i, hi, hlast, hrefused⟩
    · intro h
      have hwithin : i < bufferPages := by
        rcases h with ⟨j, hj, hlt, hr⟩ | ⟨hpages, _⟩
        · by_contra hbehind
          exact hbefore j (by omega) hr
        · omega
      refine ⟨Or.inl (show -eagain ≠ 0 by decide), fun x hx => ?_⟩
      rcases List.mem_append.mp hx with hx | hx
      · obtain ⟨j, hj, rfl⟩ := mem_accepted.mp hx
        show 0 + j < bufferPages
        omega
      · rw [List.mem_singleton.mp hx]
        exact hwithin

/-- `vm_insert_page` of `mm/nommu.c` -/
def nommuInsertPage (_addr _page : Nat) : Int := -22

/-- Without an MMU every request fails at its first page. -/
theorem nommu_exposes (vma : Vma) : ExposesBuffer vma (mmap nommuInsertPage vma) := by
  have hrefused : Refused nommuInsertPage vma 0 := show (-22 : Int) ≠ 0 by decide
  rw [mmap_exposes_iff]
  by_cases hpages : vma.pages = 0
  · exact .inr ⟨hpages ▸ Nat.zero_le _, .inr hpages⟩
  · exact .inl ⟨0, Nat.pos_of_ne_zero hpages, by decide, hrefused⟩

end Plak1a.Lcd.Mmap
