import Plak1a.SdCard.DirInside

/-!
# The name a call builds in the sector buffer

The characters of an entry that are not blank are written to the start of the buffer
while they are read from the entry. The pointer never passes the character being read,
but for the dot behind a base of eight characters in the entry at the start of the
sector; there the name is written over itself.
-/

namespace Plak1a.SdCard.DirName

open Plak1a.Lib Plak1a.Lib.Listing Plak1a.SdCard.Fat Plak1a.SdCard.FatDir
open Plak1a.SdCard.FatDirectory Plak1a.SdCard.FatVolume Plak1a.SdCard.DirScan
open Plak1a.SdCard.DirInside
open Plak1a.SdCard.Mmc (blockSize)

def kept (cs : List UInt8) : List UInt8 := cs.filter (· ≠ space)

theorem kept_cons_of_ne {c : UInt8} (h : c ≠ space) (cs : List UInt8) :
    kept (c :: cs) = c :: kept cs := List.filter_cons_of_pos (decide_eq_true h)

theorem kept_cons_space (cs : List UInt8) : kept (space :: cs) = kept cs := rfl

theorem copyChar_space {a b pointer : Nat} {m : Memory} (h : dirName m a b = space) :
    copyChar a (pointer, m) b = (pointer, m) := by
  unfold copyChar
  dsimp only
  rw [if_neg (not_not.mpr h)]

theorem copyChar_of_ne {a b pointer : Nat} {m : Memory} (h : dirName m a b ≠ space)
    (hb : b ≠ 8) :
    copyChar a (pointer, m) b = (pointer + 1, Function.update m pointer (dirName m a b)) := by
  unfold copyChar
  dsimp only
  rw [if_pos h, if_neg hb]

/-- Before and behind the dot the loop writes the kept characters, as long as the pointer is
not ahead of the entry. -/
theorem copyName_run (a : Nat) (n : Nat) : ∀ {i pointer : Nat} {m : Memory},
    8 ∉ List.range' i n → pointer ≤ a + i →
      (List.range' i n).foldl (copyChar a) (pointer, m) =
        (pointer + (kept ((List.range' i n).map (dirName m a))).length,
          Memory.store m pointer (kept ((List.range' i n).map (dirName m a)))) := by
  induction n with
  | zero => exact fun _ _ => rfl
  | succ n ih =>
    intro i pointer m h8 hle
    rw [List.range'_succ] at h8 ⊢
    have h8' : 8 ∉ List.range' (i + 1) n := fun h => h8 (List.mem_cons_of_mem i h)
    have hi : i ≠ 8 := fun h => h8 (h ▸ List.mem_cons_self)
    rw [List.foldl_cons, List.map_cons]
    by_cases hc : dirName m a i = space
    · rw [copyChar_space hc, hc, kept_cons_space]
      exact ih h8' (by omega)
    · have hread : (List.range' (i + 1) n).map
          (dirName (Function.update m pointer (dirName m a i)) a) =
            (List.range' (i + 1) n).map (dirName m a) := by
        apply List.map_congr_left
        intro b hb
        have hlt := (List.mem_range'_1.mp hb).1
        exact Function.update_of_ne (by omega) _ _
      rw [copyChar_of_ne hc hi, kept_cons_of_ne hc, ih h8' (by omega), hread, List.length_cons,
        Memory.store]
      congr 1
      omega

theorem kept_length_le (cs : List UInt8) : (kept cs).length ≤ cs.length := List.length_filter_le _ _

theorem not_mem_kept (cs : List UInt8) : space ∉ kept cs := by
  intro h
  exact absurd rfl (of_decide_eq_true (List.mem_filter.mp h).2)

section Name

variable (m : Memory) (a : Nat)

/-- What the loop writes where it does not write over the entry. -/
def builtName : List UInt8 :=
  kept (baseBytes m a) ++
    if dirName m a 8 = space then kept (extensionBytes m a) else dot :: kept (extensionBytes m a)

variable {m a} {xs : List UInt8}

/-- What was written does not matter for the characters behind the pointer. -/
theorem bytes_store {i n : Nat} (h : xs.length ≤ a + i) :
    (List.range' i n).map (dirName (Memory.store m 0 xs) a) =
      (List.range' i n).map (dirName m a) := by
  apply List.map_congr_left
  intro b hb
  have hle := (List.mem_range'_1.mp hb).1
  exact Memory.store_of_ge (by omega)

theorem store_concat (c : UInt8) :
    Function.update (Memory.store m 0 xs) xs.length c = Memory.store m 0 (xs ++ [c]) := by
  rw [Memory.store_append, Nat.zero_add]
  rfl

theorem extensionBytes_eq :
    extensionBytes m a = dirName m a 8 :: (List.range' 9 2).map (dirName m a) := rfl

theorem copyName_split : copyName a m =
    (List.range' 9 2).foldl (copyChar a)
      (copyChar a ((kept (baseBytes m a)).length, Memory.store m 0 (kept (baseBytes m a))) 8) := by
  have hrun : (List.range' 0 8).foldl (copyChar a) (0, m) =
      (0 + (kept (baseBytes m a)).length, Memory.store m 0 (kept (baseBytes m a))) :=
    copyName_run a 8 (by decide) (Nat.zero_le _)
  rw [Nat.zero_add] at hrun
  have hrange : List.range 11 = List.range' 0 8 ++ 8 :: List.range' 9 2 := rfl
  rw [copyName, hrange, List.foldl_append, hrun, List.foldl_cons]

/-- The characters of the extension behind the first. -/
theorem copyName_tail (h : xs.length ≤ a + 9) :
    (List.range' 9 2).foldl (copyChar a) (xs.length, Memory.store m 0 xs) =
      ((xs ++ kept ((List.range' 9 2).map (dirName m a))).length,
        Memory.store m 0 (xs ++ kept ((List.range' 9 2).map (dirName m a)))) := by
  rw [copyName_run a 2 (by decide) h, bytes_store h, List.length_append, Memory.store_append,
    Nat.zero_add]

/-- The round of the dot, for what has been written before. -/
theorem copyChar_dot (h : dirName (Memory.store m 0 xs) a 8 ≠ space) :
    copyChar a (xs.length, Memory.store m 0 xs) 8 =
      ((xs ++ [dot] ++ [dirName (Memory.store m 0 (xs ++ [dot])) a 8]).length,
        Memory.store m 0 (xs ++ [dot] ++ [dirName (Memory.store m 0 (xs ++ [dot])) a 8])) := by
  have hlen : xs.length + 1 = (xs ++ [dot]).length := by
    rw [List.length_append, List.length_singleton]
  unfold copyChar
  dsimp only
  rw [if_pos h, if_pos rfl]
  dsimp only
  rw [store_concat, hlen, store_concat]
  simp only [List.length_append, List.length_singleton]

theorem base_length_le : (kept (baseBytes m a)).length ≤ 8 := kept_length_le _

theorem base_read : dirName (Memory.store m 0 (kept (baseBytes m a))) a 8 = dirName m a 8 := by
  have hlen := base_length_le (m := m) (a := a)
  exact Memory.store_of_ge (by omega)

/-- The name is written as it is in the entry, unless the dot meets the extension. -/
theorem copyName_eq (h : dirName m a 8 = space ∨ (kept (baseBytes m a)).length < a + 8) :
    copyName a m = ((builtName m a).length, Memory.store m 0 (builtName m a)) := by
  have hlen := base_length_le (m := m) (a := a)
  rw [copyName_split, builtName, extensionBytes_eq]
  by_cases h8 : dirName m a 8 = space
  · rw [copyChar_space (base_read.trans h8), if_pos h8, h8, kept_cons_space,
      copyName_tail (by omega)]
  · have hlt := h.resolve_left h8
    have hdot : dirName (Memory.store m 0 (kept (baseBytes m a) ++ [dot])) a 8 = dirName m a 8 :=
      Memory.store_of_ge (by rw [List.length_append, List.length_singleton]; omega)
    rw [if_neg h8, kept_cons_of_ne h8, copyChar_dot (base_read.symm ▸ h8), hdot, copyName_tail,
      List.append_assoc, List.append_assoc]
    · rfl
    · simp only [List.length_append, List.length_singleton]
      omega

theorem read_last (m : Memory) (xs : List UInt8) (c : UInt8) :
    dirName (Memory.store m 0 (xs ++ [c])) 0 xs.length = c := by
  rw [dirName, Nat.zero_add, ← store_concat, Function.update_self]

/-- At the start of the sector a dot just written is read as the next character. -/
theorem copyChar_again (m : Memory) {xs : List UInt8} (h8 : xs.length ≠ 8) :
    copyChar 0 ((xs ++ [dot]).length, Memory.store m 0 (xs ++ [dot])) xs.length =
      ((xs ++ [dot] ++ [dot]).length, Memory.store m 0 (xs ++ [dot] ++ [dot])) := by
  have hne : dirName (Memory.store m 0 (xs ++ [dot])) 0 xs.length ≠ space := by
    rw [read_last]
    decide
  rw [copyChar_of_ne hne h8, read_last, store_concat]
  simp only [List.length_append, List.length_singleton]

/-- In the entry at the start of the sector, a base of eight characters has the dot written
over the extension and read from there. -/
theorem copyName_overlap (h8 : dirName m 0 8 ≠ space)
    (hbase : (kept (baseBytes m 0)).length = 8) :
    copyName 0 m = (12, Memory.store m 0 (kept (baseBytes m 0) ++ [dot, dot, dot, dot])) := by
  have hfirst := read_last m (kept (baseBytes m 0)) dot
  have hlen9 : (kept (baseBytes m 0) ++ [dot]).length ≠ 8 := by simp [hbase]
  have hlen10 : (kept (baseBytes m 0) ++ [dot] ++ [dot]).length ≠ 8 := by simp [hbase]
  have hnine := copyChar_again m hlen9
  have hten := copyChar_again m hlen10
  simp only [List.length_append, List.length_singleton, hbase] at hfirst hnine hten
  have hdot := copyChar_dot (base_read.symm ▸ h8)
  simp only [List.length_append, List.length_singleton, hbase, hfirst] at hdot
  rw [copyName_split, hbase, hdot, show List.range' 9 2 = [9, 10] from rfl, List.foldl_cons,
    hnine, List.foldl_cons, hten, List.foldl_nil]
  simp only [List.append_assoc, List.cons_append, List.nil_append]

/-- Behind the loop: the NUL, and the fields as they are read then. -/
theorem takeEntry_eq {w : List UInt8} (h : copyName a m = (w.length, Memory.store m 0 w))
    (s : State) :
    takeEntry a m s =
      { cluster := dirFstClusLO (Memory.store m 0 (w ++ [0])) a
        size := dirFileSize (Memory.store m 0 (w ++ [0])) a
        dirAttrib := dirAttr (Memory.store m 0 (w ++ [0])) a
        buffer := Memory.store m 0 (w ++ [0])
        state := s } := by
  unfold takeEntry
  rw [h]
  dsimp only
  rw [store_concat]

/-- The fields behind the name are out of reach of the writes. -/
theorem fields_store {w : List UInt8} (h : w.length ≤ 12) :
    dirFstClusLO (Memory.store m 0 (w ++ [0])) a = dirFstClusLO m a ∧
      dirFileSize (Memory.store m 0 (w ++ [0])) a = dirFileSize m a := by
  have hread : ∀ i, 13 ≤ i → Memory.store m 0 (w ++ [0]) i = m i := by
    intro i hi
    apply Memory.store_of_ge
    rw [List.length_append, List.length_singleton]
    omega
  constructor
  · rw [dirFstClusLO, dirFstClusLO, word, word, hread _ (by omega), hread _ (by omega)]
  · rw [dirFileSize, dirFileSize, word, word, word, word, hread _ (by omega), hread _ (by omega),
      hread _ (by omega), hread _ (by omega)]

/-- The result of a call is that of the entry at `a` of a sector. -/
structure Describes (sector : Memory) (a : Nat) (r : DirEnt) : Prop where
  name : Memory.Holds r.buffer 0 (shortName sector a ++ [0])
  dirAttrib : r.dirAttrib = dirAttr sector a
  size : r.size = dirFileSize sector a
  cluster : r.cluster = dirFstClusLO sector a

/-- No blank inside the base or the extension. -/
def NoGap (sector : Memory) (a : Nat) : Prop :=
  space ∉ baseName sector a ∧ space ∉ extension sector a

/-- No blank inside the name; and at the start of the sector, when there is an extension:
not eight characters before it unless all of it is dots, as is the attribute, and not seven
before three unless the attribute is 0. -/
def Undisturbed (sector : Memory) (a : Nat) : Prop :=
  NoGap sector a ∧ (a = 0 → extension sector a ≠ [] →
    ((baseName sector a).length = 8 →
      extension sector a = [dot, dot, dot] ∧ dirAttr sector a = dot) ∧
    ((baseName sector a).length = 7 → (extension sector a).length = 3 → dirAttr sector a = 0))

theorem kept_eq_self {cs : List UInt8} (h : space ∉ cs) : kept cs = cs := by
  apply List.filter_eq_self.mpr
  intro c hc
  exact decide_eq_true fun h0 => h (h0 ▸ hc)

theorem kept_append (cs ds : List UInt8) : kept (cs ++ ds) = kept cs ++ kept ds :=
  List.filter_append _ _

theorem kept_unpadded (cs : List UInt8) : kept (unpadded cs) = kept cs := by
  have hpad : kept (cs.rtakeWhile (· = space)) = [] := by
    apply List.filter_eq_nil_iff.mpr
    intro c hc
    have hsp := List.mem_rtakeWhile_imp hc
    simpa using hsp
  have hsplit : unpadded cs ++ cs.rtakeWhile (· = space) = cs :=
    List.rdropWhile_append_rtakeWhile
  have h := kept_append (unpadded cs) (cs.rtakeWhile (· = space))
  rw [hsplit, hpad, List.append_nil] at h
  exact h.symm

theorem unpadded_eq_nil {cs : List UInt8} (h : kept cs = []) : unpadded cs = [] := by
  apply List.rdropWhile_eq_nil_iff.mpr
  intro c hc
  have hsp := List.filter_eq_nil_iff.mp h c hc
  simpa using hsp

theorem baseName_eq (h : space ∉ baseName m a) : kept (baseBytes m a) = baseName m a := by
  rw [← kept_unpadded]
  exact kept_eq_self h

theorem extension_eq (h : space ∉ extension m a) : kept (extensionBytes m a) = extension m a := by
  rw [← kept_unpadded]
  exact kept_eq_self h

/-- The extension starts with the character that decides about the dot. -/
theorem extension_first {c : UInt8} {cs : List UInt8} (h : extension m a = c :: cs) :
    dirName m a 8 = c := by
  have hpre : extension m a <+: extensionBytes m a := List.rdropWhile_prefix _ _
  rw [h, extensionBytes_eq] at hpre
  exact (List.cons_prefix_cons.mp hpre).1.symm

theorem first_eq_space_iff (h : space ∉ extension m a) :
    dirName m a 8 = space ↔ extension m a = [] := by
  constructor
  · intro h8
    cases he : extension m a with
    | nil => rfl
    | cons c cs =>
      rw [he] at h
      exact absurd ((extension_first he).symm.trans h8 ▸ List.mem_cons_self) h
  · intro he
    by_contra h8
    have hkept := extension_eq h
    rw [he, extensionBytes_eq, kept_cons_of_ne h8] at hkept
    cases hkept

/-- Without gaps the name built is the name in 8.3 form. -/
theorem builtName_eq (h : NoGap m a) : builtName m a = shortName m a := by
  rw [builtName, shortName, baseName_eq h.1, extension_eq h.2]
  by_cases he : extension m a = []
  · rw [if_pos ((first_eq_space_iff h.2).mpr he), if_pos he, he]
  · rw [if_neg fun h8 => he ((first_eq_space_iff h.2).mp h8), if_neg he]

/-- A blank inside the name is missing in the buffer. -/
theorem not_holds_of_gap {memory : Memory} {w name : List UInt8} {i : Nat}
    (hw : Memory.Holds memory 0 (w ++ [0])) (hs : space ∉ w)
    (hname : Memory.Holds memory 0 (name ++ [0])) (hi : i ≤ w.length)
    (hsp : name[i]? = some space) : False := by
  obtain ⟨hlt, hget⟩ := List.getElem?_eq_some_iff.mp hsp
  have hread := hname i (by rw [List.length_append]; omega)
  rw [List.getElem_append_left hlt, hget] at hread
  have hread' := hw i (by rw [List.length_append, List.length_singleton]; omega)
  rw [hread] at hread'
  rcases Nat.lt_or_ge i w.length with hlt' | hge
  · rw [List.getElem_append_left hlt'] at hread'
    exact hs (hread' ▸ List.getElem_mem _)
  · rw [List.getElem_append_right hge] at hread'
    obtain rfl : i = w.length := Nat.le_antisymm hi hge
    simp only [Nat.sub_self, List.getElem_cons_zero] at hread'
    exact absurd hread' (by decide)

/-- A name that is complete in the buffer has no gaps, for a buffer that starts with the kept
characters of the base and is long enough to show a gap in the extension. -/
theorem noGap_of_holds {memory : Memory} {w : List UInt8}
    (hw : Memory.Holds memory 0 (w ++ [0])) (hs : space ∉ w)
    (hname : Memory.Holds memory 0 (shortName m a ++ [0]))
    (hbase : (kept (baseBytes m a)).length ≤ w.length)
    (hext : ∀ cs ds, extension m a = cs ++ space :: ds → space ∉ cs → space ∉ baseName m a →
      (baseName m a).length + 1 + cs.length ≤ w.length) : NoGap m a := by
  have hb : space ∉ baseName m a := by
    intro hgap
    obtain ⟨cs, ds, heq, hcs⟩ := List.eq_append_cons_of_mem hgap
    have hlen : cs.length ≤ (kept (baseBytes m a)).length := by
      have hkept := kept_unpadded (baseBytes m a)
      rw [show unpadded _ = _ from heq, kept_append, kept_eq_self hcs] at hkept
      rw [← hkept, List.length_append]
      exact Nat.le_add_right _ _
    apply not_holds_of_gap hw hs hname (Nat.le_trans hlen hbase)
    rw [shortName, heq, List.append_assoc, List.getElem?_append_right (Nat.le_refl _), Nat.sub_self]
    rfl
  refine ⟨hb, fun hgap => ?_⟩
  obtain ⟨cs, ds, heq, hcs⟩ := List.eq_append_cons_of_mem hgap
  apply not_holds_of_gap hw hs hname (hext cs ds heq hcs hb)
  have hne : extension m a ≠ [] := by
    rw [heq]
    exact List.append_ne_nil_of_right_ne_nil _ (List.cons_ne_nil _ _)
  have hindex : (baseName m a).length + 1 + cs.length - (baseName m a).length = cs.length + 1 := by
    omega
  rw [shortName, if_neg hne, heq, List.getElem?_append_right (by omega), hindex,
    List.getElem?_cons_succ, List.getElem?_append_right (Nat.le_refl _), Nat.sub_self]
  rfl

instance (sector : Memory) (a : Nat) : Decidable (NoGap sector a) :=
  inferInstanceAs (Decidable (_ ∧ _))

instance (sector : Memory) (a : Nat) : Decidable (Undisturbed sector a) :=
  inferInstanceAs (Decidable (_ ∧ (_ → _ → (_ → _ ∧ _) ∧ (_ → _ → _))))

theorem baseName_length_le : (baseName m a).length ≤ 8 := by
  have hpre : baseName m a <+: baseBytes m a := List.rdropWhile_prefix _ _
  exact hpre.length_le

theorem extension_length_le : (extension m a).length ≤ 3 := by
  have hpre : extension m a <+: extensionBytes m a := List.rdropWhile_prefix _ _
  exact hpre.length_le

theorem not_mem_builtName : space ∉ builtName m a := by
  intro h
  rcases List.mem_append.mp h with h | h
  · exact not_mem_kept _ h
  · split at h
    · exact not_mem_kept _ h
    · rcases List.mem_cons.mp h with h | h
      · exact absurd h (by decide)
      · exact not_mem_kept _ h

theorem builtName_length_le : (builtName m a).length ≤ 12 := by
  have hbase := base_length_le (m := m) (a := a)
  have hext : (kept (extensionBytes m a)).length ≤ 3 := kept_length_le _
  rw [builtName, List.length_append]
  split
  · omega
  · rw [List.length_cons]
    omega

/-- The name built is long enough to show a gap in the extension. -/
theorem builtName_shows {cs ds : List UInt8} (h : extension m a = cs ++ space :: ds)
    (hcs : space ∉ cs) (hb : space ∉ baseName m a) :
    (baseName m a).length + 1 + cs.length ≤ (builtName m a).length := by
  have hkept := kept_unpadded (extensionBytes m a)
  rw [show unpadded _ = _ from h, kept_append, kept_eq_self hcs] at hkept
  rw [builtName, baseName_eq hb, List.length_append]
  cases cs with
  | nil =>
    have hne : kept (extensionBytes m a) ≠ [] := by
      intro h0
      have hnil : extension m a = [] := unpadded_eq_nil h0
      rw [h] at hnil
      cases hnil
    have hpos := List.length_pos_iff.mpr hne
    rw [if_pos (extension_first h), List.length_nil]
    omega
  | cons c cs =>
    have h8 : dirName m a 8 ≠ space := fun h8 =>
      hcs ((extension_first h).symm.trans h8 ▸ List.mem_cons_self)
    rw [if_neg h8, ← hkept]
    simp only [List.length_cons, List.length_append]
    omega

theorem dots_show {cs ds : List UInt8} (h : extension m a = cs ++ space :: ds)
    (hbase : (baseName m a).length = 8) :
    (baseName m a).length + 1 + cs.length ≤ 12 := by
  have hlen := extension_length_le (m := m) (a := a)
  rw [h, List.length_append, List.length_cons] at hlen
  omega

/-- The result is right if the string is, and the attribute as it is read behind it. -/
theorem describes_iff_of_copyName {w : List UInt8} {s : State}
    (h : copyName a m = (w.length, Memory.store m 0 w)) (hw : w.length ≤ 12) :
    Describes m a (takeEntry a m s) ↔
      Memory.Holds (Memory.store m 0 (w ++ [0])) 0 (shortName m a ++ [0]) ∧
        dirAttr (Memory.store m 0 (w ++ [0])) a = dirAttr m a := by
  obtain ⟨hcluster, hsize⟩ := fields_store (m := m) (a := a) hw
  rw [takeEntry_eq h]
  constructor
  · exact fun hd => ⟨hd.name, hd.dirAttrib⟩
  · exact fun hd => ⟨hd.1, hd.2, hsize, hcluster⟩

theorem dots_eq {cs : List UInt8} (h : cs ++ [0] <+: [dot, dot, dot, 0]) :
    cs = [dot, dot, dot] := by
  have hne : (0 : UInt8) ≠ dot := by decide
  match cs with
  | [] => exact absurd (List.cons_prefix_cons.mp h).1 hne
  | [_] =>
    simp only [List.cons_append, List.nil_append, List.cons_prefix_cons] at h
    exact absurd h.2.1 hne
  | [_, _] =>
    simp only [List.cons_append, List.nil_append, List.cons_prefix_cons] at h
    exact absurd h.2.2.1 hne
  | c :: d :: e :: cs =>
    simp only [List.cons_append, List.cons_prefix_cons] at h
    obtain ⟨rfl, rfl, rfl, hrest⟩ := h
    have hlen := hrest.length_le
    rw [List.length_append, List.length_singleton] at hlen
    rw [List.length_eq_zero_iff.mp (show cs.length = 0 by omega)]

theorem extension_eq_dots {memory : Memory} (hne : extension m a ≠ [])
    (hdots : Memory.Holds memory 0 (baseName m a ++ [dot, dot, dot, dot] ++ [0]))
    (hname : Memory.Holds memory 0 (shortName m a ++ [0])) :
    extension m a = [dot, dot, dot] := by
  have hext := extension_length_le (m := m) (a := a)
  rw [shortName, if_neg hne] at hname
  have hle : (baseName m a ++ dot :: extension m a ++ [0]).length ≤
      (baseName m a ++ [dot, dot, dot, dot] ++ [0]).length := by
    simp only [List.length_append, List.length_cons, List.length_nil]
    omega
  have hpre := hname.isPrefix hdots hle
  rw [List.append_assoc, List.append_assoc, List.prefix_append_right_inj] at hpre
  exact dots_eq (List.cons_prefix_cons.mp hpre).2

/-- Dots in place of the extension are right if it is made of dots. -/
theorem describes_of_overlap (s : State) (h8 : dirName m 0 8 ≠ space)
    (hbase : (kept (baseBytes m 0)).length = 8) :
    Describes m 0 (takeEntry 0 m s) ↔ Undisturbed m 0 := by
  have hlen : (kept (baseBytes m 0) ++ [dot, dot, dot, dot]).length = 12 := by
    rw [List.length_append, hbase]
    rfl
  have hcopy : copyName 0 m = ((kept (baseBytes m 0) ++ [dot, dot, dot, dot]).length,
      Memory.store m 0 (kept (baseBytes m 0) ++ [dot, dot, dot, dot])) := by
    rw [copyName_overlap h8 hbase, hlen]
  have hholds : Memory.Holds
      (Memory.store m 0 (kept (baseBytes m 0) ++ [dot, dot, dot, dot] ++ [0])) 0
      (kept (baseBytes m 0) ++ [dot, dot, dot, dot] ++ [0]) := Memory.holds_store
  have hattr : dirAttr (Memory.store m 0 (kept (baseBytes m 0) ++ [dot, dot, dot, dot] ++ [0])) 0 =
      dot := by
    have h11 := hholds 11 (by rw [List.length_append, hlen]; decide)
    rw [List.getElem_append_left (by omega), List.getElem_append_right (by omega)] at h11
    simp only [hbase] at h11
    exact h11
  have hne (hgap : NoGap m 0) : extension m 0 ≠ [] := fun h =>
    h8 ((first_eq_space_iff hgap.2).mpr h)
  rw [describes_iff_of_copyName hcopy (by omega), hattr]
  constructor
  · intro ⟨hname, hdot⟩
    have hgap : NoGap m 0 := by
      apply noGap_of_holds hholds _ hname
      · rw [hlen, hbase]
        decide
      · intro cs ds heq _ hb
        rw [hlen]
        exact dots_show heq (baseName_eq hb ▸ hbase)
      · intro hsp
        rcases List.mem_append.mp hsp with hsp | hsp
        · exact not_mem_kept _ hsp
        · exact absurd hsp (by decide)
    rw [baseName_eq hgap.1] at hbase hholds
    rw [baseName_eq hgap.1] at hname
    refine ⟨hgap, fun _ hext => ⟨fun _ => ⟨extension_eq_dots hext hholds hname, hdot.symm⟩, ?_⟩⟩
    exact fun h => absurd (hbase.symm.trans h) (by decide)
  · intro ⟨hgap, hstart⟩
    rw [baseName_eq hgap.1] at hbase hholds
    obtain ⟨hdots, hdot⟩ := (hstart rfl (hne hgap)).1 hbase
    refine ⟨?_, hdot.symm⟩
    rw [shortName, if_neg (hne hgap), hdots, baseName_eq hgap.1]
    exact hholds

theorem attr_of_short {w : List UInt8} (h : w.length < a + 11) :
    dirAttr (Memory.store m 0 (w ++ [0])) a = dirAttr m a :=
  Memory.store_of_ge (by rw [List.length_append, List.length_singleton]; omega)

theorem attr_of_eleven {w : List UInt8} (h : w.length = 11) :
    dirAttr (Memory.store m 0 (w ++ [0])) 0 = 0 := by
  have hread : Memory.Holds (Memory.store m 0 (w ++ [0])) 0 (w ++ [0]) := Memory.holds_store
  have h11 := hread 11 (by rw [List.length_append, h]; decide)
  rw [List.getElem_append_right (Nat.le_of_eq h)] at h11
  simp only [h] at h11
  exact h11

theorem shortName_length : (shortName m a).length =
    (baseName m a).length + if extension m a = [] then 0 else (extension m a).length + 1 := by
  rw [shortName, List.length_append]
  split <;> rfl

/-- Where the writes stay behind the reads, only gaps and a NUL on the attribute matter. -/
theorem describes_of_apart (s : State) (ha : a = 0 ∨ 32 ≤ a)
    (h : dirName m a 8 = space ∨ (kept (baseBytes m a)).length < a + 8) :
    Describes m a (takeEntry a m s) ↔ Undisturbed m a := by
  rw [describes_iff_of_copyName (copyName_eq h) builtName_length_le]
  constructor
  · intro ⟨hname, hattr⟩
    have hgap : NoGap m a := by
      apply noGap_of_holds Memory.holds_store not_mem_builtName hname
      · rw [builtName, List.length_append]
        exact Nat.le_add_right _ _
      · exact fun cs ds heq hcs hb => builtName_shows heq hcs hb
    rw [builtName_eq hgap] at hattr
    refine ⟨hgap, ?_⟩
    rintro rfl hne
    constructor
    · intro hlen
      rw [baseName_eq hgap.1, hlen] at h
      rcases h with h8 | hlt
      · exact absurd ((first_eq_space_iff hgap.2).mp h8) hne
      · omega
    · intro hseven hthree
      have hlen := shortName_length (m := m) (a := 0)
      rw [if_neg hne, hseven, hthree] at hlen
      rw [← hattr, attr_of_eleven hlen]
  · intro ⟨hgap, hstart⟩
    rw [builtName_eq hgap]
    refine ⟨Memory.holds_store, ?_⟩
    have hlen := shortName_length (m := m) (a := a)
    have hbase := baseName_length_le (m := m) (a := a)
    have hext := extension_length_le (m := m) (a := a)
    rcases Nat.lt_or_ge (shortName m a).length (a + 11) with hlt | hge
    · exact attr_of_short hlt
    -- the string reaches the attribute: seven characters, the dot and three more
    · by_cases hne : extension m a = []
      · rw [if_pos hne] at hlen
        omega
      · rw [if_neg hne] at hlen
        obtain rfl : a = 0 := by omega
        rw [baseName_eq hgap.1] at h
        have hlt := h.resolve_left fun h8 => hne ((first_eq_space_iff hgap.2).mp h8)
        rw [(hstart rfl hne).2 (by omega) (by omega)]
        exact attr_of_eleven (by omega)

/-- A call that takes the entry at `a` of the sector in its buffer returns what the entry
says exactly if the name is undisturbed. -/
theorem describes_iff (m : Memory) (s : State) (ha : a = 0 ∨ 32 ≤ a) :
    Describes m a (takeEntry a m s) ↔ Undisturbed m a := by
  by_cases h : dirName m a 8 = space ∨ (kept (baseBytes m a)).length < a + 8
  · exact describes_of_apart s ha h
  · obtain ⟨h8, hlen⟩ := not_or.mp h
    have hbase := base_length_le (m := m) (a := a)
    obtain rfl : a = 0 := by omega
    exact describes_of_overlap s h8 (by omega)

end Name

end Plak1a.SdCard.DirName
