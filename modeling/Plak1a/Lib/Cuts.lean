import Mathlib.Data.List.GetD
import Mathlib.Order.Lattice

/-!
# Increasing cuts

A range is divided at an increasing list of cuts, the first of which is where the range
starts. Every point of the range lies in exactly one piece, and no piece is empty.
-/

namespace Plak1a.Lib.Cuts

variable {α : Type*} [LinearOrder α] {cuts : List α} {lo hi a c : α} {i j : Nat}

/-- The cuts divide the range from `lo` up to `hi`. -/
structure Tiles (cuts : List α) (lo hi : α) : Prop where
  increasing : cuts.Pairwise (· < ·)
  starts : cuts.head? = some lo
  below : ∀ c ∈ cuts, c < hi

/-- Piece `i` ends at the next cut; the last one ends with the range. -/
def pieceEnd (cuts : List α) (hi : α) (i : Nat) : α := cuts.getD (i + 1) hi

def InPiece (cuts : List α) (hi : α) (i : Nat) (a : α) : Prop :=
  ∃ h : i < cuts.length, cuts[i] ≤ a ∧ a < pieceEnd cuts hi i

omit [LinearOrder α] in
theorem pieceEnd_of_lt (hi : α) (h : i + 1 < cuts.length) : pieceEnd cuts hi i = cuts[i + 1] := by
  rw [pieceEnd, List.getD_eq_getElem cuts hi h]

theorem inPiece_succ : InPiece (c :: cuts) hi (i + 1) a ↔ InPiece cuts hi i a := by
  constructor
  · intro ⟨h, hle, hlt⟩
    exact ⟨Nat.lt_of_succ_lt_succ h, hle, hlt⟩
  · intro ⟨h, hle, hlt⟩
    exact ⟨Nat.succ_lt_succ h, hle, hlt⟩

/-- The pieces cover the range, whatever the order of the cuts. -/
theorem exists_inPiece (hlo : c ≤ a) (hhi : a < hi) : ∃ i, InPiece (c :: cuts) hi i a := by
  induction cuts generalizing c with
  | nil => exact ⟨0, Nat.one_pos, hlo, hhi⟩
  | cons c' cuts ih =>
    rcases lt_or_ge a c' with hlt | hge
    · exact ⟨0, Nat.succ_pos _, hlo, hlt⟩
    · obtain ⟨i, hi'⟩ := ih hge
      exact ⟨i + 1, inPiece_succ.mpr hi'⟩

/-- A point lies in no piece before the one it lies in. -/
theorem Tiles.le_of_inPiece (h : Tiles cuts lo hi) (hi' : InPiece cuts hi i a)
    (hj' : InPiece cuts hi j a) : j ≤ i := by
  obtain ⟨_, _, hlt⟩ := hi'
  obtain ⟨hj, hle, _⟩ := hj'
  by_contra hij
  have hnext : i + 1 < cuts.length := by omega
  rw [pieceEnd_of_lt hi hnext] at hlt
  have hcuts : cuts[i + 1] ≤ cuts[j] := by
    rcases Nat.eq_or_lt_of_le (Nat.lt_of_not_le hij) with heq | hlt
    · exact le_of_eq (by congr)
    · exact le_of_lt (List.pairwise_iff_getElem.mp h.increasing _ _ hnext hj hlt)
  exact absurd (lt_of_lt_of_le hlt hcuts) (not_lt.mpr hle)

theorem Tiles.existsUnique (h : Tiles cuts lo hi) (hlo : lo ≤ a) (hhi : a < hi) :
    ∃! i, InPiece cuts hi i a := by
  cases cuts with
  | nil => cases h.starts
  | cons c cuts =>
    cases h.starts
    obtain ⟨i, hi'⟩ := exists_inPiece hlo hhi
    exact ⟨i, hi', fun j hj => Nat.le_antisymm (h.le_of_inPiece hi' hj) (h.le_of_inPiece hj hi')⟩

/-- No piece is empty: its cut lies in it. -/
theorem Tiles.inPiece_self (h : Tiles cuts lo hi) (hi' : i < cuts.length) :
    InPiece cuts hi i cuts[i] := by
  refine ⟨hi', le_refl _, ?_⟩
  by_cases hnext : i + 1 < cuts.length
  · rw [pieceEnd_of_lt hi hnext]
    exact List.pairwise_iff_getElem.mp h.increasing i (i + 1) hi' hnext (Nat.lt_succ_self i)
  · rw [pieceEnd, List.getD_eq_default cuts hi (Nat.not_lt.mp hnext)]
    exact h.below _ (List.getElem_mem hi')

theorem Tiles.pieceEnd_le (h : Tiles cuts lo hi) (i : Nat) : pieceEnd cuts hi i ≤ hi := by
  by_cases hnext : i + 1 < cuts.length
  · rw [pieceEnd_of_lt hi hnext]
    exact le_of_lt (h.below _ (List.getElem_mem hnext))
  · rw [pieceEnd, List.getD_eq_default cuts hi (Nat.not_lt.mp hnext)]

theorem Tiles.le (h : Tiles cuts lo hi) (hc : c ∈ cuts) : lo ≤ c := by
  cases cuts with
  | nil => cases h.starts
  | cons c' cuts =>
    cases h.starts
    rcases List.mem_cons.mp hc with rfl | hc
    · exact le_refl _
    · exact le_of_lt ((List.pairwise_cons.mp h.increasing).1 c hc)

end Plak1a.Lib.Cuts
