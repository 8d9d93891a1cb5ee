import Mathlib.Data.Finset.Basic
import Mathlib.Data.Finset.Insert

/-!
# Ledgers of resources

A function that takes and gives back resources leaves a log of what it did. A log settles if
each resource is taken only when it is free, and given back only when it is held and by the
release function that belongs to it, in whatever order.
-/

namespace Plak1a.Lib.Ledger

variable {R F : Type*} [DecidableEq R] [DecidableEq F]

inductive Entry (R F : Type*)
  | acquire (r : R)
  | release (f : F) (r : R)
deriving DecidableEq

namespace Entry

def resource : Entry R F → R
  | .acquire r => r
  | .release _ r => r

/-- What an entry makes of the resources that are held. -/
def post (frees : R → F) : Entry R F → Finset R → Option (Finset R)
  | .acquire r, held => if r ∈ held then none else some (insert r held)
  | .release f r, held => if r ∈ held ∧ f = frees r then some (held.erase r) else none

end Entry

/-- What a log makes of the resources that are held. -/
def settle (frees : R → F) : List (Entry R F) → Finset R → Option (Finset R)
  | [], held => some held
  | e :: log, held => (e.post frees held).bind (settle frees log)

/-- The entries for one resource. -/
def part (r : R) (log : List (Entry R F)) : List (Entry R F) :=
  log.filter fun e => e.resource = r

def acquireAll (F : Type*) (rs : List R) : List (Entry R F) := rs.map .acquire

def releaseAll (frees : R → F) (rs : List R) : List (Entry R F) :=
  rs.map fun r => .release (frees r) r

variable {frees : R → F} {held : Finset R} {r : R} {log : List (Entry R F)} {rs : List R}

theorem settle_append (log log' : List (Entry R F)) (held : Finset R) :
    settle frees (log ++ log') held = (settle frees log held).bind (settle frees log') := by
  induction log generalizing held with
  | nil => rfl
  | cons e log ih =>
    rw [List.cons_append, settle, settle, Option.bind_assoc]
    congr 1
    funext held
    exact ih held

theorem settle_acquire (h : r ∉ held) :
    settle frees (.acquire r :: log) held = settle frees log (insert r held) := by
  rw [settle, Entry.post, if_neg h, Option.bind_some]

theorem settle_release (h : r ∈ held) :
    settle frees (.release (frees r) r :: log) held = settle frees log (held.erase r) := by
  rw [settle, Entry.post, if_pos ⟨h, rfl⟩, Option.bind_some]

/-- Releases in the reverse order undo acquisitions. -/
theorem settle_unwind (hnodup : rs.Nodup) (hfree : ∀ r ∈ rs, r ∉ held) :
    settle frees (acquireAll F rs ++ releaseAll frees rs.reverse) held = some held := by
  induction rs generalizing held with
  | nil => rfl
  | cons r rs ih =>
    obtain ⟨hr, hrs⟩ := List.nodup_cons.mp hnodup
    have hrest : ∀ q ∈ rs, q ∉ insert r held := by
      intro q hq hmem
      rcases Finset.mem_insert.mp hmem with rfl | hmem
      · exact hr hq
      · exact hfree q (List.mem_cons_of_mem r hq) hmem
    have hhead := hfree r List.mem_cons_self
    rw [acquireAll, releaseAll, List.reverse_cons, List.map_cons, List.map_append,
      List.cons_append, settle_acquire hhead, ← List.append_assoc, settle_append]
    rw [acquireAll, releaseAll] at ih
    rw [ih hrs hrest]
    show settle frees [.release (frees r) r] (insert r held) = _
    rw [settle_release (Finset.mem_insert_self r held), settle, Finset.erase_insert hhead]

end Plak1a.Lib.Ledger
