import Plak1a.SdCard.ReadDirEnt

/-!
# The search for a file name

`Search_File` asks for one entry after the other, a hundred times at most, and compares
the string built in the buffer. `*Cluster` is overwritten by every call: it ends as the
cluster of the file, as that of the last entry looked at, or as 0xFFFF.
-/

namespace Plak1a.SdCard.SearchFile

open Plak1a.Lib Plak1a.Lib.Listing Plak1a.SdCard.Fat Plak1a.SdCard.FatDir
open Plak1a.SdCard.FatDirectory Plak1a.SdCard.FatVolume Plak1a.SdCard.ReadFile
open Plak1a.SdCard.DirScan Plak1a.SdCard.DirInside Plak1a.SdCard.DirName
open Plak1a.SdCard.ReadDirEnt

variable {v : Volume} {d : Directory v} {n m : Nat}

/-- What a volume promises of an ordinary entry: no NUL in its name, and no cluster or a
data cluster as its first. -/
structure ValidEntry (v : Volume) (e : Nat × Nat) : Prop where
  name : 0 ∉ shortName (v.card e.1) e.2
  cluster : dirFstClusLO (v.card e.1) e.2 = 0 ∨
    v.layout.DataCluster (dirFstClusLO (v.card e.1) e.2)

/-- `*Cluster`, `*Size` and `*Dir_Attrib` are those of the entry. -/
structure Returned (v : Volume) (e : Nat × Nat) (r : DirEnt) : Prop where
  cluster : r.cluster = dirFstClusLO (v.card e.1) e.2
  size : r.size = dirFileSize (v.card e.1) e.2
  dirAttrib : r.dirAttrib = dirAttr (v.card e.1) e.2

/-- The result of a search that has found an entry or not, where `last` is the last entry
it may look at, if the directory has that many. -/
def Reports (v : Volume) (found last : Option (Nat × Nat)) (value : UInt8) (r : DirEnt) : Prop :=
  match found, last with
  | some e, _ => value = 1 ∧ Returned v e r
  | none, none => value = 0 ∧ r.cluster = 0xFFFF
  | none, some e => value = 2 ∧ Returned v e r

def named (v : Volume) (fileName : List UInt8) (e : Nat × Nat) : Bool :=
  shortName (v.card e.1) e.2 = fileName

theorem sameString_iff {buffer : Memory} (cs : List UInt8) : ∀ {i : Nat},
    sameString buffer i cs = true ↔ Memory.Holds buffer i (cs ++ [0]) := by
  induction cs with
  | nil =>
    intro i
    rw [sameString, decide_eq_true_iff]
    constructor
    · intro h j hj
      obtain rfl : j = 0 := by simpa using hj
      exact h
    · exact fun h => h 0 (Nat.succ_pos 0)
  | cons c cs ih =>
    intro i
    rw [sameString, Bool.and_eq_true, decide_eq_true_iff, ih]
    constructor
    · intro ⟨hc, hcs⟩ j hj
      cases j with
      | zero => exact hc
      | succ j =>
        rw [show i + (j + 1) = i + 1 + j from by omega]
        exact hcs j (Nat.lt_of_succ_lt_succ hj)
    · intro h
      refine ⟨h 0 (Nat.succ_pos _), fun j hj => ?_⟩
      rw [show i + 1 + j = i + (j + 1) from by omega]
      exact h (j + 1) (Nat.succ_lt_succ hj)

/-- Of two strings without NUL only one can lie at the start of the buffer. -/
theorem length_le_of_holds {buffer : Memory} {cs ds : List UInt8} (hd : 0 ∉ ds)
    (h : Memory.Holds buffer 0 (cs ++ [0])) (h' : Memory.Holds buffer 0 (ds ++ [0])) :
    ds.length ≤ cs.length := by
  by_contra hlt
  have hend := h cs.length (by simp)
  have hchar := h' cs.length (by rw [List.length_append]; omega)
  rw [List.getElem_append_right (Nat.le_refl _)] at hend
  rw [List.getElem_append_left (by omega), hend] at hchar
  simp only [Nat.sub_self, List.getElem_cons_zero] at hchar
  exact hd (hchar ▸ List.getElem_mem _)

theorem eq_of_holds {buffer : Memory} {cs ds : List UInt8} (hc : 0 ∉ cs) (hd : 0 ∉ ds)
    (h : Memory.Holds buffer 0 (cs ++ [0])) (h' : Memory.Holds buffer 0 (ds ++ [0])) :
    cs = ds := by
  have hlen : cs.length = ds.length :=
    Nat.le_antisymm (length_le_of_holds hc h' h) (length_le_of_holds hd h h')
  have hpre : cs <+: ds := h.left.isPrefix h'.left (Nat.le_of_eq hlen)
  exact hpre.eq_of_length hlen

theorem sameString_eq {fileName : List UInt8} {e : Nat × Nat} {r : DirEnt}
    (hname : 0 ∉ fileName) (hv : 0 ∉ shortName (v.card e.1) e.2)
    (hd : Describes (v.card e.1) e.2 r) :
    sameString r.buffer 0 fileName = named v fileName e := by
  rw [Bool.eq_iff_iff, sameString_iff, named, decide_eq_true_iff]
  constructor
  · exact fun h => eq_of_holds hv hname hd.name h
  · rintro rfl
    exact hd.name

/-- The search asks for entry `k`: it is not past the hundredth nor past the end, and none
before has the name. -/
structure Asked (d : Directory v) (fileName : List UInt8) (k : Nat) : Prop where
  lt : k < 100
  le : k ≤ d.ordinary.length
  missed : ∀ e ∈ d.ordinary.take k, named v fileName e = false

/-- Entry `k` is in reach, and its name is undisturbed. -/
structure Readable (d : Directory v) (k : Nat) : Prop where
  inReach : ∃ m, InReach d k m
  undisturbed : ∀ e, d.ordinary[k]? = some e → Undisturbed (v.card e.1) e.2

/-- The search has passed over `k` entries and holds the last of them. -/
structure Passed (d : Directory v) (fileName : List UInt8) (k : Nat) (r : DirEnt) : Prop where
  le : k ≤ d.ordinary.length
  missed : ∀ e ∈ d.ordinary.take k, named v fileName e = false
  knows : Knows v r.state
  last : ∀ j, k = j + 1 → ∃ e, d.ordinary[j]? = some e ∧ Returned v e r

theorem ValidEntry.cluster_ne {e : Nat × Nat} (h : ValidEntry v e) :
    dirFstClusLO (v.card e.1) e.2 ≠ 0xFFFF := by
  intro hff
  rcases h.cluster with h0 | hdata
  · exact absurd (h0.symm.trans hff) (by decide)
  · exact cell_ne_ff hdata hff

theorem Passed.next {fileName : List UInt8} {k : Nat} {e : Nat × Nat} {r r' : DirEnt}
    (h : Passed d fileName k r) (he : d.ordinary[k]? = some e)
    (hn : named v fileName e = false) (hk : Knows v r'.state) (hr : Returned v e r') :
    Passed d fileName (k + 1) r' := by
  obtain ⟨hlt, hget⟩ := List.getElem?_eq_some_iff.mp he
  refine ⟨hlt, ?_, hk, fun j hj => ?_⟩
  · intro x hx
    rw [List.take_succ_eq_append_getElem hlt, hget] at hx
    rcases List.mem_append.mp hx with hx | hx
    · exact h.missed x hx
    · exact List.mem_singleton.mp hx ▸ hn
  · obtain rfl := Nat.succ.inj hj
    exact ⟨e, he, hr⟩

/-- From the entry the loop has come to, it reports the first that has the name. -/
theorem searchLoop_spec {fileName : List UInt8} (hname : 0 ∉ fileName)
    (hvalid : ∀ e ∈ d.ordinary, ValidEntry v e)
    (hread : ∀ k, Asked d fileName k → Readable d k) (todo : Nat) :
    ∀ {a : UInt8} {r : DirEnt}, a.toNat + todo = 100 → Passed d fileName a.toNat r →
      ∃ bound value r', (∀ fuel, bound ≤ fuel →
          searchLoop v.card fuel fileName d.cluster todo a r = some (value, r')) ∧
        Reports v (((d.ordinary.drop a.toNat).take todo).find? (named v fileName))
          d.ordinary[99]? value r' := by
  induction todo with
  | zero =>
    intro a r ha hp
    obtain ⟨e, he, hr⟩ := hp.last 99 ha
    refine ⟨0, 2, r, fun _ _ => rfl, ?_⟩
    rw [List.take_zero, List.find?_nil, he]
    exact ⟨rfl, hr⟩
  | succ todo ih =>
    intro a r ha hp
    obtain ⟨⟨m, hm⟩, hund⟩ := hread a.toNat ⟨by omega, hp.le, hp.missed⟩
    obtain ⟨t, r₁, hk, hout, hcall⟩ :=
      readDirEnt_inReach hm hp.knows r.size r.dirAttrib r.buffer
    cases he : d.ordinary[a.toNat]? with
    | none =>
      rw [he] at hout
      obtain ⟨buffer, rfl⟩ := hout
      have hlen := List.getElem?_eq_none_iff.mp he
      refine ⟨m, 0, ⟨0xFFFF, r.size, r.dirAttrib, buffer, t⟩, fun fuel hle => ?_, ?_⟩
      · rw [searchLoop, (hcall fuel hle).1, Option.bind_some, if_pos rfl]
      · rw [List.drop_of_length_le hlen, List.take_nil, List.find?_nil,
          List.getElem?_eq_none_iff.mpr (by omega)]
        exact ⟨rfl, rfl⟩
    | some e =>
      rw [he] at hout
      have hv := hvalid e (List.mem_of_getElem? he)
      have hd := (describes_of_found (mem_entries_of_ordinary he) hout).mpr (hund e he)
      have hret : Returned v e r₁ := ⟨hd.cluster, hd.size, hd.dirAttrib⟩
      have hround (fuel : Nat) (hle : m ≤ fuel) :
          searchLoop v.card fuel fileName d.cluster (todo + 1) a r =
            if named v fileName e then some (1, r₁)
            else searchLoop v.card fuel fileName d.cluster todo (a + 1) r₁ := by
        rw [searchLoop, (hcall fuel hle).1, Option.bind_some,
          if_neg (hd.cluster ▸ hv.cluster_ne), sameString_eq hname hv.name hd]
      obtain ⟨hlt, hget⟩ := List.getElem?_eq_some_iff.mp he
      rw [List.drop_eq_getElem_cons hlt, hget, List.take_succ_cons]
      cases hn : named v fileName e with
      | true =>
        refine ⟨m, 1, r₁, fun fuel hle => ?_, ?_⟩
        · rw [hround fuel hle, if_pos hn]
        · rw [List.find?_cons_of_pos hn]
          exact ⟨rfl, hret⟩
      | false =>
        have hnext : (a + 1).toNat = a.toNat + 1 := by
          rw [UInt8.toNat_add, show (1 : UInt8).toNat = 1 from rfl]
          omega
        have hp' := hp.next he hn (Outcome.state hout ▸ hk) hret
        obtain ⟨bound, value, r', hfuel, hreports⟩ := ih (by omega) (hnext ▸ hp')
        refine ⟨max m bound, value, r', fun fuel hle => ?_, ?_⟩
        · rw [hround fuel (by omega), hn, if_neg Bool.false_ne_true]
          exact hfuel fuel (by omega)
        · rw [List.find?_cons_of_neg (by rw [hn]; exact Bool.false_ne_true), ← hnext]
          exact hreports

theorem passed_zero {fileName : List UInt8} (hread : ∀ k, Asked d fileName k → Readable d k)
    (size : UInt32) (dirAttrib : UInt8) (buffer stack : Memory) (s : State) :
    Passed d fileName (0 : UInt8).toNat
      ⟨d.cluster, size, dirAttrib, buffer, clusterDataStore v.card stack s⟩ := by
  have hask : Asked d fileName 0 :=
    ⟨by decide, Nat.zero_le _, fun _ h => absurd h List.not_mem_nil⟩
  obtain ⟨m, hm⟩ := (hread 0 hask).inReach
  exact ⟨Nat.zero_le _, fun _ h => absurd h List.not_mem_nil, hm.knows stack s,
    fun _ h => absurd h (Nat.zero_ne_add_one _)⟩

/-- After `Cluster_Data_Store` a search finds the first of the first hundred ordinary entries
that has the name; without one, `*Cluster` is 0xFFFF or that of the hundredth. -/
theorem searchFile_reports (d : Directory v) {fileName : List UInt8} (hname : 0 ∉ fileName)
    (hvalid : ∀ e ∈ d.ordinary, ValidEntry v e)
    (hread : ∀ k, Asked d fileName k → Readable d k)
    (stack buffer : Memory) (s : State) (size : UInt32) (dirAttrib : UInt8) :
    ∃ bound value r, (∀ fuel, bound ≤ fuel →
        searchFile v.card fuel fileName
          ⟨d.cluster, size, dirAttrib, buffer, clusterDataStore v.card stack s⟩ =
            some (value, r)) ∧
      Reports v ((d.ordinary.take 100).find? (named v fileName)) d.ordinary[99]? value r := by
  exact searchLoop_spec hname hvalid hread 100 rfl
    (passed_zero hread size dirAttrib buffer stack s)

/-- An empty file, its name two letters. -/
def fileNo (n : Nat) : List UInt8 :=
  [UInt8.ofNat (0x41 + n / 16), UInt8.ofNat (0x41 + n % 16)] ++ List.replicate 9 space ++ [0x20]

/-- A root directory with 101 files. -/
def crowded : Volume := withRoot (oneFileVolume smallRoot) fun k i =>
  let n := (k - 96) * 16 + i / 32
  if n < 101 then (fileNo n).getD (i % 32) 0 else 0

def searchRoot (v : Volume) (fuel : Nat) (fileName : List UInt8) : Option (UInt8 × DirEnt) :=
  searchFile v.card fuel fileName
    ⟨0, 0, 0, fun _ => 0, clusterDataStore v.card (fun _ => 0) startUp⟩

theorem crowded_valid : ∀ e ∈ (Directory.root : Directory crowded).ordinary,
    ValidEntry crowded e := by
  have h : ∀ e ∈ (Directory.root : Directory crowded).ordinary,
      0 ∉ shortName (crowded.card e.1) e.2 ∧ dirFstClusLO (crowded.card e.1) e.2 = 0 := by
    decide +kernel
  exact fun e he => ⟨(h e he).1, Or.inl (h e he).2⟩

theorem crowded_readable {fileName : List UInt8} (k : Nat)
    (h : Asked (Directory.root : Directory crowded) fileName k) :
    Readable (Directory.root : Directory crowded) k := by
  have hdecided : (Directory.lookIn crowded 99
      ((Directory.root : Directory crowded).sectors.take 7)).Decided := by
    decide +kernel
  have hundisturbed : ∀ e ∈ (Directory.root : Directory crowded).ordinary,
      Undisturbed (crowded.card e.1) e.2 := by
    decide +kernel
  have hlt := h.lt
  constructor
  · exact ⟨7, by decide +kernel, look_decided_of_le (by omega) hdecided,
      ⟨96, by decide +kernel, by decide⟩, fun h0 => absurd rfl h0⟩
  · exact fun e he => hundisturbed e (List.mem_of_getElem? he)

/-- The hundredth file is found. -/
theorem hundredth_found : ∃ bound r, (∀ fuel, bound ≤ fuel →
    searchRoot crowded fuel [0x47, 0x44] = some (1, r)) ∧ Returned crowded (102, 96) r := by
  have hname : (0 : UInt8) ∉ [0x47, 0x44] := by decide
  obtain ⟨bound, value, r, hfuel, hreports⟩ :=
    searchFile_reports (Directory.root : Directory crowded) hname
      crowded_valid crowded_readable (fun _ => 0) (fun _ => 0) startUp 0 0
  have hfind : ((Directory.root : Directory crowded).ordinary.take 100).find?
      (named crowded [0x47, 0x44]) = some (102, 96) := by
    decide +kernel
  rw [hfind] at hreports
  obtain ⟨rfl, hreturned⟩ := hreports
  exact ⟨bound, r, hfuel, hreturned⟩

/-- The file behind it is not; and in an empty root directory the search for it leaves 0xFFFF
in `*Cluster`. -/
theorem last_missed :
    (Directory.root : Directory crowded).ordinary.find? (named crowded [0x47, 0x45]) =
        some (102, 128) ∧
      (∃ bound r, ∀ fuel, bound ≤ fuel → searchRoot crowded fuel [0x47, 0x45] = some (2, r)) ∧
      (Directory.root : Directory (oneFileVolume smallRoot)).ordinary = [] ∧
      (searchRoot (oneFileVolume smallRoot) 1 [0x47, 0x45]).map
        (fun r => (r.1, r.2.cluster)) = some (0, 0xFFFF) := by
  have hfind : (Directory.root : Directory crowded).ordinary.find?
      (named crowded [0x47, 0x45]) = some (102, 128) := by
    decide +kernel
  have hempty : (Directory.root : Directory (oneFileVolume smallRoot)).ordinary = [] := by
    decide +kernel
  have hrun : (searchRoot (oneFileVolume smallRoot) 1 [0x47, 0x45]).map
      (fun r => (r.1, r.2.cluster)) = some (0, 0xFFFF) := by
    decide +kernel
  have hname : (0 : UInt8) ∉ [0x47, 0x45] := by decide
  obtain ⟨bound, value, r, hfuel, hreports⟩ :=
    searchLoop_spec hname crowded_valid crowded_readable 100 rfl
      (passed_zero crowded_readable 0 0 (fun _ => 0) (fun _ => 0) startUp)
  have hfirst : (((Directory.root : Directory crowded).ordinary.drop (0 : UInt8).toNat).take
      100).find? (named crowded [0x47, 0x45]) = none := by
    decide +kernel
  have hlast : (Directory.root : Directory crowded).ordinary[99]? = some (102, 96) := by
    decide +kernel
  rw [hfirst, hlast] at hreports
  obtain ⟨rfl, -⟩ := hreports
  exact ⟨hfind, ⟨bound, r, hfuel⟩, hempty, hrun⟩

end Plak1a.SdCard.SearchFile
