import Mathlib.Algebra.GroupWithZero.Nat
import Plak1a.Env.Entries
import Plak1a.Env.Setenv

/-!
# Changes of the environment in place

Deleting a definition shifts the ones behind it over it, appending writes behind the last one.
Both leave the strings of the other variables as they are and close the list again.
-/

namespace Plak1a.Env.Rewrite

open Data Entries Setenv Lib Lib.Memory

variable {data : EnvData} {es pre post : List Entry} {e : Entry} {s ys rest : List UInt8}
  {vals : List (List UInt8)} {c : UInt8} {env i n nxt p : Nat}

/-- Strings that follow one another, each with its NUL: there are no two NULs in a row. -/
def Spaced : List UInt8 → Prop
  | [] => False
  | [c] => c = 0
  | c :: d :: ys => (c = 0 → d ≠ 0) ∧ Spaced (d :: ys)

theorem spaced_append (hs : 0 ∉ s) (h : ys = [] ∨ Spaced ys ∧ ys.head? ≠ some 0) :
    Spaced (s ++ 0 :: ys) := by
  induction s with
  | nil =>
    cases ys with
    | nil => rfl
    | cons d ys =>
      obtain ⟨hys, hd⟩ := h.resolve_left nofun
      exact ⟨fun _ h0 => hd (congrArg some h0), hys⟩
  | cons c s ih =>
    obtain ⟨hc, hs⟩ := not_or.mp (List.mem_cons.not.mp hs)
    have hrest := ih hs
    cases s with
    | nil => exact ⟨fun h0 => absurd h0.symm hc, hrest⟩
    | cons d s => exact ⟨fun h0 => absurd h0.symm hc, hrest⟩

theorem text_ne_nil (e : Entry) : e.text ≠ [] :=
  List.append_ne_nil_of_right_ne_nil _ (List.cons_ne_nil _ _)

theorem head_encode (e : Entry) (es : List Entry) : (encode (e :: es)).head? ≠ some 0 := by
  obtain ⟨c, s, hcs⟩ := List.exists_cons_of_ne_nil (text_ne_nil e)
  rw [encode_cons, hcs]
  intro h0
  apply e.text_noNul
  rw [hcs, ← Option.some.inj h0]
  exact List.mem_cons_self

theorem spaced_encode (h : es ≠ []) : Spaced (encode es) := by
  induction es with
  | nil => exact absurd rfl h
  | cons e es ih =>
    rw [encode_cons]
    apply spaced_append e.text_noNul
    cases es with
    | nil => exact .inl rfl
    | cons e' es => exact .inr ⟨ih nofun, head_encode e' es⟩

theorem listEnd_of_spaced (hys : Spaced ys) (h : Holds data p (ys ++ 0 :: rest))
    (hfits : p + ys.length < envSize) (hn : ys.length ≤ n) :
    listEnd data n p = some (p + ys.length - 1) := by
  fun_induction Spaced ys generalizing n p with
  | case1 => exact hys.elim
  | case2 c =>
    obtain ⟨n, rfl⟩ := Nat.exists_eq_succ_of_ne_zero (Nat.ne_of_gt hn)
    obtain ⟨hc, hrest⟩ := holds_cons.mp h
    exact listEnd_stop hfits (hc.trans hys) (holds_cons.mp hrest).1
  | case3 c d ys ih =>
    rw [List.length_cons] at hn
    obtain ⟨n, rfl⟩ := Nat.exists_eq_succ_of_ne_zero (Nat.ne_of_gt (Nat.zero_lt_of_lt hn))
    obtain ⟨hc, hrest⟩ := holds_cons.mp h
    have hd := (holds_cons.mp hrest).1
    rw [List.length_cons] at hfits ⊢
    rw [listEnd_more (by omega) (fun h0 => hd ▸ hys.1 (hc ▸ h0)),
      ih hys.2 hrest (by omega) (by omega)]
    congr 1
    omega

/-- The loop moves the strings to `env` and leaves what lies before. -/
theorem shiftDown_of_spaced (hys : Spaced ys) (h : Holds data nxt (ys ++ 0 :: rest))
    (hlt : env < nxt) (hfits : nxt + ys.length < envSize) (hn : ys.length ≤ n) :
    ∃ data', shiftDown n data env nxt = some (data', env + ys.length - 1) ∧
      Holds data' env ys ∧ ∀ i < env, data' i = data i := by
  fun_induction Spaced ys generalizing n data env nxt with
  | case1 => exact hys.elim
  | case2 c =>
    obtain ⟨n, rfl⟩ := Nat.exists_eq_succ_of_ne_zero (Nat.ne_of_gt hn)
    obtain ⟨hc, hrest⟩ := holds_cons.mp h
    have hc0 : c = 0 := hys
    refine ⟨Function.update data env 0, ?_, ?_, ?_⟩
    · exact shiftDown_stop hlt hfits (hc.trans hc0) (holds_cons.mp hrest).1
    · exact holds_cons.mpr ⟨(Function.update_self ..).trans hc0.symm, holds_nil _ _⟩
    · exact fun i hi => Function.update_of_ne (Nat.ne_of_lt hi) ..
  | case3 c d ys ih =>
    rw [List.length_cons] at hn
    obtain ⟨n, rfl⟩ := Nat.exists_eq_succ_of_ne_zero (Nat.ne_of_gt (Nat.zero_lt_of_lt hn))
    obtain ⟨hc, hrest⟩ := holds_cons.mp h
    have hd := (holds_cons.mp hrest).1
    rw [List.length_cons] at hfits ⊢
    have hmoved : Holds (Function.update data env c) (nxt + 1) (d :: ys ++ 0 :: rest) := by
      intro k hk
      rw [Function.update_of_ne (by omega)]
      exact hrest k hk
    obtain ⟨data', hshift, hholds, hframe⟩ :=
      ih hys.2 hmoved (Nat.succ_lt_succ hlt) (by omega) (Nat.le_of_succ_le_succ hn)
    refine ⟨data', ?_, ?_, ?_⟩
    · rw [shiftDown_more hlt (by omega) (fun h0 => hd ▸ hys.1 (hc ▸ h0)), hc, hshift]
      congr 2
      omega
    · apply holds_cons.mpr
      refine ⟨?_, hholds⟩
      rw [hframe env (Nat.lt_succ_self env), Function.update_self]
    · intro i hi
      rw [hframe i (Nat.lt_succ_of_lt hi), Function.update_of_ne (Nat.ne_of_lt hi)]

theorem encodes_of_holds (h : Holds data 0 (encode es ++ [0])) (hne : es ≠ [])
    (hfits : (encode es).length < envSize) : Encodes data es := by
  have hclosing : closing es = [0] := if_neg hne
  refine ⟨by rw [hclosing]; exact h, ?_⟩
  rw [hclosing, List.length_append]
  exact hfits

theorem encode_pos (e : Entry) (es : List Entry) : 0 < (encode (e :: es)).length := by
  rw [encode_cons, List.length_append, List.length_cons]
  omega

/-- The definition is the last one: the list is closed before it. -/
theorem delete_last (hpre : Holds data 0 (encode pre)) (hfits : nxt + 1 < envSize)
    (hlt : (encode pre).length < nxt) (hend : data (nxt + 1) = 0) :
    ∃ data', delete data (encode pre).length nxt = some data' ∧ Encodes data' pre := by
  cases pre with
  | nil =>
    refine ⟨Function.update (Function.update data 0 0) 1 0, ?_, ?_, by decide⟩
    · rw [delete, get_of_lt hfits, hend]
      show ((put data 0 0).bind fun data => put data 1 0) = _
      rw [put_of_lt (by decide), Option.bind_some, put_of_lt (by decide)]
    · show Holds _ 0 [0, 0]
      exact holds_cons.mpr ⟨by rw [Function.update_of_ne (by decide), Function.update_self],
        holds_cons.mpr ⟨Function.update_self .., holds_nil _ _⟩⟩
  | cons e pre =>
    have hpos := encode_pos e pre
    refine ⟨Function.update data (encode (e :: pre)).length 0, ?_, ?_⟩
    · rw [delete, get_of_lt hfits, hend]
      show (if 0 < _ then put data _ 0 else _) = _
      rw [if_pos hpos, put_of_lt (by omega)]
    · refine encodes_of_holds (Holds.append ?_ ?_) (List.cons_ne_nil _ _) (by omega)
      · intro i hi
        rw [Function.update_of_ne (by omega)]
        exact hpre i hi
      · rw [Nat.zero_add]
        exact holds_cons.mpr ⟨Function.update_self .., holds_nil _ _⟩

/-- There are definitions behind it, which move. -/
theorem delete_inner (hpre : Holds data 0 (encode pre))
    (hpost : Holds data (nxt + 1) (encode (e :: post) ++ [0]))
    (hfits : nxt + 1 + (encode (e :: post)).length < envSize) (hlt : (encode pre).length < nxt) :
    ∃ data', delete data (encode pre).length nxt = some data' ∧
      Encodes data' (pre ++ e :: post) := by
  have hspaced := spaced_encode (List.cons_ne_nil e post)
  have hpos := encode_pos e post
  have hfirst : data (nxt + 1) ≠ 0 := by
    intro h0
    apply head_encode e post
    obtain ⟨c, ys, hcys⟩ := List.exists_cons_of_ne_nil (List.length_pos_iff.mp hpos)
    rw [hcys] at hpost ⊢
    rw [← (holds_cons.mp hpost).1, h0]
    rfl
  obtain ⟨data', hshift, hmoved, hframe⟩ := shiftDown_of_spaced hspaced hpost
    (show (encode pre).length < nxt + 1 by omega) hfits (show _ ≤ envSize by omega)
  refine ⟨Function.update data' ((encode pre).length + (encode (e :: post)).length) 0, ?_, ?_⟩
  · rw [delete, get_of_lt (by omega)]
    refine (if_neg hfirst).trans ?_
    rw [hshift]
    show put data' ((encode pre).length + (encode (e :: post)).length - 1 + 1) 0 = _
    rw [Nat.sub_add_cancel (by omega), put_of_lt (by omega)]
  · refine encodes_of_holds ?_ (List.append_ne_nil_of_right_ne_nil _ (List.cons_ne_nil _ _)) ?_
    · rw [encode_append, List.append_assoc]
      refine Holds.append ?_ (Holds.append ?_ ?_)
      · intro i hi
        rw [Function.update_of_ne (by omega), hframe _ (by omega)]
        exact hpre i hi
      · intro i hi
        rw [Function.update_of_ne (by omega), Nat.zero_add]
        exact hmoved i hi
      · rw [Nat.zero_add]
        exact holds_cons.mpr ⟨Function.update_self .., holds_nil _ _⟩
    · rw [encode_append, List.length_append]
      omega

/-- Without the definition the other ones are left, in their order. -/
theorem delete_of_encodes (h : Encodes data (pre ++ e :: post)) :
    ∃ data', delete data (encode pre).length ((encode pre).length + e.text.length) = some data' ∧
      Encodes data' (pre ++ post) := by
  have hclosing : closing (pre ++ e :: post) = [0] :=
    if_neg (List.append_ne_nil_of_right_ne_nil _ (List.cons_ne_nil _ _))
  have hholds := h.holds
  have hfits := h.fits
  have htext := List.length_pos_iff.mpr (text_ne_nil e)
  rw [hclosing, encode_append, encode_cons, List.append_assoc, List.append_assoc] at hholds
  rw [hclosing, encode_append, encode_cons] at hfits
  simp only [List.length_append, List.length_cons, List.length_nil] at hfits
  obtain ⟨hpre, hrest⟩ := holds_append.mp hholds
  rw [Nat.zero_add] at hrest
  have hpost := (holds_cons.mp (holds_append.mp hrest).2).2
  cases post with
  | nil =>
    rw [List.append_nil]
    rw [encode_nil, List.length_nil] at hfits
    exact delete_last hpre (by omega) (by omega) (holds_cons.mp hpost).1
  | cons e' post => exact delete_inner hpre hpost (by omega) (by omega)

/-- What `putValues` writes: each value behind its separator. -/
def values : (separator : UInt8) → List (List UInt8) → List UInt8
  | _, [] => []
  | separator, val :: vals => separator :: val ++ values 0x20 vals

theorem values_eq (separator : UInt8) (val : List UInt8) (vals : List (List UInt8)) :
    values separator (val :: vals) = separator :: [0x20].intercalate (val :: vals) := by
  induction vals generalizing separator val with
  | nil =>
    rw [values, values, List.intercalate_singleton, List.append_nil]
  | cons val' vals ih =>
    rw [values, ih, List.intercalate_cons_cons]
    simp only [List.cons_append, List.append_assoc, List.nil_append]

theorem length_values (separator : UInt8) (vals : List (List UInt8)) :
    (values separator vals).length = (vals.map fun val => val.length + 1).sum := by
  induction vals generalizing separator with
  | nil => rfl
  | cons val vals ih =>
    rw [values, List.length_append, List.length_cons, ih, List.map_cons, List.sum_cons]

theorem putString_eq (h : p + s.length < envSize) :
    putString data p s = some (store data p (s ++ [0])) := by
  induction s generalizing data p with
  | nil => exact put_of_lt h 0
  | cons c s ih =>
    rw [List.length_cons] at h
    rw [putString, put_of_lt (by omega)]
    exact ih (by omega)

/-- A byte that is written again. -/
theorem store_again (xs : List UInt8) (a b : UInt8) :
    Function.update (store data p (xs ++ [a])) (p + xs.length) b = store data p (xs ++ [b]) := by
  rw [store_append, store_append]
  exact Function.update_idem ..

/-- Each separator takes the place of the NUL before it. -/
theorem putValues_eq (sep : UInt8) (h : p + s.length + (values sep vals).length < envSize) :
    putValues (store data p (s ++ [0])) (p + s.length) sep vals =
      some (store data p (s ++ values sep vals ++ [0]),
        p + s.length + (values sep vals).length) := by
  induction vals generalizing s sep with
  | nil =>
    rw [values, List.append_nil, List.length_nil]
    rfl
  | cons val vals ih =>
    have hlength : (values sep (val :: vals)).length =
        1 + val.length + (values 0x20 vals).length := by
      rw [values, List.length_append, List.length_cons]
      omega
    rw [hlength] at h
    have hfirst : p + s.length + 1 = p + (s ++ [sep]).length := by
      rw [List.length_append, List.length_singleton]
      omega
    rw [putValues, put_of_lt (by omega), store_again]
    show ((putString (store data p (s ++ [sep])) (p + s.length + 1) val).bind fun data => _) = _
    rw [putString_eq (by omega), hfirst, ← store_append]
    show putValues (store data p (s ++ [sep] ++ (val ++ [0]))) _ _ _ = _
    have hnext := ih (s := s ++ [sep] ++ val) 0x20 (by
      simp only [List.length_append, List.length_singleton]
      omega)
    rw [hlength, values]
    simp only [List.append_assoc, List.length_append, List.length_cons, List.length_nil,
      List.cons_append, List.nil_append] at hnext ⊢
    rw [Nat.add_assoc p, Nat.add_assoc s.length, Nat.zero_add, Nat.add_comm 1, hnext]
    congr 2
    omega

/-- Where `append` writes: behind the last string. -/
theorem listEnd_of_encodes (h : Encodes data es) :
    ∃ env, listEnd data envSize 0 = some env ∧
      (if 0 < env then env + 1 else env) = (encode es).length := by
  have hholds := h.holds
  have hfits := h.fits
  cases es with
  | nil =>
    obtain ⟨hc, hrest⟩ := holds_cons.mp hholds
    exact ⟨0, listEnd_stop (by decide) hc (holds_cons.mp hrest).1, rfl⟩
  | cons e es =>
    have hclosing : closing (e :: es) = [0] := if_neg (List.cons_ne_nil _ _)
    have hlong : 1 < (encode (e :: es)).length := by
      have htext := List.length_pos_iff.mpr (text_ne_nil e)
      rw [encode_cons, List.length_append, List.length_cons]
      omega
    rw [hclosing] at hholds
    rw [hclosing, List.length_append, List.length_singleton] at hfits
    refine ⟨(encode (e :: es)).length - 1, ?_, ?_⟩
    · rw [listEnd_of_spaced (spaced_encode (List.cons_ne_nil e es)) hholds (by omega) (by omega),
        Nat.zero_add]
    · rw [if_pos (by omega)]
      omega

/-- There is no room. -/
theorem append_overflow (h : Encodes data es) {name : List UInt8}
    (hroom : envSize < (encode es).length + needed name vals) :
    append data name vals = some none := by
  obtain ⟨env, hend, henv⟩ := listEnd_of_encodes h
  have hfits := h.fits
  rw [List.length_append] at hfits
  rw [append, hend, Option.bind_eq_bind, Option.bind_some, henv]
  exact if_pos (by omega)

/-- The new variable comes behind the others. -/
theorem append_of_encodes (h : Encodes data es)
    (htext : e.text = e.name ++ values equals vals)
    (hroom : (encode es).length + needed e.name vals ≤ envSize) :
    ∃ data', append data e.name vals = some (some data') ∧ Encodes data' (es ++ [e]) := by
  obtain ⟨env, hend, henv⟩ := listEnd_of_encodes h
  rw [needed, ← length_values equals] at hroom
  have hstrings : encode (es ++ [e]) ++ [0] = encode es ++ (e.text ++ [0] ++ [0]) := by
    rw [encode_append, encode_cons, encode_nil, List.append_assoc]
  refine ⟨store data (encode es).length (e.text ++ [0] ++ [0]), ?_, ?_⟩
  · rw [append, hend, Option.bind_eq_bind, Option.bind_some, henv, needed,
      ← length_values equals, if_neg (by omega), putString_eq (by omega), Option.bind_eq_bind,
      Option.bind_some, putValues_eq equals (by omega)]
    show (put _ _ 0).map some = _
    have hend : (encode es).length + e.name.length + (values equals vals).length + 1 =
        (encode es).length + (e.text ++ [0]).length := by
      rw [htext]
      simp only [List.length_append, List.length_singleton]
      omega
    have hstore : store data (encode es).length (e.text ++ [0] ++ [0]) =
        Function.update (store data (encode es).length (e.text ++ [0]))
          ((encode es).length + (e.text ++ [0]).length) 0 := store_append
    rw [put_of_lt (by omega), ← htext, hend, hstore]
    rfl
  · have hlength : e.text.length = e.name.length + (values equals vals).length := by
      rw [htext, List.length_append]
    refine encodes_of_holds ?_ (List.append_ne_nil_of_right_ne_nil _ (List.cons_ne_nil _ _)) ?_
    · rw [hstrings]
      refine Holds.append ?_ (by rw [Nat.zero_add]; exact holds_store)
      intro i hi
      rw [store_of_lt (by omega)]
      exact h.holds.left i hi
    · rw [encode_append, encode_cons, encode_nil]
      simp only [List.length_append, List.length_singleton]
      omega

end Plak1a.Env.Rewrite
