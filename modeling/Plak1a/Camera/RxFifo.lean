import Plak1a.Camera.UartRx

/-!
# The receive ring is a lossless queue until the extract index is left unreduced

`Inv` relates the ring to the list of kept, not yet removed bytes and is preserved
by every step that `Admits` allows. The one excluded state is reached: the last
section fills the ring while `uart0Getch` stands between its increment and its
reduction, and the handler then sets the insert index onto the reduced extract
index.
-/

namespace Plak1a.Camera.RxFifo

open Plak1a.Lib
open Plak1a.Lib.Run
open Plak1a.Lib.Ring (Holds)
open Plak1a.Camera.UartRx

theorem keptBytes_append {ks ks' : List Bool} {as as' : List Arrival}
    (h : ks.length = as.length) :
    keptBytes (ks ++ ks') (as ++ as') = keptBytes ks as ++ keptBytes ks' as' := by
  induction ks generalizing as with
  | nil =>
    obtain rfl := List.length_eq_zero_iff.mp h.symm
    rfl
  | cons k ks ih =>
    obtain _ | ⟨a, as⟩ := as
    · simp at h
    · have hl : ks.length = as.length := by simpa using h
      cases k <;> simp [keptBytes, ih hl]

theorem keptBytes_length {ks : List Bool} {as : List Arrival} (h : ks.length = as.length) :
    (keptBytes ks as).length = ks.count true := by
  induction ks generalizing as with
  | nil => rfl
  | cons k ks ih =>
    obtain _ | ⟨a, as⟩ := as
    · simp at h
    · have hl : ks.length = as.length := by simpa using h
      cases k <;> simp [keptBytes, ih hl]

theorem keptBytes_sublist (ks : List Bool) (as : List Arrival) :
    (keptBytes ks as).Sublist (as.map Arrival.byte) := by
  induction ks generalizing as with
  | nil => exact List.nil_sublist _
  | cons k ks ih =>
    obtain _ | ⟨a, as⟩ := as
    · cases k <;> exact List.nil_sublist _
    · cases k
      · exact (ih as).cons _
      · exact (ih as).cons_cons _

/-- What `uart0Getch` has learnt about the queue when it stands at `pc`. -/
def Knows : Pc → List UInt8 → Prop
  | .read, q => q ≠ []
  | .increment ch, q => q.head? = some ch
  | _, _ => True

/-- The extract index is out of range only between its increment and its reduction. -/
def ExtractBound (s : State) : Prop :=
  match s.pc with
  | .reduce _ => s.uart0RxExtractIdx ≤ uart0RxBufferSize
  | _ => s.uart0RxExtractIdx < uart0RxBufferSize

structure Inv (s : State) (kept : List Bool) (q : List UInt8) : Prop where
  ring : Holds uart0RxBufferSize s.uart0RxBuffer (s.uart0RxExtractIdx % uart0RxBufferSize)
    s.uart0RxInsertIdx q
  extract : ExtractBound s
  knows : Knows s.pc q
  length_eq : kept.length = s.arrived.length
  stream : keptBytes kept s.arrived = removed s ++ q
  lost_full : ∀ (j : Nat) (a : Arrival), s.arrived[j]? = some a → kept[j]? = some false →
    (kept.take j).count true = a.taken + (uart0RxBufferSize - 1)

theorem inv_uart0Init (buf : Nat → UInt8) : Inv (uart0Init buf) [] [] where
  ring := Ring.holds_nil (Nat.mod_lt _ (by decide))
  extract := by simp [ExtractBound, uart0Init, uart0RxBufferSize]
  knows := trivial
  length_eq := rfl
  stream := rfl
  lost_full := by intro j a h; simp [uart0Init] at h

variable {s t : State} {kept : List Bool} {q : List UInt8}

theorem Inv.extract_le (h : Inv s kept q) : s.uart0RxExtractIdx ≤ uart0RxBufferSize := by
  have he := h.extract
  unfold ExtractBound at he
  split at he <;> omega

theorem Inv.account (h : Inv s kept q) : Account s kept where
  length_eq := h.length_eq
  subsequence := by
    refine List.Sublist.trans ?_ (keptBytes_sublist kept s.arrived)
    rw [h.stream, removed, List.append_assoc]
    exact List.sublist_append_left _ _
  returned_prefix := by
    rw [h.stream, removed, List.append_assoc]
    exact List.prefix_append _ _
  lost_full := h.lost_full

/-- Outside the excluded state the handler's test means that the ring is full. -/
theorem full_test (h : Inv s kept q) {rbr : UInt8} (ha : Admits s (.receive rbr)) :
    (s.uart0RxInsertIdx + 1) % uart0RxBufferSize = s.uart0RxExtractIdx ↔
      q.length + 1 = uart0RxBufferSize := by
  have hring := h.ring.succ_insert_eq_extract_iff
  have hle := h.extract_le
  by_cases hw : s.uart0RxExtractIdx = uart0RxBufferSize
  · have hi := h.ring.insert_lt
    have hlast : s.uart0RxInsertIdx ≠ uart0RxBufferSize - 1 := fun he => ha ⟨hw, he⟩
    rw [← hring, hw, Nat.mod_self, Nat.mod_eq_of_lt (by omega)]
    constructor <;> intro he
    · unfold uart0RxBufferSize at *; omega
    · omega
  · rw [Nat.mod_eq_of_lt (by omega : s.uart0RxExtractIdx < uart0RxBufferSize)] at hring
    exact hring

theorem lost_full_append {as : List Arrival} {a : Arrival} {k : Bool}
    (hl : kept.length = as.length)
    (h : ∀ (j : Nat) (b : Arrival), as[j]? = some b → kept[j]? = some false →
      (kept.take j).count true = b.taken + (uart0RxBufferSize - 1))
    (hk : k = false → kept.count true = a.taken + (uart0RxBufferSize - 1)) :
    ∀ (j : Nat) (b : Arrival), (as ++ [a])[j]? = some b → (kept ++ [k])[j]? = some false →
      ((kept ++ [k]).take j).count true = b.taken + (uart0RxBufferSize - 1) := by
  intro j b hb hf
  by_cases hj : j < as.length
  · rw [List.getElem?_append_left hj] at hb
    rw [List.getElem?_append_left (by omega)] at hf
    rw [List.take_append_of_le_length (by omega)]
    exact h j b hb hf
  · have hlt := (List.getElem?_eq_some_iff.mp hb).1
    have he : j = as.length := by simp at hlt; omega
    subst he
    rw [List.getElem?_concat_length] at hb
    rw [← hl, List.getElem?_concat_length] at hf
    obtain rfl := Option.some.inj hb
    rw [← hl, List.take_left]
    exact hk (Option.some.inj hf)

/-- The receive branch either appends the byte to the queue or finds it full. -/
theorem inv_uart0Isr (h : Inv s kept q) {rbr : UInt8} (ha : Admits s (.receive rbr)) :
    ∃ k q', Inv (uart0Isr s rbr) (kept ++ [k]) q' := by
  have hcount : kept.count true = (removed s).length + q.length := by
    rw [← keptBytes_length h.length_eq, h.stream, List.length_append]
  have htest := full_test h ha
  have hremoved : removed (uart0Isr s rbr) = removed s := rfl
  by_cases hfull : q.length + 1 = uart0RxBufferSize
  · have hins : (uart0Isr s rbr).uart0RxInsertIdx = s.uart0RxInsertIdx := by
      simp [uart0Isr, htest.mpr hfull]
    refine ⟨false, q, ?_, h.extract, h.knows, by simp [uart0Isr, h.length_eq], ?_, ?_⟩
    · rw [hins]
      exact h.ring.store rbr
    · rw [hremoved, ← h.stream]
      change keptBytes (kept ++ [false]) (s.arrived ++ [_]) = _
      rw [keptBytes_append h.length_eq]
      exact List.append_nil _
    · exact lost_full_append h.length_eq h.lost_full fun _ => by simp only; omega
  · have hins : (uart0Isr s rbr).uart0RxInsertIdx =
        (s.uart0RxInsertIdx + 1) % uart0RxBufferSize := by
      have hne : (s.uart0RxInsertIdx + 1) % uart0RxBufferSize ≠ s.uart0RxExtractIdx :=
        fun he => hfull (htest.mp he)
      simp only [uart0Isr, if_pos hne]
    have hroom : q.length + 1 < uart0RxBufferSize := by have := h.ring.length_lt; omega
    refine ⟨true, q ++ [rbr], ?_, h.extract, ?_, by simp [uart0Isr, h.length_eq], ?_, ?_⟩
    · rw [hins]
      exact h.ring.push rbr hroom
    · have hk := h.knows
      change Knows s.pc (q ++ [rbr])
      cases hpc : s.pc <;> rw [hpc] at hk <;> simp_all [Knows, List.head?_append]
    · rw [hremoved, ← List.append_assoc, ← h.stream]
      change keptBytes (kept ++ [true]) (s.arrived ++ [_]) = _
      rw [keptBytes_append h.length_eq]
      rfl
    · exact lost_full_append h.length_eq h.lost_full (by simp)

/-- Four accesses to a nonempty queue remove and return its first byte. -/
theorem inv_uart0Getch (h : Inv s kept q) : ∃ q', Inv (uart0Getch s) kept q' := by
  have hb := h.extract
  have hk := h.knows
  unfold ExtractBound at hb
  cases hpc : s.pc with
  | compare =>
    rw [hpc] at hb hk
    have hx : s.uart0RxExtractIdx % uart0RxBufferSize = s.uart0RxExtractIdx :=
      Nat.mod_eq_of_lt hb
    by_cases he : s.uart0RxInsertIdx = s.uart0RxExtractIdx
    · have hg : uart0Getch s = { s with results := s.results ++ [none] } := by
        simp only [uart0Getch, hpc, if_pos he]
      rw [hg]
      refine ⟨q, h.ring, h.extract, h.knows, h.length_eq, ?_, h.lost_full⟩
      simpa [removed, returned] using h.stream
    · have hg : uart0Getch s = { s with pc := .read } := by
        simp only [uart0Getch, hpc, if_neg he]
      rw [hg]
      refine ⟨q, h.ring, hb, ?_, h.length_eq, ?_, h.lost_full⟩
      · have hq := h.ring.insert_eq_extract_iff
        rw [hx] at hq
        exact fun hnil => he (hq.mpr hnil)
      · simpa [removed, returned, inFlight, hpc] using h.stream
  | read =>
    rw [hpc] at hb hk
    obtain ⟨x, q', rfl⟩ := List.exists_cons_of_ne_nil hk
    have hx : s.uart0RxBuffer s.uart0RxExtractIdx = x := by
      have hf := h.ring.front
      rwa [Nat.mod_eq_of_lt hb] at hf
    have hg : uart0Getch s = { s with pc := .increment x } := by
      simp only [uart0Getch, hpc, hx]
    rw [hg]
    refine ⟨x :: q', h.ring, hb, rfl, h.length_eq, ?_, h.lost_full⟩
    simpa [removed, returned, inFlight, hpc] using h.stream
  | increment ch =>
    rw [hpc] at hb hk
    obtain ⟨q', rfl⟩ : ∃ q', q = ch :: q' := by
      cases q with
      | nil => simp [Knows] at hk
      | cons x q' => exact ⟨q', by simp [Knows] at hk; rw [hk]⟩
    have hg : uart0Getch s =
        { s with uart0RxExtractIdx := s.uart0RxExtractIdx + 1, pc := .reduce ch } := by
      simp only [uart0Getch, hpc]
    rw [hg]
    refine ⟨q', ?_, Nat.succ_le_of_lt hb, trivial, h.length_eq, ?_, h.lost_full⟩
    · have hp := h.ring.pop
      rwa [Nat.mod_add_mod] at hp
    · simpa [removed, returned, inFlight, hpc] using h.stream
  | reduce ch =>
    rw [hpc] at hb hk
    have hg : uart0Getch s =
        { s with
          uart0RxExtractIdx := s.uart0RxExtractIdx % uart0RxBufferSize
          pc := .compare
          results := s.results ++ [some ch] } := by
      simp only [uart0Getch, hpc]
    rw [hg]
    refine ⟨q, ?_, Nat.mod_lt _ (by decide), trivial, h.length_eq, ?_, h.lost_full⟩
    · simpa using h.ring
    · simpa [removed, returned, inFlight, hpc] using h.stream

theorem arrived_uart0Getch (s : State) : (uart0Getch s).arrived = s.arrived := by
  unfold uart0Getch
  split
  · split <;> rfl
  all_goals rfl

theorem inv_step {a : Act} (h : Inv s kept q) (ha : Admits s a) (hs : step s a = some t) :
    ∃ more ks q', t.arrived = s.arrived ++ more ∧ ks.length = more.length ∧
      Inv t (kept ++ ks) q' := by
  cases a with
  | receive rbr =>
    obtain rfl := Option.some.inj hs
    obtain ⟨k, q', hi⟩ := inv_uart0Isr h ha
    exact ⟨_, [k], q', rfl, rfl, hi⟩
  | getch =>
    obtain rfl := Option.some.inj hs
    obtain ⟨q', hi⟩ := inv_uart0Getch h
    refine ⟨[], [], q', ?_, rfl, by rwa [List.append_nil]⟩
    rw [List.append_nil, arrived_uart0Getch]

/-- Accesses made since the start, not counting the failed comparisons. -/
def progress (s : State) : Nat :=
  4 * (returned s).length +
    match s.pc with
    | .compare => 0
    | .read => 1
    | .increment _ => 2
    | .reduce _ => 3

theorem length_le_of_le_progress {n : Nat} (h : 4 * n ≤ progress s) : n ≤ (returned s).length := by
  unfold progress at h
  split at h <;> omega

theorem progress_uart0Isr (s : State) (rbr : UInt8) : progress (uart0Isr s rbr) = progress s := rfl

/-- A step of `uart0Getch` makes progress unless everything kept has been returned. -/
theorem progress_uart0Getch (h : Inv s kept q) :
    min (4 * kept.count true) (progress s + 1) ≤ progress (uart0Getch s) := by
  cases hpc : s.pc with
  | compare =>
    by_cases he : s.uart0RxInsertIdx = s.uart0RxExtractIdx
    · have hb := h.extract
      unfold ExtractBound at hb
      rw [hpc] at hb
      have hq := h.ring.insert_eq_extract_iff
      rw [Nat.mod_eq_of_lt hb] at hq
      have hk : kept.count true = (returned s).length := by
        rw [← keptBytes_length h.length_eq, h.stream, hq.mp he]
        simp [removed, inFlight, hpc]
      simp only [progress, uart0Getch, hpc, if_pos he, returned, List.filterMap_append, hk]
      simp
    · simp only [progress, uart0Getch, hpc, if_neg he, returned]
      omega
  | read =>
    simp only [progress, uart0Getch, hpc, returned]
    omega
  | increment ch =>
    simp only [progress, uart0Getch, hpc, returned]
    omega
  | reduce ch =>
    simp only [progress, uart0Getch, hpc, returned, List.filterMap_append, List.length_append]
    simp
    omega

/-- A guarded continuation extends the account, and with enough steps of
`uart0Getch` returns everything kept before it. -/
theorem kept_returned {bs : List Act} (h : Inv s kept q) (hb : Along Admits step s bs)
    (he : exec step s bs = some t) (hn : 4 * kept.count true ≤ getchSteps bs) :
    keptBytes kept s.arrived <+: returned t := by
  let I : State → Prop := fun u => ∃ more ks q', u.arrived = s.arrived ++ more ∧
    ks.length = more.length ∧ Inv u (kept ++ ks) q'
  have hI : I s := ⟨[], [], q, (List.append_nil _).symm, rfl, by rwa [List.append_nil]⟩
  have hkeep : ∀ u a v, I u → Admits u a → step u a = some v → I v := by
    intro u a v ⟨more, ks, q', hm, hl, hu⟩ ha hv
    obtain ⟨more', ks', q'', hm', hl', hv'⟩ := inv_step hu ha hv
    refine ⟨more ++ more', ks ++ ks', q'', ?_, by simp [hl, hl'], ?_⟩
    · rw [hm', hm, List.append_assoc]
    · rwa [← List.append_assoc]
  have hprogress := progress_of_along (fun a : Act => a == .getch) (4 * kept.count true)
    (I := I) (P := Admits) (μ := progress)
    (fun u a v hu ha hv => by
      refine ⟨hkeep u a v hu ha hv, ?_⟩
      obtain ⟨more, ks, q', _, _, hu⟩ := hu
      cases a with
      | receive rbr =>
        obtain rfl := Option.some.inj hv
        rw [progress_uart0Isr]
        exact Nat.min_le_right _ _
      | getch =>
        obtain rfl := Option.some.inj hv
        have hg := progress_uart0Getch hu
        rw [List.count_append] at hg
        simp only [beq_self_eq_true, if_true]
        omega)
    hI hb he
  change min (4 * kept.count true) (progress s + getchSteps bs) ≤ progress t at hprogress
  obtain ⟨more, ks, q', hm, _, ht⟩ := inv_of_along hkeep hI hb he
  have hlen := length_le_of_le_progress (n := kept.count true) (s := t) (by omega)
  have hpre := ht.account.returned_prefix
  rw [hm, keptBytes_append h.length_eq] at hpre
  refine List.prefix_of_prefix_length_le (List.prefix_append _ _) hpre ?_
  rwa [keptBytes_length h.length_eq]

/-- `n` bytes received and returned one by one. -/
def quiet (n : Nat) : State where
  uart0RxBuffer := fun _ => 0
  uart0RxInsertIdx := n
  uart0RxExtractIdx := n
  pc := .compare
  results := List.replicate n (some 0)
  arrived := (List.range n).map fun j => ⟨0, j⟩

def round : List Act := [.receive 0, .getch, .getch, .getch, .getch]

theorem removed_quiet (n : Nat) : removed (quiet n) = List.replicate n 0 := by
  simp [removed, returned, quiet, inFlight]

theorem receive_quiet (n : Nat) :
    uart0Isr (quiet n) 0 =
      { quiet n with
        uart0RxInsertIdx := (n + 1) % uart0RxBufferSize
        arrived := (List.range (n + 1)).map fun j => ⟨0, j⟩ } := by
  have hne : (n + 1) % uart0RxBufferSize ≠ n := by unfold uart0RxBufferSize at *; omega
  simp only [uart0Isr, removed_quiet, List.length_replicate]
  simp [quiet, hne, List.range_succ]

theorem exec_round {n : Nat} (h : n + 1 < uart0RxBufferSize) :
    exec step (quiet n) round = some (quiet (n + 1)) := by
  have hmod : (n + 1) % uart0RxBufferSize = n + 1 := Nat.mod_eq_of_lt h
  simp only [round, exec_cons, step, Option.bind_some, exec_nil,
    receive_quiet]
  simp [quiet, uart0Getch, hmod, List.replicate_succ']

theorem exec_rounds {n : Nat} (h : n < uart0RxBufferSize) :
    exec step (quiet 0) (List.replicate n round).flatten = some (quiet n) := by
  induction n with
  | zero => rfl
  | succ n ih =>
    rw [List.replicate_succ', List.flatten_concat, exec_append_of_exec (ih (by omega))]
    exact exec_round h

theorem along_rounds {n : Nat} (h : n < uart0RxBufferSize) :
    Along Admits step (quiet 0) (List.replicate n round).flatten := by
  induction n with
  | zero => trivial
  | succ n ih =>
    rw [List.replicate_succ', List.flatten_concat, along_append]
    refine ⟨ih (by omega), fun t ht => ?_⟩
    obtain rfl := Option.some.inj ((exec_rounds (by omega)).symm.trans ht)
    have hne : n ≠ uart0RxBufferSize := by omega
    simp [round, Along, Admits, quiet, hne]

/-- In every run whose arrivals avoid the excluded state the receive ring is a
lossless queue of `uart0RxBufferSize - 1` bytes. -/
theorem getch_lossless (buf : Nat → UInt8) (as : List Act) {s : State}
    (ha : Along Admits step (uart0Init buf) as)
    (he : exec step (uart0Init buf) as = some s) : Lossless Admits s := by
  obtain ⟨kept, q, hi⟩ := inv_of_along (I := fun s => ∃ kept q, Inv s kept q)
    (fun u a v ⟨_, _, hu⟩ ha hv =>
      let ⟨_, _, _, _, _, hv'⟩ := inv_step hu ha hv
      ⟨_, _, hv'⟩)
    ⟨[], [], inv_uart0Init buf⟩ ha he
  exact ⟨kept, hi.account, fun bs t ht hb hn => kept_returned hi hb ht hn⟩

/-- Three bytes that lie in the last two slots of the ring and in its first one, the first of them
about to be returned. -/
def wrapped : List Act :=
  (List.replicate 1022 round).flatten ++
    [.receive 5, .receive 6, .getch, .getch, .receive 7, .getch]

theorem getch_lossless_wrapped : ∃ s, exec step (uart0Init fun _ => 0) wrapped = some s ∧
    s.uart0RxInsertIdx = 1 ∧ s.uart0RxExtractIdx = 1023 ∧ Lossless Admits s := by
  have hrounds : exec step (uart0Init fun _ => 0) (List.replicate 1022 round).flatten =
      some (quiet 1022) := exec_rounds (by decide)
  have htail : ∃ s, exec step (quiet 1022)
      [.receive 5, .receive 6, .getch, .getch, .receive 7, .getch] = some s ∧
        s.uart0RxInsertIdx = 1 ∧ s.uart0RxExtractIdx = 1023 := ⟨_, rfl, by decide, by decide⟩
  obtain ⟨s, hs, hinsert, hextract⟩ := htail
  have he : exec step (uart0Init fun _ => 0) wrapped = some s := by
    rw [wrapped, exec_append_of_exec hrounds, hs]
  refine ⟨s, he, hinsert, hextract, getch_lossless (fun _ => 0) wrapped ?_ he⟩
  rw [wrapped, along_append]
  refine ⟨along_rounds (by decide), fun t ht => ?_⟩
  obtain rfl := Option.some.inj (hrounds.symm.trans ht)
  decide

/-- `n + 1` bytes removed, the extract index left at `uart0RxBufferSize`, and `m` more
bytes received. -/
def window (n m : Nat) : State where
  uart0RxBuffer := fun _ => 0
  uart0RxInsertIdx := m
  uart0RxExtractIdx := uart0RxBufferSize
  pc := .reduce 0
  results := List.replicate n (some 0)
  arrived := (List.range (n + 1)).map (fun j => ⟨0, j⟩) ++ List.replicate m ⟨0, n + 1⟩

/-- 1023 bytes pass through; the next one leaves `uart0Getch` before its reduction,
and 1024 bytes arrive there. -/
def overrun : List Act :=
  (List.replicate 1023 round).flatten ++ ([.receive 0, .getch, .getch, .getch] ++
    (List.replicate 1023 (.receive 0) ++ [.receive 0, .getch]))

theorem removed_window (n m : Nat) : removed (window n m) = List.replicate (n + 1) 0 := by
  simp [removed, returned, window, inFlight, List.replicate_succ']

theorem receive_window {n m : Nat} :
    uart0Isr (window n m) 0 =
      { window n (m + 1) with uart0RxInsertIdx := (m + 1) % uart0RxBufferSize } := by
  have hne : (m + 1) % uart0RxBufferSize ≠ uart0RxBufferSize :=
    Nat.ne_of_lt (Nat.mod_lt _ (by decide : 0 < uart0RxBufferSize))
  simp only [uart0Isr, removed_window, List.length_replicate]
  simp [window, hne, List.replicate_succ' (n := m)]

theorem exec_enter {n : Nat} (h : n + 1 = uart0RxBufferSize) :
    exec step (quiet n) [.receive 0, .getch, .getch, .getch] = some (window n 0) := by
  have hne : 0 ≠ n := by unfold uart0RxBufferSize at h; omega
  simp only [exec_cons, step, Option.bind_some, exec_nil,
    receive_quiet]
  simp [quiet, window, uart0Getch, hne, h]

theorem exec_fill {n m : Nat} (h : m < uart0RxBufferSize) :
    exec step (window n 0) (List.replicate m (.receive 0)) = some (window n m) := by
  induction m with
  | zero => rfl
  | succ m ih =>
    rw [List.replicate_succ', exec_append_of_exec (ih (by omega)),
      exec_cons_of_step (t := window n (m + 1)), exec_nil]
    simp only [step, receive_window, Nat.mod_eq_of_lt h]
    rfl

/-- The state after the overrun: both indices are 0 and 1024 bytes are gone. -/
def overrunState : State where
  uart0RxBuffer := fun _ => 0
  uart0RxInsertIdx := 0
  uart0RxExtractIdx := 0
  pc := .compare
  results := List.replicate uart0RxBufferSize (some 0)
  arrived := (List.range uart0RxBufferSize).map (fun j => ⟨0, j⟩) ++
    List.replicate uart0RxBufferSize ⟨0, uart0RxBufferSize⟩

theorem exec_last {n : Nat} (h : n + 1 = uart0RxBufferSize) :
    exec step (window n n) [.receive 0, .getch] = some overrunState := by
  simp only [exec_cons, step, Option.bind_some, exec_nil, receive_window, h, Nat.mod_self]
  simp only [uart0Getch, window, overrunState, Nat.mod_self, h, ← List.replicate_succ']

theorem exec_overrun : exec step (uart0Init fun _ => 0) overrun = some overrunState := by
  have h0 : uart0Init (fun _ => 0) = quiet 0 := rfl
  rw [overrun, h0, exec_append_of_exec (exec_rounds (by decide)),
    exec_append_of_exec (exec_enter (by decide)), exec_append_of_exec (exec_fill (by decide))]
  exact exec_last (by decide)

theorem exec_getch_overrunState (n : Nat) :
    exec step overrunState (List.replicate n .getch) =
      some { overrunState with results := overrunState.results ++ List.replicate n none } := by
  induction n with
  | zero => simp only [List.replicate_zero, exec_nil, List.append_nil]
  | succ n ih =>
    rw [List.replicate_succ', exec_append_of_exec ih, exec_cons_of_step rfl, exec_nil,
      List.replicate_succ' (n := n), ← List.append_assoc]
    rfl

theorem overrunState_taken {j : Nat} {a : Arrival} (h : overrunState.arrived[j]? = some a) :
    a.taken = min j uart0RxBufferSize := by
  have hlt := (List.getElem?_eq_some_iff.mp h).1
  simp only [overrunState, List.length_append, List.length_map, List.length_range,
    List.length_replicate] at hlt
  simp only [overrunState] at h
  by_cases hj : j < uart0RxBufferSize
  · rw [List.getElem?_append_left (by simpa using hj), List.getElem?_map,
      List.getElem?_range hj] at h
    obtain rfl := Option.some.inj h
    simp only
    omega
  · rw [List.getElem?_append_right (by simpa using hj), List.getElem?_replicate] at h
    simp only [List.length_map, List.length_range] at h
    rw [if_pos (by omega)] at h
    obtain rfl := Option.some.inj h
    simp only
    omega

/-- Bytes that find the ring not full disappear: the run `overrun` receives 2048 bytes,
1024 are ever returned, and none of the others found 1023 unread bytes. -/
theorem getch_overrun : ∃ s, exec step (uart0Init fun _ => 0) overrun = some s ∧
    ¬ Lossless (fun _ _ => True) s := by
  refine ⟨overrunState, exec_overrun, ?_⟩
  intro ⟨kept, hacc, hret⟩
  have hlen : kept.length = 2 * uart0RxBufferSize := by
    rw [hacc.length_eq]
    simp [overrunState, Nat.two_mul]
  have hpre := hret _ _ (exec_getch_overrunState (4 * kept.count true))
    (along_of_mem (fun _ _ _ => trivial) _) (by simp [getchSteps])
  have hcount : kept.count true ≤ uart0RxBufferSize := by
    have h := hpre.length_le
    rw [keptBytes_length hacc.length_eq] at h
    simpa [returned, overrunState, List.filterMap_append] using h
  have hpos : 1 < uart0RxBufferSize := by decide
  obtain ⟨j, hj, hfalse⟩ : ∃ j, ∃ hj : j < kept.length, kept[j] = false := by
    by_contra hnone
    have hall : ∀ b ∈ kept, b = true := by
      intro b hb
      obtain ⟨j, hj, rfl⟩ := List.getElem_of_mem hb
      by_contra hne
      exact hnone ⟨j, hj, by simpa using hne⟩
    rw [List.count_eq_length.mpr fun b hb => (hall b hb).symm, hlen] at hcount
    omega
  have hja : j < overrunState.arrived.length := by rw [← hacc.length_eq]; exact hj
  have hlost := hacc.lost_full j _ (List.getElem?_eq_getElem hja)
    (by rw [List.getElem?_eq_getElem hj, hfalse])
  have htaken := overrunState_taken (List.getElem?_eq_getElem hja)
  have hbefore : (kept.take j).count true ≤ min j (kept.count true) := by
    refine Nat.le_min.mpr ⟨?_, (List.take_sublist j kept).count_le true⟩
    exact Nat.le_trans List.count_le_length (List.length_take_le j kept)
  rw [htaken] at hlost
  omega

end Plak1a.Camera.RxFifo
