import Plak1a.Barcode.Reader
import Plak1a.Barcode.Symbols

/-!
# Reading a symbol whose speed varies

`bittime` is re-estimated from every element. With times in `[k*L, k*H]` for `k` modules
and `8*(H - L) < L`, an estimate in `[L, H]` rounds to the right width and the next
estimate is in `[L, H]` again, so the error does not accumulate over a symbol.

Times are what the polls of the tick counter see; where an edge falls between two polls
is left open.
-/

namespace Plak1a.Barcode.Jitter

open Ean13 Decode Symbols Timer Reader

/-- The last read of the tick counter. -/
def lastRead (r : UInt16) (ts : List UInt16) : UInt16 := ts.getLast?.getD r

/-- The levels from `aux = read_signal()` in an element on: `es` holds the polls of this
and the following elements and `q` those of the quiet zone. -/
def inside (q : List UInt16) (rest : List Bool) : Bool → List (List UInt16) → List Bool
  | b, [] => b :: (List.replicate q.length b ++ rest)
  | b, ts :: es => b :: (List.replicate ts.length b ++ (!b) :: inside q rest (!b) es)

/-- The levels of a whole scan that starts `w` reads before the first bar. -/
def scanLevels (bar : Bool) (w : Nat) (es : List (List UInt16)) (q : List UInt16)
    (rest : List Bool) : List Bool :=
  (!bar) :: (List.replicate w (!bar) ++ bar :: inside q rest bar es)

/-- The last poll in an element of `k` modules sees between `k * L` and `k * H` ticks since
the last poll before it, and the quiet zone lasts longer than 5000 ticks. -/
def Sensed (L H : Nat) (q : List UInt16) : UInt16 → List (List UInt16) → List UInt8 → Prop
  | r, [], [] => 5000 < ticksFrom r q
  | r, ts :: es, k :: ks =>
    k.toNat * L ≤ ticksFrom r ts ∧ ticksFrom r ts ≤ k.toNat * H ∧
      Sensed L H q (lastRead r ts) es ks
  | _, _, _ => False

instance (L H : Nat) (q : List UInt16) :
    ∀ r es ks, Decidable (Sensed L H q r es ks)
  | r, [], [] => inferInstanceAs (Decidable (5000 < ticksFrom r q))
  | r, ts :: es, _ :: ks =>
    have := instDecidableSensed L H q (lastRead r ts) es ks
    inferInstanceAs (Decidable (_ ∧ _ ∧ _))
  | _, [], _ :: _ => isFalse id
  | _, _ :: _, [] => isFalse id

/-- Rounding recovers the width, and the next estimate stays in the interval. -/
theorem round_width {L H k t b : Nat} (hL : 1 ≤ L) (h8 : 8 * (H - L) < L)
    (hk : 1 ≤ k ∧ k ≤ 4) (ht : k * L ≤ t ∧ t ≤ k * H) (hb : L ≤ b ∧ b ≤ H) :
    (t + b / 2) / b = k ∧ L ≤ (t + b) / (k + 1) ∧ (t + b) / (k + 1) ≤ H := by
  have hcases : k = 1 ∨ k = 2 ∨ k = 3 ∨ k = 4 := by omega
  rcases hcases with rfl | rfl | rfl | rfl
  all_goals
    refine ⟨?_, by omega, by omega⟩
    apply Nat.div_eq_of_lt_le
    · omega
    · omega

section Poll

variable (quit : UInt32 → Bool) (b : Bool) {timer : UInt32} (levels : List Bool)
  (ticks : List UInt16)

theorem poll_tick (t : UInt16) {r : UInt16} {c : Counter} (e : Option UInt32) {a : Nat}
    (hc : Synced r c) (ha : c.counter = timer + UInt32.ofNat a) :
    (counterRead t c).counter = timer + UInt32.ofNat (a + (t - r).toNat) ∧
    poll quit b timer e c (b :: levels) (t :: ticks) =
      if quit (UInt32.ofNat (a + (t - r).toNat)) then .quit (counterRead t c)
      else poll quit b timer (some (UInt32.ofNat (a + (t - r).toNat))) (counterRead t c)
        levels ticks := by
  have hδ : (t - r).toUInt32 = UInt32.ofNat (t - r).toNat := by
    have := (t - r).toNat_lt
    apply UInt32.toNat_inj.mp
    rw [UInt16.toNat_toUInt32, UInt32.toNat_ofNat']
    omega
  have hcount : (counterRead t c).counter = timer + UInt32.ofNat (a + (t - r).toNat) := by
    rw [counterRead_counter hc, ha, hδ, UInt32.ofNat_add, UInt32.add_assoc]
  have helapsed : (counterRead t c).counter - timer = UInt32.ofNat (a + (t - r).toNat) := by
    rw [hcount, UInt32.add_comm, UInt32.add_sub_cancel]
  refine ⟨hcount, ?_⟩
  rw [poll.eq_def]
  simp only [if_true, helapsed]

theorem poll_edge (ts : List UInt16) :
    ∀ {r : UInt16} {c : Counter} {a : Nat}, Synced r c → c.counter = timer + UInt32.ofNat a →
      (∀ x ≤ a + ticksFrom r ts, quit (UInt32.ofNat x) = false) →
      ∃ c', poll quit b timer (some (UInt32.ofNat a)) c
          (List.replicate ts.length b ++ (!b) :: levels) (ts ++ ticks) =
            .edge (some (UInt32.ofNat (a + ticksFrom r ts))) c' levels ticks ∧
        Synced (lastRead r ts) c' ∧
        c'.counter = timer + UInt32.ofNat (a + ticksFrom r ts) := by
  induction ts with
  | nil =>
    intro r c a hc ha _
    refine ⟨c, ?_, hc, ha⟩
    rw [poll.eq_def]
    simp [ticksFrom]
  | cons t ts ih =>
    intro r c a hc ha hq
    obtain ⟨hcount, hpoll⟩ := poll_tick quit b (List.replicate ts.length b ++ (!b) :: levels)
      (ts ++ ticks) t (some (UInt32.ofNat a)) hc ha
    rw [ticksFrom, ← Nat.add_assoc] at hq
    obtain ⟨c', hrest, hsync, hcount'⟩ := ih (synced_counterRead t c) hcount hq
    refine ⟨c', ?_, ?_, ?_⟩
    · show poll quit b timer _ c (b :: (List.replicate ts.length b ++ (!b) :: levels))
        (t :: (ts ++ ticks)) = _
      rw [hpoll, hq _ (Nat.le_add_right _ _), if_neg (by decide), hrest, ticksFrom,
        Nat.add_assoc]
    · rwa [lastRead, List.getLast?_cons]
    · rw [hcount', ticksFrom, Nat.add_assoc]

/-- A loop that polls at least once leaves through the edge with the last elapsed time. -/
theorem poll_element {ts : List UInt16} {r : UInt16} {c : Counter}
    (e : Option UInt32) (hc : Synced r c) (ht : timer = c.counter) (hne : 0 < ticksFrom r ts)
    (hq : ∀ x ≤ ticksFrom r ts, quit (UInt32.ofNat x) = false) :
    ∃ c', poll quit b timer e c (List.replicate ts.length b ++ (!b) :: levels) (ts ++ ticks) =
          .edge (some (UInt32.ofNat (ticksFrom r ts))) c' levels ticks ∧
        Synced (lastRead r ts) c' ∧ c'.counter = timer + UInt32.ofNat (ticksFrom r ts) := by
  cases ts with
  | nil => exact absurd hne (Nat.lt_irrefl 0)
  | cons t ts =>
    have h0 : c.counter = timer + UInt32.ofNat 0 := by
      rw [ht]
      exact (UInt32.add_zero _).symm
    obtain ⟨hcount, hpoll⟩ := poll_tick quit b
      (List.replicate ts.length b ++ (!b) :: levels) (ts ++ ticks) t e hc h0
    rw [Nat.zero_add] at hcount hpoll
    obtain ⟨c', hrest, hsync, hcount'⟩ :=
      poll_edge quit b levels ticks ts (synced_counterRead t c) hcount hq
    refine ⟨c', ?_, ?_, hcount'⟩
    · show poll quit b timer e c (b :: (List.replicate ts.length b ++ (!b) :: levels))
        (t :: (ts ++ ticks)) = _
      rw [hpoll, hq _ (Nat.le_add_right _ _), if_neg (by decide), hrest]
      rfl
    · rwa [lastRead, List.getLast?_cons]

/-- The loop over a quiet zone that lasts returns from inside its body. -/
theorem poll_quiet (q : List UInt16) :
    ∀ {r : UInt16} {c : Counter} {a : Nat} (e : Option UInt32), Synced r c →
      c.counter = timer + UInt32.ofNat a → a ≤ 5000 → 5000 < a + ticksFrom r q →
      ∃ c', poll (fun e => 5000 < e) b timer e c (List.replicate q.length b ++ levels)
        (q ++ ticks) = .quit c' := by
  induction q with
  | nil =>
    intro r c a e hc ha hle hlt
    rw [ticksFrom] at hlt
    omega
  | cons t q ih =>
    intro r c a e hc ha hle hlt
    have hδ := (t - r).toNat_lt
    obtain ⟨hcount, hpoll⟩ := poll_tick (fun e => 5000 < e) b
      (List.replicate q.length b ++ levels) (q ++ ticks) t e hc ha
    rw [ticksFrom, ← Nat.add_assoc] at hlt
    have hdec : (5000 < UInt32.ofNat (a + (t - r).toNat)) ↔ 5000 < a + (t - r).toNat := by
      rw [UInt32.lt_iff_toNat_lt, UInt32.toNat_ofNat', Nat.mod_eq_of_lt (by omega)]
      rfl
    by_cases hquit : 5000 < a + (t - r).toNat
    · refine ⟨counterRead t c, hpoll.trans ?_⟩
      rw [if_pos (decide_eq_true (hdec.mpr hquit))]
    · obtain ⟨c', hc'⟩ := ih (some (UInt32.ofNat (a + (t - r).toNat)))
        (synced_counterRead t c) hcount (by omega) hlt
      refine ⟨c', hpoll.trans ?_⟩
      rw [if_neg (by rw [decide_eq_true_eq, hdec]; exact hquit)]
      exact hc'

end Poll

theorem skip_replicate (w : Nat) (b : Bool) (levels : List Bool) :
    skip b (List.replicate w b ++ (!b) :: levels) = some levels := by
  induction w with
  | zero => simp [skip]
  | succ w ih =>
    rw [List.replicate_succ, List.cons_append, skip, if_pos rfl, ih]

/-- The widths `ws` are in `code`, and every estimate has been in the interval. -/
structure Recorded (L H : Nat) (ws : List UInt8) (s : State) : Prop where
  iCode : s.iCode = ws.length
  code : (List.range ws.length).map s.code = ws
  count : s.bittimes.length = ws.length
  bittimes : ∀ x ∈ s.bittimes, L ≤ x.toNat ∧ x.toNat ≤ H

/-- The state between two elements: the last poll has seen `r`. -/
structure Reading (L H : Nat) (r : UInt16) (ws : List UInt8) (s : State) : Prop extends
    Recorded L H ws s where
  synced : Synced r s.counter
  timer : s.timer = s.counter.counter
  estimate : L ≤ s.bittime.toNat ∧ s.bittime.toNat ≤ H

/-- The width the loop body computes. -/
def width (bittime t : UInt32) : UInt32 := (t + bittime / 2) / bittime

/-- The variables after a loop body that goes on. -/
def measured (s : State) (t : UInt32) : State :=
  { s with
    timer := s.timer + t
    actualtime := some t
    bittime := (t + s.bittime) / (width s.bittime t + 1)
    bittimes := (t + s.bittime) / (width s.bittime t + 1) :: s.bittimes
    code := Function.update s.code s.iCode (width s.bittime t).toUInt8
    iCode := s.iCode + 1 }

theorem recordWidth_eq {s : State} {t : UInt32} (hb : s.bittime ≠ 0)
    (hn : width s.bittime t + 1 ≠ 0) (hi : s.iCode < 60) (k : State → Outcome) :
    recordWidth s t k = k (measured s t) := by
  unfold recordWidth
  dsimp only
  unfold width at hn
  rw [if_neg hb, if_neg hn, if_neg (by omega), if_neg (by omega)]
  rfl

theorem map_update_range {f : Nat → UInt8} {ws : List UInt8} (w : UInt8)
    (h : (List.range ws.length).map f = ws) :
    (List.range (ws.length + 1)).map (Function.update f ws.length w) = ws ++ [w] := by
  rw [List.range_succ, List.map_append, List.map_singleton, Function.update_self]
  have hold : (List.range ws.length).map (Function.update f ws.length w) =
      (List.range ws.length).map f := by
    apply List.map_congr_left
    intro i hi
    exact Function.update_of_ne (List.mem_range.mp hi).ne _ _
  rw [hold, h]

/-- The division of the loop body does not wrap. -/
theorem width_toNat {b : UInt32} {t k : Nat} (ht : t ≤ 5000) (hb : b.toNat ≤ 5000)
    (h : (t + b.toNat / 2) / b.toNat = k) : (width b (UInt32.ofNat t)).toNat = k := by
  rw [width, UInt32.toNat_div, UInt32.toNat_add, UInt32.toNat_div, UInt32.toNat_ofNat',
    Nat.mod_eq_of_lt (a := t) (by omega)]
  show (t + b.toNat / 2) % 2 ^ 32 / b.toNat = k
  rw [Nat.mod_eq_of_lt (by omega), h]

/-- Nor does that of the next estimate. -/
theorem estimate_toNat {b n : UInt32} {t : Nat} (ht : t ≤ 5000) (hb : b.toNat ≤ 5000)
    (hn : n.toNat ≤ 5000) :
    ((UInt32.ofNat t + b) / (n + 1)).toNat = (t + b.toNat) / (n.toNat + 1) := by
  rw [UInt32.toNat_div, UInt32.toNat_add, UInt32.toNat_add, UInt32.toNat_ofNat',
    Nat.mod_eq_of_lt (a := t) (by omega), Nat.mod_eq_of_lt (by omega)]
  show (t + b.toNat) / ((n.toNat + 1) % 2 ^ 32) = _
  rw [Nat.mod_eq_of_lt (by omega)]

/-- The variables of the loop body after it has appended the width of an element. -/
theorem Reading.measured {L H : Nat} {r r' : UInt16} {ws : List UInt8} {s : State} {c' : Counter}
    {t : UInt32} {w : UInt8} (h : Reading L H r ws s) (hsync : Synced r' c')
    (hcount : c'.counter = s.timer + t) (hw : (width s.bittime t).toUInt8 = w)
    (hest : L ≤ ((t + s.bittime) / (width s.bittime t + 1)).toNat ∧
      ((t + s.bittime) / (width s.bittime t + 1)).toNat ≤ H) :
    Reading L H r' (ws ++ [w]) (measured { s with counter := c' } t) := by
  have hlen : (ws ++ [w]).length = ws.length + 1 := by simp
  refine { synced := hsync, timer := hcount.symm, estimate := hest, iCode := ?_, code := ?_,
           count := ?_, bittimes := ?_ }
  · show s.iCode + 1 = _
    rw [h.iCode, hlen]
  · show (List.range (ws ++ [w]).length).map (Function.update s.code s.iCode _) = _
    rw [hw, h.iCode, hlen]
    exact map_update_range w h.code
  · show s.bittimes.length + 1 = _
    rw [h.count, hlen]
  · intro x hx
    rcases List.mem_cons.mp hx with rfl | hx
    · exact hest
    · exact h.bittimes x hx

/-- The body of the loop appends the width of the element it has timed. -/
theorem recordWidth_reading {L H : Nat} {r r' : UInt16} {ws : List UInt8} {s : State} {c' : Counter}
    {t : Nat} {w : UInt8} (hL : 1 ≤ L) (h8 : 8 * (H - L) < L) (h4 : 4 * H ≤ 5000)
    (hw : 1 ≤ w.toNat ∧ w.toNat ≤ 4) (ht : w.toNat * L ≤ t ∧ t ≤ w.toNat * H)
    (h : Reading L H r ws s) (hsync : Synced r' c')
    (hcount : c'.counter = s.timer + UInt32.ofNat t) (hlen : ws.length < 60)
    (k : State → Outcome) :
    ∃ s', recordWidth { s with counter := c' } (UInt32.ofNat t) k = k s' ∧
      Reading L H r' (ws ++ [w]) s' := by
  obtain ⟨hround, hlow, hhigh⟩ := round_width hL h8 hw ht h.estimate
  have hb := h.estimate
  have ht5 : t ≤ 5000 := by
    have := Nat.mul_le_mul_right H hw.2
    omega
  have hwidth := width_toNat ht5 (by omega) hround
  have hnext := estimate_toNat (n := width s.bittime (UInt32.ofNat t)) (b := s.bittime) ht5
    (by omega) (by omega)
  rw [hwidth] at hnext
  have hbyte : (width s.bittime (UInt32.ofNat t)).toUInt8 = w := by
    apply UInt8.toNat_inj.mp
    rw [UInt32.toNat_toUInt8, hwidth]
    omega
  have hbne : s.bittime ≠ 0 := by
    intro h0
    rw [h0, show (0 : UInt32).toNat = 0 from rfl] at hb
    omega
  have hnne : width s.bittime (UInt32.ofNat t) + 1 ≠ 0 := by
    intro h0
    have hsucc : (width s.bittime (UInt32.ofNat t) + 1).toNat = 0 := by
      rw [h0]
      rfl
    rw [UInt32.toNat_add, hwidth, show (1 : UInt32).toNat = 1 from rfl] at hsucc
    omega
  refine ⟨measured { s with counter := c' } (UInt32.ofNat t), ?_,
    h.measured hsync hcount hbyte (by rw [hnext]; exact ⟨hlow, hhigh⟩)⟩
  apply recordWidth_eq (s := { s with counter := c' }) hbne hnne
  rw [h.iCode]
  exact hlen

/-- The loop reads the remaining widths and returns their count in the quiet zone. -/
theorem elements_reading {L H : Nat} {q : List UInt16} (rest : List Bool) (more : List UInt16)
    (hL : 1 ≤ L) (h8 : 8 * (H - L) < L) (h4 : 4 * H ≤ 5000) (es : List (List UInt16)) :
    ∀ (ks ws : List UInt8) (r : UInt16) (b : Bool) (s : State), Reading L H r ws s →
      Sensed L H q r es ks → (∀ k ∈ ks, 1 ≤ k.toNat ∧ k.toNat ≤ 4) →
      ws.length + ks.length ≤ 60 →
      ∃ s', elements s (inside q rest b es) (es.flatten ++ (q ++ more)) =
          .returned (ws.length + ks.length : Nat) s' ∧ Recorded L H (ws ++ ks) s' := by
  induction es with
  | nil =>
    intro ks ws r b s h hs _ _
    cases ks with
    | cons k ks => exact absurd hs id
    | nil =>
      have hstart : s.counter.counter = s.timer + UInt32.ofNat 0 := by
        rw [h.timer]
        exact (UInt32.add_zero _).symm
      obtain ⟨c', hquit⟩ := poll_quiet b rest more q s.actualtime
        h.synced hstart (by decide) (by rwa [Nat.zero_add])
      refine ⟨{ s with counter := c' }, ?_, ?_⟩
      · rw [inside, List.flatten_nil, List.nil_append, elements_quit hquit, h.iCode]
        rfl
      · rw [List.append_nil]
        exact { iCode := h.iCode, code := h.code, count := h.count, bittimes := h.bittimes }
  | cons ts es ih =>
    intro ks ws r b s h hs hw hlen
    cases ks with
    | nil => exact absurd hs id
    | cons k ks =>
      obtain ⟨hlo, hhi, hs⟩ := hs
      obtain ⟨hk, hks⟩ := List.forall_mem_cons.mp hw
      rw [List.length_cons] at hlen
      have hne : 0 < ticksFrom r ts := by
        have := Nat.mul_le_mul hk.1 hL
        omega
      have hle : ticksFrom r ts ≤ 5000 := by
        have := Nat.mul_le_mul_right H hk.2
        omega
      obtain ⟨c', hedge, hsync, hcount⟩ := poll_element (fun e => 5000 < e) b
        (inside q rest (!b) es) (es.flatten ++ (q ++ more)) s.actualtime
        h.synced h.timer hne (fun x hx => by
          apply decide_eq_false
          rw [UInt32.lt_iff_toNat_lt, UInt32.toNat_ofNat', Nat.mod_eq_of_lt (by omega)]
          show ¬ 5000 < x
          omega)
      obtain ⟨s₁, hrec, hread⟩ := recordWidth_reading hL h8 h4 hk ⟨hlo, hhi⟩ h hsync hcount
        (by omega) fun s => elements s (inside q rest (!b) es) (es.flatten ++ (q ++ more))
      obtain ⟨s', hrun, hs'⟩ := ih ks (ws ++ [k]) _ (!b) s₁ hread hs hks
        (by rw [List.length_append, List.length_singleton]; omega)
      refine ⟨s', ?_, by rwa [List.append_assoc] at hs'⟩
      rw [inside, List.flatten_cons, List.append_assoc, elements_edge hedge, hrec, hrun,
        List.length_append, List.length_singleton, List.length_cons]
      congr 2
      omega

/-- A symbol's elements are one to four modules wide. -/
theorem symbol_widths (d : Code) : ∀ k ∈ symbol d, 1 ≤ k.toNat ∧ k.toNat ≤ 4 := by
  have hall {ks : List UInt8} (h : ks.all fun k => decide (1 ≤ k.toNat ∧ k.toNat ≤ 4)) :
      ∀ k ∈ ks, 1 ≤ k.toNat ∧ k.toNat ≤ 4 :=
    fun k hk => decide_eq_true_iff.mp (List.all_eq_true.mp h k hk)
  have hdigit : ∀ p d, ∀ k ∈ widths p d, 1 ≤ k.toNat ∧ k.toNat ≤ 4 := by
    intro p d
    apply hall
    revert d
    cases p <;> decide
  have hgroups : ∀ ms : List Mark, ∀ k ∈ groups ms, 1 ≤ k.toNat ∧ k.toNat ≤ 4 := by
    intro ms k hk
    obtain ⟨_, hw, hk⟩ := List.mem_flatten.mp hk
    obtain ⟨m, -, rfl⟩ := List.mem_map.mp hw
    exact hdigit m.1 m.2 k hk
  have hguard : ∀ k ∈ sideGuard, 1 ≤ k.toNat ∧ k.toNat ≤ 4 := hall (by decide)
  have hcentre : ∀ k ∈ centre, 1 ≤ k.toNat ∧ k.toNat ≤ 4 := hall (by decide)
  rw [symbol_eq]
  simp only [List.forall_mem_append]
  exact ⟨⟨⟨⟨hguard, hgroups _⟩, hcentre⟩, hgroups _⟩, hguard⟩

/-- A call on a scanned symbol returns 59 with its widths, each estimate in the interval. -/
theorem handBarcode_symbol {L H : Nat} (hL : 1 ≤ L) (hLH : L ≤ H) (h8 : 8 * (H - L) < L)
    (h4 : 4 * H ≤ 5000) (d : Code) (c : Counter) (code : Nat → UInt8) (bar : Bool) (w : Nat)
    (t₀ : UInt16) (es : List (List UInt16)) (q : List UInt16) (rest : List Bool)
    (more : List UInt16) (hs : Sensed L H q t₀ es (symbol d)) :
    ∃ s, handBarcode c code (scanLevels bar w es q rest) (t₀ :: (es.flatten ++ (q ++ more))) =
        .returned 59 s ∧ Recorded L H (symbol d) s := by
  obtain ⟨ks, hd⟩ : ∃ ks, symbol d = 1 :: ks := ⟨_, rfl⟩
  have hw := symbol_widths d
  have hlen := symbol_length d
  rw [hd] at hs hw hlen ⊢
  cases es with
  | nil => exact absurd hs id
  | cons ts es =>
    obtain ⟨hlo, hhi, hs⟩ := hs
    have hone : (1 : UInt8).toNat = 1 := rfl
    rw [hone, Nat.one_mul] at hlo hhi
    have hest : L ≤ (UInt32.ofNat (ticksFrom t₀ ts)).toNat ∧
        (UInt32.ofNat (ticksFrom t₀ ts)).toNat ≤ H := by
      rw [UInt32.toNat_ofNat', Nat.mod_eq_of_lt (by omega)]
      exact ⟨hlo, hhi⟩
    have hne : 0 < ticksFrom t₀ ts := by omega
    obtain ⟨c', hedge, hsync, hcount⟩ := poll_element (fun _ => false) bar
      (inside q rest (!bar) es) (es.flatten ++ (q ++ more)) none
      (synced_counterRead t₀ c) rfl hne (fun _ _ => rfl)
    have hfirst : Reading L H (lastRead t₀ ts) [1]
        { counter := c'
          timer := (counterRead t₀ c).counter + UInt32.ofNat (ticksFrom t₀ ts)
          bittime := UInt32.ofNat (ticksFrom t₀ ts)
          actualtime := none
          code := Function.update code 0 1
          iCode := 1
          bittimes := [UInt32.ofNat (ticksFrom t₀ ts)] } := by
      refine { synced := hsync, timer := hcount.symm, estimate := hest, iCode := rfl,
               code := rfl, count := rfl, bittimes := ?_ }
      intro x hx
      rw [List.mem_singleton.mp hx]
      exact hest
    obtain ⟨s', hrun, hs'⟩ := elements_reading rest more hL h8 h4 es ks [1]
      _ (!bar) _ hfirst hs (List.forall_mem_cons.mp hw).2 (by simp at hlen ⊢; omega)
    refine ⟨s', ?_, hs'⟩
    have hskip := skip_replicate w (!bar) (inside q rest bar (ts :: es))
    rw [Bool.not_not] at hskip
    unfold handBarcode scanLevels
    simp only [hskip]
    simp only [inside]
    rw [List.flatten_cons, List.append_assoc, hedge]
    simp only [hrun]
    congr 2
    simp at hlen ⊢
    omega

theorem symbol_append (d : Code) (e : List UInt8) :
    symbol d ++ e = strip (leftMarks d) (rightMarks d) (sideGuard ++ e) := by
  rw [symbol_eq_strip]
  simp only [strip, List.append_assoc]

/-- A scan within the tolerance is read and decoded: all 59 widths, every estimate of the
module in the interval, and the thirteen digits. -/
theorem read_and_decode {L H : Nat} (hL : 1 ≤ L) (hLH : L ≤ H) (h8 : 8 * (H - L) < L)
    (h4 : 4 * H ≤ 5000) (d : Code) (c : Counter) (code : Nat → UInt8) (bar : Bool) (w : Nat)
    (t₀ : UInt16) (es : List (List UInt16)) (q : List UInt16) (rest : List Bool)
    (more : List UInt16) (hs : Sensed L H q t₀ es (symbol d)) (validData : Nat → UInt8)
    (ean : Nat → Char) :
    ∃ s, handBarcode c code (scanLevels bar w es q rest) (t₀ :: (es.flatten ++ (q ++ more))) =
        .returned 59 s ∧
      (List.range 59).map s.code = symbol d ∧
      s.bittimes.length = 59 ∧ (∀ x ∈ s.bittimes, L ≤ x.toNat ∧ x.toNat ≤ H) ∧
      (decode validData ean ((List.range 60).map s.code)).1 = 0 ∧
      stored validData ean ((List.range 60).map s.code) = digits d := by
  obtain ⟨s, hrun, hrec⟩ :=
    handBarcode_symbol hL hLH h8 h4 d c code bar w t₀ es q rest more hs
  have hcode := hrec.code
  have hcount := hrec.count
  rw [symbol_length] at hcode hcount
  have harray : (List.range 60).map s.code =
      strip (leftMarks d) (rightMarks d) (sideGuard ++ [s.code 59]) := by
    rw [← symbol_append, ← hcode, List.range_succ, List.map_append, List.map_singleton]
  have hl := leftMarks_length d
  have hr := rightMarks_length d
  refine ⟨s, hrun, hcode, hcount, hrec.bittimes, ?_, ?_⟩
  · rw [harray, decode_strip hl hr]
  · rw [harray, stored_forward hl hr (head_of_forward (forward_symbol d)), reading_symbol]

/-- One poll in each element, `ticks` ticks to the module. -/
def steady (ticks : UInt16) : UInt16 → List UInt8 → List (List UInt16)
  | _, [] => []
  | r, k :: ks => [r + ticks * k.toUInt16] :: steady ticks (r + ticks * k.toUInt16) ks

theorem read_and_decode_steady :
    ∃ s, handBarcode ⟨0, 0, 0⟩ (fun _ => 0)
        (scanLevels true 3 (steady 16 7 (symbol ![5, 6, 0, 1, 2, 3, 4, 5, 6, 7, 8, 9, 0]))
          [10000] [])
        (7 :: ((steady 16 7 (symbol ![5, 6, 0, 1, 2, 3, 4, 5, 6, 7, 8, 9, 0])).flatten ++
          ([10000] ++ []))) = .returned 59 s ∧
      (List.range 59).map s.code = symbol ![5, 6, 0, 1, 2, 3, 4, 5, 6, 7, 8, 9, 0] ∧
      s.bittimes.length = 59 ∧ (∀ x ∈ s.bittimes, 16 ≤ x.toNat ∧ x.toNat ≤ 17) ∧
      (decode (fun _ => 0) (fun _ => 'L') ((List.range 60).map s.code)).1 = 0 ∧
      stored (fun _ => 0) (fun _ => 'L') ((List.range 60).map s.code) =
        digits ![5, 6, 0, 1, 2, 3, 4, 5, 6, 7, 8, 9, 0] :=
  read_and_decode (by decide) (by decide) (by decide) (by decide) _ _ _ _ _ _ _ _ _ _
    (by decide +kernel) _ _

end Plak1a.Barcode.Jitter
