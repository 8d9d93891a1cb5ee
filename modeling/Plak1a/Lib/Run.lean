import Mathlib.Logic.Basic

/-!
# Runs of a partial transition function

A system is a state type, an action type and a partial step. A run is a list of
actions; `exec` is undefined as soon as one of them is not enabled. A guarded run
takes each action in a state that admits it. The invariant rules below are the
only inductions over runs the rest of the development needs.
-/

namespace Plak1a.Lib.Run

variable {S A : Type*}

/-- Take the listed actions in order. -/
def exec (step : S → A → Option S) : S → List A → Option S
  | s, [] => some s
  | s, a :: as => (step s a).bind fun t => exec step t as

/-- What the steps of a run give out, in order. -/
def outputs {O : Type*} (out : S → A → List O) (step : S → A → Option S) : S → List A → List O
  | _, [] => []
  | s, a :: as => out s a ++ ((step s a).map fun t => outputs out step t as).getD []

/-- `P` holds of every action of the run and the state it is taken in. -/
def Along (P : S → A → Prop) (step : S → A → Option S) : S → List A → Prop
  | _, [] => True
  | s, a :: as => P s a ∧ ∀ t, step s a = some t → Along P step t as

variable {step : S → A → Option S} {P : S → A → Prop} {I : S → Prop}

@[simp] theorem exec_nil (s : S) : exec step s [] = some s := rfl

theorem exec_cons (s : S) (a : A) (as : List A) :
    exec step s (a :: as) = (step s a).bind fun t => exec step t as := rfl

theorem exec_cons_of_step {s t : S} {a : A} (h : step s a = some t) (as : List A) :
    exec step s (a :: as) = exec step t as := by
  rw [exec_cons, h, Option.bind_some]

theorem exec_append (s : S) (as bs : List A) :
    exec step s (as ++ bs) = (exec step s as).bind fun t => exec step t bs := by
  induction as generalizing s with
  | nil => rfl
  | cons a as ih =>
    rw [List.cons_append, exec_cons, exec_cons, Option.bind_assoc]
    congr 1
    funext t
    exact ih t

theorem exec_append_of_exec {s t : S} {as : List A} (h : exec step s as = some t) (bs : List A) :
    exec step s (as ++ bs) = exec step t bs := by
  rw [exec_append, h, Option.bind_some]

/-- An invariant kept by every admitted step holds after every guarded run. -/
theorem inv_of_along (hstep : ∀ s a t, I s → P s a → step s a = some t → I t) :
    ∀ {as : List A} {s t : S}, I s → Along P step s as → exec step s as = some t → I t := by
  intro as
  induction as with
  | nil =>
    intro s t hs _ he
    cases he
    exact hs
  | cons a as ih =>
    intro s t hs ha he
    obtain ⟨u, hu, hrest⟩ := Option.bind_eq_some_iff.mp he
    exact ih (hstep s a u hs ha.1 hu) (ha.2 u hu) hrest

/-- Whether a run meets a decidable condition can be computed. -/
instance decidableAlong [∀ s a, Decidable (P s a)] :
    ∀ (as : List A) (s : S), Decidable (Along P step s as)
  | [], _ => isTrue trivial
  | a :: as, s =>
    match h : step s a with
    | none =>
      decidable_of_iff (P s a) ⟨fun hp => ⟨hp, fun _ ht => nomatch h.symm.trans ht⟩, And.left⟩
    | some t =>
      have := decidableAlong as t
      decidable_of_iff (P s a ∧ Along P step t as)
        ⟨fun hp => ⟨hp.1, fun _ ht => Option.some.inj (h.symm.trans ht) ▸ hp.2⟩,
          fun hp => ⟨hp.1, hp.2 t h⟩⟩

theorem along_append (s : S) (as bs : List A) :
    Along P step s (as ++ bs) ↔
      Along P step s as ∧ ∀ t, exec step s as = some t → Along P step t bs := by
  induction as generalizing s with
  | nil =>
    constructor
    · intro h
      refine ⟨trivial, fun t ht => ?_⟩
      cases ht
      exact h
    · exact fun h => h.2 s rfl
  | cons a as ih =>
    constructor
    · intro ⟨ha, hrest⟩
      refine ⟨⟨ha, fun t ht => ((ih t).mp (hrest t ht)).1⟩, fun u hu => ?_⟩
      obtain ⟨t, ht, htu⟩ := Option.bind_eq_some_iff.mp hu
      exact ((ih t).mp (hrest t ht)).2 u htu
    · intro ⟨⟨ha, hrest⟩, hbs⟩
      refine ⟨ha, fun t ht => (ih t).mpr ⟨hrest t ht, fun u hu => hbs u ?_⟩⟩
      rw [exec_cons_of_step ht]
      exact hu

theorem along_congr {Q : S → A → Prop} (h : ∀ s a, P s a ↔ Q s a) (s : S) (as : List A) :
    Along P step s as ↔ Along Q step s as := by
  induction as generalizing s with
  | nil => exact Iff.rfl
  | cons a as ih => exact and_congr (h s a) (forall₂_congr fun t _ => ih t)

theorem along_mono {Q : S → A → Prop} (h : ∀ s a, P s a → Q s a) {s : S} {as : List A} :
    Along P step s as → Along Q step s as := by
  induction as generalizing s with
  | nil => exact id
  | cons a as ih => exact fun ha => ⟨h s a ha.1, fun t ht => ih (ha.2 t ht)⟩

/-- A condition on the actions alone. -/
theorem along_of_mem {as : List A} (h : ∀ a ∈ as, ∀ s, P s a) (s : S) : Along P step s as := by
  induction as generalizing s with
  | nil => trivial
  | cons a as ih =>
    exact ⟨h a List.mem_cons_self s, fun t _ => ih (fun b hb => h b (List.mem_cons_of_mem a hb)) t⟩

/-- A guarded run, by what comes before each of its actions. -/
theorem along_of_prefix {as : List A} {s : S}
    (h : ∀ done a, done ++ [a] <+: as → ∀ t, exec step s done = some t → P t a) :
    Along P step s as := by
  induction as generalizing s with
  | nil => trivial
  | cons a as ih =>
    refine ⟨h [] a ⟨as, rfl⟩ s rfl, fun t ht => ih fun done b hpre u hu => ?_⟩
    refine h (a :: done) b ?_ u ((exec_cons_of_step ht done).trans hu)
    exact List.cons_prefix_cons.mpr ⟨rfl, hpre⟩

/-- An invariant kept by every step holds in every state reached. -/
theorem inv_of_exec (hstep : ∀ s a t, I s → step s a = some t → I t)
    {as : List A} {s t : S} (hs : I s) (he : exec step s as = some t) : I t :=
  inv_of_along (P := fun _ _ => True) (fun s a t hi _ h => hstep s a t hi h) hs
    (along_of_mem (fun _ _ _ => trivial) s) he

/-- An invariant that relates the state to the actions taken so far. -/
theorem inv_of_actions {J : List A → S → Prop}
    (hstep : ∀ as s a t, J as s → step s a = some t → J (as ++ [a]) t)
    {as : List A} {s t : S} (hs : J [] s) (he : exec step s as = some t) : J as t := by
  suffices h : ∀ done, J done s → exec step s as = some t → J (done ++ as) t from h [] hs he
  clear hs he
  induction as generalizing s with
  | nil =>
    intro done hs he
    cases he
    rw [List.append_nil]
    exact hs
  | cons a as ih =>
    intro done hs he
    obtain ⟨u, hu, hrest⟩ := Option.bind_eq_some_iff.mp he
    have h := ih (done ++ [a]) (hstep done s a u hs hu) hrest
    rwa [List.append_assoc] at h

/-- An invariant that relates the state to everything given out so far. -/
theorem inv_of_outputs_along {O : Type*} {out : S → A → List O} {J : S → List O → Prop}
    (hstep : ∀ s a t os, J s os → P s a → step s a = some t → J t (os ++ out s a)) :
    ∀ {as : List A} {s t : S} {os : List O}, J s os → Along P step s as → exec step s as = some t →
      J t (os ++ outputs out step s as) := by
  intro as
  induction as with
  | nil =>
    intro s t os hs _ he
    cases he
    rw [outputs, List.append_nil]
    exact hs
  | cons a as ih =>
    intro s t os hs ha he
    obtain ⟨u, hu, hrest⟩ := Option.bind_eq_some_iff.mp he
    have h := ih (hstep s a u os hs ha.1 hu) (ha.2 u hu) hrest
    rw [outputs, hu, Option.map_some, Option.getD_some, ← List.append_assoc]
    exact h

theorem inv_of_outputs {O : Type*} {out : S → A → List O} {J : S → List O → Prop}
    (hstep : ∀ s a t os, J s os → step s a = some t → J t (os ++ out s a))
    {as : List A} {s t : S} {os : List O} (hs : J s os) (he : exec step s as = some t) :
    J t (os ++ outputs out step s as) :=
  inv_of_outputs_along (P := fun _ _ => True) (fun s a t os hj _ h => hstep s a t os hj h) hs
    (along_of_mem (fun _ _ _ => trivial) s) he

/-- Progress over a guarded run: if every admitted step that `tick` counts adds one to
`μ`, the others do not decrease it and `μ` may stop only at `bound`, so does the run. -/
theorem progress_of_along {μ : S → Nat} (tick : A → Bool) (bound : Nat)
    (hstep : ∀ s a t, I s → P s a → step s a = some t →
      I t ∧ min bound (μ s + if tick a then 1 else 0) ≤ μ t) :
    ∀ {as : List A} {s t : S}, I s → Along P step s as → exec step s as = some t →
      min bound (μ s + as.countP tick) ≤ μ t := by
  intro as
  induction as with
  | nil =>
    intro s t _ _ he
    cases he
    exact Nat.min_le_right _ _
  | cons a as ih =>
    intro s t hs ha he
    obtain ⟨u, hu, hrest⟩ := Option.bind_eq_some_iff.mp he
    obtain ⟨hI, hμ⟩ := hstep s a u hs ha.1 hu
    have h := ih hI (ha.2 u hu) hrest
    rw [List.countP_cons]
    split at hμ <;> simp_all <;> omega

/-- Termination of a guarded run: if the steps that `tick` counts decrease `μ` and the others
do not increase it, there are no more of them than `μ` was at the start. -/
theorem variant_of_along {μ : S → Nat} (tick : A → Bool)
    (hstep : ∀ s a t, I s → P s a → step s a = some t →
      I t ∧ μ t + (if tick a then 1 else 0) ≤ μ s) :
    ∀ {as : List A} {s t : S}, I s → Along P step s as → exec step s as = some t →
      I t ∧ μ t + as.countP tick ≤ μ s := by
  intro as
  induction as with
  | nil =>
    intro s t hs _ he
    cases he
    exact ⟨hs, Nat.le_refl _⟩
  | cons a as ih =>
    intro s t hs ha he
    obtain ⟨u, hu, hrest⟩ := Option.bind_eq_some_iff.mp he
    obtain ⟨hI, hμ⟩ := hstep s a u hs ha.1 hu
    obtain ⟨ht, hcount⟩ := ih hI (ha.2 u hu) hrest
    refine ⟨ht, ?_⟩
    rw [List.countP_cons]
    omega

/-- Two systems that stay related take a run together: either neither gets to its end or both
do, in related states. -/
theorem exec_rel {T : Type*} {step' : T → A → Option T} {R : S → T → Prop}
    (hstep : ∀ s t a, R s t → Option.Rel R (step s a) (step' t a)) {s : S} {t : T} (h : R s t)
    (as : List A) : Option.Rel R (exec step s as) (exec step' t as) := by
  induction as generalizing s t with
  | nil => exact .some h
  | cons a as ih =>
    rw [exec_cons, exec_cons]
    have hr := hstep s t a h
    generalize step s a = u, step' t a = v at hr ⊢
    cases hr with
    | none => exact .none
    | some hr => exact ih hr

end Plak1a.Lib.Run
