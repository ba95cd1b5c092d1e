import Mathlib.Data.List.Basic

/-!
# Runs of a machine

A machine is a partial step function on states: an event that is not enabled in a state has no
successor. A run feeds it a list of events. Two induction rules carry every result about runs: an
invariant that each step keeps holds at the end of each run (`run_invariant`), and so does one
that only the steps meeting a condition keep, when all the steps of the run meet it
(`run_invariant_along`). A property that a step keeps exactly when it meets a condition is kept
throughout exactly the runs whose steps all meet it (`throughout_iff_along`).
-/

namespace NovumAgent.Machine

variable {σ ε : Type*} (step : σ → ε → Option σ)

/-- The state a run ends in, if every event of it was enabled. -/
def run (s : σ) (es : List ε) : Option σ := es.foldlM step s

/-- Every step of the run meets `Q` in the state it is taken from. -/
def Along (Q : σ → ε → Prop) : σ → List ε → Prop
  | _, [] => True
  | s, e :: es => Q s e ∧ ∀ s', step s e = some s' → Along Q s' es

/-- Every state of the run meets `P`. -/
def Throughout (P : σ → Prop) : σ → List ε → Prop
  | s, [] => P s
  | s, e :: es => P s ∧ ∀ s', step s e = some s' → Throughout P s' es

instance decidableAlong {Q : σ → ε → Prop} [∀ s e, Decidable (Q s e)] :
    ∀ s es, Decidable (Along step Q s es)
  | _, [] => isTrue trivial
  | s, e :: es =>
    match h : step s e with
    | none =>
      decidable_of_iff (Q s e) ⟨fun hQ => ⟨hQ, fun _ h' => by simp [h] at h'⟩, fun hA => hA.1⟩
    | some s' =>
      have : Decidable (Along step Q s' es) := decidableAlong s' es
      decidable_of_iff (Q s e ∧ Along step Q s' es)
        ⟨fun hA => ⟨hA.1, fun _ h' => Option.some.inj (h.symm.trans h') ▸ hA.2⟩,
          fun hA => ⟨hA.1, hA.2 s' h⟩⟩

@[simp] theorem run_nil (s : σ) : run step s [] = some s := rfl

theorem run_cons (s : σ) (e : ε) (es : List ε) :
    run step s (e :: es) = (step s e).bind (run step · es) := rfl

theorem run_append (s : σ) (es es' : List ε) :
    run step s (es ++ es') = (run step s es).bind (run step · es') := by
  unfold run
  rw [List.foldlM_append]
  rfl

variable {step}

variable {s t : σ} {es : List ε} {Inv : σ → Prop}

/-- A run that took a first step, taken apart. -/
theorem run_cons_eq_some {e : ε} :
    run step s (e :: es) = some t ↔ ∃ u, step s e = some u ∧ run step u es = some t := by
  rw [run_cons, Option.bind_eq_some_iff]

/-- What every step keeps, every run keeps. -/
theorem run_invariant (hstep : ∀ s e s', Inv s → step s e = some s' → Inv s') (hs : Inv s)
    (hrun : run step s es = some t) : Inv t := by
  induction es generalizing s with
  | nil =>
    cases hrun
    exact hs
  | cons e es ih =>
    obtain ⟨u, hu, hrest⟩ := run_cons_eq_some.mp hrun
    exact ih (hstep s e u hs hu) hrest

/-- What every step that meets `Q` keeps, every run of such steps keeps. -/
theorem run_invariant_along {Q : σ → ε → Prop}
    (hstep : ∀ s e s', Inv s → Q s e → step s e = some s' → Inv s') (hs : Inv s) (hQ : Along step Q s es)
    (hrun : run step s es = some t) : Inv t := by
  induction es generalizing s with
  | nil =>
    cases hrun
    exact hs
  | cons e es ih =>
    obtain ⟨u, hu, hrest⟩ := run_cons_eq_some.mp hrun
    exact ih (hstep s e u hs hQ.1 hu) (hQ.2 u hu) hrest

/-- **A property along a run, step by step.** Where `Q` says of each step whether it keeps the property,
a run keeps the property in all its states if and only if all its steps meet `Q`. -/
theorem throughout_iff_along {P : σ → Prop} {Q : σ → ε → Prop}
    (hinv : ∀ s e s', Inv s → step s e = some s' → Inv s')
    (hstep : ∀ s e s', Inv s → P s → step s e = some s' → (P s' ↔ Q s e))
    (hs : Inv s) (hP : P s) (hrun : run step s es = some t) :
    Throughout step P s es ↔ Along step Q s es := by
  induction es generalizing s with
  | nil => exact ⟨fun _ => trivial, fun _ => hP⟩
  | cons e es ih =>
    obtain ⟨u, hu, hrest⟩ := run_cons_eq_some.mp hrun
    have hQ := hstep s e u hs hP hu
    have huInv := hinv s e u hs hu
    constructor
    · rintro ⟨-, hall⟩
      have hthrough := hall u hu
      have hPu : P u := by
        cases es with
        | nil => exact hthrough
        | cons _ _ => exact hthrough.1
      refine ⟨hQ.mp hPu, fun s' hs' => ?_⟩
      cases hu.symm.trans hs'
      exact (ih huInv hPu hrest).mp hthrough
    · rintro ⟨hmeets, hall⟩
      have hPu : P u := hQ.mpr hmeets
      refine ⟨hP, fun s' hs' => ?_⟩
      cases hu.symm.trans hs'
      exact (ih huInv hPu hrest).mpr (hall u hu)

end NovumAgent.Machine
