import Mathlib.Data.List.Basic

/-!
# Runs of a deterministic step function

A device model is a state type, an event type and a total step function; a run is a fold of the
step over a list of events. Two predicates speak about a whole run: `Always P` says that `P` holds
in every state the run goes through, and `Meets G` says that each step is taken in a state where
the condition `G` allows its event.

The central rule is `always_iff_meets`: when, under a background invariant `J`, a step keeps `P`
exactly if it meets `G`, then a run stays inside `P` exactly if all its steps meet `G`. An invariant
that every step keeps is the special case `G = True`.
-/

namespace RoscoEmulator.Run

variable {σ ε : Type*} (step : σ → ε → σ)

/-- The state after a list of events. -/
def run (s : σ) (es : List ε) : σ := es.foldl step s

/-- `P` holds in every state of the run, the first and the last included. -/
def Always (P : σ → Prop) : σ → List ε → Prop
  | s, [] => P s
  | s, e :: es => P s ∧ Always P (step s e) es

/-- Every step of the run is taken in a state where `G` allows its event. -/
def Meets (G : σ → ε → Prop) : σ → List ε → Prop
  | _, [] => True
  | s, e :: es => G s e ∧ Meets G (step s e) es

instance decidableMeets {G : σ → ε → Prop} [∀ s, DecidablePred (G s)] :
    ∀ s es, Decidable (Meets step G s es)
  | _, [] => instDecidableTrue
  | s, e :: es =>
      have : Decidable (Meets step G (step s e) es) := decidableMeets (step s e) es
      inferInstanceAs (Decidable (G s e ∧ Meets step G (step s e) es))

variable {step}

@[simp] theorem run_nil (s : σ) : run step s [] = s := rfl

@[simp] theorem run_cons (s : σ) (e : ε) (es : List ε) :
    run step s (e :: es) = run step (step s e) es := rfl

theorem run_append (s : σ) (es fs : List ε) : run step s (es ++ fs) = run step (run step s es) fs :=
  List.foldl_append

variable {P Q : σ → Prop} {G : σ → ε → Prop} {s : σ}

theorem Always.head {es : List ε} (h : Always step P s es) : P s := by
  cases es with
  | nil => exact h
  | cons e es => exact h.1

theorem Always.imp (hPQ : ∀ s, P s → Q s) {es : List ε} (h : Always step P s es) :
    Always step Q s es := by
  induction es generalizing s with
  | nil => exact hPQ s h
  | cons e es ih => exact ⟨hPQ s h.1, ih h.2⟩

theorem Always.last {es : List ε} (h : Always step P s es) : P (run step s es) := by
  induction es generalizing s with
  | nil => exact h
  | cons e es ih => exact ih h.2

theorem meets_append (s : σ) (es fs : List ε) :
    Meets step G s (es ++ fs) ↔ Meets step G s es ∧ Meets step G (run step s es) fs := by
  induction es generalizing s with
  | nil => simp [Meets]
  | cons e es ih =>
    have htail := ih (step s e)
    exact (and_congr_right fun _ ↦ htail).trans and_assoc.symm

theorem Meets.and {A : σ → ε → Prop} {es : List ε} (hA : Meets step A s es)
    (hG : Meets step G s es) : Meets step (fun s e ↦ A s e ∧ G s e) s es := by
  induction es generalizing s with
  | nil => trivial
  | cons e es ih => exact ⟨⟨hA.1, hG.1⟩, ih hA.2 hG.2⟩

/-- Conditions that agree in every state are met by the same runs. -/
theorem meets_congr {G' : σ → ε → Prop} (h : ∀ s e, G s e ↔ G' s e) (s : σ) (es : List ε) :
    Meets step G s es ↔ Meets step G' s es := by
  induction es generalizing s with
  | nil => exact Iff.rfl
  | cons e es ih => exact and_congr (h s e) (ih (step s e))

/-- So are those that agree as long as an invariant of the steps that meet them holds. -/
theorem meets_congr_of_inv {J : σ → Prop} {G' : σ → ε → Prop}
    (hJ : ∀ s e, J s → G s e → J (step s e)) (h : ∀ s e, J s → (G s e ↔ G' s e)) (hs : J s)
    (es : List ε) : Meets step G s es ↔ Meets step G' s es := by
  induction es generalizing s with
  | nil => exact Iff.rfl
  | cons e es ih =>
    constructor
    · rintro ⟨hG, htail⟩
      exact ⟨(h s e hs).mp hG, (ih (hJ s e hs hG)).mp htail⟩
    · rintro ⟨hG', htail⟩
      have hG := (h s e hs).mpr hG'
      exact ⟨hG, (ih (hJ s e hs hG)).mpr htail⟩

/-- **The guarded-run rule.** Under an invariant `J` of all steps, if a step out of `P` stays in
`P` exactly when it meets `G`, then so does a run. -/
theorem always_iff_meets {J : σ → Prop} (hJ : ∀ s e, J s → J (step s e))
    (hstep : ∀ s e, J s → P s → (P (step s e) ↔ G s e)) (hs : J s) (hP : P s) (es : List ε) :
    Always step P s es ↔ Meets step G s es := by
  induction es generalizing s with
  | nil => exact iff_of_true hP trivial
  | cons e es ih =>
    constructor
    · rintro ⟨-, htail⟩
      have hG : G s e := (hstep s e hs hP).mp htail.head
      exact ⟨hG, (ih (hJ s e hs) htail.head).mp htail⟩
    · rintro ⟨hG, htail⟩
      have hP' : P (step s e) := (hstep s e hs hP).mpr hG
      exact ⟨hP, (ih (hJ s e hs) hP').mpr htail⟩

/-- The rule for a property that is no invariant by itself: `Q` is what a step that meets `G` keeps,
and a step out of `Q` that misses `G` leaves `P`. -/
theorem always_iff_meets_of_inv (hPQ : ∀ s, Q s → P s) (hkeep : ∀ s e, Q s → G s e → Q (step s e))
    (hneed : ∀ s e, Q s → P (step s e) → G s e) (hs : Q s) (es : List ε) :
    Always step P s es ↔ Meets step G s es := by
  induction es generalizing s with
  | nil => exact iff_of_true (hPQ s hs) trivial
  | cons e es ih =>
    constructor
    · rintro ⟨-, htail⟩
      have hG : G s e := hneed s e hs htail.head
      exact ⟨hG, (ih (hkeep s e hs hG)).mp htail⟩
    · rintro ⟨hG, htail⟩
      exact ⟨hPQ s hs, (ih (hkeep s e hs hG)).mpr htail⟩

/-- The rule for the runs whose steps all meet a condition `A`. -/
theorem always_iff_meets_of_meets {A : σ → ε → Prop} (hPQ : ∀ s, Q s → P s)
    (hkeep : ∀ s e, Q s → A s e → G s e → Q (step s e))
    (hneed : ∀ s e, Q s → A s e → P (step s e) → G s e) (hs : Q s)
    {es : List ε} (hA : Meets step A s es) : Always step P s es ↔ Meets step G s es := by
  induction es generalizing s with
  | nil => exact iff_of_true (hPQ s hs) trivial
  | cons e es ih =>
    constructor
    · rintro ⟨-, htail⟩
      have hG : G s e := hneed s e hs hA.1 htail.head
      exact ⟨hG, (ih (hkeep s e hs hA.1 hG) hA.2).mp htail⟩
    · rintro ⟨hG, htail⟩
      exact ⟨hPQ s hs, (ih (hkeep s e hs hA.1 hG) hA.2).mpr htail⟩

/-- An invariant kept by every step that meets `G` holds throughout a run whose steps meet `G`. -/
theorem always_of_meets (hstep : ∀ s e, P s → G s e → P (step s e)) (hP : P s) {es : List ε}
    (hG : Meets step G s es) : Always step P s es := by
  induction es generalizing s with
  | nil => exact hP
  | cons e es ih => exact ⟨hP, ih (hstep s e hP hG.1) hG.2⟩

/-- An invariant kept by every step holds throughout every run. -/
theorem always_of_step (hstep : ∀ s e, P s → P (step s e)) (hP : P s) (es : List ε) :
    Always step P s es := by
  induction es generalizing s with
  | nil => exact hP
  | cons e es ih => exact ⟨hP, ih (hstep s e hP)⟩

/-- An invariant kept by every step holds at the end of every run. -/
theorem run_invariant (hstep : ∀ s e, P s → P (step s e)) (hP : P s) (es : List ε) :
    P (run step s es) := by
  induction es generalizing s with
  | nil => exact hP
  | cons e es ih => exact ih (hstep s e hP)

end RoscoEmulator.Run
