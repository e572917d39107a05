import Mathlib

/-!
# Runs of a step function

A system is a step function `step : σ → ε → σ`, and a run is `es.foldl step s`.
`Along step P s es` says that every step of the run meets `P`, a condition on the
state before the step and the event.

* `inv`: what every step that meets `P` preserves holds where the run ends.
* `doomed`: a step that fails `P` leads to a state from which there is no return.
* `iff_along`: so a run ends well if and only if all its steps meet `P`.
* `simulation`: two systems that take corresponding steps stay related.
* `along_congr`: conditions that are equivalent under an invariant are met by the same runs.
-/

namespace Runs

variable {σ ε : Type*} (step : σ → ε → σ) (P : σ → ε → Prop)

/-- Every step of the run from `s` meets `P`. -/
def Along : σ → List ε → Prop
  | _, [] => True
  | s, e :: es => P s e ∧ Along (step s e) es

instance decidableAlong [∀ s e, Decidable (P s e)] (s : σ) : (es : List ε) → Decidable (Along step P s es)
  | [] => isTrue trivial
  | e :: es => @instDecidableAnd _ _ _ (decidableAlong (step s e) es)

variable {step P}

/-- **Invariant rule.** -/
theorem inv {I : σ → Prop} (hstep : ∀ s e, I s → P s e → I (step s e)) :
    ∀ (es : List ε) (s : σ), I s → Along step P s es → I (es.foldl step s) := by
  intro es
  induction es with
  | nil => intro s hs _; exact hs
  | cons e es ih => intro s hs ⟨he, hes⟩; exact ih _ (hstep s e hs he) hes

/-- The invariant rule for steps under no condition. -/
theorem inv_of_step {I : σ → Prop} (hstep : ∀ s e, I s → I (step s e)) (es : List ε) {s : σ}
    (hs : I s) : I (es.foldl step s) := by
  induction es generalizing s with
  | nil => exact hs
  | cons e es ih => exact ih (hstep s e hs)

/-- **Simulation rule.** Two systems stay related if their steps keep them so. -/
theorem simulation {τ : Type*} {g : τ → ε → τ} {S : σ → τ → Prop}
    (hstep : ∀ s t e, S s t → P s e → S (step s e) (g t e)) :
    ∀ (es : List ε) (s : σ) (t : τ), S s t → Along step P s es → S (es.foldl step s) (es.foldl g t) := by
  intro es
  induction es with
  | nil => intro s t hs _; exact hs
  | cons e es ih => intro s t hs ⟨he, hes⟩; exact ih _ _ (hstep s t e hs he) hes

/-- **No return.** While `I` holds, a step that fails `P` leads to `B`, and `B` stays. -/
theorem doomed {I B : σ → Prop} (hstep : ∀ s e, I s → P s e → I (step s e))
    (hfail : ∀ s e, I s → ¬ P s e → B (step s e)) (hstay : ∀ s e, B s → B (step s e)) :
    ∀ (es : List ε) (s : σ), I s → ¬ Along step P s es → B (es.foldl step s) := by
  intro es
  induction es with
  | nil => intro s _ h; exact absurd trivial h
  | cons e es ih =>
    intro s hs h
    -- the first step that fails `P` is this one or a later one
    by_cases he : P s e
    · exact ih _ (hstep s e hs he) fun hes => h ⟨he, hes⟩
    · exact inv_of_step hstay es (hfail s e hs he)

/-- **A run ends well if and only if all its steps meet the condition.** -/
theorem iff_along {I B G : σ → Prop} (hI : ∀ s, I s → G s) (hB : ∀ s, B s → ¬ G s)
    (hstep : ∀ s e, I s → P s e → I (step s e)) (hfail : ∀ s e, I s → ¬ P s e → B (step s e))
    (hstay : ∀ s e, B s → B (step s e)) (es : List ε) {s : σ} (hs : I s) :
    G (es.foldl step s) ↔ Along step P s es := by
  constructor
  · intro h
    by_contra hes
    exact hB _ (doomed hstep hfail hstay es s hs hes) h
  · intro h
    exact hI _ (inv hstep es s hs h)

/-- **Two conditions on steps come to the same along a run** if they do on the states of an
invariant, which the steps that meet them preserve. -/
theorem along_congr {I : σ → Prop} {Q : σ → ε → Prop} (hiff : ∀ s e, I s → (P s e ↔ Q s e))
    (hstep : ∀ s e, I s → Q s e → I (step s e)) :
    ∀ (es : List ε) (s : σ), I s → (Along step P s es ↔ Along step Q s es) := by
  intro es
  induction es with
  | nil => intro s _; exact Iff.rfl
  | cons e es ih =>
    intro s hs
    constructor
    · rintro ⟨he, hes⟩
      have he' := (hiff s e hs).1 he
      exact ⟨he', (ih _ (hstep s e hs he')).1 hes⟩
    · rintro ⟨he, hes⟩
      exact ⟨(hiff s e hs).2 he, (ih _ (hstep s e hs he)).2 hes⟩

end Runs
