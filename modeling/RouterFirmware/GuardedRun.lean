import Mathlib.Logic.Basic

/-! # Runs under a condition

A machine takes one event after the other. A property is kept throughout a run when each of
its steps meets a condition in the state before it; where a single step keeps the property
exactly under that condition, so does the run.
-/
namespace GuardedRun

variable {σ ε : Type*} {step : σ → ε → σ} {P Q : σ → ε → Prop} {I : σ → Prop} {s : σ}
  {es fs : List ε}

/-- Every step of the run meets `P` in the state before it. -/
def Along (step : σ → ε → σ) (P : σ → ε → Prop) : σ → List ε → Prop
  | _, [] => True
  | s, e :: es => P s e ∧ Along step P (step s e) es

instance instDecidableAlong [∀ s e, Decidable (P s e)] :
    (s : σ) → (es : List ε) → Decidable (Along step P s es)
  | _, [] => inferInstanceAs (Decidable True)
  | s, e :: es =>
    have := instDecidableAlong (step s e) es
    inferInstanceAs (Decidable (P s e ∧ Along step P (step s e) es))

theorem along_append :
    Along step P s (es ++ fs) ↔ Along step P s es ∧ Along step P (es.foldl step s) fs := by
  induction es generalizing s with
  | nil => simp [Along]
  | cons e es ih => simp [Along, ih, and_assoc]

theorem along_iff_forall : Along step P s es ↔
    ∀ pre e post, es = pre ++ e :: post → P (pre.foldl step s) e := by
  constructor
  · rintro h pre e post rfl
    exact (along_append.mp h).2.1
  · intro h
    induction es generalizing s with
    | nil => trivial
    | cons e es ih =>
      refine ⟨h [] e es rfl, ih ?_⟩
      rintro pre x post rfl
      exact h (e :: pre) x post rfl

theorem foldl_keeps (hstep : ∀ s e, I s → P s e → I (step s e)) (hs : I s)
    (hrun : Along step P s es) : I (es.foldl step s) := by
  induction es generalizing s with
  | nil => exact hs
  | cons e es ih => exact ih (hstep s e hs hrun.1) hrun.2

theorem foldl_invariant (hstep : ∀ s e, I s → I (step s e)) (hs : I s) :
    I (es.foldl step s) := by
  induction es generalizing s with
  | nil => exact hs
  | cons e es ih => exact ih (hstep s e hs)

/-- What a condition gives of one step, under an invariant it keeps, it gives of every step. -/
theorem along_imp (hstep : ∀ s e, I s → P s e → I (step s e))
    (himp : ∀ s e, I s → P s e → Q s e) (hs : I s) (hrun : Along step P s es) :
    Along step Q s es := by
  induction es generalizing s with
  | nil => trivial
  | cons e es ih => exact ⟨himp s e hs hrun.1, ih (hstep s e hs hrun.1) hrun.2⟩

/-- The condition is exact for the run when it is exact for a step. -/
theorem along_iff (hstep : ∀ s e, I s → P s e → I (step s e))
    (hiff : ∀ s e, I s → (Q s e ↔ P s e)) (hs : I s) :
    Along step Q s es ↔ Along step P s es := by
  constructor
  · intro h
    apply along_imp _ _ hs h
    · exact fun s e hs hq => hstep s e hs ((hiff s e hs).mp hq)
    · exact fun s e hs hq => (hiff s e hs).mp hq
  · exact along_imp hstep (fun s e hs hp => (hiff s e hs).mpr hp) hs

end GuardedRun
