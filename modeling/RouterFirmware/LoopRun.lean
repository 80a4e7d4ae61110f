import Mathlib.Data.Nat.Notation
import Mathlib.Tactic.Common

/-! # Loops that may not end

The body of a loop goes on with a next state or leaves with a result. A loop finishes when some
number of turns is enough.
-/
namespace LoopRun

variable {σ β : Type*} {turn : σ → σ ⊕ β} {s t : σ} {b c : β}

/-- At most `fuel` turns of a loop. -/
def loop (turn : σ → σ ⊕ β) : ℕ → σ → Option β
  | 0, _ => none
  | fuel + 1, s =>
    match turn s with
    | .inl t => loop turn fuel t
    | .inr b => some b

def Finishes (turn : σ → σ ⊕ β) (s : σ) (b : β) : Prop := ∃ fuel, loop turn fuel s = some b

theorem loop_of_inl (h : turn s = .inl t) (fuel : ℕ) :
    loop turn (fuel + 1) s = loop turn fuel t := by
  rw [loop, h]

theorem loop_of_inr (h : turn s = .inr b) (fuel : ℕ) : loop turn (fuel + 1) s = some b := by
  rw [loop, h]

theorem loop_mono {n m : ℕ} (h : loop turn n s = some b) (hle : n ≤ m) :
    loop turn m s = some b := by
  induction n generalizing s m with
  | zero => cases h
  | succ n ih =>
    obtain ⟨m, rfl⟩ : ∃ k, m = k + 1 := ⟨m - 1, by omega⟩
    cases hturn : turn s with
    | inl t =>
      rw [loop_of_inl hturn] at h ⊢
      exact ih h (by omega)
    | inr c =>
      rw [loop_of_inr hturn] at h ⊢
      exact h

theorem finishes_iff_of_inl (h : turn s = .inl t) : Finishes turn s b ↔ Finishes turn t b := by
  constructor
  · intro hs
    obtain ⟨fuel, hrun⟩ := hs
    refine ⟨fuel, ?_⟩
    rw [← loop_of_inl h]
    exact loop_mono hrun (Nat.le_succ fuel)
  · intro ht
    obtain ⟨fuel, hrun⟩ := ht
    exact ⟨fuel + 1, by rw [loop_of_inl h, hrun]⟩

theorem finishes_iff_of_inr (h : turn s = .inr b) : Finishes turn s c ↔ b = c := by
  constructor
  · intro hs
    obtain ⟨fuel, hrun⟩ := hs
    have hone := loop_mono hrun (Nat.le_succ fuel)
    rw [loop_of_inr h] at hone
    exact Option.some.inj hone
  · intro hbc
    exact ⟨1, by rw [loop_of_inr h, hbc]⟩

theorem finishes_induction {P : σ → β → Prop} (hstop : ∀ s b, turn s = .inr b → P s b)
    (hstep : ∀ s t b, turn s = .inl t → P t b → P s b) (h : Finishes turn s b) : P s b := by
  obtain ⟨fuel, hrun⟩ := h
  induction fuel generalizing s with
  | zero => cases hrun
  | succ fuel ih =>
    cases hturn : turn s with
    | inl t =>
      rw [loop_of_inl hturn] at hrun
      exact hstep s t b hturn (ih hrun)
    | inr c =>
      rw [loop_of_inr hturn, Option.some.injEq] at hrun
      exact hstop s b (hturn.trans (congrArg Sum.inr hrun))

theorem finishes_unique (hb : Finishes turn s b) (hc : Finishes turn s c) : b = c := by
  revert c
  refine finishes_induction (P := fun s b => ∀ {c}, Finishes turn s c → b = c) ?_ ?_ hb
  · intro s b hturn c hc
    exact (finishes_iff_of_inr hturn).mp hc
  · intro s t b hturn ih c hc
    exact ih ((finishes_iff_of_inl hturn).mp hc)

/-- A condition under which the loop goes on and that every turn keeps is a loop without end. -/
theorem not_finishes (I : σ → Prop) (hstep : ∀ s, I s → ∃ t, turn s = .inl t ∧ I t) (hs : I s) :
    ¬ Finishes turn s b := by
  intro hfin
  obtain ⟨fuel, hrun⟩ := hfin
  induction fuel generalizing s with
  | zero => cases hrun
  | succ fuel ih =>
    obtain ⟨t, hturn, ht⟩ := hstep s hs
    rw [loop_of_inl hturn] at hrun
    exact ih ht hrun

/-- Two loops one after the other, with the same number of turns for both. -/
theorem finishes_bind {σ' β' : Type*} {turn' : σ' → σ' ⊕ β'} {start : β → σ'} {out : β'} :
    (∃ fuel, (loop turn fuel s).bind (fun b => loop turn' fuel (start b)) = some out) ↔
      ∃ b, Finishes turn s b ∧ Finishes turn' (start b) out := by
  constructor
  · intro h
    obtain ⟨fuel, hrun⟩ := h
    obtain ⟨b, hb, hout⟩ := Option.bind_eq_some_iff.mp hrun
    exact ⟨b, ⟨fuel, hb⟩, ⟨fuel, hout⟩⟩
  · intro h
    obtain ⟨b, ⟨n, hb⟩, ⟨m, hout⟩⟩ := h
    refine ⟨max n m, ?_⟩
    rw [loop_mono hb (Nat.le_max_left n m), Option.bind_some]
    exact loop_mono hout (Nat.le_max_right n m)

end LoopRun
