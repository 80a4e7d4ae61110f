import Mathlib.Data.List.Basic
import Mathlib.Logic.Function.Basic
import Mathlib.Tactic.Common

/-! # Programs over a shared state and their interleavings

A program is the tree of its steps on a shared state: each step asks for one operation and
goes on with its result. Operations that cannot proceed yet are repeated, as in a spin loop.
A lock is two kinds of operations, `acquire` and `release`; which process created the lock
that is there now is recorded beside the state and is not visible to the programs.
-/
namespace SharedProgram

/-- How a program can stop without returning: undefined behaviour, or a loop without exit. -/
inductive Halt where
  | crash
  | hang
  deriving DecidableEq, Repr

inductive Prog (Op : Type) (Res : Op → Type) (α : Type) where
  | ret (a : α)
  | halt (why : Halt)
  | step (o : Op) (k : Res o → Prog Op Res α)

variable {Op : Type} {Res : Op → Type} {α β S : Type}

def Prog.bind : Prog Op Res α → (α → Prog Op Res β) → Prog Op Res β
  | .ret a, f => f a
  | .halt why, _ => .halt why
  | .step o k, f => .step o fun r => (k r).bind f

instance : Monad (Prog Op Res) where
  pure := .ret
  bind := Prog.bind

@[simp] theorem pure_def (a : α) : (pure a : Prog Op Res α) = .ret a := rfl
@[simp] theorem ret_bind (a : α) (f : α → Prog Op Res β) : (Prog.ret a >>= f) = f a := rfl
@[simp] theorem halt_bind (w : Halt) (f : α → Prog Op Res β) :
    (Prog.halt w >>= f) = .halt w := rfl
@[simp] theorem step_bind (o : Op) (k : Res o → Prog Op Res α) (f : α → Prog Op Res β) :
    (Prog.step o k >>= f) = .step o fun r => k r >>= f := rfl

theorem bind_bind {γ : Type} (m : Prog Op Res α) (f : α → Prog Op Res β) (g : β → Prog Op Res γ) :
    (m >>= f >>= g) = m >>= fun a => f a >>= g := by
  induction m with
  | ret a => rfl
  | halt w => rfl
  | step o k ih =>
    rw [step_bind, step_bind, step_bind]
    exact congrArg _ (funext ih)

/-- A program run alone. `none` is a program that never returns. -/
def Prog.run (exec : (o : Op) → S → Option (Res o × S)) : Prog Op Res α → S → Option (α × S)
  | .ret a, s => some (a, s)
  | .halt _, _ => none
  | .step o k, s => (exec o s).bind fun p => (k p.1).run exec p.2

/-- The state in which a program run alone is stopped after `n` operations, or earlier where it
has come to its end or waits. -/
def Prog.after (exec : (o : Op) → S → Option (Res o × S)) : ℕ → Prog Op Res α → S → S
  | n + 1, .step o k, s =>
    match exec o s with
    | some p => (k p.1).after exec n p.2
    | none => s
  | _, _, s => s

section Run

variable {exec : (o : Op) → S → Option (Res o × S)}

@[simp] theorem run_ret (a : α) (s : S) : (Prog.ret a : Prog Op Res α).run exec s = some (a, s) :=
  rfl

@[simp] theorem run_halt (w : Halt) (s : S) :
    (Prog.halt w : Prog Op Res α).run exec s = none := rfl

theorem run_step (o : Op) (k : Res o → Prog Op Res α) (s : S) :
    (Prog.step o k).run exec s = (exec o s).bind fun p => (k p.1).run exec p.2 := rfl

theorem run_bind (m : Prog Op Res α) (f : α → Prog Op Res β) (s : S) :
    (m >>= f).run exec s = (m.run exec s).bind fun p => (f p.1).run exec p.2 := by
  induction m generalizing s with
  | ret a => rfl
  | halt w => rfl
  | step o k ih =>
    simp only [step_bind, run_step]
    cases exec o s with
    | none => rfl
    | some p => exact ih p.1 p.2

end Run

/-- Every operation the program can come to satisfies `P`. -/
def Prog.Uses (P : Op → Prop) : Prog Op Res α → Prop
  | .ret _ => True
  | .halt _ => True
  | .step o k => P o ∧ ∀ r, (k r).Uses P

/-- Some operation satisfying `P` is still ahead. -/
def Prog.Reaches (P : Op → Prop) (m : Prog Op Res α) : Prop := ¬ m.Uses fun o => ¬ P o

section Uses

variable {P Q : Op → Prop}

theorem uses_bind {m : Prog Op Res α} {f : α → Prog Op Res β} (hm : m.Uses P)
    (hf : ∀ a, (f a).Uses P) : (m >>= f).Uses P := by
  induction m with
  | ret a => exact hf a
  | halt w => trivial
  | step o k ih => exact ⟨hm.1, fun r => ih r (hm.2 r)⟩

theorem Prog.Uses.mono {m : Prog Op Res α} (hm : m.Uses P) (h : ∀ o, P o → Q o) : m.Uses Q := by
  induction m with
  | ret a => trivial
  | halt w => trivial
  | step o k ih => exact ⟨h o hm.1, fun r => ih r (hm.2 r)⟩

/-- A relation between states that every allowed operation keeps holds across a whole run. -/
theorem run_preserves {exec : (o : Op) → S → Option (Res o × S)} {R : S → S → Prop}
    (hrefl : ∀ s, R s s) (htrans : ∀ s t u, R s t → R t u → R s u)
    (hstep : ∀ o s r t, P o → exec o s = some (r, t) → R s t)
    {m : Prog Op Res α} (hm : m.Uses P) {s t : S} {a : α} (h : m.run exec s = some (a, t)) :
    R s t := by
  induction m generalizing s with
  | ret b => simp only [run_ret, Option.some.injEq, Prod.mk.injEq] at h; exact h.2 ▸ hrefl s
  | halt w => cases h
  | step o k ih =>
    rw [run_step, Option.bind_eq_some_iff] at h
    obtain ⟨⟨r, u⟩, hu, h⟩ := h
    exact htrans _ _ _ (hstep o s r u hm.1 hu) (ih r (hm.2 r) h)

end Uses

section Simulation

variable {exec : (o : Op) → S → Option (Res o × S)} {A C : Type}

/-- Calls run one after another, with their results. -/
def runAll (exec : (o : Op) → S → Option (Res o × S)) (prog : C → Prog Op Res α) :
    List C → S → Option (List α × S)
  | [], s => some ([], s)
  | c :: cs, s => ((prog c).run exec s).bind fun p =>
    (runAll exec prog cs p.2).map fun q => (p.1 :: q.1, q.2)

/-- Every call meets `P` in the state it is made from. -/
def MeetsAll (exec : (o : Op) → S → Option (Res o × S)) (prog : C → Prog Op Res α)
    (P : C → S → Prop) : List C → S → Prop
  | [], _ => True
  | c :: cs, s => P c s ∧ ∀ r s', (prog c).run exec s = some (r, s') → MeetsAll exec prog P cs s'

/-- What every call that returns keeps, made where it meets `P`, every run of such calls
keeps. -/
theorem runAll_keeps {prog : C → Prog Op Res α} {P : C → S → Prop} {I : S → Prop}
    (hstep : ∀ c s r s', I s → P c s → (prog c).run exec s = some (r, s') → I s')
    {cs : List C} {s s' : S} {rs : List α} (hI : I s) (hcs : MeetsAll exec prog P cs s)
    (h : runAll exec prog cs s = some (rs, s')) : I s' := by
  induction cs generalizing s rs with
  | nil =>
    simp only [runAll, Option.some.injEq, Prod.mk.injEq] at h
    exact h.2 ▸ hI
  | cons c cs ih =>
    rw [runAll, Option.bind_eq_some_iff] at h
    obtain ⟨⟨r, t⟩, hrun, h⟩ := h
    obtain ⟨⟨rest, u⟩, hrest, hu⟩ := Option.map_eq_some_iff.mp h
    obtain rfl : u = s' := congrArg Prod.snd hu
    exact ih (hstep c s r t hI hcs.1 hrun) (hcs.2 r t hrun) hrest

/-- The abstract run: `spec` gives the result and the next abstract state of a call. -/
def specAll (spec : C → A → α × A) : List C → A → List α × A
  | [], a => ([], a)
  | c :: cs, a => ((spec c a).1 :: (specAll spec cs (spec c a).2).1, (specAll spec cs (spec c a).2).2)

/-- Every call of an abstract run is allowed in the state it is made from. -/
def AllowedAll (spec : C → A → α × A) (allowed : C → A → Prop) : List C → A → Prop
  | [], _ => True
  | c :: cs, a => allowed c a ∧ AllowedAll spec allowed cs (spec c a).2

/-- When every allowed call simulates its abstract one, so does every run of allowed calls. -/
theorem runAll_simulates {prog : C → Prog Op Res α} {spec : C → A → α × A}
    {allowed : C → A → Prop} {R : A → S → Prop}
    (hstep : ∀ c a s, R a s → allowed c a →
      ∃ s', (prog c).run exec s = some ((spec c a).1, s') ∧ R (spec c a).2 s')
    {cs : List C} {a : A} {s : S} (hR : R a s) (hcs : AllowedAll spec allowed cs a) :
    ∃ s', runAll exec prog cs s = some ((specAll spec cs a).1, s') ∧
      R (specAll spec cs a).2 s' := by
  induction cs generalizing a s with
  | nil => exact ⟨s, rfl, hR⟩
  | cons c cs ih =>
    obtain ⟨t, hrun, hRt⟩ := hstep c a s hR hcs.1
    obtain ⟨s', hrest, hRs⟩ := ih hRt hcs.2
    exact ⟨s', by simp [runAll, specAll, hrun, hrest], hRs⟩

end Simulation

end SharedProgram
