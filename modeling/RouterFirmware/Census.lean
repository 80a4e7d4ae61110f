import Mathlib.Data.Fintype.Card
import Mathlib.Algebra.BigOperators.Group.Finset.Basic

/-! # How many processes stand where

Processes of a finite kind, each in a place of its own; a property of places is counted over all
of them, and the count follows the move of one process. -/
namespace Census

variable {ι P : Type*} [Fintype ι] [DecidableEq ι] {p q : P → Bool} {f : ι → P} {c : ι} {x : P}

def count (p : P → Bool) (f : ι → P) : ℕ := (Finset.univ.filter fun i => p (f i) = true).card

omit [DecidableEq ι] in
theorem count_eq_zero : count p f = 0 ↔ ∀ i, p (f i) = false := by
  simp [count, Finset.card_eq_zero, Finset.filter_eq_empty_iff]

omit [DecidableEq ι] in
/-- A process without the property makes the count smaller than the crowd. -/
theorem count_lt_card (h : p (f c) = false) : count p f < Fintype.card ι :=
  Finset.card_lt_univ_of_notMem (x := c) (by simp [h])

omit [DecidableEq ι] in
theorem count_le_one (h : ∀ i j, p (f i) = true → p (f j) = true → i = j) : count p f ≤ 1 :=
  Finset.card_le_one.mpr fun i hi j hj => h i j (by simpa using hi) (by simpa using hj)

theorem count_update : count p (Function.update f c x) + (p (f c)).toNat =
    count p f + (p x).toNat := by
  have split : ∀ g : ι → P, count p g = (p (g c)).toNat +
      ((Finset.univ.erase c).filter fun i => p (g i) = true).card := by
    intro g
    rw [count, ← Finset.insert_erase (Finset.mem_univ c), Finset.filter_insert]
    cases h : p (g c) with
    | true => simp [Finset.card_insert_of_notMem, Nat.add_comm]
    | false => simp
  have same : (Finset.univ.erase c).filter (fun i => p (Function.update f c x i) = true) =
      (Finset.univ.erase c).filter fun i => p (f i) = true := by
    refine Finset.filter_congr fun i hi => ?_
    rw [Function.update_of_ne (Finset.ne_of_mem_erase hi)]
  rw [split (Function.update f c x), split f, same, Function.update_self]
  omega

theorem count_update_same (h : p x = p (f c)) : count p (Function.update f c x) = count p f := by
  have := count_update (p := p) (f := f) (c := c) (x := x)
  rw [h] at this
  omega

theorem count_update_enter (h : p (f c) = false) (hx : p x = true) :
    count p (Function.update f c x) = count p f + 1 := by
  simpa [h, hx] using count_update (p := p) (f := f) (c := c) (x := x)

theorem count_update_leave (h : p (f c) = true) (hx : p x = false) :
    count p (Function.update f c x) + 1 = count p f := by
  simpa [h, hx] using count_update (p := p) (f := f) (c := c) (x := x)

end Census
