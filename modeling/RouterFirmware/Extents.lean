import Mathlib.Data.List.Induction

/-! # Extents in a row

Extents of given sizes that stand one behind the other. A place below their total is in exactly
one of them, at an offset below its size.
-/
namespace Extents

variable {α : Type*} {size : α → ℕ} {l l₁ l₂ : List α} {a : α} {b o : ℕ}

def total (size : α → ℕ) : List α → ℕ
  | [] => 0
  | a :: l => size a + total size l

@[simp] theorem total_nil : total size [] = 0 := rfl

@[simp] theorem total_cons : total size (a :: l) = size a + total size l := rfl

@[simp] theorem total_append : total size (l₁ ++ l₂) = total size l₁ + total size l₂ := by
  induction l₁ with
  | nil => simp
  | cons a l₁ ih => simp [ih, Nat.add_assoc]

/-- The place `b` is at offset `o` in the last extent of `l ++ [a]`. -/
def Placed (size : α → ℕ) (l : List α) (a : α) (o b : ℕ) : Prop :=
  o < size a ∧ b = o + total size l

theorem Placed.lt_total (h : Placed size l a o b) : b < total size (l ++ [a]) := by
  obtain ⟨hlt, rfl⟩ := h
  simp only [total_append, total_cons, total_nil]
  omega

theorem exists_placed (h : b < total size l) : ∃ l₁ a l₂ o, l = l₁ ++ a :: l₂ ∧
    Placed size l₁ a o b := by
  induction l using List.reverseRecOn with
  | nil => simp at h
  | append_singleton l a ih =>
    by_cases hb : b < total size l
    · obtain ⟨l₁, c, l₂, o, rfl, hplaced⟩ := ih hb
      exact ⟨l₁, c, l₂ ++ [a], o, by simp, hplaced⟩
    · simp only [total_append, total_cons, total_nil] at h
      exact ⟨l, a, [], b - total size l, rfl, by omega, by omega⟩

/-- Of two rows of which one begins the other and has the same total, no more extents are in one
than in the other. -/
theorem eq_of_total_eq (hpos : ∀ a ∈ l₁ ++ l₂, 0 < size a)
    (h : total size (l₁ ++ l₂) = total size l₁) : l₂ = [] := by
  cases l₂ with
  | nil => rfl
  | cons a l₂ =>
    have ha := hpos a (by simp)
    simp only [total_append, total_cons] at h
    omega

end Extents
