import Mathlib.Data.List.Basic
import Mathlib.Data.Nat.Notation

/-! # Stores into a table

A run of stores, each of which changes one entry of a table by its number. It goes through if all
numbers are within the table, and leaves in each entry what the stores for its number make of it.
-/
namespace IndexedStores

variable {α γ : Type*}

def store (act : α → γ → α) (t : List α) (s : ℕ × γ) : Option (List α) :=
  if s.1 < t.length then some (t.modify s.1 fun a => act a s.2) else none

def run (act : α → γ → α) (t : List α) (stores : List (ℕ × γ)) : Option (List α) :=
  stores.foldlM (store act) t

def changes (stores : List (ℕ × γ)) (k : ℕ) : List γ :=
  (stores.filter fun s => s.1 = k).map Prod.snd

section Runs

variable {act : α → γ → α} {t t' : List α} {stores : List (ℕ × γ)} {k : ℕ} {c : γ}

theorem mem_changes : c ∈ changes stores k ↔ (k, c) ∈ stores := by
  simp only [changes, List.mem_map, List.mem_filter, decide_eq_true_eq]
  constructor
  · rintro ⟨⟨i, c'⟩, ⟨hmem, rfl⟩, rfl⟩
    exact hmem
  · intro hmem
    exact ⟨(k, c), ⟨hmem, rfl⟩, rfl⟩

theorem isSome_run_iff : (run act t stores).isSome ↔ ∀ s ∈ stores, s.1 < t.length := by
  induction stores generalizing t with
  | nil => simp [run]
  | cons s stores ih =>
    rw [run, List.foldlM_cons, List.forall_mem_cons, store]
    split
    · next hlt =>
      have hrest := ih (t := t.modify s.1 fun a => act a s.2)
      rw [List.length_modify] at hrest
      simpa [run, hlt] using hrest
    · next hlt => simp [hlt]

theorem getElem?_run (h : run act t stores = some t') (k : ℕ) :
    t'[k]? = t[k]?.map fun a => (changes stores k).foldl act a := by
  induction stores generalizing t with
  | nil =>
    cases h
    simp [changes]
  | cons s stores ih =>
    rw [run, List.foldlM_cons, store] at h
    split at h
    · have hrest := ih (t := t.modify s.1 fun a => act a s.2) h
      rw [hrest, List.getElem?_modify]
      by_cases hk : s.1 = k
      · simp [hk, changes, Function.comp_def]
      · simp [hk, changes]
    · cases h

end Runs

end IndexedStores
