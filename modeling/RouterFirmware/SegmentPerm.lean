import Mathlib.Data.Set.Basic
import Mathlib.Logic.Equiv.Basic

/-! # Permutations of a part

A store whose contents are moved around inside a set of places, while all others are as they were.
-/
namespace SegmentPerm

variable {ι α : Type*}

/-- `b` holds in the places of `S` what `a` holds there, in some order, and is `a` elsewhere. -/
def PermutedOn (S : Set ι) (a b : ι → α) : Prop :=
  ∃ σ : Equiv.Perm ι, (∀ k, k ∉ S → σ k = k) ∧ b = a ∘ σ

variable {S T : Set ι} {a b c : ι → α} {k l : ι} {P : α → Prop}

theorem PermutedOn.refl (S : Set ι) (a : ι → α) : PermutedOn S a a :=
  ⟨Equiv.refl ι, fun _ _ => rfl, rfl⟩

theorem PermutedOn.trans (hab : PermutedOn S a b) (hbc : PermutedOn S b c) : PermutedOn S a c := by
  obtain ⟨σ, hσ, rfl⟩ := hab
  obtain ⟨τ, hτ, rfl⟩ := hbc
  refine ⟨τ.trans σ, fun k hk => ?_, rfl⟩
  rw [Equiv.trans_apply, hτ k hk, hσ k hk]

theorem PermutedOn.mono (h : PermutedOn S a b) (hST : S ⊆ T) : PermutedOn T a b := by
  obtain ⟨σ, hσ, rfl⟩ := h
  exact ⟨σ, fun k hk => hσ k fun hS => hk (hST hS), rfl⟩

theorem PermutedOn.eq_of_notMem (h : PermutedOn S a b) (hk : k ∉ S) : b k = a k := by
  obtain ⟨σ, hσ, rfl⟩ := h
  rw [Function.comp_apply, hσ k hk]

theorem permutedOn_swap [DecidableEq ι] (a : ι → α) (hk : k ∈ S) (hl : l ∈ S) :
    PermutedOn S a (a ∘ Equiv.swap k l) := by
  refine ⟨Equiv.swap k l, fun m hm => ?_, rfl⟩
  apply Equiv.swap_apply_of_ne_of_ne
  · rintro rfl
    exact hm hk
  · rintro rfl
    exact hm hl

theorem PermutedOn.forall_mem (h : PermutedOn S a b) (ha : ∀ k ∈ S, P (a k)) :
    ∀ k ∈ S, P (b k) := by
  obtain ⟨σ, hσ, rfl⟩ := h
  intro k hk
  apply ha
  by_contra hout
  have hfix : σ k = k := σ.injective (hσ _ hout)
  rw [hfix] at hout
  exact hout hk

end SegmentPerm
