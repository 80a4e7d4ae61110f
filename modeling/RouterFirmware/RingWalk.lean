import Mathlib.Data.BitVec

/-! # Walks round a ring

A ring of `2 ^ n` slots is walked from where the last walk stopped, one slot after the other. A
visit may end the walk. One that goes all the way round comes to every slot. -/
namespace RingWalk

variable {σ : Type*}

def next (n k : ℕ) : ℕ := (k + 1) &&& (2 ^ n - 1)

/-- The last slot visited, the state, and whether a visit ended the walk. -/
structure Walked (σ : Type*) where
  pos : ℕ
  state : σ
  stopped : Bool

/-- Visit up to `m` slots behind `k`. -/
def walk (n : ℕ) (visit : ℕ → σ → σ × Bool) : ℕ → ℕ → σ → Walked σ
  | 0, k, s => ⟨k, s, false⟩
  | m + 1, k, s =>
    if (visit (next n k) s).2 then ⟨next n k, (visit (next n k) s).1, true⟩
    else walk n visit m (next n k) (visit (next n k) s).1

section Walk

variable {n m k b : ℕ} {visit : ℕ → σ → σ × Bool} {s : σ} {I : σ → Prop} {D : ℕ → σ → Prop}

theorem next_eq (n k : ℕ) : next n k = (k + 1) % 2 ^ n :=
  Nat.and_two_pow_sub_one_eq_mod _ _

theorem next_lt (n k : ℕ) : next n k < 2 ^ n := by
  rw [next_eq]
  exact Nat.mod_lt _ (Nat.two_pow_pos n)

theorem walk_keeps (hvisit : ∀ j < 2 ^ n, ∀ s, I s → I (visit j s).1) (hs : I s) :
    I (walk n visit m k s).state := by
  induction m generalizing k s with
  | zero => exact hs
  | succ m ih =>
    rw [walk]
    split
    · exact hvisit _ (next_lt n k) s hs
    · exact ih (hvisit _ (next_lt n k) s hs)

/-- The visit that ended the walk left a state in which it does so. -/
theorem walk_stopped (hvisit : ∀ j s, (visit j s).2 = true → I (visit j s).1)
    (h : (walk n visit m k s).stopped = true) : I (walk n visit m k s).state := by
  induction m generalizing k s with
  | zero => cases h
  | succ m ih =>
    rw [walk] at h ⊢
    split at h
    · rename_i hstop
      rw [if_pos hstop]
      exact hvisit _ _ hstop
    · rename_i hstop
      rw [if_neg hstop]
      exact ih h

/-- A walk that nothing ended has visited the `m` slots behind `k`; what a visit makes of its slot
is there at the end where the other visits keep it. -/
theorem walk_visits (hdone : ∀ j s, (visit j s).2 = false → D j (visit j s).1)
    (hkeep : ∀ b j s, D b s → D b (visit j s).1) (h : (walk n visit m k s).stopped = false)
    {j : ℕ} (hj : j < m) : D ((k + 1 + j) % 2 ^ n) (walk n visit m k s).state := by
  induction m generalizing k s j with
  | zero => cases hj
  | succ m ih =>
    rw [walk] at h ⊢
    split at h
    · cases h
    · rename_i hgo
      rw [if_neg hgo]
      cases j with
      | zero =>
        rw [Nat.add_zero, ← next_eq]
        exact walk_keeps (fun j _ s hs => hkeep _ j s hs) (hdone _ _ (Bool.eq_false_iff.mpr hgo))
      | succ j =>
        have hslot : (next n k + 1 + j) % 2 ^ n = (k + 1 + (j + 1)) % 2 ^ n := by
          rw [next_eq, Nat.add_assoc, Nat.mod_add_mod]
          congr 1
          omega
        rw [← hslot]
        exact ih h (Nat.lt_of_succ_lt_succ hj)

theorem walk_pos (h : (walk n visit m k s).stopped = false) :
    (walk n visit m k s).pos % 2 ^ n = (k + m) % 2 ^ n := by
  induction m generalizing k s with
  | zero => rfl
  | succ m ih =>
    rw [walk] at h ⊢
    split at h
    · cases h
    · rename_i hgo
      rw [if_neg hgo, ih h, next_eq, Nat.mod_add_mod, Nat.add_assoc, Nat.add_comm 1]

/-- The `j`-th slot behind `k`, for some `j`, is any slot. -/
theorem exists_behind (k : ℕ) (hb : b < 2 ^ n) : ∃ j < 2 ^ n, (k + 1 + j) % 2 ^ n = b := by
  have hpos := Nat.two_pow_pos n
  have hle := Nat.le_of_lt (Nat.mod_lt (k + 1) hpos)
  refine ⟨(b + (2 ^ n - (k + 1) % 2 ^ n)) % 2 ^ n, Nat.mod_lt _ hpos, ?_⟩
  have hsum : (k + 1) % 2 ^ n + (b + (2 ^ n - (k + 1) % 2 ^ n)) = b + 2 ^ n := by omega
  rw [Nat.add_mod_mod, ← Nat.mod_add_mod, hsum, Nat.add_mod_right, Nat.mod_eq_of_lt hb]

theorem walk_covers (hdone : ∀ j s, (visit j s).2 = false → D j (visit j s).1)
    (hkeep : ∀ b j s, D b s → D b (visit j s).1)
    (h : (walk n visit (2 ^ n) k s).stopped = false) (hb : b < 2 ^ n) :
    D b (walk n visit (2 ^ n) k s).state := by
  obtain ⟨j, hj, rfl⟩ := exists_behind k hb
  exact walk_visits hdone hkeep h hj

end Walk

end RingWalk
