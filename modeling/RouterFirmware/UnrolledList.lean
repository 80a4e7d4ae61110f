import Mathlib.Data.List.Iterate
import RouterFirmware.LinkedSegment

/-! # Unrolled lists

Chunks of `size` slots each, threaded by a link function. A walk goes from slot to slot, and behind
the last slot of a chunk to the chunk linked to it. A release goes from chunk to chunk.
-/
namespace UnrolledList

open LinkedSegment

variable {α β : Type*}

def next (link : α → α) (size : ℕ) (p : α × ℕ) : α × ℕ :=
  if p.2 + 1 < size then (p.1, p.2 + 1) else (link p.1, 0)

/-- `n` places from the first slot of `c` on. -/
def places (link : α → α) (size : ℕ) (c : α) (n : ℕ) : List (α × ℕ) :=
  List.iterate (next link size) (c, 0) n

/-- The chunks of `n` slots. The link is read before its chunk is given up. -/
def release (link : α → α) (size : ℕ) : ℕ → α → ℕ → List α
  | 0, _, _ => []
  | fuel + 1, c, n =>
    if n = 0 then []
    else c :: release link size fuel (link c) (if size < n then n - size else 0)

def slots (c : α) (n : ℕ) : List (α × ℕ) := (List.range n).map fun j => (c, j)

section Walk

variable {link : α → α} {node : β → α} {holds : β → Prop} {size m n fuel : ℕ} {a c : α}
  {full : List β}

theorem iterate_next (h : n < size) (c : α) : (next link size)^[n] (c, 0) = (c, n) := by
  induction n with
  | zero => rfl
  | succ n ih =>
    rw [Function.iterate_succ_apply', ih (Nat.lt_of_succ_lt h)]
    exact if_pos h

theorem iterate_next_size (h : 0 < size) (c : α) :
    (next link size)^[size] (c, 0) = (link c, 0) := by
  obtain ⟨k, rfl⟩ := Nat.exists_eq_add_one_of_ne_zero h.ne'
  rw [Function.iterate_succ_apply', iterate_next (Nat.lt_succ_self k)]
  exact if_neg (lt_irrefl _)

theorem places_of_le (h : n ≤ size) (c : α) : places link size c n = slots c n := by
  rw [places, ← List.range_map_iterate]
  apply List.map_congr_left
  intro j hj
  exact iterate_next (lt_of_lt_of_le (List.mem_range.mp hj) h) c

theorem places_size_add (h : 0 < size) (c : α) (n : ℕ) :
    places link size c (size + n) = slots c size ++ places link size (link c) n := by
  rw [places, List.iterate_add, iterate_next_size h]
  exact congrArg (· ++ _) (places_of_le (Nat.le_refl size) c)

/-- Behind full chunks the walk is in the last one. -/
theorem places_of_seg (hsize : 0 < size) (h : Seg link node holds a full c) (hm : m ≤ size) :
    places link size a (full.length * size + m) =
      full.flatMap (fun b => slots (node b) size) ++ slots c m := by
  induction full generalizing a with
  | nil =>
    obtain rfl : a = c := h
    rw [List.length_nil, Nat.zero_mul, Nat.zero_add]
    exact places_of_le hm a
  | cons b full ih =>
    obtain ⟨rfl, -, hrest⟩ := h
    have hcount : (b :: full).length * size + m = size + (full.length * size + m) := by
      rw [List.length_cons, Nat.succ_mul]
      omega
    rw [hcount, places_size_add hsize, ih hrest, List.flatMap_cons, List.append_assoc]

theorem release_of_seg (h : Seg link node holds a full c) (hpos : 0 < m) (hm : m ≤ size)
    (hfuel : full.length < fuel) :
    release link size fuel a (full.length * size + m) = full.map node ++ [c] := by
  induction full generalizing a fuel with
  | nil =>
    obtain rfl : a = c := h
    obtain ⟨k, rfl⟩ := Nat.exists_eq_add_one_of_ne_zero hfuel.ne'
    have hend : release link size k (link a) 0 = [] := by cases k <;> rfl
    rw [List.length_nil, Nat.zero_mul, Nat.zero_add, release, if_neg hpos.ne',
      if_neg (not_lt.mpr hm), hend]
    rfl
  | cons b full ih =>
    obtain ⟨rfl, -, hrest⟩ := h
    obtain ⟨k, rfl⟩ := Nat.exists_eq_add_one_of_ne_zero (Nat.ne_zero_of_lt hfuel)
    have hcount : (b :: full).length * size + m = size + (full.length * size + m) := by
      rw [List.length_cons, Nat.succ_mul]
      omega
    have hmore : size < size + (full.length * size + m) := by omega
    rw [hcount, release, if_neg (by omega), if_pos hmore, Nat.add_sub_cancel_left,
      ih hrest (Nat.lt_of_succ_lt_succ hfuel)]
    rfl

/-- What the slots of a chunk hold, read in order. -/
theorem map_slots {γ : Type*} {read : α × ℕ → γ} {l : List γ}
    (h : ∀ j x, l[j]? = some x → read (c, j) = x) : (slots c l.length).map read = l := by
  apply List.ext_getElem?
  intro j
  by_cases hj : j < l.length
  · have hread := h j l[j] (List.getElem?_eq_getElem hj)
    simp [slots, hj, hread]
  · simp [slots, hj]

end Walk

end UnrolledList
