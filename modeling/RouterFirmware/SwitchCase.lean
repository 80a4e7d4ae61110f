import Mathlib.Data.List.Nodup

/-! # Switches

The cases of a switch in the order of the text. Execution begins at the case with the label and
goes on into the next case unless there is a `break`.
-/
namespace SwitchCase

variable {κ σ : Type*}

structure Case (κ σ : Type*) where
  label : κ
  body : σ → σ
  breaks : Bool

/-- From the first of the cases on, until one breaks. -/
def fallThrough : List (Case κ σ) → σ → σ
  | [], s => s
  | c :: cs, s => if c.breaks then c.body s else fallThrough cs (c.body s)

/-- A switch without a default case. -/
def switch [DecidableEq κ] (k : κ) : List (Case κ σ) → σ → σ
  | [], s => s
  | c :: cs, s => if c.label = k then fallThrough (c :: cs) s else switch k cs s

variable {c d : Case κ σ} {before after : List (Case κ σ)}

theorem fallThrough_of_break (h : c.breaks = true) (s : σ) :
    fallThrough (c :: after) s = c.body s := by
  rw [fallThrough, if_pos h]

theorem fallThrough_of_no_break (h : c.breaks = false) (s : σ) :
    fallThrough (c :: after) s = fallThrough after (c.body s) := by
  rw [fallThrough, if_neg (by simp [h])]

variable [DecidableEq κ]

theorem switch_append (h : ∀ b ∈ before, b.label ≠ c.label) (s : σ) :
    switch c.label (before ++ c :: after) s = fallThrough (c :: after) s := by
  induction before with
  | nil => exact if_pos rfl
  | cons b before ih =>
    have hb : b.label ≠ c.label := h b (by simp)
    rw [List.cons_append, switch, if_neg hb]
    exact ih fun b' hb' => h b' (List.mem_cons_of_mem b hb')

/-- A case that breaks is its body, wherever it stands. -/
theorem switch_of_mem {cs : List (Case κ σ)} (hnodup : (cs.map Case.label).Nodup) (hmem : c ∈ cs)
    (hc : c.breaks = true) (s : σ) : switch c.label cs s = c.body s := by
  obtain ⟨before, after, rfl⟩ := List.append_of_mem hmem
  rw [switch_append _ s, fallThrough_of_break hc]
  intro b hb heq
  rw [List.map_append, List.nodup_append] at hnodup
  exact hnodup.2.2 _ (List.mem_map_of_mem hb) c.label (by simp) heq

/-- A case that does not break is its body and the next case. -/
theorem switch_of_no_break (h : ∀ b ∈ before, b.label ≠ c.label) (hc : c.breaks = false)
    (hd : d.breaks = true) (s : σ) :
    switch c.label (before ++ c :: d :: after) s = d.body (c.body s) := by
  rw [switch_append h, fallThrough_of_no_break hc, fallThrough_of_break hd]

end SwitchCase
