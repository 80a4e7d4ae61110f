import Mathlib.Data.List.Basic
import Mathlib.Data.Nat.Notation
import Mathlib.Tactic.Common

/-! # Lines that end with CR LF

A stream of lines each with CR LF behind it, where no line has CR LF in it. The first CR LF of a
stream is the end of its first line.
-/
namespace CrLfLines

def cr : UInt8 := 13

def lf : UInt8 := 10

def Unbroken (w : List UInt8) : Prop := ¬ [cr, lf] <:+: w

instance (w : List UInt8) : Decidable (Unbroken w) := inferInstanceAs (Decidable (¬ _))

def encode (lines : List (List UInt8)) : List UInt8 := lines.flatMap fun l => l ++ [cr, lf]

section Lines

variable {l d w u x y : List UInt8} {c : UInt8} {lines ls ls' : List (List UInt8)}

@[simp] theorem encode_nil : encode [] = [] := rfl

@[simp] theorem encode_cons : encode (l :: ls) = l ++ cr :: lf :: encode ls := by
  simp [encode]

theorem unbroken_nil : Unbroken [] :=
  fun h => List.cons_ne_nil _ _ (List.infix_nil.mp h)

theorem unbroken_snoc (h : Unbroken w) (hend : ¬ ([cr] <:+ w ∧ c = lf)) : Unbroken (w ++ [c]) := by
  intro hbroken
  obtain hsuffix | hinfix := List.infix_concat_iff.mp hbroken
  · obtain hnil | ⟨t, ht, hw⟩ := List.suffix_concat_iff.mp hsuffix
    · cases hnil
    · obtain ⟨rfl, hc⟩ := List.append_inj' (show [cr] ++ [lf] = t ++ [c] from ht) rfl
      exact hend ⟨hw, (List.cons.inj hc).1.symm⟩
  · exact h hinfix

/-- What is read of a stream without a break does not go beyond the CR behind the first line. -/
theorem length_le (h : Unbroken w) (heq : w ++ u = l ++ [cr, lf] ++ x) :
    w.length ≤ l.length + 1 := by
  by_contra hgt
  have hbegin : l ++ [cr, lf] <+: w ++ u := ⟨x, heq.symm⟩
  have hline : l ++ [cr, lf] <+: w := by
    apply List.prefix_of_prefix_length_le hbegin (List.prefix_append w u)
    simp only [List.length_append, List.length_cons, List.length_nil]
    omega
  obtain ⟨t, rfl⟩ := hline
  exact h ⟨l, t, rfl⟩

theorem unbroken_cr (h : Unbroken w) : Unbroken (w ++ [cr]) :=
  unbroken_snoc h fun hend => absurd hend.2 (by decide)

/-- The first CR LF cuts a stream in one way only. -/
theorem line_inj (hl : Unbroken l) (hd : Unbroken d)
    (heq : l ++ [cr, lf] ++ x = d ++ [cr, lf] ++ y) : l = d ∧ x = y := by
  have hle : l.length + 1 ≤ d.length + 1 := by
    simpa using length_le (u := lf :: x) (unbroken_cr hl) (by simpa using heq)
  have hge : d.length + 1 ≤ l.length + 1 := by
    simpa using length_le (u := lf :: y) (unbroken_cr hd) (by simpa using heq.symm)
  have hlen : (l ++ [cr, lf]).length = (d ++ [cr, lf]).length := by
    simp only [List.length_append]
    omega
  obtain ⟨hline, hrest⟩ := List.append_inj heq hlen
  exact ⟨List.append_cancel_right hline, hrest⟩

/-- Inside a line what is left of a stream is no stream of its last lines. -/
theorem encode_ne_of_lt (hls : l :: ls <:+ lines) (hls' : ls' <:+ lines) (hw : w ≠ [])
    (hlt : w.length < l.length + 2) : w ++ encode ls ≠ encode ls' := by
  intro heq
  have hlen : w.length + (encode ls).length = (encode ls').length := by
    rw [← List.length_append, heq]
  have hpos : 0 < w.length := List.length_pos_iff.mpr hw
  obtain hle | hgt := Nat.lt_or_ge ls.length ls'.length
  · obtain ⟨t, ht⟩ := List.suffix_of_suffix_length_le hls hls' hle
    have hsum : (encode t).length + (encode (l :: ls)).length = (encode ls').length := by
      rw [← List.length_append, ← ht]
      simp [encode]
    simp only [encode_cons, List.length_append, List.length_cons] at hsum
    omega
  · obtain ⟨t, ht⟩ := List.suffix_of_suffix_length_le hls' ((List.suffix_cons l ls).trans hls) hgt
    have hsum : (encode t).length + (encode ls').length = (encode ls).length := by
      rw [← List.length_append, ← ht]
      simp [encode]
    omega

end Lines

/-! ## A pattern in the lines -/

/-- What is behind the first place of the pattern. -/
def behind (pattern : List UInt8) : List UInt8 → Option (List UInt8)
  | [] => none
  | c :: t =>
    if pattern.isPrefixOf (c :: t) then some ((c :: t).drop pattern.length) else behind pattern t

/-- What is behind it in the first line that has the pattern. -/
def lookup (pattern : List UInt8) (lines : List (List UInt8)) : Option (List UInt8) :=
  lines.findSome? (behind pattern)

def Plain (l : List UInt8) : Prop := cr ∉ l ∧ lf ∉ l

instance (l : List UInt8) : Decidable (Plain l) := inferInstanceAs (Decidable (_ ∧ _))

section Search

variable {pattern l t u : List UInt8} {lines : List (List UInt8)} {c : UInt8}

/-- A pattern without CR does not go beyond the end of a line. -/
theorem isPrefixOf_append_cr (hpattern : cr ∉ pattern) (l u : List UInt8) :
    pattern.isPrefixOf (l ++ cr :: u) = pattern.isPrefixOf l := by
  induction pattern generalizing l with
  | nil => simp
  | cons d pattern ih =>
    rw [List.mem_cons, not_or] at hpattern
    cases l with
    | nil => simp [List.isPrefixOf, Ne.symm hpattern.1]
    | cons c l => simp [List.isPrefixOf, ih hpattern.2 l]

theorem behind_suffix (h : behind pattern l = some t) : t <:+ l := by
  induction l with
  | nil => cases h
  | cons c l ih =>
    rw [behind] at h
    split at h
    · obtain rfl := Option.some.inj h
      exact List.drop_suffix _ _
    · exact (ih h).trans (List.suffix_cons c l)

theorem plain_of_behind (hl : Plain l) (h : behind pattern l = some t) : Plain t :=
  ⟨fun hmem => hl.1 ((behind_suffix h).subset hmem),
    fun hmem => hl.2 ((behind_suffix h).subset hmem)⟩

theorem plain_of_lookup (hlines : ∀ l ∈ lines, Plain l) (h : lookup pattern lines = some t) :
    Plain t := by
  obtain ⟨l, hl, hbehind⟩ := List.exists_of_findSome?_eq_some h
  exact plain_of_behind (hlines l hl) hbehind

end Search

end CrLfLines
