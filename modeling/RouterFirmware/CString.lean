import Mathlib.Data.List.Basic
import Mathlib.Data.List.TakeWhile
import Mathlib.Data.Nat.Notation
import Mathlib.Tactic.Common

/-! # Scanning a C string by index

A string is its characters with a NUL behind them; an index behind the NUL is outside. Copying
loops write to a buffer of a given size, which has to hold the NUL they put at the end, too.
-/
namespace CString

inductive Fault where
  | readPastEnd
  | writePastEnd
  deriving DecidableEq

/-- A pointer to an object that is still there, or to one that is gone. -/
inductive Address (α : Type) where
  | live (object : α)
  | dangling
  deriving DecidableEq

/-- What can be read through a pointer. -/
def Address.read {α : Type} : Address α → Option α
  | .live object => some object
  | .dangling => none

/-- The address of a local variable, once its function has returned it. -/
def Address.ofLocal {α : Type} (_object : α) : Address α := .dangling

@[simp] theorem Address.read_ofLocal {α : Type} (object : α) : (ofLocal object).read = none := rfl

/-- `s[i]` -/
def charAt (s : List Char) (i : ℕ) : Option Char := (s ++ ['\x00'])[i]?

theorem lt_of_charAt {s : List Char} {i : ℕ} {c : Char} (h : charAt s i = some c) :
    i < s.length + 1 := by
  obtain ⟨hi, -⟩ := List.getElem?_eq_some_iff.mp h
  simpa using hi

/-- `while (!stop(s[i])) i++;` -/
def seek (stop : Char → Bool) (s : List Char) (i : ℕ) : Except Fault ℕ :=
  match _h : charAt s i with
  | none => .error .readPastEnd
  | some c => if stop c then .ok i else seek stop s (i + 1)
termination_by s.length + 1 - i
decreasing_by
  have hi := lt_of_charAt _h
  omega

/-- `while (!stop(s[i])) buf[j++] = s[i++]; buf[j] = '\0';` -/
def copyUntil (size : ℕ) (stop : Char → Bool) (s : List Char) (i : ℕ) (buf : List Char) :
    Except Fault (ℕ × List Char) :=
  match _h : charAt s i with
  | none => .error .readPastEnd
  | some c =>
    if size ≤ buf.length then .error .writePastEnd
    else if stop c then .ok (i, buf)
    else copyUntil size stop s (i + 1) (buf ++ [c])
termination_by s.length + 1 - i
decreasing_by
  have hi := lt_of_charAt _h
  omega

section Scan

variable {stop : Char → Bool} {size : ℕ} {s pre rest buf : List Char} {i : ℕ} {c : Char}

theorem charAt_append (pre : List Char) (c : Char) (rest : List Char) :
    charAt (pre ++ c :: rest) pre.length = some c := by
  simp [charAt]

theorem charAt_length (s : List Char) : charAt s s.length = some '\x00' := by
  simp [charAt]

theorem charAt_behind (s : List Char) : charAt s (s.length + 1) = none := by
  simp [charAt]

theorem seek_eq (stop : Char → Bool) (s : List Char) (i : ℕ) :
    seek stop s i = (charAt s i).elim (.error .readPastEnd) fun c =>
      if stop c then .ok i else seek stop s (i + 1) := by
  rw [seek]
  split
  · next hnone => rw [hnone, Option.elim_none]
  · next c hc => rw [hc, Option.elim_some]

theorem seek_of_charAt (h : charAt s i = some c) :
    seek stop s i = if stop c then .ok i else seek stop s (i + 1) := by
  rw [seek_eq, h, Option.elim_some]

theorem seek_behind (s : List Char) : seek stop s (s.length + 1) = .error .readPastEnd := by
  rw [seek_eq, charAt_behind, Option.elim_none]

theorem copyUntil_eq (size : ℕ) (stop : Char → Bool) (s : List Char) (i : ℕ) (buf : List Char) :
    copyUntil size stop s i buf = (charAt s i).elim (.error .readPastEnd) fun c =>
      if size ≤ buf.length then .error .writePastEnd
      else if stop c then .ok (i, buf) else copyUntil size stop s (i + 1) (buf ++ [c]) := by
  rw [copyUntil]
  split
  · next hnone => rw [hnone, Option.elim_none]
  · next c hc => rw [hc, Option.elim_some]

theorem copyUntil_of_charAt (h : charAt s i = some c) :
    copyUntil size stop s i buf = if size ≤ buf.length then .error .writePastEnd
      else if stop c then .ok (i, buf) else copyUntil size stop s (i + 1) (buf ++ [c]) := by
  rw [copyUntil_eq, h, Option.elim_some]

theorem copyUntil_behind (s : List Char) :
    copyUntil size stop s (s.length + 1) buf = .error .readPastEnd := by
  rw [copyUntil_eq, charAt_behind, Option.elim_none]

/-- `w` is what stands in front of the first stop of `t`. -/
def FirstStop (stop : Char → Bool) (t w : List Char) : Prop :=
  (∀ c ∈ w, stop c = false) ∧ ∃ d u, t = w ++ d :: u ∧ stop d = true

theorem firstStop_nil (w : List Char) : ¬ FirstStop stop [] w := by
  intro h
  obtain ⟨-, d, u, htext, -⟩ := h
  simp at htext

theorem firstStop_cons {t w : List Char} : FirstStop stop (c :: t) w ↔
    (stop c = true ∧ w = []) ∨ (stop c = false ∧ ∃ v, w = c :: v ∧ FirstStop stop t v) := by
  constructor
  · intro h
    obtain ⟨hw, d, u, htext, hd⟩ := h
    cases w with
    | nil =>
      obtain ⟨rfl, -⟩ := List.cons.inj htext
      exact .inl ⟨hd, rfl⟩
    | cons e v =>
      obtain ⟨rfl, hrest⟩ := List.cons.inj htext
      rw [List.forall_mem_cons] at hw
      exact .inr ⟨hw.1, v, rfl, hw.2, d, u, hrest, hd⟩
  · intro h
    rcases h with ⟨hc, rfl⟩ | ⟨hc, v, rfl, hv, d, u, rfl, hd⟩
    · exact ⟨by simp, c, t, rfl, hc⟩
    · exact ⟨List.forall_mem_cons.mpr ⟨hc, hv⟩, d, u, rfl, hd⟩

/-- The search ends at the first stop, which may be the NUL. -/
theorem seek_eq_ok_iff {j : ℕ} : seek stop (pre ++ rest) pre.length = .ok j ↔
    ∃ w, FirstStop stop (rest ++ ['\x00']) w ∧ j = pre.length + w.length := by
  induction rest generalizing pre with
  | nil =>
    rw [List.append_nil, List.nil_append, seek_of_charAt (charAt_length pre), seek_behind]
    by_cases hstop : stop '\x00' = true
    · simp [firstStop_cons, hstop, eq_comm]
    · simp [firstStop_cons, hstop, firstStop_nil]
  | cons c rest ih =>
    have hstep := @ih (pre ++ [c])
    rw [List.append_assoc, List.singleton_append, List.length_append, List.length_singleton]
      at hstep
    rw [seek_of_charAt (charAt_append pre c rest), List.cons_append]
    by_cases hstop : stop c = true
    · simp [firstStop_cons, hstop, eq_comm]
    · rw [if_neg hstop, hstep]
      constructor
      · intro h
        obtain ⟨v, hv, rfl⟩ := h
        exact ⟨c :: v, firstStop_cons.mpr (.inr ⟨by simpa using hstop, v, rfl, hv⟩),
          by simp; omega⟩
      · intro h
        obtain ⟨w, hw, rfl⟩ := h
        rcases firstStop_cons.mp hw with ⟨hc, -⟩ | ⟨-, v, rfl, hv⟩
        · exact absurd hc hstop
        · exact ⟨v, hv, by simp; omega⟩

/-- The copy reaches the first stop, which may be the NUL, and fits. -/
theorem copyUntil_eq_ok_iff {r : ℕ × List Char} :
    copyUntil size stop (pre ++ rest) pre.length buf = .ok r ↔
      ∃ w, FirstStop stop (rest ++ ['\x00']) w ∧ buf.length + w.length < size ∧
        r = (pre.length + w.length, buf ++ w) := by
  have hfull : ∀ {t b : List Char} {n : ℕ}, size ≤ b.length →
      ¬ ∃ w, FirstStop stop t w ∧ b.length + w.length < size ∧ r = (n + w.length, b ++ w) := by
    intro t b n hsize h
    obtain ⟨w, -, hlen, -⟩ := h
    omega
  induction rest generalizing pre buf with
  | nil =>
    rw [List.append_nil, List.nil_append, copyUntil_of_charAt (charAt_length pre),
      copyUntil_behind]
    by_cases hsize : size ≤ buf.length
    · rw [if_pos hsize]
      exact iff_of_false (by simp) (hfull hsize)
    · by_cases hstop : stop '\x00' = true
      · simp [hsize, firstStop_cons, hstop, eq_comm, not_le.mp hsize]
      · simp [hsize, firstStop_cons, hstop, firstStop_nil]
  | cons c rest ih =>
    have hstep := @ih (pre ++ [c]) (buf ++ [c])
    rw [List.append_assoc, List.singleton_append, List.length_append, List.length_singleton,
      List.length_append, List.length_singleton] at hstep
    rw [copyUntil_of_charAt (charAt_append pre c rest), List.cons_append]
    by_cases hsize : size ≤ buf.length
    · rw [if_pos hsize]
      exact iff_of_false (by simp) (hfull hsize)
    · rw [if_neg hsize]
      by_cases hstop : stop c = true
      · simp [firstStop_cons, hstop, eq_comm, not_le.mp hsize]
      · rw [if_neg hstop]
        refine hstep.trans ?_
        constructor
        · intro h
          obtain ⟨v, hv, hlen, rfl⟩ := h
          refine ⟨c :: v, firstStop_cons.mpr (.inr ⟨by simpa using hstop, v, rfl, hv⟩), ?_, ?_⟩
          · rw [List.length_cons]
            omega
          · simp [Nat.add_assoc, Nat.add_comm 1]
        · intro h
          obtain ⟨w, hw, hlen, rfl⟩ := h
          rcases firstStop_cons.mp hw with ⟨hc, -⟩ | ⟨-, v, rfl, hv⟩
          · exact absurd hc hstop
          · rw [List.length_cons] at hlen
            exact ⟨v, hv, by omega, by simp [Nat.add_assoc, Nat.add_comm 1]⟩

theorem eq_of_firstStop {t w : List Char} (h : FirstStop stop t w) :
    (∃ c ∈ t, stop c = true) ∧ w = t.takeWhile (!stop ·) := by
  obtain ⟨hw, d, u, rfl, hd⟩ := h
  refine ⟨⟨d, by simp, hd⟩, ?_⟩
  rw [List.takeWhile_append_of_pos (by simpa using hw)]
  simp [hd]

/-- `ch` is met at the end of `w`, and the copy of `w` fits. -/
theorem copyUntil_char {ch : Char} {w : List Char} (hw : ch ∉ w) (hlen : w.length < size)
    (pre u : List Char) : copyUntil size (· == ch) (pre ++ (w ++ ch :: u)) pre.length [] =
      .ok (pre.length + w.length, w) := by
  refine copyUntil_eq_ok_iff.mpr ⟨w, ⟨?_, ch, u ++ ['\x00'], by simp, by simp⟩, by simpa using hlen,
    rfl⟩
  intro c hc
  rw [beq_eq_false_iff_ne]
  intro he
  exact hw (he ▸ hc)

theorem firstStop_nul (h : stop '\x00' = true) (t : List Char) :
    FirstStop stop (t ++ ['\x00']) (t.takeWhile (!stop ·)) := by
  induction t with
  | nil => exact firstStop_cons.mpr (.inl ⟨h, rfl⟩)
  | cons c t ih =>
    rw [List.cons_append, firstStop_cons]
    by_cases hc : stop c = true
    · exact .inl ⟨hc, by simp [hc]⟩
    · exact .inr ⟨by simpa using hc, _, by simp [hc], ih⟩

theorem seek_nul (stop : Char → Bool) (h : stop '\x00' = true) (pre rest : List Char) :
    seek stop (pre ++ rest) pre.length = .ok (pre.length + (rest.takeWhile (!stop ·)).length) :=
  seek_eq_ok_iff.mpr ⟨_, firstStop_nul h rest, rfl⟩

theorem copyUntil_nul (stop : Char → Bool) (h : stop '\x00' = true)
    (hlen : (rest.takeWhile (!stop ·)).length < size) (pre : List Char) :
    copyUntil size stop (pre ++ rest) pre.length [] =
      .ok (pre.length + (rest.takeWhile (!stop ·)).length, rest.takeWhile (!stop ·)) :=
  copyUntil_eq_ok_iff.mpr ⟨_, firstStop_nul h rest, by simpa using hlen, rfl⟩

theorem takeWhile_nul (hrest : '\x00' ∉ rest) :
    rest.takeWhile (fun c => !(c == '\x00')) = rest := by
  rw [List.takeWhile_eq_self_iff]
  intro c hc
  rw [Bool.not_eq_true', beq_eq_false_iff_ne]
  intro he
  exact hrest (he ▸ hc)

theorem copyUntil_end (hrest : '\x00' ∉ rest) (hlen : rest.length < size) (pre : List Char) :
    copyUntil size (· == '\x00') (pre ++ rest) pre.length [] =
      .ok (pre.length + rest.length, rest) := by
  have hall := takeWhile_nul hrest
  have hcopy := copyUntil_nul (· == '\x00') (by simp) (hall.symm ▸ hlen) pre
  rwa [hall] at hcopy

/-- A copy goes wrong when its stop does not come, or comes too late. -/
theorem copyUntil_error (h : (∃ c ∈ rest ++ ['\x00'], stop c = true) →
      size ≤ ((rest ++ ['\x00']).takeWhile (!stop ·)).length) (pre : List Char) :
    ∃ f, copyUntil size stop (pre ++ rest) pre.length [] = .error f := by
  cases hcopy : copyUntil size stop (pre ++ rest) pre.length [] with
  | error f => exact ⟨f, rfl⟩
  | ok r =>
    obtain ⟨w, hw, hlen, -⟩ := copyUntil_eq_ok_iff.mp hcopy
    obtain ⟨hstop, rfl⟩ := eq_of_firstStop hw
    have hsize := h hstop
    rw [List.length_nil] at hlen
    omega

theorem copyUntil_nul_error (stop : Char → Bool) (h : stop '\x00' = true)
    (hlen : size ≤ (rest.takeWhile (!stop ·)).length) (pre : List Char) :
    ∃ f, copyUntil size stop (pre ++ rest) pre.length [] = .error f := by
  refine copyUntil_error ?_ pre
  intro _
  rw [← (eq_of_firstStop (firstStop_nul h rest)).2]
  exact hlen

theorem seek_char {ch : Char} {w : List Char} (hw : ch ∉ w) (u : List Char) :
    seek (· == ch) (w ++ ch :: u) 0 = .ok w.length := by
  have hstop : FirstStop (· == ch) ((w ++ ch :: u) ++ ['\x00']) w := by
    refine ⟨?_, ch, u ++ ['\x00'], by simp, by simp⟩
    intro c hc
    rw [beq_eq_false_iff_ne]
    intro he
    exact hw (he ▸ hc)
  have hseek := (@seek_eq_ok_iff (· == ch) [] (w ++ ch :: u) w.length).mpr
    ⟨w, hstop, by simp⟩
  exact hseek

theorem seek_missing {ch : Char} (hch : ch ≠ '\x00') (h : ch ∉ s) :
    ∃ f, seek (· == ch) s 0 = .error f := by
  cases hseek : seek (· == ch) s 0 with
  | error f => exact ⟨f, rfl⟩
  | ok j =>
    obtain ⟨w, hw, -⟩ := (@seek_eq_ok_iff (· == ch) [] s j).mp hseek
    obtain ⟨⟨c, hc, he⟩, -⟩ := eq_of_firstStop hw
    rw [beq_iff_eq] at he
    subst he
    rcases List.mem_append.mp hc with hc | hc
    · exact absurd hc h
    · exact absurd (List.mem_singleton.mp hc) hch

end Scan

/-- `strstr`: the text in front of the first place where `pat` stands, and the text from there. -/
def strstr (pat : List Char) : List Char → Option (List Char × List Char)
  | [] => if pat.isPrefixOf [] then some ([], []) else none
  | c :: t => if pat.isPrefixOf (c :: t) then some ([], c :: t)
    else (strstr pat t).map fun p => (c :: p.1, p.2)

section Search

variable {pat s a b : List Char} {c : Char}

theorem strstr_nil (pat : List Char) :
    strstr pat [] = if pat.isPrefixOf [] then some ([], []) else none := rfl

theorem strstr_cons (pat : List Char) (c : Char) (t : List Char) :
    strstr pat (c :: t) = if pat.isPrefixOf (c :: t) then some ([], c :: t)
      else (strstr pat t).map fun p => (c :: p.1, p.2) := rfl

theorem strstr_spec (h : strstr pat s = some (a, b)) : s = a ++ b ∧ pat <+: b := by
  induction s generalizing a with
  | nil =>
    rw [strstr_nil] at h
    split at h
    · next hp =>
      rw [Option.some.injEq, Prod.mk.injEq] at h
      obtain ⟨rfl, rfl⟩ := h
      exact ⟨rfl, List.isPrefixOf_iff_prefix.mp hp⟩
    · cases h
  | cons c t ih =>
    rw [strstr_cons] at h
    split at h
    · next hp =>
      rw [Option.some.injEq, Prod.mk.injEq] at h
      obtain ⟨rfl, rfl⟩ := h
      exact ⟨rfl, List.isPrefixOf_iff_prefix.mp hp⟩
    · rw [Option.map_eq_some_iff] at h
      obtain ⟨⟨u, v⟩, huv, hp⟩ := h
      rw [Prod.mk.injEq] at hp
      obtain ⟨rfl, rfl⟩ := hp
      obtain ⟨rfl, hstart⟩ := ih huv
      exact ⟨rfl, hstart⟩

theorem strstr_none_of_append {w : List Char} (h : strstr pat (w ++ s) = none) :
    strstr pat s = none := by
  induction w with
  | nil => exact h
  | cons c w ih =>
    rw [List.cons_append, strstr_cons] at h
    split at h
    · cases h
    · exact ih (Option.map_eq_none_iff.mp h)

theorem strstr_at_start (h : pat <+: s) : strstr pat s = some ([], s) := by
  cases s with
  | nil => rw [strstr_nil, if_pos (List.isPrefixOf_iff_prefix.mpr h)]
  | cons c t => rw [strstr_cons, if_pos (List.isPrefixOf_iff_prefix.mpr h)]

/-- The first place does not depend on what stands behind the text. -/
theorem strstr_append_right (h : strstr pat s = some (a, b)) (t : List Char) :
    strstr pat (s ++ t) = some (a, b ++ t) := by
  have hstart : ∀ {u : List Char}, strstr pat u ≠ none →
      pat.isPrefixOf (u ++ t) = pat.isPrefixOf u := by
    intro u hu
    obtain ⟨⟨x, y⟩, hxy⟩ := Option.ne_none_iff_exists'.mp hu
    obtain ⟨rfl, hy⟩ := strstr_spec hxy
    rw [Bool.eq_iff_iff, List.isPrefixOf_iff_prefix, List.isPrefixOf_iff_prefix]
    refine ⟨fun hp => ?_, fun hp => hp.trans (List.prefix_append _ t)⟩
    refine List.prefix_of_prefix_length_le hp (List.prefix_append _ t) ?_
    exact hy.length_le.trans (List.suffix_append x y).length_le
  induction s generalizing a with
  | nil =>
    obtain ⟨hs, hpat⟩ := strstr_spec h
    obtain ⟨rfl, rfl⟩ := List.append_eq_nil_iff.mp hs.symm
    exact strstr_at_start (hpat.trans (List.prefix_append [] t))
  | cons c s ih =>
    have hcons := hstart (u := c :: s) (by simp [h])
    rw [List.cons_append] at hcons ⊢
    rw [strstr_cons] at h ⊢
    rw [hcons]
    split at h
    · next hp =>
      cases h
      rw [if_pos hp]
      rfl
    · next hp =>
      obtain ⟨r, hr, hpair⟩ := Option.map_eq_some_iff.mp h
      cases hpair
      rw [if_neg hp, ih hr]
      rfl

theorem suffix_of_strstr {u v : List Char} (h : strstr pat (u ++ v) = some (a, b))
    (hv : pat <+: v) : v <:+ b := by
  induction u generalizing a with
  | nil =>
    rw [List.nil_append, strstr_at_start hv] at h
    cases h
    exact List.suffix_refl _
  | cons c u ih =>
    rw [List.cons_append, strstr_cons] at h
    split at h
    · cases h
      exact List.suffix_append (c :: u) v
    · obtain ⟨r, hr, hpair⟩ := Option.map_eq_some_iff.mp h
      cases hpair
      exact ih hr

theorem exists_strstr {u v : List Char} (hv : pat <+: v) :
    ∃ r, strstr pat (u ++ v) = some r := by
  cases h : strstr pat (u ++ v) with
  | none =>
    have hnone := strstr_none_of_append h
    rw [strstr_at_start hv] at hnone
    cases hnone
  | some r => exact ⟨r, rfl⟩

/-- A text without `c` at the start of one with it does not reach the `c`. -/
theorem prefix_append_cons (h : c ∉ pat) : pat <+: a ++ c :: b ↔ pat <+: a := by
  constructor
  · intro hp
    rcases List.prefix_or_prefix_of_prefix hp (List.prefix_append a (c :: b)) with hpa | hap
    · exact hpa
    · obtain ⟨u, rfl⟩ := hap
      rw [List.prefix_append_right_inj] at hp
      cases u with
      | nil => simp
      | cons d u =>
        rw [List.cons_prefix_cons] at hp
        exact absurd (by simp [hp.1]) h
  · intro hp
    exact hp.trans (List.prefix_append _ _)

/-- A search over a separator that the pattern does not have is one on the left of it, and then one
on the right. -/
theorem strstr_append (hne : pat ≠ []) (hc : c ∉ pat) (a b : List Char) :
    strstr pat (a ++ c :: b) =
      ((strstr pat a).map fun p => (p.1, p.2 ++ c :: b)).or
        ((strstr pat b).map fun p => (a ++ c :: p.1, p.2)) := by
  induction a with
  | nil =>
    have hnil : ¬ pat.isPrefixOf [] = true := by
      rw [List.isPrefixOf_iff_prefix, List.prefix_nil]
      exact hne
    have hcons : ¬ pat.isPrefixOf (c :: b) = true := by
      rw [List.isPrefixOf_iff_prefix, ← List.nil_append (c :: b), prefix_append_cons hc,
        List.prefix_nil]
      exact hne
    have hempty : strstr pat [] = none := by rw [strstr_nil, if_neg hnil]
    have hstep : strstr pat (c :: b) = (strstr pat b).map fun p => (c :: p.1, p.2) := by
      rw [strstr_cons, if_neg hcons]
    rw [List.nil_append, hstep, hempty]
    rfl
  | cons d a ih =>
    have hstart : pat.isPrefixOf (d :: (a ++ c :: b)) = pat.isPrefixOf (d :: a) := by
      rw [Bool.eq_iff_iff, List.isPrefixOf_iff_prefix, List.isPrefixOf_iff_prefix,
        ← List.cons_append, prefix_append_cons hc]
    rw [List.cons_append, strstr_cons, strstr_cons, hstart, ih]
    by_cases hp : pat.isPrefixOf (d :: a) = true
    · rw [if_pos hp, if_pos hp]
      rfl
    · rw [if_neg hp, if_neg hp]
      cases strstr pat a <;> cases strstr pat b <;> rfl

end Search

end CString
