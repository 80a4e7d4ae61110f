import RouterFirmware.ConfigWrite
import RouterFirmware.LoopRun

/-! # Reads at the end of a file

The loops of `insert_item` and `remove_item`, character by character: a failed `fread` sets the
end-of-file mark and leaves the last character in the buffer. The loops over the old line look
at the buffer only.
-/
namespace ConfigReads

open TextStream ConfigScan ConfigEdit ConfigWrite LoopRun

/-- A file handle, with the one-character buffer it is read into. -/
structure Handle where
  tmp : Char
  ahead : Text
  eof : Bool

/-- `fread(tmp, sizeof(char), 1, handle)` -/
def Handle.fread (h : Handle) : Handle :=
  match h.ahead with
  | [] => { h with eof := true }
  | c :: t => { h with tmp := c, ahead := t }

/-! ## The loops -/

structure Skip where
  needDouble : ℕ
  pre : ℕ
  behind : ℕ
  handle : Handle

/-- One turn of the loop of `insert_item` over the old value. -/
def skipTurn (s : Skip) : Skip ⊕ Handle :=
  let h := s.handle.fread
  let needDouble := if h.tmp = '"' then s.needDouble + 1 else s.needDouble
  let behind := if h.tmp = '"' then (if s.pre = 1 then 1 else s.behind) else 0
  let pre := if h.tmp = '"' then (if behind = 0 then 1 else s.pre) else 0
  if (needDouble = 0 ∨ needDouble = 2 ∨ (needDouble % 2 = 0 ∧ needDouble > 2) ∨
      (behind = 1 ∧ pre = 1)) ∧ h.tmp = '\n' then .inr h
  else .inl ⟨needDouble, pre, behind, h⟩

/-- One turn of the loop of `remove_item` over the line. -/
def lineTurn (h : Handle) : Handle ⊕ Handle :=
  if h.fread.tmp = '\n' then .inr h.fread else .inl h.fread

structure Copy where
  newline : Char
  handle : Handle
  out : Text

/-- One turn of `while (!feof(handle))`. -/
def copyTurn (bracket : Bool) (s : Copy) : Copy ⊕ Text :=
  if s.handle.eof then .inr s.out
  else .inl ⟨s.handle.fread.tmp, s.handle.fread,
    s.out ++ copyChar bracket s.newline s.handle.fread.tmp⟩

/-- `insert_item` with the flag, after the item is written: at most `fuel` turns of each loop. -/
def insertReads (fuel : ℕ) (text rest item : Text) : Option Text :=
  (loop skipTurn fuel ⟨0, 0, 0, ⟨'\n', rest, false⟩⟩).bind fun h =>
    loop (copyTurn false) fuel ⟨h.tmp, h, consumed text rest ++ item⟩

/-- `remove_item`, with what the buffer holds when the position is reached. -/
def removeReads (fuel : ℕ) (tmp : Char) (text rest : Text) : Option Text :=
  (loop lineTurn fuel ⟨tmp, rest, false⟩).bind fun h =>
    loop (copyTurn true) fuel ⟨'\x00', h, consumed text rest⟩

variable {n pre behind : ℕ} {tmp newline : Char} {eof bracket : Bool} {r text item out : Text}
  {h : Handle}

/-! ## Where they end -/

/-- At the end of the file the loop over the old value goes on for ever, unless a newline is in
the buffer and the quotes are even. -/
theorem skip_stuck (hstuck : tmp ≠ '\n' ∨ n % 2 = 1) :
    ¬ Finishes skipTurn ⟨n, pre, behind, ⟨tmp, [], eof⟩⟩ h := by
  apply not_finishes fun s => s.handle.ahead = [] ∧ (s.handle.tmp ≠ '\n' ∨ s.needDouble % 2 = 1)
  · intro s hs
    obtain ⟨n, pre, behind, ⟨c, t, e⟩⟩ := s
    obtain ⟨rfl, hs⟩ := hs
    by_cases hc : c = '\n'
    · subst hc
      have hodd : n % 2 = 1 := by simpa using hs
      have hgo : ¬ (n = 0 ∨ n = 2 ∨ n % 2 = 0 ∧ n > 2) := by omega
      refine ⟨⟨n, 0, 0, ⟨'\n', [], true⟩⟩, ?_, rfl, Or.inr hodd⟩
      simpa [skipTurn, Handle.fread] using hgo
    · refine ⟨_, if_neg fun hleave => hc hleave.2, rfl, Or.inl hc⟩
  · exact ⟨rfl, hstuck⟩

/-- The loop over the old value ends where `skipValue` says. -/
theorem skip_finishes_iff (hr : r = [] → tmp ≠ '\n' ∨ n % 2 = 1) :
    Finishes skipTurn ⟨n, pre, behind, ⟨tmp, r, eof⟩⟩ h ↔
      ∃ t, skipValue n pre behind r = some t ∧ h = ⟨'\n', t, eof⟩ := by
  induction r generalizing n pre behind tmp with
  | nil => simp [skip_stuck (hr rfl), skipValue]
  | cons c t ih =>
    rw [skipValue]
    by_cases hleave : ((if c = '"' then n + 1 else n) = 0 ∨ (if c = '"' then n + 1 else n) = 2 ∨
        ((if c = '"' then n + 1 else n) % 2 = 0 ∧ (if c = '"' then n + 1 else n) > 2) ∨
        ((if c = '"' then (if pre = 1 then 1 else behind) else 0) = 1 ∧
          (if c = '"' then (if (if c = '"' then (if pre = 1 then 1 else behind) else 0) = 0 then 1
            else pre) else 0) = 1)) ∧ c = '\n'
    · have hturn : skipTurn ⟨n, pre, behind, ⟨tmp, c :: t, eof⟩⟩ = .inr ⟨c, t, eof⟩ :=
        if_pos hleave
      rw [if_pos hleave, finishes_iff_of_inr hturn, hleave.2]
      constructor
      · intro hh
        exact ⟨t, rfl, hh.symm⟩
      · intro hh
        obtain ⟨u, hu, rfl⟩ := hh
        cases hu
        rfl
    · have hturn : skipTurn ⟨n, pre, behind, ⟨tmp, c :: t, eof⟩⟩ = .inl _ := if_neg hleave
      rw [if_neg hleave, finishes_iff_of_inl hturn]
      apply ih
      intro _
      by_contra hnot
      simp only [ne_eq, not_or, not_not] at hnot
      have hc : c = '\n' := hnot.1
      have heven : ¬ (if c = '"' then n + 1 else n) % 2 = 1 := hnot.2
      subst hc
      simp only [Char.reduceEq, if_false] at heven
      refine hleave ⟨?_, rfl⟩
      simp only [Char.reduceEq, if_false]
      omega

theorem skipOld_finishes_iff : Finishes skipTurn ⟨0, 0, 0, ⟨'\n', r, false⟩⟩ h ↔
    ∃ t, skipOld r = some t ∧ h = ⟨'\n', t, r.isEmpty⟩ := by
  cases r with
  | nil =>
    have hturn : skipTurn ⟨0, 0, 0, ⟨'\n', [], false⟩⟩ = .inr ⟨'\n', [], true⟩ := rfl
    rw [finishes_iff_of_inr hturn]
    simp [skipOld, eq_comm]
  | cons c t => exact skip_finishes_iff (by simp)

theorem line_finishes_iff (hr : r = [] → tmp ≠ '\n') : Finishes lineTurn ⟨tmp, r, eof⟩ h ↔
    ∃ p, readTo '\n' r = some p ∧ h = ⟨'\n', p.2, eof⟩ := by
  induction r generalizing tmp with
  | nil =>
    have hstuck : ¬ Finishes lineTurn ⟨tmp, [], eof⟩ h := by
      apply not_finishes fun s => s.ahead = [] ∧ s.tmp ≠ '\n'
      · intro s hs
        obtain ⟨c, t, e⟩ := s
        obtain ⟨rfl, hc⟩ := hs
        exact ⟨_, if_neg hc, rfl, hc⟩
      · exact ⟨rfl, hr rfl⟩
    simp [hstuck, readTo]
  | cons c t ih =>
    by_cases hc : c = '\n'
    · subst hc
      have hturn : lineTurn ⟨tmp, '\n' :: t, eof⟩ = .inr ⟨'\n', t, eof⟩ := rfl
      rw [finishes_iff_of_inr hturn]
      simp [readTo, eq_comm]
    · have hturn : lineTurn ⟨tmp, c :: t, eof⟩ = .inl ⟨c, t, eof⟩ := if_neg hc
      rw [finishes_iff_of_inl hturn, ih fun _ => hc]
      simp only [readTo, if_neg hc, Option.map_eq_some_iff]
      constructor
      · intro hread
        obtain ⟨p, hp, hh⟩ := hread
        exact ⟨(c :: p.1, p.2), ⟨p, hp, rfl⟩, hh⟩
      · intro hread
        obtain ⟨q, ⟨p, hp, rfl⟩, hh⟩ := hread
        exact ⟨p, hp, hh⟩

theorem copy_finishes_iff : Finishes (copyTurn bracket) ⟨newline, ⟨tmp, r, false⟩, text⟩ out ↔
    text ++ copyRest bracket newline tmp r = out := by
  induction r generalizing newline tmp text with
  | nil =>
    have hturn : copyTurn bracket ⟨newline, ⟨tmp, [], false⟩, text⟩ =
        .inl ⟨tmp, ⟨tmp, [], true⟩, text ++ copyChar bracket newline tmp⟩ := rfl
    have hend : copyTurn bracket ⟨tmp, ⟨tmp, [], true⟩, text ++ copyChar bracket newline tmp⟩ =
        .inr (text ++ copyChar bracket newline tmp) := rfl
    rw [finishes_iff_of_inl hturn, finishes_iff_of_inr hend, copyRest]
  | cons c t ih =>
    have hturn : copyTurn bracket ⟨newline, ⟨tmp, c :: t, false⟩, text⟩ =
        .inl ⟨c, ⟨c, t, false⟩, text ++ copyChar bracket newline c⟩ := rfl
    rw [finishes_iff_of_inl hturn, ih, copyRest, List.append_assoc]

/-! ## What they write -/

/-- `insert_item` with enough reads writes the text of the model, or never comes to an end. -/
theorem insertReads_eq_some_iff : (∃ fuel, insertReads fuel text r item = some out) ↔
    insertText text r item true = some out := by
  simp only [insertReads, finishes_bind, skipOld_finishes_iff, insertText, if_true,
    Option.map_eq_some_iff]
  cases r with
  | nil =>
    have hend : copyTurn false ⟨'\n', ⟨'\n', [], true⟩, consumed text [] ++ item⟩ =
        .inr (consumed text [] ++ item) := rfl
    simp [skipOld, finishes_iff_of_inr hend, copyRest, copyChar]
  | cons c t =>
    constructor
    · intro hfin
      obtain ⟨h, ⟨u, hu, rfl⟩, hcopy⟩ := hfin
      exact ⟨u, hu, copy_finishes_iff.mp hcopy⟩
    · intro hmap
      obtain ⟨u, hu, hout⟩ := hmap
      exact ⟨_, ⟨u, hu, rfl⟩, copy_finishes_iff.mpr hout⟩

theorem removeReads_eq_some_iff (hr : r ≠ []) :
    (∃ fuel, removeReads fuel tmp text r = some out) ↔ removeText text r = some out := by
  simp only [removeReads, finishes_bind, line_finishes_iff fun hnil => absurd hnil hr, removeText,
    Option.map_eq_some_iff]
  constructor
  · intro hfin
    obtain ⟨h, ⟨p, hp, rfl⟩, hcopy⟩ := hfin
    exact ⟨p, hp, copy_finishes_iff.mp hcopy⟩
  · intro hmap
    obtain ⟨p, hp, hout⟩ := hmap
    exact ⟨_, ⟨p, hp, rfl⟩, copy_finishes_iff.mpr hout⟩

/-! ## Positions the searches come to -/

theorem readField_ne_nil {stop : Char} {t : Text} {p : Text × Text}
    (hp : readField stop t = .ok p) : t ≠ [] := by
  rintro rfl
  cases hp

/-- `find_postion` stops in front of a character. -/
theorem findPostion_ne_nil {line : Text} {flag : ℤ} {t r : Text}
    (hr : findPostion line flag t = .ok r) : r ≠ [] := by
  fun_induction findPostion line flag t with
  | case1 t e hread => cases hr
  | case2 t field rest hread hmatch =>
    cases hr
    exact readField_ne_nil hread
  | case3 t field rest hread hmatch hflag ih => exact ih hr
  | case4 t field rest hread hmatch hflag hline => cases hr
  | case5 t field rest hread hmatch hflag skipped u hline ih => exact ih hr

/-- A write comes to an end exactly if its position is the end of the file or some line end
behind it has an even number of double quotes in front, and a delete exactly if a line end is
behind its position. -/
theorem writes_and_deletes_finish_iff (text item : Text) (tmp : Char) :
    (∀ key t w, findItem key t = some w →
      ((∃ fuel, (insertReads fuel text w item).isSome) ↔ w = [] ∨ Closes w)) ∧
    (∀ line flag t r, findPostion line flag t = .ok r →
      ((∃ fuel, (removeReads fuel tmp text r).isSome) ↔ '\n' ∈ r)) := by
  constructor
  · intro key t w _
    have hsome : (∃ fuel, (insertReads fuel text w item).isSome) ↔
        ∃ u, skipOld w = some u := by
      simp only [Option.isSome_iff_exists]
      rw [exists_comm]
      simp only [insertReads_eq_some_iff, insertText, if_true]
      rw [← Option.isSome_iff_exists, ← Option.isSome_iff_exists, Option.isSome_map]
    rw [hsome, closes_iff]
    cases w with
    | nil => simp [skipOld]
    | cons c u => simp [skipOld]
  · intro line flag t r hr
    simp only [Option.isSome_iff_exists]
    rw [exists_comm]
    simp only [removeReads_eq_some_iff (findPostion_ne_nil hr), removeText]
    rw [← Option.isSome_iff_exists, Option.isSome_map, Option.isSome_iff_ne_none, ne_eq,
      readTo_eq_none, not_not]

/-- An odd quote in the last value makes a write go on for ever, and a last line without a newline
a delete. -/
theorem unbalanced_and_unterminated_never_end :
    (findItem "X".toList "X=\"a\n".toList = some "\"a\n".toList ∧
      ∀ fuel, insertReads fuel "[C]\nX=\"a\n".toList "\"a\n".toList "b\n".toList = none) ∧
    (findPostion "X=".toList 1 "X=a".toList = .ok "X=a".toList ∧
      ∀ fuel, removeReads fuel '\n' "[C]\nX=a".toList "X=a".toList = none) := by
  refine ⟨⟨by decide +kernel, fun fuel => ?_⟩, by decide +kernel, fun fuel => ?_⟩
  · by_contra hne
    obtain ⟨out, hout⟩ := Option.ne_none_iff_exists'.mp hne
    have htext := insertReads_eq_some_iff.mp ⟨fuel, hout⟩
    revert htext
    simp [insertText, skipOld, skipValue]
  · by_contra hne
    obtain ⟨out, hout⟩ := Option.ne_none_iff_exists'.mp hne
    have htext := (removeReads_eq_some_iff (by decide)).mp ⟨fuel, hout⟩
    revert htext
    simp [removeText, readTo]

theorem writes_and_deletes_finish_line :
    ((∃ fuel, (insertReads fuel "X=a\n".toList "a\n".toList "b\n".toList).isSome) ↔
      "a\n".toList = [] ∨ Closes "a\n".toList) ∧
    ((∃ fuel, (removeReads fuel '\n' "X=a\n".toList "X=a\n".toList).isSome) ↔
      '\n' ∈ "X=a\n".toList) :=
  ⟨(writes_and_deletes_finish_iff _ _ '\n').1 "X".toList "X=a\n".toList _ (by decide +kernel),
    (writes_and_deletes_finish_iff _ [] '\n').2 "X=".toList 1 "X=a\n".toList _
      (by decide +kernel)⟩

end ConfigReads
