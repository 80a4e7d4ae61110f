import Mathlib.Algebra.Ring.Int.Defs
import Mathlib.Algebra.Ring.Nat
import Mathlib.Data.List.Basic
import Mathlib.Data.List.TakeWhile
import Mathlib.Tactic.Common

/-! # Text streams of the C library

An open text file is the characters still ahead of its file position. Reads return what
they consumed and the stream that is left; running into the end of the file is `none`.
-/
namespace TextStream

abbrev Text := List Char

/-- `isspace` in the C locale. -/
def isSpace (c : Char) : Bool :=
  c == ' ' || c == '\n' || c == '\t' || c == '\r' || c == '\x0b' || c == '\x0c'

/-- Reads up to and including the first `stop`, which is dropped. -/
def readTo (stop : Char) : Text → Option (Text × Text)
  | [] => none
  | c :: t => if c = stop then some ([], t)
    else (readTo stop t).map fun p => (c :: p.1, p.2)

/-- `fscanf(f, "%s", ·)`: the next run of non-space characters. The space that ends it
stays in the stream. -/
def fscanfString (t : Text) : Option (Text × Text) :=
  match t.dropWhile isSpace with
  | [] => none
  | c :: u => some ((c :: u).takeWhile (!isSpace ·), (c :: u).dropWhile (!isSpace ·))

/-- At most `n` characters, stopping after a newline. -/
def readLine : ℕ → Text → Text × Text
  | 0, t => ([], t)
  | _ + 1, [] => ([], [])
  | n + 1, c :: t => if c = '\n' then ([c], t)
    else ((c :: (readLine n t).1), (readLine n t).2)

/-- A property of all characters of a text is evaluated on the text, not on all characters. -/
theorem forall_of_all {P : Char → Prop} [DecidablePred P] {t : Text}
    (h : t.all (fun c => decide (P c)) = true) : ∀ c ∈ t, P c := by
  simpa using h

theorem eq_of_readTo {stop : Char} {t a b : Text} (h : readTo stop t = some (a, b)) :
    t = a ++ stop :: b ∧ stop ∉ a := by
  induction t generalizing a with
  | nil => simp [readTo] at h
  | cons c t ih =>
    by_cases hc : c = stop
    · simp only [readTo, if_pos hc, Option.some.injEq, Prod.mk.injEq] at h
      simp [← h.1, h.2, hc]
    · simp only [readTo, if_neg hc, Option.map_eq_some_iff, Prod.mk.injEq] at h
      obtain ⟨⟨a', b'⟩, h', rfl, rfl⟩ := h
      obtain ⟨ht, hn⟩ := ih h'
      exact ⟨by simp [ht], by simp [hn, Ne.symm hc]⟩

theorem readTo_length {stop : Char} {t a b : Text} (h : readTo stop t = some (a, b)) :
    b.length < t.length := by
  have ht := congrArg List.length (eq_of_readTo h).1
  simp only [List.length_append, List.length_cons] at ht
  omega

/-- The text before the first `stop` and the text behind it. -/
theorem readTo_append {stop : Char} {a : Text} (h : stop ∉ a) (b : Text) :
    readTo stop (a ++ stop :: b) = some (a, b) := by
  induction a with
  | nil => simp [readTo]
  | cons c a ih =>
    simp only [List.mem_cons, not_or] at h
    simp [readTo, Ne.symm h.1, ih h.2]

/-- The first `stop` cuts a text in one way only. -/
theorem append_cons_inj {stop : Char} {a b s t : Text} (ha : stop ∉ a) (hb : stop ∉ b)
    (h : a ++ stop :: s = b ++ stop :: t) : a = b ∧ s = t := by
  have hread := congrArg (readTo stop) h
  rw [readTo_append ha, readTo_append hb] at hread
  simpa using hread

theorem readTo_eq_none {stop : Char} {t : Text} : readTo stop t = none ↔ stop ∉ t := by
  induction t with
  | nil => simp [readTo]
  | cons c t ih =>
    by_cases hc : c = stop
    · simp [readTo, hc]
    · simp [readTo, hc, ih, Ne.symm hc]

theorem fscanfString_suffix {t w r : Text} (h : fscanfString t = some (w, r)) :
    w ≠ [] ∧ (w ++ r) <:+ t := by
  unfold fscanfString at h
  split at h
  · cases h
  · next c u hu =>
    have hc : isSpace c = false := by
      have hhead := List.head_dropWhile_not isSpace (by simp [hu] : t.dropWhile isSpace ≠ [])
      simpa [hu] using hhead
    cases h
    refine ⟨by simp [hc], ?_⟩
    rw [List.takeWhile_append_dropWhile, ← hu]
    exact List.dropWhile_suffix _

theorem fscanfString_length {t w r : Text} (h : fscanfString t = some (w, r)) :
    r.length < t.length := by
  obtain ⟨hw, hs⟩ := fscanfString_suffix h
  have hl := hs.length_le
  have hpos := List.length_pos_iff.mpr hw
  simp only [List.length_append] at hl
  omega

theorem readLine_append (n : ℕ) (t : Text) : (readLine n t).1 ++ (readLine n t).2 = t := by
  induction n generalizing t with
  | zero => rfl
  | succ n ih =>
    cases t with
    | nil => rfl
    | cons c t =>
      by_cases hc : c = '\n'
      · simp [readLine, hc]
      · simp [readLine, hc, ih]

theorem readLine_length {n : ℕ} {t : Text} (hn : n ≠ 0) (ht : t ≠ []) :
    (readLine n t).2.length < t.length := by
  have happ := congrArg List.length (readLine_append n t)
  simp only [List.length_append] at happ
  have hpos : 0 < (readLine n t).1.length := by
    obtain ⟨m, rfl⟩ := Nat.exists_eq_succ_of_ne_zero hn
    obtain ⟨c, u, rfl⟩ := List.exists_cons_of_ne_nil ht
    by_cases hc : c = '\n' <;> simp [readLine, hc]
  omega

/-- The results of `while (fgets(buf, size, f) != NULL)`: the text cut into lines, and longer
lines into pieces of `size - 1` characters. -/
def fgetsAll (size : ℕ) (t : Text) : List Text :=
  if _h : size ≤ 1 ∨ t = [] then []
  else (readLine (size - 1) t).1 :: fgetsAll size (readLine (size - 1) t).2
termination_by t.length
decreasing_by
  push Not at _h
  exact readLine_length (by omega) _h.2

section Pieces

variable {size : ℕ} {l t : Text}

theorem fgetsAll_eq (h : 1 < size) (ht : t ≠ []) :
    fgetsAll size t = (readLine (size - 1) t).1 :: fgetsAll size (readLine (size - 1) t).2 := by
  rw [fgetsAll, dif_neg]
  push Not
  exact ⟨h, ht⟩

theorem fgetsAll_nil (size : ℕ) : fgetsAll size [] = [] := by
  rw [fgetsAll, dif_pos (.inr rfl)]

theorem flatten_fgetsAll (h : 1 < size) (t : Text) : (fgetsAll size t).flatten = t := by
  fun_induction fgetsAll size t with
  | case1 t hc =>
    rcases hc with hc | rfl
    · omega
    · rfl
  | case2 t hc ih => rw [List.flatten_cons, ih, readLine_append]

theorem readLine_short {n : ℕ} (hl : '\n' ∉ l) (h : l.length < n) :
    readLine n (l ++ '\n' :: t) = (l ++ ['\n'], t) := by
  induction l generalizing n with
  | nil =>
    obtain ⟨m, rfl⟩ := Nat.exists_eq_succ_of_ne_zero (by omega : n ≠ 0)
    simp [readLine]
  | cons c l ih =>
    simp only [List.mem_cons, not_or, List.length_cons] at hl h
    obtain ⟨m, rfl⟩ := Nat.exists_eq_succ_of_ne_zero (by omega : n ≠ 0)
    simp [readLine, Ne.symm hl.1, ih hl.2 (by omega : l.length < m)]

theorem readLine_long {n : ℕ} (hl : '\n' ∉ l) (h : n ≤ l.length) :
    readLine n (l ++ t) = (l.take n, l.drop n ++ t) := by
  induction l generalizing n with
  | nil =>
    obtain rfl : n = 0 := by simpa using h
    rfl
  | cons c l ih =>
    simp only [List.mem_cons, not_or, List.length_cons] at hl h
    cases n with
    | zero => rfl
    | succ n => simp [readLine, Ne.symm hl.1, ih hl.2 (by omega : n ≤ l.length)]

theorem readLine_line {n : ℕ} (hl : '\n' ∉ l) :
    readLine n (l ++ ['\n']) = ((l ++ ['\n']).take n, (l ++ ['\n']).drop n) := by
  by_cases h : l.length < n
  · have hlen : (l ++ ['\n']).length ≤ n := by
      rw [List.length_append, List.length_singleton]
      omega
    rw [readLine_short hl h, List.take_of_length_le hlen, List.drop_of_length_le hlen]
  · rw [readLine_long hl (by omega), List.take_append_of_le_length (by omega),
      List.drop_append_of_le_length (by omega)]

theorem fgetsAll_short (hs : 1 < size) (hl : '\n' ∉ l) (h : l.length < size - 1) :
    fgetsAll size (l ++ '\n' :: t) = (l ++ ['\n']) :: fgetsAll size t := by
  rw [fgetsAll_eq hs (by simp), readLine_short hl h]

theorem fgetsAll_long (hs : 1 < size) (hl : '\n' ∉ l) (h : size - 1 ≤ l.length) (t : Text) :
    fgetsAll size (l ++ t) = l.take (size - 1) :: fgetsAll size (l.drop (size - 1) ++ t) := by
  have hne : l ++ t ≠ [] := by
    intro hnil
    simp_all
    omega
  rw [fgetsAll_eq hs hne, readLine_long hl h]

theorem fgetsAll_line (hs : 1 < size) (hl : '\n' ∉ l) (t : Text) :
    fgetsAll size (l ++ '\n' :: t) = fgetsAll size (l ++ ['\n']) ++ fgetsAll size t := by
  induction hn : l.length using Nat.strong_induction_on generalizing l with
  | _ n ih =>
    by_cases h : l.length < size - 1
    · rw [fgetsAll_short hs hl h, fgetsAll_short hs hl h, fgetsAll_nil]
      rfl
    · have hlen : size - 1 ≤ l.length := by omega
      have hrest : '\n' ∉ l.drop (size - 1) := fun hm => hl (List.mem_of_mem_drop hm)
      have hdrop : (l.drop (size - 1)).length < n := by
        rw [List.length_drop]
        omega
      rw [fgetsAll_long hs hl hlen, fgetsAll_long hs hl hlen, ih _ hdrop hrest rfl]
      rfl

/-- The pieces of a line start with the characters at the multiples of the piece length. -/
theorem forall_fgetsAll_line {P : Char → Prop} (hs : 1 < size) (hl : '\n' ∉ l)
    (h : ∀ k c, (l ++ ['\n'])[k * (size - 1)]? = some c → P c) :
    ∀ p ∈ fgetsAll size (l ++ ['\n']), ∃ c u, p = c :: u ∧ P c := by
  induction hn : l.length using Nat.strong_induction_on generalizing l with
  | _ n ih =>
    have hfirst : ∀ p, p <+: l ++ ['\n'] → p ≠ [] → ∃ c u, p = c :: u ∧ P c := by
      intro p ⟨v, hv⟩ hne
      obtain ⟨c, u, rfl⟩ := List.exists_cons_of_ne_nil hne
      exact ⟨c, u, rfl, h 0 c (by simp [← hv])⟩
    intro p hp
    by_cases hshort : l.length < size - 1
    · rw [fgetsAll_short hs hl hshort, fgetsAll_nil, List.mem_singleton] at hp
      exact hfirst p (hp ▸ List.prefix_refl _) (by simp [hp])
    · have hlen : size - 1 ≤ l.length := by omega
      have htake : l.take (size - 1) ≠ [] := by
        rw [ne_eq, List.take_eq_nil_iff, not_or]
        exact ⟨by omega, fun hnil => by simp [hnil] at hlen; omega⟩
      rw [fgetsAll_long hs hl hlen, List.mem_cons] at hp
      rcases hp with rfl | hp
      · exact hfirst _ ((List.take_prefix _ _).trans (List.prefix_append _ _)) htake
      · refine ih _ (by rw [List.length_drop]; omega) (fun hm => hl (List.mem_of_mem_drop hm)) ?_
          rfl p hp
        intro k c hc
        apply h (k + 1) c
        rw [← hc, ← List.drop_append_of_le_length hlen, List.getElem?_drop]
        congr 1
        rw [Nat.add_mul]
        omega

/-- What one `fgets` can read before the end of a file: a line, or as much of it as the buffer
takes. -/
def IsPiece (size : ℕ) (p : Text) : Prop :=
  (∃ l, p = l ++ ['\n'] ∧ '\n' ∉ l ∧ l.length < size - 1) ∨ '\n' ∉ p ∧ p.length = size - 1

theorem isPiece_of_mem_line (hs : 1 < size) (hl : '\n' ∉ l) :
    ∀ p ∈ fgetsAll size (l ++ ['\n']), IsPiece size p := by
  induction hn : l.length using Nat.strong_induction_on generalizing l with
  | _ n ih =>
    intro p hp
    by_cases hshort : l.length < size - 1
    · rw [fgetsAll_short hs hl hshort, fgetsAll_nil, List.mem_singleton] at hp
      exact .inl ⟨l, hp, hl, hshort⟩
    · rw [fgetsAll_long hs hl (by omega), List.mem_cons] at hp
      rcases hp with rfl | hp
      · refine .inr ⟨fun hm => hl (List.mem_of_mem_take hm), ?_⟩
        rw [List.length_take]
        omega
      · exact ih _ (by rw [List.length_drop]; omega) (fun hm => hl (List.mem_of_mem_drop hm)) rfl
          p hp

/-- Pieces that are written one behind the other are read back as they are. -/
theorem fgetsAll_pieces (hs : 1 < size) {ps : List Text} (h : ∀ p ∈ ps, IsPiece size p) (t : Text) :
    fgetsAll size (ps.flatten ++ t) = ps ++ fgetsAll size t := by
  induction ps with
  | nil => rfl
  | cons p ps ih =>
    have hrest := ih fun q hq => h q (List.mem_cons_of_mem _ hq)
    rw [List.flatten_cons, List.append_assoc]
    rcases h p List.mem_cons_self with ⟨l, rfl, hl, hlen⟩ | ⟨hp, hlen⟩
    · rw [List.append_assoc, List.singleton_append, fgetsAll_short hs hl hlen, hrest]
      rfl
    · rw [fgetsAll_long hs hp hlen.ge, ← hlen, List.take_length, List.drop_length, List.nil_append,
        hrest]
      rfl

end Pieces

/-- The tokens of `while (fscanf(f, "%s", buf) != EOF)`. -/
def words (t : Text) : List Text :=
  match _h : fscanfString t with
  | none => []
  | some (w, r) => w :: words r
termination_by t.length
decreasing_by exact fscanfString_length _h

theorem fscanfString_append_space {c : Char} (hc : isSpace c = true) (l t : Text) :
    fscanfString (l ++ c :: t) =
      ((fscanfString l).map fun p => (p.1, p.2 ++ c :: t)).or (fscanfString t) := by
  unfold fscanfString
  rw [List.dropWhile_append]
  cases hl : l.dropWhile isSpace with
  | nil =>
    have hskip : (c :: t).dropWhile isSpace = t.dropWhile isSpace := by
      simp [hc]
    simp [hskip]
  | cons d u =>
    have hword : (d :: u ++ c :: t).takeWhile (!isSpace ·) = (d :: u).takeWhile (!isSpace ·) := by
      rw [List.takeWhile_append]
      split
      · next h => simpa [hc] using (List.takeWhile_prefix _).eq_of_length h |>.symm
      · rfl
    have hrest : (d :: u ++ c :: t).dropWhile (!isSpace ·) =
        (d :: u).dropWhile (!isSpace ·) ++ c :: t := by
      rw [List.dropWhile_append]
      split
      · next h => simp [List.isEmpty_iff.mp h, hc]
      · rfl
    simpa using ⟨hword, hrest⟩

theorem fscanfString_word {w : Text} (hne : w ≠ []) (hw : ∀ c ∈ w, isSpace c = false) (t : Text) :
    fscanfString (w ++ t) = some (w ++ t.takeWhile (!isSpace ·), t.dropWhile (!isSpace ·)) := by
  obtain ⟨c, u, rfl⟩ := List.exists_cons_of_ne_nil hne
  have hc : isSpace c = false := hw c List.mem_cons_self
  have hword : ∀ d ∈ c :: u, (!isSpace d) = true := fun d hd => by simp [hw d hd]
  unfold fscanfString
  rw [List.cons_append, List.dropWhile_cons_of_neg (by simp [hc])]
  simp only [← List.cons_append]
  rw [List.takeWhile_append_of_pos hword, List.dropWhile_append_of_pos hword]

theorem words_eq (t : Text) :
    words t = ((fscanfString t).map fun p => p.1 :: words p.2).getD [] := by
  rw [words]
  split
  · next h => simp [h]
  · next h => simp [h]

theorem words_nil : words [] = [] := by
  rw [words_eq]
  rfl

/-- Text in front of a first line becomes part of it. -/
theorem splitOn_append {p : Text} (h : '\n' ∉ p) (t : Text) :
    (p ++ t).splitOn '\n' = (t.splitOn '\n').modifyHead (p ++ ·) := by
  induction p with
  | nil =>
    rw [List.nil_append]
    cases t.splitOn '\n' <;> rfl
  | cons c p ih =>
    rw [List.mem_cons, not_or] at h
    rw [List.cons_append, List.splitOn_cons_eq_if_modifyHead, if_neg (by simp [Ne.symm h.1]),
      ih h.2, List.modifyHead_modifyHead]
    rfl

theorem prefix_of_splitOn {t l : Text} {ls : List Text} (h : t.splitOn '\n' = l :: ls) :
    l <+: t := by
  cases hr : readTo '\n' t with
  | none =>
    rw [List.splitOn_eq_singleton (readTo_eq_none.mp hr), List.cons.injEq] at h
    exact h.1 ▸ List.prefix_refl _
  | some p =>
    obtain ⟨ht, hp⟩ := eq_of_readTo hr
    rw [ht, List.splitOn_append_cons_self_of_not_mem hp, List.cons.injEq] at h
    rw [ht, ← h.1]
    exact List.prefix_append _ _

theorem splitOn_inj {a b : Text} (h : a.splitOn '\n' = b.splitOn '\n') : a = b := by
  have ha : ['\n'].intercalate (a.splitOn '\n') = a := List.intercalate_splitOn '\n'
  rw [← ha, h, List.intercalate_splitOn]

def textLines (t : Text) : List Text := (t.splitOn '\n').filter (· ≠ [])

theorem textLines_append (a b : Text) :
    textLines (a ++ '\n' :: b) = textLines a ++ textLines b := by
  unfold textLines
  rw [List.splitOn_eq_splitOnP, List.splitOnP_append_cons _ _ (by simp), List.filter_append]
  rfl

theorem textLines_line {l : Text} (h : '\n' ∉ l) (hne : l ≠ []) : textLines l = [l] := by
  have hsplit : l.splitOn '\n' = [l] := by
    rw [List.splitOn_eq_splitOnP]
    exact List.splitOnP_eq_singleton fun c hc => by
      rw [beq_eq_false_iff_ne]
      rintro rfl
      exact h hc
  simp [textLines, hsplit, hne]

theorem exists_textLines_cons {c : Char} (hc : c ≠ '\n') (t : Text) :
    ∃ l ∈ textLines (c :: t), l.head? = some c := by
  cases hr : readTo '\n' t with
  | none =>
    have hl : '\n' ∉ c :: t := by simp [readTo_eq_none.mp hr, Ne.symm hc]
    exact ⟨c :: t, by simp [textLines_line hl], rfl⟩
  | some p =>
    obtain ⟨ht, hp⟩ := eq_of_readTo hr
    have hl : '\n' ∉ c :: p.1 := by simp [hp, Ne.symm hc]
    refine ⟨c :: p.1, ?_, rfl⟩
    rw [ht, ← List.cons_append, textLines_append, textLines_line hl (by simp)]
    simp

/-- The lines of a text. The last one may be without a newline. -/
def fileLines : Text → List Text
  | [] => []
  | c :: t =>
    if c = '\n' then [] :: fileLines t
    else
      match fileLines t with
      | [] => [[c]]
      | l :: ls => (c :: l) :: ls

theorem fileLines_line {l : Text} (h : '\n' ∉ l) (t : Text) :
    fileLines (l ++ '\n' :: t) = l :: fileLines t := by
  induction l with
  | nil => rfl
  | cons c l ih =>
    rw [List.mem_cons, not_or] at h
    simp only [List.cons_append, fileLines, if_neg (Ne.symm h.1), ih h.2]

theorem fileLines_last {l : Text} (h : '\n' ∉ l) (hne : l ≠ []) : fileLines l = [l] := by
  induction l with
  | nil => exact absurd rfl hne
  | cons c l ih =>
    rw [List.mem_cons, not_or] at h
    cases l with
    | nil => simp only [fileLines, if_neg (Ne.symm h.1)]
    | cons d l =>
      have htail := ih h.2 (List.cons_ne_nil d l)
      rw [fileLines]
      simp only [if_neg (Ne.symm h.1), htail]

/-- A text is empty, a last line, or a line with a text behind it. -/
@[elab_as_elim]
theorem fileLines_induction {motive : Text → Prop} (nil : motive [])
    (last : ∀ l, '\n' ∉ l → l ≠ [] → motive l)
    (line : ∀ l t, '\n' ∉ l → motive t → motive (l ++ '\n' :: t)) (t : Text) : motive t := by
  induction hlen : t.length using Nat.strong_induction_on generalizing t with
  | _ n ih =>
    by_cases ht : t = []
    · exact ht ▸ nil
    · cases hr : readTo '\n' t with
      | none => exact last t (readTo_eq_none.mp hr) ht
      | some p =>
        obtain ⟨hsplit, hp⟩ := eq_of_readTo hr
        subst hlen
        have hless : p.2.length < t.length := by
          have hlength := congrArg List.length hsplit
          simp only [List.length_append, List.length_cons] at hlength
          omega
        rw [hsplit]
        exact line p.1 p.2 hp (ih p.2.length hless p.2 rfl)

theorem fileLines_append (a b : Text) :
    fileLines (a ++ '\n' :: b) = fileLines (a ++ ['\n']) ++ fileLines b := by
  induction a using fileLines_induction with
  | nil => rfl
  | last l hl hne => rw [fileLines_line hl, fileLines_line hl, fileLines, List.singleton_append]
  | line l t hl ih =>
    rw [List.append_assoc, List.append_assoc, List.cons_append, List.cons_append, fileLines_line hl,
      fileLines_line hl, ih, List.cons_append]

theorem newline_notMem {l t : Text} (h : l ∈ fileLines t) : '\n' ∉ l := by
  induction t using fileLines_induction with
  | nil => cases h
  | last d hd hne =>
    rw [fileLines_last hd hne, List.mem_singleton] at h
    exact h ▸ hd
  | line d t hd ih =>
    rw [fileLines_line hd, List.mem_cons] at h
    exact h.elim (fun heq => heq ▸ hd) ih

theorem exists_mem_fileLines {c : Char} {t : Text} (hc : c ≠ '\n') :
    c ∈ t ↔ ∃ l ∈ fileLines t, c ∈ l := by
  induction t using fileLines_induction with
  | nil => simp [fileLines]
  | last l hl hne => simp [fileLines_last hl hne]
  | line l t hl ih => simp [fileLines_line hl, ih, hc]

theorem isSpace_of_isDigit {c : Char} (h : c.isDigit = true) : isSpace c = false := by
  rw [Bool.eq_false_iff]
  intro hs
  simp only [isSpace, Bool.or_eq_true, beq_iff_eq] at hs
  rcases hs with ((((rfl | rfl) | rfl) | rfl) | rfl) | rfl <;> revert h <;> decide

/-- `atoi`, for numbers that fit an `int`. -/
def atoi (t : Text) : ℤ :=
  match t.dropWhile isSpace with
  | '-' :: u => -(Nat.ofDigitChars 10 (u.takeWhile Char.isDigit) 0 : ℤ)
  | '+' :: u => Nat.ofDigitChars 10 (u.takeWhile Char.isDigit) 0
  | u => Nat.ofDigitChars 10 (u.takeWhile Char.isDigit) 0

end TextStream
