import Mathlib.Data.Int.Notation
import RouterFirmware.LoopRun
import RouterFirmware.SeparatedWords
import RouterFirmware.UrlFilter

/-! # The keywords of the content filter

A rule holds its keywords with `<&nbsp;>` between them. The macro `split` copies each into an array
of `BUFSIZE` bytes, and ends at an empty one.
-/
namespace WebKeywords

open LoopRun (loop Finishes)
open SeparatedWords (find)
open UrlFilter (bytes bufsize isUpper put tolower strnicmp)

def token : List UInt8 := bytes "<&nbsp;>"

def cstr (memory : List UInt8) : List UInt8 := memory.takeWhile (· ≠ 0)

/-- The array `needle`. -/
@[ext] structure Needle where
  bytes : List UInt8
  size : bytes.length = bufsize

/-- `strncpy` with the size of the array, which writes all of it. -/
def Needle.strncpy (w : Needle) (next : List UInt8) : Needle where
  bytes := put w.bytes 0 ((next ++ List.replicate bufsize 0).take bufsize)
  size := by
    have hsize := w.size
    simp [put, hsize]

def Needle.set (w : Needle) (i : ℕ) (c : UInt8) : Needle where
  bytes := w.bytes.set i c
  size := by rw [List.length_set, w.size]

/-- The place for the `'\0'` is not in the array. -/
inductive Fault where
  | writePastEnd
  deriving DecidableEq

/-- The variables of `split`, with the string that `next` points to. -/
structure Split where
  word : Needle
  next : Option (List UInt8)

/-- `split` on the rest of the list. What is `behind` the array in memory counts, because the second
`strstr` reads to the first zero. -/
def copyWord (behind : List UInt8) (word : Needle) (next : List UInt8) : Except Fault Split :=
  let word := word.strncpy next
  match find token next with
  | none => .ok ⟨word.set (bufsize - 1) 0, none⟩
  | some (_, rest) =>
    match find token (cstr (word.bytes ++ behind)) with
    | none => .error .writePastEnd
    | some (front, _) =>
      if front.length < bufsize then
        .ok ⟨word.set front.length 0, some (rest.drop token.length)⟩
      else .error .writePastEnd

/-- The loop of `search_linear`, with `n` places left. -/
def searchLinear (needle : List UInt8) (nlen : ℕ) : ℕ → List UInt8 → Bool
  | 0, _ => false
  | n + 1, t => strnicmp t needle nlen = 0 || searchLinear needle nlen n t.tail

/-- The tests of the loop's body, on the length of the needle and on the search. -/
def WordFound (needle haystack : List UInt8) (hlen : ℤ) : Prop :=
  hlen ≠ 0 ∧ needle.length ≤ hlen ∧
    searchLinear needle needle.length (hlen - needle.length + 1).toNat haystack = true

instance (needle haystack : List UInt8) (hlen : ℤ) : Decidable (WordFound needle haystack hlen) :=
  inferInstanceAs (Decidable (_ ∧ _))

def keywordTurn (behind haystack : List UInt8) (hlen : ℤ) (s : Split) : Split ⊕ Except Fault Bool :=
  let needle := cstr s.word.bytes
  if needle.length = 0 then .inr (.ok false)
  else if WordFound needle haystack hlen then .inr (.ok true)
  else
    match copyWord behind s.word (s.next.getD []) with
    | .error f => .inr (.error f)
    | .ok s => .inl s

/-- The loop over the keywords, from the copy of the first. -/
def keywordLoop (behind haystack : List UInt8) (hlen : ℤ) (needle : Needle) (wordlist : List UInt8)
    (fuel : ℕ) : Option (Except Fault Bool) :=
  match copyWord behind needle wordlist with
  | .error f => some (.error f)
  | .ok s => loop (keywordTurn behind haystack hlen) fuel s

/-! ## Lists of keywords -/

structure Keyword where
  text : List UInt8
  noNul : 0 ∉ text
  noToken : ¬ token <:+: text
  short : text.length < bufsize

def wordlist (ks : List Keyword) : List UInt8 := List.intercalate token (ks.map Keyword.text)

/-- `isupper` of ASCII. -/
def asciiLower (c : UInt8) : UInt8 := if 65 ≤ c ∧ c ≤ 90 then c + 32 else c

/-- A keyword somewhere in a text, where `fold` takes the capital letters to small ones. -/
def Occurs (fold : UInt8 → UInt8) (k : Keyword) (text : List UInt8) : Prop :=
  k.text.map fold <:+: text.map fold

/-- What of the separator has no place in the array is in memory behind it. -/
def Fits (behind : List UInt8) (k : Keyword) : Prop :=
  token.drop (bufsize - k.text.length) <+: cstr behind

instance (fold : UInt8 → UInt8) (k : Keyword) (text : List UInt8) :
    Decidable (Occurs fold k text) :=
  inferInstanceAs (Decidable (_ <:+: _))

instance (behind : List UInt8) (k : Keyword) : Decidable (Fits behind k) :=
  inferInstanceAs (Decidable (_ <+: _))

def scan (behind text : List UInt8) : List Keyword → Except Fault Bool
  | [] => .ok false
  | k :: rest =>
    if rest ≠ [] ∧ ¬ Fits behind k then .error .writePastEnd
    else if k.text = [] then .ok false
    else if Occurs tolower k text then .ok true
    else scan behind text rest

/-! ## The search for one keyword -/

section Search

variable {needle t text pad : List UInt8} {c d : UInt8}

theorem tolower_eq_zero_iff : tolower c = 0 ↔ c = 0 := by
  rw [tolower]
  split
  · next hupper =>
    simp only [isUpper, UInt8.le_iff_toNat_le, ne_eq, decide_eq_true_eq] at hupper
    simp only [← UInt8.toNat_inj, UInt8.toNat_add] at hupper ⊢
    simp at hupper ⊢
    omega
  · rfl

theorem sub_eq_zero_iff : (c.toNat : ℤ) - d.toNat = 0 ↔ c = d := by
  rw [← UInt8.toNat_inj]
  omega

theorem strnicmp_cons (c d : UInt8) (t needle : List UInt8) (n : ℕ) :
    strnicmp (c :: t) (d :: needle) (n + 1) =
      if c = 0 ∨ d = 0 then (c.toNat : ℤ) - d.toNat
      else if tolower c = tolower d then strnicmp t needle n
      else ((tolower c).toNat : ℤ) - (tolower d).toNat := rfl

/-- `strnicmp` on a whole word stops at no zero of the text. -/
theorem strnicmp_eq_zero_iff (hneedle : 0 ∉ needle) :
    strnicmp t needle needle.length = 0 ↔ needle.map tolower <+: t.map tolower := by
  induction needle generalizing t with
  | nil => simp [strnicmp]
  | cons d needle ih =>
    obtain ⟨hd, htail⟩ : 0 ≠ d ∧ 0 ∉ needle := by
      simpa [not_or] using hneedle
    cases t with
    | nil =>
      simp only [List.length_cons, strnicmp, List.headD_nil, List.headD_cons, true_or, if_true,
        List.map_cons, List.map_nil, List.prefix_nil, reduceCtorEq, iff_false]
      exact fun hzero => hd (sub_eq_zero_iff.mp hzero)
    | cons c t =>
      rw [List.length_cons, strnicmp_cons, List.map_cons, List.map_cons, List.cons_prefix_cons]
      by_cases hc : c = 0
      · have hne : tolower d ≠ tolower c := by
          rw [hc, show tolower 0 = 0 from rfl, ne_eq, tolower_eq_zero_iff]
          exact hd.symm
        simp only [hc, true_or, if_true, hc ▸ hne, false_and, iff_false]
        exact fun hzero => hd (sub_eq_zero_iff.mp hzero)
      · rw [if_neg (not_or.mpr ⟨hc, hd.symm⟩)]
        by_cases heq : tolower c = tolower d
        · rw [if_pos heq]
          simp only [heq, true_and]
          exact ih htail
        · rw [if_neg heq]
          simp only [Ne.symm heq, false_and, iff_false]
          exact fun hzero => heq (sub_eq_zero_iff.mp hzero)

theorem strnicmp_append (hneedle : 0 ∉ needle) (hle : needle.length ≤ text.length) :
    strnicmp (text ++ pad) needle needle.length = 0 ↔ needle.map tolower <+: text.map tolower := by
  rw [strnicmp_eq_zero_iff hneedle, List.map_append]
  constructor
  · intro h
    exact List.prefix_of_prefix_length_le h (List.prefix_append _ _) (by simpa using hle)
  · intro h
    exact h.trans (List.prefix_append _ _)

/-- The places of `search_linear` are those where the word could stand. -/
theorem searchLinear_iff (hneedle : 0 ∉ needle) (hle : needle.length ≤ text.length) :
    searchLinear needle needle.length (text.length - needle.length + 1) (text ++ pad) = true ↔
      needle.map tolower <:+: text.map tolower := by
  induction text with
  | nil =>
    have hnil : needle = [] := List.length_eq_zero_iff.mp (Nat.le_zero.mp hle)
    simp [hnil, searchLinear, strnicmp]
  | cons c t ih =>
    rw [searchLinear, Bool.or_eq_true, decide_eq_true_iff, strnicmp_append hneedle hle,
      List.map_cons, List.infix_cons_iff, List.cons_append, List.tail_cons]
    apply or_congr_right
    obtain hfits | hlast := Nat.lt_or_ge t.length needle.length
    · have hn : (c :: t).length - needle.length = 0 := by
        rw [List.length_cons]
        omega
      have hlong : ¬ needle.map tolower <:+: t.map tolower := fun h => by
        have := h.length_le
        simp only [List.length_map] at this
        omega
      rw [hn]
      simp [searchLinear, hlong]
    · have hn : (c :: t).length - needle.length = t.length - needle.length + 1 := by
        rw [List.length_cons]
        omega
      rw [hn]
      exact ih hlast

end Search

/-! ## The copy of one keyword -/

section Copy

variable {behind l : List UInt8} {k : Keyword}

theorem cstr_append {a : List UInt8} (ha : 0 ∉ a) (b : List UInt8) : cstr (a ++ b) = a ++ cstr b :=
  List.takeWhile_append_of_pos fun c hc => by
    have : c ≠ 0 := fun h => ha (h ▸ hc)
    simpa using this

theorem cstr_zeros (n : ℕ) : cstr (List.replicate n 0) = [] := by
  cases n <;> rfl

theorem token_eq : token = 60 :: bytes "&nbsp;>" := by decide

theorem find_token (k : Keyword) (rest : List UInt8) :
    find token (k.text ++ (token ++ rest)) = some (k.text, token ++ rest) := by
  have hk := k.noToken
  rw [token_eq] at hk ⊢
  exact SeparatedWords.find_word (by decide) hk rest

theorem set_bytes (w : Needle) (i : ℕ) (c : UInt8) : (w.set i c).bytes = w.bytes.set i c := rfl

theorem strncpy_bytes (w : Needle) (next : List UInt8) :
    (w.strncpy next).bytes = (next ++ List.replicate bufsize 0).take bufsize := by
  have hsize := w.size
  simp [Needle.strncpy, put, hsize]

theorem copyWord_last (behind : List UInt8) (w : Needle) (k : Keyword) :
    ∃ v, copyWord behind w k.text = .ok ⟨v, none⟩ ∧ cstr v.bytes = k.text := by
  have hnone : find token k.text = none := SeparatedWords.find_eq_none_iff.mpr k.noToken
  have hshort := k.short
  refine ⟨_, by rw [copyWord, hnone], ?_⟩
  have hword : (k.text ++ List.replicate bufsize 0).take bufsize =
      k.text ++ List.replicate (bufsize - k.text.length) 0 := by
    rw [List.take_append, List.take_of_length_le hshort.le, List.take_replicate]
    congr 2
    omega
  rw [set_bytes, strncpy_bytes, hword, List.set_append_right _ _ (by omega),
    List.set_replicate_self, cstr_append k.noNul, cstr_zeros, List.append_nil]

theorem word_eq (k : Keyword) (l : List UInt8) :
    ∃ more, (k.text ++ (token ++ l) ++ List.replicate bufsize 0).take bufsize =
        k.text ++ (token.take (bufsize - k.text.length) ++ more) ∧
      (more = [] ∨ token.length ≤ bufsize - k.text.length) := by
  refine ⟨(l ++ List.replicate bufsize 0).take (bufsize - k.text.length - token.length), ?_, ?_⟩
  · rw [List.append_assoc, List.append_assoc, List.take_append, List.take_append,
      List.take_of_length_le k.short.le]
  · obtain hle | hlt := Nat.le_total token.length (bufsize - k.text.length)
    · exact .inr hle
    · exact .inl (by rw [Nat.sub_eq_zero_of_le hlt, List.take_zero])

theorem cstr_word (k : Keyword) (m : ℕ) (more behind : List UInt8) :
    cstr (k.text ++ (token.take m ++ more) ++ behind) =
      k.text ++ (token.take m ++ cstr (more ++ behind)) := by
  have htoken : 0 ∉ token.take m := fun h => absurd (List.mem_of_mem_take h) (by decide)
  rw [List.append_assoc, List.append_assoc, cstr_append k.noNul, cstr_append htoken]

theorem fits_iff (behind : List UInt8) {more : List UInt8}
    (hmore : more = [] ∨ token.length ≤ bufsize - k.text.length) :
    Fits behind k ↔ token.drop (bufsize - k.text.length) <+: cstr (more ++ behind) := by
  obtain rfl | hle := hmore
  · rfl
  · rw [Fits, List.drop_eq_nil_of_le hle]
    exact iff_of_true List.nil_prefix List.nil_prefix

theorem copyWord_fits (h : Fits behind k) (w : Needle) (l : List UInt8) :
    ∃ v, copyWord behind w (k.text ++ (token ++ l)) = .ok ⟨v, some l⟩ ∧
      cstr v.bytes = k.text := by
  obtain ⟨more, hword, hmore⟩ := word_eq k l
  obtain ⟨r, hr⟩ := (fits_iff behind hmore).mp h
  have hfind : find token (cstr (k.text ++ (token.take (bufsize - k.text.length) ++ more) ++
      behind)) = some (k.text, token ++ r) := by
    rw [cstr_word, ← hr, ← List.append_assoc (token.take _), List.take_append_drop, find_token]
  have hshort := k.short
  refine ⟨(w.strncpy (k.text ++ (token ++ l))).set k.text.length 0, ?_, ?_⟩
  · simp only [copyWord, find_token, strncpy_bytes, hword, hfind, if_pos hshort, List.drop_left]
  · obtain ⟨m, hm⟩ : ∃ m, bufsize - k.text.length = m + 1 :=
      ⟨bufsize - k.text.length - 1, by omega⟩
    rw [set_bytes, strncpy_bytes, hword, List.set_append_right _ _ le_rfl, Nat.sub_self,
      cstr_append k.noNul, hm, token_eq, List.take_succ_cons, List.cons_append, List.set_cons_zero]
    exact List.append_nil _

theorem copyWord_cut (h : ¬ Fits behind k) (w : Needle) (l : List UInt8) :
    copyWord behind w (k.text ++ (token ++ l)) = .error .writePastEnd := by
  obtain ⟨more, hword, hmore⟩ := word_eq k l
  have hshort := k.short
  obtain ⟨m, hm⟩ : ∃ m, bufsize - k.text.length = m + 1 := ⟨bufsize - k.text.length - 1, by omega⟩
  have hnot := mt (fits_iff behind hmore).mpr h
  have hlt : bufsize - k.text.length < token.length := by
    refine Nat.lt_of_not_le fun hle => hnot ?_
    rw [List.drop_eq_nil_of_le hle]
    exact List.nil_prefix
  simp only [copyWord, find_token, strncpy_bytes, hword]
  cases hfind : find token (cstr (k.text ++ (token.take (bufsize - k.text.length) ++ more) ++
      behind)) with
  | none => rfl
  | some p =>
    have hk := k.noToken
    rw [cstr_word] at hfind
    rw [hm] at hfind hnot hlt
    rw [token_eq] at hk hfind hnot
    obtain ⟨-, hdrop⟩ | hfar := SeparatedWords.find_cut (by decide) hk hfind
    · exact absurd hdrop hnot
    · rw [← token_eq, List.length_take, Nat.min_eq_left hlt.le] at hfar
      exact if_neg (by omega)

end Copy

/-! ## The loop over the list -/

section Run

variable {behind text pad haystack wl : List UInt8} {hlen : ℤ} {k : Keyword}
  {ks rest : List Keyword} {w : Needle} {s s' : Split} {r : Except Fault Bool}

/-- The loop over the keywords ends with this result. -/
def Returns (behind haystack : List UInt8) (hlen : ℤ) (w : Needle) (wl : List UInt8)
    (r : Except Fault Bool) : Prop :=
  ∃ fuel, keywordLoop behind haystack hlen w wl fuel = some r

theorem returns_of_error {f : Fault} (h : copyWord behind w wl = .error f) :
    Returns behind haystack hlen w wl r ↔ r = .error f := by
  simp only [Returns, keywordLoop, h, Option.some.injEq, exists_const]
  exact eq_comm

theorem returns_of_ok (h : copyWord behind w wl = .ok s) :
    Returns behind haystack hlen w wl r ↔ Finishes (keywordTurn behind haystack hlen) s r := by
  simp only [Returns, keywordLoop, h, Finishes]

theorem turn_empty (behind haystack : List UInt8) (hlen : ℤ) (h : cstr s.word.bytes = []) :
    keywordTurn behind haystack hlen s = .inr (.ok false) := by
  rw [keywordTurn, h, List.length_nil, if_pos rfl]

theorem turn_found (behind : List UInt8) (hword : cstr s.word.bytes ≠ [])
    (h : WordFound (cstr s.word.bytes) haystack hlen) :
    keywordTurn behind haystack hlen s = .inr (.ok true) := by
  rw [keywordTurn, if_neg (mt List.length_eq_zero_iff.mp hword), if_pos h]

theorem turn_next (behind : List UInt8) (hword : cstr s.word.bytes ≠ [])
    (h : ¬ WordFound (cstr s.word.bytes) haystack hlen) :
    keywordTurn behind haystack hlen s =
      match copyWord behind s.word (s.next.getD []) with
      | .error f => .inr (.error f)
      | .ok s => .inl s := by
  rw [keywordTurn, if_neg (mt List.length_eq_zero_iff.mp hword), if_neg h]

/-- The word is not in the text, and the loop is as if it began at the next. -/
theorem returns_next (h : copyWord behind w wl = .ok s) (hword : cstr s.word.bytes ≠ [])
    (hnot : ¬ WordFound (cstr s.word.bytes) haystack hlen) :
    Returns behind haystack hlen w wl r ↔
      Returns behind haystack hlen s.word (s.next.getD []) r := by
  have hturn := turn_next behind hword hnot
  rw [returns_of_ok h]
  cases hnext : copyWord behind s.word (s.next.getD []) with
  | error f =>
    simp only [hnext] at hturn
    rw [returns_of_error hnext, LoopRun.finishes_iff_of_inr hturn, eq_comm]
  | ok s' =>
    simp only [hnext] at hturn
    rw [returns_of_ok hnext, LoopRun.finishes_iff_of_inl hturn]

/-- The tests of the body on a text of `hlen` bytes. -/
theorem wordFound_iff {needle : List UInt8} (hzero : 0 ∉ needle) (hneedle : needle ≠ [])
    (text pad : List UInt8) :
    WordFound needle (text ++ pad) text.length ↔ needle.map tolower <:+: text.map tolower := by
  have hpos : 0 < needle.length := List.length_pos_iff.mpr hneedle
  have hn (hle : needle.length ≤ text.length) :
      ((text.length : ℤ) - needle.length + 1).toNat = text.length - needle.length + 1 := by
    omega
  constructor
  · rintro ⟨-, hle, hsearch⟩
    have hle : needle.length ≤ text.length := by omega
    rw [hn hle] at hsearch
    exact (searchLinear_iff hzero hle).mp hsearch
  · intro h
    have hle : needle.length ≤ text.length := by
      simpa using h.length_le
    refine ⟨by omega, by omega, ?_⟩
    rw [hn hle]
    exact (searchLinear_iff hzero hle).mpr h

theorem copyWord_nil (behind : List UInt8) (w : Needle) :
    ∃ v, copyWord behind w [] = .ok ⟨v, none⟩ ∧ cstr v.bytes = [] := by
  have hnone : find token [] = none := by decide
  refine ⟨_, by rw [copyWord, hnone], ?_⟩
  rw [set_bytes, strncpy_bytes, List.nil_append, List.take_replicate, Nat.min_self,
    List.set_replicate_self, cstr_zeros]

theorem wordlist_cons (k : Keyword) (next : Keyword) (rest : List Keyword) :
    wordlist (k :: next :: rest) = k.text ++ (token ++ wordlist (next :: rest)) := by
  simp [wordlist, List.intercalate_cons_cons]

theorem copyWord_wordlist (w : Needle) (h : ¬ (rest ≠ [] ∧ ¬ Fits behind k)) :
    ∃ s, copyWord behind w (wordlist (k :: rest)) = .ok s ∧ cstr s.word.bytes = k.text ∧
      s.next.getD [] = wordlist rest := by
  cases rest with
  | nil =>
    obtain ⟨v, hcopy, hv⟩ := copyWord_last behind w k
    refine ⟨⟨v, none⟩, ?_, hv, rfl⟩
    rw [← hcopy]
    simp [wordlist]
  | cons next rest =>
    have hfits : Fits behind k := by
      simpa using h
    obtain ⟨v, hcopy, hv⟩ := copyWord_fits hfits w (wordlist (next :: rest))
    exact ⟨⟨v, some (wordlist (next :: rest))⟩, by rw [wordlist_cons, hcopy], hv, rfl⟩

theorem returns_wordlist (behind text pad : List UInt8) (w : Needle) (ks : List Keyword) :
    Returns behind (text ++ pad) text.length w (wordlist ks) r ↔ r = scan behind text ks := by
  induction ks generalizing w with
  | nil =>
    -- the loop ends behind the last keyword, too, because the word is empty there
    obtain ⟨v, hcopy, hv⟩ := copyWord_nil behind w
    rw [wordlist, List.map_nil, List.intercalate_nil, returns_of_ok hcopy]
    exact (LoopRun.finishes_iff_of_inr (turn_empty _ _ _ hv)).trans eq_comm
  | cons k rest ih =>
    rw [scan]
    split
    · next hcut =>
      obtain ⟨hrest, hnot⟩ := hcut
      obtain ⟨next, rest, rfl⟩ := List.exists_cons_of_ne_nil hrest
      rw [wordlist_cons]
      exact returns_of_error (copyWord_cut hnot w _)
    · next hcopies =>
      obtain ⟨s, hcopy, hword, hnext⟩ := copyWord_wordlist w hcopies
      split
      · next hempty =>
        rw [returns_of_ok hcopy]
        exact (LoopRun.finishes_iff_of_inr (turn_empty _ _ _ (hword.trans hempty))).trans eq_comm
      · next hk =>
        split
        · next hoccurs =>
          have hfound : WordFound (cstr s.word.bytes) (text ++ pad) text.length :=
            hword ▸ (wordFound_iff k.noNul hk text pad).mpr hoccurs
          rw [returns_of_ok hcopy]
          exact (LoopRun.finishes_iff_of_inr (turn_found _ (hword ▸ hk) hfound)).trans eq_comm
        · next hnot =>
          have hmiss : ¬ WordFound (cstr s.word.bytes) (text ++ pad) text.length :=
            hword ▸ mt (wordFound_iff k.noNul hk text pad).mp hnot
          rw [returns_next hcopy (hword ▸ hk) hmiss, hnext, ih]

/-! ## The number of turns -/

/-- What is left of the list gets shorter with every copy. -/
theorem length_next (h : copyWord behind w wl = .ok s) :
    s.next = none ∨ ∃ l, s.next = some l ∧ l.length < wl.length := by
  cases hfind : find token wl with
  | none =>
    simp only [copyWord, hfind, Except.ok.injEq] at h
    exact .inl (h ▸ rfl)
  | some p =>
    obtain ⟨hsplit, hstart⟩ := SeparatedWords.find_spec hfind
    simp only [copyWord, hfind] at h
    split at h
    · cases h
    · split at h
      · cases h
        refine .inr ⟨_, rfl, ?_⟩
        have hlength := congrArg List.length hsplit
        have htoken := hstart.length_le
        have hpos : 0 < token.length := by decide
        rw [List.length_append] at hlength
        rw [List.length_drop]
        omega
      · cases h

theorem loop_isSome (h : copyWord behind w wl = .ok s) :
    ∃ r, loop (keywordTurn behind haystack hlen) (wl.length + 2) s = some r := by
  induction hn : wl.length using Nat.strong_induction_on generalizing wl w s with
  | _ n ih =>
    cases hturn : keywordTurn behind haystack hlen s with
    | inr r => exact ⟨r, LoopRun.loop_of_inr hturn _⟩
    | inl s' =>
      have hcopy : copyWord behind s.word (s.next.getD []) = .ok s' := by
        simp only [keywordTurn] at hturn
        split at hturn
        · cases hturn
        · split at hturn
          · cases hturn
          · split at hturn
            · cases hturn
            · next hok =>
              cases hturn
              exact hok
      obtain hnone | ⟨l, hl, hlt⟩ := length_next h
      · obtain ⟨v, hzero, hv⟩ := copyWord_nil behind s.word
        rw [hnone, Option.getD_none, hzero, Except.ok.injEq] at hcopy
        subst hcopy
        rw [LoopRun.loop_of_inl hturn]
        exact ⟨_, LoopRun.loop_of_inr (turn_empty _ _ _ hv) _⟩
      · rw [hl, Option.getD_some] at hcopy
        obtain ⟨r, hr⟩ := ih l.length (hn ▸ hlt) hcopy rfl
        rw [LoopRun.loop_of_inl hturn]
        exact ⟨r, LoopRun.loop_mono hr (by omega)⟩

/-- The loop ends on every list, after no more turns than the list has bytes, and two. -/
theorem keywordLoop_isSome (behind haystack : List UInt8) (hlen : ℤ) (w : Needle)
    (wl : List UInt8) : ∃ r, keywordLoop behind haystack hlen w wl (wl.length + 2) = some r := by
  cases hcopy : copyWord behind w wl with
  | error f => exact ⟨.error f, by rw [keywordLoop, hcopy]⟩
  | ok s =>
    simp only [keywordLoop, hcopy]
    exact loop_isSome hcopy

/-! ## What the result depends on -/

theorem copyWord_congr (behind : List UInt8) (w w' : Needle) (wl : List UInt8) :
    copyWord behind w wl = copyWord behind w' wl := by
  have hfill : w.strncpy wl = w'.strncpy wl := Needle.ext (by rw [strncpy_bytes, strncpy_bytes])
  simp only [copyWord, hfill]

theorem notMem_cstr (memory : List UInt8) : 0 ∉ cstr memory := fun h => by
  simpa using List.all_eq_true.mp List.all_takeWhile 0 h

theorem keywordTurn_congr (behind text pad pad' : List UInt8) (s : Split) :
    keywordTurn behind (text ++ pad) text.length s =
      keywordTurn behind (text ++ pad') text.length s := by
  by_cases hword : cstr s.word.bytes = []
  · rw [turn_empty _ _ _ hword, turn_empty _ _ _ hword]
  · have hpad := wordFound_iff (notMem_cstr s.word.bytes) hword text pad
    have hpad' := wordFound_iff (notMem_cstr s.word.bytes) hword text pad'
    simp only [keywordTurn, hpad, hpad']

theorem keywordLoop_congr (behind text pad pad' wl : List UInt8) (w w' : Needle) (fuel : ℕ) :
    keywordLoop behind (text ++ pad) text.length w wl fuel =
      keywordLoop behind (text ++ pad') text.length w' wl fuel := by
  have hturn : keywordTurn behind (text ++ pad) text.length =
      keywordTurn behind (text ++ pad') text.length :=
    funext (keywordTurn_congr behind text pad pad')
  rw [keywordLoop, keywordLoop, copyWord_congr behind w w', hturn]

theorem keywordLoop_found (h : copyWord behind w wl = .ok s) (hword : cstr s.word.bytes ≠ [])
    (pad : List UInt8) (fuel : ℕ) :
    keywordLoop behind (cstr s.word.bytes ++ pad) (cstr s.word.bytes).length w wl (fuel + 1) =
      some (.ok true) := by
  have hfound := (wordFound_iff (notMem_cstr s.word.bytes) hword (cstr s.word.bytes) pad).mpr
    (List.infix_refl _)
  simp only [keywordLoop, h]
  exact LoopRun.loop_of_inr (turn_found behind hword hfound) fuel

/-- Nothing is found in a text without length. -/
theorem keywordLoop_zero (behind haystack wl : List UInt8) (w : Needle) (fuel : ℕ) :
    keywordLoop behind haystack 0 w wl fuel ≠ some (.ok true) := by
  intro h
  have hturn : ∀ s b, keywordTurn behind haystack 0 s = .inr b → b ≠ .ok true := by
    intro s b hturn
    have hmiss : ¬ WordFound (cstr s.word.bytes) haystack 0 := fun hfound => hfound.1 rfl
    by_cases hword : cstr s.word.bytes = []
    · rw [turn_empty _ _ _ hword] at hturn
      cases hturn
      simp
    · rw [turn_next behind hword hmiss] at hturn
      split at hturn
      · cases hturn
        simp
      · cases hturn
  rw [keywordLoop] at h
  split at h
  · cases h
  · let P (_ : Split) (b : Except Fault Bool) : Prop := b ≠ .ok true
    exact LoopRun.finishes_induction (P := P) hturn (fun _ _ _ _ ih => ih) ⟨fuel, h⟩ rfl

end Run

/-! ## When the keywords are found -/

section Exact

variable {behind text : List UInt8} {ks : List Keyword} {k : Keyword} {b : Bool}

def leading (ks : List Keyword) : List Keyword := ks.takeWhile fun k => k.text ≠ []

def hidden (ks : List Keyword) : List Keyword := ks.dropWhile fun k => k.text ≠ []

/-- When the keywords are found as they should. -/
structure Exact (behind : List UInt8) (ks : List Keyword) (text : List UInt8) : Prop where
  /-- A keyword that is copied with another behind it has place for its separator. -/
  fits : ∀ pre k next post, ks = pre ++ k :: next :: post →
    (∀ w ∈ pre, w.text ≠ [] ∧ ¬ Occurs tolower w text) → Fits behind k
  /-- No keyword behind an empty one is the only one in the text. -/
  hidden : ∀ w ∈ hidden ks, w.text ≠ [] → Occurs asciiLower w text →
    ∃ v ∈ leading ks, Occurs tolower v text
  /-- No keyword is in the text by capital letters of Latin-1 alone. -/
  ascii : ∀ v ∈ leading ks, Occurs tolower v text →
    ∃ w ∈ ks, w.text ≠ [] ∧ Occurs asciiLower w text

theorem tolower_asciiLower (c : UInt8) : tolower (asciiLower c) = tolower c := by
  rw [asciiLower]
  split
  · next hc =>
    have hupper : isUpper c = true := by simp [isUpper, hc]
    have hlower : isUpper (c + 32) = false := by
      simp only [isUpper, UInt8.le_iff_toNat_le, UInt8.toNat_add, ne_eq, ← UInt8.toNat_inj,
        decide_eq_false_iff_not] at hc ⊢
      simp at hc ⊢
      omega
    simp only [tolower, hupper, hlower, if_true, Bool.false_eq_true, if_false]
  · rfl

theorem occurs_tolower (h : Occurs asciiLower k text) : Occurs tolower k text := by
  have hmap := h.map tolower
  simp only [List.map_map, Function.comp_def, tolower_asciiLower] at hmap
  exact hmap

theorem scan_ok_iff (h : scan behind text ks = .ok b) :
    b = true ↔ ∃ k ∈ leading ks, Occurs tolower k text := by
  induction ks with
  | nil =>
    cases h
    simp [leading]
  | cons k rest ih =>
    rw [scan] at h
    split at h
    · cases h
    · split at h
      · next hempty =>
        cases h
        simp [leading, hempty]
      · next hk =>
        have hleading : leading (k :: rest) = k :: leading rest := by
          simp [leading, hk]
        rw [hleading]
        split at h
        · next hoccurs =>
          cases h
          simp [hoccurs]
        · next hnot => simp [hnot, ih h]

/-- The loop runs without a fault when every keyword that it copies fits. -/
theorem exists_scan_ok_iff :
    (∃ b, scan behind text ks = .ok b) ↔
      ∀ pre k next post, ks = pre ++ k :: next :: post →
        (∀ w ∈ pre, w.text ≠ [] ∧ ¬ Occurs tolower w text) → Fits behind k := by
  induction ks with
  | nil => simp [scan]
  | cons k rest ih =>
    rw [scan]
    constructor
    · rintro ⟨b, h⟩ pre k' next post heq hpre
      split at h
      · cases h
      · next hcopies =>
        cases pre with
        | nil =>
          obtain ⟨rfl, rfl⟩ := List.cons.inj heq
          simpa using hcopies
        | cons w pre =>
          obtain ⟨rfl, hrest⟩ := List.cons.inj heq
          obtain ⟨⟨hk, hnot⟩, hpre⟩ := List.forall_mem_cons.mp hpre
          rw [if_neg hk, if_neg hnot] at h
          exact ih.mp ⟨b, h⟩ pre k' next post hrest hpre
    · intro h
      have hcopies : ¬ (rest ≠ [] ∧ ¬ Fits behind k) := by
        rintro ⟨hrest, hnot⟩
        obtain ⟨next, post, rfl⟩ := List.exists_cons_of_ne_nil hrest
        exact hnot (h [] k next post rfl (by simp))
      rw [if_neg hcopies]
      by_cases hk : k.text = []
      · exact ⟨false, if_pos hk⟩
      · rw [if_neg hk]
        by_cases hoccurs : Occurs tolower k text
        · exact ⟨true, if_pos hoccurs⟩
        · rw [if_neg hoccurs]
          refine ih.mpr fun pre k' next post heq hpre => ?_
          exact h (k :: pre) k' next post (by rw [heq, List.cons_append])
            (List.forall_mem_cons.mpr ⟨⟨hk, hoccurs⟩, hpre⟩)

/-- The loop ends with the right answer when the list is `Exact` for the text, and only then. -/
theorem keywordLoop_exact_iff (behind text pad : List UInt8) (w : Needle) (ks : List Keyword) :
    (∃ found, (∃ fuel, keywordLoop behind (text ++ pad) text.length w (wordlist ks) fuel =
        some (.ok found)) ∧
      (found = true ↔ ∃ k ∈ ks, k.text ≠ [] ∧ Occurs asciiLower k text)) ↔
      Exact behind ks text := by
  have hsplit : leading ks ++ hidden ks = ks := List.takeWhile_append_dropWhile
  constructor
  · rintro ⟨found, hrun, hfound⟩
    have hscan := ((returns_wordlist behind text pad w ks).mp hrun).symm
    have hleading := scan_ok_iff hscan
    refine ⟨exists_scan_ok_iff.mp ⟨found, hscan⟩, fun w hw hne hoccurs => ?_,
      fun v hv hoccurs => ?_⟩
    · exact hleading.mp (hfound.mpr ⟨w, hsplit ▸ List.mem_append_right _ hw, hne, hoccurs⟩)
    · exact hfound.mp (hleading.mpr ⟨v, hv, hoccurs⟩)
  · intro h
    obtain ⟨found, hscan⟩ := exists_scan_ok_iff.mpr h.fits
    refine ⟨found, (returns_wordlist behind text pad w ks).mpr hscan.symm, ?_⟩
    rw [scan_ok_iff hscan]
    constructor
    · rintro ⟨v, hv, hoccurs⟩
      exact h.ascii v hv hoccurs
    · rintro ⟨w, hw, hne, hoccurs⟩
      rw [← hsplit, List.mem_append] at hw
      obtain hw | hw := hw
      · exact ⟨w, hw, occurs_tolower hoccurs⟩
      · exact h.hidden w hw hne hoccurs

def fooBar : List Keyword :=
  [⟨bytes "foo", by decide, by decide, by decide⟩, ⟨[], by decide, by decide, by decide⟩,
    ⟨bytes "bar", by decide, by decide, by decide⟩]

/-- `foo<&nbsp;><&nbsp;>bar` lets the host `bar.com` pass. -/
theorem keyword_hidden :
    ¬ ∃ found, (∃ fuel, keywordLoop [] (bytes "bar.com" ++ [0]) (bytes "bar.com").length
        ⟨List.replicate bufsize 0, List.length_replicate⟩ (wordlist fooBar) fuel =
          some (.ok found)) ∧
      (found = true ↔ ∃ k ∈ fooBar, k.text ≠ [] ∧ Occurs asciiLower k (bytes "bar.com")) := by
  rintro ⟨found, hrun, hfound⟩
  have hscan : scan [] (bytes "bar.com") fooBar = .ok false := by decide +kernel
  have hfalse := ((returns_wordlist [] (bytes "bar.com") [0] _ fooBar).mp hrun).trans hscan
  cases hfalse
  have hoccurs : ∃ k ∈ fooBar, k.text ≠ [] ∧ Occurs asciiLower k (bytes "bar.com") := by
    decide +kernel
  exact absurd (hfound.mpr hoccurs) (by decide)

end Exact

end WebKeywords
