import RouterFirmware.CString
import RouterFirmware.Ipv6Text

/-! # The long text of an IPv6 address

`IPv6_to_regular` puts the groups into the rows of an array, moves those behind the `::` to its end
and writes all eight rows back.
-/
namespace Ipv6Regular

open Ipv4Text (isHexDigit hexDigit)
open TextStream CString Ipv6Text

/-- The bytes from `tmp_addr` on. Its rows of four bytes lie one behind the other. -/
abbrev Rows := ℕ → Char

def row (tmp : Rows) (j : ℕ) : Text :=
  [tmp (4 * j), tmp (4 * j + 1), tmp (4 * j + 2), tmp (4 * j + 3)]

/-- `tmp_addr[j][0] = a; …` -/
def setRow (tmp : Rows) (j : ℕ) (a b c d : Char) : Rows := fun p =>
  if p = 4 * j then a else if p = 4 * j + 1 then b
  else if p = 4 * j + 2 then c else if p = 4 * j + 3 then d else tmp p

def moveRow (tmp : Rows) (j k : ℕ) : Rows :=
  setRow tmp j (tmp (4 * k)) (tmp (4 * k + 1)) (tmp (4 * k + 2)) (tmp (4 * k + 3))

/-- `strtok` with the delimiter `:` -/
def tokens (t : Text) : List Text := (t.splitOn ':').filter (· ≠ [])

/-- `strcpy(tmp_addr[count], pch)`, where the array has `size` bytes. The NUL of a long token falls
into the next row. -/
def copyRow (size : ℕ) (tmp : Rows) (count : ℕ) (pch : Text) : Except Fault Rows :=
  if 4 * count + pch.length < size then
    .ok fun p => if p < 4 * count then tmp p else (pch ++ ['\x00']).getD (p - 4 * count) (tmp p)
  else .error .writePastEnd

def padRow (tmp : Rows) (count : ℕ) : ℕ → Rows
  | 1 => setRow tmp count '0' '0' '0' (tmp (4 * count))
  | 2 => setRow tmp count '0' '0' (tmp (4 * count)) (tmp (4 * count + 1))
  | 3 => setRow tmp count '0' (tmp (4 * count)) (tmp (4 * count + 1)) (tmp (4 * count + 2))
  | _ => tmp

/-- The loop over the tokens leaves the rows and their number. -/
def storeTokens (size : ℕ) : List Text → ℕ → Rows → Except Fault (Rows × ℕ)
  | [], count, tmp => .ok (tmp, count)
  | pch :: rest, count, tmp => do
    let tmp ← copyRow size tmp count pch
    storeTokens size rest (count + 1) (padRow tmp count pch.length)

/-- The bytes of the string's buffer: the string, its NUL and what lies behind it. -/
def contents (ipAddr : Text) (behind : ℕ → Char) (i : ℕ) : Char :=
  (ipAddr ++ ['\x00']).getD i (behind i)

/-- `calue` at the first `::` among `n` places from `i` on. -/
def doubleColon (buffer : ℕ → Char) : ℕ → ℕ → ℕ → Option ℕ
  | 0, _, _ => none
  | n + 1, i, calue =>
    let calue := if buffer i = ':' ∧ 0 < i then calue + 1 else calue
    if buffer i = ':' ∧ buffer (i + 1) = ':' then some calue
    else doubleColon buffer n (i + 1) calue

/-- The loops over `j` and `k`: the rows from `calue` on go to the end, zeros come before them. -/
def spread (tmp : Rows) (count calue : ℕ) : Rows :=
  let moved := count - calue
  let tmp := (List.range moved).foldl (fun tmp t => moveRow tmp (7 - t) (count - 1 - t)) tmp
  (List.range (8 - moved - calue)).foldl
    (fun tmp t => setRow tmp (7 - moved - t) '0' '0' '0' '0') tmp

def output (tmp : Rows) : Text :=
  (List.range 39).map fun j => if j % 5 = 4 then ':' else tmp (4 * (j / 5) + j % 5)

/-- `IPv6_to_regular` with `size` bytes for the rows, of which `stack` is what they hold before. -/
def regularIn (size : ℕ) (stack : Rows) (behind : ℕ → Char) (ipAddr : Text) :
    Except Fault Text := do
  if 128 ≤ ipAddr.length then throw .writePastEnd
  let (tmp, count) ← storeTokens size (tokens ipAddr) 0 stack
  match doubleColon (contents ipAddr behind) 39 0 0 with
  | none => return output tmp
  | some calue => return output (spread tmp count calue)

def ipv6ToRegular : Rows → (ℕ → Char) → Text → Except Fault Text := regularIn 32

section Rows

variable {tmp : Rows} {size count n j k m : ℕ} {a b c d : Char} {g : Group}

@[simp] theorem row_setRow_self : row (setRow tmp j a b c d) j = [a, b, c, d] := by
  simp [row, setRow]

theorem row_setRow_of_ne (h : k ≠ j) : row (setRow tmp j a b c d) k = row tmp k := by
  have hout : ∀ r < 4, setRow tmp j a b c d (4 * k + r) = tmp (4 * k + r) := by
    intro r hr
    simp only [setRow]
    rw [if_neg (by omega), if_neg (by omega), if_neg (by omega), if_neg (by omega)]
  simpa [row] using ⟨hout 0 (by decide), hout 1 (by decide), hout 2 (by decide), hout 3 (by decide)⟩

theorem row_moveRow_self : row (moveRow tmp j k) j = row tmp k := row_setRow_self

def rows (tmp : Rows) (count : ℕ) : List Text := (List.range count).map (row tmp)

theorem rows_succ (tmp : Rows) (count : ℕ) :
    rows tmp (count + 1) = rows tmp count ++ [row tmp count] := by
  simp [rows, List.range_succ]

theorem rows_congr {tmp' : Rows} (h : ∀ k < count, row tmp' k = row tmp k) :
    rows tmp' count = rows tmp count :=
  List.map_congr_left fun k hk => h k (List.mem_range.mp hk)

theorem output_eq (tmp : Rows) : output tmp = [':'].intercalate (rows tmp 8) := rfl

theorem row_padRow_copied (tmp : Rows) (count : ℕ) (g : Group) :
    row (padRow (fun p => if p < 4 * count then tmp p
      else (g.text ++ ['\x00']).getD (p - 4 * count) (tmp p)) count g.text.length) count =
      g.padded := by
  obtain ⟨text, hne, hle, -⟩ := g
  match text, hne, hle with
  | [a], _, _ => simp [padRow, Group.padded]
  | [a, b], _, _ => simp [padRow, Group.padded]
  | [a, b, c], _, _ => simp [padRow, Group.padded]
  | [a, b, c, d], _, _ => simp [padRow, Group.padded, row]

theorem row_padRow_of_lt (h : k < count) (tmp : Rows) (n : ℕ) :
    row (padRow tmp count n) k = row tmp k := by
  unfold padRow
  split
  · exact row_setRow_of_ne h.ne
  · exact row_setRow_of_ne h.ne
  · exact row_setRow_of_ne h.ne
  · rfl

theorem copyRow_group (h : 4 * count + g.text.length < size) (tmp : Rows) :
    ∃ tmp', copyRow size tmp count g.text = .ok tmp' ∧
      rows (padRow tmp' count g.text.length) (count + 1) = rows tmp count ++ [g.padded] := by
  refine ⟨_, if_pos h, ?_⟩
  rw [rows_succ, row_padRow_copied]
  congr 1
  refine rows_congr fun k hk => (row_padRow_of_lt hk _ _).trans ?_
  have hbefore : ∀ r < 4, 4 * k + r < 4 * count := by omega
  have hfirst := hbefore 0 (by decide)
  rw [Nat.add_zero] at hfirst
  simp only [row, if_pos hfirst, if_pos (hbefore 1 (by decide)), if_pos (hbefore 2 (by decide)),
    if_pos (hbefore 3 (by decide))]

theorem storeTokens_cons {tmp₁ : Rows} {pch : Text} (h : copyRow size tmp count pch = .ok tmp₁)
    (rest : List Text) : storeTokens size (pch :: rest) count tmp =
      storeTokens size rest (count + 1) (padRow tmp₁ count pch.length) := by
  rw [storeTokens, h]
  rfl

/-- Every group fits into its row, and its NUL into the array. -/
theorem storeTokens_groups {gs : List Group}
    (h : ∀ i g, gs[i]? = some g → 4 * (count + i) + g.text.length < size) (tmp : Rows) :
    ∃ tmp', storeTokens size (gs.map Group.text) count tmp = .ok (tmp', count + gs.length) ∧
      rows tmp' (count + gs.length) = rows tmp count ++ gs.map Group.padded := by
  induction gs generalizing count tmp with
  | nil => exact ⟨tmp, rfl, by simp⟩
  | cons g gs ih =>
    have hfits : 4 * count + g.text.length < size := h 0 g rfl
    obtain ⟨tmp₁, hcopy, hrow⟩ := copyRow_group hfits tmp
    have hlater : ∀ i e, gs[i]? = some e → 4 * (count + 1 + i) + e.text.length < size := by
      intro i e he
      have hfits := h (i + 1) e he
      omega
    obtain ⟨tmp₂, hrun, hrows⟩ := ih hlater (padRow tmp₁ count g.text.length)
    have hcount : count + 1 + gs.length = count + (g :: gs).length := by
      simp only [List.length_cons]
      omega
    rw [hcount] at hrun hrows
    refine ⟨tmp₂, ?_, ?_⟩
    · exact (storeTokens_cons hcopy _).trans hrun
    · rw [hrows, hrow, List.append_assoc]
      rfl

theorem storeTokens_overflow {gs : List Group}
    (h : ∀ i g, gs[i]? = some g → 4 * (count + i) + g.text.length < size)
    (hover : size ≤ 4 * (count + gs.length) + g.text.length) (tmp : Rows) :
    storeTokens size ((gs ++ [g]).map Group.text) count tmp = .error .writePastEnd := by
  induction gs generalizing count tmp with
  | nil =>
    have hcopy : copyRow size tmp count g.text = .error .writePastEnd :=
      if_neg (not_lt.mpr (by simpa using hover))
    rw [List.nil_append, List.map_singleton, storeTokens, hcopy]
    rfl
  | cons e gs ih =>
    have hfits : 4 * count + e.text.length < size := h 0 e rfl
    obtain ⟨tmp₁, hcopy, -⟩ := copyRow_group hfits tmp
    have hlater : ∀ i e, gs[i]? = some e → 4 * (count + 1 + i) + e.text.length < size := by
      intro i d hd
      have hfits := h (i + 1) d hd
      omega
    have hrun := ih hlater (by simp only [List.length_cons] at hover; omega)
      (padRow tmp₁ count e.text.length)
    exact (storeTokens_cons hcopy _).trans hrun

/-- `n` rows have gone to the end of the array. -/
theorem row_moved (hn : n ≤ count) (hcount : count ≤ 7) (tmp : Rows) (j : ℕ) :
    row ((List.range n).foldl (fun tmp t => moveRow tmp (7 - t) (count - 1 - t)) tmp) j =
      if 8 ≤ j + n ∧ j ≤ 7 then row tmp (count - 1 - (7 - j)) else row tmp j := by
  induction n generalizing j with
  | zero => rw [List.range_zero, List.foldl_nil, if_neg (by omega)]
  | succ n ih =>
    have hrows := ih (by omega)
    rw [List.range_succ, List.foldl_append, List.foldl_cons, List.foldl_nil]
    by_cases hj : j = 7 - n
    · subst hj
      rw [row_moveRow_self, hrows, if_neg (by omega), if_pos (by omega)]
      congr 1
      omega
    · rw [moveRow, row_setRow_of_ne hj, hrows]
      exact if_congr (by omega) rfl rfl

theorem row_zeroed (hn : n ≤ m + 1) (tmp : Rows) (j : ℕ) :
    row ((List.range n).foldl (fun tmp t => setRow tmp (m - t) '0' '0' '0' '0') tmp) j =
      if m < j + n ∧ j ≤ m then List.replicate 4 '0' else row tmp j := by
  induction n generalizing j with
  | zero => rw [List.range_zero, List.foldl_nil, if_neg (by omega)]
  | succ n ih =>
    have hrows := ih (by omega)
    rw [List.range_succ, List.foldl_append, List.foldl_cons, List.foldl_nil]
    by_cases hj : j = m - n
    · subst hj
      rw [row_setRow_self, if_pos (by omega)]
      rfl
    · rw [row_setRow_of_ne hj, hrows]
      exact if_congr (by omega) rfl rfl

theorem row_spread (hcalue : k ≤ count) (hcount : count ≤ 7) (tmp : Rows) (hj : j < 8) :
    row (spread tmp count k) j =
      if 8 ≤ j + (count - k) then row tmp (count - 1 - (7 - j))
      else if k ≤ j then List.replicate 4 '0' else row tmp j := by
  simp only [spread]
  rw [row_zeroed (by omega), row_moved (by omega) hcount]
  by_cases hend : 8 ≤ j + (count - k)
  · rw [if_neg (by omega), if_pos (by omega), if_pos hend]
  · rw [if_neg hend]
    by_cases hfill : k ≤ j
    · rw [if_pos (by omega), if_pos hfill]
    · rw [if_neg (by omega), if_neg (by omega), if_neg hfill]

theorem rows_getElem? (tmp : Rows) (h : j < n) : (rows tmp n)[j]? = some (row tmp j) := by
  simp [rows, h]

/-- All rows after the loops over `j` and `k`. -/
theorem rows_spread {front back : List Text} (hcount : front.length + back.length ≤ 7)
    (hrows : rows tmp (front.length + back.length) = front ++ back) :
    rows (spread tmp (front.length + back.length) front.length) 8 =
      front ++ List.replicate (8 - (front.length + back.length)) (List.replicate 4 '0') ++
        back := by
  have hread : ∀ i, i < front.length + back.length → (front ++ back)[i]? = some (row tmp i) :=
    fun i hi => hrows ▸ rows_getElem? tmp hi
  refine List.ext_getElem? fun j => ?_
  by_cases hj : j < 8
  · rw [rows_getElem? _ hj, row_spread (by omega) hcount tmp hj]
    by_cases hend : 8 ≤ j + back.length
    · rw [if_pos (by omega), ← hread _ (by omega), List.getElem?_append_right (by omega),
        List.getElem?_append_right (by simp; omega)]
      congr 1
      simp only [List.length_append, List.length_replicate]
      omega
    · rw [if_neg (by omega), List.getElem?_append_left (by simp; omega)]
      by_cases hfront : front.length ≤ j
      · rw [if_pos hfront, List.getElem?_append_right hfront,
          List.getElem?_replicate_of_lt (by omega)]
      · rw [if_neg hfront, ← hread j (by omega), List.getElem?_append_left (by omega),
          List.getElem?_append_left (by omega)]
  · rw [List.getElem?_eq_none (by simp [rows]; omega), List.getElem?_eq_none (by simp; omega)]

end Rows

section Colons

variable {buffer : ℕ → Char} {i k n r : ℕ} {c : Char} {u w : Text}

/-- `w` stands at place `i`. -/
def Holds (buffer : ℕ → Char) (i : ℕ) (w : Text) : Prop :=
  ∀ j c, w[j]? = some c → buffer (i + j) = c

theorem holds_cons : Holds buffer i (c :: w) ↔ buffer i = c ∧ Holds buffer (i + 1) w := by
  constructor
  · intro h
    refine ⟨h 0 c rfl, fun j d hd => ?_⟩
    have hplace := h (j + 1) d hd
    rwa [← Nat.add_assoc, Nat.add_right_comm] at hplace
  · intro h j d hd
    cases j with
    | zero => exact h.1.trans (Option.some.inj hd)
    | succ j =>
      have hplace := h.2 j d hd
      rwa [Nat.add_right_comm] at hplace

theorem Holds.right (h : Holds buffer i (u ++ w)) : Holds buffer (i + u.length) w := by
  intro j c hc
  rw [Nat.add_assoc]
  refine h (u.length + j) c ?_
  rwa [List.getElem?_append_right (by omega), Nat.add_sub_cancel_left]

theorem Holds.left (h : Holds buffer i (u ++ w)) : Holds buffer i u := by
  intro j c hc
  refine h j c ?_
  rwa [List.getElem?_append_left (List.getElem?_eq_some_iff.mp hc).choose]

theorem holds_contents (t : Text) (behind : ℕ → Char) :
    Holds (contents t behind) 0 (t ++ ['\x00']) := by
  intro j c hc
  rw [Nat.zero_add, contents, List.getD_eq_getElem?_getD, hc]
  rfl

theorem doubleColon_succ (buffer : ℕ → Char) (n i calue : ℕ) :
    doubleColon buffer (n + 1) i calue =
      if buffer i = ':' ∧ buffer (i + 1) = ':' then
        some (if buffer i = ':' ∧ 0 < i then calue + 1 else calue)
      else doubleColon buffer n (i + 1)
        (if buffer i = ':' ∧ 0 < i then calue + 1 else calue) := rfl

theorem doubleColon_digits (h : Holds buffer i (w ++ u)) (hw : ':' ∉ w) (n k : ℕ) :
    doubleColon buffer (w.length + n) i k = doubleColon buffer n (i + w.length) k := by
  induction w generalizing i with
  | nil => simp
  | cons c w ih =>
    obtain ⟨hc, hrest⟩ := holds_cons.mp h
    obtain ⟨hne, hw⟩ := not_or.mp (List.mem_cons.not.mp hw)
    have hcolon : buffer i ≠ ':' := hc.trans_ne (Ne.symm hne)
    have hlen : (c :: w).length + n = w.length + n + 1 := Nat.add_right_comm _ _ _
    rw [hlen, doubleColon_succ]
    simp only [hcolon, false_and, if_false]
    rw [ih hrest hw, List.length_cons]
    congr 1
    omega

/-- The text goes on behind the digits when a `::` is found at all. -/
theorem doubleColon_behind_digits (h : Holds buffer i (w ++ u)) (hw : ':' ∉ w)
    (hfound : doubleColon buffer n i k = some r) :
    ∃ m, doubleColon buffer m (i + w.length) k = some r := by
  induction w generalizing i n with
  | nil => exact ⟨n, hfound⟩
  | cons c w ih =>
    obtain ⟨hc, hrest⟩ := holds_cons.mp h
    obtain ⟨hne, hw⟩ := not_or.mp (List.mem_cons.not.mp hw)
    have hcolon : buffer i ≠ ':' := hc.trans_ne (Ne.symm hne)
    cases n with
    | zero => cases hfound
    | succ n =>
      simp only [doubleColon_succ, hcolon, false_and, if_false] at hfound
      obtain ⟨m, hm⟩ := ih hrest hw hfound
      refine ⟨m, ?_⟩
      rwa [List.length_cons, Nat.add_comm w.length, ← Nat.add_assoc]

theorem doubleColon_single (hi : 0 < i) (h : Holds buffer i (':' :: c :: u)) (hc : c ≠ ':')
    (n k : ℕ) : doubleColon buffer (n + 1) i k = doubleColon buffer n (i + 1) (k + 1) := by
  obtain ⟨hcolon, hrest⟩ := holds_cons.mp h
  have hnext : buffer (i + 1) ≠ ':' := (holds_cons.mp hrest).1.trans_ne hc
  simp [doubleColon_succ, hcolon, hi, hnext]

theorem le_doubleColon (hi : 0 < i) (h : doubleColon buffer n i k = some r) : k < r := by
  induction n generalizing i k with
  | zero => cases h
  | succ n ih =>
    simp only [doubleColon_succ, hi, and_true] at h
    by_cases hcolon : buffer i = ':'
    · simp only [hcolon, if_true, true_and] at h
      split at h
      · cases h
        exact Nat.lt_succ_self k
      · exact (Nat.lt_succ_self k).trans (ih (Nat.succ_pos i) h)
    · simp only [hcolon, if_false, false_and] at h
      exact ih (Nat.succ_pos i) h

/-- The `::` behind the groups. -/
theorem doubleColon_groups {f : List Group} (hf : f ≠ [])
    (h : Holds buffer i (beforeColon f ++ [':'])) (n k : ℕ) :
    doubleColon buffer ((beforeColon f).length + n) i k = some (k + f.length) := by
  induction f generalizing i k with
  | nil => exact absurd rfl hf
  | cons g f ih =>
    have htext : beforeColon (g :: f) ++ [':'] = g.text ++ ':' :: (beforeColon f ++ [':']) := by
      simp [beforeColon]
    have hlen : (beforeColon (g :: f)).length + n =
        g.text.length + ((beforeColon f).length + n + 1) := by
      simp only [beforeColon, List.flatMap_cons, List.length_append, List.length_singleton]
      omega
    rw [htext] at h
    have hpos : 0 < i + g.text.length := Nat.add_pos_right _ g.length_pos
    have hbehind := h.right
    rw [hlen, doubleColon_digits h g.colon_not_mem]
    cases f with
    | nil =>
      obtain ⟨hcolon, hrest⟩ := holds_cons.mp hbehind
      have hnext : buffer (i + g.text.length + 1) = ':' := (holds_cons.mp hrest).1
      simp [doubleColon_succ, hcolon, hnext, hpos]
    | cons e f =>
      obtain ⟨c, t, he, hc⟩ := e.exists_cons
      have hdigit : Holds buffer (i + g.text.length)
          (':' :: c :: (t ++ ':' :: (beforeColon f ++ [':']))) := by
        simpa [beforeColon, he] using hbehind
      rw [doubleColon_single hpos hdigit hc, ih (List.cons_ne_nil _ _) (holds_cons.mp hbehind).2]
      simp only [List.length_cons]
      congr 1
      omega

/-- A `::` behind the end of the string comes after a colon for each group. -/
theorem le_doubleColon_joined {g : Group} {gs : List Group}
    (h : Holds buffer i (joined (g :: gs) ++ ['\x00']))
    (hfound : doubleColon buffer n i k = some r) : k + gs.length < r := by
  induction gs generalizing g i k n with
  | nil =>
    obtain ⟨m, hm⟩ := doubleColon_behind_digits h (by simpa [joined] using g.colon_not_mem) hfound
    refine le_doubleColon ?_ hm
    simpa [joined] using Nat.add_pos_right i g.length_pos
  | cons e gs ih =>
    rw [joined_cons_cons, List.append_assoc] at h
    obtain ⟨m, hm⟩ := doubleColon_behind_digits h g.colon_not_mem hfound
    obtain ⟨c, t, he, hc⟩ := e.exists_cons
    have hpos : 0 < i + g.text.length := Nat.add_pos_right _ g.length_pos
    have hbehind := h.right
    have hdigit : Holds buffer (i + g.text.length)
        (':' :: c :: (t ++ (behindColon gs ++ ['\x00']))) := by
      simpa [joined_cons, he] using hbehind
    cases m with
    | zero => cases hm
    | succ m =>
      rw [doubleColon_single hpos hdigit hc] at hm
      have hlt := ih (holds_cons.mp hbehind).2 hm
      rw [List.length_cons]
      omega

end Colons

section Expansion

variable {s : Spelling} {tmp : Rows} {size : ℕ}

def expanded (s : Spelling) : Spelling :=
  .full (s.groups.map Group.expanded) (by rw [List.length_map, s.length_groups])

theorem text_expanded (s : Spelling) :
    (expanded s).text = [':'].intercalate (s.groups.map Group.padded) := by
  rw [expanded, Spelling.text, joined, List.map_map]
  rfl

theorem text_expanded_congr {t : Spelling} (h : s.digits = t.digits) :
    (expanded s).text = (expanded t).text := by
  have hlengths : ∀ u : Spelling, (u.groups.map Group.padded).map List.length =
      List.replicate 8 4 := by
    intro u
    rw [List.map_map, List.eq_replicate_iff, List.length_map]
    refine ⟨u.length_groups, fun n hn => ?_⟩
    obtain ⟨g, -, rfl⟩ := List.mem_map.mp hn
    exact g.length_padded
  rw [Spelling.digits, Spelling.digits, List.flatMap_def, List.flatMap_def] at h
  have hpadded : s.groups.map Group.padded = t.groups.map Group.padded :=
    List.eq_iff_flatten_eq.mpr ⟨h, (hlengths s).trans (hlengths t).symm⟩
  rw [text_expanded, text_expanded, hpadded]

theorem tokens_joined (gs : List Group) : tokens (joined gs) = gs.map Group.text := by
  cases gs with
  | nil => rfl
  | cons g gs =>
    have hcolon : ∀ t ∈ (g :: gs).map Group.text, ':' ∉ t := by
      intro t ht
      obtain ⟨e, -, rfl⟩ := List.mem_map.mp ht
      exact e.colon_not_mem
    rw [tokens, joined, List.splitOn_intercalate ':' hcolon (by simp), List.filter_eq_self]
    intro t ht
    obtain ⟨e, -, rfl⟩ := List.mem_map.mp ht
    simpa using e.nonempty

theorem tokens_append (t u : Text) : tokens (t ++ ':' :: u) = tokens t ++ tokens u := by
  rw [tokens, List.splitOn_append_cons_self, List.filter_append]
  rfl

theorem tokens_gap (front back : List Group) :
    tokens (joined front ++ ':' :: ':' :: joined back) = (front ++ back).map Group.text := by
  have hback : tokens (':' :: joined back) = tokens (joined back) := tokens_append [] _
  rw [tokens_append, hback, tokens_joined, tokens_joined, List.map_append]

theorem tokens_text (s : Spelling) : tokens s.text = s.written.map Group.text := by
  cases s with
  | full groups _ => exact tokens_joined groups
  | short front back _ => exact tokens_gap front back

/-- Every NUL of the rows falls into an array of `size` bytes. -/
def Fits (size : ℕ) (s : Spelling) : Prop :=
  ∀ i g, s.written[i]? = some g → 4 * i + g.text.length < size

theorem storeTokens_text (h : Fits size s) (stack : Rows) :
    ∃ tmp, storeTokens size (tokens s.text) 0 stack = .ok (tmp, s.written.length) ∧
      rows tmp s.written.length = s.written.map Group.padded := by
  have hfits : ∀ i g, s.written[i]? = some g → 4 * (0 + i) + g.text.length < size := by
    intro i g hg
    rw [Nat.zero_add]
    exact h i g hg
  obtain ⟨tmp, hrun, hrows⟩ := storeTokens_groups hfits stack
  rw [Nat.zero_add] at hrun hrows
  exact ⟨tmp, (tokens_text s).symm ▸ hrun, hrows⟩

theorem doubleColon_short (front back : List Group) (count : front.length + back.length ≤ 7)
    (behind : ℕ → Char) : doubleColon (contents (Spelling.short front back count).text behind)
      39 0 0 = some front.length := by
  cases front with
  | nil => rfl
  | cons g front =>
    have hlen := length_beforeColon_le (g :: front)
    have hfuel : 39 = (beforeColon (g :: front)).length +
        (39 - (beforeColon (g :: front)).length) := by
      omega
    have htext : (Spelling.short (g :: front) back count).text ++ ['\x00'] =
        beforeColon (g :: front) ++ [':'] ++ (joined back ++ ['\x00']) := by
      simp [Spelling.text, ← joined_colon (List.cons_ne_nil g front)]
    have hholds := holds_contents (Spelling.short (g :: front) back count).text behind
    rw [htext] at hholds
    rw [hfuel, doubleColon_groups (List.cons_ne_nil g front) hholds.left, Nat.zero_add]

/-- Behind a text of eight groups nothing is moved any more. -/
theorem spread_full (groups : List Group) (count : groups.length = 8) (behind : ℕ → Char) {r : ℕ}
    (h : doubleColon (contents (Spelling.full groups count).text behind) 39 0 0 = some r)
    (tmp : Rows) : spread tmp 8 r = tmp := by
  obtain ⟨g, gs, rfl⟩ := List.exists_cons_of_ne_nil (List.ne_nil_of_length_eq_add_one count)
  have hlt := le_doubleColon_joined (holds_contents _ behind) h
  rw [List.length_cons] at count
  have hmoved : 8 - r = 0 := by omega
  simp [spread, hmoved]

theorem regularIn_eq (h : Fits size s) (stack : Rows) (behind : ℕ → Char) :
    regularIn size stack behind s.text = .ok (expanded s).text := by
  obtain ⟨tmp, hrun, hrows⟩ := storeTokens_text h stack
  have hlen : ¬ 128 ≤ s.text.length := by
    have hlt := s.length_text_lt
    omega
  have hregular : regularIn size stack behind s.text =
      match doubleColon (contents s.text behind) 39 0 0 with
      | none => .ok (output tmp)
      | some calue => .ok (output (spread tmp s.written.length calue)) := by
    rw [regularIn, if_neg hlen, hrun]
    rfl
  rw [hregular, text_expanded]
  cases s with
  | full groups count =>
    have height : rows tmp 8 = groups.map Group.padded := count ▸ hrows
    have hout : output tmp = [':'].intercalate (groups.map Group.padded) :=
      congrArg ([':'].intercalate ·) height
    cases hcolon : doubleColon (contents (Spelling.full groups count).text behind) 39 0 0 with
    | none => exact congrArg Except.ok hout
    | some calue =>
      have hspread := spread_full groups count behind hcolon tmp
      simp only [Spelling.written, count, hspread]
      exact congrArg Except.ok hout
  | short front back count =>
    rw [doubleColon_short front back count]
    have hrows' : rows tmp ((front.map Group.padded).length + (back.map Group.padded).length) =
        front.map Group.padded ++ back.map Group.padded := by
      simpa [Spelling.written] using hrows
    have hspread := rows_spread (by simpa using count) hrows'
    simp only [List.length_map] at hspread
    simp only [Spelling.written, List.length_append, output_eq, hspread, Spelling.groups,
      List.map_append, List.map_replicate]
    rfl

/-- An eighth group is written with four digits. -/
def EndsWide (s : Spelling) : Prop := ∃ g, s.written[7]? = some g ∧ g.text.length = 4

def FourDigits (s : Spelling) : Prop :=
  ∃ groups count, s = .full groups count ∧ ∀ g ∈ groups, g.text.length = 4

theorem fourDigits_expanded (s : Spelling) : FourDigits (expanded s) := by
  refine ⟨_, _, rfl, fun g hg => ?_⟩
  obtain ⟨e, -, rfl⟩ := List.mem_map.mp hg
  exact e.length_padded

theorem digits_expanded (s : Spelling) : (expanded s).digits = s.digits := by
  have hpadded : ∀ g : Group, g.expanded.padded = g.padded := by
    intro g
    rw [Group.padded, Group.expanded, g.length_padded]
    rfl
  simp only [expanded, Spelling.digits, Spelling.groups, List.flatMap_map, hpadded]

theorem address_expanded (s : Spelling) : (expanded s).address = s.address := by
  rw [Spelling.address, digits_expanded, Spelling.address]

/-- With one more byte the array is large enough for every text. -/
theorem fits_succ (s : Spelling) : Fits 33 s := by
  intro i g hg
  have hi := (List.getElem?_eq_some_iff.mp hg).choose
  have hlen := g.length_le
  have hwritten := s.length_written_le
  omega

theorem fits_of_not_endsWide (h : ¬ EndsWide s) : Fits 32 s := by
  intro i g hg
  have hi := (List.getElem?_eq_some_iff.mp hg).choose
  have hlen := g.length_le
  have hwritten := s.length_written_le
  rcases (show i ≤ 7 by omega).lt_or_eq with hlt | rfl
  · omega
  · have hne : g.text.length ≠ 4 := fun hfour => h ⟨g, hg, hfour⟩
    omega

theorem ipv6ToRegular_of_endsWide (h : EndsWide s) (stack : Rows) (behind : ℕ → Char) :
    ipv6ToRegular stack behind s.text = .error .writePastEnd := by
  obtain ⟨g, hg, hfour⟩ := h
  have hlen : ¬ 128 ≤ s.text.length := by
    have hlt := s.length_text_lt
    omega
  have hi := (List.getElem?_eq_some_iff.mp hg).choose
  have hwritten := s.length_written_le
  have hsplit : s.written = s.written.take 7 ++ [g] := by
    have htake := List.take_append_drop 7 s.written
    rw [List.drop_eq_getElem_cons hi, (List.getElem?_eq_some_iff.mp hg).choose_spec,
      List.drop_eq_nil_of_le (by omega)] at htake
    exact htake.symm
  have hseven : (s.written.take 7).length = 7 := by
    rw [List.length_take]
    omega
  have hfits : ∀ i e, (s.written.take 7)[i]? = some e → 4 * (0 + i) + e.text.length < 32 := by
    intro i e he
    have hlt := (List.getElem?_eq_some_iff.mp he).choose
    have hle := e.length_le
    omega
  have hrun := storeTokens_overflow (g := g) hfits (by omega) stack
  rw [← hsplit, ← tokens_text] at hrun
  rw [ipv6ToRegular, regularIn, if_neg hlen, hrun]
  rfl

theorem digits_eq_of_text_eq {t : Spelling} (h : s.text = t.text) : s.digits = t.digits := by
  have hlong : (expanded s).text = (expanded t).text := by
    have hs := regularIn_eq (fits_succ s) (fun _ => '0') (fun _ => '0')
    have ht := regularIn_eq (fits_succ t) (fun _ => '0') (fun _ => '0')
    rw [h, ht] at hs
    exact (Except.ok.inj hs).symm
  have htokens : ∀ u, (tokens (expanded u).text).flatten = u.digits := by
    intro u
    rw [tokens_text, expanded, Spelling.written, List.map_map, Spelling.digits, List.flatMap_def]
    rfl
  rw [← htokens s, hlong, htokens t]

/-- The long text is right unless its NUL does not fit into the rows any more. -/
theorem ipv6ToRegular_expands_iff (s : Spelling) :
    (∀ stack behind, ∃ t : Spelling, ipv6ToRegular stack behind s.text = .ok t.text ∧
      FourDigits t ∧ t.address = s.address) ↔ ¬ EndsWide s := by
  constructor
  · intro h hwide
    obtain ⟨t, ht, -⟩ := h (fun _ => '\x00') (fun _ => '\x00')
    rw [ipv6ToRegular_of_endsWide hwide] at ht
    cases ht
  · intro hwide stack behind
    exact ⟨expanded s, regularIn_eq (fits_of_not_endsWide hwide) stack behind,
      fourDigits_expanded s, address_expanded s⟩

def one : Group := ⟨['1'], by decide, by decide, forall_of_all (by decide)⟩

def wideEnd : Spelling :=
  .full (List.replicate 7 one ++
    [⟨"1234".toList, by decide, by decide, forall_of_all (by decide)⟩]) rfl

theorem wideEnd_not_expanded : wideEnd.text = "1:1:1:1:1:1:1:1234".toList ∧
    ¬ ∀ stack behind, ∃ t : Spelling, ipv6ToRegular stack behind wideEnd.text = .ok t.text ∧
      FourDigits t ∧ t.address = wideEnd.address := by
  refine ⟨by decide +kernel, fun h => ?_⟩
  obtain ⟨t, ht, -⟩ := h (fun _ => '\x00') (fun _ => '\x00')
  have hfault : ipv6ToRegular (fun _ => '\x00') (fun _ => '\x00') wideEnd.text =
      .error .writePastEnd := by
    decide +kernel
  rw [hfault] at ht
  cases ht

end Expansion

end Ipv6Regular
