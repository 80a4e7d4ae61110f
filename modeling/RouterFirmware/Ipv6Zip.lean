import RouterFirmware.Ipv6Regular

/-! # The short text of an IPv6 address

`IPv6_to_zip` leaves out leading zeros and puts `::` in place of groups that are zero: those around
a `::` of the text, or else the first ones.
-/
namespace Ipv6Zip

open Ipv4Text (isHexDigit hexDigit)
open TextStream CString Ipv6Text Ipv6Regular

/-- What a copying loop does with a character. -/
inductive Turn where
  | skip
  | keep
  | stop
  deriving DecidableEq

/-- The loops that copy a text: what has been copied, and the text from where the loop stopped.
`turn` sees the character, the next one and what has been copied so far. -/
def copyLoop (turn : Char → Char → Text → Turn) (behind : Char) : Text → Text → Text × Text
  | [], out => (out, [])
  | c :: rest, out =>
    match turn c (rest.headD behind) out with
    | .skip => copyLoop turn behind rest out
    | .keep => copyLoop turn behind rest (out ++ [c])
    | .stop => (out, c :: rest)

/-- `idx == 0 || out[idx-1] == ':'` -/
def fresh (out : Text) : Bool := out = [] || out.getLast? = some ':'

def endTurn (c next : Char) (out : Text) : Turn :=
  if out = [] then
    if c = '0' ∨ c = ':' then .skip else .keep
  else if c = '0' ∧ out.getLast? = some ':' ∧ next ≠ ':' ∧ next ≠ '\x00' then .skip
  else .keep

/-- The section before `::`. -/
def frontTurn (c next : Char) (out : Text) : Turn :=
  if c = '0' ∧ next ≠ ':' ∧ fresh out then .skip else .keep

/-- A text without `::`, up to the first group that is zero. -/
def zeroTurn (c next : Char) (out : Text) : Turn :=
  if c = '0' ∧ fresh out then
    if next = ':' ∨ next = '\x00' then .stop else .skip
  else .keep

/-- The loop back from `::`, over the characters before it: `double_colon_idx` and `parse_more`. -/
def trimBack : Text → ℕ → ℕ × Bool
  | [], colon => (colon, false)
  | c :: before, colon =>
    if c = ':' then trimBack before before.length
    else if c ≠ '0' then (colon, true)
    else trimBack before colon

/-- The copy stands in a buffer of 40 bytes. -/
def buffered (copy : Text) : Except Fault Text :=
  if copy.length < 40 then .ok copy else .error .writePastEnd

def ipv6ToZip (ipAddr : Text) : Except Fault Text :=
  match strstr [':', ':'] ipAddr with
  | some (before, rest) => do
    let back ← buffered (copyLoop endTurn '\x00' (rest.drop 2) []).1
    let (colon, parseMore) := trimBack before.reverse before.length
    if parseMore then
      let front ← buffered
        (copyLoop frontTurn ((ipAddr.drop colon).headD '\x00') (ipAddr.take colon) []).1
      return front ++ ':' :: ':' :: back
    else return ':' :: ':' :: back
  | none => do
    let (front, rest) := copyLoop zeroTurn '\x00' ipAddr []
    if rest = [] then buffered front
    else
      let front ← buffered front.dropLast
      let back ← buffered (copyLoop endTurn '\x00' (rest.drop 2) []).1
      return front ++ ':' :: ':' :: back

section Trimming

variable {c d : Char} {t w : Text} {g : Group}

/-- Without zeros in front of another digit. -/
def trim : Text → Text
  | c :: d :: t => if c = '0' then trim (d :: t) else c :: d :: t
  | t => t

theorem trim_suffix (t : Text) : trim t <:+ t := by
  fun_induction trim t with
  | case1 d t ih => exact ih.trans (List.suffix_cons _ _)
  | case2 => exact List.suffix_rfl
  | case3 => exact List.suffix_rfl

theorem trim_ne_nil (h : t ≠ []) : trim t ≠ [] := by
  fun_induction trim t with
  | case1 d t ih => exact ih (List.cons_ne_nil _ _)
  | case2 => exact h
  | case3 => exact h

theorem eq_zeros_append_trim (t : Text) :
    t = List.replicate (t.length - (trim t).length) '0' ++ trim t := by
  fun_induction trim t with
  | case1 d t ih =>
    have hle := (trim_suffix (d :: t)).length_le
    have hsucc : ('0' :: d :: t).length - (trim (d :: t)).length =
        (d :: t).length - (trim (d :: t)).length + 1 := by
      rw [List.length_cons]
      omega
    rw [hsucc, List.replicate_succ, List.cons_append, ← ih]
  | case2 => simp
  | case3 => simp

theorem trim_head (h : (trim t).head? = some '0') : (trim t).length = 1 := by
  fun_induction trim t with
  | case1 d t ih => exact ih h
  | case2 c d t hc => simp [hc] at h
  | case3 t ht =>
    match t, ht with
    | [], _ => simp at h
    | [c], _ => rfl
    | c :: d :: t, ht => exact absurd rfl (ht c d t)

theorem trim_of_head (h : t.head? = some '0' → t.length = 1) : trim t = t := by
  fun_induction trim t with
  | case1 d t => simp at h
  | case2 => rfl
  | case3 => rfl

theorem trim_zeros (hne : t ≠ []) (h : ∀ c ∈ t, c = '0') : trim t = ['0'] := by
  have hsuffix := trim_suffix t
  obtain ⟨c, u, hcons⟩ := List.exists_cons_of_ne_nil (trim_ne_nil hne)
  have hc : c = '0' := h c (hsuffix.subset (by simp [hcons]))
  have hone := @trim_head t (by simp [hcons, hc])
  rw [hcons, List.length_cons, Nat.succ_inj, List.length_eq_zero_iff] at hone
  rw [hcons, hone, hc]

def trimmed (g : Group) : Group where
  text := trim g.text
  nonempty := trim_ne_nil g.nonempty
  length_le := (trim_suffix g.text).length_le.trans g.length_le
  hex c hc := g.hex c ((trim_suffix g.text).subset hc)

theorem minimal_trimmed (g : Group) : (trimmed g).Minimal := trim_head

theorem trimmed_of_minimal (h : g.Minimal) : trimmed g = g := by
  obtain ⟨text, _, _, _⟩ := g
  simp only [trimmed, Group.mk.injEq]
  exact trim_of_head h

theorem padded_trimmed (g : Group) : (trimmed g).padded = g.padded := by
  have hle := (trim_suffix g.text).length_le
  have hfour := g.length_le
  have hzeros : 4 - (trim g.text).length =
      (4 - g.text.length) + (g.text.length - (trim g.text).length) := by
    omega
  rw [Group.padded, Group.padded, trimmed, hzeros, ← List.replicate_append_replicate,
    List.append_assoc, ← eq_zeros_append_trim]

theorem isZero_trimmed (g : Group) : (trimmed g).isZero = g.isZero := by
  have hall : (List.replicate (g.text.length - (trim g.text).length) '0' ++ trim g.text).all
      (· == '0') = (trim g.text).all (· == '0') := by
    simp
  rw [← eq_zeros_append_trim] at hall
  exact hall.symm

theorem eq_zero_of_isZero (h : g.isZero = true) : ∀ c ∈ g.text, c = '0' := by
  simpa [Group.isZero] using h

theorem text_trimmed_zero (h : g.isZero = true) : (trimmed g).text = ['0'] :=
  trim_zeros g.nonempty (eq_zero_of_isZero h)

end Trimming

section Loops

variable {turn : Char → Char → Text → Turn} {behind : Char} {t w out rest : Text} {g : Group}
  {gs : List Group}

/-- The three loops treat all digits alike, but for the last zero of a group that is zero. -/
structure Squeezes (turn : Char → Char → Text → Turn) : Prop where
  keeps : ∀ c next out, fresh out = false → turn c next out = .keep
  first : ∀ c next out, c ≠ '0' → c ≠ ':' → turn c next out = .keep
  zero : ∀ next out, fresh out = true → next ≠ ':' → next ≠ '\x00' → turn '0' next out = .skip

theorem fresh_iff : fresh out = true ↔ out = [] ∨ out.getLast? = some ':' := by
  simp [fresh]

@[simp] theorem fresh_nil : fresh [] = true := rfl

@[simp] theorem fresh_colon (out : Text) : fresh (out ++ [':']) = true := by
  simp [fresh]

theorem fresh_digits (hne : w ≠ []) (hw : ':' ∉ w) (out : Text) : fresh (out ++ w) = false := by
  rw [Bool.eq_false_iff, Ne, fresh_iff, not_or]
  refine ⟨by simp [hne], fun hlast => hw ?_⟩
  rw [List.getLast?_append_of_ne_nil _ hne] at hlast
  exact List.mem_of_getLast? hlast

theorem squeezes_endTurn : Squeezes endTurn where
  keeps c next out h := by
    rw [Bool.eq_false_iff, Ne, fresh_iff, not_or] at h
    simp [endTurn, h]
  first c next out hzero hcolon := by simp [endTurn, hzero, hcolon]
  zero next out h hcolon hnul := by
    rcases fresh_iff.mp h with rfl | hlast
    · simp [endTurn]
    · simp [endTurn, hlast, hcolon, hnul]

theorem squeezes_frontTurn : Squeezes frontTurn where
  keeps c next out h := by simp [frontTurn, h]
  first c next out hzero _ := by simp [frontTurn, hzero]
  zero next out h hcolon _ := by simp [frontTurn, h, hcolon]

theorem squeezes_zeroTurn : Squeezes zeroTurn where
  keeps c next out h := by simp [zeroTurn, h]
  first c next out hzero _ := by simp [zeroTurn, hzero]
  zero next out h hcolon hnul := by simp [zeroTurn, h, hcolon, hnul]

theorem copyLoop_keep {c : Char} (h : turn c (rest.headD behind) out = .keep) :
    copyLoop turn behind (c :: rest) out = copyLoop turn behind rest (out ++ [c]) := by
  rw [copyLoop, h]

theorem copyLoop_skip {c : Char} (h : turn c (rest.headD behind) out = .skip) :
    copyLoop turn behind (c :: rest) out = copyLoop turn behind rest out := by
  rw [copyLoop, h]

theorem copyLoop_colon (hturn : Squeezes turn) (hout : fresh out = false) (rest : Text) :
    copyLoop turn behind (':' :: rest) out = copyLoop turn behind rest (out ++ [':']) :=
  copyLoop_keep (hturn.keeps _ _ _ hout)

theorem copyLoop_kept (hturn : Squeezes turn) (hout : fresh out = false) (hw : ':' ∉ w)
    (rest : Text) :
    copyLoop turn behind (w ++ rest) out = copyLoop turn behind rest (out ++ w) := by
  induction w generalizing out with
  | nil => simp
  | cons c w ih =>
    rw [List.mem_cons, not_or] at hw
    have hlater : fresh (out ++ [c]) = false :=
      fresh_digits (List.cons_ne_nil _ _) (by simpa using hw.1) out
    rw [List.cons_append, copyLoop_keep (hturn.keeps _ _ _ hout), ih hlater hw.2]
    simp

theorem copyLoop_trim (hturn : Squeezes turn) (hout : fresh out = true)
    (hex : ∀ c ∈ w, isHexDigit c = true) (hsome : ∃ c ∈ w, c ≠ '0') (rest : Text) :
    copyLoop turn behind (w ++ rest) out = copyLoop turn behind rest (out ++ trim w) := by
  induction w with
  | nil => simp at hsome
  | cons c w ih =>
    rw [List.forall_mem_cons] at hex
    have hw : ':' ∉ w := fun hmem => ne_colon_of_isHexDigit (hex.2 _ hmem) rfl
    by_cases hc : c = '0'
    · subst hc
      cases w with
      | nil => simp at hsome
      | cons d u =>
        have hd := hex.2 d List.mem_cons_self
        have hskip : turn '0' ((d :: u ++ rest).headD behind) out = .skip :=
          hturn.zero d out hout (ne_colon_of_isHexDigit hd) (ne_nul_of_isHexDigit hd)
        rw [List.cons_append, copyLoop_skip hskip, ih hex.2 (by simpa using hsome)]
        rfl
    · have hcolon := ne_colon_of_isHexDigit hex.1
      have hlater : fresh (out ++ [c]) = false :=
        fresh_digits (List.cons_ne_nil _ _) (by simpa using hcolon.symm) out
      have htrim : trim (c :: w) = c :: w := trim_of_head (by simp [hc])
      rw [List.cons_append, copyLoop_keep (hturn.first _ _ _ hc hcolon),
        copyLoop_kept hturn hlater hw, htrim]
      simp

theorem copyLoop_zeros (hturn : Squeezes turn) (hout : fresh out = true) (hne : w ≠ [])
    (hzero : ∀ c ∈ w, c = '0') (rest : Text) :
    copyLoop turn behind (w ++ rest) out = copyLoop turn behind ('0' :: rest) out := by
  induction w with
  | nil => exact absurd rfl hne
  | cons c w ih =>
    rw [List.forall_mem_cons] at hzero
    obtain ⟨rfl, hw⟩ := hzero
    cases w with
    | nil => rfl
    | cons d u =>
      obtain rfl : d = '0' := hw d List.mem_cons_self
      have hskip : turn '0' (('0' :: u ++ rest).headD behind) out = .skip :=
        hturn.zero '0' out hout (by decide) (by decide)
      rw [List.cons_append, copyLoop_skip hskip, ih (List.cons_ne_nil _ _) hw]

theorem copyLoop_nonzero (hturn : Squeezes turn) (hout : fresh out = true)
    (hg : g.isZero = false) (rest : Text) :
    copyLoop turn behind (g.text ++ rest) out =
      copyLoop turn behind rest (out ++ (trimmed g).text) :=
  copyLoop_trim hturn hout g.hex (by simpa [Group.isZero] using hg) rest

theorem copyLoop_zero (hturn : Squeezes turn) (hout : fresh out = true)
    (hg : g.isZero = true) (rest : Text) :
    copyLoop turn behind (g.text ++ rest) out = copyLoop turn behind ('0' :: rest) out :=
  copyLoop_zeros hturn hout g.nonempty (eq_zero_of_isZero hg) rest

theorem headD_behindColon (gs : List Group) (b : Char) :
    (behindColon gs).headD b = if gs = [] then b else ':' := by
  cases gs <;> rfl

theorem fresh_group (g : Group) (out : Text) : fresh (out ++ (trimmed g).text) = false :=
  fresh_digits (trimmed g).nonempty (trimmed g).colon_not_mem out

/-- A group behind a colon of the last section keeps its zero. -/
theorem copyLoop_endTurn_group (hout : out ≠ []) (hlast : out.getLast? = some ':')
    (gs : List Group) : copyLoop endTurn '\x00' (g.text ++ behindColon gs) out =
      copyLoop endTurn '\x00' (behindColon gs) (out ++ (trimmed g).text) := by
  have hfresh : fresh out = true := fresh_iff.mpr (.inr hlast)
  cases hg : g.isZero with
  | false => exact copyLoop_nonzero squeezes_endTurn hfresh hg _
  | true =>
    have hkeep : endTurn '0' ((behindColon gs).headD '\x00') out = .keep := by
      rw [headD_behindColon]
      cases gs <;> simp [endTurn, hout]
    rw [copyLoop_zero squeezes_endTurn hfresh hg, copyLoop_keep hkeep, text_trimmed_zero hg]

theorem copyLoop_endTurn_behindColon (hout : fresh out = false) (gs : List Group) :
    copyLoop endTurn '\x00' (behindColon gs) out =
      (out ++ behindColon (gs.map trimmed), []) := by
  induction gs generalizing out with
  | nil => simp [behindColon, copyLoop]
  | cons g gs ih =>
    have hstep : behindColon (g :: gs) = ':' :: (g.text ++ behindColon gs) := rfl
    rw [hstep, copyLoop_colon squeezes_endTurn hout, copyLoop_endTurn_group (by simp) (by simp),
      ih (fresh_group g _)]
    simp [behindColon]

theorem copyLoop_endTurn_joined (gs : List Group) : copyLoop endTurn '\x00' (joined gs) [] =
    (joined ((gs.dropWhile Group.isZero).map trimmed), []) := by
  induction gs with
  | nil => rfl
  | cons g gs ih =>
    rw [joined_cons]
    cases hg : g.isZero with
    | false =>
      rw [List.dropWhile_cons_of_neg (by simp [hg]), copyLoop_nonzero squeezes_endTurn rfl hg,
        copyLoop_endTurn_behindColon (fresh_group g _), List.map_cons, joined_cons]
      rfl
    | true =>
      have hzero : ∀ b, endTurn '0' b [] = .skip := fun b => by simp [endTurn]
      rw [List.dropWhile_cons_of_pos hg, copyLoop_zero squeezes_endTurn rfl hg,
        copyLoop_skip (hzero _), ← ih]
      cases gs with
      | nil => rfl
      | cons e gs =>
        have hcolon : ∀ b, endTurn ':' b [] = .skip := fun b => by simp [endTurn]
        have hstep : behindColon (e :: gs) = ':' :: joined (e :: gs) := by
          rw [joined_cons]
          rfl
        rw [hstep, copyLoop_skip (hcolon _)]

theorem copyLoop_frontTurn_group (hout : fresh out = true) (hnext : rest.headD ':' = ':') :
    copyLoop frontTurn ':' (g.text ++ rest) out =
      copyLoop frontTurn ':' rest (out ++ (trimmed g).text) := by
  cases hg : g.isZero with
  | false => exact copyLoop_nonzero squeezes_frontTurn hout hg _
  | true =>
    have hkeep : frontTurn '0' (rest.headD ':') out = .keep := by
      rw [hnext]
      simp [frontTurn]
    rw [copyLoop_zero squeezes_frontTurn hout hg, copyLoop_keep hkeep, text_trimmed_zero hg]

/-- The section before `::`. -/
theorem copyLoop_frontTurn_joined (hout : fresh out = true) (g : Group) (gs : List Group) :
    copyLoop frontTurn ':' (joined (g :: gs)) out =
      (out ++ joined ((g :: gs).map trimmed), []) := by
  induction gs generalizing g out with
  | nil =>
    have hend := @copyLoop_frontTurn_group out [] g hout rfl
    rw [List.append_nil] at hend
    simpa [joined, copyLoop] using hend
  | cons e gs ih =>
    rw [joined_cons_cons, copyLoop_frontTurn_group hout rfl,
      copyLoop_colon squeezes_frontTurn (fresh_group g out), ih (fresh_colon _), List.map_cons,
      List.map_cons, List.map_cons, joined_cons_cons]
    simp

theorem copyLoop_zeroTurn_beforeColon (hout : fresh out = true)
    (hgs : ∀ g ∈ gs, g.isZero = false) (rest : Text) :
    copyLoop zeroTurn '\x00' (beforeColon gs ++ rest) out =
      copyLoop zeroTurn '\x00' rest (out ++ beforeColon (gs.map trimmed)) := by
  induction gs generalizing out with
  | nil => simp [beforeColon]
  | cons g gs ih =>
    rw [List.forall_mem_cons] at hgs
    have hstep : beforeColon (g :: gs) ++ rest = g.text ++ ':' :: (beforeColon gs ++ rest) := by
      simp [beforeColon]
    rw [hstep, copyLoop_nonzero squeezes_zeroTurn hout hgs.1,
      copyLoop_colon squeezes_zeroTurn (fresh_group g out), ih (fresh_colon _) hgs.2]
    simp [beforeColon]

theorem fresh_beforeColon (gs : List Group) : fresh (beforeColon gs) = true := by
  rcases List.eq_nil_or_concat' gs with rfl | ⟨f, g, rfl⟩
  · rfl
  · simp [beforeColon, fresh]

theorem copyLoop_zeroTurn_joined (hne : gs ≠ []) (hgs : ∀ g ∈ gs, g.isZero = false) :
    copyLoop zeroTurn '\x00' (joined gs) [] = (joined (gs.map trimmed), []) := by
  obtain ⟨f, g, rfl⟩ := (List.eq_nil_or_concat' gs).resolve_left hne
  have hf : ∀ e ∈ f, e.isZero = false := fun e he => hgs e (by simp [he])
  have hend := @copyLoop_nonzero zeroTurn '\x00' (beforeColon (f.map trimmed)) g squeezes_zeroTurn
    (fresh_beforeColon _) (hgs g (by simp)) []
  rw [List.append_nil] at hend
  rw [joined_append, copyLoop_zeroTurn_beforeColon rfl hf, List.map_append, List.map_singleton,
    joined_append]
  simpa [joined, copyLoop] using hend

/-- The loop stops at the last digit of the first group that is zero. -/
theorem copyLoop_zeroTurn_stop (hgs : ∀ g ∈ gs, g.isZero = false) (hg : g.isZero = true)
    (b : List Group) : copyLoop zeroTurn '\x00' (joined (gs ++ g :: b)) [] =
      (beforeColon (gs.map trimmed), '0' :: behindColon b) := by
  have hfresh := fresh_beforeColon (gs.map trimmed)
  have hstop : zeroTurn '0' ((behindColon b).headD '\x00') (beforeColon (gs.map trimmed)) =
      .stop := by
    rw [headD_behindColon]
    cases b <;> simp [zeroTurn, hfresh]
  rw [joined_append, copyLoop_zeroTurn_beforeColon rfl hgs, List.nil_append, joined_cons,
    copyLoop_zero squeezes_zeroTurn hfresh hg, copyLoop, hstop]

theorem length_copyLoop_le (turn : Char → Char → Text → Turn) (behind : Char) (t out : Text) :
    (copyLoop turn behind t out).1.length ≤ out.length + t.length := by
  induction t generalizing out with
  | nil => simp [copyLoop]
  | cons c t ih =>
    have hskip := ih out
    have hkeep := ih (out ++ [c])
    rw [List.length_append, List.length_singleton] at hkeep
    rw [copyLoop, List.length_cons]
    split
    · omega
    · omega
    · exact Nat.le_add_right _ _

end Loops

section Places

variable {w t rest : Text} {g : Group} {f b gs : List Group} {colon : ℕ}

theorem trimBack_zeros (h : ∀ c ∈ w, c = '0') (rest : Text) (colon : ℕ) :
    trimBack (w ++ rest) colon = trimBack rest colon := by
  induction w with
  | nil => rfl
  | cons c w ih =>
    rw [List.forall_mem_cons] at h
    obtain ⟨rfl, hw⟩ := h
    simpa [trimBack] using ih hw

theorem trimBack_digit (hw : ':' ∉ w) (h : ∃ c ∈ w, c ≠ '0') (rest : Text) (colon : ℕ) :
    trimBack (w ++ rest) colon = (colon, true) := by
  induction w with
  | nil => simp at h
  | cons c w ih =>
    rw [List.mem_cons, not_or] at hw
    by_cases hc : c = '0'
    · subst hc
      simpa [trimBack] using ih hw.2 (by simpa using h)
    · simp [trimBack, Ne.symm hw.1, hc]

/-- The way back from `::` ends behind the last group that is not zero. -/
theorem trimBack_joined (f : List Group) :
    ((trimBack (joined f).reverse (joined f).length).2 = true ↔ f.rdropWhile Group.isZero ≠ []) ∧
    (f.rdropWhile Group.isZero ≠ [] → (trimBack (joined f).reverse (joined f).length).1 =
      (joined (f.rdropWhile Group.isZero)).length) := by
  induction f using List.reverseRecOn with
  | nil => simp [trimBack]
  | append_singleton f g ih =>
    have htext : joined (f ++ [g]) = beforeColon f ++ g.text := by
      rw [joined_append]
      simp [joined]
    cases hg : g.isZero with
    | false =>
      have hsome : ∃ c ∈ g.text.reverse, c ≠ '0' := by simpa [Group.isZero] using hg
      rw [List.rdropWhile_concat_neg _ _ _ (by simp [hg]), htext, List.reverse_append,
        trimBack_digit (by simpa using g.colon_not_mem) hsome]
      simp
    | true =>
      have hzero : ∀ c ∈ g.text.reverse, c = '0' := by simpa using eq_zero_of_isZero hg
      rw [List.rdropWhile_concat_pos _ _ _ hg, htext, List.reverse_append, trimBack_zeros hzero]
      by_cases hf : f = []
      · subst hf
        simp [beforeColon, trimBack]
      · rw [← joined_colon hf, List.reverse_append]
        simpa [trimBack] using ih

theorem strstr_digits (hw : ':' ∉ w) (t : Text) : strstr [':', ':'] (w ++ t) =
    (strstr [':', ':'] t).map fun p => (w ++ p.1, p.2) := by
  induction w with
  | nil => simp
  | cons c w ih =>
    rw [List.mem_cons, not_or] at hw
    have hstart : ¬ [':', ':'].isPrefixOf (c :: (w ++ t)) = true := by simp [hw.1]
    rw [List.cons_append, strstr, if_neg hstart, ih hw.2, Option.map_map]
    rfl

/-- There is no `::` among groups. -/
theorem strstr_joined (gs : List Group) (t : Text) : strstr [':', ':'] (joined gs ++ t) =
    (strstr [':', ':'] t).map fun p => (joined gs ++ p.1, p.2) := by
  induction gs with
  | nil => simp
  | cons g gs ih =>
    cases gs with
    | nil => simpa [joined] using strstr_digits g.colon_not_mem t
    | cons e gs =>
      obtain ⟨c, u, he, hc⟩ := e.exists_cons
      have hstart : ¬ [':', ':'].isPrefixOf (':' :: (joined (e :: gs) ++ t)) = true := by
        simp [joined_cons, he, hc.symm]
      rw [joined_cons_cons, List.append_assoc, strstr_digits g.colon_not_mem, List.cons_append,
        strstr, if_neg hstart, ih, Option.map_map, Option.map_map]
      simp [Function.comp_def]

theorem strstr_short (count : f.length + b.length ≤ 7) :
    strstr [':', ':'] (Spelling.short f b count).text =
      some (joined f, ':' :: ':' :: joined b) := by
  have hstart : strstr [':', ':'] (':' :: ':' :: joined b) = some ([], ':' :: ':' :: joined b) :=
    strstr_at_start ⟨joined b, rfl⟩
  rw [Spelling.text, strstr_joined, hstart]
  simp

theorem strstr_groups (gs : List Group) : strstr [':', ':'] (joined gs) = none := by
  have hnone : strstr [':', ':'] [] = none := rfl
  have hjoined := strstr_joined gs []
  rwa [List.append_nil, hnone] at hjoined

theorem buffered_copyLoop (turn : Char → Char → Text → Turn) (behind : Char)
    (h : t.length < 40) : buffered (copyLoop turn behind t []).1 =
      .ok (copyLoop turn behind t []).1 := by
  refine if_pos ((length_copyLoop_le turn behind t []).trans_lt ?_)
  simpa using h

end Places

section Zipping

variable {f b gs : List Group} {s t : Spelling}

/-- The front section without the zeros before `::`. -/
theorem copyLoop_front (hf : f.rdropWhile Group.isZero ≠ []) (rest : Text) :
    (copyLoop frontTurn
      (((joined f ++ ':' :: rest).drop (joined (f.rdropWhile Group.isZero)).length).headD '\x00')
      ((joined f ++ ':' :: rest).take (joined (f.rdropWhile Group.isZero)).length) []).1 =
        joined ((f.rdropWhile Group.isZero).map trimmed) := by
  obtain ⟨zs, hzs⟩ := List.rdropWhile_prefix Group.isZero f
  obtain ⟨g, gs, hg⟩ := List.exists_cons_of_ne_nil hf
  have hsplit : joined f ++ ':' :: rest =
      joined (f.rdropWhile Group.isZero) ++ (behindColon zs ++ ':' :: rest) := by
    conv_lhs => rw [← hzs]
    rw [hg, List.cons_append, joined_cons, joined_cons, behindColon, List.flatMap_append]
    simp [behindColon]
  have hcolon : (behindColon zs ++ ':' :: rest).headD '\x00' = ':' := by cases zs <;> rfl
  rw [hsplit, List.drop_left, List.take_left, hcolon, hg, copyLoop_frontTurn_joined rfl]
  rfl

theorem buffered_endTurn (hb : (joined b).length < 40) :
    buffered (copyLoop endTurn '\x00' (joined b) []).1 =
      .ok (joined ((b.dropWhile Group.isZero).map trimmed)) := by
  rw [buffered_copyLoop endTurn '\x00' hb, copyLoop_endTurn_joined]

theorem ipv6ToZip_short (count : f.length + b.length ≤ 7) :
    ipv6ToZip (Spelling.short f b count).text =
      .ok (joined ((f.rdropWhile Group.isZero).map trimmed) ++
        ':' :: ':' :: joined ((b.dropWhile Group.isZero).map trimmed)) := by
  have hlen := (Spelling.short f b count).length_text_lt
  have hb : (joined b).length < 40 := by
    simp only [Spelling.text, List.length_append, List.length_cons] at hlen
    omega
  obtain ⟨hmore, hplace⟩ := trimBack_joined f
  simp only [ipv6ToZip, strstr_short, List.drop_succ_cons, List.drop_zero, buffered_endTurn hb,
    Except.bind, Bind.bind]
  by_cases hf : f.rdropWhile Group.isZero = []
  · have hnone : (trimBack (joined f).reverse (joined f).length).2 = false := by
      simpa [hf] using hmore
    rw [hnone, hf]
    rfl
  · have htake : ((Spelling.short f b count).text.take
        (joined (f.rdropWhile Group.isZero)).length).length < 40 :=
      (List.length_take_le' _ _).trans_lt hlen
    rw [if_pos (hmore.mpr hf), hplace hf, buffered_copyLoop frontTurn _ htake]
    exact congrArg (fun front => Except.ok (front ++ _)) (copyLoop_front hf (':' :: joined b))

theorem ipv6ToZip_nonzero (hne : gs ≠ []) (hlen : (joined gs).length < 40)
    (h : ∀ g ∈ gs, g.isZero = false) :
    ipv6ToZip (joined gs) = .ok (joined (gs.map trimmed)) := by
  have hcopy := copyLoop_zeroTurn_joined hne h
  have hbuffer := buffered_copyLoop zeroTurn '\x00' hlen
  rw [hcopy] at hbuffer
  simp only [ipv6ToZip, strstr_groups, hcopy, if_true, hbuffer]

theorem dropLast_beforeColon (gs : List Group) : (beforeColon gs).dropLast = joined gs := by
  cases gs with
  | nil => rfl
  | cons g gs => rw [← joined_colon (List.cons_ne_nil g gs), List.dropLast_concat]

theorem tail_behindColon (gs : List Group) : (behindColon gs).tail = joined gs := by
  cases gs with
  | nil => rfl
  | cons g gs =>
    rw [joined_cons]
    rfl

theorem ipv6ToZip_zero {g : Group} (count : (f ++ g :: b).length ≤ 8)
    (hf : ∀ e ∈ f, e.isZero = false) (hg : g.isZero = true) :
    ipv6ToZip (joined (f ++ g :: b)) = .ok (joined (f.map trimmed) ++
      ':' :: ':' :: joined ((b.dropWhile Group.isZero).map trimmed)) := by
  rw [List.length_append, List.length_cons] at count
  have hfront : buffered (joined (f.map trimmed)) = .ok (joined (f.map trimmed)) := by
    have hle := length_joined_le (f.map trimmed)
    rw [List.length_map] at hle
    exact if_pos (by omega)
  have hb : (joined b).length < 40 := by
    have hle := length_joined_le b
    omega
  have hrest : ('0' :: behindColon b).drop 2 = joined b := by
    rw [← tail_behindColon, List.drop_succ_cons, List.drop_one]
  simp only [ipv6ToZip, strstr_groups, copyLoop_zeroTurn_stop hf hg b, if_false, hfront, hrest,
    dropLast_beforeColon, buffered_endTurn hb, Except.bind, Bind.bind, reduceCtorEq]
  rfl

def Zipped : Spelling → Prop
  | .full groups _ => ∀ g ∈ groups, g.Minimal ∧ g.isZero = false
  | .short front back _ => (∀ g ∈ front ++ back, g.Minimal) ∧
      front.rdropWhile Group.isZero = front ∧ back.dropWhile Group.isZero = back

theorem Zipped.minimal (h : Zipped s) : ∀ g ∈ s.written, g.Minimal := by
  cases s with
  | full groups _ => exact fun g hg => (h g hg).1
  | short front back _ => exact h.1

theorem map_trimmed_of_minimal (h : ∀ g ∈ gs, g.Minimal) : gs.map trimmed = gs := by
  rw [List.map_congr_left fun g hg => trimmed_of_minimal (h g hg), List.map_id']

theorem isZero_comp_trimmed : Group.isZero ∘ trimmed = Group.isZero := funext isZero_trimmed

theorem rdropWhile_map_trimmed (f : List Group) :
    (f.map trimmed).rdropWhile Group.isZero = (f.rdropWhile Group.isZero).map trimmed := by
  rw [List.rdropWhile, ← List.map_reverse, List.dropWhile_map, isZero_comp_trimmed,
    ← List.map_reverse, List.rdropWhile]

theorem dropWhile_map_trimmed (b : List Group) :
    (b.map trimmed).dropWhile Group.isZero = (b.dropWhile Group.isZero).map trimmed := by
  rw [List.dropWhile_map, isZero_comp_trimmed]

theorem flatMap_padded_trimmed (gs : List Group) :
    (gs.map trimmed).flatMap Group.padded = gs.flatMap Group.padded := by
  simp only [List.flatMap_map, padded_trimmed]

theorem minimal_of_mem_map {g : Group} (h : g ∈ gs.map trimmed) : g.Minimal := by
  obtain ⟨e, -, rfl⟩ := List.mem_map.mp h
  exact minimal_trimmed e

theorem flatMap_padded_rdropWhile (f : List Group) : f.flatMap Group.padded =
    (f.rdropWhile Group.isZero).flatMap Group.padded ++
      List.replicate (4 * (f.rtakeWhile Group.isZero).length) '0' := by
  conv_lhs => rw [← List.rdropWhile_append_rtakeWhile (p := Group.isZero) (l := f)]
  rw [List.flatMap_append, flatMap_padded_zeros fun g hg => List.mem_rtakeWhile_imp hg]

theorem flatMap_padded_dropWhile (b : List Group) : b.flatMap Group.padded =
    List.replicate (4 * (b.takeWhile Group.isZero).length) '0' ++
      (b.dropWhile Group.isZero).flatMap Group.padded := by
  conv_lhs => rw [← List.takeWhile_append_dropWhile (p := Group.isZero) (l := b)]
  rw [List.flatMap_append, flatMap_padded_zeros fun g hg => List.mem_takeWhile_imp hg]

theorem not_endsWide_short (count : f.length + b.length ≤ 7) :
    ¬ EndsWide (.short f b count) := by
  intro h
  obtain ⟨g, hg, -⟩ := h
  have hlt := (List.getElem?_eq_some_iff.mp hg).choose
  rw [Spelling.written, List.length_append] at hlt
  omega

theorem exists_zipped_short (count : f.length + b.length ≤ 7) : ∃ t : Spelling,
    ipv6ToZip (Spelling.short f b count).text = .ok t.text ∧ Zipped t ∧
      t.digits = (Spelling.short f b count).digits ∧ ¬ EndsWide t := by
  have hf := (List.rdropWhile_prefix Group.isZero f).length_le
  have hb := (List.dropWhile_suffix (l := b) Group.isZero).length_le
  have htake := congrArg List.length (List.takeWhile_append_dropWhile (p := Group.isZero) (l := b))
  have hrtake := congrArg List.length
    (List.rdropWhile_append_rtakeWhile (p := Group.isZero) (l := f))
  rw [List.length_append] at htake hrtake
  have count' : ((f.rdropWhile Group.isZero).map trimmed).length +
      ((b.dropWhile Group.isZero).map trimmed).length ≤ 7 := by
    simp only [List.length_map]
    omega
  refine ⟨.short _ _ count', ipv6ToZip_short count, ⟨?_, ?_, ?_⟩, ?_, not_endsWide_short _⟩
  · intro g hg
    rw [← List.map_append] at hg
    exact minimal_of_mem_map hg
  · rw [rdropWhile_map_trimmed, List.rdropWhile_idempotent]
  · rw [dropWhile_map_trimmed, List.dropWhile_idempotent]
  · rw [Spelling.digits_short, Spelling.digits_short, flatMap_padded_trimmed,
      flatMap_padded_trimmed, flatMap_padded_rdropWhile f, flatMap_padded_dropWhile b,
      List.append_assoc, List.length_map, List.length_map]
    congr 1
    simp only [← List.append_assoc, List.replicate_append_replicate]
    congr 2
    omega

theorem exists_zipped_zero {g : Group} (count : (f ++ g :: b).length = 8)
    (hf : ∀ e ∈ f, e.isZero = false) (hg : g.isZero = true) : ∃ t : Spelling,
    ipv6ToZip (joined (f ++ g :: b)) = .ok t.text ∧ Zipped t ∧
      t.digits = (f ++ g :: b).flatMap Group.padded ∧ ¬ EndsWide t := by
  have hb := (List.dropWhile_suffix (l := b) Group.isZero).length_le
  have htake := congrArg List.length (List.takeWhile_append_dropWhile (p := Group.isZero) (l := b))
  rw [List.length_append] at htake
  have hlen := count
  rw [List.length_append, List.length_cons] at hlen
  have count' : (f.map trimmed).length + ((b.dropWhile Group.isZero).map trimmed).length ≤ 7 := by
    simp only [List.length_map]
    omega
  refine ⟨.short _ _ count', ipv6ToZip_zero count.le hf hg, ⟨?_, ?_, ?_⟩, ?_, not_endsWide_short _⟩
  · intro e he
    rw [← List.map_append] at he
    exact minimal_of_mem_map he
  · rw [List.rdropWhile_eq_self_iff]
    intro hl
    have hlast := List.getLast_mem hl
    obtain ⟨e, he, heq⟩ := List.mem_map.mp hlast
    simp [← heq, isZero_trimmed, hf e he]
  · rw [dropWhile_map_trimmed, List.dropWhile_idempotent]
  · rw [Spelling.digits_short, flatMap_padded_trimmed, flatMap_padded_trimmed, List.flatMap_append,
      List.flatMap_cons, flatMap_padded_dropWhile b, g.padded_of_isZero hg, List.length_map,
      List.length_map]
    congr 1
    simp only [← List.append_assoc, List.replicate_append_replicate]
    congr 2
    omega

theorem exists_zipped_nonzero (count : gs.length = 8) (h : ∀ g ∈ gs, g.isZero = false) :
    ∃ t : Spelling, ipv6ToZip (joined gs) = .ok t.text ∧ Zipped t ∧
      t.digits = gs.flatMap Group.padded ∧ (EndsWide t → EndsWide (.full gs count)) := by
  have hlen := (Spelling.full gs count).length_text_lt
  have count' : (gs.map trimmed).length = 8 := by rw [List.length_map, count]
  refine ⟨.full _ count', ipv6ToZip_nonzero (List.ne_nil_of_length_eq_add_one count) hlen h, ?_,
    flatMap_padded_trimmed gs, ?_⟩
  · intro g hg
    obtain ⟨e, he, rfl⟩ := List.mem_map.mp hg
    exact ⟨minimal_trimmed e, (isZero_trimmed e).trans (h e he)⟩
  · intro hwide
    obtain ⟨g, hg, hfour⟩ := hwide
    rw [Spelling.written, List.getElem?_map, Option.map_eq_some_iff] at hg
    obtain ⟨e, he, rfl⟩ := hg
    have hle := (trim_suffix e.text).length_le
    exact ⟨e, he, le_antisymm e.length_le (hfour.symm.trans_le hle)⟩

theorem exists_zipped (s : Spelling) : ∃ t : Spelling, ipv6ToZip s.text = .ok t.text ∧
    Zipped t ∧ t.digits = s.digits ∧ (EndsWide t → EndsWide s) := by
  cases s with
  | short f b count =>
    obtain ⟨t, htext, hzipped, hdigits, hwide⟩ := exists_zipped_short count
    exact ⟨t, htext, hzipped, hdigits, fun h => absurd h hwide⟩
  | full gs count =>
    cases hfind : gs.find? Group.isZero with
    | none =>
      have hnonzero : ∀ g ∈ gs, g.isZero = false := by simpa using List.find?_eq_none.mp hfind
      exact exists_zipped_nonzero count hnonzero
    | some g =>
      obtain ⟨hg, f, b, rfl, hf⟩ := List.find?_eq_some_iff_append.mp hfind
      have hnonzero : ∀ e ∈ f, e.isZero = false := by simpa using hf
      obtain ⟨t, htext, hzipped, hdigits, hwide⟩ := exists_zipped_zero count hnonzero hg
      exact ⟨t, htext, hzipped, hdigits, fun h => absurd h hwide⟩

theorem ipv6ToZip_of_zipped (h : Zipped s) : ipv6ToZip s.text = .ok s.text := by
  cases s with
  | full gs count =>
    have hzip := ipv6ToZip_nonzero (List.ne_nil_of_length_eq_add_one count)
      (Spelling.full gs count).length_text_lt fun g hg => (h g hg).2
    rwa [map_trimmed_of_minimal fun g hg => (h g hg).1] at hzip
  | short f b count =>
    obtain ⟨hminimal, hf, hb⟩ := h
    rw [List.forall_mem_append] at hminimal
    have hzip := ipv6ToZip_short count
    rwa [hf, hb, map_trimmed_of_minimal hminimal.1, map_trimmed_of_minimal hminimal.2] at hzip

/-- The short text is right for every address, and has the same long text wherever that exists. -/
theorem ipv6ToZip_regular_iff (s : Spelling) :
    (∃ t : Spelling, ipv6ToZip s.text = .ok t.text ∧ t.address = s.address ∧
      (∀ g ∈ t.written, g.Minimal) ∧ ipv6ToZip t.text = .ok t.text ∧
      ∀ stack behind stack' behind', ∃ u : Text, ipv6ToRegular stack behind t.text = .ok u ∧
        ipv6ToRegular stack' behind' s.text = .ok u) ↔ ¬ EndsWide s := by
  constructor
  · intro h hwide
    obtain ⟨t, -, -, -, -, hregular⟩ := h
    obtain ⟨u, -, hu⟩ := hregular (fun _ => '\x00') (fun _ => '\x00') (fun _ => '\x00')
      (fun _ => '\x00')
    rw [ipv6ToRegular_of_endsWide hwide] at hu
    cases hu
  · intro hwide
    obtain ⟨t, htext, hzipped, hdigits, hkeeps⟩ := exists_zipped s
    have haddress : t.address = s.address := by
      rw [Spelling.address, hdigits, Spelling.address]
    refine ⟨t, htext, haddress, hzipped.minimal, ipv6ToZip_of_zipped hzipped, ?_⟩
    intro stack behind stack' behind'
    refine ⟨(expanded s).text, ?_, regularIn_eq (fits_of_not_endsWide hwide) stack' behind'⟩
    rw [← text_expanded_congr hdigits]
    exact regularIn_eq (fits_of_not_endsWide fun h => hwide (hkeeps h)) stack behind

theorem wideEnd_no_regular : ¬ ∃ t : Spelling, ipv6ToZip wideEnd.text = .ok t.text ∧
    t.address = wideEnd.address ∧ (∀ g ∈ t.written, g.Minimal) ∧
      ipv6ToZip t.text = .ok t.text ∧
      ∀ stack behind stack' behind', ∃ u : Text, ipv6ToRegular stack behind t.text = .ok u ∧
        ipv6ToRegular stack' behind' wideEnd.text = .ok u := by
  intro h
  obtain ⟨t, -, -, -, -, hregular⟩ := h
  obtain ⟨u, -, hu⟩ := hregular (fun _ => '\x00') (fun _ => '\x00') (fun _ => '\x00')
    (fun _ => '\x00')
  have hwide : EndsWide wideEnd := ⟨_, rfl, rfl⟩
  rw [ipv6ToRegular_of_endsWide hwide] at hu
  cases hu

end Zipping

end Ipv6Zip
