import Mathlib.Tactic.IntervalCases
import RouterFirmware.Ipv6Zip

/-! # Prefixes of IPv6 addresses

`IPv6_Address_GetPrefix` copies the digits of the prefix from the long text, masks the digit in
which the prefix ends, and closes the text for `IPv6_to_zip`.
-/
namespace Ipv6Prefix

open Ipv4Text (isHexDigit hexDigit)
open TextStream CString Ipv6Text Ipv6Regular Ipv6Zip

/-- The loop copies until it has seen `n` digits: what is left, and the copy. -/
def copyDigits : ℕ → Text → Text → Except Fault (Text × Text)
  | n, [], out => if n = 0 then .ok ([], out) else .error .readPastEnd
  | n, c :: rest, out =>
    if n = 0 then .ok (c :: rest, out)
    else copyDigits (if c = ':' then n else n - 1) rest (out ++ [c])

/-- `if (prefix[i]==':')` -/
def copyColon : Text × Text → Text × Text
  | (':' :: rest, out) => (rest, out ++ [':'])
  | p => p

/-- The digit in which the prefix ends after `bits` bits. -/
def maskDigit (bits : ℕ) (c : Char) : Char :=
  let code := UInt8.ofNat c.toNat
  let tmp : UInt8 :=
    if 0x61 ≤ code then code - 0x61 + 0xa
    else if 0x41 ≤ code then code - 0x61 + 0xa
    else code - 0x30
  let tmp :=
    match bits with
    | 1 => tmp &&& 0x8
    | 2 => tmp &&& 0xc
    | 3 => tmp &&& 0xe
    | _ => tmp
  if 0xa ≤ tmp then Char.ofNat (tmp + 0x61 - 0xa).toNat else Char.ofNat (tmp + 0x30).toNat

/-- `switch((strlen(v6prefix))%5)` -/
def padding (length : ℕ) : Text :=
  match length % 5 with
  | 3 => ['0']
  | 2 => ['0', '0']
  | 1 => ['0', '0', '0']
  | _ => []

/-- What stands behind the last group. -/
def closing (v6prefixlength : ℕ) : Text :=
  if v6prefixlength ≤ 112 then
    if v6prefixlength = 0 ∨ v6prefixlength % 16 ≠ 0 then [':', ':'] else [':']
  else []

/-- `v6prefix` before `IPv6_to_zip`, made from the long text. -/
def cutPrefix (long : Text) (v6prefixlength : ℕ) : Except Fault Text := do
  let copied ← (copyDigits (v6prefixlength / 4) (long ++ ['\x00']) []).map copyColon
  let v6prefix := copied.2 ++
    if v6prefixlength % 4 ≠ 0 then [maskDigit (v6prefixlength % 4) (copied.1.headD '\x00')] else []
  return v6prefix ++ padding v6prefix.length ++ closing v6prefixlength

/-- `IPv6_Address_GetPrefix`, for prefixes of up to 128 bits -/
def ipv6AddressGetPrefix (stack : Rows) (behind : ℕ → Char) (buf : Text) (v6prefixlength : ℕ) :
    Except Fault Text := do
  if 128 ≤ buf.length then throw .writePastEnd
  let long ← ipv6ToRegular stack behind buf
  let v6prefix ← cutPrefix long v6prefixlength
  ipv6ToZip v6prefix

section Masks

variable {c : Char} {w v : Text} {len m n : ℕ}

/-- A digit of which `len` bits belong to the prefix. -/
def keptDigit (len : ℕ) (c : Char) : Char :=
  if 4 ≤ len then c else if len = 0 then '0' else maskDigit len c

/-- The first `len` bits of the digits, and zeros behind them. -/
def maskDigits : ℕ → Text → Text
  | _, [] => []
  | len, c :: w => keptDigit len c :: maskDigits (len - 4) w

theorem maskDigits_cons (len : ℕ) (c : Char) (w : Text) :
    maskDigits len (c :: w) = keptDigit len c :: maskDigits (len - 4) w := rfl

theorem keptDigit_min (len : ℕ) (c : Char) : keptDigit (min len 4) c = keptDigit len c := by
  by_cases h : 4 ≤ len
  · rw [min_eq_right h, keptDigit, keptDigit, if_pos le_rfl, if_pos h]
  · rw [min_eq_left (by omega)]

theorem hex_keptDigit (h : isHexDigit c = true) (len : ℕ) :
    isHexDigit (keptDigit len c) = true := by
  have hall : ∀ k < 5, hexDigits.all (fun d => isHexDigit (keptDigit k d)) = true := by
    decide +kernel
  rw [← keptDigit_min]
  exact List.all_eq_true.mp (hall _ (by omega)) c (mem_hexDigits h)

theorem hexDigit_keptDigit (h : isHexDigit c = true) (len : ℕ) :
    hexDigit (keptDigit len c) = hexDigit c / 2 ^ (4 - len) * 2 ^ (4 - len) := by
  have hall : ∀ k < 5, hexDigits.all (fun d => hexDigit (keptDigit k d) ==
      hexDigit d / 2 ^ (4 - k) * 2 ^ (4 - k)) = true := by
    decide +kernel
  have hmin : 4 - min len 4 = 4 - len := by omega
  have heq := List.all_eq_true.mp (hall (min len 4) (by omega)) c (mem_hexDigits h)
  rwa [beq_iff_eq, keptDigit_min, hmin] at heq

theorem keptDigit_keptDigit (h : isHexDigit c = true) (m n : ℕ) :
    keptDigit m (keptDigit n c) = keptDigit (min m n) c := by
  have hall : ∀ k < 5, ∀ l < 5, hexDigits.all (fun d =>
      keptDigit k (keptDigit l d) == keptDigit (min k l) d) = true := by
    decide +kernel
  have hmin : min (min m 4) (min n 4) = min (min m n) 4 := by omega
  have heq := List.all_eq_true.mp (hall (min m 4) (by omega) (min n 4) (by omega)) c
    (mem_hexDigits h)
  rwa [beq_iff_eq, hmin, keptDigit_min, keptDigit_min, keptDigit_min] at heq

theorem keptDigit_zero (len : ℕ) : keptDigit len '0' = '0' := by
  have hall : ∀ k < 5, keptDigit k '0' = '0' := by decide +kernel
  rw [← keptDigit_min]
  exact hall _ (by omega)

@[simp] theorem length_maskDigits (len : ℕ) (w : Text) : (maskDigits len w).length = w.length := by
  induction w generalizing len with
  | nil => rfl
  | cons c w ih => rw [maskDigits_cons, List.length_cons, ih, List.length_cons]

theorem maskDigits_append (len : ℕ) (w v : Text) :
    maskDigits len (w ++ v) = maskDigits len w ++ maskDigits (len - 4 * w.length) v := by
  induction w generalizing len with
  | nil => rfl
  | cons c w ih =>
    rw [List.cons_append, maskDigits_cons, ih, maskDigits_cons, List.cons_append, List.length_cons]
    congr 3
    omega

theorem maskDigits_of_le (h : 4 * w.length ≤ len) : maskDigits len w = w := by
  induction w generalizing len with
  | nil => rfl
  | cons c w ih =>
    rw [List.length_cons] at h
    rw [maskDigits_cons, keptDigit, if_pos (by omega), ih (by omega)]

theorem maskDigits_zero (w : Text) : maskDigits 0 w = List.replicate w.length '0' := by
  induction w with
  | nil => rfl
  | cons c w ih =>
    rw [maskDigits_cons, Nat.zero_sub, ih]
    rfl

theorem maskDigits_zeros (len k : ℕ) :
    maskDigits len (List.replicate k '0') = List.replicate k '0' := by
  induction k generalizing len with
  | zero => rfl
  | succ k ih => rw [List.replicate_succ, maskDigits_cons, keptDigit_zero, ih]

theorem hex_maskDigits (h : ∀ c ∈ w, isHexDigit c = true) (len : ℕ) :
    ∀ c ∈ maskDigits len w, isHexDigit c = true := by
  induction w generalizing len with
  | nil => exact h
  | cons c w ih =>
    rw [List.forall_mem_cons] at h
    rw [maskDigits_cons, List.forall_mem_cons]
    exact ⟨hex_keptDigit h.1 len, ih h.2 _⟩

theorem maskDigits_maskDigits (h : ∀ c ∈ w, isHexDigit c = true) (m n : ℕ) :
    maskDigits m (maskDigits n w) = maskDigits (min m n) w := by
  induction w generalizing m n with
  | nil => rfl
  | cons c w ih =>
    rw [List.forall_mem_cons] at h
    have hmin : min (m - 4) (n - 4) = min m n - 4 := by omega
    rw [maskDigits_cons, maskDigits_cons, maskDigits_cons, ih h.2, keptDigit_keptDigit h.1, hmin]

theorem number_zeros (k : ℕ) : number (List.replicate k '0') = 0 := by
  induction k with
  | zero => rfl
  | succ k ih =>
    rw [List.replicate_succ, number_cons, ih]
    simp [hexDigit]

theorem sixteen_pow (k : ℕ) : 16 ^ k = 2 ^ (4 * k) := by
  rw [pow_mul]
  norm_num

/-- A digit in front of `k` others, where none of its bits are cleared. -/
theorem div_mul_below {d k j x : ℕ} (h : j ≤ 4 * k) :
    (d * 16 ^ k + x) / 2 ^ j * 2 ^ j = d * 16 ^ k + x / 2 ^ j * 2 ^ j := by
  have hsplit : d * 16 ^ k = d * 2 ^ (4 * k - j) * 2 ^ j := by
    rw [sixteen_pow, mul_assoc, ← pow_add, Nat.sub_add_cancel h]
  rw [hsplit, Nat.add_comm, Nat.add_mul_div_right _ _ (Nat.two_pow_pos j), Nat.add_mul,
    Nat.add_comm]

/-- A digit in front of `k` others of which all bits are cleared. -/
theorem div_mul_above {d k j x : ℕ} (hx : x < 16 ^ k) :
    (d * 16 ^ k + x) / 2 ^ (4 * k + j) * 2 ^ (4 * k + j) = d / 2 ^ j * 2 ^ j * 16 ^ k := by
  have hdiv : (d * 16 ^ k + x) / 16 ^ k = d := by
    rw [Nat.mul_comm, Nat.mul_add_div (Nat.pow_pos (by decide)), Nat.div_eq_of_lt hx, Nat.add_zero]
  rw [pow_add, ← sixteen_pow, ← Nat.div_div_eq_div_mul, hdiv]
  ring

/-- The digits stand for the number without its last bits. -/
theorem number_maskDigits (h : ∀ c ∈ w, isHexDigit c = true) (len : ℕ) :
    number (maskDigits len w) =
      number w / 2 ^ (4 * w.length - len) * 2 ^ (4 * w.length - len) := by
  induction w generalizing len with
  | nil => simp [maskDigits, number]
  | cons c w ih =>
    rw [List.forall_mem_cons] at h
    rw [maskDigits_cons, number_cons, number_cons, hexDigit_keptDigit h.1, length_maskDigits,
      List.length_cons]
    by_cases hlen : 4 ≤ len
    · have hfour : 4 - len = 0 := by omega
      have hshift : 4 * (w.length + 1) - len = 4 * w.length - (len - 4) := by omega
      rw [ih h.2, hfour, hshift, div_mul_below (by omega)]
      simp
    · have hzero : len - 4 = 0 := by omega
      have hshift : 4 * (w.length + 1) - len = 4 * w.length + (4 - len) := by omega
      rw [hzero, maskDigits_zero, number_zeros, hshift, div_mul_above (number_lt h.2), Nat.add_zero]

theorem toNat_masked (len : ℕ) (a : Address) :
    (masked len a).toNat = a.toNat / 2 ^ (128 - len) * 2 ^ (128 - len) := by
  rw [masked, BitVec.toNat_shiftLeft, BitVec.toNat_ushiftRight, Nat.shiftRight_eq_div_pow,
    Nat.shiftLeft_eq, Nat.mod_eq_of_lt ((Nat.div_mul_le_self _ _).trans_lt a.isLt)]

/-- `masked` clears the bits behind the first `len`. -/
theorem getMsbD_masked (len : ℕ) (a : Address) (i : ℕ) :
    (masked len a).getMsbD i = (decide (i < len) && a.getMsbD i) := by
  simp only [masked, BitVec.getMsbD_shiftLeft, BitVec.getMsbD_ushiftRight]
  by_cases hi : i < len
  · have hbit : a.getMsbD i = true → i + (128 - len) < 128 := by
      intro h
      have hlt := BitVec.lt_of_getMsbD h
      omega
    simpa [hi] using hbit
  · have hbit : i + (128 - len) < 128 → a.getMsbD i = false := by omega
    simpa [hi] using hbit

end Masks

section Cut

variable {es f : List Group} {g : Group} {w rest out : Text} {len n r : ℕ}

theorem copyDigits_digits (hw : ':' ∉ w) (n : ℕ) (rest out : Text) :
    copyDigits (w.length + n) (w ++ rest) out = copyDigits n rest (out ++ w) := by
  induction w generalizing out with
  | nil => simp
  | cons c w ih =>
    rw [List.mem_cons, not_or] at hw
    have hsucc : (c :: w).length + n ≠ 0 := by simp
    have hpred : (c :: w).length + n - 1 = w.length + n := by
      rw [List.length_cons]
      omega
    rw [List.cons_append, copyDigits, if_neg hsucc, if_neg (Ne.symm hw.1), hpred, ih hw.2]
    simp

theorem copyDigits_zero (rest out : Text) : copyDigits 0 rest out = .ok (rest, out) := by
  cases rest <;> rfl

theorem copyDigits_colon (hn : 0 < n) (rest out : Text) :
    copyDigits n (':' :: rest) out = copyDigits n rest (out ++ [':']) := by
  rw [copyDigits, if_neg hn.ne', if_pos rfl]

theorem copyDigits_groups (hf : ∀ g ∈ f, g.text.length = 4) (hn : 0 < n) (rest out : Text) :
    copyDigits (4 * f.length + n) (beforeColon f ++ rest) out =
      copyDigits n rest (out ++ beforeColon f) := by
  induction f generalizing out with
  | nil => simp [beforeColon]
  | cons g f ih =>
    rw [List.forall_mem_cons] at hf
    have hcount : 4 * (g :: f).length + n = g.text.length + (4 * f.length + n) := by
      rw [hf.1, List.length_cons]
      omega
    have htext : beforeColon (g :: f) ++ rest = g.text ++ ':' :: (beforeColon f ++ rest) := by
      simp [beforeColon]
    rw [hcount, htext, copyDigits_digits g.colon_not_mem, copyDigits_colon (by omega), ih hf.2]
    simp [beforeColon]

theorem copyColon_digit {c : Char} (hc : c ≠ ':') (rest out : Text) :
    copyColon (c :: rest, out) = (c :: rest, out) := by
  unfold copyColon
  split
  · next h => simp_all
  · rfl

/-- After the loop and the colon the copy has reached digit `t` of the next group. -/
theorem copied_eq (hf : ∀ g ∈ f, g.text.length = 4) (hg : g.text.length = 4) {t : ℕ} (ht : t < 4)
    (rest : Text) :
    (copyDigits (4 * f.length + t) (beforeColon f ++ (g.text ++ rest)) []).map copyColon =
      .ok (g.text.drop t ++ rest, beforeColon f ++ g.text.take t) := by
  have hdrop : ∃ c u, g.text.drop t = c :: u ∧ c ≠ ':' := by
    obtain ⟨c, u, hcons⟩ := List.exists_cons_of_ne_nil (l := g.text.drop t) (by simp; omega)
    have hmem : c ∈ g.text := List.mem_of_mem_drop (hcons ▸ List.mem_cons_self)
    exact ⟨c, u, hcons, ne_colon_of_isHexDigit (g.hex c hmem)⟩
  obtain ⟨c, u, hcons, hc⟩ := hdrop
  have hcolon : ∀ out, copyColon (g.text.drop t ++ rest, out) = (g.text.drop t ++ rest, out) := by
    intro out
    rw [hcons]
    exact copyColon_digit hc _ _
  rcases Nat.eq_zero_or_pos t with rfl | hpos
  · rcases List.eq_nil_or_concat' f with rfl | ⟨f, e, rfl⟩
    · change (copyDigits 0 (g.text ++ rest) []).map copyColon = _
      rw [copyDigits_zero]
      exact congrArg Except.ok (hcolon [])
    · rw [List.forall_mem_append, List.forall_mem_singleton] at hf
      have hcount : 4 * (f ++ [e]).length + 0 = 4 * f.length + 4 := by
        rw [List.length_append, List.length_singleton]
        omega
      have htext : beforeColon (f ++ [e]) ++ (g.text ++ rest) =
          beforeColon f ++ (e.text ++ ':' :: (g.text ++ rest)) := by
        simp [beforeColon]
      have hlast := copyDigits_digits e.colon_not_mem 0 (':' :: (g.text ++ rest)) (beforeColon f)
      rw [hf.2, Nat.add_zero, copyDigits_zero] at hlast
      rw [hcount, htext, copyDigits_groups hf.1 (by decide), List.nil_append, hlast]
      simp [Except.map, copyColon, beforeColon]
  · have hsplit : g.text ++ rest = g.text.take t ++ (g.text.drop t ++ rest) := by
      rw [← List.append_assoc, List.take_append_drop]
    have hlen : (g.text.take t).length = t := by
      rw [List.length_take]
      omega
    have htake : ':' ∉ g.text.take t := fun h => g.colon_not_mem (List.mem_of_mem_take h)
    have hlast := copyDigits_digits htake 0 (g.text.drop t ++ rest) (beforeColon f)
    rw [hlen, Nat.add_zero, copyDigits_zero] at hlast
    rw [copyDigits_groups hf hpos, List.nil_append, hsplit, hlast]
    exact congrArg Except.ok (hcolon _)

def maskedGroup (r : ℕ) (g : Group) : Group where
  text := maskDigits r g.text
  nonempty := List.ne_nil_of_length_pos (by rw [length_maskDigits]; exact g.length_pos)
  length_le := (length_maskDigits r g.text).trans_le g.length_le
  hex := hex_maskDigits g.hex r

theorem padding_add (q k : ℕ) : padding (5 * q + k) = padding k := by
  simp [padding]

theorem length_beforeColon (hf : ∀ g ∈ f, g.text.length = 4) :
    (beforeColon f).length = 5 * f.length := by
  induction f with
  | nil => rfl
  | cons g f ih =>
    rw [List.forall_mem_cons] at hf
    have hrest := ih hf.2
    simp only [beforeColon, List.flatMap_cons, List.length_append, List.length_cons,
      List.length_nil, hf.1] at hrest ⊢
    omega

/-- The digits of a group before its padding: whole ones and the one that is masked. -/
def partDigits (r : ℕ) (w : Text) : Text :=
  w.take (r / 4) ++ if r % 4 ≠ 0 then [maskDigit (r % 4) ((w.drop (r / 4)).headD '\x00')] else []

theorem partDigits_padded (hw : w.length = 4) (hr : r < 16) (hpos : 0 < r) :
    partDigits r w ++ padding (partDigits r w).length = maskDigits r w := by
  match w, hw with
  | [a, b, c, d], _ => interval_cases r <;> rfl

theorem cutPrefix_eq (hf : ∀ g ∈ f, g.text.length = 4) (hg : g.text.length = 4) (hr : r < 16)
    (b : List Group) : cutPrefix (joined (f ++ g :: b)) (16 * f.length + r) =
      .ok (beforeColon f ++ (if r = 0 then [] else maskDigits r g.text) ++
        closing (16 * f.length + r)) := by
  have htext : joined (f ++ g :: b) ++ ['\x00'] =
      beforeColon f ++ (g.text ++ (behindColon b ++ ['\x00'])) := by
    rw [joined_append, joined_cons]
    simp
  have hdiv : (16 * f.length + r) / 4 = 4 * f.length + r / 4 := by omega
  have hmod : (16 * f.length + r) % 4 = r % 4 := by omega
  have hhead : (g.text.drop (r / 4) ++ (behindColon b ++ ['\x00'])).headD '\x00' =
      (g.text.drop (r / 4)).headD '\x00' := by
    obtain ⟨c, u, hcons⟩ := List.exists_cons_of_ne_nil (l := g.text.drop (r / 4)) (by simp; omega)
    rw [hcons]
    rfl
  have hpart : beforeColon f ++ g.text.take (r / 4) ++ (if r % 4 ≠ 0 then
      [maskDigit (r % 4) ((g.text.drop (r / 4)).headD '\x00')] else []) =
        beforeColon f ++ partDigits r g.text :=
    List.append_assoc _ _ _
  have hpadding : padding (beforeColon f ++ partDigits r g.text).length =
      padding (partDigits r g.text).length := by
    rw [List.length_append, length_beforeColon hf, padding_add]
  simp only [cutPrefix, hdiv, hmod, htext, copied_eq hf hg (show r / 4 < 4 by omega), hhead,
    Except.bind, Bind.bind, hpart, hpadding]
  rcases Nat.eq_zero_or_pos r with rfl | hpos
  · have hempty : partDigits 0 g.text = [] := by simp [partDigits]
    rw [hempty]
    simp [padding, Pure.pure, Except.pure]
  · rw [if_neg hpos.ne', ← partDigits_padded hg hr hpos, ← List.append_assoc]
    rfl

theorem cutPrefix_all (hes : ∀ g ∈ es, g.text.length = 4) (count : es.length = 8) :
    cutPrefix (joined es) 128 = .ok (joined es) := by
  obtain ⟨f, g, rfl⟩ := (List.eq_nil_or_concat' es).resolve_left
    (List.ne_nil_of_length_eq_add_one count)
  rw [List.forall_mem_append, List.forall_mem_singleton] at hes
  have hseven : f.length = 7 := by simpa using count
  have htext : joined (f ++ [g]) = beforeColon f ++ g.text := by
    rw [joined_append]
    simp [joined]
  have hgroups := copyDigits_groups hes.1 (n := 4) (by decide) (g.text ++ ['\x00']) []
  have hlast := copyDigits_digits g.colon_not_mem 0 ['\x00'] (beforeColon f)
  rw [hes.2, Nat.add_zero, copyDigits_zero] at hlast
  rw [hseven, List.nil_append, hlast] at hgroups
  have hlen : (beforeColon f ++ g.text).length = 39 := by
    rw [List.length_append, length_beforeColon hes.1, hseven, hes.2]
  have hcopied : (copyDigits (128 / 4) (beforeColon f ++ g.text ++ ['\x00']) []).map copyColon =
      .ok (['\x00'], beforeColon f ++ g.text) := by
    rw [List.append_assoc]
    exact congrArg (Except.map copyColon) hgroups
  have hpadding : padding 39 = [] := rfl
  rw [htext]
  simp only [cutPrefix, hcopied, Except.bind, Bind.bind]
  simp [hlen, hpadding, closing, Pure.pure, Except.pure]

end Cut

section Prefixes

variable {s t : Spelling} {es f b : List Group} {g : Group} {len r : ℕ}

theorem joined_closing (f : List Group) : joined f ++ [':', ':'] =
    beforeColon f ++ if f = [] then [':', ':'] else [':'] := by
  by_cases hf : f = []
  · subst hf
    rfl
  · rw [if_neg hf, ← joined_colon hf]
    simp

theorem padded_of_length (h : g.text.length = 4) : g.padded = g.text := by
  rw [Group.padded, h]
  rfl

theorem flatMap_padded_of_length (h : ∀ g ∈ es, g.text.length = 4) :
    es.flatMap Group.padded = es.flatMap Group.text :=
  List.flatMap_congr fun g hg => padded_of_length (h g hg)

theorem length_flatMap_text (h : ∀ g ∈ es, g.text.length = 4) :
    (es.flatMap Group.text).length = 4 * es.length := by
  induction es with
  | nil => rfl
  | cons g es ih =>
    rw [List.forall_mem_cons] at h
    rw [List.flatMap_cons, List.length_append, ih h.2, h.1, List.length_cons]
    omega

theorem maskDigits_groups (hf : ∀ g ∈ f, g.text.length = 4) (hg : g.text.length = 4)
    (hb : ∀ g ∈ b, g.text.length = 4) (hr : r < 16) :
    maskDigits (16 * f.length + r) ((f ++ g :: b).flatMap Group.text) =
      f.flatMap Group.text ++ (maskDigits r g.text ++ List.replicate (4 * b.length) '0') := by
  have hlen := length_flatMap_text hf
  have hrest : 16 * f.length + r - 4 * (f.flatMap Group.text).length = r := by omega
  have hnone : r - 4 * g.text.length = 0 := by omega
  rw [List.flatMap_append, List.flatMap_cons, maskDigits_append, maskDigits_append, hrest, hnone,
    maskDigits_of_le (by omega), maskDigits_zero, length_flatMap_text hb]

theorem closing_zero (n : ℕ) (hn : n ≤ 7) :
    closing (16 * n) = if n = 0 then [':', ':'] else [':'] := by
  rw [closing, if_pos (by omega)]
  exact if_congr (by omega) rfl rfl

theorem closing_inside {n : ℕ} (hn : n ≤ 6) (hr : r < 16) (hpos : 0 < r) :
    closing (16 * n + r) = [':', ':'] := by
  rw [closing, if_pos (by omega), if_pos (by omega)]

theorem closing_last (hpos : 0 < r) : closing (16 * 7 + r) = [] := if_neg (by omega)

/-- A prefix that ends between two groups. -/
theorem exists_cutPrefix_between (hf : ∀ g ∈ f, g.text.length = 4) (hg : g.text.length = 4)
    (hb : ∀ g ∈ b, g.text.length = 4) (count : f.length + b.length = 7) :
    ∃ t : Spelling, cutPrefix (joined (f ++ g :: b)) (16 * f.length) = .ok t.text ∧
      t.digits = maskDigits (16 * f.length) ((f ++ g :: b).flatMap Group.text) := by
  have hcut := cutPrefix_eq hf hg (show 0 < 16 by decide) b
  have hmask := maskDigits_groups hf hg hb (show 0 < 16 by decide)
  rw [Nat.add_zero] at hcut hmask
  have hcount : f.length + ([] : List Group).length ≤ 7 := by
    rw [List.length_nil]
    omega
  have hzeros : 4 * (8 - f.length) = 4 + 4 * b.length := by omega
  refine ⟨.short f [] hcount, ?_, ?_⟩
  · have htext : (Spelling.short f [] hcount).text = joined f ++ [':', ':'] := rfl
    rw [hcut, if_pos rfl, List.append_nil, closing_zero _ (by omega), htext, joined_closing]
    simp only [List.length_eq_zero_iff]
  · rw [hmask, Spelling.digits_short, flatMap_padded_of_length hf, maskDigits_zero, hg,
      List.length_nil, Nat.add_zero, hzeros, ← List.replicate_append_replicate]
    simp

theorem exists_cutPrefix_inside (hf : ∀ g ∈ f, g.text.length = 4) (hg : g.text.length = 4)
    (hb : ∀ g ∈ b, g.text.length = 4) (count : f.length + b.length = 7) (hr : r < 16)
    (hpos : 0 < r) :
    ∃ t : Spelling, cutPrefix (joined (f ++ g :: b)) (16 * f.length + r) = .ok t.text ∧
      t.digits = maskDigits (16 * f.length + r) ((f ++ g :: b).flatMap Group.text) := by
  have hmasked : (maskedGroup r g).text = maskDigits r g.text := rfl
  have hfour : (maskedGroup r g).text.length = 4 := by rw [hmasked, length_maskDigits, hg]
  have hjoined : joined (f ++ [maskedGroup r g]) = beforeColon f ++ maskDigits r g.text := by
    rw [joined_append]
    simp [joined, hmasked]
  have hdigits : (f ++ [maskedGroup r g]).flatMap Group.padded =
      f.flatMap Group.text ++ maskDigits r g.text := by
    rw [List.flatMap_append, flatMap_padded_of_length hf, List.flatMap_singleton,
      padded_of_length hfour, hmasked]
  rw [cutPrefix_eq hf hg hr, maskDigits_groups hf hg hb hr, if_neg hpos.ne', ← hjoined]
  rcases (show f.length ≤ 7 by omega).lt_or_eq with hlt | hseven
  · have hcount : (f ++ [maskedGroup r g]).length + ([] : List Group).length ≤ 7 := by
      simp only [List.length_append, List.length_singleton, List.length_nil]
      omega
    have hzeros : 8 - ((f ++ [maskedGroup r g]).length + ([] : List Group).length) = b.length := by
      simp only [List.length_append, List.length_singleton, List.length_nil]
      omega
    refine ⟨.short (f ++ [maskedGroup r g]) [] hcount, ?_, ?_⟩
    · rw [closing_inside (by omega) hr hpos]
      rfl
    · rw [Spelling.digits_short, hzeros, hdigits]
      simp
  · have hcount : (f ++ [maskedGroup r g]).length = 8 := by simp [hseven]
    have hnil : b = [] := List.length_eq_zero_iff.mp (by omega)
    refine ⟨.full (f ++ [maskedGroup r g]) hcount, ?_, ?_⟩
    · rw [hseven, closing_last hpos, List.append_nil]
      rfl
    · rw [hnil]
      simpa [Spelling.digits, Spelling.groups] using hdigits

/-- The text before `IPv6_to_zip` has the digits of the prefix. -/
theorem exists_cutPrefix (hes : ∀ g ∈ es, g.text.length = 4) (count : es.length = 8)
    (hlen : len ≤ 128) : ∃ t : Spelling, cutPrefix (joined es) len = .ok t.text ∧
      t.digits = maskDigits len (es.flatMap Group.text) := by
  rcases hlen.lt_or_eq with hlt | rfl
  · have hplace : len / 16 < es.length := by omega
    have hsplit : es = es.take (len / 16) ++ es[len / 16] :: es.drop (len / 16 + 1) := by
      rw [← List.drop_eq_getElem_cons hplace, List.take_append_drop]
    have hf : ∀ g ∈ es.take (len / 16), g.text.length = 4 := fun g hg =>
      hes g (List.mem_of_mem_take hg)
    have hb : ∀ g ∈ es.drop (len / 16 + 1), g.text.length = 4 := fun g hg =>
      hes g (List.mem_of_mem_drop hg)
    have hg : es[len / 16].text.length = 4 := hes _ (List.getElem_mem hplace)
    have htake : (es.take (len / 16)).length = len / 16 := by
      rw [List.length_take]
      omega
    have hseven : (es.take (len / 16)).length + (es.drop (len / 16 + 1)).length = 7 := by
      rw [htake, List.length_drop]
      omega
    rcases Nat.eq_zero_or_pos (len % 16) with hzero | hpos
    · have hwhole : 16 * (es.take (len / 16)).length = len := by omega
      have hcut := exists_cutPrefix_between hf hg hb hseven
      rwa [hwhole, ← hsplit] at hcut
    · have hwhole : 16 * (es.take (len / 16)).length + len % 16 = len := by omega
      have hcut := exists_cutPrefix_inside hf hg hb hseven (Nat.mod_lt len (by decide)) hpos
      rwa [hwhole, ← hsplit] at hcut
  · refine ⟨.full es count, cutPrefix_all hes count, ?_⟩
    rw [maskDigits_of_le (by rw [length_flatMap_text hes, count]), Spelling.digits, Spelling.groups,
      flatMap_padded_of_length hes]

/-- No group is zero, and the last one needs all four digits. -/
def Dense (digits : Text) : Prop :=
  (∀ i < 8, (digits.drop (4 * i)).take 4 ≠ List.replicate 4 '0') ∧
    (digits.drop 28).head? ≠ some '0'

theorem drop_maskDigits (len k : ℕ) (w : Text) :
    (maskDigits len w).drop k = maskDigits (len - 4 * k) (w.drop k) := by
  induction k generalizing len w with
  | zero => rfl
  | succ k ih =>
    cases w with
    | nil => rfl
    | cons c w =>
      rw [maskDigits_cons, List.drop_succ_cons, List.drop_succ_cons, ih]
      congr 1
      omega

theorem take_maskDigits (len k : ℕ) (w : Text) :
    (maskDigits len w).take k = maskDigits len (w.take k) := by
  induction k generalizing len w with
  | zero => rfl
  | succ k ih =>
    cases w with
    | nil => rfl
    | cons c w =>
      rw [maskDigits_cons, List.take_succ_cons, List.take_succ_cons, ih, maskDigits_cons]

theorem Dense.of_maskDigits {w : Text} (h : Dense (maskDigits len w)) : Dense w := by
  constructor
  · intro i hi hzero
    refine h.1 i hi ?_
    rw [drop_maskDigits, take_maskDigits, hzero, maskDigits_zeros]
  · intro hhead
    refine h.2 ?_
    rw [drop_maskDigits]
    obtain ⟨u, hu⟩ := List.head?_eq_some_iff.mp hhead
    rw [hu, maskDigits_cons, List.head?_cons, keptDigit_zero]

theorem drop_flatMap_padded (es : List Group) (i : ℕ) :
    (es.flatMap Group.padded).drop (4 * i) = (es.drop i).flatMap Group.padded := by
  induction i generalizing es with
  | zero => rfl
  | succ i ih =>
    cases es with
    | nil => simp
    | cons g es =>
      have hfour : 4 * (i + 1) = g.padded.length + 4 * i := by
        rw [g.length_padded]
        omega
      rw [List.flatMap_cons, hfour, List.drop_length_add_append, List.drop_succ_cons, ih]

theorem digits_at {i : ℕ} (h : s.groups[i]? = some g) : s.digits.drop (4 * i) =
    g.padded ++ (s.groups.drop (i + 1)).flatMap Group.padded := by
  obtain ⟨hi, rfl⟩ := List.getElem?_eq_some_iff.mp h
  rw [Spelling.digits, drop_flatMap_padded, List.drop_eq_getElem_cons hi, List.flatMap_cons]

theorem take_digits_at {i : ℕ} (h : s.groups[i]? = some g) :
    (s.digits.drop (4 * i)).take 4 = g.padded := by
  rw [digits_at h, List.take_append_of_le_length (by simp), List.take_of_length_le (by simp)]

theorem head_digits_at {i : ℕ} (h : s.groups[i]? = some g) :
    (s.digits.drop (4 * i)).head? = g.padded.head? := by
  obtain ⟨c, u, hcons⟩ := List.exists_cons_of_ne_nil
    (List.ne_nil_of_length_eq_add_one g.length_padded)
  rw [digits_at h, hcons]
  rfl

theorem dense_of_endsWide (hzipped : Zipped t) (h : EndsWide t) : Dense t.digits := by
  cases t with
  | short f b count => exact absurd h (not_endsWide_short count)
  | full gs count =>
    obtain ⟨g, hg, hfour⟩ := h
    constructor
    · intro i hi hzero
      have hplace := List.getElem?_eq_getElem (show i < gs.length by omega)
      rw [take_digits_at hplace] at hzero
      have hnonzero := (hzipped _ (List.mem_of_getElem? hplace)).2
      rw [Group.isZero_of_padded hzero] at hnonzero
      cases hnonzero
    · have hlast := head_digits_at (s := .full gs count) (i := 7) hg
      rw [padded_of_length hfour] at hlast
      intro hhead
      have hone := (hzipped g (List.mem_of_getElem? hg)).1 (hlast.symm.trans hhead)
      omega

theorem endsWide_of_dense (h : Dense s.digits) : EndsWide s := by
  cases s with
  | short f b count =>
    have hplace : (Spelling.short f b count).groups[f.length]? = some Group.zero := by
      rw [Spelling.groups, List.append_assoc, List.getElem?_append_right le_rfl, Nat.sub_self,
        List.getElem?_append_left (by simp; omega), List.getElem?_replicate_of_lt (by omega)]
    exact absurd (take_digits_at hplace) (h.1 f.length (by omega))
  | full gs count =>
    have hplace := List.getElem?_eq_getElem (show 7 < gs.length by omega)
    refine ⟨_, hplace, ?_⟩
    by_contra hne
    have hlen := gs[7].length_le
    obtain ⟨k, hk⟩ : ∃ k, 4 - gs[7].text.length = k + 1 := ⟨3 - gs[7].text.length, by omega⟩
    have hlast := head_digits_at (s := .full gs count) (i := 7) hplace
    rw [Group.padded, hk, List.replicate_succ] at hlast
    exact h.2 hlast

theorem exists_prefix (hwide : ¬ EndsWide s) (hlen : len ≤ 128) (stack : Rows)
    (behind : ℕ → Char) : ∃ t : Spelling,
      ipv6AddressGetPrefix stack behind s.text len = .ok t.text ∧
        t.digits = maskDigits len s.digits ∧ ¬ EndsWide t := by
  have hlong := regularIn_eq (fits_of_not_endsWide hwide) stack behind
  have hfour : ∀ g ∈ s.groups.map Group.expanded, g.text.length = 4 := by
    intro g hg
    obtain ⟨e, -, rfl⟩ := List.mem_map.mp hg
    exact e.length_padded
  have hdigits : (s.groups.map Group.expanded).flatMap Group.text = s.digits :=
    List.flatMap_map _ _ _
  obtain ⟨u, hcut, hu⟩ := exists_cutPrefix hfour (by rw [List.length_map, s.length_groups]) hlen
  obtain ⟨t, hzip, hzipped, ht, -⟩ := exists_zipped u
  rw [hdigits] at hu
  have hmasked : t.digits = maskDigits len s.digits := ht.trans hu
  refine ⟨t, ?_, hmasked, fun h => hwide ?_⟩
  · have htext := s.length_text_lt
    have hlong' : ipv6ToRegular stack behind s.text =
        .ok (joined (s.groups.map Group.expanded)) := hlong
    rw [ipv6AddressGetPrefix, if_neg (by omega), hlong']
    simp only [Bind.bind, Except.bind, hcut, hzip]
  · have hdense := dense_of_endsWide hzipped h
    rw [hmasked] at hdense
    exact endsWide_of_dense hdense.of_maskDigits

theorem address_of_maskDigits (h : t.digits = maskDigits len s.digits) :
    t.address = masked len s.address := by
  apply BitVec.eq_of_toNat_eq
  rw [toNat_masked, t.toNat_address, s.toNat_address, h, number_maskDigits s.hex_digits,
    s.length_digits]

theorem ipv6AddressGetPrefix_of_endsWide (h : EndsWide s) (stack : Rows) (behind : ℕ → Char) :
    ipv6AddressGetPrefix stack behind s.text len = .error .writePastEnd := by
  have hlen := s.length_text_lt
  rw [ipv6AddressGetPrefix, if_neg (by omega), ipv6ToRegular_of_endsWide h]
  rfl

/-- Prefixes are right, and so are prefixes of prefixes, unless the long text is out of reach. -/
theorem ipv6AddressGetPrefix_iff (s : Spelling) :
    (∀ stack behind, ∀ n ≤ 128, ∃ t : Spelling,
      ipv6AddressGetPrefix stack behind s.text n = .ok t.text ∧ t.address = masked n s.address ∧
        ∀ m ≤ 128, ∃ u v : Spelling, ipv6AddressGetPrefix stack behind t.text m = .ok u.text ∧
          ipv6AddressGetPrefix stack behind s.text (min m n) = .ok v.text ∧
            u.address = v.address ∧ u.digits = v.digits) ↔ ¬ EndsWide s := by
  constructor
  · intro h hwide
    obtain ⟨t, ht, -⟩ := h (fun _ => '\x00') (fun _ => '\x00') 0 (Nat.zero_le 128)
    rw [ipv6AddressGetPrefix_of_endsWide hwide] at ht
    cases ht
  · intro hwide stack behind n hn
    obtain ⟨t, ht, hdigits, htwide⟩ := exists_prefix hwide hn stack behind
    refine ⟨t, ht, address_of_maskDigits hdigits, fun m hm => ?_⟩
    obtain ⟨u, hu, hudigits, -⟩ := exists_prefix htwide hm stack behind
    obtain ⟨v, hv, hvdigits, -⟩ := exists_prefix hwide ((min_le_left m n).trans hm) stack behind
    have hsame : u.digits = v.digits := by
      rw [hudigits, hdigits, hvdigits, maskDigits_maskDigits s.hex_digits]
    refine ⟨u, v, hu, hv, ?_, hsame⟩
    rw [Spelling.address, hsame, Spelling.address]

theorem wideEnd_no_prefix : ¬ ∀ stack behind, ∀ n ≤ 128, ∃ t : Spelling,
    ipv6AddressGetPrefix stack behind wideEnd.text n = .ok t.text ∧
      t.address = masked n wideEnd.address ∧
        ∀ m ≤ 128, ∃ u v : Spelling, ipv6AddressGetPrefix stack behind t.text m = .ok u.text ∧
          ipv6AddressGetPrefix stack behind wideEnd.text (min m n) = .ok v.text ∧
            u.address = v.address ∧ u.digits = v.digits := by
  intro h
  obtain ⟨t, ht, -⟩ := h (fun _ => '\x00') (fun _ => '\x00') 64 (by decide)
  have hwide : EndsWide wideEnd := ⟨_, rfl, rfl⟩
  rw [ipv6AddressGetPrefix_of_endsWide hwide] at ht
  cases ht

end Prefixes

end Ipv6Prefix
