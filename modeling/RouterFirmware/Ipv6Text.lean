import Mathlib.Data.List.Flatten
import Mathlib.Data.List.DropRight
import Mathlib.Tactic.Ring
import RouterFirmware.Ipv4Text

/-! # Texts of IPv6 addresses

Eight groups of up to four hexadecimal digits, or fewer with one `::` where groups of zeros are
left out. All texts of an address have the same 32 digits.
-/
namespace Ipv6Text

open Ipv4Text (isHexDigit hexDigit)
open TextStream

abbrev Address := BitVec 128

/-- A group as it is written. -/
structure Group where
  text : Text
  nonempty : text ≠ []
  length_le : text.length ≤ 4
  hex : ∀ c ∈ text, isHexDigit c = true

namespace Group

def padded (g : Group) : Text := List.replicate (4 - g.text.length) '0' ++ g.text

def isZero (g : Group) : Bool := g.text.all (· == '0')

/-- No zero stands in front of another digit. -/
def Minimal (g : Group) : Prop := g.text.head? = some '0' → g.text.length = 1

def zero : Group := ⟨['0'], by decide, by decide, forall_of_all (by decide)⟩

end Group

/-- `g₁:g₂:…` -/
def joined (gs : List Group) : Text := [':'].intercalate (gs.map Group.text)

inductive Spelling where
  | full (groups : List Group) (count : groups.length = 8)
  | short (front back : List Group) (count : front.length + back.length ≤ 7)

namespace Spelling

def text : Spelling → Text
  | full groups _ => joined groups
  | short front back _ => joined front ++ ':' :: ':' :: joined back

def written : Spelling → List Group
  | full groups _ => groups
  | short front back _ => front ++ back

def groups : Spelling → List Group
  | full groups _ => groups
  | short front back _ =>
    front ++ List.replicate (8 - (front.length + back.length)) Group.zero ++ back

def digits (s : Spelling) : Text := s.groups.flatMap Group.padded

end Spelling

def number (digits : Text) : ℕ := digits.foldl (fun n c => 16 * n + hexDigit c) 0

def Spelling.address (s : Spelling) : Address := BitVec.ofNat 128 (number s.digits)

/-- All bits behind the first `len` are cleared. -/
def masked (len : ℕ) (a : Address) : Address := a >>> (128 - len) <<< (128 - len)

section Digits

variable {c : Char} {w v : Text} {len : ℕ}

def hexDigits : Text := "0123456789abcdefABCDEF".toList

theorem mem_hexDigits (h : isHexDigit c = true) : c ∈ hexDigits := by
  have hlt : c.toNat < 128 := by
    simp only [isHexDigit, Char.isDigit, Bool.or_eq_true, Bool.and_eq_true, decide_eq_true_eq,
      Char.le_def, UInt32.le_iff_toNat_le] at h
    rcases h with (⟨-, h⟩ | ⟨-, h⟩) | ⟨-, h⟩ <;> exact h.trans_lt (by decide)
  have hall : ∀ n < 128, isHexDigit (Char.ofNat n) = true → Char.ofNat n ∈ hexDigits := by
    decide +kernel
  rw [← Char.ofNat_toNat c] at h ⊢
  exact hall _ hlt h

theorem ne_colon_of_isHexDigit (h : isHexDigit c = true) : c ≠ ':' := by
  rintro rfl
  exact absurd h (by decide)

theorem ne_nul_of_isHexDigit (h : isHexDigit c = true) : c ≠ '\x00' := by
  rintro rfl
  exact absurd h (by decide)

theorem hexDigit_lt (h : isHexDigit c = true) : hexDigit c < 16 := by
  have hall : ∀ d ∈ hexDigits, hexDigit d < 16 := forall_of_all (by decide +kernel)
  exact hall c (mem_hexDigits h)

theorem foldl_number (w : Text) (n : ℕ) :
    w.foldl (fun n c => 16 * n + hexDigit c) n = n * 16 ^ w.length + number w := by
  induction w generalizing n with
  | nil => simp [number]
  | cons c w ih =>
    rw [number, List.foldl_cons, List.foldl_cons, ih, ih (16 * 0 + hexDigit c), List.length_cons]
    ring

theorem number_cons (c : Char) (w : Text) :
    number (c :: w) = hexDigit c * 16 ^ w.length + number w := by
  rw [number, List.foldl_cons, foldl_number, Nat.mul_zero, Nat.zero_add]

theorem number_lt (h : ∀ c ∈ w, isHexDigit c = true) : number w < 16 ^ w.length := by
  induction w with
  | nil => simp [number]
  | cons c w ih =>
    rw [List.forall_mem_cons] at h
    rw [number_cons, List.length_cons, pow_succ]
    calc hexDigit c * 16 ^ w.length + number w
        < hexDigit c * 16 ^ w.length + 16 ^ w.length := Nat.add_lt_add_left (ih h.2) _
      _ = (hexDigit c + 1) * 16 ^ w.length := by ring
      _ ≤ 16 * 16 ^ w.length := Nat.mul_le_mul_right _ (hexDigit_lt h.1)
      _ = 16 ^ w.length * 16 := Nat.mul_comm _ _

end Digits

section Groups

variable {g : Group} {f b gs : List Group} {s : Spelling}

theorem Group.colon_not_mem (g : Group) : ':' ∉ g.text := fun h =>
  ne_colon_of_isHexDigit (g.hex _ h) rfl

@[simp] theorem Group.length_padded (g : Group) : g.padded.length = 4 := by
  have hlen := g.length_le
  simp only [Group.padded, List.length_append, List.length_replicate]
  omega

theorem Group.hex_padded (g : Group) : ∀ c ∈ g.padded, isHexDigit c = true := by
  intro c hc
  rcases List.mem_append.mp hc with hc | hc
  · rw [List.eq_of_mem_replicate hc]
    decide
  · exact g.hex c hc

theorem Group.exists_cons (g : Group) : ∃ c t, g.text = c :: t ∧ c ≠ ':' := by
  obtain ⟨c, t, htext⟩ := List.exists_cons_of_ne_nil g.nonempty
  exact ⟨c, t, htext, ne_colon_of_isHexDigit (g.hex c (by simp [htext]))⟩

theorem Group.length_pos (g : Group) : 0 < g.text.length := List.length_pos_iff.mpr g.nonempty

/-- The same group with four digits. -/
def Group.expanded (g : Group) : Group :=
  ⟨g.padded, List.ne_nil_of_length_eq_add_one g.length_padded, g.length_padded.le, g.hex_padded⟩

theorem Group.padded_of_isZero (h : g.isZero = true) : g.padded = List.replicate 4 '0' := by
  rw [List.eq_replicate_iff]
  refine ⟨g.length_padded, fun c hc => ?_⟩
  rcases List.mem_append.mp hc with hc | hc
  · exact List.eq_of_mem_replicate hc
  · simpa using List.all_eq_true.mp h c hc

theorem Group.isZero_of_padded (h : g.padded = List.replicate 4 '0') : g.isZero = true := by
  refine List.all_eq_true.mpr fun c hc => ?_
  have hmem : c ∈ g.padded := List.mem_append_right _ hc
  rw [h] at hmem
  simpa using List.eq_of_mem_replicate hmem

def behindColon (gs : List Group) : Text := gs.flatMap fun g => ':' :: g.text

def beforeColon (gs : List Group) : Text := gs.flatMap fun g => g.text ++ [':']

theorem length_beforeColon_le (gs : List Group) : (beforeColon gs).length ≤ 5 * gs.length := by
  induction gs with
  | nil => rfl
  | cons g gs ih =>
    have hlen := g.length_le
    simp only [beforeColon, List.flatMap_cons, List.length_append, List.length_cons,
      List.length_nil] at ih ⊢
    omega

@[simp] theorem joined_nil : joined [] = [] := rfl

theorem joined_cons_cons (g h : Group) (gs : List Group) :
    joined (g :: h :: gs) = g.text ++ ':' :: joined (h :: gs) := by
  simp [joined, List.intercalate_cons_cons]

theorem joined_cons (g : Group) (gs : List Group) :
    joined (g :: gs) = g.text ++ behindColon gs := by
  induction gs generalizing g with
  | nil => simp [joined, behindColon]
  | cons h gs ih =>
    rw [joined_cons_cons, ih, behindColon, behindColon, List.flatMap_cons, List.cons_append]

theorem joined_append (f : List Group) (g : Group) (b : List Group) :
    joined (f ++ g :: b) = beforeColon f ++ joined (g :: b) := by
  induction f with
  | nil => rfl
  | cons e f ih =>
    have hstep : joined (e :: (f ++ g :: b)) = e.text ++ ':' :: joined (f ++ g :: b) := by
      cases f <;> exact joined_cons_cons _ _ _
    rw [List.cons_append, hstep, ih]
    simp [beforeColon]

theorem joined_colon (h : f ≠ []) : joined f ++ [':'] = beforeColon f := by
  obtain ⟨f, g, rfl⟩ := List.eq_nil_or_concat' f |>.resolve_left h
  rw [joined_append, joined_cons, beforeColon, beforeColon, List.flatMap_append]
  simp [behindColon]

theorem length_joined_lt {gs : List Group} (h : gs ≠ []) :
    (joined gs).length < 5 * gs.length := by
  have hcolon := congrArg List.length (joined_colon h)
  have hle := length_beforeColon_le gs
  rw [List.length_append, List.length_singleton] at hcolon
  omega

theorem length_joined_le (gs : List Group) : (joined gs).length ≤ 5 * gs.length := by
  cases gs with
  | nil => rfl
  | cons g gs => exact (length_joined_lt (List.cons_ne_nil g gs)).le

theorem Spelling.length_text_lt (s : Spelling) : s.text.length < 40 := by
  cases s with
  | full groups count =>
    have hlt := length_joined_lt (List.ne_nil_of_length_eq_add_one count)
    rw [count] at hlt
    exact hlt
  | short front back count =>
    have hfront := length_joined_le front
    have hback := length_joined_le back
    simp only [text, List.length_append, List.length_cons]
    omega

theorem Spelling.length_written_le (s : Spelling) : s.written.length ≤ 8 := by
  cases s with
  | full groups count => exact count.le
  | short front back count =>
    rw [written, List.length_append]
    omega

theorem Spelling.length_groups (s : Spelling) : s.groups.length = 8 := by
  cases s with
  | full groups count => exact count
  | short front back count =>
    simp only [groups, List.length_append, List.length_replicate]
    omega

theorem length_flatMap_padded (gs : List Group) :
    (gs.flatMap Group.padded).length = 4 * gs.length := by
  induction gs with
  | nil => rfl
  | cons g gs ih =>
    rw [List.flatMap_cons, List.length_append, ih, g.length_padded, List.length_cons]
    omega

theorem Spelling.length_digits (s : Spelling) : s.digits.length = 32 := by
  rw [digits, length_flatMap_padded, s.length_groups]

theorem Spelling.hex_digits (s : Spelling) : ∀ c ∈ s.digits, isHexDigit c = true := by
  intro c hc
  obtain ⟨g, -, hg⟩ := List.mem_flatMap.mp hc
  exact g.hex_padded c hg

theorem Spelling.toNat_address (s : Spelling) : s.address.toNat = number s.digits := by
  have hlt : number s.digits < 2 ^ 128 := by
    have hdigits := number_lt s.hex_digits
    rw [s.length_digits] at hdigits
    exact hdigits.trans_eq (by decide)
  rw [address, BitVec.toNat_ofNat, Nat.mod_eq_of_lt hlt]

theorem flatMap_padded_zeros (h : ∀ g ∈ gs, g.isZero = true) :
    gs.flatMap Group.padded = List.replicate (4 * gs.length) '0' := by
  induction gs with
  | nil => rfl
  | cons g gs ih =>
    rw [List.forall_mem_cons] at h
    rw [List.flatMap_cons, ih h.2, g.padded_of_isZero h.1, List.replicate_append_replicate,
      List.length_cons, Nat.mul_succ, Nat.add_comm]

theorem Spelling.digits_short (count : f.length + b.length ≤ 7) :
    (Spelling.short f b count).digits = f.flatMap Group.padded ++
      (List.replicate (4 * (8 - (f.length + b.length))) '0' ++ b.flatMap Group.padded) := by
  have hzeros := @flatMap_padded_zeros (List.replicate (8 - (f.length + b.length)) Group.zero)
    fun g hg => by
      rw [List.eq_of_mem_replicate hg]
      rfl
  rw [List.length_replicate] at hzeros
  rw [digits, groups, List.flatMap_append, List.flatMap_append, hzeros, List.append_assoc]

end Groups

end Ipv6Text
