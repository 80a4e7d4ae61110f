import Mathlib.Data.BitVec
import RouterFirmware.TextStream

/-! # Internet addresses and their texts

`inet_ntoa` and `inet_aton` of the C library. An address is a number whose highest byte is the
first one of the text, so that `htonl` changes nothing.
-/
namespace Ipv4Text

open TextStream

abbrev Address := BitVec 32

/-- The byte at place `i` of the text, counted from 0. -/
def octet (a : Address) (i : ℕ) : ℕ := a.toNat / 256 ^ (3 - i) % 256

def ofOctets (a b c d : ℕ) : Address := BitVec.ofNat 32 (((a * 256 + b) * 256 + c) * 256 + d)

def decimal (n : ℕ) : Text := Nat.toDigits 10 n

def inetNtoa (a : Address) : Text :=
  decimal (octet a 0) ++ '.' :: (decimal (octet a 1) ++ '.' :: (decimal (octet a 2) ++
    '.' :: decimal (octet a 3)))

def isHexDigit (c : Char) : Bool :=
  c.isDigit || ('a' ≤ c && c ≤ 'f') || ('A' ≤ c && c ≤ 'F')

def hexDigit (c : Char) : ℕ :=
  if c.isDigit then c.toNat - '0'.toNat
  else if 'a' ≤ c then c.toNat - 'a'.toNat + 10
  else c.toNat - 'A'.toNat + 10

def digits (base : ℕ) (ds : Text) : Option ℕ :=
  if ds ≠ [] ∧ ds.all (fun c => isHexDigit c && hexDigit c < base) then
    some (ds.foldl (fun n c => base * n + hexDigit c) 0)
  else none

/-- One part of an address: hexadecimal, octal or decimal. -/
def part (t : Text) : Option ℕ :=
  match t with
  | '0' :: 'x' :: ds => digits 16 ds
  | '0' :: 'X' :: ds => digits 16 ds
  | '0' :: ds => digits 8 ('0' :: ds)
  | ds => digits 10 ds

/-- `inet_aton`: up to four parts, the last one of them for all bytes that are left. -/
def inetAton (t : Text) : Option Address :=
  match ((t.takeWhile (!isSpace ·)).splitOn '.').map part with
  | [some a] => if a < 2 ^ 32 then some (BitVec.ofNat 32 a) else none
  | [some a, some b] => if a < 256 ∧ b < 2 ^ 24 then
      some (BitVec.ofNat 32 (a * 2 ^ 24 + b)) else none
  | [some a, some b, some c] => if a < 256 ∧ b < 256 ∧ c < 2 ^ 16 then
      some (BitVec.ofNat 32 ((a * 256 + b) * 2 ^ 16 + c)) else none
  | [some a, some b, some c, some d] => if a < 256 ∧ b < 256 ∧ c < 256 ∧ d < 256 then
      some (ofOctets a b c d) else none
  | _ => none

section Octets

variable {a b c d n : ℕ}

theorem octet_lt (x : Address) (i : ℕ) : octet x i < 256 := Nat.mod_lt _ (by decide)

theorem octet_two (x : Address) : octet x 2 = x.toNat / 256 % 256 := rfl

theorem octet_three (x : Address) : octet x 3 = x.toNat % 256 := by
  simp [octet]

theorem toNat_ofOctets (ha : a < 256) (hb : b < 256) (hc : c < 256) (hd : d < 256) :
    (ofOctets a b c d).toNat = ((a * 256 + b) * 256 + c) * 256 + d := by
  rw [ofOctets, BitVec.toNat_ofNat, Nat.mod_eq_of_lt (by omega)]

theorem ofOctets_octet (x : Address) :
    ofOctets (octet x 0) (octet x 1) (octet x 2) (octet x 3) = x := by
  apply BitVec.eq_of_toNat_eq
  rw [toNat_ofOctets (octet_lt x 0) (octet_lt x 1) (octet_lt x 2) (octet_lt x 3)]
  have hx := x.isLt
  simp only [octet]
  omega

theorem isDigit_of_mem_decimal {ch : Char} (h : ch ∈ decimal n) : ch.isDigit = true :=
  Nat.isDigit_of_mem_toDigits (by decide) (by decide) h

theorem not_mem_decimal {ch : Char} (h : ch.isDigit = false) : ch ∉ decimal n := by
  intro hmem
  rw [isDigit_of_mem_decimal hmem] at h
  cases h

theorem ofDigitChars_decimal (n : ℕ) : Nat.ofDigitChars 10 (decimal n) 0 = n :=
  Nat.ofDigitChars_ten_toDigits

theorem part_decimal (h : n < 256) : part (decimal n) = some n := by
  have hall : ∀ m < 256, part (decimal m) = some m := by decide +kernel
  exact hall n h

theorem splitOn_decimal {sep : Char} (h : sep.isDigit = false) (t : Text) :
    (decimal n ++ sep :: t).splitOn sep = decimal n :: t.splitOn sep :=
  List.splitOn_append_cons_self_of_not_mem (not_mem_decimal h) t

theorem splitOn_inetNtoa (x : Address) : (inetNtoa x).splitOn '.' =
    [decimal (octet x 0), decimal (octet x 1), decimal (octet x 2), decimal (octet x 3)] := by
  have hdot : '.'.isDigit = false := by decide
  rw [inetNtoa, splitOn_decimal hdot, splitOn_decimal hdot, splitOn_decimal hdot,
    List.splitOn_eq_singleton (not_mem_decimal hdot)]

theorem isDigit_or_of_mem_inetNtoa {x : Address} {ch : Char} (h : ch ∈ inetNtoa x) :
    ch.isDigit = true ∨ ch = '.' := by
  simp only [inetNtoa, List.mem_append, List.mem_cons] at h
  rcases h with h | rfl | h | rfl | h | rfl | h <;>
    first | exact .inr rfl | exact .inl (isDigit_of_mem_decimal h)

theorem length_inetNtoa (a : Address) : (inetNtoa a).length < 16 := by
  have hlen : ∀ i, (decimal (octet a i)).length ≤ 3 := fun i =>
    (Nat.length_toDigits_le_iff (by decide) (by decide)).mpr ((octet_lt a i).trans (by decide))
  have h0 := hlen 0
  have h1 := hlen 1
  have h2 := hlen 2
  have h3 := hlen 3
  simp only [inetNtoa, List.length_append, List.length_cons]
  omega

theorem inetNtoa_ne_nil (a : Address) : inetNtoa a ≠ [] := by
  simp [inetNtoa]

theorem inetAton_inetNtoa (x : Address) : inetAton (inetNtoa x) = some x := by
  have hword : (inetNtoa x).takeWhile (!isSpace ·) = inetNtoa x := by
    rw [List.takeWhile_eq_self_iff]
    intro ch hch
    rcases isDigit_or_of_mem_inetNtoa hch with hdigit | rfl
    · simp [isSpace_of_isDigit hdigit]
    · decide
  simp only [inetAton, hword, splitOn_inetNtoa, List.map_cons, List.map_nil,
    part_decimal (octet_lt x _)]
  rw [if_pos ⟨octet_lt x 0, octet_lt x 1, octet_lt x 2, octet_lt x 3⟩, ofOctets_octet]

end Octets

end Ipv4Text
