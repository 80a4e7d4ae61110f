import RouterFirmware.Ipv6Regular

/-! # The stores into the rows

Where `IPv6_to_regular` writes depends on the lengths of the groups and on the place of the `::`
only. The rows of `tmp_addr` are 32 bytes.
-/
namespace Ipv6Stores

open CString Ipv6Regular Ipv6Text TextStream

/-- `strcpy(tmp_addr[count], pch)`, with its NUL -/
def copyStores (count : ℕ) (pch : Text) : List ℤ :=
  (List.range (pch.length + 1)).map fun k : ℕ => 4 * (count : ℤ) + k

/-- `tmp_addr[j][3] = …; tmp_addr[j][2] = …; tmp_addr[j][1] = …; tmp_addr[j][0] = …;` -/
def rowStores (j : ℤ) : List ℤ := [4 * j + 3, 4 * j + 2, 4 * j + 1, 4 * j]

def padStores (count : ℕ) : ℕ → List ℤ
  | 1 | 2 | 3 => rowStores count
  | _ => []

def tokenStores : List Text → ℕ → List ℤ
  | [], _ => []
  | pch :: rest, count =>
    copyStores count pch ++ padStores count pch.length ++ tokenStores rest (count + 1)

/-- The values of `j` in `for (j = high; j >= low; j--)`. -/
def downTo (high low : ℤ) : List ℤ := (List.range (high + 1 - low).toNat).map fun t : ℕ => high - t

/-- The loops over `j` and `k`; `k` starts where `j` ends. -/
def spreadStores (count calue : ℤ) : List ℤ :=
  (downTo 7 (7 - (count - calue) + 1)).flatMap rowStores ++
    (downTo (min 7 (7 - (count - calue))) calue).flatMap rowStores

/-- The places in `tmp_addr` that `IPv6_to_regular` writes to. -/
def regularStores (behind : ℕ → Char) (ipAddr : Text) : List ℤ :=
  tokenStores (tokens ipAddr) 0 ++
    match doubleColon (contents ipAddr behind) 39 0 0 with
    | none => []
    | some calue => spreadStores (tokens ipAddr).length calue

/-- One to eight groups, with or without one `::`. -/
inductive GroupText where
  | plain (groups : List Group) (pos : 1 ≤ groups.length) (count : groups.length ≤ 8)
  | gapped (front back : List Group) (pos : 1 ≤ front.length + back.length)
    (count : front.length + back.length ≤ 8)

namespace GroupText

def text : GroupText → Text
  | plain groups _ _ => joined groups
  | gapped front back _ _ => joined front ++ ':' :: ':' :: joined back

def written : GroupText → List Group
  | plain groups _ _ => groups
  | gapped front back _ _ => front ++ back

end GroupText

/-- All stores are within the 32 bytes. -/
def InBounds (behind : ℕ → Char) (ipAddr : Text) : Prop :=
  ∀ i ∈ regularStores behind ipAddr, 0 ≤ i ∧ i < 32

/-- An eighth group of four digits. -/
def WideLast (s : GroupText) : Prop := ∃ g, s.written[7]? = some g ∧ g.text.length = 4

section Stores

variable {ts : List Text} {t : Text} {count len size p : ℕ} {i j high low : ℤ} {tmp tmp' : Rows}

theorem mem_copyStores :
    i ∈ copyStores count t ↔ 4 * (count : ℤ) ≤ i ∧ i ≤ 4 * count + t.length := by
  simp only [copyStores, List.mem_map, List.mem_range]
  constructor
  · rintro ⟨k, hk, rfl⟩
    omega
  · rintro ⟨hlow, hhigh⟩
    exact ⟨(i - 4 * count).toNat, by omega, by omega⟩

theorem mem_rowStores : i ∈ rowStores j ↔ 4 * j ≤ i ∧ i < 4 * j + 4 := by
  simp only [rowStores, List.mem_cons, List.not_mem_nil, or_false]
  omega

theorem mem_padStores : i ∈ padStores count len ↔
    (1 ≤ len ∧ len ≤ 3) ∧ 4 * (count : ℤ) ≤ i ∧ i < 4 * count + 4 := by
  match len with
  | 0 => simp [padStores]
  | 1 | 2 | 3 => simp [padStores, mem_rowStores]
  | len + 4 =>
    have hlong : ¬ len + 4 ≤ 3 := by omega
    simp [padStores, hlong]

theorem mem_tokenStores : i ∈ tokenStores ts count ↔ ∃ k t, ts[k]? = some t ∧
    (i ∈ copyStores (count + k) t ∨ i ∈ padStores (count + k) t.length) := by
  induction ts generalizing count with
  | nil => simp [tokenStores]
  | cons t ts ih =>
    rw [tokenStores, List.mem_append, List.mem_append, ih]
    constructor
    · rintro (hfirst | ⟨k, u, hu, hrest⟩)
      · exact ⟨0, t, rfl, hfirst⟩
      · refine ⟨k + 1, u, hu, ?_⟩
        rwa [← Nat.add_assoc, Nat.add_right_comm]
    · rintro ⟨k, u, hu, hmem⟩
      cases k with
      | zero =>
        obtain rfl := Option.some.inj hu
        exact .inl hmem
      | succ k =>
        refine .inr ⟨k, u, hu, ?_⟩
        rwa [← Nat.add_assoc, Nat.add_right_comm] at hmem

theorem mem_downTo : i ∈ downTo high low ↔ low ≤ i ∧ i ≤ high := by
  simp only [downTo, List.mem_map, List.mem_range]
  constructor
  · rintro ⟨k, hk, rfl⟩
    omega
  · rintro ⟨hlow, hhigh⟩
    exact ⟨(high - i).toNat, by omega, by omega⟩

/-- With eight groups at most, the loops over `j` and `k` stay in the rows, wherever the `::` was
found. -/
theorem spreadStores_inBounds (hcount : count ≤ 8) (calue : ℕ)
    (h : i ∈ spreadStores count calue) : 0 ≤ i ∧ i < 32 := by
  simp only [spreadStores, List.mem_append, List.mem_flatMap, mem_downTo, mem_rowStores] at h
  rcases h with ⟨j, hj, hi⟩ | ⟨j, hj, hi⟩ <;> omega

/-! ### The rows of the model -/

theorem storeTokens_isOk_iff : (∃ r, storeTokens 32 ts count tmp = .ok r) ↔
    ∀ i ∈ tokenStores ts count, i < 32 := by
  induction ts generalizing count tmp with
  | nil => simp [storeTokens, tokenStores]
  | cons t ts ih =>
    simp only [tokenStores, List.forall_mem_append]
    by_cases hfits : 4 * count + t.length < 32
    · have hcopy : copyRow 32 tmp count t = .ok _ := if_pos hfits
      rw [storeTokens_cons hcopy, ih]
      refine (and_iff_right ⟨fun i hi => ?_, fun i hi => ?_⟩).symm
      · have hmem := mem_copyStores.mp hi
        omega
      · have hmem := mem_padStores.mp hi
        omega
    · have hcopy : copyRow 32 tmp count t = .error .writePastEnd := if_neg hfits
      constructor
      · rintro ⟨r, hr⟩
        rw [storeTokens, hcopy] at hr
        cases hr
      · rintro ⟨⟨hall, -⟩, -⟩
        have hlast := hall (4 * (count : ℤ) + t.length) (mem_copyStores.mpr (by omega))
        omega

theorem inBounds_of_lt {behind : ℕ → Char} (hcount : (tokens t).length ≤ 8)
    (h : ∀ i ∈ tokenStores (tokens t) 0, i < 32) : InBounds behind t := by
  intro i hi
  rcases List.mem_append.mp hi with hi | hi
  · refine ⟨?_, h i hi⟩
    obtain ⟨k, u, -, hmem⟩ := mem_tokenStores.mp hi
    rw [mem_copyStores, mem_padStores] at hmem
    omega
  · split at hi
    · cases hi
    · next calue _ => exact spreadStores_inBounds hcount calue hi

/-- The model of the function fails exactly when a store is outside. -/
theorem ipv6ToRegular_isOk_iff (hlen : t.length < 128) (hcount : (tokens t).length ≤ 8)
    (stack : Rows) (behind : ℕ → Char) :
    (∃ u, ipv6ToRegular stack behind t = .ok u) ↔ InBounds behind t := by
  rw [ipv6ToRegular, regularIn, if_neg (not_le.mpr hlen)]
  constructor
  · rintro ⟨u, hu⟩
    cases hrun : storeTokens 32 (tokens t) 0 stack with
    | error f =>
      rw [hrun] at hu
      cases hu
    | ok r => exact inBounds_of_lt hcount (storeTokens_isOk_iff.mp ⟨r, hrun⟩)
  · intro h
    have hok : ∃ r, storeTokens 32 (tokens t) 0 stack = .ok r :=
      storeTokens_isOk_iff.mpr fun i hi => (h i (List.mem_append_left _ hi)).2
    obtain ⟨r, hr⟩ := hok
    rw [hr]
    cases hcolon : doubleColon (contents t behind) 39 0 0 with
    | none => exact ⟨_, rfl⟩
    | some calue => exact ⟨_, rfl⟩

end Stores

/-! ## All texts -/

section Texts

variable {s : GroupText}

theorem tokens_text (s : GroupText) : tokens s.text = s.written.map Group.text := by
  cases s with
  | plain groups _ _ => exact tokens_joined groups
  | gapped front back _ _ => exact tokens_gap front back

theorem length_written_le (s : GroupText) : s.written.length ≤ 8 := by
  cases s with
  | plain _ _ count => exact count
  | gapped _ _ _ count => exact List.length_append.trans_le count

theorem not_inBounds_of_wideLast (h : WideLast s) (behind : ℕ → Char) :
    ¬ InBounds behind s.text := by
  obtain ⟨g, hg, hfour⟩ := h
  have hcopy : (32 : ℤ) ∈ copyStores (0 + 7) g.text := by
    rw [mem_copyStores, hfour]
    decide
  have hmem : (32 : ℤ) ∈ tokenStores (tokens s.text) 0 := by
    rw [mem_tokenStores, tokens_text]
    exact ⟨7, g.text, by rw [List.getElem?_map, hg]; rfl, .inl hcopy⟩
  intro hall
  exact absurd (hall 32 (List.mem_append_left _ hmem)).2 (by decide)

theorem tokenStores_lt (h : ¬ WideLast s) {i : ℤ}
    (hi : i ∈ tokenStores (tokens s.text) 0) : i < 32 := by
  rw [mem_tokenStores, tokens_text] at hi
  obtain ⟨k, t, ht, hmem⟩ := hi
  rw [List.getElem?_map, Option.map_eq_some_iff] at ht
  obtain ⟨g, hg, rfl⟩ := ht
  have hk := (List.getElem?_eq_some_iff.mp hg).choose
  have hlen := g.length_le
  have hwritten := length_written_le s
  have hlast : k = 7 → g.text.length ≠ 4 := by
    rintro rfl hfour
    exact h ⟨g, hg, hfour⟩
  rw [mem_copyStores, mem_padStores] at hmem
  omega

/-- Everything is within the rows unless the NUL of an eighth group does not fit. -/
theorem inBounds_iff (s : GroupText) (behind : ℕ → Char) :
    InBounds behind s.text ↔ ¬ WideLast s := by
  constructor
  · exact fun h hwide => not_inBounds_of_wideLast hwide behind h
  · intro h
    apply inBounds_of_lt
    · rw [tokens_text, List.length_map]
      exact length_written_le s
    · exact fun i hi => tokenStores_lt h hi

def wideText : GroupText :=
  .plain (List.replicate 7 one ++ [one.expanded]) (by decide) (by decide)

theorem wideText_not_inBounds : wideText.text = "1:1:1:1:1:1:1:0001".toList ∧
    ¬ InBounds (fun _ => '\x00') wideText.text := by
  refine ⟨by decide +kernel, fun h => ?_⟩
  have hmem : (32 : ℤ) ∈ regularStores (fun _ => '\x00') wideText.text := by decide +kernel
  exact absurd (h 32 hmem).2 (by decide)

end Texts

end Ipv6Stores
