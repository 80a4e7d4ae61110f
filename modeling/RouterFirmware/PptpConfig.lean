import RouterFirmware.ConfigGenerate
import RouterFirmware.Ipv4Text

/-! # The address pool of the PPTP server

`create_pptp_config` writes `/etc/pptpd.conf`. Its `remoteip` line names the addresses for the
clients as ranges, which `pptpd` takes apart again.
-/
namespace PptpConfig

open TextStream ConfigDatabase CString ConfigGenerate Ipv4Text

/-- A conversion `%d` of `sscanf`: the number and what is behind it. -/
def scanInt (t : Text) : Option (ℤ × Text) :=
  let u := t.dropWhile isSpace
  let unsigned := if u.head? = some '-' ∨ u.head? = some '+' then u.tail else u
  let ds := unsigned.takeWhile Char.isDigit
  let magnitude : ℤ := Nat.ofDigitChars 10 ds 0
  if ds = [] then none
  else some (if u.head? = some '-' then -magnitude else magnitude, unsigned.dropWhile Char.isDigit)

/-- The numbers that `sscanf(t, "%d.%d...")` with `n` conversions stores. -/
def scanDotted : ℕ → Text → List ℤ
  | 0, _ => []
  | n + 1, t => match scanInt t with
    | none => []
    | some (a, '.' :: r) => a :: scanDotted n r
    | some (a, _) => [a]

/-- Four variables after `sscanf` has stored to the first of them. -/
def scanned (old : List ℤ) (t : Text) : List ℤ :=
  scanDotted 4 t ++ old.drop (scanDotted 4 t).length

/-- `%d` -/
def printInt (n : ℤ) : Text := if n < 0 then '-' :: decimal n.natAbs else decimal n.natAbs

/-- What is printed behind `START_IP`: the end of its range and the ranges of the next nets. -/
def poolPrints (sip ip : List ℤ) : List Text :=
  if sip.getD 2 0 = ip.getD 2 0 then [['-'] ++ printInt (ip.getD 3 0) ++ ['\n']]
  else
    ["-254,".toList] ++
    (List.range (ip.getD 2 0 - (sip.getD 2 0 + 1)).toNat).map (fun i : ℕ =>
      printInt (sip.getD 0 0) ++ ['.'] ++ printInt (sip.getD 1 0) ++ ['.'] ++
        printInt (sip.getD 2 0 + 1 + i) ++ ".1-254,".toList) ++
    [printInt (ip.getD 0 0) ++ ['.'] ++ printInt (ip.getD 1 0) ++ ['.'] ++
      printInt (ip.getD 2 0) ++ ".1-".toList ++ printInt (ip.getD 3 0) ++ ['\n']]

/-- Prints the value of `item`, unless it is empty. -/
def printItem (item : Text) (line : Text → Text) : Gen Unit := do
  if ← readItem item then
    let v ← value
    if v ≠ [] then fprintf (line v)

/-- `create_pptp_config` from where it opens `PPTPD_CONF`; `sip` and `ip` are what the
variables hold before. -/
def createPptpConfig (database : Text) (sip ip : List ℤ) : Gen Result := do
  fprintf "ppp /sbin/pppd\n".toList
  fprintf "option /etc/ppp/options.pptpd\n".toList
  if ← findCategory database "SYSTEM".toList then
    printItem "LAN".toList fun v => "localip ".toList ++ v ++ ['\n']
    if ← findCategory database "PPTP_SERVER".toList then
      printItem "START_IP".toList fun v => "remoteip ".toList ++ v
      let start ← value
      -- `start_ip_str` has 16 bytes
      if 16 ≤ start.length then throw .writePastEnd
      else
        let found ← readItem "END_IP".toList
        let last ← value
        (poolPrints (scanned sip start) (if found then scanned ip last else ip)).forM fprintf
        return .ok
    else return .catNotFound
  else return .catNotFound

def remoteIp (conf : Text) : Option Text :=
  ((conf.splitOn '\n').find? fun l => "remoteip ".toList.isPrefixOf l).map (·.drop 9)

/-- One part of an address in the pool: a number or a range of numbers. -/
def segment (t : Text) : List ℕ :=
  match (t.splitOn '-').map (Nat.ofDigitChars 10 · 0) with
  | [n] => [n]
  | [lower, upper] => List.range' lower (upper + 1 - lower)
  | _ => []

/-- The addresses of one piece of the pool, as `processIPStr` of `pptpd` takes it apart. -/
def pieceAddresses (piece : Text) : Option (List Address) :=
  match (piece.splitOn '.').map segment with
  | [as, bs, cs, ds] =>
    if (as ++ bs ++ cs ++ ds).all (· < 256) then
      some (as.flatMap fun a => bs.flatMap fun b => cs.flatMap fun c => ds.map fun d =>
        ofOctets a b c d)
    else none
  | _ => none

/-- The addresses of a pool in their order; `none` where `pptpd` gives up. -/
def poolAddresses (pool : Text) : Option (List Address) :=
  ((pool.splitOn ',').mapM pieceAddresses).map List.flatten

/-- The addresses from `first` to `last` whose last octet is neither 0 nor 255, each once. -/
def Covers (pool : Text) (first last : Address) : Prop :=
  ∃ l, poolAddresses pool = some l ∧ l.Nodup ∧
    ∀ x, x ∈ l ↔ first ≤ x ∧ x ≤ last ∧ 1 ≤ octet x 3 ∧ octet x 3 ≤ 254

/-- A range of the last octets in one net, which is the first three octets as a number. -/
structure Range where
  net : ℕ
  lower : ℕ
  upper : ℕ
  net_lt : net < 2 ^ 24
  upper_lt : upper < 256

namespace Range

def text (r : Range) : Text :=
  decimal (r.net / 2 ^ 16) ++ '.' :: (decimal (r.net / 2 ^ 8 % 256) ++ '.' ::
    (decimal (r.net % 256) ++ '.' :: (decimal r.lower ++ '-' :: decimal r.upper)))

def addresses (r : Range) : List Address :=
  (List.range' r.lower (r.upper + 1 - r.lower)).map fun d => BitVec.ofNat 32 (r.net * 256 + d)

variable {r s : Range} {x : Address}

theorem mem_addresses : x ∈ r.addresses ↔
    x.toNat / 256 = r.net ∧ r.lower ≤ x.toNat % 256 ∧ x.toNat % 256 ≤ r.upper := by
  have hnet := r.net_lt
  have hupper := r.upper_lt
  simp only [addresses, List.mem_map, List.mem_range'_1]
  constructor
  · intro h
    obtain ⟨d, hd, rfl⟩ := h
    rw [BitVec.toNat_ofNat, Nat.mod_eq_of_lt (by omega)]
    omega
  · intro h
    refine ⟨x.toNat % 256, by omega, ?_⟩
    apply BitVec.eq_of_toNat_eq
    rw [BitVec.toNat_ofNat, Nat.mod_eq_of_lt (by omega)]
    omega

theorem nodup_addresses (r : Range) : r.addresses.Nodup := by
  have hnet := r.net_lt
  have hupper := r.upper_lt
  refine List.Nodup.map_on ?_ List.nodup_range'
  intro d hd e he heq
  rw [List.mem_range'_1] at hd he
  have hnat := congrArg BitVec.toNat heq
  rw [BitVec.toNat_ofNat, BitVec.toNat_ofNat, Nat.mod_eq_of_lt (by omega),
    Nat.mod_eq_of_lt (by omega)] at hnat
  omega

theorem segment_decimal (n : ℕ) : segment (decimal n) = [n] := by
  have hdash : '-'.isDigit = false := by decide
  simp only [segment, List.splitOn_eq_singleton (not_mem_decimal hdash), List.map_cons,
    List.map_nil, ofDigitChars_decimal]

theorem segment_range (lower upper : ℕ) : segment (decimal lower ++ '-' :: decimal upper) =
    List.range' lower (upper + 1 - lower) := by
  have hdash : '-'.isDigit = false := by decide
  simp only [segment, splitOn_decimal hdash, List.splitOn_eq_singleton (not_mem_decimal hdash),
    List.map_cons, List.map_nil, ofDigitChars_decimal]

theorem pieceAddresses_text (r : Range) : pieceAddresses r.text = some r.addresses := by
  have hnet := r.net_lt
  have hupper := r.upper_lt
  have hdot : '.'.isDigit = false := by decide
  have hlast : '.' ∉ decimal r.lower ++ '-' :: decimal r.upper := by
    simp [not_mem_decimal hdot]
  have hvalid : ([r.net / 2 ^ 16] ++ [r.net / 2 ^ 8 % 256] ++ [r.net % 256] ++
      List.range' r.lower (r.upper + 1 - r.lower)).all (· < 256) = true := by
    simp only [List.all_append, List.all_cons, List.all_nil, Bool.and_true, Bool.and_eq_true,
      decide_eq_true_eq, List.all_eq_true, List.mem_range'_1]
    exact ⟨⟨⟨by omega, by omega⟩, by omega⟩, fun d hd => by omega⟩
  simp only [pieceAddresses, text, splitOn_decimal hdot, List.splitOn_eq_singleton hlast,
    List.map_cons, List.map_nil, segment_decimal, segment_range, hvalid, if_true,
    List.flatMap_cons, List.flatMap_nil, List.append_nil, addresses]
  refine congrArg some (List.map_congr_left fun d _ => ?_)
  refine congrArg (BitVec.ofNat 32) ?_
  omega

end Range

/-- All of a net that differs from the net of `first` in the third octet. -/
def wholeNet (first : Address) (third : ℕ) : Range :=
  ⟨(first.toNat / 2 ^ 16 * 256 + third) % 2 ^ 24, 1, 254, Nat.mod_lt _ (by decide), by decide⟩

/-- The ranges that the pool from `first` to `last` is written as. -/
def poolRanges (first last : Address) : List Range :=
  have hfirst : first.toNat / 256 < 2 ^ 24 := by have := first.isLt; omega
  have hlast : last.toNat / 256 < 2 ^ 24 := by have := last.isLt; omega
  if octet first 2 = octet last 2 then
    [⟨first.toNat / 256, octet first 3, octet last 3, hfirst, octet_lt last 3⟩]
  else
    ⟨first.toNat / 256, octet first 3, 254, hfirst, by decide⟩ ::
      (List.range' (octet first 2 + 1) (octet last 2 - (octet first 2 + 1))).map (wholeNet first) ++
      [⟨last.toNat / 256, 1, octet last 3, hlast, octet_lt last 3⟩]

def rangesText (ranges : List Range) : Text := [','].intercalate (ranges.map Range.text)

theorem Range.comma_not_mem (r : Range) : ',' ∉ r.text := by
  have hcomma : ','.isDigit = false := by decide
  simp [text, not_mem_decimal hcomma]

theorem mapM_pieceAddresses (ranges : List Range) :
    (ranges.map Range.text).mapM pieceAddresses = some (ranges.map Range.addresses) := by
  induction ranges with
  | nil => rfl
  | cons r ranges ih =>
    simp only [List.map_cons, List.mapM_cons, r.pieceAddresses_text, ih]
    rfl

theorem poolAddresses_rangesText {ranges : List Range} (h : ranges ≠ []) :
    poolAddresses (rangesText ranges) = some (ranges.flatMap Range.addresses) := by
  have hsplit : (rangesText ranges).splitOn ',' = ranges.map Range.text := by
    refine List.splitOn_intercalate ',' ?_ (by simpa using h)
    intro t ht
    obtain ⟨r, -, rfl⟩ := List.mem_map.mp ht
    exact r.comma_not_mem
  rw [poolAddresses, hsplit, mapM_pieceAddresses]
  rfl

variable {first last x : Address}

/-- The nets in between differ from the first one in the third octet only. -/
theorem mem_between : (∃ k ∈ List.range' (octet first 2 + 1) (octet last 2 - (octet first 2 + 1)),
    x.toNat / 256 = (wholeNet first k).net) ↔
    x.toNat / 2 ^ 16 = first.toNat / 2 ^ 16 ∧ octet first 2 < octet x 2 ∧
      octet x 2 < octet last 2 := by
  have hfirst := first.isLt
  have hlast := octet_lt last 2
  have hx : octet x 2 = x.toNat / 256 % 256 := rfl
  simp only [wholeNet]
  constructor
  · intro h
    obtain ⟨k, hk, hnet⟩ := h
    rw [List.mem_range'_1] at hk
    rw [Nat.mod_eq_of_lt (by omega)] at hnet
    omega
  · intro h
    refine ⟨octet x 2, by rw [List.mem_range'_1]; omega, ?_⟩
    rw [Nat.mod_eq_of_lt (by omega)]
    omega

/-- The numbers of the addresses of the pool, net by net. -/
def InPool (first last : Address) (n : ℕ) : Prop :=
  if first.toNat / 256 % 256 = last.toNat / 256 % 256 then
    n / 256 = first.toNat / 256 ∧ first.toNat % 256 ≤ n % 256 ∧ n % 256 ≤ last.toNat % 256
  else (n / 256 = first.toNat / 256 ∧ first.toNat % 256 ≤ n % 256 ∧ n % 256 ≤ 254) ∨
    (n / 2 ^ 16 = first.toNat / 2 ^ 16 ∧ first.toNat / 256 % 256 < n / 256 % 256 ∧
      n / 256 % 256 < last.toNat / 256 % 256 ∧ 1 ≤ n % 256 ∧ n % 256 ≤ 254) ∨
    (n / 256 = last.toNat / 256 ∧ 1 ≤ n % 256 ∧ n % 256 ≤ last.toNat % 256)

theorem mem_poolRanges : x ∈ (poolRanges first last).flatMap Range.addresses ↔
    InPool first last x.toNat := by
  have hbetween := @mem_between first last x
  rw [poolRanges, List.mem_flatMap, InPool]
  simp only [octet_two, octet_three] at hbetween ⊢
  split
  · simp [Range.mem_addresses]
  · simp only [List.cons_append, List.mem_cons, List.mem_append, List.mem_map, List.not_mem_nil,
      or_false, or_and_right, exists_or, exists_eq_left, Range.mem_addresses]
    refine or_congr Iff.rfl (or_congr ?_ Iff.rfl)
    constructor
    · intro h
      obtain ⟨r, ⟨k, hk, rfl⟩, hnet, hlow, hhigh⟩ := h
      obtain ⟨hsame, habove, hbelow⟩ := hbetween.mp ⟨k, hk, hnet⟩
      exact ⟨hsame, habove, hbelow, hlow, hhigh⟩
    · intro h
      obtain ⟨hsame, habove, hbelow, hlow, hhigh⟩ := h
      obtain ⟨k, hk, hnet⟩ := hbetween.mpr ⟨hsame, habove, hbelow⟩
      exact ⟨_, ⟨k, hk, rfl⟩, hnet, hlow, hhigh⟩

theorem nodup_poolRanges : ((poolRanges first last).flatMap Range.addresses).Nodup := by
  rw [List.nodup_flatMap]
  refine ⟨fun r _ => r.nodup_addresses, ?_⟩
  have hnets : ∀ {r s : Range}, r.net ≠ s.net → List.Disjoint r.addresses s.addresses := by
    intro r s hne x hr hs
    exact hne ((Range.mem_addresses.mp hr).1.symm.trans (Range.mem_addresses.mp hs).1)
  refine List.Pairwise.imp (fun h => hnets h) ?_
  have hfirst := first.isLt
  have hlast := octet_lt last 2
  have htwo := octet_two first
  have htwo' := octet_two last
  rw [poolRanges]
  split
  · exact List.pairwise_singleton _ _
  · rw [List.cons_append, List.pairwise_cons, List.pairwise_append, List.pairwise_map]
    refine ⟨?_, ?_, List.pairwise_singleton _ _, ?_⟩
    · intro r hr
      rcases List.mem_append.mp hr with hr | hr
      · obtain ⟨k, hk, rfl⟩ := List.mem_map.mp hr
        rw [List.mem_range'_1] at hk
        simp only [wholeNet]
        omega
      · rw [List.mem_singleton.mp hr]
        simp only
        omega
    · refine List.Pairwise.imp_of_mem ?_ List.pairwise_lt_range'
      intro k l hk hl hlt
      rw [List.mem_range'_1] at hk hl
      simp only [wholeNet]
      omega
    · intro r hr s hs
      obtain ⟨k, hk, rfl⟩ := List.mem_map.mp hr
      rw [List.mem_range'_1] at hk
      rw [List.mem_singleton.mp hs]
      simp only [wholeNet]
      omega

/-- The pool leaves no octet 0 or 255 in, and no net out. -/
def Regular (first last : Address) : Prop :=
  1 ≤ octet first 3 ∧ octet last 3 ≤ 254 ∧
    (first.toNat / 2 ^ 16 = last.toNat / 2 ^ 16 ∨ last.toNat / 256 = first.toNat / 256 + 1)

instance (first last : Address) : Decidable (Regular first last) :=
  inferInstanceAs (Decidable (1 ≤ octet first 3 ∧ octet last 3 ≤ 254 ∧
    (first.toNat / 2 ^ 16 = last.toNat / 2 ^ 16 ∨
      last.toNat / 256 = first.toNat / 256 + 1)))

theorem inPool_of_regular (h : Regular first last) (hle : first.toNat ≤ last.toNat) {n : ℕ}
    (hn : n < 2 ^ 32) : InPool first last n ↔
      first.toNat ≤ n ∧ n ≤ last.toNat ∧ 1 ≤ n % 256 ∧ n % 256 ≤ 254 := by
  obtain ⟨hlow, hhigh, hnets⟩ := h
  rw [octet_three] at hlow hhigh
  rw [InPool]
  by_cases hthird : first.toNat / 256 % 256 = last.toNat / 256 % 256
  · rw [if_pos hthird]
    omega
  · rw [if_neg hthird]
    omega

/-- Where an octet is 0 or 255 an address is too many, and where a net is left out one is
missing. -/
theorem regular_of_inPool (hle : first.toNat ≤ last.toNat)
    (h : ∀ n < 2 ^ 32, InPool first last n ↔
      first.toNat ≤ n ∧ n ≤ last.toNat ∧ 1 ≤ n % 256 ∧ n % 256 ≤ 254) : Regular first last := by
  have hfirst := first.isLt
  have hlast := last.isLt
  rw [Regular, octet_three, octet_three]
  simp only [InPool] at h
  by_cases hthird : first.toNat / 256 % 256 = last.toNat / 256 % 256
  · simp only [if_pos hthird] at h
    have hstart := h first.toNat hfirst
    have hend := h (first.toNat / 256 * 256 + 255) (by omega)
    have hnext := h ((first.toNat / 256 + 1) * 256 + 1)
    omega
  · simp only [if_neg hthird] at h
    refine ⟨?_, ?_, ?_⟩
    · have hstart := h first.toNat hfirst
      omega
    · have hend := h last.toNat hlast
      omega
    · by_contra hnets
      rw [not_or] at hnets
      rcases Nat.lt_or_gt_of_ne hthird with hlt | hgt
      · have hgap := h ((first.toNat / 2 ^ 16 * 256 + last.toNat / 256 % 256) * 256 + 1) (by omega)
        omega
      · have hnext := h ((first.toNat / 256 + 1) * 256 + 1) (by omega)
        omega

theorem covers_poolRanges_iff (hle : first ≤ last) :
    Covers (rangesText (poolRanges first last)) first last ↔ Regular first last := by
  have hnonempty : poolRanges first last ≠ [] := by
    rw [poolRanges]
    split <;> simp
  have hnumbers : (∀ x, x ∈ (poolRanges first last).flatMap Range.addresses ↔
      first ≤ x ∧ x ≤ last ∧ 1 ≤ octet x 3 ∧ octet x 3 ≤ 254) ↔
      ∀ n < 2 ^ 32, InPool first last n ↔
        first.toNat ≤ n ∧ n ≤ last.toNat ∧ 1 ≤ n % 256 ∧ n % 256 ≤ 254 := by
    simp only [mem_poolRanges, octet_three, BitVec.le_def]
    constructor
    · intro h n hn
      have hx := h (BitVec.ofNat 32 n)
      rwa [BitVec.toNat_ofNat, Nat.mod_eq_of_lt hn] at hx
    · intro h x
      exact h x.toNat x.isLt
  simp only [Covers, poolAddresses_rangesText hnonempty, Option.some.injEq, exists_eq_left',
    nodup_poolRanges, true_and, hnumbers]
  constructor
  · exact regular_of_inPool hle
  · intro h n hn
    exact inPool_of_regular h hle hn

section Lines

theorem scanInt_decimal (n : ℕ) {t : Text} (h : ∀ c, t.head? = some c → c.isDigit = false) :
    scanInt (decimal n ++ t) = some ((n : ℤ), t) := by
  obtain ⟨c, u, hd⟩ := List.exists_cons_of_ne_nil (Nat.toDigits_ne_nil (n := n) (b := 10))
  have hdigits : ∀ d ∈ decimal n, d.isDigit = true := fun d hd => isDigit_of_mem_decimal hd
  have hc : c.isDigit = true := hdigits c (by simp [decimal, hd])
  have hskip : (decimal n ++ t).dropWhile isSpace = decimal n ++ t := by
    rw [decimal, hd, List.cons_append, List.dropWhile_cons_of_neg (by simp [isSpace_of_isDigit hc])]
  have hsign : ¬ ((decimal n ++ t).head? = some '-' ∨ (decimal n ++ t).head? = some '+') := by
    rw [decimal, hd, List.cons_append, List.head?_cons, Option.some.injEq, Option.some.injEq]
    intro hsign
    rcases hsign with rfl | rfl <;> revert hc <;> decide
  have hrest : t.takeWhile Char.isDigit = [] ∧ t.dropWhile Char.isDigit = t := by
    cases t with
    | nil => simp
    | cons d t => simp [h d rfl]
  simp only [scanInt, hskip, if_neg hsign, List.takeWhile_append_of_pos hdigits,
    List.dropWhile_append_of_pos hdigits, hrest, List.append_nil, ofDigitChars_decimal]
  rw [if_neg (by simp [decimal, hd]), if_neg (fun hminus => hsign (.inl hminus))]

theorem scanDotted_inetNtoa (a : Address) : scanDotted 4 (inetNtoa a) =
    [(octet a 0 : ℤ), (octet a 1 : ℤ), (octet a 2 : ℤ), (octet a 3 : ℤ)] := by
  have hdot : ∀ {t : Text} c, ('.' :: t).head? = some c → c.isDigit = false := by
    intro t c hc
    rw [← Option.some.inj hc]
    decide
  have hend := scanInt_decimal (octet a 3) (t := []) (by simp)
  rw [List.append_nil] at hend
  simp only [inetNtoa, scanDotted, scanInt_decimal _ hdot, hend]

theorem getD_scanned (old : List ℤ) (a : Address) {i : ℕ} (hi : i < 4) :
    (scanned old (inetNtoa a)).getD i 0 = octet a i := by
  rw [scanned, scanDotted_inetNtoa]
  match i, hi with
  | 0, _ => rfl
  | 1, _ => rfl
  | 2, _ => rfl
  | 3, _ => rfl

theorem printInt_natCast (n : ℕ) : printInt n = decimal n := by
  rw [printInt, if_neg (by omega), Int.natAbs_natCast]

theorem rangesText_append (ranges : List Range) (r : Range) : rangesText (ranges ++ [r]) =
    (ranges.flatMap fun s => s.text ++ [',']) ++ r.text := by
  induction ranges with
  | nil => simp [rangesText]
  | cons s ranges ih =>
    rw [rangesText] at ih ⊢
    rw [List.cons_append, List.map_cons, List.intercalate_cons_of_ne_nil (by simp), ih]
    simp

theorem octets_eq (a : Address) : octet a 0 = a.toNat / 256 / 2 ^ 16 ∧
    octet a 1 = a.toNat / 256 / 2 ^ 8 % 256 ∧ octet a 2 = a.toNat / 256 % 256 := by
  have ha := a.isLt
  simp only [octet]
  omega

theorem Range.text_eq {r : Range} {a b c : ℕ} (ha : r.net / 2 ^ 16 = a)
    (hb : r.net / 2 ^ 8 % 256 = b) (hc : r.net % 256 = c) :
    r.text = decimal a ++ '.' :: (decimal b ++ '.' :: (decimal c ++ '.' ::
      (decimal r.lower ++ '-' :: decimal r.upper))) := by
  rw [Range.text, ha, hb, hc]

theorem text_wholeNet (first : Address) {k : ℕ} (hk : k < 256) : (wholeNet first k).text =
    decimal (octet first 0) ++ ['.'] ++ decimal (octet first 1) ++ ['.'] ++ decimal k ++
      ".1-254".toList := by
  have hfirst := first.isLt
  have hoctets := octets_eq first
  have hnet : (wholeNet first k).net = first.toNat / 2 ^ 16 * 256 + k := by
    rw [wholeNet]
    exact Nat.mod_eq_of_lt (by omega)
  have hrange : decimal 1 ++ '-' :: decimal 254 = "1-254".toList := by decide
  rw [Range.text_eq (a := octet first 0) (b := octet first 1) (c := k) (by omega) (by omega)
    (by omega), show (wholeNet first k).lower = 1 from rfl,
    show (wholeNet first k).upper = 254 from rfl, hrange]
  simp

/-- What is printed from `START_IP` on is the text of the ranges. -/
theorem poolPrints_text (first last : Address) (sip ip : List ℤ) :
    inetNtoa first ++ (poolPrints (scanned sip (inetNtoa first))
      (scanned ip (inetNtoa last))).flatten = rangesText (poolRanges first last) ++ ['\n'] := by
  have h254 : decimal 254 = "254".toList := by decide
  have hone : decimal 1 = "1".toList := by decide
  have hfirst := octets_eq first
  have hlast := octets_eq last
  have hbound := octet_lt last 2
  simp only [poolPrints, getD_scanned _ _ (show 0 < 4 by decide),
    getD_scanned _ _ (show 1 < 4 by decide), getD_scanned _ _ (show 2 < 4 by decide),
    getD_scanned _ _ (show 3 < 4 by decide), printInt_natCast, Nat.cast_inj, poolRanges]
  by_cases hthird : octet first 2 = octet last 2
  · rw [if_pos hthird, if_pos hthird]
    simp [rangesText, Range.text, inetNtoa, hfirst]
  · rw [if_neg hthird, if_neg hthird, rangesText_append]
    have hcount : ((octet last 2 : ℤ) - ((octet first 2 : ℤ) + 1)).toNat =
        octet last 2 - (octet first 2 + 1) := by omega
    have hbetween : (List.range (octet last 2 - (octet first 2 + 1))).map (fun i : ℕ =>
        decimal (octet first 0) ++ ['.'] ++ decimal (octet first 1) ++ ['.'] ++
          printInt ((octet first 2 : ℤ) + 1 + i) ++ ".1-254,".toList) =
        (List.range' (octet first 2 + 1) (octet last 2 - (octet first 2 + 1))).map fun k =>
          (wholeNet first k).text ++ [','] := by
      rw [List.range'_eq_map_range, List.map_map]
      apply List.map_congr_left
      intro i hi
      have hi := List.mem_range.mp hi
      have hint : (octet first 2 : ℤ) + 1 + i = ((octet first 2 + 1 + i : ℕ) : ℤ) := by
        push_cast
        rfl
      rw [hint, printInt_natCast, Function.comp_apply, text_wholeNet first (by omega)]
      simp
    rw [hcount, hbetween, List.flatMap_cons, List.flatMap_map]
    simp only [List.flatten_append, List.flatten_cons, List.flatten_nil, List.append_nil,
      ← List.flatMap_def]
    simp [Range.text, inetNtoa, hfirst, hlast, h254, hone]

theorem newline_not_mem_rangesText (ranges : List Range) : '\n' ∉ rangesText ranges := by
  have hnewline : '\n'.isDigit = false := by decide
  have hrange : ∀ r : Range, '\n' ∉ r.text := by
    intro r
    simp [Range.text, not_mem_decimal hnewline]
  cases ranges using List.reverseRecOn with
  | nil => simp [rangesText]
  | append_singleton ranges r => simp [rangesText_append, hrange]

end Lines

section Run

variable {first last : Address} {database : Text} {sip ip : List ℤ} {g : Generator}

theorem printItem_run (item : Text) (line : Text → Text) (g : Generator) :
    ∃ h prints, printItem item line g = .ok ((), h) ∧ h.wfd = g.wfd ++ prints ∧
      (prints = [] ∨ ∃ v, '\n' ∉ v ∧ prints = [line v]) := by
  obtain ⟨b, h, hread, hwfd, hline⟩ := readItem_run item g
  rw [printItem, run_bind_ok hread]
  cases b with
  | false => exact ⟨h, [], rfl, by simp [hwfd], .inl rfl⟩
  | true =>
    simp only [if_true]
    rw [run_bind_ok (value_run h)]
    split
    · exact ⟨_, [line (cut h.glvalue)], fprintf_run _ _, by simp [hwfd],
        .inr ⟨_, hline rfl, rfl⟩⟩
    · exact ⟨h, [], rfl, by simp [hwfd], .inl rfl⟩

theorem printItem_readItems {item v : Text} {items vs : List Text} (line : Text → Text)
    (hread : readItems (item :: items) g.handle = some (v :: vs)) (hv : v ≠ []) :
    ∃ h, printItem item line g = .ok ((), h) ∧ cut h.glvalue = v ∧
      h.wfd = g.wfd ++ [line v] ∧ readItems items h.handle = some vs := by
  obtain ⟨h, hitem, hvalue, hwfd, hrest⟩ := readItem_readItems hread
  refine ⟨{ h with wfd := h.wfd ++ [line v] }, ?_, hvalue, by rw [hwfd], hrest⟩
  rw [printItem, run_bind_ok hitem]
  simp only [if_true]
  rw [run_bind_ok (value_run h), hvalue, if_pos hv, fprintf_run]

/-- What the file holds when the categories and the two addresses are there. -/
theorem createPptpConfig_run (hsystem : ConfigScan.findCategory "SYSTEM".toList database ≠ none)
    (hpool : settings database "PPTP_SERVER".toList ["START_IP".toList, "END_IP".toList] =
      some [inetNtoa first, inetNtoa last]) (sip ip : List ℤ) (glvalue : Text) :
    ∃ h localip, createPptpConfig database sip ip ⟨database, glvalue, []⟩ = .ok (.ok, h) ∧
      (localip = [] ∨ ∃ v, '\n' ∉ v ∧ localip = ["localip ".toList ++ v ++ ['\n']]) ∧
      h.wfd.flatten = "ppp /sbin/pppd\n".toList ++ "option /etc/ppp/options.pptpd\n".toList ++
        localip.flatten ++ "remoteip ".toList ++ rangesText (poolRanges first last) ++ ['\n'] := by
  obtain ⟨r, hr⟩ := Option.ne_none_iff_exists'.mp hsystem
  rw [createPptpConfig, run_bind_ok (fprintf_run _ _), run_bind_ok (fprintf_run _ _),
    run_bind_ok (findCategory_run _ _ _), hr]
  simp only [Option.isSome_some, if_true, Option.getD_some]
  obtain ⟨g, localip, hlan, hlocal, hprints⟩ := printItem_run "LAN".toList
    (fun v => "localip ".toList ++ v ++ ['\n'])
    ⟨r, glvalue, [] ++ ["ppp /sbin/pppd\n".toList] ++ ["option /etc/ppp/options.pptpd\n".toList]⟩
  rw [run_bind_ok hlan]
  obtain ⟨t, hcategory, hread⟩ := findCategory_settings hpool g
  rw [run_bind_ok hcategory]
  simp only [if_true]
  obtain ⟨g₁, hstart, hvalue, hremote, hread⟩ := printItem_readItems
    (g := { g with handle := t }) (fun v => "remoteip ".toList ++ v) hread (inetNtoa_ne_nil first)
  rw [run_bind_ok hstart, run_bind_ok (value_run g₁), hvalue,
    if_neg (not_le.mpr (length_inetNtoa first))]
  obtain ⟨g₂, hend, hvalue, hwfd, -⟩ := readItem_readItems hread
  rw [run_bind_ok hend, run_bind_ok (value_run g₂), hvalue, if_pos rfl,
    run_bind_ok (forM_fprintf _ _)]
  refine ⟨_, localip, rfl, hprints, ?_⟩
  have htext := poolPrints_text first last sip ip
  simp only [hwfd, hremote, hlocal, List.flatten_append, List.flatten_cons, List.flatten_nil,
    List.append_nil, List.nil_append, List.append_assoc] at htext ⊢
  rw [htext]

theorem remoteIp_line {l : Text} (h : '\n' ∉ l) (t : Text) : remoteIp (l ++ ['\n'] ++ t) =
    if "remoteip ".toList.isPrefixOf l then some (l.drop 9) else remoteIp t := by
  rw [List.append_assoc, List.singleton_append, remoteIp,
    List.splitOn_append_cons_self_of_not_mem h, List.find?_cons]
  cases "remoteip ".toList.isPrefixOf l with
  | true => rfl
  | false => rfl

/-- The pool is what a reader of the file finds for `remoteip`. -/
theorem remoteIp_conf {localip : List Text} {pool : Text}
    (hlocal : localip = [] ∨ ∃ v, '\n' ∉ v ∧ localip = ["localip ".toList ++ v ++ ['\n']])
    (hpool : '\n' ∉ pool) : remoteIp ("ppp /sbin/pppd\n".toList ++
      "option /etc/ppp/options.pptpd\n".toList ++ localip.flatten ++ "remoteip ".toList ++ pool ++
        ['\n']) = some pool := by
  have hppp : "ppp /sbin/pppd\n".toList = "ppp /sbin/pppd".toList ++ ['\n'] := by decide
  have hoption : "option /etc/ppp/options.pptpd\n".toList =
      "option /etc/ppp/options.pptpd".toList ++ ['\n'] := by decide
  have hremote : remoteIp ("remoteip ".toList ++ pool ++ ['\n'] ++ []) = some pool := by
    rw [remoteIp_line (by simpa using hpool)]
    simp
  calc remoteIp ("ppp /sbin/pppd\n".toList ++ "option /etc/ppp/options.pptpd\n".toList ++
        localip.flatten ++ "remoteip ".toList ++ pool ++ ['\n'])
      = remoteIp ("ppp /sbin/pppd".toList ++ ['\n'] ++ ("option /etc/ppp/options.pptpd".toList ++
          ['\n'] ++ (localip.flatten ++ ("remoteip ".toList ++ pool ++ ['\n'] ++ [])))) := by
        rw [hppp, hoption]
        simp only [List.append_assoc, List.append_nil]
    _ = remoteIp (localip.flatten ++ ("remoteip ".toList ++ pool ++ ['\n'] ++ [])) := by
        rw [remoteIp_line (by decide), if_neg (by decide), remoteIp_line (by decide),
          if_neg (by decide)]
    _ = remoteIp ("remoteip ".toList ++ pool ++ ['\n'] ++ []) := by
        rcases hlocal with rfl | ⟨v, hv, rfl⟩
        · rfl
        · rw [List.flatten_singleton, remoteIp_line (by simpa using hv), if_neg (by simp)]
    _ = some pool := hremote

theorem remoteIp_createPptpConfig
    (hsystem : ConfigScan.findCategory "SYSTEM".toList database ≠ none)
    (hpool : settings database "PPTP_SERVER".toList ["START_IP".toList, "END_IP".toList] =
      some [inetNtoa first, inetNtoa last]) (sip ip : List ℤ) (glvalue : Text) :
    ∃ h, createPptpConfig database sip ip ⟨database, glvalue, []⟩ = .ok (.ok, h) ∧
      remoteIp h.wfd.flatten = some (rangesText (poolRanges first last)) := by
  obtain ⟨h, localip, hrun, hlocal, hconf⟩ := createPptpConfig_run hsystem hpool sip ip glvalue
  refine ⟨h, hrun, ?_⟩
  rw [hconf]
  exact remoteIp_conf hlocal (newline_not_mem_rangesText _)

end Run

/-- `create_pptp_config` writes a `remoteip` line that covers the addresses. -/
def WritesPool (database : Text) (sip ip : List ℤ) (glvalue : Text) (first last : Address) : Prop :=
  ∃ h pool, createPptpConfig database sip ip ⟨database, glvalue, []⟩ = .ok (.ok, h) ∧
    remoteIp h.wfd.flatten = some pool ∧ Covers pool first last

/-- The pool covers the addresses from `START_IP` to `END_IP` exactly when no octet at an end
is 0 or 255 and no net lies in a gap. -/
theorem writes_pool_iff_regular {first last : Address} {database : Text} (hle : first ≤ last)
    (hsystem : ConfigScan.findCategory "SYSTEM".toList database ≠ none)
    (hpool : settings database "PPTP_SERVER".toList ["START_IP".toList, "END_IP".toList] =
      some [inetNtoa first, inetNtoa last]) (sip ip : List ℤ) (glvalue : Text) :
    WritesPool database sip ip glvalue first last ↔ Regular first last := by
  obtain ⟨h, hrun, hremote⟩ := remoteIp_createPptpConfig hsystem hpool sip ip glvalue
  simp only [WritesPool, hrun, Except.ok.injEq, Prod.mk.injEq, true_and, exists_and_left,
    exists_eq_left', hremote, Option.some.injEq]
  exact covers_poolRanges_iff hle

def poolDatabase (start last : String) : Text :=
  ("[SYSTEM]\nLAN=192.168.1.1\n[PPTP_SERVER]\nSTART_IP=" ++ start ++ "\nEND_IP=" ++ last ++
    "\n").toList

theorem writes_pool_over_nets :
    WritesPool (poolDatabase "10.0.0.200" "10.0.3.9") [] [] [] (ofOctets 10 0 0 200)
      (ofOctets 10 0 3 9) ↔ Regular (ofOctets 10 0 0 200) (ofOctets 10 0 3 9) :=
  writes_pool_iff_regular (by decide) (by decide +kernel) (by decide +kernel) [] [] []

/-- The nets from 10.0.1.0 to 10.0.255.0 are not in the pool. -/
theorem pool_leaves_gap :
    ¬ WritesPool (poolDatabase "10.0.0.1" "10.1.0.5") [] [] [] (ofOctets 10 0 0 1)
      (ofOctets 10 1 0 5) := by
  intro hwrites
  obtain ⟨h, pool, hrun, hpool, hcovers⟩ := hwrites
  obtain ⟨k, hrun', hremote⟩ := @remoteIp_createPptpConfig (ofOctets 10 0 0 1)
    (ofOctets 10 1 0 5) (poolDatabase "10.0.0.1" "10.1.0.5") (by decide +kernel)
    (by decide +kernel) [] [] []
  rw [hrun] at hrun'
  cases hrun'
  rw [hpool] at hremote
  cases hremote
  have hregular := (covers_poolRanges_iff (by decide)).mp hcovers
  revert hregular
  decide

end PptpConfig
