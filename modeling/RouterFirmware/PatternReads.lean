import Mathlib.Tactic.Common
import RouterFirmware.UrlFilter

/-! # The reads of `find_pattern2`

The search again, on the bytes of a payload, where a read behind the last one is a fault.
-/
namespace PatternReads

open UrlFilter (Found bytes next scan strnicmp tolower window)

inductive Fault where
  | readPastEnd
  deriving DecidableEq

/-- `data[i]`. -/
def read (payload : List UInt8) (i : ℕ) : Except Fault UInt8 :=
  match payload[i]? with
  | some c => .ok c
  | none => .error .readPastEnd

/-- Whether `memcmp` of `data + i` and a pattern is `0`. -/
def memcmp (payload : List UInt8) : ℕ → List UInt8 → Except Fault Bool
  | _, [] => .ok true
  | i, p :: pattern => do
    let c ← read payload i
    if c = p then memcmp payload (i + 1) pattern else .ok false

/-- `strnicmp` of `data + i` and a pattern. -/
def strnicmpFrom (payload : List UInt8) : ℕ → List UInt8 → ℕ → Except Fault ℤ
  | _, _, 0 => .ok 0
  | i, pattern, n + 1 => do
    let c ← read payload i
    let d := pattern.headD 0
    if c = 0 ∨ d = 0 then .ok ((c.toNat : ℤ) - d.toNat)
    else if tolower c = tolower d then strnicmpFrom payload (i + 1) pattern.tail n
    else .ok (((tolower c).toNat : ℤ) - (tolower d).toNat)

def seekFrom (payload : List UInt8) (term : UInt8) (j k : ℕ) : Except Fault (Option ℕ) :=
  if h : j < payload.length then
    if payload[j] = term then .ok (some k)
    else if payload.length < j then .ok none
    else seekFrom payload term (j + 1) (k + 1)
  else .error .readPastEnd
termination_by payload.length - j

/-- The loop over the places, of which `n` are left. -/
def searchFrom (payload pattern : List UInt8) (term : UInt8) : ℕ → ℕ → ℕ → Except Fault Found
  | 0, _, _ => .ok ⟨0, 0, 0⟩
  | n + 1, i, state => do
    let c ← read payload i
    let state := next state c
    if 4 ≤ state then .ok ⟨0, 0, 0⟩
    else if ← memcmp payload i pattern then
      match ← seekFrom payload term (i + pattern.length) 0 with
      | none => .ok ⟨-1, i + pattern.length, 0⟩
      | some k => .ok ⟨1, i + pattern.length, k⟩
    else searchFrom payload pattern term n (i + 1) state

def findPattern2 (payload pattern : List UInt8) (term : UInt8) : Except Fault Found :=
  let dlen := payload.length
  let plen := pattern.length
  if dlen = 0 then .ok ⟨0, 0, 0⟩
  else if dlen ≤ plen then do
    if (← strnicmpFrom payload 0 pattern dlen) = 0 then .ok ⟨-1, 0, 0⟩ else .ok ⟨0, 0, 0⟩
  else searchFrom payload pattern term (dlen - plen + 1) 0 0

/-- What a result `1` says. -/
structure Reported (payload pattern : List UInt8) (term : UInt8) (found : Found) : Prop where
  inside : found.numoff + found.numlen ≤ payload.length
  behind : pattern <:+ payload.take found.numoff
  ends : payload[found.numoff + found.numlen]? = some term

/-- The pattern is found, and no terminator is behind it in the payload. -/
def Unterminated (payload pattern : List UInt8) (term : UInt8) : Prop :=
  pattern.length < payload.length ∧ ∃ rest, scan pattern 0 payload = some rest ∧ term ∉ rest

section Reads

variable {payload pattern pre rest t : List UInt8} {term c : UInt8} {i k n : ℕ}

theorem ok_bind {β γ : Type} (b : β) (f : β → Except Fault γ) : (Except.ok b >>= f) = f b := rfl

theorem error_bind {β γ : Type} (e : Fault) (f : β → Except Fault γ) :
    (Except.error e >>= f) = .error e := rfl

theorem read_append (pre : List UInt8) (c : UInt8) (rest : List UInt8) :
    read (pre ++ c :: rest) pre.length = .ok c := by
  simp [read]

/-- A comparison within the payload is one with the bytes that are left. -/
theorem memcmp_append (pre : List UInt8) (hle : pattern.length ≤ rest.length) :
    memcmp (pre ++ rest) pre.length pattern = .ok (pattern.isPrefixOf rest) := by
  induction pattern generalizing pre rest with
  | nil => simp [memcmp]
  | cons p pattern ih =>
    cases rest with
    | nil => cases hle
    | cons c rest =>
      have hnext := ih (pre ++ [c]) (Nat.le_of_succ_le_succ hle)
      rw [List.append_assoc, List.length_append, List.length_singleton, List.singleton_append]
        at hnext
      rw [memcmp, read_append, ok_bind, hnext, List.isPrefixOf_cons_cons]
      by_cases hc : c = p
      · rw [if_pos hc, hc, BEq.rfl, Bool.true_and]
      · rw [if_neg hc, beq_false_of_ne (Ne.symm hc), Bool.false_and]

/-- The short packet is compared within the payload. -/
theorem exists_strnicmpFrom (pre rest pattern : List UInt8) :
    ∃ z, strnicmpFrom (pre ++ rest) pre.length pattern rest.length = .ok z := by
  induction rest generalizing pre pattern with
  | nil => exact ⟨0, rfl⟩
  | cons c rest ih =>
    obtain ⟨z, hz⟩ := ih (pre ++ [c]) pattern.tail
    rw [List.append_assoc, List.length_append, List.length_singleton, List.singleton_append] at hz
    rw [List.length_cons, strnicmpFrom, read_append, ok_bind]
    simp only
    split
    · exact ⟨_, rfl⟩
    · split
      · exact ⟨z, hz⟩
      · exact ⟨_, rfl⟩

/-- The loop to the terminator ends in the payload when the terminator is there. -/
theorem seekFrom_append (pre rest : List UInt8) (term : UInt8) (k : ℕ) :
    seekFrom (pre ++ rest) term pre.length k =
      if term ∈ rest then .ok (some (k + (rest.takeWhile (· ≠ term)).length))
      else .error .readPastEnd := by
  induction rest generalizing pre k with
  | nil =>
    rw [seekFrom, dif_neg (by simp), if_neg (by simp)]
  | cons c rest ih =>
    have hnext := ih (pre ++ [c]) (k + 1)
    rw [List.append_assoc, List.length_append, List.length_singleton, List.singleton_append]
      at hnext
    rw [seekFrom, dif_pos (by simp)]
    by_cases hc : c = term
    · simp [hc]
    · have hle : ¬ (pre ++ c :: rest).length < pre.length := by
        simp
      simp only [List.getElem_append_right (Nat.le_refl _), Nat.sub_self,
        List.getElem_cons_zero, hc, hle, if_false, hnext, List.mem_cons, Ne.symm hc, false_or]
      simp [hc, Nat.add_assoc, Nat.add_comm 1]

/-- The search comes to what `scan` finds, and then to the terminator. -/
theorem searchFrom_append (hpattern : pattern ≠ []) (pre : List UInt8) (state : ℕ) :
    searchFrom (pre ++ rest) pattern term (rest.length + 1 - pattern.length) pre.length state =
      match scan pattern state rest with
      | none => .ok ⟨0, 0, 0⟩
      | some t =>
        if term ∈ t then
          .ok ⟨1, (pre ++ rest).length - t.length, (t.takeWhile (· ≠ term)).length⟩
        else .error .readPastEnd := by
  have hpos : 0 < pattern.length := List.length_pos_iff.mpr hpattern
  induction rest generalizing pre state with
  | nil =>
    rw [List.length_nil, Nat.zero_add, Nat.sub_eq_zero_of_le hpos]
    rfl
  | cons c rest ih =>
    obtain hlt | hle := Nat.lt_or_ge (c :: rest).length pattern.length
    · rw [UrlFilter.scan_of_short state hlt, Nat.sub_eq_zero_of_le hlt]
      rfl
    · have hn : (c :: rest).length + 1 - pattern.length = rest.length + 1 - pattern.length + 1 := by
        rw [List.length_cons] at hle ⊢
        omega
      have hnext := ih (pre ++ [c]) (next state c)
      rw [List.append_assoc, List.length_append, List.length_singleton, List.singleton_append]
        at hnext
      rw [hn, searchFrom, read_append, ok_bind, memcmp_append pre hle, scan]
      simp only [ok_bind]
      split
      · rfl
      · by_cases hprefix : pattern.isPrefixOf (c :: rest) = true
        · obtain ⟨t, ht⟩ := List.isPrefixOf_iff_prefix.mp hprefix
          have hseek := seekFrom_append (pre ++ pattern) t term 0
          rw [List.append_assoc, ht, List.length_append, Nat.zero_add] at hseek
          have hoff : (pre ++ c :: rest).length - t.length = pre.length + pattern.length := by
            simp only [← ht, List.length_append]
            omega
          simp only [if_pos hprefix, hseek]
          rw [← ht, List.drop_left, ht, hoff]
          by_cases hterm : term ∈ t
          · simp only [if_pos hterm, ok_bind]
          · simp only [if_neg hterm, error_bind]
        · rw [if_neg hprefix, if_neg hprefix]
          exact hnext

theorem eq_of_scan {state : ℕ} (h : scan pattern state rest = some t) :
    ∃ u, rest = u ++ (pattern ++ t) := by
  induction rest generalizing state with
  | nil => cases h
  | cons c rest ih =>
    rw [scan] at h
    split at h
    · cases h
    · split at h
      · next hprefix =>
        obtain ⟨u, hu⟩ := List.isPrefixOf_iff_prefix.mp hprefix
        rw [← hu, List.drop_left, Option.some.injEq] at h
        exact ⟨[], by rw [List.nil_append, ← h, hu]⟩
      · obtain ⟨u, hu⟩ := ih h
        exact ⟨c :: u, by rw [hu, List.cons_append]⟩

theorem next_zero_lt (c : UInt8) : ¬ 4 ≤ next 0 c := by
  rw [next]
  split
  · decide
  · split <;> decide

/-- The whole search, on a payload that is longer than the pattern. -/
theorem findPattern2_eq (hlt : pattern.length < payload.length) :
    findPattern2 payload pattern term =
      match scan pattern 0 payload with
      | none => .ok ⟨0, 0, 0⟩
      | some t =>
        if term ∈ t then .ok ⟨1, payload.length - t.length, (t.takeWhile (· ≠ term)).length⟩
        else .error .readPastEnd := by
  have hsearch : findPattern2 payload pattern term =
      searchFrom payload pattern term (payload.length - pattern.length + 1) 0 0 := by
    rw [findPattern2, if_neg (by omega), if_neg (by omega)]
  rw [hsearch]
  by_cases hpattern : pattern = []
  · -- an empty pattern is found at the first place
    subst hpattern
    cases payload with
    | nil => cases hlt
    | cons c rest =>
      have hread : read (c :: rest) 0 = .ok c := rfl
      have hseek := seekFrom_append [] (c :: rest) term 0
      rw [List.nil_append, List.length_nil, Nat.zero_add] at hseek
      rw [searchFrom, hread, ok_bind, scan, if_neg (next_zero_lt c)]
      simp only [if_neg (next_zero_lt c), memcmp, ok_bind, if_true, List.length_nil, Nat.add_zero,
        hseek, List.isPrefixOf_nil_left, List.drop_zero, Nat.sub_self]
      by_cases hterm : term ∈ c :: rest
      · simp only [if_pos hterm, ok_bind]
      · simp only [if_neg hterm, error_bind]
  · have hn : payload.length - pattern.length + 1 = payload.length + 1 - pattern.length := by
      omega
    rw [hn]
    exact searchFrom_append hpattern [] 0

theorem reported_of_scan (hscan : scan pattern 0 payload = some t) (hterm : term ∈ t) :
    Reported payload pattern term
      ⟨1, payload.length - t.length, (t.takeWhile (· ≠ term)).length⟩ := by
  obtain ⟨u, hu⟩ := eq_of_scan hscan
  obtain ⟨a, b, rfl, ha⟩ := List.eq_append_cons_of_mem hterm
  have htake : (a ++ term :: b).takeWhile (· ≠ term) = a := by
    rw [List.takeWhile_append_of_pos fun c hc => by
      have : c ≠ term := fun h => ha (h ▸ hc)
      simpa using this]
    simp
  have hoff : payload.length - (a ++ term :: b).length = (u ++ pattern).length := by
    simp only [hu, ← List.append_assoc u, List.length_append, Nat.add_sub_cancel]
  rw [htake, hoff]
  rw [hu, ← List.append_assoc]
  constructor
  · simp only [List.length_append, List.length_cons]
    omega
  · simp only [List.take_left]
    exact List.suffix_append u pattern
  · simp only [List.getElem?_append_right (Nat.le_add_right _ _), Nat.add_sub_cancel_left,
      List.getElem?_append_right (Nat.le_refl _), Nat.sub_self, List.getElem?_cons_zero]

/-- The search reads nothing but the payload and reports what is in it, unless there is no
terminator behind the pattern. -/
theorem findPattern2_reads_iff (payload pattern : List UInt8) (term : UInt8) :
    (∃ found, findPattern2 payload pattern term = .ok found ∧
      (found.ret = 1 → Reported payload pattern term found)) ↔
      ¬ Unterminated payload pattern term := by
  obtain hlt | hle := Nat.lt_or_ge pattern.length payload.length
  · rw [findPattern2_eq hlt]
    cases hscan : scan pattern 0 payload with
    | none =>
      refine iff_of_true ⟨⟨0, 0, 0⟩, rfl, fun h => by cases h⟩ ?_
      rintro ⟨-, t, ht, -⟩
      rw [hscan] at ht
      cases ht
    | some t =>
      by_cases hterm : term ∈ t
      · refine iff_of_true ⟨_, if_pos hterm, fun _ => ?_⟩ ?_
        · exact reported_of_scan hscan hterm
        · rintro ⟨-, t', ht', hnot⟩
          rw [hscan, Option.some.injEq] at ht'
          exact hnot (ht' ▸ hterm)
      · refine iff_of_false ?_ (not_not.mpr ⟨hlt, t, hscan, hterm⟩)
        rintro ⟨found, hfound, -⟩
        simp only [if_neg hterm] at hfound
        cases hfound
  · refine iff_of_true ?_ fun h => absurd h.1 (Nat.not_lt_of_le hle)
    obtain ⟨z, hz⟩ := exists_strnicmpFrom [] payload pattern
    rw [List.nil_append, List.length_nil] at hz
    rw [findPattern2]
    by_cases hzero : payload.length = 0
    · exact ⟨⟨0, 0, 0⟩, if_pos hzero, fun h => by cases h⟩
    · rw [if_neg hzero, if_pos hle, hz, ok_bind]
      by_cases hsame : z = 0
      · exact ⟨⟨-1, 0, 0⟩, if_pos hsame, fun h => by cases h⟩
      · exact ⟨⟨0, 0, 0⟩, if_neg hsame, fun h => by cases h⟩

/-- A request that ends in the host is read on behind its last byte. -/
theorem host_at_end :
    ¬ ∃ found, findPattern2 (bytes "GET / HTTP/1.0\r\nHost: a") (bytes "Host: ") 13 = .ok found ∧
      (found.ret = 1 →
        Reported (bytes "GET / HTTP/1.0\r\nHost: a") (bytes "Host: ") 13 found) := by
  rintro ⟨found, hfound, -⟩
  have hfault : findPattern2 (bytes "GET / HTTP/1.0\r\nHost: a") (bytes "Host: ") 13 =
      .error .readPastEnd := by
    decide +kernel
  rw [hfault] at hfound
  cases hfound

end Reads

/-! ## The search of the filter -/

section Memory

variable {payload pattern : List UInt8} {data : ℕ → UInt8} {term c : UInt8} {i j k n : ℕ}
  {found : Found}

theorem window_get (data : ℕ → UInt8) {i j n : ℕ} (h : j < n) :
    (window data i n)[j]? = some (data (i + j)) := by
  induction n generalizing i j with
  | zero => cases h
  | succ n ih =>
    cases j with
    | zero => rfl
    | succ j =>
      rw [window, List.getElem?_cons_succ, ih (Nat.lt_of_succ_lt_succ h), Nat.add_assoc,
        Nat.add_comm 1]

theorem data_of_read (hdata : window data 0 payload.length = payload)
    (h : read payload i = .ok c) : data i = c := by
  rw [read] at h
  split at h
  · next c' hget =>
    cases h
    obtain ⟨hlt, -⟩ := List.getElem?_eq_some_iff.mp hget
    have hwindow := window_get data (i := 0) hlt
    rw [hdata, hget, Nat.zero_add, Option.some.injEq] at hwindow
    exact hwindow.symm
  · cases h

theorem read_bind {γ : Type} {f : UInt8 → Except Fault γ} {r : γ}
    (hdata : window data 0 payload.length = payload) (h : (read payload i >>= f) = .ok r) :
    f (data i) = .ok r := by
  cases hread : read payload i with
  | error e =>
    rw [hread, error_bind] at h
    cases h
  | ok c =>
    rw [hread, ok_bind] at h
    rw [data_of_read hdata hread, h]

theorem memcmp_memory (hdata : window data 0 payload.length = payload) {b : Bool}
    (h : memcmp payload i pattern = .ok b) : b = true ↔ window data i pattern.length = pattern := by
  induction pattern generalizing i with
  | nil =>
    cases h
    exact iff_of_true rfl rfl
  | cons p pattern ih =>
    have hread := read_bind hdata h
    rw [List.length_cons, window, List.cons.injEq]
    split at hread
    · next hp => rw [ih hread, and_iff_right hp]
    · next hp =>
      cases hread
      simp [hp]

theorem strnicmp_memory (hdata : window data 0 payload.length = payload) {z : ℤ}
    (h : strnicmpFrom payload i pattern n = .ok z) :
    strnicmp (window data i n) pattern n = z := by
  induction n generalizing i pattern with
  | zero =>
    cases h
    rfl
  | succ n ih =>
    have hread := read_bind hdata h
    have hstep : strnicmp (window data i (n + 1)) pattern (n + 1) =
        if data i = 0 ∨ pattern.headD 0 = 0 then ((data i).toNat : ℤ) - (pattern.headD 0).toNat
        else if tolower (data i) = tolower (pattern.headD 0) then
          strnicmp (window data (i + 1) n) pattern.tail n
        else ((tolower (data i)).toNat : ℤ) - (tolower (pattern.headD 0)).toNat := rfl
    rw [hstep]
    simp only at hread
    split at hread
    · next hzero =>
      rw [if_pos hzero]
      exact Except.ok.inj hread
    · next hzero =>
      rw [if_neg hzero]
      split at hread
      · next hsame =>
        rw [if_pos hsame]
        exact ih hread
      · next hsame =>
        rw [if_neg hsame]
        exact Except.ok.inj hread

theorem seek_memory (hdata : window data 0 payload.length = payload) {r : Option ℕ}
    (h : seekFrom payload term j k = .ok r) :
    UrlFilter.seek data payload.length term j k = r := by
  induction hn : payload.length - j using Nat.strongRecOn generalizing j k with
  | _ n ih =>
    rw [seekFrom] at h
    split at h
    · next hlt =>
      have hget : data j = payload[j] := by
        refine data_of_read hdata ?_
        rw [read, List.getElem?_eq_getElem hlt]
      rw [UrlFilter.seek, hget]
      split at h
      · next hterm =>
        rw [if_pos hterm]
        exact Except.ok.inj h
      · next hterm =>
        rw [if_neg hterm, if_neg (Nat.not_lt_of_lt hlt)]
        rw [if_neg (Nat.not_lt_of_lt hlt)] at h
        exact ih (payload.length - (j + 1)) (by omega) h rfl
    · cases h

theorem search_memory (hdata : window data 0 payload.length = payload) {state : ℕ}
    (h : searchFrom payload pattern term n i state = .ok found) :
    UrlFilter.search data payload.length pattern term n i state = found := by
  induction n generalizing i state with
  | zero => exact Except.ok.inj h
  | succ n ih =>
    have hread := read_bind hdata h
    rw [UrlFilter.search]
    simp only at hread ⊢
    split at hread
    · next hstop =>
      rw [if_pos hstop]
      exact Except.ok.inj hread
    · next hstop =>
      rw [if_neg hstop]
      cases hcmp : memcmp payload i pattern with
      | error e =>
        rw [hcmp, error_bind] at hread
        cases hread
      | ok b =>
        have hwindow := memcmp_memory hdata hcmp
        rw [hcmp, ok_bind] at hread
        by_cases hb : b = true
        · rw [if_pos hb] at hread
          rw [if_pos (hwindow.mp hb)]
          cases hseek : seekFrom payload term (i + pattern.length) 0 with
          | error e =>
            rw [hseek, error_bind] at hread
            cases hread
          | ok r =>
            rw [hseek, ok_bind] at hread
            rw [seek_memory hdata hseek]
            cases r with
            | none => exact Except.ok.inj hread
            | some k => exact Except.ok.inj hread
        · rw [if_neg hb] at hread
          rw [if_neg (mt hwindow.mpr hb)]
          exact ih hread

theorem findPattern2_memory (hdata : window data 0 payload.length = payload)
    (h : findPattern2 payload pattern term = .ok found) :
    UrlFilter.findPattern2 data payload.length pattern term = found := by
  rw [findPattern2] at h
  rw [UrlFilter.findPattern2]
  split at h
  · next hzero =>
    rw [if_pos hzero]
    exact Except.ok.inj h
  · next hzero =>
    rw [if_neg hzero]
    split at h
    · next hle =>
      rw [if_pos hle]
      cases hcmp : strnicmpFrom payload 0 pattern payload.length with
      | error e =>
        rw [hcmp, error_bind] at h
        cases h
      | ok z =>
        rw [hcmp, ok_bind] at h
        rw [strnicmp_memory hdata hcmp]
        split at h
        · next hsame =>
          rw [if_pos hsame]
          exact Except.ok.inj h
        · next hsame =>
          rw [if_neg hsame]
          exact Except.ok.inj h
    · next hle =>
      rw [if_neg hle]
      exact search_memory hdata h

end Memory

end PatternReads
