import RouterFirmware.DnsName
import Mathlib.Data.List.TakeWhile

/-! # Queries written, replies read

`encode_dotted` writes a name label by label, without a look at how long the labels are.
`decode_dotted` reads it back when each of them is there and shorter than a compression pointer
would be. A reply is read question by question and answer by answer. -/
namespace DnsMessage

open LoopRun DnsName

/-- `'.'` -/
def dot : UInt8 := 46

/-- The loop of `encode_dotted`: what it writes from `dest + used` on, `none` for `-1`. -/
def encodeLabels (maxlen : ℤ) (used : ℕ) (dotted : List UInt8) : Option (List UInt8) :=
  if dotted = [] then some []
  else
    let label := dotted.takeWhile (· ≠ dot)
    if maxlen - used - 1 ≤ label.length then none
    else
      match _h : dotted.dropWhile (· ≠ dot) with
      | [] => some (UInt8.ofNat label.length :: label)
      | _ :: rest => (encodeLabels maxlen (used + 1 + label.length) rest).map fun more =>
          UInt8.ofNat label.length :: label ++ more
termination_by dotted.length
decreasing_by
  have hle := (List.dropWhile_suffix (l := dotted) (· ≠ dot)).length_le
  rw [_h] at hle
  exact hle

def encodeDotted (dotted : List UInt8) (maxlen : ℤ) : Option (List UInt8) :=
  (encodeLabels maxlen 0 dotted).bind fun labels => if maxlen < 1 then none else some (labels ++ [0])

/-- `decode_dotted`, with what it has written to `dest`. -/
def readTurn (data : Memory) (maxlen : ℤ) (s : Decode) : Decode ⊕ Option (ℕ × List UInt8) :=
  match decodeTurn data maxlen s with
  | .inl t => .inl t
  | .inr r => .inr (r.map fun n => (n, s.dest))

def ReadsName (data : Memory) (offset : ℕ) (maxlen : ℤ) (r : Option (ℕ × List UInt8)) : Prop :=
  Finishes (readTurn data maxlen) (decodeStart offset) r

/-- Every label has a letter, and its length is not taken for a compression pointer. -/
def Regular (dotted : List UInt8) : Prop :=
  ∀ label ∈ dotted.splitOn dot, 0 < label.length ∧ label.length < 192

instance (dotted : List UInt8) : Decidable (Regular dotted) :=
  inferInstanceAs (Decidable (∀ label ∈ dotted.splitOn dot, _))

/-- The bytes stand in memory from the offset on. -/
def Holds (data : Memory) (offset : ℕ) (bytes : List UInt8) : Prop :=
  ∀ k (h : k < bytes.length), data (offset + k) = bytes[k]

section Holds

variable {data : Memory} {o : ℕ} {a b : List UInt8} {c : UInt8}

theorem holds_nil : Holds data o [] := nofun

theorem holds_cons : Holds data o (c :: b) ↔ data o = c ∧ Holds data (o + 1) b := by
  constructor
  · intro h
    refine ⟨h 0 (Nat.zero_lt_succ _), fun k hk => ?_⟩
    rw [Nat.add_right_comm, Nat.add_assoc]
    exact h (k + 1) (Nat.succ_lt_succ hk)
  · rintro ⟨hc, hb⟩ (_ | k) hk
    · exact hc
    · rw [← Nat.add_assoc, Nat.add_right_comm]
      exact hb k (Nat.lt_of_succ_lt_succ hk)

theorem holds_append : Holds data o (a ++ b) ↔ Holds data o a ∧ Holds data (o + a.length) b := by
  induction a generalizing o with
  | nil => simp [holds_nil]
  | cons c a ih =>
    rw [List.cons_append, holds_cons, holds_cons, ih, List.length_cons, and_assoc,
      Nat.add_right_comm, Nat.add_assoc]

theorem Holds.read (h : Holds data o a) : (List.range a.length).map (fun i => data (o + i)) = a := by
  refine List.ext_getElem (by simp) fun k _ hk => ?_
  simpa using h k hk

theorem holds_getD (bytes : List UInt8) : Holds (fun k => bytes.getD k 0) 0 bytes := by
  intro k hk
  simp only [Nat.zero_add]
  rw [List.getD_eq_getElem?_getD, List.getElem?_eq_getElem hk, Option.getD_some]

end Holds

section Encode

variable {maxlen : ℤ} {used : ℕ} {label dotted rest : List UInt8}

theorem takeWhile_label (h : dot ∉ label) : label.takeWhile (· ≠ dot) = label := by
  rw [List.takeWhile_eq_self_iff]
  exact fun c hc => decide_eq_true fun e => h (e ▸ hc)

theorem encodeLabels_last (h : dot ∉ label) (hne : label ≠ []) : encodeLabels maxlen used label =
    if maxlen - used - 1 ≤ label.length then none
    else some (UInt8.ofNat label.length :: label) := by
  have hdrop : label.dropWhile (· ≠ dot) = [] := by
    rw [List.dropWhile_eq_nil_iff]
    exact fun c hc => decide_eq_true fun e => h (e ▸ hc)
  rw [encodeLabels, if_neg hne]
  simp only [takeWhile_label h]
  by_cases hfull : maxlen - used - 1 ≤ label.length
  · rw [if_pos hfull, if_pos hfull]
  · rw [if_neg hfull, if_neg hfull]
    split
    · rfl
    · rename_i heq
      rw [hdrop] at heq
      cases heq

theorem encodeLabels_label (h : dot ∉ label) (rest : List UInt8) :
    encodeLabels maxlen used (label ++ dot :: rest) =
      if maxlen - used - 1 ≤ label.length then none
      else (encodeLabels maxlen (used + 1 + label.length) rest).map fun more =>
        UInt8.ofNat label.length :: label ++ more := by
  have hall : ∀ c ∈ label, decide (c ≠ dot) = true := fun c hc => decide_eq_true fun e => h (e ▸ hc)
  have htake : (label ++ dot :: rest).takeWhile (· ≠ dot) = label := by
    rw [List.takeWhile_append_of_pos hall, List.takeWhile_cons_of_neg (by simp), List.append_nil]
  have hdrop : (label ++ dot :: rest).dropWhile (· ≠ dot) = dot :: rest := by
    rw [List.dropWhile_append_of_pos hall, List.dropWhile_cons_of_neg (by simp)]
  rw [encodeLabels, if_neg (by simp)]
  simp only [htake]
  by_cases hfull : maxlen - used - 1 ≤ label.length
  · rw [if_pos hfull, if_pos hfull]
  · rw [if_neg hfull, if_neg hfull]
    split
    · rename_i heq
      rw [hdrop] at heq
      cases heq
    · rename_i heq
      rw [hdrop] at heq
      cases heq
      rfl

theorem exists_label (dotted : List UInt8) :
    ∃ label, dot ∉ label ∧ (dotted = label ∨ ∃ rest, dotted = label ++ dot :: rest) := by
  induction dotted with
  | nil => exact ⟨[], List.not_mem_nil, .inl rfl⟩
  | cons c dotted ih =>
    by_cases hc : c = dot
    · exact ⟨[], List.not_mem_nil, .inr ⟨dotted, hc ▸ rfl⟩⟩
    · obtain ⟨label, hlabel, h⟩ := ih
      refine ⟨c :: label, fun hin => ?_, ?_⟩
      · exact (List.mem_cons.mp hin).elim (fun e => hc e.symm) hlabel
      · rcases h with rfl | ⟨rest, rfl⟩
        · exact .inl rfl
        · exact .inr ⟨rest, rfl⟩

theorem regular_last (h : dot ∉ label) :
    Regular label ↔ 0 < label.length ∧ label.length < 192 := by
  rw [Regular, List.splitOn_eq_singleton h]
  simp

theorem regular_label (h : dot ∉ label) : Regular (label ++ dot :: rest) ↔
    (0 < label.length ∧ label.length < 192) ∧ Regular rest := by
  rw [Regular, List.splitOn_append_cons_self_of_not_mem h]
  simp [Regular]

end Encode

section Read

variable {data : Memory} {room maxlen : ℤ} {s t : Decode} {r : Option (ℕ × List UInt8)} {n used : ℕ}
  {label text rest dotted bytes : List UInt8}

theorem readTurn_end (h : byteAt data s.offset = 0) : readTurn data room s =
    .inr (some (if s.measure then s.total + 1 else s.total, s.dest)) := by
  rw [readTurn, decodeTurn_end h]
  rfl

theorem readTurn_pointer (h : isPointer data s.offset = true) :
    readTurn data room s = .inl ⟨target data s.offset, s.dest, false,
      if s.measure then s.total + 2 else s.total⟩ := by
  rw [readTurn, decodeTurn_pointer h]

theorem readTurn_full (h : byteAt data s.offset ≠ 0) (hlabel : isPointer data s.offset = false)
    (hfull : room ≤ s.dest.length + byteAt data s.offset + 1) :
    readTurn data room s = .inr none := by
  have hturn : decodeTurn data room s = .inr none := by simp [decodeTurn, h, hlabel, hfull]
  rw [readTurn, hturn]
  rfl

/-- `'.'` or `'\0'`, as the name goes on or not. -/
def ending (data : Memory) (offset : ℕ) : UInt8 := if data offset ≠ 0 then dot else 0

theorem readTurn_label (h : byteAt data s.offset ≠ 0) (hlabel : isPointer data s.offset = false)
    (hfits : s.dest.length + byteAt data s.offset + 1 < room) :
    readTurn data room s = .inl
      { offset := s.offset + 1 + byteAt data s.offset
        dest := s.dest ++ (List.range (byteAt data s.offset)).map (fun i => data (s.offset + 1 + i)) ++
          [ending data (s.offset + 1 + byteAt data s.offset)]
        measure := s.measure
        total := if s.measure then s.total + (1 + byteAt data s.offset) else s.total } := by
  rw [readTurn]
  simp only [decodeTurn, h, hlabel, not_le.mpr hfits, if_false, Bool.false_eq_true]
  rfl

theorem decodes_of_reads (h : Finishes (readTurn data room) s r) :
    Finishes (decodeTurn data room) s (r.map Prod.fst) := by
  refine finishes_induction (P := fun s r => Finishes (decodeTurn data room) s (r.map Prod.fst))
    ?_ ?_ h
  · intro s r hexit
    rw [readTurn] at hexit
    split at hexit
    · cases hexit
    · rename_i q hturn
      cases hexit
      rw [finishes_iff_of_inr hturn]
      cases q <;> rfl
  · intro s t r hnext ih
    rw [readTurn] at hnext
    split at hnext
    · rename_i u hturn
      cases hnext
      exact (finishes_iff_of_inl hturn).mpr ih
    · cases hnext

theorem prefix_of_reads (h : Finishes (readTurn data room) s r) (hr : r = some (n, text)) :
    s.dest <+: text := by
  refine finishes_induction (P := fun s r => r = some (n, text) → s.dest <+: text) ?_ ?_ h hr
  · intro s r hexit hr
    subst r
    rw [readTurn] at hexit
    split at hexit
    · cases hexit
    · rename_i q _
      cases q with
      | none => cases hexit
      | some m =>
        cases hexit
        exact List.prefix_refl _
  · intro s t r hnext ih hr
    have hgrows : s.dest <+: t.dest := by
      rw [readTurn] at hnext
      split at hnext
      · rename_i u hturn
        cases hnext
        simp only [decodeTurn] at hturn
        split at hturn
        · cases hturn
        · split at hturn
          · cases hturn
            exact List.prefix_refl _
          · split at hturn
            · cases hturn
            · cases hturn
              rw [List.append_assoc]
              exact List.prefix_append _ _
      · cases hnext
    exact hgrows.trans (ih hr)

theorem total_of_reads (h : Finishes (readTurn data room) s (some (n, text)))
    (hmeasure : s.measure = false) : n = s.total := by
  have hcounts := counts_of_finishes (decodes_of_reads h) rfl
  rwa [Counts, hmeasure, if_neg Bool.false_ne_true] at hcounts

theorem byteAt_ofNat {l : ℕ} (h : data s.offset = UInt8.ofNat l) :
    byteAt data s.offset = l % 256 := by
  rw [byteAt, h, UInt8.toNat_ofNat']

theorem isPointer_iff (o : ℕ) : isPointer data o = true ↔ 192 ≤ byteAt data o := by
  have hbyte : ∀ l < 256, l &&& 0xc0 = 0xc0 ↔ 192 ≤ l := by decide +kernel
  rw [isPointer, beq_iff_eq]
  exact hbyte _ (data o).toNat_lt

/-- A label without letters, or one that is too long, does not come back. -/
theorem not_reads_label (hlabel : data s.offset = UInt8.ofNat label.length) (hdot : dot ∉ label)
    (hnul : 0 ∉ label)
    (hbad : ¬ (0 < label.length ∧ label.length < 192)) (hmeasure : s.measure = true)
    (hn : s.total + label.length + 1 < n) (htext : text ≠ []) :
    ¬ Finishes (readTurn data room) s (some (n, s.dest ++ label ++ text)) := by
  intro h
  have hbyte := byteAt_ofNat hlabel
  by_cases hzero : byteAt data s.offset = 0
  · have hsame := (finishes_iff_of_inr (readTurn_end hzero)).mp h
    have hdest := congrArg (fun r => (Option.map (fun p : ℕ × List UInt8 => p.2.length) r).getD 0) hsame
    have hpos := List.length_pos_of_ne_nil htext
    simp only [Option.map_some, Option.getD_some, List.length_append] at hdest
    omega
  · cases hpointer : isPointer data s.offset with
    | true =>
      have htotal := total_of_reads ((finishes_iff_of_inl (readTurn_pointer hpointer)).mp h) rfl
      have hlong := (isPointer_iff s.offset).mp hpointer
      simp only [hmeasure, if_true] at htotal
      omega
    | false =>
      have hshort : byteAt data s.offset < label.length := by
        have hnot : ¬ 192 ≤ byteAt data s.offset := fun hle => by
          rw [(isPointer_iff s.offset).mpr hle] at hpointer
          cases hpointer
        omega
      rcases lt_or_ge (s.dest.length + byteAt data s.offset + 1 : ℤ) room with hfits | hfull
      · -- the label is cut, and what ends it is no letter of the label
        have hnext := (finishes_iff_of_inl (readTurn_label hzero hpointer hfits)).mp h
        have hprefix := prefix_of_reads hnext rfl
        simp only [List.append_assoc, List.prefix_append_right_inj] at hprefix
        have hget := hprefix.getElem (i := byteAt data s.offset) (by simp)
        rw [List.getElem_append_right (by simp), List.getElem_append_left hshort] at hget
        simp only [List.length_map, List.length_range, Nat.sub_self, List.getElem_singleton] at hget
        have hin : ending data (s.offset + 1 + byteAt data s.offset) ∈ label :=
          hget ▸ List.getElem_mem hshort
        rw [ending] at hin
        split at hin
        · exact hdot hin
        · exact hnul hin
      · have hsame := (finishes_iff_of_inr (readTurn_full hzero hpointer hfull)).mp h
        cases hsame

theorem label_byte (hlabel : data s.offset = UInt8.ofNat label.length)
    (hgood : 0 < label.length ∧ label.length < 192) :
    byteAt data s.offset = label.length ∧ isPointer data s.offset = false := by
  have hbyte : byteAt data s.offset = label.length := by
    rw [byteAt_ofNat hlabel, Nat.mod_eq_of_lt (by omega)]
  refine ⟨hbyte, ?_⟩
  rw [Bool.eq_false_iff, Ne, isPointer_iff]
  omega

/-- Where a label comes back, the loop goes on behind it. -/
theorem reads_label_iff (hlabel : data s.offset = UInt8.ofNat label.length)
    (hholds : Holds data (s.offset + 1) label) (hgood : 0 < label.length ∧ label.length < 192)
    (hmeasure : s.measure = true) (hfits : s.dest.length + label.length + 1 < room) :
    Finishes (readTurn data room) s r ↔ Finishes (readTurn data room)
      { offset := s.offset + 1 + label.length
        dest := s.dest ++ label ++ [ending data (s.offset + 1 + label.length)]
        measure := true
        total := s.total + (1 + label.length) } r := by
  obtain ⟨hbyte, hpointer⟩ := label_byte hlabel hgood
  have hturn := @readTurn_label data room s (by omega) hpointer (by omega)
  rw [hbyte, hholds.read, hmeasure, if_pos rfl] at hturn
  exact finishes_iff_of_inl hturn

theorem not_reads_of_full (hlabel : data s.offset = UInt8.ofNat label.length)
    (hgood : 0 < label.length ∧ label.length < 192)
    (hfull : room ≤ s.dest.length + label.length + 1) :
    ¬ Finishes (readTurn data room) s (some (n, text)) := by
  obtain ⟨hbyte, hpointer⟩ := label_byte hlabel hgood
  intro h
  cases (finishes_iff_of_inr (readTurn_full (by omega) hpointer (by omega))).mp h

theorem byteAt_eq_zero_iff {o : ℕ} : byteAt data o = 0 ↔ data o = 0 := by
  rw [byteAt, ← UInt8.toNat_inj]
  rfl

theorem reads_end_iff (hzero : data s.offset = 0) (hmeasure : s.measure = true) :
    Finishes (readTurn data room) s (some (n, text)) ↔ n = s.total + 1 ∧ text = s.dest := by
  rw [finishes_iff_of_inr (readTurn_end (byteAt_eq_zero_iff.mpr hzero)), hmeasure, if_pos rfl]
  simp only [Option.some.injEq, Prod.mk.injEq, eq_comm]

theorem head_of_regular (hne : dotted ≠ []) (henc : encodeLabels maxlen used dotted = some bytes)
    (hregular : Regular dotted) : ∃ c more, bytes = c :: more ∧ c ≠ 0 := by
  have hbyte (l : ℕ) (h : 0 < l ∧ l < 192) : UInt8.ofNat l ≠ 0 := fun hz => by
    have := congrArg UInt8.toNat hz
    rw [UInt8.toNat_ofNat', Nat.mod_eq_of_lt (by omega)] at this
    exact absurd this (Nat.ne_of_gt h.1)
  obtain ⟨label, hdot, rfl | ⟨rest, rfl⟩⟩ := exists_label dotted
  · rw [encodeLabels_last hdot hne] at henc
    split at henc
    · cases henc
    · cases henc
      exact ⟨_, _, rfl, hbyte _ ((regular_last hdot).mp hregular)⟩
  · rw [encodeLabels_label hdot] at henc
    split at henc
    · cases henc
    · obtain ⟨more, -, rfl⟩ := Option.map_eq_some_iff.mp henc
      exact ⟨_, _, rfl, hbyte _ ((regular_label hdot).mp hregular).1⟩

/-- Behind a label that came back: nothing, which leaves a dot at the end out, or more labels. -/
theorem reads_rest_iff
    (hmore : encodeLabels maxlen used rest = some bytes)
    (hrest : Holds data (s.offset + 1 + label.length) (bytes ++ [0]))
    (hgood : 0 < label.length ∧ label.length < 192)
    (ih : ∀ t : Decode, t.measure = true → Holds data t.offset (bytes ++ [0]) → rest ≠ [] →
      (Finishes (readTurn data room) t (some (t.total + bytes.length + 1, t.dest ++ rest ++ [0])) ↔
        Regular rest ∧ t.dest.length + rest.length + 1 < room)) :
    Finishes (readTurn data room)
      { offset := s.offset + 1 + label.length
        dest := s.dest ++ label ++ [ending data (s.offset + 1 + label.length)]
        measure := true
        total := s.total + (1 + label.length) }
      (some (s.total + (UInt8.ofNat label.length :: label ++ bytes).length + 1,
        s.dest ++ (label ++ dot :: rest) ++ [0])) ↔
    ((0 < label.length ∧ label.length < 192) ∧ Regular rest) ∧
      s.dest.length + (label ++ dot :: rest).length + 1 < room := by
  by_cases hzero : data (s.offset + 1 + label.length) = 0
  · -- the name ends here, and the dot behind the label is not in `dest`
    rw [reads_end_iff hzero rfl]
    refine iff_of_false (fun h => ?_) fun h => ?_
    · have hlength := congrArg List.length h.2
      simp at hlength
    · by_cases hne : rest = []
      · exact absurd (h.1.2 [] (by simp [hne])).1 (Nat.lt_irrefl 0)
      · obtain ⟨c, more, rfl, hc⟩ := head_of_regular hne hmore h.1.2
        rw [List.cons_append, holds_cons, hzero] at hrest
        exact hc hrest.1.symm
  · have hne : rest ≠ [] := by
      rintro rfl
      rw [encodeLabels, if_pos rfl] at hmore
      cases hmore
      rw [List.nil_append, holds_cons] at hrest
      exact hzero hrest.1
    have hend : ending data (s.offset + 1 + label.length) = dot := if_pos hzero
    have h := ih ⟨s.offset + 1 + label.length, s.dest ++ label ++ [dot], true,
      s.total + (1 + label.length)⟩ rfl hrest hne
    have htotal : s.total + (1 + label.length) + bytes.length + 1 =
        s.total + (UInt8.ofNat label.length :: label ++ bytes).length + 1 := by
      simp only [List.cons_append, List.length_cons, List.length_append]
      omega
    have htext : s.dest ++ label ++ [dot] ++ rest ++ [0] =
        s.dest ++ (label ++ dot :: rest) ++ [0] := by simp
    have hroom : ((s.dest ++ label ++ [dot]).length : ℤ) + rest.length + 1 =
        s.dest.length + (label ++ dot :: rest).length + 1 := by
      simp only [List.length_append, List.length_cons, List.length_nil]
      omega
    rw [hend]
    simp only [htotal, htext, hroom] at h
    rw [h]
    exact ⟨fun hr => ⟨⟨hgood, hr.1⟩, hr.2⟩, fun hr => ⟨hr.1.2, hr.2⟩⟩

/-- The loop of `decode_dotted` on the labels that `encode_dotted` wrote. -/
theorem reads_labels_iff (hne : dotted ≠ []) (hnul : 0 ∉ dotted)
    (henc : encodeLabels maxlen used dotted = some bytes)
    (hholds : Holds data s.offset (bytes ++ [0])) (hmeasure : s.measure = true) :
    Finishes (readTurn data room) s
      (some (s.total + bytes.length + 1, s.dest ++ dotted ++ [0])) ↔
    Regular dotted ∧ s.dest.length + dotted.length + 1 < room := by
  induction hlen : dotted.length using Nat.strong_induction_on
    generalizing dotted bytes used s with
  | _ len ih =>
    subst hlen
    obtain ⟨label, hdot, rfl | ⟨rest, rfl⟩⟩ := exists_label dotted
    · rw [encodeLabels_last hdot hne] at henc
      split at henc
      · cases henc
      · cases henc
        rw [List.cons_append, holds_cons, holds_append, holds_cons] at hholds
        obtain ⟨hbyte, hlabel, hzero, -⟩ := hholds
        rw [regular_last hdot]
        by_cases hgood : 0 < dotted.length ∧ dotted.length < 192
        · by_cases hfits : s.dest.length + dotted.length + 1 < room
          · rw [reads_label_iff hbyte hlabel hgood hmeasure hfits, reads_end_iff hzero rfl]
            refine iff_of_true ⟨?_, ?_⟩ ⟨hgood, hfits⟩
            · simp only [List.length_cons]
              omega
            · simp [ending, hzero]
          · refine iff_of_false (not_reads_of_full hbyte hgood (not_lt.mp hfits)) fun h => hfits h.2
        · refine iff_of_false (not_reads_label hbyte hdot hnul hgood hmeasure ?_ (by simp))
            fun h => hgood h.1
          simp only [List.length_cons]
          omega
    · rw [encodeLabels_label hdot] at henc
      split at henc
      · cases henc
      · obtain ⟨more, hmore, rfl⟩ := Option.map_eq_some_iff.mp henc
        rw [List.cons_append, List.cons_append, List.append_assoc, holds_cons, holds_append] at hholds
        obtain ⟨hbyte, hlabel, hrest⟩ := hholds
        have hnul' : 0 ∉ label := fun h => hnul (List.mem_append_left _ h)
        rw [regular_label hdot]
        by_cases hgood : 0 < label.length ∧ label.length < 192
        · by_cases hfits : s.dest.length + label.length + 1 < room
          · rw [reads_label_iff hbyte hlabel hgood hmeasure hfits]
            refine reads_rest_iff hmore hrest hgood fun t ht hholds hne => ?_
            have hshort : rest.length < (label ++ dot :: rest).length := by
              simp only [List.length_append, List.length_cons]
              omega
            exact ih rest.length hshort hne
              (fun h => hnul (List.mem_append_right _ (List.mem_cons_of_mem _ h))) hmore hholds ht rfl
          · refine iff_of_false (not_reads_of_full hbyte hgood (not_lt.mp hfits)) fun h => hfits ?_
            have := h.2
            simp only [List.length_append, List.length_cons] at this
            omega
        · have hassoc : s.dest ++ (label ++ dot :: rest) ++ [0] =
              s.dest ++ label ++ (dot :: rest ++ [0]) := by simp
          rw [hassoc]
          refine iff_of_false (not_reads_label hbyte hdot hnul' hgood hmeasure ?_ (by simp))
            fun h => hgood h.1.1
          simp only [List.length_append, List.length_cons]
          omega

theorem encodeDotted_some (h : encodeDotted dotted maxlen = some bytes) :
    ∃ labels, encodeLabels maxlen 0 dotted = some labels ∧ bytes = labels ++ [0] := by
  obtain ⟨labels, hlabels, h⟩ := Option.bind_eq_some_iff.mp h
  split at h
  · cases h
  · exact ⟨labels, hlabels, (Option.some.inj h).symm⟩

theorem readsName_iff (hnul : 0 ∉ dotted) (henc : encodeDotted dotted maxlen = some bytes)
    {offset : ℕ} (hholds : Holds data offset bytes) :
    ReadsName data offset room (some (bytes.length, dotted ++ [0])) ↔
      Regular dotted ∧ dotted.length + 1 < room := by
  obtain ⟨labels, hlabels, rfl⟩ := encodeDotted_some henc
  by_cases hne : dotted = []
  · subst dotted
    rw [encodeLabels, if_pos rfl] at hlabels
    cases hlabels
    rw [List.nil_append, holds_cons] at hholds
    rw [ReadsName, reads_end_iff (s := decodeStart offset) hholds.1 rfl]
    refine iff_of_false (fun h => ?_) fun h => ?_
    · cases h.2
    · exact absurd (h.1 [] (by simp)).1 (Nat.lt_irrefl 0)
  · have h := @reads_labels_iff data room _ (decodeStart offset) _ _ _ hne hnul hlabels hholds rfl
    simpa [decodeStart, ReadsName] using h

theorem encodeDotted_two_labels : encodeDotted [97, 98, 46, 99] 64 = some [2, 97, 98, 1, 99, 0] := by
  have hlast : encodeLabels 64 3 [99] = some [1, 99] :=
    @encodeLabels_last 64 3 [99] (by decide) (by decide)
  have hfirst : encodeLabels 64 0 [97, 98, 46, 99] = some [2, 97, 98, 1, 99] := by
    have h := @encodeLabels_label 64 0 [97, 98] (by decide) [99]
    rw [if_neg (by decide)] at h
    exact h.trans (congrArg _ hlast)
  rw [encodeDotted, hfirst]
  rfl

theorem lengthDotted_of_regular (hnul : 0 ∉ dotted) (henc : encodeDotted dotted maxlen = some bytes)
    {offset : ℕ} (hholds : Holds data offset bytes) (hregular : Regular dotted) (r : Option ℕ) :
    LengthDotted (some data) offset r ↔ r = some bytes.length := by
  have hread := (@readsName_iff data (dotted.length + 2) _ _ _ hnul henc _ hholds).mpr
    ⟨hregular, by omega⟩
  obtain ⟨behind, hbehind, htotal⟩ : ∃ behind, Finishes (lengthTurn data) offset behind ∧
    offset + bytes.length = 0 + behind := counts_of_finishes (decodes_of_reads hread) rfl
  have hskip : behind - offset = bytes.length := by omega
  constructor
  · rintro ⟨other, hother, rfl⟩
    rw [← finishes_unique hbehind hother, hskip]
  · rintro rfl
    exact ⟨behind, hbehind, by rw [hskip]⟩

/-- A name that was written comes back, with its length, exactly when each of its labels has a
letter and is shorter than 192, and the buffer has room; then it is skipped by this length. -/
theorem name_round_trip (hnul : 0 ∉ dotted) (henc : encodeDotted dotted maxlen = some bytes)
    {offset : ℕ} (hholds : Holds data offset bytes) :
    (ReadsName data offset room (some (bytes.length, dotted ++ [0])) ↔
      Regular dotted ∧ dotted.length + 1 < room) ∧
    (Regular dotted → ∀ r, LengthDotted (some data) offset r ↔ r = some bytes.length) :=
  ⟨readsName_iff hnul henc hholds, lengthDotted_of_regular hnul henc hholds⟩

theorem name_round_trip_two : ∃ bytes, encodeDotted [97, 98, 46, 99] 64 = some bytes ∧
    ReadsName (fun k => bytes.getD k 0) 0 256 (some (bytes.length, [97, 98, 46, 99] ++ [0])) ∧
    LengthDotted (some fun k => bytes.getD k 0) 0 (some bytes.length) := by
  have h := @name_round_trip _ 256 _ _ _ (by decide) encodeDotted_two_labels _ (holds_getD _)
  exact ⟨_, encodeDotted_two_labels, h.1.mpr (by decide), (h.2 (by decide) _).mpr rfl⟩

/-- The text that is read does not depend on the count of the bytes. -/
theorem reads_unmeasured {total : ℕ} (h : Finishes (readTurn data room) s (some (n, text))) :
    Finishes (readTurn data room) { s with measure := false, total := total }
      (some (total, text)) := by
  refine finishes_induction (P := fun s r => ∀ n text, r = some (n, text) →
    Finishes (readTurn data room) { s with measure := false, total := total }
      (some (total, text))) ?_ ?_ h n text rfl
  · intro s r hexit n text hr
    subst r
    rcases decodeTurn_cases data room s with ⟨hzero, -⟩ | ⟨hpointer, -⟩ | hturn |
      ⟨hne, hlabel, hfits, -⟩
    · rw [readTurn_end hzero] at hexit
      cases hexit
      exact (finishes_iff_of_inr (readTurn_end (s := ⟨s.offset, s.dest, false, total⟩) hzero)).mpr
        rfl
    · rw [readTurn_pointer hpointer] at hexit
      cases hexit
    · rw [readTurn, hturn] at hexit
      cases hexit
    · rw [readTurn_label hne hlabel hfits] at hexit
      cases hexit
  · intro s t r hnext ih n text hr
    rcases decodeTurn_cases data room s with ⟨hzero, -⟩ | ⟨hpointer, -⟩ | hturn |
      ⟨hne, hlabel, hfits, -⟩
    · rw [readTurn_end hzero] at hnext
      cases hnext
    · rw [readTurn_pointer hpointer] at hnext
      cases hnext
      have hturn := @readTurn_pointer _ room ⟨s.offset, s.dest, false, total⟩ hpointer
      exact (finishes_iff_of_inl hturn).mpr (ih n text hr)
    · rw [readTurn, hturn] at hnext
      cases hnext
    · rw [readTurn_label hne hlabel hfits] at hnext
      cases hnext
      have hturn := readTurn_label (s := ⟨s.offset, s.dest, false, total⟩) hne hlabel hfits
      exact (finishes_iff_of_inl hturn).mpr (ih n text hr)

end Read

/-! ## The header -/

structure Header where
  id : ℕ
  qr : ℕ
  opcode : ℕ
  aa : ℕ
  tc : ℕ
  rd : ℕ
  ra : ℕ
  rcode : ℕ
  qdcount : ℕ
  ancount : ℕ
  nscount : ℕ
  arcount : ℕ
  deriving DecidableEq, Repr

def wordBytes (x : ℕ) : List UInt8 :=
  [UInt8.ofNat ((x &&& 0xff00) >>> 8), UInt8.ofNat (x &&& 0x00ff)]

def flag (x bit : ℕ) : ℕ := if x ≠ 0 then bit else 0

def hfixedsz : ℕ := 12

/-- `dest[2]` -/
def highFlags (qr opcode aa tc rd : ℕ) : UInt8 :=
  UInt8.ofNat (flag qr 0x80 ||| (opcode &&& 0x0f) <<< 3 ||| flag aa 0x04 ||| flag tc 0x02 |||
    flag rd 0x01)

/-- `dest[3]` -/
def lowFlags (ra rcode : ℕ) : UInt8 := UInt8.ofNat (flag ra 0x80 ||| rcode &&& 0x0f)

def encodeHeader (h : Header) (maxlen : ℤ) : Option (List UInt8) :=
  if maxlen < hfixedsz then none
  else some (wordBytes h.id ++ [highFlags h.qr h.opcode h.aa h.tc h.rd, lowFlags h.ra h.rcode] ++
    wordBytes h.qdcount ++ wordBytes h.ancount ++ wordBytes h.nscount ++ wordBytes h.arcount)

/-- `(data[o] << 8) | data[o + 1]` -/
def wordAt (data : Memory) (o : ℕ) : ℕ := byteAt data o <<< 8 ||| byteAt data (o + 1)

def decodeHeader (data : Memory) : Header where
  id := wordAt data 0
  qr := if byteAt data 2 &&& 0x80 ≠ 0 then 1 else 0
  opcode := byteAt data 2 >>> 3 &&& 0x0f
  aa := if byteAt data 2 &&& 0x04 ≠ 0 then 1 else 0
  tc := if byteAt data 2 &&& 0x02 ≠ 0 then 1 else 0
  rd := if byteAt data 2 &&& 0x01 ≠ 0 then 1 else 0
  ra := if byteAt data 3 &&& 0x80 ≠ 0 then 1 else 0
  rcode := byteAt data 3 &&& 0x0f
  qdcount := wordAt data 4
  ancount := wordAt data 6
  nscount := wordAt data 8
  arcount := wordAt data 10

/-- What the fields of a header have room for. -/
structure Header.Fits (h : Header) : Prop where
  id : h.id < 65536
  flags : h.qr ≤ 1 ∧ h.aa ≤ 1 ∧ h.tc ≤ 1 ∧ h.rd ≤ 1 ∧ h.ra ≤ 1
  codes : h.opcode < 16 ∧ h.rcode < 16
  counts : h.qdcount < 65536 ∧ h.ancount < 65536 ∧ h.nscount < 65536 ∧ h.arcount < 65536

section Header

variable {data : Memory} {maxlen : ℤ} {o : ℕ} {bytes : List UInt8}

theorem wordAt_wordBytes {x : ℕ} (h : Holds data o (wordBytes x)) : wordAt data o = x % 65536 := by
  simp only [wordBytes, holds_cons] at h
  obtain ⟨hhigh, hlow, -⟩ := h
  have hhi : (x &&& 0xff00) >>> 8 = x / 256 % 256 := by
    rw [Nat.shiftRight_and_distrib, Nat.shiftRight_eq_div_pow]
    exact Nat.and_two_pow_sub_one_eq_mod (x / 256) 8
  have hlo : x &&& 0x00ff = x % 256 := Nat.and_two_pow_sub_one_eq_mod x 8
  have hbehind : byteAt data (o + 1) = x % 256 := by
    rw [byteAt, hlow, UInt8.toNat_ofNat', hlo, Nat.mod_mod]
  have hbefore : byteAt data o = x / 256 % 256 := by
    rw [byteAt, hhigh, UInt8.toNat_ofNat', hhi, Nat.mod_mod]
  rw [wordAt, hbefore, hbehind, ← Nat.shiftLeft_add_eq_or_of_lt (Nat.mod_lt x (by decide)),
    Nat.shiftLeft_eq]
  omega

/-- The flags come back from `dest[2]`. -/
def HighRead (qr opcode aa tc rd : ℕ) : Prop :=
  let high := (highFlags qr opcode aa tc rd).toNat
  (if high &&& 0x80 ≠ 0 then 1 else 0) = qr ∧ high >>> 3 &&& 0x0f = opcode ∧
    (if high &&& 0x04 ≠ 0 then 1 else 0) = aa ∧ (if high &&& 0x02 ≠ 0 then 1 else 0) = tc ∧
    (if high &&& 0x01 ≠ 0 then 1 else 0) = rd

instance (qr opcode aa tc rd : ℕ) : Decidable (HighRead qr opcode aa tc rd) :=
  inferInstanceAs (Decidable (_ ∧ _ ∧ _ ∧ _ ∧ _))

theorem highRead : ∀ qr < 2, ∀ opcode < 16, ∀ aa < 2, ∀ tc < 2, ∀ rd < 2,
    HighRead qr opcode aa tc rd := by
  decide +kernel

theorem lowFlags_read : ∀ ra < 2, ∀ rcode < 16,
    (if (lowFlags ra rcode).toNat &&& 0x80 ≠ 0 then 1 else 0) = ra ∧
    (lowFlags ra rcode).toNat &&& 0x0f = rcode := by
  decide +kernel

theorem wordAt_lt (data : Memory) (o : ℕ) : wordAt data o < 65536 := by
  have hhigh : byteAt data o < 2 ^ 8 := (data o).toNat_lt
  have hlow : byteAt data (o + 1) < 2 ^ 8 := (data (o + 1)).toNat_lt
  refine Nat.or_lt_two_pow (n := 16) ?_ (by omega)
  rw [Nat.shiftLeft_eq]
  omega

theorem decodeHeader_fits (data : Memory) : (decodeHeader data).Fits := by
  have hflag (c : Prop) [Decidable c] : (if c then 1 else 0) ≤ 1 := by
    split <;> decide
  have hcode (x : ℕ) : x &&& 0x0f < 16 := Nat.and_lt_two_pow x (n := 4) (by decide)
  exact ⟨wordAt_lt data 0, ⟨hflag _, hflag _, hflag _, hflag _, hflag _⟩, ⟨hcode _, hcode _⟩,
    wordAt_lt data 4, wordAt_lt data 6, wordAt_lt data 8, wordAt_lt data 10⟩

/-- A header that was written comes back exactly when its fields have room. -/
theorem header_round_trip {h : Header} (henc : encodeHeader h maxlen = some bytes)
    (hholds : Holds data 0 bytes) : decodeHeader data = h ↔ h.Fits := by
  refine ⟨fun e => e ▸ decodeHeader_fits data, fun hfits => ?_⟩
  rw [encodeHeader] at henc
  split at henc
  · cases henc
  · cases henc
    simp only [holds_append, List.append_assoc] at hholds
    obtain ⟨hid, hflags, hqd, han, hns, har⟩ := hholds
    simp only [holds_cons] at hflags
    obtain ⟨hhigh, hlow, -⟩ := hflags
    obtain ⟨hq, ha, ht, hr, hra⟩ := hfits.flags
    obtain ⟨hop, hrc⟩ := hfits.codes
    obtain ⟨h2, h3, h4, h5, h6⟩ := highRead h.qr (by omega) h.opcode hop h.aa (by omega)
      h.tc (by omega) h.rd (by omega)
    obtain ⟨h7, h8⟩ := lowFlags_read h.ra (by omega) h.rcode hrc
    obtain ⟨hqdl, hanl, hnsl, harl⟩ := hfits.counts
    have hhigh' : byteAt data 2 = (highFlags h.qr h.opcode h.aa h.tc h.rd).toNat :=
      congrArg UInt8.toNat hhigh
    have hlow' : byteAt data 3 = (lowFlags h.ra h.rcode).toNat := congrArg UInt8.toNat hlow
    have hid' : wordAt data 0 = h.id := (wordAt_wordBytes hid).trans (Nat.mod_eq_of_lt hfits.id)
    have hqd' : wordAt data 4 = h.qdcount := (wordAt_wordBytes hqd).trans (Nat.mod_eq_of_lt hqdl)
    have han' : wordAt data 6 = h.ancount := (wordAt_wordBytes han).trans (Nat.mod_eq_of_lt hanl)
    have hns' : wordAt data 8 = h.nscount := (wordAt_wordBytes hns).trans (Nat.mod_eq_of_lt hnsl)
    have har' : wordAt data 10 = h.arcount := (wordAt_wordBytes har).trans (Nat.mod_eq_of_lt harl)
    rw [decodeHeader, hhigh', hlow', h2, h3, h4, h5, h6, h7, h8, hid', hqd', han', hns', har']

end Header

end DnsMessage
