import Mathlib.Data.Fintype.Pigeonhole
import Mathlib.Data.UInt
import Mathlib.Dynamics.PeriodicPts.Defs
import Mathlib.Logic.Relation
import RouterFirmware.LoopRun

/-! # Names in a name server's answer

`decode_dotted` writes a name of the message in dotted form and follows compression pointers,
`length_dotted` only skips the name. Both tell how many bytes the name takes where it stands.
-/
namespace DnsName

open LoopRun Relation

/-- The bytes from `data` on: the message and what lies behind it. -/
abbrev Memory := ℕ → UInt8

/-- `l = data[offset]` -/
def byteAt (data : Memory) (offset : ℕ) : ℕ := (data offset).toNat

/-- `(l & 0xc0) == 0xc0` -/
def isPointer (data : Memory) (offset : ℕ) : Bool := byteAt data offset &&& 0xc0 == 0xc0

/-- `((l & 0x3f) << 8) | data[offset]` -/
def target (data : Memory) (offset : ℕ) : ℕ :=
  (byteAt data offset &&& 0x3f) <<< 8 ||| byteAt data (offset + 1)

structure Decode where
  offset : ℕ
  dest : List UInt8
  measure : Bool
  total : ℕ

/-- One turn of the loop in `decode_dotted`. It leaves with a length, or with `none` for `-1`. -/
def decodeTurn (data : Memory) (maxlen : ℤ) (s : Decode) : Decode ⊕ Option ℕ :=
  let l := byteAt data s.offset
  let count := fun n => if s.measure then s.total + n else s.total
  if l = 0 then .inr (some (count 1))
  else if isPointer data s.offset then
    .inl { s with offset := target data s.offset, measure := false, total := count 2 }
  else if maxlen ≤ s.dest.length + l + 1 then .inr none
  else
    let offset := s.offset + 1 + l
    let label := (List.range l).map fun i => data (s.offset + 1 + i)
    let ending := if data offset ≠ 0 then '.'.toNat.toUInt8 else 0
    .inl { s with offset, dest := s.dest ++ label ++ [ending], total := count (1 + l) }

def decodeStart (offset : ℕ) : Decode := ⟨offset, [], true, 0⟩

/-- `decode_dotted(data, offset, dest, maxlen)` returns `r`; no memory is a null pointer. -/
def DecodeDotted (data : Option Memory) (offset : ℕ) (maxlen : ℤ) (r : Option ℕ) : Prop :=
  match data with
  | none => r = none
  | some data => Finishes (decodeTurn data maxlen) (decodeStart offset) r

/-- One turn of the loop in `length_dotted`, which leaves with the offset behind the name. -/
def lengthTurn (data : Memory) (offset : ℕ) : ℕ ⊕ ℕ :=
  let l := byteAt data offset
  if l = 0 then .inr (offset + 1)
  else if isPointer data offset then .inr (offset + 2)
  else .inl (offset + 1 + l)

/-- `length_dotted(data, offset)` returns `r`. -/
def LengthDotted (data : Option Memory) (offset : ℕ) (r : Option ℕ) : Prop :=
  match data with
  | none => r = none
  | some data => ∃ behind, Finishes (lengthTurn data) offset behind ∧ r = some (behind - offset)

/-- A place of a name: where it is read and how much of it is written. -/
structure Place where
  offset : ℕ
  used : ℕ

/-- What stands at a place leads to the next one: a pointer, or a label that still fits. -/
inductive Leads (data : Memory) (maxlen : ℤ) : Place → Place → Prop
  | pointer (p : Place) : isPointer data p.offset →
      Leads data maxlen p ⟨target data p.offset, p.used⟩
  | label (p : Place) : byteAt data p.offset ≠ 0 → ¬ isPointer data p.offset →
      p.used + byteAt data p.offset + 1 < maxlen →
      Leads data maxlen p ⟨p.offset + 1 + byteAt data p.offset,
        p.used + byteAt data p.offset + 1⟩

/-- Following pointers from `offset` leads back to `offset`. -/
def OnPointerCycle (data : Memory) (offset : ℕ) : Prop :=
  ∃ n, 0 < n ∧ (target data)^[n] offset = offset ∧
    ∀ k < n, isPointer data ((target data)^[k] offset)

section Turns

variable {data : Memory} {maxlen : ℤ} {s t : Decode} {o : ℕ}

def Decode.place (s : Decode) : Place := ⟨s.offset, s.dest.length⟩

theorem target_lt (data : Memory) (o : ℕ) : target data o < 2 ^ 14 := by
  have hlow : byteAt data o &&& 0x3f < 2 ^ 6 := Nat.and_lt_two_pow _ (by decide)
  have hbehind : byteAt data (o + 1) < 2 ^ 8 := (data (o + 1)).toNat_lt
  refine Nat.or_lt_two_pow ?_ (by omega)
  rw [Nat.shiftLeft_eq]
  omega

theorem byteAt_ne_zero_of_isPointer (h : isPointer data o = true) : byteAt data o ≠ 0 := by
  intro hzero
  simp [isPointer, hzero] at h

theorem decodeTurn_end (h : byteAt data s.offset = 0) :
    decodeTurn data maxlen s = .inr (some (if s.measure then s.total + 1 else s.total)) := by
  simp [decodeTurn, h]

theorem decodeTurn_pointer (h : isPointer data s.offset = true) :
    decodeTurn data maxlen s = .inl ⟨target data s.offset, s.dest, false,
      if s.measure then s.total + 2 else s.total⟩ := by
  simp [decodeTurn, byteAt_ne_zero_of_isPointer h, h]

theorem decodeTurn_label (h : byteAt data s.offset ≠ 0) (hlabel : isPointer data s.offset = false)
    (hfits : s.dest.length + byteAt data s.offset + 1 < maxlen) :
    ∃ dest, dest.length = s.dest.length + byteAt data s.offset + 1 ∧
      decodeTurn data maxlen s = .inl ⟨s.offset + 1 + byteAt data s.offset, dest, s.measure,
        if s.measure then s.total + (1 + byteAt data s.offset) else s.total⟩ := by
  simp [decodeTurn, h, hlabel, not_le.mpr hfits, Nat.add_assoc]

/-- A turn ends the name, follows a pointer, has no room for a label or copies one. -/
theorem decodeTurn_cases (data : Memory) (maxlen : ℤ) (s : Decode) :
    (byteAt data s.offset = 0 ∧ decodeTurn data maxlen s =
      .inr (some (if s.measure then s.total + 1 else s.total))) ∨
    (isPointer data s.offset = true ∧ decodeTurn data maxlen s =
      .inl ⟨target data s.offset, s.dest, false, if s.measure then s.total + 2 else s.total⟩) ∨
    decodeTurn data maxlen s = .inr none ∨
    (byteAt data s.offset ≠ 0 ∧ isPointer data s.offset = false ∧
      s.dest.length + byteAt data s.offset + 1 < maxlen ∧
      ∃ dest, dest.length = s.dest.length + byteAt data s.offset + 1 ∧
        decodeTurn data maxlen s = .inl ⟨s.offset + 1 + byteAt data s.offset, dest, s.measure,
          if s.measure then s.total + (1 + byteAt data s.offset) else s.total⟩) := by
  by_cases hne : byteAt data s.offset = 0
  · exact .inl ⟨hne, decodeTurn_end hne⟩
  · cases hpointer : isPointer data s.offset with
    | true => exact .inr (.inl ⟨rfl, decodeTurn_pointer hpointer⟩)
    | false =>
      rcases lt_or_ge (s.dest.length + byteAt data s.offset + 1 : ℤ) maxlen with hfits | hlong
      · exact .inr (.inr (.inr ⟨hne, rfl, hfits, decodeTurn_label hne hpointer hfits⟩))
      · exact .inr (.inr (.inl (by simp [decodeTurn, hne, hpointer, hlong])))

/-- The turns that go on are the steps from place to place. -/
theorem decodeTurn_of_leads {p : Place} (h : Leads data maxlen s.place p) :
    ∃ t, decodeTurn data maxlen s = .inl t ∧ t.place = p := by
  cases h with
  | pointer hpointer => exact ⟨_, decodeTurn_pointer hpointer, rfl⟩
  | label hne hlabel hfits =>
    obtain ⟨dest, hlength, hturn⟩ := decodeTurn_label hne (Bool.not_eq_true _ ▸ hlabel) hfits
    exact ⟨_, hturn, congrArg (Place.mk _) hlength⟩

theorem leads_of_decodeTurn (h : decodeTurn data maxlen s = .inl t) :
    Leads data maxlen s.place t.place := by
  rcases decodeTurn_cases data maxlen s with ⟨-, hturn⟩ | ⟨hpointer, hturn⟩ | hturn |
    ⟨hne, hlabel, hfits, dest, hlength, hturn⟩
  · cases hturn.symm.trans h
  · cases hturn.symm.trans h
    exact Leads.pointer s.place hpointer
  · cases hturn.symm.trans h
  · cases hturn.symm.trans h
    simp only [Decode.place, hlength]
    exact Leads.label s.place hne (by simpa [Decode.place] using hlabel) hfits

/-- A pointer keeps what is used, a label uses more and stays below `maxlen`. -/
theorem Leads.cases_used {p q : Place} (h : Leads data maxlen p q) :
    (isPointer data p.offset = true ∧ q = ⟨target data p.offset, p.used⟩) ∨
      (isPointer data p.offset = false ∧ p.used < q.used ∧ q.used < maxlen) := by
  cases h with
  | pointer hpointer => exact .inl ⟨hpointer, rfl⟩
  | label _ hlabel hfits =>
    exact .inr ⟨by simpa using hlabel, by simp only; omega, by push_cast; omega⟩

end Turns

section Cycles

variable {data : Memory} {maxlen : ℤ} {o : ℕ}

/-- Pointers without end come back to one of them, since a pointer has fourteen bits. -/
theorem exists_cycle (h : ∀ n, isPointer data ((target data)^[n] o) = true) :
    ∃ n, OnPointerCycle data ((target data)^[n] o) := by
  let visit : ℕ → Fin (2 ^ 14) := fun n => ⟨(target data)^[n + 1] o, by
    rw [Function.iterate_succ_apply']
    exact target_lt data _⟩
  obtain ⟨i, j, hij, hsame⟩ := Finite.exists_ne_map_eq_of_infinite visit
  have hback : ∀ {i j : ℕ}, i < j → (target data)^[i + 1] o = (target data)^[j + 1] o →
      ∃ n, OnPointerCycle data ((target data)^[n] o) := by
    intro i j hlt heq
    refine ⟨i + 1, j - i, by omega, ?_, ?_⟩
    · rw [← Function.iterate_add_apply, show j - i + (i + 1) = j + 1 by omega, heq]
    · intro k _
      rw [← Function.iterate_add_apply]
      exact h _
  have heq : (target data)^[i + 1] o = (target data)^[j + 1] o := congrArg Fin.val hsame
  rcases Nat.lt_or_gt_of_ne hij with hlt | hgt
  · exact hback hlt heq
  · exact hback hgt heq.symm

theorem isPointer_of_cycle (h : OnPointerCycle data o) (k : ℕ) :
    isPointer data ((target data)^[k] o) = true := by
  obtain ⟨n, hpos, hback, hpointer⟩ := h
  rw [← (show Function.IsPeriodicPt (target data) n o from hback).iterate_mod_apply k]
  exact hpointer _ (Nat.mod_lt k hpos)

theorem leads_iterate {u : ℕ} (h : ∀ k, isPointer data ((target data)^[k] o) = true) (n : ℕ) :
    ReflTransGen (Leads data maxlen) ⟨o, u⟩ ⟨(target data)^[n] o, u⟩ := by
  induction n with
  | zero => exact .refl
  | succ n ih =>
    rw [Function.iterate_succ_apply']
    exact ih.tail (Leads.pointer _ (h n))

/-- Where no cycle is in reach, some pointer of the chain is the last one. -/
theorem exists_last {p : Place}
    (h : ∀ q, ReflTransGen (Leads data maxlen) p q → ¬ OnPointerCycle data q.offset) :
    ∃ n, isPointer data ((target data)^[n] p.offset) = false := by
  by_contra hall
  push Not at hall
  have hpointer : ∀ k, isPointer data ((target data)^[k] p.offset) = true := by simpa using hall
  obtain ⟨n, hcycle⟩ := exists_cycle hpointer
  exact h _ (leads_iterate hpointer n) hcycle

/-- Labels use up `maxlen`, and the pointers in front of a label come to an end. -/
theorem finishes_of_no_cycle {s : Decode}
    (h : ∀ q, ReflTransGen (Leads data maxlen) s.place q → ¬ OnPointerCycle data q.offset) :
    ∃ r, Finishes (decodeTurn data maxlen) s r := by
  -- the outer induction is on the room for labels, the inner one on the chain of pointers
  induction hroom : (maxlen - s.dest.length).toNat using Nat.strong_induction_on
    generalizing s with
  | _ room ihlabel =>
    obtain ⟨n, hlast⟩ := exists_last h
    induction n generalizing s with
    | zero =>
      cases hturn : decodeTurn data maxlen s with
      | inr r => exact ⟨r, (finishes_iff_of_inr hturn).mpr rfl⟩
      | inl t =>
        have hleads := leads_of_decodeTurn hturn
        rcases hleads.cases_used with ⟨hpointer, -⟩ | ⟨-, hmore, hfits⟩
        · exact absurd hpointer (by simpa [Decode.place] using hlast)
        · simp only [Decode.place] at hmore hfits
          obtain ⟨r, hr⟩ := ihlabel (maxlen - t.dest.length).toNat (by omega)
            (fun q hq => h q (hq.head hleads)) rfl
          exact ⟨r, (finishes_iff_of_inl hturn).mpr hr⟩
    | succ n ih =>
      cases hturn : decodeTurn data maxlen s with
      | inr r => exact ⟨r, (finishes_iff_of_inr hturn).mpr rfl⟩
      | inl t =>
        have hleads := leads_of_decodeTurn hturn
        have hreach := fun q hq => h q (ReflTransGen.head hleads hq)
        obtain ⟨r, hr⟩ : ∃ r, Finishes (decodeTurn data maxlen) t r := by
          rcases hleads.cases_used with ⟨-, hplace⟩ | ⟨-, hmore, hfits⟩
          · simp only [Decode.place, Place.mk.injEq] at hplace
            refine ih hreach (by rw [hplace.2, hroom]) ?_
            simpa [Decode.place, hplace.1, Function.iterate_succ_apply] using hlast
          · simp only [Decode.place] at hmore hfits
            exact ihlabel (maxlen - t.dest.length).toNat (by omega) hreach rfl
        exact ⟨r, (finishes_iff_of_inl hturn).mpr hr⟩

theorem not_finishes_of_cycle {s : Decode} {r : Option ℕ} (h : OnPointerCycle data s.offset) :
    ¬ Finishes (decodeTurn data maxlen) s r := by
  refine not_finishes (fun s => ∀ k, isPointer data ((target data)^[k] s.offset) = true) ?_
    (isPointer_of_cycle h)
  intro s hs
  have hleads : Leads data maxlen s.place ⟨target data s.offset, s.dest.length⟩ :=
    Leads.pointer s.place (hs 0)
  obtain ⟨t, hturn, hplace⟩ := decodeTurn_of_leads hleads
  simp only [Decode.place, Place.mk.injEq] at hplace
  refine ⟨t, hturn, fun k => ?_⟩
  rw [hplace.1, ← Function.iterate_succ_apply]
  exact hs (k + 1)

/-- The loop comes to every place the name leads to. -/
theorem exists_place {s : Decode} {p : Place}
    (h : ReflTransGen (Leads data maxlen) s.place p) :
    ∃ t : Decode, t.place = p ∧ ∀ r, Finishes (decodeTurn data maxlen) s r →
      Finishes (decodeTurn data maxlen) t r := by
  induction h with
  | refl => exact ⟨s, rfl, fun r hr => hr⟩
  | tail _ hlead ih =>
    obtain ⟨t, rfl, hrun⟩ := ih
    obtain ⟨u, hturn, hplace⟩ := decodeTurn_of_leads hlead
    exact ⟨u, hplace, fun r hr => (finishes_iff_of_inl hturn).mp (hrun r hr)⟩

end Cycles

/-- `decode_dotted` returns exactly when the name leads to no cycle of compression pointers. -/
theorem decode_dotted_returns_iff (data : Option Memory) (offset : ℕ) (maxlen : ℤ) :
    (∃ r, DecodeDotted data offset maxlen r) ↔
      ∀ memory, data = some memory → ∀ p, ReflTransGen (Leads memory maxlen) ⟨offset, 0⟩ p →
        ¬ OnPointerCycle memory p.offset := by
  cases data with
  | none => simp [DecodeDotted]
  | some memory =>
    simp only [DecodeDotted, Option.some.injEq, forall_eq']
    constructor
    · intro hreturns p hp hcycle
      obtain ⟨r, hr⟩ := hreturns
      obtain ⟨t, rfl, hrun⟩ := exists_place (s := decodeStart offset) hp
      exact not_finishes_of_cycle hcycle (hrun r hr)
    · intro hno
      exact finishes_of_no_cycle (s := decodeStart offset) hno

def selfPointer : Memory := fun offset => if offset = 0 then 0xc0 else 0

theorem self_pointer_cycle : OnPointerCycle selfPointer 0 :=
  ⟨1, by decide, by decide, by decide⟩

theorem self_pointer_hangs : ¬ ∃ r, DecodeDotted (some selfPointer) 0 256 r := by
  intro hreturns
  obtain ⟨r, hr⟩ := hreturns
  exact not_finishes_of_cycle (s := decodeStart 0) self_pointer_cycle hr

section Lengths

variable {data : Memory} {maxlen : ℤ} {s t : Decode} {r : Option ℕ} {n : ℕ}

theorem lengthTurn_end {o : ℕ} (h : byteAt data o = 0) : lengthTurn data o = .inr (o + 1) := by
  simp [lengthTurn, h]

theorem lengthTurn_pointer {o : ℕ} (h : isPointer data o = true) :
    lengthTurn data o = .inr (o + 2) := by
  simp [lengthTurn, byteAt_ne_zero_of_isPointer h, h]

theorem lengthTurn_label {o : ℕ} (h : byteAt data o ≠ 0) (hlabel : isPointer data o = false) :
    lengthTurn data o = .inl (o + 1 + byteAt data o) := by
  simp [lengthTurn, h, hlabel]

/-- `length_dotted` skips from here what `decode_dotted` counts from here. -/
def Counts (data : Memory) (s : Decode) (n : ℕ) : Prop :=
  if s.measure then
    ∃ behind, Finishes (lengthTurn data) s.offset behind ∧ s.offset + n = s.total + behind
  else n = s.total

theorem counts_end (hzero : byteAt data s.offset = 0) :
    Counts data s (if s.measure then s.total + 1 else s.total) := by
  cases hmeasure : s.measure with
  | true =>
    simp only [Counts, hmeasure, if_true]
    exact ⟨s.offset + 1, (finishes_iff_of_inr (lengthTurn_end hzero)).mpr rfl, by omega⟩
  | false => simp [Counts, hmeasure]

theorem counts_pointer (hpointer : isPointer data s.offset = true) {o : ℕ} {dest : List UInt8}
    (h : Counts data ⟨o, dest, false, if s.measure then s.total + 2 else s.total⟩ n) :
    Counts data s n := by
  cases hmeasure : s.measure with
  | true =>
    simp only [Counts, hmeasure, if_true, Bool.false_eq_true, if_false] at h ⊢
    exact ⟨s.offset + 2, (finishes_iff_of_inr (lengthTurn_pointer hpointer)).mpr rfl, by omega⟩
  | false => simpa [Counts, hmeasure] using h

theorem counts_label (hne : byteAt data s.offset ≠ 0) (hlabel : isPointer data s.offset = false)
    {dest : List UInt8}
    (h : Counts data ⟨s.offset + 1 + byteAt data s.offset, dest, s.measure,
      if s.measure then s.total + (1 + byteAt data s.offset) else s.total⟩ n) :
    Counts data s n := by
  cases hmeasure : s.measure with
  | true =>
    simp only [Counts, hmeasure, if_true] at h ⊢
    obtain ⟨behind, hbehind, htotal⟩ := h
    exact ⟨behind, (finishes_iff_of_inl (lengthTurn_label hne hlabel)).mpr hbehind, by omega⟩
  | false => simpa [Counts, hmeasure] using h

theorem counts_of_finishes (h : Finishes (decodeTurn data maxlen) s r) (hr : r = some n) :
    Counts data s n := by
  refine finishes_induction (P := fun s r => r = some n → Counts data s n) ?_ ?_ h hr
  · intro s r hexit hr
    rcases decodeTurn_cases data maxlen s with ⟨hzero, hturn⟩ | ⟨-, hturn⟩ | hturn |
      ⟨-, -, -, dest, -, hturn⟩
    · cases hturn.symm.trans hexit
      rw [← Option.some.inj hr]
      exact counts_end hzero
    all_goals
      cases hturn.symm.trans hexit
    cases hr
  · intro s t r hnext ih hr
    rcases decodeTurn_cases data maxlen s with ⟨-, hturn⟩ | ⟨hpointer, hturn⟩ | hturn |
      ⟨hne, hlabel, -, dest, -, hturn⟩
    · cases hturn.symm.trans hnext
    · cases hturn.symm.trans hnext
      exact counts_pointer hpointer (ih hr)
    · cases hturn.symm.trans hnext
    · cases hturn.symm.trans hnext
      exact counts_label hne hlabel (ih hr)

/-- Skipping a name and decoding it leave the reader at the same place. -/
theorem length_dotted_eq_decode_dotted {data : Option Memory} {offset : ℕ} {maxlen : ℤ} {n : ℕ}
    (h : DecodeDotted data offset maxlen (some n)) (r : Option ℕ) :
    LengthDotted data offset r ↔ r = some n := by
  cases data with
  | none => cases h
  | some data =>
    obtain ⟨behind, hbehind, htotal⟩ : ∃ behind, Finishes (lengthTurn data) offset behind ∧
      offset + n = 0 + behind := counts_of_finishes h rfl
    have hn : behind - offset = n := by omega
    constructor
    · intro hlength
      obtain ⟨other, hother, rfl⟩ := hlength
      rw [← finishes_unique hbehind hother, hn]
    · intro hr
      exact ⟨behind, hbehind, by rw [hr, hn]⟩

end Lengths

def labelAndPointer : Memory := fun offset => [1, 0x61, 0xc0, 4, 0].getD offset 0

theorem label_and_pointer_lengths : LengthDotted (some labelAndPointer) 0 (some 4) :=
  (@length_dotted_eq_decode_dotted (some labelAndPointer) 0 256 4 ⟨3, by decide⟩ (some 4)).mpr rfl

end DnsName
