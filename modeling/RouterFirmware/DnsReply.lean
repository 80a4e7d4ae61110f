import RouterFirmware.DnsMessage

/-! # Replies

A reply has a header, questions and answers. `dns_lookup` skips the questions and takes the first
answer that is no signature. Name servers point back to the name in the first question or spell a
name out; either way the answer is read as it was written. -/
namespace DnsMessage

open LoopRun DnsName

structure Question where
  dotted : List UInt8
  qtype : ℕ
  qclass : ℕ

def encodeQuestion (q : Question) (maxlen : ℤ) : Option (List UInt8) :=
  (encodeDotted q.dotted maxlen).bind fun name =>
    if maxlen - name.length < 4 then none
    else some (name ++ wordBytes q.qtype ++ wordBytes q.qclass)

/-- `length_question(message, offset)` returns `r`. -/
def LengthQuestion (data : Memory) (offset : ℕ) (r : Option ℕ) : Prop :=
  ∃ i, LengthDotted (some data) offset i ∧ r = i.map (· + 4)

/-- `resolv_answer`; `ttl` as the bits of an `int`, `rdata` as its offset. -/
structure Answer where
  dotted : List UInt8
  atype : ℕ
  aclass : ℕ
  ttl : UInt32
  rdlength : ℕ
  rdoffset : ℕ
  deriving DecidableEq

def rrfixedsz : ℕ := 10

def tSig : ℕ := 24

def longAt (data : Memory) (o : ℕ) : UInt32 :=
  UInt32.ofNat (byteAt data o <<< 24 ||| byteAt data (o + 1) <<< 16 ||| byteAt data (o + 2) <<< 8 |||
    byteAt data (o + 3))

/-- The fields that `decode_answer` fills in behind a name of `i` bytes. -/
def answerAt (data : Memory) (offset i : ℕ) (temp : List UInt8) : Answer :=
  let message := offset + i
  { dotted := temp.takeWhile (· ≠ 0)
    atype := wordAt data message
    aclass := wordAt data (message + 2)
    ttl := longAt data (message + 4)
    rdlength := wordAt data (message + 8)
    rdoffset := offset + i + rrfixedsz }

/-- `decode_answer(message, offset, a)` leaves `a` and returns a length. -/
def DecodeAnswer (data : Memory) (offset : ℕ) (r : Option (Answer × ℕ)) : Prop :=
  ∃ name, ReadsName data offset 256 name ∧ r = name.map fun (i, temp) =>
    let a := answerAt data offset i temp
    (a, i + rrfixedsz + a.rdlength)

/-- The loop of `dns_lookup` over the questions; `none` where it tries again. -/
def SkipQuestions (data : Memory) : ℕ → ℕ → Option ℕ → Prop
  | 0, pos, r => r = some pos
  | n + 1, pos, r => ∃ i, LengthQuestion data pos i ∧
      match i with
      | none => r = none
      | some i => SkipQuestions data n (pos + i) r

/-- The loop over the answers. `last` is a signature that was skipped; where no answer follows, it
is what the caller gets, with its name already freed. -/
def ReadAnswers (data : Memory) : ℕ → ℕ → Option Answer → Option Answer → Prop
  | 0, _, last, r => r = last
  | n + 1, pos, _, r => ∃ q, DecodeAnswer data pos q ∧
      match q with
      | none => r = none
      | some (a, i) => if a.atype ≠ tSig then r = some a else ReadAnswers data n (pos + i) (some a) r

/-- What `dns_lookup` makes of `received` bytes; `none` where it tries again. -/
def ReadReply (data : Memory) (received id : ℕ) (r : Option Answer) : Prop :=
  let h := decodeHeader data
  if received < hfixedsz ∨ h.id ≠ id ∨ h.qr = 0 ∨ h.rcode ≠ 0 ∨ h.ancount < 1 then r = none
  else ∃ pos, SkipQuestions data h.qdcount hfixedsz pos ∧
    match pos with
    | none => r = none
    | some pos => ReadAnswers data h.ancount pos none r

/-! ## Replies as they are written -/

/-- An answer before it is written; `pointed` has its name as a pointer to the first question. -/
structure Record where
  name : List UInt8
  pointed : Bool
  atype : ℕ
  aclass : ℕ
  ttl : UInt32
  rdata : List UInt8

def longBytes (x : UInt32) : List UInt8 :=
  wordBytes (x.toNat >>> 16) ++ wordBytes (x.toNat % 65536)

def Record.NameBytes (first : Option Question) (a : Record) (bytes : List UInt8) : Prop :=
  if a.pointed then (∃ q, first = some q ∧ a.name = q.dotted) ∧ bytes = [0xc0, 12]
  else ∃ maxlen, encodeDotted a.name maxlen = some bytes

def Record.Written (first : Option Question) (a : Record) (bytes : List UInt8) : Prop :=
  ∃ name, a.NameBytes first name ∧ bytes = name ++ (wordBytes a.atype ++ (wordBytes a.aclass ++
    (longBytes a.ttl ++ (wordBytes a.rdata.length ++ a.rdata))))

/-- What the fields have room for, and names that can be read back. -/
structure Record.Fits (a : Record) : Prop where
  nul : 0 ∉ a.name
  regular : Regular a.name
  short : a.name.length < 255
  fields : a.atype < 65536 ∧ a.aclass < 65536 ∧ a.rdata.length < 65536

section Parts

variable {data : Memory} {maxlen : ℤ} {o pos : ℕ} {bytes : List UInt8}

theorem wordAt_of_lt {x : ℕ} (h : Holds data o (wordBytes x)) (hx : x < 65536) :
    wordAt data o = x :=
  (wordAt_wordBytes h).trans (Nat.mod_eq_of_lt hx)

theorem longAt_longBytes {x : UInt32} (h : Holds data o (longBytes x)) : longAt data o = x := by
  obtain ⟨hhigh, hlow⟩ := holds_append.mp h
  have hlt := x.toNat_lt
  have hhigh' : wordAt data o = x.toNat / 65536 := by
    rw [wordAt_of_lt hhigh, Nat.shiftRight_eq_div_pow]
    rw [Nat.shiftRight_eq_div_pow]
    omega
  have hlow' : wordAt data (o + 2) = x.toNat % 65536 :=
    wordAt_of_lt hlow (Nat.mod_lt _ (by decide))
  have hwords : byteAt data o <<< 24 ||| byteAt data (o + 1) <<< 16 ||| byteAt data (o + 2) <<< 8 |||
      byteAt data (o + 3) = wordAt data o <<< 16 ||| wordAt data (o + 2) := by
    rw [wordAt, wordAt, Nat.shiftLeft_or_distrib, ← Nat.shiftLeft_add, ← Nat.or_assoc]
  rw [longAt, hwords, hhigh', hlow', ← Nat.shiftLeft_add_eq_or_of_lt (Nat.mod_lt _ (by decide)),
    Nat.shiftLeft_eq, Nat.div_add_mod', UInt32.ofNat_toNat]

theorem lengthQuestion_iff {q : Question} (hnul : 0 ∉ q.dotted) (hregular : Regular q.dotted)
    (henc : encodeQuestion q maxlen = some bytes) (hholds : Holds data pos bytes) (r : Option ℕ) :
    LengthQuestion data pos r ↔ r = some bytes.length := by
  obtain ⟨name, hname, h⟩ := Option.bind_eq_some_iff.mp henc
  split at h
  · cases h
  · cases h
    rw [holds_append, holds_append] at hholds
    have hlength := lengthDotted_of_regular hnul hname hholds.1.1 hregular
    simp only [LengthQuestion, hlength, exists_eq_left, List.length_append]
    rfl

/-- The name of the first question stands behind the header. -/
def FirstName (data : Memory) (first : Option Question) : Prop :=
  ∀ q, first = some q → ∃ maxlen bytes, encodeDotted q.dotted maxlen = some bytes ∧
    Holds data hfixedsz bytes

theorem readsName_nameBytes {first : Option Question} {a : Record} {name : List UInt8}
    (hfits : a.Fits) (hfirst : FirstName data first) (hname : a.NameBytes first name)
    (hholds : Holds data pos name) :
    ReadsName data pos 256 (some (name.length, a.name ++ [0])) := by
  have hroom : (a.name.length : ℤ) + 1 < 256 := by
    have := hfits.short
    omega
  rw [Record.NameBytes] at hname
  split at hname
  · obtain ⟨⟨q, hq, hdotted⟩, rfl⟩ := hname
    obtain ⟨maxlen, bytes, henc, hbytes⟩ := hfirst q hq
    rw [← hdotted] at henc
    have hread := (readsName_iff hfits.nul henc hbytes).mpr ⟨hfits.regular, hroom⟩
    simp only [holds_cons] at hholds
    obtain ⟨hhigh, hlow, -⟩ := hholds
    have hpointer : isPointer data pos = true := by rw [isPointer, byteAt, hhigh]; rfl
    have htarget : target data pos = hfixedsz := by
      rw [target, byteAt, byteAt, hhigh, hlow]
      rfl
    have hturn := @readTurn_pointer _ 256 (decodeStart pos) hpointer
    refine (finishes_iff_of_inl hturn).mpr ?_
    simp only [decodeStart, htarget, if_true]
    exact @reads_unmeasured _ _ _ _ _ 2 hread
  · obtain ⟨maxlen, henc⟩ := hname
    exact (readsName_iff hfits.nul henc hholds).mpr ⟨hfits.regular, hroom⟩

/-- What `decode_answer` is to make of a record whose data are at `rdoffset`. -/
def Record.answer (a : Record) (rdoffset : ℕ) : Answer :=
  ⟨a.name, a.atype, a.aclass, a.ttl, a.rdata.length, rdoffset⟩

theorem decodeAnswer_iff {first : Option Question} {a : Record} (hfits : a.Fits)
    (hfirst : FirstName data first) (hwritten : a.Written first bytes)
    (hholds : Holds data pos bytes) : ∃ offset, Holds data offset a.rdata ∧
      ∀ r, DecodeAnswer data pos r ↔ r = some (a.answer offset, bytes.length) := by
  obtain ⟨name, hname, rfl⟩ := hwritten
  obtain ⟨hstart, hfields⟩ := holds_append.mp hholds
  obtain ⟨htype, hfields⟩ := holds_append.mp hfields
  obtain ⟨hclass, hfields⟩ := holds_append.mp hfields
  obtain ⟨httl, hfields⟩ := holds_append.mp hfields
  obtain ⟨hlength, hrdata⟩ := holds_append.mp hfields
  have hread := readsName_nameBytes hfits hfirst hname hstart
  have hdotted : (a.name ++ [0]).takeWhile (· ≠ 0) = a.name := by
    have hall : ∀ c ∈ a.name, decide (c ≠ 0) = true := fun c hc =>
      decide_eq_true fun e => hfits.nul (e ▸ hc)
    rw [List.takeWhile_append_of_pos hall]
    simp
  obtain ⟨ht, hc, hl⟩ := hfits.fields
  have hanswer : answerAt data pos name.length (a.name ++ [0]) =
      a.answer (pos + name.length + rrfixedsz) := by
    have htype' : wordAt data (pos + name.length) = a.atype := wordAt_of_lt htype ht
    have hclass' : wordAt data (pos + name.length + 2) = a.aclass := wordAt_of_lt hclass hc
    have httl' : longAt data (pos + name.length + 4) = a.ttl := longAt_longBytes httl
    have hlength' : wordAt data (pos + name.length + 8) = a.rdata.length :=
      wordAt_of_lt hlength hl
    simp only [answerAt, Record.answer, hdotted, htype', hclass', httl', hlength']
  have hbytes : (name ++ (wordBytes a.atype ++ (wordBytes a.aclass ++ (longBytes a.ttl ++
      (wordBytes a.rdata.length ++ a.rdata))))).length = name.length + rrfixedsz + a.rdata.length := by
    simp only [List.length_append, wordBytes, longBytes, List.length_cons, List.length_nil, rrfixedsz]
    omega
  refine ⟨pos + name.length + rrfixedsz, hrdata, fun r => ⟨?_, ?_⟩⟩
  · rintro ⟨q, hq, rfl⟩
    rw [finishes_unique hq hread, hbytes]
    simp only [Option.map_some, hanswer]
    rfl
  · rintro rfl
    refine ⟨_, hread, ?_⟩
    rw [hbytes]
    simp only [Option.map_some, hanswer]
    rfl

end Parts

section Reply

variable {data : Memory} {pos n : ℕ} {r : Option Answer}

def Question.Written (q : Question) (bytes : List UInt8) : Prop :=
  0 ∉ q.dotted ∧ Regular q.dotted ∧ ∃ maxlen, encodeQuestion q maxlen = some bytes

theorem skipQuestions_iff {questions : List Question} {parts : List (List UInt8)}
    (h : List.Forall₂ Question.Written questions parts) (hholds : Holds data pos parts.flatten)
    (r : Option ℕ) :
    SkipQuestions data questions.length pos r ↔ r = some (pos + parts.flatten.length) := by
  induction h generalizing pos with
  | nil => rfl
  | cons hq _ ih =>
    obtain ⟨hnul, hregular, maxlen, henc⟩ := hq
    rw [List.flatten_cons, holds_append] at hholds
    simp only [List.length_cons, SkipQuestions, lengthQuestion_iff hnul hregular henc hholds.1,
      exists_eq_left, ih hholds.2, List.flatten_cons, List.length_append, Nat.add_assoc]

theorem readAnswers_iff {first : Option Question} (hfirst : FirstName data first)
    {sigs others : List Record} {a : Record} {parts : List (List UInt8)} (last : Option Answer)
    (h : List.Forall₂ (fun a bytes => a.Fits ∧ Record.Written first a bytes) (sigs ++ a :: others)
      parts) (hsigs : ∀ sig ∈ sigs, sig.atype = tSig) (ha : a.atype ≠ tSig)
    (hholds : Holds data pos parts.flatten) : ∃ offset, Holds data offset a.rdata ∧
      ∀ r, ReadAnswers data (sigs ++ a :: others).length pos last r ↔
        r = some (a.answer offset) := by
  induction sigs generalizing pos parts last with
  | nil =>
    cases h with
    | cons hwritten _ =>
      rw [List.flatten_cons, holds_append] at hholds
      obtain ⟨offset, hrdata, hanswer⟩ := decodeAnswer_iff hwritten.1 hfirst hwritten.2 hholds.1
      refine ⟨offset, hrdata, fun r => ?_⟩
      simp only [List.nil_append, List.length_cons, ReadAnswers, hanswer, exists_eq_left]
      rw [if_pos (show (a.answer offset).atype ≠ tSig from ha)]
  | cons sig sigs ih =>
    cases h with
    | cons hwritten hrest =>
      rw [List.flatten_cons, holds_append] at hholds
      obtain ⟨offset, -, hanswer⟩ := decodeAnswer_iff hwritten.1 hfirst hwritten.2 hholds.1
      have hsig : sig.atype = tSig := hsigs sig List.mem_cons_self
      obtain ⟨found, hrdata, hfound⟩ := ih (some (sig.answer offset)) hrest
        (fun x hx => hsigs x (List.mem_cons_of_mem _ hx)) hholds.2
      refine ⟨found, hrdata, fun r => ?_⟩
      simp only [List.cons_append, List.length_cons, ReadAnswers, hanswer, exists_eq_left]
      rw [if_neg (show ¬ (sig.answer offset).atype ≠ tSig from fun h => h hsig)]
      exact hfound r

theorem firstName_of_questions {questions : List Question} {parts : List (List UInt8)}
    (h : List.Forall₂ Question.Written questions parts)
    (hholds : Holds data hfixedsz parts.flatten) : FirstName data questions.head? := by
  cases h with
  | nil => nofun
  | cons hq _ =>
    rintro q hhead
    cases hhead
    obtain ⟨-, -, maxlen, henc⟩ := hq
    obtain ⟨name, hname, hrest⟩ := Option.bind_eq_some_iff.mp henc
    split at hrest
    · cases hrest
    · cases hrest
      rw [List.flatten_cons, holds_append, holds_append, holds_append] at hholds
      exact ⟨maxlen, name, hname, hholds.1.1.1⟩

/-- A reply with no error is read as the first of its answers that is no signature, with the name,
numbers and data that were written, whether names are spelled out or point to the question. -/
theorem reply_read {h : Header} {questions : List Question} {sigs others : List Record} {a : Record}
    {head : List UInt8} {qparts aparts : List (List UInt8)} {maxlen : ℤ} {received : ℕ}
    (hfits : h.Fits) (hok : h.qr = 1 ∧ h.rcode = 0)
    (hcounts : h.qdcount = questions.length ∧ h.ancount = (sigs ++ a :: others).length)
    (hhead : encodeHeader h maxlen = some head)
    (hquestions : List.Forall₂ Question.Written questions qparts)
    (hrecords : List.Forall₂ (fun a bytes => a.Fits ∧ Record.Written questions.head? a bytes)
      (sigs ++ a :: others) aparts)
    (hsigs : ∀ sig ∈ sigs, sig.atype = tSig) (ha : a.atype ≠ tSig)
    (hholds : Holds data 0 (head ++ (qparts.flatten ++ aparts.flatten)))
    (hreceived : hfixedsz ≤ received) :
    ∃ offset, Holds data offset a.rdata ∧
      ∀ r, ReadReply data received h.id r ↔ r = some (a.answer offset) := by
  obtain ⟨hheader, hsections⟩ := holds_append.mp hholds
  have hlength : 0 + head.length = hfixedsz := by
    rw [encodeHeader] at hhead
    split at hhead
    · cases hhead
    · cases hhead
      rfl
  rw [hlength] at hsections
  obtain ⟨hqs, has⟩ := holds_append.mp hsections
  have hdecoded : decodeHeader data = h := (header_round_trip hhead hheader).mpr hfits
  obtain ⟨offset, hrdata, hanswers⟩ := readAnswers_iff (firstName_of_questions hquestions hqs) none
    hrecords hsigs ha has
  refine ⟨offset, hrdata, fun r => ?_⟩
  have hgo : ¬ (received < hfixedsz ∨ h.id ≠ h.id ∨ h.qr = 0 ∨ h.rcode ≠ 0 ∨ h.ancount < 1) := by
    have hsome : 0 < (sigs ++ a :: others).length := by simp
    rw [← hcounts.2] at hsome
    rw [hok.1, hok.2]
    omega
  simp only [ReadReply, hdecoded]
  rw [if_neg hgo]
  simp only [hcounts.1, hcounts.2, skipQuestions_iff hquestions hqs, exists_eq_left]
  exact hanswers r

/-- One question, and an answer that points to its name. -/
theorem reply_read_one : ∃ (data : Memory) (offset : ℕ),
    Holds data 0 [0, 7, 0x81, 0x80, 0, 1, 0, 1, 0, 0, 0, 0, 2, 97, 98, 1, 99, 0, 0, 1, 0, 1,
      0xc0, 12, 0, 1, 0, 1, 0, 0, 1, 0, 0, 4, 192, 168, 1, 9] ∧
    Holds data offset [192, 168, 1, 9] ∧
    ReadReply data 38 7 (some ⟨[97, 98, 46, 99], 1, 1, 256, 4, offset⟩) := by
  have hq : Question.Written ⟨[97, 98, 46, 99], 1, 1⟩ [2, 97, 98, 1, 99, 0, 0, 1, 0, 1] := by
    refine ⟨by decide, by decide, 64, ?_⟩
    rw [encodeQuestion, encodeDotted_two_labels]
    decide
  have ha : Record.Written (some ⟨[97, 98, 46, 99], 1, 1⟩)
      ⟨[97, 98, 46, 99], true, 1, 1, 256, [192, 168, 1, 9]⟩
      [0xc0, 12, 0, 1, 0, 1, 0, 0, 1, 0, 0, 4, 192, 168, 1, 9] :=
    ⟨[0xc0, 12], ⟨⟨_, rfl, rfl⟩, rfl⟩, by decide⟩
  have hfits : Record.Fits ⟨[97, 98, 46, 99], true, 1, 1, 256, [192, 168, 1, 9]⟩ :=
    ⟨by decide, by decide, by decide, by decide⟩
  have hrecords : List.Forall₂ (fun a bytes => a.Fits ∧
      Record.Written (some ⟨[97, 98, 46, 99], 1, 1⟩) a bytes) ([] ++ [_]) [_] :=
    .cons ⟨hfits, ha⟩ .nil
  obtain ⟨offset, hrdata, hread⟩ := @reply_read _ ⟨7, 1, 0, 0, 0, 1, 1, 0, 1, 1, 0, 0⟩ _ [] [] _
    [0, 7, 0x81, 0x80, 0, 1, 0, 1, 0, 0, 0, 0] _ _ 512 38
    ⟨by decide, by decide, by decide, by decide⟩ (by decide) (by decide) (by decide)
    (.cons hq .nil) hrecords nofun (by decide) (holds_getD _) (by decide)
  exact ⟨_, offset, holds_getD _, hrdata, (hread _).mpr rfl⟩

end Reply

end DnsMessage
