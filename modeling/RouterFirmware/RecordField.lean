import RouterFirmware.TextStream
import RouterFirmware.CString

/-! # Replacing a field of a record

A record is fields `name="value"` joined by `&`. `ReplaceValue` looks for the field with `strstr`
and for its end with a loop that waits for `&`. It builds the new record in a local array and
returns its address.
-/
namespace RecordField

open TextStream CString

/-- The sizes of `str1`, `str2` and `databuf`, and of `var1`. -/
def bufSize : ℕ := 1024
def varSize : ℕ := 128

/-- `"\"%s\""` -/
def quoted (var : Text) : Text := '"' :: var ++ ['"']

/-- What `ReplaceValue` builds in `databuf`; nothing where it returns `string`. `str2` holds nothing
behind the NUL. -/
def fillDatabuf (string varname var : Text) : Except Fault (Option Text) :=
  if string.length < varname.length ∨ string.length = 0 then .ok none
  else if varSize < (quoted var).length + 1 ∨ bufSize < string.length + 1 then
    .error .writePastEnd
  else match strstr varname string with
    | none => .ok none
    | some (str1, str2) => do
      let i ← seek (· == '&') str2 0
      let databuf := str1 ++ varname ++ '=' :: quoted var ++ str2.drop i
      if bufSize < databuf.length + 1 then .error .writePastEnd
      else .ok (some databuf)

def replaceValue (string varname var : Text) : Except Fault (Address Text) := do
  match ← fillDatabuf string varname var with
  | none => return .live string
  | some databuf => return .ofLocal databuf

/-- The text of a value. -/
abbrev Value := { v : Text // ∀ c ∈ v, c ∉ ['&', '"', '\x00'] }

structure Field where
  name : Text
  value : Value
  ne : name ≠ []
  chars : ∀ c ∈ name, c ∉ ['=', '&', '"', '\x00']

def Field.text (f : Field) : Text := f.name ++ '=' :: quoted f.value.val

def Field.set (f : Field) (v : Value) : Field := { f with value := v }

/-- Fields joined by `&`. -/
def record : List Field → Text
  | [] => []
  | [f] => f.text
  | f :: g :: fs => f.text ++ '&' :: record (g :: fs)

def Field.shows (f : Field) (name : Text) : Bool := (strstr name f.text).isSome

/-- What is found first is the field, and another one follows; or it is the end of the name of an
earlier field, and neither field has another value. -/
def Located (f : Field) (v : Value) (after : List Field) : List Field → Prop
  | [] => after ≠ []
  | g :: before => if g.shows f.name then
      (strstr f.name g.name).map Prod.snd = some f.name ∧ g.value = v ∧ f.value = v
    else Located f v after before

instance decidableLocated (f : Field) (v : Value) (after : List Field) :
    (before : List Field) → Decidable (Located f v after before)
  | [] => decidable_of_iff (after.isEmpty = false) (by cases after <;> simp [Located])
  | g :: before =>
    have := decidableLocated f v after before
    inferInstanceAs (Decidable (if g.shows f.name then
      (strstr f.name g.name).map Prod.snd = some f.name ∧ g.value = v ∧ f.value = v
      else Located f v after before))

section Fields

variable {f g : Field} {v : Value} {before after : List Field} {t : Text}

theorem Field.not_mem_name (f : Field) {c : Char} (hc : c ∈ ['=', '&', '"', '\x00']) :
    c ∉ f.name := fun hm => f.chars c hm hc

theorem Value.not_mem (v : Value) {c : Char} (hc : c ∈ ['&', '"', '\x00']) : c ∉ v.val :=
  fun hm => v.property c hm hc

theorem not_mem_quoted (v : Value) : '&' ∉ quoted v.val := by
  simp [quoted, Value.not_mem v]

theorem not_mem_text (f : Field) : '&' ∉ f.text := by
  simp [Field.text, f.not_mem_name, not_mem_quoted]

theorem record_cons (hne : after ≠ []) : record (f :: after) = f.text ++ '&' :: record after := by
  cases after with
  | nil => exact absurd rfl hne
  | cons g after => rfl

theorem count_quoted (v : Value) : (quoted v.val).count '"' = 2 := by
  have hv : v.val.count '"' = 0 := List.count_eq_zero.mpr (Value.not_mem v (by simp))
  rw [quoted, List.count_append, List.count_cons_self, hv]
  rfl

theorem quoted_inj {a b : Text} (h : quoted a = quoted b) : a = b :=
  List.append_cancel_right (List.cons.inj h).2

theorem text_set_eq_iff : f.text = (f.set v).text ↔ f.value = v := by
  constructor
  · intro h
    exact Subtype.ext (quoted_inj (List.cons.inj (List.append_cancel_left h)).2)
  · intro h
    rw [← h]
    rfl

theorem record_set_eq_iff (before after : List Field) :
    record (before ++ f :: after) = record (before ++ f.set v :: after) ↔ f.value = v := by
  rw [← text_set_eq_iff]
  induction before with
  | nil =>
    cases after with
    | nil => exact Iff.rfl
    | cons g after =>
      constructor
      · exact fun h => List.append_cancel_right h
      · intro h
        exact congrArg (· ++ '&' :: record (g :: after)) h
  | cons g before ih =>
    rw [List.cons_append, List.cons_append, record_cons (by simp), record_cons (by simp), ← ih,
      List.append_cancel_left_eq, List.cons_inj_right]

/-- What `ReplaceValue` builds when its buffers hold everything. -/
def replaced (varname var string : Text) : Except Fault Text :=
  match strstr varname string with
  | none => .ok string
  | some (str1, str2) => do
    let i ← seek (· == '&') str2 0
    return str1 ++ varname ++ '=' :: quoted var ++ str2.drop i

theorem fillDatabuf_eq_ok_iff {name var s e : Text} (hne : name ≠ [])
    (hin : (strstr name s).isSome) (hlen : s.length < bufSize) :
    fillDatabuf s name var = .ok (some e) ↔ (quoted var).length < varSize ∧ e.length < bufSize ∧
      replaced name var s = .ok e := by
  obtain ⟨⟨a, b⟩, hfound⟩ := Option.isSome_iff_exists.mp hin
  obtain ⟨rfl, hstart⟩ := strstr_spec hfound
  have hname := hstart.length_le
  have hpos := List.length_pos_of_ne_nil hne
  rw [List.length_append] at hlen
  rw [fillDatabuf, if_neg (by rw [List.length_append]; omega)]
  by_cases hvar : (quoted var).length < varSize
  · rw [if_neg (by rw [List.length_append]; omega), replaced, hfound]
    dsimp only
    cases seek (· == '&') b 0 with
    | error f => exact iff_of_false (by intro h; cases h) (fun h => by cases h.2.2)
    | ok i =>
      have hok : ∀ out : Text,
          (if bufSize < out.length + 1 then Except.error Fault.writePastEnd else .ok (some out)) =
            .ok (some e) ↔
            e.length < bufSize ∧ (Except.ok out : Except Fault Text) = .ok e := by
        intro out
        split
        · next hlong =>
          refine iff_of_false (by intro h; cases h) ?_
          intro h
          obtain ⟨hshort, hout⟩ := h
          cases hout
          omega
        · next hshort =>
          constructor
          · intro h
            cases h
            exact ⟨by omega, rfl⟩
          · intro h
            cases h.2
            rfl
      exact (hok _).trans (and_iff_right hvar).symm
  · rw [if_pos (.inl (by omega))]
    exact iff_of_false (by intro h; cases h) (fun h => hvar h.1)

/-- The name stands in the record, so `ReplaceValue` does not return `string`. -/
theorem fillDatabuf_ne_none {name var s : Text} (hne : name ≠ [])
    (hin : (strstr name s).isSome) : fillDatabuf s name var ≠ .ok none := by
  obtain ⟨⟨a, b⟩, hfound⟩ := Option.isSome_iff_exists.mp hin
  obtain ⟨rfl, hstart⟩ := strstr_spec hfound
  have hname := hstart.length_le
  have hpos := List.length_pos_of_ne_nil hne
  rw [fillDatabuf, if_neg (by rw [List.length_append]; omega), hfound]
  split
  · simp
  · intro h
    dsimp only at h
    cases hseek : seek (· == '&') b 0 with
    | error e =>
      rw [hseek] at h
      cases h
    | ok i =>
      rw [hseek] at h
      change (if _ then _ else _) = _ at h
      split at h <;> cases h

theorem strstr_text (hne : t ≠ []) (ht : '=' ∉ t) (g : Field) : strstr t g.text =
    ((strstr t g.name).map fun p => (p.1, p.2 ++ '=' :: quoted g.value.val)).or
      ((strstr t (quoted g.value.val)).map fun p => (g.name ++ '=' :: p.1, p.2)) :=
  strstr_append hne ht _ _

/-- Writing over the first place gives the field back only if that place ends its name. -/
theorem overwrite_eq_iff {a b : Text} (hg : strstr f.name g.text = some (a, b)) :
    a ++ f.name ++ '=' :: quoted v.val = g.text ↔
      (strstr f.name g.name).map Prod.snd = some f.name ∧ g.value = v := by
  rw [strstr_text f.ne (f.not_mem_name (by simp))] at hg
  have heq : '=' ∉ f.name := f.not_mem_name (by simp)
  cases hname : strstr f.name g.name with
  | some p =>
    obtain ⟨u, w⟩ := p
    rw [hname] at hg
    obtain ⟨rfl, -⟩ := Prod.mk.inj (Option.some.inj hg)
    obtain ⟨hsplit, -⟩ := strstr_spec hname
    have ha : '=' ∉ u ++ f.name := by
      intro hm
      rcases List.mem_append.mp hm with hm | hm
      · exact g.not_mem_name (by simp) (hsplit ▸ List.mem_append_left _ hm)
      · exact heq hm
    constructor
    · intro h
      obtain ⟨hleft, hright⟩ := append_cons_inj ha (g.not_mem_name (by simp)) h
      rw [hsplit] at hleft
      refine ⟨?_, Subtype.ext (quoted_inj hright).symm⟩
      rw [List.append_cancel_left hleft, Option.map_some]
    · intro h
      obtain ⟨hend, rfl⟩ := h
      obtain rfl : w = f.name := Option.some.inj hend
      rw [Field.text, hsplit]
  | none =>
    rw [hname, Option.map_none, Option.none_or, Option.map_eq_some_iff] at hg
    obtain ⟨⟨u, w⟩, hvalue, hp⟩ := hg
    obtain ⟨rfl, rfl⟩ := Prod.mk.inj hp
    refine iff_of_false ?_ (by simp)
    intro h
    obtain ⟨hsplit, hstart⟩ := strstr_spec hvalue
    rw [List.append_assoc, List.append_assoc, List.cons_append, Field.text] at h
    have hright := (List.cons.inj (List.append_cancel_left h)).2
    -- a value has no quote, but the text written over it would have two
    have hcount := congrArg (List.count '"') hright
    rw [List.count_append, List.count_append, List.count_cons_of_ne (by decide), count_quoted,
      count_quoted] at hcount
    cases u with
    | nil =>
      rw [List.nil_append] at hsplit
      rw [← hsplit] at hstart
      obtain ⟨c, r, hname⟩ := List.exists_cons_of_ne_nil f.ne
      rw [hname] at hstart
      have hc : c = '"' := (List.cons_prefix_cons.mp hstart).1
      exact f.not_mem_name (c := '"') (by simp) (by simp [hname, hc])
    | cons c u =>
      obtain rfl : c = '"' := (List.cons.inj hsplit).1.symm
      rw [List.count_cons_self] at hcount
      omega

/-- The first field that shows the name is the one that is overwritten, up to its end. -/
theorem replaced_shown (hg : g.shows f.name = true) (t : Text) :
    ∃ a b, strstr f.name g.text = some (a, b) ∧
      replaced f.name v.val (g.text ++ '&' :: t) =
        .ok (a ++ f.name ++ '=' :: quoted v.val ++ '&' :: t) := by
  obtain ⟨⟨a, b⟩, hfound⟩ := Option.isSome_iff_exists.mp hg
  refine ⟨a, b, hfound, ?_⟩
  have hsearch := strstr_append f.ne (f.not_mem_name (c := '&') (by simp)) g.text t
  rw [hfound] at hsearch
  have hb : '&' ∉ b := by
    intro hm
    exact not_mem_text g ((strstr_spec hfound).1 ▸ List.mem_append_right _ hm)
  rw [replaced, hsearch]
  dsimp only [Option.map_some, Option.some_or]
  rw [seek_char hb]
  have hdrop : (b ++ '&' :: t).drop b.length = '&' :: t := List.drop_left
  exact congrArg (fun r => Except.ok (a ++ f.name ++ '=' :: quoted v.val ++ r)) hdrop

theorem replaced_hidden (hg : g.shows f.name = false) (t : Text) :
    replaced f.name v.val (g.text ++ '&' :: t) =
      (replaced f.name v.val t).map (g.text ++ '&' :: ·) := by
  have hsearch := strstr_append f.ne (f.not_mem_name (c := '&') (by simp)) g.text t
  rw [Field.shows, Option.isSome_eq_false_iff, Option.isNone_iff_eq_none] at hg
  rw [hg, Option.map_none, Option.none_or] at hsearch
  rw [replaced, replaced, hsearch]
  cases hrest : strstr f.name t with
  | none => rfl
  | some p =>
    dsimp only [Option.map_some]
    cases seek (· == '&') p.2 0 with
    | error e => rfl
    | ok i =>
      have happend : g.text ++ '&' :: p.1 ++ f.name ++ '=' :: quoted v.val ++ p.2.drop i =
          g.text ++ '&' :: (p.1 ++ f.name ++ '=' :: quoted v.val ++ p.2.drop i) := by
        simp
      exact congrArg Except.ok happend

/-- On the record the replacement does what it is for exactly when the field is located. -/
theorem replaced_iff (f : Field) (v : Value) (before after : List Field) :
    replaced f.name v.val (record (before ++ f :: after)) =
      .ok (record (before ++ f.set v :: after)) ↔ Located f v after before := by
  induction before with
  | nil =>
    have hown : strstr f.name f.text = some ([], f.text) :=
      strstr_at_start (List.prefix_append _ _)
    rw [Located, List.nil_append, List.nil_append]
    cases after with
    | nil =>
      obtain ⟨e, he⟩ := seek_missing (by decide) (not_mem_text f)
      have hlast : replaced f.name v.val f.text = .error e := by
        rw [replaced, hown]
        dsimp only
        rw [he]
        rfl
      rw [record, hlast]
      exact iff_of_false (by intro h; cases h) (by simp)
    | cons g after =>
      have hshows : f.shows f.name = true := by
        rw [Field.shows, hown]
        rfl
      obtain ⟨a, b, hfound, hrun⟩ := replaced_shown (v := v) hshows (record (g :: after))
      rw [hown] at hfound
      obtain ⟨rfl, rfl⟩ := Prod.mk.inj (Option.some.inj hfound)
      exact iff_of_true hrun (by simp)
  | cons g before ih =>
    rw [List.cons_append, List.cons_append, record_cons (by simp), record_cons (by simp), Located]
    cases hg : g.shows f.name with
    | true =>
      obtain ⟨a, b, hfound, hrun⟩ := replaced_shown (v := v) hg (record (before ++ f :: after))
      have ha : '&' ∉ a ++ f.name ++ '=' :: quoted v.val := by
        have hleft : '&' ∉ a := fun hm =>
          not_mem_text g ((strstr_spec hfound).1 ▸ List.mem_append_left _ hm)
        simp [hleft, f.not_mem_name, not_mem_quoted]
      have hlater : record (before ++ f :: after) = record (before ++ f.set v :: after) ↔
          f.value = v := record_set_eq_iff before after
      rw [hrun, if_pos rfl, Except.ok.injEq, ← hlater, ← and_assoc, ← overwrite_eq_iff hfound]
      constructor
      · exact append_cons_inj ha (not_mem_text g)
      · intro h
        rw [h.1, h.2]
    | false =>
      rw [replaced_hidden hg, if_neg (by simp), ← ih]
      cases replaced f.name v.val (record (before ++ f :: after)) with
      | error e => exact iff_of_false (by intro h; cases h) (by intro h; cases h)
      | ok s =>
        rw [Except.map, Except.ok.injEq, Except.ok.injEq]
        constructor
        · exact fun h => (List.cons.inj (List.append_cancel_left h)).2
        · exact fun h => by rw [h]

theorem strstr_record (f : Field) (before after : List Field) :
    (strstr f.name (record (before ++ f :: after))).isSome = true := by
  induction before with
  | nil =>
    have hstart : f.name <+: record ([] ++ f :: after) := by
      cases after with
      | nil => exact List.prefix_append _ _
      | cons g after => exact (List.prefix_append _ _).trans (List.prefix_append f.text _)
    rw [strstr_at_start hstart]
    rfl
  | cons g before ih =>
    rw [List.cons_append, record_cons (by simp),
      strstr_append f.ne (f.not_mem_name (c := '&') (by simp)), Option.isSome_or,
      Option.isSome_map, Option.isSome_map, ih, Bool.or_true]

end Fields

/-- `ReplaceValue` returns the record in which the field has the value. -/
def Replaces (f : Field) (v : Value) (before after : List Field) : Prop :=
  ∃ result, replaceValue (record (before ++ f :: after)) f.name v.val = .ok result ∧
    result.read = some (record (before ++ f.set v :: after))

/-- What `ReplaceValue` returns is gone. -/
theorem not_replaces (f : Field) (v : Value) (before after : List Field) :
    ¬ Replaces f v before after := by
  rintro ⟨result, hrun, hread⟩
  have hfound : fillDatabuf (record (before ++ f :: after)) f.name v.val ≠ .ok none :=
    fillDatabuf_ne_none f.ne (strstr_record f before after)
  rw [replaceValue] at hrun
  cases hfill : fillDatabuf (record (before ++ f :: after)) f.name v.val with
  | error e =>
    rw [hfill] at hrun
    cases hrun
  | ok out =>
    rw [hfill] at hrun
    cases out with
    | none => exact hfound hfill
    | some databuf =>
      cases hrun
      cases hread

/-- `ReplaceValue` never returns the record with the new value, only the address of the array where
it was built. There it puts the value into the field exactly when the buffers hold it and the result
and the field is located. -/
theorem replaceValue_never_replaces (f : Field) (v : Value) (before after : List Field)
    (hshort : (record (before ++ f :: after)).length < bufSize) :
    ¬ Replaces f v before after ∧
      (fillDatabuf (record (before ++ f :: after)) f.name v.val =
          .ok (some (record (before ++ f.set v :: after))) ↔
        v.val.length + 2 < varSize ∧ (record (before ++ f.set v :: after)).length < bufSize ∧
          Located f v after before) := by
  refine ⟨not_replaces f v before after, ?_⟩
  have hquoted : (quoted v.val).length = v.val.length + 2 := by
    rw [quoted, List.length_append, List.length_cons, List.length_singleton]
  rw [fillDatabuf_eq_ok_iff f.ne (strstr_record f before after) hshort, replaced_iff, hquoted]

def fieldOf (name value : String) (h : name.toList ≠ [] ∧
    (name.toList.all fun c => decide (c ∉ ['=', '&', '"', '\x00'])) ∧
    (value.toList.all fun c => decide (c ∉ ['&', '"', '\x00'])) := by decide) : Field :=
  ⟨name.toList, ⟨value.toList, forall_of_all h.2.2⟩, h.1, forall_of_all h.2.1⟩

/-- The middle field of three. -/
theorem replaceValue_never_replaces_middle :
    let f := fieldOf "user" "a=b"
    let v := (fieldOf "user" "cd").value
    let before := [fieldOf "id" "1"]
    let after := [fieldOf "on" ""]
    ¬ Replaces f v before after ∧
      fillDatabuf (record (before ++ f :: after)) f.name v.val =
        .ok (some (record (before ++ f.set v :: after))) := by
  intro f v before after
  obtain ⟨hgone, hbuilt⟩ := replaceValue_never_replaces f v before after (by decide)
  exact ⟨hgone, hbuilt.mpr ⟨by decide, by decide, by decide⟩⟩

/-- The new record is built, and the address of `databuf` returned. -/
theorem new_record_is_gone :
    let f := fieldOf "user" "a"
    let v := (fieldOf "user" "b").value
    let after := [fieldOf "on" ""]
    fillDatabuf (record (f :: after)) f.name v.val = .ok (some (record (f.set v :: after))) ∧
      replaceValue (record (f :: after)) f.name v.val = .ok .dangling ∧
      ¬ Replaces f v [] after := by
  intro f v after
  exact ⟨by decide +kernel, by decide +kernel, not_replaces f v [] after⟩

/-- The search for the end of the last field runs off the record. -/
example : replaceValue (record [fieldOf "user" "a"]) "user".toList ['b'] = .error .readPastEnd := by
  decide +kernel

end RecordField
