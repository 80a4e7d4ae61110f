import RouterFirmware.SnortKeep

/-! # The listing of the rule sets

What `print_rules` shows of `snort.conf`, rule set by rule set, and when it can be listed at all.
-/
namespace SnortListing

open TextStream CString PatternLoop SnortRules

/-- No `#` is in front of it. -/
def isShown (p : Place) : Bool := p.before.head? != some '#'

/-- The mark of a rule set that is switched off is in front of it. -/
def isOff (p : Place) : Bool := (p.before.take 4).reverse == "#ox ".toList

def textOf (p : Place) : Option Text := (strstr rulesTail p.here).map Prod.fst

def entryOf (p : Place) : Entry :=
  ⟨if isOff p then "disable".toList else "enable".toList,
    ((textOf p).getD []).drop rulesHead.length, [], []⟩

def shown (ps : List Place) : List Entry := (ps.filter isShown).map entryOf

/-- The characters in front of it that are looked at belong to the file. -/
def Legible (p : Place) : Prop := p.before ≠ [] ∧ (isShown p = true → 4 ≤ p.before.length)

def Fits (p : Place) : Prop :=
  isShown p = true → ∀ text, textOf p = some text →
    ∃ name, copyTo 128 rulesHead.length text = .ok name

def listFrom (off : Bool) (ps : List Place) (printed : List Entry) :
    Except Fault (List Entry × Bool) :=
  visit (listBody off "rules".toList) (fun printed => atEnd off (printed, true)) ps printed

section Turn

variable {off : Bool} {printed : List Entry} {p q : Place} {text : Text}

theorem copyTo_eq_ok {size skip : ℕ} {name : Text} (h : copyTo size skip text = .ok name) :
    name = text.drop skip := by
  unfold copyTo at h
  split at h
  · cases h
  · cases h
    rfl

theorem isHidden_of_ne (h : p.before ≠ []) : isHidden p = .ok !isShown p := by
  unfold isHidden isShown
  cases hbefore : p.before with
  | nil => exact absurd hbefore h
  | cons c rest =>
    rw [List.head?_cons, bne, Bool.not_not]
    rfl

theorem isMarked_of_le (h : 4 ≤ p.before.length) : isMarked p = .ok (isOff p) := by
  rw [isMarked, if_neg (not_lt.mpr h), isOff]

theorem strstr_of_textOf (h : textOf p = some text) :
    ∃ tail, strstr rulesTail p.here = some (text, tail) := by
  obtain ⟨r, hr, rfl⟩ := Option.map_eq_some_iff.mp h
  exact ⟨r.2, hr⟩

theorem strstr_of_textOf_none (h : textOf p = none) : strstr rulesTail p.here = none :=
  Option.map_eq_none_iff.mp h

theorem listBody_hidden (hne : p.before ≠ []) (h : isShown p = false) :
    listBody off "rules".toList printed p = .ok (.on 0 printed) := by
  rw [listBody, isHidden_of_ne hne, h]
  rfl

theorem listBody_endless (hne : p.before ≠ []) (h : isShown p = true) (htext : textOf p = none) :
    listBody off "rules".toList printed p =
      (atEnd off (printed, false)).map Move.leave := by
  rw [listBody, isHidden_of_ne hne, h, find, show tailOf "rules".toList = rulesTail from rfl,
    strstr_of_textOf_none htext]
  cases off <;> rfl

theorem listBody_shown (hne : p.before ≠ []) (h : isShown p = true) (htext : textOf p = some text) :
    listBody off "rules".toList printed p = (isMarked p).bind fun _ =>
      (copyTo 128 rulesHead.length text).map fun _ =>
        .on (rulesHead.length - 1) (printed ++ [entryOf p]) := by
  obtain ⟨tail, htail⟩ := strstr_of_textOf htext
  rw [listBody, isHidden_of_ne hne, h, find, show tailOf "rules".toList = rulesTail from rfl,
    htail, shownAction, if_pos (show isRules "rules".toList = true from rfl)]
  by_cases hlen : 4 ≤ p.before.length
  · rw [isMarked_of_le hlen]
    cases hcopy : copyTo 128 rulesHead.length text with
    | error f =>
      change (copyTo 128 rulesHead.length text).bind _ = _
      rw [hcopy]
      rfl
    | ok name =>
      change (copyTo 128 rulesHead.length text).bind _ = _
      rw [hcopy, copyTo_eq_ok hcopy, entryOf, htext]
      rfl
  · rw [isMarked, if_pos (not_le.mp hlen)]
    rfl

/-- A rule set that is shown takes one turn, where it can be read. -/
theorem listBody_legible (off : Bool) (printed : List Entry) (htext : (textOf p).isSome = true)
    (h : Legible p) (hfits : Fits p) :
    ∃ k, listBody off "rules".toList printed p = .ok (.on k (printed ++ shown [p])) := by
  obtain ⟨text, htext⟩ := Option.isSome_iff_exists.mp htext
  cases hp : isShown p with
  | false => exact ⟨0, by rw [listBody_hidden h.1 hp, shown, List.filter_cons, hp]; simp⟩
  | true =>
    obtain ⟨name, hname⟩ := hfits hp text htext
    refine ⟨rulesHead.length - 1, ?_⟩
    rw [listBody_shown h.1 hp htext, isMarked_of_le (h.2 hp), hname, shown, List.filter_cons, hp]
    rfl

theorem legible_of_listBody (htext : (textOf p).isSome = true)
    {m : Move (List Entry) (List Entry × Bool)}
    (h : listBody off "rules".toList printed p = .ok m) : Legible p ∧ Fits p := by
  obtain ⟨text, htext⟩ := Option.isSome_iff_exists.mp htext
  by_cases hne : p.before = []
  · rw [listBody, isHidden, hne] at h
    cases h
  · cases hp : isShown p with
    | false => exact ⟨⟨hne, by simp [hp]⟩, by simp [Fits, hp]⟩
    | true =>
      rw [listBody_shown hne hp htext] at h
      by_cases hlen : 4 ≤ p.before.length
      · refine ⟨⟨hne, fun _ => hlen⟩, fun _ text' htext' => ?_⟩
        rw [htext, Option.some.injEq] at htext'
        subst htext'
        cases hcopy : copyTo 128 rulesHead.length text with
        | error f =>
          rw [isMarked_of_le hlen, hcopy] at h
          cases h
        | ok name => exact ⟨name, rfl⟩
      · rw [isMarked, if_pos (not_le.mp hlen)] at h
        cases h

theorem isShown_congr (h : p.before.take 4 = q.before.take 4) : isShown p = isShown q := by
  have hhead : (p.before.take 4).head? = (q.before.take 4).head? := by rw [h]
  rw [List.head?_take, List.head?_take, if_neg (by decide), if_neg (by decide)] at hhead
  rw [isShown, isShown, hhead]

theorem isMarked_congr (h : p.before.take 4 = q.before.take 4) : isMarked p = isMarked q := by
  have hlen : (p.before.take 4).length = (q.before.take 4).length := by rw [h]
  rw [List.length_take, List.length_take] at hlen
  have hless : p.before.length < 4 ↔ q.before.length < 4 := by omega
  simp only [isMarked, hless, h]

/-- A turn looks at four characters before a rule set and at its text. -/
theorem listBody_congr (hbefore : p.before.take 4 = q.before.take 4)
    (htext : textOf p = textOf q) :
    listBody off "rules".toList printed p = listBody off "rules".toList printed q := by
  have hnil : p.before = [] ↔ q.before = [] := by
    have htake : p.before.take 4 = [] ↔ q.before.take 4 = [] := by rw [hbefore]
    simpa using htake
  have hshown := isShown_congr hbefore
  by_cases hne : p.before = []
  · rw [listBody, listBody, isHidden, isHidden, hne, hnil.mp hne]
    rfl
  · have hne' : q.before ≠ [] := fun h => hne (hnil.mpr h)
    cases hq : isShown q with
    | false =>
      rw [hq] at hshown
      rw [listBody_hidden hne hshown, listBody_hidden hne' hq]
    | true =>
      rw [hq] at hshown
      cases htextq : textOf q with
      | none =>
        rw [htextq] at htext
        rw [listBody_endless hne hshown htext, listBody_endless hne' hq htextq]
      | some text =>
        rw [htextq] at htext
        rw [listBody_shown hne hshown htext, listBody_shown hne' hq htextq,
          isMarked_congr hbefore, entryOf, entryOf, htext, htextq, isOff, isOff, hbefore]

theorem listBody_cases (off : Bool) (p : Place) :
    (∃ f, ∀ printed, listBody off "rules".toList printed p = .error f) ∨
      (∃ k, k < rulesHead.length ∧ ∀ printed,
        listBody off "rules".toList printed p = .ok (.on k (printed ++ shown [p]))) ∨
      (off = false ∧ textOf p = none ∧ ∀ printed,
        listBody off "rules".toList printed p = .ok (.leave (printed, false))) := by
  by_cases hne : p.before = []
  · refine .inl ⟨.readPastEnd, fun printed => ?_⟩
    rw [listBody, isHidden, hne]
    rfl
  · cases hp : isShown p with
    | false =>
      refine .inr (.inl ⟨0, by decide, fun printed => ?_⟩)
      rw [listBody_hidden hne hp, shown, List.filter_cons, hp]
      simp
    | true =>
      cases htext : textOf p with
      | none =>
        cases off with
        | true => exact .inl ⟨.readPastEnd, fun _ => listBody_endless hne hp htext⟩
        | false => exact .inr (.inr ⟨rfl, rfl, fun _ => listBody_endless hne hp htext⟩)
      | some text =>
        by_cases hlen : 4 ≤ p.before.length
        · cases hcopy : copyTo 128 rulesHead.length text with
          | error f =>
            refine .inl ⟨f, fun printed => ?_⟩
            rw [listBody_shown hne hp htext, isMarked_of_le hlen, hcopy]
            rfl
          | ok name =>
            refine .inr (.inl ⟨rulesHead.length - 1, by decide, fun printed => ?_⟩)
            rw [listBody_shown hne hp htext, isMarked_of_le hlen, hcopy, shown, List.filter_cons,
              hp]
            rfl
        · refine .inl ⟨.readPastEnd, fun printed => ?_⟩
          rw [listBody_shown hne hp htext, isMarked, if_pos (not_le.mp hlen)]
          rfl

end Turn

section Listing

variable {off : Bool} {printed : List Entry} {ps qs : List Place} {p : Place}
  {r : List Entry × Bool}

theorem shown_append (ps qs : List Place) : shown (ps ++ qs) = shown ps ++ shown qs := by
  rw [shown, List.filter_append, List.map_append]
  rfl

theorem listFrom_append (htext : ∀ p ∈ ps, (textOf p).isSome = true) (printed : List Entry) :
    listFrom off (ps ++ qs) printed = .ok r ↔
      (∀ p ∈ ps, Legible p ∧ Fits p) ∧ listFrom off qs (printed ++ shown ps) = .ok r := by
  induction ps generalizing printed with
  | nil => simp [shown]
  | cons p ps ih =>
    rw [List.forall_mem_cons] at htext
    rw [List.forall_mem_cons, ← List.singleton_append, shown_append, ← List.append_assoc printed,
      and_assoc, ← ih htext.2, List.singleton_append, List.cons_append, listFrom, visit]
    constructor
    · intro h
      cases hturn : listBody off "rules".toList printed p with
      | error f =>
        rw [hturn] at h
        cases h
      | ok m =>
        have hp := legible_of_listBody htext.1 hturn
        obtain ⟨k, hk⟩ := listBody_legible off printed htext.1 hp.1 hp.2
        rw [hk] at h
        exact ⟨hp, h⟩
    · intro h
      obtain ⟨hp, hrest⟩ := h
      obtain ⟨k, hk⟩ := listBody_legible off printed htext.1 hp.1 hp.2
      rw [hk]
      exact hrest

/-- What has been printed before stays in front. -/
theorem listFrom_printed (ps : List Place) (printed : List Entry) :
    listFrom off ps printed = (listFrom off ps []).map fun r => (printed ++ r.1, r.2) := by
  have hbody : ∀ s p, listBody off "rules".toList (printed ++ s) p =
      (listBody off "rules".toList s p).map
        (Move.map (fun s => printed ++ s) fun r => (printed ++ r.1, r.2)) := by
    intro s p
    rcases listBody_cases off p with ⟨f, hf⟩ | ⟨k, -, hk⟩ | ⟨-, -, hleave⟩
    · rw [hf, hf]
      rfl
    · rw [hk, hk, List.append_assoc]
      rfl
    · rw [hleave, hleave]
      rfl
  have hend : ∀ s : List Entry, atEnd off (printed ++ s, true) =
      (atEnd off (s, true)).map fun r => (printed ++ r.1, r.2) := by
    intro s
    cases off <;> rfl
  have hmap : listFrom off ps (printed ++ []) =
      (listFrom off ps []).map fun r => (printed ++ r.1, r.2) := visit_map hbody hend ps []
  rwa [List.append_nil] at hmap

/-- The loop ends with a search for the next rule set or for the end of one. -/
theorem listFrom_off (ps : List Place) (printed : List Entry) :
    ∃ f, listFrom true ps printed = .error f := by
  induction ps generalizing printed with
  | nil => exact ⟨.readPastEnd, rfl⟩
  | cons p ps ih =>
    rw [listFrom, visit]
    rcases listBody_cases true p with ⟨f, hf⟩ | ⟨k, -, hk⟩ | ⟨hoff, -, -⟩
    · exact ⟨f, by rw [hf]⟩
    · rw [hk]
      exact ih _
    · cases hoff

/-- Rule sets that can be read are listed, up to one without an end. -/
theorem listFrom_legible (h : ∀ p ∈ ps, Legible p ∧ Fits p) (printed : List Entry) :
    ∃ r, listFrom false ps printed = .ok r := by
  induction ps generalizing printed with
  | nil => exact ⟨(printed, true), rfl⟩
  | cons p ps ih =>
    rw [List.forall_mem_cons] at h
    rw [listFrom, visit]
    cases htext : textOf p with
    | none =>
      cases hp : isShown p with
      | false =>
        rw [listBody_hidden h.1.1.1 hp]
        exact ih h.2 _
      | true =>
        rw [listBody_endless h.1.1.1 hp htext]
        exact ⟨(printed, false), rfl⟩
    | some text =>
      obtain ⟨k, hk⟩ := listBody_legible false printed (by rw [htext]; rfl) h.1.1 h.1.2
      rw [hk]
      exact ih h.2 _

/-- When the listing comes through, every name before a rule set without an end fits. -/
theorem fits_of_listFrom (hps : ps.Pairwise fun p q => textOf p = none → textOf q = none)
    (h : listFrom off ps printed = .ok r) : ∀ p ∈ ps, Fits p := by
  induction ps generalizing printed with
  | nil => simp
  | cons p ps ih =>
    rw [List.pairwise_cons] at hps
    rw [listFrom, visit] at h
    rw [List.forall_mem_cons]
    cases htext : textOf p with
    | none =>
      have hnone : ∀ q, textOf q = none → Fits q := by
        intro q hq _ text htextq
        rw [hq] at htextq
        cases htextq
      exact ⟨hnone p htext, fun q hq => hnone q (hps.1 q hq htext)⟩
    | some text =>
      have hsome : (textOf p).isSome = true := by rw [htext]; rfl
      cases hturn : listBody off "rules".toList printed p with
      | error f =>
        rw [hturn] at h
        cases h
      | ok m =>
        have hp := legible_of_listBody hsome hturn
        obtain ⟨k, hk⟩ := listBody_legible off printed hsome hp.1 hp.2
        rw [hk] at h
        exact ⟨hp.2, ih hps.2 h⟩

end Listing

section File

variable {host : Host} {content : Text}

theorem printAll_eq (host : Host) (hne : content ≠ []) :
    printAll host "rules".toList (some content) =
      listFrom (runsOff host content) (places rulesHead [] (visible content)) [] := by
  have hmove : ∀ s p k s', listBody (runsOff host content) "rules".toList s p = .ok (.on k s') →
      k ≤ "nclude $RULE_PATH/".toList.length := by
    intro s p k s' hturn
    rcases listBody_cases (runsOff host content) p with ⟨f, hf⟩ | ⟨k, hk, hon⟩ | ⟨-, -, hleave⟩
    · rw [hf] at hturn
      cases hturn
    · rw [hon] at hturn
      cases hturn
      exact Nat.le_of_lt_succ hk
    · rw [hleave] at hturn
      cases hturn
  have hlen : ¬ 128 ≤ (fileOf "rules".toList).length := by decide
  simp only [printAll, if_neg hne, if_neg hlen]
  exact loop_eq_visit (by decide) hmove [] (visible content) []

theorem textOf_none_of_suffix {p q : Place} (h : q.here <:+ p.here) (hp : textOf p = none) :
    textOf q = none := by
  obtain ⟨w, hw⟩ := h
  have hnone := strstr_of_textOf_none hp
  rw [← hw] at hnone
  rw [textOf, strstr_none_of_append hnone, Option.map_none]

/-- The file ends in the mapping, and the names of its rule sets fit into the buffer. -/
def Listable (host : Host) (content : Text) : Prop :=
  runsOff host content = false ∧ ∀ p ∈ places rulesHead [] (visible content), Fits p

theorem listable_iff (host : Host) (hne : content ≠ [])
    (hlegible : ∀ p ∈ places rulesHead [] (visible content), Legible p) :
    Listable host content ↔ ∃ r, printAll host "rules".toList (some content) = .ok r := by
  rw [printAll_eq host hne]
  constructor
  · intro h
    rw [h.1]
    exact listFrom_legible (fun p hp => ⟨hlegible p hp, h.2 p hp⟩) []
  · intro h
    obtain ⟨r, hr⟩ := h
    cases hoff : runsOff host content with
    | true =>
      obtain ⟨f, hf⟩ := listFrom_off (places rulesHead [] (visible content)) []
      rw [hoff, hf] at hr
      cases hr
    | false =>
      refine ⟨hoff, fits_of_listFrom ?_ hr⟩
      exact (places_pairwise rulesHead [] (visible content)).imp fun h =>
        textOf_none_of_suffix h.1

end File

end SnortListing
