import RouterFirmware.SnortListing

/-! # The listing and the rules by their number

`print_rules` with number 0 lists the rules, and with another number it shows one of them. Both
loops look at the same places, and what they need of a place differs.
-/
namespace SnortCounts

open TextStream CString PatternLoop SnortRules SnortKeep SnortListing

/-- The listing ends, and with the number of each rule that it lists the rule is found, and with a
larger number nothing. -/
def Consistent (host : Host) (filename content : Text) : Prop :=
  ∃ es, printAll host filename (some content) = .ok (es, true) ∧
    ∀ i : ℕ, 1 ≤ i →
      (i ≤ es.length → ∃ e, printRule host filename i (some content) = .ok (i, some e)) ∧
      (es.length < i → printRule host filename i (some content) = .ok (0, none))

/-- Where the rule has an action, its name fits into the buffer. -/
def NameFits (filename : Text) (p : Place) (text : Text) : Prop :=
  ∀ act, shownAction filename p = .ok (some act) →
    ∃ name, copyTo 128 (headOf filename).length text = .ok name

/-- Where the rule has an action, its class and its number can be read. -/
def ClassFits (filename : Text) (p : Place) : Prop :=
  ∀ act, shownAction filename p = .ok (some act) →
    ∃ classSid, getClasstypeSid false 128 80 (p.here.drop (headOf filename).length) = .ok classSid

/-- What the listing needs of a place. -/
def Listed (filename : Text) (p : Place) : Prop :=
  p.before ≠ [] ∧ (isShown p = true → ∃ text tail act,
    strstr (tailOf filename) p.here = some (text, tail) ∧ shownAction filename p = .ok act ∧
      NameFits filename p text ∧ (isRules filename = false → ClassFits filename p))

/-- A rule is written out to its tail, its action stands on its line, and all that is shown of it
fits. -/
def Complete (filename : Text) (p : Place) : Prop :=
  Listed filename p ∧ (isShown p = true → ClassFits filename p)

section Turn

variable {filename : Text} {p : Place} {printed : List Entry}

theorem countsInPrint_hidden (hne : p.before ≠ []) (h : isShown p = false) :
    countsInPrint filename p = .ok false := by
  simp only [countsInPrint, isHidden_of_ne hne, h]
  rfl

theorem countsInPrint_shown (hne : p.before ≠ []) (h : isShown p = true) :
    countsInPrint filename p = (shownAction filename p).map Option.isSome := by
  simp only [countsInPrint, isHidden_of_ne hne, h]
  cases shownAction filename p <;> rfl

theorem counts_of_listed (h : Listed filename p) : ∃ b, countsInPrint filename p = .ok b := by
  cases hp : isShown p with
  | false => exact ⟨false, countsInPrint_hidden h.1 hp⟩
  | true =>
    obtain ⟨text, tail, act, -, hact, -⟩ := h.2 hp
    exact ⟨act.isSome, by rw [countsInPrint_shown h.1 hp, hact]; rfl⟩

theorem listBody_tail {off : Bool} {text tail : Text} (hne : p.before ≠ [])
    (hp : isShown p = true) (htail : strstr (tailOf filename) p.here = some (text, tail)) :
    listBody off filename printed p = (shownAction filename p).bind fun act =>
      match act with
      | none => .ok (.on 0 printed)
      | some act => (copyTo 128 (headOf filename).length text).bind fun name =>
        if isRules filename then
          .ok (.on ((headOf filename).length - 1) (printed ++ [⟨act, name, [], []⟩]))
        else
          (getClasstypeSid off 128 80 (p.here.drop (headOf filename).length)).map fun classSid =>
            .on ((headOf filename).length - 1)
              (printed ++ [⟨act, name, classSid.1, classSid.2⟩]) := by
  simp only [listBody, isHidden_of_ne hne, hp, find, htail]
  change (shownAction filename p).bind _ = _
  cases shownAction filename p with
  | error f => rfl
  | ok act =>
    cases act with
    | none => rfl
    | some act =>
      change (copyTo 128 (headOf filename).length text).bind _ =
        (copyTo 128 (headOf filename).length text).bind _
      cases copyTo 128 (headOf filename).length text with
      | error f => rfl
      | ok name =>
        cases hrules : isRules filename with
        | true => rfl
        | false =>
          change (getClasstypeSid off 128 80 _).bind _ = (getClasstypeSid off 128 80 _).map _
          cases getClasstypeSid off 128 80 (p.here.drop (headOf filename).length) <;> rfl

theorem listBody_listed (h : Listed filename p) : ∃ k es, k ≤ (headOf filename).length - 1 ∧
    (∀ printed, listBody false filename printed p = .ok (.on k (printed ++ es))) ∧
      es.length = if countsInPrint filename p = .ok true then 1 else 0 := by
  cases hp : isShown p with
  | false =>
    refine ⟨0, [], Nat.zero_le _, fun printed => ?_, ?_⟩
    · simp only [listBody, isHidden_of_ne h.1, hp, List.append_nil]
      rfl
    · simp [countsInPrint_hidden h.1 hp]
  | true =>
    obtain ⟨text, tail, act, htail, hact, hname, hclass⟩ := h.2 hp
    simp only [countsInPrint_shown h.1 hp, listBody_tail h.1 hp htail, hact]
    cases act with
    | none => exact ⟨0, [], Nat.zero_le _, fun printed => by rw [List.append_nil]; rfl, rfl⟩
    | some act =>
      obtain ⟨name, hname⟩ := hname act hact
      cases hrules : isRules filename with
      | true =>
        refine ⟨_, [⟨act, name, [], []⟩], le_rfl, fun printed => ?_, rfl⟩
        simp only [Except.bind, hname, if_true]
      | false =>
        obtain ⟨classSid, hclassSid⟩ := hclass hrules act hact
        refine ⟨_, [⟨act, name, classSid.1, classSid.2⟩], le_rfl, fun printed => ?_, rfl⟩
        simp [Except.bind, Except.map, hname, hclassSid]

theorem listed_of_listBody {k : ℕ} {s : List Entry}
    (h : listBody false filename printed p = .ok (.on k s)) : Listed filename p := by
  by_cases hne : p.before = []
  · simp only [listBody, isHidden, hne] at h
    cases h
  · refine ⟨hne, fun hp => ?_⟩
    cases htail : strstr (tailOf filename) p.here with
    | none =>
      simp only [listBody, isHidden_of_ne hne, hp, find, htail] at h
      cases h
    | some r =>
      obtain ⟨text, tail⟩ := r
      rw [listBody_tail hne hp htail] at h
      cases hact : shownAction filename p with
      | error f =>
        rw [hact] at h
        cases h
      | ok act =>
        rw [hact] at h
        refine ⟨text, tail, act, rfl, rfl, fun act' hact' => ?_, fun hrules act' hact' => ?_⟩
        · rw [hact, Except.ok.injEq] at hact'
          subst hact'
          cases hname : copyTo 128 (headOf filename).length text with
          | error f =>
            simp only [Except.bind, hname] at h
            cases h
          | ok name => exact ⟨name, rfl⟩
        · rw [hact, Except.ok.injEq] at hact'
          subst hact'
          cases hclass : getClasstypeSid false 128 80 (p.here.drop (headOf filename).length) with
          | error f =>
            cases hname : copyTo 128 (headOf filename).length text <;>
              simp [Except.bind, Except.map, hname, hrules, hclass] at h
          | ok classSid => exact ⟨classSid, rfl⟩

theorem leave_of_listBody {r : List Entry × Bool}
    (h : listBody false filename printed p = .ok (.leave r)) : r.2 = false := by
  by_cases hne : p.before = []
  · simp only [listBody, isHidden, hne] at h
    cases h
  · cases hp : isShown p with
    | false =>
      simp only [listBody, isHidden_of_ne hne, hp] at h
      cases h
    | true =>
      cases htail : strstr (tailOf filename) p.here with
      | none =>
        simp only [listBody, isHidden_of_ne hne, hp, find, htail] at h
        cases h
        rfl
      | some tail =>
        rw [listBody_tail hne hp htail] at h
        cases hact : shownAction filename p with
        | error f =>
          rw [hact] at h
          cases h
        | ok act =>
          cases act with
          | none =>
            rw [hact] at h
            cases h
          | some act =>
            cases hname : copyTo 128 (headOf filename).length tail.1 with
            | error f => simp [hact, Except.bind, hname] at h
            | ok name =>
              cases hrules : isRules filename with
              | true => simp [hact, Except.bind, hname, hrules] at h
              | false =>
                cases hclass :
                    getClasstypeSid false 128 80 (p.here.drop (headOf filename).length) <;>
                  simp [hact, Except.bind, Except.map, hname, hrules, hclass] at h

end Turn

section Run

variable {filename : Text} {ps : List Place} {printed : List Entry}

def listRules (filename : Text) (ps : List Place) (printed : List Entry) :
    Except Fault (List Entry × Bool) :=
  visit (listBody false filename) (fun printed => atEnd false (printed, true)) ps printed

theorem listRules_listed (h : ∀ p ∈ ps, Listed filename p) (printed : List Entry) :
    ∃ es, listRules filename ps printed = .ok (es, true) ∧ es.length = printed.length +
      ps.countP fun p => decide (countsInPrint filename p = .ok true) := by
  induction ps generalizing printed with
  | nil => exact ⟨printed, rfl, rfl⟩
  | cons p ps ih =>
    rw [List.forall_mem_cons] at h
    obtain ⟨k, new, -, hturn, hlen⟩ := listBody_listed h.1
    obtain ⟨es, hes, hcount⟩ := ih h.2 (printed ++ new)
    refine ⟨es, ?_, ?_⟩
    · rw [listRules, visit, hturn]
      exact hes
    · rw [hcount, List.length_append, hlen, List.countP_cons, Nat.add_assoc,
        Nat.add_comm (List.countP _ ps)]
      simp only [decide_eq_true_eq]

theorem listed_of_listRules {es : List Entry} (h : listRules filename ps printed = .ok (es, true)) :
    ∀ p ∈ ps, Listed filename p := by
  induction ps generalizing printed with
  | nil => simp
  | cons p ps ih =>
    rw [listRules, visit] at h
    rw [List.forall_mem_cons]
    cases hturn : listBody false filename printed p with
    | error f =>
      rw [hturn] at h
      cases h
    | ok m =>
      rw [hturn] at h
      cases m with
      | on k s => exact ⟨listed_of_listBody hturn, ih h⟩
      | leave r =>
        have hleft := leave_of_listBody hturn
        cases h
        cases hleft

end Run

section File

variable {host : Host} {filename content : Text} {p : Place}

theorem printAll_listRules (hname : (fileOf filename).length < 128)
    (hend : runsOff host content = false) (hne : content ≠ []) :
    printAll host filename (some content) =
      listRules filename (places (headOf filename) [] (visible content)) [] := by
  obtain ⟨c, t, hhead, hc⟩ := headOf_eq filename
  have hmove : ∀ s p k s', listBody false filename s p = .ok (.on k s') → k ≤ t.length := by
    intro s p k s' hturn
    obtain ⟨k', es, hk, hlisted, -⟩ := listBody_listed (listed_of_listBody hturn)
    rw [hlisted] at hturn
    cases hturn
    rw [hhead] at hk
    exact hk
  simp only [printAll, if_neg hne, if_neg (not_le.mpr hname), hend, hhead]
  exact loop_eq_visit hc hmove [] (visible content) []

theorem printRule_visit (hname : (fileOf filename).length < 128)
    (hend : runsOff host content = false) (hne : content ≠ []) (idx : ℤ) :
    printRule host filename idx (some content) =
      (visit (nthBody (countsInPrint filename) idx (printFound false filename))
        (fun cnt => atEnd false (cnt, none)) (places (headOf filename) [] (visible content)) 0).map
          fun r => (if (r.1 : ℤ) < idx then 0 else r.1, r.2) := by
  simp only [printRule, if_neg hne, if_neg (not_le.mpr hname), hend, loop_nth]
  cases visit (nthBody (countsInPrint filename) idx (printFound false filename))
    (fun cnt => atEnd false (cnt, none)) (places (headOf filename) [] (visible content)) 0 <;> rfl

theorem action_of_counts (h : Listed filename p) (hcounts : countsInPrint filename p = .ok true) :
    isShown p = true ∧ ∃ act, shownAction filename p = .ok (some act) := by
  cases hp : isShown p with
  | false =>
    rw [countsInPrint_hidden h.1 hp] at hcounts
    cases hcounts
  | true =>
    obtain ⟨text, tail, act, -, hact, -⟩ := h.2 hp
    rw [countsInPrint_shown h.1 hp, hact] at hcounts
    cases act with
    | none => cases hcounts
    | some act => exact ⟨rfl, act, hact⟩

/-- A rule that counts is shown exactly when its class and its number can be read. -/
theorem printFound_iff (h : Listed filename p) (hcounts : countsInPrint filename p = .ok true) :
    (∃ e, printFound false filename p = .ok (some e)) ↔ ClassFits filename p := by
  obtain ⟨hp, act, hact⟩ := action_of_counts h hcounts
  obtain ⟨text, tail, act', htail, -, hname, -⟩ := h.2 hp
  obtain ⟨name, hname⟩ := hname act hact
  have hfound : printFound false filename p =
      (getClasstypeSid false 128 80 (p.here.drop (headOf filename).length)).map fun classSid =>
        if isRules filename then some ⟨act, name, [], []⟩
        else some ⟨act, name, classSid.1, classSid.2⟩ := by
    simp only [printFound, hact, find, htail]
    change (copyTo 128 (headOf filename).length text).bind _ = _
    rw [hname]
    cases getClasstypeSid false 128 80 (p.here.drop (headOf filename).length) with
    | error f => rfl
    | ok classSid => cases hrules : isRules filename <;> rfl
  rw [hfound]
  constructor
  · intro hshown act' _
    obtain ⟨e, he⟩ := hshown
    cases hclass : getClasstypeSid false 128 80 (p.here.drop (headOf filename).length) with
    | error f =>
      rw [hclass] at he
      cases he
    | ok classSid => exact ⟨classSid, rfl⟩
  · intro hclass
    obtain ⟨classSid, hclass⟩ := hclass act hact
    rw [hclass]
    cases isRules filename
    · exact ⟨_, rfl⟩
    · exact ⟨_, rfl⟩

theorem printRule_of_isNth (hname : (fileOf filename).length < 128)
    (hend : runsOff host content = false) (hne : content ≠ []) {i : ℕ}
    (hp : IsNth (countsInPrint filename) i (places (headOf filename) [] (visible content)) p) :
    printRule host filename i (some content) =
      (printFound false filename p).map fun e => (i, e) := by
  have hcnt : IsNth (countsInPrint filename) ((i : ℤ) - (0 : ℕ))
      (places (headOf filename) [] (visible content)) p := by simpa using hp
  rw [printRule_visit hname hend hne, visit_nthBody hcnt]
  cases printFound false filename p with
  | error f => rfl
  | ok e => simp [Except.map]

theorem counted_of_listed {ps : List Place} (h : ∀ p ∈ ps, Listed filename p) :
    ∀ p ∈ ps, ∃ b, countsInPrint filename p = .ok b :=
  fun p hp => counts_of_listed (h p hp)

theorem complete_of_consistent (hname : (fileOf filename).length < 128)
    (hend : runsOff host content = false) (hne : content ≠ [])
    (h : Consistent host filename content) :
    ∀ p ∈ places (headOf filename) [] (visible content), Complete filename p := by
  obtain ⟨es, hes, hnumber⟩ := h
  rw [printAll_listRules hname hend hne] at hes
  have hlisted := listed_of_listRules hes
  obtain ⟨es', hes', hlen⟩ := listRules_listed hlisted []
  rw [hes, Except.ok.injEq, Prod.mk.injEq] at hes'
  rw [← hes'.1, List.length_nil, Nat.zero_add] at hlen
  intro p hp
  refine ⟨hlisted p hp, fun hshown => ?_⟩
  obtain ⟨b, hb⟩ := counted_of_listed hlisted p hp
  cases b with
  | false =>
    intro act hact
    rw [countsInPrint_shown (hlisted p hp).1 hshown, hact] at hb
    cases hb
  | true =>
    obtain ⟨i, hi, hle, hnth⟩ := isNth_of_mem (counted_of_listed hlisted) hp hb
    obtain ⟨e, he⟩ := (hnumber i hi).1 (hlen ▸ hle)
    rw [printRule_of_isNth hname hend hne hnth] at he
    apply (printFound_iff (hlisted p hp) hb).mp
    cases hfound : printFound false filename p with
    | error f =>
      rw [hfound] at he
      cases he
    | ok r =>
      rw [hfound] at he
      cases he
      exact ⟨e, rfl⟩

theorem consistent_of_complete (hname : (fileOf filename).length < 128)
    (hend : runsOff host content = false) (hne : content ≠ [])
    (h : ∀ p ∈ places (headOf filename) [] (visible content), Complete filename p) :
    Consistent host filename content := by
  have hlisted : ∀ p ∈ places (headOf filename) [] (visible content), Listed filename p :=
    fun p hp => (h p hp).1
  obtain ⟨es, hes, hlen⟩ := listRules_listed hlisted []
  rw [List.length_nil, Nat.zero_add] at hlen
  refine ⟨es, by rw [printAll_listRules hname hend hne, hes], fun i hi => ⟨fun hle => ?_,
    fun hless => ?_⟩⟩
  · obtain ⟨p, hnth⟩ := exists_isNth (counted_of_listed hlisted) hi (hlen ▸ hle)
    obtain ⟨before, after, hps, -, hcounts, -⟩ := id hnth
    have hp : p ∈ places (headOf filename) [] (visible content) := by
      rw [hps]
      exact List.mem_append_right before List.mem_cons_self
    obtain ⟨hshown, -⟩ := action_of_counts (hlisted p hp) hcounts
    obtain ⟨e, he⟩ := (printFound_iff (hlisted p hp) hcounts).mpr ((h p hp).2 hshown)
    exact ⟨e, by rw [printRule_of_isNth hname hend hne hnth, he]; rfl⟩
  · have hfew : ((0 + es.length : ℕ) : ℤ) < i := by
      rw [Nat.zero_add]
      exact_mod_cast hless
    rw [hlen] at hfew hless
    rw [printRule_visit hname hend hne, visit_nthBody_end (counted_of_listed hlisted) hfew]
    simp [atEnd, Except.map, hless]

end File

/-- The listing ends and agrees with the search for each number exactly when every rule that is
not behind a `#` is complete. -/
theorem consistent_iff {host : Host} {filename content : Text}
    (_ : filename ≠ "version".toList) (hend : content ≠ [] → runsOff host content = false) :
    Consistent host filename content ↔ (fileOf filename).length < 128 ∧
      ∀ p ∈ places (headOf filename) [] (visible content), Complete filename p := by
  by_cases hlong : 128 ≤ (fileOf filename).length
  · refine iff_of_false (fun h => ?_) (fun h => absurd h.1 (not_lt.mpr hlong))
    obtain ⟨es, hes, -⟩ := h
    simp only [printAll, if_pos hlong] at hes
    cases hes
  · have hname := not_le.mp hlong
    by_cases hne : content = []
    · -- an empty file is not mapped
      subst hne
      refine iff_of_true ⟨[], ?_, fun i hi => ⟨fun h => ?_, fun _ => ?_⟩⟩
        ⟨hname, fun p hp => absurd hp List.not_mem_nil⟩
      · simp only [printAll, if_neg hlong, if_true]
      · exact absurd hi (not_le.mpr (Nat.lt_succ_of_le h))
      · simp only [printRule, if_neg hlong, if_true]
    · rw [and_iff_right hname]
      exact ⟨complete_of_consistent hname (hend hne) hne,
        consistent_of_complete hname (hend hne) hne⟩

/-- The hypotheses hold of `snort.conf` with one rule set. -/
theorem consistent_iff_of_one_set :
    Consistent ⟨4096, true, fun _ written _ => written⟩ "rules".toList oneSet ↔
      (fileOf "rules".toList).length < 128 ∧
        ∀ p ∈ places (headOf "rules".toList) [] (visible oneSet), Complete "rules".toList p :=
  consistent_iff (by decide) (fun _ => by decide +kernel)

/-- A rule whose message is not closed keeps the listing from ending. -/
def openRule : Text := "alert tcp any any -> any any (msg:\"open)\n".toList

theorem open_rule_never_ends :
    printAll ⟨4096, true, fun _ written _ => written⟩ "web".toList (some openRule) =
        .ok ([], false) ∧
      ¬ Consistent ⟨4096, true, fun _ written _ => written⟩ "web".toList openRule := by
  have hrun : printAll ⟨4096, true, fun _ written _ => written⟩ "web".toList (some openRule) =
      .ok ([], false) := by decide +kernel
  refine ⟨hrun, fun h => ?_⟩
  obtain ⟨es, hes, -⟩ := h
  rw [hrun] at hes
  cases hes

end SnortCounts
