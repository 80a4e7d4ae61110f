import RouterFirmware.SnortRules

/-! # Edits that change nothing

`set_rules_action` copies the temporary file over the rule file in any case. When nothing has been
written to it, the rule file is empty afterwards.
-/
namespace SnortKeep

open TextStream CString PatternLoop SnortRules

/-- A change is to be applied: the rule is there with its tail, and a rule set is switched on or
off. -/
def Applies (filename : Text) (idx : ℤ) (actionBuf content : Text) : Prop :=
  ∃ p, IsNth (counts filename) idx (places (headOf filename) [] (visible content)) p ∧
    (strstr (tailOf filename) p.here).isSome = true ∧
      (isRules filename = true → actionBuf = "enable".toList ∨ actionBuf = "disable".toList)

/-- When it returns 0 the file is as before, and when no change is to be applied it returns with
the file as before. -/
def KeepsFile (host : Host) (filename : Text) (idx : ℤ) (actionBuf : Text) (file : Option Text) :
    Prop :=
  (∀ r file', setRulesAction host filename idx actionBuf file = .ok (r, file') → r = 0 →
    file' = file) ∧
  ((∀ content, file = some content → ¬ Applies filename idx actionBuf content) →
    ∃ r, setRulesAction host filename idx actionBuf file = .ok (r, file))

/-- The command copies the temporary file over the rule file. -/
def Copies (host : Host) (filename : Text) : Prop :=
  ∀ written content, host.system (copyCommand (fileOf filename)) written content = written

section Search

variable {host : Host} {filename actionBuf content : Text} {idx : ℤ} {file : Option Text}
  {off : Bool} {p : Place}

/-- The first character of the pattern stands at its start only. -/
theorem headOf_eq (filename : Text) : ∃ c t, headOf filename = c :: t ∧ c ∉ t := by
  unfold headOf
  split
  · exact ⟨'i', "nclude $RULE_PATH/".toList, by decide, by decide⟩
  · exact ⟨'(', ['m', 's', 'g', ':', '"'], rfl, by decide⟩

theorem loop_nth {ρ : Type} (counts : Place → Except Fault Bool) (idx : ℤ)
    (found : Place → Except Fault (Option ρ)) (atEnd : ℕ → Except Fault (ℕ × Option ρ))
    (filename here : Text) : loop (headOf filename) (nthBody counts idx found) atEnd 0 [] here 0 =
      visit (nthBody counts idx found) atEnd (places (headOf filename) [] here) 0 := by
  obtain ⟨c, t, hhead, hc⟩ := headOf_eq filename
  rw [hhead]
  exact loop_eq_visit hc (fun s p k s' h => (nthBody_on h).trans_le (Nat.zero_le _)) [] here 0

def search (host : Host) (filename : Text) (idx : ℤ) (actionBuf content : Text) :
    Except Fault (ℕ × Option Text) :=
  visit (nthBody (counts filename) idx
    (editFound (runsOff host content) filename actionBuf content))
    (fun cnt => atEnd (runsOff host content) (cnt, none))
    (places (headOf filename) [] (visible content)) 0

theorem accepted_nil : accepted [] = false := by decide

theorem setRulesAction_accepted (haction : accepted actionBuf = true) :
    ¬ (actionBuf = [] ∨ accepted actionBuf = false) := by
  intro h
  rcases h with hnil | hnot
  · rw [hnil, accepted_nil] at haction
    cases haction
  · rw [hnot] at haction
    cases haction

theorem not_contains {files : List Text} (h : filename ∉ files) :
    ¬ files.contains filename = true := by
  rwa [List.contains_iff_mem]

theorem setRulesAction_long (haction : accepted actionBuf = true)
    (hlen : 128 ≤ (fileOf filename).length) :
    setRulesAction host filename idx actionBuf file = .error .writePastEnd := by
  unfold setRulesAction
  rw [if_neg (setRulesAction_accepted haction), if_pos hlen]

theorem setRulesAction_unwritten (idx : ℤ) (haction : accepted actionBuf = true)
    (hname : filename ∉ ["high".toList, "medium".toList, "low".toList])
    (hlen : (fileOf filename).length < 128)
    (hfile : file = none ∨ file = some [] ∨ host.makesTmp = false) :
    setRulesAction host filename idx actionBuf file = .ok (0, file) := by
  unfold setRulesAction
  rw [if_neg (setRulesAction_accepted haction), if_neg (not_le.mpr hlen),
    if_neg (not_contains hname)]
  cases file with
  | none => rfl
  | some content =>
    have hunwritten : content = [] ∨ host.makesTmp = false := by simpa using hfile
    simp only [if_pos hunwritten]

theorem setRulesAction_search (haction : accepted actionBuf = true)
    (hname : filename ∉ ["high".toList, "medium".toList, "low".toList])
    (hlen : (fileOf filename).length < 128) (hne : content ≠ []) (htmp : host.makesTmp = true) :
    setRulesAction host filename idx actionBuf (some content) =
      (search host filename idx actionBuf content).bind fun r =>
        (copyBack host (fileOf filename) (r.2.getD []) content).map fun f =>
          (if (r.1 : ℤ) < idx then 0 else (r.1 : ℤ), f) := by
  have hopen : ¬ (content = [] ∨ host.makesTmp = false) := by simp [hne, htmp]
  rw [setRulesAction, if_neg (setRulesAction_accepted haction), if_neg (not_le.mpr hlen),
    if_neg (not_contains hname)]
  simp only [if_neg hopen, loop_nth]
  rfl

theorem atEnd_cases {ρ : Type} (off : Bool) (r : ρ) :
    (∃ f, atEnd off r = .error f) ∨ atEnd off r = .ok r := by
  cases off
  · exact .inr rfl
  · exact .inl ⟨.readPastEnd, rfl⟩

theorem search_found (h : IsNth (counts filename) idx
    (places (headOf filename) [] (visible content)) p) :
    search host filename idx actionBuf content =
      (editFound (runsOff host content) filename actionBuf content p).map
        fun r => (idx.toNat, r) :=
  visit_nthBody (by simpa using h)

theorem search_none (h : ∀ p, ¬ IsNth (counts filename) idx
    (places (headOf filename) [] (visible content)) p) :
    (∃ f, search host filename idx actionBuf content = .error f) ∨
      ∃ n, search host filename idx actionBuf content = .ok (n, none) := by
  exact visit_nthBody_none (fun n => atEnd_cases (runsOff host content) (n, none))
    (by simpa using h)

theorem editFound_none (h : strstr (tailOf filename) p.here = none) :
    editFound off filename actionBuf content p = atEnd off none := by
  rw [editFound, find, h]
  cases off <;> rfl

theorem editFound_tail {text tail : Text}
    (h : strstr (tailOf filename) p.here = some (text, tail)) :
    editFound off filename actionBuf content p =
      (copyTo 128 (headOf filename).length text).bind fun _ =>
        (if isRules filename then editSet actionBuf content p
          else editRule actionBuf content p).map some := by
  rw [editFound, find, h]
  change (copyTo 128 (headOf filename).length text).bind _ = _
  cases copyTo 128 (headOf filename).length text with
  | error f => rfl
  | ok name =>
    simp only [Except.bind]
    cases isRules filename
    · cases editRule actionBuf content p <;> rfl
    · cases editSet actionBuf content p <;> rfl

/-- Without a change to apply nothing is written to the temporary file. -/
theorem search_not_applied (host : Host) (h : ¬ Applies filename idx actionBuf content) :
    (∃ f, search host filename idx actionBuf content = .error f) ∨
      ∃ n w, search host filename idx actionBuf content = .ok (n, w) ∧ w.getD [] = [] := by
  by_cases hnth : ∃ p, IsNth (counts filename) idx
      (places (headOf filename) [] (visible content)) p
  · obtain ⟨p, hp⟩ := hnth
    rw [search_found hp]
    cases htail : strstr (tailOf filename) p.here with
    | none =>
      rw [editFound_none htail]
      cases runsOff host content
      · exact .inr ⟨_, none, rfl, rfl⟩
      · exact .inl ⟨_, rfl⟩
    | some r =>
      have hother : isRules filename = true ∧ ¬ actionBuf = "enable".toList ∧
          ¬ actionBuf = "disable".toList := by
        by_contra hothers
        refine h ⟨p, hp, by rw [htail]; rfl, fun hrules => ?_⟩
        by_contra haction
        rw [not_or] at haction
        exact hothers ⟨hrules, haction⟩
      rw [editFound_tail htail, if_pos hother.1, editSet, if_neg hother.2.1, if_neg hother.2.2]
      cases copyTo 128 (headOf filename).length r.1 with
      | error f => exact .inl ⟨f, rfl⟩
      | ok name => exact .inr ⟨idx.toNat, some [], rfl, rfl⟩
  · rcases search_none (not_exists.mp hnth) with hfault | ⟨n, hn⟩
    · exact .inl hfault
    · exact .inr ⟨n, none, hn, rfl⟩

/-- An edit that is applied returns its number, which is not 0. -/
theorem applied_ne_zero (haction : accepted actionBuf = true)
    (hname : filename ∉ ["high".toList, "medium".toList, "low".toList])
    (hlen : (fileOf filename).length < 128) (hne : content ≠ []) (htmp : host.makesTmp = true)
    (happlies : Applies filename idx actionBuf content) {r : ℤ} {file' : Option Text}
    (hrun : setRulesAction host filename idx actionBuf (some content) = .ok (r, file')) :
    r ≠ 0 := by
  obtain ⟨p, hp, -, -⟩ := happlies
  have hidx : 1 ≤ idx := by
    obtain ⟨before, after, -, -, -, hcount⟩ := hp
    omega
  rw [setRulesAction_search haction hname hlen hne htmp, search_found hp] at hrun
  cases hfound : editFound (runsOff host content) filename actionBuf content p with
  | error f =>
    rw [hfound] at hrun
    cases hrun
  | ok w =>
    rw [hfound] at hrun
    cases hback : copyBack host (fileOf filename) (w.getD []) content with
    | error f =>
      simp only [Except.map, Except.bind, hback] at hrun
      cases hrun
    | ok f =>
      simp only [Except.map, Except.bind, hback, Except.ok.injEq, Prod.mk.injEq] at hrun
      rw [← hrun.1]
      split <;> omega

theorem keeps_of_applies (haction : accepted actionBuf = true)
    (hname : filename ∉ ["high".toList, "medium".toList, "low".toList])
    (happlies : Applies filename idx actionBuf content) :
    KeepsFile host filename idx actionBuf (some content) := by
  refine ⟨fun r file' hrun hzero => ?_, fun hnot => absurd happlies (hnot content rfl)⟩
  by_cases hlong : 128 ≤ (fileOf filename).length
  · rw [setRulesAction_long haction hlong] at hrun
    cases hrun
  · by_cases hunwritten : content = [] ∨ host.makesTmp = false
    · rw [setRulesAction_unwritten idx haction hname (not_le.mp hlong)
        (hunwritten.imp (congrArg some) id |> .inr)] at hrun
      cases hrun
      rfl
    · rw [not_or, Bool.not_eq_false] at hunwritten
      exact absurd hzero
        (applied_ne_zero haction hname (not_le.mp hlong) hunwritten.1 hunwritten.2 happlies hrun)

/-- The copy of the empty temporary file leaves nothing of the rule file. -/
theorem emptied (hcp : Copies host filename) (haction : accepted actionBuf = true)
    (hname : filename ∉ ["high".toList, "medium".toList, "low".toList])
    (hlen : (fileOf filename).length < 128) (hne : content ≠ []) (htmp : host.makesTmp = true)
    (hnot : ¬ Applies filename idx actionBuf content) {r : ℤ} {file' : Option Text}
    (hrun : setRulesAction host filename idx actionBuf (some content) = .ok (r, file')) :
    file' = some [] := by
  rw [setRulesAction_search haction hname hlen hne htmp] at hrun
  rcases search_not_applied host hnot with ⟨f, hf⟩ | ⟨n, w, hw, hnil⟩
  · rw [hf] at hrun
    cases hrun
  · rw [hw] at hrun
    simp only [Except.bind, hnil, copyBack, hcp [] content] at hrun
    by_cases hcommand : 128 ≤ (copyCommand (fileOf filename)).length
    · rw [if_pos hcommand] at hrun
      cases hrun
    · rw [if_neg hcommand] at hrun
      cases hrun
      rfl

end Search

/-- Apart from changes that are applied, the file is kept only where the search does not start. -/
theorem setRulesAction_keeps_iff {host : Host} {filename : Text} (idx : ℤ) {actionBuf : Text}
    (file : Option Text) (hcp : Copies host filename)
    (hname : filename ∉ ["high".toList, "medium".toList, "low".toList])
    (haction : accepted actionBuf = true) :
    KeepsFile host filename idx actionBuf file ↔
      (∃ content, file = some content ∧ Applies filename idx actionBuf content) ∨
        (fileOf filename).length < 128 ∧
          (file = none ∨ file = some [] ∨ host.makesTmp = false) := by
  constructor
  · intro hkeeps
    by_contra hnot
    rw [not_or] at hnot
    obtain ⟨happlies, hopen⟩ := hnot
    obtain ⟨r, hrun⟩ := hkeeps.2 fun content hcontent happly =>
      happlies ⟨content, hcontent, happly⟩
    by_cases hlong : 128 ≤ (fileOf filename).length
    · rw [setRulesAction_long haction hlong] at hrun
      cases hrun
    · cases file with
      | none => exact hopen ⟨not_le.mp hlong, .inl rfl⟩
      | some content =>
        have hne : content ≠ [] := fun h => hopen ⟨not_le.mp hlong, .inr (.inl (by rw [h]))⟩
        have htmp : host.makesTmp = true := by
          by_contra h
          exact hopen ⟨not_le.mp hlong, .inr (.inr (by simpa using h))⟩
        have hempty := emptied hcp haction hname (not_le.mp hlong) hne htmp
          (fun happly => happlies ⟨content, rfl, happly⟩) hrun
        exact hne (Option.some.inj hempty)
  · intro h
    rcases h with ⟨content, rfl, happlies⟩ | ⟨hlen, hopen⟩
    · exact keeps_of_applies haction hname happlies
    · have hrun := setRulesAction_unwritten idx haction hname hlen hopen
      refine ⟨fun r file' hr _ => ?_, fun _ => ⟨0, hrun⟩⟩
      rw [hrun] at hr
      cases hr
      rfl

def oneSet : Text := "# sets\ninclude $RULE_PATH/web.rules\n".toList

/-- The hypotheses hold of `snort.conf` and a command that copies. -/
theorem keeps_iff_of_one_set :
    KeepsFile ⟨4096, true, fun _ written _ => written⟩ "rules".toList 2 "enable".toList
        (some oneSet) ↔
      (∃ content, some oneSet = some content ∧
        Applies "rules".toList 2 "enable".toList content) ∨
          (fileOf "rules".toList).length < 128 ∧
            (some oneSet = none ∨ some oneSet = some [] ∨
              (⟨4096, true, fun _ written _ => written⟩ : Host).makesTmp = false) :=
  setRulesAction_keeps_iff 2 (some oneSet) (fun _ _ => rfl) (by decide) (by decide)

/-- A number that no rule set has empties `snort.conf`. -/
theorem missing_number_empties :
    setRulesAction ⟨4096, true, fun _ written _ => written⟩ "rules".toList 2 "enable".toList
        (some oneSet) = .ok (0, some []) ∧
      ¬ KeepsFile ⟨4096, true, fun _ written _ => written⟩ "rules".toList 2 "enable".toList
        (some oneSet) := by
  have hrun : setRulesAction ⟨4096, true, fun _ written _ => written⟩ "rules".toList 2
      "enable".toList (some oneSet) = .ok (0, some []) := by decide +kernel
  refine ⟨hrun, fun hkeeps => ?_⟩
  have hsame := hkeeps.1 0 (some []) hrun rfl
  cases hsame

end SnortKeep
