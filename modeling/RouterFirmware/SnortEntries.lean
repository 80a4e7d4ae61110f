import RouterFirmware.SnortListing

/-! # Switching one rule set off and on

`set_rules_action` puts the mark in front of a rule set and takes it away. The text around it stays,
but what the other rule sets are shown as depends on the text around them.
-/
namespace SnortEntries

open TextStream CString PatternLoop SnortRules SnortKeep SnortListing

def mark : Text := "#ox ".toList

/-- A rule set behind `a` with `m` in front of it. -/
def withSet (a m y : Text) : Text := a ++ m ++ (rulesHead ++ y)

def placeOf (a m y : Text) : Place := ⟨(a ++ m).reverse, rulesHead ++ y⟩

def earlier (a m y : Text) : List Place :=
  (places rulesHead [] a).map fun q => ⟨q.before, q.here ++ m ++ (rulesHead ++ y)⟩

/-- The rule sets behind it, with `b` before it. -/
def later (b y : Text) : List Place :=
  (places rulesHead [] y).map fun q => ⟨q.before ++ (rulesHead.reverse ++ b), q.here⟩

/-- The rule set behind `a` is number `idx`. -/
structure IsSet (a : Text) (idx : ℤ) : Prop where
  nul : '\x00' ∉ a
  legible : ∀ q ∈ places rulesHead [] a, Legible q
  count : (places rulesHead [] a).countP isShown + 1 = idx

section Texts

variable {a m y : Text} {idx : ℤ} {host : Host}

/-- The first character of the pattern stands at its start only. -/
theorem head_notMem : 'i' ∉ "nclude $RULE_PATH/".toList := by decide

theorem rulesHead_eq : rulesHead = 'i' :: "nclude $RULE_PATH/".toList := rfl

theorem rulesHead_reverse_append (b : Text) :
    rulesHead.reverse ++ b = "nclude $RULE_PATH/".toList.reverse ++ 'i' :: b := by
  rw [rulesHead_eq, List.reverse_cons, List.append_assoc, List.singleton_append]

theorem places_mark (a : Text) : places rulesHead [] (a ++ mark) =
    (places rulesHead [] a).map fun q => ⟨q.before, q.here ++ mark⟩ := by
  have hmark : mark = '#' :: "ox ".toList := rfl
  have happend := places_append (c := 'i') (t := "nclude $RULE_PATH/".toList) (d := '#')
    (by decide) [] a "ox ".toList
  have hnone := places_skip (c := 'i') (t := "nclude $RULE_PATH/".toList) (w := mark)
    (by decide) a.reverse []
  rw [← rulesHead_eq, ← hmark, List.append_nil] at happend
  rw [← rulesHead_eq, List.append_nil] at hnone
  rw [happend, hnone]
  exact List.append_nil _

theorem places_withSet (a y : Text) (hm : m = [] ∨ m = mark) :
    places rulesHead [] (withSet a m y) =
      earlier a m y ++ placeOf a m y :: later (a ++ m).reverse y := by
  have hsplit := places_split head_notMem (a ++ m) y
  simp only [← rulesHead_eq, ← rulesHead_reverse_append] at hsplit
  rw [withSet, hsplit, earlier, placeOf, later]
  congr 1
  rcases hm with rfl | rfl
  · simp
  · rw [places_mark, List.map_map]
    rfl

theorem visible_append (h : '\x00' ∉ a) (y : Text) : visible (a ++ y) = a ++ visible y := by
  unfold visible
  apply List.takeWhile_append_of_pos
  intro c hc
  rw [decide_eq_true_iff]
  rintro rfl
  exact h hc

theorem nul_notMem (hm : m = [] ∨ m = mark) : '\x00' ∉ m := by
  rcases hm with rfl | rfl
  · exact List.not_mem_nil
  · decide

theorem visible_withSet (ha : '\x00' ∉ a) (y : Text) (hm : m = [] ∨ m = mark) :
    visible (withSet a m y) = withSet a m (visible y) := by
  unfold withSet
  rw [visible_append (by simp [ha, nul_notMem hm]), visible_append (by decide)]

theorem withSet_ne_nil (a m y : Text) : withSet a m y ≠ [] := by
  unfold withSet
  rw [rulesHead_eq]
  simp

theorem before_placeOf_mark (a y : Text) :
    (placeOf a mark y).before = [' ', 'x', 'o', '#'] ++ a.reverse := by
  rw [placeOf, List.reverse_append]
  rfl

theorem isOff_placeOf_mark (a y : Text) : isOff (placeOf a mark y) = true := by
  rw [isOff, before_placeOf_mark]
  rfl

theorem isShown_placeOf_mark (a y : Text) : isShown (placeOf a mark y) = true := by
  rw [isShown, before_placeOf_mark]
  rfl

theorem legible_placeOf_mark (a y : Text) : Legible (placeOf a mark y) := by
  unfold Legible
  rw [before_placeOf_mark]
  refine ⟨by simp, fun _ => ?_⟩
  rw [List.length_append]
  exact Nat.le_add_right 4 _

end Texts

section Editing

variable {a m y text name content new action : Text} {idx : ℤ} {host : Host} {p : Place}

theorem counts_of_ne (h : p.before ≠ []) : counts "rules".toList p = .ok (isShown p) := by
  rw [counts, isHidden_of_ne h]
  cases isShown p <;> rfl

theorem isNth_withSet (h : IsSet a idx) (hm : m = [] ∨ m = mark)
    (hp : Legible (placeOf a m (visible y))) (hshown : isShown (placeOf a m (visible y)) = true) :
    IsNth (counts "rules".toList) idx (places rulesHead [] (visible (withSet a m y)))
      (placeOf a m (visible y)) := by
  rw [visible_withSet h.nul y hm, places_withSet a (visible y) hm]
  refine ⟨_, _, rfl, ?_, by rw [counts_of_ne hp.1, hshown], ?_⟩
  · intro q' hq'
    obtain ⟨q, hq, rfl⟩ := List.mem_map.mp hq'
    have hne : q.before ≠ [] := (h.legible q hq).1
    exact ⟨_, counts_of_ne hne⟩
  · have hcount : (earlier a m (visible y)).countP
        (fun q => decide (counts "rules".toList q = .ok true)) =
          (places rulesHead [] a).countP isShown := by
      rw [earlier, List.countP_map]
      apply List.countP_congr
      intro q hq
      have hcounts : counts "rules".toList ⟨q.before, q.here ++ m ++ (rulesHead ++ visible y)⟩ =
          .ok (isShown q) := counts_of_ne (h.legible q hq).1
      rw [Function.comp_apply, hcounts, decide_eq_true_iff, Except.ok.injEq]
    rw [hcount]
    exact h.count

theorem setRulesAction_edit (hcp : Copies host "rules".toList) (htmp : host.makesTmp = true)
    (haction : accepted action = true) (hne : content ≠ [])
    (hnth : IsNth (counts "rules".toList) idx (places rulesHead [] (visible content)) p)
    (htext : textOf p = some text) (hname : copyTo 128 rulesHead.length text = .ok name)
    (hedit : editSet action content p = .ok new) :
    setRulesAction host "rules".toList idx action (some content) = .ok (idx, some new) := by
  have hidx : (idx.toNat : ℤ) = idx := by
    obtain ⟨before, after, -, -, -, hcount⟩ := hnth
    omega
  obtain ⟨tail, htail⟩ := strstr_of_textOf htext
  have hfound : strstr (tailOf "rules".toList) p.here = some (text, tail) := htail
  rw [setRulesAction_search haction (by decide) (by decide) hne htmp, search_found hnth,
    editFound_tail hfound, show headOf "rules".toList = rulesHead from rfl, hname,
    if_pos (show isRules "rules".toList = true from rfl), hedit]
  have hback : copyBack host (fileOf "rules".toList) new content = .ok (some new) := by
    rw [copyBack, if_neg (by decide), hcp new content]
  simp only [Except.bind, Except.map, Option.getD_some, hidx, hback]
  rw [if_neg (Int.lt_irrefl idx)]

theorem drop_withSet (a m y : Text) :
    (withSet a m y).drop (placeOf a m (visible y)).before.length = rulesHead ++ y := by
  rw [placeOf, List.length_reverse, withSet, List.drop_left]

theorem editSet_disable (hlen : 4 ≤ (a ++ m).length)
    (hm : m = mark ∨ m = [] ∧ isOff (placeOf a m (visible y)) = false) :
    editSet "disable".toList (withSet a m y) (placeOf a m (visible y)) =
      .ok (withSet a mark y) := by
  have hmarked : isMarked (placeOf a m (visible y)) = .ok (isOff (placeOf a m (visible y))) :=
    isMarked_of_le (by rwa [placeOf, List.length_reverse])
  rw [editSet, if_neg (by decide), if_pos rfl, hmarked, drop_withSet, placeOf,
    List.reverse_reverse, ← placeOf]
  rcases hm with rfl | ⟨rfl, hoff⟩
  · rw [isOff_placeOf_mark]
    simp [Except.map, withSet]
  · rw [hoff]
    simp [Except.map, withSet, mark]

theorem editSet_enable (a y : Text) :
    editSet "enable".toList (withSet a mark y) (placeOf a mark (visible y)) =
      .ok (withSet a [] y) := by
  have hmarked := isMarked_of_le ((legible_placeOf_mark a (visible y)).2 (isShown_placeOf_mark a _))
  rw [isOff_placeOf_mark] at hmarked
  rw [editSet, if_pos rfl, hmarked, drop_withSet, before_placeOf_mark]
  simp [Except.map, withSet]

end Editing

section Listing

variable {a m y text v w : Text} {idx : ℤ} {host : Host} {es : List Entry} {ended : Bool}
  {p q : Place}

theorem textOf_append {c : Char} (hc : c ∉ rulesTail) (b w u : Text) :
    textOf ⟨b, w ++ c :: u⟩ = (textOf ⟨b, w⟩).or ((textOf ⟨b, c :: u⟩).map fun t => w ++ t) := by
  have hu : textOf ⟨b, c :: u⟩ = (strstr rulesTail u).map fun r => c :: r.1 := by
    have happend := strstr_append (by decide) hc [] u
    rw [List.nil_append] at happend
    rw [textOf, happend, show strstr rulesTail [] = none by decide]
    simp [Function.comp_def]
  rw [hu, textOf, strstr_append (by decide) hc, textOf]
  cases strstr rulesTail w <;> cases strstr rulesTail u <;> rfl

theorem textOf_head (b w y : Text) : textOf ⟨b, w ++ (rulesHead ++ y)⟩ =
    (textOf ⟨b, w⟩).or ((textOf ⟨b, rulesHead ++ y⟩).map fun t => w ++ t) :=
  textOf_append (by decide) b w ("nclude $RULE_PATH/".toList ++ y)

theorem textOf_mark (b w : Text) : textOf ⟨b, w ++ mark⟩ = textOf ⟨b, w⟩ := by
  have happend : textOf ⟨b, w ++ mark⟩ =
      (textOf ⟨b, w⟩).or ((textOf ⟨b, mark⟩).map fun t => w ++ t) :=
    textOf_append (by decide) b w "ox ".toList
  have hnone : strstr rulesTail mark = none := by decide
  rw [happend, textOf, textOf, hnone]
  simp

/-- A rule set in front has its own end, or it goes on to the end of the one behind it. -/
theorem textOf_earlier (hm : m = [] ∨ m = mark) (q : Place) (y : Text) :
    textOf ⟨q.before, q.here ++ m ++ (rulesHead ++ y)⟩ =
      (textOf q).or ((textOf (placeOf a m y)).map fun t => q.here ++ m ++ t) := by
  have hown : textOf ⟨q.before, q.here ++ m⟩ = textOf q := by
    rcases hm with rfl | rfl
    · rw [List.append_nil]
    · exact textOf_mark q.before q.here
  rw [textOf_head, hown]
  rfl

/-- What the rule sets behind are shown as does not depend on the text before. -/
theorem listFrom_later (b y : Text) (printed : List Entry) :
    listFrom false (later b y) printed = listFrom false (later [] y) printed := by
  apply visit_congr
  intro q _ s
  apply listBody_congr
  · have hlen : 4 ≤ (q.before ++ rulesHead.reverse).length := by
      rw [List.length_append]
      exact Nat.le_add_left_of_le (by decide)
    rw [← List.append_assoc, ← List.append_assoc, List.take_append_of_le_length hlen,
      List.take_append_of_le_length hlen]
  · rfl

theorem printAll_withSet (host : Host) (ha : '\x00' ∉ a) (hm : m = [] ∨ m = mark)
    (htext : textOf (placeOf a m (visible y)) = some text) :
    printAll host "rules".toList (some (withSet a m y)) = .ok (es, ended) ↔
      runsOff host (withSet a m y) = false ∧
        (∀ q ∈ earlier a m (visible y), Legible q ∧ Fits q) ∧
          (Legible (placeOf a m (visible y)) ∧ Fits (placeOf a m (visible y))) ∧
            ∃ rest, listFrom false (later [] (visible y)) [] = .ok (rest, ended) ∧
              es = shown (earlier a m (visible y)) ++
                (shown [placeOf a m (visible y)] ++ rest) := by
  have hsome : ∀ q ∈ earlier a m (visible y) ++ [placeOf a m (visible y)],
      (textOf q).isSome = true := by
    intro q' hq'
    rcases List.mem_append.mp hq' with hq | hq
    · obtain ⟨q, -, rfl⟩ := List.mem_map.mp hq
      rw [textOf_earlier (a := a) hm, htext]
      simp
    · rw [List.mem_singleton.mp hq, htext]
      rfl
  rw [printAll_eq host (withSet_ne_nil a m y), visible_withSet ha y hm,
    places_withSet a (visible y) hm]
  cases hoff : runsOff host (withSet a m y) with
  | true =>
    constructor
    · intro h
      obtain ⟨f, hf⟩ := listFrom_off (earlier a m (visible y) ++
        placeOf a m (visible y) :: later (a ++ m).reverse (visible y)) []
      rw [hf] at h
      cases h
    · intro h
      cases h.1
  | false =>
    rw [List.append_cons, listFrom_append hsome, listFrom_later, listFrom_printed,
      List.forall_mem_append, List.forall_mem_singleton, shown_append, List.nil_append]
    constructor
    · intro h
      obtain ⟨⟨hbefore, hp⟩, hrest⟩ := h
      cases hlater : listFrom false (later [] (visible y)) [] with
      | error f =>
        rw [hlater] at hrest
        cases hrest
      | ok r =>
        rw [hlater] at hrest
        cases hrest
        exact ⟨rfl, hbefore, hp, r.1, rfl, List.append_assoc _ _ _⟩
    · intro h
      obtain ⟨-, hbefore, hp, rest, hrest, rfl⟩ := h
      refine ⟨⟨hbefore, hp⟩, ?_⟩
      rw [hrest, Except.map, List.append_assoc]

theorem head_le_here (hq : q ∈ places rulesHead [] a) : rulesHead.length ≤ q.here.length := by
  obtain ⟨-, hpattern, -⟩ := mem_places hq
  exact hpattern.length_le

/-- A rule set in front is shown as before if it ends in front. Otherwise the mark is in its
name. -/
theorem entryOf_earlier_iff {m' : Text} (hm : m = [] ∨ m = mark) (hm' : m' = [] ∨ m' = mark)
    (hdiff : m.length ≠ m'.length) (htext : textOf (placeOf a m y) = some text)
    (hq : q ∈ places rulesHead [] a) :
    entryOf ⟨q.before, q.here ++ m ++ (rulesHead ++ y)⟩ =
        entryOf ⟨q.before, q.here ++ m' ++ (rulesHead ++ y)⟩ ↔ (textOf q).isSome = true := by
  have htext' : textOf (placeOf a m' y) = some text := htext
  have hlen := head_le_here hq
  unfold entryOf
  rw [textOf_earlier (a := a) hm, textOf_earlier (a := a) hm', htext, htext']
  cases hown : textOf q with
  | some t => exact iff_of_true rfl rfl
  | none =>
    refine iff_of_false (fun h => ?_) (by simp)
    have hname := congrArg (fun e => e.name.length) h
    simp only [Option.map_some, Option.none_or, Option.getD_some, List.length_drop,
      List.length_append] at hname
    omega

theorem length_shown_earlier (a m y : Text) :
    (shown (earlier a m y)).length = (places rulesHead [] a).countP isShown := by
  rw [shown, List.length_map, ← List.countP_eq_length_filter, earlier, List.countP_map]
  rfl

theorem shown_earlier_iff {m' : Text} (hm : m = [] ∨ m = mark) (hm' : m' = [] ∨ m' = mark)
    (hdiff : m.length ≠ m'.length) (htext : textOf (placeOf a m y) = some text) :
    shown (earlier a m y) = shown (earlier a m' y) ↔
      ∀ q ∈ places rulesHead [] a, isShown q = true → (textOf q).isSome = true := by
  have hshown : ∀ m, shown (earlier a m y) = ((places rulesHead [] a).filter isShown).map
      fun q => entryOf ⟨q.before, q.here ++ m ++ (rulesHead ++ y)⟩ := by
    intro m
    rw [shown, earlier, List.filter_map, List.map_map]
    rfl
  rw [hshown, hshown, List.map_inj_left]
  constructor
  · intro h q hq hshown
    exact (entryOf_earlier_iff hm hm' hdiff htext hq).mp (h q (List.mem_filter.mpr ⟨hq, hshown⟩))
  · intro h q hq
    obtain ⟨hmem, hshown⟩ := List.mem_filter.mp hq
    exact (entryOf_earlier_iff hm hm' hdiff htext hmem).mpr (h q hmem hshown)

theorem modify_middle {α : Type} (l r : List α) (x : α) (f : α → α) :
    (l ++ x :: r).modify l.length f = l ++ f x :: r :=
  List.modifyTailIdx_add (List.modifyHead f) 0 l (x :: r)

theorem shown_singleton (h : isShown p = true) : shown [p] = [entryOf p] := by
  rw [shown, List.filter_cons, if_pos h]
  rfl

/-- With the mark put or taken away, the listing is the same but for the action of number `idx`. -/
theorem printAll_switched {m' : Text} (h : IsSet a idx) (hm : m = [] ∨ m = mark)
    (hm' : m' = [] ∨ m' = mark) (hdiff : m.length ≠ m'.length)
    (htext : textOf (placeOf a m (visible y)) = some text)
    (hshown : isShown (placeOf a m (visible y)) = true)
    (hlist : printAll host "rules".toList (some (withSet a m y)) = .ok (es, ended)) :
    (∃ act, printAll host "rules".toList (some (withSet a m' y)) =
        .ok (es.modify (idx.toNat - 1) fun e => { e with act := act }, ended)) ↔
      runsOff host (withSet a m' y) = false ∧
        (isShown (placeOf a m' (visible y)) = true ∧ Legible (placeOf a m' (visible y))) ∧
          ∀ q ∈ places rulesHead [] a, isShown q = true → (textOf q).isSome = true := by
  have htext' : textOf (placeOf a m' (visible y)) = some text := htext
  have hidx : idx.toNat - 1 = (shown (earlier a m (visible y))).length := by
    rw [length_shown_earlier]
    have hcount := h.count
    omega
  obtain ⟨-, hearlier, hp, rest, hrest, rfl⟩ := (printAll_withSet host h.nul hm htext).mp hlist
  rw [shown_singleton hshown, List.singleton_append, hidx]
  simp only [modify_middle, printAll_withSet host h.nul hm' htext', hrest]
  rw [← shown_earlier_iff hm hm' hdiff htext]
  constructor
  · intro hswitched
    obtain ⟨act, hoff, -, hp', rest', hrest', hes⟩ := hswitched
    cases hrest'
    have hlen : (shown (earlier a m (visible y))).length =
        (shown (earlier a m' (visible y))).length := by
      rw [length_shown_earlier, length_shown_earlier]
    obtain ⟨hsame, hbehind⟩ := List.append_inj hes hlen
    refine ⟨hoff, ⟨?_, hp'.1⟩, hsame⟩
    -- a hidden rule set would be missing in the listing
    by_contra hhidden
    have hmissing := congrArg List.length hbehind
    rw [shown, List.filter_cons, if_neg hhidden] at hmissing
    simp at hmissing
  · intro hswitched
    obtain ⟨hoff, hp', hsame⟩ := hswitched
    refine ⟨(entryOf (placeOf a m' (visible y))).act, hoff, ?_, ⟨hp'.2, fun _ => hp.2 hshown⟩,
      rest, rfl, by rw [hsame, shown_singleton hp'.1]; rfl⟩
    intro q' hq'
    obtain ⟨q, hq, rfl⟩ := List.mem_map.mp hq'
    have hbefore := hearlier _ (List.mem_map_of_mem hq)
    refine ⟨hbefore.1, fun hq' t ht => hbefore.2 hq' t ?_⟩
    have hend := (shown_earlier_iff hm hm' hdiff htext).mp hsame q hq hq'
    obtain ⟨own, hown⟩ := Option.isSome_iff_exists.mp hend
    rw [textOf_earlier (a := a) hm', hown] at ht
    rw [textOf_earlier (a := a) hm, hown]
    exact ht

theorem legible_withSet (h : IsSet a idx) (hm : m = [] ∨ m = mark)
    (hp : Legible (placeOf a m (visible y))) :
    ∀ q ∈ places rulesHead [] (visible (withSet a m y)), Legible q := by
  intro q' hq'
  rw [visible_withSet h.nul y hm, places_withSet a (visible y) hm] at hq'
  rcases List.mem_append.mp hq' with hbefore | hfrom
  · obtain ⟨q, hq, rfl⟩ := List.mem_map.mp hbefore
    exact h.legible q hq
  · rcases List.mem_cons.mp hfrom with rfl | hbehind
    · exact hp
    · obtain ⟨q, -, rfl⟩ := List.mem_map.mp hbehind
      have hlen : 4 ≤ (q.before ++ (rulesHead.reverse ++ (a ++ m).reverse)).length := by
        rw [List.length_append, List.length_append]
        exact Nat.le_add_left_of_le (Nat.le_add_right_of_le (by decide))
      exact ⟨List.ne_nil_of_length_pos (Nat.lt_of_lt_of_le (by decide) hlen), fun _ => hlen⟩

end Listing

/-- The second file is listed as the first one, but for the action of number `idx`. -/
def OnlyState (host : Host) (idx : ℤ) (content content' : Text) : Prop :=
  ∀ es ended, printAll host "rules".toList (some content) = .ok (es, ended) →
    ∃ act, printAll host "rules".toList (some content') =
      .ok (es.modify (idx.toNat - 1) fun e => { e with act := act }, ended)

/-- Number `idx`, which is shown as `e`, can be switched off and on again: the file is as before if
it was on, and neither edit shows in the listing but in its action. -/
def Undoes (host : Host) (idx : ℤ) (e : Entry) (content : Text) : Prop :=
  ∃ r disabled r' enabled,
    setRulesAction host "rules".toList idx "disable".toList (some content) =
      .ok (r, some disabled) ∧
    setRulesAction host "rules".toList idx "enable".toList (some disabled) =
      .ok (r', some enabled) ∧
    (e.act = "enable".toList → enabled = content) ∧ OnlyState host idx content disabled ∧
      OnlyState host idx content enabled

/-- Every rule set in front of the place ends in front of it. -/
def Apart (p : Place) : Prop :=
  ∀ q ∈ places rulesHead [] p.before.reverse, isShown q = true → (textOf q).isSome = true

/-- Without the four characters of its mark the rule set is still shown. -/
def StaysShown (p : Place) : Prop := 8 ≤ p.before.length ∧ p.before[4]? ≠ some '#'

/-- With `n` characters the file ends in the mapping. -/
def Ends (host : Host) (content : Text) (n : ℕ) : Prop :=
  '\x00' ∈ content ∨ n % host.page ≠ 0

/-- The mark can be put in front of the place, or taken away. -/
def CanSwitch (host : Host) (content : Text) (p : Place) : Prop :=
  Apart p ∧ if isOff p then StaysShown p ∧ Ends host content (content.length - 4)
    else Ends host content (content.length + 4)

section Switch

variable {a m m' y text content : Text} {idx : ℤ} {host : Host} {p : Place} {e : Entry}

theorem onlyState_refl (host : Host) (idx : ℤ) (content : Text) :
    OnlyState host idx content content := by
  intro es ended hlist
  cases hes : es[idx.toNat - 1]? with
  | none =>
    refine ⟨[], ?_⟩
    rw [List.modify_eq_self (List.getElem?_eq_none_iff.mp hes), hlist]
  | some e =>
    refine ⟨e.act, ?_⟩
    have hsame : es.modify (idx.toNat - 1) (fun e' => { e' with act := e.act }) = es := by
      apply List.ext_getElem?
      intro j
      rw [List.getElem?_modify]
      split
      · next hj =>
        rw [← hj, hes]
        rfl
      · simp
    rw [hsame, hlist]

theorem onlyState_withSet_iff (h : IsSet a idx) (hm : m = [] ∨ m = mark)
    (hm' : m' = [] ∨ m' = mark) (hdiff : m.length ≠ m'.length)
    (htext : textOf (placeOf a m (visible y)) = some text)
    (hshown : isShown (placeOf a m (visible y)) = true)
    (hp : Legible (placeOf a m (visible y))) :
    OnlyState host idx (withSet a m y) (withSet a m' y) ↔
      (Listable host (withSet a m y) → runsOff host (withSet a m' y) = false ∧
        (isShown (placeOf a m' (visible y)) = true ∧ Legible (placeOf a m' (visible y))) ∧
          ∀ q ∈ places rulesHead [] a, isShown q = true → (textOf q).isSome = true) := by
  rw [listable_iff host (withSet_ne_nil a m y) (legible_withSet h hm hp)]
  constructor
  · intro hstate hlist
    obtain ⟨⟨es, ended⟩, hr⟩ := hlist
    exact (printAll_switched h hm hm' hdiff htext hshown hr).mp (hstate es ended hr)
  · intro hlist es ended hr
    exact (printAll_switched h hm hm' hdiff htext hshown hr).mpr (hlist ⟨_, hr⟩)

theorem runsOff_withSet (host : Host) (ha : '\x00' ∉ a) (hm : m = [] ∨ m = mark)
    (hm' : m' = [] ∨ m' = mark) (y : Text) :
    runsOff host (withSet a m' y) = false ↔
      Ends host (withSet a m y) (withSet a m' y).length := by
  have hmem : ∀ m, m = [] ∨ m = mark → ('\x00' ∈ withSet a m y ↔ '\x00' ∈ y) := by
    intro m hm
    have hhead : '\x00' ∉ rulesHead := by decide
    simp [withSet, ha, nul_notMem hm, hhead]
  unfold runsOff Ends
  rw [hmem m hm, ← hmem m' hm']
  simp [or_iff_not_imp_left]

theorem IsSet.of_mark (h : IsSet (a ++ mark) idx) : IsSet a idx := by
  refine ⟨fun hmem => h.nul (List.mem_append_left _ hmem), fun q hq => ?_, ?_⟩
  · have hplaces := h.legible ⟨q.before, q.here ++ mark⟩
    rw [places_mark] at hplaces
    exact hplaces (List.mem_map_of_mem hq)
  · have hcount := h.count
    rw [places_mark, List.countP_map] at hcount
    exact hcount

theorem legible_of_countsInPrint {b : Bool} (h : countsInPrint "rules".toList p = .ok b) :
    Legible p ∧ b = isShown p := by
  by_cases hne : p.before = []
  · rw [countsInPrint, isHidden, hne] at h
    cases h
  · rw [countsInPrint, isHidden_of_ne hne] at h
    cases hp : isShown p with
    | false =>
      rw [hp] at h
      cases h
      exact ⟨⟨hne, by simp [hp]⟩, rfl⟩
    | true =>
      rw [hp, shownAction, if_pos (show isRules "rules".toList = true from rfl)] at h
      by_cases hlen : 4 ≤ p.before.length
      · rw [isMarked_of_le hlen] at h
        cases h
        exact ⟨⟨hne, fun _ => hlen⟩, rfl⟩
      · rw [isMarked, if_pos (not_le.mp hlen)] at h
        cases h

theorem printFound_some {off : Bool} (hp : Legible p) (hshown : isShown p = true)
    (h : printFound off "rules".toList p = .ok (some e)) :
    (∃ text name, textOf p = some text ∧ copyTo 128 rulesHead.length text = .ok name) ∧
      e.act = if isOff p then "disable".toList else "enable".toList := by
  rw [printFound, shownAction, if_pos (show isRules "rules".toList = true from rfl),
    isMarked_of_le (hp.2 hshown), find, show tailOf "rules".toList = rulesTail from rfl] at h
  cases htail : strstr rulesTail p.here with
  | none =>
    rw [htail] at h
    cases off <;> cases h
  | some r =>
    rw [htail] at h
    change (copyTo 128 rulesHead.length r.1).bind _ = _ at h
    cases hcopy : copyTo 128 rulesHead.length r.1 with
    | error f =>
      rw [hcopy] at h
      cases h
    | ok name =>
      rw [hcopy] at h
      refine ⟨⟨r.1, name, by rw [textOf, htail]; rfl, hcopy⟩, ?_⟩
      change (getClasstypeSid off 128 80 (p.here.drop rulesHead.length)).bind _ = _ at h
      cases hclass : getClasstypeSid off 128 80 (p.here.drop rulesHead.length) with
      | error f =>
        rw [hclass] at h
        cases h
      | ok c =>
        rw [hclass] at h
        cases h
        rfl

/-- What `print_rules` shows is a rule set whose name fits, with its action. -/
theorem found_of_printRule {n : ℕ}
    (h : printRule host "rules".toList idx (some content) = .ok (n, some e)) :
    ∃ p, IsNth (countsInPrint "rules".toList) idx (places rulesHead [] (visible content)) p ∧
      (∃ text name, textOf p = some text ∧ copyTo 128 rulesHead.length text = .ok name) ∧
        e.act = if isOff p then "disable".toList else "enable".toList := by
  have hlen : ¬ 128 ≤ (fileOf "rules".toList).length := by decide
  by_cases hne : content = []
  · simp only [printRule, if_neg hlen, if_pos hne] at h
    cases h
  · simp only [printRule, if_neg hlen, if_neg hne, loop_nth] at h
    by_cases hnth : ∃ p, IsNth (countsInPrint "rules".toList) (idx - (0 : ℕ))
        (places (headOf "rules".toList) [] (visible content)) p
    · obtain ⟨p, hp⟩ := hnth
      rw [visit_nthBody hp] at h
      cases hfound : printFound (runsOff host content) "rules".toList p with
      | error f =>
        rw [hfound] at h
        cases h
      | ok r =>
        rw [hfound] at h
        cases h
        have hcount : countsInPrint "rules".toList p = .ok true := by
          obtain ⟨before, after, -, -, hcount, -⟩ := hp
          exact hcount
        obtain ⟨hlegible, hshown⟩ := legible_of_countsInPrint hcount
        rw [Nat.cast_zero, sub_zero] at hp
        exact ⟨p, hp, printFound_some hlegible hshown.symm hfound⟩
    · have hend : ∀ n : ℕ, _ := fun n =>
        atEnd_cases (runsOff host content) (n, (none : Option Entry))
      rcases visit_nthBody_none hend (not_exists.mp hnth) with ⟨f, hf⟩ | ⟨cnt, hcnt⟩
      · rw [hf] at h
        cases h
      · rw [hcnt] at h
        cases h

theorem exists_rest_of_visible {u v : Text} (h : visible content = u ++ v) :
    '\x00' ∉ u ++ v ∧ ∃ rest, content = u ++ (v ++ rest) ∧ visible (v ++ rest) = v := by
  have hnul : '\x00' ∉ u ++ v := by
    rw [← h]
    intro hmem
    have hsome := List.mem_takeWhile_imp hmem
    simp at hsome
  obtain ⟨rest, hrest⟩ : visible content <+: content := List.takeWhile_prefix _
  have hvisible : visible rest = [] := by
    have happend : visible content = visible content ++ visible rest := by
      conv_lhs => rw [← hrest]
      exact visible_append (by rwa [h]) rest
    simpa using happend
  refine ⟨hnul, rest, ?_, ?_⟩
  · rw [← List.append_assoc, ← h, hrest]
  · rw [visible_append (fun hmem => hnul (List.mem_append_right _ hmem)), hvisible,
      List.append_nil]

/-- The rule set that is found, between the text before it and the text behind. -/
theorem isSet_of_nth (h : IsNth (countsInPrint "rules".toList) idx
    (places rulesHead [] (visible content)) p) :
    IsSet p.before.reverse idx ∧ Legible p ∧ isShown p = true ∧
      ∃ y, p = placeOf p.before.reverse [] (visible y) ∧
        content = withSet p.before.reverse [] y := by
  obtain ⟨before, after, hplaces, hbefore, hp, hcount⟩ := h
  obtain ⟨hlegible, hshown⟩ := legible_of_countsInPrint hp
  have hmem : p ∈ places rulesHead [] (visible content) := by
    rw [hplaces]
    exact List.mem_append_right before List.mem_cons_self
  obtain ⟨-, ⟨v, hv⟩, w, hw, hpw⟩ := mem_places hmem
  rw [List.append_nil] at hpw
  have hw' : p.before.reverse = w := by rw [hpw, List.reverse_reverse]
  have hparts : visible content = (w ++ rulesHead) ++ v := by
    rw [List.append_assoc, hv, hw]
  obtain ⟨hnul, rest, hrest, hv'⟩ := exists_rest_of_visible hparts
  have hpv : p = ⟨w.reverse, rulesHead ++ v⟩ := by
    rw [hv, ← hpw]
  rw [hw, ← hv, hpv, rulesHead_eq] at hplaces
  have hearlier := before_of_split head_notMem hplaces
  rw [← rulesHead_eq] at hearlier
  have hin : ∀ q ∈ places rulesHead [] w, ∃ b, countsInPrint "rules".toList
      ⟨q.before, q.here ++ (rulesHead ++ v)⟩ = .ok b := by
    intro q hq
    apply hbefore
    rw [hearlier]
    exact List.mem_map_of_mem hq
  rw [hw']
  refine ⟨⟨fun hmem => hnul (by simp [hmem]), ?_, ?_⟩, hlegible, hshown.symm, v ++ rest, ?_, ?_⟩
  · intro q hq
    obtain ⟨b, hb⟩ := hin q hq
    exact (legible_of_countsInPrint hb).1
  · have hsame : (places rulesHead [] w).countP (fun q => decide (countsInPrint "rules".toList
        ⟨q.before, q.here ++ (rulesHead ++ v)⟩ = .ok true)) =
          (places rulesHead [] w).countP isShown := by
      apply List.countP_congr
      intro q hq
      obtain ⟨b, hb⟩ := hin q hq
      rw [hb, decide_eq_true_iff, Except.ok.injEq, (legible_of_countsInPrint hb).2]
      rfl
    rw [hearlier, List.countP_map] at hcount
    rw [← hsame]
    exact hcount
  · rw [hv', hpv, placeOf, List.append_nil]
  · rw [withSet, List.append_nil, hrest, List.append_assoc]

theorem undoes_iff {r r' : ℤ} {disabled enabled : Text}
    (hdisable : setRulesAction host "rules".toList idx "disable".toList (some content) =
      .ok (r, some disabled))
    (henable : setRulesAction host "rules".toList idx "enable".toList (some disabled) =
      .ok (r', some enabled)) :
    Undoes host idx e content ↔ (e.act = "enable".toList → enabled = content) ∧
      OnlyState host idx content disabled ∧ OnlyState host idx content enabled := by
  constructor
  · intro h
    obtain ⟨_, disabled', _, enabled', hdisable', henable', h⟩ := h
    rw [hdisable] at hdisable'
    cases hdisable'
    rw [henable] at henable'
    cases henable'
    exact h
  · intro h
    exact ⟨r, disabled, r', enabled, hdisable, henable, h⟩

theorem canSwitch_on (host : Host) (ha : '\x00' ∉ a)
    (hoff : isOff (placeOf a [] (visible y)) = false) :
    CanSwitch host (withSet a [] y) (placeOf a [] (visible y)) ↔
      runsOff host (withSet a mark y) = false ∧
        (isShown (placeOf a mark (visible y)) = true ∧ Legible (placeOf a mark (visible y))) ∧
          ∀ q ∈ places rulesHead [] a, isShown q = true → (textOf q).isSome = true := by
  have hlen : (withSet a mark y).length = (withSet a [] y).length + 4 := by
    simp only [withSet, mark, List.length_append]
    change _ + 4 + _ = _ + 0 + _ + 4
    omega
  have happart : Apart (placeOf a [] (visible y)) ↔
      ∀ q ∈ places rulesHead [] a, isShown q = true → (textOf q).isSome = true := by
    rw [Apart, placeOf, List.append_nil, List.reverse_reverse]
  rw [CanSwitch, hoff, happart, runsOff_withSet host ha (.inl rfl) (.inr rfl), hlen]
  constructor
  · intro h
    exact ⟨h.2, ⟨isShown_placeOf_mark a _, legible_placeOf_mark a _⟩, h.1⟩
  · intro h
    exact ⟨h.2.2, h.1⟩

theorem canSwitch_off (host : Host) (ha : '\x00' ∉ a) :
    CanSwitch host (withSet a mark y) (placeOf a mark (visible y)) ↔
      runsOff host (withSet a [] y) = false ∧
        (isShown (placeOf a [] (visible y)) = true ∧ Legible (placeOf a [] (visible y))) ∧
          ∀ q ∈ places rulesHead [] a, isShown q = true → (textOf q).isSome = true := by
  have hlen : (withSet a mark y).length - 4 = (withSet a [] y).length := by
    simp only [withSet, mark, List.length_append]
    change _ + 4 + _ - 4 = _ + 0 + _
    omega
  have happart : Apart (placeOf a mark (visible y)) ↔
      ∀ q ∈ places rulesHead [] a, isShown q = true → (textOf q).isSome = true := by
    rw [Apart, placeOf, List.reverse_reverse, places_mark]
    simp only [List.forall_mem_map, textOf_mark]
    rfl
  have hstays : StaysShown (placeOf a mark (visible y)) ↔
      isShown (placeOf a [] (visible y)) = true ∧ Legible (placeOf a [] (visible y)) := by
    have hfifth : ([' ', 'x', 'o', '#'] ++ a.reverse)[4]? = a.reverse.head? :=
      List.head?_eq_getElem?.symm
    rw [StaysShown, before_placeOf_mark, hfifth, Legible, isShown, placeOf, List.append_nil,
      bne_iff_ne]
    constructor
    · intro h
      have hle : 4 ≤ a.reverse.length := by
        have hlong := h.1
        rw [List.length_append] at hlong
        exact Nat.le_of_add_le_add_left hlong
      exact ⟨h.2, List.ne_nil_of_length_pos (Nat.lt_of_lt_of_le (by decide) hle), fun _ => hle⟩
    · intro h
      refine ⟨?_, h.1⟩
      rw [List.length_append]
      exact Nat.add_le_add_left (h.2.2 h.1) 4
  rw [CanSwitch, isOff_placeOf_mark, if_pos rfl, happart, hstays, hlen,
    runsOff_withSet host ha (.inr rfl) (.inl rfl)]
  constructor
  · intro h
    exact ⟨h.2.2, h.2.1, h.1⟩
  · intro h
    exact ⟨h.2.2, h.2.1, h.1⟩

theorem undoes_of_on (hcp : Copies host "rules".toList) (htmp : host.makesTmp = true)
    (h : IsSet a idx) (hp : Legible (placeOf a [] (visible y)))
    (hshown : isShown (placeOf a [] (visible y)) = true)
    (hoff : isOff (placeOf a [] (visible y)) = false) {name : Text}
    (htext : textOf (placeOf a [] (visible y)) = some text)
    (hname : copyTo 128 rulesHead.length text = .ok name) :
    Undoes host idx e (withSet a [] y) ↔
      (Listable host (withSet a [] y) →
        CanSwitch host (withSet a [] y) (placeOf a [] (visible y))) := by
  have hlen : 4 ≤ (a ++ []).length := by simpa [placeOf] using hp.2 hshown
  have hdisable := setRulesAction_edit hcp htmp (by decide) (withSet_ne_nil a [] y)
    (isNth_withSet h (.inl rfl) hp hshown) htext hname (editSet_disable hlen (.inr ⟨rfl, hoff⟩))
  have henable := setRulesAction_edit hcp htmp (by decide) (withSet_ne_nil a mark y)
    (isNth_withSet h (.inr rfl) (legible_placeOf_mark a _) (isShown_placeOf_mark a _)) htext hname
    (editSet_enable a y)
  rw [undoes_iff hdisable henable, canSwitch_on host h.nul hoff,
    ← onlyState_withSet_iff h (.inl rfl) (.inr rfl) (by decide) htext hshown hp]
  constructor
  · intro hundoes
    exact hundoes.2.1
  · intro hstate
    exact ⟨fun _ => rfl, hstate, onlyState_refl host idx _⟩

theorem undoes_of_off (hcp : Copies host "rules".toList) (htmp : host.makesTmp = true)
    (h : IsSet a idx) (hact : e.act = "disable".toList) {name : Text}
    (htext : textOf (placeOf a mark (visible y)) = some text)
    (hname : copyTo 128 rulesHead.length text = .ok name) :
    Undoes host idx e (withSet a mark y) ↔
      (Listable host (withSet a mark y) →
        CanSwitch host (withSet a mark y) (placeOf a mark (visible y))) := by
  have hp := legible_placeOf_mark a (visible y)
  have hshown := isShown_placeOf_mark a (visible y)
  have hlen : 4 ≤ (a ++ mark).length := by
    rw [List.length_append]
    exact Nat.le_add_left_of_le (by decide)
  have hdisable := setRulesAction_edit hcp htmp (by decide) (withSet_ne_nil a mark y)
    (isNth_withSet h (.inr rfl) hp hshown) htext hname (editSet_disable hlen (.inl rfl))
  have henable := setRulesAction_edit hcp htmp (by decide) (withSet_ne_nil a mark y)
    (isNth_withSet h (.inr rfl) hp hshown) htext hname (editSet_enable a y)
  rw [undoes_iff hdisable henable, canSwitch_off host h.nul,
    ← onlyState_withSet_iff h (.inr rfl) (.inl rfl) (by decide) htext hshown hp]
  constructor
  · intro hundoes
    exact hundoes.2.2
  · intro hstate
    refine ⟨fun henabled => ?_, onlyState_refl host idx _, hstate⟩
    rw [hact] at henabled
    exact absurd henabled (by decide)

theorem eq_mark_of_isOff (h : isOff (placeOf a [] y) = true) : ∃ a', a = a' ++ mark := by
  have hmark : ((placeOf a [] y).before.take 4).reverse = mark := beq_iff_eq.mp h
  rw [placeOf, List.append_nil] at hmark
  refine ⟨(a.reverse.drop 4).reverse, ?_⟩
  rw [← hmark, ← List.reverse_append, List.take_append_drop, List.reverse_reverse]

end Switch

/-- Number `idx` can be switched off and on again exactly when nothing is written, when the file
cannot be listed, or when its place allows it. -/
theorem disable_enable_iff {host : Host} {idx : ℤ} {content : Text} {n : ℕ} {e : Entry}
    (hcp : Copies host "rules".toList)
    (hfound : printRule host "rules".toList idx (some content) = .ok (n, some e)) :
    Undoes host idx e content ↔ host.makesTmp = false ∨
      (Listable host content → ∃ p, IsNth (counts "rules".toList) idx
        (places rulesHead [] (visible content)) p ∧ CanSwitch host content p) := by
  obtain ⟨p, hnth, ⟨text, name, htext, hname⟩, hact⟩ := found_of_printRule hfound
  obtain ⟨hset, hp, hshown, y, hpy, hcontent⟩ := isSet_of_nth hnth
  generalize p.before.reverse = a at hset hpy hcontent
  subst hpy hcontent
  cases htmp : host.makesTmp with
  | false =>
    have hkept : ∀ action, accepted action = true →
        setRulesAction host "rules".toList idx action (some (withSet a [] y)) =
          .ok (0, some (withSet a [] y)) :=
      fun action haction => setRulesAction_unwritten idx haction (by decide) (by decide)
        (.inr (.inr htmp))
    rw [undoes_iff (hkept _ (by decide)) (hkept _ (by decide))]
    exact iff_of_true ⟨fun _ => rfl, onlyState_refl host idx _, onlyState_refl host idx _⟩
      (.inl rfl)
  | true =>
    have hplace : (∃ q, IsNth (counts "rules".toList) idx
        (places rulesHead [] (visible (withSet a [] y))) q ∧
          CanSwitch host (withSet a [] y) q) ↔
            CanSwitch host (withSet a [] y) (placeOf a [] (visible y)) := by
      have hp' := isNth_withSet hset (.inl rfl) hp hshown
      constructor
      · intro h
        obtain ⟨q, hq, hswitch⟩ := h
        rwa [hp'.unique hq]
      · intro hswitch
        exact ⟨_, hp', hswitch⟩
    rw [hplace, or_iff_right (by decide)]
    cases hoff : isOff (placeOf a [] (visible y)) with
    | false => exact undoes_of_on hcp htmp hset hp hshown hoff htext hname
    | true =>
      obtain ⟨a', rfl⟩ := eq_mark_of_isOff hoff
      rw [hoff, if_pos rfl] at hact
      have hset' := hset.of_mark
      have hwith : withSet (a' ++ mark) [] y = withSet a' mark y := by
        rw [withSet, List.append_nil, withSet]
      have hplaceOf : placeOf (a' ++ mark) [] (visible y) = placeOf a' mark (visible y) := by
        rw [placeOf, List.append_nil, placeOf]
      rw [hplaceOf] at htext
      rw [hwith, hplaceOf]
      exact undoes_of_off hcp htmp hset' hact htext hname

/-- The hypotheses hold of `snort.conf` with one rule set and a command that copies. -/
theorem disable_enable_of_one_set :
    Undoes ⟨4096, true, fun _ written _ => written⟩ 1 ⟨"enable".toList, "web".toList, [], []⟩
        oneSet ↔
      (⟨4096, true, fun _ written _ => written⟩ : Host).makesTmp = false ∨
        (Listable ⟨4096, true, fun _ written _ => written⟩ oneSet →
          ∃ p, IsNth (counts "rules".toList) 1 (places rulesHead [] (visible oneSet)) p ∧
            CanSwitch ⟨4096, true, fun _ written _ => written⟩ oneSet p) :=
  disable_enable_iff (fun _ _ => rfl)
    (show printRule _ _ _ _ = .ok (1, some ⟨"enable".toList, "web".toList, [], []⟩) by
      decide +kernel)

/-- A rule set that is switched off, behind a `#` that hides nothing while the mark is there. -/
def hashedSet : Text := "# sets\n##ox include $RULE_PATH/web.rules\n".toList

/-- Switching it on leaves the `#` in front of the rule set, which is not shown any more. -/
theorem hashed_set_vanishes :
    printRule ⟨4096, true, fun _ written _ => written⟩ "rules".toList 1 (some hashedSet) =
        .ok (1, some ⟨"disable".toList, "web".toList, [], []⟩) ∧
      ¬ Undoes ⟨4096, true, fun _ written _ => written⟩ 1
        ⟨"disable".toList, "web".toList, [], []⟩ hashedSet := by
  refine ⟨by decide +kernel, fun hundoes => ?_⟩
  have hdisable : setRulesAction ⟨4096, true, fun _ written _ => written⟩ "rules".toList 1
      "disable".toList (some hashedSet) = .ok (1, some hashedSet) := by decide +kernel
  have henable : setRulesAction ⟨4096, true, fun _ written _ => written⟩ "rules".toList 1
      "enable".toList (some hashedSet) =
        .ok (1, some "# sets\n#include $RULE_PATH/web.rules\n".toList) := by decide +kernel
  have hlist : printAll ⟨4096, true, fun _ written _ => written⟩ "rules".toList
      (some hashedSet) = .ok ([⟨"disable".toList, "web".toList, [], []⟩], true) := by
    decide +kernel
  have hlist' : printAll ⟨4096, true, fun _ written _ => written⟩ "rules".toList
      (some "# sets\n#include $RULE_PATH/web.rules\n".toList) = .ok ([], true) := by
    decide +kernel
  obtain ⟨-, -, hstate⟩ := (undoes_iff hdisable henable).mp hundoes
  obtain ⟨act, hact⟩ := hstate _ _ hlist
  rw [hlist'] at hact
  cases hact

end SnortEntries
