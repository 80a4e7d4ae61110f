import Mathlib.Data.List.Induction
import RouterFirmware.SnortListing

/-! # What is written for a rule

`get_action` goes back from a message to the nearest protocol and from there to the start of the
line, and `set_risk_action` writes what stands from the character before the protocol to the end of
the rule.
-/
namespace SnortAction

open TextStream CString PatternLoop SnortRules SnortListing

def protocolAt (t : Text) : Bool := protocolLists.any (·.isPrefixOf t)

/-- On the way back from `here` the first protocol stands in front of `y`. -/
def Nearest (y here : Text) : Prop :=
  protocolAt (y ++ here) = true ∧ ∀ z, z <:+ y → z ≠ y → protocolAt (z ++ here) = false

/-- What is before the start of a line, backwards. -/
def LineStart (pre : Text) : Prop := pre = [] ∨ pre.head? = some '\n'

section Scan

variable {size : ℕ} {c : Char} {x y z here post before pre act text : Text} {start : Place}

theorem protocolAt_append (h : 4 ≤ here.length) : protocolAt (here ++ post) = protocolAt here := by
  have hshort : ∀ p ∈ protocolLists, p.isPrefixOf (here ++ post) = p.isPrefixOf here := by
    intro p hp
    have hlen : p.length ≤ here.length := by
      refine le_trans ?_ h
      revert p
      decide
    rw [Bool.eq_iff_iff, List.isPrefixOf_iff_prefix, List.isPrefixOf_iff_prefix]
    exact ⟨fun hpre => List.prefix_of_prefix_length_le hpre (List.prefix_append _ _) hlen,
      fun hpre => hpre.trans (List.prefix_append _ _)⟩
  rw [protocolAt, protocolAt, Bool.eq_iff_iff, List.any_eq_true, List.any_eq_true]
  constructor
  · rintro ⟨p, hp, hstart⟩
    exact ⟨p, hp, hshort p hp ▸ hstart⟩
  · rintro ⟨p, hp, hstart⟩
    exact ⟨p, hp, (hshort p hp).symm ▸ hstart⟩

theorem nearest_append (h : 4 ≤ here.length) : Nearest y (here ++ post) ↔ Nearest y here := by
  have hsame : ∀ z, protocolAt (z ++ (here ++ post)) = protocolAt (z ++ here) := by
    intro z
    rw [← List.append_assoc]
    refine protocolAt_append (h.trans ?_)
    exact (List.suffix_append z here).length_le
  simp only [Nearest, hsame]

theorem nearest_cons {c : Char} : Nearest (y ++ [c]) here ↔
    protocolAt here = false ∧ Nearest y (c :: here) := by
  simp only [Nearest, List.append_assoc, List.singleton_append]
  constructor
  · rintro ⟨hat, hno⟩
    refine ⟨hno [] (List.nil_suffix) (by simp), hat, fun z hz hne => ?_⟩
    have hlonger := hno (z ++ [c]) (List.suffix_concat_iff.mpr (.inr ⟨z, rfl, hz⟩))
      (by simpa using hne)
    simpa using hlonger
  · rintro ⟨hhere, hat, hno⟩
    refine ⟨hat, fun z hz hne => ?_⟩
    obtain rfl | ⟨w, rfl, hw⟩ := List.suffix_concat_iff.mp hz
    · exact hhere
    · have hwne : w ≠ y := fun h => hne (by rw [h])
      simpa using hno w hw hwne

theorem getAction_nearest (hy : '\n' ∉ y) (hhere : here.head? ≠ some '\n') (h : Nearest y here) :
    getAction size (y.reverse ++ before) here = lineAction size before (y ++ here) := by
  induction y using List.reverseRecOn generalizing here with
  | nil =>
    have hat : protocolLists.any (·.isPrefixOf here) = true := h.1
    cases before <;> rw [List.reverse_nil, List.nil_append, getAction, if_neg hhere, if_pos hat] <;>
      rfl
  | append_singleton y c ih =>
    obtain ⟨hno, hrest⟩ := nearest_cons.mp h
    have hnot : ¬ protocolLists.any (·.isPrefixOf here) = true := by
      rw [Bool.not_eq_true]
      exact hno
    rw [List.mem_append, not_or, List.mem_singleton] at hy
    have hc : (c :: here).head? ≠ some '\n' := fun heq => hy.2 (Option.some.inj heq).symm
    rw [List.reverse_append, List.reverse_singleton, List.singleton_append, List.cons_append,
      getAction, if_neg hhere, if_neg hnot, List.append_assoc, List.singleton_append]
    exact ih hy.1 hc hrest

theorem exists_nearest (u here : Text) : (∃ x y, u = x ++ y ∧ Nearest y here) ∨
    ∀ z, z <:+ u → protocolAt (z ++ here) = false := by
  induction u using List.reverseRecOn generalizing here with
  | nil =>
    cases hat : protocolAt here with
    | false =>
      refine .inr fun z hz => ?_
      rw [List.suffix_nil.mp hz]
      exact hat
    | true =>
      refine .inl ⟨[], [], rfl, hat, fun z hz hne => ?_⟩
      exact absurd (List.suffix_nil.mp hz) hne
  | append_singleton u c ih =>
    cases hat : protocolAt here with
    | true =>
      refine .inl ⟨u ++ [c], [], by simp, hat, fun z hz hne => ?_⟩
      exact absurd (List.suffix_nil.mp hz) hne
    | false =>
      obtain ⟨x, y, rfl, hy⟩ | hno := ih (c :: here)
      · exact .inl ⟨x, y ++ [c], by simp, nearest_cons.mpr ⟨hat, hy⟩⟩
      · refine .inr fun z hz => ?_
        obtain rfl | ⟨w, rfl, hw⟩ := List.suffix_concat_iff.mp hz
        · exact hat
        · simpa using hno w hw

theorem getAction_none (hu : '\n' ∉ x) (hhere : here.head? ≠ some '\n') (hpre : LineStart pre)
    (h : ∀ z, z <:+ x → protocolAt (z ++ here) = false) (start : Place) :
    getAction size (x.reverse ++ pre) here ≠ .ok (some start, act) := by
  induction x using List.reverseRecOn generalizing here with
  | nil =>
    have hnot : ¬ protocolLists.any (·.isPrefixOf here) = true := by
      rw [Bool.not_eq_true]
      exact h [] List.nil_suffix
    rw [List.reverse_nil, List.nil_append]
    cases pre with
    | nil =>
      rw [getAction, if_neg hhere, if_neg hnot]
      exact nofun
    | cons c pre =>
      obtain hnil | hhead := hpre
      · cases hnil
      · cases hhead
        have hstop : getAction size pre ('\n' :: here) = .ok (none, []) := by
          cases pre <;> rw [getAction, if_pos (List.head?_cons)]
        rw [getAction, if_neg hhere, if_neg hnot, hstop]
        exact nofun
  | append_singleton x c ih =>
    have hnot : ¬ protocolLists.any (·.isPrefixOf here) = true := by
      rw [Bool.not_eq_true]
      exact h [] List.nil_suffix
    rw [List.mem_append, not_or, List.mem_singleton] at hu
    have hc : (c :: here).head? ≠ some '\n' := fun heq => hu.2 (Option.some.inj heq).symm
    rw [List.reverse_append, List.reverse_singleton, List.singleton_append, List.cons_append,
      getAction, if_neg hhere, if_neg hnot]
    refine ih hu.1 hc fun z hz => ?_
    have hmore := h (z ++ [c]) (List.suffix_concat_iff.mpr (.inr ⟨z, rfl, hz⟩))
    simpa using hmore

/-- From a protocol that is not at the start of its line. A newline that begins the file comes to
the action of the second line. -/
theorem lineAction_eq (size : ℕ) (text : Text) (hx : '\n' ∉ x) (hc : c ≠ '\n')
    (hpre : LineStart pre) :
    ∃ e, (e = [] ∨ e = ['\n'] ∧ pre = ['\n']) ∧
      lineAction size (c :: x.reverse ++ pre) text =
        if size ≤ (e ++ x).length then .error .writePastEnd
        else if (e ++ (x ++ c :: text)).head? = some '#' ∧
            (e ++ (x ++ c :: text))[1]? ≠ some 'o' then .ok (none, e ++ x)
        else .ok (some ⟨pre.drop e.length, e ++ (x ++ c :: text)⟩, e ++ x) := by
  have hline : (c :: x.reverse ++ pre).takeWhile (· ≠ '\n') = c :: x.reverse := by
    have hall : ∀ d ∈ c :: x.reverse, decide (d ≠ '\n') = true := by
      intro d hd
      rw [List.mem_cons, List.mem_reverse] at hd
      obtain rfl | hd := hd
      · exact decide_eq_true hc
      · exact decide_eq_true fun heq => hx (heq ▸ hd)
    have hstop : pre.takeWhile (· ≠ '\n') = [] := by
      obtain rfl | hhead := hpre
      · rfl
      · cases pre with
        | nil => rfl
        | cons d pre =>
          cases hhead
          rfl
    rw [List.takeWhile_append_of_pos hall, hstop, List.append_nil]
  have hdrop : (c :: x.reverse ++ pre).drop (c :: x.reverse).length = pre := List.drop_left
  have hne : ¬ c :: x.reverse ++ pre = [] := List.cons_ne_nil _ _
  by_cases hquirk : pre = ['\n']
  · refine ⟨['\n'], .inr ⟨rfl, hquirk⟩, ?_⟩
    subst hquirk
    have hstart : (c :: x.reverse ++ ['\n']).drop (c :: x.reverse ++ ['\n']).length = [] :=
      List.drop_length
    simp only [lineAction, if_neg hne, hline, hdrop, if_true, hstart]
    simp
  · refine ⟨[], .inl rfl, ?_⟩
    simp only [lineAction, if_neg hne, hline, hdrop, if_neg hquirk]
    simp

theorem mem_of_getAction {d : Char} (h : getAction size before here = .ok (some start, act))
    (hd : d ∈ start.here) : d ∈ before ∨ d ∈ here := by
  have hline : ∀ {before here : Text}, lineAction size before here = .ok (some start, act) →
      d ∈ before ∨ d ∈ here := by
    intro before here h
    unfold lineAction at h
    split at h
    · cases h
    · dsimp only at h
      have hsub : (if before.drop (before.takeWhile (· ≠ '\n')).length = ['\n'] then before
          else before.takeWhile (· ≠ '\n')) ⊆ before := by
        split
        · exact List.Subset.refl _
        · exact (List.takeWhile_prefix _).subset
      revert h hsub
      generalize (if before.drop (before.takeWhile (· ≠ '\n')).length = ['\n'] then before
        else before.takeWhile (· ≠ '\n')) = line
      intro h hsub
      split at h
      · cases h
      · split at h
        · cases h
        · cases h
          rw [List.mem_append, List.mem_reverse] at hd
          exact hd.imp_left fun hmem => hsub hmem
  induction before generalizing here with
  | nil =>
    rw [getAction] at h
    split at h
    · cases h
    · split at h
      · exact hline h
      · cases h
  | cons c before ih =>
    rw [getAction] at h
    split at h
    · cases h
    · split at h
      · exact hline h
      · have hmem := ih h
        simp only [List.mem_cons] at hmem ⊢
        exact hmem.elim (fun h => .inl (.inr h)) fun h => h.elim (fun h => .inl (.inl h)) .inr

end Scan

/-- What a turn of `set_risk_action` at a place adds to the new file. -/
inductive Writes (action : Text) (p : Place) : Text → Prop where
  | hidden (h : isHidden p = .ok true) : Writes action p []
  | comment (act : Text) (h : isHidden p = .ok false)
      (hact : getAction 80 p.before p.here = .ok (none, act)) : Writes action p []
  | untailed (start : Place) (act : Text) (h : isHidden p = .ok false)
      (hact : getAction 80 p.before p.here = .ok (some start, act))
      (htail : strstr msgTail p.here = none) : Writes action p []
  | rule (start : Place) (act text tail w rest : Text) (h : isHidden p = .ok false)
      (hact : getAction 80 p.before p.here = .ok (some start, act))
      (htail : strstr msgTail p.here = some (text, tail))
      (hend : strstr [';', ')'] tail = some (w, rest)) :
      Writes action p (action ++
        (start.here.take (start.here.length - rest.length + 2)).drop act.length ++ ['\n'])

section Run

variable {off : Bool} {action w content f : Text} {s : ℕ × Text} {p : Place} {ps : List Place}
  {m : Move (ℕ × Text) (ℕ × Text)} {host : Host}

theorem riskBody_eq (off : Bool) (action : Text) (s : ℕ × Text) (p : Place) :
    riskBody off action s p = (isHidden p).bind fun hidden =>
      if hidden then .ok (.on 0 s)
      else (getAction 80 p.before p.here).bind fun r =>
        match r with
        | (none, _) => .ok (.on 0 s)
        | (some start, act) => (find off msgTail p.here).bind fun t =>
          match t with
          | none => .ok (.on 0 (s.1 + 1, s.2))
          | some (_, tail) => (find off [';', ')'] tail).bind fun e =>
            match e with
            | none => .error .readPastEnd
            | some (_, rest) => .ok (.on 0 (s.1 + 1, s.2 ++ action ++
                (start.here.take (start.here.length - rest.length + 2)).drop act.length ++
                  ['\n'])) := by
  unfold riskBody
  cases isHidden p with
  | error e => rfl
  | ok hidden =>
    cases hidden with
    | true => rfl
    | false =>
      cases getAction 80 p.before p.here with
      | error e => rfl
      | ok r =>
        obtain ⟨_ | start, act⟩ := r
        · rfl
        · rfl

theorem bind_eq_ok {α β : Type} {x : Except Fault α} {f : α → Except Fault β} {b : β} :
    x.bind f = .ok b ↔ ∃ a, x = .ok a ∧ f a = .ok b := by
  cases x with
  | error e => exact ⟨nofun, fun ⟨a, ha, _⟩ => nomatch ha⟩
  | ok a => exact ⟨fun h => ⟨a, rfl, h⟩, fun ⟨a', ha, h⟩ => by cases ha; exact h⟩

theorem find_eq_ok {pattern here : Text} {r : Option (Text × Text)}
    (h : find off pattern here = .ok r) : strstr pattern here = r := by
  unfold find at h
  split at h
  · next heq =>
    cases h
    exact heq
  · next heq =>
    cases off <;> cases h
    exact heq

/-- A turn goes on to the next place and adds to the new file. -/
theorem riskBody_ok (h : riskBody off action s p = .ok m) :
    ∃ n w, m = .on 0 (n, s.2 ++ w) ∧ Writes action p w := by
  rw [riskBody_eq, bind_eq_ok] at h
  obtain ⟨hidden, hhidden, h⟩ := h
  cases hidden with
  | true =>
    cases h
    exact ⟨s.1, [], by rw [List.append_nil], .hidden hhidden⟩
  | false =>
    rw [if_neg (by decide), bind_eq_ok] at h
    obtain ⟨⟨start, act⟩, hact, h⟩ := h
    cases start with
    | none =>
      cases h
      exact ⟨s.1, [], by rw [List.append_nil], .comment act hhidden hact⟩
    | some start =>
      obtain ⟨t, ht, h⟩ := bind_eq_ok.mp h
      have htail := find_eq_ok ht
      cases t with
      | none =>
        cases h
        exact ⟨s.1 + 1, [], by rw [List.append_nil], .untailed start act hhidden hact htail⟩
      | some t =>
        obtain ⟨text, tail⟩ := t
        obtain ⟨e, he, h⟩ := bind_eq_ok.mp h
        have hend := find_eq_ok he
        cases e with
        | none => cases h
        | some e =>
          obtain ⟨w, rest⟩ := e
          cases h
          refine ⟨s.1 + 1, _, ?_, .rule start act text tail w rest hhidden hact htail hend⟩
          simp only [List.append_assoc]

theorem riskBody_writes (h : Writes action p w) (s : ℕ × Text) :
    ∃ n, riskBody false action s p = .ok (.on 0 (n, s.2 ++ w)) := by
  simp only [riskBody_eq]
  cases h with
  | hidden hhidden => exact ⟨s.1, by simp [hhidden, Except.bind]⟩
  | comment act hhidden hact => exact ⟨s.1, by simp [hhidden, hact, Except.bind]⟩
  | untailed start act hhidden hact htail =>
    exact ⟨s.1 + 1, by simp [hhidden, hact, find, htail, atEnd, Except.bind]⟩
  | rule start act text tail w rest hhidden hact htail hend =>
    exact ⟨s.1 + 1, by simp [hhidden, hact, find, htail, hend, Except.bind]⟩

theorem nul_notMem_of_writes (haction : '\x00' ∉ action) (hbefore : '\x00' ∉ p.before)
    (hhere : '\x00' ∉ p.here) (h : Writes action p w) : '\x00' ∉ w := by
  cases h with
  | hidden hhidden => exact List.not_mem_nil
  | comment act hhidden hact => exact List.not_mem_nil
  | untailed start act hhidden hact htail => exact List.not_mem_nil
  | rule start act text tail w rest hhidden hact htail hend =>
    simp only [List.mem_append, List.mem_singleton, not_or]
    refine ⟨⟨haction, fun hmem => ?_⟩, by decide⟩
    have hstart := List.mem_of_mem_take (List.mem_of_mem_drop hmem)
    exact (mem_of_getAction hact hstart).elim hbefore hhere

theorem visit_riskBody : (∃ n, visit (riskBody false action) (atEnd false) ps s = .ok (n, w)) ↔
    ∃ ws, List.Forall₂ (Writes action) ps ws ∧ w = s.2 ++ ws.flatten := by
  induction ps generalizing s with
  | nil =>
    constructor
    · rintro ⟨n, h⟩
      cases h
      exact ⟨[], .nil, by simp⟩
    · rintro ⟨ws, hws, rfl⟩
      cases hws
      exact ⟨s.1, by simp [visit, atEnd]⟩
  | cons p ps ih =>
    constructor
    · rintro ⟨n, h⟩
      rw [visit] at h
      cases hturn : riskBody false action s p with
      | error e =>
        rw [hturn] at h
        cases h
      | ok m =>
        obtain ⟨k, v, rfl, hv⟩ := riskBody_ok hturn
        rw [hturn] at h
        obtain ⟨ws, hws, rfl⟩ := ih.mp ⟨n, h⟩
        exact ⟨v :: ws, .cons hv hws, by simp⟩
    · rintro ⟨ws, hws, rfl⟩
      cases hws with
      | @cons _ v _ ws hv hws =>
        obtain ⟨k, hturn⟩ := riskBody_writes hv s
        obtain ⟨n, hrest⟩ := (ih (s := (k, s.2 ++ v))).mpr ⟨ws, hws, by simp⟩
        refine ⟨n, ?_⟩
        rw [visit, hturn]
        exact hrest

/-- Without a zero byte behind the file the last search does not end. -/
theorem visit_riskBody_off (r : ℕ × Text) :
    visit (riskBody true action) (atEnd true) ps s ≠ .ok r := by
  induction ps generalizing s with
  | nil =>
    intro h
    cases h
  | cons p ps ih =>
    rw [visit]
    cases hturn : riskBody true action s p with
    | error e =>
      intro h
      cases h
    | ok m =>
      obtain ⟨k, v, rfl, -⟩ := riskBody_ok hturn
      exact ih

theorem setRiskAction_unwritten (hfile : content = [] ∨ host.makesTmp = false) :
    setRiskAction host f action (some content) = .ok (0, some content) := by
  simp only [setRiskAction, if_pos hfile]

theorem setRiskAction_visit (hne : content ≠ []) (htmp : host.makesTmp = true) :
    setRiskAction host f action (some content) =
      (visit (riskBody (runsOff host content) action) (atEnd (runsOff host content))
        (places msgHead [] (visible content)) (0, [])).bind fun r =>
          (copyBack host f r.2 content).map fun file => ((r.1 : ℤ), file) := by
  have hopen : ¬ (content = [] ∨ host.makesTmp = false) := by simp [hne, htmp]
  have hmove : ∀ s p k s', riskBody (runsOff host content) action s p = .ok (.on k s') →
      k ≤ ['m', 's', 'g', ':', '"'].length := by
    intro s p k s' hturn
    obtain ⟨n, w, hm, -⟩ := riskBody_ok hturn
    cases hm
    exact Nat.zero_le _
  have hloop : loop msgHead (riskBody (runsOff host content) action)
      (atEnd (runsOff host content)) 0 [] (visible content) (0, []) =
        visit (riskBody (runsOff host content) action) (atEnd (runsOff host content))
          (places msgHead [] (visible content)) (0, []) :=
    loop_eq_visit (by decide) hmove [] (visible content) (0, [])
  simp only [setRiskAction, if_neg hopen, hloop]
  rfl

/-- The rule file holds what the turns have added. -/
theorem setRiskAction_iff (hcp : ∀ written old, host.system (copyCommand f) written old = written)
    (hne : content ≠ []) (htmp : host.makesTmp = true) {P : Text → Prop} :
    (∃ cnt new, setRiskAction host f action (some content) = .ok (cnt, some new) ∧ P new) ↔
      runsOff host content = false ∧ (copyCommand f).length < 128 ∧
        ∃ ws, List.Forall₂ (Writes action) (places msgHead [] (visible content)) ws ∧
          P ws.flatten := by
  rw [setRiskAction_visit hne htmp]
  constructor
  · rintro ⟨cnt, new, h, hnew⟩
    obtain ⟨r, hvisit, h⟩ := bind_eq_ok.mp h
    cases hoff : runsOff host content with
    | true =>
      rw [hoff] at hvisit
      exact absurd hvisit (visit_riskBody_off r)
    | false =>
      rw [hoff] at hvisit
      obtain ⟨ws, hws, hr⟩ := visit_riskBody.mp ⟨r.1, hvisit⟩
      by_cases hlong : 128 ≤ (copyCommand f).length
      · rw [copyBack, if_pos hlong] at h
        cases h
      · rw [copyBack, if_neg hlong, hcp, hr] at h
        cases h
        exact ⟨rfl, not_le.mp hlong, ws, hws, by simpa using hnew⟩
  · rintro ⟨hoff, hshort, ws, hws, hnew⟩
    obtain ⟨n, hvisit⟩ := (visit_riskBody (s := (0, []))).mpr ⟨ws, hws, rfl⟩
    refine ⟨n, ws.flatten, ?_, hnew⟩
    rw [hoff, hvisit]
    simp only [Except.bind, copyBack, if_neg (not_le.mpr hshort), hcp, List.nil_append]
    rfl

end Run

/-- A place of a line, in a file with `pre` before the line and `post` behind it. -/
def inFile (pre post : Text) (q : Place) : Place := ⟨q.before ++ pre, q.here ++ post⟩

/-- What is cut out for a place of a line behind `x`: from the character before the nearest protocol
to the first `;)` behind the end of the message. -/
def Cut (q : Place) (post x t : Text) : Prop :=
  ∃ c y text w rest, q.before.reverse = x ++ c :: y ∧ x.length < 80 ∧ Nearest y q.here ∧
    strstr msgTail (q.here ++ post) = some (text, w ++ rest) ∧
      strstr [';', ')'] (w ++ rest) = some (w, rest) ∧ t = c :: (y ++ (text ++ (w ++ [';', ')'])))

section Line

variable {l pre post act action x y t w : Text} {c : Char} {q : Place} {start : Place}

theorem places_line (l t pre : Text) : places msgHead pre (l ++ '\n' :: t) =
    (places msgHead [] l).map (inFile pre ('\n' :: t)) ++
      places msgHead ('\n' :: (l.reverse ++ pre)) t := by
  have hskip : places msgHead (l.reverse ++ pre) ('\n' :: t) =
      places msgHead ('\n' :: (l.reverse ++ pre)) t :=
    places_skip (w := ['\n']) (by decide) (l.reverse ++ pre) t
  have happend : places msgHead pre (l ++ '\n' :: t) =
      (places msgHead pre l).map (fun p => ⟨p.before, p.here ++ '\n' :: t⟩) ++
        places msgHead (l.reverse ++ pre) ('\n' :: t) :=
    places_append (by decide) pre l t
  rw [happend, hskip, places_before, List.map_map]
  rfl

theorem places_last (l pre : Text) :
    places msgHead pre l = (places msgHead [] l).map (inFile pre []) := by
  rw [places_before]
  simp [inFile]

theorem line_of_place (hq : q ∈ places msgHead [] l) :
    l = q.before.reverse ++ q.here ∧ ∃ v, q.here = msgHead ++ v := by
  obtain ⟨-, hhead, w, hw, hbefore⟩ := mem_places hq
  rw [List.append_nil] at hbefore
  obtain ⟨v, hv⟩ := hhead
  exact ⟨by rw [hbefore, List.reverse_reverse, hw], v, hv.symm⟩

/-- The action of a place whose line has the nearest protocol behind its start. -/
theorem getAction_inFile (hl : '\n' ∉ l) (hq : q ∈ places msgHead [] l) (hpre : LineStart pre)
    (hsplit : q.before.reverse = x ++ c :: y) (hnear : Nearest y q.here) (post : Text) :
    ∃ e, (e = [] ∨ e = ['\n'] ∧ pre = ['\n']) ∧
      getAction 80 (inFile pre post q).before (inFile pre post q).here =
        if 80 ≤ (e ++ x).length then .error .writePastEnd
        else if (e ++ (x ++ c :: (y ++ (q.here ++ post)))).head? = some '#' ∧
            (e ++ (x ++ c :: (y ++ (q.here ++ post))))[1]? ≠ some 'o' then .ok (none, e ++ x)
        else .ok (some ⟨pre.drop e.length, e ++ (x ++ c :: (y ++ (q.here ++ post)))⟩, e ++ x) := by
  obtain ⟨hline, v, hv⟩ := line_of_place hq
  rw [hline, hsplit] at hl
  simp only [List.mem_append, List.mem_cons, not_or] at hl
  have hbefore : (inFile pre post q).before = y.reverse ++ (c :: x.reverse ++ pre) := by
    rw [inFile, ← List.reverse_reverse q.before, hsplit]
    simp
  have hhere : (q.here ++ post).head? ≠ some '\n' := by
    rw [hv]
    exact fun h => absurd (Option.some.inj h) (show ¬ '(' = '\n' by decide)
  have hlong : 4 ≤ q.here.length := by
    rw [hv, List.length_append]
    exact Nat.le_add_right_of_le (by decide)
  obtain ⟨e, he, heq⟩ := lineAction_eq 80 (y ++ (q.here ++ post)) hl.1.1
    (Ne.symm hl.1.2.1) hpre
  refine ⟨e, he, ?_⟩
  rw [hbefore, ← heq]
  exact getAction_nearest hl.1.2.2 hhere ((nearest_append hlong).mpr hnear)

/-- Where a place has an action, its line has a nearest protocol behind its start. -/
theorem exists_split (hl : '\n' ∉ l) (hq : q ∈ places msgHead [] l)
    (hfirst : ¬ Nearest q.before.reverse q.here) (hpre : LineStart pre)
    (h : getAction 80 (inFile pre post q).before (inFile pre post q).here =
      .ok (some start, act)) :
    ∃ x c y, q.before.reverse = x ++ c :: y ∧ Nearest y q.here := by
  obtain ⟨x, y, hsplit, hnear⟩ | hno := exists_nearest q.before.reverse q.here
  · obtain rfl | ⟨x, c, rfl⟩ := List.eq_nil_or_concat x
    · exact absurd (hsplit ▸ hnear) hfirst
    · exact ⟨x, c, y, by rw [hsplit]; simp, hnear⟩
  · obtain ⟨hline, v, hv⟩ := line_of_place hq
    rw [hline, List.mem_append, not_or] at hl
    have hhere : (q.here ++ post).head? ≠ some '\n' := by
      rw [hv]
      exact fun h => absurd (Option.some.inj h) (show ¬ '(' = '\n' by decide)
    have hlong : ∀ z : Text, 4 ≤ (z ++ q.here).length := by
      intro z
      rw [hv, List.length_append, List.length_append]
      exact Nat.le_add_left_of_le (Nat.le_add_right_of_le (by decide))
    have hnone : ∀ z, z <:+ q.before.reverse → protocolAt (z ++ (q.here ++ post)) = false := by
      intro z hz
      rw [← List.append_assoc, protocolAt_append (hlong z)]
      exact hno z hz
    have hno : getAction 80 (q.before.reverse.reverse ++ pre) (q.here ++ post) ≠
        .ok (some start, act) := getAction_none hl.1 hhere hpre hnone start
    rw [List.reverse_reverse] at hno
    exact absurd h hno

/-- The rule with its action is a line from its start, and what comes behind the line. -/
theorem start_of_getAction (hl : '\n' ∉ l) (hq : q ∈ places msgHead [] l) (hpre : LineStart pre)
    (hsplit : q.before.reverse = x ++ c :: y) (hnear : Nearest y q.here)
    (h : getAction 80 (inFile pre post q).before (inFile pre post q).here =
      .ok (some start, act)) :
    x.length < 80 ∧ start.here = act ++ c :: (y ++ (q.here ++ post)) := by
  obtain ⟨e, -, heq⟩ := getAction_inFile hl hq hpre hsplit hnear post
  rw [heq] at h
  by_cases hlong : 80 ≤ (e ++ x).length
  · rw [if_pos hlong] at h
    cases h
  · rw [if_neg hlong] at h
    rw [List.length_append] at hlong
    split at h
    · cases h
    · cases h
      exact ⟨by omega, by simp⟩

/-- What is written behind the action ends with the `;)` that is found. -/
theorem take_drop_cut {rule here text v rest : Text} (hrule : rule = act ++ c :: (y ++ here))
    (hhere : here = text ++ (v ++ ([';', ')'] ++ rest))) :
    (rule.take (rule.length - ([';', ')'] ++ rest).length + 2)).drop act.length =
      c :: (y ++ (text ++ (v ++ [';', ')']))) := by
  have hwhole : rule = act ++ (c :: (y ++ (text ++ (v ++ [';', ')'])))) ++ rest := by
    rw [hrule, hhere]
    simp
  have hlen : rule.length - ([';', ')'] ++ rest).length + 2 =
      (act ++ (c :: (y ++ (text ++ (v ++ [';', ')']))))).length := by
    rw [hwhole]
    simp only [List.length_append, List.length_cons, List.length_nil]
    omega
  rw [hlen, hwhole, List.take_left, List.drop_left]

/-- What a turn adds to the new file, for a place of a line. -/
theorem cut_of_writes (hl : '\n' ∉ l) (hq : q ∈ places msgHead [] l)
    (hfirst : ¬ Nearest q.before.reverse q.here) (hpre : LineStart pre)
    (h : Writes action (inFile pre post q) w) :
    w = [] ∨ isHidden (inFile pre post q) = .ok false ∧
      ∃ x t, Cut q post x t ∧ w = action ++ t ++ ['\n'] := by
  cases h with
  | hidden hhidden => exact .inl rfl
  | comment act hhidden hact => exact .inl rfl
  | untailed start act hhidden hact htail => exact .inl rfl
  | rule start act text tail v rest hhidden hact htail hend =>
    obtain ⟨x, c, y, hsplit, hnear⟩ := exists_split hl hq hfirst hpre hact
    obtain ⟨hshort, hstart⟩ := start_of_getAction hl hq hpre hsplit hnear hact
    obtain ⟨htext, -⟩ := strstr_spec htail
    obtain ⟨rfl, rest', rfl⟩ := strstr_spec hend
    refine .inr ⟨hhidden, x, _, ⟨c, y, text, v, _, hsplit, hshort, hnear, htail, hend, rfl⟩, ?_⟩
    rw [take_drop_cut hstart htext]

theorem writes_of_cut (hl : '\n' ∉ l) (hq : q ∈ places msgHead [] l) (hpre : LineStart pre)
    (hblank : pre ≠ ['\n']) (hhead : l.head? ≠ some '#')
    (hshown : isHidden (inFile pre post q) = .ok false) (h : Cut q post x t) :
    Writes action (inFile pre post q) (action ++ t ++ ['\n']) := by
  obtain ⟨c, y, text, v, rest, hsplit, hshort, hnear, htail, hend, rfl⟩ := h
  obtain ⟨e, he, hact⟩ := getAction_inFile hl hq hpre hsplit hnear post
  obtain rfl : e = [] := he.resolve_right fun h => hblank h.2
  obtain ⟨hline, -⟩ := line_of_place hq
  have hcomment : ¬ (([] : Text) ++ (x ++ c :: (y ++ (q.here ++ post)))).head? = some '#' := by
    rw [hline, hsplit] at hhead
    cases x <;> simpa using hhead
  rw [List.nil_append, if_neg (not_le.mpr hshort), if_neg fun h => hcomment h.1] at hact
  obtain ⟨htext, -⟩ := strstr_spec htail
  obtain ⟨-, rest', rfl⟩ := strstr_spec hend
  have hrule : Writes action (inFile pre post q) _ := .rule _ _ _ _ _ _ hshown hact htail hend
  simp only [List.nil_append] at hrule
  rwa [take_drop_cut rfl htext] at hrule

theorem cut_append (h : Cut q [] x t) (post : Text) : Cut q post x t := by
  obtain ⟨c, y, text, w, rest, hsplit, hshort, hnear, htail, hend, ht⟩ := h
  rw [List.append_nil] at htail
  refine ⟨c, y, text, w, rest ++ post, hsplit, hshort, hnear, ?_, ?_, ht⟩
  · rw [← List.append_assoc]
    exact strstr_append_right htail post
  · rw [← List.append_assoc]
    exact strstr_append_right hend post

end Line

end SnortAction
