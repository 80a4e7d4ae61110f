import Mathlib.Data.List.Forall2
import RouterFirmware.SnortAction

/-! # Another action for all rules of a file

`set_risk_action` puts the new file together from what it finds of the rules. What stands between
them is not written, and of a rule only what the search for its parts finds.
-/
namespace SnortRisk

open TextStream CString PatternLoop SnortRules SnortListing SnortAction

def IsAction (w : Text) : Prop :=
  w ≠ [] ∧ ∀ c ∈ w, isSpace c = false ∧ c ≠ '(' ∧ c ≠ '#' ∧ c ≠ '\x00'

/-- A rule in one line: its action, its protocol, and in brackets its message and options. -/
def IsRule (l : Text) : Prop :=
  ∃ action proto header msg opts, IsAction action ∧ proto ∈ protocolLists ∧
    l = action ++ ' ' :: (proto ++ ' ' :: (header ++ (msgHead ++ (msg ++ '"' :: opts)))) ∧
      [';'] <+: opts ∧ [';', ')'] <:+ opts

def isComment (l : Text) : Bool := (l.dropWhile isSpace).head? == some '#'

def isActive (l : Text) : Bool := !isComment l && !(places msgHead [] l).isEmpty

/-- A line that is no comment, with a message that has no `#` in front of it. -/
def isLive (l : Text) : Bool := !isComment l && (places msgHead [] l).any isShown

def withAction (action l : Text) : Text := action ++ l.dropWhile (· ≠ ' ')

/-- The rules have the new action, and the other lines are still there. -/
def KeepsLines (action content new : Text) : Prop :=
  (fileLines new).filter isActive = ((fileLines content).filter isActive).map (withAction action) ∧
    ∀ l ∈ fileLines content, isActive l = false → l ∈ fileLines new

def KeepsRules (host : Host) (f action content : Text) : Prop :=
  ∃ cnt new, setRiskAction host f action (some content) = .ok (cnt, some new) ∧
    KeepsLines action content new

/-- One message of the rule counts, and for it the rule is cut out from its action to its end. -/
def Whole (l : Text) : Prop :=
  ∃ q, (places msgHead [] l).filter isShown = [q] ∧
    Cut q [] (l.takeWhile (· ≠ ' ')) (l.dropWhile (· ≠ ' '))

/-- Nothing is to be done, or nothing can be written and nothing is to be changed, or the file is
text that ends in the mapping and all its lines are rules that are cut out whole. -/
def Kept (host : Host) (f action content : Text) : Prop :=
  content = [] ∨
  host.makesTmp = false ∧
    (∀ l ∈ fileLines content, isActive l = true → withAction action l = l) ∨
  host.makesTmp = true ∧ runsOff host content = false ∧ (copyCommand f).length < 128 ∧
    '\x00' ∉ content ∧ ∀ l ∈ fileLines content, isActive l = true ∧ Whole l

section Forms

variable {action l here y u v x t post : Text} {c : Char} {q : Place}

theorem head_of_action (h : IsAction action) (rest : Text) : isComment (action ++ rest) = false ∧
    (action ++ rest).head? ≠ some '#' := by
  obtain ⟨hne, hchars⟩ := h
  cases action with
  | nil => exact absurd rfl hne
  | cons c action =>
    obtain ⟨hspace, -, hmark, -⟩ := hchars c List.mem_cons_self
    rw [isComment, List.cons_append, List.dropWhile_cons_of_neg (by simp [hspace])]
    simp [hmark]

theorem blank_notMem (h : IsAction action) : ' ' ∉ action :=
  fun hmem => absurd (h.2 ' ' hmem).1 (by decide)

theorem newline_notMem_action (h : IsAction action) : '\n' ∉ action :=
  fun hmem => absurd (h.2 '\n' hmem).1 (by decide)

theorem bracket_notMem (h : IsAction action) : '(' ∉ action :=
  fun hmem => (h.2 '(' hmem).2.1 rfl

theorem split_action (h : IsAction action) (rest : Text) :
    (action ++ ' ' :: rest).takeWhile (· ≠ ' ') = action ∧
      (action ++ ' ' :: rest).dropWhile (· ≠ ' ') = ' ' :: rest := by
  have hall : ∀ c ∈ action, decide (c ≠ ' ') = true :=
    fun c hc => decide_eq_true fun heq => blank_notMem h (heq ▸ hc)
  rw [List.takeWhile_append_of_pos hall, List.dropWhile_append_of_pos hall]
  simp

theorem mem_places_split (u v : Text) : ⟨u.reverse, msgHead ++ v⟩ ∈
    places msgHead [] (u ++ (msgHead ++ v)) := by
  have hsplit := places_split (c := '(') (t := ['m', 's', 'g', ':', '"']) (by decide) u v
  rw [show msgHead = '(' :: ['m', 's', 'g', ':', '"'] from rfl, hsplit]
  simp

theorem isActive_of_isLive (h : isLive l = true) : isActive l = true := by
  simp only [isLive, isActive, Bool.and_eq_true, Bool.not_eq_true', List.any_eq_true] at h ⊢
  obtain ⟨hcomment, q, hq, -⟩ := h
  refine ⟨hcomment, ?_⟩
  rw [List.isEmpty_eq_false_iff]
  exact List.ne_nil_of_mem hq

theorem isLive_eq_false (h : isActive l = false) : isLive l = false := by
  rw [Bool.eq_false_iff] at h ⊢
  exact mt isActive_of_isLive h

theorem exists_before (h : IsRule l) : ∃ action proto rest, IsAction action ∧
    proto ∈ protocolLists ∧ l = action ++ ' ' :: rest ∧
      ∀ q ∈ places msgHead [] l, ∃ z, q.before.reverse = action ++ ' ' :: (proto ++ ' ' :: z) := by
  obtain ⟨action, proto, header, msg, opts, haction, hproto, rfl, -⟩ := h
  refine ⟨action, proto, _, haction, hproto, rfl, fun q hq => ?_⟩
  have hskip : '(' ∉ action ++ ' ' :: (proto ++ [' ']) := by
    have hword : '(' ∉ proto := (show ∀ p ∈ protocolLists, '(' ∉ p by decide) proto hproto
    simp [bracket_notMem haction, hword]
  have hjoin : action ++ ' ' :: (proto ++ ' ' :: (header ++ (msgHead ++ (msg ++ '"' :: opts)))) =
      action ++ ' ' :: (proto ++ [' ']) ++ (header ++ (msgHead ++ (msg ++ '"' :: opts))) := by simp
  rw [hjoin, show msgHead = '(' :: ['m', 's', 'g', ':', '"'] from rfl, places_skip hskip] at hq
  obtain ⟨-, -, w, -, hbefore⟩ := mem_places hq
  exact ⟨w, by rw [hbefore]; simp⟩

theorem isActive_of_isRule (h : IsRule l) : isActive l = true := by
  obtain ⟨action, proto, header, msg, opts, haction, hproto, rfl, -⟩ := h
  have hplace := mem_places_split (action ++ ' ' :: (proto ++ ' ' :: header)) (msg ++ '"' :: opts)
  rw [isActive, (head_of_action haction _).1, Bool.not_false, Bool.true_and, Bool.not_eq_true',
    List.isEmpty_eq_false_iff]
  simp only [List.append_assoc, List.cons_append] at hplace
  exact List.ne_nil_of_mem hplace

/-- The nearest protocol is not before the one behind the action. -/
theorem length_le_of_nearest {proto z : Text} (hproto : proto ∈ protocolLists)
    (hbefore : u = action ++ ' ' :: (proto ++ ' ' :: z)) (hsplit : u = x ++ y)
    (hnear : Nearest y here) : y.length ≤ (proto ++ ' ' :: z).length := by
  by_contra hlong
  have hy : y <:+ u := ⟨x, hsplit.symm⟩
  have hz : proto ++ ' ' :: z <:+ u := ⟨action ++ [' '], by rw [hbefore]; simp⟩
  have hinner : proto ++ ' ' :: z <:+ y :=
    List.suffix_of_suffix_length_le hz hy (not_le.mp hlong).le
  have hat : protocolAt (proto ++ ' ' :: z ++ here) = true := by
    rw [protocolAt, List.any_eq_true]
    refine ⟨proto, hproto, List.isPrefixOf_iff_prefix.mpr ?_⟩
    rw [List.append_assoc]
    exact List.prefix_append _ _
  rw [hnear.2 _ hinner fun heq => hlong (heq ▸ le_rfl)] at hat
  cases hat

theorem settled_of_rule (h : IsRule l) (hq : q ∈ places msgHead [] l) :
    q.before ≠ [] ∧ ¬ Nearest q.before.reverse q.here := by
  obtain ⟨action, proto, rest, -, hproto, -, hbefore⟩ := exists_before h
  obtain ⟨z, hz⟩ := hbefore q hq
  refine ⟨fun hnil => ?_, fun hnear => ?_⟩
  · rw [hnil] at hz
    exact absurd hz.symm (by simp)
  · have hlen := length_le_of_nearest hproto hz (List.nil_append _).symm hnear
    rw [hz] at hlen
    simp only [List.length_append, List.length_cons] at hlen
    omega

theorem settled_of_comment (h : isComment l = true) (hq : q ∈ places msgHead [] l) :
    q.before ≠ [] ∧ ¬ Nearest q.before.reverse q.here := by
  obtain ⟨hline, v, hv⟩ := line_of_place hq
  have hhead : ∃ c t, l = c :: t ∧ (isSpace c = true ∨ c = '#') := by
    rw [isComment, beq_iff_eq] at h
    cases l with
    | nil => cases h
    | cons c t =>
      refine ⟨c, t, rfl, ?_⟩
      cases hspace : isSpace c with
      | true => exact .inl rfl
      | false =>
        rw [List.dropWhile_cons_of_neg (by simp [hspace])] at h
        exact .inr (Option.some.inj h)
  obtain ⟨c, t, hl, hc⟩ := hhead
  constructor
  · intro hnil
    rw [hnil, hv, hl] at hline
    obtain rfl := (List.cons.inj hline).1
    exact absurd hc (by decide)
  · intro hnear
    have hat : protocolAt (c :: t) = true := by
      rw [← hl, hline]
      exact hnear.1
    obtain ⟨p, hp, hstart⟩ := List.any_eq_true.mp hat
    have hword : ∀ p ∈ protocolLists, ∃ d w, p = d :: w ∧ isSpace d = false ∧ d ≠ '#' := by
      simp only [protocolLists, List.forall_mem_cons]
      exact ⟨⟨_, _, rfl, by decide, by decide⟩, ⟨_, _, rfl, by decide, by decide⟩,
        ⟨_, _, rfl, by decide, by decide⟩, ⟨_, _, rfl, by decide, by decide⟩, nofun⟩
    obtain ⟨d, w, rfl, hspace, hmark⟩ := hword p hp
    obtain ⟨rfl, -⟩ := List.cons_prefix_cons.mp (List.isPrefixOf_iff_prefix.mp hstart)
    rw [hspace] at hc
    exact hc.elim nofun hmark

/-- Nothing stands at the start of a line that the way back from a message does not pass. -/
theorem settled (hform : isActive l = true → IsRule l) (hq : q ∈ places msgHead [] l) :
    q.before ≠ [] ∧ ¬ Nearest q.before.reverse q.here := by
  cases hcomment : isComment l with
  | true => exact settled_of_comment hcomment hq
  | false =>
    refine settled_of_rule (hform ?_) hq
    rw [isActive, hcomment, Bool.not_false, Bool.true_and, Bool.not_eq_true',
      List.isEmpty_eq_false_iff]
    exact List.ne_nil_of_mem hq

theorem isHidden_inFile (h : q.before ≠ []) (pre post : Text) :
    isHidden (inFile pre post q) = .ok !isShown q := by
  have hne : (inFile pre post q).before ≠ [] := by simp [inFile, h]
  rw [isHidden_of_ne hne, isShown, isShown, inFile]
  cases hbefore : q.before with
  | nil => exact absurd hbefore h
  | cons c t => rfl

theorem isLive_of_shown (haction : IsAction action) (hshown : isShown q = true)
    (hsplit : q.before.reverse = x ++ c :: y) (v : Text) :
    isLive (action ++ (c :: y ++ (msgHead ++ v))) = true := by
  rw [isLive, (head_of_action haction _).1, Bool.not_false, Bool.true_and, List.any_eq_true]
  refine ⟨⟨(action ++ c :: y).reverse, msgHead ++ v⟩, ?_, ?_⟩
  · have hplace := mem_places_split (action ++ c :: y) v
    rwa [List.append_assoc] at hplace
  · have hbefore : q.before = (c :: y).reverse ++ x.reverse := by
      rw [← List.reverse_reverse q.before, hsplit, List.reverse_append]
    rw [isShown, hbefore] at hshown
    rw [isShown, List.reverse_append]
    cases hrev : (c :: y).reverse with
    | nil => exact absurd hrev (by simp)
    | cons d w =>
      rw [hrev] at hshown
      exact hshown

theorem head_of_cut (hq : q ∈ places msgHead [] l) (h : Cut q post x t) :
    ∃ c y v, q.before.reverse = x ++ c :: y ∧ Nearest y q.here ∧ t = c :: y ++ (msgHead ++ v) := by
  obtain ⟨c, y, text, w, rest, hsplit, -, hnear, htail, hend, rfl⟩ := h
  obtain ⟨-, v, hv⟩ := line_of_place hq
  have hbegin : q.here ++ post = '(' :: 'm' :: 's' :: 'g' :: ':' :: ('"' :: (v ++ post)) := by
    rw [hv]
    rfl
  have hskip : ∀ u, strstr msgTail ('(' :: 'm' :: 's' :: 'g' :: ':' :: u) =
      (strstr msgTail u).map fun p => ('(' :: 'm' :: 's' :: 'g' :: ':' :: p.1, p.2) := by
    intro u
    simp [strstr, msgTail, Function.comp_def]
  rw [hbegin, hskip, Option.map_eq_some_iff] at htail
  obtain ⟨⟨text', tail⟩, htail', heq⟩ := htail
  cases heq
  obtain ⟨hsplit', -⟩ := strstr_spec htail'
  obtain ⟨-, hrest⟩ := strstr_spec hend
  have hquote : ∃ r, text' ++ (w ++ [';', ')']) = '"' :: r := by
    cases text' with
    | cons d text' => exact ⟨_, by rw [(List.cons.inj hsplit').1]; rfl⟩
    | nil =>
      cases w with
      | cons d w => exact ⟨_, by rw [(List.cons.inj hsplit').1]; rfl⟩
      | nil =>
        have hstart : '"' :: (v ++ post) = rest := hsplit'
        rw [← hstart] at hrest
        exact absurd (List.cons_prefix_cons.mp hrest).1 (by decide)
  obtain ⟨r, hr⟩ := hquote
  refine ⟨c, y, r, hsplit, hnear, ?_⟩
  rw [List.cons_append, List.cons_append, List.cons_append, List.cons_append, List.cons_append, hr]
  rfl

/-- What is cut out brings a line that counts as a rule. -/
theorem one_le_countP (haction : IsAction action) (hl : '\n' ∉ l) (hq : q ∈ places msgHead [] l)
    (hshown : isShown q = true) (h : Cut q post x t) :
    1 ≤ (fileLines (action ++ t ++ ['\n'])).countP isLive := by
  obtain ⟨c, y, v, hsplit, -, rfl⟩ := head_of_cut hq h
  obtain ⟨hline, -⟩ := line_of_place hq
  have hnl : '\n' ∉ c :: y := by
    intro hmem
    rw [hline, hsplit] at hl
    exact hl (List.mem_append_left _ (List.mem_append_right _ hmem))
  obtain ⟨u, w, hw, hu⟩ : ∃ u w, v ++ ['\n'] = u ++ '\n' :: w ∧ '\n' ∉ u := by
    cases hr : readTo '\n' (v ++ ['\n']) with
    | none => exact absurd (readTo_eq_none.mp hr) (by simp)
    | some p =>
      obtain ⟨hsplit, hp⟩ := eq_of_readTo hr
      exact ⟨p.1, p.2, hsplit, hp⟩
  have hfirst : '\n' ∉ action ++ (c :: y ++ (msgHead ++ u)) := by
    simp only [List.mem_append, not_or]
    exact ⟨newline_notMem_action haction, hnl, by decide, hu⟩
  have hlines : action ++ (c :: y ++ (msgHead ++ v)) ++ ['\n'] =
      action ++ (c :: y ++ (msgHead ++ u)) ++ '\n' :: w := by
    simp only [List.append_assoc, hw]
  rw [hlines, fileLines_line hfirst,
    List.countP_cons_of_pos (isLive_of_shown haction hshown hsplit u)]
  exact Nat.le_add_left 1 _

end Forms

section Rules

variable {action l pre post x t w : Text} {q : Place}

theorem place_of_rule (h : IsRule l) (hq : places msgHead [] l = [q]) :
    ∃ msg opts, q.here = msgHead ++ msg ++ '"' :: opts ∧ [';'] <+: opts ∧
      [';', ')'] <:+ opts := by
  obtain ⟨action, proto, header, msg, opts, -, -, rfl, hstart, hend⟩ := h
  have hplace := mem_places_split (action ++ ' ' :: (proto ++ ' ' :: header)) (msg ++ '"' :: opts)
  simp only [List.append_assoc, List.cons_append] at hplace
  rw [hq, List.mem_singleton] at hplace
  exact ⟨msg, opts, by rw [← hplace, List.append_assoc], hstart, hend⟩

theorem ends_of_rule (h : IsRule l) (hq : places msgHead [] l = [q]) :
    ∃ text w rest, q.here = text ++ (w ++ rest) ∧ [';', ')'] <+: rest ∧
      ∀ post, strstr msgTail (q.here ++ post) = some (text, w ++ (rest ++ post)) ∧
        strstr [';', ')'] (w ++ (rest ++ post)) = some (w, rest ++ post) := by
  obtain ⟨msg, opts, hhere, ⟨o, rfl⟩, hend⟩ := place_of_rule h hq
  have hquote : msgTail <+: '"' :: ([';'] ++ o) := ⟨o, rfl⟩
  obtain ⟨⟨text, tail⟩, htail⟩ := exists_strstr (u := msgHead ++ msg) hquote
  rw [← hhere] at htail
  have hsuffix : [';', ')'] <:+ tail :=
    (hend.trans (List.suffix_cons _ _)).trans (suffix_of_strstr (hhere ▸ htail) hquote)
  obtain ⟨u, rfl⟩ := hsuffix
  obtain ⟨⟨w, rest⟩, hrest⟩ := exists_strstr (u := u) (List.prefix_refl [';', ')'])
  obtain ⟨hsplit, hstart⟩ := strstr_spec hrest
  rw [hsplit] at htail hrest
  refine ⟨text, w, rest, (strstr_spec htail).1, hstart, fun post => ⟨?_, ?_⟩⟩
  · rw [strstr_append_right htail, List.append_assoc]
  · rw [← List.append_assoc]
    exact strstr_append_right hrest post

/-- A cut of a rule is a part of its line, and the same without what stands behind the line. -/
theorem cut_of_rule (h : IsRule l) (hq : places msgHead [] l = [q]) (hcut : Cut q post x t) :
    (∃ r, l = x ++ (t ++ r)) ∧ Cut q [] x t := by
  obtain ⟨c, y, text, w, rest, hsplit, hshort, hnear, htail, hend, rfl⟩ := hcut
  obtain ⟨text', w', rest', hhere, ⟨r, hr⟩, hends⟩ := ends_of_rule h hq
  rw [(hends post).1] at htail
  obtain ⟨rfl, htails⟩ := Prod.mk.inj (Option.some.inj htail)
  rw [← htails, (hends post).2] at hend
  obtain ⟨rfl, -⟩ := Prod.mk.inj (Option.some.inj hend)
  obtain ⟨hline, -⟩ := line_of_place (hq ▸ List.mem_singleton_self q)
  refine ⟨⟨r, ?_⟩, c, y, text', w', rest' ++ [], hsplit, hshort, hnear, (hends []).1, (hends []).2,
    rfl⟩
  rw [hline, hsplit, hhere, ← hr]
  simp

theorem split_of_rule (h : IsRule l) (hq : q ∈ places msgHead [] l) :
    ∃ x c y, q.before.reverse = x ++ c :: y ∧ Nearest y q.here := by
  obtain ⟨a, proto, rest, -, hproto, -, hbefore⟩ := exists_before h
  obtain ⟨z, hz⟩ := hbefore q hq
  obtain ⟨x, y, hsplit, hnear⟩ | hno := exists_nearest q.before.reverse q.here
  · obtain rfl | ⟨x, c, rfl⟩ := List.eq_nil_or_concat x
    · exact absurd (hsplit ▸ hnear) (settled_of_rule h hq).2
    · exact ⟨x, c, y, by rw [hsplit]; simp, hnear⟩
  · have hat : protocolAt (proto ++ ' ' :: z ++ q.here) = true := by
      rw [protocolAt, List.any_eq_true]
      refine ⟨proto, hproto, List.isPrefixOf_iff_prefix.mpr ?_⟩
      rw [List.append_assoc]
      exact List.prefix_append _ _
    rw [hno (proto ++ ' ' :: z) ⟨a ++ [' '], by rw [hz]; simp⟩] at hat
    cases hat

theorem getAction_ne_none (h : IsRule l) (hl : '\n' ∉ l) (hq : q ∈ places msgHead [] l)
    (hpre : LineStart pre) (act : Text) :
    getAction 80 (inFile pre post q).before (inFile pre post q).here ≠ .ok (none, act) := by
  obtain ⟨x, c, y, hsplit, hnear⟩ := split_of_rule h hq
  obtain ⟨e, he, heq⟩ := getAction_inFile hl hq hpre hsplit hnear post
  obtain ⟨a, _, rest, ha, -, hstart, -⟩ := exists_before h
  have hline : q.before.reverse ++ q.here = a ++ ' ' :: rest := by
    rw [← (line_of_place hq).1, hstart]
  have hmark : (e ++ (x ++ c :: (y ++ (q.here ++ post)))).head? ≠ some '#' := by
    obtain rfl | ⟨rfl, -⟩ := he
    · have hwhole : x ++ c :: (y ++ (q.here ++ post)) = a ++ (' ' :: rest ++ post) := by
        rw [← List.append_assoc a, ← hline, hsplit]
        simp
      rw [List.nil_append, hwhole]
      exact (head_of_action ha _).2
    · exact fun h => absurd (Option.some.inj h) (by decide)
  rw [heq]
  split
  · exact nofun
  · split
    · next hcomment => exact absurd hcomment.1 hmark
    · exact nofun

theorem cut_of_shown (h : IsRule l) (hl : '\n' ∉ l) (hq : places msgHead [] l = [q])
    (hshown : isShown q = true) (hpre : LineStart pre)
    (hw : Writes action (inFile pre post q) w) :
    ∃ x t, Cut q post x t ∧ w = action ++ t ++ ['\n'] := by
  have hmem : q ∈ places msgHead [] l := hq ▸ List.mem_singleton_self q
  obtain ⟨hne, hfirst⟩ := settled_of_rule h hmem
  have hvisible : isHidden (inFile pre post q) = .ok false := by
    rw [isHidden_inFile hne, hshown]
    rfl
  have hnil : w ≠ [] := by
    rintro rfl
    generalize hw' : ([] : Text) = w at hw
    cases hw with
    | hidden hhidden =>
      rw [hvisible] at hhidden
      cases hhidden
    | comment act _ hact =>
      exact getAction_ne_none h hl hmem hpre act hact
    | untailed start act _ _ htail =>
      obtain ⟨text, v, rest, -, -, hends⟩ := ends_of_rule h hq
      rw [show (inFile pre post q).here = q.here ++ post from rfl, (hends post).1] at htail
      cases htail
    | rule => exact absurd hw' (by simp)
  obtain hempty | ⟨-, hcut⟩ := cut_of_writes hl hmem hfirst hpre hw
  · exact absurd hempty hnil
  · exact hcut

/-- A rule that is written as it is with another action is cut out whole. -/
theorem whole_of_cut (h : IsRule l) (hq : places msgHead [] l = [q]) (hshown : isShown q = true)
    (hcut : Cut q post x t) (heq : action ++ t = withAction action l) : Whole l := by
  obtain ⟨⟨r, hr⟩, hcut⟩ := cut_of_rule h hq hcut
  obtain ⟨a, proto, rest, ha, hproto, hline, hbefore⟩ := exists_before h
  obtain ⟨z, hz⟩ := hbefore q (hq ▸ List.mem_singleton_self q)
  obtain ⟨htake, hdrop⟩ := split_action ha rest
  rw [← hline] at htake hdrop
  obtain rfl : t = ' ' :: rest := by
    rw [withAction, hdrop] at heq
    exact List.append_cancel_left heq
  have hlong : a.length ≤ x.length := by
    obtain ⟨c, y, _, _, _, hsplit, -, hnear, -⟩ := hcut
    have hshort := length_le_of_nearest (u := q.before.reverse) (x := x ++ [c]) hproto hz
      (by rw [hsplit]; simp) hnear
    have hlen := congrArg List.length (hz.symm.trans hsplit)
    simp only [List.length_append, List.length_cons] at hlen hshort
    omega
  have hlen := congrArg List.length (hline.symm.trans hr)
  simp only [List.length_append, List.length_cons] at hlen
  have hsame : a = x := by
    refine (List.append_inj (hline.symm.trans hr) ?_).1
    omega
  subst hsame
  refine ⟨q, ?_, ?_⟩
  · rw [hq, List.filter_cons, hshown]
    rfl
  · rw [htake, hdrop]
    exact hcut

end Rules

/-- What a line brings to the new file. -/
inductive Outcome (action l : Text) : Text → Prop where
  | live (t : Text) (hactive : isActive l = true) (hlive : isLive l = true) (ht : '\n' ∉ t)
      (htext : isLive t = true) (hwhole : t = withAction action l → Whole l) :
      Outcome action l (t ++ ['\n'])
  | hidden (hactive : isActive l = true) (hdead : isLive l = false) : Outcome action l []
  | other (hactive : isActive l = false) : Outcome action l []
  | more (v : Text) (hactive : isActive l = false)
      (hlines : 1 ≤ (fileLines (v ++ ['\n'])).countP isLive) : Outcome action l (v ++ ['\n'])

section Lines

variable {action l pre post content : Text} {q : Place} {ps : List Place} {ws vs : List Text}

/-- A message outside of the rules that counts brings a line that counts as a rule. -/
theorem lines_of_writes (haction : IsAction action) (hl : '\n' ∉ l) (hpre : LineStart pre)
    (hps : ∀ q ∈ ps, q ∈ places msgHead [] l ∧ q.before ≠ [] ∧ ¬ Nearest q.before.reverse q.here)
    (h : List.Forall₂ (Writes action) (ps.map (inFile pre post)) ws) :
    ws.flatten = [] ∨ ∃ v, ws.flatten = v ++ ['\n'] ∧
      1 ≤ (fileLines (v ++ ['\n'])).countP isLive := by
  induction ps generalizing ws with
  | nil =>
    cases h
    exact .inl rfl
  | cons q ps ih =>
    rw [List.map_cons] at h
    rw [List.forall_mem_cons] at hps
    obtain ⟨⟨hq, hne, hfirst⟩, hrest⟩ := hps
    cases h with
    | @cons _ w _ ws hw hws =>
      rw [List.flatten_cons]
      obtain rfl | ⟨hvisible, x, t, hcut, rfl⟩ := cut_of_writes hl hq hfirst hpre hw
      · exact ih hrest hws
      · have hshown : isShown q = true := by
          rw [isHidden_inFile hne] at hvisible
          simpa using hvisible
        have hone := one_le_countP haction hl hq hshown hcut
        obtain hnil | ⟨v, hv, -⟩ := ih hrest hws
        · exact .inr ⟨action ++ t, by rw [hnil, List.append_nil], hone⟩
        · refine .inr ⟨action ++ t ++ '\n' :: v, ?_, ?_⟩
          · rw [hv]
            simp
          · rw [List.append_assoc, List.cons_append, fileLines_append, List.countP_append]
            exact Nat.le_add_right_of_le hone

theorem isLive_single (hq : places msgHead [] l = [q]) (hactive : isActive l = true) :
    isLive l = isShown q := by
  rw [isActive, Bool.and_eq_true, Bool.not_eq_true'] at hactive
  rw [isLive, hactive.1, hq]
  simp

theorem outcome_of_writes (haction : IsAction action) (hl : '\n' ∉ l) (hpre : LineStart pre)
    (hform : isActive l = true → IsRule l ∧ (places msgHead [] l).length = 1)
    (h : List.Forall₂ (Writes action) ((places msgHead [] l).map (inFile pre post)) ws) :
    Outcome action l ws.flatten := by
  cases hactive : isActive l with
  | false =>
    have hsettled : ∀ q ∈ places msgHead [] l, q ∈ places msgHead [] l ∧
        q.before ≠ [] ∧ ¬ Nearest q.before.reverse q.here :=
      fun q hq => ⟨hq, settled (fun h => (hform h).1) hq⟩
    obtain hnil | ⟨v, hv, hlines⟩ := lines_of_writes haction hl hpre hsettled h
    · rw [hnil]
      exact .other hactive
    · rw [hv]
      exact .more v hactive hlines
  | true =>
    obtain ⟨hrule, hone⟩ := hform hactive
    obtain ⟨q, hq⟩ := List.length_eq_one_iff.mp hone
    have hmem : q ∈ places msgHead [] l := hq ▸ List.mem_singleton_self q
    rw [hq, List.map_singleton] at h
    cases h with
    | @cons _ w _ ws hw hws =>
      cases hws
      rw [List.flatten_singleton]
      cases hshown : isShown q with
      | true =>
        obtain ⟨x, t, hcut, rfl⟩ := cut_of_shown hrule hl hq hshown hpre hw
        obtain ⟨c, y, v, hsplit, -, ht⟩ := head_of_cut hmem hcut
        obtain ⟨⟨r, hr⟩, -⟩ := cut_of_rule hrule hq hcut
        refine .live (action ++ t) hactive ((isLive_single hq hactive).trans hshown) ?_ ?_
          (whole_of_cut hrule hq hshown hcut)
        · rw [hr] at hl
          simp only [List.mem_append, not_or] at hl ⊢
          exact ⟨newline_notMem_action haction, hl.2.1⟩
        · rw [ht]
          exact isLive_of_shown haction hshown hsplit v
      | false =>
        have hhidden : isHidden (inFile pre post q) = .ok true := by
          rw [isHidden_inFile (settled_of_rule hrule hmem).1, hshown]
          rfl
        have hnothing : w = [] := by
          cases hw with
          | hidden => rfl
          | comment _ hvisible => nomatch hhidden.symm.trans hvisible
          | untailed _ _ hvisible => nomatch hhidden.symm.trans hvisible
          | rule _ _ _ _ _ _ hvisible => nomatch hhidden.symm.trans hvisible
        rw [hnothing]
        exact .hidden hactive ((isLive_single hq hactive).trans hshown)

theorem outcomes (haction : IsAction action)
    (hform : ∀ l ∈ fileLines content, isActive l = true →
      IsRule l ∧ (places msgHead [] l).length = 1) (hpre : LineStart pre)
    (h : List.Forall₂ (Writes action) (places msgHead pre content) ws) :
    ∃ vs, ws.flatten = vs.flatten ∧ List.Forall₂ (Outcome action) (fileLines content) vs := by
  induction content using fileLines_induction generalizing pre ws with
  | nil =>
    cases h
    exact ⟨[], rfl, .nil⟩
  | last l hl hne =>
    rw [fileLines_last hl hne] at hform ⊢
    rw [places_last] at h
    have hout := outcome_of_writes haction hl hpre (hform l (List.mem_singleton_self l)) h
    exact ⟨[ws.flatten], by simp, .cons hout .nil⟩
  | line l t hl ih =>
    rw [fileLines_line hl, List.forall_mem_cons] at hform
    rw [fileLines_line hl]
    rw [places_line] at h
    have hfirst := List.forall₂_take ((places msgHead [] l).map (inFile pre ('\n' :: t))).length h
    have hrest := List.forall₂_drop ((places msgHead [] l).map (inFile pre ('\n' :: t))).length h
    rw [List.take_left] at hfirst
    rw [List.drop_left] at hrest
    obtain ⟨vs, hvs, hall⟩ := ih hform.2 (.inr rfl) hrest
    refine ⟨_ :: vs, ?_, .cons (outcome_of_writes haction hl hpre hform.1 hfirst) hall⟩
    rw [List.flatten_cons, ← hvs, ← List.flatten_append, List.take_append_drop]

end Lines

section Counting

variable {action l content f : Text} {ls vs : List Text} {host : Host}

theorem fileLines_snoc {t : Text} (ht : '\n' ∉ t) (rest : Text) :
    fileLines (t ++ ['\n'] ++ rest) = t :: fileLines rest := by
  rw [List.append_assoc]
  exact fileLines_line ht rest

/-- Every rule with a message that counts brings a line that does. -/
theorem countP_le_of_outcomes (h : List.Forall₂ (Outcome action) ls vs) :
    ls.countP isLive ≤ (fileLines vs.flatten).countP isLive := by
  induction h with
  | nil => exact le_rfl
  | @cons l v ls vs hl _ ih =>
    rw [List.flatten_cons, List.countP_cons]
    cases hl with
    | live t hactive hlive ht htext hwhole =>
      rw [fileLines_snoc ht, List.countP_cons_of_pos htext, if_pos hlive]
      exact Nat.add_le_add_right ih 1
    | hidden hactive hdead =>
      rw [hdead]
      exact ih
    | other hactive =>
      have hdead := isLive_eq_false hactive
      rw [hdead]
      exact ih
    | more v hactive hlines =>
      rw [List.append_assoc, List.singleton_append, fileLines_append, List.countP_append]
      split <;> omega

/-- When no more such lines come, all lines that come are of rules, each of its own. -/
theorem tight_of_outcomes (h : List.Forall₂ (Outcome action) ls vs)
    (hcount : (fileLines vs.flatten).countP isLive ≤ ls.countP isLive) :
    (∀ m ∈ fileLines vs.flatten, isLive m = true) ∧
    (fileLines vs.flatten).length = ls.countP isLive ∧
    (ls.countP isActive ≤ ls.countP isLive →
      fileLines vs.flatten = (ls.filter isActive).map (withAction action) →
        ∀ l ∈ ls, isActive l = true → Whole l) := by
  induction h with
  | nil => exact ⟨nofun, rfl, fun _ _ => nofun⟩
  | @cons l v ls vs hl hrest ih =>
    have hmono : ls.countP isLive ≤ ls.countP isActive :=
      List.countP_mono_left fun m _ => isActive_of_isLive
    rw [List.flatten_cons, List.countP_cons] at hcount
    rw [List.flatten_cons, List.countP_cons, List.countP_cons, List.filter_cons]
    cases hl with
    | live t hactive hlive ht htext hwhole =>
      rw [fileLines_snoc ht, List.countP_cons_of_pos htext, if_pos hlive] at hcount
      obtain ⟨hall, hlen, hcut⟩ := ih (by omega)
      rw [fileLines_snoc ht, if_pos hlive, if_pos hactive, if_pos hactive]
      refine ⟨List.forall_mem_cons.mpr ⟨htext, hall⟩, congrArg Nat.succ hlen, fun hless heq => ?_⟩
      rw [List.map_cons, List.cons.injEq] at heq
      exact List.forall_mem_cons.mpr ⟨fun _ => hwhole heq.1, hcut (by omega) heq.2⟩
    | hidden hactive hdead =>
      rw [List.nil_append, hdead] at hcount
      obtain ⟨hall, hlen, -⟩ := ih hcount
      rw [List.nil_append, hdead, hactive]
      refine ⟨hall, hlen, fun hless => ?_⟩
      simp only [if_true, Bool.false_eq_true, if_false] at hless
      omega
    | other hactive =>
      have hdead := isLive_eq_false hactive
      rw [List.nil_append, hdead] at hcount
      obtain ⟨hall, hlen, hcut⟩ := ih hcount
      rw [List.nil_append, hdead, hactive]
      refine ⟨hall, hlen, fun hless heq => List.forall_mem_cons.mpr ⟨fun h => ?_, hcut hless heq⟩⟩
      rw [hactive] at h
      cases h
    | more v hactive hlines =>
      have hdead := isLive_eq_false hactive
      have hle := countP_le_of_outcomes hrest
      rw [List.append_assoc, List.singleton_append, fileLines_append, List.countP_append,
        hdead] at hcount
      simp only [Bool.false_eq_true, if_false] at hcount
      omega

theorem any_isShown_word {w : Text} (hw : '(' ∉ w) (rest : Text) :
    (places msgHead [] (w ++ ' ' :: rest)).any isShown =
      (places msgHead [' '] rest).any isShown := by
  have hskip : places msgHead [] (w ++ ' ' :: rest) = places msgHead (' ' :: w.reverse) rest := by
    have hword : '(' ∉ w ++ [' '] := by simp [hw]
    have hplaces : places msgHead [] ((w ++ [' ']) ++ rest) =
        places msgHead ((w ++ [' ']).reverse ++ []) rest := places_skip hword [] rest
    simpa using hplaces
  rw [hskip, places_before, places_before msgHead [' '], List.any_map, List.any_map]
  congr 1
  funext p
  simp only [Function.comp_apply, isShown]
  cases p.before <;> rfl

/-- Another action does not change whether the message counts. -/
theorem isLive_withAction (haction : IsAction action) (h : IsRule l) :
    isLive (withAction action l) = isLive l := by
  obtain ⟨a, _, rest, ha, -, rfl, -⟩ := exists_before h
  rw [withAction, (split_action ha rest).2, isLive, isLive, (head_of_action haction _).1,
    (head_of_action ha _).1, any_isShown_word (bracket_notMem haction),
    any_isShown_word (bracket_notMem ha)]

theorem isRule_withAction (haction : IsAction action) (h : IsRule l) :
    IsRule (withAction action l) := by
  obtain ⟨a, proto, header, msg, opts, ha, hproto, rfl, hstart, hend⟩ := h
  rw [withAction, (split_action ha _).2]
  exact ⟨action, proto, header, msg, opts, haction, hproto, rfl, hstart, hend⟩

end Counting

section File

variable {action l pre post content f : Text} {q : Place} {ps : List Place} {ws : List Text}
  {host : Host}

/-- A file with a zero byte is not kept, as none is written. -/
theorem nul_notMem_of_keeps (haction : IsAction action)
    (hform : ∀ l ∈ fileLines content, isActive l = true → IsRule l)
    (hws : List.Forall₂ (Writes action) (places msgHead [] (visible content)) ws)
    (hkeeps : KeepsLines action content ws.flatten) : '\x00' ∉ content := by
  have hvisible : '\x00' ∉ visible content := by
    intro hmem
    have hne := List.mem_takeWhile_imp hmem
    simp at hne
  have hplain : ∀ w ∈ ws, '\x00' ∉ w := by
    intro w hw
    obtain ⟨i, hi, rfl⟩ := List.mem_iff_getElem.mp hw
    have hlen := hws.length_eq
    have hwrites := hws.get (hlen ▸ hi) hi
    obtain ⟨-, -, u, hu, hbefore⟩ := mem_places (List.get_mem _ ⟨i, hlen ▸ hi⟩)
    refine nul_notMem_of_writes (fun h => (haction.2 _ h).2.2.2 rfl) ?_ ?_ hwrites
    · rw [hbefore, List.append_nil, List.mem_reverse]
      exact fun h => hvisible (hu ▸ List.mem_append_left _ h)
    · exact fun h => hvisible (hu ▸ List.mem_append_right _ h)
  have hnew : ∀ l ∈ fileLines ws.flatten, '\x00' ∉ l := by
    intro l hl hmem
    have htext := (exists_mem_fileLines (by decide)).mpr ⟨l, hl, hmem⟩
    obtain ⟨w, hw, hmem⟩ := List.mem_flatten.mp htext
    exact hplain w hw hmem
  intro hmem
  obtain ⟨l, hl, hmem⟩ := (exists_mem_fileLines (by decide)).mp hmem
  cases hactive : isActive l with
  | false => exact hnew l (hkeeps.2 l hl hactive) hmem
  | true =>
    have hline : withAction action l ∈ (fileLines ws.flatten).filter isActive := by
      rw [hkeeps.1]
      exact List.mem_map_of_mem (List.mem_filter.mpr ⟨hl, hactive⟩)
    refine hnew _ (List.mem_of_mem_filter hline) ?_
    obtain ⟨a, _, rest, ha, -, rfl, -⟩ := exists_before (hform l hl hactive)
    rw [withAction, (split_action ha rest).2]
    rw [List.mem_append] at hmem
    exact List.mem_append_right _ (hmem.resolve_left fun h => (ha.2 _ h).2.2.2 rfl)

theorem visible_eq (h : '\x00' ∉ content) : visible content = content := by
  rw [visible, List.takeWhile_eq_self_iff]
  exact fun c hc => decide_eq_true fun heq => h (heq ▸ hc)

/-- A file whose lines are kept is one of whole rules. -/
theorem whole_of_keeps (haction : IsAction action)
    (hform : ∀ l ∈ fileLines content, isActive l = true →
      IsRule l ∧ (places msgHead [] l).length = 1)
    (hws : List.Forall₂ (Writes action) (places msgHead [] content) ws)
    (hkeeps : KeepsLines action content ws.flatten) :
    ∀ l ∈ fileLines content, isActive l = true ∧ Whole l := by
  obtain ⟨vs, hvs, hout⟩ := outcomes haction hform (.inl rfl) hws
  rw [hvs] at hkeeps
  obtain ⟨hrules, hothers⟩ := hkeeps
  have hcountP : ∀ ls : List Text, (ls.filter isActive).countP isLive = ls.countP isLive := by
    intro ls
    rw [List.countP_filter]
    refine List.countP_congr fun l _ => ?_
    rw [Bool.and_eq_true]
    exact and_iff_left_of_imp isActive_of_isLive
  have hcount : (fileLines vs.flatten).countP isLive = (fileLines content).countP isLive := by
    rw [← hcountP, hrules, List.countP_map, ← hcountP (fileLines content)]
    refine List.countP_congr fun l hl => ?_
    rw [List.mem_filter] at hl
    rw [Function.comp_apply, isLive_withAction haction (hform l hl.1 hl.2).1]
  obtain ⟨hall, hlen, hwhole⟩ := tight_of_outcomes hout hcount.le
  have hnew : (fileLines vs.flatten).filter isActive = fileLines vs.flatten :=
    List.filter_eq_self.mpr fun l hl => isActive_of_isLive (hall l hl)
  have hactive : ∀ l ∈ fileLines content, isActive l = true := by
    intro l hl
    by_contra hother
    rw [Bool.not_eq_true] at hother
    have hlive := hall l (hothers l hl hother)
    rw [isActive_of_isLive hlive] at hother
    cases hother
  rw [hnew] at hrules
  have hless : (fileLines content).countP isActive ≤ (fileLines content).countP isLive := by
    rw [← hlen, hrules, List.length_map, List.countP_eq_length_filter]
  exact fun l hl => ⟨hactive l hl, hwhole hless hrules l hl (hactive l hl)⟩

/-- A whole rule comes with its new action. -/
theorem writes_of_whole (hl : '\n' ∉ l) (hpre : LineStart pre) (hblank : pre ≠ ['\n'])
    (hrule : IsRule l) (hwhole : Whole l) (post : Text) :
    ∃ ws, List.Forall₂ (Writes action) ((places msgHead [] l).map (inFile pre post)) ws ∧
      ws.flatten = withAction action l ++ ['\n'] := by
  obtain ⟨q, hq, hcut⟩ := hwhole
  obtain ⟨a, _, rest, ha, -, hline, -⟩ := exists_before hrule
  have hhead : l.head? ≠ some '#' := hline ▸ (head_of_action ha (' ' :: rest)).2
  have hrun : ∀ ps : List Place, (∀ p ∈ ps, p ∈ places msgHead [] l) →
      ∃ ws, List.Forall₂ (Writes action) (ps.map (inFile pre post)) ws ∧
        ws.flatten = (ps.filter isShown).flatMap fun _ => withAction action l ++ ['\n'] := by
    intro ps hps
    induction ps with
    | nil => exact ⟨[], .nil, rfl⟩
    | cons p ps ih =>
      rw [List.forall_mem_cons] at hps
      obtain ⟨ws, hws, hflatten⟩ := ih hps.2
      have hhidden := isHidden_inFile (settled_of_rule hrule hps.1).1 pre post
      cases hshown : isShown p with
      | false =>
        rw [hshown] at hhidden
        refine ⟨[] :: ws, .cons (.hidden hhidden) hws, ?_⟩
        rw [List.flatten_cons, List.nil_append, hflatten,
          List.filter_cons_of_neg (by simp [hshown])]
      | true =>
        rw [hshown] at hhidden
        have hp : p = q := by
          rw [← List.mem_singleton, ← hq]
          exact List.mem_filter.mpr ⟨hps.1, hshown⟩
        refine ⟨(withAction action l ++ ['\n']) :: ws, .cons ?_ hws, ?_⟩
        · exact writes_of_cut hl hps.1 hpre hblank hhead hhidden (hp ▸ cut_append hcut post)
        · rw [List.flatten_cons, hflatten, List.filter_cons_of_pos hshown, List.flatMap_cons]
  obtain ⟨ws, hws, hflatten⟩ := hrun (places msgHead [] l) fun p hp => hp
  exact ⟨ws, hws, by rw [hflatten, hq, List.flatMap_singleton]⟩

/-- A file of whole rules comes with their new action. -/
theorem writes_of_wholes (hpre : LineStart pre) (hblank : pre ≠ ['\n'])
    (hlines : ∀ l ∈ fileLines content, IsRule l ∧ Whole l) :
    ∃ ws, List.Forall₂ (Writes action) (places msgHead pre content) ws ∧
      ws.flatten = (fileLines content).flatMap fun l => withAction action l ++ ['\n'] := by
  induction content using fileLines_induction generalizing pre with
  | nil => exact ⟨[], .nil, rfl⟩
  | last l hl hne =>
    rw [fileLines_last hl hne] at hlines ⊢
    obtain ⟨hrule, hwhole⟩ := hlines l (List.mem_singleton_self l)
    obtain ⟨ws, hws, hflatten⟩ := writes_of_whole hl hpre hblank hrule hwhole []
    exact ⟨ws, places_last l pre ▸ hws, by rw [hflatten, List.flatMap_singleton]⟩
  | line l t hl ih =>
    rw [fileLines_line hl, List.forall_mem_cons] at hlines
    obtain ⟨⟨hrule, hwhole⟩, hrest⟩ := hlines
    have hne : '\n' :: (l.reverse ++ pre) ≠ ['\n'] := by
      obtain ⟨a, _, rest, -, -, rfl, -⟩ := exists_before hrule
      simp
    obtain ⟨ws, hws, hflatten⟩ := writes_of_whole hl hpre hblank hrule hwhole ('\n' :: t)
    obtain ⟨ws', hws', hflatten'⟩ := ih (.inr rfl) hne hrest
    refine ⟨ws ++ ws', ?_, ?_⟩
    · rw [places_line]
      exact List.rel_append hws hws'
    · rw [List.flatten_append, hflatten, hflatten', fileLines_line hl, List.flatMap_cons]

theorem fileLines_flatMap {ls : List Text} (g : Text → Text) (h : ∀ l ∈ ls, '\n' ∉ g l) :
    fileLines (ls.flatMap fun l => g l ++ ['\n']) = ls.map g := by
  induction ls with
  | nil => rfl
  | cons l ls ih =>
    rw [List.forall_mem_cons] at h
    rw [List.flatMap_cons, fileLines_snoc h.1, ih h.2, List.map_cons]

theorem keeps_of_wholes (haction : IsAction action)
    (hlines : ∀ l ∈ fileLines content, IsRule l) :
    KeepsLines action content
      ((fileLines content).flatMap fun l => withAction action l ++ ['\n']) := by
  have hactive : ∀ l ∈ fileLines content, isActive l = true :=
    fun l hl => isActive_of_isRule (hlines l hl)
  have hnl : ∀ l ∈ fileLines content, '\n' ∉ withAction action l := by
    intro l hl
    rw [withAction, List.mem_append, not_or]
    exact ⟨newline_notMem_action haction,
      fun h => newline_notMem hl ((List.dropWhile_sublist _).subset h)⟩
  refine ⟨?_, fun l hl hother => ?_⟩
  · rw [fileLines_flatMap (withAction action) hnl, List.filter_eq_self.mpr hactive]
    refine List.filter_eq_self.mpr fun l hl => ?_
    obtain ⟨m, hm, rfl⟩ := List.mem_map.mp hl
    exact isActive_of_isRule (isRule_withAction haction (hlines m hm))
  · rw [hactive l hl] at hother
    cases hother

end File

/-- The rules get their new action and the other lines stay when there are none and every rule is
cut out whole. When no rule has a second message, only then. -/
theorem setRiskAction_keeps_iff {host : Host} {f action content : Text}
    (hcp : ∀ written old, host.system (copyCommand f) written old = written)
    (haction : IsAction action)
    (hform : ∀ l ∈ fileLines content, isActive l = true → IsRule l) :
    (Kept host f action content → KeepsRules host f action content) ∧
      ((∀ l ∈ fileLines content, isActive l = true → (places msgHead [] l).length = 1) →
        (KeepsRules host f action content ↔ Kept host f action content)) := by
  have hunwritten : content = [] ∨ host.makesTmp = false → (KeepsRules host f action content ↔
      ∀ l ∈ fileLines content, isActive l = true → withAction action l = l) := by
    intro hfile
    rw [KeepsRules, setRiskAction_unwritten hfile]
    constructor
    · rintro ⟨cnt, new, hrun, hkeeps⟩ l hl hactive
      cases hrun
      have hsame := hkeeps.1.symm.trans (List.map_id _).symm
      exact List.map_inj_left.mp hsame l (List.mem_filter.mpr ⟨hl, hactive⟩)
    · intro hsame
      refine ⟨0, content, rfl, ?_, fun l hl _ => hl⟩
      have hmap := List.map_inj_left.mpr fun l hl => hsame l (List.mem_of_mem_filter hl)
        (List.of_mem_filter hl)
      exact (List.map_id _).symm.trans hmap.symm
  have hkept : Kept host f action content → KeepsRules host f action content := by
    rintro (rfl | ⟨htmp, hsame⟩ | ⟨htmp, hoff, hshort, hnul, hlines⟩)
    · exact (hunwritten (.inl rfl)).mpr nofun
    · exact (hunwritten (.inr htmp)).mpr hsame
    · by_cases hne : content = []
      · subst hne
        exact (hunwritten (.inl rfl)).mpr nofun
      · have hrules : ∀ l ∈ fileLines content, IsRule l :=
          fun l hl => hform l hl (hlines l hl).1
        obtain ⟨ws, hws, hflatten⟩ := writes_of_wholes (.inl rfl) (by simp)
          fun l hl => ⟨hrules l hl, (hlines l hl).2⟩
        refine (setRiskAction_iff hcp hne htmp).mpr ⟨hoff, hshort, ws, ?_, ?_⟩
        · rw [visible_eq hnul]
          exact hws
        · rw [hflatten]
          exact keeps_of_wholes haction hrules
  refine ⟨hkept, fun honce => ⟨fun hkeeps => ?_, hkept⟩⟩
  by_cases hfile : content = [] ∨ host.makesTmp = false
  · rcases hfile with rfl | htmp
    · exact .inl rfl
    · exact .inr (.inl ⟨htmp, (hunwritten (.inr htmp)).mp hkeeps⟩)
  · rw [not_or, Bool.not_eq_false] at hfile
    obtain ⟨hoff, hshort, ws, hws, hlines⟩ := (setRiskAction_iff hcp hfile.1 hfile.2).mp hkeeps
    have hnul := nul_notMem_of_keeps haction hform hws hlines
    rw [visible_eq hnul] at hws
    refine .inr (.inr ⟨hfile.2, hoff, hshort, hnul, ?_⟩)
    exact whole_of_keeps haction (fun l hl h => ⟨hform l hl h, honce l hl h⟩) hws hlines

def oneRule : Text := "alert tcp any any -> any any (msg:\"x\"; sid:1;)".toList

/-- A rule file with a comment in front of its rule. -/
def commentedFile : Text := "# web\n".toList ++ oneRule ++ ['\n']

theorem isRule_oneRule : IsRule oneRule :=
  ⟨"alert".toList, "tcp".toList, "any any -> any any ".toList, "x".toList, "; sid:1;)".toList,
    ⟨by decide, forall_of_all (by decide)⟩, by decide, by decide +kernel, by decide, by decide⟩

theorem fileLines_commentedFile : fileLines commentedFile = ["# web".toList, oneRule] := by
  decide +kernel

theorem isRule_of_commentedFile :
    ∀ l ∈ fileLines commentedFile, isActive l = true → IsRule l := by
  rw [fileLines_commentedFile]
  refine List.forall_mem_cons.mpr ⟨fun h => ?_, List.forall_mem_singleton.mpr fun _ => ?_⟩
  · exact absurd h (by decide +kernel)
  · exact isRule_oneRule

theorem keeps_iff_of_comment :
    (Kept ⟨4096, true, fun _ written _ => written⟩ (fileOf "high".toList) "drop".toList
        commentedFile →
      KeepsRules ⟨4096, true, fun _ written _ => written⟩ (fileOf "high".toList) "drop".toList
        commentedFile) ∧
      ((∀ l ∈ fileLines commentedFile, isActive l = true → (places msgHead [] l).length = 1) →
        (KeepsRules ⟨4096, true, fun _ written _ => written⟩ (fileOf "high".toList) "drop".toList
            commentedFile ↔
          Kept ⟨4096, true, fun _ written _ => written⟩ (fileOf "high".toList) "drop".toList
            commentedFile)) :=
  setRiskAction_keeps_iff (fun _ _ => rfl) ⟨by decide, forall_of_all (by decide)⟩
    isRule_of_commentedFile

/-- The comment is lost. -/
theorem comment_lost :
    IsAction "drop".toList ∧ (∀ l ∈ fileLines commentedFile, isActive l = true → IsRule l) ∧
      setRiskAction ⟨4096, true, fun _ written _ => written⟩ (fileOf "high".toList) "drop".toList
        (some commentedFile) =
          .ok (1, some "drop tcp any any -> any any (msg:\"x\"; sid:1;)\n".toList) ∧
      ¬ KeepsRules ⟨4096, true, fun _ written _ => written⟩ (fileOf "high".toList) "drop".toList
        commentedFile := by
  have hrun : setRiskAction ⟨4096, true, fun _ written _ => written⟩ (fileOf "high".toList)
      "drop".toList (some commentedFile) =
        .ok (1, some "drop tcp any any -> any any (msg:\"x\"; sid:1;)\n".toList) := by
    decide +kernel
  refine ⟨⟨by decide, forall_of_all (by decide)⟩, isRule_of_commentedFile, hrun,
    fun hkeeps => ?_⟩
  obtain ⟨cnt, new, hnew, -, hothers⟩ := hkeeps
  rw [hrun] at hnew
  cases hnew
  have hcomment : "# web".toList ∈ fileLines commentedFile := by
    rw [fileLines_commentedFile]
    exact List.mem_cons_self
  exact absurd (hothers _ hcomment (by decide +kernel)) (by decide +kernel)

end SnortRisk
