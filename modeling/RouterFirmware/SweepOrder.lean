import RouterFirmware.FirstComers
import RouterFirmware.SweepCount

/-! # The order of the sessions

The flags that a session sets decide about those behind it. What the calls count does not depend on
the order of the sessions exactly if the flags never matter.
-/
namespace DeltaCount

open FirstComers

def Setting.active (c : Setting) : List InterfaceSession := c.wans.filter fun w => 0 < w.wanIp

def Matches (c : Setting) (x : IpConntrack) : Prop :=
  (∃ w ∈ c.active, OnAddress w x ∨ InRange w x ∨ InNet w x ∨ Routed w x) ∨ InDmz c x

instance (c : Setting) (x : IpConntrack) : Decidable (Matches c x) :=
  inferInstanceAs (Decidable (_ ∨ _))

/-- Each session that matches is counted once. -/
def CountedOnce (c : Setting) (l : List IpConntrack) : Prop :=
  ∀ pre x post, l = pre ++ x :: post → Matches c x →
    (classify c (sTempAfter c pre) x).1.length = 1

/-- Every table in which the call scans the same sessions gives the same counts and hosts, and each
session counts once. -/
def OrderFree (c : Setting) (s : State) : Prop :=
  ∀ hash ct, Hung c hash →
    (scannedBy c { s with hash := hash, ct := ct }).Perm (scannedBy c s) →
      SameCounts (nkUpdateDeltaCount c { s with hash := hash, ct := ct })
        (nkUpdateDeltaCount c s) ∧
      CountedOnce c (scannedBy c { s with hash := hash, ct := ct })

/-- No range in front of the address counts the session too, and no two routers do. -/
structure OneWan (c : Setting) (x : IpConntrack) : Prop where
  range : (∃ w ∈ c.active, OnAddress w x) →
    ∀ v ∈ c.active.takeWhile fun v => ¬ OnAddress v x, ¬ InRange v x
  routed : (∀ w ∈ c.active, ¬ OnAddress w x ∧ ¬ InRange w x ∧ ¬ InNet w x) →
    (c.active.filter fun w => Routed w x).length ≤ 1

/-- The session would be listed if it came first. -/
def Fresh (c : Setting) (L : List UInt32) (x : IpConntrack) : Prop :=
  0 < host c x ∧ ¬ ∃ a ∈ L, Finds x a

instance (c : Setting) (L : List UInt32) (x : IpConntrack) : Decidable (Fresh c L x) :=
  inferInstanceAs (Decidable (_ ∧ _))

/-- The sessions `l`, where the addresses `L` are listed before, do not depend on the flags. -/
structure FlagFree (c : Setting) (L : List UInt32) (l : List IpConntrack) : Prop where
  once : ∀ x ∈ l, Matches c x → OneWan c x
  own : 1 < (l.filter fun x => Matches c x).length →
    ∀ x ∈ l, Matches c x → ∃ w ∈ c.active, OnAddress w x
  hosts : (∀ x ∈ l, Fresh c L x → IsWanIp c (host c x)) ∨
    ∀ x ∈ l, Fresh c L x → ¬ IsWanIp c (host c x) ∧
      ¬ Shadowed (host c) Finds (l.filter fun x => Fresh c L x) (host c x)

/-! ## The WANs -/

section Wan

variable {c : Setting} {x : IpConntrack} {w : InterfaceSession} {ws : List InterfaceSession}
  {sTemp : Bool} {j : ℕ}

theorem countAddress_inactive (h : ¬ 0 < w.wanIp) :
    countAddress x sTemp j (w :: ws) = countAddress x sTemp (j + 1) ws := by
  rw [countAddress, if_neg h]

theorem countAddress_onAddress (h : 0 < w.wanIp) (hon : OnAddress w x) :
    countAddress x sTemp j (w :: ws) = ([j], true) := by
  rw [countAddress, if_pos h, if_pos hon]

theorem countAddress_inRange (h : 0 < w.wanIp) (hon : ¬ OnAddress w x) (hin : InRange w x) :
    countAddress x false j (w :: ws) =
      (j :: (countAddress x true (j + 1) ws).1, (countAddress x true (j + 1) ws).2) := by
  rw [countAddress, if_pos h, if_neg hon, if_pos ⟨rfl, hin⟩]

theorem countAddress_next (hon : ¬ OnAddress w x) (hin : sTemp = true ∨ ¬ InRange w x) :
    countAddress x sTemp j (w :: ws) = countAddress x sTemp (j + 1) ws := by
  have hnot : ¬ (sTemp = false ∧ InRange w x) := by
    rintro ⟨rfl, h⟩
    exact hin.elim Bool.false_ne_true (fun h' => h' h)
  rw [countAddress, if_neg hon, if_neg hnot, ite_self]

theorem countAddress_true (x : IpConntrack) (j : ℕ) (ws : List InterfaceSession) :
    ((∃ w ∈ ws.filter fun w => 0 < w.wanIp, OnAddress w x) ∧
      ∃ i, countAddress x true j ws = ([i], true)) ∨
    ((¬ ∃ w ∈ ws.filter fun w => 0 < w.wanIp, OnAddress w x) ∧
      countAddress x true j ws = ([], true)) := by
  induction ws generalizing j with
  | nil => exact .inr ⟨by simp, rfl⟩
  | cons w ws ih =>
    by_cases hactive : 0 < w.wanIp
    · by_cases hon : OnAddress w x
      · exact .inl ⟨⟨w, by simp [hactive], hon⟩, j, countAddress_onAddress hactive hon⟩
      · rw [countAddress_next hon (.inl rfl)]
        simpa [hactive, hon] using ih (j + 1)
    · rw [countAddress_inactive hactive]
      simpa [hactive] using ih (j + 1)

theorem countAddress_none (hon : ∀ w ∈ ws.filter fun w => 0 < w.wanIp, ¬ OnAddress w x)
    (hin : ∀ w ∈ ws.filter fun w => 0 < w.wanIp, ¬ InRange w x) :
    countAddress x false j ws = ([], false) := by
  induction ws generalizing j with
  | nil => rfl
  | cons w ws ih =>
    by_cases hactive : 0 < w.wanIp
    · have hmem : w ∈ (w :: ws).filter fun w => 0 < w.wanIp := by simp [hactive]
      rw [countAddress_next (hon w hmem) (.inr (hin w hmem))]
      rw [List.filter_cons_of_pos (by simpa using hactive)] at hon hin
      exact ih (fun v hv => hon v (List.mem_cons_of_mem _ hv))
        fun v hv => hin v (List.mem_cons_of_mem _ hv)
    · rw [countAddress_inactive hactive]
      rw [List.filter_cons_of_neg (by simpa using hactive)] at hon hin
      exact ih hon hin

/-- A range in front of the address makes the session count twice. -/
theorem countAddress_false (x : IpConntrack) (j : ℕ) (ws : List InterfaceSession)
    (h : ∃ w ∈ ws.filter fun w => 0 < w.wanIp, OnAddress w x ∨ InRange w x) :
    (countAddress x false j ws).2 = true ∧
      ((countAddress x false j ws).1.length = 1 ↔
        ((∃ w ∈ ws.filter fun w => 0 < w.wanIp, OnAddress w x) →
          ∀ v ∈ (ws.filter fun w => 0 < w.wanIp).takeWhile fun v => ¬ OnAddress v x,
            ¬ InRange v x)) := by
  induction ws generalizing j with
  | nil => simp at h
  | cons w ws ih =>
    by_cases hactive : 0 < w.wanIp
    · by_cases hon : OnAddress w x
      · simp [countAddress_onAddress hactive hon, hactive, hon]
      · by_cases hin : InRange w x
        · rw [countAddress_inRange hactive hon hin]
          obtain ⟨hlater, i, hcount⟩ | ⟨hlater, hcount⟩ := countAddress_true x (j + 1) ws
          · rw [hcount]
            simp only [List.length_cons, List.length_nil]
            obtain ⟨v, hv, hvon⟩ := hlater
            refine ⟨trivial, ⟨fun h => absurd h (by decide), fun h => ?_⟩⟩
            refine absurd hin (h ⟨v, ?_, hvon⟩ w ?_)
            · rw [List.filter_cons_of_pos (by simpa using hactive)]
              exact List.mem_cons_of_mem _ hv
            · simp [hactive, hon]
          · rw [hcount]
            refine ⟨rfl, fun _ hex => ?_, fun _ => rfl⟩
            refine absurd ?_ hlater
            simpa [hactive, hon] using hex
        · rw [countAddress_next hon (.inr hin)]
          have hrest : ∃ w ∈ ws.filter fun w => 0 < w.wanIp, OnAddress w x ∨ InRange w x := by
            simpa [hactive, hon, hin] using h
          simpa [hactive, hon, hin] using ih (j + 1) hrest
    · rw [countAddress_inactive hactive]
      rw [List.filter_cons_of_neg (by simpa using hactive)] at h ⊢
      exact ih (j + 1) h

/-- Without such a range, the flag does not matter to a session with an address. -/
theorem countAddress_false_of_front (hon : ∃ w ∈ ws.filter fun w => 0 < w.wanIp, OnAddress w x)
    (hfront : ∀ v ∈ (ws.filter fun w => 0 < w.wanIp).takeWhile fun v => ¬ OnAddress v x,
      ¬ InRange v x) :
    countAddress x false j ws = countAddress x true j ws := by
  induction ws generalizing j with
  | nil => simp at hon
  | cons w ws ih =>
    by_cases hactive : 0 < w.wanIp
    · by_cases honw : OnAddress w x
      · rw [countAddress_onAddress hactive honw, countAddress_onAddress hactive honw]
      · rw [List.filter_cons_of_pos (by simpa using hactive)] at hon hfront
        rw [List.takeWhile_cons_of_pos (by simpa using honw)] at hfront
        rw [countAddress_next honw (.inr (hfront w List.mem_cons_self)),
          countAddress_next honw (.inl rfl)]
        apply ih
        · simpa [honw] using hon
        · exact fun v hv => hfront v (List.mem_cons_of_mem _ hv)
    · rw [countAddress_inactive hactive, countAddress_inactive hactive]
      rw [List.filter_cons_of_neg (by simpa using hactive)] at hon hfront
      exact ih hon hfront

theorem countNet_cases (x : IpConntrack) (j : ℕ) (ws : List InterfaceSession) :
    ((∃ w ∈ ws.filter fun w => 0 < w.wanIp, InNet w x) ∧ ∃ i, countNet x j ws = [i]) ∨
    ((¬ ∃ w ∈ ws.filter fun w => 0 < w.wanIp, InNet w x) ∧ countNet x j ws = []) := by
  induction ws generalizing j with
  | nil => exact .inr ⟨by simp, rfl⟩
  | cons w ws ih =>
    rw [countNet]
    by_cases hactive : 0 < w.wanIp
    · by_cases hin : InNet w x
      · exact .inl ⟨⟨w, by simp [hactive], hin⟩, j, if_pos ⟨hactive, hin⟩⟩
      · simpa [hactive, hin] using ih (j + 1)
    · simpa [hactive] using ih (j + 1)

theorem length_countRouted (x : IpConntrack) (j : ℕ) (ws : List InterfaceSession) :
    (countRouted x j ws).length =
      ((ws.filter fun w => 0 < w.wanIp).filter fun w => Routed w x).length := by
  induction ws generalizing j with
  | nil => rfl
  | cons w ws ih =>
    rw [countRouted]
    by_cases hactive : 0 < w.wanIp
    · by_cases hrouted : Routed w x
      · simp [hactive, hrouted, ih]
      · simp [hactive, hrouted, ih]
    · simp [hactive, ih]

end Wan

/-! ## The counts -/

section Counts

variable {c : Setting} {x : IpConntrack} {l l' : List IpConntrack} {sTemp : Bool}

theorem classify_false_of_none (hon : ∀ w ∈ c.active, ¬ OnAddress w x)
    (hin : ∀ w ∈ c.active, ¬ InRange w x) :
    classify c false x =
      if countNet x 0 c.wans ≠ [] then (countNet x 0 c.wans, true)
      else if countRouted x 0 c.wans ≠ [] then (countRouted x 0 c.wans, true)
      else if InDmz c x then ([c.numWan], true)
      else ([], false) := by
  rw [classify, countAddress_none hon hin]
  rfl

theorem classify_of_flag (h : (countAddress x sTemp 0 c.wans).2 = true) :
    classify c sTemp x = countAddress x sTemp 0 c.wans := by
  rw [classify, if_pos h]

theorem classify_true (c : Setting) (x : IpConntrack) :
    classify c true x = countAddress x true 0 c.wans := by
  apply classify_of_flag
  obtain ⟨-, i, hcount⟩ | ⟨-, hcount⟩ := countAddress_true x 0 c.wans <;> rw [hcount]

theorem not_matches_iff : ¬ Matches c x ↔
    (∀ w ∈ c.active, ¬ OnAddress w x ∧ ¬ InRange w x ∧ ¬ InNet w x ∧ ¬ Routed w x) ∧
      ¬ InDmz c x := by
  simp only [Matches, not_or, not_exists, not_and]

theorem countRouted_eq_nil_iff :
    countRouted x 0 c.wans = [] ↔ ∀ w ∈ c.active, ¬ Routed w x := by
  rw [← List.length_eq_zero_iff, length_countRouted, List.length_eq_zero_iff,
    List.filter_eq_nil_iff]
  simp only [decide_eq_true_eq]
  rfl

/-- A session that matches nothing leaves the flag as it is. -/
theorem classify_of_not_matches (h : ¬ Matches c x) : classify c sTemp x = ([], sTemp) := by
  obtain ⟨hwans, hdmz⟩ := not_matches_iff.mp h
  cases sTemp with
  | true =>
    rw [classify_true]
    obtain ⟨⟨w, hw, hon⟩, -⟩ | ⟨-, hcount⟩ := countAddress_true x 0 c.wans
    · exact absurd hon (hwans w hw).1
    · exact hcount
  | false =>
    have hnet : countNet x 0 c.wans = [] := by
      obtain ⟨⟨w, hw, hin⟩, -⟩ | ⟨-, hcount⟩ := countNet_cases x 0 c.wans
      · exact absurd hin (hwans w hw).2.2.1
      · exact hcount
    have hrouted := countRouted_eq_nil_iff.mpr fun w hw => (hwans w hw).2.2.2
    rw [classify_false_of_none (fun w hw => (hwans w hw).1) fun w hw => (hwans w hw).2.1, hnet,
      hrouted]
    simp [hdmz]

/-- A session that matches sets the flag; it counts once exactly if nothing counts it twice. -/
theorem classify_of_matches (h : Matches c x) :
    (classify c false x).2 = true ∧ ((classify c false x).1.length = 1 ↔ OneWan c x) := by
  by_cases hfirst : ∃ w ∈ c.active, OnAddress w x ∨ InRange w x
  · obtain ⟨hflag, hone⟩ := countAddress_false x 0 c.wans hfirst
    rw [classify_of_flag hflag]
    refine ⟨hflag, hone.trans ⟨fun hrange => ⟨hrange, fun hnone => ?_⟩, OneWan.range⟩⟩
    obtain ⟨w, hw, hon | hin⟩ := hfirst
    · exact absurd hon (hnone w hw).1
    · exact absurd hin (hnone w hw).2.1
  · have hon : ∀ w ∈ c.active, ¬ OnAddress w x := fun w hw hon => hfirst ⟨w, hw, .inl hon⟩
    have hin : ∀ w ∈ c.active, ¬ InRange w x := fun w hw hin => hfirst ⟨w, hw, .inr hin⟩
    have hrange : (∃ w ∈ c.active, OnAddress w x) →
        ∀ v ∈ c.active.takeWhile fun v => ¬ OnAddress v x, ¬ InRange v x :=
      fun ⟨w, hw, hon'⟩ => absurd hon' (hon w hw)
    rw [classify_false_of_none hon hin]
    obtain ⟨⟨w, hw, hnet⟩, i, hcount⟩ | ⟨hnone, hcount⟩ := countNet_cases x 0 c.wans
    · rw [hcount]
      exact ⟨rfl, fun _ => ⟨hrange, fun h => absurd hnet (h w hw).2.2⟩, fun _ => rfl⟩
    · have hroutes := length_countRouted x 0 c.wans
      rw [hcount, if_neg (not_not.mpr rfl)]
      by_cases hrouted : countRouted x 0 c.wans = []
      · have hdmz : InDmz c x := by
          by_contra hdmz
          refine not_matches_iff.mpr ⟨fun w hw => ⟨hon w hw, hin w hw, ?_, ?_⟩, hdmz⟩ h
          · exact fun hnet => hnone ⟨w, hw, hnet⟩
          · exact countRouted_eq_nil_iff.mp hrouted w hw
        rw [hrouted, if_neg (not_not.mpr rfl), if_pos hdmz]
        rw [hrouted, List.length_nil] at hroutes
        exact ⟨rfl, fun _ => ⟨hrange, fun _ => hroutes ▸ Nat.zero_le 1⟩, fun _ => rfl⟩
      · rw [if_pos hrouted]
        have hpos : 0 < (countRouted x 0 c.wans).length := List.length_pos_iff.mpr hrouted
        refine ⟨rfl, fun hlen => ⟨hrange, fun _ => ?_⟩, fun hone => ?_⟩
        · exact (hroutes ▸ hlen).le
        · have hle := hone.routed fun w hw =>
            ⟨hon w hw, hin w hw, fun hnet => hnone ⟨w, hw, hnet⟩⟩
          have hle' : (countRouted x 0 c.wans).length ≤ 1 := hroutes ▸ hle
          exact Nat.le_antisymm hle' hpos

/-- The flag does not matter to a session with an address that is counted once. -/
theorem classify_of_onAddress (hon : ∃ w ∈ c.active, OnAddress w x) (hone : OneWan c x)
    (sTemp : Bool) :
    (classify c sTemp x).1 = (classify c false x).1 ∧ (classify c sTemp x).1.length = 1 := by
  have hmatches : Matches c x := by
    obtain ⟨w, hw, h⟩ := hon
    exact .inl ⟨w, hw, .inl h⟩
  have hfalse := (classify_of_matches hmatches).2.mpr hone
  cases sTemp with
  | false => exact ⟨rfl, hfalse⟩
  | true =>
    have hsame := countAddress_false_of_front (j := 0) hon (hone.range hon)
    have hflag : (countAddress x false 0 c.wans).2 = true :=
      (countAddress_false x 0 c.wans (hon.imp fun w h => ⟨h.1, .inl h.2⟩)).1
    have heq : classify c true x = classify c false x := by
      rw [classify_true, classify_of_flag hflag, hsame]
    exact ⟨congrArg Prod.fst heq, heq ▸ hfalse⟩

theorem onAddress_of_flag (h : (classify c true x).1.length = 1) :
    ∃ w ∈ c.active, OnAddress w x := by
  rw [classify_true] at h
  obtain ⟨hon, -⟩ | ⟨-, hcount⟩ := countAddress_true x 0 c.wans
  · exact hon
  · rw [hcount] at h
    exact absurd h (by decide)

theorem sTempAfter_append (c : Setting) (l : List IpConntrack) (x : IpConntrack) :
    sTempAfter c (l ++ [x]) = (classify c (sTempAfter c l) x).2 := List.foldl_concat _ _ _ _

theorem sTempAfter_eq_true_iff : sTempAfter c l = true ↔ ∃ x ∈ l, Matches c x := by
  induction l using List.reverseRecOn with
  | nil =>
    exact ⟨fun h => absurd h Bool.false_ne_true, fun ⟨x, hx, _⟩ => absurd hx List.not_mem_nil⟩
  | append_singleton l x ih =>
    have hsplit : (∃ y ∈ l ++ [x], Matches c y) ↔ (∃ y ∈ l, Matches c y) ∨ Matches c x := by
      simp only [List.mem_append, List.mem_singleton, or_and_right, exists_or, exists_eq_left]
    rw [sTempAfter_append, hsplit, ← ih]
    by_cases hx : Matches c x
    · refine iff_of_true ?_ (.inr hx)
      cases hflag : sTempAfter c l with
      | false => exact (classify_of_matches hx).1
      | true =>
        rw [classify_true]
        obtain ⟨-, i, hcount⟩ | ⟨-, hcount⟩ := countAddress_true x 0 c.wans <;> rw [hcount]
    · rw [classify_of_not_matches hx, or_iff_left hx]

theorem filter_matches_cons (h : Matches c x) : ((x :: l).filter fun x => Matches c x) =
    x :: l.filter fun x => Matches c x :=
  List.filter_cons_of_pos (p := fun x => decide (Matches c x)) (decide_eq_true h)

theorem filter_matches_of_mem {pre : List IpConntrack} {y : IpConntrack} (hy : y ∈ pre)
    (hmatch : Matches c y) (hx : Matches c x) (post : List IpConntrack) :
    1 < ((pre ++ x :: post).filter fun x => Matches c x).length := by
  have hpos : 0 < (pre.filter fun x => Matches c x).length :=
    List.length_pos_of_mem (List.mem_filter.mpr ⟨hy, decide_eq_true hmatch⟩)
  rw [List.filter_append, filter_matches_cons hx, List.length_append, List.length_cons]
  omega

section Free

variable (honce : ∀ x ∈ l, Matches c x → OneWan c x)
  (hown : 1 < (l.filter fun x => Matches c x).length →
    ∀ x ∈ l, Matches c x → ∃ w ∈ c.active, OnAddress w x)

include honce hown

theorem classify_at {pre post : List IpConntrack} (hl : l = pre ++ x :: post) :
    (classify c (sTempAfter c pre) x).1 = (classify c false x).1 ∧
      (Matches c x → (classify c (sTempAfter c pre) x).1.length = 1) := by
  have hx : x ∈ l := by
    rw [hl]
    exact List.mem_append_right _ List.mem_cons_self
  by_cases hmatch : Matches c x
  · cases hflag : sTempAfter c pre with
    | false => exact ⟨rfl, fun _ => (classify_of_matches hmatch).2.mpr (honce x hx hmatch)⟩
    | true =>
      obtain ⟨y, hy, hmatch'⟩ := sTempAfter_eq_true_iff.mp hflag
      have htwo := filter_matches_of_mem hy hmatch' hmatch post
      rw [← hl] at htwo
      obtain ⟨hsame, hlen⟩ :=
        classify_of_onAddress (hown htwo x hx hmatch) (honce x hx hmatch) true
      exact ⟨hsame, fun _ => hlen⟩
  · rw [classify_of_not_matches hmatch, classify_of_not_matches hmatch]
    exact ⟨rfl, fun h => absurd h hmatch⟩

theorem countedOnce_of_free : CountedOnce c l :=
  fun _ _ _ hl hmatch => (classify_at honce hown hl).2 hmatch

theorem countAll_eq_flatMap : countAll c false l = l.flatMap fun x => (classify c false x).1 := by
  suffices h : ∀ pre post, l = pre ++ post →
      countAll c (sTempAfter c pre) post = post.flatMap fun x => (classify c false x).1 from
    h [] l rfl
  intro pre post
  induction post generalizing pre with
  | nil => exact fun _ => rfl
  | cons x post ih =>
    intro hl
    have hnext := ih (pre ++ [x]) (by rw [hl, List.append_assoc, List.singleton_append])
    rw [sTempAfter_append] at hnext
    rw [countAll, hnext, List.flatMap_cons, (classify_at honce hown hl).1]

end Free

/-- Each order of the sessions counts each of them once exactly if the flag never matters. -/
theorem countedOnce_perm_iff : (∀ l' : List IpConntrack, l'.Perm l → CountedOnce c l') ↔
    (∀ x ∈ l, Matches c x → OneWan c x) ∧
      (1 < (l.filter fun x => Matches c x).length →
        ∀ x ∈ l, Matches c x → ∃ w ∈ c.active, OnAddress w x) := by
  constructor
  · refine fun h => ⟨fun x hx hmatch => ?_, fun htwo x hx hmatch => ?_⟩
    · obtain ⟨pre, post, rfl⟩ := List.append_of_mem hx
      have hfirst := h _ List.perm_middle.symm [] x _ rfl hmatch
      exact (classify_of_matches hmatch).2.mp hfirst
    · obtain ⟨pre, post, rfl⟩ := List.append_of_mem hx
      have hrest : 0 < ((pre ++ post).filter fun x => Matches c x).length := by
        have hmiddle : (pre ++ x :: post).Perm (x :: (pre ++ post)) := List.perm_middle
        have hperm := hmiddle.filter fun x => decide (Matches c x)
        rw [hperm.length_eq, filter_matches_cons hmatch, List.length_cons] at htwo
        exact Nat.lt_of_succ_lt_succ htwo
      obtain ⟨y, hy⟩ := List.exists_mem_of_length_pos hrest
      obtain ⟨hy, hmatch'⟩ := List.mem_filter.mp hy
      obtain ⟨pre', post', hsplit⟩ := List.append_of_mem hy
      have hperm : (y :: x :: (pre' ++ post')).Perm (pre ++ x :: post) := by
        refine ((List.Perm.swap x y _).trans ?_).trans List.perm_middle.symm
        rw [hsplit]
        exact List.perm_middle.symm.cons x
      have hsecond := h _ hperm [y] x _ rfl hmatch
      have hflag : sTempAfter c [y] = true :=
        sTempAfter_eq_true_iff.mpr ⟨y, List.mem_cons_self, of_decide_eq_true hmatch'⟩
      rw [hflag] at hsecond
      exact onAddress_of_flag hsecond
  · rintro ⟨honce, hown⟩ l' hperm
    apply countedOnce_of_free
    · exact fun x hx => honce x (hperm.mem_iff.mp hx)
    · intro htwo x hx
      rw [(hperm.filter _).length_eq] at htwo
      exact hown htwo x (hperm.mem_iff.mp hx)

end Counts

/-! ## The hosts -/

section Hosts

variable {c : Setting} {x : IpConntrack} {l l' : List IpConntrack} {L L₀ : List UInt32} {t : Bool}

theorem finds_host (c : Setting) (x : IpConntrack) : Finds x (host c x) := by
  rw [Finds, host]
  split <;> simp [named]

theorem countIp_of_not_fresh (h : ¬ Fresh c L₀ x) (hL : L₀ ⊆ L) :
    countIp c (L, t) x = (L, t) := by
  rw [countIp]
  by_cases hseen : ∃ a ∈ L, Finds x a
  · rw [if_pos hseen]
  · have hzero : ¬ 0 < host c x := by
      intro hpos
      refine h ⟨hpos, fun hex => ?_⟩
      obtain ⟨a, ha, hfinds⟩ := hex
      exact hseen ⟨a, hL ha, hfinds⟩
    rw [if_neg hseen, if_neg hzero]

theorem subset_countIp (c : Setting) (L : List UInt32) (t : Bool) (x : IpConntrack) :
    L ⊆ (countIp c (L, t) x).1 := by
  rw [countIp]
  split_ifs
  · exact List.Subset.refl L
  · exact List.Subset.refl L
  · exact List.subset_cons_self _ _
  · exact List.Subset.refl L

theorem subset_foldl_countIp (c : Setting) (L : List UInt32) (t : Bool) (l : List IpConntrack) :
    L ⊆ (l.foldl (countIp c) (L, t)).1 := by
  induction l generalizing L t with
  | nil => exact List.Subset.refl L
  | cons x l ih => exact List.Subset.trans (subset_countIp c L t x) (ih _ _)

/-- Only sessions that would be listed if they came first decide. -/
theorem foldl_countIp_filter (c : Setting) (hL : L₀ ⊆ L) (t : Bool) (l : List IpConntrack) :
    l.foldl (countIp c) (L, t) = (l.filter fun x => Fresh c L₀ x).foldl (countIp c) (L, t) := by
  induction l generalizing L t with
  | nil => rfl
  | cons x l ih =>
    by_cases hfresh : Fresh c L₀ x
    · rw [List.filter_cons_of_pos (p := fun x => decide (Fresh c L₀ x)) (decide_eq_true hfresh)]
      exact ih (List.Subset.trans hL (subset_countIp c L t x)) _
    · rw [List.filter_cons_of_neg (p := fun x => decide (Fresh c L₀ x)) (by simpa using hfresh),
        List.foldl_cons, countIp_of_not_fresh hfresh hL]
      exact ih hL t

theorem foldl_countIp_true (c : Setting) (L : List UInt32) (l : List IpConntrack) :
    l.foldl (countIp c) (L, true) = (L, true) := by
  induction l with
  | nil => rfl
  | cons x l ih =>
    have hstep : countIp c (L, true) x = (L, true) := by
      rw [countIp]
      split_ifs with hseen hpos hflag
      · rfl
      · rfl
      · exact absurd (.inl rfl) hflag
      · rfl
    rw [List.foldl_cons, hstep, ih]

theorem countIp_of_isWanIp (h : Fresh c L x) (hwan : IsWanIp c (host c x)) :
    countIp c (L, t) x = (L, true) := by
  rw [countIp, if_neg h.2, if_pos h.1, if_pos (.inr hwan)]

theorem countIp_of_not_isWanIp (hpos : 0 < host c x) (hwan : ¬ IsWanIp c (host c x)) :
    countIp c (L, false) x = (enter (host c) Finds L x, false) := by
  have hflag : ¬ (false = true ∨ IsWanIp c (host c x)) :=
    not_or.mpr ⟨Bool.false_ne_true, hwan⟩
  by_cases hseen : ∃ a ∈ L, Finds x a
  · rw [countIp, if_pos hseen, enter_of_sees hseen]
  · rw [countIp, if_neg hseen, if_pos hpos, if_neg hflag, enter_of_not hseen]

theorem foldl_countIp_isWanIp (h : ∀ x ∈ l, Fresh c L x ∧ IsWanIp c (host c x)) :
    (l.foldl (countIp c) (L, false)).1 = L := by
  cases l with
  | nil => rfl
  | cons x l =>
    obtain ⟨hfresh, hwan⟩ := h x List.mem_cons_self
    rw [List.foldl_cons, countIp_of_isWanIp hfresh hwan, foldl_countIp_true]

theorem foldl_countIp_enterAll (h : ∀ x ∈ l, 0 < host c x ∧ ¬ IsWanIp c (host c x)) :
    l.foldl (countIp c) (L, false) = (enterAll (host c) Finds L l, false) := by
  induction l generalizing L with
  | nil => rfl
  | cons x l ih =>
    obtain ⟨hpos, hwan⟩ := h x List.mem_cons_self
    rw [List.foldl_cons, countIp_of_not_isWanIp hpos hwan]
    exact ih fun y hy => h y (List.mem_cons_of_mem _ hy)

/-- Among sessions that would all be listed if they came first, the order does not matter exactly
if all hosts are WAN addresses, or none is and none is shadowed. -/
theorem fresh_perm_iff (hfresh : ∀ x ∈ l, Fresh c L x) :
    (∀ l' : List IpConntrack, l'.Perm l → ∀ a, a ∈ (l'.foldl (countIp c) (L, false)).1 ↔
      a ∈ (l.foldl (countIp c) (L, false)).1) ↔
    (∀ x ∈ l, IsWanIp c (host c x)) ∨
      ∀ x ∈ l, ¬ IsWanIp c (host c x) ∧
        ¬ Shadowed (host c) Finds l (host c x) := by
  by_cases hall : ∀ x ∈ l, IsWanIp c (host c x)
  · refine iff_of_true (fun l' hperm a => ?_) (.inl hall)
    rw [foldl_countIp_isWanIp fun x hx => ⟨hfresh x hx, hall x hx⟩,
      foldl_countIp_isWanIp fun x hx =>
        ⟨hfresh x (hperm.mem_iff.mp hx), hall x (hperm.mem_iff.mp hx)⟩]
  · rw [or_iff_right hall]
    have hsplit : ∀ x ∈ l, ∃ rest, (x :: rest).Perm l := by
      intro x hx
      obtain ⟨pre, post, rfl⟩ := List.append_of_mem hx
      exact ⟨pre ++ post, List.perm_middle.symm⟩
    have hnames : (∀ x ∈ l, ¬ IsWanIp c (host c x)) →
        ((∀ l' : List IpConntrack, l'.Perm l → ∀ a, a ∈ (l'.foldl (countIp c) (L, false)).1 ↔
          a ∈ (l.foldl (countIp c) (L, false)).1) ↔
        ∀ x ∈ l, ¬ Shadowed (host c) Finds l (host c x)) := by
      intro hnone
      have hrun : ∀ l' : List IpConntrack, l'.Perm l → l'.foldl (countIp c) (L, false) =
          (enterAll (host c) Finds L l', false) := by
        intro l' hperm
        refine foldl_countIp_enterAll fun x hx => ?_
        exact ⟨(hfresh x (hperm.mem_iff.mp hx)).1, hnone x (hperm.mem_iff.mp hx)⟩
      rw [← enterAll_perm_iff (finds_host c) fun x hx b hb hsees => (hfresh x hx).2 ⟨b, hb, hsees⟩]
      refine forall_congr' fun l' => imp_congr_right fun hperm => ?_
      rw [hrun l' hperm, hrun l (List.Perm.refl l)]
    constructor
    · intro hsame
      have hnone : ∀ x ∈ l, ¬ IsWanIp c (host c x) := by
        intro x hx hwan
        -- In front, `x` keeps all addresses away, while `y` would be listed.
        simp only [not_forall] at hall
        obtain ⟨y, hy, hother⟩ := hall
        obtain ⟨rest, hperm⟩ := hsplit x hx
        obtain ⟨rest', hperm'⟩ := hsplit y hy
        have hin : host c y ∈ ((y :: rest').foldl (countIp c) (L, false)).1 := by
          rw [List.foldl_cons, countIp_of_not_isWanIp (hfresh y hy).1 hother,
            enter_of_not (hfresh y hy).2]
          exact subset_foldl_countIp c _ false rest' List.mem_cons_self
        have hout : host c y ∉ ((x :: rest).foldl (countIp c) (L, false)).1 := by
          rw [List.foldl_cons, countIp_of_isWanIp (hfresh x hx) hwan, foldl_countIp_true]
          exact fun hmem => (hfresh y hy).2 ⟨_, hmem, finds_host c y⟩
        exact hout ((hsame _ hperm _).mpr ((hsame _ hperm' _).mp hin))
      exact fun x hx => ⟨hnone x hx, (hnames hnone).mp hsame x hx⟩
    · intro h
      exact (hnames fun x hx => (h x hx).1).mpr fun x hx => (h x hx).2

theorem hosts_perm_iff (c : Setting) (L : List UInt32) (l : List IpConntrack) :
    (∀ l' : List IpConntrack, l'.Perm l → ∀ a, a ∈ (l'.foldl (countIp c) (L, false)).1 ↔
      a ∈ (l.foldl (countIp c) (L, false)).1) ↔
    (∀ x ∈ l, Fresh c L x → IsWanIp c (host c x)) ∨
      ∀ x ∈ l, Fresh c L x → ¬ IsWanIp c (host c x) ∧
        ¬ Shadowed (host c) Finds (l.filter fun x => Fresh c L x)
          (host c x) := by
  have hmem : ∀ x, x ∈ l.filter (fun x => Fresh c L x) ↔ x ∈ l ∧ Fresh c L x := by
    intro x
    rw [List.mem_filter, decide_eq_true_eq]
  have hfresh := fresh_perm_iff (l := l.filter fun x => Fresh c L x) fun x hx => ((hmem x).mp hx).2
  simp only [hmem, and_imp] at hfresh
  rw [← hfresh]
  constructor
  · intro hsame l' hperm a
    have hfilter : ((l' ++ l.filter fun x => ¬ Fresh c L x).filter fun x => Fresh c L x) = l' := by
      rw [List.filter_append, List.filter_filter,
        List.filter_eq_self.mpr fun x hx => decide_eq_true ((hmem x).mp (hperm.mem_iff.mp hx)).2]
      simp
    have hwhole : (l' ++ l.filter fun x => ¬ Fresh c L x).Perm l := by
      refine (hperm.append_right _).trans ?_
      simpa using List.filter_append_perm (fun x => decide (Fresh c L x)) l
    have hrun := hsame _ hwhole a
    rw [foldl_countIp_filter c (List.Subset.refl L), hfilter,
      foldl_countIp_filter c (List.Subset.refl L) false l] at hrun
    exact hrun
  · intro hsame l' hperm a
    rw [foldl_countIp_filter c (List.Subset.refl L),
      foldl_countIp_filter c (List.Subset.refl L) false l]
    exact hsame _ (hperm.filter _) a

end Hosts

/-- The counts and the hosts of a call do not depend on the order of the sessions, and each session
counts once, exactly if the flags never matter. -/
theorem orderFree_iff (c : Setting) (s : State) :
    OrderFree c s ↔ FlagFree c (ips s.tmpSmartQosIpList) (scannedBy c s) := by
  constructor
  · intro h
    have htable : ∀ l', l'.Perm (scannedBy c s) → ∃ hash ct,
        scannedBy c { s with hash := hash, ct := ct } = l' ∧
        SameCounts (nkUpdateDeltaCount c { s with hash := hash, ct := ct })
          (nkUpdateDeltaCount c s) ∧ CountedOnce c l' := by
      intro l' hperm
      obtain ⟨hash, ct, hung, hscan⟩ := exists_order_table hperm
      obtain ⟨hsame, hcounted⟩ := h hash ct hung (hscan ▸ hperm)
      exact ⟨hash, ct, hscan, hsame, hscan ▸ hcounted⟩
    obtain ⟨honce, hown⟩ := countedOnce_perm_iff.mp fun l' hperm => by
      obtain ⟨-, -, -, -, hcounted⟩ := htable l' hperm
      exact hcounted
    refine ⟨honce, hown, (hosts_perm_iff c _ _).mp fun l' hperm a => ?_⟩
    obtain ⟨hash, ct, hscan, hsame, -⟩ := htable l' hperm
    have hlist := ((sameCounts_iff hash ct).mp hsame).2 a
    rw [listed, listed, hscan] at hlist
    exact hlist
  · intro hfree hash ct _ hperm
    have hcounted := countedOnce_perm_iff.mpr ⟨hfree.once, hfree.own⟩ _ hperm
    refine ⟨(sameCounts_iff hash ct).mpr ⟨fun i => ?_, ?_⟩, hcounted⟩
    · have honce' : ∀ x ∈ scannedBy c { s with hash := hash, ct := ct },
          Matches c x → OneWan c x := fun x hx => hfree.once x (hperm.mem_iff.mp hx)
      have hown' : 1 < ((scannedBy c { s with hash := hash, ct := ct }).filter
          fun x => Matches c x).length →
          ∀ x ∈ scannedBy c { s with hash := hash, ct := ct }, Matches c x →
            ∃ w ∈ c.active, OnAddress w x := by
        intro htwo x hx
        rw [(hperm.filter _).length_eq] at htwo
        exact hfree.own htwo x (hperm.mem_iff.mp hx)
      rw [countAll_eq_flatMap honce' hown', countAll_eq_flatMap hfree.once hfree.own]
      exact (hperm.flatMap_right _).count_eq i
    · exact (hosts_perm_iff c _ _).mpr hfree.hosts _ hperm

/-! ## Two sessions -/

/-- One WAN, 198.51.100.2 in its net of 256 addresses. -/
def oneWan : Setting where
  wan0 := ⟨0xC6336402, 0xFFFFFF00, 0xC0A80101, [], 0, 0, 0xFFFFFFFF, []⟩
  others := []
  numWan := 1
  htableSize := 1
  calCntPeriod := 1
  trEnable := 1
  smartQos := 0

def noTraffic : Traffic := ⟨0, 0, 0, 0, 0, 0, 0, 0, 0, 0⟩

/-- One host goes out with the address of the WAN, the other one with 198.51.100.7. -/
def twoHosts : ℕ → IpConntrack := fun p =>
  if p = 0 then ⟨0xC0A80164, 0xCB007109, 0xCB007109, 0xC6336402, noTraffic⟩
  else ⟨0xC0A80165, 0xCB007109, 0xCB007109, 0xC6336407, noTraffic⟩

def chainOf (ps : List ℕ) : State where
  hashtmpSize := 1
  hash := fun k => if k = 0 then ps else []
  ct := twoHosts
  sessionNumPre := fun _ => 0
  sessionNum := fun _ => 0
  sessionNumTmp := fun _ => 0
  tmpSmartQosIpList := []
  nkSmartQosIpList := []

/-- Behind the session with the address of the WAN, the other one is not counted. -/
theorem second_host_uncounted : ¬ OrderFree oneWan (chainOf [0, 1, 0, 1]) := by
  intro h
  have hung : Hung oneWan (chainOf [1, 0, 1, 0]).hash := by
    intro p
    by_cases hp : p = 0 ∨ p = 1
    · rcases hp with rfl | rfl <;> decide
    · obtain ⟨hzero, hone⟩ := not_or.mp hp
      have hnot : p ∉ [1, 0, 1, 0] := by simp [hzero, hone]
      exact .inl (List.count_eq_zero.mpr hnot)
  obtain ⟨hsame, -⟩ := h (chainOf [1, 0, 1, 0]).hash twoHosts hung (by decide +kernel)
  have hcount : (nkUpdateDeltaCount oneWan (chainOf [1, 0, 1, 0])).sessionNumTmp 0 =
      (nkUpdateDeltaCount oneWan (chainOf [0, 1, 0, 1])).sessionNumTmp 0 :=
    congrFun hsame.counts 0
  have hdiffer : (nkUpdateDeltaCount oneWan (chainOf [1, 0, 1, 0])).sessionNumTmp 0 = 2 ∧
      (nkUpdateDeltaCount oneWan (chainOf [0, 1, 0, 1])).sessionNumTmp 0 = 1 := by
    decide +kernel
  rw [hdiffer.1, hdiffer.2] at hcount
  exact absurd hcount (by decide)

end DeltaCount
