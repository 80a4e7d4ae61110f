import RouterFirmware.CString

/-! # Loops over the places of a pattern

`while ((ptr = strstr(ptr, pattern)))` visits the places where a pattern stands. A loop may look at
what is before a place and from it on, and moves the pointer on or leaves.
-/
namespace PatternLoop

open CString

/-- A pointer into a text: the characters before it, backwards, and the text from it on. -/
structure Place where
  before : List Char
  here : List Char
  deriving DecidableEq

/-- All places of a pattern in the text `here`, in their order. -/
def places (pattern : List Char) : List Char → List Char → List Place
  | _, [] => []
  | before, c :: rest =>
    if pattern.isPrefixOf (c :: rest) then
      ⟨before, c :: rest⟩ :: places pattern (c :: before) rest
    else places pattern (c :: before) rest

inductive Move (σ ρ : Type) where
  | on (skip : ℕ) (s : σ)
  | leave (r : ρ)

variable {σ ρ : Type}

def Move.map (f : σ → σ) (g : ρ → ρ) : Move σ ρ → Move σ ρ
  | .on skip s => .on skip (f s)
  | .leave r => .leave (g r)

/-- The loop, character by character. `on skip` moves the pointer to the character behind, and
`skip` further; `atEnd` is what happens when there is no place any more. -/
def loop (pattern : List Char) (body : σ → Place → Except Fault (Move σ ρ))
    (atEnd : σ → Except Fault ρ) : ℕ → List Char → List Char → σ → Except Fault ρ
  | _, _, [], s => atEnd s
  | skip + 1, before, c :: rest, s => loop pattern body atEnd skip (c :: before) rest s
  | 0, before, c :: rest, s =>
    if pattern.isPrefixOf (c :: rest) then
      match body s ⟨before, c :: rest⟩ with
      | .error f => .error f
      | .ok (.on skip s) => loop pattern body atEnd skip (c :: before) rest s
      | .ok (.leave r) => .ok r
    else loop pattern body atEnd 0 (c :: before) rest s

def visit (body : σ → Place → Except Fault (Move σ ρ)) (atEnd : σ → Except Fault ρ) :
    List Place → σ → Except Fault ρ
  | [], s => atEnd s
  | p :: ps, s =>
    match body s p with
    | .error f => .error f
    | .ok (.on _ s) => visit body atEnd ps s
    | .ok (.leave r) => .ok r

/-- The body of a search for place number `idx` among those that count. The loop is left before
any other place once the count is reached, and `found` may find nothing there. -/
def nthBody (counts : Place → Except Fault Bool) (idx : ℤ)
    (found : Place → Except Fault (Option ρ)) (cnt : ℕ) (p : Place) :
    Except Fault (Move ℕ (ℕ × Option ρ)) :=
  if (cnt : ℤ) = idx then .ok (.leave (cnt, none))
  else
    match counts p with
    | .error f => .error f
    | .ok counted =>
      let cnt := if counted then cnt + 1 else cnt
      if (cnt : ℤ) = idx then (found p).map fun r => .leave (cnt, r)
      else .ok (.on 0 cnt)

/-- Number `idx` among the places that count, where those before it can all be looked at. -/
def IsNth (counts : Place → Except Fault Bool) (idx : ℤ) (ps : List Place) (p : Place) : Prop :=
  ∃ before after, ps = before ++ p :: after ∧ (∀ q ∈ before, ∃ b, counts q = .ok b) ∧
    counts p = .ok true ∧ (before.countP fun q => decide (counts q = .ok true)) + 1 = idx

section Places

variable {pattern t a b before here w : List Char} {c d : Char}

theorem places_cons (pattern before : List Char) (c : Char) (rest : List Char) :
    places pattern before (c :: rest) = if pattern.isPrefixOf (c :: rest) then
        ⟨before, c :: rest⟩ :: places pattern (c :: before) rest
      else places pattern (c :: before) rest := rfl

/-- `strstr` finds the first place, and the next ones when it is called again behind it. -/
theorem places_eq_strstr (hne : pattern ≠ []) (before here : List Char) :
    places pattern before here = match strstr pattern here with
      | none => []
      | some (_, []) => []
      | some (w, c :: rest) =>
        ⟨w.reverse ++ before, c :: rest⟩ :: places pattern (c :: (w.reverse ++ before)) rest := by
  induction here generalizing before with
  | nil =>
    have hstart : ¬ pattern.isPrefixOf [] = true := by
      rwa [List.isPrefixOf_iff_prefix, List.prefix_nil]
    rw [strstr_nil, if_neg hstart, places]
  | cons c rest ih =>
    rw [places_cons, strstr_cons]
    by_cases h : pattern.isPrefixOf (c :: rest) = true
    · rw [if_pos h, if_pos h]
      rfl
    · rw [if_neg h, if_neg h, ih]
      cases strstr pattern rest with
      | none => rfl
      | some p =>
        obtain ⟨w, u⟩ := p
        cases u with
        | nil => rfl
        | cons d u => simp

theorem places_skip (hw : c ∉ w) (before rest : List Char) :
    places (c :: t) before (w ++ rest) = places (c :: t) (w.reverse ++ before) rest := by
  induction w generalizing before with
  | nil => rfl
  | cons d w ih =>
    rw [List.mem_cons, not_or] at hw
    have hstart : ¬ (c :: t).isPrefixOf (d :: (w ++ rest)) = true := by simp [hw.1]
    rw [List.cons_append, places_cons, if_neg hstart, ih hw.2]
    simp

theorem places_before (pattern before here : List Char) : places pattern before here =
    (places pattern [] here).map fun p => ⟨p.before ++ before, p.here⟩ := by
  induction here generalizing before with
  | nil => rfl
  | cons c rest ih =>
    rw [places_cons, places_cons, ih (c :: before), ih [c]]
    split <;> simp

/-- A place does not reach over a character that the pattern can only begin with. -/
theorem places_append (hd : d ∉ t) (before a b : List Char) :
    places (c :: t) before (a ++ d :: b) =
      (places (c :: t) before a).map (fun p => ⟨p.before, p.here ++ d :: b⟩) ++
        places (c :: t) (a.reverse ++ before) (d :: b) := by
  induction a generalizing before with
  | nil => rfl
  | cons e a ih =>
    have hstart : (c :: t).isPrefixOf (e :: (a ++ d :: b)) = (c :: t).isPrefixOf (e :: a) := by
      rw [Bool.eq_iff_iff, List.isPrefixOf_iff_prefix, List.isPrefixOf_iff_prefix,
        List.cons_prefix_cons, List.cons_prefix_cons, prefix_append_cons hd]
    rw [List.cons_append, places_cons, places_cons, hstart, ih]
    split <;> simp

theorem places_split (hc : c ∉ t) (a b : List Char) :
    places (c :: t) [] (a ++ (c :: t ++ b)) =
      (places (c :: t) [] a).map (fun p => ⟨p.before, p.here ++ (c :: t ++ b)⟩) ++
        ⟨a.reverse, c :: t ++ b⟩ ::
          (places (c :: t) [] b).map fun p =>
            ⟨p.before ++ (t.reverse ++ c :: a.reverse), p.here⟩ := by
  have hstart : (c :: t).isPrefixOf (c :: (t ++ b)) = true := by
    apply List.isPrefixOf_iff_prefix.mpr
    exact List.prefix_append (c :: t) b
  rw [List.cons_append, places_append hc, List.append_nil, places_cons, if_pos hstart,
    places_skip hc, places_before _ (t.reverse ++ c :: a.reverse)]

theorem mem_places {p : Place} (h : p ∈ places pattern before here) :
    p.here ≠ [] ∧ pattern <+: p.here ∧
      ∃ w, here = w ++ p.here ∧ p.before = w.reverse ++ before := by
  induction here generalizing before with
  | nil => cases h
  | cons c rest ih =>
    have hrest : p ∈ places pattern (c :: before) rest → p.here ≠ [] ∧ pattern <+: p.here ∧
        ∃ w, c :: rest = w ++ p.here ∧ p.before = w.reverse ++ before := by
      intro hp
      obtain ⟨hne, hpattern, w, hw, hbefore⟩ := ih hp
      exact ⟨hne, hpattern, c :: w, by rw [hw, List.cons_append], by rw [hbefore]; simp⟩
    rw [places_cons] at h
    split at h
    · next hstart =>
      rcases List.mem_cons.mp h with rfl | hp
      · exact ⟨List.cons_ne_nil c rest, List.isPrefixOf_iff_prefix.mp hstart, [], rfl, rfl⟩
      · exact hrest hp
    · exact hrest h

/-- A later place has less of the text in front of it. -/
theorem places_pairwise (pattern before here : List Char) :
    (places pattern before here).Pairwise fun p q => q.here <:+ p.here ∧ q ≠ p := by
  induction here generalizing before with
  | nil => exact List.Pairwise.nil
  | cons c rest ih =>
    rw [places_cons]
    split
    · refine List.pairwise_cons.mpr ⟨fun q hq => ?_, ih _⟩
      obtain ⟨-, -, w, rfl, -⟩ := mem_places hq
      refine ⟨List.suffix_append (c :: w) q.here, fun heq => ?_⟩
      have hlen := congrArg (fun p => p.here.length) heq
      simp only [List.length_cons, List.length_append] at hlen
      omega
    · exact ih _

/-- What is listed before a place is before it in the text. -/
theorem before_of_split (hc : c ∉ t) {bs cs : List Place}
    (h : places (c :: t) [] (a ++ (c :: t ++ b)) = bs ++ ⟨a.reverse, c :: t ++ b⟩ :: cs) :
    bs = (places (c :: t) [] a).map fun p => ⟨p.before, p.here ++ (c :: t ++ b)⟩ := by
  have hpairwise := places_pairwise (c :: t) [] (a ++ (c :: t ++ b))
  rw [places_split hc] at h hpairwise
  obtain ⟨-, hlater, hbefore⟩ := List.pairwise_append.mp hpairwise
  have hnot : (⟨a.reverse, c :: t ++ b⟩ : Place) ∉
      (places (c :: t) [] a).map fun p => ⟨p.before, p.here ++ (c :: t ++ b)⟩ :=
    fun hmem => (hbefore _ hmem _ List.mem_cons_self).2 rfl
  have hnot' : (⟨a.reverse, c :: t ++ b⟩ : Place) ∉ (places (c :: t) [] b).map fun p =>
      ⟨p.before ++ (t.reverse ++ c :: a.reverse), p.here⟩ :=
    fun hmem => ((List.pairwise_cons.mp hlater).1 _ hmem).2 rfl
  exact ((List.append_cons_inj_of_notMem hnot hnot').mp h).1.symm

/-- The first character of the pattern stands at its start only, so a body that moves on inside
the pattern misses no place. -/
theorem loop_eq_visit {body : σ → Place → Except Fault (Move σ ρ)} {atEnd : σ → Except Fault ρ}
    (hc : c ∉ t) (hbody : ∀ s p k s', body s p = .ok (.on k s') → k ≤ t.length)
    (before here : List Char) (s : σ) :
    loop (c :: t) body atEnd 0 before here s =
      visit body atEnd (places (c :: t) before here) s := by
  have hskip : ∀ (here w rest before : List Char) (s : σ), here = w ++ rest → c ∉ w →
      loop (c :: t) body atEnd w.length before here s =
        visit body atEnd (places (c :: t) before here) s := by
    intro here
    induction here with
    | nil =>
      intro w rest before s _ _
      rw [loop, places, visit]
    | cons d here ih =>
      intro w rest before s hhere hw
      cases w with
      | nil =>
        rw [List.length_nil, loop, places_cons]
        by_cases hplace : (c :: t).isPrefixOf (d :: here) = true
        · rw [if_pos hplace, if_pos hplace, visit]
          obtain ⟨-, u, rfl⟩ := List.cons_prefix_cons.mp (List.isPrefixOf_iff_prefix.mp hplace)
          cases hrun : body s ⟨before, d :: (t ++ u)⟩ with
          | error f => rfl
          | ok m =>
            cases m with
            | leave r => rfl
            | on k s' =>
              have hlen : (t.take k).length = k := List.length_take_of_le (hbody _ _ _ _ hrun)
              have htake : c ∉ t.take k := fun hmem => hc (List.mem_of_mem_take hmem)
              have hmore := ih (t.take k) (t.drop k ++ u) (d :: before) s'
                (by rw [← List.append_assoc, List.take_append_drop]) htake
              rwa [hlen] at hmore
        · rw [if_neg hplace, if_neg hplace]
          exact ih [] here _ s rfl List.not_mem_nil
      | cons e w =>
        obtain ⟨rfl, hrest⟩ := List.cons.inj hhere
        rw [List.mem_cons, not_or] at hw
        have hstart : ¬ (c :: t).isPrefixOf (d :: here) = true := by simp [hw.1]
        rw [List.length_cons, loop, places_cons, if_neg hstart]
        exact ih w rest _ s hrest hw.2
  exact hskip here [] here before s rfl List.not_mem_nil

end Places

section Bodies

variable {body : σ → Place → Except Fault (Move σ ρ)} {atEnd : σ → Except Fault ρ}

theorem visit_congr {α : Type} {f g : α → Place} {l : List α}
    (h : ∀ x ∈ l, ∀ s, body s (f x) = body s (g x)) (s : σ) :
    visit body atEnd (l.map f) s = visit body atEnd (l.map g) s := by
  induction l generalizing s with
  | nil => rfl
  | cons x l ih =>
    rw [List.forall_mem_cons] at h
    rw [List.map_cons, List.map_cons, visit, visit, h.1 s]
    cases body s (g x) with
    | error f => rfl
    | ok m =>
      cases m with
      | on k s' => exact ih h.2 s'
      | leave r => rfl

theorem visit_map {f : σ → σ} {g : ρ → ρ}
    (hbody : ∀ s p, body (f s) p = (body s p).map (Move.map f g))
    (hend : ∀ s, atEnd (f s) = (atEnd s).map g) (ps : List Place) (s : σ) :
    visit body atEnd ps (f s) = (visit body atEnd ps s).map g := by
  induction ps generalizing s with
  | nil => exact hend s
  | cons p ps ih =>
    rw [visit, visit, hbody]
    cases body s p with
    | error f => rfl
    | ok m =>
      cases m with
      | on k s' => exact ih s'
      | leave r => rfl

end Bodies

section Counting

variable {counts : Place → Except Fault Bool} {idx : ℤ} {found : Place → Except Fault (Option ρ)}
  {atEnd : ℕ → Except Fault (ℕ × Option ρ)} {ps : List Place} {p : Place} {cnt : ℕ}

theorem nthBody_on {s : ℕ} {k s' : ℕ} (h : nthBody counts idx found s p = .ok (.on k s')) :
    k = 0 := by
  unfold nthBody at h
  by_cases hidx : (s : ℤ) = idx
  · rw [if_pos hidx] at h
    cases h
  · rw [if_neg hidx] at h
    cases hp : counts p with
    | error f =>
      rw [hp] at h
      cases h
    | ok b =>
      rw [hp] at h
      by_cases hreached : ((if b then s + 1 else s : ℕ) : ℤ) = idx
      · simp only [if_pos hreached] at h
        cases hfound : found p <;> rw [hfound] at h <;> cases h
      · simp only [if_neg hreached] at h
        cases h
        rfl

theorem visit_nthBody (h : IsNth counts (idx - cnt) ps p) :
    visit (nthBody counts idx found) atEnd ps cnt = (found p).map fun r => (idx.toNat, r) := by
  obtain ⟨before, after, rfl, hbefore, hp, hcount⟩ := h
  induction before generalizing cnt with
  | nil =>
    have hidx : ((cnt + 1 : ℕ) : ℤ) = idx := by
      simp only [List.countP_nil] at hcount
      omega
    have hne : ¬ (cnt : ℤ) = idx := by omega
    have htoNat : cnt + 1 = idx.toNat := by omega
    rw [List.nil_append, visit, nthBody, if_neg hne, hp]
    simp only [if_true, if_pos hidx]
    rw [htoNat]
    cases found p <;> rfl
  | cons q before ih =>
    rw [List.forall_mem_cons] at hbefore
    obtain ⟨⟨b, hb⟩, hrest⟩ := hbefore
    rw [List.countP_cons] at hcount
    have hne : ¬ (cnt : ℤ) = idx := by omega
    have hmore : ¬ ((if b then cnt + 1 else cnt : ℕ) : ℤ) = idx := by
      cases b
      · simpa using hne
      · simp only [hb, decide_true, if_true] at hcount ⊢
        omega
    rw [List.cons_append, visit, nthBody, if_neg hne, hb]
    simp only [if_neg hmore]
    refine ih hrest ?_
    cases b
    · simpa [hb] using hcount
    · simp only [hb, decide_true, if_true] at hcount ⊢
      omega

theorem IsNth.unique {q : Place} (h : IsNth counts idx ps p) (h' : IsNth counts idx ps q) :
    p = q := by
  have hfind : ∀ p, IsNth counts idx ps p →
      visit (nthBody counts idx fun p => .ok (some p)) (fun cnt => .ok (cnt, none)) ps 0 =
        .ok (idx.toNat, some p) := by
    intro p hp
    have hcnt : IsNth counts (idx - (0 : ℕ)) ps p := by simpa using hp
    exact visit_nthBody hcnt
  have hsame := (hfind p h).symm.trans (hfind q h')
  simpa using hsame

theorem visit_nthBody_none (hend : ∀ n, (∃ f, atEnd n = .error f) ∨ atEnd n = .ok (n, none))
    (h : ∀ p, ¬ IsNth counts (idx - cnt) ps p) :
    (∃ f, visit (nthBody counts idx found) atEnd ps cnt = .error f) ∨
      ∃ n, visit (nthBody counts idx found) atEnd ps cnt = .ok (n, none) := by
  induction ps generalizing cnt with
  | nil =>
    rcases hend cnt with hfault | hok
    · exact .inl hfault
    · exact .inr ⟨cnt, hok⟩
  | cons q ps ih =>
    rw [visit, nthBody]
    by_cases hidx : (cnt : ℤ) = idx
    · rw [if_pos hidx]
      exact .inr ⟨cnt, rfl⟩
    · rw [if_neg hidx]
      cases hq : counts q with
      | error f => exact .inl ⟨f, rfl⟩
      | ok b =>
        have hmore : ¬ ((if b then cnt + 1 else cnt : ℕ) : ℤ) = idx := by
          cases b
          · simpa using hidx
          · intro hreached
            refine h q ⟨[], ps, rfl, by simp, hq, ?_⟩
            simp only [if_true] at hreached
            simp only [List.countP_nil]
            omega
        simp only [if_neg hmore]
        refine ih fun p hp => ?_
        obtain ⟨before, after, rfl, hbefore, hcounts, hcount⟩ := hp
        refine h p ⟨q :: before, after, rfl, List.forall_mem_cons.mpr ⟨⟨b, hq⟩, hbefore⟩, hcounts,
          ?_⟩
        rw [List.countP_cons]
        cases b
        · simpa [hq] using hcount
        · simp only [hq, decide_true, if_true] at hcount ⊢
          omega

/-- Past the last place that counts the search comes to the end. -/
theorem visit_nthBody_end (hps : ∀ p ∈ ps, ∃ b, counts p = .ok b)
    (hless : ((cnt + ps.countP fun q => decide (counts q = .ok true) : ℕ) : ℤ) < idx) :
    visit (nthBody counts idx found) atEnd ps cnt =
      atEnd (cnt + ps.countP fun q => decide (counts q = .ok true)) := by
  induction ps generalizing cnt with
  | nil => rfl
  | cons q ps ih =>
    rw [List.forall_mem_cons] at hps
    obtain ⟨⟨b, hb⟩, hps⟩ := hps
    have hcount : cnt + (q :: ps).countP (fun q => decide (counts q = .ok true)) =
        (if b then cnt + 1 else cnt) + ps.countP fun q => decide (counts q = .ok true) := by
      rw [List.countP_cons, hb]
      cases b
      · simp
      · simp only [decide_true, if_true]
        omega
    rw [hcount] at hless ⊢
    have hne : ¬ (cnt : ℤ) = idx := by
      cases b <;> simp at hless <;> omega
    have hmore : ¬ ((if b then cnt + 1 else cnt : ℕ) : ℤ) = idx := by omega
    rw [visit, nthBody, if_neg hne, hb]
    simp only [if_neg hmore]
    exact ih hps hless

theorem exists_isNth (hps : ∀ p ∈ ps, ∃ b, counts p = .ok b) {i : ℕ} (hi : 1 ≤ i)
    (hle : i ≤ ps.countP fun q => decide (counts q = .ok true)) :
    ∃ p, IsNth counts i ps p := by
  induction ps generalizing i with
  | nil => exact absurd hi (not_le.mpr (Nat.lt_succ_of_le hle))
  | cons q ps ih =>
    rw [List.forall_mem_cons] at hps
    obtain ⟨⟨b, hb⟩, hps⟩ := hps
    rw [List.countP_cons] at hle
    by_cases hfirst : b = true ∧ i = 1
    · obtain ⟨rfl, rfl⟩ := hfirst
      exact ⟨q, [], ps, rfl, by simp, hb, by simp⟩
    · have hrest : ∃ j : ℕ, 1 ≤ j ∧ j + (if b then 1 else 0) = i ∧
          j ≤ ps.countP fun q => decide (counts q = .ok true) := by
        cases b
        · simp only [hb] at hle
          exact ⟨i, hi, rfl, by simpa using hle⟩
        · simp only [true_and] at hfirst
          simp only [hb, decide_true, if_true] at hle
          exact ⟨i - 1, by omega, by simp; omega, by omega⟩
      obtain ⟨j, hj, rfl, hjle⟩ := hrest
      obtain ⟨p, before, after, rfl, hbefore, hp, hcount⟩ := ih hps hj hjle
      refine ⟨p, q :: before, after, rfl, List.forall_mem_cons.mpr ⟨⟨b, hb⟩, hbefore⟩, hp, ?_⟩
      rw [List.countP_cons, hb]
      cases b
      · simpa using hcount
      · simp only [decide_true, if_true]
        omega

theorem isNth_of_mem (hps : ∀ p ∈ ps, ∃ b, counts p = .ok b) (hmem : p ∈ ps)
    (hp : counts p = .ok true) : ∃ i : ℕ, 1 ≤ i ∧
      (i ≤ ps.countP fun q => decide (counts q = .ok true)) ∧ IsNth counts i ps p := by
  obtain ⟨before, after, rfl⟩ := List.append_of_mem hmem
  refine ⟨(before.countP fun q => decide (counts q = .ok true)) + 1, Nat.le_add_left 1 _, ?_,
    before, after, rfl, fun q hq => hps q (List.mem_append_left _ hq), hp, by simp⟩
  rw [List.countP_append, List.countP_cons, hp]
  simp only [decide_true, if_true]
  omega

end Counting

end PatternLoop
