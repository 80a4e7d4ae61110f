import RouterFirmware.ConfigDelete
import RouterFirmware.ConfigSections

/-! # Deleting a category

`move_to_category` goes back from behind the line it found by the length of a header, and
`remove_category` skips from there to the next `[`. Its copy loop looks for the end of the file
before it reads, so it writes the last character twice.
-/
namespace ConfigRemove

open TextStream SharedProgram ConfigDatabase ConfigScan ConfigEdit ConfigFormat ConfigCommand
  ConfigWrite ConfigDelete ConfigSections

/-- `remove_category` at the stream `rest` writes this to `/tmp/stemp`. -/
def removedText (text rest : Text) : Text := consumed text rest ++ copyFromBracket (rest.drop 1)

/-- The two functions run, and the new file is the other sections. -/
def Removes (before : List Section) (s : Section) (after : List Section) : Prop :=
  ∀ fs : FileSys, fs.writable .stemp = true → ∃ rest,
    moveToCategory (merged (before ++ s :: after)) s.name.text = some rest ∧
      (removeCategory (merged (before ++ s :: after)) rest).run exec fs =
        some (.ok, fs.set .stemp (some (merged (before ++ after))))

def body (s : Section) : Text := render s.items ++ List.replicate s.blank '\n'

theorem text_eq (s : Section) : s.text = '[' :: (s.name.text ++ ']' :: '\n' :: body s) := by
  simp [Section.text, header, body]

/-- `find_category` goes over the earlier sections. Or it stops in them, at a copy of the section
with one more newline at their end; without that copy the file is the same. -/
def Reached (before : List Section) (s : Section) : Prop :=
  passes s.name.text (merged before) = true ∨
    findCategory s.name.text (merged before) = some (body s ++ ['\n']) ∧
      s.text ++ ['\n'] <:+ merged before

instance (before : List Section) (s : Section) : Decidable (Reached before s) :=
  inferInstanceAs (Decidable (passes s.name.text (merged before) = true ∨
    findCategory s.name.text (merged before) = some (body s ++ ['\n']) ∧
      s.text ++ ['\n'] <:+ merged before))

/-- Nothing but a newline is last in the text. -/
def Ended (t : Text) : Prop := ∀ c ∈ t.getLast?, c = '\n'

section Ends

variable {a b t : Text}

theorem Ended.suffix (h : Ended t) (hs : a <:+ t) : Ended a := by
  intro c hc
  obtain ⟨b, rfl⟩ := hs
  refine h c ?_
  rw [List.getLast?_append, hc, Option.some_or]
  rfl

theorem Ended.append (hb : Ended b) (ha : b = [] → Ended a) : Ended (a ++ b) := by
  intro c hc
  rw [List.getLast?_append] at hc
  cases hlast : b.getLast? with
  | none =>
    rw [hlast, Option.none_or] at hc
    exact ha (List.getLast?_eq_none_iff.mp hlast) c hc
  | some d =>
    rw [hlast, Option.some_or] at hc
    exact hb c (hlast ▸ hc)

theorem ended_snoc (t : Text) : Ended (t ++ ['\n']) := by
  intro c hc
  rw [List.getLast?_concat] at hc
  exact (Option.some.inj hc).symm

theorem Ended.snoc (h : Ended t) (hne : t ≠ []) : ∃ u, t = u ++ ['\n'] := by
  refine ⟨t.dropLast, ?_⟩
  have hlast := h _ (List.getLast?_eq_some_getLast hne)
  rw [← hlast, List.dropLast_append_getLast hne]

theorem ended_header (name : Text) : Ended (header name) := by
  have hsplit : header name = ('[' :: name ++ [']']) ++ ['\n'] := by simp [header]
  rw [hsplit]
  exact ended_snoc _

theorem ended_blank (n : ℕ) : Ended (List.replicate n '\n') := by
  intro c hc
  exact List.eq_of_mem_replicate (List.mem_of_getLast? hc)

theorem ended_render (items : List Item) : Ended (render items) := by
  induction items with
  | nil => intro c hc; cases hc
  | cons i items ih =>
    have hsplit : render (i :: items) = (i.text ++ ['\n']) ++ render items := by
      rw [render_cons, List.append_assoc, List.singleton_append]
    rw [hsplit]
    exact ih.append fun _ => ended_snoc _

theorem ended_body (s : Section) : Ended (body s) := (ended_blank _).append fun _ => ended_render _

theorem ended_text (s : Section) : Ended s.text := (ended_body s).append fun _ => ended_header _

theorem ended_merged (db : List Section) : Ended (merged db) := by
  induction db with
  | nil => intro c hc; cases hc
  | cons s db ih => exact ih.append fun _ => ended_text s

end Ends

section Search

variable {category t r x : Text}

/-- What is found is behind a line that holds the header. -/
theorem findCategory_spec (h : findCategory category t = some r) :
    ∃ a v, t = a ++ '[' :: (category ++ ']' :: v) ∧ r = skipLine v := by
  fun_induction findCategory category t with
  | case1 t hopen => cases h
  | case2 t a b hopen hclose => cases h
  | case3 t a b hopen v hclose =>
    cases h
    rw [(eq_of_readTo hopen).1, (eq_of_readTo hclose).1]
    exact ⟨a, v, rfl, rfl⟩
  | case4 t a b hopen name v hclose hname ih =>
    obtain ⟨c, w, rfl, hw⟩ := ih h
    refine ⟨a ++ '[' :: (name ++ ']' :: c), w, ?_, hw⟩
    rw [(eq_of_readTo hopen).1, (eq_of_readTo hclose).1]
    simp

theorem skipLine_append {v : Text} (hv : '\n' ∈ v) (w : Text) :
    skipLine (v ++ w) = skipLine v ++ w := by
  cases hr : readTo '\n' v with
  | none => exact absurd hv (readTo_eq_none.mp hr)
  | some p => rw [skipLine, skipLine, readTo_append_right hr, hr]

theorem newline_mem_of_ended {a v : Text} (h : Ended (a ++ ']' :: v)) : '\n' ∈ v := by
  have hlast := (h.suffix (List.suffix_append a (']' :: v))).snoc (by simp)
  obtain ⟨u, hu⟩ := hlast
  have hmem : '\n' ∈ ']' :: v := by simp [hu]
  simpa using hmem

/-- In a text that ends in a newline, a header and its newline stand before what is found. -/
theorem findCategory_ended (ht : Ended t) (h : findCategory category t = some r) :
    ∃ a junk, t = a ++ '[' :: (category ++ ']' :: (junk ++ '\n' :: r)) := by
  obtain ⟨a, v, rfl, rfl⟩ := findCategory_spec h
  have hv : '\n' ∈ v := by
    have hsplit : a ++ '[' :: (category ++ ']' :: v) = (a ++ '[' :: category) ++ ']' :: v := by
      simp
    rw [hsplit] at ht
    exact newline_mem_of_ended ht
  cases hr : readTo '\n' v with
  | none => exact absurd hv (readTo_eq_none.mp hr)
  | some p =>
    refine ⟨a, p.1, ?_⟩
    rw [skipLine, hr, ← (eq_of_readTo hr).1]

theorem findCategory_length (ht : Ended t) (h : findCategory category t = some r) :
    r.length + category.length + 3 ≤ t.length ∧ r <:+ t := by
  obtain ⟨a, junk, rfl⟩ := findCategory_ended ht h
  constructor
  · simp only [List.length_append, List.length_cons]
    omega
  · exact ⟨a ++ '[' :: (category ++ ']' :: (junk ++ ['\n'])), by simp⟩

theorem moveToCategory_ended (ht : Ended t) (h : findCategory category t = some r) :
    moveToCategory t category = some (t.drop (t.length - r.length - category.length - 3)) := by
  have hlen := (findCategory_length ht h).1
  rw [moveToCategory, h, Option.map_some, if_pos (by omega)]

theorem findCategory_append (ht : Ended t) (h : findCategory category t = some r) (w : Text) :
    findCategory category (t ++ w) = some (r ++ w) := by
  fun_induction findCategory category t with
  | case1 t hopen => cases h
  | case2 t a b hopen hclose => cases h
  | case3 t a b hopen v hclose =>
    cases h
    have hsplit : t = (a ++ '[' :: category) ++ ']' :: v := by
      rw [(eq_of_readTo hopen).1, (eq_of_readTo hclose).1]
      simp
    rw [findCategory_eq, readTo_append_right hopen, Option.bind_some,
      readTo_append_right hclose, Option.bind_some, if_pos rfl,
      skipLine_append (newline_mem_of_ended (hsplit ▸ ht))]
  | case4 t a b hopen name v hclose hname ih =>
    have hsuffix : v <:+ t := by
      rw [(eq_of_readTo hopen).1, (eq_of_readTo hclose).1]
      exact ⟨a ++ '[' :: (name ++ [']']), by simp⟩
    rw [findCategory_eq, readTo_append_right hopen, Option.bind_some,
      readTo_append_right hclose, Option.bind_some, if_neg hname, ih (ht.suffix hsuffix) h]

/-- Either the scan comes to the header behind the text, or it finds something before it, or it is
inside an open bracket there and goes on behind the header. -/
theorem findCategory_over (name : Name) (x w : Text) :
    passes name.text x = true ∨ (findCategory name.text x).isSome = true ∨
      findCategory name.text (x ++ (header name.text ++ w)) = findCategory name.text w := by
  fun_induction passes name.text x with
  | case1 x hopen => exact .inl rfl
  | case2 x a b hopen hclose =>
    refine .inr (.inr ?_)
    have hb : ']' ∉ b ++ '[' :: name.text := by
      simp [readTo_eq_none.mp hclose, name.not_bracket]
    have hread : readTo ']' (b ++ (header name.text ++ w)) =
        some (b ++ '[' :: name.text, '\n' :: w) := by
      have hsplit : b ++ (header name.text ++ w) = (b ++ '[' :: name.text) ++ ']' :: '\n' :: w := by
        simp [header]
      rw [hsplit, readTo_append hb]
    have hne : b ++ '[' :: name.text ≠ name.text := by
      intro h
      have hlen := congrArg List.length h
      rw [List.length_append, List.length_cons] at hlen
      omega
    have hskip : findCategory name.text ('\n' :: w) = findCategory name.text w := by
      rw [findCategory_eq, findCategory_eq name.text w, readTo, if_neg (by decide)]
      cases readTo '[' w <;> rfl
    rw [findCategory_eq, readTo_append_right hopen, Option.bind_some, hread, Option.bind_some,
      if_neg hne, hskip]
  | case3 x a b hopen nm v hclose ih =>
    rw [findCategory_eq name.text x, findCategory_eq name.text (x ++ _), hopen,
      readTo_append_right hopen, Option.bind_some, Option.bind_some, hclose,
      readTo_append_right hclose, Option.bind_some, Option.bind_some]
    by_cases hname : nm = name.text
    · exact .inr (.inl (by rw [if_pos hname]; rfl))
    · rw [if_neg hname, if_neg hname, bne_iff_ne.mpr hname, Bool.true_and]
      exact ih

end Search

section Lines

theorem textLines_blank (n : ℕ) (t : Text) :
    textLines (List.replicate n '\n' ++ t) = textLines t := by
  induction n with
  | zero => rfl
  | succ n ih =>
    have hline := textLines_append [] (List.replicate n '\n' ++ t)
    rw [List.replicate_succ, List.cons_append]
    exact hline.trans ih

theorem textLines_merged (db : List Section) : textLines (merged db) =
    db.flatMap fun s => ('[' :: s.name.text ++ [']']) :: s.items.map Item.text := by
  induction db with
  | nil => rfl
  | cons s db ih =>
    have hsplit : s.text ++ merged db =
        splitFile s.name s.items ++ (List.replicate s.blank '\n' ++ merged db) := by
      simp [Section.text, splitFile]
    rw [merged_cons, hsplit, textLines_splitFile, textLines_blank, ih, List.flatMap_cons]
    rfl

/-- A header at the start of a line is the header of a section. -/
theorem exists_name {db : List Section} {name : Name} {a b : Text}
    (h : merged db = a ++ '\n' :: (header name.text ++ b)) : ∃ o ∈ db, o.name = name := by
  have hsplit : header name.text ++ b = ('[' :: name.text ++ [']']) ++ '\n' :: b := by
    simp [header]
  have hmem : '[' :: name.text ++ [']'] ∈ textLines (merged db) := by
    rw [h, textLines_append, hsplit, textLines_append, textLines_line name.header_newline (by simp)]
    simp
  rw [textLines_merged, List.mem_flatMap] at hmem
  obtain ⟨o, ho, hmem⟩ := hmem
  refine ⟨o, ho, Name.ext_iff'.mpr ?_⟩
  rcases List.mem_cons.mp hmem with heq | hitem
  · exact (List.append_cancel_right (List.cons.inj heq).2).symm
  · obtain ⟨i, -, htext⟩ := List.mem_map.mp hitem
    obtain ⟨c, k, hk⟩ := List.exists_cons_of_ne_nil i.key.ne
    rw [Item.text, hk] at htext
    obtain rfl : c = '[' := (List.cons.inj htext).1
    exact absurd (by simp [hk]) i.key.bracket_not_mem

end Lines

section Remove

variable {before after : List Section} {s : Section} {a t w : Text}

theorem run_removeCategory (text rest : Text) (fs : FileSys) :
    (removeCategory text rest).run exec fs =
      if fs.writable .stemp then some (.ok, fs.set .stemp (some (removedText text rest)))
      else some (.failToOpen, fs) := by
  rw [removeCategory, run_create_bind]
  cases hw : fs.writable .stemp with
  | false => rfl
  | true => simp [run_put_bind, removedText]

theorem removes_iff : Removes before s after ↔
    ∃ rest, moveToCategory (merged (before ++ s :: after)) s.name.text = some rest ∧
      removedText (merged (before ++ s :: after)) rest = merged (before ++ after) := by
  constructor
  · intro h
    have hw : (FileSys.single .stemp []).writable .stemp = true := rfl
    obtain ⟨rest, hmove, hrun⟩ := h (.single .stemp []) hw
    refine ⟨rest, hmove, ?_⟩
    rw [run_removeCategory, if_pos hw] at hrun
    have hfiles := congrArg (fun x => x.bind fun p => p.2.files .stemp) hrun
    simpa using hfiles
  · intro h fs hw
    obtain ⟨rest, hmove, htext⟩ := h
    refine ⟨rest, hmove, ?_⟩
    rw [run_removeCategory, if_pos hw, htext]

/-- `nk_delete_setting` renames the new file over the database. -/
theorem run_nkDeleteSetting_category (h : Removes before s after) {fs : FileSys} {dbname : Path}
    (hc : fs.content dbname = some (merged (before ++ s :: after)))
    (hw : fs.writable .stemp = true) :
    (nkDeleteSetting s.name.text none dbname).run exec fs =
      some (.ok, fs.install dbname (merged (before ++ after))) := by
  obtain ⟨rest, hmove, hrun⟩ := h fs hw
  rw [nkDeleteSetting, if_neg (by simp), run_read_bind, hc]
  dsimp only
  rw [hmove]
  dsimp only
  rw [run_bind, hrun]
  simp [run_rename_bind, FileSys.install]

theorem copyFromBracket_eq_nil_iff : copyFromBracket t = [] ↔ '[' ∉ t := by
  rw [copyFromBracket, ← readTo_eq_none]
  cases readTo '[' t <;> simp

theorem copyFromBracket_ended (ha : '[' ∉ a) (hw : Ended ('[' :: w)) :
    copyFromBracket (a ++ '[' :: w) = '[' :: w ++ ['\n'] := by
  rw [copyFromBracket, readTo_append ha]
  dsimp only
  rw [hw _ (List.getLast?_eq_some_getLast (by simp))]

/-- The copy starts at the first `[`, and at the latest at the one that is given. -/
theorem copyFromBracket_cut (t : Text) (hw : Ended ('[' :: w)) :
    ∃ a r, t = a ++ r ∧ '[' ∉ a ∧ copyFromBracket (t ++ '[' :: w) = r ++ '[' :: w ++ ['\n'] := by
  cases hr : readTo '[' t with
  | none =>
    have ht := readTo_eq_none.mp hr
    exact ⟨t, [], (List.append_nil t).symm, ht, copyFromBracket_ended ht hw⟩
  | some p =>
    obtain ⟨ht, hp⟩ := eq_of_readTo hr
    refine ⟨p.1, '[' :: p.2, ht, hp, ?_⟩
    have hended : Ended ('[' :: (p.2 ++ '[' :: w)) :=
      hw.append (a := '[' :: p.2) (by intro h; cases h)
    rw [ht, List.append_assoc, List.cons_append, copyFromBracket_ended hp hended]

theorem exists_merged_cons (o : Section) (db : List Section) :
    ∃ w, merged (o :: db) = '[' :: w := ⟨_, rfl⟩

/-- Behind the bracket of its header the section has another one only in its lines. -/
theorem bracket_mem_iff : '[' ∈ s.name.text ++ ']' :: '\n' :: body s ↔ '[' ∈ render s.items := by
  simp [body, s.name.open_not_mem]

/-- The file is copied up to a place, and then again from the first `[` behind it. -/
theorem removes_at {p q r : Text} {c : Char} (ht : merged (before ++ s :: after) = p ++ c :: q)
    (hf : findCategory s.name.text (merged (before ++ s :: after)) = some r)
    (hlen : q.length = r.length + s.name.text.length + 2) :
    Removes before s after ↔ p ++ copyFromBracket q = merged (before ++ after) := by
  have hindex : (p ++ c :: q).length - r.length - s.name.text.length - 3 = p.length := by
    rw [List.length_append, List.length_cons]
    omega
  have hmove : moveToCategory (merged (before ++ s :: after)) s.name.text = some (c :: q) := by
    rw [moveToCategory_ended (ended_merged _) hf, ht, hindex, List.drop_left]
  rw [removes_iff, hmove]
  simp [removedText, ht, consumed_append]

theorem removes_at_header (hp : passes s.name.text (merged before) = true) :
    Removes before s after ↔ after = [] ∧ '[' ∉ render s.items := by
  have htext : merged (before ++ s :: after) =
      merged before ++ '[' :: ((s.name.text ++ ']' :: '\n' :: body s) ++ merged after) := by
    rw [merged_append, merged_cons, text_eq, List.cons_append]
  have hlen : ((s.name.text ++ ']' :: '\n' :: body s) ++ merged after).length =
      (render s.items ++ (List.replicate s.blank '\n' ++ merged after)).length +
        s.name.text.length + 2 := by
    simp only [body, List.length_append, List.length_cons]
    omega
  rw [removes_at htext (findCategory_merged after hp) hlen, merged_append,
    List.append_cancel_left_eq, ← bracket_mem_iff]
  cases after with
  | nil =>
    rw [merged_nil, List.append_nil, copyFromBracket_eq_nil_iff]
    exact (and_iff_right rfl).symm
  | cons o after =>
    obtain ⟨w, hw⟩ := exists_merged_cons o after
    obtain ⟨a, r, -, -, hcut⟩ := copyFromBracket_cut (s.name.text ++ ']' :: '\n' :: body s)
      (hw ▸ ended_merged (o :: after))
    refine iff_of_false ?_ (by simp)
    intro h
    rw [hw, hcut] at h
    have hlonger := congrArg List.length h
    rw [List.length_append, List.length_append, List.length_singleton] at hlonger
    omega

/-- The copy goes on from `r`, a part of the end `z` of the earlier sections. It gives the other
sections only when there is none behind and `r` is nothing. -/
theorem of_copied {p z r : Text} (h : ∀ o ∈ before, o.name ≠ s.name)
    (hx : merged before = p ++ z) (hz : z ≠ []) (hr : r <:+ z)
    (heq : r ++ (s.text ++ merged after) ++ ['\n'] = z ++ merged after) :
    after = [] ∧ z = s.text ++ ['\n'] := by
  have hended : Ended z := (ended_merged before).suffix (hx ▸ List.suffix_append p z)
  cases after with
  | cons o after =>
    -- the newline at the end of `z` would be the bracket of the next header
    obtain ⟨w, hw⟩ := exists_merged_cons o after
    obtain ⟨y, rfl⟩ := hended.snoc hz
    rw [hw] at heq
    have hcut : (r ++ s.text) ++ ('[' :: w ++ ['\n']) = y ++ ('\n' :: '[' :: w) := by
      simpa using heq
    have htail := (List.append_inj' hcut (by simp)).2
    cases (List.cons.inj htail).1
  | nil =>
    rw [merged_nil, List.append_nil, List.append_nil] at heq
    refine ⟨rfl, ?_⟩
    rcases List.eq_nil_or_concat r with rfl | hlast
    · exact heq.symm
    · -- else the header in `z` is at the start of a line
      obtain ⟨y, hy⟩ := (hended.suffix hr).snoc (by obtain ⟨l, c, rfl⟩ := hlast; simp)
      have hline : merged before =
          (p ++ y) ++ '\n' :: (header s.name.text ++ (body s ++ ['\n'])) := by
        rw [hx, ← heq, hy]
        simp [Section.text, body]
      obtain ⟨o, ho, hname⟩ := exists_name hline
      exact absurd hname (h o ho)

/-- From the end `c :: z` of the earlier sections the copy gives the other sections only when that
end is the section with one more newline. -/
theorem copied_iff {p z : Text} {c : Char} (h : ∀ o ∈ before, o.name ≠ s.name)
    (hx : merged before = p ++ c :: z) :
    copyFromBracket (z ++ merged (s :: after)) = c :: z ++ merged after ↔
      after = [] ∧ '[' ∉ render s.items ∧ c :: z = s.text ++ ['\n'] := by
  obtain ⟨w, hw⟩ := exists_merged_cons s after
  have hended : Ended ('[' :: w) := hw ▸ ended_merged (s :: after)
  rw [hw]
  constructor
  · intro heq
    obtain ⟨a, r, hcut, ha, hcopy⟩ := copyFromBracket_cut z hended
    rw [hcopy, ← hw, merged_cons] at heq
    have hr : r <:+ c :: z := (hcut ▸ List.suffix_append a r).trans (List.suffix_cons c z)
    obtain ⟨rfl, hsame⟩ := of_copied h hx (List.cons_ne_nil c z) hr heq
    obtain rfl : r = [] := by
      rw [hsame, merged_nil, List.append_nil, List.append_nil, List.append_assoc] at heq
      exact List.append_left_eq_self.mp heq
    rw [List.append_nil] at hcut
    refine ⟨rfl, ?_, hsame⟩
    rw [← bracket_mem_iff]
    intro hm
    have htail := (List.cons.inj (text_eq s ▸ hsame)).2
    exact ha (hcut ▸ htail ▸ List.mem_append_left _ hm)
  · intro hcond
    obtain ⟨rfl, hmem, hsame⟩ := hcond
    have htail : z = s.name.text ++ ']' :: '\n' :: body s ++ ['\n'] :=
      (List.cons.inj (text_eq s ▸ hsame)).2
    have hfree : '[' ∉ z := by
      rw [htail, List.mem_append, bracket_mem_iff]
      simp [hmem]
    rw [copyFromBracket_ended hfree hended, hsame, ← hw, merged_cons, merged_nil, List.append_nil,
      List.append_nil]

theorem eq_of_suffixes {u v : Text} (hu : u <:+ t) (hv : v <:+ t) (h : u.length = v.length) :
    u = v :=
  (List.suffix_of_suffix_length_le hu hv h.le).eq_of_length h

theorem removes_at_copy (h : ∀ o ∈ before, o.name ≠ s.name)
    (hf : findCategory s.name.text (merged before) = some t) :
    Removes before s after ↔ after = [] ∧ '[' ∉ render s.items ∧ t = body s ++ ['\n'] ∧
      s.text ++ ['\n'] <:+ merged before := by
  obtain ⟨hlen, hsuffix⟩ := findCategory_length (ended_merged before) hf
  obtain ⟨n, hn⟩ := Nat.exists_eq_add_of_le' hlen
  obtain ⟨p, c, z, hx, hz⟩ : ∃ p c z, merged before = p ++ c :: z ∧
      z.length = t.length + s.name.text.length + 2 := by
    have hdrop := List.length_drop (i := n) (l := merged before)
    cases hd : (merged before).drop n with
    | nil =>
      rw [hd, List.length_nil] at hdrop
      omega
    | cons c z =>
      refine ⟨(merged before).take n, c, z, ?_, ?_⟩
      · rw [← hd, List.take_append_drop]
      · rw [hd, List.length_cons] at hdrop
        omega
  have hend : (c :: z) <:+ merged before := hx ▸ List.suffix_append _ _
  have hplace : Removes before s after ↔
      p ++ copyFromBracket (z ++ merged (s :: after)) = merged (before ++ after) := by
    refine removes_at (c := c) ?_ (r := t ++ merged (s :: after)) ?_ ?_
    · rw [merged_append, hx, List.append_assoc, List.cons_append]
    · rw [merged_append]
      exact findCategory_append (ended_merged before) hf _
    · rw [List.length_append, List.length_append]
      omega
  rw [hplace, merged_append, hx, List.append_assoc, List.append_cancel_left_eq, copied_iff h hx,
    ← hx]
  have hsame : c :: z = s.text ++ ['\n'] ↔
      t = body s ++ ['\n'] ∧ s.text ++ ['\n'] <:+ merged before := by
    have hsize : (s.text ++ ['\n']).length =
        (body s ++ ['\n']).length + s.name.text.length + 3 := by
      rw [text_eq]
      simp only [List.length_append, List.length_cons]
      omega
    constructor
    · intro heq
      have htext : body s ++ ['\n'] <:+ s.text ++ ['\n'] := by
        rw [Section.text, List.append_assoc]
        exact List.suffix_append _ _
      have hcopy : s.text ++ ['\n'] <:+ merged before := heq ▸ hend
      refine ⟨eq_of_suffixes hsuffix (htext.trans hcopy) ?_, hcopy⟩
      rw [← heq, List.length_cons] at hsize
      omega
    · intro hcond
      obtain ⟨ht, hcopy⟩ := hcond
      refine eq_of_suffixes hend hcopy ?_
      rw [hsize, ← ht, List.length_cons]
      omega
  rw [hsame]

theorem not_removes_behind (h : ∀ o ∈ after, o.name ≠ s.name)
    (hf : findCategory s.name.text (merged (before ++ s :: after)) =
      findCategory s.name.text (body s ++ merged after)) : ¬ Removes before s after := by
  rw [removes_iff]
  intro hr
  obtain ⟨rest, hmove, hout⟩ := hr
  cases hfind : findCategory s.name.text (body s ++ merged after) with
  | none =>
    rw [moveToCategory, hf, hfind] at hmove
    cases hmove
  | some t =>
    have hended : Ended (body s ++ merged after) :=
      (ended_merged after).append fun _ => ended_body s
    have hlen := (findCategory_length hended hfind).1
    rw [hfind] at hf
    rw [moveToCategory_ended (ended_merged _) hf] at hmove
    have htext : merged (before ++ s :: after) =
        (merged before ++ header s.name.text) ++ (body s ++ merged after) := by
      simp [merged_append, merged_cons, Section.text, body]
    have hkept : merged before ++ header s.name.text <+: merged (before ++ after) := by
      have hheader : (header s.name.text).length = s.name.text.length + 3 := by simp [header]
      have hall := congrArg List.length htext
      rw [List.length_append, List.length_append, hheader] at hall
      rw [← hout]
      refine List.IsPrefix.trans ?_ (List.prefix_append _ _)
      rw [consumed, List.prefix_take_iff, ← Option.some.inj hmove, List.length_drop,
        List.length_append, hheader]
      exact ⟨htext ▸ List.prefix_append _ _, by omega⟩
    rw [merged_append, List.prefix_append_right_inj] at hkept
    obtain ⟨u, hu⟩ := hkept
    cases after with
    | nil => cases hu
    | cons o after =>
      refine h o List.mem_cons_self (Name.ext_iff'.mpr ?_)
      rw [merged_cons, text_eq] at hu
      have hnames : s.name.text ++ ']' :: '\n' :: u =
          o.name.text ++ ']' :: ('\n' :: body o ++ merged after) := by
        simpa [header] using hu
      exact (append_cons_inj s.name.not_bracket o.name.not_bracket hnames).1.symm

end Remove

/-- In a database with the category once, `remove_category` takes its section away and nothing else
exactly when it is the last one, has no `[` in its lines, and is reached. -/
theorem removeCategory_removes_iff (before after : List Section) (s : Section)
    (h : ∀ o ∈ before ++ after, o.name ≠ s.name) :
    Removes before s after ↔ after = [] ∧ '[' ∉ render s.items ∧ Reached before s := by
  have hbefore : ∀ o ∈ before, o.name ≠ s.name := fun o ho => h o (List.mem_append_left _ ho)
  have hafter : ∀ o ∈ after, o.name ≠ s.name := fun o ho => h o (List.mem_append_right _ ho)
  rw [Reached]
  by_cases hp : passes s.name.text (merged before) = true
  · rw [removes_at_header hp]
    simp [hp]
  · cases hf : findCategory s.name.text (merged before) with
    | some t =>
      rw [removes_at_copy hbefore hf]
      simp [hp]
    | none =>
      have hover := findCategory_over s.name (merged before) (body s ++ merged after)
      have hbehind : findCategory s.name.text (merged (before ++ s :: after)) =
          findCategory s.name.text (body s ++ merged after) := by
        have htext : merged (before ++ s :: after) =
            merged before ++ (header s.name.text ++ (body s ++ merged after)) := by
          simp [merged_append, merged_cons, Section.text, body]
        rw [htext]
        simpa [hp, hf] using hover
      exact iff_of_false (not_removes_behind hafter hbehind) (by simp [hp])

/-- The last section goes, with a bracketed value in an earlier one. -/
theorem removes_last_section :
    Removes [⟨nameOf "A", [itemOf (keyOf "X") "a [b] c"], 1⟩]
      ⟨nameOf "B", [itemOf (keyOf "Y") "2"], 0⟩ [] :=
  (removeCategory_removes_iff [⟨nameOf "A", [itemOf (keyOf "X") "a [b] c"], 1⟩] []
    ⟨nameOf "B", [itemOf (keyOf "Y") "2"], 0⟩ (by decide)).mpr (by decide +kernel)

/-- The file behind a section comes back with its last newline twice. -/
theorem first_section_doubles_newline :
    let a : Section := ⟨nameOf "A", [itemOf (keyOf "X") "1"], 1⟩
    let b : Section := ⟨nameOf "B", [itemOf (keyOf "Y") "2"], 0⟩
    (moveToCategory (merged [a, b]) a.name.text).map (removedText (merged [a, b])) =
        some "[B]\nY=2\n\n".toList ∧
      merged [b] = "[B]\nY=2\n".toList ∧ a.name ≠ b.name ∧ ¬ Removes [] a [b] := by
  intro a b
  have hout : (moveToCategory (merged [a, b]) a.name.text).map (removedText (merged [a, b])) =
      some "[B]\nY=2\n\n".toList := by decide +kernel
  refine ⟨hout, by decide +kernel, by decide, ?_⟩
  intro h
  obtain ⟨rest, hmove, htext⟩ := removes_iff.mp h
  have hsame : some "[B]\nY=2\n\n".toList = some (merged [b]) := by
    rw [← hout]
    exact (congrArg (Option.map _) hmove).trans (congrArg some htext)
  revert hsame
  decide +kernel

end ConfigRemove
