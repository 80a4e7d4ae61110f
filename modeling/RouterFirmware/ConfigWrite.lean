import RouterFirmware.OccurrenceList
import RouterFirmware.ConfigLookup

/-! # What a write changes

`set_config` goes to a place found by `find_item`, writes the new value there and leaves the old
one out. Where the old value ends is decided by counting double quotes.
-/
namespace ConfigWrite

open TextStream SharedProgram ConfigDatabase ConfigScan ConfigEdit ConfigFormat ConfigLookup
  OccurrenceList

section OldValue

/-- One turn of the loop over the old value. The notes about adjacent quotes do not matter: at a
newline they are always cleared. -/
theorem skipValue_cons (n pre behind : ℕ) (c : Char) (t : Text) :
    ∃ pre' behind', skipValue n pre behind (c :: t) =
      if c = '\n' ∧ n % 2 = 0 then some t
      else skipValue (n + [c].count '"') pre' behind' t := by
  by_cases hc : c = '\n'
  · have heven : (n = 0 ∨ n = 2 ∨ n % 2 = 0 ∧ n > 2) ↔ n % 2 = 0 := by omega
    exact ⟨0, 0, by simp [skipValue, hc, heven]⟩
  · by_cases hq : c = '"'
    · exact ⟨_, _, by simp [skipValue, hq]; rfl⟩
    · exact ⟨0, 0, by simp [skipValue, hc, hq]⟩

/-- One line of the old value: it ends here exactly if the quotes up to here are even. -/
theorem skipValue_line {l : Text} (hl : '\n' ∉ l) (n pre behind : ℕ) (t : Text) :
    ∃ pre' behind', skipValue n pre behind (l ++ '\n' :: t) =
      if (n + l.count '"') % 2 = 0 then some t
      else skipValue (n + l.count '"') pre' behind' t := by
  induction l generalizing n pre behind with
  | nil => simpa using skipValue_cons n pre behind '\n' t
  | cons c l ih =>
    simp only [List.mem_cons, not_or] at hl
    obtain ⟨pre', behind', hcons⟩ := skipValue_cons n pre behind c (l ++ '\n' :: t)
    obtain ⟨pre'', behind'', hline⟩ := ih hl.2 (n + [c].count '"') pre' behind'
    refine ⟨pre'', behind'', ?_⟩
    have hcount : (c :: l).count '"' = [c].count '"' + l.count '"' := by
      rw [← List.singleton_append, List.count_append]
    rw [List.cons_append, hcons, if_neg (fun h => hl.1 h.1.symm), hline, hcount, Nat.add_assoc]

/-- The old value ends somewhere: some line end behind it has an even number of quotes in
front. -/
def Closes (r : Text) : Prop := ∃ l t, r = l ++ '\n' :: t ∧ l.count '"' % 2 = 0

theorem eq_of_skipValue {n pre behind : ℕ} {r tail : Text}
    (h : skipValue n pre behind r = some tail) :
    ∃ l, r = l ++ '\n' :: tail ∧ (n + l.count '"') % 2 = 0 := by
  induction r generalizing n pre behind with
  | nil => cases h
  | cons c r ih =>
    obtain ⟨pre', behind', hcons⟩ := skipValue_cons n pre behind c r
    rw [hcons] at h
    split at h
    · next hc =>
      cases h
      exact ⟨[], by simp [hc.1], by simpa using hc.2⟩
    · obtain ⟨l, rfl, hl⟩ := ih h
      refine ⟨c :: l, rfl, ?_⟩
      rw [← List.singleton_append, List.count_append]
      omega

theorem skipValue_isSome {n pre behind : ℕ} {l t : Text} (h : (n + l.count '"') % 2 = 0) :
    ∃ tail, skipValue n pre behind (l ++ '\n' :: t) = some tail := by
  induction l generalizing n pre behind with
  | nil =>
    obtain ⟨pre', behind', hcons⟩ := skipValue_cons n pre behind '\n' t
    exact ⟨t, by rw [List.nil_append, hcons, if_pos ⟨rfl, by simpa using h⟩]⟩
  | cons c l ih =>
    obtain ⟨pre', behind', hcons⟩ := skipValue_cons n pre behind c (l ++ '\n' :: t)
    rw [List.cons_append, hcons]
    split
    · exact ⟨_, rfl⟩
    · apply ih
      rw [← List.singleton_append, List.count_append] at h
      omega

theorem closes_iff {r : Text} : Closes r ↔ ∃ tail, skipValue 0 0 0 r = some tail := by
  constructor
  · rintro ⟨l, t, rfl, hl⟩
    exact skipValue_isSome (by omega)
  · rintro ⟨tail, h⟩
    obtain ⟨l, hr, hl⟩ := eq_of_skipValue h
    exact ⟨l, tail, hr, by omega⟩

theorem skipOld_line (u t : Text) :
    skipOld (u ++ '\n' :: t) = skipValue 0 0 0 (u ++ '\n' :: t) := by
  cases u with
  | nil => rfl
  | cons c u => rfl

/-- Over the lines of a file the old value takes up a number of whole lines. -/
theorem skipValue_render {n pre behind : ℕ} {items : List Item} {tail : Text}
    (h : skipValue n pre behind (render items) = some tail) :
    ∃ k, k < items.length ∧ tail = render (items.drop (k + 1)) := by
  induction items generalizing n pre behind with
  | nil => cases h
  | cons i items ih =>
    rw [render_cons] at h
    obtain ⟨pre', behind', hline⟩ := skipValue_line i.text_newline n pre behind (render items)
    rw [hline] at h
    split at h
    · cases h
      exact ⟨0, by simp, rfl⟩
    · obtain ⟨k, hk, rfl⟩ := ih h
      exact ⟨k + 1, by simpa using hk, rfl⟩

end OldValue

section Copy

theorem consumed_append (a b : Text) : consumed (a ++ b) b = a := by
  simp [consumed]

theorem copyRest_line {bracket : Bool} {newline : Char} {l : Text} (hl : '\n' ∉ l)
    (hb : bracket = true → '[' ∉ l) (hne : l ≠ [] ∨ newline ≠ '\n') (tmp : Char) (t : Text) :
    copyRest bracket newline tmp (l ++ '\n' :: t) = l ++ '\n' :: copyRest bracket '\n' '\n' t := by
  induction l generalizing newline tmp with
  | nil =>
    have hn : newline ≠ '\n' := by simpa using hne
    simp [copyRest, copyChar, hn]
  | cons c l ih =>
    simp only [List.mem_cons, not_or] at hl hb
    have hc : copyChar bracket newline c = [c] := by
      unfold copyChar
      rw [if_neg fun h => (hb h.1).1 h.2.symm, if_neg fun h => hl.1 h.2.symm]
    rw [List.cons_append, copyRest, hc, ih hl.2 (fun h => (hb h).2) (.inr (Ne.symm hl.1))]
    rfl

theorem copyRest_render (bracket : Bool) (items : List Item)
    (hb : bracket = true → ∀ i ∈ items, '[' ∉ i.value) (t : Text) :
    copyRest bracket '\n' '\n' (render items ++ t) =
      render items ++ copyRest bracket '\n' '\n' t := by
  induction items with
  | nil => rfl
  | cons i items ih =>
    have hi : bracket = true → '[' ∉ i.text := by
      intro h hm
      simp only [Item.text, List.mem_append, List.mem_cons, Char.reduceEq, false_or] at hm
      rcases hm with hm | hm
      · exact i.key.bracket_not_mem hm
      · exact hb h i List.mem_cons_self hm
    have hne : i.text ≠ [] := by simp [Item.text]
    rw [render_cons, List.append_assoc, List.cons_append,
      copyRest_line i.text_newline hi (.inl hne),
      ih fun h j hj => hb h j (List.mem_cons_of_mem _ hj)]
    simp

theorem copyRest_blank (bracket : Bool) (n : ℕ) :
    copyRest bracket '\n' '\n' (List.replicate n '\n') = [] := by
  induction n with
  | zero => simp [copyRest, copyChar]
  | succ n ih => simp [List.replicate_succ, copyRest, copyChar, ih]

end Copy

section Run

variable {fs fs' : FileSys} {p : Path} {text t category item value : Text} {number : ℤ}

theorem run_insertItem (text rest item : Text) (flag : Bool) (fs : FileSys) :
    (insertItem text rest item flag).run exec fs =
      if fs.writable .stemp then
        (insertText text rest item flag).map fun out => (.ok, fs.set .stemp (some out))
      else some (.failToOpen, fs) := by
  rw [insertItem, run_create_bind]
  cases hw : fs.writable .stemp with
  | false => rfl
  | true =>
    cases insertText text rest item flag with
    | none => rfl
    | some out => simp [run_put_bind]

/-- The place where `set_config` writes is the one `find_item` comes to, and the file is what
`insert_item` made of it. -/
theorem run_setConfig_ok (hfs : fs.content p = some text)
    (hc : findCategory category text = some t) :
    (setConfig category item value number p).run exec fs = some (.ok, fs') ↔
      fs.writable .stemp = true ∧ ∃ r out, (hits item t)[(number - 1).toNat]? = some r ∧
        insertText text r (value ++ ['\n']) true = some out ∧ fs' = fs.install p out := by
  rw [← skipItems_findItem, setConfig, run_read_bind, hfs]
  simp only [hc]
  cases hs : skipItems item (number - 1).toNat t with
  | none => simp
  | some u =>
    simp only [Option.bind_some]
    cases hr : findItem item u with
    | none => simp [run_rename_bind]
    | some r =>
      dsimp only
      rw [run_bind, run_insertItem]
      cases hw : fs.writable .stemp with
      | false => simp [run_rename_bind]
      | true =>
        cases ho : insertText text r (value ++ ['\n']) true with
        | none => simp [ho]
        | some out => simp [ho, run_rename_bind, FileSys.install, eq_comm]

/-- Without a `/tmp/stemp` from an earlier command a search that fails changes nothing. -/
theorem run_setConfig_none (hfs : fs.content p = some text)
    (hc : findCategory category text = some t) (hs : fs.files .stemp = none)
    (hn : (hits item t)[(number - 1).toNat]? = none) :
    (setConfig category item value number p).run exec fs = some (.itemNotFound, fs) := by
  rw [← skipItems_findItem] at hn
  rw [setConfig, run_read_bind, hfs]
  simp only [hc]
  cases hu : skipItems item (number - 1).toNat t with
  | none => rfl
  | some u =>
    rw [hu, Option.bind_some] at hn
    simp [hn, run_rename_bind, hs]

theorem run_addConfig {out : Text} (hfs : fs.content p = some text)
    (hc : findCategory category text = some t) (hw : fs.writable .stemp = true)
    (ho : insertText text (findLastItem item t t) (item ++ ['='] ++ value ++ ['\n']) false =
      some out) :
    (addConfig category item value p).run exec fs = some (.ok, fs.install p out) := by
  rw [addConfig, run_read_bind, hfs]
  simp only [hc]
  rw [run_bind, run_insertItem, if_pos hw, ho]
  simp [run_rename_bind, FileSys.install]

end Run

section Place

variable {name : Name} {items before after : List Item} {key : Key} {i : Item} {m : ℕ}
  {u w r v out : Text}

theorem hits_location (h : (hits key.text (render items))[m]? = some r) :
    ∃ before i after u j, items = before ++ i :: after ∧ (hits key.text i.text)[j]? = some u ∧
      r = u ++ '\n' :: render after ∧
      m = (before.flatMap fun i => hits key.text i.text).length + j := by
  induction items generalizing m with
  | nil => simp [hits_nil] at h
  | cons i items ih =>
    rw [render_cons, hits_append_space (by decide), List.getElem?_append] at h
    simp only [List.length_map, List.getElem?_map] at h
    split at h
    · obtain ⟨u, hu, rfl⟩ := Option.map_eq_some_iff.mp h
      exact ⟨[], i, items, u, m, rfl, hu, rfl, by simp⟩
    · next hm =>
      obtain ⟨before, d, after, u, j, rfl, hu, rfl, hj⟩ := ih h
      refine ⟨i :: before, d, after, u, j, rfl, hu, rfl, ?_⟩
      simp only [List.flatMap_cons, List.length_append]
      omega

theorem splitFile_at (h : i.text = w ++ u) : splitFile name (before ++ i :: after) =
    (header name.text ++ render before ++ w) ++ (u ++ '\n' :: render after) := by
  simp [splitFile, render_append, render_cons, h]

/-- The old value reaches to the end of its line if its quotes are even, and swallows lines
behind it otherwise. -/
theorem skipValue_place {tail : Text} (hu : '\n' ∉ u)
    (h : skipValue 0 0 0 (u ++ '\n' :: render after) = some tail) :
    ∃ k ≤ after.length, tail = render (after.drop k) ∧ (k = 0 ↔ u.count '"' % 2 = 0) := by
  obtain ⟨pre, behind, hline⟩ := skipValue_line hu 0 0 0 (render after)
  rw [hline, Nat.zero_add] at h
  split at h
  · next heven =>
    cases h
    exact ⟨0, Nat.zero_le _, rfl, by simpa using heven⟩
  · next hodd =>
    obtain ⟨k, hk, rfl⟩ := skipValue_render h
    exact ⟨k + 1, hk, rfl, by simpa using hodd⟩

/-- What a write at a place inside the line `w ++ u` makes of the file. -/
theorem insertText_place (hi : i.text = w ++ u)
    (h : insertText (splitFile name (before ++ i :: after)) (u ++ '\n' :: render after)
      (v ++ ['\n']) true = some out) :
    ∃ k ≤ after.length, (k = 0 ↔ u.count '"' % 2 = 0) ∧
      out = header name.text ++ render before ++ w ++ (v ++ '\n' :: render (after.drop k)) := by
  have hu : '\n' ∉ u := fun hm => i.text_newline (by rw [hi]; exact List.mem_append_right _ hm)
  simp only [insertText, if_true, Option.map_eq_some_iff, skipOld_line] at h
  obtain ⟨tail, hskip, rfl⟩ := h
  obtain ⟨k, hk, rfl, heven⟩ := skipValue_place hu hskip
  refine ⟨k, hk, heven, ?_⟩
  have hcopy := copyRest_render false (after.drop k) (by simp) []
  rw [splitFile_at hi, consumed_append]
  simp only [List.append_nil] at hcopy
  rw [hcopy]
  simp [copyRest, copyChar]

theorem render_drop_eq {k : ℕ} (hk : k ≤ items.length)
    (h : render (items.drop k) = render items) : k = 0 := by
  have hsplit : render items = render (items.take k) ++ render (items.drop k) := by
    rw [← render_append, List.take_append_drop]
  rw [h, List.self_eq_append_left] at hsplit
  cases hi : items.take k with
  | nil =>
    rcases List.take_eq_nil_iff.mp hi with hz | hz
    · exact hz
    · simpa [hz] using hk
  | cons d l => simp [hi, render_cons, Item.text] at hsplit

end Place

/-- The `m`-th place where the key is found, if a write there comes to an end, is the `m`-th
line of the key, and the quotes of its value are even. -/
def WritesOwn (key : Key) (items : List Item) (m : ℕ) : Prop :=
  ∀ r, (hits key.text (render items))[m]? = some r → Closes r →
    ∃ before i after, cutAt (·.key = key) m items = some (before, i, after) ∧
      r = i.value ++ '\n' :: render after ∧ i.value.count '"' % 2 = 0

section Frame

variable {name : Name} {items : List Item} {key : Key} {m : ℕ}

theorem countP_le_hits (key : Key) (items : List Item) :
    items.countP (·.key = key) ≤ (items.flatMap fun i => hits key.text i.text).length := by
  have hlen := length_hits_items key items
  have hvalues : (valuesOf key items).length = items.countP (·.key = key) := by
    simp [valuesOf, List.countP_eq_length_filter]
  omega

/-- A place that is not the `m`-th line of the key lies in front of it. -/
theorem place_before_line {before after b c : List Item} {i x : Item} {u : Text} {j : ℕ}
    (hitems : before ++ i :: after = b ++ x :: c) (hx : x.key = key)
    (hb : b.countP (·.key = key) = m) (hu : (hits key.text i.text)[j]? = some u)
    (hm : m = (before.flatMap fun i => hits key.text i.text).length + j) :
    (before = b ∧ i = x ∧ after = c ∧ u = i.value) ∨ ∃ d, b = before ++ i :: d := by
  have hcount := countP_le_hits key before
  rcases cuts_compare hitems with ⟨rfl, rfl, rfl⟩ | hd | ⟨d, rfl⟩
  · have hj : j = 0 := by omega
    rw [hits_item, if_pos hx, hj] at hu
    exact .inl ⟨rfl, rfl, rfl, by simpa using hu.symm⟩
  · exact .inr hd
  · simp only [List.countP_append, List.countP_cons, hx, decide_true, if_true] at hcount
    omega

theorem exists_item_ne (key : Key) (u : Text) : ∃ new : Item, new.key = key ∧ new.value ≠ u := by
  have hshort := key.short
  cases u with
  | nil => exact ⟨⟨key, ['1'], by simp, by simp [argvSize]; omega⟩, rfl, by simp⟩
  | cons c u => exact ⟨⟨key, [], by simp, by simp [argvSize]; omega⟩, rfl, by simp⟩

/-- `set_config` of the item number `m + 1`, whatever the new value, changes that line of the
key and nothing else when it succeeds, exactly if the place found for it is that line and the
old value has an even number of quotes. -/
theorem set_changes_own_item_iff (name : Name) (items : List Item) (key : Key) (m : ℕ) :
    (∀ (new : Item) (fs fs' : FileSys), new.key = key →
      fs.content (.split name.text) = some (splitFile name items) →
      (setConfig name.text key.text new.value (m + 1) (.split name.text)).run exec fs =
        some (.ok, fs') →
      ∃ items', replaceNth (·.key = key) m new items = some items' ∧
        fs'.files (.split name.text) = some (splitFile name items')) ↔
    WritesOwn key items m := by
  have hcat : findCategory name.text (splitFile name items) = some (render items) :=
    findCategory_header name _
  have hm : ((m : ℤ) + 1 - 1).toNat = m := by omega
  constructor
  · intro hset r hr hclose
    obtain ⟨tail, htail⟩ := closes_iff.mp hclose
    obtain ⟨before, i, after, u, j, rfl, hu, rfl, hj⟩ := hits_location hr
    obtain ⟨w, hw⟩ := hits_suffix (List.mem_of_getElem? hu)
    have hsuccess : ∀ new : Item, ∃ out, insertText (splitFile name (before ++ i :: after))
        (u ++ '\n' :: render after) (new.value ++ ['\n']) true = some out := fun new =>
      ⟨_, by rw [insertText, if_pos rfl, skipOld_line, htail, Option.map_some]⟩
    have hfile : ∀ new : Item, new.key = key → ∃ b x c k,
        cutAt (·.key = key) m (before ++ i :: after) = some (b, x, c) ∧ k ≤ after.length ∧
        (k = 0 ↔ u.count '"' % 2 = 0) ∧
        render before ++ (w ++ (new.value ++ '\n' :: render (after.drop k))) =
          render (b ++ new :: c) := by
      intro new hnew
      obtain ⟨out, hout⟩ := hsuccess new
      obtain ⟨items', hitems, hout'⟩ := hset new
        (.single (.split name.text) (splitFile name (before ++ i :: after))) _ hnew
        (FileSys.content_single _ _)
        ((run_setConfig_ok (FileSys.content_single _ _) hcat).mpr
          ⟨rfl, _, _, by rw [hm]; exact hr, hout, rfl⟩)
      obtain ⟨⟨b, x, c⟩, hcut, rfl⟩ := Option.map_eq_some_iff.mp hitems
      obtain ⟨k, hk, heven, rfl⟩ := insertText_place hw.symm hout
      refine ⟨b, x, c, k, hcut, hk, heven, ?_⟩
      simpa [splitFile] using hout'
    obtain ⟨new, hnew, hne⟩ := exists_item_ne key u
    obtain ⟨b, x, c, k, hcut, hk, heven, htext⟩ := hfile new hnew
    obtain ⟨hitems, hx, hb⟩ := eq_of_cutAt hcut
    rcases place_before_line hitems (by simpa using hx) hb hu hj with
      ⟨rfl, rfl, rfl, rfl⟩ | ⟨d, rfl⟩
    · have hw' : w = i.key.text ++ ['='] :=
        List.append_cancel_right (by simpa [Item.text] using hw)
      have hkey : i.key = key := by simpa using hx
      rw [render_append, List.append_cancel_left_eq, render_cons, hw', Item.text, hnew, hkey]
        at htext
      have hrest : render (after.drop k) = render after := by simpa using htext
      exact ⟨before, i, after, hcut, rfl, heven.mp (render_drop_eq hk hrest)⟩
    · -- the line of the place comes before the changed one and must have stayed as it was
      rw [List.append_assoc, render_append, List.append_cancel_left_eq, List.cons_append,
        render_cons, ← hw, List.append_assoc, List.append_cancel_left_eq] at htext
      have hu' : '\n' ∉ u := fun h =>
        i.text_newline ((hits_suffix (List.mem_of_getElem? hu)).subset h)
      exact absurd (append_cons_inj new.newline_not_mem hu' htext).1 hne
  · intro hown new fs fs' hnew hfs hrun
    rw [run_setConfig_ok hfs hcat, hm] at hrun
    obtain ⟨-, r, out, hr, hout, rfl⟩ := hrun
    have hclose : Closes r := by
      obtain ⟨b, i, after, u, j, -, -, rfl, -⟩ := hits_location hr
      rw [insertText, if_pos rfl, Option.map_eq_some_iff, skipOld_line] at hout
      obtain ⟨tail, htail, -⟩ := hout
      exact closes_iff.mpr ⟨tail, htail⟩
    obtain ⟨before, i, after, hcut, rfl, heven⟩ := hown r hr hclose
    obtain ⟨rfl, hi, -⟩ := eq_of_cutAt hcut
    have hkey : i.key = key := by simpa using hi
    have htext : i.text = (key.text ++ ['=']) ++ i.value := by simp [Item.text, hkey]
    obtain ⟨k, -, hk, rfl⟩ := insertText_place htext hout
    refine ⟨before ++ new :: after, by simp [replaceNth, hcut], ?_⟩
    rw [FileSys.install_files_self, hk.mpr heven, splitFile, render_append, render_cons, Item.text,
      hnew]
    simp

/-- An old value with one double quote takes the next line with it, up to the quote there. -/
theorem set_swallows_line :
    let name := nameOf "C"
    let x := keyOf "X"
    let old := itemOf x "\"a"
    let other := itemOf (keyOf "Y") "b\""
    let new := itemOf x "v"
    let fs := FileSys.single (.split name.text) (splitFile name [old, other])
    ((setConfig name.text x.text new.value 1 (.split name.text)).run exec fs).map
        (fun p => (p.1, p.2.files (.split name.text))) =
      some (.ok, some (splitFile name [new])) ∧
    replaceNth (·.key = x) 0 new [old, other] = some [new, other] ∧
    splitFile name [new] ≠ splitFile name [new, other] := by
  decide +kernel

end Frame

end ConfigWrite
