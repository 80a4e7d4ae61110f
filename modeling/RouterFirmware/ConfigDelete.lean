import RouterFirmware.ConfigWrite

/-! # What a delete removes

`nk_delete_setting` finds a line by its key, without regard to case, and `remove_item` copies
the rest of the file behind it, starting a new line at every `[`.
-/
namespace ConfigDelete

open TextStream SharedProgram ConfigDatabase ConfigScan ConfigEdit ConfigFormat ConfigCommand
  ConfigLookup ConfigWrite OccurrenceList

/-- The comparison of `find_postion`, both sides with their `=`. -/
def sameKey (key : Text) (i : Item) : Bool := strcasecmp (key ++ ['=']) (i.key.text ++ ['='])

section Position

variable {key : Text} {flag : ℤ}

theorem readField_key (i : Item) (t : Text) :
    readField '=' (i.text ++ t) = .ok (i.key.text, i.value ++ t) := by
  have hfield : ∀ k : Text, '=' ∉ k → '[' ∉ k →
      ∀ r, readField '=' (k ++ '=' :: r) = .ok (k, r) := by
    intro k heq hbr r
    induction k with
    | nil => simp [readField]
    | cons c k ih =>
      simp only [List.mem_cons, not_or] at heq hbr
      simp [readField, Ne.symm heq.1, Ne.symm hbr.1, ih heq.2 hbr.2, Except.map]
  simpa [Item.text] using hfield i.key.text i.key.eq_not_mem i.key.bracket_not_mem (i.value ++ t)

theorem readField_blank (n : ℕ) : readField '=' (List.replicate n '\n') = .error [] := by
  induction n with
  | zero => rfl
  | succ n ih => simp [List.replicate_succ, readField, ih, Except.map]

theorem findPostion_line (hf : flag ≠ 0) (key : Text) (i : Item) (t : Text) :
    findPostion (key ++ ['=']) flag (i.text ++ '\n' :: t) =
      if sameKey key i then .ok (i.text ++ '\n' :: t) else findPostion (key ++ ['=']) flag t := by
  rw [findPostion_eq _ hf, readField_key]
  dsimp only
  rw [readTo_append i.newline_not_mem, sameKey]

theorem findPostion_blank (hf : flag ≠ 0) (item : Text) (n : ℕ) :
    findPostion item flag (List.replicate n '\n') = .error [] := by
  rw [findPostion_eq _ hf, readField_blank]

theorem moveToItemLoop_congr {item t t' : Text}
    (h : findPostion item flag t = findPostion item flag t') (n : ℕ) :
    moveToItemLoop item flag n t = moveToItemLoop item flag n t' := by
  rw [moveToItemLoop.eq_def, moveToItemLoop.eq_def item flag n t']
  simp only [h]

/-- The turns of `move_to_item` count the lines that match. -/
theorem moveToItemLoop_render (hf : flag ≠ 0) (items : List Item) (n k : ℕ) :
    moveToItemLoop (key ++ ['=']) flag n (render items ++ List.replicate k '\n') =
      (cutAt (sameKey key) n items).map fun c =>
        render (c.2.1 :: c.2.2) ++ List.replicate k '\n' := by
  induction items generalizing n with
  | nil =>
    have hend := findPostion_blank hf (key ++ ['=']) k
    cases n <;> simp [moveToItemLoop, hend, hf, readTo, cutAt]
  | cons i items ih =>
    have hline := findPostion_line hf key i (render items ++ List.replicate k '\n')
    have hread := readTo_append i.text_newline (render items ++ List.replicate k '\n')
    rw [render_cons, List.append_assoc, List.cons_append]
    by_cases hi : sameKey key i = true
    · rw [if_pos hi] at hline
      cases n with
      | zero => simp [moveToItemLoop, hline, hf, hread, cutAt, hi, render_cons]
      | succ n =>
        simp only [moveToItemLoop, hline, hf, hread, cutAt, hi, if_true, if_false, ih,
          Option.map_map]
        rfl
    · rw [if_neg hi] at hline
      rw [moveToItemLoop_congr hline, ih, cutAt_cons_neg hi, Option.map_map]
      rfl

theorem moveToItem_splitFile (hf : flag ≠ 0) (key : Text) (name : Name) (items : List Item)
    (k : ℕ) :
    moveToItem (splitFile name items ++ List.replicate k '\n') name.text (key ++ ['=']) flag =
      (cutAt (sameKey key) (flag - 1).toNat items).map fun c =>
        render (c.2.1 :: c.2.2) ++ List.replicate k '\n' := by
  rw [moveToItem, splitFile, List.append_assoc, findCategory_header, Option.bind_some,
    moveToItemLoop_render hf]

end Position

section Remove

variable {name : Name} {before after : List Item} {i : Item}

theorem removeText_at (name : Name) (before after : List Item) (i : Item) (k : ℕ) :
    removeText (splitFile name (before ++ i :: after) ++ List.replicate k '\n')
        (render (i :: after) ++ List.replicate k '\n') =
      some (splitFile name before ++
        copyRest true '\x00' '\n' (render after ++ List.replicate k '\n')) := by
  have htext : splitFile name (before ++ i :: after) ++ List.replicate k '\n' =
      splitFile name before ++ (render (i :: after) ++ List.replicate k '\n') := by
    simp [splitFile, render_append]
  have hread := readTo_append i.text_newline (render after ++ List.replicate k '\n')
  rw [htext, removeText, consumed_append, render_cons, List.append_assoc, List.cons_append, hread]
  rfl

/-- Without a `[` the lines behind are copied; when there are none, a blank line is left. -/
theorem copyRest_behind (h : ∀ a ∈ after, '[' ∉ a.value) (k : ℕ) :
    copyRest true '\x00' '\n' (render after ++ List.replicate k '\n') =
      render after ++ if after = [] then ['\n'] else [] := by
  cases after with
  | nil =>
    cases k with
    | zero => simp [copyRest, copyChar]
    | succ k =>
      have hblank := copyRest_blank true k
      simp [List.replicate_succ, copyRest, copyChar, hblank]
  | cons a after =>
    have ha : '[' ∉ a.text := by
      have hv := h a List.mem_cons_self
      simp [Item.text, hv, a.key.bracket_not_mem]
    rw [render_cons, List.append_assoc, List.cons_append,
      copyRest_line a.text_newline (fun _ => ha) (.inr (by decide)),
      copyRest_render true _ (fun _ j hj => h j (List.mem_cons_of_mem _ hj)), copyRest_blank]
    simp

/-- A `[` starts a new line. -/
theorem copyRest_bracket (newline tmp : Char) {t : Text} (h : '[' ∈ t) :
    ∃ a b, copyRest true newline tmp t = a ++ '\n' :: '[' :: b := by
  induction t generalizing newline tmp with
  | nil => cases h
  | cons c t ih =>
    by_cases hc : c = '['
    · exact ⟨[], copyRest true c c t, by simp [copyRest, copyChar, hc]⟩
    · have ht : '[' ∈ t := by simpa [Ne.symm hc] using h
      obtain ⟨a, b, hab⟩ := ih c c ht
      exact ⟨copyChar true newline c ++ a, b, by rw [copyRest, hab, List.append_assoc]⟩

theorem textLines_splitFile (name : Name) (items : List Item) (t : Text) :
    textLines (splitFile name items ++ t) =
      ('[' :: name.text ++ [']']) :: (items.map Item.text ++ textLines t) := by
  have hitems : textLines (render items ++ t) = items.map Item.text ++ textLines t := by
    induction items with
    | nil => rfl
    | cons i items ih =>
      rw [render_cons, List.append_assoc, List.cons_append, textLines_append, ih,
        textLines_line i.text_newline (by simp [Item.text])]
      rfl
  have htext : splitFile name items ++ t =
      ('[' :: name.text ++ [']']) ++ '\n' :: (render items ++ t) := by
    simp [splitFile, header]
  rw [htext, textLines_append, textLines_line name.header_newline (by simp), hitems]
  rfl

end Remove

section Run

variable {fs fs' : FileSys} {dbname : Path} {text type : Text} {key : Key} {n : ℕ}

theorem run_removeItem (text rest : Text) (fs : FileSys) :
    (removeItem text rest).run exec fs =
      if fs.writable .stemp then
        (removeText text rest).map fun out => (.ok, fs.set .stemp (some out))
      else some (.failToOpen, fs) := by
  rw [removeItem, run_create_bind]
  cases hw : fs.writable .stemp with
  | false => rfl
  | true =>
    cases removeText text rest with
    | none => rfl
    | some out => simp [run_put_bind]

theorem run_deleteItem_found {item r out : Text} {number : ℤ} (hw : fs.writable .stemp = true)
    (hr : moveToItem text type (item ++ ['=']) number = some r)
    (ho : removeText text r = some out) :
    (deleteItem type item number dbname text).run exec fs =
      some (.ok, fs.install dbname out) := by
  rw [deleteItem, hr]
  dsimp only
  rw [run_bind, run_removeItem, if_pos hw, ho]
  simp [run_rename_bind, FileSys.install]

theorem run_deleteItem_none {item : Text} {number : ℤ} (hs : fs.files .stemp = none)
    (hr : moveToItem text type (item ++ ['=']) number = none) :
    (deleteItem type item number dbname text).run exec fs = some (.itemNotFound, fs) := by
  rw [deleteItem, hr]
  simp [run_rename_bind, hs]

/-- The key that is chosen leaves room for the `=`. -/
theorem length_deleteKey (type : Text) (key : Key) :
    ¬ opcodeSize ≤ (deleteKey type key.text).length + 1 := by
  have hshort := key.short
  have hid : "ID".toList.length = 2 := rfl
  unfold deleteKey opcodeSize
  split_ifs <;> omega

theorem run_nkDeleteSetting (hn : n < 10 ^ 9) (h : fs.content dbname = some text) :
    (nkDeleteSetting type (some (itemParam key n)) dbname).run exec fs =
      (deleteItem type (deleteKey type key.text) n dbname text).run exec fs := by
  have hfits := (paramFits_itemParam key n).mpr hn
  rw [nkDeleteSetting, if_neg (by simpa using hfits), run_read_bind, h]
  dsimp only
  rw [splitParam_itemParam, paramNumber_toDigits, if_neg (length_deleteKey type key)]

theorem run_nkDeleteSetting_long (hn : 10 ^ 9 ≤ n) :
    (nkDeleteSetting type (some (itemParam key n)) dbname).run exec fs = none := by
  have hlong : ¬ ParamFits (itemParam key n) := by
    rw [paramFits_itemParam]
    omega
  rw [nkDeleteSetting, if_pos (by simpa using hlong)]
  rfl

theorem run_nkDeleteSetting_ok (hn : n < 10 ^ 9) (h : fs.content dbname = some text) :
    (nkDeleteSetting type (some (itemParam key n)) dbname).run exec fs = some (.ok, fs') ↔
      fs.writable .stemp = true ∧ ∃ r out,
        moveToItem text type (deleteKey type key.text ++ ['=']) n = some r ∧
        removeText text r = some out ∧ fs' = fs.install dbname out := by
  rw [run_nkDeleteSetting hn h, deleteItem]
  cases hr : moveToItem text type (deleteKey type key.text ++ ['=']) n with
  | none => simp [run_rename_bind]
  | some r =>
    dsimp only
    rw [run_bind, run_removeItem]
    cases hw : fs.writable .stemp with
    | false => simp [run_rename_bind]
    | true =>
      cases ho : removeText text r with
      | none => simp [ho]
      | some out => simp [ho, run_rename_bind, FileSys.install, eq_comm]

/-- The result is that nothing was found exactly when no line matches. -/
theorem run_nkDeleteSetting_itemNotFound (hn : n < 10 ^ 9) (h : fs.content dbname = some text) :
    (∃ fs', (nkDeleteSetting type (some (itemParam key n)) dbname).run exec fs =
        some (.itemNotFound, fs')) ↔
      moveToItem text type (deleteKey type key.text ++ ['=']) n = none := by
  rw [run_nkDeleteSetting hn h, deleteItem]
  cases hr : moveToItem text type (deleteKey type key.text ++ ['=']) n with
  | none => simp [run_rename_bind]
  | some r =>
    dsimp only
    rw [run_bind, run_removeItem]
    cases hw : fs.writable .stemp with
    | false => simp [run_rename_bind]
    | true => cases removeText text r <;> simp [run_rename_bind]

end Run

/-- A successful delete of item number `m + 1`, of at most nine digits, leaves every other line as
it was, exactly if no value behind the line it removes holds a `[`; a longer number overruns its
buffer. -/
theorem delete_keeps_other_lines_iff (name : Name) (items : List Item) (key : Key) (m : ℕ) :
    (m + 1 < 10 ^ 9 →
      ((∀ fs fs' : FileSys, fs.content (.split name.text) = some (splitFile name items) →
        (nkDeleteSetting name.text (some (itemParam key (m + 1))) (.split name.text)).run exec fs =
          some (.ok, fs') →
        ∃ before i after text, items = before ++ i :: after ∧
          fs'.files (.split name.text) = some text ∧
          textLines text = ('[' :: name.text ++ [']']) :: (before ++ after).map Item.text) ↔
      ∀ before i after,
        cutAt (sameKey (deleteKey name.text key.text)) m items = some (before, i, after) →
        ∀ a ∈ after, '[' ∉ a.value)) ∧
    (10 ^ 9 ≤ m + 1 → ∀ fs : FileSys,
      (nkDeleteSetting name.text (some (itemParam key (m + 1))) (.split name.text)).run exec fs =
        none) := by
  refine ⟨fun hnum => ?_, fun hlong _ => run_nkDeleteSetting_long hlong⟩
  have hmove : moveToItem (splitFile name items) name.text
      (deleteKey name.text key.text ++ ['=']) ((m + 1 : ℕ) : ℤ) =
      (cutAt (sameKey (deleteKey name.text key.text)) m items).map fun c =>
        render (c.2.1 :: c.2.2) := by
    have hm : (((m + 1 : ℕ) : ℤ) - 1).toNat = m := by omega
    have hmove := moveToItem_splitFile (by omega : ((m + 1 : ℕ) : ℤ) ≠ 0)
      (deleteKey name.text key.text) name items 0
    simpa [hm] using hmove
  constructor
  · intro hdelete before i after hcut a ha hbracket
    obtain ⟨rfl, -, -⟩ := eq_of_cutAt hcut
    obtain ⟨b, d, c, text, -, htext, hlines⟩ := hdelete
      (.single (.split name.text) (splitFile name (before ++ i :: after))) _
      (FileSys.content_single _ _)
      ((run_nkDeleteSetting_ok hnum (FileSys.content_single _ _)).mpr
        ⟨rfl, _, _, by rw [hmove, hcut]; rfl, by simpa using removeText_at name before after i 0,
          rfl⟩)
    rw [FileSys.install_files_self, Option.some.injEq] at htext
    have hmem : '[' ∈ render after :=
      List.mem_flatMap.mpr ⟨a, ha, by simp [Item.text, hbracket]⟩
    obtain ⟨x, y, hcopy⟩ := copyRest_bracket '\x00' '\n' hmem
    obtain ⟨l, hl, hhead⟩ := exists_textLines_cons (c := '[') (by decide) y
    -- the new line that starts with `[` would have to be the line of an item
    have hline : l ∈ (b ++ c).map Item.text := by
      rw [← htext, textLines_splitFile, hcopy, textLines_append, List.cons.injEq] at hlines
      rw [← hlines.2]
      simp [hl]
    obtain ⟨e, -, rfl⟩ := List.mem_map.mp hline
    obtain ⟨k, u, hk⟩ := List.exists_cons_of_ne_nil e.key.ne
    have hfirst : k = '[' := by simpa [Item.text, hk] using hhead
    exact e.key.bracket_not_mem (by simp [hk, hfirst])
  · intro hfree fs fs' hfs hrun
    obtain ⟨-, r, out, hr, hout, rfl⟩ := (run_nkDeleteSetting_ok hnum hfs).mp hrun
    rw [hmove, Option.map_eq_some_iff] at hr
    obtain ⟨⟨before, i, after⟩, hcut, rfl⟩ := hr
    obtain ⟨rfl, -, -⟩ := eq_of_cutAt hcut
    have hout' := removeText_at name before after i 0
    simp only [List.replicate_zero, List.append_nil] at hout'
    have hcopy := copyRest_behind (hfree before i after hcut) 0
    rw [List.replicate_zero, List.append_nil] at hcopy
    rw [hout', Option.some.injEq, hcopy] at hout
    refine ⟨before, i, after, out, rfl, FileSys.install_files_self _ _ _, ?_⟩
    have hblank : textLines (if after = [] then ['\n'] else []) = [] := by
      split <;> decide
    have hsplit : out = splitFile name (before ++ after) ++ if after = [] then ['\n'] else [] := by
      simp [← hout, splitFile, render_append]
    rw [hsplit, textLines_splitFile, hblank, List.append_nil]

/-- The value `a[b` behind the removed line is cut in two. -/
theorem delete_breaks_later_line :
    let name := nameOf "C"
    let x := keyOf "X"
    let items := [itemOf x "1", itemOf (keyOf "Y") "a[b"]
    let fs := FileSys.single (.split name.text) (splitFile name items)
    ((nkDeleteSetting name.text (some (itemParam x 1)) (.split name.text)).run exec fs).map
        (fun p => (p.1, p.2.files (.split name.text))) =
      some (.ok, some "[C]\nY=a\n[b\n".toList) ∧
    ∀ before i after, items = before ++ i :: after →
      textLines "[C]\nY=a\n[b\n".toList ≠
        ('[' :: name.text ++ [']']) :: (before ++ after).map Item.text := by
  intro name x items fs
  refine ⟨by decide +kernel, ?_⟩
  intro before i after hitems hlines
  have hlen := congrArg List.length hitems
  have hcount := congrArg List.length hlines
  have hthree : (textLines "[C]\nY=a\n[b\n".toList).length = 3 := by decide +kernel
  rw [hthree] at hcount
  simp [items] at hlen hcount
  omega

section Agreement

/-- The text of the command `C X n` behind its letter. -/
def commandText (name : Name) (key : Key) (n : ℕ) : Text := name.text ++ ' ' :: itemParam key n

theorem runCommand_commandText (env : Externals) (comd : Char) (name : Name) (key : Key) (n : ℕ) :
    runCommand env comd (commandText name key n) = (do
      let r ← nkProcessComd env comd name.text (some (itemParam key n)) (.split name.text)
      return (r.1, report comd name.text (some (itemParam key n)) r.1 r.2)) := by
  have hname : ∀ c ∈ name.text, (c != ' ') = true := by
    intro c hc
    rw [bne_iff_ne]
    intro heq
    exact name.space_not_mem (heq ▸ hc)
  have hparam : (itemParam key n).dropWhile (· == ' ') = itemParam key n := by
    obtain ⟨c, u, hk⟩ := List.exists_cons_of_ne_nil key.ne
    have hc : c ≠ ' ' := by
      rintro rfl
      exact key.space_not_mem (by simp [hk])
    simp [itemParam, hk, hc]
  unfold runCommand commandText
  rw [List.takeWhile_append_of_pos hname, List.dropWhile_append_of_pos hname]
  simp [hparam]

/-- The key of the item that `d` removes, as `nk_delete_setting` chooses it. -/
def deletedKey (type : Text) (key : Key) : Key :=
  if deleteKey type key.text = key.text then key
  else keyOf "ID"

theorem deletedKey_text (type : Text) (key : Key) :
    (deletedKey type key).text = deleteKey type key.text := by
  unfold deletedKey
  split
  · next h => exact h.symm
  · next h =>
    unfold deleteKey at h ⊢
    split_ifs at h ⊢ <;> first | rfl | exact absurd rfl h

/-- The key is found only in its own lines, no other key equals it but for case, and no value
holds a `[`. -/
structure WellFormed (key : Key) (items : List Item) : Prop where
  noStray : NoStray key items
  sameCase : ∀ i ∈ items, strcasecmp key.text i.key.text = true → i.key = key
  noBracket : ∀ i ∈ items, '[' ∉ i.value

theorem sameKey_eq {key : Key} {items : List Item} (h : WellFormed key items) :
    ∀ i ∈ items, sameKey key.text i = decide (i.key = key) := by
  intro i hi
  have hcase : sameKey key.text i = strcasecmp key.text i.key.text := by
    simp [sameKey, strcasecmp]
  rw [hcase]
  by_cases hk : i.key = key
  · simp [hk, strcasecmp]
  · have hn : ¬ strcasecmp key.text i.key.text = true := fun hc => hk (h.sameCase i hi hc)
    simp [hk, hn]

theorem getElem?_valuesOf (key : Key) (items : List Item) (m : ℕ) :
    (valuesOf key items)[m]? = (cutAt (·.key = key) m items).map fun c => c.2.1.value := by
  rw [valuesOf, List.getElem?_map, getElem?_filter_eq, Option.map_map]
  rfl

section Commands

variable {env : Externals} {name : Name} {items : List Item} {key : Key} {m : ℕ} {fs : FileSys}

theorem run_print (env : Externals) (hnum : m + 1 < 10 ^ 9)
    (hfs : fs.content (.split name.text) = some (splitFile name items))
    (hs : NoStray key items) :
    (runCommand env 'p' (commandText name key (m + 1))).run exec fs =
      some (((cutAt (·.key = key) m items).map fun c => (.ok, c.2.1.value)).getD
        (.itemNotFound, "END".toList), fs) := by
  have hprint : printConfig (splitFile name items) name.text key.text ((m + 1 : ℕ) : ℤ) =
      answer (valuesOf key items)[m]? := by
    rw [printConfig_render (t := []) (by rw [List.append_nil]; exact findCategory_header _ _)
      (hits_nil _), (hits_eq_valuesOf_iff key items).mpr hs]
    rfl
  have hp : nkProcessComd env 'p' name.text (some (itemParam key (m + 1))) (.split name.text) =
      nkPrintSetting name.text (some (itemParam key (m + 1))) false (.split name.text) := rfl
  rw [runCommand_commandText, run_bind, hp, run_nkPrintSetting hfs _ _ hnum, hprint,
    getElem?_valuesOf]
  cases cutAt (·.key = key) m items with
  | none => rfl
  | some c => rfl

theorem run_print_long (env : Externals) (hlong : 10 ^ 9 ≤ m + 1)
    (hfs : fs.content (.split name.text) = some (splitFile name items)) (key : Key) :
    (runCommand env 'p' (commandText name key (m + 1))).run exec fs = none := by
  have hp : nkProcessComd env 'p' name.text (some (itemParam key (m + 1))) (.split name.text) =
      nkPrintSetting name.text (some (itemParam key (m + 1))) false (.split name.text) := rfl
  rw [runCommand_commandText, run_bind, hp, run_nkPrintSetting_long hfs _ _ hlong]
  rfl

theorem run_delete_eq_some {result : Result} {fs' : FileSys} :
    (∃ out, (runCommand env 'd' (commandText name key (m + 1))).run exec fs =
        some ((result, out), fs')) ↔
      (nkDeleteSetting name.text (some (itemParam key (m + 1))) (.split name.text)).run exec fs =
        some (result, fs') := by
  have hd : nkProcessComd env 'd' name.text (some (itemParam key (m + 1))) (.split name.text) =
      (nkDeleteSetting name.text (some (itemParam key (m + 1))) (.split name.text) >>=
        fun r => .ret (r, [])) := rfl
  rw [runCommand_commandText, run_bind, hd, run_bind]
  cases (nkDeleteSetting name.text (some (itemParam key (m + 1))) (.split name.text)).run exec fs
    with
  | none => simp
  | some r => simp [Prod.ext_iff]

theorem run_delete_long (env : Externals) (hlong : 10 ^ 9 ≤ m + 1) :
    (runCommand env 'd' (commandText name key (m + 1))).run exec fs = none := by
  have hd : nkProcessComd env 'd' name.text (some (itemParam key (m + 1))) (.split name.text) =
      (nkDeleteSetting name.text (some (itemParam key (m + 1))) (.split name.text) >>=
        fun r => .ret (r, [])) := rfl
  rw [runCommand_commandText, run_bind, hd, run_bind, run_nkDeleteSetting_long hlong]
  rfl

theorem moveToItem_delete (hwf : WellFormed (deletedKey name.text key) items) :
    moveToItem (splitFile name items) name.text (deleteKey name.text key.text ++ ['='])
        ((m + 1 : ℕ) : ℤ) =
      (cutAt (·.key = deletedKey name.text key) m items).map fun c => render (c.2.1 :: c.2.2) := by
  have hm : (((m + 1 : ℕ) : ℤ) - 1).toNat = m := by omega
  have hmove := moveToItem_splitFile (by omega : ((m + 1 : ℕ) : ℤ) ≠ 0)
    (deleteKey name.text key.text) name items 0
  rw [← cutAt_congr (sameKey_eq hwf), deletedKey_text]
  simpa [hm] using hmove

end Commands

/-- `d C X n` removes the line that `p C K n` prints, where `K` is the key that
`nk_delete_setting` chooses for `X`; neither finds anything when the other does not. -/
theorem delete_agrees_with_print (env : Externals) (name : Name) (items : List Item) (key : Key)
    (m : ℕ) (fs : FileSys) (hfs : fs.content (.split name.text) = some (splitFile name items))
    (hwf : WellFormed (deletedKey name.text key) items) :
    ((∃ out fs', (runCommand env 'd' (commandText name key (m + 1))).run exec fs =
        some ((.itemNotFound, out), fs')) ↔
      ∃ out, (runCommand env 'p'
        (commandText name (deletedKey name.text key) (m + 1))).run exec fs =
          some ((.itemNotFound, out), fs)) ∧
    (∀ out fs', (runCommand env 'd' (commandText name key (m + 1))).run exec fs =
        some ((.ok, out), fs') →
      ∃ before i after blank, items = before ++ i :: after ∧ i.key = deletedKey name.text key ∧
        before.countP (·.key = deletedKey name.text key) = m ∧
        (runCommand env 'p'
          (commandText name (deletedKey name.text key) (m + 1))).run exec fs =
            some ((.ok, i.value), fs) ∧
        fs'.files (.split name.text) =
          some (splitFile name (before ++ after) ++ List.replicate blank '\n')) ∧
    (fs.writable .stemp = true →
      (∃ value, (runCommand env 'p'
        (commandText name (deletedKey name.text key) (m + 1))).run exec fs =
          some ((.ok, value), fs)) →
      ∃ out fs', (runCommand env 'd' (commandText name key (m + 1))).run exec fs =
        some ((.ok, out), fs')) := by
  rcases Nat.lt_or_ge (m + 1) (10 ^ 9) with hnum | hlong
  case inr =>
    simp [run_print_long env hlong hfs, run_delete_long env hlong]
  have hprint := run_print env hnum hfs hwf.noStray
  have hmove := moveToItem_delete (m := m) hwf
  refine ⟨?_, ?_, ?_⟩
  · rw [exists_comm]
    simp only [run_delete_eq_some, run_nkDeleteSetting_itemNotFound hnum hfs, hmove, hprint]
    cases cutAt (·.key = deletedKey name.text key) m items <;> simp
  · intro out fs' hrun
    have hdelete := run_delete_eq_some.mp ⟨out, hrun⟩
    obtain ⟨-, r, new, hr, hnew, rfl⟩ := (run_nkDeleteSetting_ok hnum hfs).mp hdelete
    rw [hmove, Option.map_eq_some_iff] at hr
    obtain ⟨⟨before, i, after⟩, hcut, rfl⟩ := hr
    obtain ⟨rfl, hi, hcount⟩ := eq_of_cutAt hcut
    have hafter : ∀ a ∈ after, '[' ∉ a.value := fun a ha => hwf.noBracket a (by simp [ha])
    have htext := removeText_at name before after i 0
    rw [copyRest_behind hafter] at htext
    simp only [List.replicate_zero, List.append_nil] at htext
    rw [htext, Option.some.injEq] at hnew
    refine ⟨before, i, after, if after = [] then 1 else 0, rfl, by simpa using hi, hcount, ?_, ?_⟩
    · rw [hprint, hcut]
      rfl
    · rw [FileSys.install_files_self, ← hnew]
      split <;> simp [splitFile, render_append]
  · intro hw hvalue
    rw [hprint] at hvalue
    cases hcut : cutAt (·.key = deletedKey name.text key) m items with
    | none => simp [hcut] at hvalue
    | some c =>
      obtain ⟨before, i, after⟩ := c
      obtain ⟨rfl, -, -⟩ := eq_of_cutAt hcut
      have htext := removeText_at name before after i 0
      simp only [List.replicate_zero, List.append_nil] at htext
      rw [exists_comm]
      exact ⟨_, run_delete_eq_some.mpr ((run_nkDeleteSetting_ok hnum hfs).mpr
        ⟨hw, _, _, by rw [hmove, hcut]; rfl, htext, rfl⟩)⟩

/-- For commands that do not use the old interface or the generators. -/
def noExternals : Externals where
  sysconfig _ _ := .ret (.ok, [])
  createDb _ := .ret .ok
  sysconfig_lock _ _ := trivial
  createDb_lock _ := trivial

/-- In `DMZ` the second `ID` goes, although the command names `NAME`. -/
theorem delete_agrees_with_print_dmz :
    let name := nameOf "DMZ"
    let id := keyOf "ID"
    let items := [itemOf id "1", itemOf (keyOf "NAME") "a b", itemOf id "2"]
    let fs := FileSys.single (.split name.text) (splitFile name items)
    (runCommand noExternals 'p' (commandText name id 2)).run exec fs = some ((.ok, ['2']), fs) ∧
      ∃ out fs', (runCommand noExternals 'd' (commandText name (keyOf "NAME") 2)).run exec fs =
        some ((.ok, out), fs') := by
  intro name id items fs
  have hkey : deletedKey name.text (keyOf "NAME") = id := by decide +kernel
  have hwf : WellFormed (deletedKey name.text (keyOf "NAME")) items :=
    ⟨by unfold NoStray; decide +kernel, by decide +kernel, by decide +kernel⟩
  have hprint : (runCommand noExternals 'p' (commandText name id 2)).run exec fs =
      some ((.ok, ['2']), fs) := by
    have hcut : cutAt (·.key = id) 1 items =
        some ([itemOf id "1", itemOf (keyOf "NAME") "a b"], itemOf id "2", []) := by decide +kernel
    rw [run_print (m := 1) _ (by decide) (FileSys.content_single _ _) (hkey ▸ hwf.noStray), hcut]
    rfl
  have hagree := delete_agrees_with_print noExternals name items (keyOf "NAME") 1 fs
    (FileSys.content_single _ _) hwf
  rw [hkey] at hagree
  exact ⟨hprint, hagree.2.2 rfl ⟨_, hprint⟩⟩

/-- In `DMZ` the command `d DMZ NAME 1` removes the `ID` line, and `p DMZ NAME 1` still prints
the same value. -/
theorem delete_other_key_than_print :
    let name := nameOf "DMZ"
    let key := keyOf "NAME"
    let items := [itemOf key "a", itemOf (keyOf "ID") "1"]
    let fs := FileSys.single (.split name.text) (splitFile name items)
    ((runCommand noExternals 'p' (commandText name key 1)).run exec fs).map (·.1) =
        some (.ok, ['a']) ∧
      ((runCommand noExternals 'd' (commandText name key 1)).run exec fs).map
          (fun p => (p.1.1, p.2.files (.split name.text))) =
        some (.ok, some (splitFile name [itemOf key "a"] ++ ['\n'])) := by
  decide +kernel

end Agreement

end ConfigDelete
