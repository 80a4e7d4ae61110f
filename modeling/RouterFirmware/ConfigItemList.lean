import RouterFirmware.ConfigDelete

/-! # A category file as a list of items

For files in the plain format the four operations on a category file refine operations on a list
of items: read, replace and remove the `n`-th item of a key, and put a new one behind the last.
A delete of the last line leaves one blank line, which the next change takes away.
-/
namespace ConfigItemList

open TextStream SharedProgram ConfigDatabase ConfigScan ConfigEdit ConfigFormat ConfigCommand
  ConfigLookup ConfigWrite ConfigDelete OccurrenceList

/-- Keys over `A-Z`, `0-9` and `_`; values without white space, double quotes and `[`. -/
structure Plain (i : Item) : Prop where
  key : ∀ c ∈ i.key.text, keyChar c = true
  value : ∀ c ∈ i.value, isSpace c = false ∧ c ≠ '"' ∧ c ≠ '['

instance (i : Item) : Decidable (Plain i) :=
  decidable_of_iff (i.key.text.all keyChar ∧
      i.value.all fun c => decide (isSpace c = false ∧ c ≠ '"' ∧ c ≠ '['))
    ⟨fun h => ⟨by simpa using h.1, forall_of_all h.2⟩,
      fun h => ⟨by simpa using h.key, by simpa using h.value⟩⟩

section Search

variable {items : List Item} {key : Key} {m : ℕ} {t : Text}

theorem strays_plain (key : Key) {i : Item} (hi : Plain i) : strays key i =
    if i.key = key ∧ key.text ++ ['='] <+: i.value then hits key.text i.value else [] := by
  have hnone : i.value.dropWhile (!isSpace ·) = [] := by
    rw [List.dropWhile_eq_nil_iff]
    intro c hc
    simp [(hi.value c hc).1]
  unfold strays
  by_cases hk : i.key = key
  · by_cases hv : key.text ++ ['='] <+: i.value
    · simp [hk, hv]
    · have hempty : hits key.text i.value = [] := by
        rw [hits_eq_nil, forall_words_iff, hnone]
        exact ⟨by simp [words_nil], hv⟩
      simp [hk, hv, hempty]
  · simp [hk, hnone, hits_nil]

/-- None of the first `m` values of the key starts with `KEY=` itself. -/
def Unobstructed (key : Key) (m : ℕ) (items : List Item) : Prop :=
  ∀ v ∈ (valuesOf key items).take m, ¬ key.text ++ ['='] <+: v

/-- Then the `m`-th place found is the value of the `m`-th item. -/
theorem hits_unobstructed (hp : ∀ i ∈ items, Plain i) (hm : Unobstructed key m items)
    (ht : hits key.text t = []) : (hits key.text (render items ++ t))[m]? =
      (cutAt (·.key = key) m items).map fun c =>
        c.2.1.value ++ '\n' :: (render c.2.2 ++ t) := by
  induction items generalizing m with
  | nil => simp [ht, cutAt]
  | cons i items ih =>
    have hstray := strays_plain key (hp i List.mem_cons_self)
    have hrest := fun j hj => hp j (List.mem_cons_of_mem _ hj)
    rw [render_cons, List.append_assoc, List.cons_append, hits_append_space (by decide), hits_item]
    by_cases hk : i.key = key
    · have hvalues : valuesOf key (i :: items) = i.value :: valuesOf key items := by
        simp [valuesOf, hk]
      cases m with
      | zero => simp [hk, cutAt]
      | succ m =>
        rw [Unobstructed, hvalues, List.take_succ_cons, List.forall_mem_cons] at hm
        rw [if_neg fun h => hm.1 h.2] at hstray
        have hlast := ih hrest hm.2
        simp only [hk, if_true, hstray, List.append_nil, List.map_cons, List.map_nil,
          List.cons_append, List.nil_append, List.getElem?_cons_succ, hlast, cutAt, decide_true,
          Option.map_map]
        rfl
    · have hvalues : valuesOf key (i :: items) = valuesOf key items := by simp [valuesOf, hk]
      rw [if_neg fun h => hk h.1] at hstray
      rw [Unobstructed, hvalues] at hm
      rw [cutAt_cons_neg (by simpa using hk), if_neg hk, hstray, Option.map_map]
      exact ih hrest hm

end Search

section Last

variable {key : Key} {k : ℕ}

theorem filter_keyChar {i : Item} (hi : Plain i) : i.key.text.filter keyChar = i.key.text :=
  List.filter_eq_self.mpr hi.key

theorem findLastItem_line {i : Item} (hi : Plain i) (position t : Text) :
    findLastItem key.text position (i.text ++ '\n' :: t) =
      if i.key = key then findLastItem key.text t t else findLastItem key.text position t := by
  rw [findLastItem_eq, readField_key]
  dsimp only
  rw [filter_keyChar hi, skipLine, readTo_append i.newline_not_mem]
  by_cases hk : i.key = key
  · simp [hk]
  · have ht : ¬ i.key.text = key.text := fun h => hk (Key.ext_iff'.mpr h)
    simp [hk, ht]

theorem findLastItem_none {items : List Item} (hp : ∀ i ∈ items, Plain i)
    (hn : ∀ i ∈ items, i.key ≠ key) (position : Text) :
    findLastItem key.text position (render items ++ List.replicate k '\n') = position := by
  induction items with
  | nil => rw [findLastItem_eq, render_nil, List.nil_append, readField_blank]
  | cons i items ih =>
    rw [render_cons, List.append_assoc, List.cons_append,
      findLastItem_line (hp i List.mem_cons_self), if_neg (hn i List.mem_cons_self)]
    exact ih (fun j hj => hp j (List.mem_cons_of_mem _ hj))
      (fun j hj => hn j (List.mem_cons_of_mem _ hj))

/-- The position behind the last line of the key. -/
theorem findLastItem_last {before after : List Item} {x : Item}
    (hp : ∀ i ∈ before ++ x :: after, Plain i) (hx : x.key = key)
    (hn : ∀ i ∈ after, i.key ≠ key) (position : Text) :
    findLastItem key.text position (render (before ++ x :: after) ++ List.replicate k '\n') =
      render after ++ List.replicate k '\n' := by
  have hafter : ∀ i ∈ after, Plain i := fun i hi => hp i (by simp [hi])
  induction before generalizing position with
  | nil =>
    rw [List.nil_append, render_cons, List.append_assoc, List.cons_append,
      findLastItem_line (hp x (by simp)), if_pos hx, findLastItem_none hafter hn]
  | cons d before ih =>
    have hrest : ∀ i ∈ before ++ x :: after, Plain i := fun i hi => hp i (by simp_all)
    rw [List.cons_append, render_cons, List.append_assoc, List.cons_append,
      findLastItem_line (hp d (by simp))]
    split
    · exact ih hrest _
    · exact ih hrest _

end Last

section Case

theorem toNat_toLower (c : Char) :
    c.toLower.toNat = if 65 ≤ c.toNat ∧ c.toNat ≤ 90 then c.toNat + 32 else c.toNat := by
  have hrange : (c.val ≥ 'A'.val ∧ c.val ≤ 'Z'.val) ↔ 65 ≤ c.toNat ∧ c.toNat ≤ 90 := by
    simp only [ge_iff_le, UInt32.le_iff_toNat_le]
    exact Iff.rfl
  by_cases h : 65 ≤ c.toNat ∧ c.toNat ≤ 90
  · delta Char.toLower
    rw [dif_pos (hrange.mpr h), if_pos h]
    change (c.val + ('a'.val - 'A'.val)).toNat = c.val.toNat + 32
    have hsum : ('a'.val - 'A'.val).toNat = 32 := rfl
    have hc : c.val.toNat ≤ 90 := h.2
    rw [UInt32.toNat_add, hsum]
    omega
  · delta Char.toLower
    rw [dif_neg fun hc => h (hrange.mp hc), if_neg h]

theorem toLower_inj {c d : Char} (hc : keyChar c = true) (hd : keyChar d = true)
    (h : c.toLower = d.toLower) : c = d := by
  have range : ∀ c : Char, keyChar c = true →
      (65 ≤ c.toNat ∧ c.toNat ≤ 90) ∨ c.toNat = 95 ∨ (48 ≤ c.toNat ∧ c.toNat ≤ 57) := by
    intro c hc
    simp only [keyChar, Bool.or_eq_true, Bool.and_eq_true, decide_eq_true_eq, beq_iff_eq,
      Char.le_def, UInt32.le_iff_toNat_le] at hc
    rcases hc with (hc | rfl) | hc
    · exact .inl hc
    · exact .inr (.inl rfl)
    · exact .inr (.inr hc)
  have hn := congrArg Char.toNat h
  rw [toNat_toLower, toNat_toLower] at hn
  have hc' := range c hc
  have hd' := range d hd
  have heq : c.toNat = d.toNat := by split at hn <;> split at hn <;> omega
  exact Char.ext (UInt32.toNat_inj.mp heq)

theorem map_toLower_inj {a b : Text} (ha : ∀ c ∈ a, keyChar c = true)
    (hb : ∀ c ∈ b, keyChar c = true) (h : a.map Char.toLower = b.map Char.toLower) : a = b := by
  induction a generalizing b with
  | nil => simpa using h.symm
  | cons c a ih =>
    cases b with
    | nil => simp at h
    | cons d b =>
      simp only [List.map_cons, List.cons.injEq] at h
      rw [toLower_inj (ha c List.mem_cons_self) (hb d List.mem_cons_self) h.1,
        ih (fun e he => ha e (List.mem_cons_of_mem _ he))
          (fun e he => hb e (List.mem_cons_of_mem _ he)) h.2]

/-- Between plain keys the comparison without regard to case is equality. -/
theorem sameKey_plain {key : Key} {i : Item} (hk : ∀ c ∈ key.text, keyChar c = true)
    (hi : Plain i) : sameKey key.text i = decide (i.key = key) := by
  by_cases h : i.key = key
  · simp [sameKey, strcasecmp, h]
  · have ht : ¬ key.text.map Char.toLower = i.key.text.map Char.toLower := fun he =>
      h (Key.ext_iff'.mpr (map_toLower_inj hk hi.key he).symm)
    simp [sameKey, strcasecmp, h, ht]

end Case

/-- The operations on the file of a category, items counted from 0. -/
inductive Operation where
  | print (key : Key) (m : ℕ)
  | set (new : Item) (m : ℕ)
  | add (new : Item)
  | delete (key : Key) (m : ℕ)

/-- The code: `print_config`, `set_config`, `add_config`, and `move_to_item` with `remove_item`. -/
def Operation.prog (name : Name) : Operation → FsProg (Result × Text)
  | .print key m => do
    match ← read (.split name.text) with
    | none => return (.itemNotFound, [])
    | some text => return printConfig text name.text key.text (m + 1)
  | .set new m => do
    return (← setConfig name.text new.key.text new.value (m + 1) (.split name.text), [])
  | .add new => do
    return (← addConfig name.text new.key.text new.value (.split name.text), [])
  | .delete key m => do
    match ← read (.split name.text) with
    | none => return (.failToOpen, [])
    | some text =>
      return (← deleteItem name.text key.text (m + 1) (.split name.text) text, [])

def changed (items : List Item) : Option (List Item) → (Result × Text) × List Item
  | none => ((.itemNotFound, []), items)
  | some items' => ((.ok, []), items')

/-- What the operations are for, on the list of items. -/
def Operation.spec : Operation → List Item → (Result × Text) × List Item
  | .print key m, items => (answer (valuesOf key items)[m]?, items)
  | .set new m, items => changed items (replaceNth (·.key = new.key) m new items)
  | .add new, items => ((.ok, []), insertAfterLast (·.key = new.key) new items)
  | .delete key m, items => changed items (eraseNth (·.key = key) m items)

/-- Arguments in the plain format; for a print or a set, no earlier value of the key starts with
`KEY=`. -/
def Operation.Allowed : Operation → List Item → Prop
  | .print key m, items => (∀ c ∈ key.text, keyChar c = true) ∧ Unobstructed key m items
  | .set new m, items => Plain new ∧ Unobstructed new.key m items
  | .add new, _ => Plain new
  | .delete key _, _ => ∀ c ∈ key.text, keyChar c = true

/-- The file holds the items, with at most one blank line behind them, and no earlier command
has left a `/tmp/stemp`. -/
structure Represents (name : Name) (items : List Item) (fs : FileSys) : Prop where
  plain : ∀ i ∈ items, Plain i
  file : ∃ k ≤ 1, fs.content (.split name.text) =
    some (splitFile name items ++ List.replicate k '\n')
  clean : fs.files .stemp = none
  writable : fs.writable .stemp = true

section Step

variable {name : Name} {items : List Item} {fs : FileSys} {key : Key} {new : Item} {m : ℕ}

theorem findCategory_splitFile (name : Name) (items : List Item) (t : Text) :
    findCategory name.text (splitFile name items ++ t) = some (render items ++ t) := by
  rw [splitFile, List.append_assoc, findCategory_header]

theorem hits_replicate (item : Text) (k : ℕ) : hits item (List.replicate k '\n') = [] := by
  have hblank := hits_blank item k []
  rwa [List.append_nil, hits_nil] at hblank

theorem represents_install {items' : List Item} {k : ℕ} (h : Represents name items fs)
    (hp : ∀ i ∈ items', Plain i) (hk : k ≤ 1) :
    Represents name items' (fs.install (.split name.text)
      (splitFile name items' ++ List.replicate k '\n')) := by
  have hread : fs.readable (.split name.text) = true := by
    obtain ⟨_, -, hfile⟩ := h.file
    by_contra hn
    simp [FileSys.content, hn] at hfile
  refine ⟨hp, ⟨k, hk, ?_⟩, ?_, ?_⟩
  · simp [FileSys.content, FileSys.install, hread]
  · simp [FileSys.install, FileSys.set_files_of_ne]
  · simpa [FileSys.install] using h.writable

theorem print_step (h : Represents name items fs) (hm : Unobstructed key m items) :
    (Operation.prog name (.print key m)).run exec fs =
      some (answer (valuesOf key items)[m]?, fs) := by
  obtain ⟨k, -, hfile⟩ := h.file
  have hhit := hits_unobstructed h.plain hm (hits_replicate key.text k)
  have hn : ((m : ℤ) + 1 - 1).toNat = m := by omega
  rw [Operation.prog, run_read_bind, hfile]
  dsimp only
  rw [printConfig_hits (findCategory_splitFile _ _ _), hn, hhit, getElem?_valuesOf,
    Option.map_map]
  cases hcut : cutAt (·.key = key) m items with
  | none => rfl
  | some c =>
    have hline := lineOf_append c.2.1.newline_not_mem (render c.2.2 ++ List.replicate k '\n')
    simp [printItemValue_eq, hline]

/-- The file with the old value at a plain item replaced. -/
theorem insertText_plain (name : Name) (before after : List Item) {i : Item} (hi : Plain i)
    (hk : i.key = new.key) (k : ℕ) :
    insertText (splitFile name (before ++ i :: after) ++ List.replicate k '\n')
        (i.value ++ '\n' :: (render after ++ List.replicate k '\n')) (new.value ++ ['\n']) true =
      some (splitFile name (before ++ new :: after) ++ List.replicate 0 '\n') := by
  have htext : splitFile name (before ++ i :: after) ++ List.replicate k '\n' =
      (header name.text ++ render before ++ (i.key.text ++ ['='])) ++
        (i.value ++ '\n' :: (render after ++ List.replicate k '\n')) := by
    simp [splitFile, render_append, render_cons, Item.text]
  have hquote : i.value.count '"' = 0 :=
    List.count_eq_zero.mpr fun hq => (hi.value _ hq).2.1 rfl
  obtain ⟨pre, behind, hline⟩ :=
    skipValue_line i.newline_not_mem 0 0 0 (render after ++ List.replicate k '\n')
  rw [hquote] at hline
  have hcopy := copyRest_render false after (by simp)
    (List.replicate k '\n')
  rw [copyRest_blank, List.append_nil] at hcopy
  rw [insertText, htext, consumed_append, if_pos rfl, ConfigWrite.skipOld_line, hline]
  simp [hcopy, splitFile, render_append, render_cons, Item.text, hk]

theorem plain_insert {before after : List Item} (hb : ∀ j ∈ before, Plain j) (hnew : Plain new)
    (ha : ∀ j ∈ after, Plain j) : ∀ j ∈ before ++ new :: after, Plain j := by
  intro j hj
  rcases List.mem_append.mp hj with hj | hj
  · exact hb j hj
  · rcases List.mem_cons.mp hj with rfl | hj
    · exact hnew
    · exact ha j hj

theorem set_step (h : Represents name items fs) (hnew : Plain new)
    (hm : Unobstructed new.key m items) :
    ∃ fs', (Operation.prog name (.set new m)).run exec fs =
        some ((Operation.spec (.set new m) items).1, fs') ∧
      Represents name (Operation.spec (.set new m) items).2 fs' := by
  obtain ⟨k, -, hfile⟩ := h.file
  have hhit := hits_unobstructed h.plain hm (hits_replicate new.key.text k)
  have hn : ((m : ℤ) + 1 - 1).toNat = m := by omega
  have hcat := findCategory_splitFile name items (List.replicate k '\n')
  simp only [Operation.prog, run_bind, Operation.spec, replaceNth]
  cases hcut : cutAt (·.key = new.key) m items with
  | none =>
    rw [hcut, Option.map_none] at hhit
    rw [run_setConfig_none hfile hcat h.clean (by rw [hn]; exact hhit)]
    exact ⟨fs, rfl, h⟩
  | some c =>
    obtain ⟨before, i, after⟩ := c
    obtain ⟨rfl, hi, -⟩ := eq_of_cutAt hcut
    rw [hcut, Option.map_some] at hhit
    have htext := insertText_plain name before after
      (h.plain i (by simp)) (by simpa using hi) k
    have hrun := (run_setConfig_ok hfile hcat).mpr
      ⟨h.writable, _, _, by rw [hn]; exact hhit, htext, rfl⟩
    rw [hrun]
    exact ⟨_, rfl, represents_install h (plain_insert (fun j hj => h.plain j (by simp [hj])) hnew
      fun j hj => h.plain j (by simp [hj])) (by omega)⟩

/-- The file with the new line at the position behind `before`. -/
theorem insertText_add (before after : List Item) (k : ℕ) :
    insertText (splitFile name (before ++ after) ++ List.replicate k '\n')
        (render after ++ List.replicate k '\n')
        (new.key.text ++ ['='] ++ new.value ++ ['\n']) false =
      some (splitFile name (before ++ new :: after) ++ List.replicate 0 '\n') := by
  have htext : splitFile name (before ++ after) ++ List.replicate k '\n' =
      splitFile name before ++ (render after ++ List.replicate k '\n') := by
    simp [splitFile, render_append]
  have hcopy := copyRest_render false after (by simp)
    (List.replicate k '\n')
  rw [copyRest_blank, List.append_nil] at hcopy
  rw [insertText, htext, consumed_append]
  simp [hcopy, splitFile, render_append, render_cons, Item.text]

theorem add_step (h : Represents name items fs) (hnew : Plain new) :
    ∃ fs', (Operation.prog name (.add new)).run exec fs =
        some ((Operation.spec (.add new) items).1, fs') ∧
      Represents name (Operation.spec (.add new) items).2 fs' := by
  obtain ⟨k, -, hfile⟩ := h.file
  have hcat := findCategory_splitFile name items (List.replicate k '\n')
  simp only [Operation.prog, run_bind, Operation.spec]
  have insert : ∀ before after, items = before ++ after →
      findLastItem new.key.text (render items ++ List.replicate k '\n')
        (render items ++ List.replicate k '\n') = render after ++ List.replicate k '\n' →
      insertAfterLast (·.key = new.key) new items = before ++ new :: after →
      ∃ fs', ((addConfig name.text new.key.text new.value (.split name.text)).run exec fs).bind
          (fun p => (Prog.ret (p.1, []) : FsProg (Result × Text)).run exec p.2) =
            some ((.ok, []), fs') ∧
        Represents name (insertAfterLast (·.key = new.key) new items) fs' := by
    rintro before after rfl hlast hspec
    rw [run_addConfig hfile hcat h.writable (by rw [hlast]; exact insertText_add before after k),
      hspec]
    exact ⟨_, rfl, represents_install h (plain_insert (fun j hj => h.plain j (by simp [hj])) hnew
      fun j hj => h.plain j (by simp [hj])) (by omega)⟩
  rcases last_or_none (fun i : Item => decide (i.key = new.key)) items with
    ⟨b, x, c, rfl, hx, hc⟩ | hnone
  · apply insert (b ++ [x]) c (by simp)
    · exact findLastItem_last h.plain (by simpa using hx) (by simpa using hc) _
    · rw [insertAfterLast_append (p := fun i : Item => decide (i.key = new.key)) hx hc]
      simp
  · apply insert [] items rfl
    · exact findLastItem_none h.plain (by simpa using hnone) _
    · exact insertAfterLast_of_none hnone

theorem delete_step (h : Represents name items fs) (hk : ∀ c ∈ key.text, keyChar c = true) :
    ∃ fs', (Operation.prog name (.delete key m)).run exec fs =
        some ((Operation.spec (.delete key m) items).1, fs') ∧
      Represents name (Operation.spec (.delete key m) items).2 fs' := by
  obtain ⟨k, -, hfile⟩ := h.file
  have hn : ((m : ℤ) + 1 - 1).toNat = m := by omega
  have hmove := moveToItem_splitFile (by omega : (m : ℤ) + 1 ≠ 0) key.text name items k
  rw [hn, cutAt_congr fun i hi => sameKey_plain hk (h.plain i hi)] at hmove
  rw [Operation.prog, run_read_bind, hfile, Operation.spec, eraseNth]
  dsimp only
  rw [run_bind]
  cases hcut : cutAt (·.key = key) m items with
  | none =>
    rw [hcut, Option.map_none] at hmove
    rw [run_deleteItem_none h.clean hmove]
    exact ⟨fs, rfl, h⟩
  | some c =>
    obtain ⟨before, i, after⟩ := c
    obtain ⟨rfl, -, -⟩ := eq_of_cutAt hcut
    rw [hcut, Option.map_some] at hmove
    have hafter : ∀ a ∈ after, '[' ∉ a.value := fun a ha hb =>
      ((h.plain a (by simp [ha])).value _ hb).2.2 rfl
    have htext : removeText (splitFile name (before ++ i :: after) ++ List.replicate k '\n')
        (render (i :: after) ++ List.replicate k '\n') =
        some (splitFile name (before ++ after) ++
          List.replicate (if after = [] then 1 else 0) '\n') := by
      rw [removeText_at, copyRest_behind hafter]
      split <;> simp [splitFile, render_append]
    rw [run_deleteItem_found h.writable hmove htext]
    refine ⟨_, rfl, represents_install h ?_ (by split <;> omega)⟩
    intro j hj
    rcases List.mem_append.mp hj with hj | hj
    · exact h.plain j (by simp [hj])
    · exact h.plain j (by simp [hj])

end Step

/-- Every finite run of allowed operations, from a file in the format, returns the results of
the abstract run and leaves the file of the abstract items. -/
theorem operations_refine_item_list (name : Name) (items : List Item) (fs : FileSys)
    (ops : List Operation) (h : Represents name items fs)
    (hops : AllowedAll Operation.spec Operation.Allowed ops items) :
    ∃ fs', runAll exec (Operation.prog name) ops fs =
        some ((specAll Operation.spec ops items).1, fs') ∧
      Represents name (specAll Operation.spec ops items).2 fs' := by
  refine runAll_simulates ?_ h hops
  intro op items fs h hop
  cases op with
  | print key m => exact ⟨fs, print_step h hop.2, h⟩
  | set new m => exact set_step h hop.1 hop.2
  | add new => exact add_step h hop
  | delete key m => exact delete_step h hop

theorem represents_single {name : Name} {items : List Item} (hp : ∀ i ∈ items, Plain i) :
    Represents name items (.single (.split name.text) (splitFile name items)) :=
  ⟨hp, ⟨0, by omega, by simp⟩, rfl, rfl⟩

/-- An item is added, another one replaced and then deleted. -/
theorem operations_refine_four :
    let name := nameOf "C"
    let x := keyOf "X"
    let a := itemOf (keyOf "Y") "a=b"
    let ops := [.add a, .set (itemOf x "2") 0, .delete x 0, .print x 0]
    ∃ fs', runAll exec (Operation.prog name) ops
        (.single (.split name.text) (splitFile name [itemOf x "1"])) =
          some ([(.ok, []), (.ok, []), (.ok, []), (.itemNotFound, [])], fs') ∧
      Represents name [a] fs' := by
  intro name x a ops
  have hstart : Represents name [itemOf x "1"]
      (.single (.split name.text) (splitFile name [itemOf x "1"])) :=
    represents_single (by decide +kernel)
  have hkey : ∀ c ∈ x.text, keyChar c = true := forall_of_all (by decide +kernel)
  have hplain : Plain a ∧ Plain (itemOf x "2") := by decide +kernel
  have hallowed : AllowedAll Operation.spec Operation.Allowed ops [itemOf x "1"] :=
    ⟨hplain.1, ⟨hplain.2, by simp [Unobstructed]⟩, hkey, ⟨hkey, by simp [Unobstructed]⟩, trivial⟩
  have hspec : specAll Operation.spec ops [itemOf x "1"] =
      ([(.ok, []), (.ok, []), (.ok, []), (.itemNotFound, [])], [a]) := by decide +kernel
  have hrun := operations_refine_item_list name _ _ ops hstart hallowed
  rw [hspec] at hrun
  exact hrun

/-- The value `X=5` of the first `X` is taken for the second one. -/
theorem print_finds_key_in_value :
    let name := nameOf "C"
    let x := keyOf "X"
    let items := [itemOf x "X=5", itemOf x "7"]
    let fs := FileSys.single (.split name.text) (splitFile name items)
    Represents name items fs ∧
      ((Operation.prog name (.print x 1)).run exec fs).map (·.1) = some (.ok, ['5']) ∧
      (Operation.spec (.print x 1) items).1 = (.ok, ['7']) := by
  intro name x items fs
  exact ⟨represents_single (by decide +kernel), by decide +kernel, by decide +kernel⟩

end ConfigItemList
