import RouterFirmware.ConfigPieces

/-! # The batch update of a category

`kd_batch` collects lines in `/tmp/kd_batch`, and `kdBatchUpdateDB` puts them in place of the lines
of the same key. It looks at the pieces `fgets` gives it: a piece of a long line can be taken for a
line of the key, or for the header behind which the rest is copied as it is.
-/
namespace ConfigBatchUpdate

open TextStream SharedProgram ConfigDatabase ConfigScan ConfigFormat ConfigBatch ConfigMerge
  ConfigPieces

/-- A value to be written: a C string of one line. -/
abbrev Value := { v : Text // ∀ c ∈ v, c ∉ ['\n', '\x00'] }

def batchAll (name : Name) (key : Key) : List Value → FsProg Unit
  | [] => return ()
  | v :: vs => do
    kdBatch (name.text ++ ' ' :: (key.text ++ ['='])) v.val
    batchAll name key vs

/-- The values are collected and put into the category, which is then read. -/
def updateAndRead (name : Name) (key : Key) (vs : List Value) : FsProg (List Text) := do
  batchAll name key vs
  let _ ← kdBatchUpdateDB name.text key.text
  batchGetConfigM name.text key.text

def otherLines (key : Key) (t : Text) : List Text :=
  (t.splitOn '\n').filter fun l => !(key.text ++ ['=']).isPrefixOf l

/-- The values come back as they were given, and no other line is touched. -/
def Updates (name : Name) (items : List Item) (key : Key) (vs : List Value) : Prop :=
  ∀ fs : FileSys, fs.lockFile = false → (∀ p, fs.readable p = true ∧ fs.writable p = true) →
    fs.files (.split name.text) = some (splitFile name items) → fs.files .batch = none →
    ∃ fs' t, (updateAndRead name key vs).run exec fs = some (vs.map (·.val), fs') ∧
      fs'.files (.split name.text) = some t ∧
      otherLines key t = otherLines key (splitFile name items)

/-- The lines that `kd_batch` collects. -/
def newText (key : Key) (vs : List Value) : Text :=
  vs.flatMap fun v => key.text ++ '=' :: v.val ++ ['\n']

section Run

variable {fs : FileSys} {name : Name} {key : Key} {t : Text} {v : Value}

theorem run_putAll {p : Path} (ls : List Text) (h : fs.files p = some t) :
    (putAll p ls).run exec fs = some ((), fs.set p (some (t ++ ls.flatten))) := by
  induction ls generalizing fs t with
  | nil => simp [putAll, FileSys.set_self h]
  | cons l ls ih =>
    rw [putAll, run_put_bind, h, Option.map_some, ih (FileSys.set_files_self _ _ _)]
    simp

/-- One line is added to `/tmp/kd_batch`, unless it is too long for `DBsave`. -/
theorem run_kdBatch (name : Name) (key : Key) (v : Value) (hw : fs.writable .batch = true) :
    (kdBatch (name.text ++ ' ' :: (key.text ++ ['='])) v.val).run exec fs =
      if argvSize ≤ key.text.length + v.val.length + 2 then none
      else some ((), fs.set .batch
        (some ((fs.files .batch).getD [] ++ (key.text ++ '=' :: v.val ++ ['\n'])))) := by
  have hname : ¬ argvSize ≤ name.text.length := by
    have hs := name.short
    rw [argvSize]
    omega
  rw [kdBatch, readTo_append name.space_not_mem]
  dsimp only
  rw [readTo_append key.eq_not_mem]
  dsimp only
  simp only [hname, false_or]
  split
  · rfl
  · rw [run_append_bind]
    simp only [hw, if_true]
    rw [run_put, FileSys.set_files_self, FileSys.set_set, Option.map_some]

/-- The lines are added to `/tmp/kd_batch`, and nothing else is changed. -/
theorem run_batchAll (fs : FileSys) (name : Name) {vs : List Value} (hw : fs.writable .batch = true)
    (hfit : ∀ v ∈ vs, key.text.length + v.val.length + 2 < argvSize) :
    ∃ b, (batchAll name key vs).run exec fs = some ((), fs.set .batch b) ∧
      b.getD [] = (fs.files .batch).getD [] ++ newText key vs := by
  induction vs generalizing fs with
  | nil =>
    exact ⟨fs.files .batch, by rw [FileSys.set_self rfl]; rfl, by simp [newText]⟩
  | cons v vs ih =>
    have hv := hfit v List.mem_cons_self
    obtain ⟨b, hb, htext⟩ := ih (fs.set .batch
      (some ((fs.files .batch).getD [] ++ (key.text ++ '=' :: v.val ++ ['\n'])))) hw
      fun u hu => hfit u (List.mem_cons_of_mem _ hu)
    rw [FileSys.set_set] at hb
    refine ⟨b, ?_, ?_⟩
    · rw [batchAll, run_bind, run_kdBatch _ _ _ hw, if_neg (by omega), Option.bind_some, hb]
    · rw [htext, FileSys.set_files_self]
      simp [newText]

theorem run_batchAll_none {vs : List Value} (hw : fs.writable .batch = true)
    (hlong : ∃ v ∈ vs, argvSize ≤ key.text.length + v.val.length + 2) :
    (batchAll name key vs).run exec fs = none := by
  induction vs generalizing fs with
  | nil =>
    obtain ⟨v, hv, -⟩ := hlong
    cases hv
  | cons v vs ih =>
    rw [batchAll, run_bind, run_kdBatch _ _ _ hw]
    split
    · rfl
    · next hv =>
      refine ih hw ?_
      obtain ⟨u, hu, hlen⟩ := hlong
      rcases List.mem_cons.mp hu with rfl | hu
      · exact absurd hlen hv
      · exact ⟨u, hu, hlen⟩

def updated (name : Name) (key : Key) (new : Text) (items : List Item) : Text :=
  header name.text ++ (new ++ (batchLines key.text (pieces items)).flatten)

theorem run_batchConfig (fs : FileSys) (key : Key) {items : List Item}
    (hopen : ∀ p, fs.readable p = true ∧ fs.writable p = true)
    (hfile : fs.files (.split name.text) = some (splitFile name items)) :
    (batchConfig name.text key.text).run exec fs = some (true, fs.set .batchBackup
      (some (updated name key ((fs.files .batch).getD []) items))) := by
  have hread : fs.content (.split name.text) = some (splitFile name items) := by
    rw [FileSys.content, if_pos (hopen _).1, hfile]
  have hnew : ∀ u, (fs.set .batchBackup u).content .batch = fs.files .batch := by
    intro u
    rw [FileSys.content_set_of_ne _ (by simp), FileSys.content, if_pos (hopen _).1]
  rw [batchConfig, run_read_bind, hread]
  dsimp only
  rw [run_create_bind]
  simp only [(hopen .batchBackup).2, if_true]
  rw [chunks_splitFile, run_bind, batchConfigLoop, run_put_bind, FileSys.set_files_self,
    FileSys.set_set, Option.map_some, if_pos ⟨isHeader_header _, headerName_header _⟩,
    run_read_bind, hnew, run_bind, run_putAll _ (FileSys.set_files_self _ _ _), FileSys.set_set,
    Option.bind_some, run_putAll _ (FileSys.set_files_self _ _ _), FileSys.set_set, chunks,
    flatten_fgetsAll size_pos]
  simp [updated]

theorem run_kdBatchUpdateDB (fs : FileSys) (key : Key) {items : List Item}
    (hlock : fs.lockFile = false) (hopen : ∀ p, fs.readable p = true ∧ fs.writable p = true)
    (hfile : fs.files (.split name.text) = some (splitFile name items)) :
    ∃ fs', (kdBatchUpdateDB name.text key.text).run exec fs = some (true, fs') ∧
      fs'.lockFile = false ∧ (∀ p, fs'.readable p = true ∧ fs'.writable p = true) ∧
      fs'.files (.split name.text) =
        some (updated name key ((fs.files .batch).getD []) items) := by
  have hrun := run_batchConfig { fs with lockFile := true } key hopen hfile
  rw [kdBatchUpdateDB, run_lockOpen_bind hlock, run_bind, hrun, Option.bind_some,
    run_lockUnlink_bind, if_pos rfl, run_rename_bind]
  dsimp only
  rw [FileSys.set_files_self]
  refine ⟨_, rfl, rfl, hopen, ?_⟩
  simp [FileSys.set]

/-- The run reduces the update to the texts it reads and writes. -/
theorem updates_iff_texts (name : Name) (items : List Item) (key : Key) (vs : List Value) :
    Updates name items key vs ↔
      (∀ v ∈ vs, key.text.length + v.val.length + 2 < argvSize) ∧
      entriesOf key.text (chunks (newText key vs ++
        (batchLines key.text (pieces items)).flatten)) = vs.map (·.val) ∧
      otherLines key (updated name key (newText key vs) items) =
        otherLines key (splitFile name items) := by
  have hrun : ∀ fs : FileSys, fs.lockFile = false →
      (∀ p, fs.readable p = true ∧ fs.writable p = true) →
      fs.files (.split name.text) = some (splitFile name items) → fs.files .batch = none →
      (∀ v ∈ vs, key.text.length + v.val.length + 2 < argvSize) →
      ∃ fs', (updateAndRead name key vs).run exec fs = some (entriesOf key.text
          (chunks (newText key vs ++ (batchLines key.text (pieces items)).flatten)), fs') ∧
        fs'.files (.split name.text) = some (updated name key (newText key vs) items) := by
    intro fs hlock hopen hfile hbatch hfit
    obtain ⟨b, hb, htext⟩ := run_batchAll fs name (hopen _).2 hfit
    rw [hbatch, Option.getD_none, List.nil_append] at htext
    have hsplit : (fs.set .batch b).files (.split name.text) = some (splitFile name items) := by
      rw [FileSys.set_files_of_ne _ _ (by simp), hfile]
    obtain ⟨fs', hupdate, hlock', hopen', hfile'⟩ :=
      run_kdBatchUpdateDB (fs.set .batch b) key hlock hopen hsplit
    rw [FileSys.set_files_self, htext] at hfile'
    refine ⟨fs', ?_, hfile'⟩
    have hread : fs'.content (.split name.text) =
        some (updated name key (newText key vs) items) := by
      rw [FileSys.content, if_pos (hopen' _).1, hfile']
    rw [updateAndRead, run_bind, hb, Option.bind_some, run_bind, hupdate, Option.bind_some,
      run_batchGetConfigM hlock' hread, updated, categoryEntries_header]
  constructor
  · intro h
    obtain ⟨fs', t, hupdates, hfile, hlines⟩ :=
      h (FileSys.single (.split name.text) (splitFile name items)) rfl (fun p => ⟨rfl, rfl⟩)
        (by simp [FileSys.single]) (by simp [FileSys.single])
    have hfit : ∀ v ∈ vs, key.text.length + v.val.length + 2 < argvSize := by
      intro v hv
      by_contra hlong
      rw [updateAndRead, run_bind, run_batchAll_none rfl ⟨v, hv, by omega⟩] at hupdates
      cases hupdates
    obtain ⟨fs'', hrun', hfile'⟩ := hrun (FileSys.single (.split name.text) (splitFile name items))
      rfl (fun p => ⟨rfl, rfl⟩) (by simp [FileSys.single]) (by simp [FileSys.single]) hfit
    rw [hupdates, Option.some.injEq, Prod.mk.injEq] at hrun'
    obtain ⟨hentries, rfl⟩ := hrun'
    rw [hfile, Option.some.injEq] at hfile'
    subst hfile'
    exact ⟨hfit, hentries.symm, hlines⟩
  · intro h fs hlock hopen hfile hbatch
    obtain ⟨hfit, hentries, hlines⟩ := h
    obtain ⟨fs', hrun', hfile'⟩ := hrun fs hlock hopen hfile hbatch hfit
    exact ⟨fs', _, hentries ▸ hrun', hfile', hlines⟩

end Run

section Entries

variable {name : Name} {key : Key}

theorem batchLines_cons (subfeild l : Text) (ls : List Text) :
    batchLines subfeild (l :: ls) = if isHeader l then l :: ls
      else if fieldName l = subfeild then batchLines subfeild ls
      else l :: batchLines subfeild ls := rfl

theorem batchLines_bracket (hkey : ']' ∈ key.text.tail) (ls : List Text) :
    batchLines key.text ls = ls := by
  induction ls with
  | nil => rfl
  | cons l ls ih =>
    rw [batchLines_cons, if_neg (fieldName_ne hkey l), ih]
    exact ite_self _

theorem batchLines_sublist (key : Text) (ls : List Text) : (batchLines key ls).Sublist ls := by
  induction ls with
  | nil => exact .slnil
  | cons l ls ih =>
    rw [batchLines_cons]
    split
    · exact List.Sublist.refl _
    · split
      · exact ih.cons l
      · exact ih.cons_cons l

/-- Nothing of the key is left in front of the next header. -/
theorem entriesOf_batchLines (key : Text) (ls : List Text) :
    entriesOf key (batchLines key ls) = [] := by
  induction ls with
  | nil => rfl
  | cons l ls ih =>
    rw [batchLines_cons]
    split
    · next hl => rw [entriesOf, if_pos hl]
    · next hl =>
      split
      · exact ih
      · next hname => rw [entriesOf, if_neg hl, if_neg hname, ih]

theorem chunks_batchLines (key : Key) (items : List Item) :
    chunks (batchLines key.text (pieces items)).flatten = batchLines key.text (pieces items) := by
  have hpiece : ∀ p ∈ batchLines key.text (pieces items), IsPiece lengthReadSize p := fun p hp =>
    isPiece_of_mem_pieces p ((batchLines_sublist _ _).subset hp)
  have hread := fgetsAll_pieces size_pos hpiece []
  rw [List.append_nil, fgetsAll_nil, List.append_nil] at hread
  exact hread

theorem readable_iff {v : Text} (hv : '\n' ∉ v) :
    entryValue ((v ++ ['\n']).take (room key)) = v ↔ Readable key v := by
  rw [entryValue_take hv (room_pos key), Readable]
  by_cases hnil : v = []
  · simp [hnil]
  · simp [hnil]

/-- The new lines are read back exactly when each of them can be. -/
theorem entriesOf_newText_iff (hkey : ']' ∉ key.text.tail) {vs : List Value}
    (hfit : ∀ v ∈ vs, key.text.length + v.val.length + 2 < argvSize) {t : Text}
    (ht : entriesOf key.text (chunks t) = []) :
    entriesOf key.text (chunks (newText key vs ++ t)) = vs.map (·.val) ↔
      ∀ v ∈ vs, Readable key v.val := by
  induction vs with
  | nil => simpa [newText] using ht
  | cons v vs ih =>
    obtain ⟨v, hline⟩ := v
    have hlen := hfit _ List.mem_cons_self
    dsimp only at hlen
    obtain ⟨i, rfl, rfl⟩ : ∃ i : Item, i.key = key ∧ i.value = v :=
      ⟨⟨key, v, hline, by omega⟩, rfl, rfl⟩
    have hchunks : chunks (newText i.key (⟨i.value, hline⟩ :: vs) ++ t) =
        linePieces i ++ chunks (newText i.key vs ++ t) := by
      rw [← chunks_line]
      simp [newText, Item.text]
    rw [hchunks, List.map_cons, List.forall_mem_cons,
      ← ih fun u hu => hfit u (List.mem_cons_of_mem _ hu)]
    constructor
    · intro h
      have hhead := h
      rw [linePieces_eq, List.cons_append, entriesOf, isHeader_key, if_neg (by simp),
        fieldName_key hkey, if_pos rfl, List.cons.injEq] at hhead
      have hvalue : Readable i.key i.value := by
        rw [← readable_iff i.newline_not_mem]
        simpa using hhead.1
      rw [entriesOf_line hvalue.2 hkey, if_pos rfl, List.cons.injEq] at h
      exact ⟨hvalue, h.2⟩
    · intro h
      obtain ⟨hvalue, hrest⟩ := h
      rw [entriesOf_line hvalue.2 hkey, if_pos rfl, if_neg hvalue.1, hrest]

end Entries

section Lines

variable {name : Name} {key : Key} {l t w w' : Text} {items : List Item}

theorem otherLines_line (hl : '\n' ∉ l) (t : Text) : otherLines key (l ++ '\n' :: t) =
    (if key.text ++ ['='] <+: l then [] else [l]) ++ otherLines key t := by
  rw [otherLines, List.splitOn_append_cons_self_of_not_mem hl, List.filter_cons]
  by_cases h : key.text ++ ['='] <+: l
  · simp [otherLines, h]
  · simp [otherLines, h]

theorem not_prefix_bracket (key : Key) (u : Text) : ¬ key.text ++ ['='] <+: '[' :: u := by
  intro h
  obtain ⟨c, v, hc⟩ := List.exists_cons_of_ne_nil key.ne
  rw [hc] at h
  have hhead : c = '[' := (List.cons_prefix_cons.mp h).1
  exact key.bracket_not_mem (by simp [hc, hhead])

theorem otherLines_header (name : Name) (key : Key) (t : Text) :
    otherLines key (header name.text ++ t) = ('[' :: name.text ++ [']']) :: otherLines key t := by
  have htext : header name.text ++ t = ('[' :: name.text ++ [']']) ++ '\n' :: t := by
    simp [header]
  have hkey : ¬ key.text ++ ['='] <+: '[' :: name.text ++ [']'] := not_prefix_bracket key _
  rw [htext, otherLines_line name.header_newline, if_neg hkey]
  rfl

theorem otherLines_newText (key : Key) (vs : List Value) (t : Text) :
    otherLines key (newText key vs ++ t) = otherLines key t := by
  induction vs with
  | nil => rfl
  | cons v vs ih =>
    have hline : '\n' ∉ key.text ++ '=' :: v.val := by
      intro hm
      rcases List.mem_append.mp hm with hm | hm
      · exact key.newline_not_mem hm
      · rcases List.mem_cons.mp hm with hm | hm
        · cases hm
        · simpa using v.property _ hm
    have htext : newText key (v :: vs) ++ t =
        (key.text ++ '=' :: v.val) ++ '\n' :: (newText key vs ++ t) := by
      simp [newText]
    rw [htext, otherLines_line hline, if_pos ⟨v.val, by simp⟩, ih]
    rfl

def others (key : Key) (items : List Item) : List Item := items.filter (·.key ≠ key)

theorem prefix_text {i : Item} : key.text ++ ['='] <+: i.text ↔ i.key = key := by
  constructor
  · intro h
    obtain ⟨u, hu⟩ := h
    rw [List.append_assoc] at hu
    have hread := readTo_append i.key.eq_not_mem i.value
    rw [← Item.text, ← hu, List.singleton_append, readTo_append key.eq_not_mem, Option.some.injEq,
      Prod.mk.injEq] at hread
    exact Key.ext_iff'.mpr hread.1.symm
  · intro h
    exact ⟨i.value, by simp [Item.text, h]⟩

theorem otherLines_render (key : Key) (items : List Item) :
    otherLines key (render items) = (render (others key items)).splitOn '\n' := by
  induction items with
  | nil => simp [otherLines, others]
  | cons i items ih =>
    rw [render_cons, otherLines_line i.text_newline, ih]
    simp only [prefix_text]
    by_cases hi : i.key = key
    · simp [others, hi]
    · have hcons : others key (i :: items) = i :: others key items := by simp [others, hi]
      rw [if_neg hi, hcons, render_cons, List.splitOn_append_cons_self_of_not_mem i.text_newline]
      rfl

/-- `w'` is `w` without the lines of the key, none of which stands first. -/
def Strips (key : Key) (w w' : Text) : Prop :=
  otherLines key w = w'.splitOn '\n' ∧ ¬ key.text ++ ['='] <+: w

/-- A piece with another name starts no line of the key, whatever it continues and whatever
follows. -/
theorem strips_piece {p : Text} (hp : IsPiece lengthReadSize p) (hkey : ']' ∉ key.text.tail)
    (hname : fieldName p ≠ key.text) (h : Strips key w w') : Strips key (p ++ w) (p ++ w') := by
  have hnot : ¬ key.text ++ ['='] <+: p := by
    intro hstart
    obtain ⟨u, hu⟩ := hstart
    rw [List.append_assoc] at hu
    exact hname (hu ▸ fieldName_key hkey u)
  have hwhole : ¬ key.text ++ ['='] <+: p ++ w := by
    intro hstart
    rcases List.prefix_or_prefix_of_prefix hstart (List.prefix_append p w) with hk | hk
    · exact hnot hk
    · rcases hp with ⟨l, rfl, -, -⟩ | ⟨-, hfull⟩
      · have hmem : '\n' ∈ key.text ++ ['='] := hk.subset (by simp)
        simp [key.newline_not_mem] at hmem
      · have hlen := hk.length_le
        have hshort := key.short
        rw [hfull, List.length_append, List.length_singleton, lengthReadSize] at hlen
        omega
  refine ⟨?_, hwhole⟩
  rcases hp with ⟨l, rfl, hl, -⟩ | ⟨hl, -⟩
  · have hline : ¬ key.text ++ ['='] <+: l := fun hstart =>
      hnot (hstart.trans (List.prefix_append _ _))
    rw [List.append_assoc, List.append_assoc, List.singleton_append, List.singleton_append,
      otherLines_line hl, if_neg hline, h.1, List.splitOn_append_cons_self_of_not_mem hl]
    rfl
  · -- the piece is the start of the first line of what follows
    obtain ⟨first, rest, hw⟩ := List.exists_cons_of_ne_nil (List.splitOn_ne_nil '\n' w)
    have hsplit : (p ++ w).splitOn '\n' = (p ++ first) :: rest := by
      rw [splitOn_append hl, hw]
      rfl
    have hfirst : ¬ key.text ++ ['='] <+: first := fun hstart =>
      h.2 (hstart.trans (prefix_of_splitOn hw))
    have hjoined : ¬ key.text ++ ['='] <+: p ++ first := fun hstart =>
      hwhole (hstart.trans (prefix_of_splitOn hsplit))
    have hkeep : ∀ l, ¬ key.text ++ ['='] <+: l →
        (!(key.text ++ ['=']).isPrefixOf l) = true := by
      intro l hl
      rw [Bool.not_eq_true', Bool.eq_false_iff, ne_eq, List.isPrefixOf_iff_prefix]
      exact hl
    have hrest := h.1
    rw [otherLines, hw, List.filter_cons, if_pos (hkeep _ hfirst)] at hrest
    rw [otherLines, hsplit, List.filter_cons, if_pos (hkeep _ hjoined), splitOn_append hl, ← hrest]
    rfl

theorem strips_pieces {ps : List Text} (hps : ∀ p ∈ ps, IsPiece lengthReadSize p)
    (hkey : ']' ∉ key.text.tail) (hname : ∀ p ∈ ps, fieldName p ≠ key.text)
    (h : Strips key w w') : Strips key (ps.flatten ++ w) (ps.flatten ++ w') := by
  induction ps with
  | nil => exact h
  | cons p ps ih =>
    rw [List.flatten_cons, List.append_assoc, List.append_assoc]
    exact strips_piece (hps p List.mem_cons_self) hkey (hname p List.mem_cons_self)
      (ih (fun q hq => hps q (List.mem_cons_of_mem _ hq))
        fun q hq => hname q (List.mem_cons_of_mem _ hq))

end Lines

/-- In front of the first piece that looks like a header the pieces with the name of the key are
those of its lines, and that piece is none of them. -/
def Follows (key : Key) : List (Key × Text) → Prop
  | [] => True
  | q :: qs => if isHeader q.2 then q.1 ≠ key
    else (fieldName q.2 = key.text ↔ q.1 = key) ∧ Follows key qs

instance decidableFollows (key : Key) : (qs : List (Key × Text)) → Decidable (Follows key qs)
  | [] => inferInstanceAs (Decidable True)
  | q :: qs =>
    have := decidableFollows key qs
    inferInstanceAs (Decidable (if isHeader q.2 then q.1 ≠ key
      else (fieldName q.2 = key.text ↔ q.1 = key) ∧ Follows key qs))

section Follow

variable {key : Key} {items : List Item} {qs : List (Key × Text)}

theorem follows_append (h : ∀ q ∈ qs, isHeader q.2 = false) (key : Key)
    (rs : List (Key × Text)) :
    Follows key (qs ++ rs) ↔
      (∀ q ∈ qs, (fieldName q.2 = key.text ↔ q.1 = key)) ∧ Follows key rs := by
  induction qs with
  | nil => simp
  | cons q qs ih =>
    rw [List.cons_append, Follows, if_neg (by simp [h q List.mem_cons_self]),
      ih fun r hr => h r (List.mem_cons_of_mem _ hr), List.forall_mem_cons, and_assoc]

theorem batchLines_append {ps : List Text} (h : ∀ p ∈ ps, isHeader p = false) (key : Key)
    (ls : List Text) : batchLines key.text (ps ++ ls) =
      ps.filter (fieldName · ≠ key.text) ++ batchLines key.text ls := by
  induction ps with
  | nil => rfl
  | cons p ps ih =>
    have hrest := ih fun r hr => h r (List.mem_cons_of_mem _ hr)
    rw [List.cons_append, batchLines_cons, if_neg (by simp [h p List.mem_cons_self]), hrest]
    by_cases hp : fieldName p = key.text <;> simp [hp]

theorem owned_append (a b : List Item) : owned (a ++ b) = owned a ++ owned b := by
  simp [owned]

theorem pieces_others (key : Key) (items : List Item) :
    pieces (others key items) = ((owned items).filter (·.1 ≠ key)).map Prod.snd := by
  induction items with
  | nil => rfl
  | cons i items ih =>
    have hcons : owned (i :: items) = (linePieces i).map (fun p => (i.key, p)) ++ owned items := rfl
    rw [hcons, List.filter_append, List.map_append, ← ih]
    by_cases hi : i.key = key
    · have hothers : others key (i :: items) = others key items := by simp [others, hi]
      have hnone : ((linePieces i).map fun p => (i.key, p)).filter (·.1 ≠ key) = [] := by
        rw [List.filter_eq_nil_iff]
        simp [hi]
      rw [hothers, hnone]
      rfl
    · have hothers : others key (i :: items) = i :: others key items := by simp [others, hi]
      have hall : ((linePieces i).map fun p => (i.key, p)).filter (·.1 ≠ key) =
          (linePieces i).map fun p => (i.key, p) := by
        rw [List.filter_eq_self]
        simp [hi]
      rw [hothers, hall, pieces, List.flatMap_cons, ← pieces, List.map_map]
      simp [Function.comp_def]

/-- Two ways to filter a list leave the same only if they agree on every member. -/
theorem filter_eq_iff {qs : List (Key × Text)} :
    (qs.map Prod.snd).filter (fieldName · ≠ key.text) = (qs.filter (·.1 ≠ key)).map Prod.snd ↔
      ∀ q ∈ qs, (fieldName q.2 = key.text ↔ q.1 = key) := by
  rw [List.filter_map]
  constructor
  · intro h
    have hname : ∀ q ∈ qs, q.1 ≠ key → fieldName q.2 ≠ key.text := by
      intro q hq hk
      have hmem : q.2 ∈ (qs.filter (·.1 ≠ key)).map Prod.snd :=
        List.mem_map_of_mem (List.mem_filter.mpr ⟨hq, by simpa using hk⟩)
      rw [← h] at hmem
      obtain ⟨r, hr, hrq⟩ := List.mem_map.mp hmem
      simpa [← hrq] using (List.mem_filter.mp hr).2
    have hsub : qs.filter (·.1 ≠ key) =
        (qs.filter ((fieldName · ≠ key.text) ∘ Prod.snd)).filter (·.1 ≠ key) := by
      rw [List.filter_filter]
      refine List.filter_congr fun q hq => ?_
      by_cases hk : q.1 = key
      · simp [hk]
      · simp [hk, hname q hq hk]
    have hlen := congrArg List.length h
    rw [List.length_map, List.length_map, hsub] at hlen
    have hall := List.length_filter_eq_length_iff.mp hlen.symm
    intro q hq
    constructor
    · intro hn
      by_contra hk
      exact hname q hq hk hn
    · intro hk
      by_contra hn
      have hq' := hall q (List.mem_filter.mpr ⟨hq, by simpa using hn⟩)
      simp [hk] at hq'
  · intro h
    congr 1
    refine List.filter_congr fun q hq => ?_
    simp [h q hq]

/-- The first piece that looks like a header, with the line it is in. -/
theorem exists_header (items : List Item) :
    (∀ q ∈ owned items, isHeader q.2 = false) ∨
      ∃ before i after a h rest, items = before ++ i :: after ∧ linePieces i = a ++ h :: rest ∧
        isHeader h = true ∧
        ∀ q ∈ owned before ++ a.map fun p => (i.key, p), isHeader q.2 = false := by
  induction items with
  | nil => exact .inl (by simp [owned])
  | cons i items ih =>
    cases hdrop : (linePieces i).dropWhile (!isHeader ·) with
    | nil =>
      have hline : ∀ p ∈ linePieces i, isHeader p = false := by
        intro p hp
        simpa using List.dropWhile_eq_nil_iff.mp hdrop p hp
      have hcons : ∀ {qs : List (Key × Text)}, (∀ q ∈ qs, isHeader q.2 = false) →
          ∀ q ∈ (linePieces i).map (fun p => (i.key, p)) ++ qs, isHeader q.2 = false := by
        intro qs hqs q hq
        rcases List.mem_append.mp hq with hq | hq
        · obtain ⟨p, hp, rfl⟩ := List.mem_map.mp hq
          exact hline p hp
        · exact hqs q hq
      rcases ih with ih | ⟨before, j, after, a, h, rest, rfl, hj, hh, ha⟩
      · exact .inl (hcons ih)
      · refine .inr ⟨i :: before, j, after, a, h, rest, rfl, hj, hh, ?_⟩
        have hall := hcons ha
        rw [← List.append_assoc] at hall
        exact hall
    | cons h rest =>
      refine .inr ⟨[], i, items, (linePieces i).takeWhile (!isHeader ·), h, rest, rfl, ?_, ?_, ?_⟩
      · rw [← hdrop, List.takeWhile_append_dropWhile]
      · have hhead := List.head?_dropWhile_not (p := (!isHeader ·)) (linePieces i)
        simpa [hdrop] using hhead
      · intro q hq
        obtain ⟨p, hp, rfl⟩ := List.mem_map.mp hq
        simpa using List.mem_takeWhile_imp hp

theorem flatten_inj {ps rs : List Text} (hps : ∀ p ∈ ps, IsPiece lengthReadSize p)
    (hrs : ∀ p ∈ rs, IsPiece lengthReadSize p) : ps.flatten = rs.flatten ↔ ps = rs := by
  constructor
  · intro h
    have hleft := fgetsAll_pieces size_pos hps []
    have hright := fgetsAll_pieces size_pos hrs []
    rw [h, hright] at hleft
    exact (List.append_cancel_right hleft).symm
  · exact congrArg List.flatten

/-- The pieces in front of the first header, filtered by name, and what is left of the rest. -/
theorem keeps_iff (hkey : ']' ∉ key.text.tail) (hqs : ∀ q ∈ qs, IsPiece lengthReadSize q.2)
    {w w' : Text} {ls : List Text} (hls : ∀ p ∈ ls, IsPiece lengthReadSize p)
    (hw' : w' = ls.flatten) (hw : Strips key w w') (items : List Item) :
    otherLines key (((qs.map Prod.snd).filter (fieldName · ≠ key.text)).flatten ++ w) =
        (render (others key items)).splitOn '\n' ↔
      (qs.map Prod.snd).filter (fieldName · ≠ key.text) ++ ls = pieces (others key items) := by
  have hpiece : ∀ p ∈ (qs.map Prod.snd).filter (fieldName · ≠ key.text),
      IsPiece lengthReadSize p := by
    intro p hp
    obtain ⟨q, hq, rfl⟩ := List.mem_map.mp (List.mem_of_mem_filter hp)
    exact hqs q hq
  have hname : ∀ p ∈ (qs.map Prod.snd).filter (fieldName · ≠ key.text),
      fieldName p ≠ key.text := by
    intro p hp
    simpa using (List.mem_filter.mp hp).2
  rw [(strips_pieces hpiece hkey hname hw).1, hw', ← List.flatten_append, ← flatten_pieces,
    ← flatten_inj _ isPiece_of_mem_pieces]
  · exact ⟨splitOn_inj, congrArg _⟩
  · intro p hp
    rcases List.mem_append.mp hp with hp | hp
    · exact hpiece p hp
    · exact hls p hp

theorem isPiece_of_mem_owned (items : List Item) :
    ∀ q ∈ owned items, IsPiece lengthReadSize q.2 := by
  intro q hq
  exact isPiece_of_mem_pieces q.2 (owned_map items ▸ List.mem_map_of_mem hq)

/-- What is copied behind such a piece keeps every line but those of the key behind it. -/
theorem strips_header {i : Item} {a rest : List Text} {h : Text}
    (hline : linePieces i = a ++ h :: rest) (hh : isHeader h = true) (key : Key)
    (after : List Item) : Strips key ((h :: rest).flatten ++ render after)
      ((h :: rest).flatten ++ render (others key after)) := by
  obtain ⟨u, rfl⟩ : ∃ u, h = '[' :: u := by
    rw [isHeader, beq_iff_eq] at hh
    exact List.head?_eq_some_iff.mp hh
  have htext : a.flatten ++ (('[' :: u) :: rest).flatten = i.text ++ ['\n'] := by
    rw [← List.flatten_append, ← hline, linePieces, chunks, flatten_fgetsAll size_pos]
  obtain ⟨l, c, hl⟩ : ∃ l c, (('[' :: u) :: rest).flatten = l ++ [c] := by
    rcases List.eq_nil_or_concat (('[' :: u) :: rest).flatten with hnil | ⟨l, c, hl⟩
    · simp at hnil
    · exact ⟨l, c, by simpa using hl⟩
  rw [hl, ← List.append_assoc] at htext
  obtain ⟨hfront, hlast⟩ := List.append_inj' htext rfl
  obtain rfl : c = '\n' := by simpa using hlast
  have hnl : '\n' ∉ l := by
    intro hm
    exact i.text_newline (hfront ▸ List.mem_append_right _ hm)
  have hkey : ¬ key.text ++ ['='] <+: (('[' :: u) :: rest).flatten ++ render after :=
    not_prefix_bracket key _
  have hfirst : ¬ key.text ++ ['='] <+: l := by
    intro hstart
    apply hkey
    rw [hl, List.append_assoc]
    exact hstart.trans (List.prefix_append _ _)
  refine ⟨?_, hkey⟩
  rw [hl, List.append_assoc, List.append_assoc, List.singleton_append, List.singleton_append,
    otherLines_line hnl, if_neg hfirst, otherLines_render,
    List.splitOn_append_cons_self_of_not_mem hnl]
  rfl

theorem otherLines_batchLines_plain (hkey : ']' ∉ key.text.tail)
    (hnone : ∀ q ∈ owned items, isHeader q.2 = false) :
    otherLines key (batchLines key.text (pieces items)).flatten =
        (render (others key items)).splitOn '\n' ↔ Follows key (owned items) := by
  have hstop : Strips key [] [] := by
    refine ⟨by simp [otherLines], ?_⟩
    intro hstart
    simp at hstart
  have hplain : ∀ p ∈ pieces items, isHeader p = false := by
    intro p hp
    rw [← owned_map] at hp
    obtain ⟨q, hq, rfl⟩ := List.mem_map.mp hp
    exact hnone q hq
  have hbatch := batchLines_append hplain key []
  have hfollows := follows_append hnone key []
  rw [List.append_nil, batchLines, List.append_nil] at hbatch
  rw [List.append_nil, Follows, and_true] at hfollows
  have hkeeps := keeps_iff hkey (isPiece_of_mem_owned items) (List.forall_mem_nil _) rfl hstop
    items
  rw [owned_map, List.append_nil, List.append_nil] at hkeeps
  rw [hbatch, hkeeps, hfollows, ← filter_eq_iff, owned_map, pieces_others]

section Header

variable {before after : List Item} {i : Item} {h : Text} {a rest : List Text}

theorem owned_header (hline : linePieces i = a ++ h :: rest) (before after : List Item) :
    owned (before ++ i :: after) = (owned before ++ a.map fun p => (i.key, p)) ++
      (i.key, h) :: (rest.map (fun p => (i.key, p)) ++ owned after) := by
  have hcons : owned (i :: after) =
      (linePieces i).map (fun p => (i.key, p)) ++ owned after := rfl
  rw [owned_append, hcons, hline]
  simp

/-- From the first piece that looks like a header everything is copied. -/
theorem flatten_batchLines_header (hline : linePieces i = a ++ h :: rest) (hh : isHeader h = true)
    (ha : ∀ q ∈ owned before ++ a.map fun p => (i.key, p), isHeader q.2 = false) (key : Key)
    (after : List Item) :
    (batchLines key.text (pieces (before ++ i :: after))).flatten =
      (((owned before ++ a.map fun p => (i.key, p)).map Prod.snd).filter
        (fieldName · ≠ key.text)).flatten ++ ((h :: rest).flatten ++ render after) := by
  have hpieces : pieces (before ++ i :: after) =
      (owned before ++ a.map fun p => (i.key, p)).map Prod.snd ++ h :: (rest ++ pieces after) := by
    rw [← owned_map, owned_header hline, List.map_append]
    simp [owned_map, Function.comp_def]
  have hplain : ∀ p ∈ (owned before ++ a.map fun p => (i.key, p)).map Prod.snd,
      isHeader p = false := by
    intro p hp
    obtain ⟨q, hq, rfl⟩ := List.mem_map.mp hp
    exact ha q hq
  have hbatch := batchLines_append hplain key (h :: (rest ++ pieces after))
  rw [hpieces, hbatch, batchLines_cons, if_pos hh, List.flatten_append, ← flatten_pieces]
  simp

theorem filter_header_iff (hline : linePieces i = a ++ h :: rest) (hh : isHeader h = true)
    (ha : ∀ q ∈ owned before ++ a.map fun p => (i.key, p), isHeader q.2 = false) (key : Key)
    (after : List Item) :
    ((owned before ++ a.map fun p => (i.key, p)).map Prod.snd).filter (fieldName · ≠ key.text) ++
        ((h :: rest) ++ pieces (others key after)) =
      pieces (others key (before ++ i :: after)) ↔ Follows key (owned (before ++ i :: after)) := by
  have hothers : pieces (others key (before ++ i :: after)) =
      pieces (others key before) ++ ((if i.key = key then [] else linePieces i) ++
        pieces (others key after)) := by
    by_cases hi : i.key = key <;> simp [others, pieces, hi]
  have howners : ((owned before ++ a.map fun p => (i.key, p)).filter (·.1 ≠ key)).map Prod.snd =
      pieces (others key before) ++ if i.key = key then [] else a := by
    rw [List.filter_append, List.map_append, ← pieces_others, List.filter_map]
    by_cases hi : i.key = key <;> simp [hi, Function.comp_def]
  rw [owned_header hline, follows_append ha, Follows, if_pos hh, ← filter_eq_iff, hothers, howners]
  by_cases hi : i.key = key
  · -- the header piece would have to be one of those in front of it
    rw [if_pos hi, List.nil_append, ← List.append_assoc, List.append_cancel_right_eq]
    refine iff_of_false ?_ (fun hc => hc.2 hi)
    intro heq
    have hmem : h ∈ pieces (others key before) := by
      rw [← heq]
      simp
    rw [pieces_others] at hmem
    obtain ⟨q, hq, rfl⟩ := List.mem_map.mp hmem
    have hfalse := ha q (List.mem_append_left _ (List.mem_of_mem_filter hq))
    rw [hh] at hfalse
    cases hfalse
  · rw [if_neg hi, if_neg hi, hline, ← List.append_assoc, ← List.append_assoc,
      List.append_cancel_right_eq, ← List.append_assoc, List.append_cancel_right_eq]
    exact (and_iff_left hi).symm

end Header

theorem otherLines_batchLines_iff (hkey : ']' ∉ key.text.tail) (items : List Item) :
    otherLines key (batchLines key.text (pieces items)).flatten = otherLines key (render items) ↔
      Follows key (owned items) := by
  rw [otherLines_render]
  rcases exists_header items with hnone | ⟨before, i, after, a, h, rest, rfl, hline, hh, ha⟩
  · exact otherLines_batchLines_plain hkey hnone
  · have hpiece : ∀ q ∈ owned before ++ a.map fun p => (i.key, p), IsPiece lengthReadSize q.2 := by
      intro q hq
      refine isPiece_of_mem_owned (before ++ i :: after) q ?_
      rw [owned_header hline]
      exact List.mem_append_left _ hq
    have hls : ∀ p ∈ (h :: rest) ++ pieces (others key after), IsPiece lengthReadSize p := by
      intro p hp
      rcases List.mem_append.mp hp with hp | hp
      · exact isPiece_of_mem_linePieces p (hline ▸ List.mem_append_right _ hp)
      · exact isPiece_of_mem_pieces p hp
    rw [flatten_batchLines_header hline hh ha, ← filter_header_iff hline hh ha]
    exact keeps_iff hkey hpiece hls (by rw [List.flatten_append, flatten_pieces])
      (strips_header hline hh key after) _

end Follow

/-- The update does what it is for when each new line has a value and fits one piece and the
pieces of the file show its lines as they are. A key with `]` behind its first character is never
found. -/
theorem update_replaces_lines_iff (name : Name) (items : List Item) (key : Key)
    (vs : List Value) : Updates name items key vs ↔
      (']' ∈ key.text.tail ∧ vs = []) ∨
      (']' ∉ key.text.tail ∧ (∀ v ∈ vs, Readable key v.val) ∧ Follows key (owned items)) := by
  have hlines : otherLines key (updated name key (newText key vs) items) =
        otherLines key (splitFile name items) ↔
      otherLines key (batchLines key.text (pieces items)).flatten =
        otherLines key (render items) := by
    rw [updated, splitFile, otherLines_header, otherLines_header, otherLines_newText]
    exact List.cons_inj_right _
  rw [updates_iff_texts, hlines]
  by_cases hkey : ']' ∈ key.text.tail
  · rw [entriesOf_bracket hkey, batchLines_bracket hkey, flatten_pieces]
    cases vs with
    | nil => simp [hkey]
    | cons v vs => simp [hkey]
  · rw [otherLines_batchLines_iff hkey]
    have hnone : entriesOf key.text (chunks (batchLines key.text (pieces items)).flatten) = [] := by
      rw [chunks_batchLines, entriesOf_batchLines]
    have hfits : (∀ v ∈ vs, Readable key v.val) →
        ∀ v ∈ vs, key.text.length + v.val.length + 2 < argvSize := by
      intro h v hv
      have hlen := (h v hv).2
      rw [room, lengthReadSize] at hlen
      have hshort := key.short
      rw [argvSize]
      omega
    constructor
    · intro h
      obtain ⟨hfit, hentries, hfollows⟩ := h
      exact .inr ⟨hkey, (entriesOf_newText_iff hkey hfit hnone).mp hentries, hfollows⟩
    · intro h
      rcases h with ⟨hbracket, -⟩ | ⟨-, hread, hfollows⟩
      · exact absurd hbracket hkey
      · exact ⟨hfits hread, (entriesOf_newText_iff hkey (hfits hread) hnone).mpr hread, hfollows⟩

/-- An empty value comes back as a newline. -/
theorem empty_value_reads_as_newline :
    ((updateAndRead (nameOf "C") (keyOf "X") [⟨[], by simp⟩]).run exec
      (.single (.split "C".toList) (splitFile (nameOf "C") []))).map Prod.fst = some [['\n']] ∧
    ¬ Updates (nameOf "C") [] (keyOf "X") [⟨[], by simp⟩] := by
  have hrun : ((updateAndRead (nameOf "C") (keyOf "X") [⟨[], by simp⟩]).run exec
      (.single (.split "C".toList) (splitFile (nameOf "C") []))).map Prod.fst =
        some [['\n']] := by
    decide +kernel
  refine ⟨hrun, ?_⟩
  intro h
  obtain ⟨fs', t, hok, -, -⟩ :=
    h (.single (.split "C".toList) (splitFile (nameOf "C") [])) rfl (fun p => ⟨rfl, rfl⟩) rfl rfl
  rw [hok] at hrun
  cases hrun

end ConfigBatchUpdate
