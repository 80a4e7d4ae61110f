import RouterFirmware.ConfigMerge

/-! # The pieces of a category file

The batch functions read a category file with `fgets` and see a line in pieces of at most 767
characters. What they take for the key and the value of a line is right when the line fits one
piece and its key has no `]` behind its first character.
-/
namespace ConfigPieces

open TextStream SharedProgram ConfigDatabase ConfigScan ConfigFormat ConfigBatch ConfigMerge

def linePieces (i : Item) : List Text := chunks (i.text ++ ['\n'])

def pieces (items : List Item) : List Text := items.flatMap linePieces

def owned (items : List Item) : List (Key × Text) :=
  items.flatMap fun i => (linePieces i).map fun p => (i.key, p)

/-- What is left for the value in the first piece of a line. -/
def room (key : Key) : ℕ := lengthReadSize - 1 - (key.text.length + 1)

/-- The line fits one piece and has a value. -/
def Readable (key : Key) (value : Text) : Prop := value ≠ [] ∧ value.length ≤ room key

instance (key : Key) (value : Text) : Decidable (Readable key value) :=
  inferInstanceAs (Decidable (_ ∧ _))

section Pieces

variable {key : Key} {i : Item} {items : List Item}

theorem room_pos (key : Key) : 0 < room key := by
  have hkey := key.short
  simp only [room, lengthReadSize]
  omega

theorem chunks_line (i : Item) (t : Text) :
    chunks (i.text ++ '\n' :: t) = linePieces i ++ chunks t :=
  fgetsAll_line size_pos i.text_newline t

theorem chunks_render (items : List Item) (t : Text) :
    chunks (render items ++ t) = pieces items ++ chunks t := by
  induction items with
  | nil => rfl
  | cons i items ih =>
    rw [render_cons, List.append_assoc, List.cons_append, chunks_line, ih, pieces, pieces,
      List.flatMap_cons, List.append_assoc]

theorem chunks_splitFile (name : Name) (items : List Item) :
    chunks (splitFile name items) = header name.text :: pieces items := by
  have hrender := chunks_render items []
  rw [List.append_nil, chunks, chunks, fgetsAll_nil, List.append_nil] at hrender
  rw [splitFile, chunks_header, chunks, hrender]

theorem flatten_pieces (items : List Item) : (pieces items).flatten = render items := by
  induction items with
  | nil => rfl
  | cons i items ih =>
    rw [pieces, List.flatMap_cons, List.flatten_append, linePieces, chunks,
      flatten_fgetsAll size_pos, ← pieces, ih, render_cons, List.append_assoc]
    rfl

theorem owned_map (items : List Item) : (owned items).map Prod.snd = pieces items := by
  simp [owned, pieces, List.map_flatMap, Function.comp_def]

theorem isPiece_of_mem_linePieces : ∀ p ∈ linePieces i, IsPiece lengthReadSize p :=
  isPiece_of_mem_line size_pos i.text_newline

theorem isPiece_of_mem_pieces : ∀ p ∈ pieces items, IsPiece lengthReadSize p := by
  intro p hp
  obtain ⟨i, -, hi⟩ := List.mem_flatMap.mp hp
  exact isPiece_of_mem_linePieces p hi

/-- The first piece of a line holds its key and the start of its value. -/
theorem linePieces_eq (i : Item) :
    linePieces i = (i.key.text ++ '=' :: (i.value ++ ['\n']).take (room i.key)) ::
      chunks ((i.value ++ ['\n']).drop (room i.key)) := by
  have hkey := i.key.short
  have hlen : (i.key.text ++ ['=']).length ≤ lengthReadSize - 1 := by
    rw [List.length_append, List.length_singleton, lengthReadSize]
    omega
  have htext : i.text ++ ['\n'] = (i.key.text ++ ['=']) ++ (i.value ++ ['\n']) := by
    simp [Item.text]
  have hroom : lengthReadSize - 1 - (i.key.text ++ ['=']).length = room i.key := by
    rw [List.length_append, List.length_singleton, room]
  have htake : (i.text ++ ['\n']).take (lengthReadSize - 1) =
      i.key.text ++ '=' :: (i.value ++ ['\n']).take (room i.key) := by
    rw [htext, List.take_append, List.take_of_length_le hlen, hroom, List.append_assoc]
    rfl
  have hdrop : (i.text ++ ['\n']).drop (lengthReadSize - 1) =
      (i.value ++ ['\n']).drop (room i.key) := by
    rw [htext, List.drop_append, List.drop_of_length_le hlen, hroom, List.nil_append]
  rw [linePieces, chunks, fgetsAll_eq size_pos (by simp), readLine_line i.text_newline, htake,
    hdrop, chunks]

theorem isHeader_key (key : Key) (t : Text) : isHeader (key.text ++ t) = false := by
  obtain ⟨c, u, hc⟩ := List.exists_cons_of_ne_nil key.ne
  have hne : c ≠ '[' := by
    intro h
    exact key.bracket_not_mem (by simp [hc, h])
  simp [isHeader, hc, hne]

theorem fieldName_tail (l : Text) : ']' ∉ (fieldName l).tail := by
  cases l with
  | nil => simp [fieldName]
  | cons c t =>
    intro hm
    have hp := List.mem_takeWhile_imp hm
    simp at hp

theorem fieldName_key (h : ']' ∉ key.text.tail) (t : Text) :
    fieldName (key.text ++ '=' :: t) = key.text := by
  obtain ⟨c, u, hc⟩ := List.exists_cons_of_ne_nil key.ne
  rw [hc, List.tail_cons] at h
  have hu : ∀ d ∈ u, (d != '=' && d != ']') = true := by
    intro d hd
    have heq : d ≠ '=' := fun he => key.eq_not_mem (hc ▸ List.mem_cons_of_mem _ (he ▸ hd))
    have hbracket : d ≠ ']' := fun he => h (he ▸ hd)
    simp [heq, hbracket]
  rw [hc, List.cons_append, fieldName, List.takeWhile_append_of_pos hu]
  simp

/-- The blank piece behind a line that fills one. -/
theorem fieldName_blank (key : Key) : fieldName ['\n'] ≠ key.text := by
  intro h
  exact key.newline_not_mem (by simp [← h, fieldName])

theorem entryValue_take {v : Text} (hv : '\n' ∉ v) {n : ℕ} (hn : 0 < n) :
    entryValue ((v ++ ['\n']).take n) = if v = [] then ['\n'] else v.take n := by
  obtain ⟨n, rfl⟩ := Nat.exists_eq_succ_of_ne_zero hn.ne'
  cases v with
  | nil => simp [entryValue]
  | cons c v =>
    rw [List.mem_cons, not_or] at hv
    have hline : ∀ d ∈ v.take n, (d != '\n') = true := by
      intro d hd
      rw [bne_iff_ne]
      intro he
      exact hv.2 (he ▸ List.mem_of_mem_take hd)
    have htake : ((v ++ ['\n']).take n).takeWhile (· != '\n') = v.take n := by
      rw [List.take_append, List.takeWhile_append_of_pos hline]
      cases n - v.length <;> simp
    simp [entryValue, htake]

/-- A line that fits is read in one piece, or in two when it fills the first. -/
theorem linePieces_fit (h : i.value.length ≤ room i.key) :
    linePieces i = [i.text ++ ['\n']] ∨ linePieces i = [i.text, ['\n']] := by
  have hlen : i.text.length = i.key.text.length + 1 + i.value.length := by
    rw [Item.text, List.length_append, List.length_cons]
    omega
  have hkey := i.key.short
  rw [room, lengthReadSize] at h
  by_cases hshort : i.text.length < lengthReadSize - 1
  · left
    rw [linePieces, chunks, fgetsAll_short size_pos i.text_newline hshort, fgetsAll_nil]
  · right
    have hfull : lengthReadSize - 1 = i.text.length := by
      rw [lengthReadSize] at hshort ⊢
      omega
    have hblank : fgetsAll lengthReadSize ([] ++ ['\n']) = [[] ++ ['\n']] := by
      rw [fgetsAll_short size_pos (by simp) (by decide), fgetsAll_nil]
    rw [linePieces, chunks, fgetsAll_long size_pos i.text_newline hfull.le, hfull, List.take_length,
      List.drop_length, hblank]
    rfl

/-- A key with a `]` behind its first character is never the name of a piece. -/
theorem fieldName_ne (hkey : ']' ∈ key.text.tail) (l : Text) : fieldName l ≠ key.text := by
  intro h
  exact fieldName_tail l (h ▸ hkey)

theorem entriesOf_bracket (hkey : ']' ∈ key.text.tail) (ls : List Text) :
    entriesOf key.text ls = [] := by
  induction ls with
  | nil => rfl
  | cons l ls ih =>
    rw [entriesOf, if_neg (fieldName_ne hkey l), ih]
    exact ite_self _

/-- What the readers take from the lines of an item that fits. -/
theorem entriesOf_line (h : i.value.length ≤ room i.key) (hi : ']' ∉ i.key.text.tail)
    (ls : List Text) : entriesOf key.text (linePieces i ++ ls) =
      if i.key = key then (if i.value = [] then ['\n'] else i.value) :: entriesOf key.text ls
      else entriesOf key.text ls := by
  have hvalue : entryValue ((i.value ++ ['\n']).take (room i.key)) =
      if i.value = [] then ['\n'] else i.value := by
    rw [entryValue_take i.newline_not_mem (room_pos _), List.take_of_length_le h]
  have hblank : entriesOf key.text (['\n'] :: ls) = entriesOf key.text ls := by
    rw [entriesOf, if_neg (by simp [isHeader]), if_neg (fieldName_blank key)]
  have hrest : entriesOf key.text (chunks ((i.value ++ ['\n']).drop (room i.key)) ++ ls) =
      entriesOf key.text ls := by
    have heq := linePieces_eq i
    rcases linePieces_fit h with hone | htwo
    · rw [hone, List.cons.injEq] at heq
      rw [← heq.2, List.nil_append]
    · rw [htwo, List.cons.injEq] at heq
      rw [← heq.2, List.singleton_append, hblank]
  rw [linePieces_eq, List.cons_append, entriesOf, isHeader_key, if_neg (by simp),
    fieldName_key hi, hrest]
  by_cases hk : i.key = key
  · have hdrop : (i.key.text ++ '=' :: (i.value ++ ['\n']).take (room i.key)).drop
        (i.key.text.length + 1) = (i.value ++ ['\n']).take (room i.key) := by
      simp
    rw [if_pos (congrArg Key.text hk), if_pos hk, hdrop, hvalue]
  · rw [if_neg (fun ht => hk (Key.ext_iff'.mpr ht)), if_neg hk]

end Pieces

section Run

variable {fs : FileSys} {name : Name} {key : Key} {t : Text}

theorem run_batchGetConfigM (hlock : fs.lockFile = false)
    (hfile : fs.content (.split name.text) = some t) :
    (batchGetConfigM name.text key.text).run exec fs =
      some (categoryEntries name.text key.text (chunks t), fs) := by
  have hback : ({ { fs with lockFile := true } with lockFile := false } : FileSys) = fs := by
    cases fs
    simp_all
  have hread : ({ fs with lockFile := true } : FileSys).content (.split name.text) = some t :=
    hfile
  rw [batchGetConfigM, run_lockOpen_bind hlock, run_read_bind, hread, run_lockUnlink_bind, hback]
  rfl

theorem categoryEntries_header (name : Name) (key : Key) (t : Text) :
    categoryEntries name.text key.text (chunks (header name.text ++ t)) =
      entriesOf key.text (chunks t) := by
  rw [chunks_header, categoryEntries, if_pos ⟨isHeader_header _, headerName_header _⟩]

end Run

end ConfigPieces
