import RouterFirmware.ConfigDatabase

/-! # Finding categories and items in a database file

The scanning functions of `kd_sys.c`, built without `SQUARE_BRACKET` and
`CONFIG_NK_USE_ORIGINAL_DB`. A file handle is the text ahead of it; a position in the file is
given by the text behind that position. The line buffers are taken to be large enough, as they
are for lines shorter than `ARGV_SIZE` with keys shorter than 127 characters.
-/
namespace ConfigScan

open TextStream ConfigDatabase

/-- `ARGV_SIZE`: commands, and so the lines they store, are shorter. -/
def argvSize : ℕ := 3000

/-- Up to the next line, or to the end of a last line without newline. -/
def skipLine (t : Text) : Text :=
  match readTo '\n' t with
  | none => []
  | some (_, r) => r

/-- `find_category`: the stream behind the line of the header `[category]`. Every `[` is taken
for a header, wherever it stands, and the name reaches to the next `]`. -/
def findCategory (category : Text) (t : Text) : Option Text :=
  match _h : readTo '[' t with
  | none => none
  | some (_, u) =>
    match _k : readTo ']' u with
    | none => none
    | some (name, v) => if name = category then some (skipLine v) else findCategory category v
termination_by t.length
decreasing_by exact (readTo_length _k).trans (readTo_length _h)

theorem findCategory_eq (category t : Text) : findCategory category t =
    (readTo '[' t).bind fun p => (readTo ']' p.2).bind fun q =>
      if q.1 = category then some (skipLine q.2) else findCategory category q.2 := by
  rw [findCategory]
  split
  · next h => simp [h]
  · next h => split <;> simp_all

/-- `find_item`: the stream behind the `=` of the next token whose part before `=` is `item`.
Tokens are separated by any white space, so a token may stand inside a value. -/
def findItem (item : Text) (t : Text) : Option Text :=
  match _h : fscanfString t with
  | none => none
  | some (token, r) =>
    match readTo '=' token with
    | none => findItem item r
    | some (key, value) => if key = item then some (value ++ r) else findItem item r
termination_by t.length
decreasing_by all_goals exact fscanfString_length _h

theorem findItem_eq (item t : Text) : findItem item t =
    (fscanfString t).bind fun p => ((readTo '=' p.1).bind fun q =>
      if q.1 = item then some (q.2 ++ p.2) else none).or (findItem item p.2) := by
  rw [findItem]
  split
  · next h => simp [h]
  · next h =>
    split
    · next hr => simp [h, hr]
    · next hr =>
      split
      · next hk => simp [h, hr, hk]
      · next hk => simp [h, hr, hk]

/-- `for (i = 1; i < number; i++) find_item(...)`, with `n` the number of turns. -/
def skipItems (item : Text) : ℕ → Text → Option Text
  | 0, t => some t
  | n + 1, t => (findItem item t).bind (skipItems item n)

/-- `get_item_value`: its result, `glvalue`, and the stream behind the line. Without a newline
it fails and cuts the last character off. -/
def getItemValue (t : Text) : Result × Text × Text :=
  match readTo '\n' t with
  | none => (.failToRead, t.dropLast, [])
  | some (value, r) => (.ok, value, r)

/-- `print_item_value`: what goes to the caller's buffer. -/
def printItemValue (t : Text) : Text :=
  match getItemValue t with
  | (.ok, value, _) => value
  | _ => "Fail to get item value\n".toList

def printConfig (text category item : Text) (idx : ℤ) : Result × Text :=
  match findCategory category text with
  | none => (.catNotFound, [])
  | some t =>
    match (skipItems item (idx - 1).toNat t).bind (findItem item) with
    | none => (.itemNotFound, [])
    | some r => (.ok, printItemValue r)

/-- `get_setting`, on the text of the file it opens. `none` is a null pointer. -/
def getSetting (text category item : Text) (number : ℤ) : Option Text :=
  match findCategory category text with
  | none => none
  | some t =>
    match (skipItems item (number - 1).toNat t).bind (findItem item) with
    | none => none
    | some r => match getItemValue r with
      | (.ok, value, _) => some value
      | _ => none

/-- The characters `find_last_item` keeps of a key. -/
def keyChar (c : Char) : Bool :=
  ('A' ≤ c && c ≤ 'Z') || c == '_' || ('0' ≤ c && c ≤ '9')

/-- Character by character up to `stop`. A `[` ends the scan, as the end of the file does; the
stream is then behind the `[`. -/
def readField (stop : Char) : Text → Except Text (Text × Text)
  | [] => .error []
  | c :: t =>
    if c = '[' then .error t
    else if c = stop then .ok ([], t)
    else (readField stop t).map fun p => (c :: p.1, p.2)

theorem readField_length {stop : Char} {t a b : Text} (h : readField stop t = .ok (a, b)) :
    b.length < t.length := by
  induction t generalizing a with
  | nil => simp [readField] at h
  | cons c t ih =>
    unfold readField at h
    split at h
    · cases h
    split at h
    · cases h; simp
    · cases hr : readField stop t with
      | error r => simp [hr, Except.map] at h
      | ok p =>
        simp only [hr, Except.map, Except.ok.injEq, Prod.mk.injEq] at h
        have := ih (a := p.1) (by rw [hr, ← h.2])
        simp only [List.length_cons]
        omega

theorem skipLine_length (t : Text) : (skipLine t).length ≤ t.length := by
  unfold skipLine
  split
  · simp
  · next h => exact (readTo_length h).le

/-- `find_last_item`, from the stream `t` with `position` already noted: the position behind
the last line with the key `item`, or the noted one. -/
def findLastItem (item : Text) (position t : Text) : Text :=
  match _h : readField '=' t with
  | .error _ => position
  | .ok (key, r) =>
    if key.filter keyChar = item then findLastItem item (skipLine r) (skipLine r)
    else match _k : readTo '\n' r with
      | none => position
      | some (_, u) => findLastItem item position u
termination_by t.length
decreasing_by
  · exact (skipLine_length r).trans_lt (readField_length _h)
  · exact (readTo_length _k).trans (readField_length _h)

theorem findLastItem_eq (item position t : Text) :
    findLastItem item position t = match readField '=' t with
      | .error _ => position
      | .ok (key, r) =>
        if key.filter keyChar = item then findLastItem item (skipLine r) (skipLine r)
        else match readTo '\n' r with
          | none => position
          | some (_, u) => findLastItem item position u := by
  rw [findLastItem]
  split
  · next h => rw [h]
  · next h =>
    rw [h]
    dsimp only
    split
    · rfl
    · split
      · next hr => rw [hr]
      · next hr => rw [hr]

def strcasecmp (a b : Text) : Bool := a.map Char.toLower == b.map Char.toLower

/-- `find_postion`: the start of the next line that matches `item`, by the text up to `=`, or by
the whole line when `flag` is 0. A failed search leaves the stream where it stopped. -/
def findPostion (item : Text) (flag : ℤ) (t : Text) : Except Text Text :=
  match _h : readField (if flag = 0 then '\n' else '=') t with
  | .error r => .error r
  | .ok (field, r) =>
    if strcasecmp item (if flag = 0 then field else field ++ ['=']) then .ok t
    else if flag = 0 then findPostion item flag r
    else match _k : readTo '\n' r with
      | none => .error []
      | some (_, u) => findPostion item flag u
termination_by t.length
decreasing_by
  · exact readField_length _h
  · exact (readTo_length _k).trans (readField_length _h)

theorem findPostion_eq (item : Text) {flag : ℤ} (hf : flag ≠ 0) (t : Text) :
    findPostion item flag t = match readField '=' t with
      | .error r => .error r
      | .ok (field, r) =>
        if strcasecmp item (field ++ ['=']) then .ok t
        else match readTo '\n' r with
          | none => .error []
          | some (_, u) => findPostion item flag u := by
  rw [findPostion]
  simp only [hf, if_false]
  split
  · next h =>
    rw [if_neg hf] at h
    rw [h]
  · next h =>
    rw [if_neg hf] at h
    rw [h]
    dsimp only
    split
    · rfl
    · split
      · next hr => rw [hr]
      · next hr => rw [hr]

/-- The loop of `move_to_item` with `n` turns left after this one. A failed search does not
end it: the rest of the line is skipped and the search goes on behind it. -/
def moveToItemLoop (item : Text) (number : ℤ) : ℕ → Text → Option Text
  | n, t =>
    let found := findPostion item number t
    let position := match found with
      | .ok u => some u
      | .error _ => none
    let handle := match found with
      | .ok u => u
      | .error u => u
    if number = 0 then position
    else match readTo '\n' handle with
      | none => none
      | some (_, u) => match n with
        | 0 => position
        | n + 1 => moveToItemLoop item number n u

/-- `move_to_item`: the position of the `number`-th matching line of the category. -/
def moveToItem (text category item : Text) (number : ℤ) : Option Text :=
  (findCategory category text).bind (moveToItemLoop item number (number - 1).toNat)

/-- `move_to_category`: back from behind the header line over the name, the brackets and the
newline. A seek to before the start of the file fails and does not move. -/
def moveToCategory (text category : Text) : Option Text :=
  (findCategory category text).map fun t =>
    if category.length + 3 ≤ text.length - t.length then
      text.drop (text.length - t.length - category.length - 3)
    else t

/-- `find_last_category_item`: whether `item` is there, and the stream it leaves. A token that
starts with `[` ends the search one character before that token. -/
def findLastCategoryItem (text item : Text) (t : Text) : Bool × Text :=
  match _h : fscanfString t with
  | none => (false, [])
  | some (token, r) =>
    if token.head? = some '[' then
      (false, text.drop (text.length - r.length - token.length - 1))
    else match readTo '=' token with
      | none => findLastCategoryItem text item r
      | some (key, value) =>
        if key = item then (true, value ++ r) else findLastCategoryItem text item r
termination_by t.length
decreasing_by all_goals exact fscanfString_length _h

end ConfigScan
