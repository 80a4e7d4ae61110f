import RouterFirmware.ConfigScan

/-! # Changing a database file

A change writes the new text to `/tmp/stemp` and renames that file over the old one.
-/
namespace ConfigEdit

open TextStream SharedProgram ConfigDatabase ConfigScan

/-- The part of the file in front of the stream `rest`. -/
def consumed (text rest : Text) : Text := text.take (text.length - rest.length)

/-- The loop of `insert_item` over the old value: it leaves behind the first newline at which
the number of double quotes read is even. At the end of the file it never leaves, since a
failed `fread` keeps the last character. `pre` and `behind` note adjacent quotes. -/
def skipValue (needDouble pre behind : ℕ) : Text → Option Text
  | [] => none
  | c :: t =>
    let needDouble' := if c = '"' then needDouble + 1 else needDouble
    let behind' := if c = '"' then (if pre = 1 then 1 else behind) else 0
    let pre' := if c = '"' then (if behind' = 0 then 1 else pre) else 0
    if (needDouble' = 0 ∨ needDouble' = 2 ∨ (needDouble' % 2 = 0 ∧ needDouble' > 2) ∨
        (behind' = 1 ∧ pre' = 1)) ∧ c = '\n' then some t
    else skipValue needDouble' pre' behind' t

/-- The loop from its start. At the end of the file the first `fread` fails and the newline that
was put into the buffer before the loop ends it. -/
def skipOld : Text → Option Text
  | [] => some []
  | c :: t => skipValue 0 0 0 (c :: t)

/-- One turn of a copy loop: a second newline in a row is dropped. `remove_item`, unlike
`insert_item` in this build, starts a new line before each `[`. -/
def copyChar (bracket : Bool) (newline c : Char) : Text :=
  if bracket ∧ c = '[' then ['\n', '[']
  else if newline = '\n' ∧ c = '\n' then []
  else [c]

/-- The loop `while (!feof(handle))` over the rest of the file. The end of the file shows only
after one more turn, in which `tmp` still is the last character. -/
def copyRest (bracket : Bool) (newline tmp : Char) : Text → Text
  | [] => copyChar bracket newline tmp
  | c :: t => copyChar bracket newline c ++ copyRest bracket c c t

/-- The text `insert_item` writes: everything up to the position, the item, and the rest of
the file, with `flag` without the old value. `none` when it does not come to an end. -/
def insertText (text rest item : Text) (flag : Bool) : Option Text :=
  (if flag then skipOld rest else some rest).map fun tail =>
    consumed text rest ++ item ++ copyRest false '\n' '\n' tail

def insertItem (text rest item : Text) (flag : Bool) : FsProg Result := do
  if ← create .stemp then
    match insertText text rest item flag with
    | none => .halt .hang
    | some out => do
      put .stemp out
      return .ok
  else return .failToOpen

/-- The text `remove_item` writes: the file without the line at the position. -/
def removeText (text rest : Text) : Option Text :=
  (readTo '\n' rest).map fun p => consumed text rest ++ copyRest true '\x00' '\n' p.2

def removeItem (text rest : Text) : FsProg Result := do
  if ← create .stemp then
    match removeText text rest with
    | none => .halt .hang
    | some out => do
      put .stemp out
      return .ok
  else return .failToOpen

/-- The rest of the file from the next `[` on, copied with the last character once more;
nothing when no `[` follows. -/
def copyFromBracket (t : Text) : Text :=
  match readTo '[' t with
  | none => []
  | some (_, r) => '[' :: r ++ [('[' :: r).getLast (by simp)]

def removeCategory (text rest : Text) : FsProg Result := do
  if ← create .stemp then
    put .stemp (consumed text rest ++ copyFromBracket (rest.drop 1))
    return .ok
  else return .failToOpen

/-- `set_config`. When the last search fails, `/tmp/stemp` is renamed over the file all the
same. -/
def setConfig (category item value : Text) (number : ℤ) (filename : Path) : FsProg Result := do
  match ← read filename with
  | none => return .failToOpen
  | some text =>
    match findCategory category text with
    | none => do
      rename .stemp filename
      return .catNotFound
    | some t =>
      match skipItems item (number - 1).toNat t with
      | none => return .itemNotFound
      | some t =>
        match findItem item t with
        | none => do
          rename .stemp filename
          return .itemNotFound
        | some r => do
          let result ← insertItem text r (value ++ ['\n']) true
          rename .stemp filename
          return result

def addConfig (category item value : Text) (filename : Path) : FsProg Result := do
  match ← read filename with
  | none => return .failToOpen
  | some text =>
    match findCategory category text with
    | none => do
      rename .stemp filename
      return .catNotFound
    | some t => do
      let result ← insertItem text (findLastItem item t t) (item ++ ['='] ++ value ++ ['\n']) false
      rename .stemp filename
      return result

end ConfigEdit
