import RouterFirmware.CString
import RouterFirmware.ConfigCommand

/-! # Batch access, splitting and merging

The functions that read whole files with `fgets`: the batch update and the batch reads of one
category, `splitDB`, which cuts the merged database into one file for each category, and
`MergeToRAM`, which puts it together again, built with `CONFIG_NK_DB_CHECKSUM`.
-/
namespace ConfigBatch

open TextStream CString SharedProgram ConfigDatabase ConfigScan ConfigEdit ConfigCommand

def lengthReadSize : ℕ := 768

def chunks (t : Text) : List Text := fgetsAll lengthReadSize t

/-- The loops that copy a name: the first character, whatever it is, and the following ones up
to `=` or `]`. -/
def fieldName : Text → Text
  | [] => []
  | c :: t => c :: t.takeWhile fun d => d != '=' && d != ']'

def headerName (line : Text) : Text := fieldName (line.drop 1)

def isHeader (line : Text) : Bool := line.head? == some '['

/-- The loop that copies a value: its first character, and the following ones of the line. -/
def entryValue : Text → Text
  | [] => []
  | c :: t => c :: t.takeWhile (· != '\n')

def putAll (p : Path) : List Text → FsProg Unit
  | [] => return ()
  | l :: ls => do
    put p l
    putAll p ls

/-- `kd_batch`. The scans do not stop at the end of the parameter, `sprintf` does not look at the
size of `DBsave`, and `fwrite` is called when `fopen` has failed, too. -/
def kdBatch (parm2 printBuf : Text) : FsProg Unit :=
  match readTo ' ' parm2 with
  | none => .halt .crash
  | some (dbField, r) =>
    match readTo '=' r with
    | none => .halt .crash
    | some (dbSubfield, _) =>
      if argvSize ≤ dbField.length ∨ argvSize ≤ dbSubfield.length + printBuf.length + 2 then
        .halt .crash
      else do
        if ← append .batch then put .batch (dbSubfield ++ '=' :: printBuf ++ ['\n'])
        else .halt .crash

/-- `Batch_config` inside the category, behind its header: lines with the key `subfeild` are
left out, up to the next header. -/
def batchLines (subfeild : Text) : List Text → List Text
  | [] => []
  | l :: ls => if isHeader l then l :: ls
    else if fieldName l = subfeild then batchLines subfeild ls
    else l :: batchLines subfeild ls

/-- `Batch_config` from the start of the file: the lines are copied, and behind the header of
the category the lines of `/tmp/kd_batch` are put in. -/
def batchConfigLoop (field subfeild : Text) : List Text → FsProg Unit
  | [] => return ()
  | l :: ls => do
    put .batchBackup l
    if isHeader l ∧ headerName l = field then do
      let new ← read .batch
      putAll .batchBackup (chunks (new.getD []))
      putAll .batchBackup (batchLines subfeild ls)
    else batchConfigLoop field subfeild ls

/-- `Batch_config`. A file that cannot be opened is used through a null pointer. -/
def batchConfig (field subfeild : Text) : FsProg Bool := do
  match ← read (.split field) with
  | none => .halt .crash
  | some text =>
    if ← create .batchBackup then
      batchConfigLoop field subfeild (chunks text)
      return true
    else .halt .crash

/-- `kdBatchUpdateDB`: the new file is put in place after the lock file has been removed. -/
def kdBatchUpdateDB (field subfeild : Text) : FsProg Bool := do
  lockOpen
  let result ← batchConfig field subfeild
  lockUnlink
  if result then
    rename .batchBackup (.split field)
    unlink .batch
    return result
  else return result

/-- The values of the lines with the key `subfield`, up to the next header. -/
def entriesOf (subfield : Text) : List Text → List Text
  | [] => []
  | l :: ls => if isHeader l then []
    else if fieldName l = subfield then
      entryValue (l.drop ((fieldName l).length + 1)) :: entriesOf subfield ls
    else entriesOf subfield ls

/-- The entries of the first category `field` in a file. -/
def categoryEntries (field subfield : Text) : List Text → List Text
  | [] => []
  | l :: ls => if isHeader l ∧ headerName l = field then entriesOf subfield ls
    else categoryEntries field subfield ls

/-- `BatchGet_config_m` fills its array in file order. The missing file is closed through a
null pointer after the lock file is gone. -/
def batchGetConfigM (field subfield : Text) : FsProg (List Text) := do
  lockOpen
  let src ← read (.split field)
  lockUnlink
  match src with
  | none => .halt .crash
  | some text => return categoryEntries field subfield (chunks text)

/-- `BatchGet_config` builds its list from the front, the last entry first. The head of the list
is the local variable `original_list`, whose address is returned. -/
def batchGetConfig (field subfield : Text) : FsProg (Address (List Text)) := do
  let originalList := (← batchGetConfigM field subfield).reverse
  return .ofLocal originalList

/-- The loops of `splitDB`; `dest` is the category whose file is open. When a file cannot be
created the loops end. -/
def splitLoop (dest : Option Text) : List Text → FsProg Unit
  | [] => return ()
  | l :: ls =>
    if isHeader l then do
      put .categoryList (headerName l ++ ['\n'])
      if ← create (.split (headerName l)) then
        put (.split (headerName l)) l
        splitLoop (some (headerName l)) ls
      else return ()
    else match dest with
      | none => splitLoop none ls
      | some name =>
        if l.head? = some '\n' then splitLoop dest ls
        else do
          put (.split name) l
          splitLoop dest ls

/-- `splitDB`. It returns without removing the lock file when the database or the list cannot
be opened. -/
def splitDB : FsProg Unit := do
  lockOpen
  match ← read .sysFile with
  | none => return ()
  | some text =>
    if ← create .categoryList then
      splitLoop none (chunks text)
      lockUnlink
    else return ()

/-- A character as the `char` it is, which is signed. -/
def signedChar (c : Char) : ℤ := if c.toNat < 128 then (c.toNat : ℤ) else c.toNat - 256

/-- `doSum`: the characters are added to an `unsigned int`. -/
def doSum (data : Text) : ℕ :=
  data.foldl (fun sum c => ((sum + signedChar c) % 2 ^ 32).toNat) 0

def checksumName : Text := "CHECKSUM".toList

def listName (line : Text) : Text := line.takeWhile fun c => c != ' ' && c != '\n'

/-- The loop of `MergeToRAM` over one category file: every piece that is read is added to the sum
and written out. -/
def mergeFile (sum : ℕ) : List Text → FsProg ℕ
  | [] => return sum
  | l :: ls => do
    put .newOne l
    mergeFile ((sum + doSum l) % 2 ^ 32) ls

/-- The loop of `MergeToRAM` over the category list, with the sum so far. `none` when a category
file is missing. -/
def mergeLoop (sum : ℕ) : List Text → FsProg (Option ℕ)
  | [] => return some sum
  | l :: ls => do
    match ← read (.split (listName l)) with
    | none => return none
    | some text =>
      if listName l = checksumName then mergeLoop sum ls
      else do
        let sum ← mergeFile sum (chunks text)
        put .newOne ['\n']
        mergeLoop ((sum + doSum ['\n']) % 2 ^ 32) ls

/-- `MergeToRAM`. The lock file is removed right after it was created, and once more at the
end. -/
def mergeToRAM : FsProg Bool := do
  lockOpen
  lockUnlink
  if ← create .newOne then
    match ← read .categoryList with
    | none => return false
    | some list =>
      match ← mergeLoop 0 (chunks list) with
      | none => return false
      | some sum =>
        put .newOne "[CHECKSUM]\n".toList
        put .newOne ("SUM=".toList ++ Nat.toDigits 10 sum ++ ['\n'])
        rename .newOne .sysFile
        lockUnlink
        return true
  else return false

/-- The entry points that use the lock, with their arguments. -/
inductive Call where
  | nkSysconfig (option argument : Text)
  | kdBatchUpdateDB (field subfeild : Text)
  | batchGetConfig (field subfield : Text)
  | batchGetConfigM (field subfield : Text)
  | splitDB
  | mergeToRAM
  deriving DecidableEq

inductive Reply where
  | command (result : Result) (out : Text)
  | flag (b : Bool)
  | entries (es : List Text)
  | list (address : Address (List Text))
  | void
  deriving DecidableEq

def Call.body (env : Externals) : Call → FsProg Reply
  | .nkSysconfig option argument => do
    let (result, out) ← ConfigCommand.nkSysconfig env option argument
    return .command result out
  | .kdBatchUpdateDB field subfeild =>
    return .flag (← ConfigBatch.kdBatchUpdateDB field subfeild)
  | .batchGetConfig field subfield =>
    return .list (← ConfigBatch.batchGetConfig field subfield)
  | .batchGetConfigM field subfield =>
    return .entries (← ConfigBatch.batchGetConfigM field subfield)
  | .splitDB => do
    ConfigBatch.splitDB
    return .void
  | .mergeToRAM => return .flag (← ConfigBatch.mergeToRAM)

end ConfigBatch
