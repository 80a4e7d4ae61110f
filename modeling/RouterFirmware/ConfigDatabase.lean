import RouterFirmware.TextStream
import RouterFirmware.LockProtocol

/-! # The files of the configuration database

The router keeps its configuration as text files under `/tmp`, one for each category in
`/tmp/splitDB`, and guards them by creating and unlinking `/tmp/test.txt`. Reading a file is
one step (open and read through the handle), writing is a step that opens it and steps that
add text to it. Category names are file names, so no path of the database is the lock file.
-/
namespace ConfigDatabase

open TextStream SharedProgram LockProtocol

/-- The files the database code names. `other` stands for files outside the database. -/
inductive Path where
  | stemp
  | split (name : Text)
  | categoryList
  | sysFile
  | backupSysFile
  | newOne
  | batch
  | batchBackup
  | resolvConf
  | other (name : Text)
  deriving DecidableEq

/-- `readable` and `writable` say for which files `fopen` with a read mode, and with a mode
that creates the file, can succeed. -/
structure FileSys where
  lockFile : Bool
  files : Path → Option Text
  readable : Path → Bool
  writable : Path → Bool

/-- The return codes of `kd_sys.c`; success is 0. -/
inductive Result where
  | ok
  | invalidComd
  | invalidGroup
  | catNotFound
  | itemNotFound
  | failToRead
  | failToOpen
  deriving DecidableEq, Repr

def Result.code : Result → ℕ
  | .ok => 0
  | .invalidComd => 2
  | .invalidGroup => 3
  | .catNotFound => 5
  | .itemNotFound => 6
  | .failToRead => 8
  | .failToOpen => 9

/-- File-system steps. `lockOpen` is `open("/tmp/test.txt", O_RDONLY | O_CREAT | O_EXCL)`,
`create` is `fopen` with mode `w` or `w+`, `append` with mode `a` or `a+`. -/
inductive FsOp where
  | lockOpen
  | lockUnlink
  | read (p : Path)
  | create (p : Path)
  | append (p : Path)
  | put (p : Path) (t : Text)
  | rename (p q : Path)
  | unlink (p : Path)

def FsOp.Res : FsOp → Type
  | .read _ => Option Text
  | .create _ => Bool
  | .append _ => Bool
  | _ => Unit

def FileSys.set (fs : FileSys) (p : Path) (t : Option Text) : FileSys :=
  { fs with files := Function.update fs.files p t }

@[simp] theorem FileSys.set_lockFile (fs : FileSys) (p : Path) (t : Option Text) :
    (fs.set p t).lockFile = fs.lockFile := rfl
@[simp] theorem FileSys.set_readable (fs : FileSys) (p : Path) (t : Option Text) :
    (fs.set p t).readable = fs.readable := rfl
@[simp] theorem FileSys.set_writable (fs : FileSys) (p : Path) (t : Option Text) :
    (fs.set p t).writable = fs.writable := rfl
@[simp] theorem FileSys.set_files_self (fs : FileSys) (p : Path) (t : Option Text) :
    (fs.set p t).files p = t := by simp [FileSys.set]
theorem FileSys.set_files_of_ne (fs : FileSys) {p q : Path} (t : Option Text) (h : q ≠ p) :
    (fs.set p t).files q = fs.files q := by simp [FileSys.set, h]

@[simp] theorem FileSys.set_set (fs : FileSys) (p : Path) (t u : Option Text) :
    (fs.set p t).set p u = fs.set p u := by simp [FileSys.set]

theorem FileSys.set_self {fs : FileSys} {p : Path} {t : Option Text} (h : fs.files p = t) :
    fs.set p t = fs := by
  rw [FileSys.set, ← h, Function.update_eq_self]

theorem FileSys.set_comm (fs : FileSys) {p q : Path} (h : p ≠ q) (t u : Option Text) :
    (fs.set p t).set q u = (fs.set q u).set p t := by
  simp only [FileSys.set]
  rw [Function.update_comm h]

/-- The new text of a file, moved there from `/tmp/stemp`. -/
def FileSys.install (fs : FileSys) (p : Path) (t : Text) : FileSys :=
  (fs.set .stemp none).set p (some t)

@[simp] theorem FileSys.install_files_self (fs : FileSys) (p : Path) (t : Text) :
    (fs.install p t).files p = some t := by simp [FileSys.install]

/-- What `fopen` with mode `r` or `r+` gives access to. -/
def FileSys.content (fs : FileSys) (p : Path) : Option Text :=
  if fs.readable p then fs.files p else none

theorem FileSys.content_set_of_ne (fs : FileSys) {p q : Path} (h : q ≠ p) (t : Option Text) :
    (fs.set p t).content q = fs.content q := by
  simp [FileSys.content, FileSys.set_files_of_ne _ _ h]

/-- A file system with one file, in which every `fopen` for writing succeeds. -/
def FileSys.single (p : Path) (t : Text) : FileSys where
  lockFile := false
  files q := if q = p then some t else none
  readable _ := true
  writable _ := true

@[simp] theorem FileSys.content_single (p : Path) (t : Text) :
    (FileSys.single p t).content p = some t := by simp [FileSys.single, FileSys.content]

/-- `open` with `O_EXCL` fails while the lock file is there and is tried again. `rename` of a
file that does not exist fails and changes nothing; no caller looks at its result. -/
def exec : (o : FsOp) → FileSys → Option (o.Res × FileSys)
  | .lockOpen, fs => if fs.lockFile then none else some ((), { fs with lockFile := true })
  | .lockUnlink, fs => some ((), { fs with lockFile := false })
  | .read p, fs => some (fs.content p, fs)
  | .create p, fs => some (fs.writable p, if fs.writable p then fs.set p (some []) else fs)
  | .append p, fs =>
    some (fs.writable p, if fs.writable p then fs.set p (some ((fs.files p).getD [])) else fs)
  | .put p t, fs => some ((), fs.set p ((fs.files p).map (· ++ t)))
  | .rename p q, fs => some ((), match fs.files p with
    | none => fs
    | some t => (fs.set p none).set q (some t))
  | .unlink p, fs => some ((), fs.set p none)

abbrev FsProg := Prog FsOp FsOp.Res

def lockOpen : FsProg Unit := .step .lockOpen .ret
def lockUnlink : FsProg Unit := .step .lockUnlink .ret
def read (p : Path) : FsProg (Option Text) := .step (.read p) .ret
def create (p : Path) : FsProg Bool := .step (.create p) .ret
def append (p : Path) : FsProg Bool := .step (.append p) .ret
def put (p : Path) (t : Text) : FsProg Unit := .step (.put p t) .ret
def rename (p q : Path) : FsProg Unit := .step (.rename p q) .ret
def unlink (p : Path) : FsProg Unit := .step (.unlink p) .ret

section Run

variable {α : Type} (fs : FileSys) (p q : Path)

@[simp] theorem run_read_bind (f : Option Text → FsProg α) :
    (read p >>= f).run exec fs = (f (fs.content p)).run exec fs := rfl

theorem run_create_bind (f : Bool → FsProg α) :
    (create p >>= f).run exec fs =
      (f (fs.writable p)).run exec (if fs.writable p then fs.set p (some []) else fs) := rfl

theorem run_append_bind (f : Bool → FsProg α) :
    (append p >>= f).run exec fs = (f (fs.writable p)).run exec
      (if fs.writable p then fs.set p (some ((fs.files p).getD [])) else fs) := rfl

theorem run_put (t : Text) :
    (put p t).run exec fs = some ((), fs.set p ((fs.files p).map (· ++ t))) := rfl

theorem run_put_bind (t : Text) (f : Unit → FsProg α) :
    (put p t >>= f).run exec fs =
      (f ()).run exec (fs.set p ((fs.files p).map (· ++ t))) := rfl

theorem run_rename_bind (f : Unit → FsProg α) :
    (rename p q >>= f).run exec fs =
      (f ()).run exec (match fs.files p with
        | none => fs
        | some t => (fs.set p none).set q (some t)) := rfl

theorem run_lockOpen_bind {fs : FileSys} (h : fs.lockFile = false) (f : Unit → FsProg α) :
    (lockOpen >>= f).run exec fs = (f ()).run exec { fs with lockFile := true } := by
  have hopen : exec .lockOpen fs = some ((), { fs with lockFile := true }) := by
    rw [exec, if_neg (by simp [h])]
    rfl
  change (exec .lockOpen fs).bind (fun p => (f p.1).run exec p.2) = _
  rw [hopen]
  rfl

theorem run_lockUnlink_bind (f : Unit → FsProg α) :
    (lockUnlink >>= f).run exec fs = (f ()).run exec { fs with lockFile := false } := rfl

end Run

/-- The files whose use the lock is there to protect. -/
def Path.isDatabase : Path → Bool
  | .split _ | .stemp | .batchBackup | .categoryList | .sysFile => true
  | _ => false

/-- The files a step names, the lock file apart. -/
def FsOp.paths : FsOp → List Path
  | .read p | .create p | .append p | .put p _ | .unlink p => [p]
  | .rename p q => [p, q]
  | .lockOpen | .lockUnlink => []

def FsOp.access : FsOp → Bool
  | .read p | .create p | .append p | .put p _ | .unlink p => p.isDatabase
  | .rename p q => p.isDatabase || q.isDatabase
  | .lockOpen | .lockUnlink => false

def FsOp.isLock : FsOp → Bool
  | .lockOpen | .lockUnlink => true
  | _ => false

theorem exec_lockFile {o : FsOp} {fs fs' : FileSys} {r : o.Res} (ho : o.isLock = false)
    (h : exec o fs = some (r, fs')) : fs'.lockFile = fs.lockFile := by
  cases o with
  | lockOpen => cases ho
  | lockUnlink => cases ho
  | read p => cases h; rfl
  | create p => cases h; split <;> rfl
  | append p => cases h; split <;> rfl
  | put p t => cases h; rfl
  | rename p q => cases h; split <;> rfl
  | unlink p => cases h; rfl

/-- A step does not see a change of a file it does not name. -/
theorem exec_set {q : Path} {o : FsOp} (h : ∀ p ∈ o.paths, p ≠ q) (fs : FileSys)
    (u : Option Text) : exec o (fs.set q u) = (exec o fs).map fun x => (x.1, x.2.set q u) := by
  cases o with
  | lockOpen =>
    obtain ⟨lockFile, files, readable, writable⟩ := fs
    cases lockFile <;> rfl
  | lockUnlink => rfl
  | read p =>
    have hp : p ≠ q := h p (by simp [FsOp.paths])
    simp [exec, FileSys.content_set_of_ne _ hp]
  | create p =>
    have hp : p ≠ q := h p (by simp [FsOp.paths])
    by_cases hw : fs.writable p <;> simp [exec, hw, FileSys.set_comm _ hp]
  | append p =>
    have hp : p ≠ q := h p (by simp [FsOp.paths])
    by_cases hw : fs.writable p <;>
      simp [exec, hw, FileSys.set_comm _ hp, FileSys.set_files_of_ne _ _ hp]
  | put p t =>
    have hp : p ≠ q := h p (by simp [FsOp.paths])
    simp [exec, FileSys.set_comm _ hp, FileSys.set_files_of_ne _ _ hp]
  | rename p p' =>
    have hp : p ≠ q := h p (by simp [FsOp.paths])
    have hp' : p' ≠ q := h p' (by simp [FsOp.paths])
    cases ht : fs.files p <;>
      simp [exec, ht, FileSys.set_comm _ hp, FileSys.set_comm _ hp', FileSys.set_files_of_ne _ _ hp]
  | unlink p =>
    have hp : p ≠ q := h p (by simp [FsOp.paths])
    simp [exec, FileSys.set_comm _ hp]

theorem exec_files {q : Path} {o : FsOp} {fs fs' : FileSys} {r : o.Res} (hq : q ∉ o.paths)
    (h : exec o fs = some (r, fs')) : fs'.files q = fs.files q := by
  have hset := exec_set (q := q) (o := o) (fun p hp he => hq (he ▸ hp)) fs (fs.files q)
  rw [FileSys.set_self rfl, h, Option.map_some, Option.some.injEq] at hset
  have hfs' : fs' = fs'.set q (fs.files q) := congrArg Prod.snd hset
  rw [hfs', FileSys.set_files_self]

/-- `/tmp/test.txt` as a lock. -/
def fileLock : Lock exec where
  acquire o := match o with
    | .lockOpen => true
    | _ => false
  release o := match o with
    | .lockUnlink => true
    | _ => false
  free fs := fs.lockFile = false
  acquire_free := by
    intro o fs r fs' ha h
    cases o <;> simp only [Bool.false_eq_true] at ha
    simp only [exec, Option.ite_none_left_eq_some, Option.some.injEq] at h
    obtain ⟨hfree, hnew⟩ := h
    cases hnew
    exact ⟨by simpa using hfree, by simp⟩
  release_free := by
    intro o fs r fs' hr h
    cases o <;> simp only [Bool.false_eq_true] at hr
    cases h; rfl
  distinct := by intro o ha hr; cases o <;> simp_all
  keep_free := by
    intro o fs r fs' ha hr h
    have ho : o.isLock = false := by cases o <;> simp_all [FsOp.isLock]
    rw [exec_lockFile ho h]

/-- A program without lock operations leaves the lock file as it was. -/
theorem run_lockFile {α : Type} {m : FsProg α} (hm : m.Uses fun o => o.isLock = false)
    {fs fs' : FileSys} {a : α} (h : m.run exec fs = some (a, fs')) :
    fs'.lockFile = fs.lockFile := by
  refine run_preserves (R := fun s t => t.lockFile = s.lockFile) (fun _ => rfl) ?_ ?_ hm h
  · intro s t u hst htu
    exact htu.trans hst
  · intro o s r t ho hx
    exact exec_lockFile ho hx

end ConfigDatabase
