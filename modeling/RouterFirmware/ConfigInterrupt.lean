import RouterFirmware.ConfigDelete
import RouterFirmware.ConfigFootprint

/-! # Commands that fail, and commands that are killed

`set_config`, `add_config` and `nk_delete_setting` rename `/tmp/stemp` over the file also when
they have found nothing and written nothing. What a command that was killed has left there then
takes the place of the file.
-/
namespace ConfigInterrupt

open TextStream SharedProgram ConfigDatabase ConfigScan ConfigEdit ConfigFormat ConfigResolv
open ConfigCommand ConfigBatch ConfigFootprint
open ConfigDelete (noExternals)

/-- The file of one category, or the whole database, which the old interface changes. -/
inductive DbFile where
  | category (name : Text)
  | whole
  deriving DecidableEq

def DbFile.path : DbFile → Path
  | .category name => .split name
  | .whole => .sysFile

theorem DbFile.path_ne (f : DbFile) : f.path ≠ .stemp := by
  cases f <;> simp [DbFile.path]

/-- The functions that end with a rename. -/
inductive Update where
  | setConfig (category item value : Text) (number : ℤ) (file : DbFile)
  | addConfig (category item value : Text) (file : DbFile)
  | nkDeleteSetting (type : Text) (param : Option Text) (file : DbFile)
  deriving DecidableEq

def Update.prog : Update → FsProg Result
  | .setConfig category item value number file =>
    ConfigEdit.setConfig category item value number file.path
  | .addConfig category item value file => ConfigEdit.addConfig category item value file.path
  | .nkDeleteSetting type param file => ConfigCommand.nkDeleteSetting type param file.path

def Update.file : Update → Path
  | .setConfig _ _ _ _ file => file.path
  | .addConfig _ _ _ file => file.path
  | .nkDeleteSetting _ _ file => file.path

/-- A database command: an entry point, or one of the functions alone, as the old interface
calls them without the lock. -/
inductive Command where
  | call (c : Call)
  | update (u : Update)
  deriving DecidableEq

def Command.prog (env : Externals) : Command → FsProg Reply
  | .call c => c.body env
  | .update u => return .command (← u.prog) []

/-- The states reached by commands run one after another. A command may be killed between two
operations where it leaves a state in `K`. -/
inductive Reachable (env : Externals) (K : FileSys → Prop) (fs₀ : FileSys) : FileSys → Prop where
  | start : Reachable env K fs₀ fs₀
  | returned {fs fs' : FileSys} {r : Reply} (c : Command) : Reachable env K fs₀ fs →
      (c.prog env).run exec fs = some (r, fs') → Reachable env K fs₀ fs'
  | killed {fs : FileSys} (c : Command) (n : ℕ) : Reachable env K fs₀ fs →
      K ((c.prog env).after exec n fs) → Reachable env K fs₀ ((c.prog env).after exec n fs)

/-- No command has left its `/tmp/stemp` behind. -/
def Clean (fs : FileSys) : Prop := fs.files .stemp = none

/-- The call comes to its rename: the file can be read, and `set_config` does not return while
it skips items. -/
def Update.Renames : Update → FileSys → Prop
  | .setConfig category item _ number file, fs => ∃ text, fs.content file.path = some text ∧
    ∀ t, findCategory category text = some t → (skipItems item (number - 1).toNat t).isSome
  | .addConfig _ _ _ file, fs => (fs.content file.path).isSome
  | .nkDeleteSetting _ _ file, fs => (fs.content file.path).isSome

/-- A text other than the file's is in `/tmp/stemp`, and the call comes to its rename. -/
def Stale (u : Update) (fs : FileSys) : Prop :=
  ∃ t, fs.files .stemp = some t ∧ fs.files u.file ≠ some t ∧ u.Renames fs

section Failing

variable {fs fs' : FileSys} {p : Path} {r : Result}

/-- What `rename("/tmp/stemp", p)` leaves. -/
def moved (fs : FileSys) (p : Path) : FileSys :=
  match fs.files .stemp with
  | none => fs
  | some t => (fs.set .stemp none).set p (some t)

theorem moved_clean (hp : p ≠ .stemp) (fs : FileSys) : Clean (moved fs p) := by
  rw [Clean, moved]
  split
  · assumption
  · rw [FileSys.set_files_of_ne _ _ hp.symm, FileSys.set_files_self]

/-- A program that changes nothing unless it succeeds. -/
def Cautious (m : FsProg Result) : Prop :=
  ∀ fs r fs', m.run exec fs = some (r, fs') → r ≠ .ok → fs' = fs

theorem cautious_ret (r : Result) : Cautious (.ret r) := by
  intro fs r' fs' h _
  cases h
  rfl

/-- The functions that write `/tmp/stemp` fail only when they cannot create it. -/
theorem cautious_create (out : Option Text) :
    Cautious (do
      if ← create .stemp then
        match out with
        | none => .halt .hang
        | some out => do
          put .stemp out
          return .ok
      else return .failToOpen) := by
  intro fs r fs' h hr
  rw [run_create_bind] at h
  by_cases hw : fs.writable .stemp = true
  · rw [hw] at h
    cases out with
    | none => cases h
    | some out =>
      simp only [if_true] at h
      rw [run_put_bind] at h
      cases h
      exact absurd rfl hr
  · simp only [Bool.not_eq_true] at hw
    simp only [hw] at h
    cases h
    rfl

theorem cautious_insertItem (text rest item : Text) (flag : Bool) :
    Cautious (insertItem text rest item flag) := cautious_create _

theorem cautious_removeItem (text rest : Text) : Cautious (removeItem text rest) :=
  cautious_create _

theorem cautious_removeCategory (text rest : Text) : Cautious (removeCategory text rest) :=
  cautious_create (some _)

theorem run_finish_failed {m : FsProg Result} (hm : Cautious m)
    (h : (do let result ← m; rename .stemp p; return result : FsProg Result).run exec fs =
      some (r, fs')) (hr : r ≠ .ok) : fs' = moved fs p := by
  rw [run_bind, Option.bind_eq_some_iff] at h
  obtain ⟨⟨result, fs₁⟩, hrun, h⟩ := h
  rw [run_rename_bind] at h
  cases h
  rw [hm fs result fs₁ hrun hr]
  rfl

theorem setConfig_failed {category item value : Text} {number : ℤ} {file : DbFile}
    (h : (setConfig category item value number file.path).run exec fs = some (r, fs'))
    (hr : r ≠ .ok) :
    ((Update.setConfig category item value number file).Renames fs → fs' = moved fs file.path) ∧
    (¬ (Update.setConfig category item value number file).Renames fs → fs' = fs) := by
  rw [setConfig, run_read_bind] at h
  cases hread : fs.content file.path with
  | none =>
    rw [hread] at h
    cases h
    refine ⟨?_, fun _ => rfl⟩
    rintro ⟨text, htext, -⟩
    rw [hread] at htext
    cases htext
  | some text =>
    rw [hread] at h
    dsimp only at h
    cases hcat : findCategory category text with
    | none =>
      rw [hcat] at h
      cases h
      exact ⟨fun _ => rfl, fun hn => (hn ⟨text, hread, by simp [hcat]⟩).elim⟩
    | some t =>
      rw [hcat] at h
      dsimp only at h
      cases hskip : skipItems item (number - 1).toNat t with
      | none =>
        rw [hskip] at h
        cases h
        refine ⟨?_, fun _ => rfl⟩
        rintro ⟨text', hread', hskips⟩
        obtain rfl := Option.some.inj (hread.symm.trans hread')
        have hsome := hskips t hcat
        rw [hskip] at hsome
        cases hsome
      | some t' =>
        have hrenames : (Update.setConfig category item value number file).Renames fs := by
          refine ⟨text, hread, fun t₁ ht₁ => ?_⟩
          obtain rfl := Option.some.inj (hcat.symm.trans ht₁)
          rw [hskip]
          rfl
        refine ⟨fun _ => ?_, fun hn => (hn hrenames).elim⟩
        rw [hskip] at h
        dsimp only at h
        split at h
        · cases h
          rfl
        · exact run_finish_failed (cautious_insertItem _ _ _ _) h hr

/-- A failing call renames `/tmp/stemp` over the file, or does nothing. -/
theorem update_failed (u : Update) (h : u.prog.run exec fs = some (r, fs')) (hr : r ≠ .ok) :
    (u.Renames fs → fs' = moved fs u.file) ∧ (¬ u.Renames fs → fs' = fs) := by
  cases u with
  | setConfig category item value number file => exact setConfig_failed h hr
  | addConfig category item value file =>
    rw [Update.prog, addConfig, run_read_bind] at h
    cases hread : fs.content file.path with
    | none =>
      rw [hread] at h
      cases h
      exact ⟨fun hs => by simp [Update.Renames, hread] at hs, fun _ => rfl⟩
    | some text =>
      refine ⟨fun _ => ?_, fun hn => by simp [Update.Renames, hread] at hn⟩
      rw [hread] at h
      dsimp only at h
      split at h
      · cases h
        rfl
      · exact run_finish_failed (cautious_insertItem _ _ _ _) h hr
  | nkDeleteSetting type param file =>
    rw [Update.prog, nkDeleteSetting] at h
    split at h
    · cases h
    rw [run_read_bind] at h
    cases hread : fs.content file.path with
    | none =>
      rw [hread] at h
      cases h
      exact ⟨fun hs => by simp [Update.Renames, hread] at hs, fun _ => rfl⟩
    | some text =>
      refine ⟨fun _ => ?_, fun hn => by simp [Update.Renames, hread] at hn⟩
      rw [hread] at h
      dsimp only at h
      split at h
      · split at h
        · exact run_finish_failed (cautious_removeCategory _ _) h hr
        · exact run_finish_failed (cautious_ret _) h hr
      · split at h
        · cases h
        rw [deleteItem] at h
        split at h
        · exact run_finish_failed (cautious_removeItem _ _) h hr
        · exact run_finish_failed (cautious_ret _) h hr

/-- A failing call leaves its file exactly when it does not move a stale `/tmp/stemp` there. -/
theorem update_failed_iff (u : Update) (h : u.prog.run exec fs = some (r, fs')) (hr : r ≠ .ok) :
    fs'.files u.file = fs.files u.file ↔ ¬ Stale u fs := by
  obtain ⟨hrenames, hreturns⟩ := update_failed u h hr
  by_cases hu : u.Renames fs
  · rw [hrenames hu, moved]
    cases ht : fs.files .stemp with
    | none => simp [Stale, ht]
    | some t =>
      simp only [Stale, ht, FileSys.set_files_self, hu, and_true, Option.some.injEq,
        exists_eq_left', not_not]
      exact eq_comm
  · rw [hreturns hu]
    simp [Stale, hu]

end Failing

section Settling

variable {α β : Type} {p : Path}

/-- When it returns, the program has not left a `/tmp/stemp` behind. -/
def Settles (m : FsProg α) : Prop :=
  ∀ fs a fs', Clean fs → m.run exec fs = some (a, fs') → Clean fs'

theorem settles_ret (a : α) : Settles (.ret a : FsProg α) := by
  intro fs b fs' hfs h
  cases h
  exact hfs

theorem settles_halt (w : Halt) : Settles (.halt w : FsProg α) := by
  intro fs a fs' _ h
  cases h

theorem Settles.bind {m : FsProg α} {f : α → FsProg β} (hm : Settles m)
    (hf : ∀ a, Settles (f a)) : Settles (m >>= f) := by
  intro fs b fs' hfs h
  rw [run_bind, Option.bind_eq_some_iff] at h
  obtain ⟨⟨a, fs₁⟩, hrun, h⟩ := h
  exact hf a fs₁ b fs' (hm fs a fs₁ hfs hrun) h

theorem settles_of_uses {m : FsProg α} (hm : m.Uses fun o => .stemp ∉ o.paths) : Settles m := by
  intro fs a fs' hfs h
  have hkept : fs'.files .stemp = fs.files .stemp := by
    refine run_preserves (R := fun s t => t.files .stemp = s.files .stemp) (fun _ => rfl)
      ?_ ?_ hm h
    · intro s t u hst htu
      exact htu.trans hst
    · intro o s r t ho hx
      exact exec_files ho hx
  rw [Clean, hkept]
  exact hfs

theorem settles_apart {m : FsProg α} (hm : Apart m) : Settles m :=
  settles_of_uses (hm.mono fun _ ho hs => ho.2 _ hs rfl)

/-- Whatever the program wrote, the rename takes `/tmp/stemp` away. -/
theorem settles_finish (hp : p ≠ .stemp) {m : FsProg α} :
    Settles (do let a ← m; rename .stemp p; return a : FsProg α) := by
  intro fs a fs' _ h
  rw [run_bind, Option.bind_eq_some_iff] at h
  obtain ⟨⟨b, fs₁⟩, -, h⟩ := h
  rw [run_rename_bind] at h
  cases h
  exact moved_clean hp fs₁

theorem settlesRule (hp : p ≠ .stemp) : NewRule p fun _ m => Settles m where
  ret := settles_ret
  halt := settles_halt
  bind := Settles.bind
  read := settles_apart (within_read hp)
  finish _ := settles_finish hp
  create := settles_apart (within_create hp)
  append q hq := by
    apply settles_apart
    rcases hq with rfl | rfl
    · exact within_append hp
    · exact within_append (by simp)
  put q hq t := by
    apply settles_apart
    rcases hq with rfl | rfl
    · exact within_put (F := (· ≠ .stemp)) hp t
    · exact within_put (by simp) t

/-- The old interface and the generators move what they write to `/tmp/stemp` away again. -/
structure ExternalsSettle (env : Externals) : Prop where
  sysconfig : ∀ a b, Settles (env.sysconfig a b)
  createDb : ∀ t, Settles (env.createDb t)

variable {env : Externals}

theorem settles_nkProcessComd (henv : ExternalsSettle env) (hp : p ≠ .stemp) (cmd : Char)
    (type : Text) (paras : Option Text) : Settles (nkProcessComd env cmd type paras p) := by
  have hprint : ∀ flag, Settles (nkPrintSetting type paras flag p) := by
    intro flag
    refine settles_apart (within_nkPrintSetting _ _ _ ?_)
    cases flag
    · exact hp
    · simp
  have h := settlesRule hp
  unfold nkProcessComd
  split
  · refine .bind ?_ fun _ => settles_ret _
    rw [nkCreateDb]
    split
    · exact settles_apart apart_createResolv
    · exact henv.createDb type
  · exact .bind (h.nkNewSetting _ _) fun _ => settles_ret _
  · exact hprint true
  · exact hprint false
  · exact .bind (h.nkSetConfiguration _ _) fun _ => settles_ret _
  · exact .bind (h.nkModConfiguration _ _) fun _ => settles_ret _
  · exact .bind (h.nkDeleteSetting _ _) fun _ => settles_ret _
  · exact hprint false
  · exact settles_ret _

theorem settles_lockOpen : Settles lockOpen :=
  settles_of_uses ⟨by simp [FsOp.paths], fun _ => trivial⟩

theorem settles_lockUnlink : Settles lockUnlink :=
  settles_of_uses ⟨by simp [FsOp.paths], fun _ => trivial⟩

theorem settles_nkSysconfig (henv : ExternalsSettle env) (option argument : Text) :
    Settles (nkSysconfig env option argument) := by
  have hcommand : ∀ comd, Settles (runCommand env comd argument) := fun comd =>
    .bind (settles_nkProcessComd henv (by simp) _ _ _) fun _ => settles_ret _
  unfold nkSysconfig
  split
  · exact henv.sysconfig _ _
  split
  · exact settles_ret _
  extract_lets comd
  split
  · exact hcommand _
  · exact .bind settles_lockOpen fun _ => .bind (hcommand _) fun _ =>
      .bind settles_lockUnlink fun _ => settles_ret _

theorem settles_batchGetConfigM (field subfield : Text) :
    Settles (ConfigBatch.batchGetConfigM field subfield) := by
  refine .bind settles_lockOpen fun _ => .bind (settles_apart (within_read (by simp))) fun src =>
    .bind settles_lockUnlink fun _ => ?_
  split
  · exact settles_halt _
  · exact settles_ret _

theorem settles_kdBatchUpdateDB (field subfeild : Text) :
    Settles (ConfigBatch.kdBatchUpdateDB field subfeild) := by
  refine .bind settles_lockOpen fun _ => .bind (settles_apart (apart_batchConfig _ _)) fun result =>
    .bind settles_lockUnlink fun _ => ?_
  split
  · refine .bind (settles_apart (within_rename (by simp) (by simp))) fun _ => .bind ?_ fun _ =>
      settles_ret _
    exact settles_of_uses ⟨by simp [FsOp.paths], fun _ => trivial⟩
  · exact settles_ret _

theorem settles_splitDB : Settles ConfigBatch.splitDB := by
  refine .bind settles_lockOpen fun _ => .bind (settles_apart (within_read (by simp))) fun src => ?_
  split
  · exact settles_ret _
  refine .bind (settles_apart (within_create (by simp))) fun created => ?_
  split
  · exact .bind (settles_apart (apart_splitLoop _ _)) fun _ => settles_lockUnlink
  · exact settles_ret _

theorem settles_mergeToRAM : Settles ConfigBatch.mergeToRAM := by
  refine .bind settles_lockOpen fun _ => .bind settles_lockUnlink fun _ =>
    .bind (settles_apart (within_create (by simp))) fun created => ?_
  split
  · refine .bind (settles_apart (within_read (by simp))) fun list => ?_
    split
    · exact settles_ret _
    refine .bind (settles_apart (apart_mergeLoop _ _)) fun merged => ?_
    split
    · exact settles_ret _
    · exact .bind (settles_apart (within_put (by simp) _)) fun _ =>
        .bind (settles_apart (within_put (by simp) _)) fun _ =>
        .bind (settles_apart (within_rename (by simp) (by simp))) fun _ =>
        .bind settles_lockUnlink fun _ => settles_ret _
  · exact settles_ret _

/-- A command that returns leaves no `/tmp/stemp`. -/
theorem settles_command (henv : ExternalsSettle env) (c : Command) : Settles (c.prog env) := by
  cases c with
  | update u =>
    refine .bind ?_ fun _ => settles_ret _
    cases u with
    | setConfig category item value number file =>
      exact (settlesRule file.path_ne).setConfig _ _ _ _
    | addConfig category item value file => exact (settlesRule file.path_ne).addConfig _ _ _
    | nkDeleteSetting type param file => exact (settlesRule file.path_ne).nkDeleteSetting _ _
  | call c =>
    cases c with
    | nkSysconfig option argument =>
      exact .bind (settles_nkSysconfig henv option argument) fun _ => settles_ret _
    | kdBatchUpdateDB field subfeild =>
      exact .bind (settles_kdBatchUpdateDB field subfeild) fun _ => settles_ret _
    | batchGetConfig field subfield =>
      exact .bind (.bind (settles_batchGetConfigM field subfield) fun _ => settles_ret _) fun _ =>
        settles_ret _
    | batchGetConfigM field subfield =>
      exact .bind (settles_batchGetConfigM field subfield) fun _ => settles_ret _
    | splitDB => exact .bind settles_splitDB fun _ => settles_ret _
    | mergeToRAM => exact .bind settles_mergeToRAM fun _ => settles_ret _

/-- Where no command is killed between the creation of `/tmp/stemp` and the rename, none is ever
left behind. -/
theorem reachable_clean (henv : ExternalsSettle env) {fs₀ fs : FileSys} (h₀ : Clean fs₀)
    (h : Reachable env Clean fs₀ fs) : Clean fs := by
  induction h with
  | start => exact h₀
  | returned c _ hrun ih => exact settles_command henv c _ _ _ ih hrun
  | killed c n _ hk _ => exact hk

end Settling

/-- In every run from a state without `/tmp/stemp` in which no command is killed between creating
that file and renaming it, a call that fails leaves its file. In a state that any run reaches it
does so exactly when it does not rename a stale `/tmp/stemp`. -/
theorem failed_call_keeps_file (env : Externals) (henv : ExternalsSettle env) (fs₀ : FileSys)
    (h₀ : Clean fs₀) :
    (∀ fs, Reachable env Clean fs₀ fs → ∀ (u : Update) r fs',
      u.prog.run exec fs = some (r, fs') → r ≠ .ok → fs'.files u.file = fs.files u.file) ∧
    (∀ fs, Reachable env (fun _ => True) fs₀ fs → ∀ (u : Update) r fs',
      u.prog.run exec fs = some (r, fs') → r ≠ .ok →
        (fs'.files u.file = fs.files u.file ↔ ¬ Stale u fs)) := by
  constructor
  · intro fs hfs u r fs' hrun hr
    apply (update_failed_iff u hrun hr).mpr
    rintro ⟨t, ht, -⟩
    rw [show fs.files .stemp = none from reachable_clean henv h₀ hfs] at ht
    cases ht
  · intro fs _ u r fs' hrun hr
    exact update_failed_iff u hrun hr

/-- The database `[C]` and the file of a category `D`. -/
def twoFiles : FileSys :=
  (FileSys.single .sysFile "[C]\nX=1\n".toList).set (.split "D".toList)
    (some "[D]\nY=1\n".toList)

/-- `set_config("C", "X", "2", 1)` on the whole database. -/
def setX : Update := .setConfig "C".toList "X".toList "2".toList 1 .whole

/-- `set_config("D", "Z", "1", 1)`, for an item that is not there. -/
def setZ : Update := .setConfig "D".toList "Z".toList "1".toList 1 (.category "D".toList)

/-- A command killed before it creates `/tmp/stemp`. -/
theorem failed_call_keeps_file_after_read :
    let fs := ((Command.update setX).prog noExternals).after exec 1 twoFiles
    ∃ fs', setZ.prog.run exec fs = some (.itemNotFound, fs') ∧
      fs'.files (.split "D".toList) = fs.files (.split "D".toList) := by
  intro fs
  have hfails : (setZ.prog.run exec fs).map Prod.fst = some .itemNotFound := by decide +kernel
  obtain ⟨⟨r, fs'⟩, hrun, rfl⟩ := Option.map_eq_some_iff.mp hfails
  refine ⟨fs', hrun, ?_⟩
  exact (failed_call_keeps_file noExternals ⟨fun _ _ => settles_ret _, fun _ => settles_ret _⟩
    twoFiles rfl).1 fs (.killed _ 1 .start rfl) setZ _ fs' hrun (by decide)

/-- A command killed before its rename: the next one finds nothing, and the text of the killed one
takes the place of its file. -/
theorem failed_call_overwrites :
    let fs := ((Command.update setX).prog noExternals).after exec 3 twoFiles
    Clean twoFiles ∧ Reachable noExternals (fun _ => True) twoFiles fs ∧
    fs.files (.split "D".toList) = some "[D]\nY=1\n".toList ∧
    ∃ fs', setZ.prog.run exec fs = some (.itemNotFound, fs') ∧
      fs'.files (.split "D".toList) = some "[C]\nX=2\n".toList := by
  intro fs
  refine ⟨rfl, .killed _ 3 .start trivial, by decide +kernel, ?_⟩
  have hfails : (setZ.prog.run exec fs).map (fun p => (p.1, p.2.files (.split "D".toList))) =
      some (.itemNotFound, some "[C]\nX=2\n".toList) := by
    decide +kernel
  obtain ⟨⟨r, fs'⟩, hrun, h⟩ := Option.map_eq_some_iff.mp hfails
  obtain ⟨rfl, hfile⟩ := Prod.mk.inj h
  exact ⟨fs', hrun, hfile⟩

end ConfigInterrupt
