import RouterFirmware.ConfigDelete
import RouterFirmware.ConfigFootprint
import RouterFirmware.ConfigMerge

/-! # The category list

`splitDB` writes the names of the sections to `/tmp/category_list` and `nk_new_setting` appends
one to it; `MergeToRAM` copies the files in the order of the list. No command takes a name out
again, and deleting a whole category keeps its file, without its header.
-/
namespace ConfigCategoryList

open TextStream SharedProgram ConfigDatabase ConfigScan ConfigEdit ConfigFormat ConfigCommand
open ConfigBatch ConfigFootprint ConfigMerge
open ConfigDelete (noExternals)

/-- The commands that change a category, each on the file of its category. -/
inductive Command where
  | new (name : Name) (paras : Option Text)
  | write (category : Text) (paras : Option Text)
  | modify (category : Text) (paras : Option Text)
  | delete (category : Text) (paras : Option Text)
  deriving DecidableEq

def Command.prog (env : Externals) : Command → FsProg (Result × Text)
  | .new name paras => nkProcessComd env 'n' name.text paras (.split name.text)
  | .write category paras => nkProcessComd env 'w' category paras (.split category)
  | .modify category paras => nkProcessComd env 'm' category paras (.split category)
  | .delete category paras => nkProcessComd env 'd' category paras (.split category)

/-- The names in the header lines of a database, as `splitDB` reads them. -/
def sectionNames (text : Text) : List Text := ((chunks text).filter isHeader).map headerName

def fileOf (fs : FileSys) (name : Name) : Text := (fs.files (.split name.text)).getD []

/-- The list names the categories that have a file, each once. -/
structure Lists (fs : FileSys) (names : List Name) : Prop where
  list : fs.files .categoryList = some (listText names)
  once : names.Nodup
  files : ∀ t, (fs.files (.split t)).isSome ↔ ∃ n ∈ names, n.text = t

/-- The list is right, and `MergeToRAM` copies the file of each category once. -/
def Integrity (fs : FileSys) : Prop :=
  ∃ names, Lists fs names ∧ ∃ fs' sum, mergeToRAM.run exec fs = some (true, fs') ∧
    fs'.files .sysFile = some (mergedText names (fileOf fs) ++ checksumText sum)

/-- `nk_new_setting` does not come upon a file of its category that has lost the header. -/
def Headed : Command → FileSys → Prop
  | .new name _, fs => ∀ text, fs.files (.split name.text) = some text →
    (findCategory name.text text).isSome
  | _, _ => True

/-- No lock is held, and every file can be opened. -/
structure Open (fs : FileSys) : Prop where
  lock : fs.lockFile = false
  reads : ∀ p, fs.readable p = true
  writes : ∀ p, fs.writable p = true

theorem Open.content {fs : FileSys} (h : Open fs) (p : Path) : fs.content p = fs.files p := by
  rw [FileSys.content, if_pos (h.reads p)]

theorem integrity_of_lists {fs : FileSys} {names : List Name} (hopen : Open fs)
    (h : Lists fs names) : Integrity fs := by
  have hfile : ∀ n ∈ names, fs.files (.split n.text) = some (fileOf fs n) := by
    intro n hn
    obtain ⟨text, htext⟩ := Option.isSome_iff_exists.mp ((h.files n.text).mpr ⟨n, hn, rfl⟩)
    rw [fileOf, htext, Option.getD_some]
  exact ⟨names, h, run_mergeToRAM fs names (fileOf fs) hopen.lock
    (fun p => ⟨hopen.reads p, hopen.writes p⟩) h.list hfile⟩

theorem text_injective : Function.Injective Name.text := by
  intro a b h
  cases a
  cases b
  simp_all

theorem listText_injective {a b : List Name} (h : listText a = listText b) : a = b := by
  have hchunks := congrArg chunks h
  rw [chunks_listText, chunks_listText] at hchunks
  refine List.map_injective_iff.mpr (fun x y hxy => ?_) hchunks
  exact text_injective (List.append_cancel_right hxy)

section Split

/-- `fs'` is `fs` after sections with these names, `l` being the list so far. -/
structure SplitInto (fs fs' : FileSys) (l : Text) (names : List Name) : Prop where
  list : fs'.files .categoryList = some (l ++ listText names)
  files : ∀ t, (fs'.files (.split t)).isSome ↔
    (fs.files (.split t)).isSome ∨ ∃ n ∈ names, n.text = t
  reads : fs'.readable = fs.readable
  writes : fs'.writable = fs.writable

variable {fs fs' : FileSys} {l p : Text} {names : List Name} {name : Text} {n : Name}

/-- A line goes to the open file, which neither creates nor removes one. -/
theorem SplitInto.line
    (h : SplitInto (fs.set (.split name) ((fs.files (.split name)).map (· ++ p))) fs' l names) :
    SplitInto fs fs' l names := by
  refine ⟨h.list, ?_, h.reads, h.writes⟩
  intro t
  rw [h.files]
  by_cases ht : t = name
  · subst ht
    simp
  · rw [FileSys.set_files_of_ne _ _ (by simpa using ht)]

theorem SplitInto.header
    (h : SplitInto ((fs.set .categoryList (some (l ++ (n.text ++ ['\n'])))).set (.split n.text)
      (some p)) fs' (l ++ (n.text ++ ['\n'])) names) :
    SplitInto fs fs' l (n :: names) := by
  refine ⟨?_, ?_, h.reads, h.writes⟩
  · rw [h.list]
    simp [listText]
  · intro t
    rw [h.files]
    by_cases ht : t = n.text
    · subst ht
      simp
    · rw [FileSys.set_files_of_ne _ _ (by simpa using ht), FileSys.set_files_of_ne _ _ (by simp)]
      simp [Ne.symm ht]

/-- The loops of `splitDB` add the name of each header to the list and create its file. -/
theorem run_splitLoop_names (dest : Option Text) (fs : FileSys) {ls : List Text}
    (hls : (ls.filter isHeader).map headerName = names.map Name.text)
    (hw : ∀ p, fs.writable p = true) (hl : fs.files .categoryList = some l) :
    ∃ fs', (splitLoop dest ls).run exec fs = some ((), fs') ∧ SplitInto fs fs' l names := by
  induction ls generalizing dest fs names l with
  | nil =>
    obtain rfl : names = [] := by simpa using hls.symm
    exact ⟨fs, rfl, by simpa [listText] using hl, by simp, rfl, rfl⟩
  | cons p ls ih =>
    rw [splitLoop.eq_def]
    dsimp only
    by_cases hp : isHeader p = true
    · rw [List.filter_cons_of_pos hp, List.map_cons] at hls
      obtain ⟨n, rest, rfl, hn, hrest⟩ := List.map_eq_cons_iff.mp hls.symm
      obtain ⟨fs', hrun, hsplit⟩ := ih (some n.text)
        ((fs.set .categoryList (some (l ++ (n.text ++ ['\n'])))).set (.split n.text) (some p))
        hrest.symm hw (by rw [FileSys.set_files_of_ne _ _ (by simp), FileSys.set_files_self])
      refine ⟨fs', ?_, hsplit.header⟩
      rw [if_pos hp, ← hn, run_put_bind, hl, Option.map_some, run_create_bind]
      simp only [FileSys.set_writable, hw, if_true]
      rw [run_put_bind, FileSys.set_files_self, FileSys.set_set, Option.map_some]
      exact hrun
    · rw [List.filter_cons_of_neg hp] at hls
      rw [if_neg hp]
      cases dest with
      | none => exact ih none fs hls hw hl
      | some name =>
        dsimp only
        split
        · exact ih (some name) fs hls hw hl
        · obtain ⟨fs', hrun, hsplit⟩ := ih (some name)
            (fs.set (.split name) ((fs.files (.split name)).map (· ++ p))) hls hw
            (by rw [FileSys.set_files_of_ne _ _ (by simp), hl])
          exact ⟨fs', hrun, hsplit.line⟩

theorem run_splitDB_names {text : Text} (hopen : Open fs)
    (hfile : fs.files .sysFile = some text) (htext : sectionNames text = names.map Name.text)
    (honce : names.Nodup)
    (hold : ∀ t, (fs.files (.split t)).isSome → ∃ n ∈ names, n.text = t) :
    ∃ fs₀, splitDB.run exec fs = some ((), fs₀) ∧ Open fs₀ ∧ Lists fs₀ names := by
  obtain ⟨fs', hrun, hinto⟩ := run_splitLoop_names none
    ({ fs with lockFile := true }.set .categoryList (some [])) (l := []) htext hopen.writes
    (FileSys.set_files_self _ _ _)
  refine ⟨{ fs' with lockFile := false }, ?_, ⟨rfl, ?_, ?_⟩, ⟨hinto.list, honce, ?_⟩⟩
  · have hread : ({ fs with lockFile := true } : FileSys).content .sysFile = some text :=
      (hopen.content _).trans hfile
    rw [splitDB, run_lockOpen_bind hopen.lock, run_read_bind, hread]
    dsimp only
    rw [run_create_bind]
    simp only [hopen.writes, if_true]
    rw [run_bind, hrun]
    rfl
  · intro p
    rw [← hopen.reads p]
    exact congrFun hinto.reads p
  · intro p
    rw [← hopen.writes p]
    exact congrFun hinto.writes p
  · intro t
    rw [hinto.files t, FileSys.set_files_of_ne _ _ (by simp)]
    exact ⟨fun h => h.elim (hold t) id, Or.inr⟩

end Split

section Edit

variable {α : Type} {fs fs' : FileSys} {p : Path} {category : Text} {names : List Name}

/-- What a command that changes the file `p` can do: only `/tmp/stemp` and the text of the file
are different afterwards. -/
structure Edited (p : Path) (fs fs' : FileSys) : Prop where
  others : ∀ q, q ≠ .stemp → q ≠ p → fs'.files q = fs.files q
  present : (fs.files p).isSome → (fs'.files p).isSome
  lock : fs'.lockFile = fs.lockFile
  reads : fs'.readable = fs.readable
  writes : fs'.writable = fs.writable

theorem Edited.refl (p : Path) (fs : FileSys) : Edited p fs fs :=
  ⟨fun _ _ _ => rfl, id, rfl, rfl, rfl⟩

theorem Edited.trans {fs'' : FileSys} (h : Edited p fs fs') (h' : Edited p fs' fs'') :
    Edited p fs fs'' where
  others q hs hq := (h'.others q hs hq).trans (h.others q hs hq)
  present := h'.present ∘ h.present
  lock := h'.lock.trans h.lock
  reads := h'.reads.trans h.reads
  writes := h'.writes.trans h.writes

theorem edited_stemp (hp : p ≠ .stemp) (fs : FileSys) (t : Option Text) :
    Edited p fs (fs.set .stemp t) where
  others _ hs _ := FileSys.set_files_of_ne _ _ hs
  present := by rw [FileSys.set_files_of_ne _ _ hp]; exact id
  lock := rfl
  reads := rfl
  writes := rfl

theorem edited_file (fs : FileSys) (t : Text) : Edited p fs (fs.set p (some t)) where
  others _ _ hq := FileSys.set_files_of_ne _ _ hq
  present _ := by rw [FileSys.set_files_self]; rfl
  lock := rfl
  reads := rfl
  writes := rfl

theorem exec_edited (hp : p ≠ .stemp) {o : FsOp} {r : o.Res} (ho : Edits p o)
    (h : exec o fs = some (r, fs')) : Edited p fs fs' := by
  cases o with
  | read q => cases h; exact .refl p fs
  | create q =>
    obtain rfl : q = .stemp := ho
    cases h
    split
    · exact edited_stemp hp fs _
    · exact .refl p fs
  | put q t =>
    obtain rfl : q = .stemp := ho
    cases h
    exact edited_stemp hp fs _
  | rename q r =>
    obtain ⟨rfl, rfl⟩ := ho
    cases h
    split
    · exact .refl _ fs
    · exact (edited_stemp hp fs none).trans (edited_file _ _)
  | lockOpen => exact ho.elim
  | lockUnlink => exact ho.elim
  | append q => exact ho.elim
  | unlink q => exact ho.elim

theorem run_edited (hp : p ≠ .stemp) {m : FsProg α} {a : α} (hm : m.Uses (Edits p))
    (h : m.run exec fs = some (a, fs')) : Edited p fs fs' := by
  refine run_preserves (R := Edited p) (Edited.refl p) (fun _ _ _ => Edited.trans) ?_ hm h
  intro o s r t ho hx
  exact exec_edited hp ho hx

/-- A file that cannot be read is not created either. -/
def NeedsFile (p : Path) (m : FsProg α) : Prop :=
  ∀ fs a fs', fs.content p = none → m.run exec fs = some (a, fs') → fs' = fs

theorem needsFile_ret (a : α) : NeedsFile p (.ret a : FsProg α) := by
  intro fs b fs' _ h
  cases h
  rfl

theorem needsFile_halt (w : Halt) : NeedsFile p (.halt w : FsProg α) := by
  intro fs b fs' _ h
  cases h

theorem needsFile_read {f : Option Text → FsProg α} {a : α} (hf : f none = .ret a) :
    NeedsFile p (read p >>= f) := by
  intro fs b fs' hnone h
  rw [run_read_bind, hnone, hf] at h
  cases h
  rfl

theorem needsFile_nkSetConfiguration (type : Text) (param : Option Text) :
    NeedsFile p (nkSetConfiguration type param p) := by
  unfold nkSetConfiguration
  split
  · exact needsFile_ret _
  split
  · exact needsFile_ret _
  split
  · exact needsFile_halt _
  split
  · exact needsFile_halt _
  split
  · exact needsFile_read rfl
  · exact needsFile_read rfl

theorem needsFile_nkModConfiguration (type : Text) (param : Option Text) :
    NeedsFile p (nkModConfiguration type param p) := by
  unfold nkModConfiguration
  split
  · exact needsFile_ret _
  split
  · exact needsFile_ret _
  split
  · exact needsFile_halt _
  split
  · exact needsFile_halt _
  split
  · exact needsFile_halt _
  · exact needsFile_read rfl

theorem needsFile_nkDeleteSetting (category : Text) (param : Option Text) :
    NeedsFile p (nkDeleteSetting category param p) := by
  unfold nkDeleteSetting
  split
  · exact needsFile_halt _
  · exact needsFile_read rfl

/-- A command that changes a file that is there leaves the set of files and the list. -/
theorem lists_edited (hopen : Open fs) (h : Lists fs names) (he : Edited (.split category) fs fs')
    (hfile : (fs.files (.split category)).isSome) : Open fs' ∧ Lists fs' names := by
  refine ⟨⟨?_, ?_, ?_⟩, ⟨?_, h.once, ?_⟩⟩
  · rw [he.lock, hopen.lock]
  · rw [he.reads]
    exact hopen.reads
  · rw [he.writes]
    exact hopen.writes
  · rw [he.others _ (by simp) (by simp), h.list]
  · intro t
    rw [← h.files t]
    by_cases ht : t = category
    · subst ht
      exact ⟨fun _ => hfile, fun _ => he.present hfile⟩
    · rw [he.others _ (by simp) (by simpa using ht)]

theorem lists_of_edits {m : FsProg α} {a : α} (hm : m.Uses (Edits (.split category)))
    (hneeds : NeedsFile (.split category) m) (hopen : Open fs) (h : Lists fs names)
    (hrun : m.run exec fs = some (a, fs')) : Open fs' ∧ Lists fs' names := by
  cases hfile : fs.files (.split category) with
  | none =>
    obtain rfl := hneeds fs a fs' ((hopen.content _).trans hfile) hrun
    exact ⟨hopen, h⟩
  | some text =>
    exact lists_edited hopen h (run_edited (by simp) hm hrun) (by rw [hfile]; rfl)

end Edit

section New

variable {fs fs' : FileSys} {names : List Name} {name : Name}

theorem findCategory_nil (category : Text) : findCategory category [] = none := by
  rw [findCategory_eq]
  rfl

/-- What `nk_new_setting` leaves when the text of the file has no header of the category. -/
def enlisted (fs : FileSys) (name : Name) (text list param : Text) : FileSys :=
  (fs.set (.split name.text) (some (text ++
    (['\n', '['] ++ name.text ++ [']', '\n'] ++ param ++ ['\n'])))).set
    .categoryList (some (list ++ (name.text ++ ['\n'])))

/-- Without a header, in a file that may have been missing, `nk_new_setting` writes the header
and appends the name to the list. -/
theorem run_nkNewSetting_enlists (hopen : Open fs) {list : Text} (param : Text)
    (hlist : fs.files .categoryList = some list)
    (hnone : findCategory name.text (fileOf fs name) = none) :
    (nkNewSetting name.text (some param) (.split name.text)).run exec fs =
      some (.ok, enlisted fs name (fileOf fs name) list param) := by
  rw [nkNewSetting, run_read_bind, hopen.content]
  extract_lets next
  have hnext : ∀ fs₁ : FileSys, fs₁.writable = fs.writable →
      fs₁.files (.split name.text) = some (fileOf fs name) →
      fs₁.files .categoryList = some list →
      (next (some (fileOf fs name))).run exec fs₁ =
        some (.ok, enlisted fs₁ name (fileOf fs name) list param) := by
    intro fs₁ hw hf hl
    simp only [next, hnone]
    rw [run_append_bind]
    simp only [hw, hopen.writes, if_true]
    rw [hf, Option.getD_some, FileSys.set_self hf, run_put_bind, hf, Option.map_some,
      run_append_bind]
    simp only [FileSys.set_writable, hw, hopen.writes, if_true]
    have hl' : ∀ t, (fs₁.set (.split name.text) t).files .categoryList = some list := by
      intro t
      rw [FileSys.set_files_of_ne _ _ (by simp), hl]
    rw [hl', Option.getD_some, FileSys.set_self (hl' _), run_put_bind, hl', Option.map_some]
    rfl
  cases hf : fs.files (.split name.text) with
  | some text =>
    obtain rfl : fileOf fs name = text := by rw [fileOf, hf, Option.getD_some]
    exact hnext fs rfl hf hlist
  | none =>
    have hempty : fileOf fs name = [] := by rw [fileOf, hf, Option.getD_none]
    rw [hempty] at hnext ⊢
    dsimp only
    rw [run_create_bind]
    simp only [hopen.writes, if_true]
    rw [pure_def, ret_bind, hnext (fs.set (.split name.text) (some [])) rfl
      (FileSys.set_files_self _ _ _) (by rw [FileSys.set_files_of_ne _ _ (by simp), hlist]),
      enlisted, FileSys.set_set]
    rfl

theorem edited_nkNewSetting (hopen : Open fs) {text : Text} {param : Option Text} {r : Result}
    (hfile : fs.files (.split name.text) = some text)
    (hsome : (findCategory name.text text).isSome)
    (hrun : (nkNewSetting name.text param (.split name.text)).run exec fs = some (r, fs')) :
    Edited (.split name.text) fs fs' := by
  obtain ⟨t, ht⟩ := Option.isSome_iff_exists.mp hsome
  rw [nkNewSetting, run_read_bind, hopen.content, hfile] at hrun
  simp only [pure_def, ret_bind, ht] at hrun
  split at hrun
  · cases hrun
  · refine run_edited (by simp) ?_ hrun
    split
    · trivial
    split
    · trivial
    split
    · trivial
    · exact (editsRule _).finish (edits_insertItem _ _ _ _)
  · simp_all

theorem run_nkNewSetting_none (hopen : Open fs) :
    (nkNewSetting name.text none (.split name.text)).run exec fs = none := by
  rw [nkNewSetting, run_read_bind, hopen.content]
  cases hf : fs.files (.split name.text) with
  | some text =>
    simp only [pure_def, ret_bind]
    rfl
  | none =>
    dsimp only
    rw [run_create_bind]
    simp only [hopen.writes, if_true, pure_def, ret_bind]
    rfl

/-- The name that `nk_new_setting` appends is a new one, unless the file was there before. -/
theorem lists_enlisted (h : Lists fs names) (text param : Text)
    (hfile : fs.files (.split name.text) = none) :
    Lists (enlisted fs name text (listText names) param) (names ++ [name]) := by
  refine ⟨?_, ?_, ?_⟩
  · rw [enlisted, FileSys.set_files_self]
    simp [listText]
  · refine List.nodup_append.mpr ⟨h.once, by simp, ?_⟩
    rintro a ha b hb rfl
    obtain rfl := List.mem_singleton.mp hb
    have hthere := (h.files a.text).mpr ⟨a, ha, rfl⟩
    rw [hfile] at hthere
    cases hthere
  · intro t
    rw [enlisted, FileSys.set_files_of_ne _ _ (by simp)]
    by_cases ht : t = name.text
    · subst ht
      simp
    · rw [FileSys.set_files_of_ne _ _ (by simpa using ht), h.files t]
      simp [Ne.symm ht]

/-- With the file there already, the list names the category twice. -/
theorem not_integrity_enlisted (h : Lists fs names) (text param : Text)
    (hfile : (fs.files (.split name.text)).isSome) :
    ¬ Integrity (enlisted fs name text (listText names) param) := by
  rintro ⟨listed, hlisted, -⟩
  have hlist : listText listed = listText (names ++ [name]) := by
    have hl := hlisted.list
    rw [enlisted, FileSys.set_files_self, Option.some.injEq] at hl
    rw [← hl]
    simp [listText]
  have honce := listText_injective hlist ▸ hlisted.once
  obtain ⟨n, hn, htext⟩ := (h.files name.text).mp hfile
  obtain rfl := text_injective htext
  exact (List.nodup_append.mp honce).2.2 n hn n (List.mem_singleton_self n) rfl

theorem open_enlisted (hopen : Open fs) (text list param : Text) :
    Open (enlisted fs name text list param) :=
  ⟨hopen.lock, hopen.reads, hopen.writes⟩

theorem nkNewSetting_cases (hopen : Open fs) (h : Lists fs names) {param : Option Text}
    {r : Result}
    (hrun : (nkNewSetting name.text param (.split name.text)).run exec fs = some (r, fs')) :
    (∃ text, fs.files (.split name.text) = some text ∧ (findCategory name.text text).isSome ∧
      Edited (.split name.text) fs fs') ∨
    (findCategory name.text (fileOf fs name) = none ∧
      ∃ param, fs' = enlisted fs name (fileOf fs name) (listText names) param) := by
  cases hfind : findCategory name.text (fileOf fs name) with
  | some t =>
    cases hfile : fs.files (.split name.text) with
    | none =>
      rw [fileOf, hfile, Option.getD_none, findCategory_nil] at hfind
      cases hfind
    | some text =>
      rw [fileOf, hfile, Option.getD_some] at hfind
      have hsome : (findCategory name.text text).isSome := by rw [hfind]; rfl
      exact .inl ⟨text, rfl, hsome, edited_nkNewSetting hopen hfile hsome hrun⟩
  | none =>
    cases param with
    | none =>
      rw [run_nkNewSetting_none hopen] at hrun
      cases hrun
    | some param =>
      rw [run_nkNewSetting_enlists hopen param h.list hfind] at hrun
      cases hrun
      exact .inr ⟨rfl, param, rfl⟩

end New

section Run

variable {env : Externals} {fs fs' : FileSys} {names : List Name} {c : Command}
  {r : Result × Text}

/-- A command that changes one category returns what its function does. -/
theorem run_reply {m : FsProg Result}
    (h : (do return (← m, []) : FsProg (Result × Text)).run exec fs = some (r, fs')) :
    m.run exec fs = some (r.1, fs') := by
  rw [run_bind, Option.bind_eq_some_iff] at h
  obtain ⟨⟨result, fs₁⟩, hm, h⟩ := h
  cases h
  exact hm

/-- One command: the list stays right, with one more name at its end or none. -/
theorem step_lists (hopen : Open fs) (h : Lists fs names) (hc : Headed c fs)
    (hrun : (c.prog env).run exec fs = some (r, fs')) : Open fs' ∧ ∃ names', Lists fs' names' := by
  cases c with
  | new name paras =>
    rcases nkNewSetting_cases hopen h (run_reply hrun) with
      ⟨text, hfile, hsome, he⟩ | ⟨hnone, param, rfl⟩
    · obtain ⟨hopen', h'⟩ := lists_edited hopen h he (by rw [hfile]; rfl)
      exact ⟨hopen', names, h'⟩
    · refine ⟨open_enlisted hopen _ _ _, names ++ [name], lists_enlisted h _ _ ?_⟩
      cases hfile : fs.files (.split name.text) with
      | none => rfl
      | some text =>
        have hsome := hc text hfile
        rw [fileOf, hfile, Option.getD_some] at hnone
        rw [hnone] at hsome
        cases hsome
  | write category paras =>
    obtain ⟨hopen', h'⟩ := lists_of_edits ((editsRule _).nkSetConfiguration _ _)
      (needsFile_nkSetConfiguration _ _) hopen h (run_reply hrun)
    exact ⟨hopen', names, h'⟩
  | modify category paras =>
    obtain ⟨hopen', h'⟩ := lists_of_edits ((editsRule _).nkModConfiguration _ _)
      (needsFile_nkModConfiguration _ _) hopen h (run_reply hrun)
    exact ⟨hopen', names, h'⟩
  | delete category paras =>
    obtain ⟨hopen', h'⟩ := lists_of_edits ((editsRule _).nkDeleteSetting _ _)
      (needsFile_nkDeleteSetting _ _) hopen h (run_reply hrun)
    exact ⟨hopen', names, h'⟩

/-- A command that comes upon a file without its header breaks the list. -/
theorem headed_of_integrity (hopen : Open fs) (h : Lists fs names)
    (hrun : (c.prog env).run exec fs = some (r, fs')) (h' : Integrity fs') : Headed c fs := by
  cases c with
  | write category paras => trivial
  | modify category paras => trivial
  | delete category paras => trivial
  | new name paras =>
    intro text hfile
    rcases nkNewSetting_cases hopen h (run_reply hrun) with
      ⟨text', hfile', hsome, -⟩ | ⟨-, param, rfl⟩
    · rw [hfile] at hfile'
      obtain rfl := Option.some.inj hfile'
      exact hsome
    · exact (not_integrity_enlisted h _ _ (by rw [hfile]; rfl) h').elim

/-- From a split database with distinct section names, every run of commands in which
`nk_new_setting` never comes upon a file without its header keeps the category list right, and
the next command keeps it right exactly when it is one of these. -/
theorem category_list_integrity (env : Externals) (fs : FileSys) (text : Text)
    (names : List Name) (hopen : Open fs) (hfile : fs.files .sysFile = some text)
    (htext : sectionNames text = names.map Name.text) (honce : names.Nodup)
    (hold : ∀ t, (fs.files (.split t)).isSome → ∃ n ∈ names, n.text = t) :
    ∃ fs₀, splitDB.run exec fs = some ((), fs₀) ∧
      ∀ cmds rs fs₁, MeetsAll exec (Command.prog env) Headed cmds fs₀ →
        runAll exec (Command.prog env) cmds fs₀ = some (rs, fs₁) →
        Integrity fs₁ ∧ ∀ c r fs₂, (c.prog env).run exec fs₁ = some (r, fs₂) →
          (Integrity fs₂ ↔ Headed c fs₁) := by
  obtain ⟨fs₀, hsplit, hopen₀, h₀⟩ := run_splitDB_names hopen hfile htext honce hold
  refine ⟨fs₀, hsplit, ?_⟩
  intro cmds rs fs₁ hcmds hruns
  have hstep : ∀ c s r s', (Open s ∧ ∃ listed, Lists s listed) → Headed c s →
      (c.prog env).run exec s = some (r, s') → Open s' ∧ ∃ listed, Lists s' listed := by
    rintro c s r s' ⟨hs, listed, hl⟩ hc hrun
    exact step_lists hs hl hc hrun
  obtain ⟨hopen₁, listed, h₁⟩ := runAll_keeps hstep ⟨hopen₀, names, h₀⟩ hcmds hruns
  refine ⟨integrity_of_lists hopen₁ h₁, ?_⟩
  intro c r fs₂ hrun
  constructor
  · exact headed_of_integrity hopen₁ h₁ hrun
  · intro hc
    obtain ⟨hopen₂, listed₂, h₂⟩ := step_lists hopen₁ h₁ hc hrun
    exact integrity_of_lists hopen₂ h₂

/-- A database of two sections: after the deletion of one, a third is added. -/
theorem category_list_integrity_three_sections :
    let text := "[A]\nK=1\n[B]\nK=2\n".toList
    let cmds := [Command.delete "B".toList none, .new (nameOf "D") (some "X=1".toList)]
    ∃ fs₀ rs fs₁, splitDB.run exec (.single .sysFile text) = some ((), fs₀) ∧
      runAll exec (Command.prog noExternals) cmds fs₀ = some (rs, fs₁) ∧
      fs₁.files .categoryList = some "A\nB\nD\n".toList ∧ Integrity fs₁ := by
  intro text cmds
  obtain ⟨fs₀, hsplit, hruns⟩ := category_list_integrity noExternals (.single .sysFile text) text
    [nameOf "A", nameOf "B"] ⟨rfl, fun _ => rfl, fun _ => rfl⟩ rfl (by decide +kernel)
    (by decide) (by intro t ht; simp [FileSys.single] at ht)
  have hlist : ((splitDB.run exec (.single .sysFile text)).bind fun p =>
      (runAll exec (Command.prog noExternals) cmds p.2).map fun q => q.2.files .categoryList) =
      some (some "A\nB\nD\n".toList) := by
    decide +kernel
  have hnew : ((splitDB.run exec (.single .sysFile text)).bind fun p =>
      ((Command.delete "B".toList none).prog noExternals |>.run exec p.2).map fun q =>
        q.2.files (.split "D".toList)) = some none := by
    decide +kernel
  rw [hsplit, Option.bind_some] at hlist hnew
  obtain ⟨⟨rs, fs₁⟩, hrun, hlisted⟩ := Option.map_eq_some_iff.mp hlist
  refine ⟨fs₀, rs, fs₁, hsplit, hrun, hlisted, (hruns cmds rs fs₁ ?_ hrun).1⟩
  refine ⟨trivial, fun r s hdel => ⟨?_, fun _ _ _ => trivial⟩⟩
  rw [hdel, Option.map_some, Option.some.injEq] at hnew
  intro t ht
  exact absurd (ht.symm.trans hnew) (by simp)

/-- A category that is deleted and made again stands in the list twice, and `MergeToRAM` writes
its section twice. -/
theorem category_listed_twice :
    let text := "[C]\nX=1\n".toList
    let cmds := [Command.delete "C".toList none, .new (nameOf "C") (some "X=2".toList)]
    sectionNames text = ["C".toList] ∧
    ∃ fs₀ rs fs₁ fs₂, splitDB.run exec (.single .sysFile text) = some ((), fs₀) ∧
      runAll exec (Command.prog noExternals) cmds fs₀ = some (rs, fs₁) ∧
      fs₁.files .categoryList = some "C\nC\n".toList ∧ ¬ Integrity fs₁ ∧
      mergeToRAM.run exec fs₁ = some (true, fs₂) ∧
      fs₂.files .sysFile =
        some "\n[C]\nX=2\n\n\n[C]\nX=2\n\n[CHECKSUM]\nSUM=980\n".toList := by
  intro text cmds
  refine ⟨by decide +kernel, ?_⟩
  have hall : ((splitDB.run exec (.single .sysFile text)).bind fun p =>
      (runAll exec (Command.prog noExternals) cmds p.2).bind fun q =>
        (mergeToRAM.run exec q.2).map fun m =>
          (q.2.files .categoryList, m.1, m.2.files .sysFile)) =
      some (some "C\nC\n".toList, true,
        some "\n[C]\nX=2\n\n\n[C]\nX=2\n\n[CHECKSUM]\nSUM=980\n".toList) := by
    decide +kernel
  obtain ⟨⟨_, fs₀⟩, hsplit, h⟩ := Option.bind_eq_some_iff.mp hall
  obtain ⟨⟨rs, fs₁⟩, hrun, h⟩ := Option.bind_eq_some_iff.mp h
  obtain ⟨⟨_, fs₂⟩, hmerge, h⟩ := Option.map_eq_some_iff.mp h
  simp only [Prod.mk.injEq] at h
  obtain ⟨hlist, rfl, hmerged⟩ := h
  refine ⟨fs₀, rs, fs₁, fs₂, hsplit, hrun, hlist, ?_, hmerge, hmerged⟩
  rintro ⟨names, hnames, -⟩
  have htwice : listText names = listText [nameOf "C", nameOf "C"] :=
    Option.some.inj (hnames.list.symm.trans hlist)
  have honce := listText_injective htwice ▸ hnames.once
  revert honce
  decide

end Run

end ConfigCategoryList
