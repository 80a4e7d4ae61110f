import RouterFirmware.ConfigFormat
import RouterFirmware.ConfigBatch

/-! # Splitting the database and merging it again

`splitDB` and `MergeToRAM` read with `fgets` in pieces of 767 characters and tell headers and
blank lines by the first character of a piece. For lines whose pieces cannot be mistaken, the
two together keep every section but `CHECKSUM`, which is written anew behind the others.
-/
namespace ConfigMerge

open TextStream SharedProgram ConfigDatabase ConfigScan ConfigFormat ConfigBatch

/-- A line `KEY=value` of the merged database. -/
structure Line where
  text : Text
  first : ∃ c u, text = c :: u ∧ c.isAlphanum = true
  assign : '=' ∈ text
  chars : ∀ c ∈ text, c ∉ ['\n', '\x00']
  short : text.length < argvSize

/-- No piece of the line but the first starts with `[` or is the newline alone. -/
def Line.Safe (l : Line) : Prop :=
  ∀ k, (l.text ++ ['\n'])[(k + 1) * (lengthReadSize - 1)]? ∉ [some '[', some '\n']

/-- A section of the merged database, with the blank lines behind it. -/
structure Block where
  name : Name
  lines : List Line
  blank : ℕ

/-- The file of the section after `splitDB`. -/
def Block.file (b : Block) : Text :=
  header b.name.text ++ b.lines.flatMap fun l => l.text ++ ['\n']

def Block.text (b : Block) : Text := b.file ++ List.replicate b.blank '\n'

def blocksText (db : List Block) : Text := db.flatMap Block.text

section Pieces

theorem size_pos : 1 < lengthReadSize := by decide

theorem Line.newline_not_mem (l : Line) : '\n' ∉ l.text := fun h => by simpa using l.chars _ h

theorem chunks_header (name : Name) (t : Text) :
    chunks (header name.text ++ t) = header name.text :: chunks t := by
  have hshort : ('[' :: name.text ++ [']']).length < lengthReadSize - 1 := by
    have hname := name.short
    simp [lengthReadSize]
    omega
  have htext : header name.text ++ t = ('[' :: name.text ++ [']']) ++ '\n' :: t := by
    simp [header]
  rw [htext, chunks, fgetsAll_short size_pos name.header_newline hshort]
  simp [header, chunks]

theorem chunks_blank (k : ℕ) (t : Text) :
    chunks (List.replicate k '\n' ++ t) = List.replicate k ['\n'] ++ chunks t := by
  induction k with
  | zero => rfl
  | succ k ih =>
    rw [List.replicate_succ, List.cons_append, chunks,
      ← List.nil_append ('\n' :: (List.replicate k '\n' ++ t)),
      fgetsAll_short size_pos (by simp) (by decide)]
    exact congrArg _ ih

/-- The pieces of the lines of a section, none of which looks like a header or a blank line. -/
theorem chunks_lines {lines : List Line} (h : ∀ l ∈ lines, l.Safe) (t : Text) :
    ∃ ps, chunks (lines.flatMap (fun l => l.text ++ ['\n']) ++ t) = ps ++ chunks t ∧
      ps.flatten = lines.flatMap (fun l => l.text ++ ['\n']) ∧
      ∀ p ∈ ps, ∃ c u, p = c :: u ∧ c ≠ '[' ∧ c ≠ '\n' := by
  induction lines with
  | nil => exact ⟨[], by simp, rfl, by simp⟩
  | cons l lines ih =>
    obtain ⟨ps, hps, hflat, hgood⟩ := ih fun j hj => h j (List.mem_cons_of_mem _ hj)
    refine ⟨chunks (l.text ++ ['\n']) ++ ps, ?_, ?_, ?_⟩
    · have htext : (l :: lines).flatMap (fun l => l.text ++ ['\n']) ++ t =
          l.text ++ '\n' :: (lines.flatMap (fun l => l.text ++ ['\n']) ++ t) := by simp
      rw [htext, chunks, fgetsAll_line size_pos l.newline_not_mem, List.append_assoc, ← hps]
      rfl
    · rw [List.flatten_append, hflat, chunks, flatten_fgetsAll size_pos]
      simp
    · intro p hp
      rcases List.mem_append.mp hp with hp | hp
      · refine forall_fgetsAll_line size_pos l.newline_not_mem ?_ p hp
        intro k c hc
        cases k with
        | zero =>
          obtain ⟨d, u, hd, halpha⟩ := l.first
          have hcd : d = c := by simpa [hd] using hc
          subst hcd
          constructor <;> (rintro rfl; revert halpha; decide)
        | succ k =>
          have hsafe := h l List.mem_cons_self k
          rw [hc] at hsafe
          simpa using hsafe
      · exact hgood p hp

end Pieces

section Split

variable {fs : FileSys} {name t : Text} {rest : List Text}

theorem isHeader_header (name : Text) : isHeader (header name) = true := by simp [isHeader, header]

theorem headerName_header (name : Name) : headerName (header name.text) = name.text := by
  obtain ⟨c, u, hc⟩ := List.exists_cons_of_ne_nil name.ne
  have hu : ∀ d ∈ u, (d != '=' && d != ']') = true := by
    intro d hd
    have hd' := (name.chars d (by simp [hc, hd])).2
    simp only [List.mem_cons, not_or] at hd'
    simp [hd'.2.2.1, hd'.2.1]
  have htake : (u ++ [']', '\n']).takeWhile (fun d => d != '=' && d != ']') = u := by
    rw [List.takeWhile_append_of_pos hu]
    simp
  simpa [headerName, header, hc, fieldName] using htake

/-- Pieces of lines go to the file of the section. -/
theorem run_splitLoop_pieces {ps : List Text}
    (hps : ∀ p ∈ ps, ∃ c u, p = c :: u ∧ c ≠ '[' ∧ c ≠ '\n')
    (hf : fs.files (.split name) = some t) :
    (splitLoop (some name) (ps ++ rest)).run exec fs =
      (splitLoop (some name) rest).run exec (fs.set (.split name) (some (t ++ ps.flatten))) := by
  induction ps generalizing fs t with
  | nil => rw [List.flatten_nil, List.append_nil, FileSys.set_self hf, List.nil_append]
  | cons p ps ih =>
    obtain ⟨c, u, rfl, hc, hn⟩ := hps p List.mem_cons_self
    have hhead : isHeader (c :: u) = false := by simp [isHeader, hc]
    have hfirst : ¬ (c :: u).head? = some '\n' := by simp [hn]
    rw [List.cons_append, splitLoop, if_neg (by simp [hhead]), if_neg hfirst, run_put_bind, hf,
      Option.map_some,
      ih (fun q hq => hps q (List.mem_cons_of_mem _ hq)) (FileSys.set_files_self _ _ _),
      FileSys.set_set, List.flatten_cons, List.append_assoc]

theorem run_splitLoop_blank (k : ℕ) :
    (splitLoop (some name) (List.replicate k ['\n'] ++ rest)).run exec fs =
      (splitLoop (some name) rest).run exec fs := by
  induction k with
  | zero => rfl
  | succ k ih =>
    rw [List.replicate_succ, List.cons_append, splitLoop]
    simpa [isHeader] using ih

def store (fs : FileSys) (b : Block) : FileSys :=
  (fs.set .categoryList ((fs.files .categoryList).map (· ++ (b.name.text ++ ['\n'])))).set
    (.split b.name.text) (some b.file)

theorem run_splitLoop_block {dest : Option Text} {b : Block} (hb : ∀ l ∈ b.lines, l.Safe)
    (hw : fs.writable (.split b.name.text) = true) (u : Text) :
    (splitLoop dest (chunks (b.text ++ u))).run exec fs =
      (splitLoop (some b.name.text) (chunks u)).run exec (store fs b) := by
  obtain ⟨ps, hps, hflat, hgood⟩ := chunks_lines hb (List.replicate b.blank '\n' ++ u)
  have hchunks : chunks (b.text ++ u) =
      header b.name.text :: (ps ++ (List.replicate b.blank ['\n'] ++ chunks u)) := by
    rw [← chunks_blank, ← hps, ← chunks_header]
    simp [Block.text, Block.file]
  rw [hchunks, splitLoop.eq_def]
  dsimp only
  rw [if_pos (isHeader_header _), headerName_header, run_put_bind, run_create_bind]
  simp only [FileSys.set_writable, hw, if_true]
  rw [run_put_bind, FileSys.set_files_self, FileSys.set_set, Option.map_some,
    run_splitLoop_pieces hgood (FileSys.set_files_self _ _ _), run_splitLoop_blank,
    FileSys.set_set, hflat]
  rfl

theorem run_splitLoop (dest : Option Text) (fs : FileSys) {db : List Block}
    (hdb : ∀ b ∈ db, ∀ l ∈ b.lines, l.Safe)
    (hw : ∀ p, fs.writable p = true) :
    (splitLoop dest (chunks (blocksText db))).run exec fs = some ((), db.foldl store fs) := by
  induction db generalizing fs dest with
  | nil => simp [blocksText, chunks, fgetsAll_nil, splitLoop]
  | cons b db ih =>
    rw [blocksText, List.flatMap_cons, run_splitLoop_block (hdb b List.mem_cons_self) (hw _)]
    exact ih _ _ (fun c hc => hdb c (List.mem_cons_of_mem _ hc)) hw

theorem store_readable (db : List Block) (fs : FileSys) :
    (db.foldl store fs).readable = fs.readable := by
  induction db generalizing fs with
  | nil => rfl
  | cons b db ih => exact ih (store fs b)

theorem store_writable (db : List Block) (fs : FileSys) :
    (db.foldl store fs).writable = fs.writable := by
  induction db generalizing fs with
  | nil => rfl
  | cons b db ih => exact ih (store fs b)

theorem store_categoryList (db : List Block) (fs : FileSys) :
    (db.foldl store fs).files .categoryList = (fs.files .categoryList).map
      (· ++ db.flatMap fun b => b.name.text ++ ['\n']) := by
  induction db generalizing fs with
  | nil => simp
  | cons b db ih =>
    have hb : (store fs b).files .categoryList =
        (fs.files .categoryList).map (· ++ (b.name.text ++ ['\n'])) := by
      rw [store, FileSys.set_files_of_ne _ _ (by simp), FileSys.set_files_self]
    rw [List.foldl_cons, ih, hb, Option.map_map]
    simp [Function.comp_def]

theorem store_of_not_mem {db : List Block} {name : Name} (h : name ∉ db.map Block.name)
    (fs : FileSys) :
    (db.foldl store fs).files (.split name.text) = fs.files (.split name.text) := by
  induction db generalizing fs with
  | nil => rfl
  | cons b db ih =>
    rw [List.map_cons, List.mem_cons, not_or] at h
    have hne : Path.split name.text ≠ .split b.name.text := by
      intro he
      apply h.1
      cases name
      cases hb : b.name
      simp_all
    rw [List.foldl_cons, ih h.2, store, FileSys.set_files_of_ne _ _ hne,
      FileSys.set_files_of_ne _ _ (by simp)]

theorem store_split {db : List Block} (h : (db.map Block.name).Nodup) (fs : FileSys) :
    ∀ b ∈ db, (db.foldl store fs).files (.split b.name.text) = some b.file := by
  induction db generalizing fs with
  | nil => simp
  | cons d db ih =>
    rw [List.map_cons, List.nodup_cons] at h
    intro b hb
    rcases List.mem_cons.mp hb with rfl | hb
    · rw [List.foldl_cons, store_of_not_mem h.1, store, FileSys.set_files_self]
    · exact ih h.2 _ b hb

/-- `splitDB` writes the file of every section and the list of their names. -/
theorem run_splitDB {db : List Block} (hdb : ∀ b ∈ db, ∀ l ∈ b.lines, l.Safe)
    (hlock : fs.lockFile = false) (hw : ∀ p, fs.writable p = true)
    (hf : fs.content .sysFile = some (blocksText db)) :
    splitDB.run exec fs = some ((), { db.foldl store
      ({ fs with lockFile := true }.set .categoryList (some [])) with lockFile := false }) := by
  have hread : ({ fs with lockFile := true } : FileSys).content .sysFile =
      some (blocksText db) := hf
  rw [splitDB, run_lockOpen_bind hlock, run_read_bind, hread]
  dsimp only
  rw [run_create_bind]
  simp only [hw, if_true]
  have hloop := run_splitLoop none
    (({ fs with lockFile := true } : FileSys).set .categoryList (some [])) hdb hw
  rw [run_bind, hloop]
  rfl

end Split

section Merge

variable {fs : FileSys} {t : Text}

theorem run_mergeFile (sum : ℕ) (ls : List Text) (h : fs.files .newOne = some t) :
    (mergeFile sum ls).run exec fs =
      some (ls.foldl (fun sum l => (sum + doSum l) % 2 ^ 32) sum,
        fs.set .newOne (some (t ++ ls.flatten))) := by
  induction ls generalizing fs t sum with
  | nil => simp [mergeFile, FileSys.set_self h]
  | cons l ls ih =>
    rw [mergeFile, run_put_bind, h, Option.map_some, ih _ (FileSys.set_files_self _ _ _)]
    simp

/-- The text of `/tmp/category_list`. -/
def listText (names : List Name) : Text := names.flatMap fun n => n.text ++ ['\n']

theorem chunks_listText (names : List Name) :
    chunks (listText names) = names.map fun n => n.text ++ ['\n'] := by
  induction names with
  | nil => exact fgetsAll_nil _
  | cons n names ih =>
    have hshort : n.text.length < lengthReadSize - 1 := by
      have hname := n.short
      simp only [lengthReadSize]
      omega
    rw [listText, List.flatMap_cons, List.append_assoc, chunks, List.singleton_append,
      fgetsAll_short size_pos n.newline_not_mem hshort]
    exact congrArg _ ih

theorem listName_line (name : Name) : listName (name.text ++ ['\n']) = name.text := by
  have hname : ∀ c ∈ name.text, (c != ' ' && c != '\n') = true := by
    intro c hc
    have hspace := (name.chars c hc).1
    rw [Bool.and_eq_true, bne_iff_ne, bne_iff_ne]
    constructor <;> (rintro rfl; revert hspace; decide)
  rw [listName, List.takeWhile_append_of_pos hname]
  simp

/-- The sections that `MergeToRAM` copies, each with a blank line behind it. -/
def kept (db : List Block) : List Block :=
  (db.filter (·.name.text ≠ checksumName)).map fun b => { b with blank := 1 }

/-- What `MergeToRAM` copies of the files of the categories. -/
def mergedText (names : List Name) (file : Name → Text) : Text :=
  (names.filter (·.text ≠ checksumName)).flatMap fun n => file n ++ ['\n']

/-- The loop over the list copies the files one after another. -/
theorem run_mergeLoop (fs : FileSys) {names : List Name} {file : Name → Text} (sum : ℕ)
    (hfile : ∀ n ∈ names, fs.content (.split n.text) = some (file n))
    (hf : fs.files .newOne = some t) :
    ∃ sum', (mergeLoop sum (names.map fun n => n.text ++ ['\n'])).run exec fs =
      some (some sum', fs.set .newOne (some (t ++ mergedText names file))) := by
  induction names generalizing fs t sum with
  | nil => exact ⟨sum, by simp [mergeLoop, mergedText, FileSys.set_self hf]⟩
  | cons n names ih =>
    have hread := hfile n List.mem_cons_self
    rw [List.map_cons, mergeLoop, listName_line, run_read_bind, hread]
    dsimp only
    by_cases hn : n.text = checksumName
    · rw [if_pos hn]
      have hmerged : mergedText (n :: names) file = mergedText names file := by
        simp [mergedText, hn]
      rw [hmerged]
      exact ih fs sum (fun m hm => hfile m (List.mem_cons_of_mem _ hm)) hf
    · rw [if_neg hn, run_bind, run_mergeFile _ _ hf]
      have hmerged : mergedText (n :: names) file =
          file n ++ ['\n'] ++ mergedText names file := by
        simp [mergedText, hn]
      have hflat : (chunks (file n)).flatten = file n := flatten_fgetsAll size_pos _
      simp only [Option.bind_some]
      rw [run_put_bind, FileSys.set_files_self, FileSys.set_set, Option.map_some, hflat]
      obtain ⟨sum', hrun⟩ := ih (fs.set .newOne (some (t ++ file n ++ ['\n'])))
        (((chunks (file n)).foldl (fun sum l => (sum + doSum l) % 2 ^ 32) sum + doSum ['\n']) %
          2 ^ 32)
        (fun m hm => (FileSys.content_set_of_ne _ (by simp) _).trans
          (hfile m (List.mem_cons_of_mem _ hm)))
        (FileSys.set_files_self _ _ _)
      refine ⟨sum', ?_⟩
      rw [hrun, FileSys.set_set, hmerged]
      simp

/-- The section that `MergeToRAM` writes last. -/
def checksumText (sum : ℕ) : Text :=
  "[CHECKSUM]\n".toList ++ ("SUM=".toList ++ Nat.toDigits 10 sum ++ ['\n'])

theorem run_mergeToRAM (fs : FileSys) (names : List Name) (file : Name → Text)
    (hlock : fs.lockFile = false)
    (hopen : ∀ p, fs.readable p = true ∧ fs.writable p = true)
    (hlist : fs.files .categoryList = some (listText names))
    (hfile : ∀ n ∈ names, fs.files (.split n.text) = some (file n)) :
    ∃ fs' sum, mergeToRAM.run exec fs = some (true, fs') ∧
      fs'.files .sysFile = some (mergedText names file ++ checksumText sum) := by
  have hback : ({ { fs with lockFile := true } with lockFile := false } : FileSys) = fs := by
    cases fs
    simp_all
  have hread : ∀ p q, q ≠ .newOne → (fs.set .newOne p).content q = fs.files q := by
    intro p q hq
    simp [FileSys.content, FileSys.set_files_of_ne _ _ hq, (hopen q).1]
  obtain ⟨sum, hloop⟩ := run_mergeLoop (fs.set .newOne (some [])) (t := []) 0
    (fun n hn => (hread _ _ (by simp)).trans (hfile n hn)) (FileSys.set_files_self _ _ _)
  rw [mergeToRAM, run_lockOpen_bind hlock, run_lockUnlink_bind, hback, run_create_bind]
  simp only [(hopen .newOne).2, if_true]
  rw [run_read_bind, hread _ _ (by simp), hlist]
  dsimp only
  rw [chunks_listText, run_bind, hloop, FileSys.set_set]
  simp only [Option.bind_some]
  rw [run_put_bind, FileSys.set_files_self, FileSys.set_set, Option.map_some, run_put_bind,
    FileSys.set_files_self, FileSys.set_set, Option.map_some, run_rename_bind,
    FileSys.set_files_self]
  dsimp only
  rw [run_lockUnlink_bind]
  refine ⟨_, sum, rfl, ?_⟩
  dsimp only
  rw [FileSys.set_files_self, List.nil_append]
  exact congrArg some (List.append_assoc _ _ _)

/-- Sections in the form of blocks are copied with a blank line behind each. -/
theorem mergedText_blocks {db : List Block} {file : Name → Text}
    (h : ∀ b ∈ db, file b.name = b.file) :
    mergedText (db.map Block.name) file = blocksText (kept db) := by
  induction db with
  | nil => rfl
  | cons b db ih =>
    have hrest := ih fun c hc => h c (List.mem_cons_of_mem _ hc)
    rw [mergedText, blocksText] at hrest
    by_cases hb : b.name.text = checksumName
    · simpa [mergedText, blocksText, kept, hb] using hrest
    · simpa [mergedText, blocksText, kept, hb, Block.text, Block.file,
        h b List.mem_cons_self] using hrest

end Merge

/-- The merged database after `splitDB` and `MergeToRAM`: every section other than `CHECKSUM`
with its lines, in the same order, and then one section `CHECKSUM`. -/
theorem split_then_merge (db : List Block) (fs : FileSys) (hnames : (db.map Block.name).Nodup)
    (hsafe : ∀ b ∈ db, ∀ l ∈ b.lines, l.Safe) (hlock : fs.lockFile = false)
    (hopen : ∀ p, fs.readable p = true ∧ fs.writable p = true)
    (hfile : fs.files .sysFile = some (blocksText db)) :
    ∃ fs₁ fs₂ sum, splitDB.run exec fs = some ((), fs₁) ∧
      mergeToRAM.run exec fs₁ = some (true, fs₂) ∧
      fs₂.files .sysFile = some (blocksText (kept db) ++ checksumText sum) := by
  have hread : fs.content .sysFile = some (blocksText db) := by
    rw [FileSys.content, if_pos (hopen _).1, hfile]
  have hsplit := run_splitDB hsafe hlock (fun p => (hopen p).2) hread
  obtain ⟨fs₁, hfs₁⟩ : ∃ fs₁ : FileSys, fs₁ = { db.foldl store
      ({ fs with lockFile := true }.set .categoryList (some [])) with lockFile := false } :=
    ⟨_, rfl⟩
  have hstored : ∀ b ∈ db, fs₁.files (.split b.name.text) = some b.file := by
    rw [hfs₁]
    exact store_split hnames _
  have hlist : fs₁.files .categoryList = some (listText (db.map Block.name)) := by
    have hnames' := store_categoryList db
      ({ fs with lockFile := true }.set .categoryList (some []))
    rw [hfs₁]
    simpa [listText, List.flatMap_map] using hnames'
  obtain ⟨fs₂, sum, hmerge, hfinal⟩ := run_mergeToRAM fs₁ (db.map Block.name)
    (fun n => (fs₁.files (.split n.text)).getD []) (by rw [hfs₁])
    (fun p => by
      rw [hfs₁]
      simpa [store_readable, store_writable] using hopen p)
    hlist
    (fun n hn => by
      obtain ⟨b, hb, rfl⟩ := List.mem_map.mp hn
      rw [hstored b hb, Option.getD_some])
  rw [mergedText_blocks fun b hb => by rw [hstored b hb, Option.getD_some]] at hfinal
  exact ⟨fs₁, fs₂, sum, hfs₁ ▸ hsplit, hmerge, hfinal⟩

theorem Line.safe_of_short {l : Line} (h : l.text.length < lengthReadSize - 1) : l.Safe := by
  intro k
  have hnone : (l.text ++ ['\n'])[(k + 1) * (lengthReadSize - 1)]? = none := by
    apply List.getElem?_eq_none
    rw [List.length_append, List.length_singleton, Nat.add_mul]
    omega
  simp [hnone]

/-- A database with a `CHECKSUM` section between two others. -/
theorem split_then_merge_three_sections :
    let k : Line := ⟨"K=a b".toList, ⟨'K', _, rfl, by decide⟩, by decide, forall_of_all (by decide),
      by decide⟩
    let s : Line := ⟨"SUM=1".toList, ⟨'S', _, rfl, by decide⟩, by decide, forall_of_all (by decide),
      by decide⟩
    let db : List Block := [⟨nameOf "A", [k], 0⟩, ⟨nameOf "CHECKSUM", [s], 2⟩, ⟨nameOf "B", [k, k], 1⟩]
    ∃ fs₁ fs₂ sum, splitDB.run exec (.single .sysFile (blocksText db)) = some ((), fs₁) ∧
      mergeToRAM.run exec fs₁ = some (true, fs₂) ∧
      fs₂.files .sysFile = some ("[A]\nK=a b\n\n[B]\nK=a b\nK=a b\n\n".toList ++
        checksumText sum) := by
  intro k s db
  have hkept : blocksText (kept db) = "[A]\nK=a b\n\n[B]\nK=a b\nK=a b\n\n".toList := by
    decide +kernel
  rw [← hkept]
  refine split_then_merge db _ (by decide +kernel) ?_ rfl (fun p => ⟨rfl, rfl⟩) rfl
  have hk : k.Safe := Line.safe_of_short (by decide +kernel)
  have hs : s.Safe := Line.safe_of_short (by decide +kernel)
  simp [db, hk, hs]

def headerLines (t : Text) : List Text := (textLines t).filter isHeader

/-- A database without a `CHECKSUM` section comes back with one. -/
theorem merge_adds_checksum :
    let text := "[A]\nK=1\n".toList
    let out := "[A]\nK=1\n\n[CHECKSUM]\nSUM=464\n".toList
    ((splitDB.run exec (.single .sysFile text)).bind fun p =>
      (mergeToRAM.run exec p.2).map fun q => q.2.files .sysFile) = some (some out) ∧
    headerLines text = ["[A]".toList] ∧
    headerLines out = ["[A]".toList, "[CHECKSUM]".toList] := by
  decide +kernel

end ConfigMerge
