import RouterFirmware.ConfigPieces
import RouterFirmware.ConfigLookup

/-! # The bulk readers and the single reader

`BatchGet_config_m` reads a category with `fgets`, `nk_print_setting` with `fscanf`. On values
without white space they agree line by line when the line fits one piece, and every other piece of
the file is taken for what it is.
-/
namespace ConfigBulkRead

open TextStream CString SharedProgram ConfigDatabase ConfigScan ConfigFormat ConfigCommand
  ConfigBatch ConfigMerge ConfigLookup ConfigPieces

/-- `nk_print_setting` for 1, 2, … gives these values, and then that there is no such item. -/
def Prints (fs : FileSys) (name : Name) (key : Key) (vs : List Text) : Prop :=
  ∀ n ≤ vs.length,
    (nkPrintSetting name.text (some (itemParam key (n + 1))) false (.split name.text)).run exec fs =
      some (answer vs[n]?, fs)

/-- `BatchGet_config_m` stores what `nk_print_setting` gives. -/
def BulkAgrees (fs : FileSys) (name : Name) (key : Key) : Prop :=
  ∃ vs, Prints fs name key vs ∧
    (batchGetConfigM name.text key.text).run exec fs = some (vs, fs)

/-- All three readers give the same values, `BatchGet_config` the last one first. -/
def ReadersAgree (fs : FileSys) (name : Name) (key : Key) : Prop :=
  ∃ vs, Prints fs name key vs ∧
    (batchGetConfigM name.text key.text).run exec fs = some (vs, fs) ∧
    ∃ list, (batchGetConfig name.text key.text).run exec fs = some (list, fs) ∧
      list.read = some vs.reverse

/-- A file system with the file of the category, and no command under way. -/
structure Stored (name : Name) (items : List Item) (fs : FileSys) : Prop where
  lock : fs.lockFile = false
  file : fs.content (.split name.text) = some (splitFile name items)

/-- The line fits one piece and has a value, its key has no `]` behind the first character, and
the value does not start with the key and `=` again. -/
def ReadAlike (i : Item) : Prop :=
  Readable i.key i.value ∧ ']' ∉ i.key.text.tail ∧ ¬ i.key.text ++ ['='] <+: i.value

instance (i : Item) : Decidable (ReadAlike i) := inferInstanceAs (Decidable (_ ∧ _ ∧ _))

/-- Every piece with the name of the key is of a line of the key, and no line of the key stands
behind a piece that looks like a header. -/
def Clear (key : Key) : List (Key × Text) → Prop
  | [] => True
  | q :: qs => if isHeader q.2 then ∀ r ∈ qs, r.1 ≠ key
    else (fieldName q.2 = key.text → q.1 = key) ∧ Clear key qs

/-- Every number that the single reader is asked for fits its buffer. -/
def Few (key : Key) (items : List Item) : Prop := (valuesOf key items).length + 1 < 10 ^ 9

section Single

variable {fs : FileSys} {name : Name} {key : Key} {items : List Item} {vs : List Text}

def printed (key : Key) (items : List Item) : List Text :=
  items.flatMap fun i => hits key.text i.text

theorem prints_iff (hfile : fs.content (.split name.text) = some (splitFile name items)) :
    Prints fs name key vs ↔ printed key items = vs ∧ vs.length + 1 < 10 ^ 9 := by
  have hprint : ∀ n, n + 1 < 10 ^ 9 → (nkPrintSetting name.text (some (itemParam key (n + 1)))
      false (.split name.text)).run exec fs = some (answer (printed key items)[n]?, fs) := by
    intro n hn
    rw [run_nkPrintSetting hfile _ _ hn, printConfig_splitFile, Nat.add_sub_cancel]
    rfl
  constructor
  · intro h
    have hfew : vs.length + 1 < 10 ^ 9 := by
      by_contra hlong
      have hrun := h vs.length (le_refl _)
      rw [run_nkPrintSetting_long hfile _ _ (not_lt.mp hlong)] at hrun
      cases hrun
    refine ⟨eq_of_getElem?_le ?_, hfew⟩
    intro n hn
    have hrun := (hprint n (by omega)).symm.trans (h n hn)
    rw [Option.some.injEq, Prod.mk.injEq] at hrun
    exact answer_inj hrun.1
  · intro h n hn
    obtain ⟨rfl, hfew⟩ := h
    exact hprint n (by omega)

theorem run_bulk (key : Key) (h : Stored name items fs) :
    (batchGetConfigM name.text key.text).run exec fs =
      some (entriesOf key.text (pieces items), fs) := by
  have hheader := chunks_splitFile name items
  rw [run_batchGetConfigM h.lock h.file, hheader, categoryEntries,
    if_pos ⟨isHeader_header _, headerName_header _⟩]

/-- The run reduces the readers to the lists they make. -/
theorem bulkAgrees_iff (key : Key) (h : Stored name items fs) : BulkAgrees fs name key ↔
    entriesOf key.text (pieces items) = printed key items ∧
      (printed key items).length + 1 < 10 ^ 9 := by
  constructor
  · intro hagree
    obtain ⟨vs, hprints, hrun⟩ := hagree
    obtain ⟨rfl, hfew⟩ := (prints_iff h.file).mp hprints
    rw [run_bulk key h, Option.some.injEq, Prod.mk.injEq] at hrun
    exact ⟨hrun.1, hfew⟩
  · intro hagree
    refine ⟨printed key items, (prints_iff h.file).mpr ⟨rfl, hagree.2⟩, ?_⟩
    rw [run_bulk key h, hagree.1]

/-- Whatever the file holds, the list that `BatchGet_config` returns is gone. -/
theorem not_readersAgree (fs : FileSys) (name : Name) (key : Key) :
    ¬ ReadersAgree fs name key := by
  intro h
  obtain ⟨vs, -, hrun, list, hlist, hread⟩ := h
  rw [batchGetConfig, run_bind, hrun] at hlist
  have hgone : list = .ofLocal vs.reverse := (congrArg Prod.fst (Option.some.inj hlist)).symm
  rw [hgone, Address.read_ofLocal] at hread
  cases hread

theorem exists_stored (name : Name) (items : List Item) : ∃ fs, Stored name items fs :=
  ⟨_, rfl, FileSys.content_single (.split name.text) (splitFile name items)⟩

/-- On a value without white space the words of the value are the value. -/
theorem hits_word {i : Item} (hi : ∀ c ∈ i.value, isSpace c = false) (key : Key) :
    hits key.text i.text = if i.key = key then i.value :: hits key.text i.value else [] := by
  have hskip : i.value.dropWhile (!isSpace ·) = [] := by
    rw [List.dropWhile_eq_nil_iff]
    simpa using hi
  rw [Item.text, hits_line, hskip, hits_nil]

theorem hits_value_eq_nil {v : Text} (hv : ∀ c ∈ v, isSpace c = false) :
    hits key.text v = [] ↔ ¬ key.text ++ ['='] <+: v := by
  have hskip : v.dropWhile (!isSpace ·) = [] := by
    rw [List.dropWhile_eq_nil_iff]
    simpa using hv
  rw [hits_eq_nil, forall_words_iff, hskip, words_nil]
  simp

end Single

section Bulk

variable {key : Key} {items : List Item}

theorem clear_append {ps : List Text} (hps : ∀ p ∈ ps, isHeader p = false) {k : Key}
    {qs : List (Key × Text)} (h : Clear key (ps.map (fun p => (k, p)) ++ qs)) : Clear key qs := by
  induction ps with
  | nil => exact h
  | cons p ps ih =>
    rw [List.map_cons, List.cons_append, Clear, if_neg (by simp [hps p List.mem_cons_self])] at h
    exact ih (fun q hq => hps q (List.mem_cons_of_mem _ hq)) h.2

theorem clear_line {ps : List Text} {k : Key} {qs : List (Key × Text)}
    (hps : ∀ p ∈ ps, isHeader p = false ∧ (fieldName p = key.text → k = key))
    (h : Clear key qs) : Clear key (ps.map (fun p => (k, p)) ++ qs) := by
  induction ps with
  | nil => exact h
  | cons p ps ih =>
    obtain ⟨hheader, hname⟩ := hps p List.mem_cons_self
    rw [List.map_cons, List.cons_append, Clear, if_neg (by simp [hheader])]
    exact ⟨hname, ih fun q hq => hps q (List.mem_cons_of_mem _ hq)⟩

/-- Lines of another key give nothing; behind a piece of them that looks like a header there are
no lines of the key. -/
theorem entriesOf_other {ps : List Text} {k : Key} (hk : k ≠ key) {qs : List (Key × Text)}
    (h : Clear key (ps.map (fun p => (k, p)) ++ qs)) :
    (entriesOf key.text (ps ++ qs.map Prod.snd) = entriesOf key.text (qs.map Prod.snd) ∧
      Clear key qs) ∨
    (entriesOf key.text (ps ++ qs.map Prod.snd) = [] ∧ ∀ r ∈ qs, r.1 ≠ key) := by
  induction ps with
  | nil => exact .inl ⟨rfl, h⟩
  | cons p ps ih =>
    rw [List.map_cons, List.cons_append, Clear] at h
    rw [List.cons_append, entriesOf]
    by_cases hp : isHeader p
    · rw [if_pos hp] at h ⊢
      exact .inr ⟨rfl, fun r hr => h r (List.mem_append_right _ hr)⟩
    · rw [if_neg hp] at h
      rw [if_neg hp, if_neg fun hname => hk (h.1 hname)]
      exact ih h.2

theorem isHeader_linePieces {i : Item} (h : i.value.length ≤ room i.key) :
    ∀ p ∈ linePieces i, isHeader p = false := by
  have hkey : ∀ t, isHeader (i.text ++ t) = false := by
    intro t
    rw [Item.text, List.append_assoc]
    exact isHeader_key i.key _
  intro p hp
  rcases linePieces_fit h with hone | htwo
  · rw [hone, List.mem_singleton] at hp
    exact hp ▸ hkey _
  · rw [htwo, List.mem_cons, List.mem_singleton] at hp
    rcases hp with rfl | rfl
    · simpa using hkey []
    · rfl

theorem entriesOf_clear (hword : ∀ i ∈ items, ∀ c ∈ i.value, isSpace c = false)
    (hown : ∀ i ∈ items, i.key = key → ReadAlike i) (hclear : Clear key (owned items)) :
    entriesOf key.text (pieces items) = printed key items := by
  induction items with
  | nil => rfl
  | cons i items ih =>
    have hstep := ih (fun j hj => hword j (List.mem_cons_of_mem _ hj))
      fun j hj => hown j (List.mem_cons_of_mem _ hj)
    have hpieces : pieces (i :: items) = linePieces i ++ pieces items := rfl
    have howned : owned (i :: items) =
        (linePieces i).map (fun p => (i.key, p)) ++ owned items := rfl
    have hprinted : printed key (i :: items) = hits key.text i.text ++ printed key items := rfl
    have hi := hword i List.mem_cons_self
    rw [howned] at hclear
    rw [hpieces, hprinted, hits_word hi]
    by_cases hk : i.key = key
    · obtain ⟨hread, hbracket, hvalue⟩ := hown i List.mem_cons_self hk
      rw [entriesOf_line hread.2 hbracket, if_pos hk, if_pos hk, if_neg hread.1,
        (hits_value_eq_nil hi).mpr (hk ▸ hvalue),
        hstep (clear_append (isHeader_linePieces hread.2) hclear)]
      rfl
    · rw [if_neg hk, List.nil_append, ← owned_map]
      rcases entriesOf_other hk hclear with ⟨heq, hrest⟩ | ⟨hnil, hrest⟩
      · rw [heq, owned_map, hstep hrest]
      · rw [hnil, printed, eq_comm, List.flatMap_eq_nil_iff]
        intro j hj
        have hother : j.key ≠ key := by
          have hmem : (j.key, j.key.text ++ '=' :: (j.value ++ ['\n']).take (room j.key)) ∈
              owned items :=
            List.mem_flatMap.mpr ⟨j, hj, by rw [linePieces_eq]; exact List.mem_cons_self⟩
          exact hrest _ hmem
        rw [hits_word (hword j (List.mem_cons_of_mem _ hj)), if_neg hother]

theorem mem_entriesOf {ls : List Text} {e : Text} (h : e ∈ entriesOf key.text ls) :
    ∃ l ∈ ls, e = entryValue (l.drop (key.text.length + 1)) := by
  induction ls with
  | nil => cases h
  | cons l ls ih =>
    rw [entriesOf] at h
    split at h
    · cases h
    · split at h
      · next hname =>
        rcases List.mem_cons.mp h with rfl | h
        · exact ⟨l, List.mem_cons_self, by rw [hname]⟩
        · obtain ⟨m, hm, he⟩ := ih h
          exact ⟨m, List.mem_cons_of_mem _ hm, he⟩
      · obtain ⟨m, hm, he⟩ := ih h
        exact ⟨m, List.mem_cons_of_mem _ hm, he⟩

theorem length_entryValue (t : Text) : (entryValue t).length ≤ t.length := by
  cases t with
  | nil => exact le_refl _
  | cons c t => exact Nat.succ_le_succ (List.takeWhile_sublist _).length_le

theorem length_le_of_isPiece {size : ℕ} {p : Text} (h : IsPiece size p) : p.length ≤ size - 1 := by
  rcases h with ⟨l, rfl, -, hl⟩ | ⟨-, hl⟩
  · rw [List.length_append, List.length_singleton]
    omega
  · exact hl.le

theorem length_le_room {e : Text} (h : e ∈ entriesOf key.text (pieces items)) :
    e.length ≤ room key := by
  obtain ⟨l, hl, rfl⟩ := mem_entriesOf h
  have hpiece := length_le_of_isPiece (isPiece_of_mem_pieces l hl)
  have hentry := length_entryValue (l.drop (key.text.length + 1))
  rw [List.length_drop] at hentry
  rw [room]
  omega

/-- When every line fits, an empty value is the only thing the bulk reader gets wrong. -/
theorem entriesOf_fit (hfit : ∀ i ∈ items, i.value.length ≤ room i.key)
    (hbracket : ∀ i ∈ items, ']' ∉ i.key.text.tail) : entriesOf key.text (pieces items) =
      items.flatMap fun i => if i.key = key then [if i.value = [] then ['\n'] else i.value]
        else [] := by
  induction items with
  | nil => rfl
  | cons i items ih =>
    have hpieces : pieces (i :: items) = linePieces i ++ pieces items := rfl
    rw [hpieces, entriesOf_line (hfit i List.mem_cons_self) (hbracket i List.mem_cons_self),
      ih (fun j hj => hfit j (List.mem_cons_of_mem _ hj))
        fun j hj => hbracket j (List.mem_cons_of_mem _ hj), List.flatMap_cons]
    split <;> rfl

theorem newline_not_mem_printed {v : Text} (h : v ∈ printed key items) : '\n' ∉ v := by
  obtain ⟨i, -, hi⟩ := List.mem_flatMap.mp h
  exact fun hm => i.text_newline ((hits_suffix hi).subset hm)

theorem value_mem_printed {i : Item} (hi : i ∈ items) : i.value ∈ printed i.key items := by
  refine List.mem_flatMap.mpr ⟨i, hi, ?_⟩
  rw [hits_item, if_pos rfl]
  exact List.mem_append_left _ (by simp)

theorem readAlike_of_agree
    (h : ∀ key : Key, entriesOf key.text (pieces items) = printed key items) :
    ∀ i ∈ items, ReadAlike i := by
  have hfit : ∀ i ∈ items, i.value.length ≤ room i.key := by
    intro i hi
    have hmem := value_mem_printed hi
    rw [← h] at hmem
    exact length_le_room hmem
  have hbracket : ∀ i ∈ items, ']' ∉ i.key.text.tail := by
    intro i hi htail
    have hmem := value_mem_printed hi
    rw [← h, entriesOf_bracket htail] at hmem
    cases hmem
  have hvalue : ∀ i ∈ items, i.value ≠ [] := by
    intro i hi hnil
    have hmem : ['\n'] ∈ entriesOf i.key.text (pieces items) := by
      rw [entriesOf_fit hfit hbracket]
      exact List.mem_flatMap.mpr ⟨i, hi, by simp [hnil]⟩
    rw [h] at hmem
    exact newline_not_mem_printed hmem (by simp)
  intro i hi
  have hstray : NoStray i.key items := by
    rw [← hits_eq_valuesOf_iff, ← printed, ← h, entriesOf_fit hfit hbracket, valuesOf_eq_flatMap]
    apply List.flatMap_congr
    intro j hj
    rw [if_neg (hvalue j hj)]
  exact ⟨⟨hvalue i hi, hfit i hi⟩, hbracket i hi, (hstray i hi).2 rfl⟩

theorem clear_of_readAlike (key : Key) (h : ∀ i ∈ items, ReadAlike i) :
    Clear key (owned items) := by
  have hline : ∀ i ∈ items, ∀ p ∈ linePieces i, fieldName p = key.text → i.key = key := by
    intro i hi p hp hname
    obtain ⟨hread, hbracket, -⟩ := h i hi
    have hfirst : ∀ t, fieldName (i.text ++ t) = i.key.text := by
      intro t
      rw [Item.text, List.append_assoc]
      exact fieldName_key hbracket _
    rw [Key.ext_iff']
    rcases linePieces_fit hread.2 with hone | htwo
    · rw [hone, List.mem_singleton] at hp
      rw [← hname, hp, hfirst]
    · rw [htwo, List.mem_cons, List.mem_singleton] at hp
      rcases hp with rfl | rfl
      · have htext := hfirst []
        rw [List.append_nil] at htext
        rw [← hname, htext]
      · exact absurd hname (fieldName_blank key)
  induction items with
  | nil => trivial
  | cons i items ih =>
    have hrest := ih (fun j hj => h j (List.mem_cons_of_mem _ hj))
      fun j hj => hline j (List.mem_cons_of_mem _ hj)
    exact clear_line (fun p hp => ⟨isHeader_linePieces (h i List.mem_cons_self).1.2 p hp,
      hline i List.mem_cons_self p hp⟩) hrest

end Bulk

/-- A line that is read alike holds the key once. -/
theorem printed_eq_valuesOf {key : Key} {items : List Item}
    (hword : ∀ i ∈ items, ∀ c ∈ i.value, isSpace c = false)
    (hown : ∀ i ∈ items, i.key = key → ReadAlike i) :
    printed key items = valuesOf key items := by
  rw [valuesOf_eq_flatMap]
  apply List.flatMap_congr
  intro i hi
  rw [hits_word (hword i hi)]
  split
  · next hk => rw [(hits_value_eq_nil (hword i hi)).mpr (hk ▸ (hown i hi hk).2.2)]
  · rfl

/-- The readers never agree, since what `BatchGet_config` returns cannot be read. The other two
agree on a key when its lines are read alike and the pieces of the other lines are not mistaken; on
every key they agree exactly when every line of the file is read alike. -/
theorem readers_agree_iff (name : Name) (items : List Item)
    (hword : ∀ i ∈ items, ∀ c ∈ i.value, isSpace c = false) :
    (∀ fs key, ¬ ReadersAgree fs name key) ∧
    (∀ key, Few key items → (∀ i ∈ items, i.key = key → ReadAlike i) → Clear key (owned items) →
      ∀ fs, Stored name items fs → BulkAgrees fs name key) ∧
    ((∀ key fs, Stored name items fs → BulkAgrees fs name key) ↔
      (∀ i ∈ items, ReadAlike i) ∧ ∀ key, Few key items) := by
  have hkey : ∀ key, Few key items → (∀ i ∈ items, i.key = key → ReadAlike i) →
      Clear key (owned items) → ∀ fs, Stored name items fs → BulkAgrees fs name key := by
    intro key hfew hown hclear fs hfs
    refine (bulkAgrees_iff key hfs).mpr ⟨entriesOf_clear hword hown hclear, ?_⟩
    rw [printed_eq_valuesOf hword hown]
    exact hfew
  refine ⟨fun fs key => not_readersAgree fs name key, hkey, ?_, ?_⟩
  · intro h
    obtain ⟨fs, hfs⟩ := exists_stored name items
    have hlists := fun key => (bulkAgrees_iff key hfs).mp (h key fs hfs)
    have halike := readAlike_of_agree fun key => (hlists key).1
    refine ⟨halike, fun key => ?_⟩
    rw [Few, ← printed_eq_valuesOf hword fun i hi _ => halike i hi]
    exact (hlists key).2
  · intro h key fs hfs
    exact hkey key (h.2 key) (fun i hi _ => h.1 i hi) (clear_of_readAlike key h.1) fs hfs

theorem readers_agree_two_lines :
    let x := keyOf "X"
    let items := [itemOf x "a=]b", itemOf (keyOf "Y") "1"]
    ∀ fs, Stored (nameOf "C") items fs → BulkAgrees fs (nameOf "C") x := by
  intro x items
  have hword : ∀ i ∈ items, ∀ c ∈ i.value, isSpace c = false :=
    List.forall_mem_cons.mpr ⟨forall_of_all (by decide),
      List.forall_mem_singleton.mpr (forall_of_all (by decide))⟩
  have halike : ∀ i ∈ items, ReadAlike i := by decide
  exact (readers_agree_iff (nameOf "C") items hword).2.1 x (by unfold Few; decide)
    (fun i hi _ => halike i hi) (clear_of_readAlike x halike)

/-- The file with the one line `X=1`: the first two readers agree, the third returns the address of
its local variable. -/
theorem list_head_is_gone :
    let name := nameOf "C"
    let x := keyOf "X"
    let fs := FileSys.single (.split name.text) (splitFile name [itemOf x "1"])
    (batchGetConfigM name.text x.text).run exec fs = some ([['1']], fs) ∧
      (batchGetConfig name.text x.text).run exec fs = some (.dangling, fs) ∧
      ¬ ReadersAgree fs name x := by
  intro name x fs
  have hfs : Stored name [itemOf x "1"] fs := ⟨rfl, FileSys.content_single _ _⟩
  have hentries : entriesOf x.text (pieces [itemOf x "1"]) = [['1']] := by decide +kernel
  have hbulk : (batchGetConfigM name.text x.text).run exec fs = some ([['1']], fs) :=
    hentries ▸ run_bulk x hfs
  refine ⟨hbulk, ?_, not_readersAgree fs name x⟩
  rw [batchGetConfig, run_bind, hbulk]
  rfl

/-- The single reader finds the empty value of an item, the bulk reader a newline. -/
example :
    printed (keyOf "X") [itemOf (keyOf "X") ""] = [[]] ∧
      entriesOf (keyOf "X").text (pieces [itemOf (keyOf "X") ""]) = [['\n']] := by
  decide +kernel

end ConfigBulkRead
