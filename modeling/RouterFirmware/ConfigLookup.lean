import Mathlib.Algebra.BigOperators.Group.List.Basic
import RouterFirmware.ConfigFormat
import RouterFirmware.ConfigCommand

/-! # What a lookup finds

`find_item` called again and again stops at a list of streams. Over the lines of a category
these are the values of the key and the places where a value itself holds a word `KEY=`.
-/
namespace ConfigLookup

open TextStream SharedProgram ConfigDatabase ConfigScan ConfigFormat ConfigCommand

theorem findItem_suffix {item t r : Text} (h : findItem item t = some r) :
    (item ++ '=' :: r) <:+ t := by
  have later : ∀ {u token rest}, fscanfString u = some (token, rest) →
      (item ++ '=' :: r) <:+ rest → (item ++ '=' :: r) <:+ u := fun hs hr =>
    hr.trans ((List.suffix_append _ _).trans (fscanfString_suffix hs).2)
  fun_induction findItem item t with
  | case1 t hs => cases h
  | case2 t token u hs hr ih => exact later hs (ih h)
  | case3 t token u hs value hr =>
    cases h
    have htoken := (fscanfString_suffix hs).2
    rw [(eq_of_readTo hr).1] at htoken
    simpa using htoken
  | case4 t token u hs key value hr hk ih => exact later hs (ih h)

theorem findItem_length {item t r : Text} (h : findItem item t = some r) :
    r.length < t.length := by
  have hl := (findItem_suffix h).length_le
  simp only [List.length_append, List.length_cons] at hl
  omega

/-- The streams at which successive calls of `find_item` stop. -/
def hits (item t : Text) : List Text :=
  match _h : findItem item t with
  | none => []
  | some r => r :: hits item r
termination_by t.length
decreasing_by exact findItem_length _h

theorem hits_eq (item t : Text) :
    hits item t = ((findItem item t).map fun r => r :: hits item r).getD [] := by
  rw [hits]
  split
  · next h => simp [h]
  · next h => simp [h]

theorem findItem_nil (item : Text) : findItem item [] = none := by
  rw [findItem_eq]
  rfl

theorem hits_nil (item : Text) : hits item [] = [] := by
  rw [hits_eq, findItem_nil]
  rfl

theorem skipItems_findItem (item : Text) (n : ℕ) (t : Text) :
    (skipItems item n t).bind (findItem item) = (hits item t)[n]? := by
  induction n generalizing t with
  | zero =>
    rw [hits_eq]
    cases h : findItem item t <;> simp [skipItems, h]
  | succ n ih =>
    rw [hits_eq]
    cases h : findItem item t with
    | none => simp [skipItems, h]
    | some r => simpa [skipItems, h] using ih r

/-- A white-space character separates: what is found in front of it does not depend on what
follows. -/
theorem findItem_append_space {c : Char} (hc : isSpace c = true) (item l t : Text) :
    findItem item (l ++ c :: t) =
      ((findItem item l).map (· ++ c :: t)).or (findItem item t) := by
  fun_induction findItem item l with
  | case1 l h =>
    rw [findItem_eq, fscanfString_append_space hc, h, findItem_eq item t]
    simp
  | case2 l token r h hr ih =>
    rw [findItem_eq, fscanfString_append_space hc, h]
    simp [hr, ih]
  | case3 l token r h value hr =>
    rw [findItem_eq, fscanfString_append_space hc, h]
    simp [hr]
  | case4 l token r h key value hr hk ih =>
    rw [findItem_eq, fscanfString_append_space hc, h]
    simp [hr, hk, ih]

theorem hits_append_space {c : Char} (hc : isSpace c = true) (item l t : Text) :
    hits item (l ++ c :: t) = (hits item l).map (· ++ c :: t) ++ hits item t := by
  fun_induction hits item l with
  | case1 l h =>
    rw [hits_eq, findItem_append_space hc, h, hits_eq item t]
    simp
  | case2 l r h ih =>
    rw [hits_eq, findItem_append_space hc, h]
    simp [ih]

theorem hits_blank (item : Text) (n : ℕ) (t : Text) :
    hits item (List.replicate n '\n' ++ t) = hits item t := by
  induction n with
  | zero => rfl
  | succ n ih =>
    rw [List.replicate_succ, List.cons_append, ← ih]
    have hline := hits_append_space (c := '\n') (by decide) item [] (List.replicate n '\n' ++ t)
    rw [hits_nil] at hline
    exact hline

theorem hits_suffix {item t r : Text} (h : r ∈ hits item t) : r <:+ t := by
  fun_induction hits item t with
  | case1 t hs => cases h
  | case2 t u hs ih =>
    have hu : u <:+ t :=
      (List.suffix_append (item ++ ['=']) u).trans (by simpa using findItem_suffix hs)
    rcases List.mem_cons.mp h with rfl | h
    · exact hu
    · exact (ih h).trans hu

theorem findItem_line (k key : Key) (value : Text) :
    findItem key.text (k.text ++ '=' :: value) =
      if k = key then some value else findItem key.text (value.dropWhile (!isSpace ·)) := by
  have hscan := fscanfString_word (by simp) k.not_space_eq value
  simp only [List.append_assoc, List.cons_append, List.nil_append] at hscan
  rw [findItem_eq, hscan]
  simp only [Option.bind_some, readTo_append k.eq_not_mem]
  by_cases hk : k = key
  · simp [hk, List.takeWhile_append_dropWhile]
  · have ht : ¬ k.text = key.text := fun h => hk (Key.ext_iff'.mpr h)
    simp [hk, ht]

/-- What is found in one line: its value, if the key is the one looked for, and then, from
behind the `=`, whatever words of the value read `KEY=`. -/
theorem hits_line (k key : Key) (value : Text) :
    hits key.text (k.text ++ '=' :: value) =
      if k = key then value :: hits key.text value
      else hits key.text (value.dropWhile (!isSpace ·)) := by
  rw [hits_eq, findItem_line]
  split
  · simp
  · rw [← hits_eq]

theorem readTo_key (key : Key) (w : Text) :
    key.text ++ ['='] <+: w ↔ ∃ value, readTo '=' w = some (key.text, value) := by
  constructor
  · intro ⟨value, hv⟩
    refine ⟨value, ?_⟩
    rw [← hv, List.append_assoc]
    exact readTo_append key.eq_not_mem value
  · intro ⟨value, hv⟩
    refine ⟨value, ?_⟩
    simp [(eq_of_readTo hv).1]

theorem findItem_eq_none {key : Key} {t : Text} :
    findItem key.text t = none ↔ ∀ w ∈ words t, ¬ key.text ++ ['='] <+: w := by
  simp only [readTo_key, not_exists]
  generalize hitem : key.text = item
  fun_induction findItem item t with
  | case1 t hs => simp [words_eq t, hs]
  | case2 t token u hs hr ih => simp [words_eq t, hs, hr, ih]
  | case3 t token u hs value hr => simp [words_eq t, hs, hr]
  | case4 t token u hs k value hr hk ih => simp [words_eq t, hs, hr, ih, hk]

theorem hits_eq_nil {key : Key} {t : Text} :
    hits key.text t = [] ↔ ∀ w ∈ words t, ¬ key.text ++ ['='] <+: w := by
  rw [← findItem_eq_none, hits_eq]
  cases findItem key.text t <;> simp

/-- The key is found nowhere but in the lines that carry it: no word behind white space in any
value, and no value of the key itself, starts with `KEY=`. -/
def NoStray (key : Key) (items : List Item) : Prop :=
  ∀ i ∈ items, (∀ w ∈ words (i.value.dropWhile (!isSpace ·)), ¬ key.text ++ ['='] <+: w) ∧
    (i.key = key → ¬ key.text ++ ['='] <+: i.value)

/-- What is found in a line besides its own value. -/
def strays (key : Key) (i : Item) : List Text :=
  if i.key = key then hits key.text i.value
  else hits key.text (i.value.dropWhile (!isSpace ·))

theorem hits_item (key : Key) (i : Item) :
    hits key.text i.text = (if i.key = key then [i.value] else []) ++ strays key i := by
  rw [Item.text, hits_line, strays]
  split <;> simp

theorem prefix_takeWhile {w t : Text} (hw : ∀ c ∈ w, isSpace c = false) :
    w <+: t.takeWhile (!isSpace ·) ↔ w <+: t := by
  constructor
  · intro h
    exact h.trans (List.takeWhile_prefix _)
  · intro ⟨u, hu⟩
    rw [← hu, List.takeWhile_append_of_pos (by simpa using hw)]
    exact List.prefix_append _ _

/-- The words of a value are the one it starts with, if it does not start with white space, and
those behind white space. -/
theorem forall_words_iff {key : Key} {value : Text} :
    (∀ w ∈ words value, ¬ key.text ++ ['='] <+: w) ↔
      (∀ w ∈ words (value.dropWhile (!isSpace ·)), ¬ key.text ++ ['='] <+: w) ∧
        ¬ key.text ++ ['='] <+: value := by
  have hfirst : ∀ c u, value = c :: u → isSpace c = false → words value =
      value.takeWhile (!isSpace ·) :: words (value.dropWhile (!isSpace ·)) := by
    intro c u hv hc
    rw [words_eq, hv, ← List.singleton_append, fscanfString_word (by simp) (by simpa using hc)]
    simp [hc]
  by_cases hv : value.takeWhile (!isSpace ·) = []
  · have hrest : value.dropWhile (!isSpace ·) = value := by
      simpa [hv] using List.takeWhile_append_dropWhile (p := (!isSpace ·)) (l := value)
    have hnot : ¬ key.text ++ ['='] <+: value := by
      rw [← prefix_takeWhile key.not_space_eq, hv]
      simp
    simp [hrest, hnot]
  · obtain ⟨c, u, rfl⟩ := List.exists_cons_of_ne_nil (fun h : value = [] => hv (by simp [h]))
    have hc : isSpace c = false := by
      by_contra hc
      exact hv (by simp_all)
    rw [hfirst c u rfl hc, List.forall_mem_cons, prefix_takeWhile key.not_space_eq, and_comm]

theorem strays_eq_nil {key : Key} {items : List Item} :
    (∀ i ∈ items, strays key i = []) ↔ NoStray key items := by
  refine forall₂_congr fun i _ => ?_
  unfold strays
  split
  · next hk => rw [hits_eq_nil, forall_words_iff, imp_iff_right hk]
  · next hk => rw [hits_eq_nil, and_iff_left fun h => absurd h hk]

/-- The rest of the line at a stream, when the line has an end. -/
def lineOf (r : Text) : Option Text := (readTo '\n' r).map (·.1)

theorem lineOf_append {l : Text} (h : '\n' ∉ l) (t : Text) : lineOf (l ++ '\n' :: t) = some l := by
  simp [lineOf, readTo_append h]

theorem printItemValue_eq (r : Text) :
    printItemValue r = (lineOf r).getD "Fail to get item value\n".toList := by
  unfold printItemValue getItemValue lineOf
  cases readTo '\n' r <;> simp

theorem lineOf_hits (key : Key) (items : List Item) (t : Text) :
    (hits key.text (render items ++ t)).map lineOf =
      (items.flatMap fun i => hits key.text i.text).map some ++ (hits key.text t).map lineOf := by
  induction items with
  | nil => simp
  | cons i items ih =>
    have hline : ∀ r ∈ hits key.text i.text,
        (lineOf ∘ (· ++ '\n' :: (render items ++ t))) r = some r := by
      intro r hr
      exact lineOf_append (fun hn => i.text_newline ((hits_suffix hr).subset hn)) _
    rw [render_cons, List.append_assoc, List.cons_append,
      hits_append_space (by decide), List.map_append, ih, List.map_map, List.map_congr_left hline]
    simp

theorem length_hits_render (key : Key) (items : List Item) (t : Text) :
    (hits key.text (render items ++ t)).length =
      (items.flatMap fun i => hits key.text i.text).length + (hits key.text t).length := by
  have hlen := congrArg List.length (lineOf_hits key items t)
  simpa using hlen

theorem valuesOf_eq_flatMap (key : Key) (items : List Item) :
    valuesOf key items = items.flatMap fun i => if i.key = key then [i.value] else [] := by
  induction items with
  | nil => rfl
  | cons i items ih =>
    by_cases hk : i.key = key
    · simp_all [valuesOf]
    · simp_all [valuesOf]

theorem length_flatMap_append {α β : Type} (f g : α → List β) (l : List α) :
    (l.flatMap fun a => f a ++ g a).length = (l.flatMap f).length + (l.flatMap g).length := by
  simp only [List.length_flatMap, List.length_append, List.sum_map_add]

theorem length_hits_items (key : Key) (items : List Item) :
    (items.flatMap fun i => hits key.text i.text).length =
      (valuesOf key items).length + (items.flatMap (strays key)).length := by
  simp only [hits_item]
  rw [length_flatMap_append, valuesOf_eq_flatMap]

theorem length_strays_eq_zero {key : Key} {items : List Item} :
    (items.flatMap (strays key)).length = 0 ↔ NoStray key items := by
  rw [List.length_eq_zero_iff, List.flatMap_eq_nil_iff, strays_eq_nil]

/-- The places found are the lines of the key, exactly when there are no others. -/
theorem hits_eq_valuesOf_iff (key : Key) (items : List Item) :
    (items.flatMap fun i => hits key.text i.text) = valuesOf key items ↔ NoStray key items := by
  constructor
  · intro h
    have hlen := length_hits_items key items
    rw [h] at hlen
    exact length_strays_eq_zero.mp (by omega)
  · intro h
    rw [valuesOf_eq_flatMap]
    apply List.flatMap_congr
    intro i hi
    rw [hits_item, strays_eq_nil.mpr h i hi, List.append_nil]

section Parameter

/-- The parameter `KEY n` of a command. -/
def itemParam (key : Key) (n : ℕ) : Text := key.text ++ ' ' :: Nat.toDigits 10 n

theorem atoi_toDigits (n : ℕ) : atoi (Nat.toDigits 10 n) = n := by
  obtain ⟨c, u, hd⟩ := List.exists_cons_of_ne_nil (Nat.toDigits_ne_nil (n := n) (b := 10))
  have hdigit : ∀ d ∈ Nat.toDigits 10 n, d.isDigit = true := fun d hd =>
    Nat.isDigit_of_mem_toDigits (by decide) (by decide) hd
  have hspace : isSpace c = false := isSpace_of_isDigit (hdigit c (by simp [hd]))
  have hdigits : (Nat.toDigits 10 n).takeWhile Char.isDigit = Nat.toDigits 10 n :=
    List.takeWhile_eq_self_iff.mpr hdigit
  have hskip : (Nat.toDigits 10 n).dropWhile isSpace = Nat.toDigits 10 n := by
    rw [hd, List.dropWhile_cons_of_neg (by simp [hspace])]
  unfold atoi
  rw [hskip]
  split
  · next h => simp_all
  · next h => simp_all
  · rw [hdigits, Nat.ofDigitChars_ten_toDigits]

theorem splitParam_itemParam (key : Key) (n : ℕ) :
    splitParam (itemParam key n) = (key.text, Nat.toDigits 10 n) := by
  obtain ⟨c, u, hd⟩ := List.exists_cons_of_ne_nil (Nat.toDigits_ne_nil (n := n) (b := 10))
  have hc : c ≠ ' ' := by
    rintro rfl
    have hdigit := Nat.isDigit_of_mem_toDigits (by decide) (by decide) (hd ▸ List.mem_cons_self)
    revert hdigit
    decide
  have hkey : ∀ d ∈ key.text, (d != ' ') = true := fun d hk => by
    rw [bne_iff_ne]
    rintro rfl
    exact key.space_not_mem hk
  unfold splitParam itemParam
  rw [List.takeWhile_append_of_pos hkey, List.dropWhile_append_of_pos hkey, hd]
  simp [hc]

/-- A number of at most nine digits fits its buffer, a longer one does not. -/
theorem paramFits_itemParam (key : Key) (n : ℕ) : ParamFits (itemParam key n) ↔ n < 10 ^ 9 := by
  have hkey : key.text.length < opcodeSize := Nat.lt_succ_of_lt key.short
  have hdigits : (Nat.toDigits 10 n).length < numSize ↔ n < 10 ^ 9 := by
    rw [numSize, Nat.lt_succ_iff]
    exact Nat.length_toDigits_le_iff (by decide) (by decide)
  rw [ParamFits, splitParam_itemParam, hdigits]
  exact and_iff_right hkey

theorem paramNumber_toDigits (n : ℕ) : paramNumber (Nat.toDigits 10 n) = n := by
  rw [paramNumber, if_neg Nat.toDigits_ne_nil, atoi_toDigits]

end Parameter

/-- The result and the output of a print that comes to the value, or to none. -/
def answer : Option Text → Result × Text
  | none => (.itemNotFound, [])
  | some value => (.ok, value)

theorem printConfig_hits {text category item t : Text} (h : findCategory category text = some t)
    (idx : ℤ) : printConfig text category item idx =
      answer ((hits item t)[(idx - 1).toNat]?.map printItemValue) := by
  unfold printConfig
  rw [h]
  simp only [skipItems_findItem]
  cases (hits item t)[(idx - 1).toNat]? <;> rfl

theorem getSetting_hits {text category item t : Text} (h : findCategory category text = some t)
    (number : ℤ) : getSetting text category item number =
      (hits item t)[(number - 1).toNat]?.bind lineOf := by
  unfold getSetting
  rw [h]
  simp only [skipItems_findItem]
  cases (hits item t)[(number - 1).toNat]? with
  | none => rfl
  | some r =>
    simp only [Option.bind_some, getItemValue, lineOf]
    cases readTo '\n' r <;> rfl

section Category

variable {text category t : Text} {items : List Item} {key : Key}

/-- The `n`-th place found in a category whose lines are `items`, when the key is not found
behind them. -/
theorem lineOf_getElem (items : List Item) (ht : hits key.text t = []) (n : ℕ) :
    (hits key.text (render items ++ t))[n]?.map lineOf =
      (items.flatMap fun i => hits key.text i.text)[n]?.map some := by
  have hlines := lineOf_hits key items t
  rw [ht, List.map_nil, List.append_nil] at hlines
  simpa using congrArg (·[n]?) hlines

theorem printConfig_render (h : findCategory category text = some (render items ++ t))
    (ht : hits key.text t = []) (n : ℕ) : printConfig text category key.text n =
      answer (items.flatMap fun i => hits key.text i.text)[n - 1]? := by
  have hn : ((n : ℤ) - 1).toNat = n - 1 := by omega
  have hline := lineOf_getElem items ht (n - 1)
  rw [printConfig_hits h, hn]
  cases hr : (hits key.text (render items ++ t))[n - 1]? <;>
    cases hv : (items.flatMap fun i => hits key.text i.text)[n - 1]? <;>
      simp_all [printItemValue_eq]

theorem getSetting_render (h : findCategory category text = some (render items ++ t))
    (ht : hits key.text t = []) (n : ℕ) : getSetting text category key.text n =
      (items.flatMap fun i => hits key.text i.text)[n - 1]? := by
  have hn : ((n : ℤ) - 1).toNat = n - 1 := by omega
  have hline := lineOf_getElem items ht (n - 1)
  rw [getSetting_hits h, hn]
  cases hr : (hits key.text (render items ++ t))[n - 1]? <;>
    cases hv : (items.flatMap fun i => hits key.text i.text)[n - 1]? <;> simp_all

end Category

theorem run_nkPrintSetting {fs : FileSys} {dbname : Path} {text : Text}
    (h : fs.content dbname = some text) (type : Text) (key : Key) {n : ℕ} (hn : n < 10 ^ 9) :
    (nkPrintSetting type (some (itemParam key n)) false dbname).run exec fs =
      some (printConfig text type key.text n, fs) := by
  have hfits := (paramFits_itemParam key n).mpr hn
  simp [nkPrintSetting, h, hfits, splitParam_itemParam, paramNumber_toDigits]

/-- A number of ten digits or more is written behind `num_str`. -/
theorem run_nkPrintSetting_long {fs : FileSys} {dbname : Path} {text : Text}
    (h : fs.content dbname = some text) (type : Text) (key : Key) {n : ℕ} (hn : 10 ^ 9 ≤ n) :
    (nkPrintSetting type (some (itemParam key n)) false dbname).run exec fs = none := by
  have hlong : ¬ ParamFits (itemParam key n) := by
    rw [paramFits_itemParam]
    omega
  simp [nkPrintSetting, h, hlong]

/-- Every number that fits its buffer prints the item of the key with that number. -/
def PrintsOwn (name : Name) (items : List Item) (key : Key) : Prop :=
  ∀ (fs : FileSys) (n : ℕ), 1 ≤ n → n < 10 ^ 9 →
    fs.content (.split name.text) = some (splitFile name items) →
    (nkPrintSetting name.text (some (itemParam key n)) false (.split name.text)).run exec fs =
      some (answer (valuesOf key items)[n - 1]?, fs)

theorem printConfig_splitFile (name : Name) (items : List Item) (key : Key) (n : ℕ) :
    printConfig (splitFile name items) name.text key.text n =
      answer (items.flatMap fun i => hits key.text i.text)[n - 1]? :=
  printConfig_render (t := []) (by rw [List.append_nil]; exact findCategory_header _ _)
    (hits_nil _) n

theorem printsOwn_of_noStray {name : Name} {items : List Item} {key : Key}
    (h : NoStray key items) : PrintsOwn name items key := by
  intro fs n hn hfit hfs
  rw [run_nkPrintSetting hfs _ _ hfit, printConfig_splitFile, (hits_eq_valuesOf_iff _ _).mpr h]

/-- Two lists that agree up to the end of the second are the same. -/
theorem eq_of_getElem?_le {α : Type*} {l k : List α} (h : ∀ n ≤ k.length, l[n]? = k[n]?) :
    l = k := by
  have hend := h k.length (le_refl _)
  rw [List.getElem?_eq_none (le_refl _), List.getElem?_eq_none_iff] at hend
  apply List.ext_getElem?
  intro n
  rcases Nat.le_total n k.length with hn | hn
  · exact h n hn
  · rw [List.getElem?_eq_none (by omega), List.getElem?_eq_none hn]

theorem answer_inj {v w : Option Text} (h : answer v = answer w) : v = w := by
  cases v <;> cases w <;> simp_all [answer]

theorem noStray_of_printsOwn {name : Name} {items : List Item} {key : Key}
    (hfew : (valuesOf key items).length + 1 < 10 ^ 9) (h : PrintsOwn name items key) :
    NoStray key items := by
  rw [← hits_eq_valuesOf_iff]
  apply eq_of_getElem?_le
  intro n hn
  have hfs := FileSys.content_single (.split name.text) (splitFile name items)
  have hrun := h (.single (.split name.text) (splitFile name items)) (n + 1) (by omega) (by omega)
    hfs
  rw [run_nkPrintSetting hfs _ _ (by omega), printConfig_splitFile, Option.some.injEq,
    Prod.mk.injEq] at hrun
  exact answer_inj hrun.1

/-- `nk_print_setting` reads every item of the key right, for every number of at most nine digits,
exactly when the key stands nowhere else in the file; longer numbers overrun their buffer. (Where
the lines of the key are so many that the number behind the last one does not fit, what is printed
does not tell what stands behind them.) -/
theorem print_reads_own_value_iff (name : Name) (items : List Item) (key : Key) :
    (NoStray key items → PrintsOwn name items key) ∧
    ((valuesOf key items).length + 1 < 10 ^ 9 → PrintsOwn name items key → NoStray key items) ∧
    ∀ (fs : FileSys) (n : ℕ), 10 ^ 9 ≤ n →
      fs.content (.split name.text) = some (splitFile name items) →
      (nkPrintSetting name.text (some (itemParam key n)) false (.split name.text)).run exec fs =
        none :=
  ⟨printsOwn_of_noStray, noStray_of_printsOwn, fun _ _ hn hfs => run_nkPrintSetting_long hfs _ _ hn⟩

/-- The item `A` with the value `x X=5` in front of the item `X` with the value `7`: the first
`X` that is printed is 5. -/
theorem print_reads_inside_value :
    let name := nameOf "C"
    let x := keyOf "X"
    let items := [itemOf (keyOf "A") "x X=5", itemOf x "7"]
    let fs := FileSys.single (.split name.text) (splitFile name items)
    fs.content (.split name.text) = some (splitFile name items) ∧
      ((nkPrintSetting name.text (some (itemParam x 1)) false (.split name.text)).run exec fs).map
        (·.1) = some (.ok, ['5']) ∧
      answer (valuesOf x items)[1 - 1]? = (.ok, ['7']) := by
  decide +kernel

end ConfigLookup
