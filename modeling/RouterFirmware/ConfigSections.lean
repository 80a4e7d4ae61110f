import RouterFirmware.ConfigLookup

/-! # Lookups in the merged database

The merged database is a list of sections. `find_category` goes to the lines of a section, but
`find_item` runs from there to the end of the file: in this build it does not stop at the next
header, as `find_last_item`, `find_postion` and `find_last_category_item` do.
-/
namespace ConfigSections

open TextStream SharedProgram ConfigDatabase ConfigScan ConfigFormat ConfigCommand ConfigLookup
  ConfigResolv

/-- A section with the blank lines behind it. -/
structure Section where
  name : Name
  items : List Item
  blank : ℕ

def Section.text (s : Section) : Text :=
  header s.name.text ++ (render s.items ++ List.replicate s.blank '\n')

def merged (db : List Section) : Text := db.flatMap Section.text

@[simp] theorem merged_nil : merged [] = [] := rfl
theorem merged_cons (s : Section) (db : List Section) :
    merged (s :: db) = s.text ++ merged db := rfl
theorem merged_append (a b : List Section) : merged (a ++ b) = merged a ++ merged b := by
  simp [merged]

theorem hits_header (key : Key) (name : Name) (t : Text) :
    hits key.text (header name.text ++ t) = hits key.text t := by
  have hspace : ∀ c ∈ '[' :: name.text ++ [']'], isSpace c = false := by
    intro c hc
    simp only [List.cons_append, List.mem_cons, List.mem_append, List.not_mem_nil, or_false] at hc
    rcases hc with rfl | hc | rfl
    · decide
    · exact (name.chars c hc).1
    · decide
  have heq : '=' ∉ '[' :: name.text ++ [']'] := by
    intro hc
    simp only [List.cons_append, List.mem_cons, List.mem_append, List.not_mem_nil, or_false] at hc
    rcases hc with hc | hc | hc
    · cases hc
    · simpa using (name.chars _ hc).2
    · cases hc
  have hnone : findItem key.text ('[' :: name.text ++ [']']) = none := by
    have hscan := fscanfString_word (by simp) hspace []
    rw [List.append_nil] at hscan
    rw [findItem_eq, hscan]
    simp only [List.takeWhile_nil, List.dropWhile_nil, List.append_nil, Option.bind_some,
      readTo_eq_none.mpr heq, Option.bind_none, Option.none_or]
    exact findItem_nil _
  have htext : header name.text ++ t = ('[' :: name.text ++ [']']) ++ '\n' :: t := by
    simp [header]
  rw [htext, hits_append_space (by decide), hits_eq, hnone]
  rfl

theorem hits_item_eq_nil {key : Key} {i : Item} : hits key.text i.text = [] ↔
    i.key ≠ key ∧ ∀ w ∈ words (i.value.dropWhile (!isSpace ·)), ¬ key.text ++ ['='] <+: w := by
  rw [hits_item, List.append_eq_nil_iff, strays]
  by_cases hk : i.key = key
  · simp [hk]
  · simp [hk, hits_eq_nil]

/-- The key is found nowhere in these sections. -/
def Absent (key : Key) (db : List Section) : Prop :=
  ∀ s ∈ db, ∀ i ∈ s.items, i.key ≠ key ∧
    ∀ w ∈ words (i.value.dropWhile (!isSpace ·)), ¬ key.text ++ ['='] <+: w

theorem hits_merged_eq_nil {key : Key} {db : List Section} :
    hits key.text (merged db) = [] ↔ Absent key db := by
  induction db with
  | nil => simp [Absent, hits_nil]
  | cons s db ih =>
    have hs : hits key.text (merged (s :: db)) = [] ↔
        (∀ i ∈ s.items, hits key.text i.text = []) ∧ hits key.text (merged db) = [] := by
      rw [merged_cons, Section.text, List.append_assoc, hits_header, List.append_assoc,
        ← List.length_eq_zero_iff, length_hits_render, hits_blank, Nat.add_eq_zero_iff,
        List.length_eq_zero_iff, List.length_eq_zero_iff, List.flatMap_eq_nil_iff]
    rw [hs, ih]
    simp only [hits_item_eq_nil, Absent, List.forall_mem_cons]

/-- `find_category` for another category runs through the text without being left inside an
open bracket. -/
def passes (category : Text) (t : Text) : Bool :=
  match _h : readTo '[' t with
  | none => true
  | some (_, u) =>
    match _k : readTo ']' u with
    | none => false
    | some (name, v) => name != category && passes category v
termination_by t.length
decreasing_by exact (readTo_length _k).trans (readTo_length _h)

theorem readTo_append_right {stop : Char} {t a b : Text} (h : readTo stop t = some (a, b))
    (u : Text) : readTo stop (t ++ u) = some (a, b ++ u) := by
  obtain ⟨rfl, hn⟩ := eq_of_readTo h
  simpa using readTo_append hn (b ++ u)

theorem findCategory_passes {category t : Text} (h : passes category t = true) (u : Text) :
    findCategory category (t ++ '[' :: u) = findCategory category ('[' :: u) := by
  fun_induction passes category t with
  | case1 t hopen =>
    have hleft : '[' ∉ t := readTo_eq_none.mp hopen
    rw [findCategory_eq, readTo_append hleft, findCategory_eq category ('[' :: u)]
    simp [readTo]
  | case2 t a b hopen hclose => cases h
  | case3 t a b hopen name c hclose ih =>
    simp only [Bool.and_eq_true, bne_iff_ne] at h
    rw [findCategory_eq, readTo_append_right hopen]
    simp [readTo_append_right hclose, h.1, ih h.2]

/-- What `find_category` followed by `find_item` must do for a key of a section: a value is one
of the section's values of that key, and there is none behind the last of them. -/
structure Isolated (db : Text) (s : Section) (key : Key) : Prop where
  print : ∀ n : ℕ, 1 ≤ n →
    (∀ v, printConfig db s.name.text key.text n = (.ok, v) → v ∈ valuesOf key s.items) ∧
    ((valuesOf key s.items).length < n →
      printConfig db s.name.text key.text n = (.itemNotFound, []))
  get : ∀ n : ℕ, 1 ≤ n →
    (∀ v, getSetting db s.name.text key.text n = some v → v ∈ valuesOf key s.items) ∧
    ((valuesOf key s.items).length < n → getSetting db s.name.text key.text n = none)
  resolv : (∀ r, lookup db s.name.text key.text = some r →
      (getItemValue r).1 = .ok ∧ (getItemValue r).2.1 ∈ valuesOf key s.items) ∧
    (valuesOf key s.items = [] → lookup db s.name.text key.text = none)

section Lookup

variable {before after : List Section} {s : Section} {key : Key}

theorem findCategory_merged (after : List Section) (h : passes s.name.text (merged before) = true) :
    findCategory s.name.text (merged (before ++ s :: after)) =
      some (render s.items ++ (List.replicate s.blank '\n' ++ merged after)) := by
  have htext : merged (before ++ s :: after) = merged before ++ '[' ::
      (s.name.text ++ ']' :: '\n' ::
        (render s.items ++ (List.replicate s.blank '\n' ++ merged after))) := by
    simp [merged_append, merged_cons, Section.text, header]
  have hheader := findCategory_header s.name
    (render s.items ++ (List.replicate s.blank '\n' ++ merged after))
  rw [htext, findCategory_passes h, ← hheader]
  simp [header]

theorem isolated_of_absent (h : passes s.name.text (merged before) = true)
    (hs : NoStray key s.items) (ha : Absent key after) :
    Isolated (merged (before ++ s :: after)) s key := by
  have hcat := findCategory_merged after h
  have hnone : hits key.text (List.replicate s.blank '\n' ++ merged after) = [] := by
    rw [hits_blank]
    exact hits_merged_eq_nil.mpr ha
  have hvalues := (hits_eq_valuesOf_iff key s.items).mpr hs
  constructor
  · intro n hn
    rw [printConfig_render hcat hnone, hvalues]
    constructor
    · intro v hv
      cases hg : (valuesOf key s.items)[n - 1]? with
      | none => rw [hg] at hv; cases hv
      | some w => rw [hg] at hv; cases hv; exact List.mem_of_getElem? hg
    · intro hlt
      rw [List.getElem?_eq_none (by omega)]
      rfl
  · intro n hn
    rw [getSetting_render hcat hnone, hvalues]
    exact ⟨fun v hv => List.mem_of_getElem? hv, fun hlt => List.getElem?_eq_none (by omega)⟩
  · have hfirst : lookup (merged (before ++ s :: after)) s.name.text key.text =
        (hits key.text (render s.items ++ (List.replicate s.blank '\n' ++ merged after)))[0]? := by
      rw [lookup, hcat, Option.bind_some, ← skipItems_findItem]
      rfl
    have hline := lineOf_getElem s.items hnone 0
    rw [← hfirst, hvalues] at hline
    constructor
    · intro r hr
      rw [hr] at hline
      cases hv : (valuesOf key s.items)[0]? with
      | none => simp [hv] at hline
      | some v =>
        simp only [hv, Option.map_some, Option.some.injEq, lineOf, Option.map_eq_some_iff] at hline
        obtain ⟨⟨a, b⟩, hread, rfl⟩ := hline
        simpa [getItemValue, hread] using List.mem_of_getElem? hv
    · intro hempty
      simpa [hempty] using hline

/-- With an earlier part that `find_category` runs through, a lookup stays in its section
exactly when the section's values hold no word `KEY=` and no later section has the key. -/
theorem lookups_isolated_iff (before after : List Section) (s : Section) (key : Key)
    (h : passes s.name.text (merged before) = true) :
    Isolated (merged (before ++ s :: after)) s key ↔
      NoStray key s.items ∧ Absent key after := by
  constructor
  · intro hi
    -- one more than the section has of the key must not be found
    have hmiss := (hi.print ((valuesOf key s.items).length + 1) (by omega)).2 (by omega)
    rw [printConfig_hits (findCategory_merged after h)] at hmiss
    have hn : ((((valuesOf key s.items).length + 1 : ℕ) : ℤ) - 1).toNat =
      (valuesOf key s.items).length := by omega
    rw [hn] at hmiss
    have hshort : (hits key.text
        (render s.items ++ (List.replicate s.blank '\n' ++ merged after))).length ≤
        (valuesOf key s.items).length := by
      rw [← List.getElem?_eq_none_iff]
      by_contra hsome
      obtain ⟨r, hr⟩ := Option.ne_none_iff_exists'.mp hsome
      rw [hr] at hmiss
      cases hmiss
    rw [length_hits_render, hits_blank, length_hits_items] at hshort
    constructor
    · exact length_strays_eq_zero.mp (by omega)
    · apply hits_merged_eq_nil.mp
      apply List.eq_nil_of_length_eq_zero
      omega
  · intro hc
    exact isolated_of_absent h hc.1 hc.2

instance (key : Key) (items : List Item) : Decidable (NoStray key items) :=
  inferInstanceAs (Decidable (∀ i ∈ items, _ ∧ _))

instance (key : Key) (db : List Section) : Decidable (Absent key db) :=
  inferInstanceAs (Decidable (∀ s ∈ db, ∀ i ∈ s.items, _ ∧ _))

/-- Section `B` with a bracketed value, then section `C` with two items `X`, then section `D`
without any. -/
theorem lookups_isolated_three_sections :
    let x := keyOf "X"
    let b : Section := ⟨nameOf "B", [itemOf x "a [b] c"], 1⟩
    let c : Section := ⟨nameOf "C", [itemOf x "1 2", itemOf x "3"], 1⟩
    let d : Section := ⟨nameOf "D", [itemOf (keyOf "Y") "A=X"], 0⟩
    passes c.name.text (merged [b]) = true ∧ Isolated (merged ([b] ++ c :: [d])) c x := by
  intro x b c d
  have hb : passes c.name.text (merged [b]) = true := by decide +kernel
  exact ⟨hb, (lookups_isolated_iff [b] [d] c x hb).mpr (by decide +kernel)⟩

/-- Section `C` has no item `X`, but section `D` behind it has one, and a lookup in `C` gives
its value. -/
theorem lookup_in_next_section :
    let x := keyOf "X"
    let c : Section := ⟨nameOf "C", [itemOf (keyOf "Y") "1"], 1⟩
    let d : Section := ⟨nameOf "D", [itemOf x "7"], 1⟩
    valuesOf x c.items = [] ∧
      printConfig (merged [c, d]) c.name.text x.text 1 = (.ok, ['7']) ∧
      getSetting (merged [c, d]) c.name.text x.text 1 = some ['7'] ∧
      (lookup (merged [c, d]) c.name.text x.text).map getItemValue =
        some (.ok, ['7'], ['\n']) ∧
      ¬ Isolated (merged [c, d]) c x := by
  intro x c d
  have hvalue : printConfig (merged [c, d]) c.name.text x.text (1 : ℕ) = (.ok, ['7']) := by
    decide +kernel
  refine ⟨by decide +kernel, hvalue, by decide +kernel, by decide +kernel, ?_⟩
  intro hi
  have hmem := (hi.print 1 (by omega)).1 _ hvalue
  revert hmem
  decide +kernel

end Lookup

end ConfigSections
