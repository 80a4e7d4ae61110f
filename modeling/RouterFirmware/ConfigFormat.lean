import RouterFirmware.ConfigScan

/-! # Well-formed database text

The text of a category as a list of items. Keys, values and names are C strings that fit the
buffers of the code, so lists of items stand for exactly the files the code can have stored.
-/
namespace ConfigFormat

open TextStream ConfigScan

/-- The name of a category, which also names its file. -/
structure Name where
  text : Text
  ne : text ≠ []
  chars : ∀ c ∈ text, isSpace c = false ∧ c ∉ ['[', ']', '=', '/', '\x00']
  short : text.length ≤ 255
  deriving DecidableEq

structure Key where
  text : Text
  ne : text ≠ []
  chars : ∀ c ∈ text, isSpace c = false ∧ c ∉ ['=', '[', '\x00']
  short : text.length < 127
  deriving DecidableEq

/-- One line `KEY=value`. The value is any text without newline. -/
structure Item where
  key : Key
  value : Text
  line : ∀ c ∈ value, c ∉ ['\n', '\x00']
  short : key.text.length + value.length + 1 < argvSize
  deriving DecidableEq

def nameOf (s : String) (h : s.toList ≠ [] ∧ (s.toList.all fun c => !isSpace c &&
    decide (c ∉ ['[', ']', '=', '/', '\x00'])) ∧ s.toList.length ≤ 255 := by decide) : Name :=
  ⟨s.toList, h.1, by simpa using h.2.1, h.2.2⟩

def keyOf (s : String) (h : s.toList ≠ [] ∧ (s.toList.all fun c => !isSpace c &&
    decide (c ∉ ['=', '[', '\x00'])) ∧ s.toList.length < 127 := by decide) : Key :=
  ⟨s.toList, h.1, by simpa using h.2.1, h.2.2⟩

def itemOf (key : Key) (s : String) (h : (s.toList.all fun c => decide (c ∉ ['\n', '\x00'])) ∧
    key.text.length + s.toList.length + 1 < argvSize := by decide) : Item :=
  ⟨key, s.toList, by simpa using h.1, h.2⟩

def Item.text (i : Item) : Text := i.key.text ++ '=' :: i.value

def header (name : Text) : Text := '[' :: name ++ [']', '\n']

def render (items : List Item) : Text := items.flatMap fun i => i.text ++ ['\n']

def splitFile (name : Name) (items : List Item) : Text := header name.text ++ render items

/-- The values stored under a key, in file order. -/
def valuesOf (key : Key) (items : List Item) : List Text :=
  (items.filter (·.key = key)).map (·.value)

@[simp] theorem render_nil : render [] = [] := rfl
theorem render_cons (i : Item) (items : List Item) :
    render (i :: items) = i.text ++ '\n' :: render items := by simp [render]
theorem render_append (a b : List Item) : render (a ++ b) = render a ++ render b := by
  simp [render]

theorem Key.ext_iff' {a b : Key} : a = b ↔ a.text = b.text := by
  cases a; cases b; simp

theorem Name.ext_iff' {a b : Name} : a = b ↔ a.text = b.text := by
  cases a; cases b; simp

theorem Key.eq_not_mem (k : Key) : '=' ∉ k.text := fun h => by simpa using (k.chars _ h).2
theorem Key.bracket_not_mem (k : Key) : '[' ∉ k.text := fun h => by simpa using (k.chars _ h).2
theorem Key.not_space (k : Key) {c : Char} (h : c ∈ k.text) : isSpace c = false := (k.chars c h).1
theorem Key.not_space_eq (k : Key) : ∀ c ∈ k.text ++ ['='], isSpace c = false := by
  intro c hc
  rcases List.mem_append.mp hc with hc | hc
  · exact k.not_space hc
  · simp_all [isSpace]

theorem Key.newline_not_mem (k : Key) : '\n' ∉ k.text :=
  fun h => by simpa [isSpace] using k.not_space h
theorem Key.space_not_mem (k : Key) : ' ' ∉ k.text :=
  fun h => by simpa [isSpace] using k.not_space h

theorem Item.newline_not_mem (i : Item) : '\n' ∉ i.value := fun h => by simpa using i.line _ h

theorem Item.text_newline (i : Item) : '\n' ∉ i.text := by
  simp only [Item.text, List.mem_append, List.mem_cons, not_or]
  exact ⟨i.key.newline_not_mem, by decide, i.newline_not_mem⟩

theorem Name.not_bracket (n : Name) : ']' ∉ n.text := fun h => by simpa using (n.chars _ h).2
theorem Name.open_not_mem (n : Name) : '[' ∉ n.text := fun h => by simpa using (n.chars _ h).2
theorem Name.not_space (n : Name) {c : Char} (h : c ∈ n.text) : isSpace c = false := (n.chars c h).1
theorem Name.newline_not_mem (n : Name) : '\n' ∉ n.text :=
  fun h => by simpa [isSpace] using n.not_space h
theorem Name.space_not_mem (n : Name) : ' ' ∉ n.text :=
  fun h => by simpa [isSpace] using n.not_space h

theorem Name.header_newline (n : Name) : '\n' ∉ '[' :: n.text ++ [']'] := by
  simp [n.newline_not_mem]

theorem findCategory_header (name : Name) (t : Text) :
    findCategory name.text (header name.text ++ t) = some t := by
  have hopen : readTo '[' (header name.text ++ t) = some ([], name.text ++ ']' :: '\n' :: t) := by
    simp [header, readTo]
  have hclose := readTo_append name.not_bracket ('\n' :: t)
  rw [findCategory_eq, hopen]
  simp [hclose, skipLine, readTo]

end ConfigFormat
