import RouterFirmware.CString
import RouterFirmware.ConfigScan

/-! # Writing a daemon's configuration from the database

The functions that make such a file read the merged database item by item and print to the file
as they go. What is printed is kept print by print; the file is their concatenation.
-/
namespace ConfigGenerate

open TextStream ConfigDatabase CString

/-- The open database from its file position on, the memory of `glvalue`, and the prints. -/
structure Generator where
  handle : Text
  glvalue : Text
  wfd : List Text
  deriving DecidableEq

abbrev Gen := StateT Generator (Except Fault)

/-- The string at the front of a buffer. Behind what was ever written there are NULs. -/
def cut (buffer : Text) : Text := buffer.takeWhile (· != '\x00')

/-- A string copied to a buffer that is large enough. -/
def store (text buffer : Text) : Text := text ++ '\x00' :: buffer.drop (text.length + 1)

/-- `!find_category(database, category)` -/
def findCategory (database category : Text) : Gen Bool := do
  let found := ConfigScan.findCategory category database
  modify ({ · with handle := found.getD [] })
  return found.isSome

/-- `!find_item(database, item)` -/
def findItem (item : Text) : Gen Bool := do
  let found := ConfigScan.findItem item (← get).handle
  modify ({ · with handle := found.getD [] })
  return found.isSome

/-- `!get_item_value(database)` -/
def getItemValue : Gen Bool := do
  let (result, value, rest) := ConfigScan.getItemValue (← get).handle
  modify fun g => { g with handle := rest, glvalue := store value g.glvalue }
  return result == .ok

/-- `!find_item(database, item) && !get_item_value(database)` -/
def readItem (item : Text) : Gen Bool := do
  if ← findItem item then getItemValue else return false

/-- The result of `find_category`, then of `find_item`, then of `get_item_value`. -/
def readResult (database category item : Text) : Gen Result := do
  if ← findCategory database category then
    if ← findItem item then
      if ← getItemValue then return .ok else return .failToRead
    else return .itemNotFound
  else return .catNotFound

def readFrom (database category item : Text) : Gen Bool :=
  return (← readResult database category item) == .ok

def value : Gen Text := return cut (← get).glvalue

def fprintf (text : Text) : Gen Unit := modify fun g => { g with wfd := g.wfd ++ [text] }

/-- The values of the items read one after the other from `t` on. -/
def readItems : List Text → Text → Option (List Text)
  | [], _ => some []
  | item :: items, t =>
    match ConfigScan.findItem item t with
    | none => none
    | some r => match ConfigScan.getItemValue r with
      | (.ok, value, rest) => (readItems items rest).map (cut value :: ·)
      | _ => none

def settings (database category : Text) (items : List Text) : Option (List Text) :=
  (ConfigScan.findCategory category database).bind (readItems items)

def setting (database category item : Text) : Option Text :=
  (settings database category [item]).bind List.head?

section Reads

variable {α β : Type} {g h : Generator} {database category item v : Text} {items vs : List Text}

theorem cut_store (text buffer : Text) : cut (store text buffer) = cut text := by
  simp only [cut, store]
  generalize buffer.drop (text.length + 1) = behind
  induction text with
  | nil => rfl
  | cons c text ih =>
    by_cases hc : c = '\x00'
    · simp [hc]
    · simpa [hc] using ih

theorem run_bind_ok {m : Gen α} {f : α → Gen β} {a : α} (hm : m g = .ok (a, h)) :
    (m >>= f) g = f a h := by
  simp [bind, StateT.bind, hm, Except.bind]

theorem run_bind_error {m : Gen α} {f : α → Gen β} {e : Fault} (hm : m g = .error e) :
    (m >>= f) g = .error e := by
  simp [bind, StateT.bind, hm, Except.bind]

theorem run_bind_eq_ok {m : Gen α} {f : α → Gen β} {p : β × Generator}
    (hrun : (m >>= f) g = .ok p) : ∃ a h, m g = .ok (a, h) ∧ f a h = .ok p := by
  cases hm : m g with
  | error e => simp [bind, StateT.bind, hm, Except.bind] at hrun
  | ok q =>
    obtain ⟨a, h⟩ := q
    rw [run_bind_ok hm] at hrun
    exact ⟨a, h, rfl, hrun⟩

theorem findCategory_run (database category : Text) (g : Generator) :
    findCategory database category g =
      .ok ((ConfigScan.findCategory category database).isSome,
        { g with handle := (ConfigScan.findCategory category database).getD [] }) := rfl

theorem findItem_run (item : Text) (g : Generator) :
    findItem item g = .ok ((ConfigScan.findItem item g.handle).isSome,
      { g with handle := (ConfigScan.findItem item g.handle).getD [] }) := rfl

theorem getItemValue_run (g : Generator) :
    getItemValue g = .ok ((ConfigScan.getItemValue g.handle).1 == .ok,
      { g with
        handle := (ConfigScan.getItemValue g.handle).2.2
        glvalue := store (ConfigScan.getItemValue g.handle).2.1 g.glvalue }) := rfl

theorem value_run (g : Generator) : value g = .ok (cut g.glvalue, g) := rfl

theorem fprintf_run (text : Text) (g : Generator) :
    fprintf text g = .ok ((), { g with wfd := g.wfd ++ [text] }) := rfl

theorem forM_fprintf (l : List Text) (g : Generator) :
    l.forM fprintf g = .ok ((), { g with wfd := g.wfd ++ l }) := by
  induction l generalizing g with
  | nil =>
    rw [List.append_nil]
    rfl
  | cons t l ih =>
    have hstep : (t :: l).forM fprintf = fprintf t >>= fun _ => l.forM fprintf := rfl
    rw [hstep, run_bind_ok (fprintf_run t g), ih, List.append_assoc]
    rfl

theorem readItem_run (item : Text) (g : Generator) : ∃ b h, readItem item g = .ok (b, h) ∧
    h.wfd = g.wfd ∧ (b = true → '\n' ∉ cut h.glvalue) := by
  rw [readItem, run_bind_ok (findItem_run item g)]
  split
  · refine ⟨_, _, getItemValue_run _, rfl, fun hok => ?_⟩
    rw [cut_store]
    intro hnewline
    have hmem := (List.takeWhile_prefix _).subset hnewline
    revert hok hmem
    generalize (ConfigScan.findItem item g.handle).getD [] = t
    rw [ConfigScan.getItemValue]
    split
    · simp
    · next v r hread =>
      simp [(eq_of_readTo hread).2]
  · exact ⟨_, _, rfl, rfl, by simp⟩

theorem findCategory_settings (hset : settings database category items = some vs)
    (g : Generator) : ∃ r, findCategory database category g = .ok (true, { g with handle := r }) ∧
      readItems items r = some vs := by
  obtain ⟨r, hr, hitems⟩ := Option.bind_eq_some_iff.mp hset
  exact ⟨r, by rw [findCategory_run, hr]; rfl, hitems⟩

theorem readItems_cons (hread : readItems (item :: items) g.handle = some (v :: vs)) :
    ∃ h k, findItem item g = .ok (true, h) ∧ getItemValue h = .ok (true, k) ∧
      cut k.glvalue = v ∧ k.wfd = g.wfd ∧ readItems items k.handle = some vs := by
  simp only [readItems] at hread
  split at hread
  · cases hread
  · next r hr =>
    split at hread
    · next value rest hvalue =>
      obtain ⟨ws, hws, hcons⟩ := Option.map_eq_some_iff.mp hread
      obtain ⟨rfl, rfl⟩ := List.cons.inj hcons
      refine ⟨{ g with handle := r }, ⟨rest, store value g.glvalue, g.wfd⟩, ?_, ?_,
        cut_store value g.glvalue, rfl, hws⟩
      · rw [findItem_run, hr]
        rfl
      · rw [getItemValue_run, hvalue]
        rfl
    · cases hread

theorem readItem_readItems (hread : readItems (item :: items) g.handle = some (v :: vs)) :
    ∃ h, readItem item g = .ok (true, h) ∧ cut h.glvalue = v ∧ h.wfd = g.wfd ∧
      readItems items h.handle = some vs := by
  obtain ⟨h, k, hfind, hget, hvalue, hwfd, hrest⟩ := readItems_cons hread
  refine ⟨k, ?_, hvalue, hwfd, hrest⟩
  rw [readItem, run_bind_ok hfind, if_pos rfl, hget]

theorem readFrom_settings (hset : settings database category (item :: items) = some (v :: vs))
    (g : Generator) : ∃ h, readFrom database category item g = .ok (true, h) ∧
      cut h.glvalue = v ∧ h.wfd = g.wfd ∧ readItems items h.handle = some vs := by
  obtain ⟨r, hcategory, hread⟩ := findCategory_settings hset g
  obtain ⟨h, k, hfind, hget, hvalue, hwfd, hrest⟩ :=
    readItems_cons (g := { g with handle := r }) hread
  refine ⟨k, ?_, hvalue, hwfd, hrest⟩
  have hresult : readResult database category item g = .ok (.ok, k) := by
    rw [readResult, run_bind_ok hcategory, if_pos rfl, run_bind_ok hfind, if_pos rfl,
      run_bind_ok hget]
    rfl
  rw [readFrom, run_bind_ok hresult]
  rfl

theorem readItems_one {t : Text} (h : readItems [item] t = some vs) : ∃ v, vs = [v] := by
  simp only [readItems] at h
  split at h
  · cases h
  · split at h
    · exact ⟨_, (Option.some.inj h).symm⟩
    · cases h

theorem readItems_one_isSome (item t : Text) : (readItems [item] t).isSome =
    ((ConfigScan.findItem item t).any fun r => (ConfigScan.getItemValue r).1 == .ok) := by
  rw [readItems]
  split
  · next h => rw [h]; rfl
  · next r h =>
    rw [h]
    simp only [Option.any_some]
    split
    · next hvalue => rw [hvalue]; rfl
    · next hno =>
      obtain ⟨⟨result, value, rest⟩, hvalue⟩ : ∃ p, ConfigScan.getItemValue r = p := ⟨_, rfl⟩
      cases result <;> simp_all

theorem readResult_run (database category item : Text) (g : Generator) :
    ∃ result h, readResult database category item g = .ok (result, h) ∧
      (result == .ok) = (settings database category [item]).isSome := by
  rw [readResult, run_bind_ok (findCategory_run database category g), settings]
  cases ConfigScan.findCategory category database with
  | none => exact ⟨_, _, rfl, rfl⟩
  | some r =>
    simp only [Option.isSome_some, if_true, Option.getD_some, Option.bind_some,
      readItems_one_isSome]
    rw [run_bind_ok (findItem_run item _)]
    cases ConfigScan.findItem item r with
    | none => exact ⟨_, _, rfl, rfl⟩
    | some t =>
      simp only [Option.isSome_some, if_true, Option.getD_some, Option.any_some]
      rw [run_bind_ok (getItemValue_run _)]
      cases (ConfigScan.getItemValue t).1 == .ok with
      | true => exact ⟨_, _, rfl, rfl⟩
      | false => exact ⟨_, _, rfl, rfl⟩

theorem readFrom_run (database category item : Text) (g : Generator) :
    ∃ h, readFrom database category item g =
      .ok ((settings database category [item]).isSome, h) ∧
        ∀ v, settings database category [item] = some [v] → cut h.glvalue = v := by
  cases hset : settings database category [item] with
  | none =>
    obtain ⟨result, h, hrun, hok⟩ := readResult_run database category item g
    rw [hset] at hok
    exact ⟨h, by rw [readFrom, run_bind_ok hrun, hok]; rfl, by simp⟩
  | some vs =>
    obtain ⟨r, -, hitems⟩ := Option.bind_eq_some_iff.mp hset
    obtain ⟨v, rfl⟩ := readItems_one hitems
    obtain ⟨h, hrun, hvalue, -, -⟩ := readFrom_settings hset g
    refine ⟨h, hrun, fun w hw => ?_⟩
    rw [hvalue]
    simpa using hw

end Reads

section Prints

variable {α β : Type} {P : Text → Prop}

/-- Whatever `m` prints has the property. -/
def Prints (P : Text → Prop) (m : Gen α) : Prop :=
  ∀ g a h, m g = .ok (a, h) → ∃ prints, h.wfd = g.wfd ++ prints ∧ ∀ t ∈ prints, P t

theorem Prints.forall_wfd {m : Gen α} {g h : Generator} {a : α} (hm : Prints P m)
    (hrun : m g = .ok (a, h)) (hg : ∀ t ∈ g.wfd, P t) : ∀ t ∈ h.wfd, P t := by
  obtain ⟨prints, hwfd, hP⟩ := hm g a h hrun
  intro t ht
  rw [hwfd] at ht
  rcases List.mem_append.mp ht with ht | ht
  · exact hg t ht
  · exact hP t ht

theorem Prints.pure (a : α) : Prints P (pure a : Gen α) := by
  intro g b h hrun
  cases hrun
  exact ⟨[], by simp⟩

theorem Prints.throw (e : Fault) : Prints P (throw e : Gen α) := by
  intro g a h hrun
  cases hrun

theorem Prints.bind {m : Gen α} {f : α → Gen β} (hm : Prints P m) (hf : ∀ a, Prints P (f a)) :
    Prints P (m >>= f) := by
  intro g b k hrun
  obtain ⟨a, h, hfirst, hrest⟩ := run_bind_eq_ok hrun
  obtain ⟨before, hbefore, hP⟩ := hm g a h hfirst
  obtain ⟨behind, hbehind, hQ⟩ := hf a h b k hrest
  refine ⟨before ++ behind, by rw [hbehind, hbefore, List.append_assoc], ?_⟩
  intro t ht
  rcases List.mem_append.mp ht with ht | ht
  · exact hP t ht
  · exact hQ t ht

theorem Prints.fprintf {text : Text} (h : P text) : Prints P (fprintf text) := by
  intro g a k hrun
  cases hrun
  exact ⟨[text], rfl, by simpa using h⟩

theorem Prints.value : Prints P value := by
  intro g a h hrun
  cases hrun
  exact ⟨[], by simp⟩

theorem Prints.findCategory (database category : Text) :
    Prints P (findCategory database category) := by
  intro g a h hrun
  cases hrun
  exact ⟨[], by simp⟩

theorem Prints.findItem (item : Text) : Prints P (findItem item) := by
  intro g a h hrun
  cases hrun
  exact ⟨[], by simp⟩

theorem Prints.getItemValue : Prints P getItemValue := by
  intro g a h hrun
  cases hrun
  exact ⟨[], by simp⟩

theorem Prints.ite {c : Prop} [Decidable c] {m n : Gen α} (hm : Prints P m) (hn : Prints P n) :
    Prints P (if c then m else n) := by
  split
  · exact hm
  · exact hn

theorem Prints.lift (x : Except Fault α) : Prints P (liftM x : Gen α) := by
  intro g a h hrun
  cases x with
  | error e => cases hrun
  | ok b =>
    cases hrun
    exact ⟨[], by simp⟩

theorem Prints.forM {f : α → Gen PUnit} (hf : ∀ a, Prints P (f a)) (l : List α) :
    Prints P (l.forM f) := by
  induction l with
  | nil => exact .pure _
  | cons a l ih => exact .bind (hf a) fun _ => ih

theorem Prints.foldlM {f : β → α → Gen β} (hf : ∀ b a, Prints P (f b a)) (l : List α) (b : β) :
    Prints P (l.foldlM f b) := by
  induction l generalizing b with
  | nil => exact .pure _
  | cons a l ih => exact .bind (hf b a) fun c => ih c

theorem Prints.readItem (item : Text) : Prints P (readItem item) :=
  .bind (.findItem item) fun _ => .ite .getItemValue (.pure _)

theorem Prints.readResult (database category item : Text) :
    Prints P (readResult database category item) :=
  .bind (.findCategory _ _) fun _ => .ite (.bind (.findItem _) fun _ => .ite
    (.bind .getItemValue fun _ => .ite (.pure _) (.pure _)) (.pure _)) (.pure _)

theorem Prints.readFrom (database category item : Text) :
    Prints P (readFrom database category item) :=
  .bind (.readResult _ _ _) fun _ => .pure _

end Prints

end ConfigGenerate
