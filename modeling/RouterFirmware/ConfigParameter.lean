import RouterFirmware.CString
import RouterFirmware.ConfigBatch

/-! # The scans of the command parameters

The commands take their parameter apart with loops that wait for a space or a `=` and copy what
they pass into buffers of a fixed size. Here the loops are modelled index by index.
-/
namespace ConfigParameter

open TextStream CString SharedProgram ConfigDatabase ConfigScan ConfigEdit ConfigCommand ConfigBatch

/-- The scans of `nk_set_configuration`; `none` when it returns `INVALID_COMD`. -/
def setScan (param : Text) : Except Fault (Option (List Text)) :=
  if param.length < 2 then .ok none
  else do
    let (idx, opcode) ← copyUntil opcodeSize (· == '=') param 0 []
    let (_, tmp) ← copyUntil argvSize (· == '\x00') param (idx + 1) []
    return some [opcode, tmp]

/-- The loops that copy up to the space and from there up to the `=`, with the sizes of their
buffers. -/
def pairScan (first second : ℕ) (param : Text) : Except Fault (ℕ × Text × Text) := do
  let (idx, a) ← copyUntil first (· == ' ') param 0 []
  let (idx, b) ← copyUntil second (· == '=') param (idx + 1) []
  return (idx, a, b)

def modScan (param : Text) : Except Fault (Option (List Text)) :=
  if param.length < 2 then .ok none
  else do
    let (idx, opcode, num) ← pairScan opcodeSize numSize param
    let (_, tmp) ← copyUntil argvSize (· == '\x00') param (idx + 1) []
    return some [opcode, num, tmp]

/-- The scan of `nk_new_setting`, which runs when the category is there. -/
def newScan (found : Bool) (param : Text) : Except Fault (Option (List Text)) :=
  if found then do
    let (_, opcode) ← copyUntil opcodeSize (· == '=') param 0 []
    return some [opcode]
  else .ok (some [])

def deleteScan (param : Text) : Except Fault (Option (List Text)) := do
  let (idx, opcode) ← copyUntil opcodeSize (fun c => c == ' ' || c == '\x00') param 0 []
  let idx ← seek (· != ' ') param idx
  if charAt param idx = some '\x00' then return some [opcode]
  else do
    let (_, num) ← copyUntil numSize (· == '\x00') param idx []
    return some [opcode, num]

def batchScan (parm2 : Text) : Except Fault (Option (List Text)) := do
  let (_, dbField, dbSubfield) ← pairScan argvSize argvSize parm2
  return some [dbField, dbSubfield]

/-- The functions, and for `nk_new_setting` whether the category is there. -/
inductive Command where
  | nkSetConfiguration
  | nkModConfiguration
  | nkNewSetting (found : Bool)
  | nkDeleteSetting
  | kdBatch
  deriving DecidableEq

def Command.scan : Command → Text → Except Fault (Option (List Text))
  | .nkSetConfiguration => setScan
  | .nkModConfiguration => modScan
  | .nkNewSetting found => newScan found
  | .nkDeleteSetting => deleteScan
  | .kdBatch => batchScan

def behindSpace (param : Text) : Text := (param.dropWhile (· != ' ')).drop 1

/-- The `=`, or the space in front of it, is missing. `nk_delete_setting` waits for neither. -/
def Command.Malformed : Command → Text → Prop
  | .nkSetConfiguration, param => '=' ∉ param
  | .nkModConfiguration, param => '=' ∉ behindSpace param
  | .nkNewSetting _, param => '=' ∉ param
  | .nkDeleteSetting, _ => False
  | .kdBatch, param => '=' ∉ behindSpace param

/-- A parameter as it comes from a command line. -/
structure Param where
  text : Text
  chars : '\x00' ∉ text
  short : text.length < argvSize

/-- The scans stay inside the parameter and their buffers, and refuse what is malformed. -/
def Command.Contained (c : Command) (param : Param) : Prop :=
  ∃ r, c.scan param.text = .ok r ∧ (c.Malformed param.text → r = none)

def Command.Fits : Command → Text → Prop
  | .nkSetConfiguration, param => param.length < 2 ∨
    '=' ∈ param ∧ (param.takeWhile (· != '=')).length < opcodeSize
  | .nkModConfiguration, param => param.length < 2 ∨
    '=' ∈ behindSpace param ∧ (param.takeWhile (· != ' ')).length < opcodeSize ∧
      ((behindSpace param).takeWhile (· != '=')).length < numSize
  | .nkNewSetting found, param => '=' ∈ param ∧
    (found = true → (param.takeWhile (· != '=')).length < opcodeSize)
  | .nkDeleteSetting, param => (splitParam param).1.length < opcodeSize ∧
    (splitParam param).2.length < numSize
  | .kdBatch, param => '=' ∈ behindSpace param

section Scans

variable {param w u : Text}

theorem takeWhile_char {ch : Char} (hw : ch ∉ w) (u : Text) :
    (w ++ ch :: u).takeWhile (· != ch) = w := by
  have hall : ∀ c ∈ w, (c != ch) = true := by
    intro c hc
    rw [bne_iff_ne]
    intro he
    exact hw (he ▸ hc)
  rw [List.takeWhile_append_of_pos hall]
  simp

theorem behindSpace_append (hw : ' ' ∉ w) (u : Text) : behindSpace (w ++ ' ' :: u) = u := by
  have hall : ∀ c ∈ w, (c != ' ') = true := by
    intro c hc
    rw [bne_iff_ne]
    intro he
    exact hw (he ▸ hc)
  rw [behindSpace, List.dropWhile_append_of_pos hall]
  simp

theorem behindSpace_of_not_mem (h : ' ' ∉ param) : behindSpace param = [] := by
  have hall : param.dropWhile (· != ' ') = [] := by
    rw [List.dropWhile_eq_nil_iff]
    intro c hc
    rw [bne_iff_ne]
    intro he
    exact h (he ▸ hc)
  rw [behindSpace, hall]
  rfl

/-- A stop that is not there, or that comes too late for the buffer. -/
theorem copyUntil_char_error {ch : Char} (hch : ch ≠ '\x00') {size : ℕ}
    (h : ch ∈ param → size ≤ (param.takeWhile (· != ch)).length) (pre : Text) :
    ∃ f, copyUntil size (· == ch) (pre ++ param) pre.length [] = .error f := by
  refine copyUntil_error ?_ pre
  intro hstop
  obtain ⟨c, hc, he⟩ := hstop
  rw [beq_iff_eq] at he
  subst he
  have hmem : c ∈ param := by
    rcases List.mem_append.mp hc with hc | hc
    · exact hc
    · exact absurd (List.mem_singleton.mp hc) hch
  obtain ⟨w, u, rfl, hw⟩ := List.eq_append_cons_of_mem hmem
  have hlen := h hmem
  have htake : ((w ++ c :: u) ++ ['\x00']).takeWhile (fun d => !(d == c)) = w := by
    rw [List.append_assoc]
    exact takeWhile_char hw (u ++ ['\x00'])
  rw [takeWhile_char hw] at hlen
  rw [htake]
  exact hlen

theorem ok_bind {α β : Type} (a : α) (f : α → Except Fault β) : (Except.ok a >>= f) = f a := rfl

theorem error_bind {α β : Type} (e : Fault) (f : α → Except Fault β) :
    (Except.error e >>= f) = .error e := rfl

/-- The first loop, when its stop comes in time. -/
theorem copyUntil_front {ch : Char} {size : ℕ} (hw : ch ∉ w) (hlen : w.length < size) (u : Text) :
    copyUntil size (· == ch) (w ++ ch :: u) 0 [] = .ok (w.length, w) := by
  have hcopy := copyUntil_char hw hlen [] u
  rwa [List.nil_append, List.length_nil, Nat.zero_add] at hcopy

theorem copyUntil_back {ch : Char} {size : ℕ} {v : Text} (hv : ch ∉ v) (hlen : v.length < size)
    (w : Text) (c : Char) (u : Text) :
    copyUntil size (· == ch) (w ++ c :: (v ++ ch :: u)) (w.length + 1) [] =
      .ok (w.length + 1 + v.length, v) := by
  have hcopy := copyUntil_char hv hlen (w ++ [c]) u
  rwa [List.append_assoc, List.singleton_append, List.length_append, List.length_singleton]
    at hcopy

/-- The last loop runs to the end of the parameter. -/
theorem copyUntil_last {size : ℕ} (c : Char) (hu : '\x00' ∉ u) (hlen : u.length < size) (w : Text) :
    copyUntil size (· == '\x00') (w ++ c :: u) (w.length + 1) [] =
      .ok (w.length + 1 + u.length, u) := by
  have hcopy := copyUntil_end hu hlen (w ++ [c])
  rwa [List.append_assoc, List.singleton_append, List.length_append, List.length_singleton]
    at hcopy

/-- What `nk_set_configuration` takes from a parameter with a `=`. -/
theorem setScan_of_mem (hw : '=' ∉ w) (hlen : w.length < opcodeSize) (hu : '\x00' ∉ u)
    (hshort : u.length < argvSize) (htwo : 2 ≤ (w ++ '=' :: u).length) :
    setScan (w ++ '=' :: u) = .ok (some [w, u]) := by
  rw [setScan, if_neg (by omega), copyUntil_front hw hlen, ok_bind]
  dsimp only
  rw [copyUntil_last '=' hu hshort, ok_bind]
  rfl

theorem pairScan_of_mem {first second : ℕ} {v : Text} (hw : ' ' ∉ w) (hfirst : w.length < first)
    (hv : '=' ∉ v) (hsecond : v.length < second) :
    pairScan first second (w ++ ' ' :: (v ++ '=' :: u)) = .ok (w.length + 1 + v.length, w, v) := by
  rw [pairScan, copyUntil_front hw hfirst, ok_bind]
  dsimp only
  rw [copyUntil_back hv hsecond, ok_bind]
  rfl

theorem pairScan_error {first second : ℕ} (h : ¬ ('=' ∈ behindSpace param ∧
      (param.takeWhile (· != ' ')).length < first ∧
      ((behindSpace param).takeWhile (· != '=')).length < second)) :
    ∃ f, pairScan first second param = .error f := by
  by_cases hfirst : ' ' ∈ param ∧ (param.takeWhile (· != ' ')).length < first
  · obtain ⟨hspace, hlen⟩ := hfirst
    obtain ⟨w, u, rfl, hw⟩ := List.eq_append_cons_of_mem hspace
    rw [takeWhile_char hw] at hlen
    rw [behindSpace_append hw, takeWhile_char hw] at h
    have hback : '=' ∈ u → second ≤ (u.takeWhile (· != '=')).length := by
      intro heq
      by_contra hnum
      exact h ⟨heq, hlen, not_le.mp hnum⟩
    obtain ⟨f, hf⟩ := copyUntil_char_error (by decide) hback (w ++ [' '])
    rw [List.append_assoc, List.singleton_append, List.length_append, List.length_singleton] at hf
    refine ⟨f, ?_⟩
    rw [pairScan, copyUntil_front hw hlen, ok_bind]
    dsimp only
    rw [hf, error_bind]
  · have hfront : ' ' ∈ param → first ≤ (param.takeWhile (· != ' ')).length := by
      intro hspace
      by_contra hlen
      exact hfirst ⟨hspace, not_le.mp hlen⟩
    obtain ⟨f, hf⟩ := copyUntil_char_error (by decide) hfront []
    rw [List.nil_append, List.length_nil] at hf
    exact ⟨f, by rw [pairScan, hf, error_bind]⟩

theorem modScan_of_mem {v : Text} (hw : ' ' ∉ w) (hlen : w.length < opcodeSize) (hv : '=' ∉ v)
    (hnum : v.length < numSize) (hu : '\x00' ∉ u) (hshort : u.length < argvSize)
    (htwo : 2 ≤ (w ++ ' ' :: (v ++ '=' :: u)).length) :
    modScan (w ++ ' ' :: (v ++ '=' :: u)) = .ok (some [w, v, u]) := by
  have hlast := copyUntil_last '=' hu hshort (w ++ ' ' :: v)
  have hidx : (w ++ ' ' :: v).length = w.length + 1 + v.length := by
    rw [List.length_append, List.length_cons]
    omega
  rw [List.append_assoc, List.cons_append, hidx] at hlast
  rw [modScan, if_neg (by omega), pairScan_of_mem hw hlen hv hnum, ok_bind]
  dsimp only
  rw [hlast, ok_bind]
  rfl

/-- The loop of `nk_set_configuration` and of `nk_new_setting`. -/
theorem opcode_error (h : ¬ ('=' ∈ param ∧ (param.takeWhile (· != '=')).length < opcodeSize)) :
    ∃ f, copyUntil opcodeSize (· == '=') param 0 [] = .error f := by
  have hfront : '=' ∈ param → opcodeSize ≤ (param.takeWhile (· != '=')).length := by
    intro heq
    by_contra hlen
    exact h ⟨heq, not_le.mp hlen⟩
  obtain ⟨f, hf⟩ := copyUntil_char_error (by decide) hfront []
  exact ⟨f, hf⟩

theorem takeWhile_congr {p q : Char → Bool} (h : ∀ c ∈ param, p c = q c) :
    param.takeWhile p = param.takeWhile q := by
  induction param with
  | nil => rfl
  | cons c t ih =>
    rw [List.takeWhile_cons, List.takeWhile_cons, h c List.mem_cons_self,
      ih fun d hd => h d (List.mem_cons_of_mem _ hd)]

/-- The word, the spaces and the number of a parameter, as the loops cut it. -/
theorem splitParam_parts (hnul : '\x00' ∉ param) : ∃ w sp num, param = (w ++ sp) ++ num ∧
    splitParam param = (w, num) ∧ '\x00' ∉ num ∧
    param.takeWhile (fun c => !(c == ' ' || c == '\x00')) = w ∧
    (sp ++ num).takeWhile (fun c => !(c != ' ')) = sp := by
  have hrest : (param.dropWhile (· != ' ')).takeWhile (· == ' ') ++
      (param.dropWhile (· != ' ')).dropWhile (· == ' ') = param.dropWhile (· != ' ') :=
    List.takeWhile_append_dropWhile
  have hparam : param = (param.takeWhile (· != ' ') ++
      (param.dropWhile (· != ' ')).takeWhile (· == ' ')) ++
        (param.dropWhile (· != ' ')).dropWhile (· == ' ') := by
    rw [List.append_assoc, hrest, List.takeWhile_append_dropWhile]
  refine ⟨_, _, _, hparam, rfl, ?_, ?_, ?_⟩
  · intro hm
    rw [hparam] at hnul
    exact hnul (List.mem_append_right _ hm)
  · refine takeWhile_congr fun c hc => ?_
    have hne : (c == '\x00') = false := by
      rw [beq_eq_false_iff_ne]
      intro he
      exact hnul (he ▸ hc)
    simp [hne, bne]
  · rw [hrest]
    exact takeWhile_congr fun c _ => by simp [bne]

/-- The last loop of `nk_delete_setting`, behind the word and the spaces. -/
theorem deleteScan_number {sp num : Text} (hnul : '\x00' ∉ num)
    (hcopy : copyUntil opcodeSize (fun c => c == ' ' || c == '\x00') ((w ++ sp) ++ num) 0 [] =
      .ok (w.length, w))
    (hseek : seek (· != ' ') ((w ++ sp) ++ num) w.length = .ok (w ++ sp).length) :
    (∃ r, deleteScan ((w ++ sp) ++ num) = .ok r) ↔ num.length < numSize := by
  rw [deleteScan, hcopy, ok_bind]
  dsimp only
  rw [hseek, ok_bind]
  cases hnumber : num with
  | nil =>
    rw [List.append_nil, if_pos (charAt_length _)]
    exact iff_of_true ⟨_, rfl⟩ (by simp [numSize])
  | cons c t =>
    have hc : c ≠ '\x00' := by
      intro he
      exact hnul (by simp [hnumber, he])
    rw [charAt_append, if_neg (by simpa using hc), ← hnumber]
    by_cases hshort : num.length < numSize
    · rw [copyUntil_end hnul hshort, ok_bind]
      exact iff_of_true ⟨_, rfl⟩ hshort
    · obtain ⟨f, hf⟩ := copyUntil_nul_error (· == '\x00') (by simp)
        ((takeWhile_nul hnul).symm ▸ not_lt.mp hshort) (w ++ sp)
      rw [hf, error_bind]
      exact iff_of_false (by simp) hshort

/-- `nk_delete_setting` copies the word in front of the spaces and the number behind them. -/
theorem deleteScan_iff (hnul : '\x00' ∉ param) : (∃ r, deleteScan param = .ok r) ↔
    (splitParam param).1.length < opcodeSize ∧ (splitParam param).2.length < numSize := by
  obtain ⟨w, sp, num, hparam, hsides, hnum, hword, hspaces⟩ := splitParam_parts hnul
  rw [hsides]
  dsimp only
  by_cases hlen : w.length < opcodeSize
  · have hcopy : copyUntil opcodeSize (fun c => c == ' ' || c == '\x00') param 0 [] =
        .ok (w.length, w) := by
      have h := copyUntil_nul (fun c => c == ' ' || c == '\x00') (by simp)
        (hword.symm ▸ hlen) []
      rwa [hword, List.nil_append, List.length_nil, Nat.zero_add] at h
    have hseek : seek (· != ' ') param w.length = .ok (w ++ sp).length := by
      have h := seek_nul (· != ' ') (by simp) w (sp ++ num)
      rwa [hspaces, ← List.append_assoc, ← hparam, ← List.length_append] at h
    rw [hparam] at hcopy hseek ⊢
    rw [deleteScan_number hnum hcopy hseek]
    exact (and_iff_right hlen).symm
  · obtain ⟨f, hf⟩ := copyUntil_nul_error (fun c => c == ' ' || c == '\x00') (by simp)
      (hword.symm ▸ not_lt.mp hlen) []
    rw [List.nil_append, List.length_nil] at hf
    rw [deleteScan, hf, error_bind]
    exact iff_of_false (by simp) (fun h => hlen h.1)

end Scans

section Commands

variable {param : Param}

theorem contained_of_error {c : Command} {f : Fault} (h : c.scan param.text = .error f) :
    ¬ c.Contained param := by
  intro hc
  obtain ⟨r, hr, -⟩ := hc
  rw [h] at hr
  cases hr

/-- What the scans of `nk_set_configuration` do with a parameter of two characters or more. -/
theorem setScan_cases (param : Param) (htwo : ¬ param.text.length < 2) :
    (∃ w u, param.text = w ++ '=' :: u ∧ '=' ∉ w ∧ w.length < opcodeSize ∧
      setScan param.text = .ok (some [w, u])) ∨
    (¬ ('=' ∈ param.text ∧ (param.text.takeWhile (· != '=')).length < opcodeSize) ∧
      ∃ f, setScan param.text = .error f) := by
  by_cases hfit : '=' ∈ param.text ∧ (param.text.takeWhile (· != '=')).length < opcodeSize
  · left
    obtain ⟨w, u, htext, hw⟩ := List.eq_append_cons_of_mem hfit.1
    have hchars := param.chars
    have hshort := param.short
    have hlen := hfit.2
    rw [htext] at hchars hshort htwo
    rw [htext, takeWhile_char hw] at hlen
    rw [List.length_append, List.length_cons] at hshort
    refine ⟨w, u, htext, hw, hlen, ?_⟩
    rw [htext]
    exact setScan_of_mem hw hlen (fun hm => hchars (by simp [hm])) (by omega) (by omega)
  · right
    obtain ⟨f, hf⟩ := opcode_error hfit
    exact ⟨hfit, f, by rw [setScan, if_neg htwo, hf, error_bind]⟩

theorem nkSetConfiguration_contained_iff (param : Param) :
    Command.nkSetConfiguration.Contained param ↔ Command.nkSetConfiguration.Fits param.text := by
  by_cases htwo : param.text.length < 2
  · exact iff_of_true ⟨none, if_pos htwo, fun _ => rfl⟩ (.inl htwo)
  · rcases setScan_cases param htwo with ⟨w, u, htext, hw, hlen, hscan⟩ | ⟨hfit, f, hf⟩
    · have hmem : '=' ∈ param.text := by simp [htext]
      refine iff_of_true ⟨some [w, u], hscan, fun hm => absurd hmem hm⟩ (.inr ⟨hmem, ?_⟩)
      rw [htext, takeWhile_char hw]
      exact hlen
    · exact iff_of_false (contained_of_error hf) (fun h => h.elim htwo hfit)

/-- The scans take from the parameter what the command works with. -/
theorem nkSetConfiguration_scan {param : Param} {opcode tmp : Text}
    (h : setScan param.text = .ok (some [opcode, tmp])) (type : Text) (dbname : Path) :
    nkSetConfiguration type (some param.text) dbname =
      match addKey type opcode with
      | some key => addConfig type key tmp dbname
      | none => setConfig type opcode tmp 1 dbname := by
  by_cases htwo : param.text.length < 2
  · rw [setScan, if_pos htwo] at h
    cases h
  · rcases setScan_cases param htwo with ⟨w, u, htext, hw, hlen, hscan⟩ | ⟨-, f, hf⟩
    · rw [hscan, Except.ok.injEq, Option.some.injEq, List.cons.injEq, List.cons.injEq] at h
      obtain ⟨rfl, rfl, -⟩ := h
      have hread := readTo_append hw u
      rw [← htext] at hread
      rw [nkSetConfiguration, if_neg htwo, hread]
      dsimp only
      exact if_neg (not_le.mpr hlen)
    · rw [hf] at h
      cases h

theorem nkSetConfiguration_fault {param : Param} {f : Fault} (h : setScan param.text = .error f)
    (type : Text) (dbname : Path) :
    nkSetConfiguration type (some param.text) dbname = .halt .crash := by
  by_cases htwo : param.text.length < 2
  · rw [setScan, if_pos htwo] at h
    cases h
  · rcases setScan_cases param htwo with ⟨w, u, htext, hw, hlen, hscan⟩ | ⟨hfit, -⟩
    · rw [hscan] at h
      cases h
    · rw [nkSetConfiguration, if_neg htwo]
      cases hread : readTo '=' param.text with
      | none => rfl
      | some p =>
        obtain ⟨htext, hp⟩ := eq_of_readTo hread
        dsimp only
        rw [if_pos]
        by_contra hlen
        refine hfit ⟨by simp [htext], ?_⟩
        rw [htext, takeWhile_char hp]
        exact not_le.mp hlen

theorem nkNewSetting_contained_iff (found : Bool) (param : Param) :
    (Command.nkNewSetting found).Contained param ↔
      (Command.nkNewSetting found).Fits param.text := by
  cases found with
  | false =>
    rw [Command.Fits]
    constructor
    · intro h
      obtain ⟨r, hr, hnone⟩ := h
      refine ⟨?_, by simp⟩
      by_contra hno
      rw [hnone hno] at hr
      cases hr
    · intro h
      exact ⟨some [], rfl, fun hm => absurd h.1 hm⟩
  | true =>
    by_cases hfit : '=' ∈ param.text ∧ (param.text.takeWhile (· != '=')).length < opcodeSize
    · refine iff_of_true ?_ ⟨hfit.1, fun _ => hfit.2⟩
      obtain ⟨w, u, htext, hw⟩ := List.eq_append_cons_of_mem hfit.1
      have hlen := hfit.2
      rw [htext, takeWhile_char hw] at hlen
      refine ⟨some [w], ?_, fun hm => absurd hfit.1 hm⟩
      rw [Command.scan, newScan, if_pos rfl, htext, copyUntil_front hw hlen]
      rfl
    · obtain ⟨f, hf⟩ := opcode_error hfit
      refine iff_of_false (contained_of_error (f := f) ?_) ?_
      · rw [Command.scan, newScan, if_pos rfl, hf, error_bind]
      · intro h
        exact hfit ⟨h.1, h.2 rfl⟩

theorem nkDeleteSetting_contained_iff (param : Param) :
    Command.nkDeleteSetting.Contained param ↔ Command.nkDeleteSetting.Fits param.text := by
  rw [Command.Fits, ← deleteScan_iff param.chars]
  constructor
  · intro h
    obtain ⟨r, hr, -⟩ := h
    exact ⟨r, hr⟩
  · intro h
    obtain ⟨r, hr⟩ := h
    exact ⟨r, hr, False.elim⟩

/-- A parameter of the form `opcode number=value`, cut where the loops stop. -/
theorem exists_pair (h : '=' ∈ behindSpace param.text) : ∃ w v u,
    param.text = w ++ ' ' :: (v ++ '=' :: u) ∧ ' ' ∉ w ∧ '=' ∉ v ∧
      param.text.takeWhile (· != ' ') = w ∧ (behindSpace param.text).takeWhile (· != '=') = v := by
  have hspace : ' ' ∈ param.text := by
    by_contra hno
    rw [behindSpace_of_not_mem hno] at h
    cases h
  obtain ⟨w, r, htext, hw⟩ := List.eq_append_cons_of_mem hspace
  rw [htext, behindSpace_append hw] at h
  obtain ⟨v, u, rfl, hv⟩ := List.eq_append_cons_of_mem h
  refine ⟨w, v, u, htext, hw, hv, ?_, ?_⟩
  · rw [htext, takeWhile_char hw]
  · rw [htext, behindSpace_append hw, takeWhile_char hv]

/-- What the two loops up to the space and the `=` do with a parameter. -/
theorem pairScan_cases (param : Param) (first second : ℕ) :
    (∃ w v u, param.text = w ++ ' ' :: (v ++ '=' :: u) ∧ ' ' ∉ w ∧ '=' ∉ v ∧ w.length < first ∧
      v.length < second ∧ pairScan first second param.text = .ok (w.length + 1 + v.length, w, v)) ∨
    (¬ ('=' ∈ behindSpace param.text ∧ (param.text.takeWhile (· != ' ')).length < first ∧
        ((behindSpace param.text).takeWhile (· != '=')).length < second) ∧
      ∃ f, pairScan first second param.text = .error f) := by
  by_cases hfit : '=' ∈ behindSpace param.text ∧
      (param.text.takeWhile (· != ' ')).length < first ∧
      ((behindSpace param.text).takeWhile (· != '=')).length < second
  · left
    obtain ⟨w, v, u, htext, hw, hv, hfirst, hsecond⟩ := exists_pair hfit.1
    rw [hfirst, hsecond] at hfit
    refine ⟨w, v, u, htext, hw, hv, hfit.2.1, hfit.2.2, ?_⟩
    rw [htext, pairScan_of_mem hw hfit.2.1 hv hfit.2.2]
  · exact .inr ⟨hfit, pairScan_error hfit⟩

theorem modScan_cases (param : Param) (htwo : ¬ param.text.length < 2) :
    (∃ w v u, param.text = w ++ ' ' :: (v ++ '=' :: u) ∧ ' ' ∉ w ∧ '=' ∉ v ∧
      w.length < opcodeSize ∧ v.length < numSize ∧
      modScan param.text = .ok (some [w, v, u])) ∨
    (¬ ('=' ∈ behindSpace param.text ∧
        (param.text.takeWhile (· != ' ')).length < opcodeSize ∧
        ((behindSpace param.text).takeWhile (· != '=')).length < numSize) ∧
      ∃ f, modScan param.text = .error f) := by
  rcases pairScan_cases param opcodeSize numSize with
    ⟨w, v, u, htext, hw, hv, hfirst, hsecond, -⟩ | ⟨hfit, f, hf⟩
  · left
    have hchars := param.chars
    have hshort := param.short
    rw [htext] at hchars hshort htwo
    rw [List.length_append, List.length_cons, List.length_append, List.length_cons] at hshort
    refine ⟨w, v, u, htext, hw, hv, hfirst, hsecond, ?_⟩
    rw [htext]
    exact modScan_of_mem hw hfirst hv hsecond (fun hm => hchars (by simp [hm])) (by omega)
      (by omega)
  · exact .inr ⟨hfit, f, by rw [modScan, if_neg htwo, hf, error_bind]⟩

theorem nkModConfiguration_contained_iff (param : Param) :
    Command.nkModConfiguration.Contained param ↔ Command.nkModConfiguration.Fits param.text := by
  by_cases htwo : param.text.length < 2
  · exact iff_of_true ⟨none, if_pos htwo, fun _ => rfl⟩ (.inl htwo)
  · rcases modScan_cases param htwo with
      ⟨w, v, u, htext, hw, hv, hfirst, hsecond, hscan⟩ | ⟨hfit, f, hf⟩
    · have hmem : '=' ∈ behindSpace param.text := by
        rw [htext, behindSpace_append hw]
        simp
      refine iff_of_true ⟨some [w, v, u], hscan, fun hm => absurd hmem hm⟩ (.inr ⟨hmem, ?_, ?_⟩)
      · rw [htext, takeWhile_char hw]
        exact hfirst
      · rw [htext, behindSpace_append hw, takeWhile_char hv]
        exact hsecond
    · exact iff_of_false (contained_of_error hf) (fun h => h.elim htwo hfit)

theorem nkModConfiguration_scan {param : Param} {opcode num tmp : Text}
    (h : modScan param.text = .ok (some [opcode, num, tmp])) (type : Text) (dbname : Path) :
    nkModConfiguration type (some param.text) dbname =
      setConfig type opcode tmp (atoi num) dbname := by
  by_cases htwo : param.text.length < 2
  · rw [modScan, if_pos htwo] at h
    cases h
  · rcases modScan_cases param htwo with ⟨w, v, u, htext, hw, hv, hfirst, hsecond, hscan⟩ | ⟨-, f, hf⟩
    · rw [hscan, Except.ok.injEq, Option.some.injEq, List.cons.injEq, List.cons.injEq,
        List.cons.injEq] at h
      obtain ⟨rfl, rfl, rfl, -⟩ := h
      have hread := readTo_append hw (v ++ '=' :: u)
      rw [← htext] at hread
      rw [nkModConfiguration, if_neg htwo, hread]
      dsimp only
      rw [readTo_append hv]
      dsimp only
      rw [if_neg (not_or.mpr ⟨not_le.mpr hfirst, not_le.mpr hsecond⟩)]
    · rw [hf] at h
      cases h

theorem nkModConfiguration_fault {param : Param} {f : Fault} (h : modScan param.text = .error f)
    (type : Text) (dbname : Path) :
    nkModConfiguration type (some param.text) dbname = .halt .crash := by
  by_cases htwo : param.text.length < 2
  · rw [modScan, if_pos htwo] at h
    cases h
  · rcases modScan_cases param htwo with ⟨w, v, u, -, -, -, -, -, hscan⟩ | ⟨hfit, -⟩
    · rw [hscan] at h
      cases h
    · rw [nkModConfiguration, if_neg htwo]
      cases hfirst : readTo ' ' param.text with
      | none => rfl
      | some p =>
        obtain ⟨htext, hp⟩ := eq_of_readTo hfirst
        dsimp only
        cases hsecond : readTo '=' p.2 with
        | none => rfl
        | some r =>
          obtain ⟨hrest, hr⟩ := eq_of_readTo hsecond
          dsimp only
          rw [if_pos]
          by_contra hlen
          obtain ⟨hopcode, hnum⟩ := not_or.mp hlen
          apply hfit
          rw [htext, behindSpace_append hp, takeWhile_char hp, hrest, takeWhile_char hr]
          exact ⟨by simp, not_le.mp hopcode, not_le.mp hnum⟩

theorem nkDeleteSetting_fault {param : Param} {f : Fault} (h : deleteScan param.text = .error f)
    (type : Text) (dbname : Path) :
    nkDeleteSetting type (some param.text) dbname = .halt .crash := by
  have hlong : ¬ ParamFits param.text := by
    intro hfits
    obtain ⟨r, hr⟩ := (deleteScan_iff param.chars).mpr hfits
    rw [hr] at h
    cases h
  rw [nkDeleteSetting, if_pos (by simpa using hlong)]

theorem kdBatch_contained_iff (param : Param) :
    Command.kdBatch.Contained param ↔ Command.kdBatch.Fits param.text := by
  rcases pairScan_cases param argvSize argvSize with
    ⟨w, v, u, htext, hw, hv, -, -, hscan⟩ | ⟨hfit, f, hf⟩
  · have hmem : '=' ∈ behindSpace param.text := by
      rw [htext, behindSpace_append hw]
      simp
    refine iff_of_true ⟨some [w, v], ?_, fun hm => absurd hmem hm⟩ hmem
    rw [Command.scan, batchScan, hscan, ok_bind]
    rfl
  · refine iff_of_false (contained_of_error (f := f) ?_) ?_
    · rw [Command.scan, batchScan, hf, error_bind]
    · intro hmem
      obtain ⟨w, v, u, htext, -, -, hw, hv⟩ := exists_pair hmem
      have hshort := param.short
      rw [htext, List.length_append, List.length_cons, List.length_append, List.length_cons]
        at hshort
      exact hfit ⟨hmem, by rw [hw]; omega, by rw [hv]; omega⟩

theorem kdBatch_scan {param : Param} {dbField dbSubfield : Text}
    (h : batchScan param.text = .ok (some [dbField, dbSubfield])) (printBuf : Text) :
    kdBatch param.text printBuf =
      if argvSize ≤ dbSubfield.length + printBuf.length + 2 then .halt .crash
      else append .batch >>= fun opened =>
        if opened then put .batch (dbSubfield ++ '=' :: printBuf ++ ['\n']) else .halt .crash := by
  rcases pairScan_cases param argvSize argvSize with
    ⟨w, v, u, htext, hw, hv, hfirst, -, hscan⟩ | ⟨-, f, hf⟩
  · rw [batchScan, hscan, ok_bind] at h
    have hpair : some [w, v] = some [dbField, dbSubfield] := Except.ok.inj h
    rw [Option.some.injEq, List.cons.injEq, List.cons.injEq] at hpair
    obtain ⟨rfl, rfl, -⟩ := hpair
    have hread := readTo_append hw (v ++ '=' :: u)
    rw [← htext] at hread
    rw [kdBatch, hread]
    dsimp only
    rw [readTo_append hv]
    dsimp only
    simp only [not_le.mpr hfirst, false_or]
  · rw [batchScan, hf, error_bind] at h
    cases h

end Commands

/-- The scans stay inside the parameter and their buffers exactly when the stops they wait for are
there and come in time. -/
theorem scans_stay_inside_iff (c : Command) (param : Param) :
    c.Contained param ↔ c.Fits param.text := by
  cases c with
  | nkSetConfiguration => exact nkSetConfiguration_contained_iff param
  | nkModConfiguration => exact nkModConfiguration_contained_iff param
  | nkNewSetting found => exact nkNewSetting_contained_iff found param
  | nkDeleteSetting => exact nkDeleteSetting_contained_iff param
  | kdBatch => exact kdBatch_contained_iff param

/-- A parameter without `=`: the first loop of `nk_set_configuration` runs off its end. -/
theorem missing_equals_overruns :
    let param : Param := ⟨"HOSTNAME".toList, by decide, by decide⟩
    Command.nkSetConfiguration.scan param.text = .error .readPastEnd ∧
      ¬ Command.nkSetConfiguration.Contained param := by
  intro param
  have hscan : Command.nkSetConfiguration.scan param.text = .error .readPastEnd := by
    decide +kernel
  exact ⟨hscan, contained_of_error hscan⟩

end ConfigParameter
