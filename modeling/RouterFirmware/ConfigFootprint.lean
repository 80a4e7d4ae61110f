import RouterFirmware.ConfigBatch

/-! # Which files the commands use

None of the commands that run between the creation and the removal of `/tmp/test.txt` names
that file itself; the commands that change a category stay within its file, `/tmp/stemp` and the
category list.
-/
namespace ConfigFootprint

open TextStream SharedProgram ConfigDatabase ConfigScan ConfigEdit ConfigResolv
open ConfigCommand ConfigBatch

/-- The program uses files in `F` only, and not the lock file. -/
def Within {α : Type} (F : Path → Prop) (m : FsProg α) : Prop :=
  m.Uses fun o => o.isLock = false ∧ ∀ p ∈ o.paths, F p

abbrev NoLock {α : Type} (m : FsProg α) : Prop := Within (fun _ => True) m

/-- The program does not use `/tmp/stemp`. -/
abbrev Apart {α : Type} (m : FsProg α) : Prop := Within (· ≠ .stemp) m

variable {α β : Type} {F : Path → Prop}

theorem Within.bind {m : FsProg α} {f : α → FsProg β} (hm : Within F m)
    (hf : ∀ a, Within F (f a)) : Within F (m >>= f) := uses_bind hm hf

theorem Within.uses {m : FsProg α} (hm : Within F m) : m.Uses fun o => o.isLock = false :=
  hm.mono fun _ ho => ho.1

theorem Within.noLock {m : FsProg α} (hm : Within F m) : NoLock m :=
  hm.mono fun _ ho => ⟨ho.1, fun _ _ => trivial⟩

theorem noLock_of_uses {m : FsProg α} (hm : m.Uses fun o => o.isLock = false) : NoLock m :=
  hm.mono fun _ ho => ⟨ho, fun _ _ => trivial⟩

theorem within_ret (a : α) : Within F (.ret a : FsProg α) := trivial

theorem within_halt (w : Halt) : Within F (.halt w : FsProg α) := trivial

variable {p q : Path}

theorem within_read (hp : F p) : Within F (read p) :=
  ⟨⟨rfl, by simpa [FsOp.paths] using hp⟩, fun _ => trivial⟩

theorem within_create (hp : F p) : Within F (create p) :=
  ⟨⟨rfl, by simpa [FsOp.paths] using hp⟩, fun _ => trivial⟩

theorem within_append (hp : F p) : Within F (append p) :=
  ⟨⟨rfl, by simpa [FsOp.paths] using hp⟩, fun _ => trivial⟩

theorem within_put (hp : F p) (t : Text) : Within F (put p t) :=
  ⟨⟨rfl, by simpa [FsOp.paths] using hp⟩, fun _ => trivial⟩

theorem within_rename (hp : F p) (hq : F q) : Within F (rename p q) :=
  ⟨⟨rfl, by simpa [FsOp.paths] using ⟨hp, hq⟩⟩, fun _ => trivial⟩

/-- The steps of a command that changes the file `p`: it reads the file, writes the new text to
`/tmp/stemp` and moves that over the file. -/
def Edits (p : Path) : FsOp → Prop
  | .read q => q = p
  | .create q => q = .stemp
  | .put q _ => q = .stemp
  | .rename q r => q = .stemp ∧ r = p
  | _ => False

theorem within_of_edits (hs : F .stemp) (hp : F p) {m : FsProg α} (h : m.Uses (Edits p)) :
    Within F m := by
  refine h.mono fun o ho => ?_
  cases o with
  | read q => exact ⟨rfl, by simpa [FsOp.paths, show q = p from ho] using hp⟩
  | create q => exact ⟨rfl, by simpa [FsOp.paths, show q = .stemp from ho] using hs⟩
  | put q t => exact ⟨rfl, by simpa [FsOp.paths, show q = .stemp from ho] using hs⟩
  | rename q r =>
    obtain ⟨rfl, rfl⟩ := ho
    exact ⟨rfl, by simpa [FsOp.paths] using ⟨hs, hp⟩⟩
  | lockOpen => exact ho.elim
  | lockUnlink => exact ho.elim
  | append q => exact ho.elim
  | unlink q => exact ho.elim

theorem edits_create : (create .stemp).Uses (Edits p) := ⟨rfl, fun _ => trivial⟩

theorem edits_put (t : Text) : (put .stemp t).Uses (Edits p) := ⟨rfl, fun _ => trivial⟩

theorem edits_insertItem (text rest item : Text) (flag : Bool) :
    (insertItem text rest item flag).Uses (Edits p) := by
  refine uses_bind edits_create fun opened => ?_
  split
  · split
    · trivial
    · exact uses_bind (edits_put _) fun _ => trivial
  · trivial

theorem edits_removeItem (text rest : Text) : (removeItem text rest).Uses (Edits p) := by
  refine uses_bind edits_create fun opened => ?_
  split
  · split
    · trivial
    · exact uses_bind (edits_put _) fun _ => trivial
  · trivial

theorem edits_removeCategory (text rest : Text) :
    (removeCategory text rest).Uses (Edits p) := by
  refine uses_bind edits_create fun opened => ?_
  split
  · exact uses_bind (edits_put _) fun _ => trivial
  · trivial

/-- What a property of programs needs to hold of the commands that change the file `p`: every one
of them ends by moving `/tmp/stemp` over the file. -/
structure EditRule (p : Path) (P : (α : Type) → FsProg α → Prop) : Prop where
  ret : ∀ {α : Type} (a : α), P α (.ret a)
  halt : ∀ {α : Type} (w : Halt), P α (.halt w)
  bind : ∀ {α β : Type} {m : FsProg α} {f : α → FsProg β}, P α m → (∀ a, P β (f a)) →
    P β (m >>= f)
  read : P _ (read p)
  finish : ∀ {m : FsProg Result}, m.Uses (Edits p) →
    P Result (do let result ← m; rename .stemp p; return result)

section Rule

variable {P : (α : Type) → FsProg α → Prop}

theorem EditRule.setConfig (h : EditRule p P) (category item value : Text) (number : ℤ) :
    P _ (setConfig category item value number p) := by
  refine h.bind h.read fun opened => ?_
  split
  · exact h.ret _
  split
  · exact h.finish (m := .ret _) trivial
  split
  · exact h.ret _
  split
  · exact h.finish (m := .ret _) trivial
  · exact h.finish (edits_insertItem _ _ _ _)

theorem EditRule.addConfig (h : EditRule p P) (category item value : Text) :
    P _ (addConfig category item value p) := by
  refine h.bind h.read fun opened => ?_
  split
  · exact h.ret _
  split
  · exact h.finish (m := .ret _) trivial
  · exact h.finish (edits_insertItem _ _ _ _)

theorem EditRule.nkSetConfiguration (h : EditRule p P) (type : Text) (param : Option Text) :
    P _ (nkSetConfiguration type param p) := by
  unfold ConfigCommand.nkSetConfiguration
  split
  · exact h.ret _
  split
  · exact h.ret _
  split
  · exact h.halt _
  split
  · exact h.halt _
  split
  · exact h.addConfig _ _ _
  · exact h.setConfig _ _ _ _

theorem EditRule.nkModConfiguration (h : EditRule p P) (type : Text) (param : Option Text) :
    P _ (nkModConfiguration type param p) := by
  unfold ConfigCommand.nkModConfiguration
  split
  · exact h.ret _
  split
  · exact h.ret _
  split
  · exact h.halt _
  split
  · exact h.halt _
  split
  · exact h.halt _
  · exact h.setConfig _ _ _ _

theorem EditRule.nkDeleteSetting (h : EditRule p P) (type : Text) (param : Option Text) :
    P _ (nkDeleteSetting type param p) := by
  unfold ConfigCommand.nkDeleteSetting
  split
  · exact h.halt _
  refine h.bind h.read fun opened => ?_
  split
  · exact h.ret _
  split
  · split
    · exact h.finish (edits_removeCategory _ _)
    · exact h.finish (m := .ret _) trivial
  dsimp only
  split
  · exact h.halt _
  · unfold deleteItem
    split
    · exact h.finish (edits_removeItem _ _)
    · exact h.finish (m := .ret _) trivial

/-- `nk_new_setting` also creates the file, and appends to it and to the category list. -/
structure NewRule (p : Path) (P : (α : Type) → FsProg α → Prop) : Prop extends EditRule p P where
  create : P _ (create p)
  append : ∀ q, q = p ∨ q = .categoryList → P _ (append q)
  put : ∀ q, q = p ∨ q = .categoryList → ∀ t, P _ (put q t)

theorem NewRule.nkNewSetting (h : NewRule p P) (type : Text) (param : Option Text) :
    P _ (nkNewSetting type param p) := by
  refine h.bind h.read fun opened => ?_
  extract_lets next
  have hnext : ∀ found, P _ (next found) := by
    intro found
    simp only [next]
    split
    · exact h.ret _
    split
    · exact h.halt _
    · split
      · exact h.halt _
      split
      · exact h.halt _
      split
      · exact h.ret _
      · exact h.finish (edits_insertItem _ _ _ _)
    · refine h.bind (h.append _ (.inl rfl)) fun appended => ?_
      split
      · refine h.bind (h.put _ (.inl rfl) _) fun _ =>
          h.bind (h.append _ (.inr rfl)) fun listed => ?_
        split
        · exact h.bind (h.put _ (.inr rfl) _) fun _ => h.ret _
        · exact h.ret _
      · exact h.ret _
  split
  · exact h.bind (h.ret _) hnext
  · refine h.bind h.create fun created => ?_
    split <;> exact h.bind (h.ret _) hnext

end Rule

theorem editsRule (p : Path) : EditRule p fun _ m => m.Uses (Edits p) where
  ret _ := trivial
  halt _ := trivial
  bind := uses_bind
  read := ⟨rfl, fun _ => trivial⟩
  finish h := uses_bind h fun _ => ⟨⟨rfl, rfl⟩, fun _ => trivial⟩

theorem withinRule (hs : F .stemp) (hl : F .categoryList) (hp : F p) :
    NewRule p fun _ m => Within F m where
  ret := within_ret
  halt := within_halt
  bind := Within.bind
  read := within_read hp
  finish h := within_of_edits hs hp ((editsRule p).finish h)
  create := within_create hp
  append q hq := by
    rcases hq with rfl | rfl
    · exact within_append hp
    · exact within_append hl
  put q hq t := by
    rcases hq with rfl | rfl
    · exact within_put hp t
    · exact within_put hl t

/-- The commands that change a category use its file, `/tmp/stemp` and the category list. -/
theorem within_update {cmd : Char} (hc : cmd ∈ ['w', 'm', 'n', 'd']) (hs : F .stemp)
    (hl : F .categoryList) (hp : F p) (env : Externals) (type : Text) (paras : Option Text) :
    Within F (nkProcessComd env cmd type paras p) := by
  have h := withinRule hs hl hp
  simp only [List.mem_cons, List.not_mem_nil, or_false] at hc
  rcases hc with rfl | rfl | rfl | rfl
  · exact h.bind (h.nkSetConfiguration _ _) fun _ => h.ret _
  · exact h.bind (h.nkModConfiguration _ _) fun _ => h.ret _
  · exact h.bind (h.nkNewSetting _ _) fun _ => h.ret _
  · exact h.bind (h.nkDeleteSetting _ _) fun _ => h.ret _

theorem within_nkPrintSetting (type : Text) (param : Option Text) (flag : Bool)
    (hp : F (if flag then .backupSysFile else p)) :
    Within F (nkPrintSetting type param flag p) := by
  refine .bind (within_read hp) fun opened => ?_
  split
  · exact within_ret _
  split
  · exact within_halt _
  split
  · exact within_ret _
  · exact within_halt _

theorem apart_getNumKdsys (name : Text) : Apart (getNumKdsys name) := by
  refine .bind (within_read (by simp)) fun opened => ?_
  split <;> exact within_ret _

theorem apart_createResolv : Apart createResolv := by
  refine .bind (apart_getNumKdsys _) fun wan => .bind (apart_getNumKdsys _) fun dmz =>
    .bind (apart_getNumKdsys _) fun usb => .bind (within_read (by simp)) fun opened => ?_
  split
  · exact within_ret _
  split
  · refine .bind (within_create (by simp)) fun created => ?_
    split
    · exact .bind (within_put (by simp) _) fun _ => within_ret _
    · exact within_ret _
  · exact within_halt _

theorem noLock_nkCreateDb (env : Externals) (type : Text) : NoLock (nkCreateDb env type) := by
  unfold nkCreateDb
  split
  · exact apart_createResolv.noLock
  · exact noLock_of_uses (env.createDb_lock type)

theorem noLock_nkProcessComd (env : Externals) (cmd : Char) (type : Text) (paras : Option Text)
    (dbname : Path) : NoLock (nkProcessComd env cmd type paras dbname) := by
  by_cases hc : cmd ∈ ['w', 'm', 'n', 'd']
  · exact within_update hc trivial trivial trivial env type paras
  unfold nkProcessComd
  split
  · exact .bind (noLock_nkCreateDb _ _) fun _ => within_ret _
  · simp at hc
  · exact within_nkPrintSetting _ _ _ trivial
  · exact within_nkPrintSetting _ _ _ trivial
  · simp at hc
  · simp at hc
  · simp at hc
  · exact within_nkPrintSetting _ _ _ trivial
  · exact within_ret _

theorem noLock_runCommand (env : Externals) (comd : Char) (argument : Text) :
    NoLock (runCommand env comd argument) :=
  .bind (noLock_nkProcessComd _ _ _ _ _) fun _ => within_ret _

theorem within_putAll (hp : F p) (ls : List Text) : Within F (putAll p ls) := by
  induction ls with
  | nil => exact within_ret _
  | cons l ls ih => exact .bind (within_put hp _) fun _ => ih

theorem apart_batchConfigLoop (field subfeild : Text) (ls : List Text) :
    Apart (batchConfigLoop field subfeild ls) := by
  induction ls with
  | nil => exact within_ret _
  | cons l ls ih =>
    refine .bind (within_put (by simp) _) fun _ => ?_
    split
    · exact .bind (within_read (by simp)) fun _ =>
        .bind (within_putAll (by simp) _) fun _ => within_putAll (by simp) _
    · exact ih

theorem apart_batchConfig (field subfeild : Text) : Apart (batchConfig field subfeild) := by
  refine .bind (within_read (by simp)) fun opened => ?_
  split
  · exact within_halt _
  refine .bind (within_create (by simp)) fun created => ?_
  split
  · exact .bind (apart_batchConfigLoop _ _ _) fun _ => within_ret _
  · exact within_halt _

theorem apart_splitLoop (dest : Option Text) (ls : List Text) : Apart (splitLoop dest ls) := by
  induction ls generalizing dest with
  | nil => exact within_ret _
  | cons l ls ih =>
    unfold splitLoop
    split
    · refine .bind (within_put (by simp) _) fun _ =>
        .bind (within_create (by simp)) fun created => ?_
      split
      · exact .bind (within_put (by simp) _) fun _ => ih _
      · exact within_ret _
    split
    · exact ih _
    split
    · exact ih _
    · exact .bind (within_put (by simp) _) fun _ => ih _

theorem apart_mergeFile (sum : ℕ) (ls : List Text) : Apart (mergeFile sum ls) := by
  induction ls generalizing sum with
  | nil => exact within_ret _
  | cons l ls ih => exact .bind (within_put (by simp) _) fun _ => ih _

theorem apart_mergeLoop (sum : ℕ) (ls : List Text) : Apart (mergeLoop sum ls) := by
  induction ls generalizing sum with
  | nil => exact within_ret _
  | cons l ls ih =>
    refine .bind (within_read (by simp)) fun opened => ?_
    split
    · exact within_ret _
    split
    · exact ih _
    · exact .bind (apart_mergeFile _ _) fun _ => .bind (within_put (by simp) _) fun _ => ih _

end ConfigFootprint
