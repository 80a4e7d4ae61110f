import RouterFirmware.ConfigFootprint
import RouterFirmware.ConfigDelete

/-! # The lock file of the configuration database

Every entry point creates `/tmp/test.txt` with `O_EXCL` and unlinks it by hand. What is left of
a call behind its `unlink` decides whether the lock excludes other processes, and the paths
without an `unlink` decide whether the lock file outlives the call.
-/
namespace ConfigLock

open TextStream SharedProgram LockProtocol ConfigDatabase ConfigCommand ConfigBatch
open ConfigFootprint ConfigDelete

section Shape

variable {α β : Type}

/-- The shape of most entry points: `m` runs with the lock file, `f` after its removal. -/
def locked (m : FsProg α) (f : α → FsProg β) : FsProg β := do
  lockOpen
  let a ← m
  lockUnlink
  f a

theorem body_command (env : Externals) {option argument : Text} (hdash : argument.head? ≠ some '-')
    (hoption : option ∉ ["-?", "-h", "-v"].map String.toList) (ha : option.getD 1 '\x00' ≠ 'a') :
    Call.body env (.nkSysconfig option argument) =
      locked (runCommand env (option.getD 1 '\x00') argument)
        fun reply => .ret (.command reply.1 reply.2) := by
  simp only [Call.body, ConfigCommand.nkSysconfig, if_neg hdash, if_neg hoption, if_neg ha, locked,
    bind_bind]
  rfl

/-- Every other call of `nk_sysconfig` leaves the lock file alone. -/
theorem noLock_nkSysconfig (env : Externals) {option argument : Text}
    (h : argument.head? = some '-' ∨ option ∈ ["-?", "-h", "-v"].map String.toList ∨
      option.getD 1 '\x00' = 'a') :
    NoLock (Call.body env (.nkSysconfig option argument)) := by
  refine .bind ?_ fun reply => within_ret _
  unfold ConfigCommand.nkSysconfig
  split
  · exact noLock_of_uses (env.sysconfig_lock _ _)
  split
  · exact within_ret _
  · next hdash hoption =>
    have ha : option.getD 1 '\x00' = 'a' := (h.resolve_left hdash).resolve_left hoption
    simp only [if_pos ha]
    exact noLock_runCommand _ _ _

theorem body_nkSysconfig (env : Externals) (option argument : Text) :
    NoLock (Call.body env (.nkSysconfig option argument)) ∨
    Call.body env (.nkSysconfig option argument) =
      locked (runCommand env (option.getD 1 '\x00') argument)
        fun reply => .ret (.command reply.1 reply.2) := by
  by_cases h : argument.head? = some '-' ∨ option ∈ ["-?", "-h", "-v"].map String.toList ∨
      option.getD 1 '\x00' = 'a'
  · exact .inl (noLock_nkSysconfig env h)
  · obtain ⟨hdash, hoption, ha⟩ := not_or.mp h |>.imp_right not_or.mp
    exact .inr (body_command env hdash hoption ha)

theorem body_kdBatchUpdateDB (env : Externals) (field subfeild : Text) :
    Call.body env (.kdBatchUpdateDB field subfeild) =
      locked (batchConfig field subfeild) fun result =>
        if result then .step (.rename .batchBackup (.split field)) fun _ =>
          .step (.unlink .batch) fun _ => .ret (.flag true)
        else .ret (.flag false) := by
  simp only [Call.body, ConfigBatch.kdBatchUpdateDB, locked, bind_bind]
  congr
  funext _
  congr
  funext result
  cases result <;> rfl

theorem body_batchGetConfigM (env : Externals) (field subfield : Text) :
    Call.body env (.batchGetConfigM field subfield) =
      locked (read (.split field)) fun src => match src with
        | none => .halt .crash
        | some text => .ret (.entries (categoryEntries field subfield (chunks text))) := by
  simp only [Call.body, ConfigBatch.batchGetConfigM, locked, bind_bind]
  congr
  funext _
  congr
  funext src
  cases src <;> rfl

theorem body_batchGetConfig (env : Externals) (field subfield : Text) :
    Call.body env (.batchGetConfig field subfield) =
      locked (read (.split field)) fun src => match src with
        | none => .halt .crash
        | some text =>
          .ret (.list (.ofLocal (categoryEntries field subfield (chunks text)).reverse)) := by
  simp only [Call.body, ConfigBatch.batchGetConfig, ConfigBatch.batchGetConfigM, locked, bind_bind]
  congr
  funext _
  congr
  funext src
  cases src <;> rfl

end Shape

section Mutex

/-- All that can be left of a call that has removed the lock file. -/
inductive Remainder : Call → FsProg Reply → Prop
  | returned (c : Call) (a : Reply) : Remainder c (.ret a)
  | crashed (f x : Text) (w : Halt) : Remainder (.batchGetConfig f x) (.halt w)
  | crashedM (f x : Text) (w : Halt) : Remainder (.batchGetConfigM f x) (.halt w)
  | install (f x : Text) : Remainder (.kdBatchUpdateDB f x)
      (.step (.rename .batchBackup (.split f)) fun _ =>
        .step (.unlink .batch) fun _ => .ret (.flag true))
  | cleanup (f x : Text) : Remainder (.kdBatchUpdateDB f x)
      (.step (.unlink .batch) fun _ => .ret (.flag true))
  | merge (m : FsProg Reply) : Remainder .mergeToRAM m

theorem Remainder.next {c : Call} {o : FsOp} {k : o.Res → FsProg Reply}
    (h : Remainder c (.step o k)) (r : o.Res) : Remainder c (k r) := by
  cases h with
  | install f x => exact .cleanup f x
  | cleanup f x => exact .returned _ _
  | merge => exact .merge _

variable {α : Type} {m : FsProg α} {f : α → FsProg Reply}

theorem noRelease {β : Type} {m : FsProg β} (hm : NoLock m) :
    m.Uses fun o => ¬ fileLock.release o := by
  refine hm.mono fun o ho => ?_
  cases o <;> simp_all [fileLock, FsOp.isLock]

theorem noEarlyRelease_of_noLock {m : FsProg Reply} (hm : NoLock m) :
    NoEarlyRelease fileLock m := by
  induction m with
  | ret a => trivial
  | halt w => trivial
  | step o k ih => exact .inr ⟨(noRelease hm).1, fun r => ih r (hm.2 r)⟩

theorem releaseThen_lockOpen {Q : FsProg Reply → Prop} {f : Unit → FsProg Reply}
    (hf : ReleaseThen fileLock Q (f ())) : ReleaseThen fileLock Q (lockOpen >>= f) :=
  fun _ => ⟨nofun, hf⟩

theorem releaseThen_lockUnlink {Q : FsProg Reply → Prop} {f : Unit → FsProg Reply}
    (hq : Q (f ())) (hf : ReleaseThen fileLock Q (f ())) :
    ReleaseThen fileLock Q (lockUnlink >>= f) :=
  fun _ => ⟨fun _ => hq, hf⟩

theorem releaseThen_locked {Q : FsProg Reply → Prop} (hm : NoLock m) (hq : ∀ a, Q (f a))
    (hf : ∀ a, ReleaseThen fileLock Q (f a)) : ReleaseThen fileLock Q (locked m f) :=
  releaseThen_lockOpen (releaseThen_bind (noRelease hm) fun a =>
    releaseThen_lockUnlink (hq a) (hf a))

theorem noEarlyRelease_body (env : Externals) (c : Call) :
    NoEarlyRelease fileLock (c.body env) := by
  cases c with
  | nkSysconfig option argument =>
    rcases body_nkSysconfig env option argument with h | h
    · exact noEarlyRelease_of_noLock h
    · rw [h]
      exact .inl rfl
  | kdBatchUpdateDB field subfeild => exact .inl rfl
  | batchGetConfig field subfield => exact .inl rfl
  | batchGetConfigM field subfield => exact .inl rfl
  | splitDB => exact .inl rfl
  | mergeToRAM => exact .inl rfl

theorem releaseThen_splitDB (env : Externals) :
    ReleaseThen fileLock (Remainder .splitDB) (Call.body env .splitDB) := by
  simp only [Call.body, ConfigBatch.splitDB, bind_bind]
  refine releaseThen_lockOpen (releaseThen_bind (noRelease (within_read trivial)) fun opened => ?_)
  cases opened with
  | none => trivial
  | some text =>
    simp only [bind_bind]
    refine releaseThen_bind (noRelease (within_create trivial)) fun created => ?_
    cases created with
    | false => trivial
    | true =>
      simp only [if_true, bind_bind]
      refine releaseThen_bind (noRelease (apart_splitLoop _ _).noLock) fun _ => ?_
      exact releaseThen_lockUnlink (.returned _ _) trivial

theorem releaseThen_all {Q : FsProg Reply → Prop} (hQ : ∀ m, Q m) (m : FsProg Reply) :
    ReleaseThen fileLock Q m := by
  induction m with
  | ret a => trivial
  | halt w => trivial
  | step o k ih => exact fun r => ⟨fun _ => hQ _, ih r⟩

/-- What each entry point leaves behind its `unlink`. -/
theorem releaseThen_body (env : Externals) (c : Call) :
    ReleaseThen fileLock (Remainder c) (c.body env) := by
  cases c with
  | nkSysconfig option argument =>
    rcases body_nkSysconfig env option argument with h | h
    · exact releaseThen_of_uses (noRelease h)
    · rw [h]
      exact releaseThen_locked (noLock_runCommand _ _ _) (fun _ => .returned _ _) fun _ => trivial
  | kdBatchUpdateDB field subfeild =>
    rw [body_kdBatchUpdateDB]
    refine releaseThen_locked (apart_batchConfig _ _).noLock (fun result => ?_) fun result => ?_
    · cases result with
      | false => exact .returned _ _
      | true => exact .install _ _
    · cases result with
      | false => trivial
      | true => exact fun _ => ⟨nofun, fun _ => ⟨nofun, trivial⟩⟩
  | batchGetConfig field subfield =>
    rw [body_batchGetConfig]
    refine releaseThen_locked (within_read trivial) (fun src => ?_) fun src => ?_
    · cases src with
      | none => exact .crashed _ _ _
      | some text => exact .returned _ _
    · cases src <;> trivial
  | batchGetConfigM field subfield =>
    rw [body_batchGetConfigM]
    refine releaseThen_locked (within_read trivial) (fun src => ?_) fun src => ?_
    · cases src with
      | none => exact .crashedM _ _ _
      | some text => exact .returned _ _
    · cases src <;> trivial
  | splitDB => exact releaseThen_splitDB env
  | mergeToRAM => exact releaseThen_all .merge _

abbrev ConfigSystem (Pid : Type) := System FsOp FsOp.Res FileSys Pid Call Reply

variable {Pid : Type}

/-- `kdBatchUpdateDB` has removed the lock file, and its new file is not in place yet. -/
def Installing (s : ConfigSystem Pid) (q : Pid) : Prop :=
  (s.thread q).phase = .released ∧ ∃ f x k,
    (s.thread q).current = some (.kdBatchUpdateDB f x, .step (.rename .batchBackup (.split f)) k)

/-- `MergeToRAM` has removed the lock file it created, and goes on. -/
def Merging (s : ConfigSystem Pid) (q : Pid) : Prop :=
  (s.thread q).phase = .released ∧ ∃ m, (s.thread q).current = some (.mergeToRAM, m)

/-- The move does not create the lock file while another process uses the database without. -/
def Undisturbed (s : ConfigSystem Pid) (p : Pid) : Prop :=
  Creates fileLock s p → ∀ q, q ≠ p → ¬ Installing s q ∧ ¬ Merging s q

/-- In every run in which no process creates the lock file while `kdBatchUpdateDB` is between its
`unlink` and its `rename`, or `MergeToRAM` behind its first `unlink`, the lock excludes. -/
theorem lock_excludes [DecidableEq Pid] (env : Externals) (fs : FileSys) (todo : Pid → List Call)
    (sched : List Pid)
    (hf : Follows fileLock (Call.body env) Undisturbed (initial fs todo) sched) :
    Exclusive fileLock (fun o => o.access)
      (runSchedule fileLock (Call.body env) (initial fs todo) sched) := by
  refine exclusion (noEarlyRelease_body env) (releaseThen_body env)
    (fun c o k r h => h.next r) ?_ fs todo hf
  intro s p hok hcreate q c m hq hm hph hrem
  obtain ⟨hinstall, hmerge⟩ := hok hcreate q hq
  rw [Prog.Reaches, not_not]
  cases hrem with
  | returned => trivial
  | crashed => trivial
  | crashedM => trivial
  | install f x => exact absurd ⟨hph, f, x, _, hm⟩ hinstall
  | cleanup f x => exact ⟨by simp [FsOp.access, Path.isDatabase, fileLock], fun _ => trivial⟩
  | merge => exact absurd ⟨hph, m, hm⟩ hmerge

/-- `MergeToRAM` in one process, a command that prints an item in the other. -/
def mergeAndPrint (p : Bool) : List Call :=
  if p then [.mergeToRAM] else [.nkSysconfig "-p".toList "C K".toList]

def oneItem : FileSys := .single (.split "C".toList) "[C]\nK=1\n".toList

/-- `MergeToRAM` is about to read the category list when the other process, which has the lock
file now, is about to read its category. -/
theorem merge_overlaps_print :
    ¬ Exclusive fileLock (fun o => o.access)
      (runSchedule fileLock (Call.body noExternals) (initial oneItem mergeAndPrint)
        [true, true, true, true, false, false]) := by
  rintro ⟨hinside, -⟩
  have htwo : true = false := by
    apply hinside
    · exact ⟨_, _, rfl, by decide, fun hu => hu.1 rfl⟩
    · exact ⟨_, _, rfl, by decide, fun hu => hu.1 rfl⟩
  cases htwo

/-- A run in which nobody else is past its `unlink` at any move. -/
theorem lock_excludes_merge_then_print :
    Exclusive fileLock (fun o => o.access)
      (runSchedule fileLock (Call.body noExternals) (initial oneItem mergeAndPrint)
        [true, false, true, false, true, true, true, false]) := by
  have hf : Follows fileLock (Call.body noExternals)
      (fun s p => ∀ q, q ≠ p → (s.thread q).phase ≠ .released) (initial oneItem mergeAndPrint)
      [true, false, true, false, true, true, true, false] := by decide +kernel
  apply lock_excludes
  refine hf.mono fun s p h _ q hq => ?_
  exact ⟨fun hi => h q hq hi.1, fun hm => h q hq hm.1⟩

end Mutex

section Release

variable {α β : Type}

/-- Started without the lock file, the program returns without it. -/
def KeepsFree (m : FsProg α) : Prop :=
  ∀ fs a fs', fs.lockFile = false → m.run exec fs = some (a, fs') → fs'.lockFile = false

theorem keepsFree_of_noLock {m : FsProg α} (hm : NoLock m) : KeepsFree m := by
  intro fs a fs' hfree h
  rw [run_lockFile hm.uses h, hfree]

theorem KeepsFree.bind {m : FsProg α} {f : α → FsProg β} (hm : KeepsFree m)
    (hf : ∀ a, KeepsFree (f a)) : KeepsFree (m >>= f) := by
  intro fs b fs' hfree h
  rw [run_bind, Option.bind_eq_some_iff] at h
  obtain ⟨⟨a, t⟩, ht, h⟩ := h
  exact hf a t b fs' (hm fs a t hfree ht) h

theorem lockFile_of_unlink {f : Unit → FsProg β} {fs fs' : FileSys} {b : β}
    (h : (lockUnlink >>= f).run exec fs = some (b, fs')) (hf : KeepsFree (f ())) :
    fs'.lockFile = false :=
  hf _ b fs' rfl h

theorem keepsFree_locked {m : FsProg α} {f : α → FsProg β} (hf : ∀ a, KeepsFree (f a)) :
    KeepsFree (locked m f) := by
  intro fs b fs' hfree h
  rw [locked, run_lockOpen_bind hfree, run_bind, Option.bind_eq_some_iff] at h
  obtain ⟨⟨a, t⟩, -, h⟩ := h
  exact lockFile_of_unlink h (hf a)

theorem keepsFree_mergeToRAM : KeepsFree mergeToRAM := by
  intro fs b fs' hfree h
  rw [ConfigBatch.mergeToRAM, run_lockOpen_bind hfree] at h
  refine lockFile_of_unlink h (.bind (keepsFree_of_noLock (within_create trivial)) ?_)
  intro created
  split
  · refine .bind (keepsFree_of_noLock (within_read trivial)) fun opened => ?_
    split
    · exact keepsFree_of_noLock (within_ret _)
    refine .bind (keepsFree_of_noLock (apart_mergeLoop _ _).noLock) fun merged => ?_
    split
    · exact keepsFree_of_noLock (within_ret _)
    · refine .bind (keepsFree_of_noLock (within_put trivial _)) fun _ =>
        .bind (keepsFree_of_noLock (within_put trivial _)) fun _ =>
        .bind (keepsFree_of_noLock (within_rename trivial trivial)) fun _ => ?_
      exact fun fs b fs' _ h => lockFile_of_unlink h (keepsFree_of_noLock (within_ret _))
  · exact keepsFree_of_noLock (within_ret _)

/-- `splitDB` finds no database, or cannot create the category list. -/
def Stuck (c : Call) (fs : FileSys) : Prop :=
  c = .splitDB ∧ (fs.content .sysFile = none ∨ fs.writable .categoryList = false)

theorem run_splitDB_stuck (env : Externals) {fs : FileSys} (hfree : fs.lockFile = false)
    (h : fs.content .sysFile = none ∨ fs.writable .categoryList = false) :
    (Call.body env .splitDB).run exec fs = some (.void, { fs with lockFile := true }) := by
  simp only [Call.body, ConfigBatch.splitDB, bind_bind]
  rw [run_lockOpen_bind hfree, run_read_bind]
  have hcontent : FileSys.content { fs with lockFile := true } .sysFile = fs.content .sysFile := rfl
  rw [hcontent]
  cases htext : fs.content .sysFile with
  | none => rfl
  | some text =>
    have hwritable : fs.writable .categoryList = false := by simpa [htext] using h
    simp only [bind_bind, run_create_bind, hwritable]
    rfl

theorem splitDB_releases (env : Externals) {fs : FileSys} (hfree : fs.lockFile = false)
    (hopen : fs.content .sysFile ≠ none) (hlist : fs.writable .categoryList = true) {a : Reply}
    {fs' : FileSys} (h : (Call.body env .splitDB).run exec fs = some (a, fs')) :
    fs'.lockFile = false := by
  obtain ⟨text, htext⟩ := Option.ne_none_iff_exists'.mp hopen
  have hcontent : FileSys.content { fs with lockFile := true } .sysFile = some text := htext
  simp only [Call.body, ConfigBatch.splitDB, bind_bind] at h
  rw [run_lockOpen_bind hfree, run_read_bind, hcontent] at h
  simp only [bind_bind, run_create_bind, hlist, if_true] at h
  rw [run_bind, Option.bind_eq_some_iff] at h
  obtain ⟨⟨u, t⟩, -, h⟩ := h
  exact lockFile_of_unlink h (keepsFree_of_noLock (within_ret _))

theorem body_releases (env : Externals) (c : Call) {fs : FileSys} (hfree : fs.lockFile = false) :
    (∀ a fs', (c.body env).run exec fs = some (a, fs') → fs'.lockFile = false) ↔ ¬ Stuck c fs := by
  have free : KeepsFree (c.body env) → c ≠ .splitDB →
      ((∀ a fs', (c.body env).run exec fs = some (a, fs') → fs'.lockFile = false) ↔
        ¬ Stuck c fs) := by
    intro hk hc
    exact iff_of_true (fun a fs' h => hk fs a fs' hfree h) fun hs => hc hs.1
  cases c with
  | nkSysconfig option argument =>
    refine free ?_ nofun
    rcases body_nkSysconfig env option argument with h | h
    · exact keepsFree_of_noLock h
    · rw [h]
      exact keepsFree_locked fun _ => keepsFree_of_noLock (within_ret _)
  | kdBatchUpdateDB field subfeild =>
    refine free ?_ nofun
    rw [body_kdBatchUpdateDB]
    refine keepsFree_locked fun result => ?_
    split
    · exact .bind (keepsFree_of_noLock (within_rename trivial trivial)) fun _ =>
        keepsFree_of_noLock ⟨⟨rfl, fun _ _ => trivial⟩, fun _ => trivial⟩
    · exact keepsFree_of_noLock (within_ret _)
  | batchGetConfig field subfield =>
    refine free ?_ nofun
    rw [body_batchGetConfig]
    refine keepsFree_locked fun src => ?_
    cases src with
    | none => exact keepsFree_of_noLock (within_halt _)
    | some text => exact keepsFree_of_noLock (within_ret _)
  | batchGetConfigM field subfield =>
    refine free ?_ nofun
    rw [body_batchGetConfigM]
    refine keepsFree_locked fun src => ?_
    cases src with
    | none => exact keepsFree_of_noLock (within_halt _)
    | some text => exact keepsFree_of_noLock (within_ret _)
  | splitDB =>
    constructor
    · intro hall hs
      have := hall _ _ (run_splitDB_stuck env hfree hs.2)
      cases this
    · intro hs a fs' h
      simp only [Stuck, true_and, not_or, Bool.not_eq_false] at hs
      exact splitDB_releases env hfree hs.1 hs.2 h
  | mergeToRAM =>
    refine free (.bind keepsFree_mergeToRAM fun _ => ?_) nofun
    exact keepsFree_of_noLock (within_ret _)

/-- After every call of the sequence that has returned, the lock file is gone. -/
def Releases (env : Externals) (cs : List Call) (fs : FileSys) : Prop :=
  ∀ pre, pre <+: cs → ∀ rs fs', runAll exec (Call.body env) pre fs = some (rs, fs') →
    fs'.lockFile = false

/-- No call of the sequence is `splitDB` in a state without a readable database or in which the
category list cannot be created. -/
def NeverStuck (env : Externals) (cs : List Call) (fs : FileSys) : Prop :=
  ∀ pre c, pre ++ [c] <+: cs → ∀ rs fs', runAll exec (Call.body env) pre fs = some (rs, fs') →
    ¬ Stuck c fs'

theorem releases_cons {env : Externals} {c : Call} {cs : List Call} {fs : FileSys} :
    Releases env (c :: cs) fs ↔ fs.lockFile = false ∧
      ∀ a t, (c.body env).run exec fs = some (a, t) → Releases env cs t := by
  constructor
  · intro h
    refine ⟨h [] (List.nil_prefix) _ _ rfl, fun a t ht pre hpre rs fs' hrun => ?_⟩
    apply h (c :: pre) (List.prefix_cons_inj c |>.mpr hpre) (a :: rs) fs'
    simp [runAll, ht, hrun]
  · rintro ⟨hfree, hnext⟩ pre hpre rs fs' hrun
    rcases List.prefix_cons_iff.mp hpre with rfl | ⟨pre, rfl, hrest⟩
    · simp only [runAll, Option.some.injEq, Prod.mk.injEq] at hrun
      exact hrun.2 ▸ hfree
    · simp only [runAll, Option.bind_eq_some_iff, Option.map_eq_some_iff] at hrun
      obtain ⟨⟨a, t⟩, ht, ⟨rs', u⟩, hu, he⟩ := hrun
      cases he
      exact hnext a t ht pre hrest rs' u hu

theorem neverStuck_cons {env : Externals} {c : Call} {cs : List Call} {fs : FileSys} :
    NeverStuck env (c :: cs) fs ↔ ¬ Stuck c fs ∧
      ∀ a t, (c.body env).run exec fs = some (a, t) → NeverStuck env cs t := by
  constructor
  · intro h
    refine ⟨h [] c (by simp) _ _ rfl, fun a t ht pre d hpre rs fs' hrun => ?_⟩
    apply h (c :: pre) d (List.prefix_cons_inj c |>.mpr hpre) (a :: rs) fs'
    simp [runAll, ht, hrun]
  · rintro ⟨hfirst, hnext⟩ pre d hpre rs fs' hrun
    cases pre with
    | nil =>
      simp only [runAll, Option.some.injEq, Prod.mk.injEq] at hrun
      obtain ⟨-, rfl⟩ := hrun
      obtain rfl : d = c := by simpa using hpre
      exact hfirst
    | cons c' pre =>
      obtain ⟨rfl, hrest⟩ := List.cons_prefix_cons.mp hpre
      simp only [runAll, Option.bind_eq_some_iff, Option.map_eq_some_iff] at hrun
      obtain ⟨⟨a, t⟩, ht, ⟨rs', u⟩, hu, he⟩ := hrun
      cases he
      exact hnext a t ht pre d hrest rs' u hu

/-- Over any sequence of calls, the lock file is gone whenever a call has returned if and only if
`splitDB` is never called where it cannot open its files. -/
theorem lock_released_iff (env : Externals) (cs : List Call) (fs : FileSys)
    (hfree : fs.lockFile = false) : Releases env cs fs ↔ NeverStuck env cs fs := by
  induction cs generalizing fs with
  | nil =>
    refine iff_of_true (fun pre hpre rs fs' hrun => ?_) fun pre c hpre => ?_
    · obtain rfl := List.prefix_nil.mp hpre
      cases hrun
      exact hfree
    · simp at hpre
  | cons c cs ih =>
    rw [releases_cons, neverStuck_cons, ← body_releases env c hfree]
    constructor
    · rintro ⟨-, hnext⟩
      have hret : ∀ a t, (c.body env).run exec fs = some (a, t) → t.lockFile = false :=
        fun a t ht => hnext a t ht [] List.nil_prefix _ _ rfl
      exact ⟨hret, fun a t ht => (ih t (hret a t ht)).mp (hnext a t ht)⟩
    · rintro ⟨hret, hnext⟩
      exact ⟨hfree, fun a t ht => (ih t (hret a t ht)).mpr (hnext a t ht)⟩

theorem lock_released_after_split :
    Releases noExternals [.splitDB, .mergeToRAM] (.single .sysFile "[C]\nK=1\n".toList) := by
  refine (lock_released_iff noExternals _ _ rfl).mpr (neverStuck_cons.mpr ⟨?_, fun a t _ => ?_⟩)
  · rintro ⟨-, h | h⟩
    · rw [FileSys.content_single] at h
      cases h
    · cases h
  · refine neverStuck_cons.mpr ⟨fun h => (nomatch h.1), fun b u _ pre c hpre => ?_⟩
    simp at hpre

/-- Without a database `splitDB` returns and leaves the lock file behind. -/
theorem split_keeps_lock : ¬ Releases noExternals [.splitDB] oneItem := by
  intro h
  have hgone := h [.splitDB] (List.prefix_refl _) _ _ rfl
  cases hgone

end Release

end ConfigLock
