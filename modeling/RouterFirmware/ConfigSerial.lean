import RouterFirmware.LockSerial
import RouterFirmware.ConfigLock

/-! # Updates of one category

One process runs `kdBatchUpdateDB` on a category, any number of others run the commands that
change it. `kdBatchUpdateDB` moves its new file into place after it has removed the lock file.
-/
namespace ConfigSerial

open TextStream SharedProgram LockProtocol ConfigDatabase ConfigCommand ConfigBatch
open ConfigFootprint ConfigDelete ConfigLock

/-- A command `w`, `m`, `n` or `d` on the category. -/
def Updates (category : Text) (c : Call) : Prop :=
  ∃ option argument, c = .nkSysconfig option argument ∧ argument.head? ≠ some '-' ∧
    option.getD 1 '\x00' ∈ ['w', 'm', 'n', 'd'] ∧ argument.takeWhile (· != ' ') = category

theorem Updates.body_eq {category : Text} {c : Call} (env : Externals) (h : Updates category c) :
    ∃ comd argument, comd ∈ ['w', 'm', 'n', 'd'] ∧
      c.body env = locked (runCommand env comd argument)
        fun reply => .ret (.command reply.1 reply.2) := by
  obtain ⟨option, argument, rfl, hdash, hcomd, -⟩ := h
  refine ⟨_, argument, hcomd, body_command env hdash ?_ ?_⟩
  · intro hoption
    simp only [List.map_cons, List.map_nil, List.mem_cons, List.not_mem_nil, or_false] at hoption
    rcases hoption with rfl | rfl | rfl <;> simp at hcomd
  · intro ha
    rw [ha] at hcomd
    simp at hcomd

theorem unlink_commutes {q : Path} {o : FsOp} (h : ∀ p ∈ o.paths, p ≠ q) :
    Commutes exec (.unlink q) o := by
  intro fs
  refine ⟨(), fs.set q none, rfl, ?_, ?_⟩
  · intro hn
    rw [exec_set h, hn]
    rfl
  · intro r t ht
    refine ⟨t.set q none, rfl, ?_⟩
    rw [exec_set h, ht]
    rfl

/-- The step `kdBatchUpdateDB` takes after its new file is in place. -/
def RemovesBatch (o : FsOp) : Prop := o = .unlink .batch

theorem isLate_removesBatch : IsLate fileLock RemovesBatch where
  acquire := by rintro o rfl ha; cases ha
  release := by rintro o rfl hr; cases hr
  total := by rintro o rfl fs; exact ⟨_, _, rfl⟩

/-- The commands do not name the file `/tmp/kd_batch`. -/
theorem Updates.commutes {category : Text} {c : Call} (env : Externals) (h : Updates category c) :
    (c.body env).Uses fun o' => ∀ o, RemovesBatch o → Commutes exec o o' := by
  obtain ⟨comd, argument, hcomd, hbody⟩ := h.body_eq env
  have avoid : ∀ {o : FsOp}, (∀ p ∈ o.paths, p ≠ .batch) →
      ∀ o', RemovesBatch o' → Commutes exec o' o := by
    rintro o ho o' rfl
    exact unlink_commutes ho
  have hcommand : Within (· ≠ .batch) (runCommand env comd argument) :=
    .bind (within_update hcomd nofun nofun nofun _ _ _) fun _ => within_ret _
  rw [hbody]
  refine uses_bind ⟨avoid nofun, fun _ => trivial⟩ fun _ => uses_bind ?_ fun reply =>
    uses_bind ⟨avoid nofun, fun _ => trivial⟩ fun _ => trivial
  exact hcommand.mono fun o ho => avoid ho.2

variable {Pid : Type}

/-- The move does not create the lock file while `kdBatchUpdateDB` is between its `unlink` and
its `rename`. -/
def Installed (s : ConfigSystem Pid) (p : Pid) : Prop :=
  Creates fileLock s p → ∀ q, q ≠ p → ¬ Installing s q

/-- No update is lost in a run in which no process creates the lock file while
`kdBatchUpdateDB` is between its `unlink` and its `rename`: whenever no call is under way, the
files are those that the calls that have returned leave when they run one after another, with
the same replies. -/
theorem updates_serializable [DecidableEq Pid] (env : Externals) (category key : Text)
    (batch : Pid) (fs : FileSys) (todo : Pid → List Call)
    (hbatch : ∀ c ∈ todo batch, c = .kdBatchUpdateDB category key)
    (hothers : ∀ p, p ≠ batch → ∀ c ∈ todo p, Updates category c) (sched : List Pid)
    (hf : Follows fileLock (Call.body env) Installed (initial fs todo) sched)
    (hquiet : ∀ p, ¬ Active (runSchedule fileLock (Call.body env) (initial fs todo) sched) p) :
    ∃ order, Replays (Call.body env) exec fs order
        (runSchedule fileLock (Call.body env) (initial fs todo) sched).shared ∧
      ∀ p, (order.filter (·.1 = p)).map (·.2) =
          ((runSchedule fileLock (Call.body env) (initial fs todo) sched).thread p).done ∧
        ((runSchedule fileLock (Call.body env) (initial fs todo) sched).thread p).calls =
          todo p := by
  refine serializable (b := batch) isLate_removesBatch ?_ (fun p hp c hc => ?_)
    (releaseThen_body env) (fun c o k r h => h.next r) ?_ hf hquiet
  · intro p c hc
    by_cases hp : p = batch
    · subst p
      rw [hbatch c hc]
      exact ⟨.lockOpen, _, rfl, rfl⟩
    · obtain ⟨comd, argument, -, hbody⟩ := (hothers p hp c hc).body_eq env
      rw [hbody]
      exact ⟨.lockOpen, _, rfl, rfl⟩
  · exact (hothers p hp c hc).commutes env
  · intro s p hok hcreate q c m hq hc hm hph hrem
    have hcall : (q = batch ∧ c = .kdBatchUpdateDB category key) ∨ Updates category c := by
      by_cases hqb : q = batch
      · exact .inl ⟨hqb, hbatch c (hqb ▸ hc)⟩
      · exact .inr (hothers q hqb c hc)
    cases hrem with
    | returned => exact .inl ⟨_, rfl⟩
    | install f x => exact absurd ⟨hph, f, x, _, hm⟩ (hok hcreate q hq)
    | cleanup f x =>
      rcases hcall with ⟨hqb, -⟩ | ⟨_, _, h, -⟩
      · exact .inr ⟨hqb, _, _, _, hqb ▸ hm, hqb ▸ hph, rfl, fun _ => ⟨_, rfl⟩⟩
      · cases h
    | crashed f x w => rcases hcall with ⟨-, h⟩ | ⟨_, _, h, -⟩ <;> cases h
    | crashedM f x w => rcases hcall with ⟨-, h⟩ | ⟨_, _, h, -⟩ <;> cases h
    | merge => rcases hcall with ⟨-, h⟩ | ⟨_, _, h, -⟩ <;> cases h

/-- A category with two items, and a batch that replaces the first. -/
def twoItems : FileSys where
  lockFile := false
  files p := match p with
    | .split name => if name = "C".toList then some "[C]\nX=1\nY=1\n".toList else none
    | .batch => some "X=9\n".toList
    | _ => none
  readable _ := true
  writable _ := true

/-- The batch in one process, `m C Y 1=2` in the other. -/
def batchAndModify (p : Bool) : List Call :=
  if p then [.kdBatchUpdateDB "C".toList "X".toList]
  else [.nkSysconfig "-m".toList "C Y 1=2".toList]

/-- The batch up to its `unlink`, the whole command `m`, and the rest of the batch. -/
def lostUpdate : List Bool :=
  List.replicate 9 true ++ List.replicate 7 false ++ List.replicate 2 true

theorem two_orders {α : Type} {order : List (Bool × α)} {x y : α}
    (hx : (order.filter (·.1 = true)).map (·.2) = [x])
    (hy : (order.filter (·.1 = false)).map (·.2) = [y]) :
    order = [(true, x), (false, y)] ∨ order = [(false, y), (true, x)] := by
  rcases order with _ | ⟨⟨_ | _, a⟩, _ | ⟨⟨_ | _, b⟩, _ | ⟨⟨_ | _, c⟩, rest⟩⟩⟩ <;> simp_all

/-- The lock file is free for the whole command `m` between the `unlink` and the `rename` of
`kdBatchUpdateDB`, and its update is gone at the end. -/
theorem batch_loses_update :
    ¬ ∃ order fs', Replays (Call.body noExternals) exec twoItems order fs' ∧
      fs'.files (.split "C".toList) = (runSchedule fileLock (Call.body noExternals)
        (initial twoItems batchAndModify) lostUpdate).shared.files (.split "C".toList) ∧
      ∀ p, (order.filter (·.1 = p)).map (·.2) = ((runSchedule fileLock (Call.body noExternals)
        (initial twoItems batchAndModify) lostUpdate).thread p).done := by
  rintro ⟨order, fs', hreplay, hfile, hdone⟩
  have hlost : (runSchedule fileLock (Call.body noExternals) (initial twoItems batchAndModify)
      lostUpdate).shared.files (.split "C".toList) = some "[C]\nX=9\nY=1\n".toList := by
    decide +kernel
  have hkept : ∀ cs ∈ [batchAndModify true ++ batchAndModify false,
      batchAndModify false ++ batchAndModify true],
      (runAll exec (Call.body noExternals) cs twoItems).map (·.2.files (.split "C".toList)) =
        some (some "[C]\nX=9\nY=2\n".toList) := by
    decide +kernel
  have hbatch : ((runSchedule fileLock (Call.body noExternals) (initial twoItems batchAndModify)
      lostUpdate).thread true).done =
        [(.kdBatchUpdateDB "C".toList "X".toList, .flag true)] := by decide +kernel
  have hmodify : ((runSchedule fileLock (Call.body noExternals) (initial twoItems batchAndModify)
      lostUpdate).thread false).done =
        [(.nkSysconfig "-m".toList "C Y 1=2".toList, .command .ok [])] := by decide +kernel
  have hrun := runAll_of_replays hreplay
  have hseq : order.map (·.2.1) ∈ [batchAndModify true ++ batchAndModify false,
      batchAndModify false ++ batchAndModify true] := by
    rcases two_orders ((hdone true).trans hbatch) ((hdone false).trans hmodify) with rfl | rfl
    · exact List.mem_cons_self
    · exact List.mem_cons_of_mem _ List.mem_cons_self
  have hsame := hkept _ hseq
  rw [hrun, Option.map_some, hfile, hlost] at hsame
  exact absurd hsame (by decide)

/-- The command `m` waits for the lock file until the batch is over. -/
def inTurn : List Bool :=
  [true, true, false, false] ++ List.replicate 9 true ++ List.replicate 6 false

theorem updates_serializable_in_turn :
    ∃ order, Replays (Call.body noExternals) exec twoItems order (runSchedule fileLock
        (Call.body noExternals) (initial twoItems batchAndModify) inTurn).shared ∧
      ∀ p, (order.filter (·.1 = p)).map (·.2) = ((runSchedule fileLock
          (Call.body noExternals) (initial twoItems batchAndModify) inTurn).thread p).done ∧
        ((runSchedule fileLock (Call.body noExternals) (initial twoItems batchAndModify)
          inTurn).thread p).calls = batchAndModify p := by
  have hf : Follows fileLock (Call.body noExternals)
      (fun s p => ∀ q, q ≠ p → (s.thread q).phase ≠ .released) (initial twoItems batchAndModify)
      inTurn := by decide +kernel
  have hnone : ∀ p, ((runSchedule fileLock (Call.body noExternals)
      (initial twoItems batchAndModify) inTurn).thread p).current.isNone := by decide +kernel
  apply updates_serializable noExternals "C".toList "X".toList true
  · intro c hc
    exact List.mem_singleton.mp hc
  · intro p hp c hc
    obtain rfl : p = false := by simpa using hp
    obtain rfl := List.mem_singleton.mp hc
    exact ⟨_, _, rfl, by decide, by decide, by decide⟩
  · exact hf.mono fun s p h _ q hq hi => h q hq hi.1
  · rintro p ⟨c, m, hm, -⟩
    have := hnone p
    rw [hm] at this
    cases this

end ConfigSerial
