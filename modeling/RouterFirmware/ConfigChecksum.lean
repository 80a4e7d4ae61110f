import RouterFirmware.ConfigMerge

/-! # The checksum of the merged database

`MergeToRAM` adds up the pieces that `fgets` gives it and the newlines it puts behind the files.
All the way the sum is that of the characters in `/tmp/new_one`, in the arithmetic of an
`unsigned int`.
-/
namespace ConfigChecksum

open TextStream SharedProgram ConfigDatabase ConfigBatch ConfigMerge

def signedSum : Text → ℤ
  | [] => 0
  | c :: t => signedChar c + signedSum t

theorem signedSum_append (a b : Text) : signedSum (a ++ b) = signedSum a + signedSum b := by
  induction a with
  | nil => simp [signedSum]
  | cons c a ih => rw [List.cons_append, signedSum, signedSum, ih, Int.add_assoc]

/-- `n` is the sum of a text in 32 bits. -/
def SumOf (n : ℕ) (t : Text) : Prop := (n : ℤ) = signedSum t % 2 ^ 32

theorem sumOf_nil : SumOf 0 [] := rfl

theorem SumOf.lt {n : ℕ} {t : Text} (h : SumOf n t) : n < 2 ^ 32 := by
  have hlt := Int.emod_lt_of_pos (signedSum t) (by decide : (0 : ℤ) < 2 ^ 32)
  rw [SumOf] at h
  omega

theorem SumOf.add {n m : ℕ} {a b : Text} (ha : SumOf n a) (hb : SumOf m b) :
    SumOf ((n + m) % 2 ^ 32) (a ++ b) := by
  rw [SumOf] at *
  rw [signedSum_append]
  omega

theorem SumOf.snoc {n : ℕ} {t : Text} (h : SumOf n t) (c : Char) :
    SumOf ((n + signedChar c) % 2 ^ 32).toNat (t ++ [c]) := by
  rw [SumOf] at *
  rw [signedSum_append, signedSum, signedSum]
  omega

theorem sumOf_doSum (t : Text) : SumOf (doSum t) t := by
  have hrun : ∀ (u v : Text) (n : ℕ), SumOf n u →
      SumOf (v.foldl (fun sum c => ((sum + signedChar c) % 2 ^ 32).toNat) n) (u ++ v) := by
    intro u v
    induction v generalizing u with
    | nil => simp
    | cons c v ih =>
      intro n h
      simpa using ih (u ++ [c]) _ (h.snoc c)
  exact hrun [] t 0 sumOf_nil

/-- However a file is cut into pieces, their sums add up to the sum of the file. -/
theorem sumOf_pieces {n : ℕ} {t : Text} (h : SumOf n t) (ls : List Text) :
    SumOf (ls.foldl (fun sum l => (sum + doSum l) % 2 ^ 32) n) (t ++ ls.flatten) := by
  induction ls generalizing n t with
  | nil => simpa using h
  | cons l ls ih => simpa using ih (h.add (sumOf_doSum l))

/-- The loop over the category list keeps the sum that of what is written. -/
theorem mergeLoop_keeps_sum {fs fs' : FileSys} {t : Text} {sum sum' : ℕ} {ls : List Text}
    (hfile : fs.files .newOne = some t) (hsum : SumOf sum t)
    (hrun : (mergeLoop sum ls).run exec fs = some (some sum', fs')) :
    ∃ t', fs'.files .newOne = some t' ∧ SumOf sum' t' := by
  induction ls generalizing fs t sum with
  | nil =>
    rw [mergeLoop, pure_def, run_ret, Option.some.injEq, Prod.mk.injEq, Option.some.injEq] at hrun
    obtain ⟨rfl, rfl⟩ := hrun
    exact ⟨t, hfile, hsum⟩
  | cons l ls ih =>
    rw [mergeLoop, run_read_bind] at hrun
    cases hread : fs.content (.split (listName l)) with
    | none => simp [hread] at hrun
    | some text =>
      rw [hread] at hrun
      dsimp only at hrun
      split at hrun
      · exact ih hfile hsum hrun
      · rw [run_bind, run_mergeFile _ _ hfile, Option.bind_some, run_put_bind,
          FileSys.set_files_self, FileSys.set_set, Option.map_some] at hrun
        refine ih (FileSys.set_files_self _ _ _) ?_ hrun
        exact (sumOf_pieces hsum _).add (sumOf_doSum _)

/-- When `MergeToRAM` succeeds, the number in its last line is the sum of all characters in front
of the header of that section. -/
theorem checksum_line_is_sum {fs fs' : FileSys} (hrun : mergeToRAM.run exec fs = some (true, fs')) :
    ∃ body sum, fs'.files .sysFile = some (body ++ checksumText sum) ∧ sum < 2 ^ 32 ∧
      (sum : ℤ) = signedSum body % 2 ^ 32 := by
  have hlock : fs.lockFile = false := by
    by_contra hheld
    rw [Bool.not_eq_false] at hheld
    have hopen : exec .lockOpen fs = none := by
      rw [exec, if_pos hheld]
    rw [mergeToRAM] at hrun
    change (exec .lockOpen fs).bind _ = some (true, fs') at hrun
    rw [hopen] at hrun
    cases hrun
  rw [mergeToRAM, run_lockOpen_bind hlock, run_lockUnlink_bind, run_create_bind] at hrun
  generalize ({ { fs with lockFile := true } with lockFile := false } : FileSys) = fs₀ at hrun
  cases hw : fs₀.writable .newOne with
  | false => simp [hw] at hrun
  | true =>
    rw [hw, if_pos rfl, if_pos rfl, run_read_bind] at hrun
    cases hlist : (fs₀.set .newOne (some [])).content .categoryList with
    | none => simp [hlist] at hrun
    | some list =>
      rw [hlist] at hrun
      dsimp only at hrun
      rw [run_bind, Option.bind_eq_some_iff] at hrun
      obtain ⟨⟨merged, fs₁⟩, hloop, hrun⟩ := hrun
      cases merged with
      | none => simp at hrun
      | some sum =>
        obtain ⟨body, hbody, hsum⟩ := mergeLoop_keeps_sum
          (FileSys.set_files_self fs₀ .newOne (some [])) sumOf_nil hloop
        dsimp only at hrun
        rw [run_put_bind, hbody, Option.map_some, run_put_bind, FileSys.set_files_self,
          FileSys.set_set, Option.map_some, run_rename_bind, FileSys.set_files_self] at hrun
        dsimp only at hrun
        rw [run_lockUnlink_bind, pure_def, run_ret, Option.some.injEq, Prod.mk.injEq] at hrun
        obtain ⟨-, rfl⟩ := hrun
        refine ⟨body, sum, ?_, hsum.lt, hsum⟩
        dsimp only
        rw [FileSys.set_files_self]
        exact congrArg some (List.append_assoc _ _ _)

/-- A database whose list has `CHECKSUM` between two categories, one of them with a byte above
127. -/
theorem checksum_line_is_sum_three_categories :
    ∃ fs' body sum, mergeToRAM.run exec ((((FileSys.single .categoryList
        "A\nCHECKSUM\nB\n".toList).set (.split "A".toList) (some "[A]\nK=\xe9\n".toList)).set
        (.split "CHECKSUM".toList) (some "[CHECKSUM]\nSUM=1\n".toList)).set
        (.split "B".toList) (some "[B]\n".toList)) = some (true, fs') ∧
      fs'.files .sysFile = some (body ++ checksumText sum) ∧ sum < 2 ^ 32 ∧
      (sum : ℤ) = signedSum body % 2 ^ 32 := by
  obtain ⟨fs', hrun⟩ : ∃ fs', mergeToRAM.run exec ((((FileSys.single .categoryList
      "A\nCHECKSUM\nB\n".toList).set (.split "A".toList) (some "[A]\nK=\xe9\n".toList)).set
      (.split "CHECKSUM".toList) (some "[CHECKSUM]\nSUM=1\n".toList)).set
      (.split "B".toList) (some "[B]\n".toList)) = some (true, fs') := by
    have hok : (mergeToRAM.run exec ((((FileSys.single .categoryList
        "A\nCHECKSUM\nB\n".toList).set (.split "A".toList) (some "[A]\nK=\xe9\n".toList)).set
        (.split "CHECKSUM".toList) (some "[CHECKSUM]\nSUM=1\n".toList)).set
        (.split "B".toList) (some "[B]\n".toList))).map Prod.fst = some true := by
      decide +kernel
    obtain ⟨⟨result, fs'⟩, hrun, rfl⟩ := Option.map_eq_some_iff.mp hok
    exact ⟨fs', hrun⟩
  obtain ⟨body, sum, hsum⟩ := checksum_line_is_sum hrun
  exact ⟨fs', body, sum, hrun, hsum⟩

end ConfigChecksum
