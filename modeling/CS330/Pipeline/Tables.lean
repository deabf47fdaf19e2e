import CS330.Lib.Family
import CS330.Pipeline.Basic

/-! # The descriptors of the processes of `task2`

The pipe to the command is number 0, the pipe from `grep` is number 1. -/

namespace CS330

variable {t : Fds OutFile} {fd fd1 : Int × Int} {fptr x : Int} {p : Nat}

/-- The table of the command: it has the read end of its pipe as standard input. -/
def cmdTable (t : Fds OutFile) : Fds OutFile := Function.update t 0 (some (.readEnd 0))

/-- The table of the tee, with what it still has of the pipe to the command. -/
def teeTable (t : Fds OutFile) (fd : Int × Int) : Fds OutFile :=
  Function.update (Function.update (t.withPipe fd 0) 0 (some (.readEnd 1))) 1 (some (.writeEnd 0))

/-- The table of `grep`, which has inherited the same. -/
def grepTable (t : Fds OutFile) (fd : Int × Int) : Fds OutFile :=
  Function.update (t.withPipe fd 0) 1 (some (.writeEnd 1))

/-- The table of the tee when it has opened its file. -/
def teeFileTable (t : Fds OutFile) (fd : Int × Int) (fptr : Int) : Fds OutFile :=
  if fptr < 0 then teeTable t fd else Function.update (teeTable t fd) fptr (some (.file .tee))

/-- The command writes to no pipe. -/
theorem cmdTable_apply (ht : StdTable t) {d : Int} :
    cmdTable t d ≠ some (.writeEnd p) := by
  rw [cmdTable, Function.update_apply]
  split
  next => simp
  next => exact (ht.no_pipe d p).2

/-! ## The calls before `exec` -/

section
theorem StdTable.stdout_ne (ht : StdTable t) : t 1 ≠ none := by simp [ht.stdout]

variable (h : t.NewPipe fd) (ht : StdTable t)
include h ht

theorem Fds.NewPipe.cmdTable : [TableCall.dup2 fd.1 0, .close fd.1, .close fd.2].foldl TableCall.run
    (t.withPipe fd 0) = cmdTable t := by
  obtain ⟨h1, h2⟩ := h.ne ht.stdin
  simp only [List.foldl_cons, List.foldl_nil, TableCall.run, Fds.dup2_of_some h.withPipe_fst]
  refine Fds.close_close (fun x hx1 hx2 => ?_) ?_ ?_
  · rw [CS330.cmdTable, Function.update_apply, Function.update_apply, Fds.withPipe_apply, if_neg hx2,
      if_neg hx1]
  · rw [CS330.cmdTable, Function.update_of_ne h1.symm, h.1.2]
  · rw [CS330.cmdTable, Function.update_of_ne h2.symm, h.2.1.2]

/-- The descriptors 0 and 1 are open after the first call of `pipe`. -/
theorem Fds.NewPipe.ne_std (h1 : (t.withPipe fd 0).NewPipe fd1) :
    (0 ≠ fd1.1 ∧ 0 ≠ fd1.2) ∧ (1 ≠ fd1.1 ∧ 1 ≠ fd1.2) ∧ (fd.1 ≠ fd1.1 ∧ fd.1 ≠ fd1.2) ∧
      fd.2 ≠ fd1.1 ∧ fd.2 ≠ fd1.2 := by
  have hstd {d : Int} (hd : t d ≠ none) : t.withPipe fd 0 d ≠ none := by
    obtain ⟨hd1, hd2⟩ := h.ne hd
    rwa [Fds.withPipe_apply, if_neg hd2, if_neg hd1]
  refine ⟨h1.ne (hstd ht.stdin), h1.ne (hstd ht.stdout_ne), h1.ne ?_, h1.ne ?_⟩
  · simp [h.withPipe_fst]
  · simp [Fds.withPipe_snd]

theorem Fds.NewPipe.teeTable (h1 : (t.withPipe fd 0).NewPipe fd1) :
    [TableCall.dup2 fd1.1 0, .dup2 fd.2 1, .close fd1.1, .close fd1.2].foldl TableCall.run
      ((t.withPipe fd 0).withPipe fd1 1) = teeTable t fd := by
  obtain ⟨h0, hone, -, hwr⟩ := h.ne_std ht h1
  obtain ⟨-, hne⟩ := h.ne ht.stdin
  have hdup : (Function.update ((t.withPipe fd 0).withPipe fd1 1) 0 (some (.readEnd 1))) fd.2 =
      some (.writeEnd 0) := by
    rw [Function.update_of_ne hne.symm, Fds.withPipe_apply, if_neg hwr.2, if_neg hwr.1,
      Fds.withPipe_snd]
  simp only [List.foldl_cons, List.foldl_nil, TableCall.run, Fds.dup2_of_some h1.withPipe_fst,
    Fds.dup2_of_some hdup]
  refine Fds.close_close (fun x hx1 hx2 => ?_) ?_ ?_
  · simp only [CS330.teeTable, Function.update_apply, Fds.withPipe_apply (t := t.withPipe fd 0),
      if_neg hx1, if_neg hx2]
  · rw [CS330.teeTable, Function.update_of_ne hone.1.symm, Function.update_of_ne h0.1.symm, h1.1.2]
  · rw [CS330.teeTable, Function.update_of_ne hone.2.symm, Function.update_of_ne h0.2.symm, h1.2.1.2]

theorem Fds.NewPipe.grepTable (h1 : (t.withPipe fd 0).NewPipe fd1) :
    [TableCall.dup2 fd1.2 1, .close fd1.1, .close fd1.2].foldl TableCall.run
      ((t.withPipe fd 0).withPipe fd1 1) = grepTable t fd := by
  obtain ⟨-, hone, -, -⟩ := h.ne_std ht h1
  simp only [List.foldl_cons, List.foldl_nil, TableCall.run, Fds.dup2_of_some Fds.withPipe_snd]
  refine Fds.close_close (fun x hx1 hx2 => ?_) ?_ ?_
  · simp only [CS330.grepTable, Function.update_apply, Fds.withPipe_apply (t := t.withPipe fd 0),
      if_neg hx1, if_neg hx2]
  · rw [CS330.grepTable, Function.update_of_ne hone.1.symm, h1.1.2]
  · rw [CS330.grepTable, Function.update_of_ne hone.2.symm, h1.2.1.2]

end

end CS330
