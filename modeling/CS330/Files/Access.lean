import CS330.Files.Opening

/-! # The access a descriptor grants

Duplicates, forks, reads, writes and seeks never change the mode of a file object, so a descriptor
grants for ever what the open stored: the mode of the inode for a created file, and the flags for
a file that was there. -/

namespace CS330

variable {C : SeekConsts} {F : FlatSystem} {k k₁ k' : Kernel C.toFileConsts F.toFileSystem}
  {file : File F.Inode} {inodes : F.State} {mem : Memory} {count : Nat} {flags mode : BitVec 64}

/-- Duplicates and forks. -/
def FileCall.Shares {F : FileSystem} : FileCall F → Prop
  | .fdDup _ _ | .fdDup2 _ _ _ | .fork _ _ => True
  | _ => False

/-- A call of a process that holds descriptors. -/
inductive AccessCall (F : FlatSystem) where
  | share (call : FileCall F.toFileSystem)
  | regular (pid fd : Nat) (op : FlatOp)
  | pipe (pid fd : Nat) (call : PipeCall)

/-- `filep` is overwritten. -/
def Objects.setFile (objs : Objects Inode) (o : Nat) (file : File Inode) : Objects Inode :=
  { objs with file := Function.update objs.file o file }

/-- A duplicate, a fork, or a read, write or seek through a descriptor of a regular file or of an
end of a pipe. -/
inductive AccessStep (k : Kernel C.toFileConsts F.toFileSystem) :
    AccessCall F → Kernel C.toFileConsts F.toFileSystem → Prop where
  | share {call : FileCall F.toFileSystem} {k' : Kernel C.toFileConsts F.toFileSystem}
    (hcall : call.Shares) (h : FileStep k call k') : AccessStep k (.share call) k'
  | regular {pid o : Nat} {fd : Fin C.maxOpenFiles} {s : FlatState F} {op : FlatOp}
    {inode : F.Inode}
    (hfd : k.files pid fd = some o) (hinode : (k.objs.file o).inode = some inode)
    (h : FlatStep C ⟨k.objs.file o, k.inodes⟩ op s) :
    AccessStep k (.regular pid fd op)
      { k with objs := k.objs.setFile o s.file, inodes := s.inodes }
  | pipe {pid o p : Nat} {fd : Fin C.maxOpenFiles} {call : PipeCall} {pipe' : PipeInfo}
    (hfd : k.files pid fd = some o) (htype : (k.objs.file o).type = .pipe p)
    (h : PipeStep (k.objs.pipe p) call pipe') :
    AccessStep k (.pipe pid fd call)
      { k with objs := { k.objs with pipe := Function.update k.objs.pipe p pipe' } }

def AccessRun (C : SeekConsts) (F : FlatSystem) : Kernel C.toFileConsts F.toFileSystem →
    List (AccessCall F) → Kernel C.toFileConsts F.toFileSystem → Prop := Trace AccessStep

/-! ## No call changes a mode -/

namespace Objects

variable {I : Type} {C : FileConsts} {objs : Objects I} {o o' : Nat}

@[simp] theorem dropRef_mode : ((objs.dropRef C o).file o').mode = (objs.file o').mode := by
  have hfile : (objs.dropRef C o).file = (objs.addRef o (-1)).file := by
    unfold dropRef
    dsimp only
    split
    next =>
      split
      next => split <;> rfl
      next => rfl
    next => rfl
  rw [hfile, addRef_mode]

@[simp] theorem doFileFork_mode {files : Fin M → Option Nat} :
    ((objs.doFileFork files).file o').mode = (objs.file o').mode := by
  unfold doFileFork
  induction List.finRange M generalizing objs with
  | nil => rfl
  | cons i is ih =>
    rw [List.foldl_cons, ih]
    cases files i with
    | none => rfl
    | some o => exact addRef_mode

end Objects

theorem FileCall.Shares.mode_eq {C : FileConsts} {F : FileSystem} {k k' : Kernel C F}
    {call : FileCall F} (hcall : call.Shares) (h : FileStep k call k') (o : Nat) :
    (k'.objs.file o).mode = (k.objs.file o).mode := by
  cases h with
  | fdDup _ h =>
    unfold Kernel.fdDup at h
    split at h
    case h_1 => cases h; rfl
    case h_2 =>
    split at h
    case h_1 => cases h; rfl
    case h_2 =>
    obtain ⟨res, -, h⟩ := Option.map_eq_some_iff.1 h
    cases res with
    | error e => cases h; rfl
    | ok fd =>
      cases h
      exact Objects.addRef_mode
  | fdDup2 _ h =>
    unfold Kernel.fdDup2 at h
    split at h
    case h_2 => cases h; rfl
    case h_1 =>
    split at h
    case h_1 => cases h; rfl
    case h_2 =>
      cases h
      simp only [Kernel.setFile]
      split
      next => exact Objects.dropRef_mode.trans Objects.addRef_mode
      next => exact Objects.addRef_mode
  | fork => exact Objects.doFileFork_mode
  | openStandardIo | doRegularFileOpen | createPipe | close | exit => exact hcall.elim

theorem AccessStep.mode_eq {call : AccessCall F} (h : AccessStep k call k') (o : Nat) :
    (k'.objs.file o).mode = (k.objs.file o).mode := by
  cases h with
  | share hcall h => exact hcall.mode_eq h o
  | pipe => rfl
  | @regular _ o' _ s _ _ _ _ h =>
    have hfile : s.file.mode = (k.objs.file o').mode := by
      rcases h.file_eq with heq | ⟨n, -, heq⟩
      · rw [heq]
      · rw [heq]
    change (Function.update k.objs.file o' s.file o).mode = _
    rcases eq_or_ne o o' with rfl | hne
    · rw [Function.update_self, hfile]
    · rw [Function.update_of_ne hne]

theorem AccessRun.mode_eq {calls : List (AccessCall F)} (h : AccessRun C F k calls k') (o : Nat) :
    (k'.objs.file o).mode = (k.objs.file o).mode :=
  h.invariant (I := fun k' => (k'.objs.file o).mode = (k.objs.file o).mode) rfl
    fun heq hstep => (hstep.mode_eq o).trans heq

/-! ## What a descriptor grants -/

/-- The read through the descriptor fails with `-EACCES`. -/
def ReadDenied (k : Kernel C.toFileConsts F.toFileSystem) (pid : Nat) (fd : Fin C.maxOpenFiles)
    (mem : Memory) (count : Nat) : Prop :=
  ∃ o flat buff' filep', k.files pid fd = some o ∧
    doReadRegular C F k.inodes (some (k.objs.file o)) (some mem) count =
      some (.error .eacces, flat, buff', filep')

/-- The write through the descriptor fails with `-EACCES`. -/
def WriteDenied (k : Kernel C.toFileConsts F.toFileSystem) (pid : Nat) (fd : Fin C.maxOpenFiles)
    (mem : Memory) (count : Nat) : Prop :=
  ∃ o flat filep' inodes', k.files pid fd = some o ∧
    doWriteRegular C F k.inodes (some (k.objs.file o)) (some mem) count =
      some (.error .eacces, flat, filep', inodes')

/-- Reads and writes through the descriptor are denied exactly when the flags lack the access. -/
def Grants (k : Kernel C.toFileConsts F.toFileSystem) (pid : Nat) (fd : Fin C.maxOpenFiles)
    (flags : BitVec 64) : Prop :=
  ∀ mem count, (ReadDenied k pid fd mem count ↔ flags &&& C.oRead ≠ C.oRead) ∧
    (WriteDenied k pid fd mem count ↔ flags &&& C.oWrite ≠ C.oWrite)

/-- Two modes that grant the same access. -/
def SameAccess (C : FileConsts) (mode flags : BitVec 64) : Prop :=
  (mode &&& C.oRead = C.oRead ↔ flags &&& C.oRead = C.oRead) ∧
    (mode &&& C.oWrite = C.oWrite ↔ flags &&& C.oWrite = C.oWrite)

theorem doReadRegular_eacces_iff : (∃ flat buff' filep',
    doReadRegular C F inodes (some file) (some mem) count =
      some (.error .eacces, flat, buff', filep')) ↔ file.mode &&& C.oRead ≠ C.oRead := by
  constructor
  · rintro ⟨flat, buff', filep', h⟩ hmode
    simp only [doReadRegular, hmode, ne_eq, not_true_eq_false, if_false] at h
    obtain ⟨inode, -, h⟩ := Option.bind_eq_some_iff.1 h
    cases h
  · intro hmode
    exact ⟨_, _, _, if_pos hmode⟩

theorem doWriteRegular_eacces_iff : (∃ flat filep' inodes',
    doWriteRegular C F inodes (some file) (some mem) count =
      some (.error .eacces, flat, filep', inodes')) ↔ file.mode &&& C.oWrite ≠ C.oWrite := by
  constructor
  · rintro ⟨flat, filep', inodes', h⟩ hmode
    simp only [doWriteRegular, hmode, ne_eq, not_true_eq_false, if_false] at h
    split at h
    next => cases h
    next =>
      obtain ⟨inode, -, h⟩ := Option.bind_eq_some_iff.1 h
      cases h
  · intro hmode
    exact ⟨_, _, _, if_pos hmode⟩

/-- A descriptor grants what the mode of its file object says. -/
theorem grants_iff_sameAccess {pid o : Nat} {fd : Fin C.maxOpenFiles}
    (hfd : k.files pid fd = some o) :
    Grants k pid fd flags ↔ SameAccess C.toFileConsts (k.objs.file o).mode flags := by
  have hread (mem count) : ReadDenied k pid fd mem count ↔
      (k.objs.file o).mode &&& C.oRead ≠ C.oRead := by
    simp only [ReadDenied, hfd, Option.some.injEq, exists_and_left, exists_eq_left',
      doReadRegular_eacces_iff]
  have hwrite (mem count) : WriteDenied k pid fd mem count ↔
      (k.objs.file o).mode &&& C.oWrite ≠ C.oWrite := by
    simp only [WriteDenied, hfd, Option.some.injEq, exists_and_left, exists_eq_left',
      doWriteRegular_eacces_iff]
  unfold Grants SameAccess
  simp only [hread, hwrite, ne_eq, not_iff_not]
  exact ⟨fun h => h (fun _ => 0) 0, fun h _ _ => h⟩

/-- Toggling other bits keeps the bits of a mask. -/
theorem xor_and_of_and_eq_zero {x y z : BitVec 64} (h : y &&& z = 0) :
    (x ^^^ y) &&& z = x &&& z := by
  have hdistrib : (x ^^^ y) &&& z = (x &&& z) ^^^ (y &&& z) := by
    ext i hi
    simp [Bool.and_xor_distrib_right]
  rw [hdistrib, h]
  exact BitVec.xor_zero

/-- The flags without `O_CREAT` grant the same access. -/
theorem sameAccess_xor_oCreat {C : FileConsts} (hread : C.oCreat &&& C.oRead = 0)
    (hwrite : C.oCreat &&& C.oWrite = 0) : SameAccess C (flags ^^^ C.oCreat) flags := by
  unfold SameAccess
  rw [xor_and_of_and_eq_zero hread, xor_and_of_and_eq_zero hwrite]
  exact ⟨Iff.rfl, Iff.rfl⟩

/-- Process 0 creates the file and opens it for reading. -/
theorem SmallKernel.empty_open (mode : BitVec 64) : ∃ k₁ : SmallKernel,
    SmallKernel.empty.doRegularFileOpen 0 (some ()) 9 mode = some (.ok 3, k₁) ∧ k₁.alive 0 ∧
      ¬k₁.alive 1 ∧ k₁.files 0 ⟨3, by decide⟩ = some 0 ∧ (k₁.objs.file 0).mode = mode := by
  have hfd : searchFd (SmallKernel.empty.files 0) 3 = some (.ok ⟨3, by decide⟩) :=
    searchFd_ok_iff.2 ⟨le_rfl, rfl, fun j hj hj' => absurd hj' (Fin.not_lt.2 hj)⟩
  have hcase : OpenCase SmallKernel.empty 0 9 mode (some ()) (.ok 3, _) :=
    .opened (by decide) rfl (Nat.zero_le _) (.inl rfl) hfd
  exact ⟨_, doRegularFileOpen_iff.2 hcase, rfl, Bool.false_ne_true, rfl, rfl⟩

end CS330
