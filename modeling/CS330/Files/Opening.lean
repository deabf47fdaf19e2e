import CS330.Files.Counts
import CS330.Files.Regular

/-! # What `do_regular_file_open` leaves behind, and what its descriptors grant

The inode is created and the file object is allocated before the last checks, so a call that fails
there has already taken them. A created file is opened with the mode of its inode, a file that was
there with the flags. -/

namespace CS330

variable {C : FileConsts} {F : FileSystem} {k k' : Kernel C F} {pid : Nat} {name : F.Name}
  {filename : Option F.Name} {flags mode : BitVec 64} {created : Bool} {inode : F.Inode}
  {inodes : F.State}

/-! ## The cases of the call -/

/-- The mode of an inode admits what the flags ask for. -/
def Permits (C : FileConsts) (inodeMode flags : BitVec 64) : Prop :=
  (flags &&& C.oWrite = C.oWrite → inodeMode &&& C.oWrite = C.oWrite) ∧
    (flags &&& C.oRead = C.oRead → inodeMode &&& C.oRead = C.oRead)

/-- The file object that the call sets up. -/
def openedFile (C : FileConsts) (F : FileSystem) (inodes : F.State) (inode : F.Inode)
    (created : Bool) (flags : BitVec 64) : File F.Inode where
  type := .regular inode
  mode := if created then F.mode inodes inode else flags ^^^ C.oCreat
  offp := 0
  refCount := 1

/-- What a call of `do_regular_file_open` returns, and the kernel it leaves. -/
inductive OpenCase (k : Kernel C F) (pid : Nat) (flags mode : BitVec 64) :
    Option F.Name → Except FileError Nat × Kernel C F → Prop where
  | noName : OpenCase k pid flags mode none (.error .einval, k)
  | noFlags {name : F.Name} (hflags : flags = 0) :
    OpenCase k pid flags mode (some name) (.error .einval, k)
  | noInode {name : F.Name} {created : Bool} {inodes : F.State} (hflags : flags ≠ 0)
    (hinode : Kernel.openInode C F k.inodes name flags mode = (created, none, inodes)) :
    OpenCase k pid flags mode (some name) (.error .einval, { k with inodes })
  | tooLarge {name : F.Name} {created : Bool} {inode : F.Inode} {inodes : F.State}
    (hflags : flags ≠ 0)
    (hinode : Kernel.openInode C F k.inodes name flags mode = (created, some inode, inodes))
    (hsize : F.fileSize inodes inode > 4096) :
    OpenCase k pid flags mode (some name) (.error .eothers, { k with inodes })
  | denied {name : F.Name} {inode : F.Inode} {inodes : F.State} (hflags : flags ≠ 0)
    (hinode : Kernel.openInode C F k.inodes name flags mode = (false, some inode, inodes))
    (hsize : F.fileSize inodes inode ≤ 4096) (hdenied : ¬Permits C (F.mode inodes inode) flags) :
    OpenCase k pid flags mode (some name) (.error .eacces, { k with inodes })
  | noSlot {name : F.Name} {created : Bool} {inode : F.Inode} {inodes : F.State} {e : FileError}
    (hflags : flags ≠ 0)
    (hinode : Kernel.openInode C F k.inodes name flags mode = (created, some inode, inodes))
    (hsize : F.fileSize inodes inode ≤ 4096)
    (hpermits : created ∨ Permits C (F.mode inodes inode) flags)
    (hfull : searchFd (k.files pid) 3 = some (.error e)) :
    OpenCase k pid flags mode (some name)
      (.error e,
        { k with inodes, objs := k.objs.allocFile (openedFile C F inodes inode created flags) })
  | opened {name : F.Name} {created : Bool} {inode : F.Inode} {inodes : F.State}
    {fd : Fin C.maxOpenFiles} (hflags : flags ≠ 0)
    (hinode : Kernel.openInode C F k.inodes name flags mode = (created, some inode, inodes))
    (hsize : F.fileSize inodes inode ≤ 4096)
    (hpermits : created ∨ Permits C (F.mode inodes inode) flags)
    (hfd : searchFd (k.files pid) 3 = some (.ok fd)) :
    OpenCase k pid flags mode (some name)
      (.ok fd,
        { k with inodes,
                 objs := k.objs.allocFile (openedFile C F inodes inode created flags) }.setFile
          pid fd k.objs.nextFile)

theorem not_permits_iff {inodeMode : BitVec 64} : ¬Permits C inodeMode flags ↔
    inodeMode &&& C.oWrite ≠ C.oWrite ∧ flags &&& C.oWrite = C.oWrite ∨
      inodeMode &&& C.oRead ≠ C.oRead ∧ flags &&& C.oRead = C.oRead := by
  unfold Permits
  tauto

theorem not_denied {inodeMode : BitVec 64} (h : created ∨ Permits C inodeMode flags) :
    ¬(¬created ∧ (inodeMode &&& C.oWrite ≠ C.oWrite ∧ flags &&& C.oWrite = C.oWrite ∨
      inodeMode &&& C.oRead ≠ C.oRead ∧ flags &&& C.oRead = C.oRead)) :=
  fun hdenied => h.elim hdenied.1 (not_permits_iff.2 hdenied.2)

theorem doRegularFileOpen_iff {res : Except FileError Nat × Kernel C F} :
    k.doRegularFileOpen pid filename flags mode = some res ↔
      OpenCase k pid flags mode filename res := by
  constructor
  · intro h
    unfold Kernel.doRegularFileOpen at h
    split at h
    case h_1 => cases h; exact .noName
    case h_2 name =>
    split at h
    case isTrue hflags => cases h; exact .noFlags hflags
    case isFalse hflags =>
    generalize hinode : Kernel.openInode C F k.inodes name flags mode = found at h
    obtain ⟨created, inode, inodes⟩ := found
    dsimp only at h
    split at h
    case h_1 => cases h; exact .noInode hflags hinode
    case h_2 inode =>
    split at h
    case isTrue hsize => cases h; exact .tooLarge hflags hinode hsize
    case isFalse hsize =>
    have hsize := Nat.not_lt.1 hsize
    split at h
    case isTrue hdenied =>
      cases h
      obtain ⟨hcreated, hdenied⟩ := hdenied
      obtain rfl := Bool.eq_false_iff.2 hcreated
      exact .denied hflags hinode hsize (not_permits_iff.2 hdenied)
    case isFalse hpermits =>
    have hpermits : created ∨ Permits C (F.mode inodes inode) flags := by
      by_contra! hnot
      exact hpermits ⟨hnot.1, not_permits_iff.1 hnot.2⟩
    obtain ⟨fd, hfd, rfl⟩ := Option.map_eq_some_iff.1 h
    cases fd with
    | error e => exact .noSlot hflags hinode hsize hpermits hfd
    | ok fd => exact .opened hflags hinode hsize hpermits hfd
  · intro h
    cases h with
    | noName => rfl
    | noFlags hflags => simp only [Kernel.doRegularFileOpen, if_pos hflags]
    | noInode hflags hinode => simp only [Kernel.doRegularFileOpen, if_neg hflags, hinode]
    | tooLarge hflags hinode hsize =>
      simp only [Kernel.doRegularFileOpen, if_neg hflags, hinode, if_pos hsize]
    | denied hflags hinode hsize hdenied =>
      simp only [Kernel.doRegularFileOpen, if_neg hflags, hinode, if_neg (Nat.not_lt.2 hsize)]
      exact if_pos ⟨Bool.false_ne_true, not_permits_iff.1 hdenied⟩
    | noSlot hflags hinode hsize hpermits hfull =>
      simp only [Kernel.doRegularFileOpen, if_neg hflags, hinode, if_neg (Nat.not_lt.2 hsize)]
      rw [if_neg (not_denied hpermits), hfull]
      rfl
    | opened hflags hinode hsize hpermits hfd =>
      simp only [Kernel.doRegularFileOpen, if_neg hflags, hinode, if_neg (Nat.not_lt.2 hsize)]
      rw [if_neg (not_denied hpermits), hfd]
      rfl

/-- The inode is the one that is there, or a created one. -/
theorem openInode_cases {found : Option F.Inode} {s : F.State}
    (h : Kernel.openInode C F s name flags mode = (created, found, inodes)) :
    created = false ∧ inodes = s ∧ F.lookupInode s name = found ∨
      created = true ∧ F.lookupInode s name = none ∧
        F.createInode s name mode = (found, inodes) := by
  unfold Kernel.openInode at h
  split at h
  next hnone =>
    split at h
    next =>
      obtain ⟨rfl, hcreate⟩ := Prod.mk.inj h
      exact .inr ⟨rfl, hnone, hcreate⟩
    next =>
      cases h
      exact .inl ⟨rfl, rfl, hnone⟩
  next hsome =>
    cases h
    exact .inl ⟨rfl, rfl, hsome⟩

/-! ## Failed calls -/

/-- `create_inode` succeeds and adds the inode. -/
def FileSystem.Creates (F : FileSystem) : Prop :=
  ∀ s name mode, F.lookupInode s name = none → ∃ inode s',
    F.createInode s name mode = (some inode, s') ∧ F.lookupInode s' name = some inode

/-- When the call fails, it leaves the inodes, the file objects and the descriptors as they are. -/
def FailsCleanly (k : Kernel C F) (pid : Nat) (filename : Option F.Name)
    (flags mode : BitVec 64) : Prop :=
  ∀ e k', k.doRegularFileOpen pid filename flags mode = some (.error e, k') →
    k'.inodes = k.inodes ∧ k'.objs = k.objs ∧ k'.files = k.files

/-- All descriptors from 3 up are taken. -/
def NoFreeFd (files : Fin M → Option Nat) : Prop :=
  3 < M ∧ ∀ fd : Fin M, 3 ≤ fd.val → (files fd).isSome

/-- The call has created an inode that is too large, or it passes the checks on the inode and finds
no free descriptor. -/
def OpenLeaks (k : Kernel C F) (pid : Nat) (filename : Option F.Name)
    (flags mode : BitVec 64) : Prop :=
  ∃ name created inode inodes, filename = some name ∧ flags ≠ 0 ∧
    Kernel.openInode C F k.inodes name flags mode = (created, some inode, inodes) ∧
    (created ∧ F.fileSize inodes inode > 4096 ∨
      F.fileSize inodes inode ≤ 4096 ∧ (created ∨ Permits C (F.mode inodes inode) flags) ∧
        NoFreeFd (k.files pid))

theorem searchFd_of_noFreeFd {files : Fin M → Option Nat} :
    NoFreeFd files ↔ searchFd files 3 = some (.error .eothers) := by
  rw [searchFd_error_iff]
  exact ⟨fun h => ⟨rfl, h⟩, fun h => h.2⟩

theorem FileSystem.Creates.ne (h : F.Creates) {s : F.State} (hnone : F.lookupInode s name = none)
    (hcreate : F.createInode s name mode = (some inode, inodes)) : inodes ≠ s := by
  obtain ⟨inode', s', hcreate', hsome⟩ := h s name mode hnone
  obtain ⟨-, rfl⟩ := Prod.mk.inj (hcreate'.symm.trans hcreate)
  rintro rfl
  rw [hnone] at hsome
  cases hsome

/-- A call fails cleanly exactly when it does not leak. -/
theorem failsCleanly_iff (hcreate : F.Creates) :
    FailsCleanly k pid filename flags mode ↔ ¬OpenLeaks k pid filename flags mode := by
  constructor
  · rintro hclean ⟨name, created, inode, inodes, rfl, hflags, hinode, ⟨hcreated, hsize⟩ |
      ⟨hsize, hpermits, hfull⟩⟩
    · have hsame := (hclean _ _ (doRegularFileOpen_iff.2 (.tooLarge hflags hinode hsize))).1
      rcases openInode_cases hinode with ⟨rfl, -⟩ | ⟨-, hnone, hnew⟩
      · cases hcreated
      · exact hcreate.ne hnone hnew hsame
    · have hfail := searchFd_of_noFreeFd.1 hfull
      have hobjs :=
        (hclean _ _ (doRegularFileOpen_iff.2 (.noSlot hflags hinode hsize hpermits hfail))).2.1
      exact absurd (congrArg Objects.nextFile hobjs) (Nat.succ_ne_self _)
  · intro hleak e k' hopen
    cases doRegularFileOpen_iff.1 hopen with
    | noName | noFlags => exact ⟨rfl, rfl, rfl⟩
    | noInode hflags hinode =>
      rcases openInode_cases hinode with ⟨-, rfl, -⟩ | ⟨-, hnone, hnew⟩
      · exact ⟨rfl, rfl, rfl⟩
      · obtain ⟨inode, s', hsome, -⟩ := hcreate _ _ mode hnone
        cases hnew.symm.trans hsome
    | tooLarge hflags hinode hsize =>
      rcases openInode_cases hinode with ⟨-, rfl, -⟩ | ⟨hcreated, -⟩
      · exact ⟨rfl, rfl, rfl⟩
      · exact absurd ⟨_, _, _, _, rfl, hflags, hinode, .inl ⟨hcreated, hsize⟩⟩ hleak
    | denied hflags hinode hsize hdenied =>
      rcases openInode_cases hinode with ⟨-, rfl, -⟩ | ⟨hcreated, -⟩
      · exact ⟨rfl, rfl, rfl⟩
      · cases hcreated
    | noSlot hflags hinode hsize hpermits hfull =>
      obtain ⟨rfl, htaken⟩ := searchFd_error_iff.1 hfull
      exact absurd ⟨_, _, _, _, rfl, hflags, hinode, .inr ⟨hsize, hpermits, htaken⟩⟩ hleak

/-- A file system that may hold one empty file, with the mode it was created with. -/
def FlatSystem.emptyFile : FlatSystem where
  State := Option (BitVec 64)
  Name := Unit
  Inode := Unit
  lookupInode s _ := s.map fun _ => ()
  createInode _ _ mode := (some (), some mode)
  fileSize _ _ := 0
  mode s _ := s.getD 0
  sPos _ _ := 0
  ePos _ _ := 4096
  flatRead _ _ mem _ _ := (0, mem)
  flatWrite s _ _ _ _ := (0, s)

theorem FlatSystem.emptyFile_creates : FlatSystem.emptyFile.Creates := by
  intro s name mode hnone
  exact ⟨(), some mode, rfl, rfl⟩

abbrev SmallKernel := Kernel SeekConsts.small.toFileConsts FlatSystem.emptyFile.toFileSystem

/-- One process, and no file. -/
def SmallKernel.empty : SmallKernel := Kernel.boot none ()

/-- All descriptors lead to one file object. -/
def SmallKernel.full : SmallKernel := { SmallKernel.empty with files := fun _ _ => some 0 }

/-- A file is made with and without a free descriptor. -/
theorem failsCleanly_of_full : FailsCleanly SmallKernel.empty 0 (some ()) 9 1 ∧
    ¬FailsCleanly SmallKernel.full 0 (some ()) 9 1 := by
  constructor
  · refine (failsCleanly_iff FlatSystem.emptyFile_creates).2 ?_
    rintro ⟨-, -, inode, inodes, -, -, -, ⟨-, hsize⟩ | ⟨-, -, -, hfull⟩⟩
    · cases hsize
    · exact absurd (hfull (3 : Fin 16) le_rfl) (by decide)
  · intro hclean
    refine (failsCleanly_iff FlatSystem.emptyFile_creates).1 hclean
      ⟨(), true, (), some 1, rfl, by decide, rfl, .inr ⟨Nat.zero_le _, .inl rfl, ?_⟩⟩
    exact ⟨by decide, fun _ _ => rfl⟩

/-- Without a free descriptor the new file stays. -/
theorem not_failsCleanly : ¬∀ {C : FileConsts} {F : FileSystem} {k : Kernel C F} {pid : Nat}
    {filename : Option F.Name} {flags mode : BitVec 64}, F.Creates →
    FailsCleanly k pid filename flags mode := by
  intro hclaim
  have hclean : FailsCleanly SmallKernel.full 0 (some ()) 9 1 :=
    hclaim FlatSystem.emptyFile_creates
  have hfull : searchFd (SmallKernel.full.files 0) 3 = some (.error .eothers) :=
    searchFd_of_noFreeFd.1 ⟨by decide, fun _ _ => rfl⟩
  have hcase : OpenCase SmallKernel.full 0 9 1 (some ()) (.error .eothers, _) :=
    .noSlot (by decide) rfl (by decide) (.inl rfl) hfull
  cases (hclean _ _ (doRegularFileOpen_iff.2 hcase)).1

end CS330
