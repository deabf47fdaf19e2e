import CS330.Files.Contents

/-! # One store for all processes

Every call of every process does to the descriptors, the open files and the contents of the files
what it is to do there, and returns what it is to return. A descriptor that is duplicated or
inherited leads to the same open file, so that its cursor is shared. -/

namespace CS330

/-- What the files of `fs.h` and the descriptors of all processes are to be. -/
abbrev FileStore (C : FileConsts) (F : FileSystem) :=
  SharedStore F.Name (BitVec 64) Nat (Fin C.maxOpenFiles) F.Inode Special Nat UInt8

/-! ## What is asked of the calls of descriptors -/

section
variable {C : FileConsts} {F : FileSystem}

/-- An open file at its start, with the access that the mode grants. -/
def OpenFile.start (C : FileConsts) (inode : I) (mode : BitVec 64) : OpenFile I where
  inode := inode
  readable := mode &&& C.oRead = C.oRead
  writable := mode &&& C.oWrite = C.oWrite
  cursor := 0

variable [DecidableEq F.Inode] [DecidableEq F.Name]

/-- An `open` of the name gets the file `i` with the access `m`: the flags for a file that is there,
and the mode for one that is made. -/
inductive Finds (C : FileConsts) (st : FileStore C F) (name : F.Name) (flags mode : BitVec 64) :
    F.Inode → BitVec 64 → FileStore C F → Prop where
  | there (h : st.names name = some i) (hsize : (st.bytes i).length ≤ 4096)
    (hpermits : Permits C (st.modes i) flags) : Finds C st name flags mode i (flags ^^^ C.oCreat) st
  | created (h : st.names name = none) (hflags : flags &&& C.oCreat = C.oCreat)
    (hnew : ∀ name', st.names name' ≠ some i) :
    Finds C st name flags mode i mode (st.create name i mode)

/-- What a call is to return, and the store that it is to leave behind. A handle that is new is not
in use before. -/
inductive FileCase (C : FileConsts) (st : FileStore C F) :
    FileCall F → FileReply → FileStore C F → Prop where
  | standardIo {fd : Fin C.maxOpenFiles} (hfree : st.files pid fd = none)
    (ho : st.opened o = none) :
    FileCase C st (.openStandardIo pid fd) (.ok [↑fd])
      ((st.alloc o (.special (.stdIo fd))).setSlot pid fd (some o))
  | standardIoTaken {type fd : Fin C.maxOpenFiles} (ho : st.files pid type = some o)
    (hfd : LowestFree (st.files pid) 3 fd) :
    FileCase C st (.openStandardIo pid type) (.ok [↑fd]) (st.setSlot pid fd (some o))
  | openNoName : FileCase C st (.doRegularFileOpen pid none flags mode) (.error .einval) st
  | openNoFlags : FileCase C st (.doRegularFileOpen pid (some name) 0 mode) (.error .einval) st
  -- with `O_CREAT` there may be no room for the file
  | openNoFile (h : st.names name = none) :
    FileCase C st (.doRegularFileOpen pid (some name) flags mode) (.error .einval) st
  | openTooLarge {flags : BitVec 64} (hflags : flags ≠ 0) (h : st.names name = some i)
    (hsize : 4096 < (st.bytes i).length) :
    FileCase C st (.doRegularFileOpen pid (some name) flags mode) (.error .eothers) st
  | openDenied {flags : BitVec 64} (hflags : flags ≠ 0) (h : st.names name = some i)
    (hsize : (st.bytes i).length ≤ 4096) (hdenied : ¬Permits C (st.modes i) flags) :
    FileCase C st (.doRegularFileOpen pid (some name) flags mode) (.error .eacces) st
  -- the file and a handle without descriptors stay behind
  | openFull {flags : BitVec 64} (hflags : flags ≠ 0) (h : Finds C st name flags mode i m st')
    (ho : st'.opened o = none)
    (hfull : ∀ fd : Fin C.maxOpenFiles, 3 ≤ fd.val → (st.files pid fd).isSome) :
    FileCase C st (.doRegularFileOpen pid (some name) flags mode) (.error .eothers)
      (st'.alloc o (.file (.start C i m)))
  | opened {fd : Fin C.maxOpenFiles} {flags : BitVec 64} (hflags : flags ≠ 0)
    (h : Finds C st name flags mode i m st') (ho : st'.opened o = none)
    (hfd : LowestFree (st.files pid) 3 fd) :
    FileCase C st (.doRegularFileOpen pid (some name) flags mode) (.ok [↑fd])
      ((st'.alloc o (.file (.start C i m))).setSlot pid fd (some o))
  | pipe {fd1 fd2 : Fin C.maxOpenFiles} (h1 : LowestFree (st.files pid) 3 fd1)
    (h2 : LowestFree (st.files pid) (fd1 + 1) fd2) (ho : st.opened o = none)
    (ho' : st.opened o' = none) (hne : o ≠ o')
    (hp : ∀ o filep, st.opened o ≠ some (.special (.pipe p filep))) :
    FileCase C st (.createPipe pid fds page) (.ok [↑fd1, ↑fd2])
      ((((st.alloc o (.special (.pipe p ⟨.read⟩))).alloc o' (.special (.pipe p ⟨.write⟩))).setSlot
        pid fd1 (some o)).setSlot pid fd2 (some o'))
  | pipeFull (hfull : ¬TwoFree (st.files pid)) :
    FileCase C st (.createPipe pid fds page) (.error .eothers) st
  | dup {old fd : Fin C.maxOpenFiles} (ho : st.files pid old = some o)
    (hfd : LowestFree (st.files pid) 0 fd) :
    FileCase C st (.fdDup pid (old : Nat)) (.ok [↑fd]) (st.setSlot pid fd (some o))
  | dupFull {old : Fin C.maxOpenFiles} (ho : st.files pid old = some o)
    (hfull : ∀ fd, (st.files pid fd).isSome) :
    FileCase C st (.fdDup pid (old : Nat)) (.error .eothers) st
  | dupBad {oldfd : Int}
    (hbad : ∀ old : Fin C.maxOpenFiles, (old : Nat) = oldfd → st.files pid old = none) :
    FileCase C st (.fdDup pid oldfd) (.error .einval) st
  | dup2 {old new : Fin C.maxOpenFiles} (ho : st.files pid old = some o) :
    FileCase C st (.fdDup2 pid (old : Nat) (new : Nat)) (.ok [↑new]) (st.setSlot pid new (some o))
  | dup2Bad {oldfd newfd : Int}
    (hbad : (∀ old : Fin C.maxOpenFiles, (old : Nat) = oldfd → st.files pid old = none) ∨
      ∀ new : Fin C.maxOpenFiles, (new : Nat) ≠ newfd) :
    FileCase C st (.fdDup2 pid oldfd newfd) (.error .einval) st
  | fork (hchild : ∀ fd, st.files child fd = none) :
    FileCase C st (.fork pid child) (.ok []) (st.inherit pid child)
  | close {fd : Fin C.maxOpenFiles} (hfd : (st.files pid fd).isSome) :
    FileCase C st (.close pid fd) (.ok []) (st.setSlot pid fd none)
  | exit : FileCase C st (.exit pid) (.ok []) (st.discard pid)

theorem Finds.sound {st st' : FileStore C F} {name : F.Name} {i : F.Inode} {m : BitVec 64}
    (h : Finds C st name flags mode i m st') (hst : st.Sound 4096) :
    st'.Sound 4096 ∧ (st'.bytes i).length ≤ 4096 ∧ st'.files = st.files := by
  cases h with
  | there _ hsize => exact ⟨hst, hsize, rfl⟩
  | created => exact ⟨hst.create, by simp [SharedStore.create], rfl⟩

theorem FileCase.sound {st st' : FileStore C F} {call : FileCall F} {reply : FileReply}
    (h : FileCase C st call reply st') (hst : st.Sound 4096) : st'.Sound 4096 := by
  have hspecial {st : FileStore C F} {o : Nat} {x : Special} (hst : st.Sound 4096) :
      (st.alloc o (.special x)).Sound 4096 := hst.alloc fun f hf => by cases hf
  have hopened {st : FileStore C F} {o : Nat} {i : F.Inode} {m : BitVec 64} (hst : st.Sound 4096)
      (hsize : (st.bytes i).length ≤ 4096) : (st.alloc o (.file (.start C i m))).Sound 4096 :=
    hst.alloc fun f hf => by
      cases hf
      exact ⟨Nat.zero_le _, hsize⟩
  cases h with
  | standardIo => exact (hspecial hst).setSlot (by simp [SharedStore.alloc])
  | standardIoTaken ho | dup ho | dup2 ho =>
    refine hst.setSlot fun o' ho' => ?_
    cases ho'
    exact hst.leads _ _ _ ho
  | openNoName | openNoFlags | openNoFile | openTooLarge | openDenied | pipeFull | dupFull | dupBad
    | dup2Bad => exact hst
  | openFull _ h =>
    obtain ⟨hst', hsize, -⟩ := h.sound hst
    exact hopened hst' hsize
  | opened _ h =>
    obtain ⟨hst', hsize, -⟩ := h.sound hst
    exact (hopened hst' hsize).setSlot (by simp [SharedStore.alloc])
  | pipe _ _ _ _ hne =>
    refine ((hspecial (hspecial hst)).setSlot ?_).setSlot ?_
    · simp [SharedStore.alloc, hne]
    · simp [SharedStore.alloc, SharedStore.setSlot]
  | fork => exact hst.inherit
  | close => exact hst.setSlot (by simp)
  | exit => exact hst.discard

end

variable {C : SeekConsts} {F : FlatSystem} {k k' : Kernel C.toFileConsts F.toFileSystem}
  {bytes : F.State → F.Inode → List UInt8}

/-- The reads, writes and seeks of regular files are in range. -/
def SysCall.InRange {C : SeekConsts} {F : FlatSystem} (st : FileStore C.toFileConsts F.toFileSystem) :
    SysCall F → Prop
  | .regular pid fd call _ => ∀ (i : Fin C.maxOpenFiles) o f, (i : Nat) = fd →
    st.files pid i = some o → st.opened o = some (.file f) → st.InRange C f call
  | _ => True

/-- What a system call does to the store. What a pipe holds is not part of it. -/
inductive StoreStep (C : SeekConsts) {F : FlatSystem} [DecidableEq F.Inode] [DecidableEq F.Name]
    (st : FileStore C.toFileConsts F.toFileSystem) :
    SysCall F → FileStore C.toFileConsts F.toFileSystem → Prop where
  | file {st' : FileStore C.toFileConsts F.toFileSystem}
    (h : FileCase C.toFileConsts st call reply st') : StoreStep C st (.file call reply) st'
  | regular {fd : Fin C.maxOpenFiles} {store : Store F.Inode Special Nat UInt8}
    (hfd : st.files pid fd = some o) (ho : st.opened o = some (.file f))
    (h : st.serve C o f call = (reply, store)) :
    StoreStep C st (.regular pid fd call reply) { st with toStore := store }
  | pipe {fd : Fin C.maxOpenFiles} {call : PipeCall} {filep : PipeFile}
    (hfd : st.files pid fd = some o) (ho : st.opened o = some (.special (.pipe p filep)))
    (hfilep : call.filep = some filep) : StoreStep C st (.pipe pid fd p call) st

/-- No call gets behind the room of a file. -/
theorem StoreStep.sound [DecidableEq F.Inode] [DecidableEq F.Name]
    {st st' : FileStore C.toFileConsts F.toFileSystem} {call : SysCall F}
    (h : StoreStep C st call st') (hin : call.InRange st) (hst : st.Sound 4096) :
    st'.Sound 4096 := by
  cases h with
  | file h => exact h.sound hst
  | pipe => exact hst
  | @regular pid o f call reply fd store hfd ho h =>
    have hwithin := hst.within.serve ho (hin _ _ _ rfl hfd ho)
    rw [h] at hwithin
    refine ⟨fun pid fd o' hfd' => ?_, hwithin⟩
    have hopen : ((st.serve C o f call).2.opened o').isSome :=
      Store.isSome_serve (hst.leads _ _ _ hfd')
    rwa [h] at hopen

/-! ## The store of the kernel -/

theorem File.opened_congr {C : FileConsts} {file file' : File I} (htype : file'.type = file.type)
    (hmode : file'.mode = file.mode) (hoffp : file'.offp = file.offp) :
    file'.opened C = file.opened C := by
  unfold File.opened
  rw [htype]
  split <;> simp [File.view, File.pipeFile, hmode, hoffp]

namespace Objects

variable {C : FileConsts} {I : Type} {short : I → Prop} {objs objs' : Objects I} {o : Nat} {d : Int}

/-- What is open. A file object that was freed is one that no descriptor leads to. -/
def opened (C : FileConsts) (objs : Objects I) (o : Nat) : Option (Opened I Special) :=
  if o < objs.nextFile then some ((objs.file o).opened C) else none

theorem opened_eq_some {x : Opened I Special} :
    objs.opened C o = some x ↔ o < objs.nextFile ∧ (objs.file o).opened C = x := by
  simp [opened]

theorem opened_nextFile : objs.opened C objs.nextFile = none := by simp [opened]

/-- Counts and flags are not seen. -/
theorem Extends.opened_eq (h : objs.Extends short objs') (hnext : objs'.nextFile = objs.nextFile) :
    objs'.opened C = objs.opened C := by
  funext o
  unfold Objects.opened
  rw [hnext]
  split
  next ho =>
    obtain ⟨htype, hmode, hoffp⟩ := h.file ho
    rw [File.opened_congr htype hmode hoffp]
  next => rfl

theorem dropRef_nextFile : (objs.dropRef C o).nextFile = objs.nextFile := by
  by_cases hcount : (objs.file o).refCount = 1
  · exact (dropRef_file hcount).2.1
  · rw [dropRef_of_ne hcount]
    rfl

theorem doFileFork_nextFile {files : Fin M → Option Nat} :
    (objs.doFileFork files).nextFile = objs.nextFile := by
  unfold Objects.doFileFork
  induction List.finRange M generalizing objs with
  | nil => rfl
  | cons i l ih =>
    rw [List.foldl_cons, ih]
    cases files i <;> rfl

theorem doFileExit_nextFile {files : Fin M → Option Nat} :
    (objs.doFileExit C files).nextFile = objs.nextFile := by
  unfold Objects.doFileExit
  induction List.finRange M generalizing objs with
  | nil => rfl
  | cons i l ih =>
    rw [List.foldl_cons, ih]
    cases files i with
    | none => rfl
    | some o => exact dropRef_nextFile

@[simp] theorem opened_addRef : (objs.addRef o d).opened C = objs.opened C :=
  (Extends.addRef : objs.Extends (fun _ => True) _).opened_eq rfl

@[simp] theorem opened_dropRef : (objs.dropRef C o).opened C = objs.opened C :=
  (Extends.dropRef : objs.Extends (fun _ => True) _).opened_eq dropRef_nextFile

@[simp] theorem opened_doFileFork {files : Fin M → Option Nat} :
    (objs.doFileFork files).opened C = objs.opened C :=
  (Extends.doFileFork : objs.Extends (fun _ => True) _).opened_eq doFileFork_nextFile

@[simp] theorem opened_doFileExit {files : Fin M → Option Nat} :
    (objs.doFileExit C files).opened C = objs.opened C :=
  (Extends.doFileExit : objs.Extends (fun _ => True) _).opened_eq doFileExit_nextFile

theorem opened_allocFile {file : File I} : (objs.allocFile file).opened C =
    Function.update (objs.opened C) objs.nextFile (some (file.opened C)) := by
  funext o
  rcases lt_trichotomy o objs.nextFile with hlt | rfl | hgt
  · simp [opened, allocFile, hlt.ne, hlt, hlt.trans (Nat.lt_succ_self _)]
  · simp [opened, allocFile]
  · have hnot : ¬o < objs.nextFile + 1 := by omega
    simp [opened, allocFile, hgt.ne', hgt.not_gt, hnot]

theorem opened_newPipe {page : Vector UInt8 4096} : (objs.newPipe C page).opened C =
    Function.update (Function.update (objs.opened C) objs.nextFile
      (some (.special (.pipe objs.nextPipe ⟨.read⟩)))) (objs.nextFile + 1)
        (some (.special (.pipe objs.nextPipe ⟨.write⟩))) := by
  have hread (p : Nat) : (⟨.pipe p, C.oRead, 0, 1⟩ : File I).opened C =
      .special (.pipe p ⟨.read⟩) := by simp [File.opened, File.pipeFile]
  have hwrite (p : Nat) : (⟨.pipe p, C.oWrite, 0, 1⟩ : File I).opened C =
      .special (.pipe p ⟨.write⟩) := by
    simp [File.opened, File.pipeFile, C.oRead_ne_oWrite.symm]
  rw [newPipe, opened_allocFile, opened_allocFile, hread, hwrite]
  rfl

end Objects

namespace Kernel

section
variable {C : FileConsts} {F : FileSystem} {k k' : Kernel C F} {pid : Nat}
  {bytes : F.State → F.Inode → List UInt8} {files : Nat → Fin C.maxOpenFiles → Option Nat}
  {alive : Nat → Bool} {objs objs' : Objects F.Inode} {inodes : F.State} {file : File F.Inode}

/-- The files, the open files and the descriptors of the kernel. -/
def store (bytes : F.State → F.Inode → List UInt8) (k : Kernel C F) : FileStore C F where
  bytes := bytes k.inodes
  opened := k.objs.opened C
  names := F.lookupInode k.inodes
  modes := F.mode k.inodes
  files := k.files

theorem store_setFile {fd : Fin C.maxOpenFiles} {v : Option Nat} :
    (k.setFile pid fd v).store bytes = (k.store bytes).setSlot pid fd v := rfl

theorem store_objs (h : objs'.opened C = objs.opened C) :
    store bytes ⟨files, alive, objs', inodes⟩ = store bytes ⟨files, alive, objs, inodes⟩ := by
  simp [store, h]

theorem store_allocFile : store bytes ⟨files, alive, objs.allocFile file, inodes⟩ =
    (store bytes ⟨files, alive, objs, inodes⟩).alloc objs.nextFile (file.opened C) := by
  simp [store, SharedStore.alloc, Objects.opened_allocFile]

theorem store_makePipe {fd1 fd2 : Fin C.maxOpenFiles} {page : Vector UInt8 4096} :
    (k.makePipe pid fd1 fd2 page).store bytes =
      ((((k.store bytes).alloc k.objs.nextFile (.special (.pipe k.objs.nextPipe ⟨.read⟩))).alloc
        (k.objs.nextFile + 1) (.special (.pipe k.objs.nextPipe ⟨.write⟩))).setSlot pid fd1
          (some k.objs.nextFile)).setSlot pid fd2 (some (k.objs.nextFile + 1)) := by
  have hpipe : store bytes ⟨k.files, k.alive, k.objs.newPipe C page, k.inodes⟩ =
      ((k.store bytes).alloc k.objs.nextFile (.special (.pipe k.objs.nextPipe ⟨.read⟩))).alloc
        (k.objs.nextFile + 1) (.special (.pipe k.objs.nextPipe ⟨.write⟩)) := by
    simp [store, SharedStore.alloc, Objects.opened_newPipe]
  rw [← hpipe]
  rfl

theorem slot_eq_some {fd : Int} {i : Fin C.maxOpenFiles} :
    slot C fd = some i ↔ ((i : Nat) : Int) = fd := by
  unfold slot
  split
  next h => simp [Fin.ext_iff]; omega
  next h => simp; omega

theorem slot_eq_none {fd : Int} : slot C fd = none ↔ ∀ i : Fin C.maxOpenFiles, (i : Nat) ≠ fd := by
  rw [Option.eq_none_iff_forall_ne_some]
  exact forall_congr' fun i => not_congr slot_eq_some

variable [DecidableEq F.Inode] [DecidableEq F.Name]

theorem openStandardIo_case {type fd : Nat} (h : k.openStandardIo pid type = some (fd, k')) :
    FileCase C (k.store bytes) (.openStandardIo pid type) (.ok [fd]) (k'.store bytes) := by
  unfold openStandardIo at h
  split at h
  case h_1 => cases h
  case h_2 _ hslot =>
  obtain rfl : _ = type := Int.ofNat_inj.1 (slot_eq_some.1 hslot)
  split at h
  case h_1 hfree =>
    cases h
    rw [store_setFile, store_allocFile]
    exact .standardIo hfree Objects.opened_nextFile
  case h_2 o ho =>
    split at h
    case h_1 fd' hfd =>
      cases h
      rw [store_setFile, store_objs Objects.opened_addRef]
      exact .standardIoTaken ho (searchFd_ok_iff.1 hfd)
    case h_2 => cases h

theorem createPipe_case {fds fds' : Nat × Nat} {page : Vector UInt8 4096} {ret : Except FileError Unit}
    (h : k.createPipe pid fds page = some (ret, fds', k')) (hk : k.Counted) :
    FileCase C (k.store bytes) (.createPipe pid fds page) (ret.map fun _ => [fds'.1, fds'.2])
      (k'.store bytes) := by
  unfold createPipe at h
  obtain ⟨res, hfirst, h⟩ := Option.bind_eq_some_iff.1 h
  cases res with
  | error e =>
    cases h
    obtain ⟨rfl, -, htaken⟩ := searchFd_error_iff.1 hfirst
    exact .pipeFull (not_twoFree_of_taken htaken)
  | ok fd1 =>
    obtain ⟨res, hsecond, h⟩ := Option.bind_eq_some_iff.1 h
    have h1 := searchFd_ok_iff.1 hfirst
    cases res with
    | error e =>
      cases h
      obtain ⟨rfl, -, htaken⟩ := searchFd_error_iff.1 hsecond
      exact .pipeFull (h1.not_twoFree htaken)
    | ok fd2 =>
      cases h
      have ho : (k.store bytes).opened k.objs.nextFile = none := Objects.opened_nextFile
      have ho' : (k.store bytes).opened (k.objs.nextFile + 1) = none := by
        simp [store, Objects.opened]
      rw [store_makePipe]
      refine .pipe h1 (searchFd_ok_iff.1 hsecond) ho ho' (Nat.succ_ne_self _).symm fun o filep hp => ?_
      obtain ⟨hlt, hfile⟩ := Objects.opened_eq_some.1 hp
      unfold File.opened at hfile
      split at hfile
      case h_1 | h_2 => cases hfile
      case h_3 htype =>
        cases hfile
        exact Nat.lt_irrefl _ (hk.accounted.pipe_lt hlt htype)

theorem fdDup_case {oldfd : Int} {ret : Except FileError Nat}
    (h : k.fdDup pid oldfd = some (ret, k')) :
    FileCase C (k.store bytes) (.fdDup pid oldfd) (ret.map fun fd => [fd]) (k'.store bytes) := by
  unfold fdDup at h
  split at h
  case h_1 hslot =>
    cases h
    exact .dupBad fun old hold => absurd hold (slot_eq_none.1 hslot old)
  case h_2 old hslot =>
  obtain rfl := slot_eq_some.1 hslot
  split at h
  case h_1 hnone =>
    cases h
    exact .dupBad fun old' hold => Fin.ext (Int.ofNat_inj.1 hold) ▸ hnone
  case h_2 o ho =>
  obtain ⟨res, hsearch, h⟩ := Option.map_eq_some_iff.1 h
  cases res with
  | error e =>
    cases h
    obtain ⟨rfl, -, htaken⟩ := searchFd_error_iff.1 hsearch
    exact .dupFull ho fun fd => htaken fd (Nat.zero_le _)
  | ok fd =>
    cases h
    rw [store_setFile, store_objs Objects.opened_addRef]
    exact .dup ho (searchFd_ok_iff.1 hsearch)

theorem fdDup2_case {oldfd newfd : Int} {ret : Except FileError Nat}
    (h : k.fdDup2 pid oldfd newfd = (ret, k')) :
    FileCase C (k.store bytes) (.fdDup2 pid oldfd newfd) (ret.map fun fd => [fd])
      (k'.store bytes) := by
  unfold fdDup2 at h
  split at h
  case h_2 hnone =>
    cases h
    refine .dup2Bad ?_
    cases hold : slot C oldfd with
    | none => exact .inl fun old heq => absurd heq (slot_eq_none.1 hold old)
    | some old =>
      cases hnew : slot C newfd with
      | none => exact .inr (slot_eq_none.1 hnew)
      | some new => exact absurd hnew (hnone old new hold)
  case h_1 old new hold hnew =>
  obtain rfl := slot_eq_some.1 hold
  obtain rfl := slot_eq_some.1 hnew
  split at h
  case h_1 hnone =>
    cases h
    exact .dup2Bad (.inl fun old' hold => Fin.ext (Int.ofNat_inj.1 hold) ▸ hnone)
  case h_2 o ho =>
  cases h
  rw [store_setFile]
  split
  case h_1 o' ho' =>
    rw [Objects.genericClose, store_objs (Objects.opened_dropRef.trans Objects.opened_addRef)]
    exact .dup2 ho
  case h_2 =>
    rw [store_objs Objects.opened_addRef]
    exact .dup2 ho

end

/-! ### `do_regular_file_open` -/

section
variable {C : SeekConsts} {F : FlatSystem} {k k' : Kernel C.toFileConsts F.toFileSystem}
  {bytes : F.State → F.Inode → List UInt8} [DecidableEq F.Inode] [DecidableEq F.Name]
  {name : F.Name} {flags mode : BitVec 64} {inode : F.Inode} {inodes : F.State} {created : Bool}

omit [DecidableEq F.Inode] [DecidableEq F.Name] in
theorem openInode_created {found : Option F.Inode} {s : F.State}
    (h : openInode C.toFileConsts F.toFileSystem s name flags mode = (true, found, inodes)) :
    flags &&& C.oCreat = C.oCreat := by
  unfold openInode at h
  split at h
  · split at h
    next hflags => exact hflags
    next => cases h
  · cases h

/-- The file object that is set up is for the file that the call is to find. -/
theorem openInode_finds (hF : F.Holds bytes)
    (hinode : openInode C.toFileConsts F.toFileSystem k.inodes name flags mode =
      (created, some inode, inodes)) (hsize : F.fileSize inodes inode ≤ 4096)
    (hpermits : created ∨ Permits C.toFileConsts (F.mode inodes inode) flags) :
    ∃ m, Finds C.toFileConsts (k.store bytes) name flags mode inode m
      (store bytes ⟨k.files, k.alive, k.objs, inodes⟩) ∧
      (openedFile C.toFileConsts F.toFileSystem inodes inode created flags).opened C.toFileConsts =
        .file (.start C.toFileConsts inode m) := by
  rcases openInode_cases hinode with ⟨rfl, rfl, hlookup⟩ | ⟨rfl, hnone, hcreate⟩
  · rw [hF.fileSize] at hsize
    exact ⟨_, .there hlookup hsize (hpermits.resolve_left Bool.false_ne_true), rfl⟩
  · obtain ⟨hnew, hbytes, hnames, hmodes⟩ := hF.created hcreate
    have hstore : store bytes ⟨k.files, k.alive, k.objs, inodes⟩ =
        (k.store bytes).create name inode mode := by
      simp [store, SharedStore.create, hbytes, hnames, hmodes]
    refine ⟨mode, hstore ▸ .created hnone (openInode_created hinode) hnew, ?_⟩
    simp [File.opened, openedFile, File.view, OpenFile.start, hmodes]

theorem doRegularFileOpen_case {filename : Option F.Name} {ret : Except FileError Nat}
    (h : k.doRegularFileOpen pid filename flags mode = some (ret, k')) (hF : F.Holds bytes) :
    FileCase C.toFileConsts (k.store bytes) (.doRegularFileOpen pid filename flags mode)
      (ret.map fun fd => [fd]) (k'.store bytes) := by
  cases doRegularFileOpen_iff.1 h with
  | noName => exact .openNoName
  | noFlags hflags =>
    subst hflags
    exact .openNoFlags
  | @noInode name created inodes _ hinode =>
    rcases openInode_cases hinode with ⟨-, rfl, hlookup⟩ | ⟨-, hnone, hcreate⟩
    · exact .openNoFile hlookup
    · obtain ⟨hbytes, hnames, hmodes⟩ := hF.notCreated hcreate
      have hstore : store bytes { k with inodes } = k.store bytes := by
        simp [store, hbytes, hnames, hmodes]
      rw [hstore]
      exact .openNoFile hnone
  | tooLarge hflags hinode hsize =>
    rw [hF.fileSize] at hsize
    rcases openInode_cases hinode with ⟨-, rfl, hlookup⟩ | ⟨-, hnone, hcreate⟩
    · exact .openTooLarge hflags hlookup hsize
    · simp [(hF.created hcreate).2.1] at hsize
  | denied hflags hinode hsize hdenied =>
    rw [hF.fileSize] at hsize
    rcases openInode_cases hinode with ⟨-, rfl, hlookup⟩ | ⟨hcreated, -⟩
    · exact .openDenied hflags hlookup hsize hdenied
    · cases hcreated
  | noSlot hflags hinode hsize hpermits hfull =>
    obtain ⟨m, hfinds, hopened⟩ := openInode_finds hF hinode hsize hpermits
    obtain ⟨rfl, -, htaken⟩ := searchFd_error_iff.1 hfull
    rw [store_allocFile, hopened]
    exact .openFull hflags hfinds Objects.opened_nextFile htaken
  | opened hflags hinode hsize hpermits hfd =>
    obtain ⟨m, hfinds, hopened⟩ := openInode_finds hF hinode hsize hpermits
    rw [store_setFile, store_allocFile, hopened]
    exact .opened hflags hfinds Objects.opened_nextFile (searchFd_ok_iff.1 hfd)

end

end Kernel

/-! ## Runs -/

section
variable {F : FlatSystem} [DecidableEq F.Inode] [DecidableEq F.Name] {C : SeekConsts}
  {k k' : Kernel C.toFileConsts F.toFileSystem} {bytes : F.State → F.Inode → List UInt8}

theorem FileStep.fileCase {call : FileCall F.toFileSystem} {reply : FileReply}
    (h : FileStep k call k') (hreply : call.returns k = some reply) (hk : k.Counted)
    (hF : F.Holds bytes) :
    FileCase C.toFileConsts (k.store bytes) call reply (k'.store bytes) := by
  cases h with
  | openStandardIo _ h =>
    rw [FileCall.returns, h] at hreply
    cases hreply
    exact Kernel.openStandardIo_case h
  | doRegularFileOpen _ h =>
    rw [FileCall.returns, h] at hreply
    cases hreply
    exact Kernel.doRegularFileOpen_case h hF
  | createPipe _ h =>
    rw [FileCall.returns, h] at hreply
    cases hreply
    exact Kernel.createPipe_case h hk
  | fdDup _ h =>
    rw [FileCall.returns, h] at hreply
    cases hreply
    exact Kernel.fdDup_case h
  | fdDup2 _ h =>
    rw [FileCall.returns, h] at hreply
    cases hreply
    exact Kernel.fdDup2_case h
  | @fork pid child _ hchild =>
    cases hreply
    rw [show (k.fork pid child).store bytes = (k.store bytes).inherit pid child by
      simp [Kernel.store, Kernel.fork, SharedStore.inherit]]
    exact .fork fun fd => hk.dead hchild
  | @close pid _ fd hfd =>
    cases hreply
    obtain ⟨o, ho⟩ := Option.isSome_iff_exists.1 hfd
    rw [show (k.close pid fd).store bytes = (k.store bytes).setSlot pid fd none by
      simp [Kernel.store, Kernel.close, Kernel.setFile, SharedStore.setSlot, ho,
        Objects.genericClose]]
    exact .close hfd
  | @exit pid =>
    cases hreply
    rw [show (k.exit pid).store bytes = (k.store bytes).discard pid by
      simp [Kernel.store, Kernel.exit, SharedStore.discard]]
    exact .exit

theorem SysStep.storeStep {call : SysCall F} (h : SysStep k call k') (hF : F.Holds bytes)
    (hk : k.Counted) (hwithin : (k.store bytes).Within 4096) (hin : call.InRange (k.store bytes)) :
    StoreStep C (k.store bytes) call (k'.store bytes) := by
  have hopened {pid o : Nat} {fd : Fin C.maxOpenFiles} (hfd : k.files pid fd = some o) :
      (k.store bytes).opened o = some ((k.objs.file o).opened C.toFileConsts) :=
    Objects.opened_eq_some.2 ⟨hk.accounted.lt ⟨some (pid, fd), hfd⟩, rfl⟩
  cases h with
  | file h hreply => exact .file (h.fileCase hreply hk hF)
  | @pipe pid o p pipe' fd call hfd htype hfilep h =>
    refine .pipe hfd ((hopened hfd).trans ?_) hfilep
    simp [File.opened, htype]
  | @regular pid o call reply fd inode s hfd hinode h =>
    have ho := (hopened hfd).trans (congrArg some (File.opened_of_inode hinode))
    have hserve := h.serve hF hinode ho rfl hwithin (hin fd o _ rfl hfd ho)
    obtain ⟨hnames, hmodes⟩ := h.names hF
    have hlt := (Objects.opened_eq_some.1 ho).1
    have hstore : Kernel.store bytes { k with objs := k.objs.setFile o s.file, inodes := s.inodes } =
        { k.store bytes with
          toStore := s.storeWith C.toFileConsts bytes (k.store bytes).toStore o } := by
      have hfile : (k.objs.setFile o s.file).opened C.toFileConsts =
          Function.update (k.objs.opened C.toFileConsts) o
            (some (s.file.opened C.toFileConsts)) := by
        funext o'
        rcases eq_or_ne o' o with rfl | hne
        · simp [Objects.opened, Objects.setFile, hlt]
        · simp [Objects.opened, Objects.setFile, hne]
      simp [Kernel.store, FlatState.storeWith, hfile, hnames, hmodes]
    rw [hstore]
    exact .regular hfd ho hserve

end

/-! ## A file that two processes share -/

instance : DecidableEq FlatSystem.oneFile.Inode := inferInstanceAs (DecidableEq Unit)

instance : DecidableEq FlatSystem.oneFile.Name := inferInstanceAs (DecidableEq Unit)

/-- The bytes of the only file. -/
def FlatSystem.oneBytes (s : FlatSystem.oneFile.State) (_ : FlatSystem.oneFile.Inode) : List UInt8 :=
  Memory.bytes s.1 s.2

theorem FlatSystem.oneFile_holds : FlatSystem.oneFile.Holds oneBytes where
  fileSize := by simp [FlatSystem.oneFile, oneBytes]
  room := rfl
  flatRead {offp count s i mem} hin hfits := by
    have hcount : int32 count = count := int32_eq (by omega) (by omega)
    rw [oneBytes, Memory.length_bytes] at hin
    refine Prod.ext hcount (funext fun j => ?_)
    by_cases hj : j < count
    · have hlt : offp + j < s.2 := by omega
      simp [FlatSystem.oneFile, oneBytes, Memory.put, Memory.bytes, hj, hlt]
    · simp [FlatSystem.oneFile, oneBytes, Memory.put, Memory.bytes, hj]
  flatWrite {offp s i count mem} hin hfits := by
    have hcount : int32 count = count := int32_eq (by omega) (by omega)
    rw [oneBytes, Memory.length_bytes] at hin
    refine ⟨(FlatSystem.oneFile.flatWrite s i mem count offp).2, Prod.ext hcount rfl,
      funext fun i' => ?_⟩
    obtain rfl : i' = i := rfl
    rw [Function.update_self]
    refine List.ext_getElem? fun j => ?_
    have htake : (((List.range s.2).map s.1).take offp).length = offp := by simpa using hin
    simp only [FlatSystem.oneFile, oneBytes, overwrite, Memory.bytes, List.getElem?_append, htake,
      List.length_append, List.length_map, List.length_range, Int.toNat_natCast]
    have hmem {n j : Nat} {f : Memory} (hj : j < n) :
        ((List.range n).map f)[j]? = some (f j) := by simp [hj]
    split
    next hj =>
      rw [hmem (by omega)]
      by_cases hlt : j < offp
      · rw [if_pos hlt, List.getElem?_take_of_lt hlt, hmem (by omega), if_neg (by omega)]
      · rw [if_neg hlt, hmem (by omega), if_pos (by omega)]
    next hj =>
      rw [List.getElem?_drop, show offp + count + (j - (offp + count)) = j by omega]
      by_cases hlt : j < s.2
      · rw [hmem (by omega), hmem hlt, if_neg (by omega)]
      · simp [hlt, Nat.le_of_not_lt hj]
  writeNames := rfl
  writeModes := rfl
  created h := by cases h
  notCreated h := by
    cases h
    exact ⟨rfl, rfl, rfl⟩

theorem SysStep.regular_of {C : SeekConsts} {F : FlatSystem}
    {k : Kernel C.toFileConsts F.toFileSystem} {file : File F.Inode} {inodes : F.State}
    {inode : F.Inode} {pid o : Nat} {fd : Fin C.maxOpenFiles} {s : FlatState F}
    {call : RegularCall} {reply : RegularReply} (hfd : k.files pid fd = some o)
    (hfile : k.objs.file o = file) (hinodes : k.inodes = inodes) (hinode : file.inode = some inode)
    (h : RegularStep C ⟨file, inodes⟩ call reply s) : SysStep k (.regular pid fd call reply)
      { k with objs := k.objs.setFile o s.file, inodes := s.inodes } := by
  subst hfile hinodes
  exact .regular hfd hinode h

/-- A kernel over the only file, with its calls in range. -/
def OneFileStep (k : Kernel SeekConsts.small.toFileConsts FlatSystem.oneFile.toFileSystem)
    (call : SysCall FlatSystem.oneFile)
    (k' : Kernel SeekConsts.small.toFileConsts FlatSystem.oneFile.toFileSystem) : Prop :=
  call.InRange (k.store FlatSystem.oneBytes) ∧ SysStep (C := .small) k call k'

/-- One process opens the empty file and makes another one, which duplicates the descriptor. -/
theorem OneFileStep.shared :
    ∃ k, Trace OneFileStep (Kernel.boot (fun _ => 0, 0) ())
        [.file (.doRegularFileOpen 0 (some ()) 3 0) (.ok [3]), .file (.fork 0 1) (.ok []),
          .file (.fdDup 1 3) (.ok [0])] k ∧
      k.files 0 (3 : Fin 16) = some 0 ∧ k.files 1 (0 : Fin 16) = some 0 ∧
      k.objs.file 0 = ⟨.regular (), 11, 0, 3⟩ ∧ k.inodes = (fun _ => 0, 0) := by
  let k₀ : Kernel SeekConsts.small.toFileConsts FlatSystem.oneFile.toFileSystem :=
    Kernel.boot (fun _ => 0, 0) ()
  let zero : Fin SeekConsts.small.maxOpenFiles := (0 : Fin 16)
  let three : Fin SeekConsts.small.maxOpenFiles := (3 : Fin 16)
  have hfd : searchFd (k₀.files 0) 3 = some (.ok three) :=
    searchFd_ok_iff.2 ⟨le_rfl, rfl, fun j hj hj' => absurd hj' (Fin.not_lt.2 hj)⟩
  have hcase : OpenCase k₀ 0 3 0 (some ()) (.ok 3, _) :=
    .opened (by decide) rfl (Nat.zero_le _) (.inr ⟨by decide, by decide⟩) hfd
  have hcall := doRegularFileOpen_iff.2 hcase
  have hopen := FileStep.doRegularFileOpen rfl hcall
  have hreturns : FileCall.returns k₀ (.doRegularFileOpen 0 (some ()) 3 0) = some (.ok [3]) := by
    rw [FileCall.returns, hcall]
    rfl
  clear hcall hcase
  generalize hk₁ : Kernel.setFile (C := SeekConsts.small.toFileConsts) _ 0 three _ = k₁ at hopen
  have hfork : FileStep k₁ (.fork 0 1) (k₁.fork 0 1) := by
    subst hk₁
    exact .fork rfl Bool.false_ne_true
  -- the lowest free descriptor of the child is 0
  have hfree : searchFd ((k₁.fork 0 1).files 1) 0 = some (.ok zero) := by
    subst hk₁
    exact searchFd_ok_iff.2 ⟨le_rfl, rfl, fun j _ hj => absurd hj (Nat.not_lt.2 (Nat.zero_le _))⟩
  have hdup : (k₁.fork 0 1).fdDup 1 3 = some (.ok 0, Kernel.setFile
      { k₁.fork 0 1 with objs := (k₁.fork 0 1).objs.addRef 0 1 } 1 zero (some 0)) := by
    have hslot : Kernel.slot SeekConsts.small.toFileConsts 3 = some three :=
      Kernel.slot_eq_some.2 rfl
    have hthree : (k₁.fork 0 1).files 1 three = some 0 := by
      subst hk₁
      rfl
    simp only [Kernel.fdDup, hslot, hthree, hfree]
    rfl
  have hdups : FileCall.returns (k₁.fork 0 1) (.fdDup 1 3) = some (.ok [0]) := by
    rw [FileCall.returns, hdup]
    rfl
  have hopens : OneFileStep k₀ (.file (.doRegularFileOpen 0 (some ()) 3 0) (.ok [3])) k₁ :=
    ⟨trivial, .file hopen hreturns⟩
  have hforks : OneFileStep k₁ (.file (.fork 0 1) (.ok [])) (k₁.fork 0 1) :=
    ⟨trivial, .file hfork rfl⟩
  have hdups : OneFileStep (k₁.fork 0 1) (.file (.fdDup 1 3) (.ok [0])) _ :=
    ⟨trivial, .file (.fdDup rfl hdup) hdups⟩
  refine ⟨_, ((Trace.singleton_iff.2 hopens).snoc hforks).snoc hdups, ?_⟩
  subst hk₁
  exact ⟨rfl, rfl, rfl, rfl⟩

end CS330
