import CS330.Files.Access
import CS330.Pipe.Fifo

/-! # All system calls together

Processes open, duplicate, inherit and close descriptors and read, write and seek through them, in
any order. -/

namespace CS330

/-! ## What the calls of descriptors leave alone -/

/-- The objects change at most their counts and flags, and there may be new ones. A regular file that
is new is `short`. -/
structure Objects.Extends (short : Inode → Prop) (objs objs' : Objects Inode) : Prop where
  nextFile : objs.nextFile ≤ objs'.nextFile
  nextPipe : objs.nextPipe ≤ objs'.nextPipe
  file : o < objs.nextFile → (objs'.file o).type = (objs.file o).type ∧
    (objs'.file o).mode = (objs.file o).mode ∧ (objs'.file o).offp = (objs.file o).offp
  newFile : objs.nextFile ≤ o → o < objs'.nextFile → (objs'.file o).offp = 0 ∧
    ∀ inode, (objs'.file o).type = .regular inode → short inode
  pipe : p < objs.nextPipe → (objs'.pipe p).pipeBuff = (objs.pipe p).pipeBuff ∧
    (objs'.pipe p).bufferOffset = (objs.pipe p).bufferOffset
  newPipe : objs.nextPipe ≤ p → p < objs'.nextPipe → (objs'.pipe p).bufferOffset = 0

namespace Objects

variable {C : FileConsts} {short : I → Prop} {objs objs' objs'' : Objects I} {o : Nat}

namespace Extends

theorem refl : objs.Extends short objs where
  nextFile := le_rfl
  nextPipe := le_rfl
  file _ := ⟨rfl, rfl, rfl⟩
  newFile hle hlt := absurd hlt hle.not_gt
  pipe _ := ⟨rfl, rfl⟩
  newPipe hle hlt := absurd hlt hle.not_gt

theorem trans (h : objs.Extends short objs') (h' : objs'.Extends short objs'') :
    objs.Extends short objs'' where
  nextFile := h.nextFile.trans h'.nextFile
  nextPipe := h.nextPipe.trans h'.nextPipe
  file {o} ho := by
    obtain ⟨htype, hmode, hoffp⟩ := h.file ho
    obtain ⟨htype', hmode', hoffp'⟩ := h'.file (ho.trans_le h.nextFile)
    exact ⟨htype'.trans htype, hmode'.trans hmode, hoffp'.trans hoffp⟩
  newFile {o} hle hlt := by
    by_cases ho : o < objs'.nextFile
    · rw [(h'.file ho).2.2, (h'.file ho).1]
      exact h.newFile hle ho
    · exact h'.newFile (not_lt.1 ho) hlt
  pipe {p} hp := by
    obtain ⟨hbuff, hoff⟩ := h.pipe hp
    obtain ⟨hbuff', hoff'⟩ := h'.pipe (hp.trans_le h.nextPipe)
    exact ⟨hbuff'.trans hbuff, hoff'.trans hoff⟩
  newPipe {p} hle hlt := by
    by_cases hp : p < objs'.nextPipe
    · rw [(h'.pipe hp).2, h.newPipe hle hp]
    · exact h'.newPipe (not_lt.1 hp) hlt

theorem allocFile {file : File I} (hoffp : file.offp = 0)
    (hshort : ∀ inode, file.type = .regular inode → short inode) :
    objs.Extends short (objs.allocFile file) where
  nextFile := Nat.le_succ _
  nextPipe := le_rfl
  file {o} ho := by simp [Objects.allocFile, ho.ne]
  newFile {o} hle hlt := by
    have heq : o = objs.nextFile := Nat.le_antisymm (Nat.le_of_lt_succ hlt) hle
    simpa [Objects.allocFile, heq, hoffp] using hshort
  pipe _ := ⟨rfl, rfl⟩
  newPipe hle hlt := absurd hlt hle.not_gt

theorem newPipe' {page : Vector UInt8 4096} : objs.Extends short (objs.newPipe C page) := by
  refine (trans ?_ (allocFile rfl nofun)).trans (allocFile rfl nofun)
  exact {
    nextFile := le_rfl
    nextPipe := Nat.le_succ _
    file := fun _ => ⟨rfl, rfl, rfl⟩
    newFile := fun hle hlt => absurd hlt hle.not_gt
    pipe := fun {p} hp => by simp [allocPipeInfo, hp.ne]
    newPipe := fun {p} hle hlt => by
      have heq : p = objs.nextPipe := Nat.le_antisymm (Nat.le_of_lt_succ hlt) hle
      simp [allocPipeInfo, heq, CS330.createPipe] }

theorem addRef {d : Int} : objs.Extends short (objs.addRef o d) where
  nextFile := le_rfl
  nextPipe := le_rfl
  file {o'} _ := by
    rcases eq_or_ne o' o with rfl | hne
    · simp
    · simp [addRef_file_of_ne hne]
  newFile hle hlt := absurd hlt hle.not_gt
  pipe _ := ⟨rfl, rfl⟩
  newPipe hle hlt := absurd hlt hle.not_gt

theorem dropRef : objs.Extends short (objs.dropRef C o) := by
  by_cases hcount : (objs.file o).refCount = 1
  · obtain ⟨hfile, hnext, hnextPipe, -⟩ := dropRef_file (C := C) hcount
    have hadd : objs.Extends short (objs.addRef o (-1)) := addRef
    exact {
      nextFile := hnext.ge
      nextPipe := hnextPipe.ge
      file := fun ho => by
        rw [hfile]
        exact hadd.file ho
      newFile := fun hle hlt => absurd (hnext ▸ hlt) hle.not_gt
      pipe := fun {p} _ => by
        by_cases hp : (objs.file o).type = .pipe p
        · rw [(dropRef_pipe (C := C) hcount hp).1]
          simp
        · rw [(dropRef_pipe_of_ne hcount hp).1]
          exact ⟨rfl, rfl⟩
      newPipe := fun hle hlt => absurd (hnextPipe ▸ hlt) hle.not_gt }
  · rw [dropRef_of_ne hcount]
    exact addRef

theorem doFileFork {files : Fin M → Option Nat} : objs.Extends short (objs.doFileFork files) := by
  unfold Objects.doFileFork
  induction List.finRange M generalizing objs with
  | nil => exact refl
  | cons i l ih =>
    rw [List.foldl_cons]
    refine trans ?_ ih
    cases files i with
    | none => exact refl
    | some o => exact addRef

theorem doFileExit {files : Fin M → Option Nat} : objs.Extends short (objs.doFileExit C files) := by
  unfold Objects.doFileExit
  induction List.finRange M generalizing objs with
  | nil => exact refl
  | cons i l ih =>
    rw [List.foldl_cons]
    refine trans ?_ ih
    cases files i with
    | none => exact refl
    | some o => exact dropRef

end Extends

end Objects

open Objects

section
variable {C : FileConsts} {F : FileSystem} {k k' : Kernel C F} {call : FileCall F}

/-- What a call of descriptors does to the objects. A file that is opened is not too long. -/
inductive ObjectsCase (k : Kernel C F) (inodes : F.State) : Objects F.Inode → Prop where
  | same : ObjectsCase k inodes k.objs
  | allocFile {file : File F.Inode} (hoffp : file.offp = 0)
    (hsize : ∀ inode, file.type = .regular inode → F.fileSize inodes inode ≤ 4096) :
    ObjectsCase k inodes (k.objs.allocFile file)
  | newPipe : ObjectsCase k inodes (k.objs.newPipe C page)
  | addRef : ObjectsCase k inodes (k.objs.addRef o 1)
  | fork {files : Fin C.maxOpenFiles → Option Nat} : ObjectsCase k inodes (k.objs.doFileFork files)
  | drop {fd : Fin C.maxOpenFiles} (hfd : k.files pid fd = some o) :
    ObjectsCase k inodes (k.objs.dropRef C o)
  | dup2 {oldfd newfd : Fin C.maxOpenFiles} (hold : k.files pid oldfd = some o)
    (hnew : k.files pid newfd = some o') : ObjectsCase k inodes ((k.objs.addRef o 1).dropRef C o')
  | exit : ObjectsCase k inodes (k.objs.doFileExit C (k.files pid))

theorem doRegularFileOpen_objs {pid : Nat} {filename : Option F.Name} {flags mode : BitVec 64}
    {ret : Except FileError Nat} (h : k.doRegularFileOpen pid filename flags mode = some (ret, k')) :
    ObjectsCase k k'.inodes k'.objs := by
  cases doRegularFileOpen_iff.1 h with
  | noName | noFlags | noInode | tooLarge | denied => exact .same
  | noSlot _ _ hsize | opened _ _ hsize =>
    exact .allocFile rfl fun i hi => FileType.regular.inj hi ▸ hsize

theorem createPipe_objs {pid : Nat} {fds fds' : Nat × Nat} {page : Vector UInt8 4096}
    {ret : Except FileError Unit} (h : k.createPipe pid fds page = some (ret, fds', k')) :
    k'.inodes = k.inodes ∧ ObjectsCase k k'.inodes k'.objs := by
  unfold Kernel.createPipe at h
  obtain ⟨res, -, h⟩ := Option.bind_eq_some_iff.1 h
  cases res with
  | error e =>
    cases h
    exact ⟨rfl, .same⟩
  | ok fd1 =>
    obtain ⟨res, -, h⟩ := Option.bind_eq_some_iff.1 h
    cases res with
    | error e =>
      cases h
      exact ⟨rfl, .same⟩
    | ok fd2 =>
      cases h
      exact ⟨rfl, .newPipe⟩

theorem fdDup_objs {pid : Nat} {oldfd : Int} {ret : Except FileError Nat}
    (h : k.fdDup pid oldfd = some (ret, k')) :
    k'.inodes = k.inodes ∧ ObjectsCase k k'.inodes k'.objs := by
  unfold Kernel.fdDup at h
  split at h
  case h_1 =>
    cases h
    exact ⟨rfl, .same⟩
  case h_2 =>
  split at h
  case h_1 =>
    cases h
    exact ⟨rfl, .same⟩
  case h_2 =>
  obtain ⟨res, -, h⟩ := Option.map_eq_some_iff.1 h
  cases res with
  | error e =>
    cases h
    exact ⟨rfl, .same⟩
  | ok fd =>
    cases h
    exact ⟨rfl, .addRef⟩

theorem fdDup2_objs {pid : Nat} {oldfd newfd : Int} {ret : Except FileError Nat}
    (h : k.fdDup2 pid oldfd newfd = (ret, k')) :
    k'.inodes = k.inodes ∧ ObjectsCase k k'.inodes k'.objs := by
  unfold Kernel.fdDup2 at h
  split at h
  case h_2 =>
    cases h
    exact ⟨rfl, .same⟩
  case h_1 old new _ _ =>
  split at h
  case h_1 =>
    cases h
    exact ⟨rfl, .same⟩
  case h_2 o ho =>
  cases h
  refine ⟨rfl, ?_⟩
  simp only [Kernel.setFile]
  split
  case h_1 o' ho' => exact .dup2 ho ho'
  case h_2 => exact .addRef

theorem openStandardIo_objs {pid type ret : Nat} (h : k.openStandardIo pid type = some (ret, k')) :
    k'.inodes = k.inodes ∧ ObjectsCase k k'.inodes k'.objs := by
  unfold Kernel.openStandardIo at h
  split at h
  case h_1 => cases h
  case h_2 =>
  split at h
  case h_1 =>
    cases h
    exact ⟨rfl, .allocFile rfl nofun⟩
  case h_2 =>
    split at h
    case h_1 =>
      cases h
      exact ⟨rfl, .addRef⟩
    case h_2 => cases h

theorem FileStep.objs_cases (h : FileStep k call k') : ObjectsCase k k'.inodes k'.objs := by
  cases h with
  | openStandardIo _ h => exact (openStandardIo_objs h).2
  | doRegularFileOpen _ h => exact doRegularFileOpen_objs h
  | createPipe _ h => exact (createPipe_objs h).2
  | fdDup _ h => exact (fdDup_objs h).2
  | fdDup2 _ h => exact (fdDup2_objs h).2
  | fork => exact .fork
  | close _ fd hfd =>
    obtain ⟨o, ho⟩ := Option.isSome_iff_exists.1 hfd
    rw [Kernel.close, ho]
    exact .drop ho
  | exit => exact .exit

/-- The calls that open, share and close descriptors read and write nothing. -/
theorem FileStep.extends (h : FileStep k call k') :
    k.objs.Extends (fun inode => F.fileSize k'.inodes inode ≤ 4096) k'.objs := by
  have hcase := h.objs_cases
  generalize k'.objs = objs' at hcase ⊢
  cases hcase with
  | same => exact .refl
  | allocFile hoffp hsize => exact .allocFile hoffp hsize
  | newPipe => exact .newPipe'
  | addRef => exact .addRef
  | fork => exact .doFileFork
  | drop => exact .dropRef
  | dup2 => exact .trans .addRef .dropRef
  | exit => exact .doFileExit

end

/-! ## Runs of all calls -/

/-- A read, write or seek of a regular file. -/
inductive RegularCall where
  | read (buff : Option Memory) (count : Nat)
  | write (buff : Option Memory) (count : Nat)
  | lseek (offset whence : Int)

/-- What the call returns, and the memory of the caller. -/
structure RegularReply where
  ret : Except FileError Int
  buff : Option Memory

/-- The call takes the file object and the file system to `s'`. -/
inductive RegularStep (C : SeekConsts) {F : FlatSystem} (s : FlatState F) :
    RegularCall → RegularReply → FlatState F → Prop where
  | read {file : File F.Inode} (h : doReadRegular C F s.inodes (some s.file) buff count =
      some (ret, flat, buff', some file)) :
    RegularStep C s (.read buff count) ⟨ret, buff'⟩ { s with file }
  | write {file : File F.Inode} (h : doWriteRegular C F s.inodes (some s.file) buff count =
      some (ret, flat, some file, inodes)) :
    RegularStep C s (.write buff count) ⟨ret, buff⟩ ⟨file, inodes⟩
  | lseek {file : File F.Inode}
    (h : doLseekRegular C F s.inodes (some s.file) offset whence = some (ret, some file)) :
    RegularStep C s (.lseek offset whence) ⟨ret.map Nat.cast, none⟩ { s with file }

theorem RegularStep.flatStep {s s' : FlatState F} (h : RegularStep C s call reply s') :
    ∃ op, FlatStep C s op s' := by
  cases h with
  | read h => exact ⟨_, .read h⟩
  | write h => exact ⟨_, .write h⟩
  | lseek h => exact ⟨_, .lseek h⟩

/-- What a call of descriptors returns: an error, or the new descriptors. -/
abbrev FileReply := Except FileError (List Nat)

def FileCall.returns {C : FileConsts} {F : FileSystem} (k : Kernel C F) : FileCall F → Option FileReply
  | openStandardIo pid type => (k.openStandardIo pid type).map fun r => .ok [r.1]
  | doRegularFileOpen pid filename flags mode =>
    (k.doRegularFileOpen pid filename flags mode).map fun r => r.1.map fun fd => [fd]
  | createPipe pid fd page =>
    (k.createPipe pid fd page).map fun r => r.1.map fun _ => [r.2.1.1, r.2.1.2]
  | fdDup pid oldfd => (k.fdDup pid oldfd).map fun r => r.1.map fun fd => [fd]
  | fdDup2 pid oldfd newfd => some ((k.fdDup2 pid oldfd newfd).1.map fun fd => [fd])
  | fork _ _ | close _ _ | exit _ => some (.ok [])

/-- A system call with what it returns. A call on a pipe names the pipe behind the descriptor. -/
inductive SysCall (F : FlatSystem) where
  | file (call : FileCall F.toFileSystem) (reply : FileReply)
  | regular (pid fd : Nat) (call : RegularCall) (reply : RegularReply)
  | pipe (pid fd p : Nat) (call : PipeCall)

/-- The file object as the functions of `pipe.c` see it. -/
def File.pipeFile (C : FileConsts) (file : File Inode) : PipeFile :=
  ⟨if file.mode = C.oRead then .read else .write⟩

def PipeCall.filep : PipeCall → Option PipeFile
  | write filep _ _ _ | read filep _ _ _ _ => filep

def Objects.setPipe (objs : Objects Inode) (p : Nat) (pipe : PipeInfo) : Objects Inode :=
  { objs with pipe := Function.update objs.pipe p pipe }

/-- A read, write or seek goes to the functions that the file object has for its type. -/
inductive SysStep {C : SeekConsts} {F : FlatSystem} (k : Kernel C.toFileConsts F.toFileSystem) :
    SysCall F → Kernel C.toFileConsts F.toFileSystem → Prop where
  | file {call : FileCall F.toFileSystem} (h : FileStep k call k')
    (hreply : call.returns k = some reply) : SysStep k (.file call reply) k'
  | regular {fd : Fin C.maxOpenFiles} {inode : F.Inode} {s : FlatState F}
    (hfd : k.files pid fd = some o) (hinode : (k.objs.file o).inode = some inode)
    (h : RegularStep C ⟨k.objs.file o, k.inodes⟩ call reply s) :
    SysStep k (.regular pid fd call reply)
      { k with objs := k.objs.setFile o s.file, inodes := s.inodes }
  | pipe {fd : Fin C.maxOpenFiles} {call : PipeCall} (hfd : k.files pid fd = some o)
    (htype : (k.objs.file o).type = .pipe p)
    (hfilep : call.filep = some ((k.objs.file o).pipeFile C.toFileConsts))
    (h : PipeStep (k.objs.pipe p) call pipe') : SysStep k (.pipe pid fd p call)
      { k with objs := k.objs.setPipe p pipe' }

/-- Runs of all calls of any processes in any order. -/
def SysRun (C : SeekConsts) (F : FlatSystem) : Kernel C.toFileConsts F.toFileSystem →
    List (SysCall F) → Kernel C.toFileConsts F.toFileSystem → Prop := Trace SysStep

variable {C : SeekConsts} {F : FlatSystem} {k k' : Kernel C.toFileConsts F.toFileSystem}
  {call : SysCall F} {calls : List (SysCall F)}

/-! ## No use after a free -/

/-- The counts see neither offsets nor bytes. -/
theorem Accounted.congr {C : FileConsts} {κ : Type*} {I : Type} {refs : κ → Option Nat}
    {objs objs' : Objects I} (h : Accounted C refs objs)
    (hfile : ∀ o, (objs'.file o).type = (objs.file o).type ∧
      (objs'.file o).mode = (objs.file o).mode ∧ (objs'.file o).refCount = (objs.file o).refCount)
    (hpipe : ∀ p, (objs'.pipe p).isRopen = (objs.pipe p).isRopen ∧
      (objs'.pipe p).isWopen = (objs.pipe p).isWopen)
    (hnext : objs'.nextFile = objs.nextFile ∧ objs'.nextPipe = objs.nextPipe)
    (hfrees : objs'.fileFrees = objs.fileFrees ∧ objs'.pipeFrees = objs.pipeFrees) :
    Accounted C refs objs' where
  exact ho := by
    rw [(hfile _).2.2]
    exact h.exact ho
  lt ho := by
    rw [hnext.1]
    exact h.lt ho
  fileFrees ho := by
    rw [hfrees.1]
    exact h.fileFrees (hnext.1 ▸ ho)
  pipe_lt {o p} ho htype := by
    rw [hnext.2]
    exact h.pipe_lt (hnext.1 ▸ ho) ((hfile o).1.symm.trans htype)
  pipeFrees hp := by
    rw [hfrees.2]
    exact h.pipeFrees (hnext.2 ▸ hp)
  ends {p} hp := by
    obtain ⟨r, w, he⟩ := h.ends (hnext.2 ▸ hp)
    refine ⟨r, w, ?_, ?_, ?_, ?_, ?_, ?_⟩
    · intro o
      rw [hnext.1, (hfile o).1]
      exact he.file_iff
    · rw [(hfile r).2.1, he.read_mode]
    · rw [(hfile w).2.1, he.write_mode]
    · rw [(hpipe p).1, he.ropen]
    · rw [(hpipe p).2, he.wopen]
    · rw [hfrees.2, he.frees, (hpipe p).1, (hpipe p).2]

/-- A call on a pipe leaves its flags alone. -/
theorem PipeStep.flags {pipe pipe' : PipeInfo} {call : PipeCall} (h : PipeStep pipe call pipe') :
    pipe'.isRopen = pipe.isRopen ∧ pipe'.isWopen = pipe.isWopen := by
  cases h with
  | write h =>
    rcases pipeWrite_cases h with ⟨-, rfl, -⟩ | ⟨-, mem, pipeBuff, -, -, -, rfl⟩
    · exact ⟨rfl, rfl⟩
    · exact ⟨rfl, rfl⟩
  | read h =>
    rcases pipeRead_cases h with ⟨e, -, rfl⟩ | ⟨n, mem, mem', pipeBuff, -, -, -, -, -, rfl⟩
    · exact ⟨rfl, rfl⟩
    · exact ⟨rfl, rfl⟩

theorem SysStep.counted (h : SysStep k call k') (hk : k.Counted) : k'.Counted := by
  cases h with
  | file h => exact hk.step h
  | @regular pid o _ _ fd inode s hfd hinode h =>
    refine ⟨hk.accounted.congr (fun o' => ?_) (fun _ => ⟨rfl, rfl⟩) ⟨rfl, rfl⟩ ⟨rfl, rfl⟩, hk.dead⟩
    obtain ⟨op, h⟩ := h.flatStep
    rcases eq_or_ne o' o with rfl | hne
    · rcases h.file_eq with heq | ⟨n, -, heq⟩ <;> simp [Objects.setFile, heq]
    · simp [Objects.setFile, hne]
  | @pipe pid o p pipe' fd call hfd htype hfilep h =>
    refine ⟨hk.accounted.congr (fun _ => ⟨rfl, rfl, rfl⟩) (fun p' => ?_) ⟨rfl, rfl⟩ ⟨rfl, rfl⟩,
      hk.dead⟩
    rcases eq_or_ne p' p with rfl | hne
    · simpa [Objects.setPipe] using h.flags
    · simp [Objects.setPipe, hne]

section
variable {C : FileConsts} {κ : Type*} {I : Type} {refs : κ → Option Nat} {objs : Objects I}

theorem Objects.dropRef_fileFrees_self {o : Nat} (h : (objs.file o).refCount = 1) :
    (objs.dropRef C o).fileFrees o = objs.fileFrees o + 1 := by
  obtain ⟨p, hp, heq⟩ | ⟨hp, heq⟩ := dropRef_cases (C := C) h
  · rw [heq]
    split <;> simp [freeFileObject, freePipeInfo, closeEnd, Objects.addRef]
  · rw [heq]
    simp [freeFileObject, Objects.addRef]

/-- The last reference is dropped only once. -/
theorem Accounted.dropRef_fileFrees_le {i : κ} {o : Nat} (h : Accounted C refs objs)
    (hi : refs i = some o) (honce : ∀ o', objs.fileFrees o' ≤ 1) (o' : Nat) :
    (objs.dropRef C o).fileFrees o' ≤ 1 := by
  by_cases hcount : (objs.file o).refCount = 1
  · rcases eq_or_ne o' o with rfl | hne
    · rw [Objects.dropRef_fileFrees_self hcount, h.fileFrees (.inl ⟨i, hi⟩)]
    · rw [(dropRef_file hcount).2.2.2 o' hne]
      exact honce o'
  · rw [dropRef_of_ne hcount]
    exact honce o'

variable [DecidableEq κ] {key : Fin M → κ} {files : Fin M → Option Nat}

theorem Accounted.doFileExit_fileFrees_le (h : Accounted C refs objs)
    (hkey : Function.Injective key) (hrefs : ∀ i, refs (key i) = files i)
    (honce : ∀ o, objs.fileFrees o ≤ 1) (o : Nat) : (objs.doFileExit C files).fileFrees o ≤ 1 := by
  unfold Objects.doFileExit
  have hnodup := List.nodup_finRange M
  replace hrefs : ∀ i ∈ List.finRange M, refs (key i) = files i := fun i _ => hrefs i
  generalize List.finRange M = l at hnodup hrefs ⊢
  induction l generalizing refs objs with
  | nil => exact honce o
  | cons i l ih =>
    obtain ⟨hi, hnodup⟩ := List.nodup_cons.1 hnodup
    have hne (j) (hj : j ∈ l) : key j ≠ key i := fun heq => hi (hkey heq ▸ hj)
    have hki := hrefs i (.head _)
    have hrest (v) : ∀ j ∈ l, Function.update refs (key i) v (key j) = files j := fun j hj =>
      (Function.update_of_ne (hne j hj) ..).trans (hrefs j (.tail _ hj))
    rw [List.foldl_cons]
    cases ho : files i with
    | none => exact ih h honce hnodup fun j hj => hrefs j (.tail _ hj)
    | some o' =>
      have hi' := hki.trans ho
      exact ih (h.drop hi') (h.dropRef_fileFrees_le hi' honce) hnodup (hrest none)

end

section
variable {C : FileConsts} {F : FileSystem} {k k' : Kernel C F} {call : FileCall F}

theorem Objects.doFileFork_fileFrees {files : Fin M → Option Nat} {objs : Objects I} :
    (objs.doFileFork files).fileFrees = objs.fileFrees := by
  unfold Objects.doFileFork
  induction List.finRange M generalizing objs with
  | nil => rfl
  | cons i l ih =>
    rw [List.foldl_cons, ih]
    cases files i <;> rfl

/-- No call frees a file twice. -/
theorem FileStep.fileFrees_le (h : FileStep k call k') (hk : k.Counted)
    (honce : ∀ o, k.objs.fileFrees o ≤ 1) (o : Nat) : k'.objs.fileFrees o ≤ 1 := by
  have hcase := h.objs_cases
  generalize k'.objs = objs' at hcase ⊢
  cases hcase with
  | same | allocFile | newPipe | addRef => exact honce o
  | fork =>
    rw [Objects.doFileFork_fileFrees]
    exact honce o
  | @drop pid _ fd hfd => exact hk.accounted.dropRef_fileFrees_le (i := some (pid, fd)) hfd honce o
  | @dup2 pid o₁ o₂ oldfd newfd hold hnew =>
    -- the call holds a reference of its own when it closes `newfd`
    have htaken := hk.accounted.take Kernel.refs_none ⟨some (pid, oldfd), hold⟩
    exact htaken.dropRef_fileFrees_le (i := some (pid, newfd)) (by simp [hnew]) honce o
  | @exit pid =>
    have hkey : Function.Injective fun fd : Fin C.maxOpenFiles => some (pid, fd) := fun _ _ heq => by
      simpa using heq
    exact hk.accounted.doFileExit_fileFrees_le hkey (fun _ => rfl) honce o

end

/-- What every run of system calls keeps. -/
structure SysInv (k : Kernel C.toFileConsts F.toFileSystem) : Prop where
  counted : k.Counted
  once : ∀ o, k.objs.fileFrees o ≤ 1

theorem SysStep.inv (h : SysStep k call k') (hk : SysInv k) : SysInv k' := by
  refine ⟨h.counted hk.counted, ?_⟩
  cases h with
  | file h => exact h.fileFrees_le hk.counted hk.once
  | regular => exact hk.once
  | pipe => exact hk.once

theorem Kernel.Initial.sysInv (h0 : k.Initial) : SysInv k :=
  ⟨h0.counted, fun o => by simp [h0.fileFrees]⟩

theorem SysRun.inv (h : SysRun C F k calls k') (h0 : k.Initial) : SysInv k' :=
  h.invariant h0.sysInv fun hk hs => hs.inv hk

/-- The end of the pipe that the descriptor is for is open. -/
def File.EndOpen (C : FileConsts) (file : File Inode) (pipe : PipeInfo) : Prop :=
  file.mode = C.oRead ∧ pipe.isRopen ∨ file.mode = C.oWrite ∧ pipe.isWopen

/-- In every run no file object and no pipe is freed twice, and what a descriptor of any process
leads to is not freed: its file is counted, and if it is an end of a pipe, the pipe is there and this
end is open, so that a read or write is refused only at the other end. -/
theorem SysRun.descriptors_live (h : SysRun C F k calls k') (h0 : k.Initial) :
    (∀ o, k'.objs.fileFrees o ≤ 1) ∧ (∀ p, k'.objs.pipeFrees p ≤ 1) ∧
      ∀ pid fd o, k'.files pid fd = some o →
        k'.objs.fileFrees o = 0 ∧ 0 < (k'.objs.file o).refCount ∧
          ∀ p, (k'.objs.file o).type = .pipe p →
            k'.objs.pipeFrees p = 0 ∧ (k'.objs.file o).EndOpen C.toFileConsts (k'.objs.pipe p) := by
  obtain ⟨⟨ha, -⟩, honce⟩ := h.inv h0
  refine ⟨honce, fun p => ?_, fun pid fd o hfd => ?_⟩
  · by_cases hp : p < k'.objs.nextPipe
    · obtain ⟨r, w, he⟩ := ha.ends hp
      rw [he.frees]
      split <;> decide
    · rw [ha.pipeFrees (not_lt.1 hp)]
      exact Nat.zero_le 1
  · have hheld : Held k'.refs o := ⟨some (pid, fd), hfd⟩
    refine ⟨ha.fileFrees (.inl hheld), (ha.exact hheld).count_pos (k := some (pid, fd)) hfd,
      fun p htype => ?_⟩
    obtain ⟨r, w, he⟩ := ha.ends (ha.pipe_lt (ha.lt hheld) htype)
    rcases he.file_iff.1 ⟨ha.lt hheld, htype⟩ with rfl | rfl
    · have hopen := he.ropen.2 hheld
      exact ⟨by rw [he.frees, if_pos (.inl hopen)], .inl ⟨he.read_mode, hopen⟩⟩
    · have hopen := he.wopen.2 hheld
      exact ⟨by rw [he.frees, if_pos (.inr hopen)], .inr ⟨he.write_mode, hopen⟩⟩

/-! ## Each pipe is one stream for all processes -/

/-- The calls that reach the pipe, through whatever descriptor of whatever process. -/
def pipeCalls (p : Nat) (calls : List (SysCall F)) : List PipeCall :=
  calls.filterMap fun
    | .pipe _ _ p' call => if p' = p then some call else none
    | _ => none

theorem pipeCalls_append (p : Nat) (calls more : List (SysCall F)) :
    pipeCalls p (calls ++ more) = pipeCalls p calls ++ pipeCalls p more :=
  List.filterMap_append ..

/-- A call on a pipe that is accepted as a write completes. -/
def SysCall.Complete (k : Kernel C.toFileConsts F.toFileSystem) : SysCall F → Prop
  | .pipe _ _ p call => call.count ≤ 4096 ∧ call.Complete (k.objs.pipe p)
  | _ => True

/-- Every pipe is a FIFO stream, and nothing was written to a pipe that is not there yet. -/
structure Streams (calls : List (SysCall F)) (k : Kernel C.toFileConsts F.toFileSystem) : Prop where
  counted : k.Counted
  fifo : ∀ p < k.objs.nextPipe, (k.objs.pipe p).bufferOffset ≤ 4096 ∧
    IsFifo (pipeCalls p calls) (k.objs.pipe p)
  unborn : ∀ p, k.objs.nextPipe ≤ p → pipeCalls p calls = []

theorem IsFifo.congr {calls : List PipeCall} {pipe pipe' : PipeInfo} (h : IsFifo calls pipe)
    (hbuff : pipe'.pipeBuff = pipe.pipeBuff) (hoff : pipe'.bufferOffset = pipe.bufferOffset) :
    IsFifo calls pipe' := by
  rwa [IsFifo, PipeInfo.held, hbuff, hoff]

theorem Streams.step (h : Streams calls k) (hcomplete : call.Complete k) (hs : SysStep k call k') :
    Streams (calls ++ [call]) k' := by
  have hcounted := hs.counted h.counted
  cases hs with
  | @file _ reply call hs =>
    have hsame (p : Nat) : pipeCalls p (calls ++ [.file call reply]) = pipeCalls p calls := by
      simp [pipeCalls]
    have hext := hs.extends
    refine ⟨hcounted, fun p hp => ?_, fun p hp => ?_⟩
    · rw [hsame]
      by_cases hold : p < k.objs.nextPipe
      · obtain ⟨hbuff, hoff⟩ := hext.pipe hold
        obtain ⟨hle, hfifo⟩ := h.fifo p hold
        exact ⟨hoff ▸ hle, hfifo.congr hbuff hoff⟩
      · have hoff := hext.newPipe (not_lt.1 hold) hp
        rw [h.unborn p (not_lt.1 hold)]
        exact ⟨hoff ▸ Nat.zero_le _, by simp [IsFifo, PipeInfo.held, hoff]⟩
    · rw [hsame, h.unborn p (hext.nextPipe.trans hp)]
  | @regular pid o call reply fd inode s hfd hinode hs =>
    have hsame (p : Nat) :
        pipeCalls p (calls ++ [.regular pid fd call reply]) = pipeCalls p calls := by
      simp [pipeCalls]
    exact ⟨hcounted, fun p hp => hsame p ▸ h.fifo p hp, fun p hp => hsame p ▸ h.unborn p hp⟩
  | @pipe pid o p pipe' fd call hfd htype hfilep hs =>
    obtain ⟨hcount, hcomplete⟩ := hcomplete
    have ha := h.counted.accounted
    have hp : p < k.objs.nextPipe := ha.pipe_lt (ha.lt ⟨some (pid, fd), hfd⟩) htype
    refine ⟨hcounted, fun p' hp' => ?_, fun p' hp' => ?_⟩
    · obtain ⟨hle, hfifo⟩ := h.fifo p' hp'
      rw [pipeCalls_append]
      rcases eq_or_ne p' p with rfl | hne
      · obtain ⟨hoff, hheld⟩ := hs.held_iff hle hcount
        simp only [Objects.setPipe, Function.update_self]
        refine ⟨hoff, ?_⟩
        unfold IsFifo at hfifo ⊢
        rw [List.flatMap_append, List.flatMap_append, ← hfifo]
        simp [pipeCalls, hheld.2 hcomplete]
      · simp only [Objects.setPipe, Function.update_of_ne hne]
        simpa [pipeCalls, hne.symm] using ⟨hle, hfifo⟩
    · have hne : p ≠ p' := by
        rintro rfl
        exact hp'.not_gt hp
      rw [pipeCalls_append, h.unborn p' hp']
      simp [pipeCalls, hne]

/-- In every run whose accepted writes complete, each pipe is one FIFO stream: what all processes have
read from it through any of its descriptors, in the order of the calls, and then what it holds, is
what all processes have written to it. -/
theorem SysRun.pipes_fifo (h : Trace (fun k call k' => call.Complete k ∧ SysStep k call k') k calls k')
    (h0 : k.Initial) (p : Nat) (hp : p < k'.objs.nextPipe) :
    IsFifo (pipeCalls p calls) (k'.objs.pipe p) := by
  have hstreams : Streams calls k' := by
    refine h.history (I := Streams) ⟨h0.counted, fun p hp => ?_, fun p _ => rfl⟩ ?_
    · simp [h0.nextPipe] at hp
    · rintro calls k call k' h ⟨hcomplete, hs⟩
      exact h.step hcomplete hs
  exact (hstreams.fifo p hp).2

/-- One process makes a pipe and another process and writes two bytes; the other one reads one. -/
theorem SmallKernel.empty_pipe : ∃ (calls : List (SysCall FlatSystem.emptyFile)) (k : SmallKernel),
    Trace (fun k call k' => call.Complete k ∧ SysStep (C := .small) k call k')
        SmallKernel.empty calls k ∧
      0 < k.objs.nextPipe ∧ (pipeCalls 0 calls).flatMap (·.delivered) = [65] ∧
      (pipeCalls 0 calls).flatMap (·.written) = [65, 66] ∧ ∃ fd : Fin 16, k.files 1 fd = some 0 := by
  let page : Vector UInt8 4096 := Vector.replicate 4096 0
  let letters : Memory := fun i => if i = 0 then 65 else 66
  let full : PipeInfo := { createPipe page with
    pipeBuff := (page.set 0 65).set 1 66, bufferOffset := 2, writePos := 2 }
  let rest : PipeInfo := { full with pipeBuff := full.pipeBuff.set 0 66, bufferOffset := 1 }
  have hwrite : pipeWrite (some ⟨.write⟩) (some letters) 2 (createPipe page) =
      some (.ok 2, full) := by
    simp [pipeWrite, createPipe, copyIn, store, u32, List.range_succ, full, letters]
  have hread : pipeRead (some ⟨.read⟩) (some fun _ => 0) 1 full =
      some (.ok 1, some (Function.update (fun _ => 0) 0 65), rest) := by
    simp [pipeRead, createPipe, copyOut, shiftDown, store, List.range_succ, full, rest]
  have hempty : (createPipe page).Completes letters 2 := fun j hj hle => by
    have : 2 ≤ 0 + j := hle
    omega
  -- the pipe gets the descriptors 3 and 4, and the child inherits them
  let three : Fin SeekConsts.small.maxOpenFiles := (3 : Fin 16)
  let four : Fin SeekConsts.small.maxOpenFiles := (4 : Fin 16)
  have hi : LowestFree (SmallKernel.empty.files 0) 3 three :=
    ⟨by decide, rfl, fun j hj hlt => absurd hlt (Nat.not_lt.2 hj)⟩
  have hj : LowestFree (SmallKernel.empty.files 0) (three + 1) four :=
    ⟨by decide, rfl, fun j hj hlt => absurd hlt (Nat.not_lt.2 hj)⟩
  let k₁ : SmallKernel := SmallKernel.empty.makePipe 0 three four page
  have hmake : FileStep SmallKernel.empty (.createPipe 0 (0, 0) page) k₁ :=
    .createPipe rfl (Kernel.createPipe_of_lowest hi hj)
  have hreturns : FileCall.returns SmallKernel.empty (.createPipe 0 (0, 0) page) =
      some (.ok [3, 4]) := by
    rw [FileCall.returns, Kernel.createPipe_of_lowest hi hj]
    rfl
  let k₂ : SmallKernel := k₁.fork 0 1
  have hfork : FileStep k₁ (.fork 0 1) k₂ := .fork rfl Bool.false_ne_true
  let k₃ : SmallKernel := { k₂ with objs := k₂.objs.setPipe 0 full }
  let k₄ : SmallKernel := { k₃ with objs := k₃.objs.setPipe 0 rest }
  let fork : SysCall FlatSystem.emptyFile := .file (.fork 0 1) (.ok [])
  let write : SysCall FlatSystem.emptyFile :=
    .pipe 0 4 0 (.write (some ⟨.write⟩) (some letters) 2 (.ok 2))
  let read : SysCall FlatSystem.emptyFile := .pipe 1 3 0
    (.read (some ⟨.read⟩) (some fun _ => 0) 1 (.ok 1) (some (Function.update (fun _ => 0) 0 65)))
  have hwrites : SysStep (C := .small) k₂ write k₃ :=
    .pipe (show k₂.files 0 four = some 1 from rfl) rfl rfl (.write hwrite)
  have hreads : SysStep (C := .small) k₃ read k₄ :=
    .pipe (show k₃.files 1 three = some 0 from rfl) rfl rfl (.read hread)
  have h₁ : Trace (fun k call k' => call.Complete k ∧ SysStep (C := .small) k call k')
      SmallKernel.empty [.file (.createPipe 0 (0, 0) page) (.ok [3, 4])] k₁ :=
    .snoc .nil ⟨trivial, .file hmake hreturns⟩
  have h₂ := h₁.snoc (a := fork) ⟨trivial, .file hfork rfl⟩
  have h₃ := h₂.snoc (a := write) ⟨⟨by decide, fun _ => hempty⟩, hwrites⟩
  have h₄ := h₃.snoc (a := read) ⟨⟨by decide, trivial⟩, hreads⟩
  refine ⟨_, k₄, h₄, Nat.zero_lt_one, ?_, ?_, three, rfl⟩
  · simp [pipeCalls, PipeCall.delivered, Memory.bytes, write, read]
  · simp [pipeCalls, PipeCall.written, Memory.bytes, write, read, List.range_succ, letters]

theorem SysRun.descriptors_live_of_fork :
    ∃ (calls : List (SysCall FlatSystem.emptyFile)) (k : SmallKernel),
      SysRun .small .emptyFile SmallKernel.empty calls k ∧
        ∃ fd : Fin 16, k.files 1 fd = some 0 ∧ k.objs.fileFrees 0 = 0 := by
  obtain ⟨calls, k, h, -, -, -, fd, hfd⟩ := SmallKernel.empty_pipe
  have hrun : SysRun .small .emptyFile SmallKernel.empty calls k := h.mono fun hs => hs.2
  have hlive := SysRun.descriptors_live hrun (Kernel.boot_initial ..)
  exact ⟨calls, k, hrun, fd, hfd, (hlive.2.2 1 fd 0 hfd).1⟩

theorem SysRun.pipes_fifo_of_fork :
    ∃ (calls : List (SysCall FlatSystem.emptyFile)) (k : SmallKernel),
      Trace (fun k call k' => call.Complete k ∧ SysStep (C := .small) k call k')
          SmallKernel.empty calls k ∧
        (pipeCalls 0 calls).flatMap (·.written) = [65, 66] ∧
        (pipeCalls 0 calls).flatMap (·.delivered) = [65] ∧
        IsFifo (pipeCalls 0 calls) (k.objs.pipe 0) := by
  obtain ⟨calls, k, h, hpipe, hread, hwrite, -⟩ := SmallKernel.empty_pipe
  exact ⟨calls, k, h, hwrite, hread, SysRun.pipes_fifo h (Kernel.boot_initial ..) 0 hpipe⟩

end CS330
