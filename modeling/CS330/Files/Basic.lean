import CS330.Pipe.Basic
import Mathlib.Data.List.FinRange
import Mathlib.Logic.Function.Basic

/-! # The descriptor tables of `file.c` and `pipe.c`

File objects and pipes are numbered in the order of their allocation. Freeing one is counted and
leaves its fields as they are, so that a use after the free would be seen. -/

namespace CS330

/-- The constants of the headers. -/
structure FileConsts where
  maxOpenFiles : Nat
  stdin : Nat
  oRead : BitVec 64
  oWrite : BitVec 64
  oCreat : BitVec 64
  oRead_ne_oWrite : oRead ≠ oWrite

/-- The part of `fs.h` that `do_regular_file_open` calls and reads. -/
structure FileSystem where
  State : Type
  Name : Type
  Inode : Type
  lookupInode : State → Name → Option Inode
  createInode : State → Name → BitVec 64 → Option Inode × State
  fileSize : State → Inode → Nat
  mode : State → Inode → BitVec 64

/-- The `type` of a file and the pointer that goes with it. -/
inductive FileType (Inode : Type) where
  | stdIo (type : Nat)
  | regular (inode : Inode)
  | pipe (pipe : Nat)

/-- `struct file` without its table of functions. -/
structure File (Inode : Type) where
  type : FileType Inode
  mode : BitVec 64
  offp : Nat
  refCount : Int

/-- The file objects and pipes with how often each has been freed. -/
structure Objects (Inode : Type) where
  file : Nat → File Inode
  nextFile : Nat
  fileFrees : Nat → Nat
  pipe : Nat → PipeInfo
  nextPipe : Nat
  pipeFrees : Nat → Nat

inductive FileError where
  | einval
  | eacces
  | eothers
deriving DecidableEq, Repr

namespace Objects

variable (objs : Objects Inode)

/-- `alloc_file` and the assignments after it; the new file is number `nextFile`. -/
def allocFile (file : File Inode) : Objects Inode :=
  { objs with file := Function.update objs.file objs.nextFile file, nextFile := objs.nextFile + 1 }

/-- `alloc_pipe_info` and the assignments after it; the new pipe is number `nextPipe`. -/
def allocPipeInfo (pipe : PipeInfo) : Objects Inode :=
  { objs with pipe := Function.update objs.pipe objs.nextPipe pipe, nextPipe := objs.nextPipe + 1 }

/-- `ref_count += d`. -/
def addRef (o : Nat) (d : Int) : Objects Inode :=
  { objs with
    file := Function.update objs.file o
      { objs.file o with refCount := (objs.file o).refCount + d } }

def freeFileObject (o : Nat) : Objects Inode :=
  { objs with fileFrees := Function.update objs.fileFrees o (objs.fileFrees o + 1) }

def freePipeInfo (p : Nat) : Objects Inode :=
  { objs with pipeFrees := Function.update objs.pipeFrees p (objs.pipeFrees p + 1) }

/-- The flags of the pipe when the last reference to a file with this mode is gone. -/
def closeEnd (C : FileConsts) (p : Nat) (mode : BitVec 64) : Objects Inode :=
  let pipe := objs.pipe p
  let pipe := if mode = C.oRead ∧ pipe.isRopen then { pipe with isRopen := false } else pipe
  let pipe := if mode = C.oWrite ∧ pipe.isWopen then { pipe with isWopen := false } else pipe
  { objs with pipe := Function.update objs.pipe p pipe }

/-- The body of `generic_close` for a file that is not NULL. -/
def dropRef (C : FileConsts) (o : Nat) : Objects Inode :=
  let objs := objs.addRef o (-1)
  let file := objs.file o
  if file.refCount = 0 then
    let objs := match file.type with
      | .pipe p =>
        let objs := objs.closeEnd C p file.mode
        if ¬(objs.pipe p).isWopen ∧ ¬(objs.pipe p).isRopen then objs.freePipeInfo p else objs
      | _ => objs
    objs.freeFileObject o
  else objs

def genericClose (C : FileConsts) (filep : Option Nat) : Except FileError Unit × Objects Inode :=
  match filep with
  | none => (.error .einval, objs)
  | some o => (.ok (), objs.dropRef C o)

/-- One reference more for every open slot of the child. -/
def doFileFork (files : Fin M → Option Nat) : Objects Inode :=
  (List.finRange M).foldl (fun objs i => match files i with
    | some o => objs.addRef o 1
    | none => objs) objs

def doFileExit (C : FileConsts) (files : Fin M → Option Nat) : Objects Inode :=
  (List.finRange M).foldl (fun objs i => match files i with
    | some o => (objs.genericClose C (some o)).2
    | none => objs) objs

end Objects

/-- The loops that look for a free slot from `fd` on. No result stands for an access outside of
the table. -/
def searchFd (files : Fin M → Option Nat) (fd : Nat) : Option (Except FileError (Fin M)) :=
  if h : fd < M then
    if (files ⟨fd, h⟩).isSome then
      if fd + 1 ≥ M then some (.error .eothers) else searchFd files (fd + 1)
    else some (.ok ⟨fd, h⟩)
  else none
termination_by M - fd

/-- The descriptor tables of the processes, the objects behind them and the file system. -/
structure Kernel (C : FileConsts) (F : FileSystem) where
  files : Nat → Fin C.maxOpenFiles → Option Nat
  alive : Nat → Bool
  objs : Objects F.Inode
  inodes : F.State

namespace Kernel

variable {C : FileConsts} {F : FileSystem} (k : Kernel C F)

def setFile (pid : Nat) (fd : Fin C.maxOpenFiles) (filep : Option Nat) : Kernel C F :=
  { k with files := Function.update k.files pid (Function.update (k.files pid) fd filep) }

/-- The slot of a descriptor that is in bounds. -/
def slot (C : FileConsts) (fd : Int) : Option (Fin C.maxOpenFiles) :=
  if h : 0 ≤ fd ∧ fd < C.maxOpenFiles then some ⟨fd.toNat, by omega⟩ else none

/-- The loop of `open_standard_IO` over the slots from 3 up has no bound of its own. -/
def openStandardIo (pid type : Nat) : Option (Nat × Kernel C F) :=
  match slot C type with
  | none => none
  | some fd =>
    match k.files pid fd with
    | none =>
      let objs := k.objs.allocFile
        { type := .stdIo type, mode := if type = C.stdin then C.oRead else C.oWrite, offp := 0,
          refCount := 1 }
      some (fd, { k with objs }.setFile pid fd k.objs.nextFile)
    | some o =>
      match searchFd (k.files pid) 3 with
      | some (.ok fd) => some (fd, { k with objs := k.objs.addRef o 1 }.setFile pid fd o)
      | _ => none

/-- Whether the inode is created, the inode, and the file system afterwards. -/
def openInode (C : FileConsts) (F : FileSystem) (inodes : F.State) (filename : F.Name)
    (flags mode : BitVec 64) : Bool × Option F.Inode × F.State :=
  match F.lookupInode inodes filename with
  | none =>
    if flags &&& C.oCreat = C.oCreat then (true, F.createInode inodes filename mode)
    else (false, none, inodes)
  | some inode => (false, some inode, inodes)

/-- A file that finds no free slot stays allocated. -/
def doRegularFileOpen (pid : Nat) (filename : Option F.Name) (flags mode : BitVec 64) :
    Option (Except FileError Nat × Kernel C F) :=
  match filename with
  | none => some (.error .einval, k)
  | some filename =>
    if flags = 0 then some (.error .einval, k)
    else
      let (created, inode, inodes) := openInode C F k.inodes filename flags mode
      let k := { k with inodes }
      match inode with
      | none => some (.error .einval, k)
      | some inode =>
        let inodeMode := F.mode inodes inode
        if F.fileSize inodes inode > 4096 then some (.error .eothers, k)
        else if ¬created ∧
            (inodeMode &&& C.oWrite ≠ C.oWrite ∧ flags &&& C.oWrite = C.oWrite ∨
              inodeMode &&& C.oRead ≠ C.oRead ∧ flags &&& C.oRead = C.oRead) then
          some (.error .eacces, k)
        else
          let objs := k.objs.allocFile
            { type := .regular inode, mode := if created then inodeMode else flags ^^^ C.oCreat,
              offp := 0, refCount := 1 }
          (searchFd (k.files pid) 3).map fun
            | .error e => (.error e, { k with objs })
            | .ok fd => (.ok fd, { k with objs }.setFile pid fd k.objs.nextFile)

/-- The part of `create_pipe` after both slots are found; the pages of the new pipe hold arbitrary
bytes. -/
def makePipe (pid : Nat) (fd1 fd2 : Fin C.maxOpenFiles) (page : Vector UInt8 4096) : Kernel C F :=
  let p := k.objs.nextPipe
  let read := k.objs.nextFile
  let objs := k.objs.allocPipeInfo (CS330.createPipe page)
  let objs := objs.allocFile { type := .pipe p, mode := C.oRead, offp := 0, refCount := 1 }
  let write := objs.nextFile
  let objs := objs.allocFile { type := .pipe p, mode := C.oWrite, offp := 0, refCount := 1 }
  ({ k with objs }.setFile pid fd1 read).setFile pid fd2 write

/-- What the call returns, the array `fd` and the kernel. -/
def createPipe (pid : Nat) (fd : Nat × Nat) (page : Vector UInt8 4096) :
    Option (Except FileError Unit × (Nat × Nat) × Kernel C F) := do
  match ← searchFd (k.files pid) 3 with
  | .error e => return (.error e, fd, k)
  | .ok fd1 =>
    match ← searchFd (k.files pid) (fd1 + 1) with
    | .error e => return (.error e, (fd1, fd.2), k)
    | .ok fd2 => return (.ok (), (fd1, fd2), k.makePipe pid fd1 fd2 page)

def fdDup (pid : Nat) (oldfd : Int) : Option (Except FileError Nat × Kernel C F) :=
  match slot C oldfd with
  | none => some (.error .einval, k)
  | some oldfd =>
    match k.files pid oldfd with
    | none => some (.error .einval, k)
    | some o =>
      (searchFd (k.files pid) 0).map fun
        | .error e => (.error e, k)
        | .ok fd => (.ok fd, { k with objs := k.objs.addRef o 1 }.setFile pid fd o)

def fdDup2 (pid : Nat) (oldfd newfd : Int) : Except FileError Nat × Kernel C F :=
  match slot C oldfd, slot C newfd with
  | some oldfd, some newfd =>
    match k.files pid oldfd with
    | none => (.error .einval, k)
    | some o =>
      let objs := k.objs.addRef o 1
      let objs := match k.files pid newfd with
        | some o' => (objs.genericClose C (some o')).2
        | none => objs
      (.ok newfd, { k with objs }.setFile pid newfd o)
  | _, _ => (.error .einval, k)

/-- The child starts with a copy of the table of its parent. -/
def fork (pid child : Nat) : Kernel C F :=
  { k with
    files := Function.update k.files child (k.files pid)
    alive := Function.update k.alive child true
    objs := k.objs.doFileFork (k.files pid) }

/-- The call behind the `close` system call, which clears the slot. -/
def close (pid : Nat) (fd : Fin C.maxOpenFiles) : Kernel C F :=
  { k with objs := (k.objs.genericClose C (k.files pid fd)).2 }.setFile pid fd none

/-- The table is discarded with its process. -/
def exit (pid : Nat) : Kernel C F :=
  { k with
    files := Function.update k.files pid fun _ => none
    alive := Function.update k.alive pid false
    objs := k.objs.doFileExit C (k.files pid) }

end Kernel

/-! ## Runs -/

/-- A call of a process. -/
inductive FileCall (F : FileSystem) where
  | openStandardIo (pid type : Nat)
  | doRegularFileOpen (pid : Nat) (filename : Option F.Name) (flags mode : BitVec 64)
  | createPipe (pid : Nat) (fd : Nat × Nat) (page : Vector UInt8 4096)
  | fdDup (pid : Nat) (oldfd : Int)
  | fdDup2 (pid : Nat) (oldfd newfd : Int)
  | fork (pid child : Nat)
  | close (pid fd : Nat)
  | exit (pid : Nat)

variable {C : FileConsts} {F : FileSystem}

/-- The call of a live process takes the kernel to `k'`. -/
inductive FileStep (k : Kernel C F) : FileCall F → Kernel C F → Prop where
  | openStandardIo (hpid : k.alive pid) (h : k.openStandardIo pid type = some (ret, k')) :
    FileStep k (.openStandardIo pid type) k'
  | doRegularFileOpen (hpid : k.alive pid)
    (h : k.doRegularFileOpen pid filename flags mode = some (ret, k')) :
    FileStep k (.doRegularFileOpen pid filename flags mode) k'
  | createPipe (hpid : k.alive pid) (h : k.createPipe pid fd page = some (ret, fd', k')) :
    FileStep k (.createPipe pid fd page) k'
  | fdDup (hpid : k.alive pid) (h : k.fdDup pid oldfd = some (ret, k')) :
    FileStep k (.fdDup pid oldfd) k'
  | fdDup2 (hpid : k.alive pid) (h : k.fdDup2 pid oldfd newfd = (ret, k')) :
    FileStep k (.fdDup2 pid oldfd newfd) k'
  | fork (hpid : k.alive pid) (hchild : ¬k.alive child) :
    FileStep k (.fork pid child) (k.fork pid child)
  | close (hpid : k.alive pid) (fd : Fin C.maxOpenFiles) (hfd : (k.files pid fd).isSome) :
    FileStep k (.close pid fd) (k.close pid fd)
  | exit (hpid : k.alive pid) : FileStep k (.exit pid) (k.exit pid)

/-- Processes with empty tables, before the first object is allocated. -/
structure Kernel.Initial (k : Kernel C F) : Prop where
  files : k.files pid fd = none
  nextFile : k.objs.nextFile = 0
  fileFrees : k.objs.fileFrees o = 0
  nextPipe : k.objs.nextPipe = 0
  pipeFrees : k.objs.pipeFrees p = 0

/-- One process with an empty table. -/
def Kernel.boot (inodes : F.State) (inode : F.Inode) : Kernel C F where
  files _ _ := none
  alive pid := pid = 0
  objs := ⟨fun _ => ⟨.regular inode, 0, 0, 0⟩, 0, fun _ => 0,
    fun _ => CS330.createPipe (.replicate _ 0), 0, fun _ => 0⟩
  inodes := inodes

theorem Kernel.boot_initial (inodes : F.State) (inode : F.Inode) :
    (Kernel.boot inodes inode : Kernel C F).Initial := ⟨rfl, rfl, rfl, rfl, rfl⟩

/-- A file system without files. -/
def noFiles : FileSystem where
  State := Unit
  Name := Unit
  Inode := Unit
  lookupInode _ _ := none
  createInode _ _ _ := (none, ())
  fileSize _ _ := 0
  mode _ _ := 0

/-- Runs of calls of any processes in any order. -/
def FileRun : Kernel C F → List (FileCall F) → Kernel C F → Prop := Trace FileStep

end CS330
