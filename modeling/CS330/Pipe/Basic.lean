import CS330.Lib.CopyLoops
import CS330.Lib.Trace
import CS330.Lib.Word

/-! # The pipes of `pipe.c`

A pipe holds its bytes at the front of one page. A read takes them from there and moves the rest
to the front again, a write appends. -/

namespace CS330

/-- The memory behind a `char *`. -/
abbrev Memory := Nat → UInt8

/-- The `k` bytes from the start of the memory on. -/
def Memory.bytes (mem : Memory) (k : Nat) : List UInt8 := (List.range k).map mem

/-- `O_READ` or `O_WRITE`, the modes of the two ends. -/
inductive FileMode where
  | read
  | write
deriving DecidableEq, Repr

/-- The part of a `struct file` of a pipe that `pipe.c` reads; the pipe is passed by itself. -/
structure PipeFile where
  mode : FileMode
deriving DecidableEq, Repr

inductive PipeError where
  | einval
  | eacces
  | eothers
deriving DecidableEq, Repr

/-- `struct pipe_info`. -/
structure PipeInfo where
  pipeBuff : Vector UInt8 4096
  readPos : Nat
  writePos : Nat
  bufferOffset : Nat
  isRopen : Bool
  isWopen : Bool

/-- The pipe `create_pipe` sets up; the allocated page holds arbitrary bytes. -/
def createPipe (page : Vector UInt8 4096) : PipeInfo where
  pipeBuff := page
  readPos := 0
  writePos := 0
  bufferOffset := 0
  isRopen := true
  isWopen := true

/-- What the call returns, the memory of the caller and the pipe. No result stands for an access
outside of the page. -/
def pipeRead (filep : Option PipeFile) (buff : Option Memory) (count : Nat) (pipe : PipeInfo) :
    Option (Except PipeError Nat × Option Memory × PipeInfo) :=
  match filep, buff with
  | some file, some mem =>
    if ¬pipe.isRopen ∨ file.mode ≠ .read then some (.error .eacces, buff, pipe)
    else do
      let count := if count > pipe.bufferOffset then pipe.bufferOffset else count
      let mem ← copyOut pipe.pipeBuff count mem
      let rest := pipe.bufferOffset - count
      let pipeBuff ← shiftDown pipe.pipeBuff count rest
      return (.ok count, some mem, { pipe with pipeBuff, bufferOffset := rest })
  | _, _ => some (.error .einval, buff, pipe)

/-- The loop starts at index `buffer_offset` and runs while the index is below `count`. -/
def pipeWrite (filep : Option PipeFile) (buff : Option Memory) (count : Nat) (pipe : PipeInfo) :
    Option (Except PipeError Nat × PipeInfo) :=
  match filep, buff with
  | some file, some mem =>
    if ¬pipe.isWopen ∨ file.mode ≠ .write then some (.error .eacces, pipe)
    else if u32 (count + pipe.bufferOffset) > 4096 then some (.error .eothers, pipe)
    else do
      let pipeBuff ← copyIn pipe.pipeBuff pipe.bufferOffset (count - pipe.bufferOffset) mem
      let bufferOffset := u32 (pipe.bufferOffset + count)
      return (.ok count, { pipe with pipeBuff, bufferOffset, writePos := bufferOffset })
  | _, _ => some (.error .einval, pipe)

/-! ## Runs -/

/-- A call on an end of the pipe with its arguments and what came back. -/
inductive PipeCall where
  | write (filep : Option PipeFile) (buff : Option Memory) (count : Nat)
    (ret : Except PipeError Nat)
  | read (filep : Option PipeFile) (buff : Option Memory) (count : Nat)
    (ret : Except PipeError Nat) (buff' : Option Memory)

namespace PipeCall

def count : PipeCall → Nat
  | write _ _ count _ | read _ _ count _ _ => count

/-- The bytes that an accepted write takes. -/
def written : PipeCall → List UInt8
  | write _ (some mem) count (.ok _) => mem.bytes count
  | _ => []

/-- The bytes that a read delivers. -/
def delivered : PipeCall → List UInt8
  | read _ _ _ (.ok n) (some mem) => mem.bytes n
  | _ => []

end PipeCall

/-- The call on `pipe` returns and leaves `pipe'`. -/
inductive PipeStep (pipe : PipeInfo) : PipeCall → PipeInfo → Prop where
  | write (h : pipeWrite filep buff count pipe = some (ret, pipe')) :
    PipeStep pipe (.write filep buff count ret) pipe'
  | read (h : pipeRead filep buff count pipe = some (ret, buff', pipe')) :
    PipeStep pipe (.read filep buff count ret buff') pipe'

/-- Runs of calls with counts of at most a page that meet `ok` when they are made. -/
def PipeRun (ok : PipeInfo → PipeCall → Prop) : PipeInfo → List PipeCall → PipeInfo → Prop :=
  Trace fun pipe call pipe' => call.count ≤ 4096 ∧ ok pipe call ∧ PipeStep pipe call pipe'

/-- The bytes in the pipe. -/
def PipeInfo.held (pipe : PipeInfo) : List UInt8 := pipe.pipeBuff.toList.take pipe.bufferOffset

/-- The abstract pipe: what was written is what was delivered and then what is held. -/
def IsFifo (calls : List PipeCall) (pipe : PipeInfo) : Prop :=
  calls.flatMap (·.delivered) ++ pipe.held = calls.flatMap (·.written)

end CS330
