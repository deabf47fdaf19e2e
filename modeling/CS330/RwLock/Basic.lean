import CS330.Lib.Interleaving
import CS330.Lib.Trace
import CS330.Lib.Word

/-! # The reader-writer lock of `rwlock.c`

The lock is one signed 64-bit word that every call changes by `atomic_add`. A thread that fails to
take the lock undoes its addition in a step of its own and tries again. -/

namespace CS330

/-- `struct rwlock_t`. -/
structure RwLock where
  value : BitVec 64
deriving DecidableEq, Repr

def initRwlock : RwLock := ⟨0x1000000000000⟩

/-- Where a thread stands: outside of the lock, before an atomic step of a call, or in a section
that the lock protects. -/
inductive LockPc where
  | idle
  | writeLock
  | writeRetry
  | writing
  | readLock
  | readRetry
  | reading
deriving DecidableEq, Repr

/-- The condition of the loop of `write_lock`. -/
def writeLock (lock : RwLock) : RwLock × LockPc :=
  let (value, ret) := atomicAdd lock.value (-0x1000000000000)
  (⟨value⟩, if ret ≠ 0 then .writeRetry else .writing)

/-- The body of that loop. -/
def writeRetry (lock : RwLock) : RwLock × LockPc :=
  (⟨(atomicAdd lock.value 0x1000000000000).1⟩, .writeLock)

def writeUnlock (lock : RwLock) : RwLock × LockPc :=
  (⟨(atomicAdd lock.value 0x1000000000000).1⟩, .idle)

/-- The condition of the loop of `read_lock`. -/
def readLock (lock : RwLock) : RwLock × LockPc :=
  let (value, ret) := atomicAdd lock.value (-1)
  (⟨value⟩, if ret = -1 then .readRetry else .reading)

/-- The body of that loop. -/
def readRetry (lock : RwLock) : RwLock × LockPc :=
  (⟨(atomicAdd lock.value 1).1⟩, .readLock)

def readUnlock (lock : RwLock) : RwLock × LockPc :=
  (⟨(atomicAdd lock.value 1).1⟩, .idle)

/-- The steps of a thread that takes and releases the lock again and again. -/
inductive LockStep : RwLock × LockPc → RwLock × LockPc → Prop where
  | callWriteLock (lock : RwLock) : LockStep (lock, .idle) (lock, .writeLock)
  | writeLock (lock : RwLock) : LockStep (lock, .writeLock) (writeLock lock)
  | writeRetry (lock : RwLock) : LockStep (lock, .writeRetry) (writeRetry lock)
  | writeUnlock (lock : RwLock) : LockStep (lock, .writing) (writeUnlock lock)
  | callReadLock (lock : RwLock) : LockStep (lock, .idle) (lock, .readLock)
  | readLock (lock : RwLock) : LockStep (lock, .readLock) (readLock lock)
  | readRetry (lock : RwLock) : LockStep (lock, .readRetry) (readRetry lock)
  | readUnlock (lock : RwLock) : LockStep (lock, .reading) (readUnlock lock)

/-- `n` threads and their lock. -/
abbrev LockSystem (n : Nat) := Threads (Fin n) RwLock LockPc

/-- The lock is initialised and no thread has called it. -/
def LockSystem.init (n : Nat) : LockSystem n := ⟨initRwlock, fun _ => .idle⟩

/-- Runs of the system; each step is labelled by the thread that takes it. -/
def LockRun {n : Nat} (threads : List (Fin n)) (s : LockSystem n) : Prop :=
  Trace (Threads.Step LockStep) (LockSystem.init n) threads s

end CS330
