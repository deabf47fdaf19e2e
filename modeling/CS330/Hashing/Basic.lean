import CS330.Lib.Interleaving
import CS330.Lib.Trace
import CS330.Lib.Word
import CS330.Mapping

/-! # Parallel block hashing (`thread_func.c`)

The threads share two cursors, one into the file and one into the array of hashes, and advance both
under a mutex. What they claim in this way they hash and store without it. A step is a section that
the mutex protects, or the computation and the store that follow it. -/

namespace CS330

abbrev BLOCK_SIZE : Nat := 64

def Mapping.hashCount (file : Mapping) : Nat :=
  file.size / BLOCK_SIZE + if file.size % BLOCK_SIZE ≠ 0 then 1 else 0

/-- The loop of `calculate_and_store_hash`, with the addresses of the bytes it reads. The
difference of the pointers is signed, but `sizeof` is not, so it is compared as an `u64`. -/
def hashLoop (mem : Nat → UInt8) (endptr : Nat) : Nat → Nat → BitVec 64 → BitVec 64 × List Nat
  | 0, _, hashval => (hashval, [])
  | count + 1, ptr, hashval =>
    if u64 ((endptr : Int) - ptr) < 8 then (hashval, [])
    else
      let (hashval, reads) :=
        hashLoop mem endptr count (ptr + 8) (hashval + BitVec.ofNat 64 (ofBytes (load mem ptr 8)))
      (hashval, List.range' ptr 8 ++ reads)

def calculateAndStoreHash (mem : Nat → UInt8) (ptr endptr : Nat) : BitVec 64 × List Nat :=
  hashLoop mem endptr (BLOCK_SIZE / 8) ptr 0

/-- What the threads share. The cursor `optr` is the index of the entry it points to. -/
structure HashitMemory where
  dataptr : Nat
  optr : Nat
  hashes : Nat → BitVec 64

/-- Where a thread stands: in front of the mutex, in front of the computation with what it has
claimed, or at its end. -/
inductive HashitPc where
  | lock
  | compute (cptr chash : Nat)
  | exited
deriving DecidableEq, Repr

/-- The section of `hashit` that the mutex protects. -/
def HashitMemory.claim (m : HashitMemory) (endptr : Nat) : HashitMemory × HashitPc :=
  if endptr ≤ m.dataptr then (m, .exited)
  else
    ({ m with dataptr := m.dataptr + BLOCK_SIZE, optr := m.optr + 1 },
      .compute m.dataptr m.optr)

/-- The line of `hashit` behind it. -/
def HashitMemory.store (m : HashitMemory) (chash : Nat) (hashval : BitVec 64) : HashitMemory :=
  { m with hashes := Function.update m.hashes chash hashval }

/-- What a step stores and reads. -/
inductive HashitEvent where
  | claim
  | store (chash : Nat) (reads : List Nat)

/-- The steps of `hashit`. -/
inductive HashitStep (file : Mapping) :
    HashitMemory × HashitPc → HashitEvent → HashitMemory × HashitPc → Prop where
  | claim (m : HashitMemory) : HashitStep file (m, .lock) .claim (m.claim file.endptr)
  | store (m : HashitMemory) (cptr chash : Nat) :
    HashitStep file (m, .compute cptr chash)
      (.store chash (calculateAndStoreHash file.mem cptr file.endptr).2)
      (m.store chash (calculateAndStoreHash file.mem cptr file.endptr).1, .lock)

/-- `n` threads that run `hashit`. -/
abbrev HashitSystem (n : Nat) := Threads (Fin n) HashitMemory HashitPc

/-- `main` has set the cursors; the array holds what `malloc` gave. -/
def HashitSystem.init (n : Nat) (file : Mapping) (hashes : Nat → BitVec 64) : HashitSystem n :=
  ⟨⟨file.buff, 0, hashes⟩, fun _ => .lock⟩

/-- Runs of `n` threads; each step is labelled by its thread and by what it stores and reads. -/
def HashitRun {n : Nat} (file : Mapping) (events : List (Fin n × HashitEvent)) (s : HashitSystem n) :
    Prop :=
  ∃ hashes, Trace (Threads.StepOf fun s t => HashitStep file (s.shared, s.pc t))
    (HashitSystem.init n file hashes) events s

/-- The entries that have been stored, in order. -/
def stores {n : Nat} (events : List (Fin n × HashitEvent)) : List Nat :=
  events.filterMap fun event => match event.2 with
    | .claim => none
    | .store chash _ => some chash

/-- The addresses that have been read, in order. -/
def reads {n : Nat} (events : List (Fin n × HashitEvent)) : List Nat :=
  events.flatMap fun event => match event.2 with
    | .claim => []
    | .store _ reads => reads

end CS330
