import CS330.HashTable.Basic
import CS330.Lib.Interleaving
import CS330.Lib.Trace
import Mathlib.Data.Fintype.Basic

/-! # The threads of `parallel_hash.c`

Every thread runs the loop of `process`: `read_op`, an operation, `done_one`. All of them share one
mutex and one condition variable. A step is what a thread does between two points where others may
see a difference; what an operation does to the memory `μ` is left open (`Work`). -/

namespace CS330

/-- The number of slots of `being_processed`. -/
abbrev THREADS : Nat := 32

/-- The operation file: the records in front of the first one whose `op_type` is no operation, and
whether there is such a record. -/
structure OpFile where
  records : List Operation
  spoilt : Bool

/-- `struct input_manager`. The mutex is held by a thread or free, and `cond` are the threads that
are asleep. A slot of `being_processed` is NULL or points to the operation of its thread. -/
structure InputManager where
  /-- How many records lie before `curr`. -/
  curr : Nat
  beingProcessed : Fin THREADS → Bool
  lock : Option (Fin THREADS)
  cond : Finset (Fin THREADS)

/-- What a thread does to its operation and to the shared memory between `read_op` and `done_one`. -/
structure Work (μ ω : Type*) where
  start : ω
  step : μ × Operation × ω → μ × Operation × ω → Prop
  returned : ω → Option Int
  /-- What other threads read of the operation stays as it is. -/
  keeps : ∀ {before after}, step before after →
    after.2.1.id = before.2.1.id ∧ after.2.1.key = before.2.1.key

/-- Where a thread stands in the loop of `process`. -/
inductive ProcessPc (ω : Type*) where
  /-- The thread was not created. -/
  | absent
  /-- In front of `pthread_mutex_lock` in `read_op`. -/
  | readOp
  | reading
  /-- At the condition of the loop over `being_processed`. -/
  | scan (t : Nat)
  /-- In `pthread_cond_wait`, asleep or woken. -/
  | wait
  | work (w : ω)
  /-- In front of `pthread_mutex_lock` in `done_one`. -/
  | doneOne
  | broadcast
  | clear
  | unlock
  /-- `read_op` has returned -1. -/
  | exited
  /-- The assertion of `read_op` has failed. -/
  | aborted

/-- The local variables of `process`. -/
structure Process (ω : Type*) where
  op : Operation
  pc : ProcessPc ω

/-- What the threads share. -/
structure Shared (μ : Type*) where
  input : InputManager
  mem : μ

/-- The threads that `being_processed` has slots for. -/
abbrev System (μ ω : Type*) := Threads (Fin THREADS) (Shared μ) (Process ω)

variable {μ ω : Type*}

/-- `memcpy(op, in->curr, size - sizeof(unsigned long))`, and `data` of a `PUT`. -/
def Operation.read (op record : Operation) : Operation :=
  { record with data := if record.opType = .put then record.data else op.data }

def Process.goto (p : Process ω) (pc : ProcessPc ω) : Process ω := { p with pc }

def Shared.acquire (m : Shared μ) (t : Fin THREADS) : Shared μ := { m with input.lock := some t }

def Shared.release (m : Shared μ) : Shared μ := { m with input.lock := none }

/-- Thread `t` waits for thread `t'`: the condition in the loop over `being_processed`. -/
def Blocks (s : System μ ω) (t t' : Fin THREADS) : Prop :=
  t' ≠ t ∧ s.shared.input.beingProcessed t' = true ∧ (s.pc t).op.key = (s.pc t').op.key ∧
    (s.pc t').op.id < (s.pc t).op.id

instance (s : System μ ω) (t t' : Fin THREADS) : Decidable (Blocks s t t') :=
  inferInstanceAs (Decidable (_ ∧ _ ∧ _ ∧ _))

/-- What is seen of a step. -/
inductive ProcessEvent where
  | silent
  /-- A thread that waits wakes up without a broadcast. -/
  | spurious
  /-- `read_op` returns 0. -/
  | enter (op : Operation)
  /-- The operation returns, and leaves `op`. -/
  | result (op : Operation) (ret : Int)

/-- The steps of thread `t`. At the end of the file, and in front of a record that is none, `op`
is left with what the copied bytes happen to be. -/
inductive ProcessStep (file : OpFile) (work : Work μ ω) (s : System μ ω) (t : Fin THREADS) :
    ProcessEvent → Shared μ × Process ω → Prop where
  | readOp (hpc : (s.pc t).pc = .readOp) (hlock : s.shared.input.lock = none) :
    ProcessStep file work s t .silent (s.shared.acquire t, (s.pc t).goto .reading)
  | read {record : Operation} (hpc : (s.pc t).pc = .reading)
    (hrecord : file.records[s.shared.input.curr]? = some record) :
    ProcessStep file work s t .silent
      ({ s.shared with
          input.curr := s.shared.input.curr + 1
          input.beingProcessed := Function.update s.shared.input.beingProcessed t true },
        ⟨(s.pc t).op.read record, .scan 0⟩)
  | eof {op : Operation} (hpc : (s.pc t).pc = .reading)
    (hend : file.records.length ≤ s.shared.input.curr) (hfile : file.spoilt = false) :
    ProcessStep file work s t .silent (s.shared.release, ⟨op, .exited⟩)
  | abort {op : Operation} (hpc : (s.pc t).pc = .reading)
    (hend : file.records.length ≤ s.shared.input.curr) (hfile : file.spoilt = true) :
    ProcessStep file work s t .silent (s.shared.release, ⟨op, .aborted⟩)
  | wait {i : Nat} (hpc : (s.pc t).pc = .scan i) (hi : i < THREADS) (hblocks : Blocks s t ⟨i, hi⟩) :
    ProcessStep file work s t .silent
      ({ s.shared with
          input.lock := none
          input.cond := insert t s.shared.input.cond }, (s.pc t).goto .wait)
  | next {i : Nat} (hpc : (s.pc t).pc = .scan i) (hi : i < THREADS)
    (hblocks : ¬Blocks s t ⟨i, hi⟩) :
    ProcessStep file work s t .silent (s.shared, (s.pc t).goto (.scan (i + 1)))
  | enter {i : Nat} (hpc : (s.pc t).pc = .scan i) (hi : THREADS ≤ i) :
    ProcessStep file work s t (.enter (s.pc t).op)
      (s.shared.release, (s.pc t).goto (.work work.start))
  | spurious (hcond : t ∈ s.shared.input.cond) :
    ProcessStep file work s t .spurious
      ({ s.shared with input.cond := s.shared.input.cond.erase t }, s.pc t)
  | wake (hpc : (s.pc t).pc = .wait) (hcond : t ∉ s.shared.input.cond)
    (hlock : s.shared.input.lock = none) :
    ProcessStep file work s t .silent (s.shared.acquire t, (s.pc t).goto (.scan 0))
  | work {w w' : ω} {mem : μ} {op : Operation} (hpc : (s.pc t).pc = .work w)
    (hwork : work.step (s.shared.mem, (s.pc t).op, w) (mem, op, w')) :
    ProcessStep file work s t .silent ({ s.shared with mem }, ⟨op, .work w'⟩)
  | finish {w : ω} {ret : Int} (hpc : (s.pc t).pc = .work w) (hret : work.returned w = some ret) :
    ProcessStep file work s t (.result (s.pc t).op ret) (s.shared, (s.pc t).goto .doneOne)
  | doneOne (hpc : (s.pc t).pc = .doneOne) (hlock : s.shared.input.lock = none) :
    ProcessStep file work s t .silent (s.shared.acquire t, (s.pc t).goto .broadcast)
  | broadcast (hpc : (s.pc t).pc = .broadcast) :
    ProcessStep file work s t .silent
      ({ s.shared with input.cond := ∅ }, (s.pc t).goto .clear)
  | clear (hpc : (s.pc t).pc = .clear) :
    ProcessStep file work s t .silent
      ({ s.shared with
          input.beingProcessed := Function.update s.shared.input.beingProcessed t false },
        (s.pc t).goto .unlock)
  | unlock (hpc : (s.pc t).pc = .unlock) :
    ProcessStep file work s t .silent (s.shared.release, (s.pc t).goto .readOp)

/-- `main` has created `threads`; their operations are what `malloc` gave them. -/
def System.init (threads : Finset (Fin THREADS)) (mem : μ) (ops : Fin THREADS → Operation) :
    System μ ω where
  shared := ⟨⟨0, fun _ => false, none, ∅⟩, mem⟩
  pc t := ⟨ops t, if t ∈ threads then .readOp else .absent⟩

/-- Runs of `threads` on `file`; each step is labelled by its thread and by what is seen of it. -/
def ProcessRun (file : OpFile) (work : Work μ ω) (threads : Finset (Fin THREADS)) (mem : μ)
    (events : List (Fin THREADS × ProcessEvent)) (s : System μ ω) : Prop :=
  ∃ ops, Trace (Threads.StepOf (ProcessStep file work)) (System.init threads mem ops) events s

/-- The operations that have entered the section between `read_op` and `done_one`, in order. -/
def entered (events : List (Fin THREADS × ProcessEvent)) : List Operation :=
  events.filterMap fun event => match event.2 with
    | .enter op => some op
    | _ => none

/-- The ids of the records increase. -/
def OpFile.Increasing (file : OpFile) : Prop := file.records.Pairwise (·.id < ·.id)

end CS330
