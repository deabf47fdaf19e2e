import CS330.HashTable.Probing
import CS330.Lib.Interleaving

/-! # The operations one visit at a time

Several threads work on one table. An atomic step is the visit of one slot: `lookup` reads the
slot, `insert_update` holds its lock, `purge_key` reads the slots of its loop and takes the lock of
the slot where the loop has ended in a visit of its own. The counter is changed in a step of its
own, too. -/

namespace CS330

/-- Where a thread stands in an operation: at its start, in front of the visit of a slot, in front
of `atomic_add`, or at its end. -/
inductive VisitPc (T : Nat) where
  | call
  | lookup (ctr : Fin T)
  | insertFirst (ctr : Fin T)
  | insertSecond (ctr : Fin T)
  | insertUsed
  | purge (ctr : Fin T)
  | purgeLocked (ctr : Fin T)
  | purgeUsed
  | returned (ret : Int)
deriving DecidableEq, Repr

variable {T : Nat} [NeZero T]

/-- A visit by `lookup`. -/
def lookupVisit (h : HashTable T) (op : Operation) (ctr : Fin T) : Operation × VisitPc T :=
  if h.Probes op.key ctr then (op, .lookup (ctr + 1))
  else if (h.entry ctr).key = op.key then
    ({ op with datalen := (h.entry ctr).datalen, data := (h.entry ctr).data }, .returned 0)
  else (op, .returned (-1))

/-- The end of `insert_update` in the slot where its loops have ended. -/
def writeVisit (h : HashTable T) (op : Operation) (entry : Fin T) : HashTable T × VisitPc T :=
  if (h.entry entry).key = op.key then
    (h.setEntry entry
      { h.entry entry with id := op.id.setWidth 32, datalen := op.datalen, data := op.data },
      .returned 0)
  else (h.setEntry entry ⟨op.id.setWidth 32, op.datalen, op.key, op.data⟩, .insertUsed)

/-- The condition of the second loop of `insert_update`, and what follows in the same slot. -/
def insertSecondVisit (h : HashTable T) (op : Operation) (ctr entry : Fin T) :
    HashTable T × VisitPc T :=
  if (h.entry entry).key ≠ 0 ∧ (h.entry entry).key ≠ op.key ∧ ¬AtEnd op.key ctr then
    (h, .insertSecond (ctr + 1))
  else writeVisit h op entry

/-- A visit by the first loop of `insert_update`. When it ends at the end of the round, the second
loop starts in the same slot. -/
def insertFirstVisit (h : HashTable T) (op : Operation) (ctr : Fin T) :
    HashTable T × VisitPc T :=
  if h.Probes op.key ctr then (h, .insertFirst (ctr + 1))
  else if AtEnd op.key ctr then insertSecondVisit h op (hashfunc op.key) ctr
  else writeVisit h op ctr

/-- A visit by the loop of `purge_key`. -/
def purgeVisit (h : HashTable T) (op : Operation) (ctr : Fin T) : VisitPc T :=
  if h.Probes op.key ctr then .purge (ctr + 1) else .purgeLocked ctr

/-- The visit of `purge_key` with the lock. -/
def purgeLockedVisit (h : HashTable T) (op : Operation) (ctr : Fin T) :
    HashTable T × VisitPc T :=
  if (h.entry ctr).key = op.key then (h.setEntry ctr ⟨-1, 0, 0, 0⟩, .purgeUsed)
  else (h, .returned (-1))

/-- One step of an operation, unless an assertion fails. -/
def VisitPc.next (h : HashTable T) (op : Operation) :
    VisitPc T → Option (HashTable T × Operation × VisitPc T)
  | .call => match op.opType with
    | .get => some (h, op, .lookup (hashfunc op.key))
    | .put => if h.used < T ∧ op.key ≠ 0 then some (h, op, .insertFirst (hashfunc op.key)) else none
    | .del => some (h, op, .purge (hashfunc op.key))
  | .lookup ctr => some (h, lookupVisit h op ctr)
  | .insertFirst ctr => some ((insertFirstVisit h op ctr).1, op, (insertFirstVisit h op ctr).2)
  | .insertSecond ctr =>
    some ((insertSecondVisit h op ctr ctr).1, op, (insertSecondVisit h op ctr ctr).2)
  | .insertUsed => some (h.addUsed 1, op, .returned 0)
  | .purge ctr => some (h, op, purgeVisit h op ctr)
  | .purgeLocked ctr => some ((purgeLockedVisit h op ctr).1, op, (purgeLockedVisit h op ctr).2)
  | .purgeUsed => some (h.addUsed (-1), op, .returned 0)
  | .returned _ => none

/-- The pointer to the table has to be the one that was stored. -/
def visit (h : HashTable T) (op : Operation) (pc : VisitPc T) :
    Option (HashTable T × Operation × VisitPc T) :=
  if h.Intact then pc.next h op else none

/-- A thread and the operation that it has in progress, if any. -/
abbrev OpPc (T : Nat) := Option (Operation × VisitPc T)

/-- A thread begins an operation on a key, takes a step of it, or is done with it. -/
inductive TableStep : HashTable T × OpPc T → HashTable T × OpPc T → Prop where
  | begin {h : HashTable T} {op : Operation} (hkey : op.key ≠ 0) :
    TableStep (h, none) (h, some (op, .call))
  | visit {h h' : HashTable T} {op op' : Operation} {pc pc' : VisitPc T}
    (hvisit : visit h op pc = some (h', op', pc')) :
    TableStep (h, some (op, pc)) (h', some (op', pc'))
  | finish {h : HashTable T} {op : Operation} {ret : Int} :
    TableStep (h, some (op, .returned ret)) (h, none)

/-- The threads and their table. -/
abbrev TableSystem (ι : Type*) (T : Nat) := Threads ι (HashTable T) (OpPc T)

/-- No two threads have operations on one key in progress. -/
def TableSystem.OnePerKey {ι : Type*} (s : TableSystem ι T) : Prop :=
  ∀ t t' op op' pc pc', s.pc t = some (op, pc) → s.pc t' = some (op', pc') → op.key = op'.key →
    t = t'

/-- Runs in which at most one operation for each key is in progress at a time. -/
def TableRun {ι : Type*} [DecidableEq ι] :
    TableSystem ι T → List ι → TableSystem ι T → Prop :=
  Trace fun s t s' => Threads.Step TableStep s t s' ∧ s'.OnePerKey

/-- A table as `init_hashtable` leaves it, and no operation in progress. -/
def TableSystem.init {ι : Type*} : TableSystem ι T := ⟨initHashtable, fun _ => none⟩

end CS330
