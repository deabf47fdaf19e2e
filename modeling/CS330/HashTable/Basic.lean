import CS330.Lib.Cyclic
import CS330.Lib.Procedure
import CS330.Lib.Word

/-! # The hash table of `parallel_hash.c`

Linear probing over `T` slots by one thread, without the locks. A slot whose key was deleted has
key 0 and id -1, one that was never used has key 0 and another id. -/

namespace CS330

/-- `hash_entry_t`. -/
structure HashEntry where
  id : BitVec 32
  datalen : BitVec 32
  key : BitVec 64
  data : BitVec 64
deriving DecidableEq, Repr

inductive OpType where
  | put
  | get
  | del
deriving DecidableEq, Repr

/-- `op_t`. -/
structure Operation where
  id : BitVec 64
  key : BitVec 64
  opType : OpType
  datalen : BitVec 32
  data : BitVec 64
deriving DecidableEq, Repr

/-- `hash_t`. The counter `used` is updated as a 64-bit word that reaches into the pointer behind
it: the low half of `usedWord` is the counter, the high half is how far the low half of the
pointer `table` has moved. -/
structure HashTable (T : Nat) where
  usedWord : BitVec 64
  table : Vector HashEntry T
deriving DecidableEq, Repr

variable {T : Nat}

def hashfunc [NeZero T] (key : BitVec 64) : Fin T :=
  Fin.ofNat T ((key >>> 32) + (key &&& 0xffffffff)).toNat

def initHashtable : HashTable T := ⟨0, Vector.replicate T ⟨0, 0, 0, 0⟩⟩

namespace HashTable

variable (h : HashTable T)

def used : Nat := (h.usedWord.setWidth 32).toNat

/-- The pointer `table` is the one that `init_hashtable` stored. -/
def Intact : Prop := h.usedWord.toNat < 2 ^ 32

instance : Decidable h.Intact := inferInstanceAs (Decidable (_ < _))

/-- `*(h->table + ctr)`. -/
def entry (ctr : Fin T) : HashEntry := h.table[ctr]

/-- Write a slot. -/
def setEntry (ctr : Fin T) (entry : HashEntry) : HashTable T :=
  { h with table := h.table.set ctr entry }

/-- `atomic_add(&(h->used), val)`. -/
def addUsed (val : BitVec 64) : HashTable T :=
  { h with usedWord := (atomicAdd h.usedWord val).1 }

/-- `entry->key || entry->id == (unsigned) -1`. -/
def Taken (ctr : Fin T) : Prop := (h.entry ctr).key ≠ 0 ∨ (h.entry ctr).id = -1

instance (ctr : Fin T) : Decidable (h.Taken ctr) := inferInstanceAs (Decidable (_ ∨ _))

end HashTable

variable [NeZero T]

/-- `ctr == hashval - 1`. -/
def AtEnd (key : BitVec 64) (ctr : Fin T) : Prop :=
  (ctr : Nat) = u32 ((hashfunc key : Fin T).val - 1)

instance (key : BitVec 64) (ctr : Fin T) : Decidable (AtEnd key ctr) :=
  inferInstanceAs (Decidable (_ = _))

/-- The condition of the loop over the slots in `lookup`, in `purge_key` and of the first loop of
`insert_update`. -/
def HashTable.Probes (h : HashTable T) (key : BitVec 64) (ctr : Fin T) : Prop :=
  h.Taken ctr ∧ (h.entry ctr).key ≠ key ∧ ¬AtEnd key ctr

instance (h : HashTable T) (key : BitVec 64) (ctr : Fin T) : Decidable (h.Probes key ctr) :=
  inferInstanceAs (Decidable (_ ∧ _ ∧ _))

/-- `lookup`, called with `ctr` equal to the hash value. -/
def lookupBody (h : HashTable T) (op : Operation) (ctr : Fin T) :
    Outcome (Fin T) (Int × Operation) :=
  if ¬h.Intact then .stuck
  else if h.Probes op.key ctr then .call (ctr + 1)
  else if (h.entry ctr).key = op.key then
    .ret (0, { op with datalen := (h.entry ctr).datalen, data := (h.entry ctr).data })
  else .ret (-1, op)

/-- `purge_key`, called with `ctr` equal to the hash value. -/
def purgeKeyBody (h : HashTable T) (op : Operation) (ctr : Fin T) :
    Outcome (Fin T) (Int × HashTable T) :=
  if ¬h.Intact then .stuck
  else if h.Probes op.key ctr then .call (ctr + 1)
  else if (h.entry ctr).key = op.key then .ret (0, (h.setEntry ctr ⟨-1, 0, 0, 0⟩).addUsed (-1))
  else .ret (-1, h)

/-- The end of `insert_update`: update of the entry, or fresh insertion. -/
def insertAt (h : HashTable T) (op : Operation) (entry : Fin T) : HashTable T :=
  if (h.entry entry).key = op.key then
    h.setEntry entry
      { h.entry entry with id := op.id.setWidth 32, datalen := op.datalen, data := op.data }
  else (h.setEntry entry ⟨op.id.setWidth 32, op.datalen, op.key, op.data⟩).addUsed 1

/-- Where `insert_update` stands: at its start, or in front of the condition of one of its loops.
The second loop starts with `ctr` at the hash value but `entry` where the first one ended. -/
inductive InsertPc (T : Nat) where
  | start
  | first (ctr : Fin T)
  | second (ctr entry : Fin T)
deriving DecidableEq, Repr

def insertUpdateBody (h : HashTable T) (op : Operation) :
    InsertPc T → Outcome (InsertPc T) (Int × HashTable T)
  | .start =>
    if ¬h.Intact then .stuck
    else if ¬h.used < T then .stuck
    else if op.key = 0 then .stuck
    else .call (.first (hashfunc op.key))
  | .first ctr =>
    if h.Probes op.key ctr then .call (.first (ctr + 1))
    else if AtEnd op.key ctr then .call (.second (hashfunc op.key) ctr)
    else .ret (0, insertAt h op ctr)
  | .second ctr entry =>
    if (h.entry entry).key ≠ 0 ∧ (h.entry entry).key ≠ op.key ∧ ¬AtEnd op.key ctr then
      .call (.second (ctr + 1) (ctr + 1))
    else .ret (0, insertAt h op entry)

/-- An operation, the value that it returned and the operation as it was left. -/
structure HashCall where
  op : Operation
  ret : Int
  op' : Operation

/-- `process` carries out an operation on `h`, which returns and leaves `h'`. -/
inductive HashStep (h : HashTable T) : HashCall → HashTable T → Prop where
  | lookup (hop : op.opType = .get)
    (hret : Returns (lookupBody h op) (hashfunc op.key) (ret, op')) : HashStep h ⟨op, ret, op'⟩ h
  | insertUpdate (hop : op.opType = .put)
    (hret : Returns (insertUpdateBody h op) .start (ret, h')) : HashStep h ⟨op, ret, op⟩ h'
  | purgeKey (hop : op.opType = .del)
    (hret : Returns (purgeKeyBody h op) (hashfunc op.key) (ret, h')) : HashStep h ⟨op, ret, op⟩ h'

section
variable {h h' : HashTable T} {op op' : Operation} {ret : Int}

theorem hashStep_get_iff (hop : op.opType = .get) : HashStep h ⟨op, ret, op'⟩ h' ↔
    Returns (lookupBody h op) (hashfunc op.key) (ret, op') ∧ h' = h := by
  constructor
  · intro hs
    cases hs with
    | lookup _ hret => exact ⟨hret, rfl⟩
    | insertUpdate hop' => cases hop.symm.trans hop'
    | purgeKey hop' => cases hop.symm.trans hop'
  · rintro ⟨hret, rfl⟩
    exact .lookup hop hret

theorem hashStep_put_iff (hop : op.opType = .put) : HashStep h ⟨op, ret, op'⟩ h' ↔
    op' = op ∧ Returns (insertUpdateBody h op) .start (ret, h') := by
  constructor
  · intro hs
    cases hs with
    | lookup hop' => cases hop.symm.trans hop'
    | insertUpdate _ hret => exact ⟨rfl, hret⟩
    | purgeKey hop' => cases hop.symm.trans hop'
  · rintro ⟨rfl, hret⟩
    exact .insertUpdate hop hret

theorem hashStep_del_iff (hop : op.opType = .del) : HashStep h ⟨op, ret, op'⟩ h' ↔
    op' = op ∧ Returns (purgeKeyBody h op) (hashfunc op.key) (ret, h') := by
  constructor
  · intro hs
    cases hs with
    | lookup hop' => cases hop.symm.trans hop'
    | insertUpdate hop' => cases hop.symm.trans hop'
    | purgeKey _ hret => exact ⟨rfl, hret⟩
  · rintro ⟨rfl, hret⟩
    exact .purgeKey hop hret

end

end CS330
