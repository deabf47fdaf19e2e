import CS330.Mapping
import CS330.Process.Basic

/-! # The bytes of an operation file

`create_put` and `create_get_del` write the records back to back. `read_op` copies the same number
of bytes whatever the record is, and only then knows how long it was. -/

namespace CS330

/-- What is written into an operation file. -/
inductive Record where
  | put (id key : BitVec 64) (data : { data : List UInt8 // data.length < 2 ^ 32 })
  | get (id key : BitVec 64)
  | del (id key : BitVec 64)

/-- The constants of the enumeration. -/
def OpType.code : OpType → Nat
  | put => 0
  | get => 1
  | del => 2

def OpType.ofCode : Nat → Option OpType
  | 0 => some .put
  | 1 => some .get
  | 2 => some .del
  | _ => none

def createPut (id key : BitVec 64) (data : List UInt8) : List UInt8 :=
  toBytes 8 id.toNat ++ toBytes 8 key.toNat ++ toBytes 4 OpType.put.code ++
    toBytes 4 data.length ++ data

def createGetDel (id key : BitVec 64) (op : OpType) : List UInt8 :=
  toBytes 8 id.toNat ++ toBytes 8 key.toNat ++ toBytes 4 op.code

namespace Record

def opType : Record → OpType
  | put .. => .put
  | get .. => .get
  | del .. => .del

def encode : Record → List UInt8
  | put id key data => createPut id key data
  | get id key => createGetDel id key .get
  | del id key => createGetDel id key .del

/-- The operation has what was written: its id, key and type, and for `PUT` the length of the data
and a pointer to them. -/
def Delivered (file : Mapping) (op : Operation) : Record → Prop
  | put id key data => op.id = id ∧ op.key = key ∧ op.opType = .put ∧
    op.datalen.toNat = data.1.length ∧ StoredAt file.mem op.data.toNat data
  | get id key => op.id = id ∧ op.key = key ∧ op.opType = .get
  | del id key => op.id = id ∧ op.key = key ∧ op.opType = .del

end Record

/-! ## Reading -/

/-- `sizeof(op_t)`; the fields have 8, 8, 4, 4 and 8 bytes. -/
abbrev SIZEOF_OP : Nat := 32

/-- The bytes at `curr` as an operation, with a pointer to what follows them. -/
def recordAt (file : Mapping) (curr : Nat) (opType : OpType) : Operation where
  id := BitVec.ofNat 64 (ofBytes (load file.mem curr 8))
  key := BitVec.ofNat 64 (ofBytes (load file.mem (curr + 8) 8))
  opType
  datalen := BitVec.ofNat 32 (ofBytes (load file.mem (curr + 20) 4))
  data := BitVec.ofNat 64 (curr + (SIZEOF_OP - 8))

/-- `read_op` up to the test for the end of the file: where `curr` is afterwards, and the operation.
`none` if the assertion fails. -/
def readRecord (file : Mapping) (curr : Nat) (op : Operation) : Option (Nat × Operation) :=
  (OpType.ofCode (ofBytes (load file.mem (curr + 16) 4))).map fun opType =>
    let op := op.read (recordAt file curr opType)
    match opType with
    | .get | .del => (curr + (SIZEOF_OP - 4 - 8), op)
    | .put => (curr + (SIZEOF_OP - 8) + op.datalen.toNat, op)

variable {file : Mapping} {recs : List Record} {r : Record} {curr k : Nat} {op : Operation}

theorem OpType.ofCode_code (t : OpType) : ofCode t.code = some t := by cases t <;> rfl

theorem OpType.code_lt (t : OpType) : t.code < 256 ^ 4 := by cases t <;> decide

/-- Every record starts with its id, key and type. -/
theorem storedAt_createGetDel {id key : BitVec 64} {t : OpType}
    (h : StoredAt file.mem curr (createGetDel id key t)) :
    (recordAt file curr t).id = id ∧ (recordAt file curr t).key = key ∧
      ofBytes (load file.mem (curr + 16) 4) = t.code := by
  simp only [createGetDel, storedAt_append, List.length_append, length_toBytes] at h
  obtain ⟨⟨hid, hkey⟩, htype⟩ := h
  refine ⟨?_, ?_, htype.ofBytes_load t.code_lt⟩
  · rw [recordAt, hid.ofBytes_load id.isLt, BitVec.ofNat_toNat, BitVec.setWidth_eq]
  · rw [recordAt, hkey.ofBytes_load key.isLt, BitVec.ofNat_toNat, BitVec.setWidth_eq]

/-- Behind them a `PUT` has the length of its data, and the data. -/
theorem storedAt_createPut {id key : BitVec 64} {data : List UInt8} (hlen : data.length < 2 ^ 32)
    (h : StoredAt file.mem curr (createPut id key data)) :
    StoredAt file.mem curr (createGetDel id key .put) ∧
      (recordAt file curr .put).datalen.toNat = data.length ∧
      StoredAt file.mem (curr + 24) data := by
  change StoredAt file.mem curr (createGetDel id key .put ++ toBytes 4 data.length ++ data) at h
  simp only [storedAt_append, createGetDel, List.length_append, length_toBytes] at h
  obtain ⟨⟨hrecord, hdatalen⟩, hdata⟩ := h
  refine ⟨?_, ?_, hdata⟩
  · simpa only [createGetDel, storedAt_append, List.length_append, length_toBytes] using hrecord
  · rw [recordAt, hdatalen.ofBytes_load (hlen.trans_eq (by norm_num)), BitVec.toNat_ofNat,
      Nat.mod_eq_of_lt hlen]

/-- At a record `read_op` reads its fields, and moves `curr` to its end. -/
theorem readRecord_of_storedAt (h : StoredAt file.mem curr r.encode) :
    readRecord file curr op =
      some (curr + r.encode.length, op.read (recordAt file curr r.opType)) := by
  have htype : ofBytes (load file.mem (curr + 16) 4) = r.opType.code := by
    cases r with
    | put _ _ data => exact (storedAt_createGetDel (storedAt_createPut data.2 h).1).2.2
    | get | del => exact (storedAt_createGetDel h).2.2
  rw [readRecord, htype, OpType.ofCode_code, Option.map_some]
  cases r with
  | put _ _ data =>
    have hlen : (op.read (recordAt file curr .put)).datalen.toNat = data.1.length :=
      (storedAt_createPut data.2 h).2.1
    simp [Record.opType, hlen, Record.encode, createPut, SIZEOF_OP]
    omega
  | get | del => simp [Record.opType, Record.encode, createGetDel, SIZEOF_OP]

theorem Record.delivered_read (h : StoredAt file.mem curr r.encode) (hcurr : curr + 24 < 2 ^ 64) :
    r.Delivered file (op.read (recordAt file curr r.opType)) := by
  cases r with
  | put id key data =>
    obtain ⟨hrecord, hlen, hdata⟩ := storedAt_createPut data.2 h
    obtain ⟨hid, hkey, -⟩ := storedAt_createGetDel hrecord
    refine ⟨hid, hkey, rfl, hlen, ?_⟩
    change StoredAt file.mem (BitVec.ofNat 64 (curr + 24)).toNat data
    rwa [BitVec.toNat_ofNat, Nat.mod_eq_of_lt hcurr]
  | get | del =>
    obtain ⟨hid, hkey, -⟩ := storedAt_createGetDel h
    exact ⟨hid, hkey, rfl⟩

/-- Where 24 bytes of the memory are zero, `read_op` sees a `PUT` without data. -/
theorem readRecord_of_zero (h : ∀ a, curr ≤ a → a < curr + 24 → file.mem a = 0) :
    readRecord file curr op = some (curr + 24, op.read (recordAt file curr .put)) := by
  have htype : ofBytes (load file.mem (curr + 16) 4) = 0 :=
    ofBytes_load_eq_zero fun a ha ha' => h a (by omega) (by omega)
  have hdatalen : ofBytes (load file.mem (curr + 20) 4) = 0 :=
    ofBytes_load_eq_zero fun a ha ha' => h a (by omega) ha'
  have hlen : (op.read (recordAt file curr .put)).datalen.toNat = 0 := by
    change (BitVec.ofNat 32 (ofBytes (load file.mem (curr + 20) 4))).toNat = 0
    rw [hdatalen]
    rfl
  rw [readRecord, htype]
  simp [OpType.ofCode, hlen, SIZEOF_OP]

/-! ## The whole file -/

/-- The file consists of the records, back to back. -/
def Mapping.HoldsRecords (file : Mapping) (recs : List Record) : Prop :=
  file.Holds (recs.flatMap Record.encode)

/-- Where record `k` starts. -/
def offset (file : Mapping) (recs : List Record) (k : Nat) : Nat :=
  file.buff + ((recs.take k).flatMap Record.encode).length

theorem offset_succ (hr : recs[k]? = some r) :
    offset file recs (k + 1) = offset file recs k + r.encode.length := by
  simp [offset, List.take_add_one, hr, Nat.add_assoc]

theorem offset_length (hfile : file.HoldsRecords recs) :
    offset file recs recs.length = file.endptr := by
  rw [offset, List.take_length, Mapping.endptr, hfile.1]

theorem storedAt_offset (hfile : file.HoldsRecords recs) (hr : recs[k]? = some r) :
    StoredAt file.mem (offset file recs k) r.encode := by
  obtain ⟨hk, rfl⟩ := List.getElem?_eq_some_iff.1 hr
  have h := hfile.2
  rw [← List.take_append_drop k recs, List.drop_eq_getElem_cons hk, List.flatMap_append,
    List.flatMap_cons, storedAt_append, storedAt_append] at h
  exact h.2.1

theorem offset_le_endptr (hfile : file.HoldsRecords recs) : offset file recs k ≤ file.endptr := by
  rw [Mapping.endptr, hfile.1, offset]
  refine Nat.add_le_add_left ?_ _
  exact ((List.take_sublist k recs).flatMap _).length_le

/-- `read_op` at record `k`. -/
theorem readRecord_offset (hfile : file.HoldsRecords recs) (hr : recs[k]? = some r) :
    readRecord file (offset file recs k) op = some (offset file recs (k + 1),
      op.read (recordAt file (offset file recs k) r.opType)) := by
  rw [readRecord_of_storedAt (storedAt_offset hfile hr), offset_succ hr]

/-- The records as the threads of `process` see them, when zeros lie behind the last one. -/
def Mapping.opFile (file : Mapping) (recs : List Record) : OpFile where
  records := recs.mapIdx fun k r => recordAt file (offset file recs k) r.opType
  spoilt := false

/-- What a thread of `process` reads as record `k` is what `read_op` finds there. -/
theorem readRecord_opFile {record : Operation} (hfile : file.HoldsRecords recs)
    (hrecord : (file.opFile recs).records[k]? = some record) :
    readRecord file (offset file recs k) op =
      some (offset file recs (k + 1), op.read record) := by
  obtain ⟨r, hr, rfl⟩ : ∃ r, recs[k]? = some r ∧
      recordAt file (offset file recs k) r.opType = record := by
    simpa [Mapping.opFile, List.getElem?_mapIdx, Option.map_eq_some_iff] using hrecord
  exact readRecord_offset hfile hr

end CS330
