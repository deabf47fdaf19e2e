import CS330.HashTable.Counter
import CS330.Process.Inputgen
import CS330.Process.Mapped

/-! # What the hash program writes

Every thread writes one line for each of its operations to a file of its own, and at the end `main`
prints the table. Neither the lines of all threads together nor the bindings that are printed depend
on the number of threads, on their interleaving or on the size of the table. The pointers depend on
the address of the file, and lie at the same place of it. -/

namespace CS330

variable {T T' : Nat} {h : HashTable T} {h' : HashTable T'} {m : KvMap} {file : OpFile}
  {threads threads' : Finset (Fin THREADS)} {events events' : List (Fin THREADS × ProcessEvent)}

/-! ## The lines -/

/-- What `%d` prints. -/
def decimalInt (i : Int) : List UInt8 :=
  if i < 0 then 45 :: decimal i.natAbs else decimal i.natAbs

/-- The id and the type of the operation, and what it returned. -/
def outputLine (op : Operation) (ret : Int) : List UInt8 :=
  decimal op.id.toNat ++ 32 :: (decimal op.opType.code ++ 32 :: (decimalInt ret ++ [10]))

/-- The lines of `thread-%d.out`. -/
def threadOut (events : List (Fin THREADS × ProcessEvent)) (t : Fin THREADS) : List (List UInt8) :=
  (results (events.filter (·.1 = t))).map fun result => outputLine result.1 result.2

/-- The files of all threads one behind the other. -/
def allOut (events : List (Fin THREADS × ProcessEvent)) : List (List UInt8) :=
  (List.finRange THREADS).flatMap (threadOut events)

/-- A list is made up of its parts. -/
theorem perm_flatMap_filter {α ι : Type*} [DecidableEq ι] {f : α → ι} {ts : List ι} {l : List α}
    (hts : ts.Nodup) (hmem : ∀ a ∈ l, f a ∈ ts) :
    (ts.flatMap fun t => l.filter (f · = t)).Perm l := by
  induction ts generalizing l with
  | nil =>
    obtain rfl : l = [] := List.eq_nil_iff_forall_not_mem.2 fun a ha => by simpa using hmem a ha
    exact .refl _
  | cons t ts ih =>
    obtain ⟨ht, hts⟩ := List.nodup_cons.1 hts
    have hrest : ts.flatMap (fun t' => l.filter (f · = t')) =
        ts.flatMap fun t' => (l.filter fun a => !decide (f a = t)).filter (f · = t') := by
      refine List.flatMap_congr fun t' ht' => ?_
      rw [List.filter_filter]
      refine List.filter_congr fun a _ => ?_
      have hne : t' ≠ t := fun heq => ht (heq ▸ ht')
      by_cases ha : f a = t' <;> simp [ha, hne]
    rw [List.flatMap_cons, hrest]
    refine ((ih hts fun a ha => ?_).append_left _).trans (List.filter_append_perm ..)
    obtain ⟨ha, hne⟩ := List.mem_filter.1 ha
    exact (List.mem_cons.1 (hmem a ha)).resolve_left (by simpa using hne)

theorem allOut_perm : (allOut events).Perm
    ((results events).map fun result => outputLine result.1 result.2) := by
  have hparts := perm_flatMap_filter (f := Prod.fst) (l := events) (List.nodup_finRange THREADS)
    fun event _ => List.mem_finRange event.1
  have hout : allOut events = (results ((List.finRange THREADS).flatMap fun t =>
      events.filter (·.1 = t))).map fun result => outputLine result.1 result.2 := by
    rw [results, List.filterMap_flatMap, List.map_flatMap]
    rfl
  rw [hout]
  exact (hparts.filterMap _).map _

/-! ## The table -/

/-- The entries that `dump_hash_table` prints, with key, length and pointer. -/
def printed (h : HashTable T) : List (BitVec 64 × BitVec 32 × BitVec 64) :=
  (h.table.toList.filter (·.key ≠ 0)).map fun entry => (entry.key, entry.datalen, entry.data)

theorem printed_eq : printed h = ((List.finRange T).filter fun i => (h.entry i).key ≠ 0).map
    fun i => ((h.entry i).key, (h.entry i).datalen, (h.entry i).data) := by
  have hlist : h.table.toList = (List.finRange T).map h.entry := by
    refine List.ext_getElem (by simp) fun i hi hi' => ?_
    simp [HashTable.entry]
  rw [printed, hlist, List.filter_map, List.map_map]
  rfl

theorem Stores.mem_printed [NeZero T] (S : Stores h m) {key : BitVec 64}
    {v : BitVec 32 × BitVec 64} : (key, v) ∈ printed h ↔ m key = some v := by
  rw [printed_eq, List.mem_map]
  constructor
  · rintro ⟨i, hi, heq⟩
    have hkey : (h.entry i).key ≠ 0 := by simpa using hi
    obtain ⟨rfl, rfl⟩ := Prod.mk.inj heq
    exact S.sound i hkey
  · intro hm
    obtain ⟨hkey, i, rfl⟩ := S.complete key (by simp [hm])
    have hv : ((h.entry i).datalen, (h.entry i).data) = v :=
      Option.some.inj ((S.sound i hkey).symm.trans hm)
    exact ⟨i, by simpa using hkey, congrArg (Prod.mk _) hv⟩

theorem Stores.printed_nodup [NeZero T] (S : Stores h m) : (printed h).Nodup := by
  rw [printed_eq]
  refine List.Nodup.map_on (fun i hi j _ heq => ?_) ((List.nodup_finRange T).filter _)
  exact S.unique i j (by simpa using hi) (Prod.mk.inj heq).1

/-! ## Where the file is mapped -/

/-- A binding, with the place of its data in a file that is mapped at `base`. -/
def relativeValue (base : BitVec 64) (v : BitVec 32 × BitVec 64) : BitVec 32 × BitVec 64 :=
  (v.1, v.2 - base)

/-- The record with the place of its data in the file; only a `PUT` has data. -/
def Operation.relativeTo (base : BitVec 64) (op : Operation) : Operation :=
  { op with datalen := if op.opType = .put then op.datalen else 0, data := op.data - base }

/-- The entries that `dump_hash_table` prints, with the places of the data in the file. -/
def printedAt (base : BitVec 64) (h : HashTable T) : List (BitVec 64 × BitVec 32 × BitVec 64) :=
  (printed h).map fun entry => (entry.1, relativeValue base entry.2)

section
variable {base base' : BitVec 64} {op : Operation} {ops : List Operation} {key : BitVec 64}
  {v : Option (BitVec 32 × BitVec 64)} {m m' : KvMap} {calls calls' : List HashCall}

theorem relativeValue_injective : Function.Injective (relativeValue base) := fun v w h => by
  obtain ⟨hlen, hdata⟩ := Prod.mk.inj h
  exact Prod.ext hlen (by simpa using hdata)

theorem kvNext_relativeTo :
    kvNext (v.map (relativeValue base)) (op.relativeTo base) =
      (kvNext v op).map (relativeValue base) := by
  cases hop : op.opType <;> simp [kvNext, Operation.relativeTo, hop, relativeValue]

theorem kvResult_relativeTo :
    (kvResult (v.map (relativeValue base)) (op.relativeTo base)).1 = (kvResult v op).1 := by
  cases hop : op.opType <;> simp [kvResult, Operation.relativeTo, hop]

theorem keyValue_relativeTo : keyValue key (ops.map (Operation.relativeTo base)) =
    (keyValue key ops).map (relativeValue base) := by
  induction ops using List.reverseRecOn with
  | nil => rfl
  | append_singleton ops op ih =>
    rw [List.map_append, List.map_singleton, keyValue_append, keyValue_append, ih, kvNext_relativeTo]
    change (if op.key = key then _ else _) = _
    split <;> rfl

/-- Records that differ in the address of the file alone lead to bindings that do. -/
theorem Trace.kv_relative (hserial : Trace KvStep (fun _ => none) calls m)
    (hserial' : Trace KvStep (fun _ => none) calls' m')
    (hsame : (calls.map (·.op)).map (Operation.relativeTo base) =
      (calls'.map (·.op)).map (Operation.relativeTo base')) (key : BitVec 64) :
    (m key).map (relativeValue base) = (m' key).map (relativeValue base') := by
  rw [hserial.keyValue_eq, hserial'.keyValue_eq, ← keyValue_relativeTo, ← keyValue_relativeTo, hsame]

/-- The id of the record and the return value of a call. -/
def HashCall.line (call : HashCall) : BitVec 64 × Int := (call.answer.1, call.answer.2.1)

/-- They return the same. -/
theorem Trace.kv_lines (hserial : Trace KvStep (fun _ => none) calls m)
    (hserial' : Trace KvStep (fun _ => none) calls' m')
    (hsame : (calls.map (·.op)).map (Operation.relativeTo base) =
      (calls'.map (·.op)).map (Operation.relativeTo base')) :
    calls.map HashCall.line = calls'.map HashCall.line := by
  induction hserial generalizing calls' m' with
  | nil =>
    have hnil : calls' = [] := by simpa using hsame.symm
    rw [hnil]
  | @snoc calls m call m₁ htrace hk ih =>
    cases hserial' with
    | nil => simp at hsame
    | @snoc calls' m' call' _ htrace' hk' =>
      simp only [List.map_append, List.map_singleton] at hsame
      obtain ⟨hsame, hlast⟩ := List.append_inj' hsame rfl
      have hop := (List.cons.inj hlast).1
      have hkey := congrArg Operation.key hop
      have hid := congrArg Operation.id hop
      change call.op.key = call'.op.key at hkey
      rw [List.map_append, List.map_append, ih htrace' hsame]
      refine congrArg _ (congrArg (fun line => [line]) ?_)
      rw [HashCall.line, HashCall.line, hk.answer, hk'.answer]
      refine Prod.ext hid ?_
      have hvalue := htrace.kv_relative htrace' hsame call.op.key
      calc (kvResult (m call.op.key) call.op).1
        _ = (kvResult ((m call.op.key).map (relativeValue base)) (call.op.relativeTo base)).1 :=
          kvResult_relativeTo.symm
        _ = (kvResult ((m' call'.op.key).map (relativeValue base'))
              (call'.op.relativeTo base')).1 := by rw [hvalue, hop, hkey]
        _ = (kvResult (m' call'.op.key) call'.op).1 := kvResult_relativeTo

/-- What is printed depends on the bindings alone, and on the address of the file. -/
theorem Stores.printed_perm [NeZero T] [NeZero T'] (S : Stores h m) (S' : Stores h' m')
    (hsame : ∀ key, (m key).map (relativeValue base) = (m' key).map (relativeValue base')) :
    (printedAt base h).Perm (printedAt base' h') := by
  have hinj (base : BitVec 64) : Function.Injective fun entry : BitVec 64 × BitVec 32 × BitVec 64 =>
      (entry.1, relativeValue base entry.2) := fun e e' heq =>
    Prod.ext (Prod.mk.inj heq).1 (relativeValue_injective (Prod.mk.inj heq).2)
  have hmem {T : Nat} [NeZero T] {h : HashTable T} {m : KvMap} {base : BitVec 64} (S : Stores h m)
      (key : BitVec 64) (w : BitVec 32 × BitVec 64) :
      (key, w) ∈ printedAt base h ↔ (m key).map (relativeValue base) = some w := by
    rw [printedAt, List.mem_map, Option.map_eq_some_iff]
    constructor
    · rintro ⟨⟨key, v⟩, hv, heq⟩
      obtain ⟨rfl, rfl⟩ := Prod.mk.inj heq
      exact ⟨v, S.mem_printed.1 hv, rfl⟩
    · rintro ⟨v, hv, rfl⟩
      exact ⟨(key, v), S.mem_printed.2 hv, rfl⟩
  refine (List.perm_ext_iff_of_nodup (S.printed_nodup.map (hinj base))
    (S'.printed_nodup.map (hinj base'))).2 fun ⟨key, w⟩ => ?_
  exact (hmem S key w).trans (hsame key ▸ (hmem S' key w).symm)

end

/-! ## Complete runs -/

section
variable [NeZero T] {s : System (HashTable T) (VisitPc T)}
  (hT : T < 2 ^ 32) (hids : file.Increasing) (hkeys : ∀ record ∈ file.records, record.key ≠ 0)
  (hputs : putCount file.records < T)
include hT hids hkeys hputs

/-- An operation that has returned is the operation of a record. -/
theorem ProcessRun.results_match
    (run : ProcessRun file (tableWork T) threads initHashtable events s) :
    ∀ result ∈ results events, ∃ record ∈ file.records, record.Matches result.1 := by
  obtain ⟨ops, htrace⟩ := run
  refine (htrace.history (I := fun events s =>
    ProcessRun file (tableWork T) threads initHashtable events s ∧
      ∀ result ∈ results events, ∃ record ∈ file.records, record.Matches result.1)
    ⟨⟨ops, .nil⟩, nofun⟩ ?_).2
  rintro events s _ _ ⟨run, hmatch⟩ ⟨hstep⟩
  refine ⟨run.snoc hstep, fun result hresult => ?_⟩
  rw [results_append, List.mem_append] at hresult
  rcases hresult with hresult | hresult
  · exact hmatch result hresult
  cases TableCase.of_step hstep with
  | idle _ hnone => exact absurd (hnone ▸ hresult) List.not_mem_nil
  | enter | visit => exact absurd hresult List.not_mem_nil
  | finish hpc =>
    rw [results_result, List.mem_singleton] at hresult
    obtain ⟨done, m, P⟩ := run.parallelInv hT hids hkeys hputs
    obtain ⟨record, hrecord, hmatch, -⟩ :=
      P.linearised.matching _ _ _ (Process.opPc_eq_some.2 ⟨hpc, rfl⟩)
    exact ⟨record, hrecord, hresult ▸ hmatch⟩

end

/-! ## Two runs on the same records -/

/-- The type of the record with this id. -/
def OpFile.typeOf (file : OpFile) (id : BitVec 64) : OpType :=
  ((file.records.find? (·.id = id)).map (·.opType)).getD .put

theorem OpFile.Increasing.typeOf_eq (hids : file.Increasing) {record : Operation}
    (hrecord : record ∈ file.records) : file.typeOf record.id = record.opType := by
  cases hfind : file.records.find? (·.id = record.id) with
  | none => exact (List.find?_eq_none.1 hfind record hrecord (by simp)).elim
  | some found =>
    have hid : found.id = record.id := by simpa using List.find?_some hfind
    rw [OpFile.typeOf, hfind,
      List.inj_on_of_nodup_map hids.nodup (List.mem_of_find?_eq_some hfind) hrecord hid]
    rfl

/-- The line of an answer. -/
def OpFile.lineOf (file : OpFile) (line : BitVec 64 × Int) : List UInt8 :=
  outputLine ⟨line.1, 0, file.typeOf line.1, 0, 0⟩ line.2

theorem OpFile.lineOf_eq {file' : OpFile} {base base' : BitVec 64}
    (hsame : file.records.map (Operation.relativeTo base) =
      file'.records.map (Operation.relativeTo base')) : file.lineOf = file'.lineOf := by
  have htype (file : OpFile) (base id : BitVec 64) : file.typeOf id =
      (((file.records.map (Operation.relativeTo base)).find? (·.id = id)).map (·.opType)).getD
        .put := by
    rw [List.find?_map, Option.map_map]
    rfl
  funext line
  rw [OpFile.lineOf, OpFile.lineOf, htype file base, htype file' base', hsame]

theorem map_outputLine (hids : file.Increasing)
    (hmatch : ∀ result ∈ results events, ∃ record ∈ file.records, record.Matches result.1) :
    (results events).map (fun result => outputLine result.1 result.2) =
      ((results events).map fun result => result.1.answer result.2).map
        fun answer => file.lineOf (answer.1, answer.2.1) := by
  rw [List.map_map]
  refine List.map_congr_left fun result hresult => ?_
  obtain ⟨record, hrecord, hmatch⟩ := hmatch result hresult
  have htype : file.typeOf result.1.id = result.1.opType := by
    rw [hmatch.id_eq, hmatch.type_eq, hids.typeOf_eq hrecord]
  simp only [Function.comp, OpFile.lineOf, Operation.answer, outputLine, htype]

section
variable [NeZero T] [NeZero T'] {s : System (HashTable T) (VisitPc T)}
  {s' : System (HashTable T') (VisitPc T')}

/-- Two complete runs, on records that differ in the address of the file alone, write the same lines
and print the same bindings, in some order. -/
theorem ProcessRun.same_outputs {file' : OpFile} {base base' : BitVec 64} (hids : file.Increasing)
    (hkeys : ∀ record ∈ file.records, record.key ≠ 0) (hfile : file.spoilt = false)
    (hT : T < 2 ^ 32) (hputs : putCount file.records < T) (hthreads : threads.Nonempty)
    (run : ProcessRun file (tableWork T) threads initHashtable events s)
    (hexited : ∀ t ∈ threads, (s.pc t).pc = .exited) (hids' : file'.Increasing)
    (hkeys' : ∀ record ∈ file'.records, record.key ≠ 0) (hfile' : file'.spoilt = false)
    (hT' : T' < 2 ^ 32) (hputs' : putCount file'.records < T') (hthreads' : threads'.Nonempty)
    (run' : ProcessRun file' (tableWork T') threads' initHashtable events' s')
    (hexited' : ∀ t ∈ threads', (s'.pc t).pc = .exited)
    (hsame : file.records.map (Operation.relativeTo base) =
      file'.records.map (Operation.relativeTo base')) :
    (allOut events).Perm (allOut events') ∧
      (printedAt base s.shared.mem).Perm (printedAt base' s'.shared.mem) ∧
      dumpHashTable s.shared.mem = 0 := by
  obtain ⟨calls, m, hserial, hcalls⟩ := exists_kvTrace (fun _ => none) file.records
  obtain ⟨calls', m', hserial', hcalls'⟩ := exists_kvTrace (fun _ => none) file'.records
  obtain ⟨hperm, S, hused⟩ :=
    run.complete hT hids hkeys hputs hfile hthreads hexited hserial hcalls
  obtain ⟨hperm', S', -⟩ :=
    run'.complete hT' hids' hkeys' hputs' hfile' hthreads' hexited' hserial' hcalls'
  rw [← hcalls, ← hcalls'] at hsame
  refine ⟨allOut_perm.trans (.trans ?_ allOut_perm.symm),
    S.printed_perm S' (hserial.kv_relative hserial' hsame),
    dumpHashTable_eq_zero (hused.trans S.stored_eq_ncard.symm)⟩
  have hlines := hserial.kv_lines hserial' hsame
  rw [hcalls, hcalls'] at hsame
  rw [map_outputLine hids (run.results_match hT hids hkeys hputs),
    map_outputLine hids' (run'.results_match hT' hids' hkeys' hputs')]
  refine ((hperm.map _).trans ?_).trans (hperm'.map _).symm
  refine .of_eq ?_
  have hline := congrArg (List.map file.lineOf) hlines
  rw [List.map_map, List.map_map] at hline
  rw [List.map_map, List.map_map, ← OpFile.lineOf_eq hsame]
  exact hline

end

/-! ## Generated files -/

section
variable {map : Mapping} {recs : List Record} {r : Record} {g : InputGen} {draws : Nat → Draw}
  {totalops : BitVec 64} {maxUnique : BitVec 32}

theorem recordAt_fields {curr : Nat} (h : StoredAt map.mem curr r.encode) :
    (recordAt map curr r.opType).id = r.id ∧ (recordAt map curr r.opType).key = r.key := by
  cases r with
  | put _ _ data =>
    obtain ⟨hid, hkey, -⟩ := storedAt_createGetDel (storedAt_createPut data.2 h).1
    exact ⟨hid, hkey⟩
  | get | del =>
    obtain ⟨hid, hkey, -⟩ := storedAt_createGetDel h
    exact ⟨hid, hkey⟩

theorem recordAt_datalen {curr : Nat} (h : StoredAt map.mem curr r.encode) (hput : r.opType = .put) :
    (recordAt map curr r.opType).datalen.toNat = (r.encode.length - 24) := by
  cases r with
  | put id key data =>
    rw [show (Record.put id key data).opType = .put from rfl, (storedAt_createPut data.2 h).2.1]
    simp [Record.encode, createPut]
    omega
  | get | del => cases hput

/-- Two mappings of one file have the same records, up to the address. -/
theorem opFile_relativeTo {map' : Mapping} (hmap : map.HoldsRecords recs)
    (hmap' : map'.HoldsRecords recs) :
    (map.opFile recs).records.map (Operation.relativeTo (BitVec.ofNat 64 map.buff)) =
      (map'.opFile recs).records.map (Operation.relativeTo (BitVec.ofNat 64 map'.buff)) := by
  have hplace (map : Mapping) (k : Nat) (t : OpType) :
      (recordAt map (offset map recs k) t).data - BitVec.ofNat 64 map.buff =
        BitVec.ofNat 64 (((recs.take k).flatMap Record.encode).length + 24) := by
    change BitVec.ofNat 64 (map.buff + _ + 24) - _ = _
    rw [Nat.add_assoc, BitVec.ofNat_add, BitVec.add_comm, BitVec.add_sub_cancel]
  refine List.ext_getElem (by simp [Mapping.opFile]) fun k hk hk' => ?_
  have hlt : k < recs.length := by simpa [Mapping.opFile] using hk
  have hstored := storedAt_offset hmap (List.getElem?_eq_getElem hlt)
  have hstored' := storedAt_offset hmap' (List.getElem?_eq_getElem hlt)
  obtain ⟨hid, hkey⟩ := recordAt_fields hstored
  obtain ⟨hid', hkey'⟩ := recordAt_fields hstored'
  have hdatalen : (if recs[k].opType = .put then
        (recordAt map (offset map recs k) recs[k].opType).datalen else 0) =
      if recs[k].opType = .put then
        (recordAt map' (offset map' recs k) recs[k].opType).datalen else 0 := by
    split
    next hput =>
      exact BitVec.eq_of_toNat_eq ((recordAt_datalen hstored hput).trans
        (recordAt_datalen hstored' hput).symm)
    next => rfl
  simp only [Mapping.opFile, List.getElem_map, List.getElem_mapIdx, Operation.relativeTo, hplace,
    hid, hid', hkey, hkey']
  congr 1

/-- The threads see the records that the file holds. -/
theorem opFile_records (hmap : map.HoldsRecords recs) :
    (map.opFile recs).records.map (fun op => (op.id, op.key, op.opType)) =
      recs.map fun r => (r.id, r.key, r.opType) := by
  refine List.ext_getElem (by simp [Mapping.opFile]) fun k hk hk' => ?_
  have hlt : k < recs.length := by simpa using hk'
  obtain ⟨hid, hkey⟩ := recordAt_fields (storedAt_offset hmap (List.getElem?_eq_getElem hlt))
  have htype : (recordAt map (offset map recs k) recs[k].opType).opType = recs[k].opType := rfl
  simp [Mapping.opFile, hid, hkey, htype]

theorem length_le_bin : recs.length ≤ (recs.flatMap Record.encode).length := by
  induction recs with
  | nil => rfl
  | cons r recs ih =>
    have hpos : 0 < r.encode.length := by
      rw [Record.encode_eq]
      simp
    rw [List.flatMap_cons, List.length_append, List.length_cons]
    omega

/-- The ids of a file that fits into the memory increase. -/
theorem InputGen.Wrote.increasing (h : g.Wrote draws recs) (hmap : map.HoldsRecords recs) :
    (map.opFile recs).Increasing := by
  have hlength : recs.length < 2 ^ 63 := by
    have hsize : recs.length ≤ map.size := hmap.1 ▸ length_le_bin
    have hend := map.end_lt
    omega
  have hids : (map.opFile recs).records.map (·.id) =
      (List.range recs.length).map fun k => BitVec.ofNat 64 (k + 1) := by
    have hfst := congrArg (List.map Prod.fst) (opFile_records hmap)
    rw [List.map_map, List.map_map] at hfst
    exact hfst.trans h.ids
  have hpairwise : ((map.opFile recs).records.map (·.id)).Pairwise (· < ·) := by
    rw [hids, List.pairwise_map]
    refine List.pairwise_lt_range.imp_of_mem fun {i j} hi hj hlt => ?_
    rw [List.mem_range] at hi hj
    rw [BitVec.lt_def, BitVec.toNat_ofNat, BitVec.toNat_ofNat, Nat.mod_eq_of_lt (by omega),
      Nat.mod_eq_of_lt (by omega)]
    omega
  exact List.pairwise_map.1 hpairwise

theorem putCount_opFile (hmap : map.HoldsRecords recs) :
    putCount (map.opFile recs).records = (putKeys recs).length := by
  have htypes := congrArg (List.countP fun triple => triple.2.2 = .put) (opFile_records hmap)
  rw [List.countP_map, List.countP_map] at htypes
  rw [putCount, putKeys, List.length_map, ← List.countP_eq_length_filter]
  exact htypes

/-- What the program needs of the records. -/
theorem InputGen.Wrote.wellFormed (h : g.Wrote draws recs) (hkeys : ∀ i, (draws i).key ≠ 0)
    (hmap : map.HoldsRecords recs) : (map.opFile recs).Increasing ∧
      ∀ record ∈ (map.opFile recs).records, record.key ≠ 0 := by
  refine ⟨h.increasing hmap, fun record hrecord => ?_⟩
  have hmem : (record.id, record.key, record.opType) ∈
      recs.map fun r => (r.id, r.key, r.opType) :=
    opFile_records hmap ▸ List.mem_map_of_mem hrecord
  obtain ⟨r, hr, heq⟩ := List.mem_map.1 hmem
  obtain ⟨i, hi⟩ := h.drawn hr
  rw [← (Prod.mk.inj (Prod.mk.inj heq).2).1, hi]
  exact hkeys i

/-- When all threads have ended, all that they have copied was mapped. -/
theorem MappedInv.fits {s : MappedSystem (HashTable T) (VisitPc T)} (I : MappedInv map recs s)
    (hexited : ∀ t ∈ threads, (s.sys.pc t).pc = .exited) :
    map.endptr + 24 * threads.card ≤ map.pagesEnd := by
  have hcard : threads.card ≤ s.sys.exited.card :=
    Finset.card_le_card fun t ht => System.mem_exited.2 (hexited t ht)
  have hroom := I.room
  omega

/-- One key, and texts of 8 characters. -/
def samePuts : Nat → Draw := fun _ => ⟨0, 0, 1, 0, fun _ => 0⟩

theorem length_bin_samePuts {n : Nat} (h : mandatoryPuts 101 samePuts n = .ok g) :
    g.bin.length = 32 * n := by
  induction n generalizing g with
  | zero =>
    cases h
    rfl
  | succ n ih =>
    rw [mandatoryPuts_succ] at h
    cases hputs : mandatoryPuts 101 samePuts n with
    | error e =>
      rw [hputs] at h
      cases h
    | ok g' =>
      rw [hputs] at h
      change g'.mandatoryPut 101 (samePuts n) = .ok g at h
      have hlen := ih hputs
      simp only [InputGen.mandatoryPut, InputGen.store] at h
      split at h
      next hlt =>
        obtain rfl := Except.ok.inj h
        simp [InputGen.put, createPut, generateRandText, samePuts, hlen]
        omega
      next => cases h

theorem exists_samePuts : ∃ g recs, inputgen 100 101 samePuts = .ok g ∧ g.Wrote samePuts recs ∧
    recs.length = 100 ∧ g.bin.length = 3200 := by
  have hspec := mandatoryPuts_spec 101 samePuts 100
  rw [if_pos (by decide)] at hspec
  obtain ⟨g, recs, hputs, hwrote, hlength, -⟩ := hspec
  refine ⟨g, recs, ?_, hwrote, hlength, length_bin_samePuts hputs⟩
  rw [inputgen_eq, show MANDATORY_PUTS = 100 from rfl, hputs]
  rfl

end

end CS330
