import CS330.HashTable.FiniteMap
import CS330.HashTable.Linearise
import CS330.Process.Reports
import CS330.Process.Termination

/-! # The parallel run and the serial one

The work of the threads is an operation on the hash table, one visit of a slot at a time. For each
key the operations take effect in the order of the file (`ParallelInv`), so they give the answers of
the serial execution on a finite map. -/

namespace CS330

variable {T : Nat} [NeZero T] {h h' : HashTable T} {m m' : KvMap} {file : OpFile}
  {s : System (HashTable T) (VisitPc T)} {t : Fin THREADS} {shared : Shared (HashTable T)}
  {p : Process (VisitPc T)} {event : ProcessEvent} {threads : Finset (Fin THREADS)}
  {events : List (Fin THREADS × ProcessEvent)} {done : List HashCall}

/-- An operation on the table. -/
def tableWork (T : Nat) [NeZero T] : Work (HashTable T) (VisitPc T) where
  start := .call
  step before after := visit before.1 before.2.1 before.2.2 = some after
  returned
    | .returned ret => some ret
    | _ => none
  keeps hv := ⟨(same_record_of_visit hv).1, (same_record_of_visit hv).2.1⟩

/-- A bound on the steps that an operation still takes. -/
def opRank (op : Operation) (pc : VisitPc T) : Nat := pc.rank op.key

/-- The operation that a thread has in progress. -/
def Process.opPc (p : Process (VisitPc T)) : OpPc T :=
  match p.pc with
  | .work pc => some (p.op, pc)
  | _ => none

/-- The table and the operations in progress. -/
def System.table (s : System (HashTable T) (VisitPc T)) : TableSystem (Fin THREADS) T :=
  ⟨s.shared.mem, fun t => (s.pc t).opPc⟩

omit [NeZero T] in
theorem System.table_update : System.table ⟨shared, Function.update s.pc t p⟩ =
    ⟨shared.mem, Function.update s.table.pc t p.opPc⟩ := by
  rw [table]
  congr 1
  funext c
  by_cases hc : c = t
  · subst hc
    simp
  · simp [hc, table]

omit [NeZero T] in
theorem Process.opPc_eq_some {op : Operation} {pc : VisitPc T} :
    p.opPc = some (op, pc) ↔ p.pc = .work pc ∧ p.op = op := by
  rw [opPc]
  split
  next pc' hpc => simp [hpc, and_comm]
  next hpc =>
    refine ⟨nofun, fun ⟨hwork, _⟩ => (hpc pc hwork).elim⟩

omit [NeZero T] in
/-- No two threads have operations on one key in progress. -/
theorem InputInv.onePerKey (I : InputInv s) (O : TicketBoard.Orderly (s.tickets file events)) :
    s.table.OnePerKey := by
  intro t t' op op' pc pc' ht ht' hkey
  obtain ⟨hpc, rfl⟩ := Process.opPc_eq_some.1 ht
  obtain ⟨hpc', rfl⟩ := Process.opPc_eq_some.1 ht'
  exact I.inside_unique O (by rw [hpc]; rfl) (by rw [hpc']; rfl) hkey

/-- What a step of a thread is for the table. -/
inductive TableCase (s : System (HashTable T) (VisitPc T)) (t : Fin THREADS)
    (shared : Shared (HashTable T)) (p : Process (VisitPc T)) : ProcessEvent → Prop where
  | idle {event : ProcessEvent} (hentered : entered [(t, event)] = [])
    (hresults : results [(t, event)] = []) (hmem : shared.mem = s.shared.mem)
    (hp : p.opPc = (s.pc t).opPc) : TableCase s t shared p event
  | enter {i : Nat} (hscan : (s.pc t).pc = .scan i) (hmem : shared.mem = s.shared.mem)
    (hp : p.opPc = some ((s.pc t).op, .call)) : TableCase s t shared p (.enter (s.pc t).op)
  | visit {pc pc' : VisitPc T} (hpc : (s.pc t).pc = .work pc) (hp : p.pc = .work pc')
    (hvisit : visit s.shared.mem (s.pc t).op pc = some (shared.mem, p.op, pc')) :
    TableCase s t shared p .silent
  | finish {ret : Int} (hpc : (s.pc t).pc = .work (.returned ret))
    (hmem : shared.mem = s.shared.mem) (hp : p.opPc = none) :
    TableCase s t shared p (.result (s.pc t).op ret)

theorem TableCase.of_step (hstep : ProcessStep file (tableWork T) s t event (shared, p)) :
    TableCase s t shared p event := by
  cases hstep with
  | enter hpc => exact .enter hpc rfl rfl
  | work hpc hwork => exact .visit hpc rfl hwork
  | @finish pc ret hpc hret =>
    cases pc with
    | returned ret' =>
      cases hret
      exact .finish hpc rfl rfl
    | _ => cases hret
  | spurious => exact .idle rfl rfl rfl rfl
  | readOp hpc | read hpc | eof hpc | abort hpc | wait hpc | next hpc | wake hpc | doneOne hpc
  | broadcast hpc | clear hpc | unlock hpc =>
    exact .idle rfl rfl rfl (by simp [Process.opPc, hpc])

/-! ## The invariant -/

/-- The thread has read its record and has not begun its operation. -/
def ProcessPc.waiting {ω : Type*} : ProcessPc ω → Bool
  | scan _ | wait => true
  | _ => false

/-- The number of `PUT` records. -/
def putCount (ops : List Operation) : Nat := ops.countP (·.opType = .put)

/-- The operations in progress have taken effect as the calls `done`, and the threads have what
they read from the file. -/
structure ParallelInv (file : OpFile) (events : List (Fin THREADS × ProcessEvent))
    (s : System (HashTable T) (VisitPc T)) (done : List HashCall) (m : KvMap) : Prop where
  linearised : Linearised file.records (entered events) (results events) s.table done m
  counted : Counted (putCount (entered events)) s.table
  waiting : ∀ t, (s.pc t).pc.waiting = true →
    ∃ record ∈ file.records, record.Matches (s.pc t).op
  entered : ∀ op ∈ CS330.entered events, ∃ record ∈ file.records, record.Matches op

theorem Operation.matches_read {op record : Operation} : record.Matches (op.read record) where
  id_eq := rfl
  key_eq := rfl
  type_eq := rfl
  put_eq hop := by rw [read, if_pos hop]

/-- Records and operations with the same ticket. -/
theorem Operation.Matches.ticket_eq {op record : Operation} (hm : record.Matches op) :
    op.ticket = record.ticket := by
  rw [ticket, ticket, hm.key_eq, hm.id_eq]

/-- The records have different tickets. -/
theorem OpFile.Increasing.nodup (hids : file.Increasing) :
    (file.records.map (·.id)).Nodup := by
  refine List.Pairwise.imp ?_ (List.pairwise_map.2 hids)
  rintro id id' hlt rfl
  exact BitVec.lt_irrefl id hlt

/-- No more insertions enter than the file has. -/
theorem putCount_le (hnodup : ((entered events).map Operation.ticket).Nodup)
    (hentered : ∀ op ∈ entered events, ∃ record ∈ file.records, record.Matches op) :
    putCount (entered events) ≤ putCount file.records := by
  let puts (ops : List Operation) := ops.filter (·.opType = .put)
  have hsubset : (puts (entered events)).map Operation.ticket ⊆
      (puts file.records).map Operation.ticket := by
    intro ticket hmem
    obtain ⟨op, hop, rfl⟩ := List.mem_map.1 hmem
    obtain ⟨hop, hput⟩ := List.mem_filter.1 hop
    obtain ⟨record, hrecord, hmatch⟩ := hentered op hop
    refine List.mem_map.2 ⟨record, List.mem_filter.2 ⟨hrecord, ?_⟩, hmatch.ticket_eq.symm⟩
    rwa [← hmatch.type_eq]
  have hle := (List.subperm_of_subset
    (hnodup.sublist (List.filter_sublist.map Operation.ticket)) hsubset).length_le
  rw [List.length_map, List.length_map] at hle
  rw [putCount, putCount, List.countP_eq_length_filter, List.countP_eq_length_filter]
  exact hle

namespace ParallelInv

theorem init {ops : Fin THREADS → Operation} :
    ParallelInv file [] (System.init threads initHashtable ops : System (HashTable T) (VisitPc T))
      [] fun _ => none := by
  have hpc (t : Fin THREADS) :
      ((System.init threads (initHashtable : HashTable T) ops : System _ (VisitPc T)).pc t).pc =
        .readOp ∨
      ((System.init threads (initHashtable : HashTable T) ops : System _ (VisitPc T)).pc t).pc =
        .absent := by
    simp only [System.init]
    split
    · exact .inl rfl
    · exact .inr rfl
  have htable : System.table (System.init threads (initHashtable : HashTable T) ops) =
      TableSystem.init := by
    rw [System.table, TableSystem.init]
    congr 1
    funext t
    rcases hpc t with hpc | hpc <;> rw [Process.opPc, hpc]
  constructor
  case linearised => exact htable ▸ .init
  case counted => exact htable ▸ .init
  case waiting =>
    intro t hwait
    rcases hpc t with hpc | hpc <;> rw [hpc] at hwait <;> cases hwait
  case entered => exact fun _ hop => absurd hop List.not_mem_nil

/-- What is known of the table when fewer insertions have entered than there are slots. -/
theorem facts (P : ParallelInv file events s done m) (hone : s.table.OnePerKey)
    (hn : putCount (CS330.entered events) < T) :
    (∃ i, ¬s.shared.mem.Taken i) ∧ s.shared.mem.usedWord.toNat < T ∧
      ∀ t op pc, s.table.pc t = some (op, pc) → pc.subs ≤ s.shared.mem.usedWord.toNat := by
  refine P.counted.facts hn hone fun t op hpc => ⟨?_, P.linearised.stored t op hpc⟩
  obtain ⟨record, -, hmatch, hkey⟩ := P.linearised.matching t op _ hpc
  exact hmatch.key_eq ▸ hkey

/-- What a thread has read stays as it is until its operation begins. -/
theorem waiting_step (P : ParallelInv file events s done m)
    (hstep : ProcessStep file (tableWork T) s t event (shared, p)) :
    ∀ c, (Function.update s.pc t p c).pc.waiting = true →
      ∃ record ∈ file.records, record.Matches (Function.update s.pc t p c).op := by
  intro c hc
  by_cases hct : c = t
  · subst hct
    rw [Function.update_self] at hc ⊢
    have hold := P.waiting c
    cases hstep with
    | read _ hrecord => exact ⟨_, List.mem_of_getElem? hrecord, Operation.matches_read⟩
    | wait hpc | next hpc | wake hpc =>
      rw [hpc] at hold
      exact hold rfl
    | spurious => exact hold hc
    | _ => cases hc
  · rw [Function.update_of_ne hct] at hc ⊢
    exact P.waiting c hc

theorem step (P : ParallelInv file events s done m) (hT : T < 2 ^ 32)
    (hkeys : ∀ record ∈ file.records, record.key ≠ 0)
    (hn : putCount (CS330.entered events) < T) (hone : s.table.OnePerKey)
    (hone' : (System.table ⟨shared, Function.update s.pc t p⟩).OnePerKey)
    (hstep : ProcessStep file (tableWork T) s t event (shared, p)) :
    ∃ done' m', ParallelInv file (events ++ [(t, event)]) ⟨shared, Function.update s.pc t p⟩ done'
      m' := by
  obtain ⟨hfree, hused, hsubs⟩ := P.facts hone hn
  have hcase := TableCase.of_step hstep
  have hwaiting := P.waiting_step hstep
  rw [System.table_update] at hone'
  cases hcase with
  | idle hentered hresults hmem hp =>
    have htable : System.table ⟨shared, Function.update s.pc t p⟩ = s.table := by
      rw [System.table_update, hmem, hp]
      exact congrArg (Threads.mk _) (Function.update_eq_self ..)
    refine ⟨done, m, ?_, ?_, hwaiting, ?_⟩
    · rw [htable, entered_append, results_append, hentered, hresults, List.append_nil,
        List.append_nil]
      exact P.linearised
    · rw [htable, entered_append, hentered, List.append_nil]
      exact P.counted
    · rw [entered_append, hentered, List.append_nil]
      exact P.entered
  | enter hscan hmem hp =>
    obtain ⟨record, hrecord, hmatch⟩ := P.waiting t (by rw [hscan]; rfl)
    have hpc : s.table.pc t = none := by simp [System.table, Process.opPc, hscan]
    have hresults : results [(t, .enter (s.pc t).op)] = [] := rfl
    rw [hmem, hp] at hone'
    refine ⟨done, m, ?_, ?_, hwaiting, ?_⟩
    · rw [System.table_update, hmem, hp, entered_append, results_append, hresults, List.append_nil]
      refine P.linearised.begin hpc ⟨record, hrecord, hmatch, hkeys record hrecord⟩ ?_
      intro t' op' pc' ht' hkey
      have hne : t' ≠ t := by
        rintro rfl
        cases hpc.symm.trans ht'
      refine hne (hone' t' t op' (s.pc t).op pc' .call ?_ (Function.update_self ..) hkey)
      exact (Function.update_of_ne hne ..).trans ht'
    · have hcount : putCount (CS330.entered (events ++ [(t, .enter (s.pc t).op)])) =
          putCount (CS330.entered events) + if (s.pc t).op.opType = .put then 1 else 0 := by
        simp [putCount]
      rw [System.table_update, hmem, hp, hcount]
      exact P.counted.begin hpc
    · intro op hop
      rw [entered_append, List.mem_append] at hop
      rcases hop with hop | hop
      · exact P.entered op hop
      · rw [List.mem_singleton.1 hop]
        exact ⟨record, hrecord, hmatch⟩
  | @visit pc pc' hpc hp hvisit =>
    have hevent : CS330.entered (events ++ [(t, .silent)]) = CS330.entered events ∧
        results (events ++ [(t, .silent)]) = results events := by simp [CS330.entered, results]
    have hpc₀ : s.table.pc t = some ((s.pc t).op, pc) := Process.opPc_eq_some.2 ⟨hpc, rfl⟩
    have hp₀ : p.opPc = some (p.op, pc') := Process.opPc_eq_some.2 ⟨hp, rfl⟩
    obtain ⟨record, -, hmatch, hrkey⟩ := P.linearised.matching t _ _ hpc₀
    have hkey : (s.pc t).op.key ≠ 0 := hmatch.key_eq ▸ hrkey
    obtain ⟨done', m', L'⟩ := P.linearised.visit hT hfree hone hpc₀ hvisit
    refine ⟨done', m', ?_, ?_, hwaiting, ?_⟩
    · rw [System.table_update, hp₀, hevent.1, hevent.2]
      exact L'
    · rw [System.table_update, hp₀, hevent.1]
      refine P.counted.visit hpc₀ ?_ hkey (same_record_of_visit hvisit).2.2 ?_ (hsubs t _ _ hpc₀)
      · exact .of_visit (P.linearised.knows t _ _ hpc₀) hT hfree hvisit
      · change s.shared.mem.usedWord.toNat + 1 < 2 ^ 64
        omega
    · rw [hevent.1]
      exact P.entered
  | @finish ret hpc hmem hp =>
    have hentered : CS330.entered (events ++ [(t, .result (s.pc t).op ret)]) =
        CS330.entered events := by simp [CS330.entered]
    have hpc₀ : s.table.pc t = some ((s.pc t).op, .returned ret) :=
      Process.opPc_eq_some.2 ⟨hpc, rfl⟩
    refine ⟨done, m, ?_, ?_, hwaiting, ?_⟩
    · rw [System.table_update, hmem, hp, hentered, results_append]
      exact P.linearised.finish hpc₀
    · rw [System.table_update, hmem, hp, hentered]
      exact P.counted.finish hpc₀
    · rw [hentered]
      exact P.entered

/-- The calls on each key that have taken effect are the first records with that key. -/
theorem ops_initial (P : ParallelInv file events s done m)
    (O : TicketBoard.Orderly (s.tickets file events)) (hids : file.Increasing) (key : BitVec 64) :
    opsOn key (done.map (·.op)) <+: opsOn key file.records := by
  refine initial_of_ids hids.nodup (fun op hop => ?_) (fun _ => List.mem_of_mem_filter) ?_
  · obtain ⟨call, hcall, rfl⟩ := List.mem_map.1 (List.mem_of_mem_filter hop)
    exact P.linearised.mem_records call hcall
  · exact (P.linearised.initial_began key).trans (entered_initial O key)

omit [NeZero T] in
theorem table_eq_none {c : Fin THREADS} (hfinished : (s.pc c).pc.finished = true) :
    s.table.pc c = none := by
  revert hfinished
  simp only [System.table, Process.opPc]
  cases (s.pc c).pc with
  | work => nofun
  | _ => exact fun _ => rfl

/-- At the end all records have taken effect. -/
theorem ops_eq (P : ParallelInv file events s done m) (I : InputInv s)
    (O : TicketBoard.Orderly (s.tickets file events)) (E : Ended file threads s)
    (hids : file.Increasing) (hfile : file.spoilt = false) (hthreads : threads.Nonempty)
    (hfinished : ∀ t, (s.pc t).pc.finished = true) (key : BitVec 64) :
    opsOn key (done.map (·.op)) = opsOn key file.records := by
  refine (P.ops_initial O hids key).eq_of_length ?_
  have hsettled := P.linearised.settled key fun t op pc hpc =>
    nomatch (table_eq_none (hfinished t)).symm.trans hpc
  have hentered := entered_of_finished I O E hfile hthreads hfinished key
  have hlength := congrArg List.length (hsettled.symm.trans hentered)
  simpa [idsOn, opsOn] using hlength

/-- As long as a thread has not finished, some thread takes a step. -/
theorem canStep (P : ParallelInv file events s done m) (I : InputInv s) (hT : T < 2 ^ 32)
    (hn : putCount (CS330.entered events) < T) (hone : s.table.OnePerKey)
    (hunfinished : (s.pc t).pc.finished = false) : CanStep file (tableWork T) s := by
  rcases I.progress hunfinished with ⟨c, pc, hpc⟩ | hcan
  · have hpc₀ : s.table.pc c = some ((s.pc c).op, pc) := Process.opPc_eq_some.2 ⟨hpc, rfl⟩
    obtain ⟨-, hused, -⟩ := P.facts hone hn
    have hI : s.shared.mem.Intact := hused.trans hT
    have hput : (s.pc c).op.opType = .put → s.shared.mem.used < T ∧ (s.pc c).op.key ≠ 0 := by
      obtain ⟨record, -, hmatch, hkey⟩ := P.linearised.matching c _ _ hpc₀
      refine fun _ => ⟨lt_of_le_of_lt ?_ hused, hmatch.key_eq ▸ hkey⟩
      rw [HashTable.used, BitVec.toNat_setWidth]
      exact Nat.mod_le ..
    have hvisit : (∃ ret, pc = .returned ret) ∨
        ∃ after, visit s.shared.mem (s.pc c).op pc = some after := exists_visit hI hput
    rcases hvisit with ⟨ret, rfl⟩ | ⟨⟨h', op', pc'⟩, hvisit⟩
    · exact ⟨c, _, _, _, .finish hpc rfl, by simp⟩
    · exact ⟨c, _, _, _, .work hpc hvisit, by simp⟩
  · exact hcan

/-- At the end the counter is the number of keys. -/
theorem used_eq (P : ParallelInv file events s done m) (hT : T < 2 ^ 32)
    (hn : putCount (CS330.entered events) < T) (hone : s.table.OnePerKey)
    (hfinished : ∀ t, (s.pc t).pc.finished = true) :
    s.shared.mem.used = {key | m key ≠ none}.ncard := by
  obtain ⟨-, hused, -⟩ := P.facts hone hn
  have hexact : s.shared.mem.usedWord.toNat = s.shared.mem.stored :=
    P.counted.exact_of_none fun t => table_eq_none (hfinished t)
  have hstored : s.shared.mem.stored = _ := P.linearised.stores.stored_eq_ncard
  rw [HashTable.used, BitVec.toNat_setWidth, Nat.mod_eq_of_lt (hused.trans hT), hexact, hstored]

/-- The answers that were given are those of the serial execution. -/
theorem answers (P : ParallelInv file events s done m)
    (O : TicketBoard.Orderly (s.tickets file events)) (hids : file.Increasing)
    {calls : List HashCall} (hserial : Trace KvStep (fun _ => none) calls m')
    (hcalls : calls.map (·.op) = file.records) :
    (results events).map (fun result => result.1.answer result.2) ⊆ calls.map HashCall.answer := by
  intro answer hmem
  obtain ⟨result, hresult, rfl⟩ := List.mem_map.1 hmem
  obtain ⟨call, hcall, heq⟩ := List.mem_map.1 (P.linearised.returned result hresult)
  rw [← heq]
  refine P.linearised.trace.kv_answers hserial (fun key => ?_) call hcall
  rw [hcalls]
  exact P.ops_initial O hids key

/-- No record is reported twice. -/
theorem results_nodup (P : ParallelInv file events s done m) (R : Reported events s)
    (hids : file.Increasing) : ((results events).map fun result => result.1.id).Nodup := by
  have hrecord {ticket} (hmem : ticket ∈ reportedTickets events) :
      ∃ record ∈ file.records, record.ticket = ticket := by
    obtain ⟨op, hop, rfl⟩ := List.mem_map.1 (R.entered ticket hmem)
    obtain ⟨record, hrecord, hmatch⟩ := P.entered op hop
    exact ⟨record, hrecord, hmatch.ticket_eq.symm⟩
  have hinj : ∀ ticket ∈ reportedTickets events, ∀ ticket' ∈ reportedTickets events,
      ticket.2 = ticket'.2 → ticket = ticket' := by
    intro ticket hmem ticket' hmem' heq
    obtain ⟨record, hrecord₁, rfl⟩ := hrecord hmem
    obtain ⟨record', hrecord₂, rfl⟩ := hrecord hmem'
    rw [List.inj_on_of_nodup_map hids.nodup hrecord₁ hrecord₂ (BitVec.eq_of_toNat_eq heq)]
  have hnodup := R.nodup.map_on hinj
  rw [reportedTickets, List.map_map] at hnodup
  refine List.Nodup.of_map BitVec.toNat ?_
  rwa [List.map_map]

omit [NeZero T] in
/-- At the end every record was reported. -/
theorem length_le_results (I : InputInv s) (O : TicketBoard.Orderly (s.tickets file events))
    (R : Reported events s) (E : Ended file threads s) (hids : file.Increasing)
    (hfile : file.spoilt = false) (hthreads : threads.Nonempty)
    (hfinished : ∀ t, (s.pc t).pc.finished = true) :
    file.records.length ≤ (results events).length := by
  have hsubset : file.records.map Operation.ticket ⊆ reportedTickets events := by
    intro ticket hmem
    obtain ⟨record, hrecord, rfl⟩ := List.mem_map.1 hmem
    have hid : record.id ∈ ((CS330.entered events).filter (·.key = record.key)).map (·.id) := by
      rw [entered_of_finished I O E hfile hthreads hfinished]
      exact List.mem_map_of_mem (List.mem_filter.2 ⟨hrecord, by simp⟩)
    obtain ⟨op, hop, hid⟩ := List.mem_map.1 hid
    obtain ⟨hop, hkey⟩ := List.mem_filter.1 hop
    have hticket : op.ticket = record.ticket := by
      rw [Operation.ticket, Operation.ticket, hid, of_decide_eq_true hkey]
    rw [← hticket]
    refine (R.cases _ (List.mem_map_of_mem hop)).resolve_right ?_
    rintro ⟨c, ⟨pc, hpc⟩, -⟩
    have hdone := hfinished c
    rw [hpc] at hdone
    cases hdone
  have hnodup : (file.records.map Operation.ticket).Nodup := by
    refine List.Nodup.of_map Prod.snd ?_
    have hnodup := hids.nodup.map (f := BitVec.toNat) fun _ _ => BitVec.eq_of_toNat_eq
    rw [List.map_map] at hnodup ⊢
    exact hnodup
  have hle := (List.subperm_of_subset hnodup hsubset).length_le
  rwa [List.length_map, reportedTickets, List.length_map] at hle

end ParallelInv

/-! ## Runs -/

section
variable (hT : T < 2 ^ 32) (hids : file.Increasing)
  (hkeys : ∀ record ∈ file.records, record.key ≠ 0) (hputs : putCount file.records < T)
include hT hids hkeys hputs

theorem ProcessRun.parallelInv
    (run : ProcessRun file (tableWork T) threads initHashtable events s) :
    ∃ done m, ParallelInv file events s done m := by
  obtain ⟨ops, htrace⟩ := run
  refine (htrace.history (I := fun events s =>
    ProcessRun file (tableWork T) threads initHashtable events s ∧
      ∃ done m, ParallelInv file events s done m) ⟨⟨ops, .nil⟩, _, _, .init⟩ ?_).2
  rintro events s _ _ ⟨run, done, m, P⟩ ⟨hstep⟩
  have run' := run.snoc hstep
  obtain ⟨I, O, R, -⟩ := run.facts hids
  obtain ⟨I', O', -⟩ := run'.facts hids
  have hn := (putCount_le R.entered_nodup P.entered).trans_lt hputs
  exact ⟨run', P.step hT hkeys hn (I.onePerKey O) (I'.onePerKey O') hstep⟩

/-- A run has no more steps than the records, the slots, the threads and its spurious wake-ups
allow. -/
theorem ProcessRun.length_le_of_table
    (run : ProcessRun file (tableWork T) threads initHashtable events s) :
    events.length ≤ (8 + THREADS * (THREADS + 2) + (T + 3) + THREADS) * file.records.length +
      THREADS * (THREADS + 4) + (THREADS + 3) * spuriousCount events := by
  have hstart (op : Operation) : opRank op (tableWork T).start ≤ T + 3 := VisitPc.rank_le
  refine run.length_le hstart ?_
  intro events s run t pc h' op' pc' hpc hvisit
  obtain ⟨done, m, P⟩ := run.parallelInv hT hids hkeys hputs
  obtain ⟨I, O, R, -⟩ := run.facts hids
  have hn := (putCount_le R.entered_nodup P.entered).trans_lt hputs
  obtain ⟨hfree, -, -⟩ := P.facts (I.onePerKey O) hn
  have hpc₀ : s.table.pc t = some ((s.pc t).op, pc) := Process.opPc_eq_some.2 ⟨hpc, rfl⟩
  have hlt := rank_visit (P.linearised.knows t _ _ hpc₀) hfree hvisit
  rwa [opRank, (same_record_of_visit hvisit).2.1]

/-- The operations that have returned have given the answers of the records carried out one by one,
each once. -/
theorem ProcessRun.subperm_answers
    (run : ProcessRun file (tableWork T) threads initHashtable events s) {calls : List HashCall}
    (hserial : Trace KvStep (fun _ => none) calls m) (hcalls : calls.map (·.op) = file.records) :
    List.Subperm ((results events).map fun result => result.1.answer result.2)
      (calls.map HashCall.answer) := by
  obtain ⟨done, m', P⟩ := run.parallelInv hT hids hkeys hputs
  obtain ⟨-, O, R, -⟩ := run.facts hids
  refine List.subperm_of_subset (List.Nodup.of_map Prod.fst ?_) (P.answers O hids hserial hcalls)
  rw [List.map_map]
  exact P.results_nodup R hids

/-- A run stops only when all threads have read the end of the file. -/
theorem ProcessRun.exited_of_stuck (hfile : file.spoilt = false)
    (run : ProcessRun file (tableWork T) threads initHashtable events s)
    (hstuck : ¬CanStep file (tableWork T) s) {t : Fin THREADS} (ht : t ∈ threads) :
    (s.pc t).pc = .exited := by
  obtain ⟨done, m', P⟩ := run.parallelInv hT hids hkeys hputs
  obtain ⟨I, O, R, E⟩ := run.facts hids
  have hn := (putCount_le R.entered_nodup P.entered).trans_lt hputs
  have hfinished : (s.pc t).pc.finished = true := by
    by_contra hnot
    exact hstuck (P.canStep I hT hn (I.onePerKey O) (Bool.not_eq_true _ ▸ hnot))
  cases hpc : (s.pc t).pc with
  | absent => exact (E.present t ht hpc).elim
  | exited => rfl
  | aborted => cases hfile.symm.trans (E.aborted t hpc)
  | _ =>
    rw [hpc] at hfinished
    cases hfinished

/-- When all threads have ended, every record has been answered, and the table stores the map that
the records lead to and counts its keys. -/
theorem ProcessRun.complete (hfile : file.spoilt = false) (hthreads : threads.Nonempty)
    (run : ProcessRun file (tableWork T) threads initHashtable events s)
    (hexited : ∀ t ∈ threads, (s.pc t).pc = .exited) {calls : List HashCall}
    (hserial : Trace KvStep (fun _ => none) calls m) (hcalls : calls.map (·.op) = file.records) :
    List.Perm ((results events).map fun result => result.1.answer result.2)
        (calls.map HashCall.answer) ∧
      Stores s.shared.mem m ∧ s.shared.mem.used = {key | m key ≠ none}.ncard := by
  have hsubperm := run.subperm_answers hT hids hkeys hputs hserial hcalls
  obtain ⟨done, m', P⟩ := run.parallelInv hT hids hkeys hputs
  obtain ⟨I, O, R, E⟩ := run.facts hids
  have hn := (putCount_le R.entered_nodup P.entered).trans_lt hputs
  have hfinished (t : Fin THREADS) : (s.pc t).pc.finished = true := by
    by_cases ht : t ∈ threads
    · rw [hexited t ht]
      rfl
    · rw [E.absent t ht]
      rfl
  obtain rfl : m' = m := P.linearised.trace.kv_final hserial fun key => by
    rw [hcalls]
    exact P.ops_eq I O E hids hfile hthreads hfinished key
  have hlength := ParallelInv.length_le_results I O R E hids hfile hthreads hfinished
  rw [← hcalls] at hlength
  exact ⟨hsubperm.perm_of_length_le (by simpa using hlength), P.linearised.stores,
    P.used_eq hT hn (I.onePerKey O) hfinished⟩

/-- A system whose runs are runs on the records, and that goes on whenever the records allow it, can
be brought to its end from every state. -/
theorem exists_complete {σ : Type*} (sys : σ → System (HashTable T) (VisitPc T))
    {Run : List (Fin THREADS × ProcessEvent) → σ → Prop} {x : σ} (hfile : file.spoilt = false)
    (hsim : ∀ {events x}, Run events x →
      ProcessRun file (tableWork T) threads initHashtable events (sys x))
    (hgo : ∀ {events x}, Run events x → CanStep file (tableWork T) (sys x) →
      ∃ t event x', Run (events ++ [(t, event)]) x' ∧ event ≠ .spurious) (run : Run events x) :
    ∃ more x', Run (events ++ more) x' ∧ ∀ t ∈ threads, ((sys x').pc t).pc = .exited := by
  generalize hleft : (8 + THREADS * (THREADS + 2) + (T + 3) + THREADS) * file.records.length +
    THREADS * (THREADS + 4) + (THREADS + 3) * spuriousCount events - events.length = left
  induction left using Nat.strong_induction_on generalizing events x with
  | _ left ih =>
    by_cases hcan : CanStep file (tableWork T) (sys x)
    · obtain ⟨t, event, x', run', hne⟩ := hgo run hcan
      have hcount : spuriousCount (events ++ [(t, event)]) = spuriousCount events := by
        have hnot : event.isSpurious = false := by
          cases event with
          | spurious => exact (hne rfl).elim
          | _ => rfl
        simp [spuriousCount, hnot]
      have hle := (hsim run').length_le_of_table hT hids hkeys hputs
      rw [hcount, List.length_append, List.length_singleton] at hle
      obtain ⟨more, x'', run'', hexited⟩ := ih _ (by
        rw [hcount, List.length_append, List.length_singleton]
        omega) run' rfl
      exact ⟨(t, event) :: more, x'', by simpa using run'', hexited⟩
    · exact ⟨[], x, by simpa using run, fun t ht =>
        (hsim run).exited_of_stuck hT hids hkeys hputs hfile hcan ht⟩

end

/-- The parallel run gives the serial answers. The records, carried out one by one on a finite map,
are calls with certain answers and lead to a map. In every run the operations that have returned
have given these answers, each once. The run is bounded but for spurious wake-ups, and it stops only
when all threads have read the end of the file; then every operation has returned, and the table
holds the map and counts its keys. -/
theorem ProcessRun.serial_answers (hT : T < 2 ^ 32) (hfile : file.spoilt = false)
    (hids : file.Increasing) (hkeys : ∀ record ∈ file.records, record.key ≠ 0)
    (hputs : putCount file.records < T) (hthreads : threads.Nonempty) :
    ∃ calls m, Trace KvStep (fun _ => none) calls m ∧ calls.map (·.op) = file.records ∧
      ∀ events s, ProcessRun file (tableWork T) threads initHashtable events s →
        List.Subperm ((results events).map fun result => result.1.answer result.2)
          (calls.map HashCall.answer) ∧
        events.length ≤ (8 + THREADS * (THREADS + 2) + (T + 3) + THREADS) * file.records.length +
          THREADS * (THREADS + 4) + (THREADS + 3) * spuriousCount events ∧
        (¬CanStep file (tableWork T) s → ∀ t ∈ threads, (s.pc t).pc = .exited) ∧
        ((∀ t ∈ threads, (s.pc t).pc = .exited) →
          List.Perm ((results events).map fun result => result.1.answer result.2)
            (calls.map HashCall.answer) ∧
          s.shared.mem.Binds m ∧ s.shared.mem.used = {key | m key ≠ none}.ncard) := by
  obtain ⟨calls, m, hserial, hcalls⟩ := exists_kvTrace (fun _ => none) file.records
  refine ⟨calls, m, hserial, hcalls, fun events s run => ?_⟩
  refine ⟨run.subperm_answers hT hids hkeys hputs hserial hcalls,
    run.length_le_of_table hT hids hkeys hputs,
    fun hstuck t ht => run.exited_of_stuck hT hids hkeys hputs hfile hstuck ht, fun hexited => ?_⟩
  obtain ⟨hperm, hstores, hused⟩ :=
    run.complete hT hids hkeys hputs hfile hthreads hexited hserial hcalls
  exact ⟨hperm, hstores.binds, hused⟩

/-- Two keys are put, one of them is read and the other one deleted and read. -/
def mixedOps : OpFile :=
  ⟨[⟨1, 1, .put, 8, 16⟩, ⟨2, 2, .put, 8, 32⟩, ⟨3, 1, .get, 0, 0⟩, ⟨4, 2, .del, 0, 0⟩,
    ⟨5, 2, .get, 0, 0⟩], false⟩

theorem mixedOps_answers : kvAnswers (fun _ => none) mixedOps.records =
    [(1, 0, none), (2, 0, none), (3, 0, some (8, 16)), (4, 0, none), (5, -1, none)] := by
  simp [mixedOps, kvAnswers, kvResult, kvNext]

theorem mixedOps_value (key : BitVec 64) : keyValue key mixedOps.records =
    if key = 1 then some (8, 16) else none := by
  by_cases h₁ : key = 1
  · subst h₁
    decide
  by_cases h₂ : key = 2
  · subst h₂
    decide
  have hnone : opsOn key mixedOps.records = [] := by
    rw [opsOn, mixedOps, List.filter_eq_nil_iff]
    simpa [eq_comm (b := key)] using ⟨h₁, h₂, h₁, h₂⟩
  rw [if_neg h₁, keyValue, hnone, List.foldl_nil]

/-- Two threads carry them out. -/
theorem ProcessRun.serial_answers_of_exited : ∃ events s,
    ProcessRun mixedOps (tableWork 3) {0, 1} initHashtable events s ∧
    (s.pc 0).pc = .exited ∧ (s.pc 1).pc = .exited ∧
    List.Perm ((results events).map fun result => result.1.answer result.2)
      [(1, 0, none), (2, 0, none), (3, 0, some (8, 16)), (4, 0, none), (5, -1, none)] ∧
    s.shared.mem.Binds fun key => if key = 1 then some (8, 16) else none := by
  have hids : mixedOps.Increasing := by
    rw [OpFile.Increasing, mixedOps]
    decide
  have hkeys : ∀ record ∈ mixedOps.records, record.key ≠ 0 := by
    rw [mixedOps]
    decide
  have hputs : putCount mixedOps.records < 3 := by
    rw [mixedOps]
    decide
  have hthreads : ({0, 1} : Finset (Fin THREADS)).Nonempty := Finset.insert_nonempty 0 {1}
  obtain ⟨calls, m, hserial, hcalls, hruns⟩ :=
    ProcessRun.serial_answers (by decide) rfl hids hkeys hputs hthreads
  have hstart : ProcessRun mixedOps (tableWork 3) {0, 1} initHashtable []
      (.init {0, 1} initHashtable fun _ => ⟨0, 0, .get, 0, 0⟩) := ⟨_, .nil⟩
  obtain ⟨events, s, run, hexited⟩ :=
    exists_complete (by decide) hids hkeys hputs id rfl id (fun run hcan => by
      obtain ⟨t, event, m, p, hstep, hne⟩ := hcan
      exact ⟨t, event, _, run.snoc hstep, hne⟩) hstart
  obtain ⟨hperm, hbinds, -⟩ := (hruns _ s run).2.2.2 hexited
  rw [hserial.map_answer, hcalls, mixedOps_answers] at hperm
  obtain rfl : m = fun key => if key = 1 then some (8, 16) else none :=
    funext fun key => by rw [hserial.keyValue_eq, hcalls, mixedOps_value]
  exact ⟨_, s, run, hexited 0 (by simp), hexited 1 (by simp), hperm, hbinds⟩

end CS330
