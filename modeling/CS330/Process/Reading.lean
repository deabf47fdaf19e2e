import CS330.Lib.Claims
import CS330.Process.Records

/-! # Calls of `read_op`

Any threads call `read_op` and `done_one` as they like. All that these functions share is protected
by the mutex, so a step is what a thread does between taking the mutex and giving it back: a call
of `read_op` up to its return or up to `pthread_cond_wait`, the same from a wakeup on, or
`done_one`. The calls of `read_op` are numbered in the order in which they take the mutex first. -/

namespace CS330

/-- What the calls share. -/
structure ReadInput where
  curr : Nat
  beingProcessed : Fin THREADS → Bool
  /-- How many calls of `read_op` there have been. -/
  calls : Nat

/-- A thread has its operation, and the number of its call while that waits. -/
structure Reader where
  op : Operation
  call : Option Nat

abbrev ReadSystem := Threads (Fin THREADS) ReadInput Reader

/-- The condition in the loop over `being_processed` holds for some slot. -/
def ReadSystem.Blocked (s : ReadSystem) (t : Fin THREADS) (op : Operation) : Prop :=
  ∃ t', t' ≠ t ∧ s.shared.beingProcessed t' = true ∧ op.key = (s.pc t').op.key ∧
    (s.pc t').op.id < op.id

instance (s : ReadSystem) (t : Fin THREADS) (op : Operation) : Decidable (s.Blocked t op) :=
  inferInstanceAs (Decidable (∃ _, _ ∧ _ ∧ _ ∧ _))

/-- What is seen of a step. -/
inductive ReadEvent where
  | silent
  /-- Call `call` returns `ret`, and leaves `op`. -/
  | returned (call : Nat) (op : Operation) (ret : Int)
  /-- The assertion fails. -/
  | aborted

/-- The record that thread `t` has read at `curr` is its operation now. -/
def ReadInput.register (m : ReadInput) (t : Fin THREADS) (curr : Nat) : ReadInput where
  curr
  beingProcessed := Function.update m.beingProcessed t true
  calls := m.calls + 1

inductive ReadStep (file : Mapping) (s : ReadSystem) (t : Fin THREADS) :
    ReadEvent → ReadInput × Reader → Prop where
  | abort (hidle : (s.pc t).call = none)
    (hread : readRecord file s.shared.curr (s.pc t).op = none) :
    ReadStep file s t .aborted (s.shared, s.pc t)
  | eof {curr : Nat} {op : Operation} (hidle : (s.pc t).call = none)
    (hread : readRecord file s.shared.curr (s.pc t).op = some (curr, op))
    (hend : file.endptr < curr) :
    ReadStep file s t (.returned s.shared.calls op (-1))
      ({ s.shared with curr, calls := s.shared.calls + 1 }, ⟨op, none⟩)
  | wait {curr : Nat} {op : Operation} (hidle : (s.pc t).call = none)
    (hread : readRecord file s.shared.curr (s.pc t).op = some (curr, op))
    (hend : curr ≤ file.endptr) (hblocked : s.Blocked t op) :
    ReadStep file s t .silent (s.shared.register t curr, ⟨op, some s.shared.calls⟩)
  | enter {curr : Nat} {op : Operation} (hidle : (s.pc t).call = none)
    (hread : readRecord file s.shared.curr (s.pc t).op = some (curr, op))
    (hend : curr ≤ file.endptr) (hblocked : ¬s.Blocked t op) :
    ReadStep file s t (.returned s.shared.calls op 0) (s.shared.register t curr, ⟨op, none⟩)
  | waitAgain {call : Nat} (hcall : (s.pc t).call = some call) (hblocked : s.Blocked t (s.pc t).op) :
    ReadStep file s t .silent (s.shared, s.pc t)
  | wake {call : Nat} (hcall : (s.pc t).call = some call) (hblocked : ¬s.Blocked t (s.pc t).op) :
    ReadStep file s t (.returned call (s.pc t).op 0) (s.shared, ⟨(s.pc t).op, none⟩)
  | doneOne (hidle : (s.pc t).call = none) :
    ReadStep file s t .silent
      ({ s.shared with
          beingProcessed := Function.update s.shared.beingProcessed t false }, s.pc t)

/-- `init_input_manager` has mapped the file. -/
def ReadSystem.init (file : Mapping) (ops : Fin THREADS → Operation) : ReadSystem :=
  ⟨⟨file.buff, fun _ => false, 0⟩, fun t => ⟨ops t, none⟩⟩

/-- Runs on a file; each step is labelled by its thread and by what is seen of it. -/
def ReadRun (file : Mapping) (events : List (Fin THREADS × ReadEvent)) (s : ReadSystem) : Prop :=
  ∃ ops, Trace (Threads.StepOf (ReadStep file)) (ReadSystem.init file ops) events s

/-- The calls that have returned: number, operation and value. -/
def returns (events : List (Fin THREADS × ReadEvent)) : List (Nat × Operation × Int) :=
  events.filterMap fun event => match event.2 with
    | .returned call op ret => some (call, op, ret)
    | _ => none

variable {file : Mapping} {recs : List Record} {s s' : ReadSystem} {t : Fin THREADS}
  {events : List (Fin THREADS × ReadEvent)} {event : ReadEvent} {op : Operation} {call : Nat}

/-- A call that returns delivers the record with its number, or fails if there is none. -/
def Returned (file : Mapping) (recs : List Record) (call : Nat) (op : Operation) (ret : Int) : Prop :=
  (∀ r, recs[call]? = some r → ret = 0 ∧ r.Delivered file op) ∧ (recs.length ≤ call → ret = -1)

structure ReadInv (file : Mapping) (recs : List Record)
    (events : List (Fin THREADS × ReadEvent)) (s : ReadSystem) : Prop where
  /-- As many records as there have been calls lie in front of `curr`, if there are so many. -/
  curr : s.shared.calls ≤ recs.length → s.shared.curr = offset file recs s.shared.calls
  past : recs.length ≤ s.shared.calls → file.endptr ≤ s.shared.curr
  claims : Claims Reader.call s ((returns events).map Prod.fst) s.shared.calls
  waiting : ∀ t call, (s.pc t).call = some call →
    ∃ r, recs[call]? = some r ∧ r.Delivered file (s.pc t).op
  returned : ∀ call op ret, (call, op, ret) ∈ returns events → Returned file recs call op ret
  safe : ∀ event ∈ events, event.2 ≠ .aborted

theorem Returned.of_delivered {r : Record} (hr : recs[call]? = some r) (h : r.Delivered file op) :
    Returned file recs call op 0 := by
  refine ⟨fun r' hr' => ⟨rfl, ?_⟩, fun hle => ?_⟩
  · rw [hr] at hr'
    cases hr'
    exact h
  · rw [List.getElem?_eq_none hle] at hr
    cases hr

theorem Returned.of_end (h : recs.length ≤ call) : Returned file recs call op (-1) := by
  refine ⟨fun r hr => ?_, fun _ => rfl⟩
  rw [List.getElem?_eq_none h] at hr
  cases hr

/-- What a call reads: the next record, or zeros behind the end. -/
theorem ReadInv.read (hfile : file.HoldsRecords recs) (hzero : file.ZeroPast)
    (I : ReadInv file recs events s) (op : Operation) : ∃ curr op',
    readRecord file s.shared.curr op = some (curr, op') ∧
    ((∃ r, recs[s.shared.calls]? = some r ∧ r.Delivered file op' ∧
        curr = offset file recs (s.shared.calls + 1)) ∨
      recs.length ≤ s.shared.calls ∧ file.endptr < curr) := by
  rcases Nat.lt_or_ge s.shared.calls recs.length with hlt | hge
  · obtain ⟨r, hr⟩ : ∃ r, recs[s.shared.calls]? = some r := ⟨_, List.getElem?_eq_getElem hlt⟩
    rw [I.curr hlt.le]
    refine ⟨_, _, readRecord_offset hfile hr, .inl ⟨r, hr, ?_, rfl⟩⟩
    have hle : offset file recs s.shared.calls ≤ file.endptr := offset_le_endptr hfile
    have hlt : file.endptr < 2 ^ 63 := file.end_lt
    exact Record.delivered_read (storedAt_offset hfile hr) (by omega)
  · have hpast := I.past hge
    refine ⟨_, _, readRecord_of_zero fun a ha _ => hzero a (hpast.trans ha), .inr ⟨hge, ?_⟩⟩
    exact hpast.trans_lt (Nat.lt_add_of_pos_right (by decide))

theorem ReadInv.init {ops : Fin THREADS → Operation} (hfile : file.HoldsRecords recs) :
    ReadInv file recs [] (ReadSystem.init file ops) where
  curr _ := by simp [ReadSystem.init, offset]
  past h := by rw [← offset_length hfile, List.length_eq_zero_iff.1 (Nat.le_zero.1 h)]; exact le_rfl
  claims := .init fun _ => rfl
  waiting _ _ h := by cases h
  returned _ _ _ h := absurd h List.not_mem_nil
  safe _ h := absurd h List.not_mem_nil

@[simp] theorem returns_append_silent : returns (events ++ [(t, .silent)]) = returns events := by
  simp [returns]

@[simp] theorem returns_append_returned {ret : Int} :
    returns (events ++ [(t, .returned call op ret)]) = returns events ++ [(call, op, ret)] := by
  simp [returns]

theorem ReadInv.safe_append (I : ReadInv file recs events s) (h : event ≠ .aborted) :
    ∀ event' ∈ events ++ [(t, event)], event'.2 ≠ .aborted := by
  intro event' hmem
  rcases List.mem_append.1 hmem with hmem | hmem
  · exact I.safe event' hmem
  · rw [List.mem_singleton.1 hmem]
    exact h

/-- The other threads wait as before. -/
theorem ReadInv.waiting_update {p : Reader} (I : ReadInv file recs events s)
    (h : ∀ call, p.call = some call → ∃ r, recs[call]? = some r ∧ r.Delivered file p.op) :
    ∀ t' call, (Function.update s.pc t p t').call = some call →
      ∃ r, recs[call]? = some r ∧ r.Delivered file (Function.update s.pc t p t').op := by
  intro t' call
  rw [Function.update_apply]
  split
  next => exact h call
  next => exact I.waiting t' call

theorem ReadInv.returned_append {ret : Int} (I : ReadInv file recs events s)
    (h : Returned file recs call op ret) : ∀ call' op' ret',
      (call', op', ret') ∈ returns (events ++ [(t, .returned call op ret)]) →
      Returned file recs call' op' ret' := by
  intro call' op' ret' hmem
  rw [returns_append_returned] at hmem
  rcases List.mem_append.1 hmem with hmem | hmem
  · exact I.returned call' op' ret' hmem
  · cases List.mem_singleton.1 hmem
    exact h

/-- Where `curr` is when one more record has been read. -/
theorem past_of_read {r : Record} {curr : Nat} (hfile : file.HoldsRecords recs)
    (hr : recs[call]? = some r) (hcurr : curr = offset file recs (call + 1))
    (hle : recs.length ≤ call + 1) : file.endptr ≤ curr := by
  have hlt := (List.getElem?_eq_some_iff.1 hr).1
  rw [hcurr, ← offset_length hfile, Nat.le_antisymm hle hlt]

/-- A thread stands as before: nothing has been read, and no call has returned. -/
theorem ReadInv.keep {board : Fin THREADS → Bool} (I : ReadInv file recs events s) :
    ReadInv file recs (events ++ [(t, .silent)])
      ⟨{ s.shared with beingProcessed := board }, Function.update s.pc t (s.pc t)⟩ where
  curr := I.curr
  past := I.past
  claims := by
    rw [returns_append_silent]
    exact I.claims.keep rfl
  waiting := I.waiting_update (I.waiting t)
  returned := by
    rw [returns_append_silent]
    exact I.returned
  safe := I.safe_append nofun

theorem ReadInv.own {after : ReadInput × Reader} (hfile : file.HoldsRecords recs)
    (hzero : file.ZeroPast) (I : ReadInv file recs events s) (h : ReadStep file s t event after) :
    ReadInv file recs (events ++ [(t, event)]) ⟨after.1, Function.update s.pc t after.2⟩ := by
  obtain ⟨curr', op', hread', hcases⟩ := I.read hfile hzero (s.pc t).op
  cases h with
  | abort hidle hread =>
    rw [hread] at hread'
    cases hread'
  | @eof curr op hidle hread hend =>
    cases hread.symm.trans hread'
    obtain ⟨r, -, -, hcurr⟩ | ⟨hge, -⟩ := hcases
    · exact absurd (hcurr ▸ offset_le_endptr hfile) (Nat.not_le.2 hend)
    refine ⟨fun hle => absurd (Nat.lt_of_succ_le hle) (Nat.not_lt.2 hge), fun _ => hend.le, ?_,
      I.waiting_update nofun, I.returned_append (.of_end hge), I.safe_append nofun⟩
    rw [returns_append_returned, List.map_append]
    exact I.claims.pass hidle rfl
  | @wait curr op hidle hread hend =>
    cases hread.symm.trans hread'
    obtain ⟨r, hr, hdelivered, hcurr⟩ | ⟨-, hgt⟩ := hcases
    · refine ⟨fun _ => hcurr, past_of_read hfile hr hcurr, ?_, I.waiting_update fun call hcall => ?_,
        ?_, I.safe_append nofun⟩
      · rw [returns_append_silent]
        exact I.claims.take hidle rfl
      · cases hcall
        exact ⟨r, hr, hdelivered⟩
      · rw [returns_append_silent]
        exact I.returned
    · exact absurd hend (Nat.not_le.2 hgt)
  | @enter curr op hidle hread hend =>
    cases hread.symm.trans hread'
    obtain ⟨r, hr, hdelivered, hcurr⟩ | ⟨-, hgt⟩ := hcases
    · refine ⟨fun _ => hcurr, past_of_read hfile hr hcurr, ?_, I.waiting_update nofun,
        I.returned_append (.of_delivered hr hdelivered), I.safe_append nofun⟩
      rw [returns_append_returned, List.map_append]
      exact I.claims.pass hidle rfl
    · exact absurd hend (Nat.not_le.2 hgt)
  | waitAgain => exact I.keep
  | @wake call hcall =>
    obtain ⟨r, hr, hdelivered⟩ := I.waiting t call hcall
    refine ⟨I.curr, I.past, ?_, I.waiting_update nofun,
      I.returned_append (.of_delivered hr hdelivered), I.safe_append nofun⟩
    rw [returns_append_returned, List.map_append]
    exact I.claims.handIn hcall rfl
  | doneOne => exact I.keep

theorem ReadRun.inv (hfile : file.HoldsRecords recs) (hzero : file.ZeroPast)
    (run : ReadRun file events s) : ReadInv file recs events s := by
  obtain ⟨ops, run⟩ := run
  refine run.history (.init hfile) fun I h => ?_
  cases h with
  | mk h => exact I.own hfile hzero h

/-- In every run: the calls that return are those that have taken the mutex and do not wait, each
returns once, and a call returns 0 and delivers the record with its number, or returns -1 if there
is no such record. The assertion never fails. -/
theorem ReadRun.round_trip (hfile : file.HoldsRecords recs) (hzero : file.ZeroPast)
    (run : ReadRun file events s) :
    (∀ call op ret, (call, op, ret) ∈ returns events → Returned file recs call op ret) ∧
    ((returns events).map Prod.fst).Nodup ∧
    (∀ call, call < s.shared.calls ↔
      call ∈ (returns events).map Prod.fst ∨ ∃ t, (s.pc t).call = some call) ∧
    ∀ event ∈ events, event.2 ≠ .aborted :=
  have I := run.inv hfile hzero
  ⟨I.returned, I.claims.nodup, fun _ => I.claims.lt_iff, I.safe⟩

/-- A file of one `GET`. -/
def getFile : Mapping :=
  .ofBytes 4096 ([Record.get 1 5].flatMap Record.encode) (by simp [Record.encode, createGetDel])

theorem getFile_holds : getFile.HoldsRecords [.get 1 5] := Mapping.ofBytes_holds

theorem getFile_zero : getFile.ZeroPast := Mapping.ofBytes_zeroPast

/-- The first call reads the record and the second one finds the end. -/
theorem getFile_run : ∃ op op' events s, ReadRun getFile events s ∧
    returns events = [(0, op, 0), (1, op', -1)] := by
  let ops : Fin THREADS → Operation := fun _ => ⟨0, 0, .get, 0, 0⟩
  have hfirst : Threads.StepOf (ReadStep getFile) (ReadSystem.init getFile ops) (0, .returned 0 _ 0)
      ⟨_, _⟩ :=
    .mk (.enter rfl (readRecord_offset (k := 0) getFile_holds rfl) (offset_le_endptr getFile_holds)
      fun ⟨_, _, h, _⟩ => Bool.false_ne_true h)
  have hsecond (op : Operation) : Threads.StepOf (ReadStep getFile)
      ⟨⟨getFile.endptr, Function.update (fun _ => false) 0 true, 1⟩,
        Function.update (fun t => ⟨ops t, none⟩) 0 ⟨op, none⟩⟩ (1, .returned 1 _ (-1)) ⟨_, _⟩ :=
    .mk (.eof rfl (readRecord_of_zero fun a ha _ => getFile_zero a ha)
      (Nat.lt_add_of_pos_right (by decide)))
  exact ⟨_, _, _, _, ⟨ops, .cons hfirst (.cons (hsecond _) .nil)⟩, rfl⟩

theorem ReadRun.round_trip_of_get : ∃ events s op, ReadRun getFile events s ∧
    (0, op, 0) ∈ returns events ∧ (Record.get 1 5).Delivered getFile op := by
  obtain ⟨op, op', events, s, run, hreturns⟩ := getFile_run
  have hmem : (0, op, 0) ∈ returns events := hreturns ▸ List.mem_cons_self
  exact ⟨events, s, op, run, hmem,
    (((ReadRun.round_trip getFile_holds getFile_zero run).1 0 op 0 hmem).1 _ rfl).2⟩

end CS330
