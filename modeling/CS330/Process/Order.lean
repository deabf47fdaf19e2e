import CS330.Lib.Tickets
import CS330.Process.Waiting

/-! # Operations on one key

The threads are customers who ask for the key of their operation: `read_op` issues the id of the
record as a ticket, lets the thread in when the loop over `being_processed` has passed, and
`done_one` lets it leave. So the steps of the threads are steps of a `TicketBoard`. -/

namespace CS330

variable {μ ω : Type*} {file : OpFile} {W : Work μ ω} {s s' : System μ ω}
  {t t' : Fin THREADS} {m : Shared μ} {p : Process ω} {event : ProcessEvent}
  {threads : Finset (Fin THREADS)} {mem : μ} {events : List (Fin THREADS × ProcessEvent)}

/-- The key, and the id as the number of the ticket. -/
def Operation.ticket (op : Operation) : BitVec 64 × Nat := (op.key, op.id.toNat)

/-- The threads whose slot points to their operation. -/
def System.board (s : System μ ω) (t : Fin THREADS) : Option (Ticket (BitVec 64) Nat) :=
  if s.shared.input.beingProcessed t = true then
    some ⟨(s.pc t).op.key, (s.pc t).op.id.toNat, (s.pc t).pc.inside⟩
  else none

/-- The board, the records read so far and the operations that have entered. -/
def System.tickets (file : OpFile) (events : List (Fin THREADS × ProcessEvent)) (s : System μ ω) :
    TicketBoard (Fin THREADS) (BitVec 64) Nat where
  board := s.board
  issued := (file.records.take s.shared.input.curr).map Operation.ticket
  admitted := (entered events).map Operation.ticket

theorem System.board_eq_some {ticket : Ticket (BitVec 64) Nat} (h : s.board t = some ticket) :
    s.shared.input.beingProcessed t = true ∧
      ticket = ⟨(s.pc t).op.key, (s.pc t).op.id.toNat, (s.pc t).pc.inside⟩ := by
  rw [System.board] at h
  split at h
  next hreg => exact ⟨hreg, (Option.some_inj.1 h).symm⟩
  next => cases h

theorem System.board_of_registered (h : s.shared.input.beingProcessed t = true) :
    s.board t = some ⟨(s.pc t).op.key, (s.pc t).op.id.toNat, (s.pc t).pc.inside⟩ := if_pos h

@[simp] theorem entered_append {events' : List (Fin THREADS × ProcessEvent)} :
    entered (events ++ events') = entered events ++ entered events' := List.filterMap_append ..

@[simp] theorem entered_enter {op : Operation} : entered [(t, .enter op)] = [op] := rfl

namespace ProcessStep

/-- A step changes what is on the board of the thread that takes it. -/
theorem board_eq (h : ProcessStep file W s t event (m, p)) :
    System.board ⟨m, Function.update s.pc t p⟩ = Function.update s.board t
      (if m.input.beingProcessed t = true then
        some ⟨p.op.key, p.op.id.toNat, p.pc.inside⟩ else none) := by
  funext c
  by_cases hc : c = t
  · subst hc
    simp [System.board]
  · simp [System.board, h.other_registered hc, hc]

theorem board_eq_self (h : ProcessStep file W s t event (m, p))
    (hreg : m.input.beingProcessed t = s.shared.input.beingProcessed t)
    (hop : s.shared.input.beingProcessed t = true → p.op.key = (s.pc t).op.key ∧
      p.op.id = (s.pc t).op.id ∧ p.pc.inside = (s.pc t).pc.inside) :
    System.board ⟨m, Function.update s.pc t p⟩ = s.board := by
  rw [h.board_eq, hreg]
  refine Function.update_eq_self_iff.2 ?_
  rw [System.board]
  split
  next ht =>
    obtain ⟨hkey, hid, hinside⟩ := hop ht
    rw [hkey, hid, hinside]
  next => rfl

theorem tickets_eq_self (h : ProcessStep file W s t event (m, p))
    (hevent : entered [(t, event)] = []) (hcurr : m.input.curr = s.shared.input.curr)
    (hreg : m.input.beingProcessed t = s.shared.input.beingProcessed t)
    (hop : s.shared.input.beingProcessed t = true → p.op.key = (s.pc t).op.key ∧
      p.op.id = (s.pc t).op.id ∧ p.pc.inside = (s.pc t).pc.inside) :
    System.tickets file (events ++ [(t, event)]) ⟨m, Function.update s.pc t p⟩ =
      s.tickets file events := by
  simp only [System.tickets, h.board_eq_self hreg hop, hcurr, entered_append, hevent,
    List.append_nil]

theorem tickets_read {record : Operation} (I : InputInv s) (hids : file.Increasing)
    (h : ProcessStep file W s t event (m, p)) (hpc : (s.pc t).pc = .reading)
    (hrecord : file.records[s.shared.input.curr]? = some record)
    (hm : m.input.beingProcessed = Function.update s.shared.input.beingProcessed t true)
    (hcurr : m.input.curr = s.shared.input.curr + 1)
    (hp : p = ⟨(s.pc t).op.read record, .scan 0⟩) (hevent : entered [(t, event)] = []) :
    (s.tickets file events).Step
      (System.tickets file (events ++ [(t, event)]) ⟨m, Function.update s.pc t p⟩) := by
  have htake : file.records.take m.input.curr =
      file.records.take s.shared.input.curr ++ [record] := by
    rw [hcurr, List.take_add_one, hrecord]
    rfl
  suffices hissue : (s.tickets file events).board t = none ∧
      ∀ ticket ∈ (s.tickets file events).issued, ticket.2 < record.id.toNat by
    have hstep : (s.tickets file events).Step
        ⟨Function.update _ t _, _ ++ [(record.key, record.id.toNat)], _⟩ :=
      .issue hissue.1 hissue.2
    convert hstep using 1
    simp only [System.tickets, h.board_eq, entered_append, hevent, List.append_nil]
    simp [hm, hp, htake, Operation.read, ProcessPc.inside, Operation.ticket]
  constructor
  · change s.board t = none
    rw [System.board, I.registered, hpc]
    rfl
  · -- the ids of the records in front of this one are smaller
    intro ticket hmem
    obtain ⟨before, hbefore, rfl⟩ := List.mem_map.1 hmem
    have hsorted := hids
    rw [OpFile.Increasing, ← List.take_append_drop (s.shared.input.curr) file.records,
      List.pairwise_append] at hsorted
    refine BitVec.lt_def.1 (hsorted.2.2 before hbefore record ?_)
    exact List.mem_of_getElem? (i := 0) (by simpa using hrecord)

/-- A step of a thread is none on the board, or it issues a ticket, lets a customer in or lets one
leave. -/
theorem tickets (I : InputInv s) (hids : file.Increasing)
    (h : ProcessStep file W s t event (m, p)) :
    System.tickets file (events ++ [(t, event)]) ⟨m, Function.update s.pc t p⟩ =
        s.tickets file events ∨
      (s.tickets file events).Step
        (System.tickets file (events ++ [(t, event)]) ⟨m, Function.update s.pc t p⟩) := by
  have h₀ := h
  cases h with
  | read hpc hrecord =>
    exact .inr (tickets_read I hids h₀ hpc hrecord rfl rfl rfl rfl)
  | @enter i hpc hi =>
    have hreg : s.shared.input.beingProcessed t = true := by rw [I.registered, hpc]; rfl
    have hboard := System.board_of_registered hreg
    rw [hpc] at hboard
    have hstep := TicketBoard.Step.letIn (b := s.tickets file events) hboard ?_
    · refine .inr ?_
      convert hstep using 1
      simp only [System.tickets, h₀.board_eq, entered_append, entered_enter]
      simp [hreg, ProcessPc.inside, Operation.ticket]
    · -- the loop has found no thread with the same key and a smaller id
      intro t' ticket hne hsome hkey hlt
      obtain ⟨hreg', rfl⟩ := System.board_eq_some hsome
      exact I.scanned t i hpc t' (by omega) ⟨hne, hreg', hkey.symm, BitVec.lt_def.2 hlt⟩
  | clear hpc =>
    have hreg : s.shared.input.beingProcessed t = true := by rw [I.registered, hpc]; rfl
    have hboard := System.board_of_registered hreg
    rw [hpc] at hboard
    have hstep := TicketBoard.Step.leave (b := s.tickets file events) hboard
    refine .inr ?_
    convert hstep using 1
    simp only [System.tickets, h₀.board_eq, entered_append]
    simp [entered]
  | eof hpc | abort hpc =>
    refine .inl (h₀.tickets_eq_self rfl rfl rfl fun hreg => ?_)
    rw [I.registered, hpc] at hreg
    cases hreg
  | work hpc hwork =>
    obtain ⟨hid, hkey⟩ := W.keeps hwork
    exact .inl (h₀.tickets_eq_self rfl rfl rfl fun _ => ⟨hkey, hid, by rw [hpc]; rfl⟩)
  | spurious => exact .inl (h₀.tickets_eq_self rfl rfl rfl fun _ => ⟨rfl, rfl, rfl⟩)
  | readOp hpc | wait hpc | next hpc | wake hpc | finish hpc | doneOne hpc | broadcast hpc
  | unlock hpc =>
    exact .inl (h₀.tickets_eq_self rfl rfl rfl fun _ => ⟨rfl, rfl, by rw [hpc]; rfl⟩)

/-- A step keeps the board orderly. -/
theorem orderly (I : InputInv s) (hids : file.Increasing)
    (O : TicketBoard.Orderly (s.tickets file events))
    (h : ProcessStep file W s t event (m, p)) :
    TicketBoard.Orderly
      (System.tickets file (events ++ [(t, event)]) ⟨m, Function.update s.pc t p⟩) := by
  rcases h.tickets I hids with heq | hstep
  · rwa [heq]
  · exact O.step hstep

end ProcessStep

/-- In every reachable state the board is orderly. -/
theorem ProcessRun.orderly (hids : file.Increasing) (run : ProcessRun file W threads mem events s) :
    InputInv s ∧ TicketBoard.Orderly (s.tickets file events) := by
  obtain ⟨ops, htrace⟩ := run
  refine htrace.history (I := fun events s => InputInv s ∧
    TicketBoard.Orderly (System.tickets file events s)) ⟨.init, .init⟩ ?_
  rintro events s _ _ ⟨I, O⟩ ⟨h⟩
  exact ⟨I.step h, h.orderly I hids O⟩

theorem numbersOf_ticket {key : BitVec 64} {ops : List Operation} :
    numbersOf key (ops.map Operation.ticket) =
      ((ops.filter (·.key = key)).map (·.id)).map BitVec.toNat := by
  induction ops with
  | nil => rfl
  | cons op ops ih =>
    rw [List.map_cons, ← List.singleton_append, numbersOf_append, ih]
    by_cases hkey : op.key = key <;> simp [Operation.ticket, numbersOf_singleton, hkey]

theorem ProcessPc.registered_of_inside {pc : ProcessPc ω} (h : pc.inside = true) :
    pc.registered = true := by
  revert h
  cases pc <;> simp [inside, registered]

/-- Two threads between `read_op` and `done_one` have operations on different keys. -/
theorem InputInv.inside_unique (I : InputInv s)
    (O : TicketBoard.Orderly (s.tickets file events)) (hin : (s.pc t).pc.inside = true)
    (hin' : (s.pc t').pc.inside = true) (hkey : (s.pc t).op.key = (s.pc t').op.key) : t = t' := by
  have hboard {t : Fin THREADS} (hin : (s.pc t).pc.inside = true) :=
    System.board_of_registered ((I.registered t).trans (ProcessPc.registered_of_inside hin))
  exact O.exclusive (hboard hin) (hboard hin') hin hin' hkey

theorem map_toNat_injective : Function.Injective (List.map (BitVec.toNat (w := 64))) :=
  List.map_injective_iff.2 fun _ _ => BitVec.eq_of_toNat_eq

/-- The operations on a key that have entered are the first records with that key. -/
theorem entered_initial (O : TicketBoard.Orderly (s.tickets file events)) (key : BitVec 64) :
    ((entered events).filter (·.key = key)).map (·.id) <+:
      (file.records.filter (·.key = key)).map (·.id) := by
  have hinitial := O.admitted_initial key
  simp only [System.tickets, numbersOf_ticket] at hinitial
  have hread : ((file.records.take s.shared.input.curr).filter (·.key = key)).map (·.id) <+:
      (file.records.filter (·.key = key)).map (·.id) :=
    ((List.take_prefix ..).filter _).map _
  refine List.IsPrefix.trans ?_ hread
  rw [List.prefix_iff_eq_take] at hinitial ⊢
  rw [← List.map_take] at hinitial
  simpa using map_toNat_injective hinitial

/-- In every reachable state at most one thread for each key is between the return 0 of `read_op`
and its `done_one`, and the operations on each key have entered that section in the order of their
records. -/
theorem ProcessRun.exclusive_in_order (hids : file.Increasing)
    (run : ProcessRun file W threads mem events s) :
    (∀ t t', (s.pc t).pc.inside = true → (s.pc t').pc.inside = true →
      (s.pc t).op.key = (s.pc t').op.key → t = t') ∧
    ∀ key, ((entered events).filter (·.key = key)).map (·.id) <+:
      (file.records.filter (·.key = key)).map (·.id) := by
  obtain ⟨I, O⟩ := run.orderly hids
  exact ⟨fun t t' hin hin' hkey => I.inside_unique O hin hin' hkey, entered_initial O⟩

theorem ProcessRun.exclusive_in_order_of_sleeper :
    ∃ (events : List (Fin THREADS × ProcessEvent)) (s : System Unit Unit),
    ProcessRun twoPuts Work.skip {0, 1} () events s ∧
      (∀ t, (s.pc t).pc.inside = true → (s.pc 0).op.key = (s.pc t).op.key → 0 = t) ∧
      (s.pc 0).pc = .work () ∧ 1 ∈ s.shared.input.cond ∧
      ((entered events).filter (·.key = 7)).map (·.id) <+: [1, 2] := by
  obtain ⟨events, s, run, hcond, hwork⟩ := exists_sleeper
  obtain ⟨hone, horder⟩ := run.exclusive_in_order (by
    rw [OpFile.Increasing, twoPuts]
    decide)
  refine ⟨events, s, run, fun t hin hkey => hone 0 t ?_ hin hkey, hwork, hcond, horder 7⟩
  rw [hwork]
  rfl

end CS330
