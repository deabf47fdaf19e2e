import CS330.Process.Order

/-! # Every operation reports once

An operation that has entered is at work until it reports its result. When all threads have
finished, every record of the file has been carried out. -/

namespace CS330

variable {μ ω : Type*} {file : OpFile} {W : Work μ ω} {s s' : System μ ω}
  {t t' : Fin THREADS} {m : Shared μ} {p : Process ω} {event : ProcessEvent}
  {threads : Finset (Fin THREADS)} {mem : μ} {events events' : List (Fin THREADS × ProcessEvent)}

/-- The operations that have returned, as they were left, with the values that they returned. -/
def results (events : List (Fin THREADS × ProcessEvent)) : List (Operation × Int) :=
  events.filterMap fun event => match event.2 with
    | .result op ret => some (op, ret)
    | _ => none

@[simp] theorem results_append : results (events ++ events') = results events ++ results events' :=
  List.filterMap_append ..

@[simp] theorem results_result {op : Operation} {ret : Int} :
    results [(t, .result op ret)] = [(op, ret)] := rfl

def reportedTickets (events : List (Fin THREADS × ProcessEvent)) : List (BitVec 64 × Nat) :=
  (results events).map fun result => result.1.ticket

/-- The thread is at work. -/
def System.Works (s : System μ ω) (t : Fin THREADS) : Prop := ∃ w, (s.pc t).pc = .work w

/-- An operation that has entered is at work or has reported; it enters and reports once. -/
structure Reported (events : List (Fin THREADS × ProcessEvent)) (s : System μ ω) : Prop where
  cases : ∀ ticket ∈ (entered events).map Operation.ticket, ticket ∈ reportedTickets events ∨
    ∃ t, s.Works t ∧ (s.pc t).op.ticket = ticket
  entered : ∀ ticket ∈ reportedTickets events, ticket ∈ (entered events).map Operation.ticket
  works : ∀ t, s.Works t → (s.pc t).op.ticket ∈ (CS330.entered events).map Operation.ticket
  unreported : ∀ t, s.Works t → (s.pc t).op.ticket ∉ reportedTickets events
  nodup : (reportedTickets events).Nodup
  entered_nodup : ((CS330.entered events).map Operation.ticket).Nodup

/-- How a thread that has stopped came to its end. -/
structure Ended (file : OpFile) (threads : Finset (Fin THREADS)) (s : System μ ω) : Prop where
  exited : ∀ t, (s.pc t).pc = .exited → file.records.length ≤ s.shared.input.curr
  aborted : ∀ t, (s.pc t).pc = .aborted → file.spoilt = true
  present : ∀ t ∈ threads, (s.pc t).pc ≠ .absent
  absent : ∀ t ∉ threads, (s.pc t).pc = .absent

/-! ## One step -/

/-- What a step means for the threads that are at work. -/
theorem ProcessStep.works_cases (h : ProcessStep file W s t event (m, p)) :
    (entered [(t, event)] = [] ∧ results [(t, event)] = [] ∧
      ((∃ w, p.pc = .work w) ↔ s.Works t) ∧ (s.Works t → p.op.ticket = (s.pc t).op.ticket)) ∨
    (event = .enter (s.pc t).op ∧ p.op = (s.pc t).op ∧ (∃ w, p.pc = .work w) ∧ ¬s.Works t ∧
      ∃ i, (s.pc t).pc = .scan i) ∨
    (∃ ret, event = .result (s.pc t).op ret ∧ (¬∃ w, p.pc = .work w) ∧ s.Works t) := by
  cases h with
  | enter hpc => exact .inr (.inl ⟨rfl, rfl, ⟨_, rfl⟩, by simp [System.Works, hpc], _, hpc⟩)
  | finish hpc => exact .inr (.inr ⟨_, rfl, by simp, _, hpc⟩)
  | work hpc hwork =>
    obtain ⟨hid, hkey⟩ := W.keeps hwork
    refine .inl ⟨rfl, rfl, ⟨fun _ => ⟨_, hpc⟩, fun _ => ⟨_, rfl⟩⟩, fun _ => ?_⟩
    exact Prod.ext hkey (congrArg BitVec.toNat hid)
  | spurious => exact .inl ⟨rfl, rfl, Iff.rfl, fun _ => rfl⟩
  | readOp hpc | read hpc | eof hpc | abort hpc | wait hpc | next hpc | wake hpc | doneOne hpc
  | broadcast hpc | clear hpc | unlock hpc =>
    refine .inl ⟨rfl, rfl, ?_, ?_⟩
    · simp [System.Works, hpc]
    · rintro ⟨w, hw⟩
      cases hpc.symm.trans hw

theorem works_update_self :
    System.Works ⟨m, Function.update s.pc t p⟩ t ↔ ∃ w, p.pc = .work w := by
  simp [System.Works]

theorem works_update_of_ne (hne : t' ≠ t) :
    System.Works ⟨m, Function.update s.pc t p⟩ t' ↔ s.Works t' := by
  simp [System.Works, hne]

theorem System.Works.inside (h : s.Works t) : (s.pc t).pc.inside = true := by
  obtain ⟨w, hw⟩ := h
  rw [hw]
  rfl

/-- Threads with operations of one record are the same. -/
theorem InputInv.ticket_inj (I : InputInv s) (O : TicketBoard.Orderly (s.tickets file events))
    (ht : s.Works t) (ht' : s.Works t') (heq : (s.pc t).op.ticket = (s.pc t').op.ticket) :
    t = t' :=
  I.inside_unique O ht.inside ht'.inside (Prod.mk.inj heq).1

namespace Reported

theorem init {ops : Fin THREADS → Operation} :
    Reported [] (System.init threads mem ops : System μ ω) := by
  have hnone (t : Fin THREADS) : ¬(System.init threads mem ops : System μ ω).Works t := by
    rintro ⟨w, hw⟩
    simp only [System.init] at hw
    split at hw <;> cases hw
  exact ⟨fun _ hmem => absurd hmem List.not_mem_nil, fun _ hmem => absurd hmem List.not_mem_nil,
    fun t ht => (hnone t ht).elim, fun t ht => (hnone t ht).elim, .nil, .nil⟩

/-- A step that is none of an operation's beginning or end. -/
theorem quiet (R : Reported events s) (hentered : CS330.entered events' = [])
    (hresults : results events' = []) (hworks : (∃ w, p.pc = .work w) ↔ s.Works t)
    (hticket : s.Works t → p.op.ticket = (s.pc t).op.ticket) :
    Reported (events ++ events') ⟨m, Function.update s.pc t p⟩ := by
  have hw (c : Fin THREADS) :
      System.Works ⟨m, Function.update s.pc t p⟩ c ↔ s.Works c := by
    by_cases hc : c = t
    · subst hc
      rw [works_update_self, hworks]
    · exact works_update_of_ne hc
  have ht (c : Fin THREADS) (hc : s.Works c) :
      (Function.update s.pc t p c).op.ticket = (s.pc c).op.ticket := by
    by_cases hct : c = t
    · subst hct
      rw [Function.update_self, hticket hc]
    · rw [Function.update_of_ne hct]
  have hrep : reportedTickets (events ++ events') = reportedTickets events := by
    simp [reportedTickets, hresults]
  have hent : CS330.entered (events ++ events') = CS330.entered events := by simp [hentered]
  constructor
  case cases =>
    intro ticket hmem
    rw [hent] at hmem
    rw [hrep]
    refine (R.cases ticket hmem).imp_right fun ⟨c, hc, heq⟩ => ⟨c, (hw c).2 hc, ?_⟩
    exact (ht c hc).trans heq
  case entered =>
    intro ticket hmem
    rw [hrep] at hmem
    rw [hent]
    exact R.entered ticket hmem
  case works =>
    intro c hc
    rw [hent]
    exact ht c ((hw c).1 hc) ▸ R.works c ((hw c).1 hc)
  case unreported =>
    intro c hc
    rw [hrep]
    exact ht c ((hw c).1 hc) ▸ R.unreported c ((hw c).1 hc)
  case nodup => rw [hrep]; exact R.nodup
  case entered_nodup => rw [hent]; exact R.entered_nodup

/-- An operation enters that has not entered before. -/
theorem enter (R : Reported events s)
    (hnew : (s.pc t).op.ticket ∉ (CS330.entered events).map Operation.ticket)
    (hop : p.op = (s.pc t).op) (hworks : ∃ w, p.pc = .work w) (hnot : ¬s.Works t) :
    Reported (events ++ [(t, .enter (s.pc t).op)]) ⟨m, Function.update s.pc t p⟩ := by
  have hrep : reportedTickets (events ++ [(t, .enter (s.pc t).op)]) = reportedTickets events := by
    simp [reportedTickets, results]
  have hself : System.Works ⟨m, Function.update s.pc t p⟩ t := works_update_self.2 hworks
  have hne {c : Fin THREADS} (hc : s.Works c) : c ≠ t := fun heq => hnot (heq ▸ hc)
  constructor
  case cases =>
    intro ticket hmem
    rw [hrep]
    rw [entered_append, List.map_append, List.mem_append] at hmem
    rcases hmem with hold | hnew
    · refine (R.cases ticket hold).imp_right fun ⟨c, hc, heq⟩ => ⟨c, ?_, ?_⟩
      · exact (works_update_of_ne (hne hc)).2 hc
      · simpa only [Function.update_of_ne (hne hc)] using heq
    · refine .inr ⟨t, hself, ?_⟩
      rw [List.mem_singleton.1 hnew, ← hop]
      simp only [Function.update_self]
  case entered =>
    intro ticket hmem
    rw [hrep] at hmem
    rw [entered_append, List.map_append]
    exact List.mem_append_left _ (R.entered ticket hmem)
  case works =>
    intro c hc
    rw [entered_append, List.map_append]
    by_cases hct : c = t
    · subst hct
      simp [hop]
    · rw [works_update_of_ne hct] at hc
      simp only [Function.update_of_ne hct]
      exact List.mem_append_left _ (R.works c hc)
  case unreported =>
    intro c hc
    rw [hrep]
    by_cases hct : c = t
    · subst hct
      simpa [hop] using fun hmem => hnew (R.entered _ hmem)
    · rw [works_update_of_ne hct] at hc
      simpa [hct] using R.unreported c hc
  case nodup => rw [hrep]; exact R.nodup
  case entered_nodup =>
    rw [entered_append, List.map_append]
    refine R.entered_nodup.append (List.nodup_singleton _) ?_
    exact List.disjoint_singleton.2 hnew

/-- A thread that was at work reports. -/
theorem result (R : Reported events s) {ret : Int} (hworks : s.Works t)
    (hnot : ¬∃ w, p.pc = .work w)
    (hinj : ∀ c, s.Works c → (s.pc c).op.ticket = (s.pc t).op.ticket → c = t) :
    Reported (events ++ [(t, .result (s.pc t).op ret)]) ⟨m, Function.update s.pc t p⟩ := by
  have hent : CS330.entered (events ++ [(t, .result (s.pc t).op ret)]) = CS330.entered events := by
    simp [CS330.entered]
  have hrep : reportedTickets (events ++ [(t, .result (s.pc t).op ret)]) =
      reportedTickets events ++ [(s.pc t).op.ticket] := by simp [reportedTickets]
  have hne {c : Fin THREADS} (hc : System.Works ⟨m, Function.update s.pc t p⟩ c) : c ≠ t := by
    rintro rfl
    exact hnot (works_update_self.1 hc)
  constructor
  case cases =>
    intro ticket hmem
    rw [hent] at hmem
    rw [hrep, List.mem_append, List.mem_singleton]
    rcases R.cases ticket hmem with hold | ⟨c, hc, heq⟩
    · exact .inl (.inl hold)
    · by_cases hct : c = t
      · subst hct
        exact .inl (.inr heq.symm)
      · exact .inr ⟨c, (works_update_of_ne hct).2 hc, by
          simpa only [Function.update_of_ne hct] using heq⟩
  case entered =>
    intro ticket hmem
    rw [hrep, List.mem_append, List.mem_singleton] at hmem
    rw [hent]
    rcases hmem with hold | rfl
    · exact R.entered ticket hold
    · exact R.works t hworks
  case works =>
    intro c hc
    have hct := hne hc
    rw [works_update_of_ne hct] at hc
    simpa [hent, hct] using R.works c hc
  case unreported =>
    intro c hc
    have hct := hne hc
    rw [works_update_of_ne hct] at hc
    rw [hrep, List.mem_append, List.mem_singleton, not_or]
    simp only [Function.update_of_ne hct]
    exact ⟨R.unreported c hc, fun heq => hct (hinj c hc heq)⟩
  case nodup =>
    rw [hrep]
    refine List.Nodup.append R.nodup (List.nodup_singleton _) ?_
    rw [List.disjoint_singleton]
    exact R.unreported t hworks
  case entered_nodup => rw [hent]; exact R.entered_nodup

theorem step (R : Reported events s) (I : InputInv s)
    (O : TicketBoard.Orderly (s.tickets file events))
    (h : ProcessStep file W s t event (m, p)) :
    Reported (events ++ [(t, event)]) ⟨m, Function.update s.pc t p⟩ := by
  rcases h.works_cases with ⟨hentered, hresults, hworks, hticket⟩ |
    ⟨rfl, hop, hworks, hnot, i, hpc⟩ | ⟨ret, rfl, hnot, hworks⟩
  · exact R.quiet hentered hresults hworks hticket
  · refine R.enter ?_ hop hworks hnot
    have hreg : s.shared.input.beingProcessed t = true := by rw [I.registered, hpc]; rfl
    have hboard := System.board_of_registered hreg
    rw [hpc] at hboard
    exact O.notMem_admitted hboard
  · exact R.result hworks hnot fun c hc heq => I.ticket_inj O hc hworks heq

end Reported

namespace Ended

theorem init {ops : Fin THREADS → Operation} :
    Ended file threads (System.init threads mem ops : System μ ω) := by
  constructor
  case exited | aborted =>
    intro t hpc
    simp only [System.init] at hpc
    split at hpc <;> cases hpc
  case present | absent =>
    intro t ht
    simp [System.init, ht]

theorem step (E : Ended file threads s) (h : ProcessStep file W s t event (m, p)) :
    Ended file threads ⟨m, Function.update s.pc t p⟩ := by
  have hcurr : s.shared.input.curr ≤ m.input.curr := by
    cases h with
    | read => exact Nat.le_succ _
    | _ => exact le_rfl
  have hown : (p.pc = .exited → file.records.length ≤ m.input.curr) ∧
      (p.pc = .aborted → file.spoilt = true) ∧ (t ∈ threads → p.pc ≠ .absent) := by
    cases h with
    | eof hpc hend => exact ⟨fun _ => hend, nofun, nofun⟩
    | abort hpc hend hfile => exact ⟨nofun, fun _ => hfile, nofun⟩
    | spurious => exact ⟨E.exited t, E.aborted t, E.present t⟩
    | _ => exact ⟨nofun, nofun, nofun⟩
  constructor
  case exited =>
    intro c hpc
    by_cases hc : c = t
    · subst hc
      exact hown.1 (by simpa using hpc)
    · exact (E.exited c (by simpa [hc] using hpc)).trans hcurr
  case aborted =>
    intro c hpc
    by_cases hc : c = t
    · subst hc
      exact hown.2.1 (by simpa using hpc)
    · exact E.aborted c (by simpa [hc] using hpc)
  case present =>
    intro c hmem
    by_cases hc : c = t
    · subst hc
      simpa using hown.2.2 hmem
    · simpa [hc] using E.present c hmem
  case absent =>
    intro c hmem
    have hold := E.absent c hmem
    by_cases hc : c = t
    · subst hc
      suffices hp : p.pc = .absent by simpa using hp
      cases h with
      | spurious => exact hold
      | readOp hpc | read hpc | eof hpc | abort hpc | wait hpc | next hpc | enter hpc | wake hpc
      | work hpc | finish hpc | doneOne hpc | broadcast hpc | clear hpc | unlock hpc =>
        cases hpc.symm.trans hold
    · simpa [hc] using hold

end Ended

/-- When all threads have finished, every record has entered. -/
theorem entered_of_finished (I : InputInv s) (O : TicketBoard.Orderly (s.tickets file events))
    (E : Ended file threads s) (hfile : file.spoilt = false) (hthreads : threads.Nonempty)
    (hfinished : ∀ t, (s.pc t).pc.finished = true) (key : BitVec 64) :
    ((entered events).filter (·.key = key)).map (·.id) =
      (file.records.filter (·.key = key)).map (·.id) := by
  have hcurr : file.records.length ≤ s.shared.input.curr := by
    obtain ⟨t, ht⟩ := hthreads
    have hpc := hfinished t
    cases hpc' : (s.pc t).pc with
    | absent => exact (E.present t ht hpc').elim
    | exited => exact E.exited t hpc'
    | aborted => cases hfile.symm.trans (E.aborted t hpc')
    | _ =>
      rw [hpc'] at hpc
      cases hpc
  have hnone (t : Fin THREADS) : s.board t = none := by
    have hpc := hfinished t
    rw [System.board, I.registered]
    revert hpc
    cases (s.pc t).pc <;> simp [ProcessPc.finished, ProcessPc.registered]
  have heq := O.numbersOf_eq hnone key
  simp only [System.tickets, numbersOf_ticket, List.take_of_length_le hcurr] at heq
  exact (map_toNat_injective heq).symm

/-- What holds of every run. -/
theorem ProcessRun.facts (hids : file.Increasing) (run : ProcessRun file W threads mem events s) :
    InputInv s ∧ TicketBoard.Orderly (s.tickets file events) ∧ Reported events s ∧
      Ended file threads s := by
  obtain ⟨ops, htrace⟩ := run
  refine htrace.history (I := fun events s => InputInv s ∧
    TicketBoard.Orderly (System.tickets file events s) ∧ Reported events s ∧ Ended file threads s)
    ⟨.init, .init, .init, .init⟩ ?_
  rintro events s _ _ ⟨I, O, R, E⟩ ⟨h⟩
  exact ⟨I.step h, h.orderly I hids O, R.step I O h, E.step h⟩

end CS330
