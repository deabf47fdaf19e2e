import CS330.Process.Pages
import CS330.Process.Parallel

/-! # The hash program on the bytes of its file

`ProcessRun` takes the file as a list of records. Here `in->curr` is an address and `read_op` copies
what it finds there, so that a thread may leave the pages of the file when it looks for its end. The
runs are runs on the records, and none gets stuck exactly when the last page has room for the copies
that the threads make behind the end. -/

namespace CS330

/-- The threads of `process`, with the address in `in->curr`. -/
structure MappedSystem (μ ω : Type*) where
  curr : Nat
  sys : System μ ω

/-- The bytes that `read_op` copies lie in the pages of the file. -/
def Mapping.CanCopy (file : Mapping) (curr : Nat) : Prop :=
  file.buff ≤ curr ∧ curr + (SIZEOF_OP - 8) ≤ file.pagesEnd

/-- A step of a thread. There is none where `read_op` copies bytes that are not mapped: the kernel
ends the program. -/
inductive MappedStep {μ ω : Type*} (file : Mapping) (W : Work μ ω) (s : MappedSystem μ ω) :
    Fin THREADS × ProcessEvent → MappedSystem μ ω → Prop where
  | read {t : Fin THREADS} {curr : Nat} {op : Operation} (hpc : (s.sys.pc t).pc = .reading)
    (hcopy : file.CanCopy s.curr)
    (hread : readRecord file s.curr (s.sys.pc t).op = some (curr, op)) (hend : curr ≤ file.endptr) :
    MappedStep file W s (t, .silent) ⟨curr,
      ⟨{ s.sys.shared with
          input.curr := s.sys.shared.input.curr + 1
          input.beingProcessed := Function.update s.sys.shared.input.beingProcessed t true },
        Function.update s.sys.pc t ⟨op, .scan 0⟩⟩⟩
  | eof {t : Fin THREADS} {curr : Nat} {op : Operation} (hpc : (s.sys.pc t).pc = .reading)
    (hcopy : file.CanCopy s.curr)
    (hread : readRecord file s.curr (s.sys.pc t).op = some (curr, op)) (hend : file.endptr < curr) :
    MappedStep file W s (t, .silent) ⟨curr,
      ⟨s.sys.shared.release, Function.update s.sys.pc t ⟨op, .exited⟩⟩⟩
  | abort {t : Fin THREADS} (hpc : (s.sys.pc t).pc = .reading) (hcopy : file.CanCopy s.curr)
    (hread : readRecord file s.curr (s.sys.pc t).op = none) :
    MappedStep file W s (t, .silent) ⟨s.curr,
      ⟨s.sys.shared.release, Function.update s.sys.pc t ((s.sys.pc t).goto .aborted)⟩⟩
  /-- The steps that do not read the file. -/
  | other {t : Fin THREADS} {event : ProcessEvent} {m : Shared μ} {p : Process ω} {anyFile : OpFile}
    (hpc : (s.sys.pc t).pc ≠ .reading) (h : ProcessStep anyFile W s.sys t event (m, p)) :
    MappedStep file W s (t, event) ⟨s.curr, ⟨m, Function.update s.sys.pc t p⟩⟩

/-- Runs of `threads` on a file. -/
def MappedRun {μ ω : Type*} (file : Mapping) (W : Work μ ω) (threads : Finset (Fin THREADS)) (mem : μ)
    (events : List (Fin THREADS × ProcessEvent)) (s : MappedSystem μ ω) : Prop :=
  ∃ ops, Trace (MappedStep file W) ⟨file.buff, System.init threads mem ops⟩ events s

def ProcessPc.hasExited {ω : Type*} : ProcessPc ω → Bool
  | exited => true
  | _ => false

/-- The threads that have read the end of the file. -/
def System.exited {μ ω : Type*} (s : System μ ω) : Finset (Fin THREADS) :=
  Finset.univ.filter fun t => (s.pc t).pc.hasExited = true

variable {μ ω : Type*} {file : Mapping} {recs : List Record} {W : Work μ ω} {mem : μ}
  {threads : Finset (Fin THREADS)} {sys : System μ ω} {s s' : MappedSystem μ ω} {t : Fin THREADS}
  {events : List (Fin THREADS × ProcessEvent)} {event : ProcessEvent} {m : Shared μ} {p : Process ω}

theorem ProcessPc.hasExited_iff {pc : ProcessPc ω} : pc.hasExited = true ↔ pc = .exited := by
  cases pc <;> simp [hasExited]

theorem Mapping.canCopy_iff {curr : Nat} :
    file.CanCopy curr ↔ file.buff ≤ curr ∧ curr + 24 ≤ file.pagesEnd := Iff.rfl

theorem System.mem_exited : t ∈ sys.exited ↔ (sys.pc t).pc = .exited := by
  rw [exited, Finset.mem_filter, ProcessPc.hasExited_iff, and_iff_right (Finset.mem_univ t)]

/-- A thread that does not end leaves the others ended as they were. -/
theorem System.exited_update (h : p.pc.hasExited = (sys.pc t).pc.hasExited) :
    System.exited ⟨m, Function.update sys.pc t p⟩ = sys.exited := by
  refine Finset.filter_congr fun t' _ => ?_
  by_cases heq : t' = t
  · simp [heq, h]
  · simp [heq]

theorem System.exited_insert (h : p.pc = .exited) :
    System.exited ⟨m, Function.update sys.pc t p⟩ = insert t sys.exited := by
  ext t'
  rw [Finset.mem_insert, mem_exited, mem_exited]
  by_cases heq : t' = t
  · simp [heq, h]
  · simp [heq]

/-- A step that does not read the file is one on every file, and ends no loop. -/
theorem ProcessStep.of_ne_reading {anyFile : OpFile} (hpc : (sys.pc t).pc ≠ .reading)
    (h : ProcessStep anyFile W sys t event (m, p)) (opFile : OpFile) :
    ProcessStep opFile W sys t event (m, p) ∧ m.input.curr = sys.shared.input.curr ∧
      p.pc.hasExited = (sys.pc t).pc.hasExited := by
  cases h with
  | read hread | eof hread | abort hread => exact (hpc hread).elim
  | readOp hpc hlock => exact ⟨.readOp hpc hlock, rfl, by rw [hpc]; rfl⟩
  | wait hpc hi hblocks => exact ⟨.wait hpc hi hblocks, rfl, by rw [hpc]; rfl⟩
  | next hpc hi hblocks => exact ⟨.next hpc hi hblocks, rfl, by rw [hpc]; rfl⟩
  | enter hpc hi => exact ⟨.enter hpc hi, rfl, by rw [hpc]; rfl⟩
  | spurious hcond => exact ⟨.spurious hcond, rfl, rfl⟩
  | wake hpc hcond hlock => exact ⟨.wake hpc hcond hlock, rfl, by rw [hpc]; rfl⟩
  | work hpc hwork => exact ⟨.work hpc hwork, rfl, by rw [hpc]; rfl⟩
  | finish hpc hret => exact ⟨.finish hpc hret, rfl, by rw [hpc]; rfl⟩
  | doneOne hpc hlock => exact ⟨.doneOne hpc hlock, rfl, by rw [hpc]; rfl⟩
  | broadcast hpc => exact ⟨.broadcast hpc, rfl, by rw [hpc]; rfl⟩
  | clear hpc => exact ⟨.clear hpc, rfl, by rw [hpc]; rfl⟩
  | unlock hpc => exact ⟨.unlock hpc, rfl, by rw [hpc]; rfl⟩

/-! ## The address in `in->curr` -/

/-- `in->curr` has moved over a record in each call, or over 24 bytes when there was none, and these
bytes were mapped. -/
structure MappedInv (file : Mapping) (recs : List Record) (s : MappedSystem μ ω) : Prop where
  curr : s.curr = offset file recs s.sys.shared.input.curr + 24 * s.sys.exited.card
  le : s.sys.shared.input.curr ≤ recs.length
  ended : s.sys.exited.Nonempty → s.sys.shared.input.curr = recs.length
  room : file.endptr + 24 * s.sys.exited.card ≤ file.pagesEnd

namespace MappedInv

theorem init {ops : Fin THREADS → Operation} :
    MappedInv file recs (⟨file.buff, System.init threads mem ops⟩ : MappedSystem μ ω) := by
  have hnone : (System.init threads mem ops : System μ ω).exited = ∅ := by
    refine Finset.eq_empty_of_forall_notMem fun t ht => ?_
    rw [System.mem_exited] at ht
    by_cases hmem : t ∈ threads <;> simp [System.init, hmem] at ht
  refine ⟨?_, Nat.zero_le _, ?_, ?_⟩
  · rw [hnone]
    simp [System.init, offset]
  · simp [hnone]
  · simpa [hnone] using Mapping.endptr_le_pagesEnd

/-- What a call reads: the next record, or zeros behind the end. -/
theorem read (I : MappedInv file recs s) (hfile : file.HoldsRecords recs) (hzero : file.ZeroTail)
    (hcopy : file.CanCopy s.curr) (op : Operation) : ∃ curr op',
    readRecord file s.curr op = some (curr, op') ∧
    ((∃ record, (file.opFile recs).records[s.sys.shared.input.curr]? = some record ∧
        op' = op.read record ∧ s.sys.exited = ∅ ∧
        curr = offset file recs (s.sys.shared.input.curr + 1)) ∨
      s.sys.shared.input.curr = recs.length ∧ s.curr = file.endptr + 24 * s.sys.exited.card ∧
        curr = s.curr + 24) := by
  have hcurr := I.curr
  rcases Nat.lt_or_eq_of_le I.le with hlt | heq
  · have hexited : s.sys.exited = ∅ := by
      by_contra hne
      exact hlt.ne (I.ended (Finset.nonempty_iff_ne_empty.2 hne))
    rw [hexited, Finset.card_empty, Nat.mul_zero, Nat.add_zero] at hcurr
    rw [hcurr]
    obtain ⟨record, hrecord⟩ :
        ∃ record, (file.opFile recs).records[s.sys.shared.input.curr]? = some record :=
      ⟨_, List.getElem?_eq_getElem (by simpa [Mapping.opFile] using hlt)⟩
    exact ⟨_, _, readRecord_opFile hfile hrecord, .inl ⟨record, hrecord, rfl, hexited, rfl⟩⟩
  · rw [heq, offset_length hfile] at hcurr
    have hend := (Mapping.canCopy_iff.1 hcopy).2
    exact ⟨_, _, readRecord_of_zero fun a ha ha' => hzero a (by omega) (by omega),
      .inr ⟨heq, hcurr, rfl⟩⟩

/-- Every step is one on the records of the file. -/
theorem step (I : MappedInv file recs s) (hfile : file.HoldsRecords recs) (hzero : file.ZeroTail)
    (h : MappedStep file W s (t, event) s') : ∃ m p,
      ProcessStep (file.opFile recs) W s.sys t event (m, p) ∧
        s'.sys = ⟨m, Function.update s.sys.pc t p⟩ ∧ MappedInv file recs s' := by
  cases h with
  | @read _ curr op hpc hcopy hread hend =>
    obtain ⟨_, _, hread', hcases⟩ := I.read hfile hzero hcopy (s.sys.pc t).op
    cases hread.symm.trans hread'
    rcases hcases with ⟨record, hrecord, rfl, hexited, rfl⟩ | ⟨-, hcurr, rfl⟩
    · refine ⟨_, _, .read hpc hrecord, rfl, ?_⟩
      have hlt : s.sys.shared.input.curr < recs.length := by
        simpa [Mapping.opFile] using (List.getElem?_eq_some_iff.1 hrecord).1
      have hnone (m : Shared μ) : System.exited
          ⟨m, Function.update s.sys.pc t ⟨(s.sys.pc t).op.read record, .scan 0⟩⟩ = ∅ :=
        (System.exited_update (by rw [hpc]; rfl)).trans hexited
      refine ⟨?_, hlt, fun hne => absurd (hnone _) hne.ne_empty, ?_⟩
      · rw [hnone]
        rfl
      · rw [hnone]
        exact Mapping.endptr_le_pagesEnd
    · omega
  | @eof _ curr op hpc hcopy hread hend =>
    obtain ⟨_, _, hread', hcases⟩ := I.read hfile hzero hcopy (s.sys.pc t).op
    cases hread.symm.trans hread'
    rcases hcases with ⟨record, -, -, -, rfl⟩ | ⟨hall, hcurr, rfl⟩
    · exact absurd (offset_le_endptr hfile) (Nat.not_le.2 hend)
    · refine ⟨_, _, .eof hpc (by simp [Mapping.opFile, hall]) rfl, rfl, ?_⟩
      have hnot : t ∉ s.sys.exited := by
        rw [System.mem_exited, hpc]
        rintro ⟨⟩
      have hcard : (System.exited ⟨s.sys.shared.release,
          Function.update s.sys.pc t ⟨op, .exited⟩⟩).card = s.sys.exited.card + 1 := by
        rw [System.exited_insert rfl, Finset.card_insert_of_notMem hnot]
      have hmapped := (Mapping.canCopy_iff.1 hcopy).2
      refine ⟨?_, I.le, fun _ => hall, ?_⟩
      · change s.curr + 24 = offset file recs s.sys.shared.input.curr + 24 * _
        rw [hcard, hall, offset_length hfile]
        omega
      · rw [hcard]
        omega
  | abort hpc hcopy hread =>
    obtain ⟨_, _, hread', -⟩ := I.read hfile hzero hcopy (s.sys.pc t).op
    cases hread.symm.trans hread'
  | @other _ _ m p _ hpc h =>
    obtain ⟨hstep, hcurr, hsame⟩ := h.of_ne_reading hpc (file.opFile recs)
    have hexited := System.exited_update (m := m) hsame
    refine ⟨_, _, hstep, rfl, ⟨?_, ?_, ?_, ?_⟩⟩
    · rw [hexited, hcurr]
      exact I.curr
    · rw [hcurr]
      exact I.le
    · rw [hexited, hcurr]
      exact I.ended
    · rw [hexited]
      exact I.room

/-- If there is room for the copies behind the end, a step on the records is possible on the bytes. -/
theorem exists_step (I : MappedInv file recs s) (hfile : file.HoldsRecords recs)
    (hzero : file.ZeroTail) (hroom : file.endptr + 24 * threads.card ≤ file.pagesEnd)
    (hsub : ∀ t ∉ threads, (s.sys.pc t).pc = .absent)
    (hcan : CanStep (file.opFile recs) W s.sys) :
    ∃ t event s', MappedStep file W s (t, event) s' ∧ event ≠ .spurious := by
  obtain ⟨t, event, m, p, hstep, hevent⟩ := hcan
  by_cases hpc : (s.sys.pc t).pc = .reading
  · have hmem : t ∈ threads := by
      by_contra hnot
      cases hpc.symm.trans (hsub t hnot)
    have hlt : s.sys.exited.card < threads.card := by
      refine Finset.card_lt_card ⟨fun t' ht' => ?_, fun hle => ?_⟩
      · rw [System.mem_exited] at ht'
        by_contra hnot
        cases ht'.symm.trans (hsub t' hnot)
      · cases hpc.symm.trans (System.mem_exited.1 (hle hmem))
    have hcopy : file.CanCopy s.curr := by
      have hcurr := I.curr
      have hoffset : offset file recs s.sys.shared.input.curr ≤ file.endptr := offset_le_endptr hfile
      have hbuff : file.buff ≤ offset file recs s.sys.shared.input.curr := Nat.le_add_right ..
      exact Mapping.canCopy_iff.2 ⟨by omega, by omega⟩
    obtain ⟨curr, op, hread, -⟩ := I.read hfile hzero hcopy (s.sys.pc t).op
    rcases Nat.lt_or_ge file.endptr curr with hend | hend
    · exact ⟨t, _, _, .eof hpc hcopy hread hend, nofun⟩
    · exact ⟨t, _, _, .read hpc hcopy hread hend, nofun⟩
  · exact ⟨t, event, _, .other hpc hstep, hevent⟩

end MappedInv

theorem MappedRun.snoc {e : Fin THREADS × ProcessEvent} (run : MappedRun file W threads mem events s)
    (h : MappedStep file W s e s') : MappedRun file W threads mem (events ++ [e]) s' :=
  run.imp fun _ htrace => .snoc htrace h

/-- The runs on the bytes of a file are runs on its records. -/
theorem MappedRun.simulates (hfile : file.HoldsRecords recs) (hzero : file.ZeroTail)
    (run : MappedRun file W threads mem events s) :
    ProcessRun (file.opFile recs) W threads mem events s.sys ∧ MappedInv file recs s := by
  obtain ⟨ops, htrace⟩ := run
  refine htrace.history (I := fun events s =>
    ProcessRun (file.opFile recs) W threads mem events s.sys ∧ MappedInv file recs s)
    ⟨⟨ops, .nil⟩, .init⟩ ?_
  rintro events s ⟨t, event⟩ s' ⟨run, I⟩ h
  obtain ⟨m, p, hstep, hsys, I'⟩ := I.step hfile hzero h
  exact ⟨hsys ▸ run.snoc hstep, I'⟩

end CS330
