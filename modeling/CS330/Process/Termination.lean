import CS330.Process.Waiting

/-! # How long the threads run

Every thread has a bound on the steps that it takes until its operation is done, a record that is
still to be read brings a bound of its own, and a broadcast pays for the threads that it wakes. So
every step but a spurious wake-up makes the potential of the system smaller. -/

namespace CS330

variable {μ ω : Type*} {file : OpFile} {W : Work μ ω} {s : System μ ω}
  {t : Fin THREADS} {m : Shared μ} {p : Process ω} {event : ProcessEvent}
  {threads : Finset (Fin THREADS)} {mem : μ} {events : List (Fin THREADS × ProcessEvent)}
  {rank : Operation → ω → Nat} {k : Nat}

/-- A bound on the steps of a thread until it has done its operation. An operation at `w` takes
`rank op w` more steps, and no more than `k`. -/
def Process.steps (rank : Operation → ω → Nat) (k : Nat) (p : Process ω) : Nat :=
  match p.pc with
  | .absent | .exited | .aborted => 0
  | .reading => 1
  | .readOp => 2
  | .unlock => 3
  | .clear => 4
  | .broadcast => 5 + THREADS * (THREADS + 2)
  | .doneOne => 6 + THREADS * (THREADS + 2)
  | .work w => 7 + THREADS * (THREADS + 2) + rank p.op w
  | .scan i => 8 + THREADS * (THREADS + 2) + k + (THREADS - i)
  | .wait => 9 + THREADS * (THREADS + 2) + k + THREADS

/-- The records to be read, the steps of the threads, and the threads that are not asleep. -/
def System.potential (file : OpFile) (rank : Operation → ω → Nat) (k : Nat) (s : System μ ω) :
    Nat :=
  (8 + THREADS * (THREADS + 2) + k + THREADS) * (file.records.length - s.shared.input.curr) +
    Threads.total (Process.steps rank k) s +
    (THREADS + 2) * (THREADS - s.shared.input.cond.card)

def ProcessEvent.isSpurious : ProcessEvent → Bool
  | spurious => true
  | _ => false

/-- The number of spurious wake-ups. -/
def spuriousCount (events : List (Fin THREADS × ProcessEvent)) : Nat :=
  events.countP fun event => event.2.isSpurious

theorem card_le_threads (cond : Finset (Fin THREADS)) : cond.card ≤ THREADS :=
  cond.card_le_univ.trans_eq (Fintype.card_fin THREADS)

theorem mul_sub_succ {a n x : Nat} (h : x + 1 ≤ n) : a * (n - x) = a * (n - (x + 1)) + a := by
  rw [← Nat.mul_succ]
  congr 1
  omega

theorem ProcessStep.potential_le (I : InputInv s) (h : ProcessStep file W s t event (m, p))
    (hstart : ∀ op, rank op W.start ≤ k)
    (hwork : ∀ w m' op' w', (s.pc t).pc = .work w →
      W.step (s.shared.mem, (s.pc t).op, w) (m', op', w') → rank op' w' < rank (s.pc t).op w) :
    System.potential file rank k ⟨m, Function.update s.pc t p⟩ + 1 ≤
      s.potential file rank k + (THREADS + 3) * if event.isSpurious = true then 1 else 0 := by
  have htotal := Threads.total_update (Process.steps rank k) (s := s) (t := t) (m := m) (p := p)
  unfold System.potential
  generalize Threads.total (Process.steps rank k)
    (⟨m, Function.update s.pc t p⟩ : System μ ω) = after at htotal ⊢
  generalize Threads.total (Process.steps rank k) s = before at htotal ⊢
  cases h with
  | readOp hpc | wake hpc | doneOne hpc =>
    simp only [Process.steps, hpc, Process.goto, Shared.acquire] at htotal ⊢
    omega
  | eof hpc | abort hpc | unlock hpc =>
    simp only [Process.steps, hpc, Process.goto, Shared.release] at htotal ⊢
    omega
  | read hpc hrecord =>
    have hlt : s.shared.input.curr + 1 ≤ file.records.length :=
      (List.getElem?_eq_some_iff.1 hrecord).1
    rw [mul_sub_succ hlt]
    simp only [Process.steps, hpc] at htotal ⊢
    omega
  | wait hpc hi hblocks =>
    have hnot : t ∉ s.shared.input.cond := fun hcond => by simp [I.asleep t hcond] at hpc
    have hcard := card_le_threads (insert t s.shared.input.cond)
    rw [Finset.card_insert_of_notMem hnot] at hcard ⊢
    rw [mul_sub_succ hcard]
    simp only [Process.steps, hpc, Process.goto] at htotal ⊢
    omega
  | next hpc hi =>
    simp only [Process.steps, hpc, Process.goto] at htotal ⊢
    omega
  | enter hpc =>
    have hle := hstart (s.pc t).op
    simp only [Process.steps, hpc, Process.goto, Shared.release] at htotal ⊢
    omega
  | spurious hcond =>
    have hcard := Finset.card_erase_add_one hcond
    have hle := card_le_threads s.shared.input.cond
    have hmul := mul_sub_succ (a := THREADS + 2) (hcard.trans_le hle)
    rw [hcard] at hmul
    simp only [ProcessEvent.isSpurious, if_true]
    omega
  | work hpc hstep =>
    have hlt := hwork _ _ _ _ hpc hstep
    simp only [Process.steps, hpc] at htotal ⊢
    omega
  | finish hpc =>
    simp only [Process.steps, hpc, Process.goto] at htotal ⊢
    omega
  | broadcast hpc =>
    have hcomm := Nat.mul_comm (THREADS + 2) THREADS
    simp only [Process.steps, hpc, Process.goto, Finset.card_empty, Nat.sub_zero] at htotal ⊢
    omega
  | clear hpc =>
    simp only [Process.steps, hpc, Process.goto] at htotal ⊢
    omega

theorem System.potential_init {ops : Fin THREADS → Operation} :
    (System.init threads mem ops : System μ ω).potential file rank k ≤
      (8 + THREADS * (THREADS + 2) + k + THREADS) * file.records.length +
        THREADS * (THREADS + 4) := by
  have htotal := Threads.total_le (Process.steps rank k)
    (s := (System.init threads mem ops : System μ ω)) (k := 2) fun t => by
      simp only [Process.steps, System.init]
      split_ifs <;> simp
  rw [Fintype.card_fin] at htotal
  have hmul : THREADS * (THREADS + 4) = (THREADS + 2) * THREADS + THREADS * 2 := by
    rw [Nat.mul_comm (THREADS + 2), ← Nat.mul_add]
  simp only [potential, System.init, Finset.card_empty, Nat.sub_zero] at htotal ⊢
  omega

/-- A run has no more steps than the records, the threads and its spurious wake-ups allow, when
the steps of each operation bring it closer to its end in every reachable state. -/
theorem ProcessRun.length_le (hstart : ∀ op, rank op W.start ≤ k)
    (hwork : ∀ events s, ProcessRun file W threads mem events s → ∀ t w m' op' w',
      (s.pc t).pc = .work w → W.step (s.shared.mem, (s.pc t).op, w) (m', op', w') →
        rank op' w' < rank (s.pc t).op w)
    (run : ProcessRun file W threads mem events s) :
    events.length ≤ (8 + THREADS * (THREADS + 2) + k + THREADS) * file.records.length +
      THREADS * (THREADS + 4) + (THREADS + 3) * spuriousCount events := by
  obtain ⟨ops, htrace⟩ := run
  suffices hle : events.length + s.potential file rank k ≤
      (System.init threads mem ops).potential file rank k +
        (THREADS + 3) * spuriousCount events by
    have hinit : (System.init threads mem ops : System μ ω).potential file rank k ≤ _ :=
      System.potential_init
    omega
  refine (htrace.history (I := fun events s => ProcessRun file W threads mem events s ∧
    events.length + System.potential file rank k s ≤
      (System.init threads mem ops).potential file rank k + (THREADS + 3) * spuriousCount events)
    ⟨⟨ops, .nil⟩, by simp [spuriousCount]⟩ ?_).2
  rintro events s _ _ ⟨run, hle⟩ ⟨h⟩
  refine ⟨run.snoc h, ?_⟩
  have hstep := h.potential_le (InputInv.of_run run) hstart (hwork events s run _)
  rw [List.length_append, spuriousCount, List.countP_append, List.countP_singleton,
    Nat.mul_add, ← spuriousCount]
  simp only [List.length_singleton]
  omega

end CS330
