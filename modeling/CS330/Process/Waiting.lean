import CS330.Process.Basic
import Mathlib.Data.Fintype.EquivFin
import Mathlib.Data.Fintype.Lattice

/-! # Who waits for whom

The mutex, the slots of `being_processed` and the sleeping threads are tied to where the threads
stand (`InputInv`). A slot is cleared under the mutex, after a broadcast: then nobody sleeps, and a
thread that sleeps in any other state still has the thread that it went to sleep for. -/

namespace CS330

variable {μ ω : Type*} {file : OpFile} {W : Work μ ω} {s s' : System μ ω}
  {t t' a b : Fin THREADS} {m : Shared μ} {p : Process ω} {event : ProcessEvent}

namespace ProcessPc

/-- The thread holds the mutex. -/
def holdsLock : ProcessPc ω → Bool
  | reading | scan _ | broadcast | clear | unlock => true
  | _ => false

/-- The slot of the thread points to its operation. -/
def registered : ProcessPc ω → Bool
  | scan _ | wait | work _ | doneOne | broadcast | clear => true
  | _ => false

/-- The thread is between the return 0 of `read_op` and the point where `done_one` clears its
slot. -/
def inside : ProcessPc ω → Bool
  | work _ | doneOne | broadcast | clear => true
  | _ => false

end ProcessPc

@[simp] theorem Process.goto_pc {pc : ProcessPc ω} : (p.goto pc).pc = pc := rfl

@[simp] theorem Process.goto_op {pc : ProcessPc ω} : (p.goto pc).op = p.op := rfl

@[simp] theorem Shared.acquire_input :
    (m.acquire t).input = { m.input with lock := some t } := rfl

@[simp] theorem Shared.release_input : m.release.input = { m.input with lock := none } := rfl

/-- What `being_processed` and the mutex have to do with where the threads stand. -/
structure InputInv (s : System μ ω) : Prop where
  lock : ∀ t, s.shared.input.lock = some t ↔ (s.pc t).pc.holdsLock = true
  registered : ∀ t, s.shared.input.beingProcessed t = (s.pc t).pc.registered
  asleep : ∀ t ∈ s.shared.input.cond, (s.pc t).pc = .wait
  cleared : ∀ t, (s.pc t).pc = .clear → s.shared.input.cond = ∅
  scanned : ∀ t i, (s.pc t).pc = .scan i → ∀ t', t'.val < i → ¬Blocks s t t'
  blocked : ∀ t ∈ s.shared.input.cond, ∃ t', Blocks s t t'

/-! ## One step -/

namespace ProcessStep

theorem own_lock (h : ProcessStep file W s t event (m, p))
    (hlock : s.shared.input.lock = some t ↔ (s.pc t).pc.holdsLock = true) :
    m.input.lock = some t ↔ p.pc.holdsLock = true := by
  cases h with
  | readOp hpc | wake hpc | doneOne hpc => simp [ProcessPc.holdsLock]
  | eof hpc | abort hpc | wait hpc | enter hpc | unlock hpc => simp [ProcessPc.holdsLock]
  | spurious => exact hlock
  | read hpc | next hpc | work hpc | finish hpc | broadcast hpc | clear hpc =>
    rw [hpc] at hlock
    simpa [ProcessPc.holdsLock] using hlock

theorem other_lock (h : ProcessStep file W s t event (m, p))
    (hlock : s.shared.input.lock = some t ↔ (s.pc t).pc.holdsLock = true) (hne : t' ≠ t) :
    m.input.lock = some t' ↔ s.shared.input.lock = some t' := by
  cases h with
  | readOp _ hfree | wake _ _ hfree | doneOne _ hfree => simp [hfree, hne.symm]
  | eof hpc | abort hpc | wait hpc | enter hpc | unlock hpc =>
    rw [hpc] at hlock
    simp [hlock.2 rfl, hne.symm]
  | spurious | read | next | work | finish | broadcast | clear => rfl

theorem own_registered (h : ProcessStep file W s t event (m, p))
    (hreg : s.shared.input.beingProcessed t = (s.pc t).pc.registered) :
    m.input.beingProcessed t = p.pc.registered := by
  cases h with
  | read | clear => simp [ProcessPc.registered]
  | spurious => exact hreg
  | readOp hpc | eof hpc | abort hpc | wait hpc | next hpc | enter hpc | wake hpc | work hpc
  | finish hpc | doneOne hpc | broadcast hpc | unlock hpc =>
    rw [hpc] at hreg
    simpa [ProcessPc.registered] using hreg

theorem other_registered (h : ProcessStep file W s t event (m, p)) (hne : t' ≠ t) :
    m.input.beingProcessed t' = s.shared.input.beingProcessed t' := by
  cases h with
  | read | clear => exact Function.update_of_ne hne ..
  | _ => rfl

/-- Only a thread that reads or clears its slot changes what the others see of it. -/
theorem same_slots (h : ProcessStep file W s t event (m, p)) (hread : (s.pc t).pc ≠ .reading)
    (hclear : (s.pc t).pc ≠ .clear) :
    m.input.beingProcessed = s.shared.input.beingProcessed ∧ p.op.id = (s.pc t).op.id ∧
      p.op.key = (s.pc t).op.key := by
  cases h with
  | read hpc | eof hpc | abort hpc => exact (hread hpc).elim
  | clear hpc => exact (hclear hpc).elim
  | work _ hwork => exact ⟨rfl, W.keeps hwork⟩
  | _ => exact ⟨rfl, rfl, rfl⟩

theorem blocks_iff (h : ProcessStep file W s t event (m, p)) (hread : (s.pc t).pc ≠ .reading)
    (hclear : (s.pc t).pc ≠ .clear) :
    Blocks ⟨m, Function.update s.pc t p⟩ a b ↔ Blocks s a b := by
  obtain ⟨hslots, hid, hkey⟩ := h.same_slots hread hclear
  have hop (c : Fin THREADS) : (Function.update s.pc t p c).op.id = (s.pc c).op.id ∧
      (Function.update s.pc t p c).op.key = (s.pc c).op.key := by
    by_cases hc : c = t
    · subst hc
      simp [hid, hkey]
    · simp [hc]
  simp only [Blocks, hslots, hop]

theorem blocks_iff_of_ne (h : ProcessStep file W s t event (m, p)) (ha : a ≠ t) (hb : b ≠ t) :
    Blocks ⟨m, Function.update s.pc t p⟩ a b ↔ Blocks s a b := by
  simp only [Blocks, h.other_registered hb, Function.update_of_ne ha, Function.update_of_ne hb]

/-- A thread falls asleep because it has found another one to wait for. -/
theorem mem_cond (h : ProcessStep file W s t event (m, p)) (ha : a ∈ m.input.cond) :
    a ∈ s.shared.input.cond ∨
      a = t ∧ p.pc = .wait ∧ (∃ i, (s.pc t).pc = .scan i) ∧ ∃ b, Blocks s t b := by
  cases h with
  | wait hpc hi hblocks =>
    rcases Finset.mem_insert.1 ha with rfl | ha
    · exact .inr ⟨rfl, rfl, ⟨_, hpc⟩, _, hblocks⟩
    · exact .inl ha
  | spurious => exact .inl (Finset.mem_of_mem_erase ha)
  | broadcast => cases ha
  | _ => exact .inl ha

/-- A sleeping thread takes no step but to wake up. -/
theorem of_wait (h : ProcessStep file W s t event (m, p)) (hpc : (s.pc t).pc = .wait)
    (hcond : t ∈ s.shared.input.cond) : t ∉ m.input.cond := by
  cases h with
  | spurious => exact Finset.notMem_erase t _
  | wake _ hnot => exact (hnot hcond).elim
  | readOp hpc' | read hpc' | eof hpc' | abort hpc' | wait hpc' | next hpc' | enter hpc' | work hpc'
  | finish hpc' | doneOne hpc' | broadcast hpc' | clear hpc' | unlock hpc' =>
    cases hpc.symm.trans hpc'

theorem cleared (h : ProcessStep file W s t event (m, p)) (hpc : p.pc = .clear)
    (hcleared : (s.pc t).pc = .clear → s.shared.input.cond = ∅) : m.input.cond = ∅ := by
  cases h with
  | broadcast => rfl
  | spurious => simp [hcleared hpc]
  | _ => cases hpc

/-- The loop over `being_processed` has passed over threads that do not block. -/
theorem scanned (h : ProcessStep file W s t event (m, p)) {i : Nat} (hpc : p.pc = .scan i)
    (hi : b.val < i) (hscanned : ∀ i, (s.pc t).pc = .scan i → ∀ b, b.val < i → ¬Blocks s t b) :
    ¬Blocks ⟨m, Function.update s.pc t p⟩ t b := by
  have h₀ := h
  cases h with
  | next hpc' hj hnot =>
    cases hpc
    rw [h₀.blocks_iff (by simp [hpc']) (by simp [hpc'])]
    rcases Nat.lt_succ_iff_lt_or_eq.1 hi with hlt | rfl
    · exact hscanned _ hpc' b hlt
    · exact hnot
  | spurious =>
    rw [h₀.blocks_iff (by simp [hpc]) (by simp [hpc])]
    exact hscanned _ hpc b hi
  | read | wake =>
    cases hpc
    exact (Nat.not_lt_zero _ hi).elim
  | _ => cases hpc

end ProcessStep

/-! ## Runs -/

namespace InputInv

theorem init {threads : Finset (Fin THREADS)} {mem : μ} {ops : Fin THREADS → Operation} :
    InputInv (System.init threads mem ops : System μ ω) := by
  have hpc (t : Fin THREADS) : ((System.init threads mem ops : System μ ω).pc t).pc = .readOp ∨
      ((System.init threads mem ops : System μ ω).pc t).pc = .absent := by
    simp only [System.init]
    split
    · exact .inl rfl
    · exact .inr rfl
  constructor
  case lock =>
    intro t
    rcases hpc t with h | h <;> rw [h] <;> simp [System.init, ProcessPc.holdsLock]
  case registered =>
    intro t
    change false = _
    rcases hpc t with h | h <;> rw [h] <;> rfl
  case asleep => simp [System.init]
  case cleared => exact fun _ _ => rfl
  case scanned =>
    intro t i hscan
    rcases hpc t with h | h <;> cases h.symm.trans hscan
  case blocked => simp [System.init]

/-- The mutex has one holder. -/
theorem holder_unique (I : InputInv s) (h : (s.pc t).pc.holdsLock = true)
    (h' : (s.pc t').pc.holdsLock = true) : t = t' :=
  Option.some_inj.1 (((I.lock t).2 h).symm.trans ((I.lock t').2 h'))

theorem step (I : InputInv s) (h : ProcessStep file W s t event (m, p)) :
    InputInv (⟨m, Function.update s.pc t p⟩ : System μ ω) := by
  -- a thread that holds the mutex sees no slot change by the step of another one
  have hkeep {c : Fin THREADS} (hc : (s.pc c).pc.holdsLock = true) (hne : c ≠ t) :
      (s.pc t).pc ≠ .reading ∧ (s.pc t).pc ≠ .clear :=
    ⟨fun hpc => hne (I.holder_unique hc (by rw [hpc]; rfl)),
      fun hpc => hne (I.holder_unique hc (by rw [hpc]; rfl))⟩
  constructor
  case lock =>
    intro c
    by_cases hc : c = t
    · subst hc
      simpa using h.own_lock (I.lock c)
    · simpa [hc] using (h.other_lock (I.lock t) hc).trans (I.lock c)
  case registered =>
    intro c
    by_cases hc : c = t
    · subst hc
      simpa using h.own_registered (I.registered c)
    · simpa [hc] using (h.other_registered hc).trans (I.registered c)
  case asleep =>
    intro c hcond
    rcases h.mem_cond hcond with hold | ⟨rfl, hpc, -⟩
    · have hne : c ≠ t := by
        rintro rfl
        exact h.of_wait (I.asleep c hold) hold hcond
      simpa [hne] using I.asleep c hold
    · simpa using hpc
  case cleared =>
    intro c hpc
    by_cases hc : c = t
    · subst hc
      exact h.cleared (by simpa using hpc) (I.cleared c)
    · replace hpc : (s.pc c).pc = .clear := by simpa [hc] using hpc
      refine Finset.eq_empty_of_forall_notMem fun a ha => ?_
      rcases h.mem_cond ha with hold | ⟨rfl, -, ⟨i, hscan⟩, -⟩
      · simp [I.cleared c hpc] at hold
      · exact hc (I.holder_unique (by rw [hpc]; rfl) (by rw [hscan]; rfl))
  case scanned =>
    intro c i hpc b hi
    by_cases hc : c = t
    · subst hc
      exact h.scanned (by simpa using hpc) hi (I.scanned c)
    · replace hpc : (s.pc c).pc = .scan i := by simpa [hc] using hpc
      obtain ⟨hread, hclear⟩ := hkeep (by rw [hpc]; rfl) hc
      rw [h.blocks_iff hread hclear]
      exact I.scanned c i hpc b hi
  case blocked =>
    intro c hcond
    rcases h.mem_cond hcond with hold | ⟨rfl, -, ⟨i, hscan⟩, b, hb⟩
    · obtain ⟨b, hb⟩ := I.blocked c hold
      refine ⟨b, ?_⟩
      have hc : c ≠ t := by
        rintro rfl
        exact h.of_wait (I.asleep c hold) hold hcond
      have hclear : (s.pc t).pc ≠ .clear := fun hpc => by simp [I.cleared t hpc] at hold
      by_cases hread : (s.pc t).pc = .reading
      · -- a thread that reads is not registered, so nobody waits for it
        have hbt : b ≠ t := by
          rintro rfl
          have := hb.2.1
          rw [I.registered, hread] at this
          cases this
        rwa [h.blocks_iff_of_ne hc hbt]
      · rwa [h.blocks_iff hread hclear]
    · exact ⟨b, by rwa [h.blocks_iff (by simp [hscan]) (by simp [hscan])]⟩

theorem of_run {threads : Finset (Fin THREADS)} {mem : μ}
    {events : List (Fin THREADS × ProcessEvent)} (run : ProcessRun file W threads mem events s) :
    InputInv s := by
  obtain ⟨ops, htrace⟩ := run
  refine htrace.invariant .init fun I hstep => ?_
  obtain ⟨h⟩ := hstep
  exact I.step h

/-- Among the registered threads there is one that does not sleep: the one whose operation has the
smallest id. -/
theorem exists_awake (I : InputInv s) (hreg : s.shared.input.beingProcessed t = true) :
    ∃ t', s.shared.input.beingProcessed t' = true ∧ t' ∉ s.shared.input.cond := by
  obtain ⟨⟨first, hfirst⟩, hmin⟩ :=
    have : Nonempty {t // s.shared.input.beingProcessed t = true} := ⟨⟨t, hreg⟩⟩
    Finite.exists_min fun t : {t // s.shared.input.beingProcessed t = true} =>
      (s.pc t).op.id.toNat
  refine ⟨first, hfirst, fun hcond => ?_⟩
  obtain ⟨t', -, hreg', -, hlt⟩ := I.blocked first hcond
  exact (hmin ⟨t', hreg'⟩).not_gt (BitVec.lt_def.1 hlt)

end InputInv

/-! ## Progress -/

/-- The thread takes no more steps: it is not there, it has left the loop, or it has stopped at
the assertion. -/
def ProcessPc.finished : ProcessPc ω → Bool
  | absent | exited | aborted => true
  | _ => false

/-- Some thread takes a step that is no spurious wake-up. -/
def CanStep (file : OpFile) (W : Work μ ω) (s : System μ ω) : Prop :=
  ∃ t event m p, ProcessStep file W s t event (m, p) ∧ event ≠ .spurious

/-- The holder of the mutex takes a step. -/
theorem canStep_of_holdsLock (h : (s.pc t).pc.holdsLock = true) : CanStep file W s := by
  cases hpc : (s.pc t).pc with
  | reading =>
    rcases Nat.lt_or_ge s.shared.input.curr file.records.length with hlt | hle
    · exact ⟨t, _, _, _, .read hpc (List.getElem?_eq_getElem hlt), nofun⟩
    · cases hfile : file.spoilt with
      | false => exact ⟨t, _, _, ⟨(s.pc t).op, _⟩, .eof hpc hle hfile, nofun⟩
      | true => exact ⟨t, _, _, ⟨(s.pc t).op, _⟩, .abort hpc hle hfile, nofun⟩
  | scan i =>
    by_cases hi : i < THREADS
    · by_cases hblocks : Blocks s t ⟨i, hi⟩
      · exact ⟨t, _, _, _, .wait hpc hi hblocks, nofun⟩
      · exact ⟨t, _, _, _, .next hpc hi hblocks, nofun⟩
    · exact ⟨t, _, _, _, .enter hpc (Nat.not_lt.1 hi), nofun⟩
  | broadcast => exact ⟨t, _, _, _, .broadcast hpc, nofun⟩
  | clear => exact ⟨t, _, _, _, .clear hpc, nofun⟩
  | unlock => exact ⟨t, _, _, _, .unlock hpc, nofun⟩
  | _ =>
    rw [hpc] at h
    cases h

namespace InputInv

/-- With the mutex free every registered thread that is not at work and does not sleep takes a
step. -/
theorem canStep_of_registered (I : InputInv s) (hlock : s.shared.input.lock = none)
    (hreg : s.shared.input.beingProcessed t = true) (hcond : t ∉ s.shared.input.cond)
    (hwork : ∀ w, (s.pc t).pc ≠ .work w) : CanStep file W s := by
  rw [I.registered] at hreg
  cases hpc : (s.pc t).pc with
  | wait => exact ⟨t, _, _, _, .wake hpc hcond hlock, nofun⟩
  | work w => exact (hwork w hpc).elim
  | doneOne => exact ⟨t, _, _, _, .doneOne hpc hlock, nofun⟩
  | scan | broadcast | clear => exact canStep_of_holdsLock (t := t) (by rw [hpc]; rfl)
  | _ =>
    rw [hpc] at hreg
    cases hreg

/-- As long as a thread has not finished, some thread is at work or takes a step. -/
theorem progress (I : InputInv s) (hunfinished : (s.pc t).pc.finished = false) :
    (∃ t w, (s.pc t).pc = .work w) ∨ CanStep file W s := by
  by_cases hwork : ∃ t w, (s.pc t).pc = .work w
  · exact .inl hwork
  refine .inr ?_
  cases hlock : s.shared.input.lock with
  | some holder => exact canStep_of_holdsLock ((I.lock holder).1 hlock)
  | none =>
    cases hreg : s.shared.input.beingProcessed t with
    | true =>
      obtain ⟨t', hreg', hcond⟩ := I.exists_awake hreg
      exact I.canStep_of_registered hlock hreg' hcond fun w hpc => hwork ⟨t', w, hpc⟩
    | false =>
      rw [I.registered] at hreg
      cases hpc : (s.pc t).pc with
      | readOp => exact ⟨t, _, _, _, .readOp hpc hlock, nofun⟩
      | reading | unlock => exact canStep_of_holdsLock (t := t) (by rw [hpc]; rfl)
      | absent | exited | aborted =>
        rw [hpc] at hunfinished
        cases hunfinished
      | _ =>
        rw [hpc] at hreg
        cases hreg

end InputInv

/-- No lost wake-up. In every reachable state each thread that sleeps in `pthread_cond_wait` has
another thread whose registered operation has the same key and a smaller id. So not all registered
threads sleep, and as long as a thread has not finished, some thread is at work or takes a step. -/
theorem ProcessRun.no_lost_wakeup {threads : Finset (Fin THREADS)} {mem : μ}
    {events : List (Fin THREADS × ProcessEvent)} (run : ProcessRun file W threads mem events s) :
    (∀ t ∈ s.shared.input.cond, (s.pc t).pc = .wait ∧
      ∃ t' ≠ t, s.shared.input.beingProcessed t' = true ∧ (s.pc t').op.key = (s.pc t).op.key ∧
        (s.pc t').op.id < (s.pc t).op.id) ∧
    ((∃ t, s.shared.input.beingProcessed t = true) →
      ∃ t, s.shared.input.beingProcessed t = true ∧ t ∉ s.shared.input.cond) ∧
    ((∃ t, (s.pc t).pc.finished = false) → (∃ t w, (s.pc t).pc = .work w) ∨ CanStep file W s) := by
  have I := InputInv.of_run run
  refine ⟨fun t hcond => ⟨I.asleep t hcond, ?_⟩, fun ⟨t, hreg⟩ => I.exists_awake hreg,
    fun ⟨t, ht⟩ => I.progress ht⟩
  obtain ⟨t', hne, hreg, hkey, hlt⟩ := I.blocked t hcond
  exact ⟨t', hne, hreg, hkey.symm, hlt⟩

/-! ## A run with a sleeping thread -/

section
variable {threads : Finset (Fin THREADS)} {mem : μ} {events : List (Fin THREADS × ProcessEvent)}

theorem ProcessRun.snoc (run : ProcessRun file W threads mem events s)
    (h : ProcessStep file W s t event (m, p)) :
    ProcessRun file W threads mem (events ++ [(t, event)]) ⟨m, Function.update s.pc t p⟩ :=
  run.imp fun _ htrace => .snoc htrace (.mk h)

/-- A thread that nobody blocks gets through the loop over `being_processed`. -/
theorem ProcessRun.pass (run : ProcessRun file W threads mem events s)
    (hpc : (s.pc t).pc = .scan 0) (hfree : ∀ t', ¬Blocks s t t') {i : Nat} (hi : i ≤ THREADS) :
    ProcessRun file W threads mem (events ++ List.replicate i (t, .silent))
      ⟨s.shared, Function.update s.pc t ((s.pc t).goto (.scan i))⟩ := by
  induction i with
  | zero =>
    have hgoto : (s.pc t).goto (.scan 0) = s.pc t := by rw [← hpc, Process.goto]
    rw [hgoto, Function.update_eq_self]
    simpa using run
  | succ i ih =>
    have hstep := (ih (by omega)).snoc (t := t) <| .next (by simp) (by omega : i < THREADS) <| by
      have hop (c : Fin THREADS) :
          (Function.update s.pc t ((s.pc t).goto (.scan i)) c).op = (s.pc c).op := by
        by_cases hc : c = t
        · subst hc
          simp
        · simp [hc]
      simpa only [Blocks, hop] using hfree ⟨i, by omega⟩
    rw [List.replicate_succ', ← List.append_assoc]
    simpa [Process.goto] using hstep

end

/-- An operation that does nothing. -/
def Work.skip : Work Unit Unit where
  start := ()
  step := fun _ _ => False
  returned := fun _ => some 0
  keeps := nofun

/-- Two records with one key. -/
def twoPuts : OpFile := ⟨[⟨1, 7, .put, 8, 16⟩, ⟨2, 7, .put, 8, 32⟩], false⟩

/-- While the first of two threads is at work on the key, the second one falls asleep. -/
theorem exists_sleeper : ∃ (events : List (Fin THREADS × ProcessEvent)) (s : System Unit Unit),
    ProcessRun twoPuts Work.skip {0, 1} () events s ∧ 1 ∈ s.shared.input.cond ∧
      (s.pc 0).pc = .work () := by
  have run : ProcessRun twoPuts Work.skip {0, 1} () []
      (.init {0, 1} () fun _ => ⟨0, 0, .get, 0, 0⟩) := ⟨_, .nil⟩
  have run := run.snoc (t := 0) (.readOp rfl rfl)
  have run := run.snoc (t := 0) (.read rfl rfl)
  have run := run.pass (t := 0) rfl (by decide) le_rfl
  have run := run.snoc (t := 0) (.enter rfl le_rfl)
  have run := run.snoc (t := 1) (.readOp rfl rfl)
  have run := run.snoc (t := 1) (.read rfl rfl)
  have run := run.snoc (t := 1) (.wait (i := 0) rfl (by decide) (by decide))
  exact ⟨_, _, run, by simp, rfl⟩

theorem ProcessRun.no_lost_wakeup_of_sleeper : ∃ events s,
    ProcessRun twoPuts Work.skip {0, 1} () events s ∧ 1 ∈ s.shared.input.cond ∧
    ∃ t' ≠ (1 : Fin THREADS), s.shared.input.beingProcessed t' = true ∧
      (s.pc t').op.key = (s.pc 1).op.key ∧ (s.pc t').op.id < (s.pc 1).op.id := by
  obtain ⟨events, s, run, hcond, -⟩ := exists_sleeper
  obtain ⟨hsleep, -⟩ := run.no_lost_wakeup
  exact ⟨events, s, run, hcond, (hsleep 1 hcond).2⟩

end CS330
