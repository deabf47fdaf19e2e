import CS330.RwLock.Recovery

/-! # The counters of `main.c`

Every thread adds 5 to `wr_ctr` with the lock for writing and to `rd_ctr` with the lock for reading,
and this `iters` times. An addition is a load and a store. The writers' counter is exact at the end;
readers overwrite each other's additions, but each round of a thread leaves at least one of them, and
in some runs no more than one. -/

namespace CS330

/-- The lock and the two counters. -/
structure CounterMem where
  lock : RwLock
  wrCtr : BitVec 64
  rdCtr : BitVec 64

/-- Where a thread stands in `thfunc`: before the condition of the loop, before an atomic step of a
call, or before a load or a store of a counter. -/
inductive ThfuncPc where
  | test
  | writeLock
  | writeRetry
  | loadWr
  | storeWr (v : BitVec 64)
  | writeUnlock
  | readLock
  | readRetry
  | loadRd
  | storeRd (v : BitVec 64)
  | readUnlock
  | exited
deriving DecidableEq

/-- A thread with its variable `ctr`. -/
structure Thfunc where
  ctr : Nat
  pc : ThfuncPc

/-- Where `thfunc` goes on after the condition of the loop of `write_lock`. -/
def afterWriteLock : LockPc → ThfuncPc
  | .writing => .loadWr
  | _ => .writeRetry

def afterReadLock : LockPc → ThfuncPc
  | .reading => .loadRd
  | _ => .readRetry

/-- The steps of `thfunc`. -/
inductive ThfuncStep (iters : Nat) : CounterMem × Thfunc → CounterMem × Thfunc → Prop where
  | enter {m ctr} (h : ctr < iters) : ThfuncStep iters (m, ⟨ctr, .test⟩) (m, ⟨ctr, .writeLock⟩)
  | exit {m ctr} (h : ¬ctr < iters) : ThfuncStep iters (m, ⟨ctr, .test⟩) (m, ⟨ctr, .exited⟩)
  | writeLock {m ctr} : ThfuncStep iters (m, ⟨ctr, .writeLock⟩)
    ({ m with lock := (writeLock m.lock).1 }, ⟨ctr, afterWriteLock (writeLock m.lock).2⟩)
  | writeRetry {m ctr} : ThfuncStep iters (m, ⟨ctr, .writeRetry⟩)
    ({ m with lock := (writeRetry m.lock).1 }, ⟨ctr, .writeLock⟩)
  | loadWr {m ctr} : ThfuncStep iters (m, ⟨ctr, .loadWr⟩) (m, ⟨ctr, .storeWr m.wrCtr⟩)
  | storeWr {m ctr v} : ThfuncStep iters (m, ⟨ctr, .storeWr v⟩)
    ({ m with wrCtr := v + 5 }, ⟨ctr, .writeUnlock⟩)
  | writeUnlock {m ctr} : ThfuncStep iters (m, ⟨ctr, .writeUnlock⟩)
    ({ m with lock := (writeUnlock m.lock).1 }, ⟨ctr, .readLock⟩)
  | readLock {m ctr} : ThfuncStep iters (m, ⟨ctr, .readLock⟩)
    ({ m with lock := (readLock m.lock).1 }, ⟨ctr, afterReadLock (readLock m.lock).2⟩)
  | readRetry {m ctr} : ThfuncStep iters (m, ⟨ctr, .readRetry⟩)
    ({ m with lock := (readRetry m.lock).1 }, ⟨ctr, .readLock⟩)
  | loadRd {m ctr} : ThfuncStep iters (m, ⟨ctr, .loadRd⟩) (m, ⟨ctr, .storeRd m.rdCtr⟩)
  | storeRd {m ctr v} : ThfuncStep iters (m, ⟨ctr, .storeRd v⟩)
    ({ m with rdCtr := v + 5 }, ⟨ctr, .readUnlock⟩)
  | readUnlock {m ctr} : ThfuncStep iters (m, ⟨ctr, .readUnlock⟩)
    ({ m with lock := (readUnlock m.lock).1 }, ⟨ctr + 1, .test⟩)

abbrev CounterSystem (n : Nat) := Threads (Fin n) CounterMem Thfunc

/-- `main` has created the threads. -/
def CounterSystem.init (n : Nat) : CounterSystem n := ⟨⟨initRwlock, 0, 0⟩, fun _ => ⟨0, .test⟩⟩

def CounterRun {n : Nat} (iters : Nat) (threads : List (Fin n)) (s : CounterSystem n) : Prop :=
  Trace (Threads.Step (ThfuncStep iters)) (CounterSystem.init n) threads s

variable {n iters : Nat} {s s' : CounterSystem n} {t u : Fin n} {m : CounterMem} {p : Thfunc}
  {threads : List (Fin n)}

/-! ## The lock -/

/-- Where the thread stands as the lock sees it. -/
def ThfuncPc.lockPc : ThfuncPc → LockPc
  | test | exited => .idle
  | writeLock => .writeLock
  | writeRetry => .writeRetry
  | loadWr | storeWr _ | writeUnlock => .writing
  | readLock => .readLock
  | readRetry => .readRetry
  | loadRd | storeRd _ | readUnlock => .reading

def Threads.locks (s : CounterSystem n) : LockSystem n :=
  ⟨s.shared.lock, fun t => (s.pc t).pc.lockPc⟩

theorem lockPc_afterWriteLock (lock : RwLock) :
    (afterWriteLock (writeLock lock).2).lockPc = (writeLock lock).2 := by
  rw [writeLock]
  dsimp only
  split <;> rfl

theorem lockPc_afterReadLock (lock : RwLock) :
    (afterReadLock (readLock lock).2).lockPc = (readLock lock).2 := by
  rw [readLock]
  dsimp only
  split <;> rfl

theorem locks_update : Threads.locks (⟨m, Function.update s.pc t p⟩ : CounterSystem n) =
    ⟨m.lock, Function.update s.locks.pc t p.pc.lockPc⟩ := by
  refine congrArg (Threads.mk m.lock) (funext fun u => ?_)
  rcases eq_or_ne u t with rfl | hu
  · simp
  · simp [hu, Threads.locks]

/-- What a step of `thfunc` does to the lock. -/
theorem ThfuncStep.lockSteps {before after : CounterMem × Thfunc}
    (h : ThfuncStep iters before after) :
    Relation.ReflTransGen LockStep (before.1.lock, before.2.pc.lockPc)
      (after.1.lock, after.2.pc.lockPc) := by
  cases h with
  | enter => exact .single (.callWriteLock _)
  | exit | loadWr | storeWr | loadRd | storeRd => exact .refl
  | writeLock =>
    dsimp only
    rw [lockPc_afterWriteLock]
    exact .single (.writeLock _)
  | writeRetry => exact .single (.writeRetry _)
  | writeUnlock => exact (Relation.ReflTransGen.single (.writeUnlock _)).tail (.callReadLock _)
  | readLock =>
    dsimp only
    rw [lockPc_afterReadLock]
    exact .single (.readLock _)
  | readRetry => exact .single (.readRetry _)
  | readUnlock => exact .single (.readUnlock _)

theorem LockInv.steps {s : LockSystem n} {lock : RwLock} {pc : LockPc} (hn : n < 2 ^ 15)
    (I : LockInv s) (h : Relation.ReflTransGen LockStep (s.shared, s.pc t) (lock, pc)) :
    LockInv ⟨lock, Function.update s.pc t pc⟩ := by
  suffices ∀ after, Relation.ReflTransGen LockStep (s.shared, s.pc t) after →
      LockInv ⟨after.1, Function.update s.pc t after.2⟩ from this _ h
  intro after h
  induction h with
  | refl =>
    rw [Function.update_eq_self]
    exact I
  | @tail mid after _ hstep ih =>
    have hnext : LockInv ⟨after.1, Function.update (Function.update s.pc t mid.2) t after.2⟩ := by
      refine ih.step hn (t := t) (.mk ?_)
      dsimp only
      rwa [Function.update_self]
    rwa [Function.update_idem] at hnext

theorem LockInv.thfunc (hn : n < 2 ^ 15) (I : LockInv s.locks)
    (h : Threads.Step (ThfuncStep iters) s t s') : LockInv s'.locks := by
  obtain @⟨m, p, h⟩ := h
  rw [locks_update]
  exact I.steps hn h.lockSteps

/-! ## What the threads have done -/

/-- The thread is between its store in `wr_ctr` and the end of its round. -/
def ThfuncPc.hasWritten : ThfuncPc → Bool
  | writeUnlock | readLock | readRetry | loadRd | storeRd _ | readUnlock => true
  | _ => false

/-- The thread has had the lock for writing in this round. -/
def ThfuncPc.hasLocked : ThfuncPc → Bool
  | loadWr | storeWr _ => true
  | pc => pc.hasWritten

/-- The thread is between its store in `rd_ctr` and the end of its round. -/
def ThfuncPc.hasRead : ThfuncPc → Bool
  | readUnlock => true
  | _ => false

/-- How often the thread has stored in `wr_ctr`, has got the lock for writing, and has stored in
`rd_ctr`. -/
def Thfunc.writes (p : Thfunc) : Nat := p.ctr + p.pc.hasWritten.toNat

def Thfunc.lockings (p : Thfunc) : Nat := p.ctr + p.pc.hasLocked.toNat

def Thfunc.reads (p : Thfunc) : Nat := p.ctr + p.pc.hasRead.toNat

theorem ThfuncPc.hasRead_le (pc : ThfuncPc) : pc.hasRead.toNat ≤ pc.hasLocked.toNat := by
  cases pc <;> first | exact le_rfl | exact Nat.zero_le _

theorem Thfunc.reads_le (p : Thfunc) : p.reads ≤ p.lockings :=
  Nat.add_le_add_left p.pc.hasRead_le _

theorem Thfunc.lockings_le (p : Thfunc) : p.lockings ≤ p.reads + 1 :=
  Nat.add_le_add (Nat.le_add_right _ _) (Bool.toNat_le _)

/-- The values of `ctr` during the loop. -/
def Thfunc.InLoop (iters : Nat) : Thfunc → Prop
  | ⟨ctr, .test⟩ => ctr ≤ iters
  | ⟨ctr, .exited⟩ => ctr = iters
  | ⟨ctr, _⟩ => ctr < iters

theorem Thfunc.InLoop.of_pc {ctr : Nat} {pc : ThfuncPc} (h : ctr < iters) (hpc : pc ≠ .exited) :
    Thfunc.InLoop iters ⟨ctr, pc⟩ := by
  cases pc with
  | test => exact h.le
  | exited => exact absurd rfl hpc
  | _ => exact h

theorem Thfunc.InLoop.reads_le (h : p.InLoop iters) : p.reads ≤ iters := by
  obtain ⟨ctr, pc⟩ := p
  cases pc with
  | test => exact h
  | exited => exact le_of_eq h
  | readUnlock => exact Nat.succ_le_of_lt h
  | _ => exact Nat.le_of_lt h

theorem afterWriteLock_eq (pc : LockPc) : afterWriteLock pc = .loadWr ∨
    afterWriteLock pc = .writeRetry := by
  cases pc <;> simp [afterWriteLock]

theorem afterReadLock_eq (pc : LockPc) : afterReadLock pc = .loadRd ∨
    afterReadLock pc = .readRetry := by
  cases pc <;> simp [afterReadLock]

theorem ThfuncStep.inLoop {before after : CounterMem × Thfunc} (h : ThfuncStep iters before after)
    (hin : before.2.InLoop iters) : after.2.InLoop iters := by
  cases h with
  | enter h => exact h
  | exit h => exact Nat.le_antisymm hin (Nat.not_lt.1 h)
  | @writeLock m =>
    refine .of_pc hin ?_
    rcases afterWriteLock_eq (CS330.writeLock m.lock).2 with heq | heq <;> simp [heq]
  | @readLock m =>
    refine .of_pc hin ?_
    rcases afterReadLock_eq (CS330.readLock m.lock).2 with heq | heq <;> simp [heq]
  | writeRetry | loadWr | storeWr | writeUnlock | readRetry | loadRd | storeRd => exact hin
  | readUnlock => exact Nat.succ_le_of_lt hin

/-- What holds in every state of a run. What a thread has loaded from `rd_ctr` may be old, but while
the thread has the lock for reading, no other thread can lock twice. -/
structure CounterInv (iters : Nat) (s : CounterSystem n) : Prop where
  locks : LockInv s.locks
  inLoop : ∀ t, (s.pc t).InLoop iters
  wrCtr : s.shared.wrCtr = BitVec.ofNat 64 (5 * s.total Thfunc.writes)
  loaded : ∀ t v, (s.pc t).pc = .storeWr v → v = s.shared.wrCtr
  rdCtr_le : s.shared.rdCtr.toNat ≤ 5 * s.total Thfunc.reads
  le_rdCtr : ∀ t, 5 * (s.pc t).reads ≤ s.shared.rdCtr.toNat
  stale_le : ∀ t v, (s.pc t).pc = .storeRd v → v.toNat ≤ 5 * s.total Thfunc.reads
  le_stale : ∀ t v u, (s.pc t).pc = .storeRd v → 5 * (s.pc u).lockings ≤ v.toNat + 5

namespace CounterInv

theorem init : CounterInv iters (CounterSystem.init n) where
  locks := by
    have heq : (CounterSystem.init n).locks = LockSystem.init n := rfl
    rw [heq]
    exact LockInv.init
  inLoop _ := Nat.zero_le _
  wrCtr := by
    have hzero : (CounterSystem.init n).total Thfunc.writes = 0 := Finset.sum_eq_zero fun _ _ => rfl
    rw [hzero]
    rfl
  loaded _ _ h := nomatch h
  rdCtr_le := Nat.zero_le _
  le_rdCtr _ := Nat.zero_le _
  stale_le _ _ h := nomatch h
  le_stale _ _ _ h := nomatch h

/-- Nobody is in a section while another thread writes. -/
theorem exclusive (I : CounterInv iters s) (hne : t ≠ u) (ht : (s.pc t).pc.lockPc = .writing) :
    (s.pc u).pc.lockPc ≠ .writing ∧ (s.pc u).pc.lockPc ≠ .reading := by
  have h := I.locks.exclusive t u hne ht
  exact ⟨fun hu => h (.inl hu), fun hu => h (.inr hu)⟩

/-- A step that stores nothing. What it has loaded is not old. -/
theorem keep {lock : RwLock} {old : Thfunc} (I : CounterInv iters s) (hold : s.pc t = old)
    (hlocks : LockInv (Threads.locks (⟨{ s.shared with lock := lock },
      Function.update s.pc t p⟩ : CounterSystem n)))
    (hloop : p.InLoop iters) (hwrites : p.writes = old.writes) (hreads : p.reads = old.reads)
    (hlockings : p.lockings = old.lockings ∨ p.pc.lockPc = .writing)
    (hloaded : ∀ v, p.pc = .storeWr v → v = s.shared.wrCtr)
    (hstale : ∀ v, p.pc = .storeRd v → v = s.shared.rdCtr) :
    CounterInv iters ⟨{ s.shared with lock := lock }, Function.update s.pc t p⟩ := by
  subst hold
  have htotal {w : Thfunc → Nat} (hw : w p = w (s.pc t)) :
      Threads.total w (⟨{ s.shared with lock := lock }, Function.update s.pc t p⟩ :
        CounterSystem n) = s.total w := by
    have := Threads.total_update w (s := s) (t := t) (m := { s.shared with lock := lock }) (p := p)
    omega
  have hreads' : ∀ u, (Function.update s.pc t p u).reads = (s.pc u).reads :=
    (Function.forall_update_iff s.pc fun u q => q.reads = (s.pc u).reads).2
      ⟨hreads, fun _ _ => rfl⟩
  constructor
  case locks => exact hlocks
  case inLoop =>
    exact (Function.forall_update_iff s.pc fun _ q => q.InLoop iters).2
      ⟨hloop, fun u _ => I.inLoop u⟩
  case wrCtr =>
    rw [htotal hwrites]
    exact I.wrCtr
  case loaded =>
    exact (Function.forall_update_iff s.pc fun _ q =>
      ∀ v, q.pc = .storeWr v → v = s.shared.wrCtr).2 ⟨hloaded, fun u _ => I.loaded u⟩
  case rdCtr_le =>
    rw [htotal hreads]
    exact I.rdCtr_le
  case le_rdCtr =>
    intro u
    dsimp only
    rw [hreads']
    exact I.le_rdCtr u
  case stale_le =>
    rw [htotal hreads]
    refine (Function.forall_update_iff s.pc fun _ q =>
      ∀ v, q.pc = .storeRd v → v.toNat ≤ 5 * s.total Thfunc.reads).2
      ⟨fun v hv => ?_, fun u _ => I.stale_le u⟩
    rw [hstale v hv]
    exact I.rdCtr_le
  case le_stale =>
    refine (Function.forall_update_iff s.pc fun _ q => ∀ v u, q.pc = .storeRd v →
      5 * (Function.update s.pc t p u).lockings ≤ v.toNat + 5).2
      ⟨fun v u hv => ?_, fun u hu v w hv => ?_⟩
    · have hle := I.le_rdCtr u
      have hlock := (Function.update s.pc t p u).lockings_le
      rw [hreads'] at hlock
      rw [hstale v hv]
      omega
    · refine (Function.forall_update_iff s.pc fun _ q => 5 * q.lockings ≤ v.toNat + 5).2
        ⟨?_, fun w _ => I.le_stale u v w hv⟩ w
      rcases hlockings with heq | hwriting
      · rw [heq]
        exact I.le_stale u v t hv
      · -- the reader keeps the writer out
        have hwt : (Threads.locks (⟨{ s.shared with lock := lock }, Function.update s.pc t p⟩ :
            CounterSystem n)).pc t = .writing := by
          rw [locks_update]
          simpa using hwriting
        have hut : (Threads.locks (⟨{ s.shared with lock := lock }, Function.update s.pc t p⟩ :
            CounterSystem n)).pc u = .reading := by
          rw [locks_update]
          simp [hu, Threads.locks, hv, ThfuncPc.lockPc]
        exact absurd (.inr hut) (hlocks.exclusive t u hu.symm hwt)

/-- The thread that has the lock for writing stores what it has loaded, plus 5. -/
theorem storeWr {ctr : Nat} {v : BitVec 64} (I : CounterInv iters s)
    (hpc : s.pc t = ⟨ctr, .storeWr v⟩)
    (hlocks : LockInv (Threads.locks (⟨{ s.shared with wrCtr := v + 5 },
      Function.update s.pc t ⟨ctr, .writeUnlock⟩⟩ : CounterSystem n))) :
    CounterInv iters ⟨{ s.shared with wrCtr := v + 5 },
      Function.update s.pc t ⟨ctr, .writeUnlock⟩⟩ := by
  have hwriting : (s.pc t).pc.lockPc = .writing := by rw [hpc]; rfl
  have hv : v = s.shared.wrCtr := I.loaded t v (by rw [hpc])
  have hin := I.inLoop t
  have hle := I.le_rdCtr t
  have hwrites := Threads.total_update Thfunc.writes (s := s) (t := t) (p := ⟨ctr, .writeUnlock⟩)
    (m := { s.shared with wrCtr := v + 5 })
  have hreads := Threads.total_update Thfunc.reads (s := s) (t := t) (p := ⟨ctr, .writeUnlock⟩)
    (m := { s.shared with wrCtr := v + 5 })
  rw [hpc] at hin hle hwrites hreads
  replace hreads : Threads.total Thfunc.reads (⟨{ s.shared with wrCtr := v + 5 },
      Function.update s.pc t ⟨ctr, .writeUnlock⟩⟩ : CounterSystem n) = s.total Thfunc.reads :=
    Nat.add_right_cancel hreads
  change _ + ctr = _ + (ctr + 1) at hwrites
  constructor
  case locks => exact hlocks
  case inLoop =>
    exact (Function.forall_update_iff s.pc fun _ p => p.InLoop iters).2
      ⟨hin, fun u _ => I.inLoop u⟩
  case wrCtr =>
    have htotal : Threads.total Thfunc.writes (⟨{ s.shared with wrCtr := v + 5 },
        Function.update s.pc t ⟨ctr, .writeUnlock⟩⟩ : CounterSystem n) =
        s.total Thfunc.writes + 1 := by omega
    rw [htotal]
    change v + 5 = _
    rw [hv, I.wrCtr]
    exact (BitVec.ofNat_add (5 * s.total Thfunc.writes) 5).symm
  case loaded =>
    refine (Function.forall_update_iff s.pc fun _ p => ∀ w, p.pc = .storeWr w → w = v + 5).2
      ⟨nofun, fun u hu w hw => ?_⟩
    refine absurd ?_ (I.exclusive hu.symm hwriting).1
    rw [hw]
    rfl
  case rdCtr_le =>
    rw [hreads]
    exact I.rdCtr_le
  case le_rdCtr =>
    exact (Function.forall_update_iff s.pc fun _ p => 5 * p.reads ≤ s.shared.rdCtr.toNat).2
      ⟨hle, fun u _ => I.le_rdCtr u⟩
  case stale_le =>
    rw [hreads]
    exact (Function.forall_update_iff s.pc fun _ p =>
      ∀ w, p.pc = .storeRd w → w.toNat ≤ 5 * s.total Thfunc.reads).2
      ⟨nofun, fun u _ => I.stale_le u⟩
  case le_stale =>
    refine (Function.forall_update_iff s.pc fun _ p => ∀ w u', p.pc = .storeRd w →
      5 * (Function.update s.pc t ⟨ctr, .writeUnlock⟩ u').lockings ≤ w.toNat + 5).2
      ⟨nofun, fun u hu w u' hw => ?_⟩
    refine absurd ?_ (I.exclusive hu.symm hwriting).2
    rw [hw]
    rfl

/-- A thread stores what it has loaded from `rd_ctr`, plus 5. -/
theorem storeRd {ctr : Nat} {v : BitVec 64} (hlt : 5 * (n * iters) < 2 ^ 64)
    (I : CounterInv iters s) (hpc : s.pc t = ⟨ctr, .storeRd v⟩)
    (hlocks : LockInv (Threads.locks (⟨{ s.shared with rdCtr := v + 5 },
      Function.update s.pc t ⟨ctr, .readUnlock⟩⟩ : CounterSystem n))) :
    CounterInv iters ⟨{ s.shared with rdCtr := v + 5 },
      Function.update s.pc t ⟨ctr, .readUnlock⟩⟩ := by
  have hstale := I.stale_le t v (by rw [hpc])
  have hback := fun u => I.le_stale t v u (by rw [hpc])
  have hin := I.inLoop t
  have hbt := hback t
  have hwrites := Threads.total_update Thfunc.writes (s := s) (t := t) (p := ⟨ctr, .readUnlock⟩)
    (m := { s.shared with rdCtr := v + 5 })
  have hreads := Threads.total_update Thfunc.reads (s := s) (t := t) (p := ⟨ctr, .readUnlock⟩)
    (m := { s.shared with rdCtr := v + 5 })
  rw [hpc] at hin hbt hwrites hreads
  replace hwrites : Threads.total Thfunc.writes (⟨{ s.shared with rdCtr := v + 5 },
      Function.update s.pc t ⟨ctr, .readUnlock⟩⟩ : CounterSystem n) = s.total Thfunc.writes :=
    Nat.add_right_cancel hwrites
  change _ + ctr = _ + (ctr + 1) at hreads
  have hloop : ∀ u, (Function.update s.pc t ⟨ctr, .readUnlock⟩ u).InLoop iters :=
    (Function.forall_update_iff s.pc fun _ p => p.InLoop iters).2 ⟨hin, fun u _ => I.inLoop u⟩
  -- so many additions do not make the counter wrap around
  have hcount := Threads.total_le Thfunc.reads (s := (⟨{ s.shared with rdCtr := v + 5 },
    Function.update s.pc t ⟨ctr, .readUnlock⟩⟩ : CounterSystem n)) fun u => (hloop u).reads_le
  rw [Fintype.card_fin] at hcount
  have hv : (v + 5).toNat = v.toNat + 5 := BitVec.toNat_add_of_lt (by
    change v.toNat + 5 < 2 ^ 64
    omega)
  constructor
  case locks => exact hlocks
  case inLoop => exact hloop
  case wrCtr =>
    rw [hwrites]
    exact I.wrCtr
  case loaded =>
    exact (Function.forall_update_iff s.pc fun _ p =>
      ∀ w, p.pc = .storeWr w → w = s.shared.wrCtr).2 ⟨nofun, fun u _ => I.loaded u⟩
  case rdCtr_le =>
    change (v + 5).toNat ≤ _
    omega
  case le_rdCtr =>
    change ∀ u, 5 * (Function.update s.pc t ⟨ctr, .readUnlock⟩ u).reads ≤ (v + 5).toNat
    rw [hv]
    exact (Function.forall_update_iff s.pc fun _ p => 5 * p.reads ≤ v.toNat + 5).2
      ⟨hbt, fun u _ => (Nat.mul_le_mul_left 5 (s.pc u).reads_le).trans (hback u)⟩
  case stale_le =>
    refine (Function.forall_update_iff s.pc fun _ p => ∀ w, p.pc = .storeRd w →
      w.toNat ≤ 5 * Threads.total Thfunc.reads (⟨{ s.shared with rdCtr := v + 5 },
        Function.update s.pc t ⟨ctr, .readUnlock⟩⟩ : CounterSystem n)).2
      ⟨nofun, fun u _ w hw => (I.stale_le u w hw).trans ?_⟩
    omega
  case le_stale =>
    refine (Function.forall_update_iff s.pc fun _ p => ∀ w u', p.pc = .storeRd w →
      5 * (Function.update s.pc t ⟨ctr, .readUnlock⟩ u').lockings ≤ w.toNat + 5).2
      ⟨nofun, fun u _ w u' hw => ?_⟩
    refine (Function.forall_update_iff s.pc fun _ p => 5 * p.lockings ≤ w.toNat + 5).2
      ⟨?_, fun u'' _ => I.le_stale u w u'' hw⟩ u'
    have hle := I.le_stale u w t hw
    rwa [hpc] at hle

/-- What a step of a thread makes of the state. -/
theorem of_step {old : Thfunc} {after : CounterMem × Thfunc} (hlt : 5 * (n * iters) < 2 ^ 64)
    (I : CounterInv iters s) (hold : s.pc t = old) (h : ThfuncStep iters (s.shared, old) after)
    (hlocks : LockInv (Threads.locks (⟨after.1, Function.update s.pc t after.2⟩ :
      CounterSystem n))) :
    CounterInv iters ⟨after.1, Function.update s.pc t after.2⟩ := by
  have hloop := h.inLoop (hold ▸ I.inLoop t)
  cases h with
  | enter | exit | writeRetry | writeUnlock | readRetry | readUnlock =>
    exact I.keep hold hlocks hloop rfl rfl (.inl rfl) nofun nofun
  | loadWr => exact I.keep hold hlocks hloop rfl rfl (.inr rfl) (by rintro _ ⟨⟩; rfl) nofun
  | loadRd => exact I.keep hold hlocks hloop rfl rfl (.inl rfl) nofun (by rintro _ ⟨⟩; rfl)
  | writeLock =>
    rcases afterWriteLock_eq (writeLock s.shared.lock).2 with heq | heq
    · rw [heq] at hlocks hloop ⊢
      exact I.keep hold hlocks hloop rfl rfl (.inr rfl) nofun nofun
    · rw [heq] at hlocks hloop ⊢
      exact I.keep hold hlocks hloop rfl rfl (.inl rfl) nofun nofun
  | readLock =>
    rcases afterReadLock_eq (readLock s.shared.lock).2 with heq | heq
    all_goals
      rw [heq] at hlocks hloop ⊢
      exact I.keep hold hlocks hloop rfl rfl (.inl rfl) nofun nofun
  | storeWr => exact I.storeWr hold hlocks
  | storeRd => exact I.storeRd hlt hold hlocks

/-- Every step of every thread keeps it. -/
theorem step (hn : n < 2 ^ 15) (hlt : 5 * (n * iters) < 2 ^ 64) (I : CounterInv iters s)
    (h : Threads.Step (ThfuncStep iters) s t s') : CounterInv iters s' := by
  have hlocks := I.locks.thfunc hn h
  obtain ⟨h⟩ := h
  exact I.of_step hlt rfl h hlocks

end CounterInv

theorem CounterRun.inv (hn : n < 2 ^ 15) (hlt : 5 * (n * iters) < 2 ^ 64)
    (run : CounterRun iters threads s) : CounterInv iters s :=
  Trace.invariant run .init fun I h => I.step hn hlt h

/-! ## The end -/

/-- How far a thread is from the end of its round. -/
def ThfuncPc.rank : ThfuncPc → Nat
  | exited => 0
  | readUnlock => 1
  | storeRd _ => 2
  | loadRd => 3
  | readLock => 4
  | readRetry => 5
  | writeUnlock => 6
  | storeWr _ => 7
  | loadWr => 8
  | writeLock => 9
  | writeRetry => 10
  | test => 11

/-- How many steps a thread is from its exit, as long as it gets the lock. -/
def Thfunc.todo (iters : Nat) (p : Thfunc) : Nat := (iters - p.ctr) * 12 + p.pc.rank

theorem Thfunc.todo_lt {ctr : Nat} {pc pc' : ThfuncPc} (h : pc'.rank < pc.rank) :
    (⟨ctr, pc'⟩ : Thfunc).todo iters < (⟨ctr, pc⟩ : Thfunc).todo iters :=
  Nat.add_lt_add_left h _

/-- The thread is about to add to the lock in order to take it, or has exited. -/
def ThfuncPc.Tries (pc : ThfuncPc) : Prop := pc = writeLock ∨ pc = readLock ∨ pc = exited

/-- A thread that does not try to get the lock comes nearer to its exit. -/
theorem Thfunc.InLoop.exists_step (hin : p.InLoop iters) (htries : ¬p.pc.Tries) (m : CounterMem) :
    ∃ after, ThfuncStep iters (m, p) after ∧ after.2.todo iters < p.todo iters := by
  obtain ⟨ctr, pc⟩ := p
  cases pc with
  | writeLock => exact absurd (.inl rfl) htries
  | readLock => exact absurd (.inr (.inl rfl)) htries
  | exited => exact absurd (.inr (.inr rfl)) htries
  | test =>
    by_cases h : ctr < iters
    · exact ⟨_, .enter h, todo_lt (by decide)⟩
    · exact ⟨_, .exit h, todo_lt (by decide)⟩
  | writeRetry => exact ⟨_, .writeRetry, todo_lt (by decide)⟩
  | loadWr => exact ⟨_, .loadWr, todo_lt (Nat.lt_succ_self _)⟩
  | storeWr => exact ⟨_, .storeWr, todo_lt (Nat.lt_succ_self _)⟩
  | writeUnlock => exact ⟨_, .writeUnlock, todo_lt (by decide)⟩
  | readRetry => exact ⟨_, .readRetry, todo_lt (by decide)⟩
  | loadRd => exact ⟨_, .loadRd, todo_lt (Nat.lt_succ_self _)⟩
  | storeRd => exact ⟨_, .storeRd, todo_lt (Nat.lt_succ_self _)⟩
  | readUnlock =>
    refine ⟨_, .readUnlock, ?_⟩
    have hlt : ctr < iters := hin
    change (iters - (ctr + 1)) * 12 + 11 < (iters - ctr) * 12 + 1
    omega

theorem ThfuncPc.Tries.quiet {pc : ThfuncPc} (h : pc.Tries) : pc.lockPc.Quiet := by
  obtain rfl | rfl | rfl := h <;> simp [ThfuncPc.lockPc, LockPc.Quiet, LockPc.Holds]

/-- The free lock is taken at once. -/
theorem ThfuncPc.Tries.exists_step (htries : p.pc.Tries) (hne : p.pc ≠ .exited)
    (hlock : m.lock = initRwlock) :
    ∃ after, ThfuncStep iters (m, p) after ∧ after.2.todo iters < p.todo iters := by
  obtain ⟨ctr, pc⟩ := p
  obtain rfl | rfl | rfl := htries
  · refine ⟨_, .writeLock, ?_⟩
    rw [hlock, show CS330.writeLock initRwlock = (⟨0⟩, .writing) by decide]
    exact Thfunc.todo_lt (by decide)
  · refine ⟨_, .readLock, ?_⟩
    rw [hlock, show (CS330.readLock initRwlock).2 = .reading by decide]
    exact Thfunc.todo_lt (by decide)
  · exact absurd rfl hne

/-- As long as not all threads have exited, one of them comes nearer to its exit. -/
theorem CounterInv.exists_step (I : CounterInv iters s) (hexit : ∃ t, (s.pc t).pc ≠ .exited) :
    ∃ t s', Threads.Step (ThfuncStep iters) s t s' ∧
      s'.total (Thfunc.todo iters) < s.total (Thfunc.todo iters) := by
  have ofThread {t : Fin n} {after : CounterMem × Thfunc}
      (h : ThfuncStep iters (s.shared, s.pc t) after)
      (hlt : after.2.todo iters < (s.pc t).todo iters) :
      ∃ t s', Threads.Step (ThfuncStep iters) s t s' ∧
        s'.total (Thfunc.todo iters) < s.total (Thfunc.todo iters) := by
    refine ⟨t, _, .mk h, ?_⟩
    have htotal := Threads.total_update (Thfunc.todo iters) (s := s) (t := t) (m := after.1)
      (p := after.2)
    omega
  by_cases htries : ∀ t, (s.pc t).pc.Tries
  · -- nobody has the lock, so the next attempt succeeds
    have hlock : s.shared.lock = initRwlock := I.locks.shared_eq fun t => (htries t).quiet
    obtain ⟨t, ht⟩ := hexit
    obtain ⟨after, h, hlt⟩ := (htries t).exists_step ht hlock
    exact ofThread h hlt
  · obtain ⟨t, ht⟩ := not_forall.1 htries
    obtain ⟨after, h, hlt⟩ := (I.inLoop t).exists_step ht s.shared
    exact ofThread h hlt

/-- The threads can all be brought to their exits. -/
theorem CounterInv.exists_exited (hn : n < 2 ^ 15) (hlt : 5 * (n * iters) < 2 ^ 64)
    (I : CounterInv iters s) : ∃ more s', Trace (Threads.Step (ThfuncStep iters)) s more s' ∧
      ∀ t, (s'.pc t).pc = .exited := by
  induction hk : s.total (Thfunc.todo iters) using Nat.strong_induction_on generalizing s with
  | _ k ih =>
    by_cases hexit : ∃ t, (s.pc t).pc ≠ .exited
    · obtain ⟨t, s₁, h, hless⟩ := I.exists_step hexit
      obtain ⟨more, s', hmore, hend⟩ := ih _ (hk ▸ hless) (I.step hn hlt h) rfl
      exact ⟨t :: more, s', hmore.cons h, hend⟩
    · exact ⟨[], s, .nil, fun t => by_contra fun h => hexit ⟨t, h⟩⟩

/-- From every state of a run the threads can all be brought to their exits. When all have exited,
the lock is as it was, no addition to `wr_ctr` is lost, and those of each single thread to `rd_ctr`
are not lost either, whoever has read at the same time. -/
theorem CounterRun.counts (hn : n < 2 ^ 15) (hlt : 5 * (n * iters) < 2 ^ 64)
    (run : CounterRun iters threads s) :
    (∃ more s', CounterRun iters (threads ++ more) s' ∧ ∀ t, (s'.pc t).pc = .exited) ∧
    ((∀ t, (s.pc t).pc = .exited) → s.shared.lock = initRwlock ∧
      s.shared.wrCtr.toNat = 5 * (n * iters) ∧ (0 < n → 5 * iters ≤ s.shared.rdCtr.toNat) ∧
      s.shared.rdCtr.toNat ≤ 5 * (n * iters)) := by
  have I := run.inv hn hlt
  constructor
  · obtain ⟨more, s', hmore, hend⟩ := I.exists_exited hn hlt
    exact ⟨more, s', Trace.append_iff.2 ⟨s, run, hmore⟩, hend⟩
  intro hend
  have hctr (t : Fin n) : (s.pc t).ctr = iters := by
    have hin := I.inLoop t
    have hpc := hend t
    generalize s.pc t = p at hin hpc
    obtain ⟨ctr, pc⟩ := p
    subst hpc
    exact hin
  have hwrites (t : Fin n) : (s.pc t).writes = iters := by
    rw [Thfunc.writes, hend t, hctr t]
    rfl
  have hreads (t : Fin n) : (s.pc t).reads = iters := by
    rw [Thfunc.reads, hend t, hctr t]
    rfl
  have htotal {w : Thfunc → Nat} (hw : ∀ t, w (s.pc t) = iters) : s.total w = n * iters := by
    rw [Threads.total, Finset.sum_congr rfl fun t _ => hw t]
    simp
  refine ⟨?_, ?_, fun hpos => ?_, ?_⟩
  · refine I.locks.shared_eq fun t => ?_
    change (s.pc t).pc.lockPc.Quiet
    rw [hend t]
    exact LockPc.quiet_idle
  · rw [I.wrCtr, htotal hwrites, BitVec.toNat_ofNat, Nat.mod_eq_of_lt hlt]
  · exact hreads ⟨0, hpos⟩ ▸ I.le_rdCtr ⟨0, hpos⟩
  · exact htotal hreads ▸ I.rdCtr_le

theorem CounterRun.counts_of_two : ∃ (threads : List (Fin 2)) (s : CounterSystem 2),
    CounterRun 1 threads s ∧ (∀ t, (s.pc t).pc = .exited) ∧ s.shared.wrCtr.toNat = 10 ∧
      5 ≤ s.shared.rdCtr.toNat := by
  have hnil : CounterRun 1 [] (CounterSystem.init 2) := .nil
  obtain ⟨threads, s, run, hend⟩ := (CounterRun.counts (by decide) (by decide) hnil).1
  obtain ⟨-, hwr, hrd, -⟩ := (CounterRun.counts (by decide) (by decide) run).2 hend
  exact ⟨_, s, run, hend, hwr, hrd (by decide)⟩

/-! ## Lost additions -/

/-- One thread takes several steps. -/
theorem exists_trace (s : CounterSystem n) (t : Fin n) {after : CounterMem × Thfunc}
    (h : Relation.ReflTransGen (ThfuncStep iters) (s.shared, s.pc t) after) :
    ∃ threads, Trace (Threads.Step (ThfuncStep iters)) s threads
      ⟨after.1, Function.update s.pc t after.2⟩ := by
  induction h with
  | refl => exact ⟨[], by rw [Function.update_eq_self]; exact .nil⟩
  | @tail mid after _ hstep ih =>
    obtain ⟨threads, htrace⟩ := ih
    refine ⟨threads ++ [t], htrace.snoc ?_⟩
    have hmk : Threads.Step (ThfuncStep iters) ⟨mid.1, Function.update s.pc t mid.2⟩ t
        ⟨after.1, Function.update (Function.update s.pc t mid.2) t after.2⟩ := by
      refine .mk ?_
      dsimp only
      rwa [Function.update_self]
    rwa [Function.update_idem] at hmk

/-- All threads get from `p` to `q`, one after another. -/
theorem exists_phase (n iters : Nat) (p q : Thfunc) (mem : Nat → CounterMem) (h : ∀ j < n,
    Relation.ReflTransGen (ThfuncStep iters) (mem j, p) (mem (j + 1), q)) :
    ∃ threads : List (Fin n), Trace (Threads.Step (ThfuncStep iters)) ⟨mem 0, fun _ => p⟩ threads
      ⟨mem n, fun _ => q⟩ := by
  have hphase : ∀ j ≤ n, ∃ threads : List (Fin n),
      Trace (Threads.Step (ThfuncStep iters)) ⟨mem 0, fun _ => p⟩ threads
        ⟨mem j, fun t => if t.val < j then q else p⟩ := by
    intro j
    induction j with
    | zero => exact fun _ => ⟨[], .nil⟩
    | succ j ih =>
      intro hj
      obtain ⟨threads, htrace⟩ := ih (Nat.le_of_succ_le hj)
      have hthread : Relation.ReflTransGen (ThfuncStep iters)
          (mem j, (fun t : Fin n => if t.val < j then q else p) ⟨j, hj⟩) (mem (j + 1), q) := by
        simpa using h j hj
      obtain ⟨more, hmore⟩ := exists_trace ⟨mem j, fun t : Fin n => if t.val < j then q else p⟩
        ⟨j, hj⟩ hthread
      refine ⟨threads ++ more, Trace.append_iff.2 ⟨_, htrace, ?_⟩⟩
      convert hmore using 2
      funext t
      simp only [Function.update_apply, Fin.ext_iff]
      split_ifs <;> first | rfl | omega
  obtain ⟨threads, htrace⟩ := hphase n le_rfl
  exact ⟨threads, by simpa using htrace⟩

/-- The lock with `j` readers. -/
def readers (j : Nat) : RwLock := ⟨BitVec.ofInt 64 (2 ^ 48 - j)⟩

theorem readLock_readers {j : Nat} (hj : j < 2 ^ 48) :
    readLock (readers j) = (readers (j + 1), .reading) := by
  have hvalue : (readLock (readers j)).1 = readers (j + 1) := by
    refine congrArg RwLock.mk ?_
    have hadd := BitVec.ofInt_add (n := 64) (2 ^ 48 - j) (-1)
    rw [show (2 ^ 48 - j + -1 : Int) = 2 ^ 48 - (j + 1 : Nat) by omega] at hadd
    exact hadd.symm
  refine Prod.ext hvalue (readLock_of_msb ?_)
  rw [hvalue, readers, BitVec.msb_eq_toInt, BitVec.toInt_ofInt_eq_self (by decide) (by omega)
    (by omega)]
  exact decide_eq_false (by omega)

theorem readUnlock_readers (j : Nat) : (readUnlock (readers (j + 1))).1 = readers j := by
  refine congrArg RwLock.mk ?_
  have hadd := BitVec.ofInt_add (n := 64) (2 ^ 48 - (j + 1 : Nat)) 1
  rw [show (2 ^ 48 - (j + 1 : Nat) + 1 : Int) = 2 ^ 48 - j by omega] at hadd
  exact hadd.symm

/-- One round of all threads. They load `rd_ctr` before any of them stores it. -/
theorem exists_round (hpos : 0 < n) (hn : n < 2 ^ 15) {ctr : Nat} (hctr : ctr < iters)
    (w v : BitVec 64) : ∃ (threads : List (Fin n)) (w' : BitVec 64),
      Trace (Threads.Step (ThfuncStep iters)) ⟨⟨initRwlock, w, v⟩, fun _ => ⟨ctr, .test⟩⟩ threads
        ⟨⟨initRwlock, w', v + 5⟩, fun _ => ⟨ctr + 1, .test⟩⟩ := by
  have hinit : readers 0 = initRwlock := by decide
  -- one thread after another writes
  obtain ⟨ts₁, h₁⟩ := exists_phase n iters ⟨ctr, .test⟩ ⟨ctr, .readLock⟩
    (fun j => ⟨initRwlock, (· + 5)^[j] w, v⟩) fun j _ => by
      have hlock : ThfuncStep iters (⟨initRwlock, (· + 5)^[j] w, v⟩, ⟨ctr, .writeLock⟩) _ :=
        .writeLock
      have hunlock : ThfuncStep iters (⟨⟨0⟩, (· + 5)^[j] w + 5, v⟩, ⟨ctr, .writeUnlock⟩) _ :=
        .writeUnlock
      rw [show writeLock initRwlock = (⟨0⟩, .writing) by decide] at hlock
      rw [show (writeUnlock ⟨0⟩).1 = initRwlock by decide] at hunlock
      rw [Function.iterate_succ_apply']
      exact ((((Relation.ReflTransGen.single (.enter hctr)).tail hlock).tail .loadWr).tail
        .storeWr).tail hunlock
  -- all get the lock for reading and load
  obtain ⟨ts₂, h₂⟩ := exists_phase n iters ⟨ctr, .readLock⟩ ⟨ctr, .loadRd⟩
    (fun j => ⟨readers j, (· + 5)^[n] w, v⟩) fun j hj => by
      have hlock : ThfuncStep iters (⟨readers j, (· + 5)^[n] w, v⟩, ⟨ctr, .readLock⟩) _ := .readLock
      rw [readLock_readers (by omega)] at hlock
      exact .single hlock
  obtain ⟨ts₃, h₃⟩ := exists_phase n iters ⟨ctr, .loadRd⟩ ⟨ctr, .storeRd v⟩
    (fun _ => ⟨readers n, (· + 5)^[n] w, v⟩) fun _ _ => .single .loadRd
  -- the first store adds, and the others store the same
  obtain ⟨ts₄, h₄⟩ := exists_phase n iters ⟨ctr, .storeRd v⟩ ⟨ctr, .readUnlock⟩
    (fun j => ⟨readers n, (· + 5)^[n] w, if j = 0 then v else v + 5⟩) fun _ _ => .single .storeRd
  obtain ⟨ts₅, h₅⟩ := exists_phase n iters ⟨ctr, .readUnlock⟩ ⟨ctr + 1, .test⟩
    (fun j => ⟨readers (n - j), (· + 5)^[n] w, v + 5⟩) fun j hj => by
      have hunlock : ThfuncStep iters (⟨readers (n - (j + 1) + 1), (· + 5)^[n] w, v + 5⟩,
        ⟨ctr, .readUnlock⟩) _ := .readUnlock
      rw [readUnlock_readers] at hunlock
      rw [show n - j = n - (j + 1) + 1 by omega]
      exact .single hunlock
  rw [hinit] at h₂
  rw [if_neg hpos.ne', if_pos rfl] at h₄
  rw [Nat.sub_self, hinit] at h₅
  exact ⟨_, _, Trace.append_iff.2 ⟨_, h₁, Trace.append_iff.2 ⟨_, h₂, Trace.append_iff.2
    ⟨_, h₃, Trace.append_iff.2 ⟨_, h₄, h₅⟩⟩⟩⟩⟩

/-- The least value that `CounterRun.counts` allows for `rd_ctr` is the value of some run, for every
number of threads: all but one addition of each round can be lost. -/
theorem CounterRun.exists_least (hpos : 0 < n) (hn : n < 2 ^ 15) :
    ∃ (threads : List (Fin n)) (s : CounterSystem n), CounterRun iters threads s ∧
      (∀ t, (s.pc t).pc = .exited) ∧ s.shared.rdCtr = BitVec.ofNat 64 (5 * iters) := by
  have hrounds : ∀ ctr ≤ iters, ∃ (threads : List (Fin n)) (w : BitVec 64),
      Trace (Threads.Step (ThfuncStep iters)) (CounterSystem.init n) threads
        ⟨⟨initRwlock, w, BitVec.ofNat 64 (5 * ctr)⟩, fun _ => ⟨ctr, .test⟩⟩ := by
    intro ctr
    induction ctr with
    | zero => exact fun _ => ⟨[], 0, .nil⟩
    | succ ctr ih =>
      intro hctr
      obtain ⟨threads, w, h⟩ := ih (Nat.le_of_succ_le hctr)
      obtain ⟨more, w', hmore⟩ := exists_round hpos hn hctr w (BitVec.ofNat 64 (5 * ctr))
      have hadd : BitVec.ofNat 64 (5 * (ctr + 1)) = BitVec.ofNat 64 (5 * ctr) + 5 :=
        BitVec.ofNat_add (5 * ctr) 5
      exact ⟨threads ++ more, w', Trace.append_iff.2 ⟨_, h, hadd ▸ hmore⟩⟩
  obtain ⟨threads, w, h⟩ := hrounds iters le_rfl
  obtain ⟨more, hexit⟩ := exists_phase n iters ⟨iters, .test⟩ ⟨iters, .exited⟩
    (fun _ => ⟨initRwlock, w, BitVec.ofNat 64 (5 * iters)⟩) fun _ _ =>
      .single (.exit (Nat.lt_irrefl iters))
  exact ⟨threads ++ more, _, Trace.append_iff.2 ⟨_, h, hexit⟩, fun _ => rfl, rfl⟩

theorem CounterRun.exists_least_of_two :
    ∃ (threads : List (Fin 2)) (s : CounterSystem 2), CounterRun 1000000 threads s ∧
      (∀ t, (s.pc t).pc = .exited) ∧ s.shared.rdCtr = 5000000 :=
  CounterRun.exists_least (by decide) (by decide)

end CS330
