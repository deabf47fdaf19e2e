import CS330.RwLock.Basic

/-! # Mutual exclusion

The lock word is its initial value less what the threads have taken from it, failed attempts
included (`LockPc.weight`). Fewer than 2^15 threads cannot make it wrap around, so a thread that
sees a nonnegative sum knows that not more than the initial value is taken. -/

namespace CS330

variable {n : Nat} {s s' : LockSystem n} {t t' : Fin n} {lock lock' : RwLock} {pc pc' : LockPc}

/-- What a thread has taken from the lock word. -/
def LockPc.weight : LockPc → ℕ
  | writing | writeRetry => 2 ^ 48
  | reading | readRetry => 1
  | _ => 0

/-- The thread is between the return of a lock call and its unlock. -/
def LockPc.Holds (pc : LockPc) : Prop := pc = writing ∨ pc = reading

theorem LockPc.weight_le (pc : LockPc) : pc.weight ≤ 2 ^ 48 := by cases pc <;> decide

theorem LockPc.Holds.weight_pos (h : pc.Holds) : 0 < pc.weight := by
  rcases h with rfl | rfl <;> decide

/-! ## One step -/

@[simp] theorem weight_writeLock : (writeLock lock).2.weight = 2 ^ 48 := by
  rw [writeLock]
  dsimp only
  split <;> rfl

@[simp] theorem weight_readLock : (readLock lock).2.weight = 1 := by
  rw [readLock]
  dsimp only
  split <;> rfl

/-- A step takes from the lock word what it adds to the weight of its thread. -/
theorem LockStep.value_eq {before after : RwLock × LockPc} (h : LockStep before after) :
    after.1.value = before.1.value +
      BitVec.ofInt 64 ((before.2.weight : Int) - after.2.weight) := by
  cases h with
  | callWriteLock => simp [LockPc.weight]
  | writeLock =>
    rw [weight_writeLock]
    rfl
  | writeRetry => rfl
  | writeUnlock => rfl
  | callReadLock => simp [LockPc.weight]
  | readLock =>
    rw [weight_readLock]
    rfl
  | readRetry => rfl
  | readUnlock => rfl

theorem atomicAdd_of_msb {ptr val : BitVec 64} (h : (atomicAdd ptr val).1.msb = true) :
    (atomicAdd ptr val).2 = -1 := if_pos h

theorem msb_writeLock (h : (writeLock lock).2.Holds) : (writeLock lock).1.value.msb = false := by
  by_contra hmsb
  have hret := atomicAdd_of_msb (Bool.not_eq_false _ ▸ hmsb)
  change (if (atomicAdd _ _).2 ≠ 0 then LockPc.writeRetry else .writing).Holds at h
  rw [hret, if_pos (by decide)] at h
  rcases h with h | h <;> cases h

theorem msb_readLock (h : (readLock lock).2.Holds) : (readLock lock).1.value.msb = false := by
  by_contra hmsb
  have hret := atomicAdd_of_msb (Bool.not_eq_false _ ▸ hmsb)
  change (if (atomicAdd _ _).2 = -1 then LockPc.readRetry else .reading).Holds at h
  rw [hret, if_pos rfl] at h
  rcases h with h | h <;> cases h

/-- A thread gets hold of the lock when its sum is not negative. -/
theorem LockStep.msb_eq_false {before after : RwLock × LockPc} (h : LockStep before after)
    (hpc : after.2.Holds) : after.1.value.msb = false := by
  have lost {pc : LockPc} (h : pc.Holds) (h' : pc = .idle ∨ pc = .writeLock ∨ pc = .readLock) :
      False := by
    rcases h with rfl | rfl <;> simp at h'
  cases h with
  | callWriteLock => exact (lost hpc (.inr (.inl rfl))).elim
  | writeLock => exact msb_writeLock hpc
  | writeRetry => exact (lost hpc (.inr (.inl rfl))).elim
  | writeUnlock => exact (lost hpc (.inl rfl)).elim
  | callReadLock => exact (lost hpc (.inr (.inr rfl))).elim
  | readLock => exact msb_readLock hpc
  | readRetry => exact (lost hpc (.inr (.inr rfl))).elim
  | readUnlock => exact (lost hpc (.inl rfl)).elim

/-! ## Runs -/

/-- The lock word accounts for the threads, and a writer is alone. -/
structure LockInv (s : LockSystem n) : Prop where
  value : s.shared.value = BitVec.ofInt 64 (2 ^ 48 - s.total LockPc.weight)
  exclusive : ∀ t t', t ≠ t' → s.pc t = .writing → ¬(s.pc t').Holds

theorem LockInv.init : LockInv (LockSystem.init n) := by
  refine ⟨?_, fun t t' _ h => by cases h⟩
  simp [LockSystem.init, Threads.total, LockPc.weight, initRwlock]

theorem LockInv.step (hn : n < 2 ^ 15) (I : LockInv s) (h : Threads.Step LockStep s t s') :
    LockInv s' := by
  obtain @⟨lock', pc', h⟩ := h
  have htotal := Threads.total_update LockPc.weight (s := s) (t := t) (m := lock') (p := pc')
  have hle := Threads.total_le LockPc.weight
    (s := (⟨lock', Function.update s.pc t pc'⟩ : LockSystem n)) fun _ => LockPc.weight_le _
  have hvalue : lock'.value = BitVec.ofInt 64 (2 ^ 48 -
      Threads.total LockPc.weight (⟨lock', Function.update s.pc t pc'⟩ : LockSystem n)) := by
    rw [h.value_eq, I.value, ← BitVec.ofInt_add]
    congr 1
    dsimp only
    omega
  -- a thread that has just got hold of the lock leaves no room for another holder
  have alone (hpc : pc'.Holds) :
      Threads.total LockPc.weight (⟨lock', Function.update s.pc t pc'⟩ : LockSystem n) ≤ 2 ^ 48 := by
    have hnonneg := BitVec.toInt_nonneg_of_msb_false (h.msb_eq_false hpc)
    dsimp only at hnonneg
    rw [Fintype.card_fin] at hle
    rw [hvalue, BitVec.toInt_ofInt_eq_self (by decide) (by omega) (by omega)] at hnonneg
    omega
  refine ⟨hvalue, fun a b hab ha hb => ?_⟩
  have hsum := Threads.add_le_total LockPc.weight hab
    (s := (⟨lock', Function.update s.pc t pc'⟩ : LockSystem n))
  have hbpos := hb.weight_pos
  have hapos : (Function.update s.pc t pc' a).weight = 2 ^ 48 := by
    rw [show Function.update s.pc t pc' a = .writing from ha]
    rfl
  by_cases hat : t = a
  · subst hat
    have := alone (by rw [← Function.update_self t pc' s.pc]; exact .inl ha)
    dsimp only at hsum hbpos
    omega
  by_cases hbt : t = b
  · subst hbt
    have := alone (by rw [← Function.update_self t pc' s.pc]; exact hb)
    dsimp only at hsum hbpos
    omega
  · dsimp only at ha hb
    rw [Function.update_of_ne (Ne.symm hat)] at ha
    rw [Function.update_of_ne (Ne.symm hbt)] at hb
    exact I.exclusive a b hab ha hb

theorem LockRun.inv {threads : List (Fin n)} (hn : n < 2 ^ 15) (run : LockRun threads s) :
    LockInv s := Trace.invariant run .init fun I h => I.step hn h

/-- While a thread is between the return of `write_lock` and its `write_unlock`, no other thread
is between the return of `write_lock` or `read_lock` and its unlock. -/
theorem LockRun.mutual_exclusion {threads : List (Fin n)} (hn : n < 2 ^ 15)
    (run : LockRun threads s) (hw : s.pc t = .writing) (ht : t' ≠ t) :
    s.pc t' ≠ .writing ∧ s.pc t' ≠ .reading := by
  have := (run.inv hn).exclusive t t' ht.symm hw
  exact ⟨fun h => this (.inl h), fun h => this (.inr h)⟩

/-- The first of two threads takes the lock for writing. -/
theorem writer_run : LockRun [0, 0]
    (⟨⟨0⟩, Function.update (fun _ => .idle) 0 .writing⟩ : LockSystem 2) := by
  have hcall : Threads.Step LockStep (LockSystem.init 2) 0
      ⟨initRwlock, Function.update (fun _ => .idle) 0 .writeLock⟩ := .mk (.callWriteLock _)
  have hlock : Threads.Step LockStep
      (⟨initRwlock, Function.update (fun _ => .idle) 0 .writeLock⟩ : LockSystem 2) 0
      ⟨(writeLock initRwlock).1, Function.update (Function.update (fun _ => .idle) 0 .writeLock) 0
        (writeLock initRwlock).2⟩ := .mk (.writeLock initRwlock)
  rw [Function.update_idem, show writeLock initRwlock = (⟨0⟩, .writing) by decide] at hlock
  exact .cons hcall (.cons hlock .nil)

theorem LockRun.step {threads : List (Fin n)} {m : RwLock} {p : LockPc} (run : LockRun threads s)
    (h : LockStep (s.shared, s.pc t) (m, p)) :
    LockRun (threads ++ [t]) ⟨m, Function.update s.pc t p⟩ := Trace.snoc run (.mk h)

/-- The first of three threads takes the lock for writing, and the others fail to take it. -/
theorem LockRun.mutual_exclusion_of_writer : ∃ s : LockSystem 3,
    LockRun [0, 0, 1, 1, 2, 2] s ∧ s.pc 0 = .writing ∧ s.pc 1 = .readRetry ∧
      s.pc 2 = .writeRetry ∧ ∀ t ≠ 0, s.pc t ≠ .writing ∧ s.pc t ≠ .reading := by
  have run : LockRun [] (LockSystem.init 3) := .nil
  have run := run.step (t := 0) (.callWriteLock _)
  have run := run.step (t := 0) (.writeLock _)
  have run := run.step (t := 1) (.callReadLock _)
  have run := run.step (t := 1) (.readLock _)
  have run := run.step (t := 2) (.callWriteLock _)
  have run := run.step (t := 2) (.writeLock _)
  exact ⟨_, run, rfl, rfl, rfl, fun t ht => LockRun.mutual_exclusion (by decide) run rfl ht⟩

end CS330
