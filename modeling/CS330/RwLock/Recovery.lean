import CS330.RwLock.Exclusion

/-! # No lockout

A failed attempt takes from the lock word until its undo, which gives back the same amount. So the
word is short of a writer's share only while a thread holds the lock for writing or has a write
attempt to undo, and it is at its initial value when no thread has anything. -/

namespace CS330

variable {n : Nat} {s s' : LockSystem n} {t : Fin n} {lock : RwLock} {pc : LockPc}

/-- The thread has taken a writer's share: it holds the lock for writing, or a failed attempt to
is not undone yet. -/
def LockPc.Writes (pc : LockPc) : Prop := pc = writing ∨ pc = writeRetry

/-- The thread does not hold the lock and has no failed attempt to undo. -/
def LockPc.Quiet (pc : LockPc) : Prop := ¬pc.Holds ∧ pc ≠ writeRetry ∧ pc ≠ readRetry

theorem LockPc.quiet_idle : LockPc.idle.Quiet :=
  ⟨fun h => h.elim LockPc.noConfusion LockPc.noConfusion, LockPc.noConfusion, LockPc.noConfusion⟩

theorem LockPc.weight_le_one (h : ¬pc.Writes) : pc.weight ≤ 1 := by
  cases pc with
  | writing => exact (h (.inl rfl)).elim
  | writeRetry => exact (h (.inr rfl)).elim
  | idle | writeLock | readLock | reading | readRetry => decide

theorem LockPc.Quiet.weight_eq (h : pc.Quiet) : pc.weight = 0 := by
  cases pc with
  | writing => exact (h.1 (.inl rfl)).elim
  | reading => exact (h.1 (.inr rfl)).elim
  | writeRetry => exact (h.2.1 rfl).elim
  | readRetry => exact (h.2.2 rfl).elim
  | idle | writeLock | readLock => rfl

/-- A reader gets the lock when its sum is not negative. -/
theorem readLock_of_msb (h : (readLock lock).1.value.msb = false) :
    (readLock lock).2 = .reading := by
  change (atomicAdd lock.value (-1)).1.msb = false at h
  change (if (atomicAdd lock.value (-1)).2 = -1 then LockPc.readRetry else .reading) = _
  refine if_neg fun hret => ?_
  rw [atomicAdd] at h hret
  dsimp only at h hret
  rw [h, if_neg Bool.false_ne_true] at hret
  split at hret <;> simp at hret

/-- As long as no thread has a writer's share, readers get the lock at once. -/
theorem LockInv.readLock (hn : n < 2 ^ 15) (I : LockInv s) (h : ∀ t, ¬(s.pc t).Writes) :
    (readLock s.shared).2 = .reading := by
  have htotal := Threads.total_le LockPc.weight fun t => LockPc.weight_le_one (h t)
  rw [Fintype.card_fin, mul_one] at htotal
  have hvalue : (CS330.readLock s.shared).1.value =
      BitVec.ofInt 64 (2 ^ 48 - s.total LockPc.weight - 1) := by
    rw [(LockStep.readLock s.shared).value_eq, I.value, weight_readLock, ← BitVec.ofInt_add]
    congr 1
  refine readLock_of_msb ?_
  rw [hvalue, BitVec.msb_eq_toInt, BitVec.toInt_ofInt_eq_self (by decide) (by omega) (by omega)]
  exact decide_eq_false (by omega)

/-- When all attempts are undone and nobody holds the lock, the lock word is as it was. -/
theorem LockInv.shared_eq (I : LockInv s) (h : ∀ t, (s.pc t).Quiet) : s.shared = initRwlock := by
  have htotal : s.total LockPc.weight = 0 := Finset.sum_eq_zero fun t _ => (h t).weight_eq
  have hvalue := I.value
  rw [htotal] at hvalue
  exact congrArg RwLock.mk hvalue

/-! ## Runs -/

/-- In every state of a run: a read attempt fails only if some thread has a writer's share; and if
no thread holds the lock or has an attempt to undo, the lock word is at its initial value, and the
first add of the next attempt gets the lock, whoever makes it. -/
theorem LockRun.no_lockout {threads : List (Fin n)} (hn : n < 2 ^ 15) (run : LockRun threads s) :
    ((readLock s.shared).2 = .readRetry → ∃ t, (s.pc t).Writes) ∧
    ((∀ t, (s.pc t).Quiet) → s.shared = initRwlock ∧
      (writeLock s.shared).2 = .writing ∧ (readLock s.shared).2 = .reading) := by
  have I := run.inv hn
  refine ⟨fun hfail => ?_, fun hquiet => ?_⟩
  · by_contra hnone
    have := I.readLock hn fun t ht => hnone ⟨t, ht⟩
    rw [hfail] at this
    cases this
  · rw [I.shared_eq hquiet]
    exact ⟨rfl, by decide, by decide⟩

/-- The writer of `writer_run` returns the lock. -/
theorem unlock_run : LockRun [0, 0, 0] (⟨⟨0x1000000000000⟩,
    Function.update (Function.update (fun _ => .idle) 0 .writing) 0 .idle⟩ : LockSystem 2) :=
  writer_run.snoc (.mk (.writeUnlock ⟨0⟩))

theorem LockRun.no_lockout_of_writer :
    (∃ s : LockSystem 2, LockRun [0, 0] s ∧ ∃ t, (s.pc t).Writes) ∧
    ∃ s : LockSystem 2, LockRun [0, 0, 0] s ∧ s.shared = initRwlock := by
  refine ⟨⟨_, writer_run, (LockRun.no_lockout (by decide) writer_run).1 (by decide)⟩,
    _, unlock_run, ((LockRun.no_lockout (by decide) unlock_run).2 fun t => ?_).1⟩
  change (Function.update (Function.update (fun _ => LockPc.idle) 0 .writing) 0 .idle t).Quiet
  rw [Function.update_idem, Function.update_eq_self_iff.2 rfl]
  exact LockPc.quiet_idle

end CS330
