import CS330.Hashing.Basic
import CS330.Lib.Claims

/-! # Every schedule gives the same hashes

Both cursors stand at the first block that is not claimed. A block in front of it is either claimed
by one thread that has still to store its hash, or its hash has been stored once (`HashitInv`). When
no thread is left, the cursors are at the end, and nothing is claimed. -/

namespace CS330

variable {n : Nat} {file : Mapping} {s s' : HashitSystem n} {events : List (Fin n × HashitEvent)}
  {mem : Nat → UInt8} {endptr ptr a i : Nat} {hashval : BitVec 64}

/-! ## One block -/

/-- The loop reads whole words between the pointer and the end. -/
theorem hashLoop_reads {count : Nat} (hptr : ptr ≤ endptr) (hend : endptr < 2 ^ 63)
    (h : a ∈ (hashLoop mem endptr count ptr hashval).2) : ptr ≤ a ∧ a < endptr := by
  induction count generalizing ptr hashval with
  | zero => exact absurd h List.not_mem_nil
  | succ count ih =>
    rw [hashLoop] at h
    split at h
    next => exact absurd h List.not_mem_nil
    next hroom =>
      rw [← Nat.cast_sub hptr, u64_natCast (by omega)] at hroom
      rcases List.mem_append.1 h with h | h
      · rw [List.mem_range'_1] at h
        omega
      · have := ih (by omega) h
        omega

namespace Mapping

/-- Where block `i` starts. -/
def block (file : Mapping) (i : Nat) : Nat := file.buff + i * BLOCK_SIZE

theorem endptr_le_block (file : Mapping) : file.endptr ≤ file.block i ↔ file.hashCount ≤ i := by
  unfold endptr block hashCount BLOCK_SIZE
  split <;> omega

theorem block_succ (file : Mapping) : file.block (i + 1) = file.block i + BLOCK_SIZE := by
  unfold block BLOCK_SIZE
  omega

theorem hash_reads (file : Mapping) (hi : i < file.hashCount)
    (h : a ∈ (calculateAndStoreHash file.mem (file.block i) file.endptr).2) :
    file.buff ≤ a ∧ a < file.endptr := by
  have hlt := mt file.endptr_le_block.1 (Nat.not_le.2 hi)
  have := hashLoop_reads (Nat.le_of_not_le hlt) file.end_lt h
  exact ⟨(Nat.le_add_right _ _).trans this.1, this.2⟩

end Mapping

/-! ## The invariant -/

/-- The block that a thread has claimed and whose hash it has not stored yet. -/
def HashitPc.claim : HashitPc → Option Nat
  | compute _ chash => some chash
  | _ => none

/-- What a thread at this place says about the cursor `optr`. -/
def HashitPc.Fits (file : Mapping) (optr : Nat) : HashitPc → Prop
  | lock => True
  | compute cptr chash => cptr = file.block chash ∧ chash < optr
  | exited => file.hashCount ≤ optr

structure HashitInv (file : Mapping) (events : List (Fin n × HashitEvent)) (s : HashitSystem n) :
    Prop where
  dataptr : s.shared.dataptr = file.block s.shared.optr
  optr_le : s.shared.optr ≤ file.hashCount
  fits : ∀ t, (s.pc t).Fits file s.shared.optr
  claims : Claims HashitPc.claim s (stores events) s.shared.optr
  hashes : ∀ i ∈ stores events, s.shared.hashes i =
    (calculateAndStoreHash file.mem (file.block i) file.endptr).1
  reads : ∀ a ∈ reads events, file.buff ≤ a ∧ a < file.endptr

theorem HashitInv.init {hashes : Nat → BitVec 64} :
    HashitInv file [] (HashitSystem.init n file hashes) where
  dataptr := by simp [HashitSystem.init, Mapping.block]
  optr_le := Nat.zero_le _
  fits _ := trivial
  claims := .init fun _ => rfl
  hashes i h := absurd h List.not_mem_nil
  reads a h := absurd h List.not_mem_nil

theorem HashitPc.Fits.mono {pc : HashitPc} {optr optr' : Nat} (h : pc.Fits file optr)
    (hle : optr ≤ optr') : pc.Fits file optr' := by
  cases pc with
  | lock => trivial
  | compute => exact ⟨h.1, h.2.trans_le hle⟩
  | exited => exact le_trans (b := optr) h hle

/-- The other threads fit when the cursor only advances. -/
theorem HashitInv.fits_update {optr : Nat} {pc : HashitPc} {t : Fin n} (I : HashitInv file events s)
    (hle : s.shared.optr ≤ optr) (h : pc.Fits file optr) (t' : Fin n) :
    (Function.update s.pc t pc t').Fits file optr := by
  rw [Function.update_apply]
  split
  next => exact h
  next => exact (I.fits t').mono hle

@[simp] theorem stores_append_claim {t : Fin n} : stores (events ++ [(t, .claim)]) = stores events := by
  simp [stores]

@[simp] theorem stores_append_store {t : Fin n} {chash : Nat} {addrs : List Nat} :
    stores (events ++ [(t, .store chash addrs)]) = stores events ++ [chash] := by simp [stores]

@[simp] theorem reads_append_claim {t : Fin n} : reads (events ++ [(t, .claim)]) = reads events := by
  simp [reads]

@[simp] theorem reads_append_store {t : Fin n} {chash : Nat} {addrs : List Nat} :
    reads (events ++ [(t, .store chash addrs)]) = reads events ++ addrs := by simp [reads]

theorem HashitInv.claim {t : Fin n} (I : HashitInv file events s) (hpc : s.pc t = .lock) :
    HashitInv file (events ++ [(t, .claim)])
      ⟨(s.shared.claim file.endptr).1,
        Function.update s.pc t (s.shared.claim file.endptr).2⟩ := by
  rw [HashitMemory.claim]
  split
  next hend =>
    rw [I.dataptr, file.endptr_le_block] at hend
    refine ⟨I.dataptr, I.optr_le, I.fits_update le_rfl hend, ?_, ?_, ?_⟩
    · rw [stores_append_claim]
      exact I.claims.keep (by rw [hpc]; rfl)
    · rw [stores_append_claim]
      exact I.hashes
    · rw [reads_append_claim]
      exact I.reads
  next hroom =>
    rw [I.dataptr, file.endptr_le_block, not_le] at hroom
    refine ⟨?_, hroom, I.fits_update (Nat.le_succ _) ⟨I.dataptr, Nat.lt_succ_self _⟩, ?_, ?_, ?_⟩
    · exact (congrArg (· + BLOCK_SIZE) I.dataptr).trans file.block_succ.symm
    · rw [stores_append_claim]
      exact I.claims.take (by rw [hpc]; rfl) rfl
    · rw [stores_append_claim]
      exact I.hashes
    · rw [reads_append_claim]
      exact I.reads

theorem HashitInv.store {t : Fin n} {cptr chash : Nat} (I : HashitInv file events s)
    (hpc : s.pc t = .compute cptr chash) :
    HashitInv file
      (events ++ [(t, .store chash (calculateAndStoreHash file.mem cptr file.endptr).2)])
      ⟨s.shared.store chash (calculateAndStoreHash file.mem cptr file.endptr).1,
        Function.update s.pc t .lock⟩ := by
  obtain ⟨rfl, hlt⟩ : cptr = file.block chash ∧ chash < s.shared.optr := by
    have := I.fits t
    rwa [hpc] at this
  refine ⟨I.dataptr, I.optr_le, I.fits_update le_rfl trivial, ?_, fun i hi => ?_, fun a ha => ?_⟩
  · rw [stores_append_store]
    exact I.claims.handIn (by rw [hpc]; rfl) rfl
  · rw [stores_append_store] at hi
    change Function.update s.shared.hashes chash _ i = _
    rw [Function.update_apply]
    split
    next heq => rw [heq]
    next hne =>
      refine I.hashes i ((List.mem_append.1 hi).resolve_right ?_)
      exact mt List.mem_singleton.1 hne
  · rw [reads_append_store] at ha
    rcases List.mem_append.1 ha with ha | ha
    · exact I.reads a ha
    · exact file.hash_reads (hlt.trans_le I.optr_le) ha

theorem HashitInv.step {event : Fin n × HashitEvent} (I : HashitInv file events s)
    (h : Threads.StepOf (fun s t => HashitStep file (s.shared, s.pc t)) s event s') :
    HashitInv file (events ++ [event]) s' := by
  have own {t : Fin n} {event : HashitEvent} {after : HashitMemory × HashitPc}
      (h : HashitStep file (s.shared, s.pc t) event after) : HashitInv file (events ++ [(t, event)])
        ⟨after.1, Function.update s.pc t after.2⟩ := by
    generalize hpc : s.pc t = pc at h
    cases h with
    | claim => exact I.claim hpc
    | store => exact I.store hpc
  cases h with
  | mk h => exact own h

/-! ## Runs -/

theorem HashitRun.inv (run : HashitRun file events s) : HashitInv file events s := by
  obtain ⟨hashes, run⟩ := run
  exact run.history .init fun I h => I.step h

/-- When all threads have finished, every entry of the array has been stored once, and nothing
else; it holds the hash of its block; and nothing outside of the file has been read. -/
theorem HashitRun.schedule_independent (hn : 0 < n) (run : HashitRun file events s)
    (hexited : ∀ t, s.pc t = .exited) :
    (∀ i < file.hashCount, s.shared.hashes i =
      (calculateAndStoreHash file.mem (file.buff + i * BLOCK_SIZE) file.endptr).1) ∧
    (∀ i, (stores events).count i = if i < file.hashCount then 1 else 0) ∧
    ∀ a ∈ reads events, file.buff ≤ a ∧ a < file.endptr := by
  have I := run.inv
  have hoptr : s.shared.optr = file.hashCount := by
    have hfits := I.fits ⟨0, hn⟩
    rw [hexited] at hfits
    exact le_antisymm I.optr_le hfits
  have hcount := hoptr ▸ I.claims.count_eq fun t => by rw [hexited]; rfl
  refine ⟨fun i hi => I.hashes i ?_, hcount, I.reads⟩
  rw [← List.count_pos_iff, hcount, if_pos hi]
  exact Nat.one_pos

/-- A file of a whole block, one word and four bytes. -/
def twoBlocks : Mapping := ⟨fun _ => 1, 4096, 76, by decide⟩

theorem HashitRun.step {t : Fin n} {event : HashitEvent} {m : HashitMemory} {p : HashitPc}
    (run : HashitRun file events s) (h : HashitStep file (s.shared, s.pc t) event (m, p)) :
    HashitRun file (events ++ [(t, event)]) ⟨m, Function.update s.pc t p⟩ := by
  obtain ⟨hashes, run⟩ := run
  exact ⟨hashes, run.snoc (.mk h)⟩

/-- Each of two threads claims a block, and the second one stores its hash first. -/
theorem HashitRun.schedule_independent_of_twoBlocks :
    ∃ (events : List (Fin 2 × HashitEvent)) (s : HashitSystem 2), HashitRun twoBlocks events s ∧
      (∀ t, s.pc t = .exited) ∧ stores events = [1, 0] ∧
      s.shared.hashes 0 = 0x0808080808080808 ∧ s.shared.hashes 1 = 0x0101010101010101 ∧
      ∀ a ∈ reads events, 4096 ≤ a ∧ a < 4172 := by
  have run : HashitRun twoBlocks [] (HashitSystem.init 2 twoBlocks fun _ => 0) := ⟨_, .nil⟩
  have run := run.step (t := 0) (.claim _)
  have run := run.step (t := 1) (.claim _)
  have run := run.step (t := 1) (.store _ 4160 1)
  have run := run.step (t := 0) (.store _ 4096 0)
  have run := run.step (t := 0) (.claim _)
  have run := run.step (t := 1) (.claim _)
  obtain ⟨hhashes, -, hreads⟩ := HashitRun.schedule_independent (by decide) run
    (Fin.forall_fin_two.2 ⟨rfl, rfl⟩)
  refine ⟨_, _, run, Fin.forall_fin_two.2 ⟨rfl, rfl⟩, rfl, ?_, ?_, hreads⟩
  · exact (hhashes 0 (by decide)).trans (by decide)
  · exact (hhashes 1 (by decide)).trans (by decide)

end CS330
