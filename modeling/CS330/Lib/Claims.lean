import CS330.Lib.Interleaving

/-! # Numbers that are given out once

A thread takes the next number in one step and is done with it in a later one. `Claims` says that
each number given out so far is with one thread, or done, and this once. -/

namespace CS330

variable {ι μ π : Type*} [DecidableEq ι] [Fintype ι] {claim : π → Option ℕ}
  {s : Threads ι μ π} {done : List ℕ} {next i : ℕ} {t : ι} {m : μ} {p : π}

/-- The numbers below `next` have been given out; `done` are those that have been handed in, and a
thread at `p` has the number `claim p`. -/
def Claims (claim : π → Option ℕ) (s : Threads ι μ π) (done : List ℕ) (next : ℕ) : Prop :=
  ∀ i, done.count i + s.total (fun p => if claim p = some i then 1 else 0) =
    if i < next then 1 else 0

namespace Claims

omit [DecidableEq ι] in
theorem init (h : ∀ t, claim (s.pc t) = none) : Claims claim s [] 0 := by
  intro i
  simp [Threads.total, h]

/-- A step that neither takes nor hands in a number. -/
theorem keep (C : Claims claim s done next) (h : claim p = claim (s.pc t)) :
    Claims claim ⟨m, Function.update s.pc t p⟩ done next := by
  intro i
  have := Threads.total_update (fun p => if claim p = some i then 1 else 0) (s := s) (t := t)
    (m := m) (p := p)
  rw [← C i]
  rw [h] at this
  omega

/-- A thread without a number takes the next one. -/
theorem take (C : Claims claim s done next) (h : claim (s.pc t) = none) (hp : claim p = some next) :
    Claims claim ⟨m, Function.update s.pc t p⟩ done (next + 1) := by
  intro i
  have := Threads.total_update (fun p => if claim p = some i then 1 else 0) (s := s) (t := t)
    (m := m) (p := p)
  have hC := C i
  simp only [h, hp, Option.some.injEq, reduceCtorEq, if_false] at this
  split at hC <;> split at this <;> split <;> omega

/-- A thread hands in its number. -/
theorem handIn (C : Claims claim s done next) (h : claim (s.pc t) = some i) (hp : claim p = none) :
    Claims claim ⟨m, Function.update s.pc t p⟩ (done ++ [i]) next := by
  intro j
  have := Threads.total_update (fun p => if claim p = some j then 1 else 0) (s := s) (t := t)
    (m := m) (p := p)
  have hC := C j
  simp only [h, hp, Option.some.injEq, reduceCtorEq, if_false] at this
  rw [List.count_append, List.count_singleton]
  simp only [beq_iff_eq]
  omega

/-- A thread takes the next number and hands it in at once. -/
theorem pass (C : Claims claim s done next) (h : claim (s.pc t) = none) (hp : claim p = none) :
    Claims claim ⟨m, Function.update s.pc t p⟩ (done ++ [next]) (next + 1) := by
  intro i
  have hC := C.keep (m := m) (p := p) (hp.trans h.symm) i
  rw [List.count_append, List.count_singleton]
  simp only [beq_iff_eq]
  split at hC <;> split <;> split <;> omega

omit [DecidableEq ι] in
/-- When no thread has a number, those given out have been handed in, each of them once. -/
theorem count_eq (C : Claims claim s done next) (h : ∀ t, claim (s.pc t) = none) (i : ℕ) :
    done.count i = if i < next then 1 else 0 := by
  rw [← C i, Threads.total, Finset.sum_eq_zero fun t _ => by simp [h], Nat.add_zero]

omit [DecidableEq ι] in
theorem nodup (C : Claims claim s done next) : done.Nodup := by
  rw [List.nodup_iff_count_le_one]
  intro i
  have := C i
  split at this <;> omega

omit [DecidableEq ι] in
/-- A number that has been given out has been handed in, or a thread has it. -/
theorem lt_iff (C : Claims claim s done next) :
    i < next ↔ i ∈ done ∨ ∃ t, claim (s.pc t) = some i := by
  have htotal : s.total (fun p => if claim p = some i then 1 else 0) = 0 ↔
      ¬∃ t, claim (s.pc t) = some i := by
    simp [Threads.total]
  rw [← List.count_pos_iff, ← not_iff_not, not_or, ← htotal]
  have := C i
  split at this <;> omega

end Claims

end CS330
