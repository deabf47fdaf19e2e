import Mathlib.Algebra.BigOperators.Group.Finset.Basic
import Mathlib.Algebra.Order.BigOperators.Group.Finset
import Mathlib.Data.Fintype.BigOperators
import Mathlib.Tactic.Ring

/-! # Threads over a shared memory

Every thread runs the same program on its own program counter; a step of the system is an atomic
step of one thread. Programs that account for their threads in the memory are proved with the
total weight of the program counters. -/

namespace CS330

/-- What is known of a function after a change at one point. -/
theorem update_eq_iff {ι π : Type*} [DecidableEq ι] {f : ι → π} {i i' : ι} {v y : π} :
    Function.update f i v i' = y ↔ i' = i ∧ v = y ∨ i' ≠ i ∧ f i' = y := by
  rw [Function.update_apply]
  split <;> simp [*]

/-- The shared memory, and where each thread stands. -/
structure Threads (ι μ π : Type*) where
  shared : μ
  pc : ι → π

namespace Threads

variable {ι μ π : Type*} [DecidableEq ι]

/-- One thread takes a step of the program; the others stand still. -/
inductive Step (step : μ × π → μ × π → Prop) (s : Threads ι μ π) (t : ι) : Threads ι μ π → Prop where
  | mk {m : μ} {p : π} : step (s.shared, s.pc t) (m, p) → Step step s t ⟨m, Function.update s.pc t p⟩

/-- One thread takes a step of a program that reads what the other threads have in their local
memory but writes only its own; the step has a label. -/
inductive StepOf {α : Type*} (step : Threads ι μ π → ι → α → μ × π → Prop) (s : Threads ι μ π) :
    ι × α → Threads ι μ π → Prop where
  | mk {t : ι} {a : α} {m : μ} {p : π} :
    step s t a (m, p) → StepOf step s (t, a) ⟨m, Function.update s.pc t p⟩

section
variable [Fintype ι] (w : π → ℕ) {s : Threads ι μ π} {t t' : ι} {m : μ} {p : π}

/-- The sum of the weights of all threads. -/
def total (s : Threads ι μ π) : ℕ := ∑ t, w (s.pc t)

theorem total_update :
    total w (⟨m, Function.update s.pc t p⟩ : Threads ι μ π) + w (s.pc t) = total w s + w p := by
  have h := Finset.add_sum_erase Finset.univ (fun i => w (s.pc i)) (Finset.mem_univ t)
  have h' := Finset.add_sum_erase Finset.univ (fun i => w (Function.update s.pc t p i))
    (Finset.mem_univ t)
  have hrest : ∑ i ∈ Finset.univ.erase t, w (Function.update s.pc t p i) =
      ∑ i ∈ Finset.univ.erase t, w (s.pc i) :=
    Finset.sum_congr rfl fun i hi => by rw [Function.update_of_ne (Finset.ne_of_mem_erase hi)]
  rw [hrest, Function.update_self] at h'
  rw [total, total, ← h, ← h']
  ring

omit [DecidableEq ι] in
theorem add_le_total (h : t ≠ t') : w (s.pc t) + w (s.pc t') ≤ total w s :=
  Finset.add_le_sum (f := fun i => w (s.pc i)) (fun _ _ => Nat.zero_le _) (Finset.mem_univ t)
    (Finset.mem_univ t') h

omit [DecidableEq ι] in
theorem total_le {k : ℕ} (h : ∀ t, w (s.pc t) ≤ k) : total w s ≤ Fintype.card ι * k := by
  simpa [total] using Finset.sum_le_card_nsmul Finset.univ (fun t => w (s.pc t)) k fun t _ => h t

end

end Threads

end CS330
