import Mathlib.Algebra.Ring.Nat
import Mathlib.Data.Fin.Basic
import Mathlib.Tactic.TypeStar

/-! # Going round a finite row of slots

`i.after j` is the slot that `j` steps to the right lead to from slot `i`, the first slot being
the right neighbour of the last one. -/

namespace CS330

variable {n : Nat} {i i' : Fin n} {j k : Nat}

/-- The slot `j` steps after `i`. -/
def slotAfter (i : Fin n) (j : Nat) : Fin n := ⟨(i + j) % n, Nat.mod_lt _ i.pos⟩

/-- The number of steps from `i` to `i'`. -/
def distance (i i' : Fin n) : Nat := if (i : Nat) ≤ i' then i' - i else n + i' - i

@[simp] theorem slotAfter_zero : slotAfter i 0 = i :=
  Fin.ext (Nat.mod_eq_of_lt i.isLt)

theorem slotAfter_succ [NeZero n] : slotAfter i (j + 1) = slotAfter i j + 1 := by
  refine Fin.ext ?_
  rw [Fin.val_add, Fin.val_one', Nat.add_mod_mod]
  exact (Nat.mod_add_mod (i + j) n 1).symm

theorem distance_lt : distance i i' < n := by
  unfold distance
  split <;> omega

@[simp] theorem slotAfter_distance : slotAfter i (distance i i') = i' := by
  refine Fin.ext ?_
  change (i + distance i i') % n = i'
  unfold distance
  split
  next h => rw [Nat.add_sub_cancel' h, Nat.mod_eq_of_lt i'.isLt]
  next h =>
    have : i + (n + i' - i) = n + i' := by omega
    rw [this, Nat.add_mod_left, Nat.mod_eq_of_lt i'.isLt]

theorem val_slotAfter (hj : j < n) :
    (slotAfter i j : Nat) = if i + j < n then i + j else i + j - n := by
  change (i + j) % n = _
  split
  next h => exact Nat.mod_eq_of_lt h
  next h => rw [Nat.mod_eq_sub_mod (by omega), Nat.mod_eq_of_lt (by omega)]

theorem distance_slotAfter (hj : j < n) : distance i (slotAfter i j) = j := by
  unfold distance
  rw [val_slotAfter hj]
  split <;> split <;> omega

theorem distance_slotAfter_le : distance i (slotAfter i j) ≤ j := by
  rcases Nat.lt_or_ge j n with hj | hj
  · exact (distance_slotAfter hj).le
  · exact (distance_lt.trans_le hj).le

/-- The last slot of the round is the left neighbour of the first one. -/
theorem val_slotAfter_eq_pred (hi : (i : Nat) ≠ 0) (hj : j < n) :
    (slotAfter i j : Nat) = i - 1 ↔ j + 1 = n := by
  rw [val_slotAfter hj]
  split <;> omega

end CS330
