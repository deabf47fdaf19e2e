import Mathlib.Logic.Function.Basic

/-! # Copy loops over a buffer

Loops of C that run an index upwards and access one cell of a fixed buffer per round. An access
outside of the buffer has no result. -/

namespace CS330

variable {α : Type*} {n : Nat}

/-- Store `x` at index `i`. -/
def store (v : Vector α n) (i : Nat) (x : α) : Option (Vector α n) :=
  if h : i < n then some (v.set i x h) else none

/-- For `j` from 0 to `k - 1` store `f j` at index `start + j`. -/
def copyIn (v : Vector α n) (start k : Nat) (f : Nat → α) : Option (Vector α n) :=
  (List.range k).foldlM (fun v j => store v (start + j) (f j)) v

/-- For `j` from 0 to `k - 1` copy the cell at index `start + j` to index `j`. -/
def shiftDown (v : Vector α n) (start k : Nat) : Option (Vector α n) :=
  (List.range k).foldlM (fun v j => v[start + j]?.bind (store v j)) v

/-- For `j` from 0 to `k - 1` copy the cell at index `j` to place `j` of the memory `m`. -/
def copyOut (v : Vector α n) (k : Nat) (m : Nat → α) : Option (Nat → α) :=
  (List.range k).foldlM (fun m j => v[j]?.map (Function.update m j)) m

variable {v : Vector α n} {start k i : Nat} {x : α} {f m : Nat → α}

theorem store_eq (h : i < n) : store v i x = some (v.set i x h) := dif_pos h

theorem copyIn_succ : copyIn v start (k + 1) f =
    (copyIn v start k f).bind fun v => store v (start + k) (f k) := by
  simp [copyIn, List.range_succ]

theorem shiftDown_succ : shiftDown v start (k + 1) =
    (shiftDown v start k).bind fun v => v[start + k]?.bind (store v k) := by
  simp [shiftDown, List.range_succ]

theorem copyOut_succ : copyOut v (k + 1) m =
    (copyOut v k m).bind fun m => v[k]?.map (Function.update m k) := by
  simp [copyOut, List.range_succ]

/-- Inside the buffer the loop changes exactly the cells it visits. -/
theorem copyIn_eq (h : start + k ≤ n) : ∃ v', copyIn v start k f = some v' ∧
    ∀ i : Nat, v'[i]? = if start ≤ i ∧ i < start + k then some (f (i - start)) else v[i]? := by
  induction k with
  | zero => exact ⟨v, rfl, fun i => by rw [if_neg (by omega)]⟩
  | succ k ih =>
    obtain ⟨v', heq, hv'⟩ := ih (by omega)
    refine ⟨v'.set (start + k) (f k) (by omega), ?_, fun i => ?_⟩
    · rw [copyIn_succ, heq]
      exact store_eq _
    · rw [Vector.getElem?_set, hv']
      grind

/-- A loop whose last round lies outside of the buffer has no result. -/
theorem copyIn_eq_none (hk : 0 < k) (h : n < start + k) : copyIn v start k f = none := by
  obtain ⟨k, rfl⟩ := Nat.exists_eq_succ_of_ne_zero (Nat.ne_of_gt hk)
  rw [Nat.succ_eq_add_one, copyIn_succ, Option.bind_eq_none_iff]
  intro v' _
  exact dif_neg (by omega)

/-- The loop moves the `k` cells from `start` on to the front of the buffer. -/
theorem shiftDown_eq (h : start + k ≤ n) : ∃ v', shiftDown v start k = some v' ∧
    ∀ i : Nat, v'[i]? = if i < k then v[start + i]? else v[i]? := by
  induction k with
  | zero => exact ⟨v, rfl, fun i => by rw [if_neg (by omega)]⟩
  | succ k ih =>
    obtain ⟨v', heq, hv'⟩ := ih (by omega)
    have hcell : v'[start + k]? = some v[start + k] := by
      -- the rounds so far stored below `k`, not above the cell that is read
      rw [hv', if_neg (by omega), Vector.getElem?_eq_getElem]
    refine ⟨v'.set k v[start + k] (by omega), ?_, fun i => ?_⟩
    · rw [shiftDown_succ, heq]
      simp [hcell, store_eq (show k < n by omega)]
    · rw [Vector.getElem?_set, hv']
      grind

theorem copyOut_eq (h : k ≤ n) : ∃ m', copyOut v k m = some m' ∧
    (∀ i < k, v[i]? = some (m' i)) ∧ ∀ i, k ≤ i → m' i = m i := by
  induction k with
  | zero => exact ⟨m, rfl, by simp, fun _ _ => rfl⟩
  | succ k ih =>
    obtain ⟨m', heq, hin, hout⟩ := ih (by omega)
    refine ⟨Function.update m' k v[k], ?_, fun i hi => ?_, fun i hi => ?_⟩
    · rw [copyOut_succ, heq]
      simp [Vector.getElem?_eq_getElem (show k < n by omega)]
    · rcases Nat.lt_succ_iff_lt_or_eq.1 hi with hlt | rfl
      · rw [Function.update_of_ne (by omega), hin i hlt]
      · simp
    · rw [Function.update_of_ne (by omega), hout i (by omega)]

end CS330
