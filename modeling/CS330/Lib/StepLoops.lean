import CS330.Lib.Procedure
import CS330.Lib.Word

/-! # Loops over the addresses of a range

A `u64` variable runs up or down in steps of a fixed size and each of its values is visited. -/

namespace CS330

variable {σ : Type*}

/-- `for( ; a < stop; a += d )`. -/
def upLoop (stop d : Nat) (visit : Nat → σ → σ) : Nat × σ → Outcome (Nat × σ) σ
  | (a, s) => if a < stop then .call (u64 (a + d), visit a s) else .ret s

/-- `for( ; a >= stop; a -= d )`. -/
def downLoop (stop d : Nat) (visit : Nat → σ → σ) : Nat × σ → Outcome (Nat × σ) σ
  | (a, s) => if a ≥ stop then .call (u64 (a - d), visit a s) else .ret s

/-- The first `k` values of an upward loop. -/
def upFrom (a d k : Nat) : List Nat := (List.range k).map (a + d * ·)

/-- The first `k` values of a downward loop. -/
def downFrom (a d k : Nat) : List Nat := (List.range k).map (a - d * ·)

variable {visit : Nat → σ → σ} {a b d k stop : Nat} {s r : σ}

theorem upFrom_succ : upFrom a d (k + 1) = a :: upFrom (a + d) d k := by
  simp only [upFrom, List.range_succ_eq_map, List.map_cons, List.map_map, Nat.mul_zero, Nat.add_zero]
  congr 2
  funext j
  simp only [Function.comp, Nat.mul_succ]
  omega

theorem downFrom_succ : downFrom a d (k + 1) = a :: downFrom (a - d) d k := by
  simp only [downFrom, List.range_succ_eq_map, List.map_cons, List.map_map, Nat.mul_zero,
    Nat.sub_zero]
  congr 2
  funext j
  simp only [Function.comp, Nat.mul_succ]
  omega

/-- A loop that reaches its bound after `k` rounds without leaving the words. -/
theorem returns_upLoop_iff (hlt : ∀ j < k, a + d * j < stop) (hstop : stop ≤ a + d * k)
    (h : a + d * k < 2 ^ 64) :
    Returns (upLoop stop d visit) (a, s) r ↔ r = (upFrom a d k).foldl (fun s a => visit a s) s := by
  induction k generalizing a s with
  | zero =>
    refine Returns.ret_iff (if_neg ?_)
    omega
  | succ k ih =>
    have ha := hlt 0 (by omega)
    rw [Nat.mul_succ] at hstop h
    have hword : u64 (a + d) = a + d := u64_natCast (by omega)
    have hcall : upLoop stop d visit (a, s) = .call (a + d, visit a s) := by
      simp only [upLoop]
      rw [if_pos (by omega), hword]
    rw [Returns.call_iff hcall, upFrom_succ, List.foldl_cons]
    refine ih (fun j hj => ?_) (by omega) (by omega)
    have := hlt (j + 1) (by omega)
    rw [Nat.mul_succ] at this
    omega

theorem returns_downLoop_iff (hle : ∀ j < k, stop + d * j ≤ a) (hstop : a < stop + d * k)
    (h : d * k ≤ a) (ha : a < 2 ^ 64) :
    Returns (downLoop stop d visit) (a, s) r ↔
      r = (downFrom a d k).foldl (fun s a => visit a s) s := by
  induction k generalizing a s with
  | zero =>
    refine Returns.ret_iff (if_neg ?_)
    omega
  | succ k ih =>
    have h0 := hle 0 (by omega)
    rw [Nat.mul_succ] at hstop h
    have hword : u64 (a - d) = a - d := by unfold u64; omega
    have hcall : downLoop stop d visit (a, s) = .call (a - d, visit a s) := by
      simp only [downLoop]
      rw [if_pos (by omega), hword]
    rw [Returns.call_iff hcall, downFrom_succ, List.foldl_cons]
    refine ih (fun j hj => ?_) (by omega) (by omega) (by omega)
    have := hle (j + 1) (by omega)
    rw [Nat.mul_succ] at this
    omega

/-- A downward loop that only counts: the first value below its bound. -/
theorem returns_downLoop_last_iff {r : Nat} (hle : ∀ j < k, stop + d * j ≤ a)
    (hstop : a < stop + d * k) (h : d * k ≤ a) (ha : a < 2 ^ 64) :
    Returns (downLoop stop d fun a _ => u64 (a - d)) (a, a) r ↔ r = a - d * k := by
  rw [returns_downLoop_iff hle hstop h ha]
  suffices (downFrom a d k).foldl (fun _ (a : Nat) => u64 (a - d)) a = a - d * k by rw [this]
  clear hle hstop
  induction k generalizing a with
  | zero => rfl
  | succ k ih =>
    rw [Nat.mul_succ] at h
    have hword : u64 (a - d) = a - d := by unfold u64; omega
    rw [downFrom_succ, List.foldl_cons, hword, ih (by omega) (by omega), Nat.mul_succ]
    omega

end CS330
