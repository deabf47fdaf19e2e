import Mathlib.Tactic.TypeStar

/-! # Tail-recursive procedures

A C function whose recursive calls are all tail calls, or a loop, is a body that maps the
arguments of one activation to its outcome: it returns a result, goes on with new arguments, or
is stuck (a failed assertion, a NULL dereference). `Returns` relates arguments to the result of
a terminating run and has no derivation for a run that loops or gets stuck; `run` counts the
activations. -/

namespace CS330

/-- The outcome of one activation. -/
inductive Outcome (σ ρ : Type*) where
  | ret (r : ρ)
  | call (s : σ)
  | stuck
deriving DecidableEq, Repr

variable {σ ρ : Type*}

/-- `Returns body s r`: the procedure called on `s` terminates with result `r`. -/
inductive Returns (body : σ → Outcome σ ρ) : σ → ρ → Prop where
  | ret : body s = .ret r → Returns body s r
  | call : body s = .call s' → Returns body s' r → Returns body s r

/-- `Calls body k s s'`: from the arguments `s` the procedure gets to `s'` by `k` calls. -/
inductive Calls (body : σ → Outcome σ ρ) : Nat → σ → σ → Prop where
  | refl : Calls body 0 s s
  | call : body s = .call s' → Calls body k s' s'' → Calls body (k + 1) s s''

/-- At most `n` activations of the procedure; `none` when no result is reached. -/
def run (body : σ → Outcome σ ρ) : Nat → σ → Option ρ
  | 0, _ => none
  | n + 1, s =>
    match body s with
    | .ret r => some r
    | .call s' => run body n s'
    | .stuck => none

namespace Returns

variable {body : σ → Outcome σ ρ} {s s' : σ} {r r' : ρ}

theorem ret_iff (h : body s = .ret r) : Returns body s r' ↔ r' = r := by
  constructor
  · intro H
    cases H with
    | ret h' => rw [h] at h'; cases h'; rfl
    | call h' => rw [h] at h'; cases h'
  · rintro rfl
    exact .ret h

theorem call_iff (h : body s = .call s') : Returns body s r ↔ Returns body s' r := by
  constructor
  · intro H
    cases H with
    | ret h' => rw [h] at h'; cases h'
    | call h' H => rw [h] at h'; cases h'; exact H
  · exact .call h

theorem not_stuck (h : body s = .stuck) : ¬Returns body s r := by
  intro H
  cases H with
  | ret h' => rw [h] at h'; cases h'
  | call h' => rw [h] at h'; cases h'

theorem det (H : Returns body s r) (H' : Returns body s r') : r = r' := by
  induction H with
  | ret h => exact ((ret_iff h).mp H').symm
  | call h _ ih => exact ih ((call_iff h).mp H')

theorem of_run (h : run body n s = some r) : Returns body s r := by
  induction n generalizing s with
  | zero => cases h
  | succ n ih =>
    rw [run] at h
    split at h
    next r' hb => cases h; exact .ret hb
    next s' hb => exact .call hb (ih h)
    next => cases h

/-- Partial correctness: an assertion kept by every activation relates arguments and result. -/
theorem invariant {P : σ → Prop} {Q : ρ → Prop} (H : Returns body s r) (hs : P s)
    (hcall : ∀ {s s'}, P s → body s = .call s' → P s')
    (hret : ∀ {s r}, P s → body s = .ret r → Q r) : Q r := by
  induction H with
  | ret h => exact hret hs h
  | call h _ ih => exact ih (hcall hs h)

/-- Divergence: no result is reached from a set of arguments that every activation stays in. -/
theorem not_of_trap {P : σ → Prop} (hs : P s)
    (htrap : ∀ {s}, P s → body s = .stuck ∨ ∃ s', body s = .call s' ∧ P s') :
    ¬Returns body s r := by
  intro H
  induction H with
  | ret h =>
    rcases htrap hs with h' | ⟨_, h', _⟩ <;> rw [h] at h' <;> cases h'
  | call h _ ih =>
    rcases htrap hs with h' | ⟨_, h', hs'⟩ <;> rw [h] at h' <;> cases h'
    exact ih hs'

end Returns

/-! ## Counting activations -/

variable {body : σ → Outcome σ ρ} {s s' s'' : σ} {r : ρ} {n k l : Nat}

namespace Calls

theorem single (h : body s = .call s') : Calls body 1 s s' := .call h .refl

theorem trans (H : Calls body k s s') (H' : Calls body l s' s'') : Calls body (k + l) s s'' := by
  induction H with
  | refl => rwa [Nat.zero_add]
  | call h _ ih =>
    rw [Nat.succ_add]
    exact .call h (ih H')

/-- Activations that call one another in a row. -/
theorem row {f : Nat → σ} (h : ∀ j < k, body (f j) = .call (f (j + 1))) :
    Calls body k (f 0) (f k) := by
  induction k with
  | zero => exact .refl
  | succ k ih =>
    have hrow := ih fun j hj => h j (Nat.lt_succ_of_lt hj)
    exact hrow.trans (.single (h k (Nat.lt_succ_self k)))

theorem returns_congr (H : Calls body k s s') : Returns body s r ↔ Returns body s' r := by
  induction H with
  | refl => rfl
  | call h _ ih => exact (Returns.call_iff h).trans ih

/-- The calls and one activation more lead to the result. -/
theorem run_of_ret (H : Calls body k s s') (h : body s' = .ret r) (hn : k < n) :
    run body n s = some r := by
  induction H generalizing n with
  | refl =>
    obtain _ | n := n
    · cases hn
    · rw [run, h]
  | call hcall _ ih =>
    obtain _ | n := n
    · cases hn
    · rw [run, hcall]
      exact ih h (Nat.lt_of_succ_lt_succ hn)

end Calls

end CS330
