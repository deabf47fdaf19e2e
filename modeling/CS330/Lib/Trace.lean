import Mathlib.Data.List.Induction
import Mathlib.Tactic.TypeStar

/-! # Labelled runs

`Trace step s as s'`: the steps with the labels `as`, in this order, lead from `s` to `s'`. -/

namespace CS330

variable {σ τ α : Type*}

/-- Runs of a labelled transition relation. -/
inductive Trace (step : σ → α → σ → Prop) (s : σ) : List α → σ → Prop where
  | nil : Trace step s [] s
  | snoc : Trace step s as s' → step s' a s'' → Trace step s (as ++ [a]) s''

namespace Trace

variable {step step' : σ → α → σ → Prop} {s s' : σ} {as : List α}

/-- An assertion about the labels so far and the state, kept by every step. -/
theorem history {I : List α → σ → Prop} (h : Trace step s as s') (h0 : I [] s)
    (hstep : ∀ {as s a s'}, I as s → step s a s' → I (as ++ [a]) s') : I as s' := by
  induction h with
  | nil => exact h0
  | snoc _ hs ih => exact hstep ih hs

theorem invariant {I : σ → Prop} (h : Trace step s as s') (h0 : I s)
    (hstep : ∀ {s a s'}, I s → step s a s' → I s') : I s' :=
  h.history (I := fun _ => I) h0 hstep

theorem mono (h : Trace step s as s') (hle : ∀ {s a s'}, step s a s' → step' s a s') :
    Trace step' s as s' := by
  induction h with
  | nil => exact .nil
  | snoc _ hs ih => exact .snoc ih (hle hs)

theorem cons {a : α} {s₀ : σ} (hs : step s₀ a s) (h : Trace step s as s') :
    Trace step s₀ (a :: as) s' := by
  induction h with
  | nil => exact snoc nil hs
  | snoc _ hs' ih => exact snoc ih hs'

theorem snoc_iff {a : α} : Trace step s (as ++ [a]) s' ↔ ∃ t, Trace step s as t ∧ step t a s' := by
  refine ⟨fun h => ?_, fun ⟨t, htrace, hs⟩ => .snoc htrace hs⟩
  generalize heq : as ++ [a] = bs at h
  cases h with
  | nil => simp at heq
  | snoc htrace hs =>
    obtain ⟨rfl, rfl⟩ := List.append_singleton_inj.1 heq
    exact ⟨_, htrace, hs⟩

/-- A run can be cut anywhere. -/
theorem append_iff {bs : List α} :
    Trace step s (as ++ bs) s' ↔ ∃ t, Trace step s as t ∧ Trace step t bs s' := by
  constructor
  · intro h
    induction bs using List.reverseRecOn generalizing s' with
    | nil => exact ⟨s', by simpa using h, .nil⟩
    | append_singleton bs b ih =>
      rw [← List.append_assoc, snoc_iff] at h
      obtain ⟨s₁, h, hs⟩ := h
      obtain ⟨t, hpre, hpost⟩ := ih h
      exact ⟨t, hpre, hpost.snoc hs⟩
  · rintro ⟨t, hpre, hpost⟩
    induction hpost with
    | nil => simpa using hpre
    | snoc _ hs ih =>
      rw [← List.append_assoc]
      exact ih.snoc hs

theorem singleton_iff {a : α} : Trace step s [a] s' ↔ step s a s' := by
  rw [← List.nil_append [a], snoc_iff]
  refine ⟨fun ⟨t, hnil, hs⟩ => ?_, fun hs => ⟨s, .nil, hs⟩⟩
  generalize hempty : ([] : List α) = bs at hnil
  cases hnil with
  | nil => exact hs
  | snoc => simp at hempty

theorem cons_iff {a : α} : Trace step s (a :: as) s' ↔ ∃ t, step s a t ∧ Trace step t as s' := by
  rw [← List.singleton_append, append_iff]
  simp only [singleton_iff]

/-- Forward simulation: runs from related states keep the labels and end in related states. -/
theorem simulate {R : σ → τ → Prop} {stepT : τ → α → τ → Prop} {t : τ} (h : Trace step s as s')
    (h0 : R s t) (hsim : ∀ {s a s' t}, R s t → step s a s' → ∃ t', stepT t a t' ∧ R s' t') :
    ∃ t', Trace stepT t as t' ∧ R s' t' := by
  induction h with
  | nil => exact ⟨t, .nil, h0⟩
  | snoc _ hs ih =>
    obtain ⟨t', htrace, hR⟩ := ih
    obtain ⟨t'', hstep, hR'⟩ := hsim hR hs
    exact ⟨t'', .snoc htrace hstep, hR'⟩

end Trace

end CS330
