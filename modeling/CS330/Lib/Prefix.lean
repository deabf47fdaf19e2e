import Mathlib.Data.List.Basic
import Mathlib.Logic.Function.Basic

/-! # Codes that can be split off the front of a text -/

namespace CS330

variable {α β : Type*} {encode : α → List β}

/-- No code word is the beginning of a text that starts with another one. -/
def PrefixFree (encode : α → List β) : Prop :=
  ∀ ⦃a b s t⦄, encode a ++ s = encode b ++ t → a = b

/-- A text is written in at most one way. -/
theorem PrefixFree.flatMap_injective (h : PrefixFree encode) (hne : ∀ a, encode a ≠ []) :
    Function.Injective fun as : List α => as.flatMap encode := by
  intro as bs heq
  induction as generalizing bs with
  | nil =>
    cases bs with
    | nil => rfl
    | cons b bs => simp [hne b] at heq
  | cons a as ih =>
    cases bs with
    | nil => simp [hne a] at heq
    | cons b bs =>
      simp only [List.flatMap_cons] at heq
      obtain rfl := h heq
      rw [ih (List.append_cancel_left heq)]

end CS330
