import Mathlib.Algebra.BigOperators.Group.List.Basic
import Mathlib.Data.List.Infix

/-! # Lines of a text

A text is cut at its separators. Every line but the last ends with one; what lies behind the last
separator is a line only if it is not empty. -/

namespace CS330

variable {α : Type*} [DecidableEq α] {sep : α} {line rest key : List α}

/-- The lines that end with a separator, without it. -/
def closedLines (sep : α) (text : List α) : List (List α) := (text.splitOn sep).dropLast

/-- What lies behind the last separator. -/
def openLine (sep : α) (text : List α) : List α :=
  (text.splitOn sep).getLast (List.splitOn_ne_nil _ _)

/-- The lines of a text. -/
def lines (sep : α) (text : List α) : List (List α) :=
  closedLines sep text ++ if openLine sep text = [] then [] else [openLine sep text]

theorem closedLines_of_not_mem (h : sep ∉ line) : closedLines sep line = [] := by
  rw [closedLines, List.splitOn_eq_singleton h]
  rfl

theorem openLine_of_not_mem (h : sep ∉ line) : openLine sep line = line := by
  simp [openLine, List.splitOn_eq_singleton h]

theorem openLine_append_cons (h : sep ∉ line) :
    openLine sep (line ++ sep :: rest) = openLine sep rest := by
  simp only [openLine, List.splitOn_append_cons_self_of_not_mem h]
  exact List.getLast_cons (List.splitOn_ne_nil _ _)

theorem closedLines_append_cons (h : sep ∉ line) :
    closedLines sep (line ++ sep :: rest) = line :: closedLines sep rest := by
  rw [closedLines, List.splitOn_append_cons_self_of_not_mem h,
    List.dropLast_cons_of_ne_nil (List.splitOn_ne_nil _ _)]
  rfl

/-- A line lies in the text, with its separator if it is closed. -/
theorem length_lines_le (sep : α) (text : List α) :
    (∀ line ∈ closedLines sep text, line.length + 1 ≤ text.length) ∧
      (openLine sep text).length ≤ text.length := by
  induction hn : text.length using Nat.strong_induction_on generalizing text with
  | _ n ih =>
    by_cases hsep : sep ∈ text
    · obtain ⟨line, rest, rfl, hline⟩ := List.eq_append_cons_of_mem hsep
      rw [closedLines_append_cons hline, openLine_append_cons hline, List.forall_mem_cons]
      simp only [List.length_append, List.length_cons] at hn
      obtain ⟨hclosed, hopen⟩ := ih rest.length (by omega) rest rfl
      refine ⟨⟨by omega, fun l hl => ?_⟩, by omega⟩
      have := hclosed l hl
      omega
    · rw [closedLines_of_not_mem hsep, openLine_of_not_mem hsep]
      exact ⟨by simp, hn.le⟩

/-- All lines of a text are shorter than the text exactly when a separator stands in front of the
last element. -/
theorem lines_shorter_iff (sep : α) (text : List α) :
    ((∀ line ∈ closedLines sep text, line.length + 1 < text.length) ∧
      (openLine sep text).length < text.length) ↔ sep ∈ text.dropLast := by
  by_cases hsep : sep ∈ text
  · obtain ⟨line, rest, rfl, hline⟩ := List.eq_append_cons_of_mem hsep
    rw [closedLines_append_cons hline, openLine_append_cons hline, List.forall_mem_cons,
      List.dropLast_append_cons]
    obtain ⟨hclosed, hopen⟩ := length_lines_le sep rest
    cases rest with
    | nil => simp [hline]
    | cons a rest =>
      refine iff_of_true ⟨⟨by simp, fun l hl => ?_⟩, ?_⟩ (by simp)
      · have := hclosed l hl
        simp only [List.length_append, List.length_cons] at this ⊢
        omega
      · simp only [List.length_append, List.length_cons] at hopen ⊢
        omega
  · rw [closedLines_of_not_mem hsep, openLine_of_not_mem hsep]
    exact iff_of_false (fun h => lt_irrefl _ h.2) fun h => hsep (List.mem_of_mem_dropLast h)

omit [DecidableEq α] in
/-- The separator behind a line takes no part in a match. -/
theorem infix_append_sep (h : sep ∉ key) : key <:+: line ++ [sep] ↔ key <:+: line := by
  rw [List.infix_concat_iff, List.suffix_concat_iff]
  refine ⟨?_, .inr⟩
  rintro ((rfl | ⟨_, rfl, -⟩) | hline)
  · exact List.nil_infix
  · exact (h (by simp)).elim
  · exact hline

/-- The lines that contain a key: those among the closed ones, and the open one if it does. -/
theorem filter_lines (hkey : key ≠ []) (text : List α) :
    (lines sep text).filter (key <:+: ·) = (closedLines sep text).filter (key <:+: ·) ++
      [openLine sep text].filter (key <:+: ·) := by
  rw [lines, List.filter_append]
  split
  next hopen => simp [hopen, hkey]
  next => rfl

omit [DecidableEq α] in
/-- Nothing is lost of what is collected over a list just when nothing is left out anywhere. -/
theorem flatMap_eq_append_iff {β : Type*} {f g : β → List α} {l : List β} :
    l.flatMap f = l.flatMap (fun b => f b ++ g b) ↔ ∀ b ∈ l, g b = [] := by
  refine ⟨fun h => ?_, fun h => ?_⟩
  · have hlength := congrArg List.length h
    simp only [List.length_flatMap, List.length_append, List.sum_map_add] at hlength
    have hsum : (l.map fun b => (g b).length).sum = 0 := by omega
    intro b hb
    exact List.length_eq_zero_iff.1 (List.sum_eq_zero_iff_forall_eq_nat.1 hsum _ (List.mem_map_of_mem hb))
  · exact List.flatMap_congr fun b hb => by rw [h b hb, List.append_nil]

end CS330
