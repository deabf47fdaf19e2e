import CS330.FileTree.Grep

/-! # The line buffer of grep

`rb` has as many bytes as the file. A line is stored with its newline and a zero behind it, and the
last pass of the loop stores the byte read last once more. -/

namespace CS330

/-- The lines printed for a path that is a regular file itself. -/
def singMyGrep (junk : Junk) (key path content : List UInt8) : Option (List (List UInt8)) :=
  (grepLoop (rbSize content) key content ⟨(junk path).2, 0, (junk path).1, []⟩).map (·.printed)

/-- The loop as if the buffer had no end. -/
def grepLoopFree (key : List UInt8) : List UInt8 → GrepState → GrepState
  | [], s => s.body key s.t
  | t :: rest, s => grepLoopFree key rest (s.body key t)

/-- The indices of `rb` that the loop writes. An index that is no `int` lies behind any buffer whose
size is one. -/
def grepLoopWrites (key : List UInt8) : List UInt8 → GrepState → List Nat
  | [], s => s.writes s.t
  | t :: rest, s => s.writes t ++ grepLoopWrites key rest (s.body key t)

/-- The loop of `myGrep`, which is that of `singMyGrep`, writes to its buffer only. -/
def RbHolds (junk : Junk) (key path content : List UInt8) : Prop :=
  ∀ i ∈ grepLoopWrites key content ⟨(junk path).2, 0, (junk path).1, []⟩, i < rbSize content

variable {key cur rest path content : List UInt8} {s : GrepState} {t : UInt8} {junk : Junk}
  {i n : Nat}

theorem myGrep_eq_singMyGrep :
    myGrep junk key path content = (singMyGrep junk key path content).map (·.map (path, ·)) := by
  rw [myGrep, singMyGrep, Option.map_map]
  rfl

/-- A loop that stays in its buffer does what it does without an end of the buffer. -/
theorem grepLoop_eq_some {size : Nat} {s' : GrepState} : grepLoop size key rest s = some s' ↔
    (∀ i ∈ grepLoopWrites key rest s, i < size) ∧ grepLoopFree key rest s = s' := by
  induction rest generalizing s with
  | nil => rw [grepLoop, Option.ite_none_right_eq_some, Option.some.injEq]; rfl
  | cons t rest ih =>
    rw [grepLoop, Option.ite_none_right_eq_some, ih, grepLoopWrites, List.forall_mem_append,
      and_assoc]
    rfl

theorem GrepState.body_rb_of_notMem (h : i ∉ s.writes t) : (s.body key t).rb i = s.rb i := by
  unfold GrepState.writes at h
  rw [GrepState.body]
  dsimp only
  split at h
  next ht =>
    simp only [List.mem_cons, List.not_mem_nil, or_false, not_or] at h
    rw [if_pos ht]
    dsimp only
    rw [Function.update_of_ne h.2, Function.update_of_ne h.1]
  next ht =>
    rw [if_neg ht]
    exact Function.update_of_ne (List.ne_of_not_mem_cons h) ..

/-- What is not written stays. -/
theorem grepLoopFree_rb_of_notMem (h : i ∉ grepLoopWrites key rest s) :
    (grepLoopFree key rest s).rb i = s.rb i := by
  induction rest generalizing s with
  | nil => exact GrepState.body_rb_of_notMem h
  | cons t rest ih =>
    obtain ⟨hbody, hrest⟩ := not_or.1 (mt List.mem_append.2 h)
    rw [grepLoopFree, ih hrest, GrepState.body_rb_of_notMem hbody]

theorem GrepState.k_mem_writes (s : GrepState) (t : UInt8) : s.k ∈ s.writes t := by
  unfold GrepState.writes
  split <;> exact List.mem_cons_self

/-- The next byte goes to `rb[k]`. -/
theorem k_mem_grepLoopWrites (key rest : List UInt8) (s : GrepState) :
    s.k ∈ grepLoopWrites key rest s := by
  cases rest with
  | nil => exact s.k_mem_writes _
  | cons t rest => exact List.mem_append_left _ (s.k_mem_writes t)

/-- With `cur` read of the line, the rest of the loop stays in the buffer exactly when it has room
for every line and for what is stored behind it. -/
theorem grepLoopWrites_lt_iff (hk : s.k = cur.length) (hcur : newline ∉ cur)
    (ht : rest = [] → s.t = newline → cur = [] ∧ 1 < n) :
    (∀ i ∈ grepLoopWrites key rest s, i < n) ↔
      (∀ line ∈ closedLines newline (cur ++ rest), line.length + 1 < n) ∧
        (openLine newline (cur ++ rest)).length < n := by
  induction rest generalizing s cur with
  | nil =>
    rw [List.append_nil, closedLines_of_not_mem hcur, openLine_of_not_mem hcur, grepLoopWrites,
      GrepState.writes, hk]
    split
    next hlast =>
      obtain ⟨rfl, hn⟩ := ht rfl hlast
      simp [hn]
    next => simp
  | cons t rest ih =>
    rw [grepLoopWrites, List.forall_mem_append]
    by_cases hline : t = newline
    · subst hline
      rw [closedLines_append_cons hcur, openLine_append_cons hcur, List.forall_mem_cons, and_assoc]
      have hwrites : (∀ i ∈ s.writes newline, i < n) ↔ cur.length + 1 < n := by
        rw [GrepState.writes, if_pos rfl, hk]
        simp only [List.forall_mem_cons, List.not_mem_nil, false_imp_iff, implies_true, and_true]
        omega
      rw [hwrites]
      refine and_congr_right fun hroom => ?_
      have hrest : (s.body key newline).k = ([] : List UInt8).length := by simp [GrepState.body]
      exact ih hrest List.not_mem_nil fun _ _ => ⟨rfl, by omega⟩
    · have hnext : (s.body key t).k = (cur ++ [t]).length := by simp [GrepState.body, hline, hk]
      have hlast : (s.body key t).t = t := by simp [GrepState.body, hline]
      rw [and_iff_right_of_imp, ih hnext (by simp [hcur, Ne.symm hline]) fun _ heq =>
        absurd (hlast.symm.trans heq) hline, List.append_assoc, List.singleton_append]
      intro hrest i hi
      have := hrest _ (k_mem_grepLoopWrites key rest _)
      rw [GrepState.writes, if_neg hline, List.mem_singleton] at hi
      rw [hnext, List.length_append, ← hk, ← hi, List.length_singleton] at this
      omega

/-! ## The two functions -/

theorem rbHolds_iff_lines : RbHolds junk key path content ↔
    (∀ line ∈ closedLines newline content, line.length + 1 < rbSize content) ∧
      (openLine newline content).length < rbSize content := by
  unfold RbHolds
  cases content with
  | nil =>
    refine iff_of_false (fun h => ?_) fun h => ?_
    · exact absurd (h _ (k_mem_grepLoopWrites ..)) (Nat.not_lt_zero 0)
    · exact absurd h.2 (Nat.not_lt_zero _)
  | cons t rest => exact grepLoopWrites_lt_iff rfl List.not_mem_nil nofun

theorem rbSize_eq (h : content.length < 2 ^ 31) : rbSize content = content.length := by
  rw [rbSize, int32_eq (by omega) (by omega), Int.toNat_natCast]

/-- A loop that stays in its buffer leaves the memory behind it alone. -/
theorem RbHolds.rb_of_le (h : RbHolds junk key path content) (hi : rbSize content ≤ i) :
    (grepLoopFree key content ⟨(junk path).2, 0, (junk path).1, []⟩).rb i = (junk path).2 i :=
  grepLoopFree_rb_of_notMem fun hmem => Nat.not_lt.2 hi (h i hmem)

/-- The file has a newline in front of its last byte. If its size is no `int`, its lines have to fit
what is left of it. -/
def RbFits (content : List UInt8) : Prop :=
  if content.length < 2 ^ 31 then newline ∈ content.dropLast
  else (∀ line ∈ closedLines newline content, line.length + 1 < rbSize content) ∧
    (openLine newline content).length < rbSize content

theorem rbHolds_iff_rbFits (junk : Junk) (key path content : List UInt8) :
    RbHolds junk key path content ↔ RbFits content := by
  rw [rbHolds_iff_lines, RbFits]
  split
  next hlen => rw [rbSize_eq hlen, lines_shorter_iff]
  next => rfl

/-- The buffer is never overrun exactly when the file has a newline in front of its last byte. If
its size is no `int`, the lines have to fit what is left of it. -/
theorem rbHolds_iff : RbHolds junk key path content ↔
    if content.length < 2 ^ 31 then newline ∈ content.dropLast
    else (∀ line ∈ closedLines newline content, line.length + 1 < rbSize content) ∧
      (openLine newline content).length < rbSize content :=
  rbHolds_iff_rbFits ..

/-- A file of one byte: it is stored twice. -/
theorem not_rbHolds : ¬∀ (junk : Junk) (key path content : List UInt8),
    RbHolds junk key path content := by
  intro hclaim
  have hholds := hclaim (fun _ => (0, fun _ => 0)) [97] [100] [97]
  exact absurd (hholds 1 (by decide)) (by decide)

end CS330
