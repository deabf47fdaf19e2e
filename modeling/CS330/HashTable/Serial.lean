import CS330.HashTable.Refinement

/-! # One key at a time

What an operation returns depends on the operations on its own key alone. So two executions on the
finite map agree as soon as they carry out the operations on each key in the same order. -/

namespace CS330

variable {m m' : KvMap} {call : HashCall} {calls calls' : List HashCall} {op op' : Operation}
  {key : BitVec 64} {ret : Int}

/-- What a key is bound to after an operation on it. -/
def kvNext (v : Option (BitVec 32 × BitVec 64)) (op : Operation) :
    Option (BitVec 32 × BitVec 64) :=
  match op.opType with
  | .put => some (op.datalen, op.data)
  | .get => v
  | .del => none

/-- What is seen of a call: the id of the record, the return value, and what a `GET` delivers. -/
def Operation.answer (op : Operation) (ret : Int) :
    BitVec 64 × Int × Option (BitVec 32 × BitVec 64) :=
  (op.id, ret, if op.opType = .get ∧ ret = 0 then some (op.datalen, op.data) else none)

def HashCall.answer (call : HashCall) : BitVec 64 × Int × Option (BitVec 32 × BitVec 64) :=
  call.op'.answer call.ret

/-- The return value of an operation on a key that is bound to `v`, and what a `GET` delivers. -/
def kvResult (v : Option (BitVec 32 × BitVec 64)) (op : Operation) :
    Int × Option (BitVec 32 × BitVec 64) :=
  match op.opType with
  | .put => (0, none)
  | .get => (if v = none then -1 else 0, v)
  | .del => (if v = none then -1 else 0, none)

theorem KvStep.next (hk : KvStep m call m') :
    m' = Function.update m call.op.key (kvNext (m call.op.key) call.op) := by
  cases hk with
  | put hop | delete hop => simp [kvNext, hop]
  | hit hop | miss hop => simp [kvNext, hop]
  | bogus hop hm => simp [kvNext, hop, ← hm]

theorem KvStep.answer (hk : KvStep m call m') :
    call.answer = (call.op.id, kvResult (m call.op.key) call.op) := by
  cases hk with
  | put hop => simp [HashCall.answer, Operation.answer, kvResult, hop]
  | hit hop hm | miss hop hm | delete hop hm | bogus hop hm =>
    simp [HashCall.answer, Operation.answer, kvResult, hop, hm]

/-- What the operations answer one by one. -/
def kvAnswers (m : KvMap) :
    List Operation → List (BitVec 64 × Int × Option (BitVec 32 × BitVec 64))
  | [] => []
  | op :: ops => (op.id, kvResult (m op.key) op) ::
      kvAnswers (Function.update m op.key (kvNext (m op.key) op)) ops

theorem Trace.map_answer (h : Trace KvStep m calls m') :
    calls.map HashCall.answer = kvAnswers m (calls.map (·.op)) := by
  induction calls generalizing m with
  | nil => rfl
  | cons call calls ih =>
    obtain ⟨m₁, hk, hrest⟩ := Trace.cons_iff.1 h
    rw [List.map_cons, List.map_cons, kvAnswers, hk.answer, ih hrest, hk.next]

/-- The operations on a key, in order. -/
def opsOn (key : BitVec 64) (ops : List Operation) : List Operation := ops.filter (·.key = key)

/-- What a key is bound to after the operations on it, from an empty map on. -/
def keyValue (key : BitVec 64) (ops : List Operation) : Option (BitVec 32 × BitVec 64) :=
  (opsOn key ops).foldl kvNext none

theorem opsOn_append {ops ops' : List Operation} :
    opsOn key (ops ++ ops') = opsOn key ops ++ opsOn key ops' := List.filter_append ..

theorem opsOn_singleton : opsOn key [op] = if op.key = key then [op] else [] := by
  by_cases h : op.key = key <;> simp [opsOn, h]

theorem keyValue_append {ops : List Operation} : keyValue key (ops ++ [op]) =
    if op.key = key then kvNext (keyValue key ops) op else keyValue key ops := by
  rw [keyValue, opsOn_append, opsOn_singleton, keyValue]
  split <;> simp

/-- The binding of a key after a run. -/
theorem Trace.keyValue_eq (h : Trace KvStep (fun _ => none) calls m) (key : BitVec 64) :
    m key = keyValue key (calls.map (·.op)) := by
  induction h with
  | nil => rfl
  | snoc _ hk ih =>
    rw [List.map_append, List.map_singleton, keyValue_append, ← ih, hk.next]
    split
    next heq => rw [← heq, Function.update_self]
    next hne => exact Function.update_of_ne (Ne.symm hne) ..

/-- An operation of the map can always be carried out. -/
theorem exists_kvStep (m : KvMap) (op : Operation) : ∃ ret op' m', KvStep m ⟨op, ret, op'⟩ m' := by
  cases hop : op.opType with
  | put => exact ⟨_, _, _, .put hop⟩
  | get =>
    cases hm : m op.key with
    | none => exact ⟨_, _, _, .miss hop hm⟩
    | some v => exact ⟨_, _, _, .hit hop hm⟩
  | del =>
    by_cases hm : m op.key = none
    · exact ⟨_, _, _, .bogus hop hm⟩
    · exact ⟨_, _, _, .delete hop hm⟩

theorem exists_kvTrace (m : KvMap) (ops : List Operation) :
    ∃ calls m', Trace KvStep m calls m' ∧ calls.map (·.op) = ops := by
  induction ops generalizing m with
  | nil => exact ⟨[], m, .nil, rfl⟩
  | cons op ops ih =>
    obtain ⟨ret, op', m₁, hk⟩ := exists_kvStep m op
    obtain ⟨calls, m', htrace, rfl⟩ := ih m₁
    exact ⟨⟨op, ret, op'⟩ :: calls, m', .cons hk htrace, rfl⟩

/-- The same operations on each key give the same map. -/
theorem Trace.kv_final (h : Trace KvStep (fun _ => none) calls m)
    (h' : Trace KvStep (fun _ => none) calls' m')
    (hsame : ∀ key, opsOn key (calls.map (·.op)) = opsOn key (calls'.map (·.op))) : m = m' := by
  funext key
  rw [h.keyValue_eq, h'.keyValue_eq, keyValue, keyValue]
  exact congrArg _ (hsame key)

/-- The place in a list where an element of the filtered list stands. -/
theorem exists_split_of_filter {α : Type*} {p : α → Bool} {as : List α} {a : α} {l : List α}
    (h : as ++ [a] <+: l.filter p) :
    ∃ before after, l = before ++ a :: after ∧ before.filter p = as := by
  obtain ⟨rest, heq⟩ := h
  rw [List.append_assoc, List.singleton_append, eq_comm, List.filter_eq_append_iff] at heq
  obtain ⟨l₁, l₂, rfl, hl₁, hl₂⟩ := heq
  obtain ⟨l₃, l₄, rfl, hl₃, -, -⟩ := List.filter_eq_cons_iff.1 hl₂
  refine ⟨l₁ ++ l₃, l₄, by simp, ?_⟩
  rw [List.filter_append, hl₁, List.filter_eq_nil_iff.2 hl₃, List.append_nil]

/-- The first operations on each key give the answers that they give in the longer execution. -/
theorem Trace.kv_answers (h : Trace KvStep (fun _ => none) calls m)
    (h' : Trace KvStep (fun _ => none) calls' m')
    (hinitial : ∀ key, opsOn key (calls.map (·.op)) <+: opsOn key (calls'.map (·.op))) :
    ∀ call ∈ calls, call.answer ∈ calls'.map HashCall.answer := by
  induction h with
  | nil => nofun
  | @snoc calls m call m' htrace hk ih =>
    intro call₁ hmem
    simp only [List.map_append, opsOn_append, List.map_singleton] at hinitial
    rcases List.mem_append.1 hmem with hold | hnew
    · exact ih (fun key => (List.prefix_append ..).trans (hinitial key)) call₁ hold
    obtain rfl := List.mem_singleton.1 hnew
    -- the same operation of the longer execution finds its key bound to the same value
    have hsame := hinitial call₁.op.key
    rw [opsOn_singleton, if_pos rfl] at hsame
    obtain ⟨before, after, hsplit, hbefore⟩ := exists_split_of_filter hsame
    obtain ⟨calls₁, calls₂, rfl, hcalls₁, hcalls₂⟩ := List.map_eq_append_iff.1 hsplit
    obtain ⟨call₂, calls₃, rfl, hop, -⟩ := List.map_eq_cons_iff.1 hcalls₂
    obtain ⟨m₁, htrace₁, hrest⟩ := Trace.append_iff.1 h'
    obtain ⟨m₂, hk₂, -⟩ := Trace.cons_iff.1 hrest
    refine List.mem_map.2 ⟨call₂, by simp, ?_⟩
    have hvalue : m₁ call₁.op.key = m call₁.op.key := by
      rw [htrace₁.keyValue_eq, htrace.keyValue_eq, keyValue, keyValue, hcalls₁]
      exact congrArg _ hbefore
    rw [hk.answer, hk₂.answer, hop, hvalue]

end CS330
