import CS330.HashTable.SerialHash

/-! # The serial and the parallel program

Both programs carry out the same operations, `parallel_hash.c` with one thread. As long as neither
`insert_update` goes wrong both tables stand for the same map, so the return values agree. -/

namespace CS330

variable {T : Nat} [NeZero T] {h h' s s' : HashTable T} {m : KvMap} {op : Operation}
  {call call' : HashCall}

/-- A `PUT` finds room in the parallel table without writing over another key, and in the serial
table no free slot in front of its key. -/
def PutsAlike (tables : HashTable T × HashTable T) (op : Operation) : Prop :=
  op.opType = .put → tables.1.Settles op ∧ tables.2.FirstFree op.key

/-- Both programs carry out an operation with a key other than 0 that meets `ok`. -/
structure PairStep (ok : HashTable T × HashTable T → Operation → Prop)
    (tables : HashTable T × HashTable T) (calls : HashCall × HashCall)
    (tables' : HashTable T × HashTable T) : Prop where
  op : calls.1.op = calls.2.op
  key : calls.1.op.key ≠ 0
  ok : ok tables calls.1.op
  parallel : HashStep tables.1 calls.1 tables'.1
  serial : SerialStep tables.2 calls.2 tables'.2

/-- Runs of both programs on the same operations. -/
def PairRun (ok : HashTable T × HashTable T → Operation → Prop) :
    List (HashCall × HashCall) → HashTable T × HashTable T → Prop :=
  Trace (PairStep ok) (initHashtable, initHashtable)

/-- Both tables stand for one map. -/
structure PairInv (tables : HashTable T × HashTable T) (m : KvMap) : Prop where
  parallel : Refines tables.1 m
  serial : Stores tables.2 m
  intact : tables.2.Intact

theorem PairInv.init : PairInv ((initHashtable, initHashtable) : HashTable T × HashTable T)
    fun _ => none := ⟨.init, .init, Nat.two_pow_pos 32⟩

theorem Stores.serialStep (S : Stores s m) (hI : s.Intact) (hT : T < 2 ^ 32)
    (hkey : call.op.key ≠ 0) (hok : call.op.opType = .put → s.FirstFree call.op.key)
    (hs : SerialStep s call s') : ∃ m', KvStep m call m' ∧ Stores s' m' ∧ s'.Intact := by
  cases hs with
  | lookup hop hret => exact ⟨m, S.serial_lookup hI hT hkey hop hret, S, hI⟩
  | insertUpdate hop hret => exact S.serial_insertUpdate hI hop (hok hop) hret
  | purgeKey hop hret => exact S.serial_purgeKey hI hT hkey hop hret

/-- An operation does one thing to a map. -/
theorem KvStep.det {m₁ m₂ : KvMap} (hk : KvStep m call m₁) (hk' : KvStep m call' m₂)
    (hop : call.op = call'.op) : call = call' ∧ m₁ = m₂ := by
  obtain ⟨op, ret, op'⟩ := call
  obtain ⟨_, ret', op''⟩ := call'
  obtain rfl : op = _ := hop
  cases hk <;> cases hk' <;> simp_all

theorem PairInv.step {tables tables' : HashTable T × HashTable T} {calls : HashCall × HashCall}
    (I : PairInv tables m) (hT : T < 2 ^ 32) (hs : PairStep PutsAlike tables calls tables') :
    ∃ m', KvStep m calls.1 m' ∧ calls.1 = calls.2 ∧ PairInv tables' m' := by
  have hsettles : tables.1.Settles calls.1.op := by
    by_contra hnot
    exact hnot (hs.ok (hs.parallel.not_settles hT hnot).1).1
  obtain ⟨m₁, hk, R⟩ := I.parallel.hashStep hT (hs.parallel.admits I.parallel hT hs.key) hsettles
    hs.parallel
  have hkey : calls.2.op.key ≠ 0 := hs.op ▸ hs.key
  obtain ⟨m₂, hk', S, hI⟩ := I.serial.serialStep I.intact hT hkey
    (fun hop => hs.op ▸ (hs.ok (hs.op ▸ hop)).2) hs.serial
  obtain ⟨hcalls, rfl⟩ := hk.det hk' hs.op
  exact ⟨m₁, hk, hcalls, R, S, hI⟩

theorem PairRun.inv {calls : List (HashCall × HashCall)} {tables : HashTable T × HashTable T}
    (hT : T < 2 ^ 32) (run : PairRun PutsAlike calls tables) : (∀ c ∈ calls, c.1 = c.2) ∧
      ∃ m, Trace KvStep (fun _ => none) (calls.map Prod.fst) m ∧ PairInv tables m := by
  refine Trace.history (I := fun calls tables => (∀ c ∈ calls, c.1 = c.2) ∧
    ∃ m, Trace KvStep (fun _ => none) (calls.map Prod.fst) m ∧ PairInv tables m) run
    ⟨fun _ hc => absurd hc List.not_mem_nil, _, .nil, .init⟩ fun {calls tables c tables'} h hs => ?_
  obtain ⟨hcalls, m, htrace, I⟩ := h
  obtain ⟨m', hk, hc, I'⟩ := I.step hT hs
  refine ⟨fun c' hmem => ?_, m', ?_, I'⟩
  · rcases List.mem_append.1 hmem with hmem | hmem
    · exact hcalls c' hmem
    · rwa [List.mem_singleton.1 hmem]
  · rw [List.map_append]
    exact htrace.snoc hk

/-- In a run in which every `PUT` goes well in both programs, all operations return the same and
deliver the same, and at the end both tables have the bindings of the map that the operations
make. -/
theorem PairRun.agree {calls : List (HashCall × HashCall)} {tables : HashTable T × HashTable T}
    (hT : T < 2 ^ 32) (run : PairRun PutsAlike calls tables) :
    (∀ c ∈ calls, c.1.ret = c.2.ret ∧ c.1.op' = c.2.op') ∧
    ∃ m, Trace KvStep (fun _ => none) (calls.map Prod.fst) m ∧
      tables.1.Binds m ∧ tables.2.Binds m := by
  obtain ⟨hcalls, m, htrace, I⟩ := run.inv hT
  exact ⟨fun c hmem => by simp [hcalls c hmem], m, htrace, I.parallel.binds, I.serial.binds⟩

/-- Two colliding keys, the first of which is deleted before the second is looked up. -/
theorem PairRun.agree_of_collision :
    PairRun PutsAlike (collision.map fun call => (call, call)) (collided, collided) ∧
      ∃ m : KvMap, Trace KvStep (fun _ => none) collision m ∧ collided.Binds m := by
  let h₁ : HashTable 3 := ⟨1, #v[⟨1, 8, 3, 16⟩, ⟨0, 0, 0, 0⟩, ⟨0, 0, 0, 0⟩]⟩
  let h₂ : HashTable 3 := ⟨2, #v[⟨1, 8, 3, 16⟩, ⟨2, 8, 6, 32⟩, ⟨0, 0, 0, 0⟩]⟩
  have step {h h' : HashTable 3} {call : HashCall} (hkey : call.op.key ≠ 0)
      (hok : call.op.opType = .put → h.Settles call.op ∧ h.FirstFree call.op.key)
      (hparallel : HashStep h call h') (hserial : SerialStep h call h') :
      PairStep PutsAlike (h, h) (call, call) (h', h') := ⟨rfl, hkey, hok, hparallel, hserial⟩
  -- neither key is stored when it is put
  have hfirst {h : HashTable 3} {key : BitVec 64} (hnot : ∀ i, (h.entry i).key ≠ key) :
      h.FirstFree key := fun i hi => absurd hi (hnot i)
  have hput3 : PairStep PutsAlike (initHashtable, initHashtable)
      (⟨⟨1, 3, .put, 8, 16⟩, 0, ⟨1, 3, .put, 8, 16⟩⟩, _) (h₁, h₁) :=
    step (by decide) (fun _ => ⟨.inl ⟨2, by decide⟩, hfirst (by decide)⟩)
      (.insertUpdate rfl (.of_run (n := 2) (by decide)))
      (.insertUpdate rfl (.of_run (n := 2) (by decide)))
  have hput6 : PairStep PutsAlike (h₁, h₁)
      (⟨⟨2, 6, .put, 8, 32⟩, 0, ⟨2, 6, .put, 8, 32⟩⟩, _) (h₂, h₂) :=
    step (by decide) (fun _ => ⟨.inl ⟨2, by decide⟩, hfirst (by decide)⟩)
      (.insertUpdate rfl (.of_run (n := 3) (by decide)))
      (.insertUpdate rfl (.of_run (n := 3) (by decide)))
  have hdel3 : PairStep PutsAlike (h₂, h₂)
      (⟨⟨3, 3, .del, 0, 0⟩, 0, ⟨3, 3, .del, 0, 0⟩⟩, _) (collided, collided) :=
    step (by decide) (by rintro ⟨⟩) (.purgeKey rfl (.of_run (n := 1) (by decide)))
      (.purgeKey rfl (.of_run (n := 1) (by decide)))
  have hget6 : PairStep PutsAlike (collided, collided)
      (⟨⟨4, 6, .get, 0, 0⟩, 0, ⟨4, 6, .get, 8, 32⟩⟩, _) (collided, collided) :=
    step (by decide) (by rintro ⟨⟩) (.lookup rfl (.of_run (n := 3) (by decide)))
      (.lookup rfl (.of_run (n := 3) (by decide)))
  have run : PairRun PutsAlike (collision.map fun call => (call, call)) (collided, collided) :=
    .cons hput3 (.cons hput6 (.cons hdel3 (.cons hget6 .nil)))
  obtain ⟨-, m, htrace, hbinds, -⟩ := PairRun.agree (by decide) run
  exact ⟨run, m, htrace, hbinds⟩

/-- Three slots. Keys 3 and 6 have hash value 0; key 6 is stored behind key 3, which is deleted.
The next `PUT` of key 6 finds its entry in the parallel program, but the serial one writes a
second one in front of it. So after key 6 is deleted the serial program still finds it. -/
theorem not_agree : ¬∀ (T : Nat) [NeZero T] (calls : List (HashCall × HashCall))
    (tables : HashTable T × HashTable T), T < 2 ^ 32 → PairRun (fun _ _ => True) calls tables →
      (∀ c ∈ calls, c.1.ret = c.2.ret) ∧ ∃ m, tables.1.Binds m ∧ tables.2.Binds m := by
  intro hclaim
  let put3 : Operation := ⟨1, 3, .put, 8, 16⟩
  let put6 : Operation := ⟨2, 6, .put, 8, 32⟩
  let del3 : Operation := ⟨3, 3, .del, 0, 0⟩
  let put6' : Operation := ⟨4, 6, .put, 8, 48⟩
  let del6 : Operation := ⟨5, 6, .del, 0, 0⟩
  let get6 : Operation := ⟨6, 6, .get, 0, 0⟩
  let h₁ : HashTable 3 := ⟨1, #v[⟨1, 8, 3, 16⟩, ⟨0, 0, 0, 0⟩, ⟨0, 0, 0, 0⟩]⟩
  let h₂ : HashTable 3 := ⟨2, #v[⟨1, 8, 3, 16⟩, ⟨2, 8, 6, 32⟩, ⟨0, 0, 0, 0⟩]⟩
  let h₃ : HashTable 3 := ⟨1, #v[⟨-1, 0, 0, 0⟩, ⟨2, 8, 6, 32⟩, ⟨0, 0, 0, 0⟩]⟩
  let h₄ : HashTable 3 := ⟨1, #v[⟨-1, 0, 0, 0⟩, ⟨4, 8, 6, 48⟩, ⟨0, 0, 0, 0⟩]⟩
  let h₅ : HashTable 3 := ⟨0, #v[⟨-1, 0, 0, 0⟩, ⟨-1, 0, 0, 0⟩, ⟨0, 0, 0, 0⟩]⟩
  let s₄ : HashTable 3 := ⟨2, #v[⟨4, 8, 6, 48⟩, ⟨2, 8, 6, 32⟩, ⟨0, 0, 0, 0⟩]⟩
  let s₅ : HashTable 3 := ⟨1, #v[⟨-1, 0, 0, 0⟩, ⟨2, 8, 6, 32⟩, ⟨0, 0, 0, 0⟩]⟩
  let get6' : Operation := ⟨6, 6, .get, 8, 32⟩
  have step {h h' s s' : HashTable 3} {op op₁ op₂ : Operation} {ret ret' : Int} (hkey : op.key ≠ 0)
      (hparallel : HashStep h ⟨op, ret, op₁⟩ h') (hserial : SerialStep s ⟨op, ret', op₂⟩ s') :
      PairStep (fun _ _ => True) (h, s) (⟨op, ret, op₁⟩, ⟨op, ret', op₂⟩) (h', s') :=
    ⟨rfl, hkey, trivial, hparallel, hserial⟩
  have hput3 : PairStep (fun _ _ => True) (initHashtable, initHashtable)
      (⟨put3, 0, put3⟩, ⟨put3, 0, put3⟩) (h₁, h₁) :=
    step (by decide) (.insertUpdate rfl (.of_run (n := 5) (by decide)))
      (.insertUpdate rfl (.of_run (n := 5) (by decide)))
  have hput6 : PairStep (fun _ _ => True) (h₁, h₁)
      (⟨put6, 0, put6⟩, ⟨put6, 0, put6⟩) (h₂, h₂) :=
    step (by decide) (.insertUpdate rfl (.of_run (n := 5) (by decide)))
      (.insertUpdate rfl (.of_run (n := 5) (by decide)))
  have hdel3 : PairStep (fun _ _ => True) (h₂, h₂)
      (⟨del3, 0, del3⟩, ⟨del3, 0, del3⟩) (h₃, h₃) :=
    step (by decide) (.purgeKey rfl (.of_run (n := 5) (by decide)))
      (.purgeKey rfl (.of_run (n := 5) (by decide)))
  have hput6' : PairStep (fun _ _ => True) (h₃, h₃)
      (⟨put6', 0, put6'⟩, ⟨put6', 0, put6'⟩) (h₄, s₄) :=
    step (by decide) (.insertUpdate rfl (.of_run (n := 5) (by decide)))
      (.insertUpdate rfl (.of_run (n := 5) (by decide)))
  have hdel6 : PairStep (fun _ _ => True) (h₄, s₄)
      (⟨del6, 0, del6⟩, ⟨del6, 0, del6⟩) (h₅, s₅) :=
    step (by decide) (.purgeKey rfl (.of_run (n := 5) (by decide)))
      (.purgeKey rfl (.of_run (n := 5) (by decide)))
  have hget6 : PairStep (fun _ _ => True) (h₅, s₅)
      (⟨get6, -1, get6⟩, ⟨get6, 0, get6'⟩) (h₅, s₅) :=
    step (by decide) (.lookup rfl (.of_run (n := 5) (by decide)))
      (.lookup rfl (.of_run (n := 5) (by decide)))
  have run : PairRun (fun _ _ => True) _ _ :=
    .cons hput3 (.cons hput6 (.cons hdel3 (.cons hput6' (.cons hdel6 (.cons hget6 .nil)))))
  have hret := (hclaim 3 _ _ (by decide) run).1 (⟨get6, -1, get6⟩, ⟨get6, 0, get6'⟩) (by simp)
  exact absurd hret (by decide)

end CS330
