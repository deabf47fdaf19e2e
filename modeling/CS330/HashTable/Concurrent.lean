import CS330.HashTable.Stable

/-! # Many threads on one table

In a run with at most one operation for each key in progress the table represents some map in every
state, and every thread knows where it stands (`ProbeInv`). -/

namespace CS330

variable {T : Nat} [NeZero T]

section
variable {ι : Type*} [DecidableEq ι] {s s' : TableSystem ι T} {t : ι} {threads : List ι}

/-- The table represents a map, and every thread knows where it stands. -/
structure ProbeInv (s : TableSystem ι T) : Prop where
  stores : ∃ m, Stores s.shared m
  key_ne : ∀ t op pc, s.pc t = some (op, pc) → op.key ≠ 0
  knows : ∀ t op pc, s.pc t = some (op, pc) → s.shared.Knows op pc
  one : s.OnePerKey

omit [DecidableEq ι] in
theorem ProbeInv.init : ProbeInv (TableSystem.init : TableSystem ι T) := by
  constructor
  case stores => exact ⟨_, .init⟩
  case one =>
    intro t t' op op' pc pc' ht
    cases ht
  case key_ne | knows =>
    intro t op pc ht
    cases ht

theorem ProbeInv.step (I : ProbeInv s) (hT : T < 2 ^ 32) (h : Threads.Step TableStep s t s')
    (hone : s'.OnePerKey) : ProbeInv s' := by
  obtain @⟨table', opPc, h⟩ := h
  generalize hpc : s.pc t = before at h
  -- the other threads know what they knew, and the one that takes the step knows something new
  suffices hown : (∃ m, Stores table' m) ∧ (∀ op pc, opPc = some (op, pc) →
      op.key ≠ 0 ∧ table'.Knows op pc) ∧ ∀ c ≠ t, ∀ op pc, s.pc c = some (op, pc) →
        s.shared.Spares table' op.key by
    obtain ⟨hstores, hown, hother⟩ := hown
    have hfacts (c : ι) (op : Operation) (pc : VisitPc T)
        (hc : Function.update s.pc t opPc c = some (op, pc)) :
        op.key ≠ 0 ∧ table'.Knows op pc := by
      rw [Function.update_apply] at hc
      split at hc
      next => exact hown op pc hc
      next hne =>
        exact ⟨I.key_ne c op pc hc, (I.knows c op pc hc).spares (hother c hne op pc hc)⟩
    exact ⟨hstores, fun c op pc hc => (hfacts c op pc hc).1,
      fun c op pc hc => (hfacts c op pc hc).2, hone⟩
  cases h with
  | begin hkey =>
    refine ⟨I.stores, fun op pc heq => ?_, fun c _ op pc _ => ⟨fun _ => id, fun _ => id⟩⟩
    cases heq
    exact ⟨hkey, trivial⟩
  | finish => exact ⟨I.stores, nofun, fun c _ op pc _ => ⟨fun _ => id, fun _ => id⟩⟩
  | @visit _ _ op op' pc pc' hvisit =>
    obtain ⟨m, S⟩ := I.stores
    have hkey := I.key_ne t op pc hpc
    obtain ⟨m', S', K', -⟩ := S.visit (I.knows t op pc hpc) hT hkey hvisit
    refine ⟨⟨m', S'⟩, fun op₁ pc₁ heq => ?_, fun c hne op₁ pc₁ hc => ?_⟩
    · cases heq
      exact ⟨(same_record_of_visit hvisit).2.1 ▸ hkey, K'⟩
    · refine (VisitChange.of_visit hvisit).spares hkey (I.key_ne c op₁ pc₁ hc) fun heq => hne ?_
      exact I.one c t op₁ op pc₁ pc hc hpc heq

/-- A slot that was occupied or deleted stays so. -/
theorem ProbeInv.taken_step (I : ProbeInv s) (h : Threads.Step TableStep s t s') {i : Fin T}
    (hi : s.shared.Taken i) : s'.shared.Taken i := by
  obtain @⟨table', opPc, h⟩ := h
  generalize hpc : s.pc t = before at h
  cases h with
  | begin | finish => exact hi
  | visit hvisit => exact (VisitChange.of_visit hvisit).taken (I.key_ne t _ _ hpc) hi

theorem ProbeInv.run (I : ProbeInv s) (hT : T < 2 ^ 32) (run : TableRun s threads s') :
    ProbeInv s' :=
  Trace.invariant run I fun I hstep => I.step hT hstep.1 hstep.2

theorem ProbeInv.taken_run (I : ProbeInv s) (hT : T < 2 ^ 32) (run : TableRun s threads s')
    {i : Fin T} (hi : s.shared.Taken i) : s'.shared.Taken i :=
  (Trace.invariant (I := fun s' => ProbeInv s' ∧ s'.shared.Taken i) run ⟨I, hi⟩
    fun ⟨I, hi⟩ hstep => ⟨I.step hT hstep.1 hstep.2, I.taken_step hstep.1 hi⟩).2

/-- In every reachable state no two slots hold one key, a slot that was occupied or deleted is
never unused again, and the slots from the hash slot of a stored key up to its own one are occupied
or deleted. -/
theorem TableRun.representation (hT : T < 2 ^ 32)
    (run : TableRun (TableSystem.init : TableSystem ι T) threads s) :
    (∀ i j, (s.shared.entry i).key ≠ 0 → (s.shared.entry i).key = (s.shared.entry j).key → i = j) ∧
    (∀ threads' s', TableRun s threads' s' → ∀ i, s.shared.Taken i → s'.shared.Taken i) ∧
    ∀ i, (s.shared.entry i).key ≠ 0 → ∀ j ≤ distance (hashfunc (s.shared.entry i).key) i,
      s.shared.Taken (slotAfter (hashfunc (s.shared.entry i).key) j) := by
  have I : ProbeInv s := ProbeInv.init.run hT run
  obtain ⟨m, S⟩ := I.stores
  refine ⟨S.unique, fun threads' s' run' i hi => I.taken_run hT run' hi, fun i hi j hj => ?_⟩
  rcases Nat.lt_or_eq_of_le hj with hlt | rfl
  · exact S.path i hi j hlt
  · rw [slotAfter_distance]
    exact .inl hi

end

/-! ## A run of two threads -/

omit [NeZero T] in
/-- Two threads with operations on different keys. -/
theorem onePerKey_of_two {s : TableSystem (Fin 2) T} (h : ∀ op op' pc pc',
    s.pc 0 = some (op, pc) → s.pc 1 = some (op', pc') → op.key ≠ op'.key) : s.OnePerKey := by
  intro t t' op op' pc pc' ht ht' hkey
  match t, t', ht, ht' with
  | 0, 0, _, _ | 1, 1, _, _ => rfl
  | 0, 1, ht, ht' => exact (h _ _ _ _ ht ht' hkey).elim
  | 1, 0, ht, ht' => exact (h _ _ _ _ ht' ht hkey.symm).elim

/-- The insertions of two keys overlap. -/
theorem exists_table_run : ∃ (threads : List (Fin 2)) (s : TableSystem (Fin 2) 2),
    TableRun TableSystem.init threads s ∧ s.shared.stored = 2 := by
  let put2 : Operation := ⟨1, 2, .put, 8, 16⟩
  let put1 : Operation := ⟨2, 1, .put, 8, 32⟩
  have extend {threads : List (Fin 2)} {s : TableSystem (Fin 2) 2}
      (run : TableRun TableSystem.init threads s) {t : Fin 2} {h : HashTable 2} {p : OpPc 2}
      (hstep : TableStep (s.shared, s.pc t) (h, p))
      (hone : ∀ op op' pc pc', Function.update s.pc t p 0 = some (op, pc) →
        Function.update s.pc t p 1 = some (op', pc') → op.key ≠ op'.key) :
      TableRun TableSystem.init (threads ++ [t]) ⟨h, Function.update s.pc t p⟩ :=
    run.snoc ⟨.mk hstep, onePerKey_of_two hone⟩
  have run : TableRun (TableSystem.init : TableSystem (Fin 2) 2) [] _ := .nil
  have run := extend run (t := 0) (p := some (put2, .call)) (.begin (by decide))
    fun _ _ _ _ _ hnone => nomatch hnone
  have run := extend run (t := 1) (p := some (put1, .call)) (.begin (by decide))
    (by rintro _ _ _ _ ⟨⟩ ⟨⟩; decide)
  have run := extend run (t := 0) (h := initHashtable) (p := some (put2, .insertFirst 0))
    (.visit (by decide)) (by rintro _ _ _ _ ⟨⟩ ⟨⟩; decide)
  have run := extend run (t := 1) (h := initHashtable) (p := some (put1, .insertFirst 1))
    (.visit (by decide)) (by rintro _ _ _ _ ⟨⟩ ⟨⟩; decide)
  have run := extend run (t := 1) (h := ⟨0, #v[⟨0, 0, 0, 0⟩, ⟨2, 8, 1, 32⟩]⟩)
    (p := some (put1, .insertUsed)) (.visit (by decide)) (by rintro _ _ _ _ ⟨⟩ ⟨⟩; decide)
  have run := extend run (t := 0) (h := ⟨0, #v[⟨1, 8, 2, 16⟩, ⟨2, 8, 1, 32⟩]⟩)
    (p := some (put2, .insertUsed)) (.visit (by decide)) (by rintro _ _ _ _ ⟨⟩ ⟨⟩; decide)
  exact ⟨_, _, run, by decide⟩

theorem TableRun.representation_of_two : ∃ threads, ∃ s : TableSystem (Fin 2) 2,
    TableRun TableSystem.init threads s ∧ s.shared.stored = 2 ∧
    ∀ i j, (s.shared.entry i).key ≠ 0 → (s.shared.entry i).key = (s.shared.entry j).key →
      i = j := by
  obtain ⟨threads, s, run, hstored⟩ := exists_table_run
  exact ⟨threads, s, run, hstored, (run.representation (by decide)).1⟩

end CS330
