import CS330.HashTable.FiniteMap

/-! # The counter `used`

The counter is changed apart from the slots. It stays the number of stored keys as long as no `DEL`
is given the key 0, which every free slot holds, and no `PUT` writes over another key. -/

namespace CS330

variable {T : Nat} [NeZero T] {h h' : HashTable T} {m : KvMap} {i : Fin T} {op : Operation}
  {call : HashCall} {calls : List HashCall}

/-- `dump_hash_table`: the value of `lused` at its assertion `lused == 0`. -/
def dumpHashTable {T : Nat} (h : HashTable T) : BitVec 32 :=
  h.table.toList.foldl (fun lused entry => if entry.key ≠ 0 then lused - 1 else lused)
    (h.usedWord.setWidth 32)

/-- A `DEL` has a key, and a `PUT` finds a slot that was never used, its key, or a free slot behind
its hash slot. -/
def HashTable.Counts (h : HashTable T) (op : Operation) : Prop :=
  (op.opType = .del → op.key ≠ 0) ∧
    (op.opType = .put → (∃ i, ¬h.Taken i) ∨ (∃ i, (h.entry i).key = op.key) ∨
      ∃ i ≠ hashfunc op.key, (h.entry i).key = 0)

/-- Runs of operations that return and that meet `ok` when they are carried out. -/
def CountRun (ok : HashTable T → Operation → Prop) :
    HashTable T → List HashCall → HashTable T → Prop :=
  Trace fun h call h' => ok h call.op ∧ HashStep h call h'

/-! ## The assertion of `dump_hash_table` -/

theorem dump_foldl (entries : List HashEntry) (lused : BitVec 32) :
    entries.foldl (fun lused entry => if entry.key ≠ 0 then lused - 1 else lused) lused =
      lused - BitVec.ofNat 32 (entries.countP (·.key ≠ 0)) := by
  induction entries generalizing lused with
  | nil => simp
  | cons entry entries ih =>
    rw [List.foldl_cons, ih, List.countP_cons]
    by_cases hkey : entry.key = 0
    · simp [hkey]
    · simp only [hkey, ne_eq, not_false_iff, if_true, decide_true]
      bv_omega

omit [NeZero T] in
theorem dumpHashTable_eq_zero (hused : h.used = h.stored) :
    dumpHashTable h = 0 := by
  have hcount : h.table.toList.countP (·.key ≠ 0) = h.stored := Vector.countP_toList
  rw [dumpHashTable, dump_foldl, hcount]
  unfold HashTable.used at hused
  bv_omega

/-! ## One operation -/

/-- An operation that returns and counts settles. -/
theorem HashTable.Counts.settles (hok : h.Counts call.op) (hT : T < 2 ^ 32)
    (hs : HashStep h call h') : h.Settles call.op := by
  by_contra hnot
  obtain ⟨hop, -, htaken, hother, hfull⟩ := hs.not_settles hT hnot
  rcases hok.2 hop with ⟨i, hi⟩ | ⟨i, hi⟩ | ⟨i, hne, hi⟩
  · exact hi (htaken i)
  · exact hother i hi
  · exact hfull i hne hi

/-- An operation that counts keeps a refinement. -/
theorem Refines.of_counts (R : Refines h m) (hT : T < 2 ^ 32) (hok : h.Counts call.op)
    (hs : HashStep h call h') : ∃ m', Refines h' m' := by
  have hsettles := hok.settles hT hs
  by_cases hop : call.op.opType = .get
  · obtain ⟨op, ret, op'⟩ := call
    obtain ⟨-, rfl⟩ := (hashStep_get_iff hop).1 hs
    exact ⟨m, R⟩
  have hkey : call.op.key ≠ 0 := by
    cases hop' : call.op.opType with
    | get => exact (hop hop').elim
    | put => exact (hs.asserted hop').2
    | del => exact hok.1 hop'
  obtain ⟨m', -, R'⟩ := R.hashStep hT (hs.admits R hT hkey) hsettles hs
  exact ⟨m', R'⟩

/-- A `DEL` with a key that counts down has found it. -/
theorem HashStep.purged (hs : HashStep h call h') (R : Refines h m) (hT : T < 2 ^ 32)
    (hop : call.op.opType = .del) (hret : call.ret = 0) (hok : h.Counts call.op) :
    ∃ i, (h.entry i).key ≠ 0 := by
  have hkey := hok.1 hop
  obtain ⟨m', hk, -⟩ := R.hashStep hT (hs.admits R hT hkey) (hok.settles hT hs) hs
  obtain ⟨op, ret, op'⟩ := call
  obtain rfl : ret = 0 := hret
  have hm : m op.key ≠ none := by
    cases hk with
    | delete _ hm => exact hm
    | put hop' => cases hop.symm.trans hop'
    | hit hop' => cases hop.symm.trans hop'
  obtain ⟨-, i, hi⟩ := R.complete _ hm
  exact ⟨i, by rwa [hi]⟩

/-- A `DEL` of the key 0 that returns takes a free slot for it and counts down. -/
theorem HashStep.purges_zero (hs : HashStep h call h') (hT : T < 2 ^ 32) (hI : h.Intact)
    (hop : call.op.opType = .del) (hkey : call.op.key = 0) :
    ∃ i, (h.entry i).key = 0 ∧ h' = (h.setEntry i ⟨-1, 0, 0, 0⟩).addUsed (-1) := by
  have h0 : (hashfunc call.op.key : Fin T).val = 0 := by simp [hkey, hashfunc]
  obtain ⟨n, E⟩ := exists_probeEnds hT (hs.stops hT)
  have hslot : (h.entry (probeSlot call.op.key n)).key = 0 := by
    by_contra hne
    exact E.stops ⟨.inl hne, hkey ▸ hne, fun hend => ((atEnd_iff hT E.lt).1 hend).1 h0⟩
  obtain ⟨-, hret⟩ := (hashStep_del_iff hop).1 hs
  rw [returns_purgeKey_iff hI E, if_pos (hslot.trans hkey.symm)] at hret
  exact ⟨_, hslot, (Prod.mk.inj hret).2⟩

/-- After an operation that returns the counter is right just when the operation counts. -/
theorem Refines.counts_iff (R : Refines h m) (hT : T < 2 ^ 32) (hs : HashStep h call h') :
    h.Counts call.op ↔ h'.used = h'.stored := by
  constructor
  · intro hok
    obtain ⟨m', R'⟩ := R.of_counts hT hok hs
    exact R'.used_eq hT
  · intro hused
    have hcount := R.counted
    have hle := h.stored_le
    constructor
    · intro hop hkey
      obtain ⟨i, h0, rfl⟩ := hs.purges_zero hT (R.intact hT) hop hkey
      rw [HashTable.stored_addUsed, h.stored_setEntry, if_pos h0, if_pos rfl] at hused
      simp only [HashTable.used, HashTable.addUsed, atomicAdd, HashTable.setEntry] at hused
      bv_omega
    · intro hop
      by_contra hnot
      have hsettles : ¬h.Settles call.op := fun hs => hnot (hs.imp_right (.imp_right fun hs =>
        hs.2 hop))
      obtain ⟨hroom, hkey⟩ := hs.asserted hop
      obtain ⟨i, h0, hne, rfl⟩ :=
        hs.insertsOver R hT hkey (by rwa [← R.used_eq hT]) hsettles
      rw [CS330.insertAt, if_neg hne, HashTable.stored_addUsed, h.stored_setEntry, if_neg h0,
        if_neg hkey] at hused
      have hpos := h.stored_pos h0
      simp only [HashTable.used, HashTable.addUsed, atomicAdd, HashTable.setEntry] at hused
      bv_omega

/-! ## Runs -/

theorem CountRun.refines (hT : T < 2 ^ 32)
    (hrun : CountRun HashTable.Counts (initHashtable : HashTable T) calls h) :
    ∃ m, Refines h m :=
  hrun.invariant (I := fun h => ∃ m, Refines h m) ⟨_, Refines.init⟩ fun ⟨_, R⟩ hstep =>
    R.of_counts hT hstep.1 hstep.2

/-- In every run of operations that count, `used` is the number of slots with a key, the assertion
of `dump_hash_table` holds, and a `DEL` that counts down finds `used` above 0. The next operation
keeps the count just when it counts. -/
theorem CountRun.used_exact (hT : T < 2 ^ 32)
    (hrun : CountRun HashTable.Counts (initHashtable : HashTable T) calls h) :
    h.used = h.stored ∧ dumpHashTable h = 0 ∧
      (∀ call h', HashStep h call h' → call.op.opType = .del → call.ret = 0 →
        h.Counts call.op → 0 < h.used) ∧
      ∀ call h', HashStep h call h' → (h.Counts call.op ↔ h'.used = h'.stored) := by
  obtain ⟨m, R⟩ := hrun.refines hT
  have hused := R.used_eq hT
  refine ⟨hused, dumpHashTable_eq_zero hused, ?_, fun _ _ hs => R.counts_iff hT hs⟩
  intro call h' hs hop hret hok
  obtain ⟨i, hi⟩ := hs.purged R hT hop hret hok
  rw [hused]
  exact h.stored_pos hi

/-- A key goes into an empty table of two slots and is deleted again. -/
theorem CountRun.used_exact_of_put_del :
    ∃ (calls : List HashCall) (h : HashTable 2), calls.length = 2 ∧
      CountRun HashTable.Counts initHashtable calls h ∧ h.used = h.stored ∧ dumpHashTable h = 0 := by
  let put : Operation := ⟨1, 2, .put, 8, 16⟩
  let del : Operation := ⟨2, 2, .del, 0, 0⟩
  let h₁ : HashTable 2 := ⟨1, #v[⟨1, 8, 2, 16⟩, ⟨0, 0, 0, 0⟩]⟩
  let h₂ : HashTable 2 := ⟨0, #v[⟨-1, 0, 0, 0⟩, ⟨0, 0, 0, 0⟩]⟩
  have hput : HashStep initHashtable ⟨put, 0, put⟩ h₁ :=
    .insertUpdate rfl (.of_run (n := 3) (by decide))
  have hdel : HashStep h₁ ⟨del, 0, del⟩ h₂ := .purgeKey rfl (.of_run (n := 2) (by decide))
  have hrun : CountRun HashTable.Counts initHashtable [⟨put, 0, put⟩, ⟨del, 0, del⟩] h₂ := by
    refine .snoc (.snoc .nil ⟨⟨nofun, fun _ => .inl ⟨0, by decide⟩⟩, hput⟩)
      ⟨⟨fun _ => by decide, nofun⟩, hdel⟩
  obtain ⟨hused, hdump, -⟩ := hrun.used_exact (by decide)
  exact ⟨_, h₂, rfl, hrun, hused, hdump⟩

/-- A `DEL` of the key 0 counts down in a fresh table. -/
theorem not_used_exact : ¬∀ (T : Nat) [NeZero T] (calls : List HashCall) (h : HashTable T),
    T < 2 ^ 32 → CountRun (fun _ _ => True) initHashtable calls h →
      h.used = h.stored ∧ dumpHashTable h = 0 ∧
        ∀ call h', HashStep h call h' → call.op.opType = .del → call.ret = 0 → 0 < h.used := by
  intro hclaim
  let del : Operation := ⟨1, 0, .del, 0, 0⟩
  have hdel : HashStep (initHashtable : HashTable 1) ⟨del, 0, del⟩ ⟨-1, #v[⟨-1, 0, 0, 0⟩]⟩ :=
    .purgeKey rfl (.of_run (n := 2) (by decide))
  have hrun : CountRun (fun _ _ => True) (initHashtable : HashTable 1) [⟨del, 0, del⟩]
      ⟨-1, #v[⟨-1, 0, 0, 0⟩]⟩ := .snoc .nil ⟨trivial, hdel⟩
  exact absurd (hclaim 1 _ _ (by decide) hrun).1 (by decide)

end CS330
