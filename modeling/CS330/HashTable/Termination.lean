import CS330.HashTable.Counter

/-! # When the probes end

A loop over the slots ends at a slot that was never used, at its key, or one slot in front of the
hash slot. The hash slot 0 has no slot in front of it. -/

namespace CS330

variable {T : Nat} [NeZero T] {h h' : HashTable T} {op : Operation} {call : HashCall}
  {calls : List HashCall} {i : Fin T} {n : Nat}

/-- The operation ends after at most `T` visits of slots, a `PUT` after `2 * T`. Every activation
is a visit, but for the one that starts a `PUT`. -/
def HashTable.EndsInTime (h : HashTable T) (op : Operation) : Prop :=
  (match op.opType with
  | .get => (run (lookupBody h op) T (hashfunc op.key)).isSome
  | .put => (run (insertUpdateBody h op) (1 + 2 * T) .start).isSome
  | .del => (run (purgeKeyBody h op) T (hashfunc op.key)).isSome) = true

instance (h : HashTable T) (op : Operation) : Decidable (h.EndsInTime op) :=
  inferInstanceAs (Decidable (_ = true))

/-! ## One operation -/

/-- At the end of a round all slots have been seen. -/
theorem ProbeEnds.key_ne_of_atEnd {key : BitVec 64} (E : ProbeEnds h key n) (hT : T < 2 ^ 32)
    (hend : AtEnd key (probeSlot key n : Fin T)) (hne : (h.entry (probeSlot key n)).key ≠ key)
    (i : Fin T) : (h.entry i).key ≠ key := by
  obtain ⟨j, hj, rfl⟩ := exists_probeSlot key i
  have hn := ((atEnd_iff hT E.lt).1 hend).2
  rcases Nat.lt_succ_iff_lt_or_eq.1 (hn ▸ hj) with hlt | rfl
  · exact (E.before j hlt).2.1
  · exact hne

theorem HashTable.EndsInTime.exists_step (hends : h.EndsInTime op) :
    ∃ ret op' h', HashStep h ⟨op, ret, op'⟩ h' := by
  unfold HashTable.EndsInTime at hends
  split at hends
  next hop =>
    obtain ⟨⟨ret, op'⟩, hrun⟩ := Option.isSome_iff_exists.1 hends
    exact ⟨ret, op', h, .lookup hop (.of_run hrun)⟩
  next hop =>
    obtain ⟨⟨ret, h'⟩, hrun⟩ := Option.isSome_iff_exists.1 hends
    exact ⟨ret, op, h', .insertUpdate hop (.of_run hrun)⟩
  next hop =>
    obtain ⟨⟨ret, h'⟩, hrun⟩ := Option.isSome_iff_exists.1 hends
    exact ⟨ret, op, h', .purgeKey hop (.of_run hrun)⟩

theorem HashTable.Stops.insert (hstops : h.Stops op.key) (hT : T < 2 ^ 32) (hI : h.Intact)
    (hused : h.used < T) (hkey : op.key ≠ 0) :
    (run (insertUpdateBody h op) (1 + 2 * T) .start).isSome := by
  obtain ⟨n, E⟩ := exists_probeEnds hT hstops
  have hn := E.lt
  by_cases hstop : (h.entry (probeSlot op.key n)).key = 0 ∨
      (h.entry (probeSlot op.key n)).key = op.key
  · obtain ⟨k, hk, pc, hcalls, hret⟩ := calls_insertUpdate hI hused hkey E hstop
    rw [hcalls.run_of_ret hret (by omega)]
    rfl
  · obtain ⟨h0, hne⟩ := not_or.1 hstop
    have hend : AtEnd op.key (probeSlot op.key n : Fin T) := by
      by_contra hend
      exact E.stops ⟨.inl h0, hne, hend⟩
    obtain ⟨k, -, hk, -, -, hcalls, hret⟩ := calls_insertUpdate_round hT hI hused hkey E hend h0
      (E.key_ne_of_atEnd hT hend hne)
    rw [hcalls.run_of_ret hret (by omega)]
    rfl

theorem HashTable.endsInTime_iff_stops (hT : T < 2 ^ 32) (hI : h.Intact) (hkey : op.key ≠ 0)
    (hroom : op.opType = .put → h.used < T) : h.EndsInTime op ↔ h.Stops op.key := by
  constructor
  · intro hends
    obtain ⟨_, _, _, hs⟩ := hends.exists_step
    exact hs.stops hT
  · intro hstops
    obtain ⟨n, E⟩ := exists_probeEnds hT hstops
    unfold HashTable.EndsInTime
    split
    next =>
      have hcalls := E.calls fun ctr => lookupBody_of_probes hI
      rw [hcalls.run_of_ret (lookupBody_of_not_probes hI E.stops) E.lt]
      rfl
    next hop => exact hstops.insert hT hI (hroom hop) hkey
    next =>
      have hcalls := E.calls fun ctr => purgeKeyBody_of_probes hI
      rw [hcalls.run_of_ret (purgeKeyBody_of_not_probes hI E.stops) E.lt]
      rfl

/-! ## The counter -/

/-- The counter may be too large, after a `PUT` over another key. -/
structure HashTable.Bounded (h : HashTable T) : Prop where
  stored_le : h.stored ≤ h.usedWord.toNat
  le_size : h.usedWord.toNat ≤ T

namespace HashTable.Bounded

section
omit [NeZero T]

theorem init : (initHashtable : HashTable T).Bounded := by
  have hstored : (initHashtable : HashTable T).stored = 0 := by
    simp [initHashtable, HashTable.stored, Vector.countP_replicate]
  exact ⟨hstored.le, Nat.zero_le _⟩

theorem intact (B : h.Bounded) (hT : T < 2 ^ 32) : h.Intact := B.le_size.trans_lt hT

theorem used_eq (B : h.Bounded) (hT : T < 2 ^ 32) : h.used = h.usedWord.toNat := by
  rw [HashTable.used, BitVec.toNat_setWidth]
  exact Nat.mod_eq_of_lt (B.intact hT)

theorem insertAt (B : h.Bounded) (hT : T < 2 ^ 32) (hused : h.used < T) (i : Fin T) :
    (insertAt h op i).Bounded := by
  have hle := B.stored_le
  rw [B.used_eq hT] at hused
  unfold CS330.insertAt
  split
  · refine ⟨?_, B.le_size⟩
    rw [h.stored_setEntry]
    change _ ≤ h.usedWord.toNat
    by_cases h0 : (h.entry i).key = 0
    · simpa [h0] using hle
    · have := h.stored_pos h0
      simp only [h0, if_false]
      omega
  · have hcount := (h.setEntry i ⟨op.id.setWidth 32, op.datalen, op.key, op.data⟩).usedWord_addUsed_one
      (by change h.usedWord.toNat + 1 < _; omega)
    change _ = h.usedWord.toNat + 1 at hcount
    refine ⟨?_, by omega⟩
    rw [hcount, HashTable.stored_addUsed, h.stored_setEntry]
    split <;> split <;> omega

theorem erase (B : h.Bounded) (hkey : (h.entry i).key ≠ 0) :
    ((h.setEntry i ⟨-1, 0, 0, 0⟩).addUsed (-1)).Bounded := by
  have hpos := h.stored_pos hkey
  have hle := B.stored_le
  have hsize := B.le_size
  have hcount := (h.setEntry i ⟨-1, 0, 0, 0⟩).usedWord_addUsed_neg_one
    (by change 0 < h.usedWord.toNat; omega)
  change _ = h.usedWord.toNat - 1 at hcount
  refine ⟨?_, by omega⟩
  rw [hcount, HashTable.stored_addUsed, h.stored_setEntry, if_neg hkey,
    if_pos (show (⟨-1, 0, 0, 0⟩ : HashEntry).key = 0 from rfl)]
  omega

end

end HashTable.Bounded

/-- `insert_update` writes one slot. -/
theorem insertUpdate_returns {ret : Int} (hret : Returns (insertUpdateBody h op) .start (ret, h')) :
    ∃ i, h' = insertAt h op i := by
  refine hret.invariant (P := fun _ => True) (Q := fun r => ∃ i, r.2 = insertAt h op i) trivial
    (fun _ _ => trivial) fun {pc r} _ hret => ?_
  cases pc with
  | start =>
    rw [insertUpdateBody] at hret
    split at hret
    · cases hret
    split at hret
    · cases hret
    split at hret <;> cases hret
  | first ctr =>
    rw [insertUpdateBody] at hret
    split at hret
    · cases hret
    split at hret
    · cases hret
    · cases hret
      exact ⟨ctr, rfl⟩
  | second ctr entry =>
    rw [insertUpdateBody] at hret
    split at hret
    · cases hret
    · cases hret
      exact ⟨entry, rfl⟩

theorem HashTable.Bounded.hashStep (B : h.Bounded) (hT : T < 2 ^ 32) (hkey : call.op.key ≠ 0)
    (hs : HashStep h call h') : h'.Bounded := by
  obtain ⟨op, ret, op'⟩ := call
  cases hop : op.opType with
  | get =>
    obtain ⟨-, rfl⟩ := (hashStep_get_iff hop).1 hs
    exact B
  | put =>
    obtain ⟨-, hret⟩ := (hashStep_put_iff hop).1 hs
    obtain ⟨i, rfl⟩ := insertUpdate_returns hret
    exact B.insertAt hT (hs.asserted hop).1 i
  | del =>
    obtain ⟨-, hret⟩ := (hashStep_del_iff hop).1 hs
    obtain ⟨n, E⟩ := exists_probeEnds hT (hs.stops hT)
    rw [returns_purgeKey_iff (B.intact hT) E] at hret
    split at hret
    next heq =>
      cases hret
      exact B.erase (heq.trans_ne hkey)
    next =>
      cases hret
      exact B

/-! ## Runs -/

/-- In every table that operations with a key leave when they return, the next operation ends in
time just when it stops. -/
theorem CountRun.endsInTime_iff (hT : T < 2 ^ 32)
    (hrun : CountRun (fun _ op => op.key ≠ 0) (initHashtable : HashTable T) calls h)
    (hkey : op.key ≠ 0) (hroom : op.opType = .put → h.used < T) :
    h.EndsInTime op ↔ (∃ i, ¬h.Taken i) ∨ (∃ i, (h.entry i).key = op.key) ∨
      (hashfunc op.key : Fin T).val ≠ 0 := by
  have B : h.Bounded := hrun.invariant (I := HashTable.Bounded) .init fun B hstep =>
    B.hashStep hT hstep.1 hstep.2
  exact HashTable.endsInTime_iff_stops hT (B.intact hT) hkey hroom

/-- With a collision and a deleted slot, a key that is not stored is looked up. -/
theorem CountRun.endsInTime_of_collision :
    CountRun (fun _ op => op.key ≠ 0) initHashtable collision collided ∧
      collided.EndsInTime ⟨5, 3, .get, 0, 0⟩ := by
  have hrun : CountRun (fun _ op => op.key ≠ 0) initHashtable collision collided :=
    collision_run fun hs hadm _ => ⟨hadm.1, hs⟩
  refine ⟨hrun, (hrun.endsInTime_iff (by decide) (by decide) ?_).2 (.inl ⟨2, by decide⟩)⟩
  rintro ⟨⟩

/-- The only slot of a table was used and its key deleted: a probe goes round forever. -/
theorem not_endsInTime : ¬∀ (T : Nat) [NeZero T] (calls : List HashCall) (h : HashTable T)
    (op : Operation), T < 2 ^ 32 →
      CountRun (fun _ op => op.key ≠ 0) (initHashtable : HashTable T) calls h → op.key ≠ 0 →
      (op.opType = .put → h.used < T) → h.EndsInTime op := by
  intro hclaim
  let put : Operation := ⟨1, 5, .put, 8, 16⟩
  let del : Operation := ⟨2, 5, .del, 0, 0⟩
  let h₁ : HashTable 1 := ⟨1, #v[⟨1, 8, 5, 16⟩]⟩
  let h₂ : HashTable 1 := ⟨0, #v[⟨-1, 0, 0, 0⟩]⟩
  have hput : HashStep initHashtable ⟨put, 0, put⟩ h₁ :=
    .insertUpdate rfl (.of_run (n := 2) (by decide))
  have hdel : HashStep h₁ ⟨del, 0, del⟩ h₂ := .purgeKey rfl (.of_run (n := 1) (by decide))
  have hrun : CountRun (fun _ op => op.key ≠ 0) (initHashtable : HashTable 1)
      [⟨put, 0, put⟩, ⟨del, 0, del⟩] h₂ :=
    .snoc (.snoc .nil ⟨by decide, hput⟩) ⟨by decide, hdel⟩
  have hends := hclaim 1 _ h₂ ⟨3, 5, .get, 0, 0⟩ (by decide) hrun (by decide) nofun
  exact absurd hends (by decide)

end CS330
