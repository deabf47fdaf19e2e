import CS330.HashTable.Visits

/-! # What a thread knows of the table

A thread in the loop of an operation knows of the slots that it has passed that they are taken and
do not hold its key (`Passed`). Other threads take no key of its own and make no slot unused, so
this stays true. It is enough to keep the table a representation of some map. -/

namespace CS330

variable {T : Nat} [NeZero T] {h h' : HashTable T} {m m' : KvMap} {i j ctr : Fin T}
  {op op' : Operation} {pc pc' : VisitPc T} {key : BitVec 64}

/-- The slots from the hash slot of the key up to `ctr` are taken by other keys, or deleted. -/
def HashTable.Passed (h : HashTable T) (key : BitVec 64) (ctr : Fin T) : Prop :=
  ∀ j < distance (hashfunc key) ctr,
    h.Taken (probeSlot key j) ∧ (h.entry (probeSlot key j)).key ≠ key

/-- What a thread has found out when it stands at `pc`. -/
def HashTable.Knows (h : HashTable T) (op : Operation) : VisitPc T → Prop
  | .lookup ctr => op.opType = .get ∧ h.Passed op.key ctr
  | .insertFirst ctr => op.opType = .put ∧ h.Passed op.key ctr
  | .insertSecond _ => op.opType = .put ∧ ∀ i, h.Taken i ∧ (h.entry i).key ≠ op.key
  | .purge ctr => op.opType = .del ∧ h.Passed op.key ctr
  | .purgeLocked ctr => op.opType = .del ∧ ∀ i, (h.entry i).key = op.key → i = ctr
  | _ => True

/-- What the operation will return, once it has taken effect. -/
def VisitPc.answer : VisitPc T → Option Int
  | .insertUsed | .purgeUsed => some 0
  | .returned ret => some ret
  | _ => none

/-! ## Steps of other threads -/

/-- What a step on another key does to the table. -/
structure HashTable.Spares (h h' : HashTable T) (key : BitVec 64) : Prop where
  taken : ∀ i, h.Taken i → h'.Taken i
  absent : ∀ i, (h'.entry i).key = key → (h.entry i).key = key

theorem HashTable.Passed.spares (hp : h.Passed key ctr) (hs : h.Spares h' key) :
    h'.Passed key ctr :=
  fun j hj => ⟨hs.taken _ (hp j hj).1, fun heq => (hp j hj).2 (hs.absent _ heq)⟩

theorem HashTable.Knows.spares (hk : h.Knows op pc) (hs : h.Spares h' op.key) :
    h'.Knows op pc := by
  cases pc with
  | lookup | insertFirst | purge => exact ⟨hk.1, hk.2.spares hs⟩
  | insertSecond =>
    exact ⟨hk.1, fun i => ⟨hs.taken i (hk.2 i).1, fun heq => (hk.2 i).2 (hs.absent i heq)⟩⟩
  | purgeLocked => exact ⟨hk.1, fun i heq => hk.2 i (hs.absent i heq)⟩
  | call | insertUsed | purgeUsed | returned => trivial

/-- What a step of an operation does to the table. -/
inductive VisitChange (h : HashTable T) (op : Operation) : HashTable T → Prop where
  | none : VisitChange h op h
  | write {i : Fin T} {entry : HashEntry} (hkey : entry.key = op.key) :
    VisitChange h op (h.setEntry i entry)
  | purge {i : Fin T} (hkey : (h.entry i).key = op.key) :
    VisitChange h op (h.setEntry i ⟨-1, 0, 0, 0⟩)
  | count {val : BitVec 64} : VisitChange h op (h.addUsed val)

omit [NeZero T] in
theorem VisitChange.of_writeVisit : VisitChange h op (writeVisit h op i).1 := by
  rw [writeVisit]
  split
  next heq => exact .write heq
  next => exact .write rfl

theorem VisitChange.of_insertSecondVisit : VisitChange h op (insertSecondVisit h op ctr i).1 := by
  rw [insertSecondVisit]
  split
  · exact .none
  · exact .of_writeVisit

theorem VisitChange.of_insertFirstVisit : VisitChange h op (insertFirstVisit h op ctr).1 := by
  rw [insertFirstVisit]
  split
  · exact .none
  split
  · exact .of_insertSecondVisit
  · exact .of_writeVisit

omit [NeZero T] in
theorem VisitChange.of_purgeLockedVisit : VisitChange h op (purgeLockedVisit h op ctr).1 := by
  rw [purgeLockedVisit]
  split
  next heq => exact .purge heq
  next => exact .none

theorem intact_of_visit (hv : visit h op pc = some (h', op', pc')) : h.Intact := by
  by_contra hnot
  rw [visit, if_neg hnot] at hv
  cases hv

theorem next_of_visit (hv : visit h op pc = some (h', op', pc')) :
    pc.next h op = some (h', op', pc') := by
  rwa [visit, if_pos (intact_of_visit hv)] at hv

theorem VisitChange.of_visit (hv : visit h op pc = some (h', op', pc')) : VisitChange h op h' := by
  replace hv := next_of_visit hv
  cases pc with
  | call =>
    rw [VisitPc.next] at hv
    split at hv
    · cases hv
      exact .none
    · split at hv <;> cases hv
      exact .none
    · cases hv
      exact .none
  | lookup | purge =>
    obtain ⟨rfl, -⟩ := Prod.mk.inj (Option.some.inj hv)
    exact .none
  | insertFirst =>
    obtain ⟨rfl, -⟩ := Prod.mk.inj (Option.some.inj hv)
    exact .of_insertFirstVisit
  | insertSecond =>
    obtain ⟨rfl, -⟩ := Prod.mk.inj (Option.some.inj hv)
    exact .of_insertSecondVisit
  | purgeLocked =>
    obtain ⟨rfl, -⟩ := Prod.mk.inj (Option.some.inj hv)
    exact .of_purgeLockedVisit
  | insertUsed | purgeUsed =>
    obtain ⟨rfl, -⟩ := Prod.mk.inj (Option.some.inj hv)
    exact .count
  | returned => cases hv

/-- An operation keeps its id, its key and its type. -/
theorem same_record_of_visit (hv : visit h op pc = some (h', op', pc')) :
    op'.id = op.id ∧ op'.key = op.key ∧ op'.opType = op.opType := by
  replace hv := next_of_visit hv
  cases pc with
  | call =>
    rw [VisitPc.next] at hv
    split at hv
    · cases hv
      exact ⟨rfl, rfl, rfl⟩
    · split at hv <;> cases hv
      exact ⟨rfl, rfl, rfl⟩
    · cases hv
      exact ⟨rfl, rfl, rfl⟩
  | lookup ctr =>
    obtain ⟨-, heq⟩ := Prod.mk.inj (Option.some.inj hv)
    have hop : op' = (lookupVisit h op ctr).1 := by rw [heq]
    rw [hop, lookupVisit]
    split
    · exact ⟨rfl, rfl, rfl⟩
    split <;> exact ⟨rfl, rfl, rfl⟩
  | insertFirst | insertSecond | purge | purgeLocked | insertUsed | purgeUsed =>
    obtain ⟨-, heq⟩ := Prod.mk.inj (Option.some.inj hv)
    obtain ⟨rfl, -⟩ := Prod.mk.inj heq
    exact ⟨rfl, rfl, rfl⟩
  | returned => cases hv

omit [NeZero T] in
/-- No slot becomes unused. -/
theorem VisitChange.taken (hc : VisitChange h op h') (hop : op.key ≠ 0) (hi : h.Taken i) :
    h'.Taken i := by
  cases hc with
  | none | count => exact hi
  | write hkey => exact hi.setEntry (.inl (hkey ▸ hop))
  | purge => exact hi.setEntry (.inr rfl)

omit [NeZero T] in
/-- A step on another key. -/
theorem VisitChange.spares (hc : VisitChange h op h') (hop : op.key ≠ 0) (hkey : key ≠ 0)
    (hne : key ≠ op.key) : h.Spares h' key := by
  refine ⟨fun i hi => hc.taken hop hi, fun i heq => ?_⟩
  cases hc with
  | none | count => exact heq
  | @write j entry hentry =>
    by_cases hij : j = i
    · subst hij
      rw [HashTable.entry_setEntry_self, hentry] at heq
      exact (hne heq.symm).elim
    · simpa [hij] using heq
  | @purge j hentry =>
    by_cases hij : j = i
    · subst hij
      exact (hkey (by simpa using heq.symm)).elim
    · simpa [hij] using heq

/-! ## What a visit finds -/

namespace HashTable.Passed

theorem start : h.Passed key (hashfunc key) := by
  intro j hj
  rw [distance, if_pos le_rfl, Nat.sub_self] at hj
  exact (Nat.not_lt_zero j hj).elim

/-- One slot further on. Behind the last slot of the round nothing is known any more. -/
theorem succ (hp : h.Passed key ctr) (hprobes : h.Probes key ctr) : h.Passed key (ctr + 1) := by
  have hctr : probeSlot key (distance (hashfunc key) ctr) = ctr := slotAfter_distance
  have hnext : probeSlot key (distance (hashfunc key) ctr + 1) = ctr + 1 := by
    rw [probeSlot_succ, hctr]
  have hle : distance (hashfunc key) (ctr + 1) ≤ distance (hashfunc key) ctr + 1 := by
    rw [← hnext]
    exact distance_slotAfter_le
  intro j hj
  rcases Nat.lt_succ_iff_lt_or_eq.1 (hj.trans_le hle) with hlt | rfl
  · exact hp j hlt
  · rw [hctr]
    exact ⟨hprobes.1, hprobes.2.1⟩

theorem probeEnds (hp : h.Passed key ctr) (hT : T < 2 ^ 32) (hstop : ¬h.Probes key ctr) :
    ProbeEnds h key (distance (hashfunc key) ctr) where
  lt := distance_lt
  before j hj := by
    have hlt : distance (hashfunc key) ctr < T := distance_lt
    refine ⟨(hp j hj).1, (hp j hj).2, fun hend => ?_⟩
    have := ((atEnd_iff hT (by omega)).1 hend).2
    omega
  stops := by
    have hctr : probeSlot key (distance (hashfunc key) ctr) = ctr := slotAfter_distance
    rwa [hctr]

/-- Where a loop stops, the key is in that slot or nowhere. -/
theorem absent (hp : h.Passed key ctr) (hT : T < 2 ^ 32) (S : Stores h m) (hkey : key ≠ 0)
    (hstop : ¬h.Probes key ctr) (hne : (h.entry ctr).key ≠ key) (i : Fin T) :
    (h.entry i).key ≠ key := by
  have hctr : probeSlot key (distance (hashfunc key) ctr) = ctr := slotAfter_distance
  exact (hp.probeEnds hT hstop).key_ne S hT hkey (by rwa [hctr]) i

/-- A loop that stops at another key has gone round. -/
theorem round (hp : h.Passed key ctr) (hT : T < 2 ^ 32) (hstop : ¬h.Probes key ctr)
    (h0 : (h.entry ctr).key ≠ 0) (hne : (h.entry ctr).key ≠ key) (i : Fin T) :
    h.Taken i ∧ (h.entry i).key ≠ key := by
  have hctr : probeSlot key (distance (hashfunc key) ctr) = ctr := slotAfter_distance
  have hend : AtEnd key ctr := by
    by_contra hend
    exact hstop ⟨.inl h0, hne, hend⟩
  rw [← hctr, atEnd_iff hT distance_lt] at hend
  obtain ⟨j, hj, rfl⟩ := exists_probeSlot key i
  rcases Nat.lt_succ_iff_lt_or_eq.1 (hend.2 ▸ hj) with hlt | rfl
  · exact hp j hlt
  · rw [hctr]
    exact ⟨.inl h0, hne⟩

end HashTable.Passed

/-- An insertion over another key loses that key, and the table still stores a map. -/
theorem Stores.overwrite (S : Stores h m) (hkey : op.key ≠ 0)
    (hother : ∀ j, (h.entry j).key ≠ op.key) (htaken : ∀ j, h.Taken j) :
    ∃ m', Stores (h.setEntry i ⟨op.id.setWidth 32, op.datalen, op.key, op.data⟩) m' := by
  have S' := (S.erase i).insert (i := i) hkey (by simp) ?_
    fun j _ => (htaken _).setEntry (.inr rfl)
  · have hset : (h.setEntry i ⟨-1, 0, 0, 0⟩).setEntry i
        ⟨op.id.setWidth 32, op.datalen, op.key, op.data⟩ =
          h.setEntry i ⟨op.id.setWidth 32, op.datalen, op.key, op.data⟩ := by
      simp [HashTable.setEntry]
    exact ⟨_, hset ▸ S'⟩
  · intro j
    rw [HashTable.entry_setEntry]
    split
    · exact hkey.symm
    · exact hother j

/-- What a step of an operation does to the map that the table stores. -/
inductive VisitEffect (h : HashTable T) (m : KvMap) (op : Operation) (pc : VisitPc T)
    (op' : Operation) (pc' : VisitPc T) (m' : KvMap) : Prop where
  | quiet (hpc : pc'.answer = pc.answer) (hop : op' = op) (hm : m' = m)
  | answers {ret : Int} (hpc : pc.answer = none) (hpc' : pc'.answer = some ret)
    (hk : KvStep m ⟨op, ret, op'⟩ m')
  | overwrites (hop : op' = op) (htaken : ∀ i, h.Taken i)

/-- The slot where the loops of `insert_update` end: it holds the key, or the key is nowhere and
the slot is free or every slot is taken. -/
theorem Stores.writeVisit (S : Stores h m) (hkey : op.key ≠ 0) (hop : op.opType = .put)
    (hpc : pc.answer = none) (hslot : (h.entry i).key = op.key ∨
      (∀ j, (h.entry j).key ≠ op.key) ∧
      (∀ j < distance (hashfunc op.key) i, h.Taken (slotAfter (hashfunc op.key) j)) ∧
      ((h.entry i).key = 0 ∨ ∀ j, h.Taken j)) :
    ∃ m', Stores (writeVisit h op i).1 m' ∧ (writeVisit h op i).1.Knows op (writeVisit h op i).2 ∧
      VisitEffect h m op pc op (writeVisit h op i).2 m' := by
  rcases hslot with heq | ⟨hother, hpath, hfree⟩
  · rw [CS330.writeVisit, if_pos heq]
    exact ⟨_, S.update hkey heq, trivial, .answers hpc rfl (.put hop)⟩
  · rw [CS330.writeVisit, if_neg (hother i)]
    rcases hfree with h0 | htaken
    · exact ⟨_, S.insert hkey h0 hother hpath, trivial, .answers hpc rfl (.put hop)⟩
    · obtain ⟨m', S'⟩ := S.overwrite (i := i) hkey hother htaken
      exact ⟨m', S', trivial, .overwrites rfl htaken⟩

theorem Stores.insertSecondVisit (S : Stores h m) (hkey : op.key ≠ 0) (hop : op.opType = .put)
    (hpc : pc.answer = none) (htaken : ∀ i, h.Taken i) (hother : ∀ i, (h.entry i).key ≠ op.key) :
    ∃ m', Stores (insertSecondVisit h op ctr i).1 m' ∧
      (insertSecondVisit h op ctr i).1.Knows op (insertSecondVisit h op ctr i).2 ∧
      VisitEffect h m op pc op (insertSecondVisit h op ctr i).2 m' := by
  rw [CS330.insertSecondVisit]
  split
  · exact ⟨m, S, ⟨hop, fun j => ⟨htaken j, hother j⟩⟩, .quiet hpc.symm rfl rfl⟩
  · exact S.writeVisit hkey hop hpc (.inr ⟨hother, fun j _ => htaken _, .inr htaken⟩)

theorem Stores.insertFirstVisit (S : Stores h m) (hT : T < 2 ^ 32) (hkey : op.key ≠ 0)
    (hop : op.opType = .put) (hpc : pc.answer = none) (hp : h.Passed op.key ctr) :
    ∃ m', Stores (insertFirstVisit h op ctr).1 m' ∧
      (insertFirstVisit h op ctr).1.Knows op (insertFirstVisit h op ctr).2 ∧
      VisitEffect h m op pc op (insertFirstVisit h op ctr).2 m' := by
  rw [CS330.insertFirstVisit]
  split
  next hprobes => exact ⟨m, S, ⟨hop, hp.succ hprobes⟩, .quiet hpc.symm rfl rfl⟩
  next hstop =>
    have hslot : (h.entry ctr).key = op.key ∨ (∀ j, (h.entry j).key ≠ op.key) ∧
        (∀ j < distance (hashfunc op.key) ctr, h.Taken (slotAfter (hashfunc op.key) j)) ∧
        ((h.entry ctr).key = 0 ∨ ∀ j, h.Taken j) := by
      by_cases heq : (h.entry ctr).key = op.key
      · exact .inl heq
      · refine .inr ⟨hp.absent hT S hkey hstop heq, fun j hj => (hp j hj).1, ?_⟩
        by_cases h0 : (h.entry ctr).key = 0
        · exact .inl h0
        · exact .inr fun j => (hp.round hT hstop h0 heq j).1
    split
    · rw [CS330.insertSecondVisit]
      split
      next hgo =>
        exact ⟨m, S, ⟨hop, hp.round hT hstop hgo.1 hgo.2.1⟩, .quiet hpc.symm rfl rfl⟩
      next => exact S.writeVisit hkey hop hpc hslot
    · exact S.writeVisit hkey hop hpc hslot

theorem Stores.lookupVisit (S : Stores h m) (hT : T < 2 ^ 32) (hkey : op.key ≠ 0)
    (hop : op.opType = .get) (hpc : pc.answer = none) (hp : h.Passed op.key ctr) :
    h.Knows (lookupVisit h op ctr).1 (lookupVisit h op ctr).2 ∧
      VisitEffect h m op pc (lookupVisit h op ctr).1 (lookupVisit h op ctr).2 m := by
  rw [CS330.lookupVisit]
  split
  next hprobes => exact ⟨⟨hop, hp.succ hprobes⟩, .quiet hpc.symm rfl rfl⟩
  next hstop =>
    split
    next heq =>
      have hm := S.sound ctr (by rwa [heq])
      rw [heq] at hm
      exact ⟨trivial, .answers hpc rfl (.hit hop hm)⟩
    next hne =>
      have hm : m op.key = none := by
        by_contra hm
        obtain ⟨-, i, hi⟩ := S.complete _ hm
        exact hp.absent hT S hkey hstop hne i hi
      exact ⟨trivial, .answers hpc rfl (.miss hop hm)⟩

theorem Stores.purgeVisit (S : Stores h m) (hT : T < 2 ^ 32) (hkey : op.key ≠ 0)
    (hop : op.opType = .del) (hp : h.Passed op.key ctr) : h.Knows op (purgeVisit h op ctr) := by
  rw [CS330.purgeVisit]
  split
  next hprobes => exact ⟨hop, hp.succ hprobes⟩
  next hstop =>
    refine ⟨hop, fun i hi => ?_⟩
    by_cases heq : (h.entry ctr).key = op.key
    · exact S.unique i ctr (by rwa [hi]) (hi.trans heq.symm)
    · exact (hp.absent hT S hkey hstop heq i hi).elim

theorem Stores.purgeLockedVisit (S : Stores h m) (hkey : op.key ≠ 0) (hop : op.opType = .del)
    (hpc : pc.answer = none) (hctr : ∀ i, (h.entry i).key = op.key → i = ctr) :
    ∃ m', Stores (purgeLockedVisit h op ctr).1 m' ∧
      (purgeLockedVisit h op ctr).1.Knows op (purgeLockedVisit h op ctr).2 ∧
      VisitEffect h m op pc op (purgeLockedVisit h op ctr).2 m' := by
  rw [CS330.purgeLockedVisit]
  split
  next heq =>
    have hm := S.sound ctr (by rwa [heq])
    have S' := S.erase ctr
    rw [heq] at hm S'
    exact ⟨_, S', trivial, .answers hpc rfl (.delete hop (by simp [hm]))⟩
  next hne =>
    have hm : m op.key = none := by
      by_contra hm
      obtain ⟨-, i, hi⟩ := S.complete _ hm
      exact hne (hctr i hi ▸ hi)
    exact ⟨m, S, trivial, .answers hpc rfl (.bogus hop hm)⟩

/-- A step of an operation keeps the table a representation, and the thread knows where it
stands. -/
theorem Stores.visit (S : Stores h m) (K : h.Knows op pc) (hT : T < 2 ^ 32) (hkey : op.key ≠ 0)
    (hv : visit h op pc = some (h', op', pc')) :
    ∃ m', Stores h' m' ∧ h'.Knows op' pc' ∧ VisitEffect h m op pc op' pc' m' := by
  replace hv := next_of_visit hv
  cases pc with
  | call =>
    rw [VisitPc.next] at hv
    split at hv
    next hop =>
      cases hv
      exact ⟨m, S, ⟨hop, .start⟩, .quiet rfl rfl rfl⟩
    next hop =>
      split at hv <;> cases hv
      exact ⟨m, S, ⟨hop, .start⟩, .quiet rfl rfl rfl⟩
    next hop =>
      cases hv
      exact ⟨m, S, ⟨hop, .start⟩, .quiet rfl rfl rfl⟩
  | lookup ctr =>
    obtain ⟨rfl, heq⟩ := Prod.mk.inj (Option.some.inj hv)
    obtain ⟨rfl, rfl⟩ := Prod.mk.inj heq
    exact ⟨m, S, S.lookupVisit hT hkey K.1 rfl K.2⟩
  | insertFirst ctr =>
    cases hv
    exact S.insertFirstVisit hT hkey K.1 rfl K.2
  | insertSecond ctr =>
    cases hv
    exact S.insertSecondVisit hkey K.1 rfl (fun i => (K.2 i).1) fun i => (K.2 i).2
  | purge ctr =>
    cases hv
    refine ⟨m, S, S.purgeVisit hT hkey K.1 K.2, .quiet ?_ rfl rfl⟩
    rw [CS330.purgeVisit]
    split <;> rfl
  | purgeLocked ctr =>
    cases hv
    exact S.purgeLockedVisit hkey K.1 rfl K.2
  | insertUsed | purgeUsed =>
    obtain ⟨rfl, heq⟩ := Prod.mk.inj (Option.some.inj hv)
    obtain ⟨rfl, rfl⟩ := Prod.mk.inj heq
    exact ⟨m, S.addUsed _, trivial, .quiet rfl rfl rfl⟩
  | returned => cases hv

end CS330
