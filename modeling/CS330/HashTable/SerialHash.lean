import CS330.HashTable.FiniteMap

/-! # The hash table of `serial_hash.c`

The same table without locks. It differs from `parallel_hash.c` in `insert_update`, whose loop goes
on over occupied slots only and so ends at a slot whose key was deleted, and in how the counter is
updated. -/

namespace CS330

variable {T : Nat} [NeZero T]

/-- `h->used = used`. -/
def HashTable.setUsed (h : HashTable T) (used : BitVec 32) : HashTable T :=
  { h with usedWord := h.usedWord.extractLsb' 32 32 ++ used }

namespace Serial

/-- `lookup`, called with `ctr` equal to the hash value: the same text as in `parallel_hash.c`. -/
def lookupBody (h : HashTable T) (op : Operation) (ctr : Fin T) :
    Outcome (Fin T) (Int × Operation) := CS330.lookupBody h op ctr

/-- `purge_key`, called with `ctr` equal to the hash value. -/
def purgeKeyBody (h : HashTable T) (op : Operation) (ctr : Fin T) :
    Outcome (Fin T) (Int × HashTable T) :=
  if ¬h.Intact then .stuck
  else if h.Probes op.key ctr then .call (ctr + 1)
  else if (h.entry ctr).key = op.key then
    .ret (0, (h.setEntry ctr ⟨-1, 0, 0, 0⟩).setUsed (h.usedWord.setWidth 32 - 1))
  else .ret (-1, h)

/-- The end of `insert_update`: update of the entry, or fresh insertion. -/
def insertAt (h : HashTable T) (op : Operation) (ctr : Fin T) : HashTable T :=
  if (h.entry ctr).key = op.key then
    h.setEntry ctr
      { h.entry ctr with id := op.id.setWidth 32, datalen := op.datalen, data := op.data }
  else (h.setEntry ctr ⟨op.id.setWidth 32, op.datalen, op.key, op.data⟩).setUsed
    (h.usedWord.setWidth 32 + 1)

/-- Where `insert_update` stands: at its start, or in front of the condition of its loop. -/
inductive InsertPc (T : Nat) where
  | start
  | loop (ctr : Fin T)
deriving DecidableEq, Repr

def insertUpdateBody (h : HashTable T) (op : Operation) :
    InsertPc T → Outcome (InsertPc T) (Int × HashTable T)
  | .start =>
    if ¬h.Intact then .stuck
    else if ¬h.used < T then .stuck
    else if op.key = 0 then .stuck
    else .call (.loop (hashfunc op.key))
  | .loop ctr =>
    if (h.entry ctr).key ≠ 0 ∧ (h.entry ctr).key ≠ op.key ∧ ¬AtEnd op.key ctr then
      .call (.loop (ctr + 1))
    else if AtEnd op.key ctr then .stuck
    else if (h.entry ctr).key ≠ op.key ∧ (h.entry ctr).key ≠ 0 then .stuck
    else .ret (0, insertAt h op ctr)

end Serial

/-- `process` carries out an operation on `h`, which returns and leaves `h'`. -/
inductive SerialStep (h : HashTable T) : HashCall → HashTable T → Prop where
  | lookup (hop : op.opType = .get)
    (hret : Returns (Serial.lookupBody h op) (hashfunc op.key) (ret, op')) :
    SerialStep h ⟨op, ret, op'⟩ h
  | insertUpdate (hop : op.opType = .put)
    (hret : Returns (Serial.insertUpdateBody h op) .start (ret, h')) :
    SerialStep h ⟨op, ret, op⟩ h'
  | purgeKey (hop : op.opType = .del)
    (hret : Returns (Serial.purgeKeyBody h op) (hashfunc op.key) (ret, h')) :
    SerialStep h ⟨op, ret, op⟩ h'

variable {h h' : HashTable T} {m : KvMap} {op op' : Operation} {ret : Int} {i : Fin T}

/-! ## The counter -/

section
omit [NeZero T]

@[simp] theorem HashTable.entry_setUsed {used : BitVec 32} :
    (h.setUsed used).entry i = h.entry i := rfl

/-- Writing the counter does not touch the pointer behind it. -/
theorem HashTable.Intact.setUsed (hI : h.Intact) (used : BitVec 32) : (h.setUsed used).Intact := by
  have hhigh : h.usedWord.extractLsb' 32 32 = 0 := by
    refine BitVec.eq_of_toNat_eq ?_
    rw [BitVec.extractLsb'_toNat, Nat.shiftRight_eq_div_pow, Nat.div_eq_of_lt hI]
    rfl
  change (h.usedWord.extractLsb' 32 32 ++ used).toNat < 2 ^ 32
  rw [hhigh]
  have happend : ((0 : BitVec 32) ++ used).toNat = used.toNat := by
    rw [BitVec.toNat_append]
    simp
  exact happend.trans_lt used.isLt

end

theorem Stores.setUsed (S : Stores h m) (used : BitVec 32) : Stores (h.setUsed used) m :=
  ⟨S.sound, S.complete, S.unique, S.path⟩

/-! ## What the operations return -/

/-- A probe that comes to an end ends somewhere on its first round. -/
theorem exists_probeEnds_of_returns {ρ : Type*} {body : Fin T → Outcome (Fin T) ρ} {r : ρ}
    {key : BitVec 64} (hT : T < 2 ^ 32)
    (hcall : ∀ ctr, h.Probes key ctr → body ctr = .call (ctr + 1))
    (H : Returns body (hashfunc key) r) : ∃ n, ProbeEnds h key n := by
  by_contra hnone
  have hstop := mt (exists_probeEnds hT) hnone
  simp only [not_or, not_exists, not_not] at hstop
  refine Returns.not_of_trap (P := fun _ => True) trivial (fun {ctr} _ => ?_) H
  exact .inr ⟨_, hcall _ (probes_forever hstop.1 hstop.2.1 hstop.2.2 hT), trivial⟩

theorem Stores.serial_lookup (S : Stores h m) (hI : h.Intact) (hT : T < 2 ^ 32) (hkey : op.key ≠ 0)
    (hop : op.opType = .get) (H : Returns (Serial.lookupBody h op) (hashfunc op.key) (ret, op')) :
    KvStep m ⟨op, ret, op'⟩ m := by
  obtain ⟨n, E⟩ := exists_probeEnds_of_returns hT (fun ctr hp => by
    rw [Serial.lookupBody, lookupBody, if_neg (not_not.2 hI), if_pos hp]) H
  have hret := (returns_lookup_iff hI E).1 H
  split at hret
  next heq =>
    have hm := S.sound (probeSlot op.key n) (by rwa [heq])
    rw [heq] at hm
    cases hret
    exact .hit hop hm
  next hne =>
    cases hret
    exact .miss hop (S.mapsTo_none (E.key_ne S hT hkey hne))

theorem Stores.serial_purgeKey (S : Stores h m) (hI : h.Intact) (hT : T < 2 ^ 32)
    (hkey : op.key ≠ 0) (hop : op.opType = .del)
    (H : Returns (Serial.purgeKeyBody h op) (hashfunc op.key) (ret, h')) :
    ∃ m', KvStep m ⟨op, ret, op⟩ m' ∧ Stores h' m' ∧ h'.Intact := by
  have hcall (ctr : Fin T) (hp : h.Probes op.key ctr) :
      Serial.purgeKeyBody h op ctr = .call (ctr + 1) := by
    rw [Serial.purgeKeyBody, if_neg (not_not.2 hI), if_pos hp]
  obtain ⟨n, E⟩ := exists_probeEnds_of_returns hT hcall H
  have hlast := (E.calls hcall).returns_congr.1 H
  by_cases heq : (h.entry (probeSlot op.key n)).key = op.key
  · have hret := (Returns.ret_iff (by
      rw [Serial.purgeKeyBody, if_neg (not_not.2 hI), if_neg E.stops, if_pos heq])).1 hlast
    cases hret
    have hm := S.sound (probeSlot op.key n) (by rwa [heq])
    have S' := S.erase (probeSlot op.key n)
    rw [heq] at hm S'
    exact ⟨_, .delete hop (by simp [hm]), S'.setUsed _, HashTable.Intact.setUsed hI _⟩
  · have hret := (Returns.ret_iff (by
      rw [Serial.purgeKeyBody, if_neg (not_not.2 hI), if_neg E.stops, if_neg heq])).1 hlast
    cases hret
    exact ⟨m, .bogus hop (S.mapsTo_none (E.key_ne S hT hkey heq)), S, hI⟩

/-! ## `insert_update` -/

/-- If the key is stored, no slot in front of it in its probe sequence is free. -/
def HashTable.FirstFree (h : HashTable T) (key : BitVec 64) : Prop :=
  ∀ i, (h.entry i).key = key → ∀ j < distance (hashfunc key) i, (h.entry (probeSlot key j)).key ≠ 0

/-- The loop of `insert_update` has passed over the first `k` slots. -/
def Serial.Passed (h : HashTable T) (key : BitVec 64) (k : Nat) : Prop :=
  ∀ j < k, (h.entry (probeSlot key j)).key ≠ 0 ∧ (h.entry (probeSlot key j)).key ≠ key

theorem Serial.Passed.lt {key : BitVec 64} {k : Nat} (P : Serial.Passed h key k)
    (hstop : (h.entry (probeSlot key k)).key = 0 ∨ (h.entry (probeSlot key k)).key = key) :
    k < T := by
  by_contra hge
  obtain ⟨j, hj, heq⟩ := exists_probeSlot key (probeSlot key k : Fin T)
  have := P j (by omega)
  rw [heq] at this
  exact hstop.elim this.1 this.2

/-- What is known when `insert_update` stands at `pc`. -/
def Serial.InsertPc.Inv (h : HashTable T) (key : BitVec 64) : Serial.InsertPc T → Prop
  | start => True
  | loop ctr => key ≠ 0 ∧ ∃ k, ctr = probeSlot key k ∧ Serial.Passed h key k

theorem Serial.InsertPc.Inv.call {pc pc' : Serial.InsertPc T} (I : pc.Inv h op.key)
    (hcall : Serial.insertUpdateBody h op pc = .call pc') : pc'.Inv h op.key := by
  cases pc with
  | start =>
    rw [Serial.insertUpdateBody] at hcall
    split at hcall
    · cases hcall
    split at hcall
    · cases hcall
    split at hcall
    next => cases hcall
    next hkey =>
      cases hcall
      exact ⟨hkey, 0, probeSlot_zero.symm, fun j hj => absurd hj (Nat.not_lt_zero j)⟩
  | loop ctr =>
    obtain ⟨hkey, k, rfl, P⟩ := I
    rw [Serial.insertUpdateBody] at hcall
    split at hcall
    next hgo =>
      cases hcall
      refine ⟨hkey, k + 1, probeSlot_succ.symm, fun j hj => ?_⟩
      rcases Nat.lt_succ_iff_lt_or_eq.1 hj with hj | rfl
      · exact P j hj
      · exact ⟨hgo.1, hgo.2.1⟩
    next =>
      split at hcall
      · cases hcall
      split at hcall <;> cases hcall

/-- `insert_update` ends at the first slot that is free or has the key. -/
theorem Serial.insertUpdate_returns
    (H : Returns (Serial.insertUpdateBody h op) .start (ret, h')) :
    op.key ≠ 0 ∧ ret = 0 ∧ ∃ k, Serial.Passed h op.key k ∧
      ((h.entry (probeSlot op.key k)).key = 0 ∨ (h.entry (probeSlot op.key k)).key = op.key) ∧
      h' = Serial.insertAt h op (probeSlot op.key k) := by
  refine H.invariant (P := (·.Inv h op.key)) (Q := fun r => op.key ≠ 0 ∧ r.1 = 0 ∧ ∃ k,
    Serial.Passed h op.key k ∧
      ((h.entry (probeSlot op.key k)).key = 0 ∨ (h.entry (probeSlot op.key k)).key = op.key) ∧
      r.2 = Serial.insertAt h op (probeSlot op.key k)) trivial .call fun {pc r} I hret => ?_
  cases pc with
  | start =>
    rw [Serial.insertUpdateBody] at hret
    split at hret
    · cases hret
    split at hret
    · cases hret
    split at hret <;> cases hret
  | loop ctr =>
    obtain ⟨hkey, k, rfl, P⟩ := I
    rw [Serial.insertUpdateBody] at hret
    split at hret
    · cases hret
    split at hret
    · cases hret
    split at hret
    next => cases hret
    next hstop =>
      cases hret
      refine ⟨hkey, rfl, k, P, ?_, rfl⟩
      by_contra! hne
      exact hstop hne.symm

theorem Stores.serial_insertUpdate (S : Stores h m) (hI : h.Intact) (hop : op.opType = .put)
    (hfree : h.FirstFree op.key) (H : Returns (Serial.insertUpdateBody h op) .start (ret, h')) :
    ∃ m', KvStep m ⟨op, ret, op⟩ m' ∧ Stores h' m' ∧ h'.Intact := by
  obtain ⟨hkey, rfl, k, P, hstop, rfl⟩ := Serial.insertUpdate_returns H
  have hk := P.lt hstop
  refine ⟨_, .put hop, ?_⟩
  rw [Serial.insertAt]
  split
  next heq => exact ⟨S.update hkey heq, hI⟩
  next hne =>
    have h0 := hstop.resolve_right hne
    -- the key is not behind the free slot, and the loop has not passed over it
    have hother (i : Fin T) : (h.entry i).key ≠ op.key := by
      intro heq
      have hslot : probeSlot op.key (distance (hashfunc op.key) i) = i := slotAfter_distance
      rcases Nat.lt_or_ge k (distance (hashfunc op.key) i) with hlt | hge
      · exact hfree i heq k hlt h0
      rcases hge.lt_or_eq with hlt | heq'
      · exact (P _ hlt).2 (by rw [hslot, heq])
      · exact hne (by rw [← heq', hslot, heq])
    have hdist : distance (hashfunc op.key) (probeSlot op.key k : Fin T) = k :=
      distance_slotAfter hk
    refine ⟨(S.insert hkey h0 hother fun j hj => ?_).setUsed _, HashTable.Intact.setUsed hI _⟩
    exact .inl (P j (hdist ▸ hj)).1

end CS330
