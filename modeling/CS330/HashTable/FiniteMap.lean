import CS330.HashTable.Probing

/-! # The table as a finite map

An operation that `Settles` finds its key or a slot that it may take. From the empty table on such
operations return, and they do what the same operations on a finite map do. -/

namespace CS330

variable {T n k : Nat} [NeZero T] {h h' : HashTable T} {m m' : KvMap} {i : Fin T}
  {op op' : Operation} {ret : Int} {call : HashCall} {calls : List HashCall}

/-- The table stores the map and counts its keys. -/
structure Refines (h : HashTable T) (m : KvMap) : Prop extends Stores h m where
  counted : h.usedWord.toNat = h.stored

/-- A key other than 0, and room for one more key before a `PUT`. -/
def HashTable.Admits (h : HashTable T) (op : Operation) : Prop :=
  op.key ≠ 0 ∧ (op.opType = .put → h.stored < T)

/-- There is a slot that was never used, or the key is stored, or the hash value is not 0 and a
`PUT` finds a free slot behind its hash slot. -/
def HashTable.Settles (h : HashTable T) (op : Operation) : Prop :=
  (∃ i, ¬h.Taken i) ∨ (∃ i, (h.entry i).key = op.key) ∨
    (hashfunc op.key : Fin T).val ≠ 0 ∧
      (op.opType = .put → ∃ i ≠ hashfunc op.key, (h.entry i).key = 0)

/-- What an operation that does not settle finds: no slot that was never used, not its key, and a
`PUT` no free slot behind its hash slot. -/
theorem HashTable.not_settles (hnot : ¬h.Settles op) :
    (∀ i, h.Taken i) ∧ (∀ i, (h.entry i).key ≠ op.key) ∧
      ((hashfunc op.key : Fin T).val ≠ 0 → op.opType = .put ∧
        ∀ i ≠ hashfunc op.key, (h.entry i).key ≠ 0) := by
  simpa [Settles, not_or] using hnot

theorem HashTable.Settles.exists_probeEnds (hok : h.Settles op) (hT : T < 2 ^ 32) :
    ∃ n, ProbeEnds h op.key n :=
  CS330.exists_probeEnds hT (hok.imp_right (.imp_right And.left))

/-- When the first loop has gone round to another key, then what is left of `Settles` is a free
slot for the second one. -/
theorem ProbeEnds.exists_free (E : ProbeEnds h op.key n) (hT : T < 2 ^ 32)
    (hend : AtEnd op.key (probeSlot op.key n : Fin T))
    (h0 : (h.entry (probeSlot op.key n)).key ≠ 0) (hother : ∀ i, (h.entry i).key ≠ op.key)
    (hop : op.opType = .put) (hok : h.Settles op) :
    ∃ j, 0 < j ∧ j < n ∧ (h.entry (probeSlot op.key j)).key = 0 := by
  obtain ⟨hhash, hn⟩ := (atEnd_iff hT E.lt).1 hend
  have hfree : ∃ i ≠ hashfunc op.key, (h.entry i).key = 0 := by
    rcases hok with ⟨i, hi⟩ | ⟨i, hi⟩ | ⟨-, hfree⟩
    · obtain ⟨j, hj, rfl⟩ := exists_probeSlot op.key i
      rcases Nat.lt_succ_iff_lt_or_eq.1 (hn ▸ hj) with hlt | rfl
      · exact (hi (E.before j hlt).1).elim
      · exact (hi (.inl h0)).elim
    · exact (hother i hi).elim
    · exact hfree hop
  obtain ⟨i, hne, hi⟩ := hfree
  obtain ⟨j, hj, rfl⟩ := exists_probeSlot op.key i
  have hpos : j ≠ 0 := fun hj0 => hne (hj0 ▸ probeSlot_zero)
  have hjn : j ≠ n := fun hjn => h0 (hjn ▸ hi)
  exact ⟨j, by omega, by omega, hi⟩

namespace Refines

theorem intact (R : Refines h m) (hT : T < 2 ^ 32) : h.Intact := by
  have := h.stored_le
  unfold HashTable.Intact
  rw [R.counted]
  omega

theorem used_eq (R : Refines h m) (hT : T < 2 ^ 32) : h.used = h.stored := by
  rw [HashTable.used, BitVec.toNat_setWidth, R.counted]
  have := h.stored_le
  omega

theorem init : Refines (initHashtable : HashTable T) fun _ => none :=
  ⟨.init, by simp [initHashtable, HashTable.stored, Vector.countP_replicate]⟩

/-- The slots where `insert_update` may end. -/
theorem insertAt (R : Refines h m) (hT : T < 2 ^ 32) (hkey : op.key ≠ 0) (hk : k < T)
    (hslot : (h.entry (probeSlot op.key k)).key = op.key ∨
      (h.entry (probeSlot op.key k)).key = 0 ∧ (∀ i, (h.entry i).key ≠ op.key) ∧
        ∀ j < k, h.Taken (probeSlot op.key j)) :
    Refines (insertAt h op (probeSlot op.key k))
      (Function.update m op.key (some (op.datalen, op.data))) := by
  have hdist : distance (hashfunc op.key) (probeSlot op.key k : Fin T) = k := distance_slotAfter hk
  generalize (probeSlot op.key k : Fin T) = i at hslot hdist ⊢
  have hle := h.stored_le
  unfold CS330.insertAt
  rcases hslot with heq | ⟨h0, hother, htaken⟩
  · have hne : (h.entry i).key ≠ 0 := by
      rw [heq]
      exact hkey
    have hpos := h.stored_pos hne
    rw [if_pos heq]
    refine ⟨?_, ?_⟩
    · exact R.toStores.update hkey heq
    · rw [h.stored_setEntry, if_neg hne]
      exact R.counted.trans (by omega)
  · rw [if_neg (hother i)]
    have S := R.toStores.insert hkey h0 hother fun j hj => htaken j (hdist ▸ hj)
    have hcount := R.counted
    refine ⟨S.addUsed _, ?_⟩
    rw [HashTable.usedWord_addUsed_one, HashTable.stored_addUsed, h.stored_setEntry, if_pos h0,
      if_neg hkey]
    · change h.usedWord.toNat + 1 = _
      omega
    · change h.usedWord.toNat + 1 < _
      omega

/-- The slot where `purge_key` finds its key. -/
theorem erase (R : Refines h m) (hkey : (h.entry i).key ≠ 0) :
    Refines ((h.setEntry i ⟨-1, 0, 0, 0⟩).addUsed (-1))
      (Function.update m (h.entry i).key none) := by
  have S := R.toStores.erase i
  have hpos := h.stored_pos hkey
  have hcount := R.counted
  refine ⟨S.addUsed _, ?_⟩
  rw [HashTable.usedWord_addUsed_neg_one, HashTable.stored_addUsed, h.stored_setEntry,
    if_neg hkey, if_pos (show (⟨-1, 0, 0, 0⟩ : HashEntry).key = 0 from rfl)]
  · change h.usedWord.toNat - 1 = _
    omega
  · change 0 < h.usedWord.toNat
    omega

/-! ## The three operations -/

theorem lookup (R : Refines h m) (hT : T < 2 ^ 32) (hkey : op.key ≠ 0) (hop : op.opType = .get)
    (hok : h.Settles op) : ∃ ret op', KvStep m ⟨op, ret, op'⟩ m ∧
      ∀ r, Returns (lookupBody h op) (hashfunc op.key) r ↔ r = (ret, op') := by
  obtain ⟨n, E⟩ := hok.exists_probeEnds hT
  have hret r := returns_lookup_iff (r := r) (R.intact hT) E
  split at hret
  next heq =>
    refine ⟨_, _, .hit hop ?_, hret⟩
    have hm := R.sound (probeSlot op.key n) (by rwa [heq])
    rwa [heq] at hm
  next hne => exact ⟨_, _, .miss hop (R.mapsTo_none (E.key_ne R.toStores hT hkey hne)), hret⟩

theorem purgeKey (R : Refines h m) (hT : T < 2 ^ 32) (hkey : op.key ≠ 0) (hop : op.opType = .del)
    (hok : h.Settles op) : ∃ ret h' m', KvStep m ⟨op, ret, op⟩ m' ∧ Refines h' m' ∧
      ∀ r, Returns (purgeKeyBody h op) (hashfunc op.key) r ↔ r = (ret, h') := by
  obtain ⟨n, E⟩ := hok.exists_probeEnds hT
  have hret r := returns_purgeKey_iff (r := r) (R.intact hT) E
  split at hret
  next heq =>
    have hne : (h.entry (probeSlot op.key n)).key ≠ 0 := by rwa [heq]
    have hm := R.sound _ hne
    rw [heq] at hm
    have R' := R.erase hne
    rw [heq] at R'
    exact ⟨_, _, _, .delete hop (by simp [hm]), R', hret⟩
  next hne =>
    exact ⟨_, _, _, .bogus hop (R.mapsTo_none (E.key_ne R.toStores hT hkey hne)), R, hret⟩

theorem insertUpdate (R : Refines h m) (hT : T < 2 ^ 32) (hkey : op.key ≠ 0)
    (hop : op.opType = .put) (hroom : h.stored < T) (hok : h.Settles op) :
    ∃ ret h' m', KvStep m ⟨op, ret, op⟩ m' ∧ Refines h' m' ∧
      ∀ r, Returns (insertUpdateBody h op) .start r ↔ r = (ret, h') := by
  obtain ⟨n, E⟩ := hok.exists_probeEnds hT
  have hused : h.used < T := by rwa [R.used_eq hT]
  by_cases heq : (h.entry (probeSlot op.key n)).key = op.key
  · exact ⟨0, _, _, .put hop, R.insertAt hT hkey E.lt (.inl heq),
      fun r => returns_insertUpdate_iff (R.intact hT) hused hkey E (.inr heq)⟩
  have hother := E.key_ne R.toStores hT hkey heq
  by_cases h0 : (h.entry (probeSlot op.key n)).key = 0
  · exact ⟨0, _, _, .put hop,
      R.insertAt hT hkey E.lt (.inr ⟨h0, hother, fun j hj => (E.before j hj).1⟩),
      fun r => returns_insertUpdate_iff (R.intact hT) hused hkey E (.inl h0)⟩
  -- the first loop has gone round, so a free slot behind the hash slot is left to be found
  have hend : AtEnd op.key (probeSlot op.key n : Fin T) := by
    by_contra hend
    exact E.stops ⟨.inl h0, heq, hend⟩
  obtain ⟨k, -, hk, hgo, hstop, hcalls, hret⟩ :=
    calls_insertUpdate_round hT (R.intact hT) hused hkey E hend h0 hother
  obtain ⟨j, hpos, hjn, hj⟩ := E.exists_free hT hend h0 hother hop hok
  have hkj : k ≤ j := Nat.not_lt.1 fun hjk => hgo j hjk hpos hj
  have hlt := E.lt
  have hk0 : (h.entry (probeSlot op.key k)).key = 0 := hstop.resolve_right (by omega)
  exact ⟨0, _, _, .put hop,
    R.insertAt hT hkey hk (.inr ⟨hk0, hother, fun j hj => (E.before j (by omega)).1⟩),
    fun r => hcalls.returns_congr.trans (Returns.ret_iff hret)⟩

/-- An operation that settles has one outcome, and it is that of the finite map. -/
theorem exists_step (R : Refines h m) (hT : T < 2 ^ 32) (hadm : h.Admits op)
    (hok : h.Settles op) : ∃ ret op' h' m', KvStep m ⟨op, ret, op'⟩ m' ∧ Refines h' m' ∧
      ∀ ret₁ op₁ h₁, HashStep h ⟨op, ret₁, op₁⟩ h₁ ↔ ret₁ = ret ∧ op₁ = op' ∧ h₁ = h' := by
  cases hop : op.opType with
  | get =>
    obtain ⟨ret, op', hk, hret⟩ := R.lookup hT hadm.1 hop hok
    refine ⟨ret, op', h, m, hk, R, fun ret₁ op₁ h₁ => ?_⟩
    rw [hashStep_get_iff hop, hret, Prod.mk.injEq, and_assoc]
  | put =>
    obtain ⟨ret, h', m', hk, R', hret⟩ := R.insertUpdate hT hadm.1 hop (hadm.2 hop) hok
    refine ⟨ret, op, h', m', hk, R', fun ret₁ op₁ h₁ => ?_⟩
    rw [hashStep_put_iff hop, hret, Prod.mk.injEq, and_left_comm]
  | del =>
    obtain ⟨ret, h', m', hk, R', hret⟩ := R.purgeKey hT hadm.1 hop hok
    refine ⟨ret, op, h', m', hk, R', fun ret₁ op₁ h₁ => ?_⟩
    rw [hashStep_del_iff hop, hret, Prod.mk.injEq, and_left_comm]

/-- An operation that settles and returns has done what it does on the map. -/
theorem hashStep (R : Refines h m) (hT : T < 2 ^ 32) (hadm : h.Admits call.op)
    (hok : h.Settles call.op) (hs : HashStep h call h') :
    ∃ m', KvStep m call m' ∧ Refines h' m' := by
  obtain ⟨ret, op', h₁, m', hk, R', hret⟩ := R.exists_step hT hadm hok
  obtain ⟨rfl, rfl, rfl⟩ := (hret call.ret call.op' h').1 hs
  exact ⟨m', hk, R'⟩

end Refines

/-! ## Operations that return -/

/-- The assertions of `insert_update` hold when it returns. -/
theorem HashStep.asserted (hs : HashStep h call h') (hop : call.op.opType = .put) :
    h.used < T ∧ call.op.key ≠ 0 := by
  obtain ⟨op, ret, op'⟩ := call
  obtain ⟨-, hret⟩ := (hashStep_put_iff hop).1 hs
  dsimp only
  constructor
  · by_contra hused
    exact Returns.not_stuck (by simp [insertUpdateBody, hused]) hret
  · intro hkey
    exact Returns.not_stuck (by simp [insertUpdateBody, hkey]) hret

theorem HashStep.admits (hs : HashStep h call h') (R : Refines h m) (hT : T < 2 ^ 32)
    (hkey : call.op.key ≠ 0) : h.Admits call.op :=
  ⟨hkey, fun hop => by
    rw [← R.used_eq hT]
    exact (hs.asserted hop).1⟩

/-! ## Operations that do not settle -/

/-- There is a slot that was never used, or one with the key, or the hash value is not 0. -/
def HashTable.Stops (h : HashTable T) (key : BitVec 64) : Prop :=
  (∃ i, ¬h.Taken i) ∨ (∃ i, (h.entry i).key = key) ∨ (hashfunc key : Fin T).val ≠ 0

/-- Without a slot that was never used, a probe for an absent key with hash value 0 never ends. -/
theorem not_hashStep (htaken : ∀ i, h.Taken i) (hother : ∀ i, (h.entry i).key ≠ call.op.key)
    (h0 : (hashfunc call.op.key : Fin T).val = 0) (hT : T < 2 ^ 32) : ¬HashStep h call h' := by
  have hprobes (ctr : Fin T) : h.Probes call.op.key ctr := probes_forever htaken hother h0 hT
  intro hs
  cases hs with
  | lookup _ hr =>
    refine Returns.not_of_trap (P := fun _ => True) trivial (fun {ctr} _ => ?_) hr
    rw [lookupBody]
    split
    · exact .inl rfl
    · exact .inr ⟨ctr + 1, if_pos (hprobes ctr), trivial⟩
  | insertUpdate _ hr =>
    refine Returns.not_of_trap (P := fun pc => ∀ ctr entry, pc ≠ .second ctr entry) (by simp)
      (fun {pc} hpc => ?_) hr
    cases pc with
    | start =>
      rw [insertUpdateBody]
      split
      · exact .inl rfl
      split
      · exact .inl rfl
      split
      · exact .inl rfl
      · exact .inr ⟨_, rfl, by simp⟩
    | first ctr =>
      rw [insertUpdateBody]
      exact .inr ⟨_, if_pos (hprobes ctr), by simp⟩
    | second ctr entry => exact (hpc ctr entry rfl).elim
  | purgeKey _ hr =>
    refine Returns.not_of_trap (P := fun _ => True) trivial (fun {ctr} _ => ?_) hr
    rw [purgeKeyBody]
    split
    · exact .inl rfl
    · exact .inr ⟨ctr + 1, if_pos (hprobes ctr), trivial⟩

/-- An operation that returns has stopped. -/
theorem HashStep.stops (hs : HashStep h call h') (hT : T < 2 ^ 32) : h.Stops call.op.key := by
  by_contra hnot
  simp only [HashTable.Stops, not_or, not_exists, not_not] at hnot
  exact not_hashStep hnot.1 hnot.2.1 hnot.2.2 hT hs

/-- Only a `PUT` returns without settling. Its hash value is not 0, and it finds no free slot behind
its hash slot. -/
theorem HashStep.not_settles (hs : HashStep h call h') (hT : T < 2 ^ 32)
    (hnot : ¬h.Settles call.op) :
    call.op.opType = .put ∧ (hashfunc call.op.key : Fin T).val ≠ 0 ∧ (∀ i, h.Taken i) ∧
      (∀ i, (h.entry i).key ≠ call.op.key) ∧
        ∀ i ≠ hashfunc call.op.key, (h.entry i).key ≠ 0 := by
  obtain ⟨htaken, hother, hround⟩ := HashTable.not_settles hnot
  have h0 : (hashfunc call.op.key : Fin T).val ≠ 0 := fun h0 => not_hashStep htaken hother h0 hT hs
  obtain ⟨hop, hfull⟩ := hround h0
  exact ⟨hop, h0, htaken, hother, hfull⟩

/-- The bindings of the table are those of the map. -/
def HashTable.Binds (h : HashTable T) (m : KvMap) : Prop :=
  (∀ i, (h.entry i).key ≠ 0 →
    m (h.entry i).key = some ((h.entry i).datalen, (h.entry i).data)) ∧
  ∀ key, m key ≠ none → ∃ i, (h.entry i).key = key

theorem Stores.binds (S : Stores h m) : h.Binds m :=
  ⟨S.sound, fun key hm => (S.complete key hm).2⟩

/-- An insertion over another key loses that key. -/
theorem Stores.not_binds_insertAt (S : Stores h m) (h0 : (h.entry i).key ≠ 0)
    (hne : (h.entry i).key ≠ op.key) (v : Option (BitVec 32 × BitVec 64)) :
    ¬(insertAt h op i).Binds (Function.update m op.key v) := by
  rintro ⟨-, hcomplete⟩
  rw [insertAt, if_neg hne] at hcomplete
  obtain ⟨j, hj⟩ := hcomplete (h.entry i).key (by
    rw [Function.update_of_ne hne, S.sound i h0]
    exact Option.some_ne_none _)
  rw [HashTable.entry_addUsed] at hj
  by_cases hij : i = j
  · subst hij
    rw [HashTable.entry_setEntry_self] at hj
    exact hne hj.symm
  · rw [HashTable.entry_setEntry_of_ne hij] at hj
    exact hij (S.unique i j h0 hj.symm)

/-- A `PUT` that returns without settling writes over another key. -/
theorem HashStep.insertsOver (hs : HashStep h call h') (R : Refines h m) (hT : T < 2 ^ 32)
    (hkey : call.op.key ≠ 0) (hroom : h.stored < T)
    (hnot : ¬h.Settles call.op) :
    ∃ i, (h.entry i).key ≠ 0 ∧ (h.entry i).key ≠ call.op.key ∧ h' = insertAt h call.op i := by
  obtain ⟨hop, h0, htaken, hother, hfull⟩ := hs.not_settles hT hnot
  obtain ⟨n, E⟩ := exists_probeEnds (h := h) hT (.inr (.inr h0))
  have hend : AtEnd call.op.key (probeSlot call.op.key n : Fin T) := by
    by_contra hend
    exact E.stops ⟨htaken _, hother _, hend⟩
  have hlt := (hashfunc call.op.key : Fin T).isLt
  have hn := ((atEnd_iff hT E.lt).1 hend).2
  have hslot {j : Nat} (hpos : 0 < j) (hj : j < T) :
      (h.entry (probeSlot call.op.key j)).key ≠ 0 :=
    hfull _ fun heq => hpos.ne' ((probeSlot_eq_hashfunc hj).1 heq)
  obtain ⟨k, hpos, hkT, -, -, hcalls, hret⟩ := calls_insertUpdate_round hT (R.intact hT)
    (by rwa [R.used_eq hT]) hkey E hend (hslot (by omega) E.lt) hother
  obtain ⟨-, hr⟩ := (hashStep_put_iff hop).1 hs
  have hresult := (Returns.ret_iff hret).1 (hcalls.returns_congr.1 hr)
  exact ⟨_, hslot hpos hkT, hother _, (Prod.mk.inj hresult).2⟩

/-- A step of the finite map comes from an operation that settles. -/
theorem Refines.settles (R : Refines h m) (hT : T < 2 ^ 32) (hadm : h.Admits call.op)
    (hs : HashStep h call h') (hk : KvStep m call m') (hbinds : h'.Binds m') :
    h.Settles call.op := by
  by_contra hnot
  obtain ⟨hop, -⟩ := hs.not_settles hT hnot
  obtain ⟨i, h0, hne, rfl⟩ := hs.insertsOver R hT hadm.1 (hadm.2 hop) hnot
  cases hk with
  | put => exact R.not_binds_insertAt h0 hne _ hbinds
  | hit hop' | miss hop' | delete hop' | bogus hop' => cases hop.symm.trans hop'

/-! ## Runs -/

/-- Runs of admitted operations that meet `ok` when they are carried out. -/
def HashRun (ok : HashTable T → Operation → Prop) :
    HashTable T → List HashCall → HashTable T → Prop :=
  Trace fun h call h' => h.Admits call.op ∧ ok h call.op ∧ HashStep h call h'

theorem HashRun.refines (hT : T < 2 ^ 32)
    (hrun : HashRun HashTable.Settles (initHashtable : HashTable T) calls h) :
    ∃ m, Trace KvStep (fun _ => none) calls m ∧ Refines h m := by
  refine Trace.simulate hrun Refines.init ?_
  rintro h call h' m R ⟨hadm, hok, hs⟩
  exact R.hashStep hT hadm hok hs

/-- A run of operations that settle is a run of the finite map, whose bindings are in the table
at the end, and the next operation does what it does on the map just when it settles. -/
theorem HashRun.isFiniteMap (hT : T < 2 ^ 32)
    (hrun : HashRun HashTable.Settles (initHashtable : HashTable T) calls h) :
    ∃ m, Trace KvStep (fun _ => none) calls m ∧ h.Binds m ∧
      ∀ op, h.Admits op → (h.Settles op ↔ ∃ ret op' h' m',
        HashStep h ⟨op, ret, op'⟩ h' ∧ KvStep m ⟨op, ret, op'⟩ m' ∧ h'.Binds m') := by
  obtain ⟨m, htrace, R⟩ := hrun.refines hT
  refine ⟨m, htrace, R.binds, fun op hadm => ⟨fun hok => ?_, ?_⟩⟩
  · obtain ⟨ret, op', h', m', hk, R', hret⟩ := R.exists_step hT hadm hok
    exact ⟨ret, op', h', m', (hret _ _ _).2 ⟨rfl, rfl, rfl⟩, hk, R'.binds⟩
  · rintro ⟨ret, op', h', m', hs, hk, hbinds⟩
    exact R.settles hT hadm hs hk hbinds

/-- Keys 3 and 6 have hash value 0 in a table of three slots: key 6 is stored behind key 3 and found
there when key 3 is deleted. -/
def collision : List HashCall :=
  [⟨⟨1, 3, .put, 8, 16⟩, 0, ⟨1, 3, .put, 8, 16⟩⟩, ⟨⟨2, 6, .put, 8, 32⟩, 0, ⟨2, 6, .put, 8, 32⟩⟩,
    ⟨⟨3, 3, .del, 0, 0⟩, 0, ⟨3, 3, .del, 0, 0⟩⟩, ⟨⟨4, 6, .get, 0, 0⟩, 0, ⟨4, 6, .get, 8, 32⟩⟩]

/-- The slot of key 3 stays taken. -/
def collided : HashTable 3 := ⟨1, #v[⟨-1, 0, 0, 0⟩, ⟨2, 8, 6, 32⟩, ⟨0, 0, 0, 0⟩]⟩

theorem collision_run {step : HashTable 3 → HashCall → HashTable 3 → Prop}
    (hstep : ∀ {h call h'}, HashStep h call h' → h.Admits call.op → (∃ i, ¬h.Taken i) →
      step h call h') : Trace step initHashtable collision collided := by
  let h₁ : HashTable 3 := ⟨1, #v[⟨1, 8, 3, 16⟩, ⟨0, 0, 0, 0⟩, ⟨0, 0, 0, 0⟩]⟩
  let h₂ : HashTable 3 := ⟨2, #v[⟨1, 8, 3, 16⟩, ⟨2, 8, 6, 32⟩, ⟨0, 0, 0, 0⟩]⟩
  have hput3 : step initHashtable ⟨⟨1, 3, .put, 8, 16⟩, 0, ⟨1, 3, .put, 8, 16⟩⟩ h₁ :=
    hstep (.insertUpdate rfl (.of_run (n := 2) (by decide))) ⟨by decide, fun _ => by decide⟩
      ⟨2, by decide⟩
  have hput6 : step h₁ ⟨⟨2, 6, .put, 8, 32⟩, 0, ⟨2, 6, .put, 8, 32⟩⟩ h₂ :=
    hstep (.insertUpdate rfl (.of_run (n := 3) (by decide))) ⟨by decide, fun _ => by decide⟩
      ⟨2, by decide⟩
  have hdel3 : step h₂ ⟨⟨3, 3, .del, 0, 0⟩, 0, ⟨3, 3, .del, 0, 0⟩⟩ collided :=
    hstep (.purgeKey rfl (.of_run (n := 1) (by decide))) ⟨by decide, fun _ => by decide⟩
      ⟨2, by decide⟩
  have hget6 : step collided ⟨⟨4, 6, .get, 0, 0⟩, 0, ⟨4, 6, .get, 8, 32⟩⟩ collided :=
    hstep (.lookup rfl (.of_run (n := 3) (by decide))) ⟨by decide, fun _ => by decide⟩
      ⟨2, by decide⟩
  exact .cons hput3 (.cons hput6 (.cons hdel3 (.cons hget6 .nil)))

/-- The next `PUT` of key 9, which has hash value 0 as well, settles. -/
theorem HashRun.isFiniteMap_of_collision :
    HashRun HashTable.Settles initHashtable collision collided ∧ ∃ m : KvMap,
      Trace KvStep (fun _ => none) collision m ∧ collided.Binds m ∧
        ∃ ret op' h' m', HashStep collided ⟨⟨5, 9, .put, 8, 48⟩, ret, op'⟩ h' ∧
          KvStep m ⟨⟨5, 9, .put, 8, 48⟩, ret, op'⟩ m' ∧ h'.Binds m' := by
  have hrun : HashRun HashTable.Settles initHashtable collision collided :=
    collision_run fun hs hadm hfree => ⟨hadm, .inl hfree, hs⟩
  obtain ⟨m, htrace, hbinds, hnext⟩ := hrun.isFiniteMap (by decide)
  have hadm : collided.Admits ⟨5, 9, .put, 8, 48⟩ := ⟨by decide, fun _ => by decide⟩
  exact ⟨hrun, m, htrace, hbinds, (hnext _ hadm).1 (.inl ⟨2, by decide⟩)⟩

/-- Two slots: key 2 is stored in slot 0, key 1 is stored in slot 1 and deleted. Key 3 has hash
value 1, its probe ends in slot 0, and it is written there although slot 1 is free. -/
theorem not_hash_isFiniteMap : ¬∀ (T : Nat) [NeZero T] (calls : List HashCall) (h : HashTable T),
    T < 2 ^ 32 → HashRun (fun _ _ => True) initHashtable calls h →
      ∃ m, Trace KvStep (fun _ => none) calls m ∧ h.Binds m ∧
        ∀ op, h.Admits op → ∃ ret op' h' m',
          HashStep h ⟨op, ret, op'⟩ h' ∧ KvStep m ⟨op, ret, op'⟩ m' ∧ h'.Binds m' := by
  intro hclaim
  let put2 : Operation := ⟨1, 2, .put, 8, 16⟩
  let put1 : Operation := ⟨2, 1, .put, 8, 32⟩
  let del1 : Operation := ⟨3, 1, .del, 0, 0⟩
  let put3 : Operation := ⟨4, 3, .put, 8, 48⟩
  let h₁ : HashTable 2 := ⟨1, #v[⟨1, 8, 2, 16⟩, ⟨0, 0, 0, 0⟩]⟩
  let h₂ : HashTable 2 := ⟨2, #v[⟨1, 8, 2, 16⟩, ⟨2, 8, 1, 32⟩]⟩
  let h₃ : HashTable 2 := ⟨1, #v[⟨1, 8, 2, 16⟩, ⟨-1, 0, 0, 0⟩]⟩
  let h₄ : HashTable 2 := ⟨2, #v[⟨4, 8, 3, 48⟩, ⟨-1, 0, 0, 0⟩]⟩
  have hput2 : HashStep initHashtable ⟨put2, 0, put2⟩ h₁ :=
    .insertUpdate rfl (.of_run (n := 3) (by decide))
  have hput1 : HashStep h₁ ⟨put1, 0, put1⟩ h₂ :=
    .insertUpdate rfl (.of_run (n := 3) (by decide))
  have hdel1 : HashStep h₂ ⟨del1, 0, del1⟩ h₃ := .purgeKey rfl (.of_run (n := 2) (by decide))
  have hput3 : HashStep h₃ ⟨put3, 0, put3⟩ h₄ :=
    .insertUpdate rfl (.of_run (n := 5) (by decide))
  have hadm {op : Operation} {h : HashTable 2} (hkey : op.key ≠ 0) (hroom : h.stored < 2) :
      h.Admits op := ⟨hkey, fun _ => hroom⟩
  have hrun : HashRun (fun _ _ => True) initHashtable
      ((([] ++ [⟨put2, 0, put2⟩]) ++ [⟨put1, 0, put1⟩]) ++ [⟨del1, 0, del1⟩] ++
        [⟨put3, 0, put3⟩]) h₄ := by
    refine .snoc (.snoc (.snoc (.snoc .nil ⟨?_, trivial, hput2⟩) ⟨?_, trivial, hput1⟩)
      ⟨?_, trivial, hdel1⟩) ⟨?_, trivial, hput3⟩
    · exact hadm (by decide) (by decide)
    · exact hadm (by decide) (by decide)
    · exact ⟨by decide, nofun⟩
    · exact hadm (by decide) (by decide)
  obtain ⟨m, htrace, ⟨-, hbinds⟩, -⟩ := hclaim 2 _ h₄ (by decide) hrun
  have hm : m 2 ≠ none := by
    obtain ⟨m₃, htrace, hk₃⟩ := Trace.snoc_iff.1 htrace
    obtain ⟨m₂, htrace, hk₂⟩ := Trace.snoc_iff.1 htrace
    obtain ⟨m₁, htrace, hk₁⟩ := Trace.snoc_iff.1 htrace
    obtain ⟨m₀, -, hk₀⟩ := Trace.snoc_iff.1 htrace
    rw [hk₃.other (by decide), hk₂.other (by decide), hk₁.other (by decide)]
    exact hk₀.put_eq rfl ▸ Option.some_ne_none _
  obtain ⟨i, hi⟩ := hbinds 2 hm
  revert i
  decide

end CS330
