import CS330.HashTable.Refinement
import Mathlib.Data.Nat.Find

/-! # Probe sequences

A probe visits the slots from the hash slot of the key on until `Probes` fails. -/

namespace CS330

variable {T n j : Nat} [NeZero T] {h h' : HashTable T} {m m' : KvMap} {i : Fin T} {op : Operation}
  {key : BitVec 64}

/-- The slot that a probe for `key` visits after `j` steps. -/
def probeSlot (key : BitVec 64) (j : Nat) : Fin T := slotAfter (hashfunc key) j

theorem probeSlot_zero : (probeSlot key 0 : Fin T) = hashfunc key := slotAfter_zero

theorem probeSlot_succ : (probeSlot key (j + 1) : Fin T) = probeSlot key j + 1 := slotAfter_succ

theorem exists_probeSlot (key : BitVec 64) (i : Fin T) : ∃ j < T, probeSlot key j = i :=
  ⟨_, distance_lt, slotAfter_distance⟩

theorem probeSlot_eq_hashfunc (hj : j < T) :
    (probeSlot key j : Fin T) = hashfunc key ↔ j = 0 := by
  constructor
  · intro heq
    have h0 : distance (hashfunc key : Fin T) (probeSlot key j) = j := distance_slotAfter hj
    rw [heq, distance, if_pos le_rfl, Nat.sub_self] at h0
    exact h0.symm
  · rintro rfl
    exact probeSlot_zero

/-- A probe is at its end in the last slot of the round, unless the hash value is 0. -/
theorem atEnd_iff (hT : T < 2 ^ 32) (hj : j < T) :
    AtEnd key (probeSlot key j : Fin T) ↔ (hashfunc key : Fin T).val ≠ 0 ∧ j + 1 = T := by
  have hlt := (probeSlot key j : Fin T).isLt
  by_cases h0 : (hashfunc key : Fin T).val = 0
  · refine iff_of_false (fun hend => ?_) (fun hend => hend.1 h0)
    rw [AtEnd, h0] at hend
    unfold u32 at hend
    omega
  · have hpred : u32 ((hashfunc key : Fin T).val - 1) = (hashfunc key : Fin T).val - 1 := by
      have := (hashfunc key : Fin T).isLt
      unfold u32
      omega
    rw [AtEnd, hpred, probeSlot, val_slotAfter_eq_pred h0 hj, and_iff_right h0]

/-- The probe for `key` stops after `n` steps. -/
structure ProbeEnds (h : HashTable T) (key : BitVec 64) (n : Nat) : Prop where
  lt : n < T
  before : ∀ j < n, h.Probes key (probeSlot key j)
  stops : ¬h.Probes key (probeSlot key n)

/-- A probe stops at a slot that was never used, at the key or at the end of the round. -/
theorem exists_probeEnds (hT : T < 2 ^ 32) (hstop : (∃ i, ¬h.Taken i) ∨
    (∃ i, (h.entry i).key = key) ∨ (hashfunc key : Fin T).val ≠ 0) : ∃ n, ProbeEnds h key n := by
  have hex : ∃ j, j < T ∧ ¬h.Probes key (probeSlot key j) := by
    rcases hstop with ⟨i, hi⟩ | ⟨i, hi⟩ | h0
    · obtain ⟨j, hj, rfl⟩ := exists_probeSlot key i
      exact ⟨j, hj, fun hp => hi hp.1⟩
    · obtain ⟨j, hj, rfl⟩ := exists_probeSlot key i
      exact ⟨j, hj, fun hp => hp.2.1 hi⟩
    · have hpos : 0 < T := Nat.pos_of_ne_zero (NeZero.ne T)
      exact ⟨T - 1, by omega, fun hp => hp.2.2 ((atEnd_iff hT (by omega)).2 ⟨h0, by omega⟩)⟩
  classical
  obtain ⟨hlt, hnot⟩ := Nat.find_spec hex
  refine ⟨Nat.find hex, hlt, fun j hj => ?_, hnot⟩
  by_contra hp
  exact Nat.find_min hex hj ⟨by omega, hp⟩

/-- Where it does not stop it goes round forever. -/
theorem probes_forever (htaken : ∀ i, h.Taken i) (hother : ∀ i, (h.entry i).key ≠ key)
    (h0 : (hashfunc key : Fin T).val = 0) (hT : T < 2 ^ 32) : h.Probes key i := by
  obtain ⟨j, hj, rfl⟩ := exists_probeSlot key i
  exact ⟨htaken _, hother _, fun hend => ((atEnd_iff hT hj).1 hend).1 h0⟩

/-- A probe that stops elsewhere than at the key has not missed it. -/
theorem ProbeEnds.key_ne (E : ProbeEnds h key n) (S : Stores h m) (hT : T < 2 ^ 32)
    (hkey : key ≠ 0) (hne : (h.entry (probeSlot key n)).key ≠ key) (i : Fin T) :
    (h.entry i).key ≠ key := by
  rintro rfl
  have hpath := S.path i hkey
  have hslot : probeSlot (h.entry i).key (distance (hashfunc (h.entry i).key) i) = i :=
    slotAfter_distance
  have hd : distance (hashfunc (h.entry i).key) i < T := distance_lt
  rcases lt_trichotomy (distance (hashfunc (h.entry i).key) i) n with hlt | heq | hgt
  · exact (E.before _ hlt).2.1 (by rw [hslot])
  · exact hne (by rw [← heq, hslot])
  · -- the slot it stopped at lies on the path to the key, so it was not free
    refine E.stops ⟨hpath n hgt, hne, fun hend => ?_⟩
    have := ((atEnd_iff hT E.lt).1 hend).2
    omega

/-- A loop over the slots that goes on while `Probes` holds gets to where the probe ends. -/
theorem ProbeEnds.calls {ρ : Type*} {body : Fin T → Outcome (Fin T) ρ} (E : ProbeEnds h key n)
    (hcall : ∀ ctr, h.Probes key ctr → body ctr = .call (ctr + 1)) :
    Calls body n (hashfunc key) (probeSlot key n) := by
  have hrow : Calls body n (probeSlot key 0) (probeSlot key n) :=
    .row (f := probeSlot key) fun j hj => by rw [hcall _ (E.before j hj), probeSlot_succ]
  rwa [probeSlot_zero] at hrow

theorem lookupBody_of_probes (hI : h.Intact) (hp : h.Probes op.key i) :
    lookupBody h op i = .call (i + 1) := by
  rw [lookupBody, if_neg (not_not.2 hI), if_pos hp]

theorem lookupBody_of_not_probes (hI : h.Intact) (hp : ¬h.Probes op.key i) :
    lookupBody h op i =
      .ret (if (h.entry i).key = op.key then
        (0, { op with datalen := (h.entry i).datalen, data := (h.entry i).data })
      else (-1, op)) := by
  rw [lookupBody, if_neg (not_not.2 hI), if_neg hp]
  split <;> rfl

theorem purgeKeyBody_of_probes (hI : h.Intact) (hp : h.Probes op.key i) :
    purgeKeyBody h op i = .call (i + 1) := by
  rw [purgeKeyBody, if_neg (not_not.2 hI), if_pos hp]

theorem purgeKeyBody_of_not_probes (hI : h.Intact) (hp : ¬h.Probes op.key i) :
    purgeKeyBody h op i =
      .ret (if (h.entry i).key = op.key then (0, (h.setEntry i ⟨-1, 0, 0, 0⟩).addUsed (-1))
      else (-1, h)) := by
  rw [purgeKeyBody, if_neg (not_not.2 hI), if_neg hp]
  split <;> rfl

theorem returns_lookup_iff {r} (hI : h.Intact) (E : ProbeEnds h op.key n) :
    Returns (lookupBody h op) (hashfunc op.key) r ↔
      r = if (h.entry (probeSlot op.key n)).key = op.key then
          (0, { op with
            datalen := (h.entry (probeSlot op.key n)).datalen
            data := (h.entry (probeSlot op.key n)).data })
        else (-1, op) := by
  rw [(E.calls fun ctr => lookupBody_of_probes hI).returns_congr]
  exact Returns.ret_iff (lookupBody_of_not_probes hI E.stops)

theorem returns_purgeKey_iff {r} (hI : h.Intact) (E : ProbeEnds h op.key n) :
    Returns (purgeKeyBody h op) (hashfunc op.key) r ↔
      r = if (h.entry (probeSlot op.key n)).key = op.key then
          (0, (h.setEntry (probeSlot op.key n) ⟨-1, 0, 0, 0⟩).addUsed (-1))
        else (-1, h) := by
  rw [(E.calls fun ctr => purgeKeyBody_of_probes hI).returns_congr]
  exact Returns.ret_iff (purgeKeyBody_of_not_probes hI E.stops)

/-! ## The two loops of `insert_update` -/

/-- The first loop gets to where the probe ends. -/
theorem calls_insertUpdate_first (hI : h.Intact) (hused : h.used < T) (hkey : op.key ≠ 0)
    (E : ProbeEnds h op.key n) :
    Calls (insertUpdateBody h op) (1 + n) .start (.first (probeSlot op.key n)) := by
  have hstart : insertUpdateBody h op .start = .call (.first (probeSlot op.key 0)) := by
    rw [probeSlot_zero, insertUpdateBody, if_neg (not_not.2 hI), if_neg (not_not.2 hused),
      if_neg hkey]
  have hrow : Calls (insertUpdateBody h op) n (.first (probeSlot op.key 0))
      (.first (probeSlot op.key n)) :=
    .row (f := fun j => InsertPc.first (probeSlot op.key j)) fun j hj => by
      rw [insertUpdateBody, if_pos (E.before j hj), probeSlot_succ]
  exact (Calls.single hstart).trans hrow

theorem insertUpdateBody_first_of_atEnd (E : ProbeEnds h op.key n)
    (hend : AtEnd op.key (probeSlot op.key n : Fin T)) :
    insertUpdateBody h op (.first (probeSlot op.key n)) =
      .call (.second (hashfunc op.key) (probeSlot op.key n)) := by
  rw [insertUpdateBody, if_neg E.stops, if_pos hend]

theorem insertUpdateBody_second_of_stop {ctr entry : Fin T}
    (hstop : (h.entry entry).key = 0 ∨ (h.entry entry).key = op.key ∨ AtEnd op.key ctr) :
    insertUpdateBody h op (.second ctr entry) = .ret (0, insertAt h op entry) := by
  rw [insertUpdateBody, if_neg]
  rintro ⟨h0, hne, hend⟩
  exact hstop.elim h0 (·.elim hne hend)

/-- The first loop ends at the key or at a free slot: that is the slot that is written. -/
theorem calls_insertUpdate (hI : h.Intact) (hused : h.used < T) (hkey : op.key ≠ 0)
    (E : ProbeEnds h op.key n) (hstop : (h.entry (probeSlot op.key n)).key = 0 ∨
      (h.entry (probeSlot op.key n)).key = op.key) :
    ∃ k ≤ 2 + n, ∃ pc, Calls (insertUpdateBody h op) k .start pc ∧
      insertUpdateBody h op pc = .ret (0, insertAt h op (probeSlot op.key n)) := by
  have hfirst := calls_insertUpdate_first hI hused hkey E
  by_cases hend : AtEnd op.key (probeSlot op.key n : Fin T)
  · refine ⟨_, ?_, _, hfirst.trans (.single (insertUpdateBody_first_of_atEnd E hend)),
      insertUpdateBody_second_of_stop (hstop.imp_right .inl)⟩
    omega
  · refine ⟨_, ?_, _, hfirst, ?_⟩
    · omega
    · rw [insertUpdateBody, if_neg E.stops, if_neg hend]

theorem returns_insertUpdate_iff {r} (hI : h.Intact) (hused : h.used < T) (hkey : op.key ≠ 0)
    (E : ProbeEnds h op.key n) (hstop : (h.entry (probeSlot op.key n)).key = 0 ∨
      (h.entry (probeSlot op.key n)).key = op.key) :
    Returns (insertUpdateBody h op) .start r ↔ r = (0, insertAt h op (probeSlot op.key n)) := by
  obtain ⟨k, -, pc, hcalls, hret⟩ := calls_insertUpdate hI hused hkey E hstop
  rw [hcalls.returns_congr]
  exact Returns.ret_iff hret

/-- The first loop ends at another key at the end of the round: the second loop starts one slot
behind the hash slot and stops at the first slot without a key, or at the end of the round. -/
theorem calls_insertUpdate_round (hT : T < 2 ^ 32) (hI : h.Intact) (hused : h.used < T)
    (hkey : op.key ≠ 0) (E : ProbeEnds h op.key n)
    (hend : AtEnd op.key (probeSlot op.key n : Fin T))
    (h0 : (h.entry (probeSlot op.key n)).key ≠ 0) (hother : ∀ i, (h.entry i).key ≠ op.key) :
    ∃ k, 0 < k ∧ k < T ∧ (∀ j < k, 0 < j → (h.entry (probeSlot op.key j)).key ≠ 0) ∧
      ((h.entry (probeSlot op.key k)).key = 0 ∨ k + 1 = T) ∧
      Calls (insertUpdateBody h op) (2 + n + k) .start
        (.second (probeSlot op.key k) (probeSlot op.key k)) ∧
      insertUpdateBody h op (.second (probeSlot op.key k) (probeSlot op.key k)) =
        .ret (0, insertAt h op (probeSlot op.key k)) := by
  obtain ⟨hhash, hn⟩ := (atEnd_iff hT E.lt).1 hend
  have hlt := (hashfunc op.key : Fin T).isLt
  have hex : ∃ k, 0 < k ∧ k < T ∧ ((h.entry (probeSlot op.key k)).key = 0 ∨ k + 1 = T) :=
    ⟨T - 1, by omega, by omega, .inr (by omega)⟩
  classical
  obtain ⟨hpos, hk, hstop⟩ := Nat.find_spec hex
  have hgo : ∀ j < Nat.find hex, 0 < j →
      (h.entry (probeSlot op.key j)).key ≠ 0 ∧ ¬AtEnd op.key (probeSlot op.key j : Fin T) := by
    intro j hj hj0
    have hnot := Nat.find_min hex hj
    exact ⟨fun h0 => hnot ⟨hj0, by omega, .inl h0⟩,
      fun hend => hnot ⟨hj0, by omega, .inr ((atEnd_iff hT (by omega)).1 hend).2⟩⟩
  generalize Nat.find hex = k at hpos hk hstop hgo
  refine ⟨k, hpos, hk, fun j hj hj0 => (hgo j hj hj0).1, hstop, ?_, ?_⟩
  · have hcall {j : Nat} {entry : Fin T} (h0 : (h.entry entry).key ≠ 0)
        (hgo : ¬AtEnd op.key (probeSlot op.key j : Fin T)) :
        insertUpdateBody h op (.second (probeSlot op.key j) entry) =
          .call (.second (probeSlot op.key (j + 1)) (probeSlot op.key (j + 1))) := by
      rw [insertUpdateBody, if_pos ⟨h0, hother _, hgo⟩, probeSlot_succ]
    have hturn := insertUpdateBody_first_of_atEnd E hend
    rw [← probeSlot_zero] at hturn
    have hskip := hcall h0 (j := 0) fun hend => by
      have := ((atEnd_iff hT (by omega)).1 hend).2
      omega
    have hrow := Calls.row (k := k - 1)
      (f := fun j => InsertPc.second (probeSlot op.key (j + 1)) (probeSlot op.key (j + 1)))
      fun j hj =>
        have hgo := hgo (j + 1) (by omega) (by omega)
        hcall hgo.1 hgo.2
    rw [Nat.sub_add_cancel hpos] at hrow
    have hcalls := (calls_insertUpdate_first hI hused hkey E).trans
      (.call hturn (.call hskip hrow))
    have hcount : 1 + n + (k - 1 + 1 + 1) = 2 + n + k := by omega
    rwa [hcount] at hcalls
  · exact insertUpdateBody_second_of_stop
      (hstop.imp_right fun hk => .inr ((atEnd_iff hT (by omega)).2 ⟨hhash, hk⟩))

end CS330
