import CS330.HashTable.Stable
import Mathlib.Data.Fintype.Card

/-! # Counting visits

As long as some slot was never used, no insertion goes round the table. Then a step of an operation
is one of few cases (`VisitCase`), which give what it does to the number of taken slots, to the
number of stored keys and to the counter, and a bound on the visits that are left. -/

namespace CS330

variable {T : Nat} [NeZero T] {h h' : HashTable T} {m : KvMap} {i ctr : Fin T} {entry : HashEntry}
  {op op' : Operation} {pc pc' : VisitPc T} {key : BitVec 64}

/-- A step of an operation on a table with a slot that was never used. -/
inductive VisitCase (h : HashTable T) (op : Operation) :
    VisitPc T → HashTable T → VisitPc T → Prop where
  | scan {pc pc' : VisitPc T} (hpc : pc.answer = none) (hpc' : pc'.answer = none) :
    VisitCase h op pc h pc'
  | done {pc : VisitPc T} {ret : Int} (hpc : pc.answer = none) (hop : op.opType ≠ .put) :
    VisitCase h op pc h (.returned ret)
  | update {pc : VisitPc T} {i : Fin T} {entry : HashEntry} (hpc : pc.answer = none)
    (hop : op.opType = .put) (hi : (h.entry i).key = op.key) (hentry : entry.key = op.key) :
    VisitCase h op pc (h.setEntry i entry) (.returned 0)
  | insert {pc : VisitPc T} {i : Fin T} {entry : HashEntry} (hpc : pc.answer = none)
    (hop : op.opType = .put) (hi : (h.entry i).key = 0) (hentry : entry.key = op.key) :
    VisitCase h op pc (h.setEntry i entry) .insertUsed
  | delete {pc : VisitPc T} {i : Fin T} (hpc : pc.answer = none) (hop : op.opType = .del)
    (hi : (h.entry i).key = op.key) :
    VisitCase h op pc (h.setEntry i ⟨-1, 0, 0, 0⟩) .purgeUsed
  | add : VisitCase h op .insertUsed (h.addUsed 1) (.returned 0)
  | sub : VisitCase h op .purgeUsed (h.addUsed (-1)) (.returned 0)

omit [NeZero T] in
theorem VisitCase.of_writeVisit (hpc : pc.answer = none) (hop : op.opType = .put)
    (hslot : (h.entry i).key ≠ op.key → (h.entry i).key = 0) :
    VisitCase h op pc (writeVisit h op i).1 (writeVisit h op i).2 := by
  rw [writeVisit]
  split
  next heq => exact .update hpc hop heq heq
  next hne => exact .insert hpc hop (hslot hne) rfl

theorem VisitCase.of_insertFirstVisit (hT : T < 2 ^ 32) (hfree : ∃ i, ¬h.Taken i)
    (hop : op.opType = .put) (hp : h.Passed op.key ctr) :
    VisitCase h op (.insertFirst ctr) (insertFirstVisit h op ctr).1
      (insertFirstVisit h op ctr).2 := by
  obtain ⟨free, hfree⟩ := hfree
  rw [insertFirstVisit]
  split
  · exact .scan rfl rfl
  next hstop =>
    have hslot (hne : (h.entry ctr).key ≠ op.key) : (h.entry ctr).key = 0 := by
      by_contra h0
      exact hfree (hp.round hT hstop h0 hne free).1
    split
    · rw [insertSecondVisit]
      split
      next hgo => exact (hgo.1 (hslot hgo.2.1)).elim
      next => exact .of_writeVisit rfl hop hslot
    · exact .of_writeVisit rfl hop hslot

theorem VisitCase.of_visit (K : h.Knows op pc) (hT : T < 2 ^ 32) (hfree : ∃ i, ¬h.Taken i)
    (hv : visit h op pc = some (h', op', pc')) : VisitCase h op pc h' pc' := by
  replace hv := next_of_visit hv
  cases pc with
  | call =>
    rw [VisitPc.next] at hv
    split at hv
    · cases hv
      exact .scan rfl rfl
    · split at hv <;> cases hv
      exact .scan rfl rfl
    · cases hv
      exact .scan rfl rfl
  | lookup ctr =>
    obtain ⟨rfl, heq⟩ := Prod.mk.inj (Option.some.inj hv)
    have hop : op.opType ≠ .put := by simp [K.1]
    have hpc : pc' = (lookupVisit h op ctr).2 := by rw [heq]
    rw [hpc, lookupVisit]
    split
    · exact .scan rfl rfl
    split <;> exact .done rfl hop
  | insertFirst ctr =>
    cases hv
    exact .of_insertFirstVisit hT hfree K.1 K.2
  | insertSecond ctr =>
    obtain ⟨free, hfree⟩ := hfree
    exact (hfree (K.2 free).1).elim
  | purge ctr =>
    cases hv
    refine .scan rfl ?_
    rw [purgeVisit]
    split <;> rfl
  | purgeLocked ctr =>
    cases hv
    rw [purgeLockedVisit]
    split
    next heq => exact .delete rfl K.1 heq
    next => exact .done rfl (by simp [K.1])
  | insertUsed =>
    obtain ⟨rfl, heq⟩ := Prod.mk.inj (Option.some.inj hv)
    obtain ⟨-, rfl⟩ := Prod.mk.inj heq
    exact .add
  | purgeUsed =>
    obtain ⟨rfl, heq⟩ := Prod.mk.inj (Option.some.inj hv)
    obtain ⟨-, rfl⟩ := Prod.mk.inj heq
    exact .sub
  | returned => cases hv

omit [NeZero T] in
/-- The keys of other operations stay stored. -/
theorem VisitCase.keeps (hc : VisitCase h op pc h' pc') (hkey : (h.entry i).key ≠ 0)
    (hne : (h.entry i).key ≠ op.key) : (h'.entry i).key = (h.entry i).key := by
  cases hc with
  | scan | done => rfl
  | add | sub => rw [HashTable.entry_addUsed]
  | @update _ j _ _ _ hj | @delete _ j _ _ hj =>
    have hij : j ≠ i := fun heq => hne (heq ▸ hj)
    rw [HashTable.entry_setEntry_of_ne hij]
  | @insert _ j _ _ _ hj =>
    have hij : j ≠ i := fun heq => hkey (heq ▸ hj)
    rw [HashTable.entry_setEntry_of_ne hij]

omit [NeZero T] in
/-- The key of an operation is stored from the write on until it is counted. -/
theorem VisitCase.stored (hc : VisitCase h op pc h' .insertUsed) :
    ∃ i, (h'.entry i).key = op.key := by
  cases hc with
  | scan _ hpc' => cases hpc'
  | @insert _ i _ _ _ _ hentry => exact ⟨i, by simpa using hentry⟩

/-! ## Slots and the counter -/

/-- The number of slots that are not unused. -/
def HashTable.takenCount (h : HashTable T) : Nat := (Finset.univ.filter fun i => h.Taken i).card

/-- A `PUT` that has not written its slot. -/
def VisitPc.unwritten (op : Operation) (pc : VisitPc T) : Nat :=
  if op.opType = .put ∧ pc.answer = none then 1 else 0

/-- A key is stored that the counter does not count yet. -/
def VisitPc.adds : VisitPc T → Nat
  | .insertUsed => 1
  | _ => 0

/-- A key is deleted that the counter still counts. -/
def VisitPc.subs : VisitPc T → Nat
  | .purgeUsed => 1
  | _ => 0

omit [NeZero T] in
theorem VisitPc.adds_of_answer (hpc : pc.answer = none) : pc.adds = 0 := by
  cases pc with
  | insertUsed => cases hpc
  | _ => rfl

omit [NeZero T] in
theorem VisitPc.subs_of_answer (hpc : pc.answer = none) : pc.subs = 0 := by
  cases pc with
  | purgeUsed => cases hpc
  | _ => rfl

section
omit [NeZero T]

theorem HashTable.takenCount_setEntry_le :
    (h.setEntry i entry).takenCount ≤ h.takenCount + 1 := by
  have hsubset : (Finset.univ.filter fun j => (h.setEntry i entry).Taken j) ⊆
      insert i (Finset.univ.filter fun j => h.Taken j) := by
    intro j hj
    by_cases hij : i = j
    · exact hij ▸ Finset.mem_insert_self ..
    · have hold := (h.taken_setEntry_of_ne hij).1 (Finset.mem_filter.1 hj).2
      exact Finset.mem_insert_of_mem (Finset.mem_filter.2 ⟨Finset.mem_univ j, hold⟩)
  exact (Finset.card_le_card hsubset).trans (Finset.card_insert_le ..)

theorem HashTable.takenCount_setEntry_le_of_taken (hi : h.Taken i) :
    (h.setEntry i entry).takenCount ≤ h.takenCount := by
  refine Finset.card_le_card fun j hj => Finset.mem_filter.2 ⟨Finset.mem_univ j, ?_⟩
  by_cases hij : i = j
  · exact hij ▸ hi
  · exact (h.taken_setEntry_of_ne hij).1 (Finset.mem_filter.1 hj).2

theorem HashTable.exists_not_taken (hlt : h.takenCount < T) : ∃ i, ¬h.Taken i := by
  by_contra! hall
  refine hlt.ne ?_
  rw [takenCount, Finset.filter_true_of_mem fun i _ => hall i, Finset.card_univ, Fintype.card_fin]

theorem HashTable.stored_eq_card :
    h.stored = (Finset.univ.filter fun i => (h.entry i).key ≠ 0).card := by
  have hlist : h.table.toList = (List.finRange T).map h.entry := by
    refine List.ext_getElem (by simp) fun n hn _ => ?_
    simp [HashTable.entry]
  have hcount : h.table.toList.countP (·.key ≠ 0) = h.stored := Vector.countP_toList
  rw [← hcount, hlist, List.countP_map, List.countP_eq_length_filter]
  rfl

end

omit [NeZero T] in
theorem HashTable.takenCount_addUsed {val : BitVec 64} :
    (h.addUsed val).takenCount = h.takenCount := rfl

omit [NeZero T] in
theorem VisitPc.unwritten_of_answer (hop : op.opType = .put) (hpc : pc.answer = none) :
    pc.unwritten op = 1 := if_pos ⟨hop, hpc⟩

omit [NeZero T] in
theorem VisitPc.unwritten_of_some {ret : Int} (hpc : pc.answer = some ret) :
    pc.unwritten op = 0 := by simp [unwritten, hpc]

omit [NeZero T] in
theorem VisitPc.unwritten_of_ne (hop : op.opType ≠ .put) : pc.unwritten op = 0 :=
  if_neg fun h => hop h.1

omit [NeZero T] in
/-- A step takes at most one slot, and only that of a `PUT` that has written none before. -/
theorem VisitCase.takenCount_le (hc : VisitCase h op pc h' pc') (hkey : op.key ≠ 0) :
    h'.takenCount + pc'.unwritten op ≤ h.takenCount + pc.unwritten op := by
  cases hc with
  | scan hpc hpc' => simp [VisitPc.unwritten, hpc, hpc']
  | done hpc hop => simp [VisitPc.unwritten_of_ne hop]
  | update hpc hop hi =>
    rw [VisitPc.unwritten_of_some rfl]
    exact (h.takenCount_setEntry_le_of_taken (.inl (hi ▸ hkey))).trans (Nat.le_add_right ..)
  | insert hpc hop hi =>
    rw [VisitPc.unwritten_of_answer hop hpc, VisitPc.unwritten_of_some rfl]
    exact h.takenCount_setEntry_le
  | delete hpc hop hi =>
    have hne : op.opType ≠ .put := by simp [hop]
    rw [VisitPc.unwritten_of_ne hne, VisitPc.unwritten_of_ne hne]
    exact h.takenCount_setEntry_le_of_taken (.inl (hi ▸ hkey))
  | add | sub =>
    rw [VisitPc.unwritten_of_some rfl, VisitPc.unwritten_of_some rfl, h.takenCount_addUsed]

omit [NeZero T] in
/-- The counter and the stored keys change by the same, up to what a thread has still to count. -/
theorem VisitCase.counter_eq (hc : VisitCase h op pc h' pc') (hkey : op.key ≠ 0)
    (hlt : h.usedWord.toNat + 1 < 2 ^ 64) (hpos : pc.subs ≤ h.usedWord.toNat) :
    h'.usedWord.toNat + pc'.adds + (h.stored + pc.subs) =
      h.usedWord.toNat + pc.adds + (h'.stored + pc'.subs) := by
  cases hc with
  | scan hpc hpc' =>
    rw [VisitPc.adds_of_answer hpc, VisitPc.adds_of_answer hpc', VisitPc.subs_of_answer hpc,
      VisitPc.subs_of_answer hpc']
  | done hpc =>
    rw [VisitPc.adds_of_answer hpc, VisitPc.subs_of_answer hpc]
    rfl
  | @update _ i _ hpc hop hi hentry =>
    have hpos := h.stored_pos (i := i) (hi ▸ hkey)
    rw [VisitPc.adds_of_answer hpc, VisitPc.subs_of_answer hpc, h.stored_setEntry,
      if_neg (hi ▸ hkey), if_neg (hentry ▸ hkey), Nat.sub_add_cancel hpos]
    rfl
  | insert hpc hop hi hentry =>
    rw [VisitPc.adds_of_answer hpc, VisitPc.subs_of_answer hpc, h.stored_setEntry, if_pos hi,
      if_neg (hentry ▸ hkey)]
    simp only [VisitPc.adds, VisitPc.subs, HashTable.setEntry]
    omega
  | @delete _ i hpc hop hi =>
    have hpos := h.stored_pos (i := i) (hi ▸ hkey)
    rw [VisitPc.adds_of_answer hpc, VisitPc.subs_of_answer hpc, h.stored_setEntry,
      if_neg (hi ▸ hkey), if_pos rfl]
    simp only [VisitPc.adds, VisitPc.subs, HashTable.setEntry]
    omega
  | add =>
    rw [HashTable.usedWord_addUsed_one hlt, HashTable.stored_addUsed]
    rfl
  | sub =>
    rw [HashTable.usedWord_addUsed_neg_one hpos, HashTable.stored_addUsed]
    simp only [VisitPc.adds, VisitPc.subs] at hpos ⊢
    omega

omit [NeZero T] in
/-- Each `PUT` counts up at most once. -/
theorem VisitCase.usedWord_le (hc : VisitCase h op pc h' pc')
    (hlt : h.usedWord.toNat + 1 < 2 ^ 64) (hpos : pc.subs ≤ h.usedWord.toNat) :
    h'.usedWord.toNat + (pc'.unwritten op + pc'.adds) ≤
      h.usedWord.toNat + (pc.unwritten op + pc.adds) := by
  cases hc with
  | scan hpc hpc' =>
    simp [VisitPc.unwritten, hpc, hpc', VisitPc.adds_of_answer]
  | done hpc hop => simp [VisitPc.unwritten_of_ne hop, VisitPc.adds]
  | update hpc hop => simp [VisitPc.unwritten, VisitPc.answer, VisitPc.adds, HashTable.setEntry]
  | insert hpc hop =>
    rw [VisitPc.unwritten_of_answer hop hpc, VisitPc.adds_of_answer hpc]
    simp [VisitPc.unwritten, VisitPc.answer, VisitPc.adds, HashTable.setEntry]
  | delete => simp [VisitPc.unwritten, VisitPc.answer, VisitPc.adds, HashTable.setEntry]
  | add =>
    rw [HashTable.usedWord_addUsed_one hlt]
    simp [VisitPc.unwritten, VisitPc.answer, VisitPc.adds]
  | sub =>
    rw [HashTable.usedWord_addUsed_neg_one hpos]
    simp [VisitPc.unwritten, VisitPc.answer, VisitPc.adds]

/-! ## All threads -/

/-- What the operation of a thread that has one weighs. -/
def OpPc.weight (w : Operation → VisitPc T → Nat) : OpPc T → Nat
  | some (op, pc) => w op pc
  | none => 0

section
variable {ι : Type*} [Fintype ι] {s : TableSystem ι T} {t : ι} {n : Nat}

/-- The weight of all operations in progress. -/
def TableSystem.weight (w : Operation → VisitPc T → Nat) (s : TableSystem ι T) : Nat :=
  Threads.total (OpPc.weight w) s

def TableSystem.unwritten (s : TableSystem ι T) : Nat := s.weight VisitPc.unwritten

def TableSystem.adds (s : TableSystem ι T) : Nat := s.weight fun _ => VisitPc.adds

def TableSystem.subs (s : TableSystem ι T) : Nat := s.weight fun _ => VisitPc.subs

/-- After `n` calls of `insert_update` no more than `n` slots are taken and the counter is at most
`n`, also when all threads have gone on; the counter is right up to what is still to be counted. -/
structure Counted (n : Nat) (s : TableSystem ι T) : Prop where
  taken : s.shared.takenCount + s.unwritten ≤ n
  used : s.shared.usedWord.toNat + (s.unwritten + s.adds) ≤ n
  exact : s.shared.usedWord.toNat + s.adds = s.shared.stored + s.subs

/-- The keys that are still to be counted are stored, each in a slot of its own. -/
theorem TableSystem.adds_le_stored (hone : s.OnePerKey)
    (hstored : ∀ t op, s.pc t = some (op, .insertUsed) →
      op.key ≠ 0 ∧ ∃ i, (s.shared.entry i).key = op.key) : s.adds ≤ s.shared.stored := by
  classical
  let counts (t : ι) : Prop := ∃ op, s.pc t = some (op, .insertUsed)
  have hadds : s.adds = (Finset.univ.filter counts).card := by
    rw [adds, weight, Threads.total, Finset.card_filter]
    refine Finset.sum_congr rfl fun t _ => ?_
    by_cases ht : counts t
    · rw [if_pos ht]
      obtain ⟨op, hpc⟩ := ht
      rw [hpc]
      rfl
    · rw [if_neg ht]
      rcases hpc : s.pc t with _ | ⟨op, pc⟩
      · rfl
      · cases pc with
        | insertUsed => exact (ht ⟨op, hpc⟩).elim
        | _ => rfl
  have hslot (t : ι) : ∃ i, ∀ op, s.pc t = some (op, .insertUsed) →
      op.key ≠ 0 ∧ (s.shared.entry i).key = op.key := by
    by_cases ht : counts t
    · obtain ⟨op, hpc⟩ := ht
      obtain ⟨hkey, i, hi⟩ := hstored t op hpc
      refine ⟨i, fun op' hpc' => ?_⟩
      obtain ⟨rfl, -⟩ := Prod.mk.inj (Option.some.inj (hpc.symm.trans hpc'))
      exact ⟨hkey, hi⟩
    · exact ⟨0, fun op hpc => (ht ⟨op, hpc⟩).elim⟩
  choose slot hslot using hslot
  rw [hadds, HashTable.stored_eq_card]
  refine Finset.card_le_card_of_injOn slot ?_ ?_
  · intro t ht
    obtain ⟨op, hpc⟩ := (Finset.mem_filter.1 ht).2
    obtain ⟨hkey, hi⟩ := hslot t op hpc
    exact Finset.mem_filter.2 ⟨Finset.mem_univ _, hi ▸ hkey⟩
  · intro t ht t' ht' heq
    obtain ⟨op, hpc⟩ := (Finset.mem_filter.1 ht).2
    obtain ⟨op', hpc'⟩ := (Finset.mem_filter.1 ht').2
    refine hone t t' op op' _ _ hpc hpc' ?_
    rw [← (hslot t op hpc).2, ← (hslot t' op' hpc').2, heq]

namespace Counted

omit [NeZero T] in
theorem init : Counted 0 (TableSystem.init : TableSystem ι T) := by
  have hweight (w : Operation → VisitPc T → Nat) :
      (TableSystem.init : TableSystem ι T).weight w = 0 := Finset.sum_const_zero
  have htaken : (initHashtable : HashTable T).takenCount = 0 := by
    refine Finset.card_eq_zero.2 (Finset.filter_eq_empty_iff.2 fun i _ => ?_)
    simp [HashTable.Taken, initHashtable, HashTable.entry]
  have hstored : (initHashtable : HashTable T).stored = 0 := by
    simp [HashTable.stored, initHashtable, Vector.countP_replicate]
  constructor
  case taken =>
    rw [TableSystem.unwritten, hweight]
    exact htaken.le
  case used =>
    rw [TableSystem.unwritten, TableSystem.adds, hweight, hweight]
    rfl
  case exact =>
    rw [TableSystem.subs, TableSystem.adds, hweight, hweight]
    exact hstored.symm

section
omit [NeZero T]
variable [DecidableEq ι]

/-- One thread changes the table, and where it stands. -/
theorem update {p : OpPc T} {n' : Nat} (C : Counted n s)
    (htaken : h'.takenCount + p.weight VisitPc.unwritten + n ≤
      s.shared.takenCount + (s.pc t).weight VisitPc.unwritten + n')
    (hused : h'.usedWord.toNat +
        (p.weight VisitPc.unwritten + p.weight fun _ => VisitPc.adds) + n ≤
      s.shared.usedWord.toNat +
        ((s.pc t).weight VisitPc.unwritten + (s.pc t).weight fun _ => VisitPc.adds) + n')
    (hexact : h'.usedWord.toNat + (p.weight fun _ => VisitPc.adds) +
        (s.shared.stored + (s.pc t).weight fun _ => VisitPc.subs) =
      s.shared.usedWord.toNat + ((s.pc t).weight fun _ => VisitPc.adds) +
        (h'.stored + p.weight fun _ => VisitPc.subs)) :
    Counted n' ⟨h', Function.update s.pc t p⟩ := by
  have htotal (w : Operation → VisitPc T → Nat) :
      TableSystem.weight w ⟨h', Function.update s.pc t p⟩ + (s.pc t).weight w =
        s.weight w + p.weight w := Threads.total_update _
  have hunwritten := htotal VisitPc.unwritten
  have hadds := htotal fun _ => VisitPc.adds
  have hsubs := htotal fun _ => VisitPc.subs
  obtain ⟨htaken₀, hused₀, hexact₀⟩ := C
  unfold TableSystem.unwritten at htaken₀ hused₀
  unfold TableSystem.adds at hused₀ hexact₀
  unfold TableSystem.subs at hexact₀
  constructor
  · unfold TableSystem.unwritten
    dsimp only
    omega
  · unfold TableSystem.unwritten TableSystem.adds
    dsimp only
    omega
  · unfold TableSystem.adds TableSystem.subs
    dsimp only
    omega

/-- An operation begins. -/
theorem begin (C : Counted n s) (hpc : s.pc t = none) :
    Counted (n + if op.opType = .put then 1 else 0)
      ⟨s.shared, Function.update s.pc t (some (op, .call))⟩ := by
  refine C.update ?_ ?_ ?_ <;>
    simp only [hpc, OpPc.weight, VisitPc.unwritten, VisitPc.answer, VisitPc.adds, VisitPc.subs,
      and_true] <;> omega

/-- An operation takes a step. -/
theorem visit (C : Counted n s) (hpc : s.pc t = some (op, pc))
    (hc : VisitCase s.shared op pc h' pc') (hkey : op.key ≠ 0) (htype : op'.opType = op.opType)
    (hlt : s.shared.usedWord.toNat + 1 < 2 ^ 64) (hpos : pc.subs ≤ s.shared.usedWord.toNat) :
    Counted n ⟨h', Function.update s.pc t (some (op', pc'))⟩ := by
  have hsame : pc'.unwritten op' = pc'.unwritten op := by
    rw [VisitPc.unwritten, VisitPc.unwritten, htype]
  refine C.update ?_ ?_ ?_ <;> rw [hpc] <;> simp only [OpPc.weight, hsame]
  · exact Nat.add_le_add_right (hc.takenCount_le hkey) n
  · exact Nat.add_le_add_right (hc.usedWord_le hlt hpos) n
  · exact hc.counter_eq hkey hlt hpos

/-- An operation returns. -/
theorem finish (C : Counted n s) {ret : Int} (hpc : s.pc t = some (op, .returned ret)) :
    Counted n ⟨s.shared, Function.update s.pc t none⟩ := by
  refine C.update ?_ ?_ ?_ <;> rw [hpc] <;>
    simp [OpPc.weight, VisitPc.unwritten, VisitPc.answer, VisitPc.adds, VisitPc.subs]

end

omit [NeZero T] in
/-- With no operation in progress the counter is right. -/
theorem exact_of_none (C : Counted n s) (hnone : ∀ t, s.pc t = none) :
    s.shared.usedWord.toNat = s.shared.stored := by
  have hweight (w : Operation → VisitPc T → Nat) : s.weight w = 0 :=
    Finset.sum_eq_zero fun t _ => by rw [hnone t, OpPc.weight]
  have hexact := C.exact
  rwa [TableSystem.adds, TableSystem.subs, hweight, hweight] at hexact

/-- What the numbers mean for a thread in front of its next step. -/
theorem facts (C : Counted n s) (hn : n < T) (hone : s.OnePerKey)
    (hstored : ∀ t op, s.pc t = some (op, .insertUsed) →
      op.key ≠ 0 ∧ ∃ i, (s.shared.entry i).key = op.key) :
    (∃ i, ¬s.shared.Taken i) ∧ s.shared.usedWord.toNat < T ∧
      ∀ t op pc, s.pc t = some (op, pc) → pc.subs ≤ s.shared.usedWord.toNat := by
  have hadds := TableSystem.adds_le_stored hone hstored
  have hexact := C.exact
  have htaken := C.taken
  have hused := C.used
  refine ⟨HashTable.exists_not_taken (by omega), by omega, fun t op pc hpc => ?_⟩
  have hle : (s.pc t).weight (fun _ => VisitPc.subs) ≤ s.subs :=
    Finset.single_le_sum (f := fun t => (s.pc t).weight fun _ => VisitPc.subs)
      (fun _ _ => Nat.zero_le _) (Finset.mem_univ t)
  rw [hpc] at hle
  change pc.subs ≤ s.subs at hle
  omega

end Counted

end

/-! ## Progress and termination -/

/-- A bound on the steps that an operation on `key` still takes. -/
def VisitPc.rank (key : BitVec 64) : VisitPc T → Nat
  | .call => T + 3
  | .lookup ctr | .insertFirst ctr | .purge ctr => T - distance (hashfunc key) ctr + 2
  | .purgeLocked _ => 2
  | .insertUsed | .purgeUsed => 1
  | .insertSecond _ | .returned _ => 0

theorem VisitPc.rank_le : pc.rank key ≤ T + 3 := by
  cases pc <;> simp only [rank] <;> omega

/-- An operation takes a step until it has returned, unless an assertion fails. -/
theorem exists_visit (hI : h.Intact) (hput : op.opType = .put → h.used < T ∧ op.key ≠ 0) :
    (∃ ret, pc = .returned ret) ∨ ∃ after, visit h op pc = some after := by
  simp only [visit, if_pos hI]
  cases pc with
  | call =>
    refine .inr ?_
    rw [VisitPc.next]
    split
    · exact ⟨_, rfl⟩
    next hop => exact ⟨_, if_pos (hput hop)⟩
    · exact ⟨_, rfl⟩
  | returned ret => exact .inl ⟨ret, rfl⟩
  | _ => exact .inr ⟨_, rfl⟩

/-- As long as a slot was never used a loop does not get round the table. -/
theorem HashTable.Passed.distance_succ (hp : h.Passed key ctr) (hprobes : h.Probes key ctr)
    (hfree : ∃ i, ¬h.Taken i) :
    distance (hashfunc key) ctr < distance (hashfunc key) (ctr + 1) := by
  have hctr : probeSlot key (distance (hashfunc key) ctr) = ctr := slotAfter_distance
  have hnext : probeSlot key (distance (hashfunc key) ctr + 1) = ctr + 1 := by
    rw [probeSlot_succ, hctr]
  have hlt : distance (hashfunc key) ctr + 1 < T := by
    obtain ⟨free, hfree⟩ := hfree
    obtain ⟨j, hj, rfl⟩ := exists_probeSlot key free
    have hle : distance (hashfunc key) ctr < j := by
      by_contra hle
      rcases Nat.lt_or_eq_of_le (Nat.not_lt.1 hle) with hlt | heq
      · exact hfree (hp j hlt).1
      · rw [heq, hctr] at hfree
        exact hfree hprobes.1
    omega
  have heq : distance (hashfunc key) (probeSlot key (distance (hashfunc key) ctr + 1)) =
      distance (hashfunc key) ctr + 1 := distance_slotAfter hlt
  rw [hnext] at heq
  omega

theorem rank_visit (K : h.Knows op pc) (hfree : ∃ i, ¬h.Taken i)
    (hv : visit h op pc = some (h', op', pc')) : pc'.rank op.key < pc.rank op.key := by
  have hpos : 0 < T := Nat.pos_of_ne_zero (NeZero.ne T)
  have hlt (ctr : Fin T) : distance (hashfunc op.key) ctr < T := distance_lt
  have hwrite (i : Fin T) : (writeVisit h op i).2.rank op.key ≤ 1 := by
    rw [writeVisit]
    split <;> simp [VisitPc.rank]
  have hsecond (ctr i : Fin T) : (insertSecondVisit h op ctr i).2.rank op.key ≤ 1 := by
    rw [insertSecondVisit]
    split
    · exact Nat.zero_le _
    · exact hwrite i
  replace hv := next_of_visit hv
  cases pc with
  | call =>
    rw [VisitPc.next] at hv
    split at hv
    · cases hv
      simp only [VisitPc.rank]
      omega
    · split at hv <;> cases hv
      simp only [VisitPc.rank]
      omega
    · cases hv
      simp only [VisitPc.rank]
      omega
  | lookup ctr =>
    have hlt := hlt ctr
    obtain ⟨-, heq⟩ := Prod.mk.inj (Option.some.inj hv)
    have hpc : pc' = (lookupVisit h op ctr).2 := by rw [heq]
    rw [hpc, lookupVisit]
    split
    next hprobes =>
      have := K.2.distance_succ hprobes hfree
      simp only [VisitPc.rank]
      omega
    next => split <;> simp [VisitPc.rank]
  | insertFirst ctr =>
    have hlt := hlt ctr
    obtain ⟨-, heq⟩ := Prod.mk.inj (Option.some.inj hv)
    obtain ⟨-, rfl⟩ := Prod.mk.inj heq
    rw [insertFirstVisit]
    split
    next hprobes =>
      have := K.2.distance_succ hprobes hfree
      simp only [VisitPc.rank]
      omega
    next =>
      have hlong : 1 < (VisitPc.insertFirst ctr).rank op.key := by
        simp only [VisitPc.rank]
        omega
      split
      · exact (hsecond (hashfunc op.key) ctr).trans_lt hlong
      · exact (hwrite ctr).trans_lt hlong
  | insertSecond ctr =>
    obtain ⟨free, hfree⟩ := hfree
    exact (hfree (K.2 free).1).elim
  | purge ctr =>
    have hlt := hlt ctr
    obtain ⟨-, heq⟩ := Prod.mk.inj (Option.some.inj hv)
    obtain ⟨-, rfl⟩ := Prod.mk.inj heq
    rw [purgeVisit]
    split
    next hprobes =>
      have := K.2.distance_succ hprobes hfree
      simp only [VisitPc.rank]
      omega
    next =>
      simp only [VisitPc.rank]
      omega
  | purgeLocked ctr =>
    obtain ⟨-, heq⟩ := Prod.mk.inj (Option.some.inj hv)
    obtain ⟨-, rfl⟩ := Prod.mk.inj heq
    rw [purgeLockedVisit]
    split <;> simp [VisitPc.rank]
  | insertUsed | purgeUsed =>
    obtain ⟨-, heq⟩ := Prod.mk.inj (Option.some.inj hv)
    obtain ⟨-, rfl⟩ := Prod.mk.inj heq
    exact Nat.one_pos
  | returned => cases hv

end CS330
