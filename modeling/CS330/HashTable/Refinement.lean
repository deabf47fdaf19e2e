import CS330.HashTable.Basic
import CS330.Lib.Trace

/-! # The finite map that a hash table stands for

`Refines h m` relates a table to a finite map and contains what linear probing rests on: no key is
stored twice, and every slot between the hash slot of a stored key and its own slot is taken. -/

namespace CS330

/-- A finite map from keys to a length and a pointer. -/
abbrev KvMap := BitVec 64 → Option (BitVec 32 × BitVec 64)

/-- The operations on the map. -/
inductive KvStep (m : KvMap) : HashCall → KvMap → Prop where
  | put (hop : op.opType = .put) :
    KvStep m ⟨op, 0, op⟩ (Function.update m op.key (some (op.datalen, op.data)))
  | hit (hop : op.opType = .get) (hm : m op.key = some (datalen, data)) :
    KvStep m ⟨op, 0, { op with datalen, data }⟩ m
  | miss (hop : op.opType = .get) (hm : m op.key = none) : KvStep m ⟨op, -1, op⟩ m
  | delete (hop : op.opType = .del) (hm : m op.key ≠ none) :
    KvStep m ⟨op, 0, op⟩ (Function.update m op.key none)
  | bogus (hop : op.opType = .del) (hm : m op.key = none) : KvStep m ⟨op, -1, op⟩ m

variable {T : Nat} {h h' : HashTable T} {m m' : KvMap} {i j : Fin T} {entry : HashEntry}
  {call : HashCall} {key : BitVec 64}

/-- An operation leaves the bindings of other keys alone. -/
theorem KvStep.other (hk : KvStep m call m') (hne : key ≠ call.op.key) : m' key = m key := by
  cases hk with
  | put | delete => exact Function.update_of_ne hne ..
  | hit | miss | bogus => rfl

theorem KvStep.put_eq (hk : KvStep m call m') (hop : call.op.opType = .put) :
    m' call.op.key = some (call.op.datalen, call.op.data) := by
  cases hk with
  | put => exact Function.update_self ..
  | hit hop' | miss hop' | delete hop' | bogus hop' => cases hop.symm.trans hop'

namespace HashTable

/-- The number of keys in the table. -/
def stored (h : HashTable T) : Nat := h.table.countP (·.key ≠ 0)

theorem entry_setEntry : (h.setEntry i entry).entry j = if i = j then entry else h.entry j := by
  simp only [HashTable.entry, setEntry, Fin.getElem_fin, Vector.getElem_set, Fin.ext_iff]

@[simp] theorem entry_setEntry_self : (h.setEntry i entry).entry i = entry := by
  simp [entry_setEntry]

@[simp] theorem entry_setEntry_of_ne (hij : i ≠ j) : (h.setEntry i entry).entry j = h.entry j := by
  simp [entry_setEntry, hij]

theorem taken_setEntry_of_ne (hij : i ≠ j) : (h.setEntry i entry).Taken j ↔ h.Taken j := by
  rw [Taken, entry_setEntry_of_ne hij, Taken]

/-- A slot that is written is taken, or deleted. -/
theorem Taken.setEntry (hj : h.Taken j) (hentry : entry.key ≠ 0 ∨ entry.id = -1) :
    (h.setEntry i entry).Taken j := by
  by_cases hij : i = j
  · subst hij
    simpa [Taken] using hentry
  · exact (taken_setEntry_of_ne hij).2 hj

@[simp] theorem entry_addUsed {val : BitVec 64} : (h.addUsed val).entry i = h.entry i := rfl

@[simp] theorem stored_addUsed {val : BitVec 64} : (h.addUsed val).stored = h.stored := rfl

theorem usedWord_addUsed_one (hlt : h.usedWord.toNat + 1 < 2 ^ 64) :
    (h.addUsed 1).usedWord.toNat = h.usedWord.toNat + 1 := by
  simp only [addUsed, atomicAdd]
  bv_omega

/-- The subtraction does not borrow from the pointer behind a counter that is not 0. -/
theorem usedWord_addUsed_neg_one (hpos : 0 < h.usedWord.toNat) :
    (h.addUsed (-1)).usedWord.toNat = h.usedWord.toNat - 1 := by
  simp only [addUsed, atomicAdd]
  bv_omega

theorem stored_le : h.stored ≤ T := Vector.countP_le_size

theorem stored_setEntry : (h.setEntry i entry).stored =
    h.stored - (if (h.entry i).key = 0 then 0 else 1) + if entry.key = 0 then 0 else 1 := by
  rw [stored, setEntry, Vector.countP_set]
  by_cases hi : (h.entry i).key = 0 <;> by_cases he : entry.key = 0 <;>
    simp_all [stored, HashTable.entry]

theorem stored_pos (hkey : (h.entry i).key ≠ 0) : 0 < h.stored := by
  rw [stored, Vector.countP_pos_iff]
  exact ⟨h.entry i, Vector.getElem_mem _, by simpa using hkey⟩

end HashTable

variable [NeZero T]

/-- The slots of `h` store the map `m`, and a probe from its hash slot on finds each key. -/
structure Stores (h : HashTable T) (m : KvMap) : Prop where
  sound : ∀ i, (h.entry i).key ≠ 0 →
    m (h.entry i).key = some ((h.entry i).datalen, (h.entry i).data)
  complete : ∀ key, m key ≠ none → key ≠ 0 ∧ ∃ i, (h.entry i).key = key
  unique : ∀ i j, (h.entry i).key ≠ 0 → (h.entry i).key = (h.entry j).key → i = j
  path : ∀ i, (h.entry i).key ≠ 0 →
    ∀ j < distance (hashfunc (h.entry i).key) i, h.Taken (slotAfter (hashfunc (h.entry i).key) j)

namespace Stores

theorem init : Stores (initHashtable : HashTable T) fun _ => none := by
  have hkey (i : Fin T) : ((initHashtable : HashTable T).entry i).key = 0 := by
    simp [initHashtable, HashTable.entry]
  exact ⟨fun i hi => (hi (hkey i)).elim, fun key hm => (hm rfl).elim,
    fun i j hi => (hi (hkey i)).elim, fun i hi => (hi (hkey i)).elim⟩

theorem mapsTo_none (S : Stores h m) (hother : ∀ i, (h.entry i).key ≠ key) : m key = none := by
  by_contra hm
  obtain ⟨-, i, hi⟩ := S.complete _ hm
  exact hother i hi

/-- The counter is no part of the map. -/
theorem addUsed (S : Stores h m) (val : BitVec 64) : Stores (h.addUsed val) m :=
  ⟨S.sound, S.complete, S.unique, S.path⟩

/-- A key is stored in a slot of its own: its present one, or a free one in reach of a probe. -/
theorem write (S : Stores h m) (i : Fin T) (entry : HashEntry) (hkey : entry.key ≠ 0)
    (hfree : (h.entry i).key = 0 ∨ (h.entry i).key = entry.key)
    (hother : ∀ j, (h.entry j).key = entry.key → j = i)
    (hpath : ∀ j < distance (hashfunc entry.key) i, h.Taken (slotAfter (hashfunc entry.key) j)) :
    Stores (h.setEntry i entry)
      (Function.update m entry.key (some (entry.datalen, entry.data))) := by
  constructor
  case sound =>
    intro j hj
    by_cases hij : i = j
    · subst hij
      simp
    · rw [HashTable.entry_setEntry_of_ne hij] at hj ⊢
      rw [Function.update_of_ne fun heq => hij (hother j heq).symm]
      exact S.sound j hj
  case complete =>
    intro key hm
    by_cases heq : key = entry.key
    · subst heq
      exact ⟨hkey, i, by simp⟩
    · rw [Function.update_of_ne heq] at hm
      obtain ⟨hne, j, hj⟩ := S.complete key hm
      refine ⟨hne, j, ?_⟩
      rw [HashTable.entry_setEntry_of_ne ?_, hj]
      rintro rfl
      rcases hfree with h0 | h0
      · exact hne (hj.symm.trans h0)
      · exact heq (hj.symm.trans h0)
  case unique =>
    intro j j' hj heq
    by_cases hij : i = j <;> by_cases hij' : i = j'
    · exact hij.symm.trans hij'
    · subst hij
      rw [HashTable.entry_setEntry_self, HashTable.entry_setEntry_of_ne hij'] at heq
      exact (hother j' heq.symm).symm
    · subst hij'
      rw [HashTable.entry_setEntry_self, HashTable.entry_setEntry_of_ne hij] at heq
      exact hother j heq
    · rw [HashTable.entry_setEntry_of_ne hij] at hj heq
      rw [HashTable.entry_setEntry_of_ne hij'] at heq
      exact S.unique j j' hj heq
  case path =>
    intro j hj d hd
    by_cases hij : i = j
    · subst hij
      rw [HashTable.entry_setEntry_self] at hd ⊢
      exact (hpath d hd).setEntry (.inl hkey)
    · rw [HashTable.entry_setEntry_of_ne hij] at hj hd ⊢
      exact (S.path j hj d hd).setEntry (.inl hkey)

/-- A `PUT` that finds its key. -/
theorem update {op : Operation} (S : Stores h m) (hkey : op.key ≠ 0)
    (heq : (h.entry i).key = op.key) :
    Stores (h.setEntry i
        { h.entry i with id := op.id.setWidth 32, datalen := op.datalen, data := op.data })
      (Function.update m op.key (some (op.datalen, op.data))) := by
  have hne : (h.entry i).key ≠ 0 := heq ▸ hkey
  have S' := S.write i
    { h.entry i with id := op.id.setWidth 32, datalen := op.datalen, data := op.data } hne
    (.inr rfl) (fun j hj => (S.unique i j hne hj.symm).symm) (S.path i hne)
  rwa [heq] at S'

/-- A `PUT` of a key that is nowhere in the table. -/
theorem insert {op : Operation} (S : Stores h m) (hkey : op.key ≠ 0) (h0 : (h.entry i).key = 0)
    (hother : ∀ j, (h.entry j).key ≠ op.key)
    (hpath : ∀ j < distance (hashfunc op.key) i, h.Taken (slotAfter (hashfunc op.key) j)) :
    Stores (h.setEntry i ⟨op.id.setWidth 32, op.datalen, op.key, op.data⟩)
      (Function.update m op.key (some (op.datalen, op.data))) :=
  S.write i ⟨op.id.setWidth 32, op.datalen, op.key, op.data⟩ hkey (.inl h0)
    (fun j hj => (hother j hj).elim) hpath

/-- A deleted key leaves a taken slot. -/
theorem erase (S : Stores h m) (i : Fin T) :
    Stores (h.setEntry i ⟨-1, 0, 0, 0⟩) (Function.update m (h.entry i).key none) := by
  have hkept {j : Fin T} (hj : ((h.setEntry i ⟨-1, 0, 0, 0⟩).entry j).key ≠ 0) :
      i ≠ j ∧ (h.setEntry i ⟨-1, 0, 0, 0⟩).entry j = h.entry j := by
    have hij : i ≠ j := by
      rintro rfl
      simp at hj
    exact ⟨hij, HashTable.entry_setEntry_of_ne hij⟩
  constructor
  case sound =>
    intro j hj
    obtain ⟨hij, heq⟩ := hkept hj
    rw [heq] at hj ⊢
    rw [Function.update_of_ne fun hk => hij (S.unique j i hj hk).symm]
    exact S.sound j hj
  case complete =>
    intro key hm
    by_cases heq : key = (h.entry i).key
    · simp [heq] at hm
    · rw [Function.update_of_ne heq] at hm
      obtain ⟨hne, j, hj⟩ := S.complete key hm
      refine ⟨hne, j, ?_⟩
      rw [HashTable.entry_setEntry_of_ne ?_, hj]
      rintro rfl
      exact heq hj.symm
  case unique =>
    intro j j' hj hkeys
    obtain ⟨-, heq⟩ := hkept hj
    obtain ⟨-, heq'⟩ := hkept (hkeys ▸ hj)
    rw [heq] at hj
    rw [heq, heq'] at hkeys
    exact S.unique j j' hj hkeys
  case path =>
    intro j hj d hd
    obtain ⟨-, heq⟩ := hkept hj
    rw [heq] at hj hd ⊢
    exact (S.path j hj d hd).setEntry (.inr rfl)

end Stores

end CS330
