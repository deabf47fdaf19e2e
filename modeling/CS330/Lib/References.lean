import Mathlib.Data.Set.Card

/-! # Reference counting

`refs` says which object each holder refers to, and a count belongs to each object. The rules say
what a holder that takes, drops or passes on a reference does to an exact count. -/

namespace CS330

variable {κ ω : Type*}

/-- The holders that refer to `o`. -/
def holders (refs : κ → Option ω) (o : ω) : Set κ := {k | refs k = some o}

/-- Somebody refers to `o`. -/
def Held (refs : κ → Option ω) (o : ω) : Prop := ∃ k, refs k = some o

/-- The count of `o` is the number of its holders. -/
structure Exact (refs : κ → Option ω) (count : ℤ) (o : ω) : Prop where
  finite : (holders refs o).Finite
  count_eq : count = (holders refs o).ncard

variable {refs : κ → Option ω} {count : ℤ} {k k' : κ} {o o' : ω} {v : Option ω}

@[simp] theorem mem_holders : k ∈ holders refs o ↔ refs k = some o := Iff.rfl

/-- A held object has a positive count. -/
theorem Exact.count_pos (h : Exact refs count o) (hk : refs k = some o) : 0 < count := by
  have := (Set.ncard_pos h.finite).2 ⟨k, hk⟩
  have := h.count_eq
  omega

/-- An object that nobody refers to. -/
theorem Exact.of_forall_ne (h : ∀ k, refs k ≠ some o) : Exact refs 0 o := by
  have hempty : holders refs o = ∅ := Set.eq_empty_of_forall_notMem h
  exact ⟨hempty ▸ Set.finite_empty, by simp [hempty]⟩

/-- A count of 1 stands for one holder. -/
theorem Exact.unique (h : Exact refs count o) (hle : count ≤ 1) (hk : refs k = some o)
    (hk' : refs k' = some o) : k = k' := by
  have := h.count_eq
  exact (Set.ncard_le_one h.finite).1 (by omega) k hk k' hk'

/-- Holders that are renamed one to one keep the count. -/
theorem Exact.comp (h : Exact refs count o) (e : κ ≃ κ) : Exact (refs ∘ e) count o := by
  have hpre : holders (refs ∘ e) o = e.symm '' holders refs o := by
    ext i
    simp
  constructor
  · exact hpre ▸ h.finite.image _
  · rw [hpre, Set.ncard_image_of_injective _ e.symm.injective]
    exact h.count_eq

section
variable [DecidableEq κ]

theorem holders_update_self (o : ω) :
    holders (Function.update refs k (some o)) o = insert k (holders refs o) := by
  ext i
  by_cases hi : i = k
  · simp [hi]
  · simp [hi]

theorem holders_update_of_ne (hv : v ≠ some o) :
    holders (Function.update refs k v) o = holders refs o \ {k} := by
  ext i
  by_cases hi : i = k
  · simp [hi, hv]
  · simp [hi]

/-- A new holder counts. -/
theorem Exact.take (h : Exact refs count o) (hk : refs k ≠ some o) :
    Exact (Function.update refs k (some o)) (count + 1) o := by
  have hcard := Set.ncard_insert_of_notMem (show k ∉ holders refs o from hk) h.finite
  have := h.count_eq
  constructor
  · rw [holders_update_self]
    exact h.finite.insert k
  · rw [holders_update_self, hcard]
    omega

/-- A holder that drops its reference counts off. -/
theorem Exact.drop (h : Exact refs count o) (hk : refs k = some o) (hv : v ≠ some o) :
    Exact (Function.update refs k v) (count - 1) o := by
  have hcard := Set.ncard_sdiff_singleton_of_mem (show k ∈ holders refs o from hk)
  have := (Set.ncard_pos h.finite).2 ⟨k, hk⟩
  have := h.count_eq
  constructor
  · rw [holders_update_of_ne hv]
    exact h.finite.sdiff
  · rw [holders_update_of_ne hv, hcard]
    omega

/-- Changes of holders of other objects do not count. -/
theorem Exact.other (h : Exact refs count o) (hk : refs k ≠ some o) (hv : v ≠ some o) :
    Exact (Function.update refs k v) count o := by
  have heq : holders (Function.update refs k v) o = holders refs o := by
    rw [holders_update_of_ne hv, Set.sdiff_singleton_eq_self (show k ∉ holders refs o from hk)]
  exact ⟨heq ▸ h.finite, heq ▸ h.count_eq⟩

theorem held_update_of_eq_none (hk : refs k = none) :
    Held (Function.update refs k (some o)) o' ↔ o' = o ∨ Held refs o' := by
  constructor
  · rintro ⟨i, hi⟩
    by_cases hik : i = k
    · subst hik
      exact .inl (by simpa using hi.symm)
    · exact .inr ⟨i, by simpa [hik] using hi⟩
  · rintro (rfl | ⟨i, hi⟩)
    · exact ⟨k, by simp⟩
    · have hik : i ≠ k := by rintro rfl; simp [hk] at hi
      exact ⟨i, by simpa [hik] using hi⟩

theorem held_drop_of_ne (hk : refs k = some o) (hne : o' ≠ o) :
    Held (Function.update refs k none) o' ↔ Held refs o' := by
  constructor
  · rintro ⟨i, hi⟩
    by_cases hik : i = k
    · simp [hik] at hi
    · exact ⟨i, by simpa [hik] using hi⟩
  · rintro ⟨i, hi⟩
    have hik : i ≠ k := by rintro rfl; simp_all
    exact ⟨i, by simpa [hik] using hi⟩

theorem held_drop_iff_ne (h : Exact refs count o) (hk : refs k = some o) :
    Held (Function.update refs k none) o ↔ count ≠ 1 := by
  have hdrop := h.drop hk (v := none) (by simp)
  constructor
  · rintro ⟨i, hi⟩
    have := hdrop.count_pos hi
    omega
  · intro hne
    by_contra hnot
    have hzero := Exact.of_forall_ne fun i hi => hnot ⟨i, hi⟩
    have := hdrop.count_eq
    have := hzero.count_eq
    omega

/-- The holders `key i` for `i` in the list refer to `v i` from now on. -/
def redirect (key : ι → κ) (v : ι → Option ω) (l : List ι) (refs : κ → Option ω) : κ → Option ω :=
  l.foldl (fun refs i => Function.update refs (key i) (v i)) refs

theorem redirect_of_forall_ne {key : ι → κ} {f : ι → Option ω} {l : List ι}
    (h : ∀ i ∈ l, key i ≠ k) : redirect key f l refs k = refs k := by
  induction l generalizing refs with
  | nil => rfl
  | cons i l ih =>
    refine (ih fun j hj => h j (.tail _ hj)).trans ?_
    exact Function.update_of_ne (h i (.head _)).symm ..

theorem redirect_of_mem {key : ι → κ} {f : ι → Option ω} {l : List ι} {i : ι}
    (hkey : Function.Injective key) (h : i ∈ l) : redirect key f l refs (key i) = f i := by
  induction l generalizing refs with
  | nil => cases h
  | cons j l ih =>
    by_cases hi : i ∈ l
    · exact ih hi
    · obtain rfl := (List.mem_cons.1 h).resolve_right hi
      have hne : ∀ j ∈ l, key j ≠ key i := fun j hj heq => hi (hkey heq ▸ hj)
      change redirect key f l (Function.update refs (key i) (f i)) (key i) = f i
      rw [redirect_of_forall_ne hne, Function.update_self]

end

end CS330
