import Mathlib.Order.Lattice
import Mathlib.Tactic.Order
import Mathlib.Tactic.SplitIfs

/-! # Ordered lists of disjoint intervals

A finite map from a linear order, stored as an increasing list of nonempty half-open intervals
that carry a value. `lookup` is the map a list stands for. Two operations change it: `erase`
removes a range, and `Insert` puts a value on a free range, where the new interval may be
coalesced with a neighbour of equal value. Overwriting a range is erasing it and inserting there. -/

namespace CS330

/-- The half-open interval from `lo` to `hi`, carrying `val`. -/
@[ext] structure Interval (β α : Type*) where
  lo : β
  hi : β
  val : α
deriving DecidableEq, Repr

namespace Interval

variable {β α : Type*} [LinearOrder β] {l l' u u' a b m x : β} {v : α}
  {i : Interval β α} {xs ys zs : List (Interval β α)}

/-- The intervals of the list are nonempty, increasing, disjoint and inside `l` to `u`. -/
def Ordered : β → List (Interval β α) → β → Prop
  | l, [], u => l ≤ u
  | l, i :: xs, u => l ≤ i.lo ∧ i.lo < i.hi ∧ Ordered i.hi xs u

@[simp] theorem ordered_nil : Ordered l ([] : List (Interval β α)) u ↔ l ≤ u := .rfl

@[simp] theorem ordered_cons :
    Ordered l (i :: xs) u ↔ l ≤ i.lo ∧ i.lo < i.hi ∧ Ordered i.hi xs u := .rfl

namespace Ordered

theorem le (h : Ordered l xs u) : l ≤ u := by
  induction xs generalizing l with
  | nil => exact h
  | cons i xs ih => exact h.1.trans (h.2.1.le.trans (ih h.2.2))

theorem mono_left (h : Ordered l xs u) (hl : l' ≤ l) : Ordered l' xs u := by
  cases xs with
  | nil => exact hl.trans h
  | cons i xs => exact ⟨hl.trans h.1, h.2⟩

theorem mono_right (h : Ordered l xs u) (hu : u ≤ u') : Ordered l xs u' := by
  induction xs generalizing l with
  | nil => exact le_trans h hu
  | cons i xs ih => exact ⟨h.1, h.2.1, ih h.2.2⟩

theorem restrict (h : Ordered l xs u) (hl : l ≤ m) (hm : ∀ i ∈ xs, i.hi ≤ m) :
    Ordered l xs m := by
  induction xs generalizing l with
  | nil => exact hl
  | cons i xs ih =>
    exact ⟨h.1, h.2.1, ih h.2.2 (hm i List.mem_cons_self) fun j hj =>
      hm j (List.mem_cons_of_mem _ hj)⟩

theorem append (h : Ordered l xs m) (h' : Ordered m ys u) : Ordered l (xs ++ ys) u := by
  induction xs generalizing l with
  | nil => exact h'.mono_left h
  | cons i xs ih => exact ⟨h.1, h.2.1, ih h.2.2⟩

theorem bounds (h : Ordered l xs u) (hi : i ∈ xs) : l ≤ i.lo ∧ i.lo < i.hi ∧ i.hi ≤ u := by
  induction xs generalizing l with
  | nil => cases hi
  | cons j xs ih =>
    rcases List.mem_cons.mp hi with rfl | hi
    · exact ⟨h.1, h.2.1, h.2.2.le⟩
    · obtain ⟨h₁, h₂, h₃⟩ := ih h.2.2 hi
      exact ⟨h.1.trans (h.2.1.le.trans h₁), h₂, h₃⟩

theorem pairwise (h : Ordered l xs u) : xs.Pairwise fun i j => i.hi ≤ j.lo := by
  induction xs generalizing l with
  | nil => exact .nil
  | cons i xs ih => exact .cons (fun _ hj => (h.2.2.bounds hj).1) (ih h.2.2)

end Ordered

theorem ordered_append : Ordered l (xs ++ ys) u ↔ ∃ m, Ordered l xs m ∧ Ordered m ys u := by
  refine ⟨fun h => ?_, fun ⟨_, h, h'⟩ => h.append h'⟩
  induction xs generalizing l with
  | nil => exact ⟨l, le_rfl, h⟩
  | cons i xs ih =>
    obtain ⟨m, hm, hm'⟩ := ih h.2.2
    exact ⟨m, ⟨h.1, h.2.1, hm⟩, hm'⟩

/-- Around a given element the bounds of the two halves are the element's own. -/
theorem ordered_middle : Ordered l (xs ++ i :: ys) u ↔
    Ordered l xs i.lo ∧ i.lo < i.hi ∧ Ordered i.hi ys u := by
  rw [ordered_append]
  refine ⟨fun ⟨m, h, h'⟩ => ⟨h.mono_right h'.1, h'.2⟩, fun h => ⟨i.lo, h.1, le_rfl, h.2⟩⟩

/-! ## The map a list stands for -/

/-- The value of the interval that contains `x`, if there is one. -/
def lookup (xs : List (Interval β α)) (x : β) : Option α :=
  (xs.find? fun i => i.lo ≤ x ∧ x < i.hi).map (·.val)

@[simp] theorem lookup_nil : lookup ([] : List (Interval β α)) x = none := rfl

theorem lookup_cons :
    lookup (i :: xs) x = if i.lo ≤ x ∧ x < i.hi then some i.val else lookup xs x := by
  simp only [lookup, List.find?_cons]
  split <;> simp_all

theorem lookup_append : lookup (xs ++ ys) x = (lookup xs x).or (lookup ys x) := by
  induction xs with
  | nil => simp
  | cons i xs ih =>
    rw [List.cons_append, lookup_cons, lookup_cons, ih]
    split <;> rfl

theorem Ordered.lookup_eq_none (h : Ordered l xs u) (hx : x < l ∨ u ≤ x) :
    lookup xs x = none := by
  induction xs generalizing l with
  | nil => rfl
  | cons i xs ih =>
    have hle := h.2.2.le
    rw [lookup_cons, if_neg (by grind [h.1, h.2.1]), ih h.2.2 (by grind [h.1, h.2.1])]

/-- In an ordered list the interval at an address is the only one there. -/
theorem Ordered.lookup_eq_some (h : Ordered l xs u) (hi : i ∈ xs) (hlo : i.lo ≤ x)
    (hhi : x < i.hi) : lookup xs x = some i.val := by
  induction xs generalizing l with
  | nil => cases hi
  | cons j xs ih =>
    rw [lookup_cons]
    rcases List.mem_cons.mp hi with rfl | hi
    · rw [if_pos ⟨hlo, hhi⟩]
    · have := (h.2.2.bounds hi).1
      rw [if_neg (fun hj => absurd (hj.2.trans_le this) (not_lt.mpr hlo)), ih h.2.2 hi]

/-! ## Erasing a range -/

/-- The part of an interval below `a`. -/
def below (a : β) (i : Interval β α) : List (Interval β α) :=
  if i.hi ≤ a then [i] else if i.lo < a then [{ i with hi := a }] else []

/-- The part of an interval from `b` on. -/
def above (b : β) (i : Interval β α) : List (Interval β α) :=
  if b ≤ i.lo then [i] else if b < i.hi then [{ i with lo := b }] else []

theorem below_of_mem (h : i.lo < a) (h' : a < i.hi) : below a i = [{ i with hi := a }] := by
  rw [below, if_neg h'.not_ge, if_pos h]

theorem above_of_mem (h : i.lo < b) (h' : b < i.hi) : above b i = [{ i with lo := b }] := by
  rw [above, if_neg h.not_ge, if_pos h']

/-- Remove `a` to `b` from the list. -/
def erase (a b : β) (xs : List (Interval β α)) : List (Interval β α) :=
  xs.flatMap (below a) ++ xs.flatMap (above b)

theorem Ordered.below_eq (h : Ordered l xs a) : xs.flatMap (below a) = xs := by
  induction xs generalizing l with
  | nil => rfl
  | cons i xs ih => rw [List.flatMap_cons, ih h.2.2, below, if_pos h.2.2.le]; rfl

theorem Ordered.below_eq_nil (h : Ordered a xs u) : xs.flatMap (below a) = [] := by
  induction xs generalizing a with
  | nil => rfl
  | cons i xs ih =>
    have hi : i.hi > a := h.1.trans_lt h.2.1
    simp only [List.flatMap_cons, List.append_eq_nil_iff]
    refine ⟨by rw [below, if_neg hi.not_ge, if_neg h.1.not_gt], ?_⟩
    exact ih (h.2.2.mono_left hi.le)

theorem Ordered.above_eq (h : Ordered b xs u) : xs.flatMap (above b) = xs := by
  induction xs generalizing b with
  | nil => rfl
  | cons i xs ih =>
    rw [List.flatMap_cons, ih (h.2.2.mono_left (h.1.trans h.2.1.le)), above, if_pos h.1]; rfl

theorem Ordered.above_eq_nil (h : Ordered l xs b) : xs.flatMap (above b) = [] := by
  induction xs generalizing l with
  | nil => rfl
  | cons i xs ih =>
    have := h.2.2.le
    simp only [List.flatMap_cons, List.append_eq_nil_iff]
    refine ⟨by rw [above, if_neg (h.2.1.trans_le this).not_ge, if_neg this.not_gt], ih h.2.2⟩

theorem Ordered.lookup_below (h : Ordered l xs u) :
    lookup (xs.flatMap (Interval.below a)) x = if x < a then lookup xs x else none := by
  induction xs generalizing l with
  | nil => simp
  | cons i xs ih =>
    have hrest : x < i.hi → lookup xs x = none := fun hx => h.2.2.lookup_eq_none (.inl hx)
    rw [List.flatMap_cons, lookup_append, ih h.2.2, lookup_cons, Interval.below]
    split_ifs <;> simp only [lookup_cons, lookup_nil] <;> grind

theorem Ordered.lookup_above (h : Ordered l xs u) :
    lookup (xs.flatMap (Interval.above b)) x = if b ≤ x then lookup xs x else none := by
  induction xs generalizing l with
  | nil => simp
  | cons i xs ih =>
    have hrest : x < i.hi → lookup xs x = none := fun hx => h.2.2.lookup_eq_none (.inl hx)
    rw [List.flatMap_cons, lookup_append, ih h.2.2, lookup_cons, Interval.above]
    split_ifs <;> simp only [lookup_cons, lookup_nil] <;> grind

/-- Erasing a range removes it from the map and leaves the rest alone. -/
theorem Ordered.lookup_erase (h : Ordered l xs u) (hab : a ≤ b) :
    lookup (Interval.erase a b xs) x = if a ≤ x ∧ x < b then none else lookup xs x := by
  rw [Interval.erase, lookup_append, h.lookup_below, h.lookup_above]
  split_ifs <;> grind

/-- A range inside one interval leaves the ends of that interval. -/
theorem Ordered.erase_middle (h : Ordered l (xs ++ i :: ys) u) (ha : i.lo ≤ a) (hab : a < b)
    (hb : b ≤ i.hi) :
    Interval.erase a b (xs ++ i :: ys) =
      xs ++ (Interval.below a i ++ (Interval.above b i ++ ys)) := by
  obtain ⟨hx, _, hy⟩ := ordered_middle.mp h
  simp only [Interval.erase, List.flatMap_append, List.flatMap_cons]
  rw [(hx.mono_right ha).below_eq, (hx.mono_right (ha.trans hab.le)).above_eq_nil,
    (hy.mono_left (hab.le.trans hb)).below_eq_nil, (hy.mono_left hb).above_eq]
  simp

theorem ends_of_mem_erase {P : β → Prop} (ha : ∀ i ∈ xs, i.lo < a → a < i.hi → P a)
    (hb : ∀ i ∈ xs, i.lo < b → b < i.hi → P b) (h : ∀ i ∈ xs, P i.lo ∧ P i.hi) :
    ∀ i ∈ erase a b xs, P i.lo ∧ P i.hi := by
  intro j hj
  rw [erase, List.mem_append, List.mem_flatMap, List.mem_flatMap] at hj
  rcases hj with ⟨i, hi, hj⟩ | ⟨i, hi, hj⟩
  · rw [below] at hj
    split_ifs at hj with h₁ h₂
    · cases List.mem_singleton.mp hj
      exact h _ hi
    · cases List.mem_singleton.mp hj
      exact ⟨(h i hi).1, ha i hi h₂ (not_le.mp h₁)⟩
    · cases hj
  · rw [above] at hj
    split_ifs at hj with h₁ h₂
    · cases List.mem_singleton.mp hj
      exact h _ hi
    · cases List.mem_singleton.mp hj
      exact ⟨hb i hi (not_le.mp h₁) h₂, (h i hi).2⟩
    · cases hj

/-! ## Inserting a range -/

/-- `Insert a b v xs ys zs`: `zs` is `xs ++ ys` with `v` put on the free range from `a` to `b`
between them, as an interval of its own or coalesced with a neighbour of value `v`. -/
inductive Insert (a b : β) (v : α) :
    List (Interval β α) → List (Interval β α) → List (Interval β α) → Prop where
  | fresh (xs ys : List (Interval β α)) : Insert a b v xs ys (xs ++ ⟨a, b, v⟩ :: ys)
  | left (p : Interval β α) (xs ys : List (Interval β α)) : p.hi = a → p.val = v →
      Insert a b v (xs ++ [p]) ys (xs ++ { p with hi := b } :: ys)
  | right (n : Interval β α) (xs ys : List (Interval β α)) : n.lo = b → n.val = v →
      Insert a b v xs (n :: ys) (xs ++ { n with lo := a } :: ys)
  | both (p n : Interval β α) (xs ys : List (Interval β α)) :
      p.hi = a → p.val = v → n.lo = b → n.val = v →
      Insert a b v (xs ++ [p]) (n :: ys) (xs ++ { p with hi := n.hi } :: ys)

namespace Insert

theorem ordered (H : Insert a b v xs ys zs) (hx : Ordered l xs a) (hab : a < b)
    (hy : Ordered b ys u) : Ordered l zs u := by
  cases H with
  | fresh => exact hx.append ⟨le_rfl, hab, hy⟩
  | left _ _ _ hp =>
    obtain ⟨h₁, h₂, _⟩ := ordered_middle.mp hx
    exact h₁.append ⟨le_rfl, h₂.trans (hp ▸ hab), hy⟩
  | right _ _ _ hn => exact hx.append ⟨le_rfl, (hab.trans_eq hn.symm).trans hy.2.1, hy.2.2⟩
  | both _ _ _ _ hp _ hn =>
    obtain ⟨h₁, h₂, _⟩ := ordered_middle.mp hx
    exact h₁.append ⟨le_rfl, h₂.trans (hp ▸ (hab.trans_eq hn.symm).trans hy.2.1), hy.2.2⟩

theorem lookup_eq (H : Insert a b v xs ys zs) (hx : Ordered l xs a) (hab : a < b)
    (hy : Ordered b ys u) :
    lookup zs x = if a ≤ x ∧ x < b then some v else lookup (xs ++ ys) x := by
  have hxs : a ≤ x → lookup xs x = none := fun h => hx.lookup_eq_none (.inr h)
  have hys : x < b → lookup ys x = none := fun h => hy.lookup_eq_none (.inl h)
  cases H with
  | fresh => grind [lookup_append, lookup_cons]
  | left p xs _ hp hv =>
    obtain ⟨h₁, h₂, _⟩ := ordered_middle.mp hx
    have : p.lo ≤ x → lookup xs x = none := fun h => h₁.lookup_eq_none (.inr h)
    simp only [lookup_append, lookup_cons, lookup_nil] at hxs ⊢
    grind
  | right n _ ys hn hv =>
    have : x < n.hi → lookup ys x = none := fun h => hy.2.2.lookup_eq_none (.inl h)
    have := hy.2.1
    simp only [lookup_append, lookup_cons] at hys ⊢
    grind
  | both p n xs ys hp hv hn hv' =>
    obtain ⟨h₁, h₂, _⟩ := ordered_middle.mp hx
    have : p.lo ≤ x → lookup xs x = none := fun h => h₁.lookup_eq_none (.inr h)
    have : x < n.hi → lookup ys x = none := fun h => hy.2.2.lookup_eq_none (.inl h)
    have := hy.2.1
    simp only [lookup_append, lookup_cons, lookup_nil] at hxs hys ⊢
    grind

omit [LinearOrder β] in
theorem length_le (H : Insert a b v xs ys zs) : zs.length ≤ xs.length + ys.length + 1 := by
  cases H <;> simp only [List.length_append, List.length_cons, List.length_nil] <;> omega

omit [LinearOrder β] in
/-- Where no neighbour with this value touches the range, it becomes an interval of its own. -/
theorem length_eq (H : Insert a b v xs ys zs) (hx : ∀ i ∈ xs, i.val = v → i.hi ≠ a)
    (hy : ∀ i ∈ ys, i.val = v → i.lo ≠ b) : zs.length = xs.length + ys.length + 1 := by
  cases H with
  | fresh => simp only [List.length_append, List.length_cons]; omega
  | left _ _ _ hp hv => exact (hx _ (by simp) hv hp).elim
  | right _ _ _ hn hv => exact (hy _ (by simp) hv hn).elim
  | both _ _ _ _ hp hv => exact (hx _ (by simp) hv hp).elim

omit [LinearOrder β] in
/-- The ends of the intervals are old ends or ends of the inserted range. -/
theorem ends {P : β → Prop} (H : Insert a b v xs ys zs) (ha : P a) (hb : P b)
    (h : ∀ i ∈ xs ++ ys, P i.lo ∧ P i.hi) : ∀ i ∈ zs, P i.lo ∧ P i.hi := by
  cases H <;> grind

end Insert

end Interval

end CS330
