import CS330.Lib.IntervalList
import CS330.Memory.Basic

/-! # Lists of areas

A `vm_area` list seen as an interval list: `Sorted` is its representation invariant, `coverage`
the map from addresses to access flags it stands for, and `InsertedAt` the edit that puts flags
on a free range. -/

namespace CS330

/-- The interval an area covers, carrying its flags. -/
def VmArea.interval (a : VmArea) : Interval Nat (BitVec 32) := ⟨a.vmStart, a.vmEnd, a.accessFlags⟩

@[simp] theorem VmArea.interval_mk (s e : Nat) (f : BitVec 32) :
    VmArea.interval ⟨s, e, f⟩ = ⟨s, e, f⟩ := rfl

@[simp] theorem VmArea.interval_lo (a : VmArea) : a.interval.lo = a.vmStart := rfl

@[simp] theorem VmArea.interval_hi (a : VmArea) : a.interval.hi = a.vmEnd := rfl

@[simp] theorem VmArea.interval_val (a : VmArea) : a.interval.val = a.accessFlags := rfl

/-- The interval list of a `vm_area` list. -/
def intervals (vms : List VmArea) : List (Interval Nat (BitVec 32)) := vms.map VmArea.interval

@[simp] theorem intervals_nil : intervals [] = [] := rfl

@[simp] theorem intervals_cons : intervals (a :: vms) = a.interval :: intervals vms := rfl

@[simp] theorem intervals_append : intervals (vms ++ vms') = intervals vms ++ intervals vms' :=
  List.map_append

@[simp] theorem length_intervals : (intervals vms).length = vms.length := List.length_map _

/-- The areas are nonempty, sorted by address, disjoint and inside `l` to `u`. -/
def Sorted (l : Nat) (vms : List VmArea) (u : Nat) : Prop := Interval.Ordered l (intervals vms) u

/-- All bounds of areas are page-aligned. -/
def Aligned (vms : List VmArea) : Prop := ∀ p ∈ vms, 4096 ∣ p.vmStart ∧ 4096 ∣ p.vmEnd

/-- The access flags of the area that contains an address. -/
def coverage (vms : List VmArea) (addr : Nat) : Option (BitVec 32) :=
  (vms.find? fun a => a.vmStart ≤ addr ∧ addr < a.vmEnd).map (·.accessFlags)

theorem lookup_intervals : Interval.lookup (intervals vms) addr = coverage vms addr := by
  rw [Interval.lookup, intervals, List.find?_map, Option.map_map]
  rfl

variable {l l' u u' m a b x : Nat} {prot : BitVec 32} {xs ys vms vms' : List VmArea}
  {p n : VmArea}

/-! ## The representation invariant -/

theorem sorted_cons : Sorted l (p :: vms) u ↔
    l ≤ p.vmStart ∧ p.vmStart < p.vmEnd ∧ Sorted p.vmEnd vms u := .rfl

theorem sorted_nil : Sorted l [] u ↔ l ≤ u := .rfl

/-- The lower bound may go up to the first area. -/
theorem Sorted.start_at (hs : Sorted l vms u) (ha : a ≤ u) (h : ∀ p ∈ vms.head?, a ≤ p.vmStart) :
    Sorted a vms u := by
  cases vms with
  | nil => exact sorted_nil.mpr ha
  | cons p vms => exact sorted_cons.mpr ⟨h p rfl, (sorted_cons.mp hs).2⟩

theorem Sorted.append (h : Sorted l xs m) (h' : Sorted m ys u) : Sorted l (xs ++ ys) u := by
  rw [Sorted, intervals_append]
  exact Interval.Ordered.append h h'

theorem sorted_append : Sorted l (xs ++ ys) u ↔ ∃ m, Sorted l xs m ∧ Sorted m ys u := by
  rw [Sorted, intervals_append, Interval.ordered_append]
  rfl

theorem sorted_middle : Sorted l (xs ++ p :: ys) u ↔
    Sorted l xs p.vmStart ∧ p.vmStart < p.vmEnd ∧ Sorted p.vmEnd ys u := by
  rw [Sorted, intervals_append, intervals_cons, Interval.ordered_middle]
  rfl

theorem Sorted.le (h : Sorted l vms u) : l ≤ u := Interval.Ordered.le h

theorem Sorted.mono_left (h : Sorted l vms u) (hl : l' ≤ l) : Sorted l' vms u :=
  Interval.Ordered.mono_left h hl

theorem Sorted.mono_right (h : Sorted l vms u) (hu : u ≤ u') : Sorted l vms u' :=
  Interval.Ordered.mono_right h hu

theorem Sorted.bounds (h : Sorted l vms u) (hp : p ∈ vms) :
    l ≤ p.vmStart ∧ p.vmStart < p.vmEnd ∧ p.vmEnd ≤ u :=
  Interval.Ordered.bounds h (List.mem_map_of_mem hp)

theorem Sorted.restrict (h : Sorted l vms u) (hl : l ≤ m) (hm : ∀ p ∈ vms, p.vmEnd ≤ m) :
    Sorted l vms m := by
  refine Interval.Ordered.restrict h hl fun i hi => ?_
  obtain ⟨p, hp, rfl⟩ := List.mem_map.mp hi
  exact hm p hp

theorem Sorted.coverage_eq_none (h : Sorted l vms u) (hx : x < l ∨ u ≤ x) :
    coverage vms x = none := by
  rw [← lookup_intervals]
  exact Interval.Ordered.lookup_eq_none h hx

theorem coverage_cons : coverage (p :: vms) x =
    if p.vmStart ≤ x ∧ x < p.vmEnd then some p.accessFlags else coverage vms x := by
  rw [← lookup_intervals, intervals_cons, Interval.lookup_cons, lookup_intervals]
  rfl

theorem coverage_append : coverage (xs ++ ys) x = (coverage xs x).or (coverage ys x) := by
  simp only [← lookup_intervals, intervals_append, Interval.lookup_append]

/-! ## The walk to the first area that ends after an address -/

/-- `vms` is split before the first area that ends after `addr`. -/
structure Walk (vms : List VmArea) (addr : Nat) (before rest : List VmArea) : Prop where
  eq : vms = before ++ rest
  before_le : ∀ p ∈ before, p.vmEnd ≤ addr
  lt_head : ∀ p ∈ rest.head?, addr < p.vmEnd

theorem walk (vms : List VmArea) (addr : Nat) :
    Walk vms addr (vms.takeWhile (·.vmEnd ≤ addr)) (vms.dropWhile (·.vmEnd ≤ addr)) := by
  refine ⟨List.takeWhile_append_dropWhile.symm, fun p hp => ?_, fun p hp => ?_⟩
  · simpa using List.all_eq_true.mp List.all_takeWhile p hp
  · have := List.head?_dropWhile_not (fun p : VmArea => decide (p.vmEnd ≤ addr)) vms
    rw [hp] at this
    simpa using this

namespace Walk

variable {addr : Nat} {before rest : List VmArea}

theorem find?_eq (h : Walk vms addr before rest) :
    vms.find? (addr < ·.vmEnd) = rest.head? := by
  rw [h.eq, List.find?_append, List.find?_eq_none.mpr (by simpa using h.before_le), Option.none_or]
  cases rest with
  | nil => rfl
  | cons p rest => exact List.find?_cons_of_pos (by simpa using h.lt_head p rfl)

theorem sorted_before (h : Walk vms addr before rest) (hs : Sorted l vms u) (hl : l ≤ addr) :
    Sorted l before addr := by
  rw [h.eq, sorted_append] at hs
  obtain ⟨m, hb, _⟩ := hs
  exact hb.restrict hl h.before_le

end Walk

/-! ## Insertions -/

/-- `vms'` is `vms` with `prot` put on the free range from `a` to `b`. -/
def InsertedAt (l : Nat) (vms : List VmArea) (prot : BitVec 32) (a b : Nat)
    (vms' : List VmArea) (u : Nat) : Prop :=
  ∃ xs ys, vms = xs ++ ys ∧ Sorted l xs a ∧ Sorted b ys u ∧
    Interval.Insert a b prot (intervals xs) (intervals ys) (intervals vms')

namespace InsertedAt

theorem fresh (prot : BitVec 32) (hx : Sorted l xs a) (hy : Sorted b ys u) :
    InsertedAt l (xs ++ ys) prot a b (xs ++ ⟨a, b, prot⟩ :: ys) u :=
  ⟨xs, ys, rfl, hx, hy, by simpa using .fresh (intervals xs) (intervals ys)⟩

theorem head (prot : BitVec 32) (hl : l ≤ a) (hy : Sorted b ys u) :
    InsertedAt l ys prot a b (⟨a, b, prot⟩ :: ys) u := by
  simpa using fresh prot (sorted_nil.mpr hl) hy

theorem head_right (hl : l ≤ a) (hy : Sorted b (n :: ys) u) (hn : n.vmStart = b)
    (hv : n.accessFlags = prot) :
    InsertedAt l (n :: ys) prot a b ({ n with vmStart := a } :: ys) u :=
  ⟨[], n :: ys, rfl, sorted_nil.mpr hl, hy, by
    simpa [VmArea.interval] using .right n.interval [] (intervals ys) hn hv⟩

theorem left (hx : Sorted l (xs ++ [p]) a) (hy : Sorted b ys u) (hp : p.vmEnd = a)
    (hv : p.accessFlags = prot) :
    InsertedAt l (xs ++ p :: ys) prot a b (xs ++ { p with vmEnd := b } :: ys) u :=
  ⟨xs ++ [p], ys, by simp, hx, hy, by
    simpa [VmArea.interval] using .left p.interval (intervals xs) (intervals ys) hp hv⟩

theorem right (hx : Sorted l xs a) (hy : Sorted b (n :: ys) u) (hn : n.vmStart = b)
    (hv : n.accessFlags = prot) :
    InsertedAt l (xs ++ n :: ys) prot a b (xs ++ { n with vmStart := a } :: ys) u :=
  ⟨xs, n :: ys, rfl, hx, hy, by
    simpa [VmArea.interval] using .right n.interval (intervals xs) (intervals ys) hn hv⟩

theorem both (hx : Sorted l (xs ++ [p]) a) (hy : Sorted b (n :: ys) u) (hp : p.vmEnd = a)
    (hv : p.accessFlags = prot) (hn : n.vmStart = b) (hv' : n.accessFlags = prot) :
    InsertedAt l (xs ++ p :: n :: ys) prot a b (xs ++ { p with vmEnd := n.vmEnd } :: ys) u :=
  ⟨xs ++ [p], n :: ys, by simp, hx, hy, by
    simpa [VmArea.interval] using
      .both p.interval n.interval (intervals xs) (intervals ys) hp hv hn hv'⟩

theorem sorted (h : InsertedAt l vms prot a b vms' u) (hab : a < b) : Sorted l vms' u := by
  obtain ⟨xs, ys, rfl, hx, hy, H⟩ := h
  exact H.ordered hx hab hy

theorem bounds (h : InsertedAt l vms prot a b vms' u) : l ≤ a ∧ b ≤ u := by
  obtain ⟨xs, ys, rfl, hx, hy, H⟩ := h
  exact ⟨hx.le, hy.le⟩

theorem free (h : InsertedAt l vms prot a b vms' u) (hx : a ≤ x) (hx' : x < b) :
    coverage vms x = none := by
  obtain ⟨xs, ys, rfl, h₁, h₂, _⟩ := h
  rw [coverage_append, h₁.coverage_eq_none (.inr hx), h₂.coverage_eq_none (.inl hx')]
  rfl

theorem coverage_eq (h : InsertedAt l vms prot a b vms' u) (hab : a < b) :
    coverage vms' x = if a ≤ x ∧ x < b then some prot else coverage vms x := by
  obtain ⟨xs, ys, rfl, hx, hy, H⟩ := h
  rw [← lookup_intervals, ← lookup_intervals, H.lookup_eq hx hab hy, intervals_append]

theorem length_le (h : InsertedAt l vms prot a b vms' u) : vms'.length ≤ vms.length + 1 := by
  obtain ⟨xs, ys, rfl, hx, hy, H⟩ := h
  simpa using H.length_le

theorem length_eq (h : InsertedAt l vms prot a b vms' u)
    (hv : ∀ p ∈ vms, p.accessFlags = prot → p.vmEnd ≠ a ∧ p.vmStart ≠ b) :
    vms'.length = vms.length + 1 := by
  obtain ⟨xs, ys, rfl, hx, hy, H⟩ := h
  have := H.length_eq (fun i hi hval => ?_) fun i hi hval => ?_
  · simpa using this
  · obtain ⟨p, hp, rfl⟩ := List.mem_map.mp hi
    exact (hv p (List.mem_append_left _ hp) hval).1
  · obtain ⟨p, hp, rfl⟩ := List.mem_map.mp hi
    exact (hv p (List.mem_append_right _ hp) hval).2

/-- The ends of the areas are old ends or ends of the new range. -/
theorem ends {Q : Nat → Prop} (h : InsertedAt l vms prot a b vms' u) (ha : Q a) (hb : Q b)
    (hv : ∀ p ∈ vms, Q p.vmStart ∧ Q p.vmEnd) : ∀ p ∈ vms', Q p.vmStart ∧ Q p.vmEnd := by
  obtain ⟨xs, ys, rfl, hx, hy, H⟩ := h
  intro p hp
  refine H.ends (P := Q) ha hb (fun i hi => ?_) p.interval (List.mem_map_of_mem hp)
  rw [← intervals_append] at hi
  obtain ⟨q, hq, rfl⟩ := List.mem_map.mp hi
  exact hv q hq

end InsertedAt

/-! ## Overwriting a range inside an area -/

/-- Every address from `a` to `b` belongs to an area. -/
def Covered (vms : List VmArea) (a b : Nat) : Prop :=
  ∀ x, a ≤ x → x < b → (coverage vms x).isSome

/-- `vms'` is `vms` with the flags of the range from `a` to `b` set to `prot`. A range that has
these flags already is left alone. -/
inductive Painted (l : Nat) (vms : List VmArea) (prot : BitVec 32) (a b : Nat) (u : Nat) :
    List VmArea → Prop where
  | same : (∀ x, a ≤ x → x < b → coverage vms x = some prot) → Painted l vms prot a b u vms
  | edit {free vms' : List VmArea} : intervals free = Interval.erase a b (intervals vms) →
      InsertedAt l free prot a b vms' u → Painted l vms prot a b u vms'

/-- The part of an area below `a`. -/
def VmArea.below (cur : VmArea) (a : Nat) : List VmArea :=
  if cur.vmStart < a then [{ cur with vmEnd := a }] else []

/-- The part of an area from `b` on. -/
def VmArea.above (cur : VmArea) (b : Nat) : List VmArea :=
  if b < cur.vmEnd then [{ cur with vmStart := b }] else []

namespace Painted

/-- A range inside an area is painted by cutting it out and inserting it again. -/
theorem of_cut (hs : Sorted l (xs ++ p :: ys) u) (ha : p.vmStart ≤ a) (hab : a < b)
    (hb : b ≤ p.vmEnd)
    (h : Sorted l (xs ++ p.below a) a → Sorted b (p.above b ++ ys) u →
      InsertedAt l ((xs ++ p.below a) ++ (p.above b ++ ys)) prot a b vms' u) :
    Painted l (xs ++ p :: ys) prot a b u vms' := by
  obtain ⟨hx, hp, hy⟩ := sorted_middle.mp hs
  refine .edit ?_ (h ?_ ?_)
  · have hbelow : intervals (p.below a) = Interval.below a p.interval := by
      rw [Interval.below, if_neg (show ¬p.interval.hi ≤ a by dsimp; omega), VmArea.below]
      by_cases hlt : p.vmStart < a <;> simp [hlt, VmArea.interval]
    have habove : intervals (p.above b) = Interval.above b p.interval := by
      rw [Interval.above, if_neg (show ¬b ≤ p.interval.lo by dsimp; omega), VmArea.above]
      by_cases hlt : b < p.vmEnd <;> simp [hlt, VmArea.interval]
    rw [Sorted, intervals_append, intervals_cons] at hs
    simp only [intervals_append, intervals_cons, hbelow, habove, List.append_assoc]
    exact (Interval.Ordered.erase_middle hs ha hab hb).symm
  · rw [VmArea.below]
    split
    next hlt => exact hx.append (sorted_cons.mpr ⟨le_rfl, hlt, sorted_nil.mpr le_rfl⟩)
    next hlt => simpa using hx.mono_right ha
  · rw [VmArea.above]
    split
    next hlt => exact sorted_cons.mpr ⟨le_rfl, hlt, hy⟩
    next hlt => exact hy.mono_left hb

/-! The edits, by where the range lies in the area and which neighbours it is joined with. -/

section
variable {f : BitVec 32}

theorem middle (hs : Sorted l (xs ++ p :: ys) u) (ha : p.vmStart < a) (hab : a < b)
    (hb : b < p.vmEnd) :
    Painted l (xs ++ p :: ys) prot a b u
      (xs ++ { p with vmEnd := a } :: ⟨a, b, prot⟩ :: { p with vmStart := b } :: ys) :=
  of_cut hs ha.le hab hb.le fun hx hy => by
    simpa [VmArea.below, VmArea.above, ha, hb] using InsertedAt.fresh prot hx hy

theorem back (hs : Sorted l (xs ++ p :: ys) u) (ha : p.vmStart < a) (hap : a < p.vmEnd) :
    Painted l (xs ++ p :: ys) prot a p.vmEnd u
      (xs ++ { p with vmEnd := a } :: ⟨a, p.vmEnd, prot⟩ :: ys) :=
  of_cut hs ha.le hap le_rfl fun hx hy => by
    simpa [VmArea.below, VmArea.above, ha] using InsertedAt.fresh prot hx hy

theorem back_right (hs : Sorted l (xs ++ p :: n :: ys) u) (ha : p.vmStart < a) (hap : a < p.vmEnd)
    (hn : n.vmStart = p.vmEnd) (hv : n.accessFlags = prot) :
    Painted l (xs ++ p :: n :: ys) prot a p.vmEnd u
      (xs ++ { p with vmEnd := a } :: { n with vmStart := a } :: ys) :=
  of_cut hs ha.le hap le_rfl fun hx hy => by
    have hy : Sorted p.vmEnd (n :: ys) u := by simpa [VmArea.above] using hy
    simpa [VmArea.below, VmArea.above, ha] using InsertedAt.right hx hy hn hv

theorem front (hs : Sorted l (xs ++ p :: ys) u) (hb : p.vmStart < b) (hbp : b < p.vmEnd) :
    Painted l (xs ++ p :: ys) prot p.vmStart b u
      (xs ++ ⟨p.vmStart, b, prot⟩ :: { p with vmStart := b } :: ys) :=
  of_cut hs le_rfl hb hbp.le fun hx hy => by
    simpa [VmArea.below, VmArea.above, hbp] using InsertedAt.fresh prot hx hy

theorem front_left (hs : Sorted l (xs ++ n :: p :: ys) u) (hb : p.vmStart < b) (hbp : b < p.vmEnd)
    (hn : n.vmEnd = p.vmStart) (hv : n.accessFlags = prot) :
    Painted l (xs ++ n :: p :: ys) prot p.vmStart b u
      (xs ++ { n with vmEnd := b } :: { p with vmStart := b } :: ys) := by
  have hs' : Sorted l ((xs ++ [n]) ++ p :: ys) u := by simpa using hs
  have : Painted l ((xs ++ [n]) ++ p :: ys) prot p.vmStart b u
      (xs ++ { n with vmEnd := b } :: { p with vmStart := b } :: ys) :=
    of_cut hs' le_rfl hb hbp.le fun hx hy => by
      have hx : Sorted l (xs ++ [n]) p.vmStart := by simpa [VmArea.below] using hx
      simpa [VmArea.below, VmArea.above, hbp] using InsertedAt.left hx hy hn hv
  simpa using this

theorem whole (hs : Sorted l (xs ++ p :: ys) u) (hp : p.vmStart < p.vmEnd) :
    Painted l (xs ++ p :: ys) prot p.vmStart p.vmEnd u
      (xs ++ { p with accessFlags := prot } :: ys) :=
  of_cut hs le_rfl hp le_rfl fun hx hy => by
    simpa [VmArea.below, VmArea.above] using InsertedAt.fresh prot hx hy

theorem whole_left (hs : Sorted l (xs ++ n :: p :: ys) u) (hp : p.vmStart < p.vmEnd)
    (hn : n.vmEnd = p.vmStart) (hv : n.accessFlags = prot) :
    Painted l (xs ++ n :: p :: ys) prot p.vmStart p.vmEnd u
      (xs ++ { n with vmEnd := p.vmEnd } :: ys) := by
  have hs' : Sorted l ((xs ++ [n]) ++ p :: ys) u := by simpa using hs
  have : Painted l ((xs ++ [n]) ++ p :: ys) prot p.vmStart p.vmEnd u
      (xs ++ { n with vmEnd := p.vmEnd } :: ys) :=
    of_cut hs' le_rfl hp le_rfl fun hx hy => by
      have hx : Sorted l (xs ++ [n]) p.vmStart := by simpa [VmArea.below] using hx
      simpa [VmArea.below, VmArea.above] using InsertedAt.left hx hy hn hv
  simpa using this

theorem whole_right (hs : Sorted l (xs ++ p :: n :: ys) u) (hp : p.vmStart < p.vmEnd)
    (hn : n.vmStart = p.vmEnd) (hv : n.accessFlags = prot) :
    Painted l (xs ++ p :: n :: ys) prot p.vmStart p.vmEnd u
      (xs ++ { p with vmEnd := n.vmEnd, accessFlags := prot } :: ys) :=
  of_cut hs le_rfl hp le_rfl fun hx hy => by
    have hy : Sorted p.vmEnd (n :: ys) u := by simpa [VmArea.above] using hy
    subst hv
    simpa [VmArea.below, VmArea.above] using InsertedAt.right hx hy hn rfl

theorem whole_both {m n : VmArea} (hs : Sorted l (xs ++ m :: p :: n :: ys) u)
    (hp : p.vmStart < p.vmEnd) (hm : m.vmEnd = p.vmStart) (hv : m.accessFlags = prot)
    (hn : n.vmStart = p.vmEnd) (hv' : n.accessFlags = prot) :
    Painted l (xs ++ m :: p :: n :: ys) prot p.vmStart p.vmEnd u
      (xs ++ { m with vmEnd := n.vmEnd } :: ys) := by
  have hs' : Sorted l ((xs ++ [m]) ++ p :: n :: ys) u := by simpa using hs
  have : Painted l ((xs ++ [m]) ++ p :: n :: ys) prot p.vmStart p.vmEnd u
      (xs ++ { m with vmEnd := n.vmEnd } :: ys) :=
    of_cut hs' le_rfl hp le_rfl fun hx hy => by
      have hx : Sorted l (xs ++ [m]) p.vmStart := by simpa [VmArea.below] using hx
      have hy : Sorted p.vmEnd (n :: ys) u := by simpa [VmArea.above] using hy
      simpa [VmArea.below, VmArea.above] using InsertedAt.both hx hy hm hv hn hv'
  simpa using this

end

theorem sorted (h : Painted l vms prot a b u vms') (hs : Sorted l vms u) (hab : a < b) :
    Sorted l vms' u := by
  cases h with
  | same => exact hs
  | edit _ h => exact h.sorted hab

theorem coverage_eq (h : Painted l vms prot a b u vms') (hs : Sorted l vms u) (hab : a < b) :
    coverage vms' x = if a ≤ x ∧ x < b then some prot else coverage vms x := by
  cases h with
  | same h =>
    split
    next hx => exact h x hx.1 hx.2
    next => rfl
  | edit hfree h =>
    rw [h.coverage_eq hab, show coverage vms x = _ from lookup_intervals.symm, ← lookup_intervals,
      hfree, Interval.Ordered.lookup_erase hs hab.le]
    split <;> rfl

theorem ends {Q : Nat → Prop} (h : Painted l vms prot a b u vms') (ha : Q a) (hb : Q b)
    (hv : ∀ p ∈ vms, Q p.vmStart ∧ Q p.vmEnd) : ∀ p ∈ vms', Q p.vmStart ∧ Q p.vmEnd := by
  cases h with
  | same => exact hv
  | edit hfree h =>
    refine h.ends ha hb fun p hp => ?_
    have hp : p.interval ∈ Interval.erase a b (intervals vms) :=
      hfree ▸ List.mem_map_of_mem (f := VmArea.interval) hp
    refine Interval.ends_of_mem_erase (P := Q) (fun _ _ _ _ => ha) (fun _ _ _ _ => hb)
      (fun i hi => ?_) p.interval hp
    obtain ⟨q, hq, rfl⟩ := List.mem_map.mp hi
    exact hv q hq

end Painted

end CS330
