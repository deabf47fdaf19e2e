import CS330.Lib.IntervalList
import Mathlib.Algebra.Order.Monoid.Defs
import Mathlib.Order.Bounds.Basic

/-! # The first gap in an interval list

`firstGap` looks for room between the intervals in order; on an ordered list it finds the least
start of a free range. -/

namespace CS330.Interval

variable {β α : Type*} [LinearOrder β] [AddCommMonoid β] [IsOrderedCancelAddMonoid β]
  {l u g len x : β} {i : Interval β α} {xs : List (Interval β α)}

/-- The range of length `len` from `g` on lies inside `l` to `u` and meets no interval. -/
def Free (xs : List (Interval β α)) (l u len g : β) : Prop :=
  l ≤ g ∧ g + len ≤ u ∧ ∀ x, g ≤ x → x < g + len → lookup xs x = none

/-- Where the first gap of length `len` starts, from `l` on. -/
def firstGap (len u : β) : β → List (Interval β α) → Option β
  | l, [] => if l + len ≤ u then some l else none
  | l, i :: xs => if l + len ≤ i.lo then some l else firstGap len u i.hi xs

/-- A free range lies in front of the first interval or behind it. -/
theorem Ordered.free_cons_iff (h : Ordered l (i :: xs) u) (hlen : 0 < len) :
    Free (i :: xs) l u len g ↔ l ≤ g ∧ g + len ≤ i.lo ∨ Free xs i.hi u len g := by
  obtain ⟨hl, hi, hxs⟩ := h
  constructor
  · rintro ⟨hg, hu, hfree⟩
    by_cases hfront : g + len ≤ i.lo
    · exact .inl ⟨hg, hfront⟩
    have hbehind : i.hi ≤ g := by
      by_contra hlt
      -- otherwise the range and the interval have an address in common
      have := hfree (max g i.lo) (le_max_left _ _)
        (max_lt (lt_add_of_pos_right _ hlen) (lt_of_not_ge hfront))
      rw [lookup_cons, if_pos ⟨le_max_right _ _, max_lt (lt_of_not_ge hlt) hi⟩] at this
      cases this
    refine .inr ⟨hbehind, hu, fun x hx hx' => ?_⟩
    have := hfree x hx hx'
    rwa [lookup_cons, if_neg fun h => h.2.not_ge (hbehind.trans hx)] at this
  · rintro (⟨hg, hfront⟩ | ⟨hg, hu, hfree⟩)
    · refine ⟨hg, hfront.trans (hi.le.trans hxs.le), fun x hx hx' => ?_⟩
      have hlt := hx'.trans_le hfront
      rw [lookup_cons, if_neg fun h => h.1.not_gt hlt]
      exact hxs.lookup_eq_none (.inl (hlt.trans hi))
    · refine ⟨hl.trans (hi.le.trans hg), hu, fun x hx hx' => ?_⟩
      rw [lookup_cons, if_neg fun h => h.2.not_ge (hg.trans hx)]
      exact hfree x hx hx'

theorem Ordered.firstGap_eq_none_iff (h : Ordered l xs u) (hlen : 0 < len) :
    firstGap len u l xs = none ↔ ∀ g, ¬Free xs l u len g := by
  induction xs generalizing l with
  | nil =>
    rw [firstGap]
    split
    next hfit => exact iff_of_false (by simp) fun hno => hno l ⟨le_rfl, hfit, fun _ _ _ => rfl⟩
    next hfit =>
      refine iff_of_true rfl fun g hg => hfit ?_
      exact (add_le_add_left hg.1 len).trans hg.2.1
  | cons i xs ih =>
    rw [firstGap]
    split
    next hfit =>
      exact iff_of_false (by simp) fun hno =>
        hno l ((h.free_cons_iff hlen).mpr (.inl ⟨le_rfl, hfit⟩))
    next hfit =>
      rw [ih h.2.2]
      refine forall_congr' fun g => not_congr ?_
      rw [h.free_cons_iff hlen]
      refine (or_iff_right fun hg => hfit ?_).symm
      exact (add_le_add_left hg.1 len).trans hg.2

/-- The search finds the least start of a free range. -/
theorem Ordered.isLeast_firstGap (h : Ordered l xs u) (hlen : 0 < len)
    (hg : firstGap len u l xs = some g) : IsLeast {g | Free xs l u len g} g := by
  induction xs generalizing l with
  | nil =>
    rw [firstGap] at hg
    split at hg
    next hfit =>
      obtain rfl := Option.some.inj hg
      exact ⟨⟨le_rfl, hfit, fun _ _ _ => rfl⟩, fun _ hg' => hg'.1⟩
    next => cases hg
  | cons i xs ih =>
    rw [firstGap] at hg
    split at hg
    next hfit =>
      obtain rfl := Option.some.inj hg
      exact ⟨(h.free_cons_iff hlen).mpr (.inl ⟨le_rfl, hfit⟩), fun _ hg' => hg'.1⟩
    next hfit =>
      have hnot {g} : ¬(l ≤ g ∧ g + len ≤ i.lo) := fun hg =>
        hfit ((add_le_add_left hg.1 len).trans hg.2)
      simpa only [h.free_cons_iff hlen, hnot, false_or] using ih h.2.2 hg

end CS330.Interval
