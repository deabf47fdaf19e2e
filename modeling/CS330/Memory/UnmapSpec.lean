import CS330.Memory.AreaList
import CS330.Memory.Calls

/-! # What the loop of `vm_area_unmap` does

For any arguments it keeps the list sorted. It erases the requested range exactly, unless the
first area from `addr` on starts beyond the range: that area is then extended down to the end of
the range (`StopsShort`). -/

namespace CS330

variable {l m u n curAddr addr len : Nat} {length : Int} {vms xs ys : List VmArea} {p b : VmArea}

/-! ## One area after the other -/

/-- What the loop does with its first area, and with the rest after it. -/
inductive UnmapWalk (n : Nat) : Nat → Int → List VmArea → Bool × List VmArea → Prop where
  | nil {curAddr : Nat} {length : Int} : UnmapWalk n curAddr length [] (true, [])
  | stop {curAddr : Nat} {length : Int} {curVm : VmArea} {rest : List VmArea} (hlen : length ≤ 0) :
      UnmapWalk n curAddr length (curVm :: rest) (true, curVm :: rest)
  | full {curAddr : Nat} {length : Int} {curVm : VmArea} {rest : List VmArea} (hn : 128 ≤ n)
      (hin : curVm.vmStart < curAddr ∧ curAddr < curVm.vmEnd) :
      UnmapWalk n curAddr length (curVm :: rest) (false, curVm :: rest)
  | split {curAddr : Nat} {length : Int} {curVm : VmArea} {rest : List VmArea}
      (hpos : 0 < length) (hn : n < 128) (hin : curVm.vmStart < curAddr ∧ curAddr < curVm.vmEnd)
      (hend : u64 (curAddr + length) < curVm.vmEnd) :
      UnmapWalk n curAddr length (curVm :: rest) (true, { curVm with vmEnd := curAddr } ::
        ⟨u64 (curAddr + length), curVm.vmEnd, curVm.accessFlags⟩ :: rest)
  | cutBack {curAddr : Nat} {length : Int} {curVm : VmArea} {rest rest' : List VmArea} {done : Bool}
      (hpos : 0 < length) (hin : curVm.vmStart < curAddr ∧ curAddr < curVm.vmEnd)
      (hend : curVm.vmEnd ≤ u64 (curAddr + length))
      (h : UnmapWalk n curAddr (int32 length) rest (done, rest')) :
      UnmapWalk n curAddr length (curVm :: rest) (done, { curVm with vmEnd := curAddr } :: rest')
  | cutFront {curAddr : Nat} {length : Int} {curVm : VmArea} {rest : List VmArea}
      (hpos : 0 < length) (hstart : curAddr ≤ curVm.vmStart)
      (hend : u64 (curAddr + length) < curVm.vmEnd) :
      UnmapWalk n curAddr length (curVm :: rest)
        (true, { curVm with vmStart := u64 (curAddr + length) } :: rest)
  | last {curAddr : Nat} {length : Int} {curVm : VmArea}
      (hpos : 0 < length) (hstart : curAddr ≤ curVm.vmStart)
      (hend : curVm.vmEnd ≤ u64 (curAddr + length)) : UnmapWalk n curAddr length [curVm] (true, [])
  | remove {curAddr : Nat} {length : Int} {curVm nextVm : VmArea} {rest : List VmArea}
      {res : Bool × List VmArea}
      (hpos : 0 < length) (hstart : curAddr ≤ curVm.vmStart)
      (hend : curVm.vmEnd ≤ u64 (curAddr + length))
      (h : UnmapWalk n nextVm.vmStart (int32 (length - (nextVm.vmStart - curAddr)))
        (nextVm :: rest) res) :
      UnmapWalk n curAddr length (curVm :: nextVm :: rest) res
  | pass {curAddr : Nat} {length : Int} {curVm : VmArea} {rest rest' : List VmArea} {done : Bool}
      (hpos : 0 < length) (hstart : curVm.vmStart < curAddr) (hend : curVm.vmEnd ≤ curAddr)
      (h : UnmapWalk n curAddr length rest (done, rest')) :
      UnmapWalk n curAddr length (curVm :: rest) (done, curVm :: rest')

theorem unmapLoop_walk (n curAddr : Nat) (length : Int) (vms : List VmArea) :
    UnmapWalk n curAddr length vms (unmapLoop n curAddr length vms) := by
  induction vms generalizing curAddr length with
  | nil => exact .nil
  | cons curVm rest ih =>
    rw [unmapLoop]
    split
    next hlen => exact .stop hlen
    next hlen =>
      have hpos : 0 < length := by omega
      split
      next hin =>
        split
        next hend =>
          split
          next hn => exact .full hn hin
          next hn => exact .split hpos (by omega) hin hend
        next hend =>
          dsimp only
          rw [Int.sub_self, Int.sub_zero]
          exact .cutBack hpos hin (by omega) (ih curAddr (int32 length))
      next hin =>
        split
        next hcut => exact .cutFront hpos hcut.1 hcut.2
        next hcut =>
          split
          next hcover =>
            cases rest with
            | nil => exact .last hpos hcover.1 hcover.2
            | cons nextVm rest => exact .remove hpos hcover.1 hcover.2 (ih _ _)
          next hcover => exact .pass hpos (by omega) (by omega) (ih curAddr length)

theorem u64_add_of_lt {b : Nat} (hpos : 0 < length) (hlen : length < 2 ^ 31) (hb : b < 2 ^ 63)
    (h : curAddr < b) : (u64 (curAddr + length) : Int) = curAddr + length := by
  unfold u64; omega

/-! ## The invariant, for any arguments -/

theorem unmapLoop_sorted (hs : Sorted l vms u) (hu : u < 2 ^ 63) (hm : m ≤ l)
    (hm' : 0 < length → m ≤ curAddr + length) (hlen : length < 2 ^ 31) :
    Sorted m (unmapLoop n curAddr length vms).2 u := by
  have hwalk := unmapLoop_walk n curAddr length vms
  generalize unmapLoop n curAddr length vms = res at hwalk ⊢
  induction hwalk generalizing l m with
  | nil | stop | full => exact hs.mono_left hm
  | split hpos _ hin hend =>
    obtain ⟨h₁, -, h₃⟩ := sorted_cons.mp hs
    have := h₃.le
    have hadd := u64_add_of_lt hpos hlen (by omega) hin.2
    exact sorted_cons.mpr ⟨hm.trans h₁, hin.1, sorted_cons.mpr ⟨by dsimp only; omega, hend, h₃⟩⟩
  | @cutBack curAddr _ _ _ _ _ hpos hin hend _ ih =>
    obtain ⟨h₁, -, h₃⟩ := sorted_cons.mp hs
    have hrest : Sorted curAddr _ u := ih h₃ hin.2.le (by omega) (int32_bounds _).2
    exact sorted_cons.mpr ⟨hm.trans h₁, hin.1, hrest⟩
  | cutFront hpos hstart hend =>
    obtain ⟨h₁, h₂, h₃⟩ := sorted_cons.mp hs
    have := h₃.le
    have hadd := u64_add_of_lt hpos hlen (by omega) (hstart.trans_lt h₂)
    exact sorted_cons.mpr ⟨by dsimp only; omega, hend, h₃⟩
  | last =>
    obtain ⟨h₁, h₂, h₃⟩ := sorted_cons.mp hs
    have := sorted_nil.mp h₃
    exact sorted_nil.mpr (by omega)
  | remove _ _ _ _ ih =>
    obtain ⟨h₁, h₂, h₃⟩ := sorted_cons.mp hs
    have := (sorted_cons.mp h₃).1
    exact ih h₃ (by omega) (by omega) (int32_bounds _).2
  | pass hpos hstart hend _ ih =>
    obtain ⟨h₁, h₂, h₃⟩ := sorted_cons.mp hs
    exact sorted_cons.mpr ⟨hm.trans h₁, h₂, ih h₃ le_rfl (by omega) hlen⟩

theorem unmapLoop_length :
    (unmapLoop n curAddr length vms).2.length ≤ vms.length + if n < 128 then 1 else 0 := by
  have hwalk := unmapLoop_walk n curAddr length vms
  generalize unmapLoop n curAddr length vms = res at hwalk ⊢
  induction hwalk with
  | nil | stop | full | cutFront | last => simp
  | split _ hn => simp [hn]
  | cutBack _ _ _ _ ih | pass _ _ _ _ ih =>
    simp only [List.length_cons] at ih ⊢
    omega
  | remove _ _ _ _ ih => exact ih.trans (by simp)

/-- Behind the areas that start before `addr` the loop has no early exit. -/
theorem UnmapWalk.done {res : Bool × List VmArea} (hwalk : UnmapWalk n curAddr length vms res)
    (hs : Sorted l vms u) (h : curAddr ≤ l) : res.1 = true := by
  induction hwalk generalizing l with
  | nil | stop | split | cutFront | last => rfl
  | full _ hin | cutBack _ hin =>
    obtain ⟨h₁, -, -⟩ := sorted_cons.mp hs
    omega
  | remove _ _ _ _ ih =>
    obtain ⟨-, -, h₃⟩ := sorted_cons.mp hs
    exact ih (sorted_cons.mpr ⟨le_rfl, h₃.2⟩) le_rfl
  | pass _ hstart =>
    obtain ⟨h₁, -, -⟩ := sorted_cons.mp hs
    omega

theorem unmapLoop_done (hs : Sorted l vms u) (h : curAddr ≤ l) :
    (unmapLoop n curAddr length vms).1 = true :=
  (unmapLoop_walk n curAddr length vms).done hs h

/-- The early exit is taken before any edit. -/
theorem unmapLoop_exit (hs : Sorted l vms u) (h : (unmapLoop n curAddr length vms).1 = false) :
    (unmapLoop n curAddr length vms).2 = vms := by
  have hwalk := unmapLoop_walk n curAddr length vms
  generalize unmapLoop n curAddr length vms = res at hwalk h ⊢
  induction hwalk generalizing l with
  | nil | stop | full => rfl
  | split | cutFront | last => cases h
  | cutBack _ hin _ hrest =>
    obtain ⟨-, -, h₃⟩ := sorted_cons.mp hs
    cases (hrest.done h₃ hin.2.le).symm.trans h
  | remove _ _ _ hrest =>
    obtain ⟨-, -, h₃⟩ := sorted_cons.mp hs
    cases (hrest.done (sorted_cons.mpr ⟨le_rfl, h₃.2⟩) le_rfl).symm.trans h
  | pass _ _ _ _ ih =>
    obtain ⟨-, -, h₃⟩ := sorted_cons.mp hs
    exact congrArg _ (ih h₃ h)

/-- Aligned arguments cut at aligned addresses. -/
theorem unmapLoop_aligned (haddr : 4096 ∣ curAddr) (hlen : 4096 ∣ length)
    (hv : ∀ p ∈ vms, 4096 ∣ p.vmStart ∧ 4096 ∣ p.vmEnd) :
    ∀ p ∈ (unmapLoop n curAddr length vms).2, 4096 ∣ p.vmStart ∧ 4096 ∣ p.vmEnd := by
  have hadd : ∀ {a : Nat} {k : Int}, 4096 ∣ a → 4096 ∣ k → 4096 ∣ u64 (a + k) := by
    intro a k ha hk
    unfold u64
    omega
  have hwalk := unmapLoop_walk n curAddr length vms
  generalize unmapLoop n curAddr length vms = res at hwalk ⊢
  induction hwalk with
  | nil | stop | full => exact hv
  | split =>
    obtain ⟨⟨hs, he⟩, hrest⟩ := List.forall_mem_cons.mp hv
    exact List.forall_mem_cons.mpr ⟨⟨hs, haddr⟩,
      List.forall_mem_cons.mpr ⟨⟨hadd haddr hlen, he⟩, hrest⟩⟩
  | cutBack _ _ _ _ ih =>
    obtain ⟨⟨hs, he⟩, hrest⟩ := List.forall_mem_cons.mp hv
    refine List.forall_mem_cons.mpr ⟨⟨hs, haddr⟩, ih haddr ?_ hrest⟩
    unfold int32
    omega
  | cutFront =>
    obtain ⟨⟨hs, he⟩, hrest⟩ := List.forall_mem_cons.mp hv
    exact List.forall_mem_cons.mpr ⟨⟨hadd haddr hlen, he⟩, hrest⟩
  | last => exact (List.forall_mem_cons.mp hv).2
  | @remove _ _ _ nextVm _ _ _ _ _ _ ih =>
    obtain ⟨-, hrest⟩ := List.forall_mem_cons.mp hv
    have hnext := (hrest nextVm List.mem_cons_self).1
    refine ih hnext ?_ hrest
    unfold int32
    omega
  | pass _ _ _ _ ih =>
    obtain ⟨hp, hrest⟩ := List.forall_mem_cons.mp hv
    exact List.forall_mem_cons.mpr ⟨hp, ih haddr hlen hrest⟩

/-! ## Which addresses lose their area -/

/-- An area reaches over both ends of the range: it is split. -/
def Splits (vms : List VmArea) (addr len : Nat) : Prop :=
  ∃ p ∈ vms, p.vmStart < addr ∧ addr + len < p.vmEnd

/-- The first area from `addr` on starts beyond the range. -/
def StopsShort (vms : List VmArea) (addr len : Nat) : Prop :=
  ∃ b, vms.find? (addr ≤ ·.vmStart) = some b ∧ addr + len < b.vmStart

/-- Behind the last area of the range the next one is so far away that the remaining length,
reduced to an `int`, comes out positive. -/
def Overruns (vms : List VmArea) (addr len : Nat) : Prop :=
  (∃ p ∈ vms, addr ≤ p.vmStart ∧ p.vmEnd ≤ addr + len) ∧
    (∀ q ∈ vms, q.vmStart < addr + len → q.vmEnd ≤ addr + len) ∧
    ∃ b, vms.find? (addr + len ≤ ·.vmStart) = some b ∧ 0 < int32 (addr + len - b.vmStart)

/-- The areas before the range, cut off at `addr`. -/
def cutAt (addr : Nat) (xs : List VmArea) : List VmArea :=
  xs.map fun p => { p with vmEnd := min p.vmEnd addr }

theorem intervals_cutAt (h : ∀ p ∈ xs, p.vmStart < addr) :
    intervals (cutAt addr xs) = (intervals xs).flatMap (Interval.below addr) := by
  induction xs with
  | nil => rfl
  | cons p xs ih =>
    obtain ⟨hp, hxs⟩ := List.forall_mem_cons.mp h
    have := ih hxs
    simp only [cutAt, List.map_cons, intervals_cons, List.flatMap_cons] at this ⊢
    rw [this, Interval.below, VmArea.interval_lo, VmArea.interval_hi]
    split
    next hle => simp [VmArea.interval, Nat.min_eq_left hle]
    next hle =>
      simp [VmArea.interval, Nat.min_eq_right (Nat.le_of_not_ge hle)]

/-- The areas that start before `addr` are passed, or cut off when they reach into the range. -/
theorem unmapLoop_passed (hxs : ∀ p ∈ xs, p.vmStart < addr ∧ p.vmEnd ≤ addr + len)
    (hu : ∀ p ∈ xs, p.vmEnd < 2 ^ 63) (hpos : 0 < len) (hlen : len < 2 ^ 31) :
    unmapLoop n addr len (xs ++ ys) =
      ((unmapLoop n addr len ys).1, cutAt addr xs ++ (unmapLoop n addr len ys).2) := by
  induction xs with
  | nil => rfl
  | cons p xs ih =>
    obtain ⟨⟨hstart, hend⟩, hxs⟩ := List.forall_mem_cons.mp hxs
    obtain ⟨hp, hu⟩ := List.forall_mem_cons.mp hu
    have ih := ih hxs hu
    rw [List.cons_append, unmapLoop, if_neg (by omega)]
    by_cases hin : addr < p.vmEnd
    · have hadd : u64 (addr + (len : Int)) = addr + len := by unfold u64; omega
      have hlen' : int32 (len - (addr - addr)) = len := by unfold int32; omega
      rw [if_pos ⟨hstart, hin⟩, hadd, if_neg (by omega)]
      simp only [hlen', ih]
      simp [cutAt, Nat.min_eq_right hin.le]
    · rw [if_neg (by omega), if_neg (by omega), if_neg (by omega)]
      simp only [ih]
      simp [cutAt, Nat.min_eq_left (Nat.le_of_not_lt hin)]

/-- The areas from `curAddr` on lose what lies before the end `e` of the range, if the first of
them starts in the range and the remaining length is never reduced to a positive number. -/
theorem unmapLoop_rest {e : Nat} (hs : Sorted l ys u) (hu : u < 2 ^ 63) (hl : curAddr ≤ l)
    (hlen : length = e - curAddr) (hpos : 0 < length) (hlt : length < 2 ^ 31)
    (hshort : ∀ b ∈ ys.head?, b.vmStart ≤ e)
    (hover : ∀ pre p b post, ys = pre ++ p :: b :: post → p.vmEnd ≤ e → e ≤ b.vmStart →
      int32 (e - b.vmStart) ≤ 0) :
    intervals (unmapLoop n curAddr length ys).2 =
      (intervals ys).flatMap (Interval.above e) := by
  induction ys generalizing l curAddr length with
  | nil => rfl
  | cons b rest ih =>
    obtain ⟨h₁, h₂, h₃⟩ := sorted_cons.mp hs
    have hend := h₃.le
    have hb : b.vmStart ≤ e := hshort b rfl
    have hadd : u64 (curAddr + length) = e := by unfold u64; omega
    rw [unmapLoop, if_neg (by omega), if_neg (by omega), hadd, intervals_cons, List.flatMap_cons]
    by_cases hcut : e < b.vmEnd
    · rw [if_pos ⟨by omega, hcut⟩, Interval.Ordered.above_eq (h₃.mono_left hcut.le),
        Interval.above, VmArea.interval_lo, VmArea.interval_hi, if_pos hcut]
      split
      next hle => simp [VmArea.interval, Nat.le_antisymm hb hle]
      next => rfl
    · rw [if_neg (by omega), if_pos ⟨by omega, by omega⟩, Interval.above, VmArea.interval_lo,
        VmArea.interval_hi, if_neg (by omega), if_neg hcut, List.nil_append]
      cases rest with
      | nil => rfl
      | cons nextVm rest =>
        obtain ⟨hgap, hnext⟩ := sorted_cons.mp h₃
        have hnext : Sorted nextVm.vmStart (nextVm :: rest) u := sorted_cons.mpr ⟨le_rfl, hnext⟩
        have hlen' : length - (nextVm.vmStart - curAddr) = e - nextVm.vmStart := by omega
        simp only [List.head?_cons, hlen']
        by_cases hfar : e ≤ nextVm.vmStart
        · have := hover [] b nextVm rest rfl (by omega) hfar
          rw [unmapLoop, if_pos this, Interval.Ordered.above_eq (hnext.mono_left hfar)]
        · have hexact : int32 (e - nextVm.vmStart) = e - nextVm.vmStart := by
            unfold int32
            omega
          rw [hexact]
          refine ih hnext le_rfl rfl (by omega) (by omega) (by simpa using by omega) ?_
          intro pre p b' post he
          exact hover (b :: pre) p b' post (by rw [he]; rfl)

/-! ## The three ways a call goes -/

/-- The areas that start before `addr`, and the others. -/
theorem exists_split_at (hs : Sorted l vms u) (addr : Nat) :
    ∃ xs ys, vms = xs ++ ys ∧ (∀ p ∈ xs, p.vmStart < addr) ∧ (∀ p ∈ ys, addr ≤ p.vmStart) ∧
      vms.find? (addr ≤ ·.vmStart) = ys.head? := by
  induction vms generalizing l with
  | nil => exact ⟨[], [], rfl, by simp, by simp, rfl⟩
  | cons p vms ih =>
    obtain ⟨h₁, h₂, h₃⟩ := sorted_cons.mp hs
    by_cases hp : addr ≤ p.vmStart
    · refine ⟨[], p :: vms, rfl, by simp, ?_, by simp [hp]⟩
      refine List.forall_mem_cons.mpr ⟨hp, fun q hq => ?_⟩
      have := (h₃.bounds hq).1
      omega
    · obtain ⟨xs, ys, rfl, hxs, hys, hfind⟩ := ih h₃
      refine ⟨p :: xs, ys, rfl, List.forall_mem_cons.mpr ⟨by omega, hxs⟩, hys, ?_⟩
      rw [List.find?_cons_of_neg (by simpa using hp), hfind]

section
variable (hs : Sorted l vms u) (hu : u < 2 ^ 63) (hpos : 0 < len) (hlen : len < 2 ^ 31)
include hs hu hpos hlen

/-- A range strictly inside an area is cut out of it, if the list has room. -/
theorem unmapLoop_splits (h : Splits vms addr len) :
    ((unmapLoop n addr len vms).1 = true ↔ n < 128) ∧
      (n < 128 → intervals (unmapLoop n addr len vms).2 =
        Interval.erase addr (addr + len) (intervals vms)) := by
  obtain ⟨p, hp, hstart, hend⟩ := h
  obtain ⟨xs, ys, rfl⟩ := List.append_of_mem hp
  have hu' := fun q hq => (hs.bounds (p := q) hq).2.2
  obtain ⟨hxs, hp, hys⟩ := sorted_middle.mp hs
  have hadd : u64 (addr + (len : Int)) = addr + len := by
    have := hys.le
    unfold u64; omega
  have hcut : cutAt addr xs = xs := by
    rw [cutAt, List.map_congr_left (g := id), List.map_id]
    intro q hq
    have := (hxs.bounds hq).2.2
    simp [Nat.min_eq_left (this.trans hstart.le)]
  rw [unmapLoop_passed (fun q hq => ?_) (fun q hq => ?_) hpos hlen, unmapLoop,
    if_neg (by omega), if_pos ⟨hstart, by omega⟩, hadd, if_pos hend, hcut]
  · by_cases hn : n < 128
    · rw [if_neg (by omega)]
      refine ⟨by simp [hn], fun _ => ?_⟩
      simp only [Interval.erase, intervals_append, intervals_cons, List.flatMap_append,
        List.flatMap_cons]
      rw [Interval.below_of_mem (i := p.interval) hstart (by dsimp; omega),
        Interval.above_of_mem (i := p.interval) (by dsimp; omega) hend]
      rw [Interval.Ordered.below_eq (Interval.Ordered.mono_right hxs hstart.le),
        Interval.Ordered.above_eq_nil (Interval.Ordered.mono_right hxs (by omega)),
        Interval.Ordered.below_eq_nil (Interval.Ordered.mono_left hys (by omega)),
        Interval.Ordered.above_eq (Interval.Ordered.mono_left hys hend.le)]
      simp [VmArea.interval]
    · rw [if_pos (by omega)]
      exact ⟨by simp [hn], fun h => (hn h).elim⟩
  · have := (hxs.bounds hq).2.2
    have := (hxs.bounds hq).2.1
    omega
  · have := hu' q (by simp [hq])
    omega

omit hs hu hpos hlen in
theorem passed_of_not_splits (h : ¬Splits (xs ++ ys) addr len) (hxs : ∀ p ∈ xs, p.vmStart < addr) :
    ∀ p ∈ xs, p.vmStart < addr ∧ p.vmEnd ≤ addr + len :=
  fun p hp => ⟨hxs p hp, Nat.le_of_not_lt fun hlt =>
    h ⟨p, List.mem_append_left _ hp, hxs p hp, hlt⟩⟩

/-- The range is erased when the area behind `addr`, if any, starts inside it. -/
theorem unmapLoop_erases (hl : l ≤ addr + len) (hsplit : ¬Splits vms addr len)
    (hshort : ¬StopsShort vms addr len) (hover : ¬Overruns vms addr len) :
    (unmapLoop n addr len vms).1 = true ∧ intervals (unmapLoop n addr len vms).2 =
      Interval.erase addr (addr + len) (intervals vms) := by
  obtain ⟨xs, ys, rfl, hxs, hys, hfind⟩ := exists_split_at hs addr
  have hpassed := passed_of_not_splits hsplit hxs
  have hends := fun q hq => (hs.bounds (p := q) hq).2.2
  obtain ⟨m, hsx, hsy⟩ := sorted_append.mp hs
  have habove : (intervals xs).flatMap (Interval.above (addr + len)) = [] :=
    Interval.Ordered.above_eq_nil (hsx.restrict hl fun p hp => (hpassed p hp).2)
  rw [unmapLoop_passed hpassed (fun q hq => ?_) hpos hlen]
  swap
  · have := hends q (by simp [hq])
    omega
  rw [intervals_append, intervals_cutAt hxs, Interval.erase, intervals_append,
    List.flatMap_append, List.flatMap_append, habove]
  cases ys with
  | nil => simp [unmapLoop]
  | cons b ys =>
    have hstart : addr ≤ b.vmStart := hys b List.mem_cons_self
    have hsy' : Sorted addr (b :: ys) u := sorted_cons.mpr ⟨hstart, (sorted_cons.mp hsy).2⟩
    have hin : b.vmStart ≤ addr + len := by
      refine Nat.le_of_not_lt fun hlt => hshort ⟨b, ?_, hlt⟩
      rw [hfind]
      rfl
    refine ⟨unmapLoop_done hsy' le_rfl, ?_⟩
    rw [unmapLoop_rest (e := addr + len) hsy' hu le_rfl (by omega) (by omega) (by omega)
      (by simpa using hin), Interval.Ordered.below_eq_nil hsy']
    · simp
    · -- the pair around the end of the range
      intro pre p b' post he hp hb'
      rw [he, sorted_append] at hsy'
      obtain ⟨m', hpre, hpost⟩ := hsy'
      obtain ⟨hp₁, hp₂, hp₃⟩ := sorted_cons.mp hpost
      -- the areas up to `p` end in the range, those from `b'` on start behind it
      have hfirst : ∀ q ∈ pre ++ [p], q.vmEnd ≤ addr + len ∧ q.vmStart < addr + len := by
        intro q hq
        rcases List.mem_append.mp hq with hq | hq
        · obtain ⟨_, h₁, h₂⟩ := hpre.bounds hq
          omega
        · cases List.mem_singleton.mp hq
          omega
      have hlast : ∀ q ∈ b' :: post, addr + len ≤ q.vmStart := by
        intro q hq
        obtain ⟨_, h₁, h₂⟩ := sorted_cons.mp hp₃
        rcases List.mem_cons.mp hq with rfl | hq
        · exact hb'
        · have := (h₂.bounds hq).1
          omega
      have hsplit' : xs ++ b :: ys = (xs ++ (pre ++ [p])) ++ b' :: post := by simp [he]
      refine Int.not_lt.mp fun hlt => hover
        ⟨⟨p, by simp [he], hys p (by simp [he]), hp⟩, fun q hq hlt' => ?_, b', ?_, by simpa using hlt⟩
      · rw [hsplit'] at hq
        rcases List.mem_append.mp hq with hq | hq
        · rcases List.mem_append.mp hq with hq | hq
          · exact (hpassed q hq).2
          · exact (hfirst q hq).1
        · have := hlast q hq
          omega
      · rw [List.find?_eq_some_iff_append]
        refine ⟨by simpa using hb', _, _, hsplit', fun q hq => ?_⟩
        have : q.vmStart < addr + len := by
          rcases List.mem_append.mp hq with hq | hq
          · have := hxs q hq
            omega
          · exact (hfirst q hq).2
        simpa using this

/-- When the first area behind `addr` starts beyond the range, it is extended down to the end of
the range. -/
theorem unmapLoop_extends (hsplit : ¬Splits vms addr len) (hshort : StopsShort vms addr len) :
    ∃ xs b ys, vms = xs ++ b :: ys ∧ (∀ p ∈ xs, p.vmStart < addr ∧ p.vmEnd ≤ addr + len) ∧
      addr + len < b.vmStart ∧ unmapLoop n addr len vms =
        (true, cutAt addr xs ++ { b with vmStart := addr + len } :: ys) := by
  obtain ⟨xs, ys, rfl, hxs, hys, hfind⟩ := exists_split_at hs addr
  have hpassed := passed_of_not_splits hsplit hxs
  have hends := fun q hq => (hs.bounds (p := q) hq).2.2
  obtain ⟨b, hb, hlt⟩ := hshort
  rw [hfind] at hb
  obtain ⟨ys, rfl⟩ := List.head?_eq_some_iff.mp hb
  refine ⟨xs, b, ys, rfl, hpassed, hlt, ?_⟩
  obtain ⟨_, hne, hbu⟩ := hs.bounds (p := b) (by simp)
  have hadd : u64 (addr + (len : Int)) = addr + len := by unfold u64; omega
  rw [unmapLoop_passed hpassed (fun q hq => ?_) hpos hlen, unmapLoop, if_neg (by omega),
    if_neg (by omega), hadd, if_pos ⟨by omega, by omega⟩]
  have := hends q (by simp [hq])
  omega

end

end CS330
