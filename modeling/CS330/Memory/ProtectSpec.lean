import CS330.Memory.AreaList
import CS330.Memory.Calls

/-! # What `vm_area_mprotect` does

One activation checks its arguments, sets the flags of the part of the range in the first area
and leaves the rest of the range to the self-call: `Activation`. -/

namespace CS330

variable {H : Header} {P : Paging H} {c : ExecContext P} {prot : BitVec 32}
  {l u a b e addr : Nat} {length : Int} {vms before rest : List VmArea} {cur : VmArea}

/-! ## The scan for holes -/

theorem covered_cons_of_mem (ha : cur.vmStart ≤ a) (hae : a ≤ cur.vmEnd) :
    Covered (cur :: vms) a b ↔ Covered vms cur.vmEnd b := by
  constructor
  · intro h x hx hxb
    have := h x (hae.trans hx) hxb
    rwa [coverage_cons, if_neg (by omega)] at this
  · intro h x hx hxb
    rw [coverage_cons]
    split
    next => rfl
    next hout => exact h x (by omega) hxb

theorem covered_cons_of_not_mem (hs : Sorted l (cur :: vms) u)
    (ha : ¬(cur.vmStart ≤ a ∧ a < cur.vmEnd)) (hab : a < b) :
    Covered (cur :: vms) a b ↔ Covered vms a b := by
  by_cases hlt : a < cur.vmStart
  · -- a range that starts in front of the area starts in a hole
    obtain ⟨h₁, h₂, h₃⟩ := sorted_cons.mp hs
    have hnone : coverage vms a = none := h₃.coverage_eq_none (.inl (by omega))
    refine iff_of_false (fun h => ?_) fun h => ?_
    · have := h a le_rfl hab
      rw [coverage_cons, if_neg ha, hnone] at this
      cases this
    · have := h a le_rfl hab
      rw [hnone] at this
      cases this
  · refine forall_congr' fun x => forall_congr' fun hx => forall_congr' fun hxb => ?_
    rw [coverage_cons, if_neg (by omega)]

/-- The scan finds out whether the range, before its length is rounded up, is covered. -/
theorem protectScan_iff (hs : Sorted l vms u) (hu : u < 2 ^ 63) (hpos : 0 < length)
    (hlen : length < 2 ^ 31) :
    protectScan addr length vms = true ↔ Covered vms addr (addr + length.toNat) := by
  induction vms generalizing l addr length with
  | nil =>
    refine iff_of_false (by simp [protectScan]) fun h => ?_
    have := h addr le_rfl (by omega)
    simp [coverage] at this
  | cons cur rest ih =>
    obtain ⟨h₁, h₂, h₃⟩ := sorted_cons.mp hs
    have hend := h₃.le
    rw [protectScan]
    split
    next hin =>
      have hadd : u64 (addr + length) = addr + length.toNat := by unfold u64; omega
      rw [hadd]
      split
      next hle =>
        refine iff_of_true rfl fun x hx hxb => ?_
        rw [coverage_cons, if_pos ⟨by omega, by omega⟩]
        rfl
      next hgt =>
        -- the truncation of `temp_addr` to `int` is undone by the one of the difference
        have hrest : int32 (length - (cur.vmEnd - int32 addr)) = length - (cur.vmEnd - addr) := by
          unfold int32
          omega
        rw [covered_cons_of_mem hin.1 hin.2.le]
        simp only [hrest]
        rw [ih h₃ (by omega) (by omega)]
        have : cur.vmEnd + (length - (cur.vmEnd - addr)).toNat = addr + length.toNat := by omega
        rw [this]
    next hout => rw [ih h₃ hpos hlen, covered_cons_of_not_mem hs hout (by omega)]

/-! ## The first area of the range -/

/-- `cur` is the area of the list that contains `addr`. -/
structure AreaAt (vms : List VmArea) (addr : Nat) (before : List VmArea) (cur : VmArea)
    (rest : List VmArea) : Prop where
  split : vms = before ++ cur :: rest
  start_le : cur.vmStart ≤ addr
  lt_end : addr < cur.vmEnd

namespace AreaAt

/-- The walk stops at the area that contains `addr`. -/
theorem walk_eq (h : AreaAt vms addr before cur rest) (hs : Sorted l vms u) :
    vms.takeWhile (·.vmEnd ≤ addr) = before ∧ vms.dropWhile (·.vmEnd ≤ addr) = cur :: rest := by
  obtain ⟨rfl, hstart, hend⟩ := h
  obtain ⟨hb, _, _⟩ := sorted_middle.mp hs
  have hle : ∀ p ∈ before, decide (p.vmEnd ≤ addr) = true := fun p hp => by
    simpa using ((hb.bounds hp).2.2).trans hstart
  have hcur : ¬cur.vmEnd ≤ addr := hend.not_ge
  rw [List.takeWhile_append_of_pos hle, List.dropWhile_append_of_pos hle]
  simp [hcur]

theorem unique {before' rest' : List VmArea} {cur' : VmArea}
    (h : AreaAt vms addr before cur rest) (h' : AreaAt vms addr before' cur' rest')
    (hs : Sorted l vms u) : before' = before ∧ cur' = cur ∧ rest' = rest := by
  have W := h.walk_eq hs
  have W' := h'.walk_eq hs
  exact ⟨W'.1.symm.trans W.1, List.cons.inj (W'.2.symm.trans W.2)⟩

theorem mem (h : AreaAt vms addr before cur rest) : cur ∈ vms := by simp [h.split]

theorem length_eq (h : AreaAt vms addr before cur rest) :
    vms.length = before.length + rest.length + 1 := by
  rw [h.split, List.length_append, List.length_cons]
  omega

theorem coverage_eq (h : AreaAt vms addr before cur rest) (hs : Sorted l vms u) {x : Nat}
    (hx : cur.vmStart ≤ x) (hx' : x < cur.vmEnd) : coverage vms x = some cur.accessFlags := by
  rw [← lookup_intervals]
  refine Interval.Ordered.lookup_eq_some hs (i := cur.interval) ?_ hx hx'
  rw [h.split]
  simp

end AreaAt

theorem exists_areaAt (hcur : cur ∈ vms) (h : cur.vmStart ≤ addr) (h' : addr < cur.vmEnd) :
    ∃ before rest, AreaAt vms addr before cur rest := by
  obtain ⟨before, rest, rfl⟩ := List.append_of_mem hcur
  exact ⟨before, rest, rfl, h, h'⟩

theorem Covered.areaAt (h : Covered vms a b) (hab : a < b) :
    ∃ before cur rest, AreaAt vms a before cur rest := by
  obtain ⟨cur, hmem, hcur⟩ : ∃ p ∈ vms, p.vmStart ≤ a ∧ a < p.vmEnd := by
    simpa [coverage] using h a le_rfl hab
  obtain ⟨before, rest, hat⟩ := exists_areaAt hmem hcur.1 hcur.2
  exact ⟨before, cur, rest, hat⟩

/-- The number of areas that setting the flags of `cur` from `addr` to `e` adds to the list; a
part of the range behind `cur` is left to the self-call. -/
def areasNeeded (before : List VmArea) (cur : VmArea) (rest : List VmArea) (prot : BitVec 32)
    (addr e : Nat) : Nat :=
  if cur.accessFlags = prot then 0
  else if cur.vmStart < addr then
    if e < cur.vmEnd then 2
    else if e = cur.vmEnd ∧ (joinNext cur rest prot).isSome then 0
    else 1
  else if e < cur.vmEnd ∧ (joinPrev before cur prot).isNone then 1
  else 0

/-- An activation on `addr` and `length`, rounded up to end at `e`, gets past its checks: `cur` is
the first area of the range. -/
structure Enters (H : Header) (vms : List VmArea) (prot : BitVec 32) (addr : Nat) (length : Int)
    (e : Nat) (before : List VmArea) (cur : VmArea) (rest : List VmArea) : Prop
    extends AreaAt vms addr before cur rest where
  covered : Covered vms addr (addr + length.toNat)
  region : H.mmapAreaStart ≤ addr ∧ e ≤ H.mmapAreaEnd
  room : vms.length + areasNeeded before cur rest prot addr e ≤ 128

/-- The part of the range in `cur` has the flags `prot` already and is not joined with the area
in front of it. -/
def Keeps (before : List VmArea) (cur : VmArea) (prot : BitVec 32) (addr : Nat) : Prop :=
  cur.accessFlags = prot ∧ (cur.vmStart = addr → joinPrev before cur prot = none)

/-- The results of one activation of `vm_area_mprotect` on a range that ends, rounded up, at `e`. -/
inductive Activation (c : ExecContext P) (prot : BitVec 32) (l addr : Nat) (length : Int)
    (e : Nat) : Outcome (ProtectArgs P) (Int × ExecContext P) → Prop where
  | refused : (∀ before cur rest, Enters H c.vmArea prot addr length e before cur rest →
      cur.vmEnd < e ∧ rest = []) →
      Activation c prot l addr length e (.ret (-1, c))
  | last {before rest vms : List VmArea} {cur : VmArea} :
      Enters H c.vmArea prot addr length e before cur rest → e ≤ cur.vmEnd →
      Painted l c.vmArea prot addr e H.mmapAreaEnd vms → vms.length ≤ 128 →
      (cur.vmStart < addr → cur.accessFlags = prot → vms = c.vmArea) →
      Activation c prot l addr length e (protectReturn c prot addr (roundUp length) vms)
  | more {before rest front : List VmArea} {cur prev : VmArea} :
      Enters H c.vmArea prot addr length e before cur rest → cur.vmEnd < e → rest ≠ [] →
      prev.vmEnd = cur.vmEnd → prev.accessFlags = prot →
      Painted l c.vmArea prot addr cur.vmEnd H.mmapAreaEnd (front ++ prev :: rest) →
      (front ++ prev :: rest).length ≤ 128 →
      (Keeps before cur prot addr → front ++ [prev] = before ++ [cur]) →
      (cur.vmStart = addr → joinPrev before cur prot ≠ none → front.length < before.length) →
      Activation c prot l addr length e
        (protectRest c cur.vmEnd addr (roundUp length) (front ++ prev :: rest))

/-! ### The branches -/

theorem joinNext_eq_some {next : VmArea} (h : joinNext cur rest prot = some next) :
    ∃ ys, rest = next :: ys ∧ next.vmStart = cur.vmEnd ∧ next.accessFlags = prot := by
  cases rest with
  | nil => cases h
  | cons n ys =>
    simp only [joinNext, List.head?_cons, Option.filter_eq_some_iff, Option.some.injEq,
      decide_eq_true_eq] at h
    obtain ⟨rfl, he, hf⟩ := h
    exact ⟨ys, rfl, he.symm, hf⟩

theorem joinPrev_eq_some {prev : VmArea} (h : joinPrev before cur prot = some prev) :
    ∃ xs, before = xs ++ [prev] ∧ prev.vmEnd = cur.vmStart ∧ prev.accessFlags = prot := by
  simp only [joinPrev, Option.filter_eq_some_iff, decide_eq_true_eq] at h
  obtain ⟨hlast, he, hf⟩ := h
  obtain ⟨xs, rfl⟩ := List.getLast?_eq_some_iff.mp hlast
  exact ⟨xs, rfl, he, hf⟩

section
variable (hs : Sorted l c.vmArea H.mmapAreaEnd) (hv : ValidLength length)
  (hat : AreaAt c.vmArea addr before cur rest)
  (hcov : Covered c.vmArea addr (addr + length.toNat))
  (hreg : H.mmapAreaStart ≤ addr ∧ addr + (roundUp length).toNat ≤ H.mmapAreaEnd)
include hs hat

theorem Activation.of_full
    (hfull : 128 < c.vmArea.length + areasNeeded before cur rest prot addr e) :
    Activation c prot l addr length e (.ret (-1, c)) := by
  refine .refused fun before' cur' rest' E => ?_
  obtain ⟨rfl, rfl, rfl⟩ := hat.unique E.toAreaAt hs
  have := E.room
  omega

theorem Activation.of_last (hlt : cur.vmEnd < e) (hrest : rest = []) :
    Activation c prot l addr length e (.ret (-1, c)) := by
  refine .refused fun before' cur' rest' E => ?_
  obtain ⟨rfl, rfl, rfl⟩ := hat.unique E.toAreaAt hs
  exact ⟨hlt, hrest⟩

include hv hcov hreg

/-- The range ends inside `cur` or with it. -/
theorem protectInside_within (hstart : cur.vmStart < addr) (hcount : c.vmArea.length ≤ 128)
    (hend : addr + (roundUp length).toNat ≤ cur.vmEnd) :
    Activation c prot l addr length (addr + (roundUp length).toNat)
      (protectInside c prot before cur rest addr (roundUp length)) := by
  have hlt := H.end_lt
  have hlast := hat.lt_end
  have hpos : addr < addr + (roundUp length).toNat := by have := hv.roundUp.1; omega
  have hs' := hat.split ▸ hs
  have hlen := hat.length_eq
  have hadd : u64 (addr + roundUp length) = _ := hv.end_eq (by omega)
  have enters : _ → Enters H c.vmArea prot addr length (addr + (roundUp length).toNat) before cur
    rest := .mk hat hcov hreg
  have full : _ → Activation c prot l addr length (addr + (roundUp length).toNat) (.ret (-1, c)) :=
    .of_full hs hat
  simp only [areasNeeded, if_pos hstart] at enters full
  simp only [protectInside, hadd]
  generalize addr + (roundUp length).toNat = e at *
  split
  next hkeep =>
    rw [if_pos hkeep.1] at enters
    refine .last (enters (by omega)) hend (.same fun x hx hx' => ?_) hcount fun _ _ => rfl
    rw [hat.coverage_eq hs (by omega) (by omega), hkeep.1]
  next hkeep =>
    have hflags : cur.accessFlags ≠ prot := fun h => hkeep ⟨h, hend⟩
    rw [if_neg hflags] at enters full
    split
    next hmid =>
      rw [if_pos hmid] at enters full
      split
      next hfull => exact full (by omega)
      next hroom =>
        refine .last (enters (by omega)) hend ?_ ?_ fun _ h => (hflags h).elim
        · rw [hat.split]
          exact .middle hs' hstart (by omega) hmid
        · simp
          omega
    next hmid =>
      obtain rfl : e = cur.vmEnd := by omega
      rw [if_neg hmid] at enters full
      rw [if_pos rfl]
      cases hn : joinNext cur rest prot with
      | none =>
        rw [if_neg (by simp [hn])] at enters full
        dsimp only
        split
        next hfull => exact full (by omega)
        next hroom =>
          refine .last (enters (by omega)) le_rfl ?_ ?_ fun _ h => (hflags h).elim
          · rw [hat.split]
            exact .back hs' hstart hlast
          · simp
            omega
      | some next =>
        obtain ⟨ys, rfl, hnext, hflags'⟩ := joinNext_eq_some hn
        rw [if_pos (by simp [hn])] at enters
        refine .last (enters (by omega)) le_rfl ?_ ?_ fun _ h => (hflags h).elim
        · rw [hat.split]
          exact .back_right hs' hstart hlast hnext hflags'
        · simp at hlen ⊢
          omega

/-- The range goes on behind `cur`. -/
theorem protectInside_beyond (hstart : cur.vmStart < addr) (hcount : c.vmArea.length ≤ 128)
    (hbeyond : cur.vmEnd < addr + (roundUp length).toNat) :
    Activation c prot l addr length (addr + (roundUp length).toNat)
      (protectInside c prot before cur rest addr (roundUp length)) := by
  have hlt := H.end_lt
  have hlast := hat.lt_end
  have hs' := hat.split ▸ hs
  have hlen := hat.length_eq
  have hadd : u64 (addr + roundUp length) = _ := hv.end_eq (by omega)
  have enters : _ → Enters H c.vmArea prot addr length (addr + (roundUp length).toNat) before cur
    rest := .mk hat hcov hreg
  have full : _ → Activation c prot l addr length (addr + (roundUp length).toNat) (.ret (-1, c)) :=
    .of_full hs hat
  simp only [areasNeeded, if_pos hstart, if_neg hbeyond.not_gt, hbeyond.ne', false_and,
    if_false] at enters full
  simp only [protectInside, hadd, if_neg hbeyond.not_gt, if_neg hbeyond.ne']
  generalize addr + (roundUp length).toNat = e at *
  rw [if_neg fun h => h.2.not_gt hbeyond]
  split
  next hrest => exact .of_last hs hat hbeyond hrest
  next hrest =>
    split
    next hflags =>
      rw [if_pos hflags] at enters
      have hsplit : c.vmArea = before ++ cur :: rest := hat.split
      rw [hsplit]
      refine .more (enters (by omega)) hbeyond hrest rfl hflags ?_ ?_ (fun _ => rfl) (by omega)
      · rw [← hsplit]
        refine .same fun x hx hx' => ?_
        rw [hat.coverage_eq hs (by omega) hx', hflags]
      · rwa [← hsplit]
    next hflags =>
      rw [if_neg hflags] at enters full
      split
      next hfull => exact full (by omega)
      next hroom =>
        have hareas : before ++ { cur with vmEnd := addr } :: ⟨addr, cur.vmEnd, prot⟩ :: rest =
            (before ++ [{ cur with vmEnd := addr }]) ++ ⟨addr, cur.vmEnd, prot⟩ :: rest := by
          simp
        rw [hareas]
        refine .more (enters (by omega)) hbeyond hrest rfl rfl ?_ ?_
          (fun h => (hflags h.1).elim) (by omega)
        · rw [← hareas, hat.split]
          exact .back hs' hstart hlast
        · simp
          omega

theorem protectInside_activation (hstart : cur.vmStart < addr) (hcount : c.vmArea.length ≤ 128) :
    Activation c prot l addr length (addr + (roundUp length).toNat)
      (protectInside c prot before cur rest addr (roundUp length)) := by
  rcases le_or_gt (addr + (roundUp length).toNat) cur.vmEnd with hend | hbeyond
  · exact protectInside_within hs hv hat hcov hreg hstart hcount hend
  · exact protectInside_beyond hs hv hat hcov hreg hstart hcount hbeyond

omit hs hv in
/-- From the start of `cur` on to its end or further there is always room. -/
theorem enters_front (hstart : cur.vmStart = addr) (hcount : c.vmArea.length ≤ 128)
    (hcur : cur.vmEnd ≤ addr + (roundUp length).toNat) :
    Enters H c.vmArea prot addr length (addr + (roundUp length).toNat) before cur rest := by
  refine ⟨hat, hcov, hreg, ?_⟩
  simpa [areasNeeded, hstart, hcur.not_gt] using hcount

/-- The range ends inside `cur`. -/
theorem protectFront_cut (hstart : cur.vmStart = addr) (hcount : c.vmArea.length ≤ 128)
    (hcut : addr + (roundUp length).toNat < cur.vmEnd) :
    Activation c prot l addr length (addr + (roundUp length).toNat)
      (protectFront c prot before cur rest addr (roundUp length)) := by
  have hlt := H.end_lt
  have hpos : addr < addr + (roundUp length).toNat := by have := hv.roundUp.1; omega
  have hs' := hat.split ▸ hs
  have hlen := hat.length_eq
  have hadd : u64 (addr + roundUp length) = _ := hv.end_eq (by omega)
  have enters : _ → Enters H c.vmArea prot addr length (addr + (roundUp length).toNat) before cur
    rest := .mk hat hcov hreg
  have full : _ → Activation c prot l addr length (addr + (roundUp length).toNat) (.ret (-1, c)) :=
    .of_full hs hat
  simp only [areasNeeded, if_neg hstart.not_lt] at enters full
  simp only [protectFront, hadd, if_pos hcut]
  generalize addr + (roundUp length).toNat = e at *
  subst hstart
  split
  next hflags =>
    rw [if_pos hflags] at enters
    refine .last (enters (by omega)) hcut.le (.same fun x hx hx' => ?_) hcount (by omega)
    rw [hat.coverage_eq hs (by omega) (by omega), hflags]
  next hflags =>
    rw [if_neg hflags] at enters full
    cases hp : joinPrev before cur prot with
    | none =>
      rw [if_pos ⟨hcut, by simp [hp]⟩] at enters full
      dsimp only
      split
      next hfull => exact full (by omega)
      next hroom =>
        refine .last (enters (by omega)) hcut.le ?_ ?_ (by omega)
        · rw [hat.split]
          exact .front hs' hpos hcut
        · simp
          omega
    | some prev =>
      obtain ⟨xs, rfl, hprev, hv⟩ := joinPrev_eq_some hp
      rw [if_neg (by simp [hp])] at enters
      refine .last (enters (by omega)) hcut.le ?_ ?_ (by omega)
      · rw [hat.split, List.dropLast_concat, List.append_assoc]
        exact .front_left (by simpa using hs') hpos hcut hprev hv
      · simp at hlen ⊢
        omega

/-- The range is all of `cur`. -/
theorem protectFront_whole (hstart : cur.vmStart = addr) (hcount : c.vmArea.length ≤ 128)
    (hwhole : addr + (roundUp length).toNat = cur.vmEnd) :
    Activation c prot l addr length (addr + (roundUp length).toNat)
      (protectFront c prot before cur rest addr (roundUp length)) := by
  have hlt := H.end_lt
  have hlast := hat.lt_end
  have hs' := hat.split ▸ hs
  have hlen := hat.length_eq
  have hadd : u64 (addr + roundUp length) = _ := hv.end_eq (by omega)
  have enters : Enters H c.vmArea prot addr length _ before cur rest :=
    enters_front hat hcov hreg hstart hcount hwhole.ge
  simp only [protectFront, hadd, if_neg hwhole.not_lt, if_pos hwhole]
  rw [hwhole] at enters ⊢
  subst hstart
  cases hp : joinPrev before cur prot with
  | none =>
    cases hn : joinNext cur rest prot with
    | none =>
      refine .last enters le_rfl ?_ ?_ (by omega)
      · rw [hat.split]
        exact .whole hs' hlast
      · simp
        omega
    | some next =>
      obtain ⟨ys, rfl, hnext, hv'⟩ := joinNext_eq_some hn
      refine .last enters le_rfl ?_ ?_ (by omega)
      · rw [hat.split]
        exact .whole_right hs' hlast hnext hv'
      · simp at hlen ⊢
        omega
  | some prev =>
    obtain ⟨xs, rfl, hprev, hv⟩ := joinPrev_eq_some hp
    cases hn : joinNext cur rest prot with
    | none =>
      refine .last enters le_rfl ?_ ?_ (by omega)
      · rw [hat.split, List.dropLast_concat, List.append_assoc]
        exact .whole_left (by simpa using hs') hlast hprev hv
      · simp at hlen ⊢
        omega
    | some next =>
      obtain ⟨ys, rfl, hnext, hv'⟩ := joinNext_eq_some hn
      refine .last enters le_rfl ?_ ?_ (by omega)
      · rw [hat.split, List.dropLast_concat, List.append_assoc]
        exact .whole_both (by simpa using hs') hlast hprev hv hnext hv'
      · simp at hlen ⊢
        omega

/-- The range goes on behind `cur`. -/
theorem protectFront_beyond (hstart : cur.vmStart = addr) (hcount : c.vmArea.length ≤ 128)
    (hbeyond : cur.vmEnd < addr + (roundUp length).toNat) :
    Activation c prot l addr length (addr + (roundUp length).toNat)
      (protectFront c prot before cur rest addr (roundUp length)) := by
  have hlt := H.end_lt
  have hlast := hat.lt_end
  have hs' := hat.split ▸ hs
  have hlen := hat.length_eq
  have hadd : u64 (addr + roundUp length) = _ := hv.end_eq (by omega)
  have enters : Enters H c.vmArea prot addr length _ before cur rest :=
    enters_front hat hcov hreg hstart hcount hbeyond.le
  simp only [protectFront, hadd, if_neg hbeyond.not_gt, if_neg hbeyond.ne']
  subst hstart
  split
  next hrest => exact .of_last hs hat hbeyond hrest
  next hrest =>
    cases hp : joinPrev before cur prot with
    | none =>
      refine .more enters hbeyond hrest rfl rfl ?_ ?_ (fun h => ?_) fun _ h => (h hp).elim
      · rw [hat.split]
        exact .whole hs' hlast
      · simp
        omega
      · rw [← h.1]
    | some prev =>
      obtain ⟨xs, rfl, hprev, hv⟩ := joinPrev_eq_some hp
      simp only [List.dropLast_concat]
      refine .more enters hbeyond hrest rfl hv ?_ ?_ (fun h => ?_) fun _ _ => ?_
      · rw [hat.split, List.append_assoc]
        exact .whole_left (by simpa using hs') hlast hprev hv
      · simp at hlen ⊢
        omega
      · rw [h.2 rfl] at hp
        cases hp
      · simp

theorem protectFront_activation (hstart : cur.vmStart = addr) (hcount : c.vmArea.length ≤ 128) :
    Activation c prot l addr length (addr + (roundUp length).toNat)
      (protectFront c prot before cur rest addr (roundUp length)) := by
  rcases lt_trichotomy (addr + (roundUp length).toNat) cur.vmEnd with hcut | hwhole | hbeyond
  · exact protectFront_cut hs hv hat hcov hreg hstart hcount hcut
  · exact protectFront_whole hs hv hat hcov hreg hstart hcount hwhole
  · exact protectFront_beyond hs hv hat hcov hreg hstart hcount hbeyond

/-- Past its checks an activation goes on at the area that contains `addr`. -/
theorem protectBody_eq (hcount : c.vmArea.length ≤ 128) :
    protectBody prot ⟨c, addr, length⟩ =
      if addr > cur.vmStart then protectInside c prot before cur rest addr (roundUp length)
      else protectFront c prot before cur rest addr (roundUp length) := by
  have hlt := H.end_lt
  obtain ⟨hv₁, hv₂⟩ := id hv
  obtain ⟨hr₁, hr₂⟩ := hv.roundUp
  obtain ⟨htake, hdrop⟩ := hat.walk_eq hs
  have hscan : protectScan addr length c.vmArea = true :=
    (protectScan_iff hs hlt (by omega) (by omega)).mpr hcov
  have hadd : u64 (addr + roundUp length) = _ := hv.end_eq (by omega)
  simp only [protectBody, hadd, htake, hdrop]
  rw [if_neg (not_not.mpr hscan), if_neg (by omega), if_neg (by omega),
    if_neg hat.start_le.not_gt]

omit hs hv hat hcov hreg in
theorem protectBody_full (h : 128 < c.vmArea.length) :
    protectBody prot ⟨c, addr, length⟩ = .ret (-1, c) := by
  simp only [protectBody, if_pos h, ite_self]

omit hat hcov hreg in
/-- One activation of `vm_area_mprotect` on a sorted list of at most 128 areas. -/
theorem protectBody_activation (hcount : c.vmArea.length ≤ 128) :
    Activation c prot l addr length (addr + (roundUp length).toNat)
      (protectBody prot ⟨c, addr, length⟩) := by
  have hlt := H.end_lt
  obtain ⟨hv₁, hv₂⟩ := id hv
  obtain ⟨hr₁, hr₂⟩ := hv.roundUp
  have hscan : protectScan addr length c.vmArea = true ↔ _ :=
    protectScan_iff hs hlt (by omega) (by omega)
  by_cases hcov : Covered c.vmArea addr (addr + length.toNat)
  swap
  · rw [protectBody, if_pos fun h => hcov (hscan.mp h)]
    exact .refused fun _ _ _ E => (hcov E.covered).elim
  obtain ⟨before, cur, rest, hat⟩ := hcov.areaAt (by omega)
  by_cases hreg : H.mmapAreaStart ≤ addr ∧ addr + (roundUp length).toNat ≤ H.mmapAreaEnd
  swap
  · have hend := (hs.bounds hat.mem).2.2
    have hlast := hat.lt_end
    have hadd : u64 (addr + roundUp length) = _ := hv.end_eq (by omega)
    simp only [protectBody, hadd]
    rw [if_neg (not_not.mpr (hscan.mpr hcov)), if_neg (by omega), if_pos (by omega)]
    exact .refused fun _ _ _ E => (hreg E.region).elim
  rw [protectBody_eq hs hv hat hcov hreg hcount]
  split
  next hstart => exact protectInside_activation hs hv hat hcov hreg hstart hcount
  next hstart =>
    exact protectFront_activation hs hv hat hcov hreg (Nat.le_antisymm hat.start_le
      (Nat.le_of_not_lt hstart)) hcount

end

end CS330
