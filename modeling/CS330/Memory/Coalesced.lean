import CS330.Memory.PageTable
import Mathlib.Data.List.Chain

/-! # Areas that touch

Two areas that touch and have the same flags could be one area. `vm_area_unmap` and the merge
branches of the other calls leave none such. The branches of `vm_area_map` for a hint in front of
the first area and behind the last one do not merge, and `vm_area_mprotect` leaves an area alone
that has the flags already, also when the area in front of it has just got them: `LeavesApart`. -/

namespace CS330

variable {H : Header} {P : Paging H} {c c' : ExecContext P} {l u n curAddr addr len a b e hint : Nat}
  {length r : Int} {prot flags f : BitVec 32} {vms before rest xs ys : List VmArea}
  {p q cur prev : VmArea}

/-- Consecutive areas that touch have different flags. -/
def Coalesced (vms : List VmArea) : Prop :=
  vms.IsChain fun p q => p.vmEnd = q.vmStart → p.accessFlags ≠ q.accessFlags

/-- The areas do not end at `a` with the flags `f`. -/
def EndsApart (xs : List VmArea) (a : Nat) (f : BitVec 32) : Prop :=
  ∀ p ∈ xs.getLast?, p.vmEnd = a → p.accessFlags ≠ f

/-- The areas do not start at `b` with the flags `f`. -/
def StartsApart (ys : List VmArea) (b : Nat) (f : BitVec 32) : Prop :=
  ∀ q ∈ ys.head?, q.vmStart = b → q.accessFlags ≠ f

@[simp] theorem endsApart_nil : EndsApart [] a f := by simp [EndsApart]

@[simp] theorem endsApart_concat :
    EndsApart (xs ++ [p]) a f ↔ (p.vmEnd = a → p.accessFlags ≠ f) := by simp [EndsApart]

@[simp] theorem startsApart_nil : StartsApart [] b f := by simp [StartsApart]

@[simp] theorem startsApart_cons :
    StartsApart (q :: ys) b f ↔ (q.vmStart = b → q.accessFlags ≠ f) := by simp [StartsApart]

@[simp] theorem coalesced_nil : Coalesced [] := .nil

@[simp] theorem coalesced_cons :
    Coalesced (p :: ys) ↔ StartsApart ys p.vmEnd p.accessFlags ∧ Coalesced ys := by
  simp only [Coalesced, List.isChain_cons, StartsApart, eq_comm, ne_comm]

theorem coalesced_append : Coalesced (xs ++ ys) ↔
    Coalesced xs ∧ Coalesced ys ∧ ∀ q ∈ ys.head?, EndsApart xs q.vmStart q.accessFlags := by
  simp only [Coalesced, List.isChain_append, EndsApart]
  exact and_congr_right fun _ => and_congr_right fun _ => forall₂_comm

/-- An area among others, with what touches it. -/
theorem coalesced_middle : Coalesced (xs ++ p :: ys) ↔
    Coalesced xs ∧ EndsApart xs p.vmStart p.accessFlags ∧
      StartsApart ys p.vmEnd p.accessFlags ∧ Coalesced ys := by
  simp only [coalesced_append, coalesced_cons, List.head?_cons, Option.mem_some_iff, forall_eq']
  tauto

/-! ## `vm_area_unmap` -/

/-- The areas that are cut or removed no longer touch what is behind them. -/
theorem unmapLoop_coalesced (hs : Sorted l vms u) (hu : u < 2 ^ 63) (hlen : length < 2 ^ 31)
    (hbefore : ∀ p ∈ before.getLast?, p.vmEnd ≤ l ∧ p.vmEnd ≤ curAddr)
    (hc : Coalesced (before ++ vms)) :
    Coalesced (before ++ (unmapLoop n curAddr length vms).2) := by
  have hwalk := unmapLoop_walk n curAddr length vms
  generalize unmapLoop n curAddr length vms = res at hwalk ⊢
  have gap {curVm : VmArea} {rest : List VmArea} {f : BitVec 32} {a : Nat}
      (h₃ : Sorted curVm.vmEnd rest u) (ha : a < curVm.vmEnd) : StartsApart rest a f := by
    intro q hq heq
    have := (h₃.bounds (List.mem_of_mem_head? hq)).1
    omega
  induction hwalk generalizing l before with
  | nil | stop | full => exact hc
  | split hpos _ hin =>
    obtain ⟨-, -, h₃⟩ := sorted_cons.mp hs
    obtain ⟨hb, hends, hstarts, hrest⟩ := coalesced_middle.mp hc
    have := h₃.le
    have hadd := u64_add_of_lt hpos hlen (by omega) hin.2
    rw [coalesced_middle, coalesced_cons]
    refine ⟨hb, hends, ?_, hstarts, hrest⟩
    rw [startsApart_cons]
    dsimp only
    omega
  | cutBack _ hin _ _ ih =>
    obtain ⟨-, -, h₃⟩ := sorted_cons.mp hs
    obtain ⟨hb, hends, -, hrest⟩ := coalesced_middle.mp hc
    rw [List.append_cons]
    refine ih h₃ (int32_bounds _).2 ?_ ?_
    · simpa using hin.2.le
    · rw [← List.append_cons, coalesced_middle]
      exact ⟨hb, hends, gap h₃ hin.2, hrest⟩
  | cutFront hpos hstart =>
    obtain ⟨-, h₂, h₃⟩ := sorted_cons.mp hs
    obtain ⟨hb, hends, hstarts, hrest⟩ := coalesced_middle.mp hc
    have := h₃.le
    have hadd := u64_add_of_lt hpos hlen (by omega) (hstart.trans_lt h₂)
    rw [coalesced_middle]
    refine ⟨hb, fun p hp heq => ?_, hstarts, hrest⟩
    have := hbefore p hp
    dsimp only at heq
    omega
  | last => simpa using (coalesced_middle.mp hc).1
  | @remove _ _ _ nextVm _ _ _ _ _ _ ih =>
    obtain ⟨h₁, h₂, h₃⟩ := sorted_cons.mp hs
    obtain ⟨hb, -, -, hrest⟩ := coalesced_middle.mp hc
    have hnext := (h₃.bounds (p := nextVm) List.mem_cons_self).1
    refine ih h₃ (int32_bounds _).2 (fun p hp => ?_) ?_
    · have := hbefore p hp
      omega
    · refine coalesced_append.mpr ⟨hb, hrest, fun q hq p hp heq => ?_⟩
      cases hq
      have := hbefore p hp
      omega
  | pass _ _ hend _ ih =>
    obtain ⟨-, -, h₃⟩ := sorted_cons.mp hs
    rw [List.append_cons]
    refine ih h₃ hlen ?_ ?_
    · simpa using hend
    · rwa [← List.append_cons]

/-! ## `vm_area_map` -/

/-- A hint range directly in front of the first area, or behind the last one, is not joined with
that area. A hint that meets an area is retried behind it. -/
inductive Unmerged (H : Header) (vms : List VmArea) (prot flags : BitVec 32) (len : Nat) :
    Nat → Prop where
  | front {addr : Nat} : addr ≠ 0 → H.mmapAreaStart ≤ addr → addr + len ≤ H.mmapAreaEnd →
      ¬StartsApart vms (addr + len) prot → Unmerged H vms prot flags len addr
  | back {addr : Nat} : addr ≠ 0 → H.mmapAreaStart ≤ addr → addr + len ≤ H.mmapAreaEnd →
      ¬EndsApart vms addr prot → Unmerged H vms prot flags len addr
  | taken {addr : Nat} {curVm : VmArea} : addr ≠ 0 → H.mmapAreaStart ≤ addr →
      addr + len ≤ H.mmapAreaEnd → vms.find? (addr < ·.vmEnd) = some curVm →
      curVm.vmStart < addr + len → flags &&& H.mapFixed = 0 →
      curVm.vmEnd + addr ≤ H.mmapAreaEnd → Unmerged H vms prot flags len curVm.vmEnd →
      Unmerged H vms prot flags len addr

/-- From any point of the procedure, with room for one more area. -/
def LeavesUnmerged (H : Header) (vms : List VmArea) (len : Nat) (prot flags : BitVec 32) :
    MapPoint → Prop
  | .entry addr _ => vms.length < 128 ∧ Unmerged H vms prot flags len addr
  | .search _ _ _ _ => False

theorem not_unmerged_zero : ¬Unmerged H vms prot flags len 0 := by
  rintro (h | h | h) <;> exact h rfl

/-- One step of the procedure at a point where `bad` says whether the range is left unmerged. -/
inductive MapCoalesces (bad : MapPoint → Prop) (pt : MapPoint) :
    Outcome MapPoint (Int × ExecContext P) → Prop where
  | ret {res : Int × ExecContext P} : (Coalesced res.2.vmArea ↔ ¬bad pt) →
      MapCoalesces bad pt (.ret res)
  | call {pt' : MapPoint} : (bad pt ↔ bad pt') → MapCoalesces bad pt (.call pt')
  | stuck : MapCoalesces bad pt .stuck

theorem mapReturnNew_coalesced (hc : Coalesced c.vmArea) :
    Coalesced (mapReturnNew c prot flags length vms a).2.vmArea ↔
      (c.vmArea.length < 128 → Coalesced vms) := by
  rw [mapReturnNew]
  split
  next hfull => exact iff_of_true hc fun h => (hfull.not_gt h).elim
  next hroom => exact ⟨fun h _ => h, fun h => h (Nat.lt_of_not_le hroom)⟩

section
variable (hc : Coalesced c.vmArea) {bad : MapPoint → Prop} {pt : MapPoint}
include hc

/-- A call without hint looks at both neighbours of its range. -/
theorem mapNoHint_coalesces (hpt : ¬bad pt) (hsearch : ∀ passed cur rest k,
    ¬bad (.search passed cur rest k)) :
    MapCoalesces bad pt (mapNoHint c prot flags length) := by
  have new {vms : List VmArea} {a : Nat} (h : Coalesced vms) :
      MapCoalesces bad pt (.ret (mapReturnNew c prot flags length vms a)) :=
    .ret (iff_of_true ((mapReturnNew_coalesced hc).mpr fun _ => h) hpt)
  obtain ⟨vms, t⟩ := c
  cases vms with
  | nil =>
    simp only [mapNoHint]
    split
    · exact new (by simp)
    · exact .ret (iff_of_true hc hpt)
  | cons curVm rest =>
    obtain ⟨hstarts, hrest⟩ := coalesced_cons.mp hc
    simp only [mapNoHint]
    split
    next =>
      split
      next => exact .ret (iff_of_true (coalesced_cons.mpr ⟨hstarts, hrest⟩) hpt)
      next hjoin =>
        refine new (coalesced_cons.mpr ⟨?_, hc⟩)
        rw [startsApart_cons]
        exact fun heq hflags => hjoin ⟨hflags.symm, heq.symm⟩
    next => exact .call (iff_of_false hpt (hsearch _ _ _ _))

theorem mapSearch_coalesces {passed : List VmArea} (hv : c.vmArea = passed ++ cur :: rest)
    (hpt : ¬bad pt) (hsearch : ∀ passed cur rest k, ¬bad (.search passed cur rest k)) :
    MapCoalesces bad pt (mapSearch c prot flags passed cur rest length) := by
  have new {vms : List VmArea} {a : Nat} (h : Coalesced vms) :
      MapCoalesces bad pt (.ret (mapReturnNew c prot flags length vms a)) :=
    .ret (iff_of_true ((mapReturnNew_coalesced hc).mpr fun _ => h) hpt)
  have merged {vms : List VmArea} {a : Nat} (h : Coalesced vms) :
      MapCoalesces bad pt (.ret (mapReturn c prot flags length vms a)) :=
    .ret (iff_of_true h hpt)
  rw [hv] at hc
  obtain ⟨hpassed, hends, hstarts, hrest⟩ := coalesced_middle.mp hc
  cases rest with
  | nil =>
    simp only [mapSearch]
    split
    next =>
      split
      next => exact merged (coalesced_middle.mpr ⟨hpassed, hends, by simp⟩)
      next hflags =>
        refine new (coalesced_middle.mpr ⟨hpassed, hends, ?_, by simp⟩)
        rw [startsApart_cons]
        exact fun _ => hflags
    next => exact .call (iff_of_false hpt (hsearch _ _ _ _))
  | cons nextVm rest =>
    obtain ⟨hstarts', hrest'⟩ := coalesced_cons.mp hrest
    simp only [mapSearch]
    split
    next =>
      split
      next hjoin =>
        refine merged (coalesced_middle.mpr ⟨hpassed, hends, ?_, hrest'⟩)
        rwa [hjoin.2.1, ← hjoin.2.2]
      next hjoin =>
        split
        next hflags =>
          refine merged (coalesced_middle.mpr ⟨hpassed, hends, ?_, hrest⟩)
          rw [startsApart_cons]
          exact fun heq heq' => hjoin ⟨heq.symm, hflags, heq'.trans hflags⟩
        next hflags =>
          split
          next hnext =>
            refine merged (coalesced_middle.mpr ⟨hpassed, hends, ?_, ?_⟩)
            · rw [startsApart_cons]
              exact fun _ heq => hflags (heq.symm.trans hnext.2)
            · exact coalesced_cons.mpr ⟨hstarts', hrest'⟩
          next hnext =>
            refine new (coalesced_middle.mpr ⟨hpassed, hends, ?_, ?_⟩)
            · rw [startsApart_cons]
              exact fun _ heq => hflags heq.symm
            · refine coalesced_cons.mpr ⟨?_, hrest⟩
              rw [startsApart_cons]
              exact fun heq heq' => hnext ⟨heq.symm, heq'⟩
    next => exact .call (iff_of_false hpt (hsearch _ _ _ _))

/-- Between two areas the range is joined with both. -/
theorem mapBetween_coalesced (hv : c.vmArea = before ++ prev :: cur :: rest) :
    Coalesced (mapBetween c prot flags before prev cur rest a length).2.vmArea := by
  have hc' := hc
  rw [hv, coalesced_middle, coalesced_cons] at hc'
  obtain ⟨hbefore, hends, hjoint, hstarts, hrest⟩ := hc'
  rw [startsApart_cons] at hjoint
  rw [mapBetween]
  split
  next h =>
    refine coalesced_middle.mpr ⟨hbefore, hends, ?_, hrest⟩
    rwa [← h.2.2.1, h.2.2.2]
  next hboth =>
    split
    next h =>
      refine coalesced_middle.mpr ⟨hbefore, hends, ?_, coalesced_cons.mpr ⟨hstarts, hrest⟩⟩
      rw [startsApart_cons]
      exact fun heq heq' => hboth ⟨h.1, heq.symm, h.2, h.2.trans heq'.symm⟩
    next hprev =>
      split
      next h =>
        refine coalesced_middle.mpr ⟨hbefore, hends, ?_, coalesced_cons.mpr ⟨hstarts, hrest⟩⟩
        rw [startsApart_cons]
        exact fun heq heq' => hprev ⟨heq, h.2.trans heq'⟩
      next hcur =>
        refine (mapReturnNew_coalesced hc).mpr fun _ => coalesced_middle.mpr ⟨hbefore, hends, ?_, ?_⟩
        · rw [startsApart_cons]
          exact fun heq heq' => hprev ⟨heq, heq'⟩
        · refine coalesced_cons.mpr ⟨?_, coalesced_cons.mpr ⟨hstarts, hrest⟩⟩
          rw [startsApart_cons]
          exact fun heq heq' => hcur ⟨heq.symm, heq'.symm⟩

end

section
variable {addr : Nat} (haddr : addr ≠ 0) (hin : H.mmapAreaStart ≤ addr ∧ addr + len ≤ H.mmapAreaEnd)
include haddr hin

/-- In front of the first area. -/
theorem unmerged_iff_of_front (hs : Sorted (addr + len) vms u) (hpos : 0 < len) :
    Unmerged H vms prot flags len addr ↔ ¬StartsApart vms (addr + len) prot := by
  refine ⟨fun h => ?_, .front haddr hin.1 hin.2⟩
  cases h with
  | front _ _ _ h => exact h
  | back _ _ _ h =>
    refine (h fun p hp heq => ?_).elim
    have := hs.bounds (List.mem_of_getLast? hp)
    omega
  | taken _ _ _ hfind hlt =>
    have := hs.bounds (List.mem_of_find?_eq_some hfind)
    omega

omit haddr hin in
theorem Walk.lt_of_mem (W : Walk vms addr before rest) (hs : Sorted l vms u) (hp : p ∈ rest) :
    addr < p.vmEnd := by
  obtain ⟨q, rest, rfl⟩ := List.exists_cons_of_ne_nil (List.ne_nil_of_mem hp)
  have hq := W.lt_head q rfl
  rw [W.eq, sorted_middle] at hs
  rcases List.mem_cons.mp hp with rfl | hp
  · exact hq
  · have := hs.2.2.bounds hp
    omega

/-- Behind the first area: the walk goes to the first area that ends after the hint. -/
theorem unmerged_iff_of_walk (W : Walk vms addr before rest) (hs : Sorted l vms u)
    (hhead : ∃ p ∈ vms.head?, p.vmStart < addr + len) :
    Unmerged H vms prot flags len addr ↔ rest = [] ∧ ¬EndsApart vms addr prot ∨
      ∃ cur ∈ rest.head?, cur.vmStart < addr + len ∧ flags &&& H.mapFixed = 0 ∧
        cur.vmEnd + addr ≤ H.mmapAreaEnd ∧ Unmerged H vms prot flags len cur.vmEnd := by
  constructor
  · intro h
    cases h with
    | front _ _ _ h =>
      obtain ⟨p, hp, hlt⟩ := hhead
      refine (h fun q hq heq => ?_).elim
      obtain rfl := Option.mem_unique hp hq
      omega
    | back _ _ _ h =>
      refine .inl ⟨?_, h⟩
      by_contra hne
      refine h fun p hp heq => ?_
      rw [W.eq, List.getLast?_append_of_ne_nil _ hne] at hp
      have := W.lt_of_mem hs (List.mem_of_getLast? hp)
      omega
    | taken _ _ _ hfind hlt hfixed hroom h =>
      rw [W.find?_eq] at hfind
      exact .inr ⟨_, hfind, hlt, hfixed, hroom, h⟩
  · rintro (⟨-, h⟩ | ⟨cur, hcur, hlt, hfixed, hroom, h⟩)
    · exact .back haddr hin.1 hin.2 h
    · exact .taken haddr hin.1 hin.2 (W.find?_eq.trans hcur) hlt hfixed hroom h

/-- In front of an area that ends behind the hint. -/
theorem unmerged_iff_of_cons {cur : VmArea} (W : Walk vms addr before (cur :: rest))
    (hs : Sorted l vms u) (hhead : ∃ p ∈ vms.head?, p.vmStart < addr + len) :
    Unmerged H vms prot flags len addr ↔ cur.vmStart < addr + len ∧ flags &&& H.mapFixed = 0 ∧
      cur.vmEnd + addr ≤ H.mmapAreaEnd ∧ Unmerged H vms prot flags len cur.vmEnd := by
  rw [unmerged_iff_of_walk haddr hin W hs hhead]
  simp

end

/-- A call with a hint. -/
theorem mapHint_coalesces {addr : Nat} (hc : Coalesced c.vmArea)
    (hs : Sorted l c.vmArea H.mmapAreaEnd) (hlen : len < 2 ^ 31) (hpos : 0 < len)
    (haddr : addr ≠ 0) :
    MapCoalesces (LeavesUnmerged H c.vmArea len prot flags) (.entry addr length)
      (mapHint c prot flags addr len) := by
  have kept (hno : ¬Unmerged H c.vmArea prot flags len addr) {r : Int} :
      MapCoalesces (LeavesUnmerged H c.vmArea len prot flags) (.entry addr length)
        (.ret (r, c)) := .ret (iff_of_true hc fun h => hno h.2)
  have new {vms : List VmArea} (h : Coalesced vms ↔ ¬Unmerged H c.vmArea prot flags len addr) :
      MapCoalesces (LeavesUnmerged H c.vmArea len prot flags) (.entry addr length)
        (.ret (mapReturnNew c prot flags len vms addr)) := by
    refine .ret ?_
    rw [mapReturnNew_coalesced hc, h]
    exact not_and.symm
  have again {addr' : Nat} (h : Unmerged H c.vmArea prot flags len addr ↔
      Unmerged H c.vmArea prot flags len addr') :
      MapCoalesces (P := P) (LeavesUnmerged H c.vmArea len prot flags) (.entry addr length)
        (.call (.entry addr' len)) := .call (and_congr_right fun _ => h)
  have hcase : HintCase c prot flags addr len _ := mapHint_case hlen hpos fun p hp =>
    (hs.bounds hp).2.2
  generalize mapHint c prot flags addr len = res at hcase ⊢
  cases hcase with
  | outside hout =>
    refine kept fun h => ?_
    cases h <;> omega
  | beyondFixed _ hbeyond =>
    refine kept fun h => ?_
    cases h <;> omega
  | beyond _ hbeyond =>
    exact again (iff_of_false (fun h => by cases h <;> omega) not_unmerged_zero)
  | front hin hfront =>
    refine new ?_
    rw [unmerged_iff_of_front haddr hin (hs.start_at hin.2 hfront) hpos, not_not, coalesced_cons]
    exact and_iff_left hc
  | behind hin hhead W =>
    refine new ?_
    rw [unmerged_iff_of_walk haddr hin W hs hhead, coalesced_middle]
    simp [hc]
  | meetsFixed hin hhead W hmeet hfixed =>
    refine kept fun h => hfixed ?_
    exact ((unmerged_iff_of_cons haddr hin W hs hhead).mp h).2.1
  | meets hin hhead W hmeet hfixed hroom =>
    refine again ((unmerged_iff_of_cons haddr hin W hs hhead).trans ?_)
    exact ⟨fun h => h.2.2.2, fun h => ⟨hmeet, hfixed, hroom, h⟩⟩
  | meetsLast hin hhead W hmeet hfixed hroom =>
    refine again (iff_of_false (fun h => hroom ?_) not_unmerged_zero)
    exact ((unmerged_iff_of_cons haddr hin W hs hhead).mp h).2.2.1
  | between hin hhead W hfree =>
    refine .ret (iff_of_true (mapBetween_coalesced hc (by simpa using W.eq)) fun h => ?_)
    have := ((unmerged_iff_of_cons haddr hin W hs hhead).mp h.2).1
    omega

/-- Every returning call: the areas stay coalesced unless the range is left unmerged. -/
theorem VmAreaMap.coalesced_iff {addr : Nat} (h : VmAreaMap c addr length prot flags r c')
    (hc : Coalesced c.vmArea) (hs : Sorted l c.vmArea H.mmapAreaEnd) (hv : ValidLength length) :
    Coalesced c'.vmArea ↔ ¬(c.vmArea.length < 128 ∧
      Unmerged H c.vmArea prot flags (byteLength length) addr) := by
  obtain ⟨hround, hpos, hlt, hdvd⟩ := hv.bytes
  generalize byteLength length = len at *
  have hp : PointInv H c.vmArea addr len (.entry addr length) := ⟨hround, .inr (.inr (.inl rfl))⟩
  suffices ∀ {pt res}, Returns (mapBody P c prot flags) pt res → PointInv H c.vmArea addr len pt →
      (Coalesced res.2.vmArea ↔ ¬LeavesUnmerged H c.vmArea len prot flags pt) from this h hp
  intro pt res H'
  have step {pt} (hp : PointInv H c.vmArea addr len pt) :
      MapCoalesces (LeavesUnmerged H c.vmArea len prot flags) pt (mapBody P c prot flags pt) := by
    cases pt with
    | entry addr length =>
      simp only [mapBody, hp.1]
      split
      next hfull => exact .ret (iff_of_true hc fun h => by have := h.1; omega)
      next =>
        split
        next haddr =>
          exact mapNoHint_coalesces hc (fun h => not_unmerged_zero (haddr ▸ h.2)) fun _ _ _ _ => id
        next haddr => exact mapHint_coalesces hc hs hlt hpos haddr
    | search => exact mapSearch_coalesces hc hp.2.1 id fun _ _ _ _ => id
  induction H' with
  | ret hb =>
    intro hp
    have hstep := step hp
    rw [hb] at hstep
    cases hstep with
    | ret h => exact h
  | call hb _ ih =>
    intro hp
    obtain ⟨hp', -⟩ := hp.call hs hlt hpos (by omega) hb
    have hstep := step hp
    rw [hb] at hstep
    cases hstep with
    | call h => rw [h, ih hp']

end CS330
