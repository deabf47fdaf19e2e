import CS330.Memory.AreaList
import CS330.Memory.Calls

/-! # What `vm_area_map` does

Every returning call either refuses and changes nothing, or puts the flags on one free range of
the region (`MapOutcome`). One branch returns the end of that range instead of its start: the
search that fills a gap exactly between two areas of the requested flags. `FillsGap` says on the
arguments when a call gets there. -/

namespace CS330

variable {H : Header} {P : Paging H} {c c' : ExecContext P} {prot flags : BitVec 32}
  {l len a hint : Nat} {vms : List VmArea} {p : VmArea}

/-! ## Calls that fill a gap -/

/-- The first gap of at least `len` bytes that follows an area, when it is exactly that long and
both areas around it have the flags `prot`: its start. -/
def gapFilled (prot : BitVec 32) (len : Nat) : List VmArea → Option Nat
  | curVm :: nextVm :: rest =>
    if curVm.vmEnd + len ≤ nextVm.vmStart then
      if curVm.vmEnd + len = nextVm.vmStart ∧ curVm.accessFlags = prot ∧
          nextVm.accessFlags = prot then some curVm.vmEnd
      else none
    else gapFilled prot len (nextVm :: rest)
  | _ => none

/-- The gap filled by a call without hint: it looks in front of the first area before. -/
def noHintFilled (H : Header) (prot : BitVec 32) (len : Nat) (vms : List VmArea) : Option Nat :=
  match vms with
  | [] => none
  | curVm :: _ =>
    if curVm.vmStart > H.mmapAreaStart ∧ H.mmapAreaStart + len ≤ curVm.vmStart then none
    else gapFilled prot len vms

/-- A call with this hint address comes down to a call without one: the hint range leaves the
region, or it meets an area and is retried behind that area or without a hint. -/
inductive FallsBack (H : Header) (vms : List VmArea) (flags : BitVec 32) (len : Nat) :
    Nat → Prop where
  | noHint : FallsBack H vms flags len 0
  | beyond {addr} : addr ≠ 0 → H.mmapAreaStart ≤ addr → addr ≤ H.mmapAreaEnd →
      H.mmapAreaEnd < addr + len → flags ≠ H.mapFixed → FallsBack H vms flags len addr
  | taken {addr curVm} : addr ≠ 0 → H.mmapAreaStart ≤ addr → addr + len ≤ H.mmapAreaEnd →
      vms.find? (addr < ·.vmEnd) = some curVm → curVm.vmStart < addr + len →
      flags &&& H.mapFixed = 0 →
      (curVm.vmEnd + addr ≤ H.mmapAreaEnd → FallsBack H vms flags len curVm.vmEnd) →
      FallsBack H vms flags len addr

/-- The call of `vm_area_map` fills the gap at `a` between two areas of flags `prot`. -/
def FillsGap (H : Header) (vms : List VmArea) (addr len : Nat) (prot flags : BitVec 32)
    (a : Nat) : Prop :=
  vms.length ≤ 128 ∧ FallsBack H vms flags len addr ∧ noHintFilled H prot len vms = some a

/-- The same from any point of the procedure. -/
def Fills (H : Header) (vms : List VmArea) (len : Nat) (prot flags : BitVec 32) :
    MapPoint → Nat → Prop
  | .entry addr _, a => FillsGap H vms addr len prot flags a
  | .search _ curVm rest _, a => gapFilled prot len (curVm :: rest) = some a

/-! ## The outcome of a call -/

/-- A new range starts at the region's start, at the hint or at the end of an area. -/
def Origin (H : Header) (vms : List VmArea) (hint a : Nat) : Prop :=
  a = H.mmapAreaStart ∨ a = hint ∨ ∃ p ∈ vms, a = p.vmEnd

/-- The results of `vm_area_map` on `c`, for `len` bytes. -/
inductive MapOutcome (c : ExecContext P) (prot flags : BitVec 32) (l len hint : Nat)
    (fills : Nat → Prop) : Int × ExecContext P → Prop where
  | refused : (∀ a, ¬fills a) → MapOutcome c prot flags l len hint fills (-1, c)
  | placed {a : Nat} {vms : List VmArea} : (∀ a, ¬fills a) →
      InsertedAt l c.vmArea prot a (a + len) vms H.mmapAreaEnd → vms.length ≤ 128 →
      Origin H c.vmArea hint a →
      MapOutcome c prot flags l len hint fills (mapReturn c prot flags len vms a)
  | filled {a : Nat} {vms : List VmArea} : fills a →
      InsertedAt l c.vmArea prot a (a + len) vms H.mmapAreaEnd → vms.length ≤ 128 →
      Origin H c.vmArea hint a →
      MapOutcome c prot flags l len hint fills (mapReturn c prot flags len vms (a + len))

theorem MapOutcome.new {fills : Nat → Prop} (hf : ∀ a, ¬fills a)
    (h : InsertedAt l c.vmArea prot a (a + len) vms H.mmapAreaEnd)
    (ho : Origin H c.vmArea hint a) :
    MapOutcome c prot flags l len hint fills (mapReturnNew c prot flags len vms a) := by
  unfold mapReturnNew
  split
  · exact .refused hf
  · have := h.length_le
    exact .placed hf h (by omega) ho

/-- A branch that puts `prot` on the free range at `a` and returns `a`; it allocates an area or
needs none. -/
def Places (c : ExecContext P) (prot flags : BitVec 32) (l len a : Nat)
    (res : Int × ExecContext P) : Prop :=
  ∃ vms, InsertedAt l c.vmArea prot a (a + len) vms H.mmapAreaEnd ∧
    (vms.length ≤ c.vmArea.length ∧ res = mapReturn c prot flags len vms a ∨
      res = mapReturnNew c prot flags len vms a)

theorem Places.outcome {fills : Nat → Prop} {res} (h : Places c prot flags l len a res)
    (hf : ∀ a, ¬fills a) (hcount : c.vmArea.length ≤ 128) (ho : Origin H c.vmArea hint a) :
    MapOutcome c prot flags l len hint fills res := by
  obtain ⟨vms, hi, ⟨hle, rfl⟩ | rfl⟩ := h
  · exact .placed hf hi (by omega) ho
  · exact .new hf hi ho

/-- What is known at a point of the procedure about its arguments. -/
def PointInv (H : Header) (vms : List VmArea) (hint len : Nat) : MapPoint → Prop
  | .entry addr length => roundUp length = len ∧ (addr = 0 ∨ Origin H vms hint addr)
  | .search passed curVm rest length =>
    length = len ∧ vms = passed ++ curVm :: rest ∧ vms.length ≤ 128

/-- What a call with a hint does: it refuses, puts the range where it was asked to, or is retried
without the hint or behind the area that the hint range meets. -/
inductive HintCase (c : ExecContext P) (prot flags : BitVec 32) (addr len : Nat) :
    Outcome MapPoint (Int × ExecContext P) → Prop where
  | outside (hout : addr < H.mmapAreaStart ∨ addr > H.mmapAreaEnd) :
      HintCase c prot flags addr len (.ret (-1, c))
  | beyondFixed (hin : H.mmapAreaStart ≤ addr ∧ addr ≤ H.mmapAreaEnd)
      (hbeyond : addr + len > H.mmapAreaEnd) (hfixed : flags = H.mapFixed) :
      HintCase c prot flags addr len (.ret (-1, c))
  | beyond (hin : H.mmapAreaStart ≤ addr ∧ addr ≤ H.mmapAreaEnd)
      (hbeyond : addr + len > H.mmapAreaEnd) (hfixed : flags ≠ H.mapFixed) :
      HintCase c prot flags addr len (.call (.entry 0 len))
  | front (hin : H.mmapAreaStart ≤ addr ∧ addr + len ≤ H.mmapAreaEnd)
      (hfront : ∀ p ∈ c.vmArea.head?, addr + len ≤ p.vmStart) :
      HintCase c prot flags addr len
        (.ret (mapReturnNew c prot flags len (⟨addr, addr + len, prot⟩ :: c.vmArea) addr))
  | behind (hin : H.mmapAreaStart ≤ addr ∧ addr + len ≤ H.mmapAreaEnd)
      (hhead : ∃ p ∈ c.vmArea.head?, p.vmStart < addr + len) (W : Walk c.vmArea addr c.vmArea []) :
      HintCase c prot flags addr len
        (.ret (mapReturnNew c prot flags len (c.vmArea ++ [⟨addr, addr + len, prot⟩]) addr))
  | meetsFixed {before rest : List VmArea} {curVm : VmArea}
      (hin : H.mmapAreaStart ≤ addr ∧ addr + len ≤ H.mmapAreaEnd)
      (hhead : ∃ p ∈ c.vmArea.head?, p.vmStart < addr + len)
      (W : Walk c.vmArea addr before (curVm :: rest)) (hmeet : curVm.vmStart < addr + len)
      (hfixed : flags &&& H.mapFixed ≠ 0) : HintCase c prot flags addr len (.ret (-1, c))
  | meets {before rest : List VmArea} {curVm : VmArea}
      (hin : H.mmapAreaStart ≤ addr ∧ addr + len ≤ H.mmapAreaEnd)
      (hhead : ∃ p ∈ c.vmArea.head?, p.vmStart < addr + len)
      (W : Walk c.vmArea addr before (curVm :: rest)) (hmeet : curVm.vmStart < addr + len)
      (hfixed : flags &&& H.mapFixed = 0) (hroom : curVm.vmEnd + addr ≤ H.mmapAreaEnd) :
      HintCase c prot flags addr len (.call (.entry curVm.vmEnd len))
  | meetsLast {before rest : List VmArea} {curVm : VmArea}
      (hin : H.mmapAreaStart ≤ addr ∧ addr + len ≤ H.mmapAreaEnd)
      (hhead : ∃ p ∈ c.vmArea.head?, p.vmStart < addr + len)
      (W : Walk c.vmArea addr before (curVm :: rest)) (hmeet : curVm.vmStart < addr + len)
      (hfixed : flags &&& H.mapFixed = 0) (hroom : ¬curVm.vmEnd + addr ≤ H.mmapAreaEnd) :
      HintCase c prot flags addr len (.call (.entry 0 len))
  | between {before rest : List VmArea} {prevVm curVm : VmArea}
      (hin : H.mmapAreaStart ≤ addr ∧ addr + len ≤ H.mmapAreaEnd)
      (hhead : ∃ p ∈ c.vmArea.head?, p.vmStart < addr + len)
      (W : Walk c.vmArea addr (before ++ [prevVm]) (curVm :: rest))
      (hfree : addr + len ≤ curVm.vmStart) :
      HintCase c prot flags addr len
        (.ret (mapBetween c prot flags before prevVm curVm rest addr len))

theorem mapHint_case {addr : Nat} (hlen : len < 2 ^ 31) (hpos : 0 < len)
    (hends : ∀ p ∈ c.vmArea, p.vmEnd ≤ H.mmapAreaEnd) :
    HintCase c prot flags addr len (mapHint c prot flags addr len) := by
  have hend := H.end_lt
  unfold mapHint
  split
  next hout => exact .outside hout
  next hout =>
    have hadd : u64 (addr + len) = addr + len := by unfold u64; omega
    rw [hadd]
    split
    next hbeyond =>
      split
      next hfixed => exact .beyondFixed (by omega) hbeyond hfixed
      next hfixed => exact .beyond (by omega) hbeyond hfixed
    next hbeyond =>
      have hin : H.mmapAreaStart ≤ addr ∧ addr + len ≤ H.mmapAreaEnd := by omega
      have W := walk c.vmArea addr
      split
      next hfront => exact .front hin (by simpa [Option.all_eq_true] using hfront)
      next hfront =>
        have hhead : ∃ p ∈ c.vmArea.head?, p.vmStart < addr + len := by
          by_contra! hall
          exact hfront (by simpa [Option.all_eq_true] using hall)
        cases hd : c.vmArea.dropWhile (·.vmEnd ≤ addr) with
        | nil =>
          simp only [hd] at W ⊢
          have hv := W.eq
          rw [List.append_nil] at hv
          rw [← hv] at W
          exact .behind hin hhead W
        | cons curVm rest =>
          simp only [hd] at W ⊢
          have hlt := W.lt_head curVm rfl
          have hbound := hends curVm (by rw [W.eq]; simp)
          have hsum : u64 (curVm.vmEnd + addr) = curVm.vmEnd + addr := by unfold u64; omega
          rw [hsum]
          split
          next hmeet =>
            have hmeet : curVm.vmStart < addr + len := by omega
            split
            next hfixed => exact .meetsFixed hin hhead W hmeet hfixed
            next hfixed =>
              rw [not_not] at hfixed
              split
              next hroom => exact .meets hin hhead W hmeet hfixed hroom
              next hroom => exact .meetsLast hin hhead W hmeet hfixed hroom
          next hmeet =>
            split
            next hfree =>
              split
              next prevVm hprev =>
                obtain ⟨before, hb⟩ := List.getLast?_eq_some_iff.mp hprev
                rw [hb] at W ⊢
                rw [List.dropLast_concat]
                exact .between hin hhead W hfree.2
              next hnone =>
                -- the first area passed is the first area of the list
                have hv := W.eq
                rw [List.getLast?_eq_none_iff.mp hnone, List.nil_append] at hv
                exact (hfront (by simpa [hv] using hfree.2)).elim
            next => omega

section
variable (hs : Sorted l c.vmArea H.mmapAreaEnd) (hl : l ≤ H.mmapAreaStart) (hlen : len < 2 ^ 31)
include hs hl hlen

/-- Without hint a range at the start of the region is tried first. -/
theorem mapNoHint_places {res} (h : mapNoHint c prot flags len = .ret res) :
    (∀ a, ¬noHintFilled H prot len c.vmArea = some a) ∧
      (c.vmArea = [] ∧ H.mmapAreaEnd < H.mmapAreaStart + len ∧ res = (-1, c) ∨
        Places c prot flags l len H.mmapAreaStart res) := by
  have hend := H.end_lt
  have hstart := H.start_lt_end
  have hadd : u64 (H.mmapAreaStart + len) = H.mmapAreaStart + len := by unfold u64; omega
  obtain ⟨vms, t⟩ := c
  cases vms with
  | nil =>
    simp only [mapNoHint, hadd] at h
    refine ⟨by simp [noHintFilled], ?_⟩
    split at h
    next hfit =>
      obtain rfl := Outcome.ret.inj h
      exact .inr ⟨_, .head prot hl (sorted_nil.mpr hfit), .inr rfl⟩
    next hfit =>
      obtain rfl := Outcome.ret.inj h
      exact .inl ⟨rfl, Nat.lt_of_not_le hfit, rfl⟩
  | cons curVm rest =>
    have hs' := sorted_cons.mp hs
    simp only [mapNoHint, hadd] at h
    split at h
    next hfront =>
      refine ⟨by simp [noHintFilled, hfront.1, hfront.2], .inr ?_⟩
      split at h
      next hjoin =>
        obtain rfl := Outcome.ret.inj h
        refine ⟨_, .head_right hl ?_ hjoin.2.symm hjoin.1.symm, .inl ⟨le_rfl, rfl⟩⟩
        exact sorted_cons.mpr ⟨hjoin.2.le, hs'.2⟩
      next =>
        obtain rfl := Outcome.ret.inj h
        exact ⟨_, .head prot hl (sorted_cons.mpr ⟨hfront.2, hs'.2⟩), .inr rfl⟩
    next => cases h

theorem mapNoHint_ret (hcount : c.vmArea.length ≤ 128) {res}
    (h : mapNoHint c prot flags len = .ret res) :
    MapOutcome c prot flags l len hint (noHintFilled H prot len c.vmArea = some ·) res := by
  obtain ⟨hnone, ⟨-, -, rfl⟩ | hplaces⟩ := mapNoHint_places hs hl hlen h
  · exact .refused hnone
  · exact hplaces.outcome hnone hcount (.inl rfl)

omit hl in
/-- An iteration that returns puts the range behind `cur_vm`. -/
theorem mapSearch_places {passed rest : List VmArea} {curVm : VmArea}
    (hpass : c.vmArea = passed ++ curVm :: rest) {res}
    (h : mapSearch c prot flags passed curVm rest len = .ret res) :
    (∀ a, ¬gapFilled prot len (curVm :: rest) = some a) ∧
        Places c prot flags l len curVm.vmEnd res ∨
      gapFilled prot len (curVm :: rest) = some curVm.vmEnd ∧ ∃ vms,
        InsertedAt l c.vmArea prot curVm.vmEnd (curVm.vmEnd + len) vms H.mmapAreaEnd ∧
        vms.length ≤ c.vmArea.length ∧
        res = mapReturn c prot flags len vms (curVm.vmEnd + len) := by
  have hend := H.end_lt
  rw [hpass] at hs
  obtain ⟨hpassed, hcur, hrest⟩ := sorted_middle.mp hs
  have hprev : Sorted l (passed ++ [curVm]) curVm.vmEnd :=
    sorted_middle.mpr ⟨hpassed, hcur, sorted_nil.mpr le_rfl⟩
  have hadd : u64 (curVm.vmEnd + len) = curVm.vmEnd + len := by
    have := hrest.le
    unfold u64; omega
  cases rest with
  | nil =>
    have hnone : ∀ a, ¬gapFilled prot len [curVm] = some a := by simp [gapFilled]
    simp only [mapSearch, hadd] at h
    refine .inl ⟨hnone, ?_⟩
    split at h
    next hfit =>
      split at h
      next hv =>
        obtain rfl := Outcome.ret.inj h
        refine ⟨_, ?_, .inl ⟨by simp [hpass], rfl⟩⟩
        exact hpass ▸ .left hprev (sorted_nil.mpr hfit) rfl hv.symm
      next =>
        obtain rfl := Outcome.ret.inj h
        refine ⟨_, ?_, .inr rfl⟩
        simpa [hpass] using InsertedAt.fresh prot hprev (sorted_nil.mpr hfit)
    next => cases h
  | cons nextVm rest =>
    obtain ⟨hle, hnext⟩ := sorted_cons.mp hrest
    simp only [mapSearch, hadd] at h
    split at h
    next hfit =>
      have hys : Sorted (curVm.vmEnd + len) (nextVm :: rest) H.mmapAreaEnd :=
        sorted_cons.mpr ⟨hfit, hnext⟩
      split at h
      next hjoin =>
        -- the gap between two areas of the requested flags disappears
        obtain rfl := Outcome.ret.inj h
        refine .inr ⟨by simp [gapFilled, hjoin], _, ?_, by simp [hpass], rfl⟩
        exact hpass ▸ .both hprev hys rfl hjoin.2.1 hjoin.1.symm hjoin.2.2
      next hjoin =>
        refine .inl ⟨by simp [gapFilled, hfit, hjoin], ?_⟩
        split at h
        next hv =>
          obtain rfl := Outcome.ret.inj h
          refine ⟨_, ?_, .inl ⟨by simp [hpass], rfl⟩⟩
          exact hpass ▸ .left hprev hys rfl hv
        next =>
          split at h
          next hjoin =>
            obtain rfl := Outcome.ret.inj h
            refine ⟨_, ?_, .inl ⟨by simp [hpass], rfl⟩⟩
            simpa [hpass] using InsertedAt.right hprev hys hjoin.1.symm hjoin.2
          next =>
            obtain rfl := Outcome.ret.inj h
            refine ⟨_, ?_, .inr rfl⟩
            simpa [hpass] using InsertedAt.fresh prot hprev hys
    next => cases h

omit hl in
theorem mapSearch_ret {passed rest : List VmArea} {curVm : VmArea}
    (hpass : c.vmArea = passed ++ curVm :: rest) (hcount : c.vmArea.length ≤ 128) {res}
    (h : mapSearch c prot flags passed curVm rest len = .ret res) :
    MapOutcome c prot flags l len hint (gapFilled prot len (curVm :: rest) = some ·) res := by
  have ho : Origin H c.vmArea hint curVm.vmEnd := .inr (.inr ⟨curVm, by simp [hpass], rfl⟩)
  rcases mapSearch_places hs hlen hpass h with ⟨hnone, hplaces⟩ | ⟨hfill, vms, hi, hle, rfl⟩
  · exact hplaces.outcome hnone hcount ho
  · exact .filled hfill hi (by omega) ho

omit hs hl in
theorem mapNoHint_call (hend : H.mmapAreaStart + len < 2 ^ 64) {pt : MapPoint}
    (h : mapNoHint c prot flags len = .call pt) :
    ∃ curVm rest, c.vmArea = curVm :: rest ∧ pt = .search [] curVm rest len ∧
      noHintFilled H prot len c.vmArea = gapFilled prot len (curVm :: rest) := by
  have hadd : u64 (H.mmapAreaStart + len) = H.mmapAreaStart + len := by unfold u64; omega
  obtain ⟨vms, t⟩ := c
  cases vms with
  | nil =>
    simp only [mapNoHint, hadd] at h
    split at h <;> cases h
  | cons curVm rest =>
    simp only [mapNoHint, hadd] at h
    split at h
    next => split at h <;> cases h
    next hfront =>
      obtain rfl := Outcome.call.inj h
      exact ⟨curVm, rest, rfl, rfl, by simp only [noHintFilled, if_neg hfront]⟩

omit hl in
theorem mapSearch_call {passed rest : List VmArea} {curVm : VmArea}
    (hpass : c.vmArea = passed ++ curVm :: rest) {pt : MapPoint}
    (h : mapSearch c prot flags passed curVm rest len = .call pt) :
    ∃ passed' curVm' rest', pt = .search passed' curVm' rest' len ∧
      c.vmArea = passed' ++ curVm' :: rest' ∧
      gapFilled prot len (curVm :: rest) = gapFilled prot len (curVm' :: rest') := by
  have hend := H.end_lt
  have hadd : u64 (curVm.vmEnd + len) = curVm.vmEnd + len := by
    have := (hs.bounds (p := curVm) (by simp [hpass])).2.2
    unfold u64; omega
  cases rest with
  | nil =>
    simp only [mapSearch, hadd] at h
    split at h
    next => split at h <;> cases h
    next =>
      obtain rfl := Outcome.call.inj h
      exact ⟨passed, curVm, [], rfl, hpass, rfl⟩
  | cons nextVm rest =>
    simp only [mapSearch, hadd] at h
    split at h
    next => repeat' split at h <;> try cases h
    next hfit =>
      obtain rfl := Outcome.call.inj h
      exact ⟨passed ++ [curVm], nextVm, rest, rfl, by simp [hpass], by rw [gapFilled, if_neg hfit]⟩

omit hl in
theorem mapBetween_places {before rest : List VmArea} {prevVm curVm : VmArea} {addr : Nat}
    (hv : c.vmArea = before ++ prevVm :: curVm :: rest)
    (hprev : Sorted l (before ++ [prevVm]) addr) (hfree : addr + len ≤ curVm.vmStart) :
    Places c prot flags l len addr (mapBetween c prot flags before prevVm curVm rest addr len) := by
  have hend := H.end_lt
  rw [hv, List.append_cons, sorted_middle] at hs
  have hadd : u64 (addr + len) = addr + len := by
    have := hs.2.2.le
    have := hs.2.1
    unfold u64; omega
  have hys : Sorted (addr + len) (curVm :: rest) H.mmapAreaEnd := sorted_cons.mpr ⟨hfree, hs.2⟩
  unfold mapBetween
  rw [hadd]
  split
  next h =>
    refine ⟨_, ?_, .inl ⟨by simp [hv], rfl⟩⟩
    exact hv ▸ .both hprev hys h.1.symm h.2.2.1.symm h.2.1.symm h.2.2.2.symm
  next =>
    split
    next h =>
      refine ⟨_, ?_, .inl ⟨by simp [hv], rfl⟩⟩
      exact hv ▸ .left hprev hys h.1.symm h.2.symm
    next =>
      split
      next h =>
        refine ⟨_, ?_, .inl ⟨by simp [hv], rfl⟩⟩
        simpa [hv] using InsertedAt.right hprev hys h.1.symm h.2.symm
      next =>
        refine ⟨_, ?_, .inr rfl⟩
        simpa [hv] using InsertedAt.fresh prot hprev hys

omit hs hl hlen in
/-- A hint range inside the region that meets no area is not retried. -/
theorem not_fallsBack_of_free {addr : Nat} {before rest : List VmArea}
    (W : Walk vms addr before rest) (haddr : addr ≠ 0) (hend : addr + len ≤ H.mmapAreaEnd)
    (hfree : ∀ p ∈ rest.head?, addr + len ≤ p.vmStart) : ¬FallsBack H vms flags len addr := by
  intro hf
  cases hf with
  | noHint => exact haddr rfl
  | beyond => omega
  | taken _ _ _ hfind hlt =>
    rw [W.find?_eq] at hfind
    have := hfree _ hfind
    omega

omit hl in
/-- A call with a hint that returns at once does not come down to a call without one. -/
theorem mapHint_ret_not_fallsBack {addr : Nat} (hpos : 0 < len) (haddr : addr ≠ 0) {res}
    (h : mapHint c prot flags addr len = .ret res) : ¬FallsBack H c.vmArea flags len addr := by
  have hcase : HintCase c prot flags addr len _ := mapHint_case hlen hpos fun p hp =>
    (hs.bounds hp).2.2
  rw [h] at hcase
  intro hf
  cases hcase with
  | outside hout => cases hf <;> omega
  | beyondFixed hin hbeyond hfixed =>
    cases hf with
    | noHint => exact haddr rfl
    | beyond _ _ _ _ hne => exact hne hfixed
    | taken => omega
  | front hin hfront =>
    have W := walk c.vmArea addr
    refine not_fallsBack_of_free W haddr hin.2 (fun p hp => ?_) hf
    have hmem : p ∈ c.vmArea := by
      rw [W.eq]
      exact List.mem_append_right _ (List.mem_of_mem_head? hp)
    exact ((hs.start_at hin.2 hfront).bounds hmem).1
  | behind hin _ W => exact not_fallsBack_of_free W haddr hin.2 (by simp) hf
  | meetsFixed hin _ _ _ hfixed =>
    cases hf with
    | noHint => exact haddr rfl
    | beyond => omega
    | taken _ _ _ _ _ hzero => exact hfixed hzero
  | between hin _ W hfree => exact not_fallsBack_of_free W haddr hin.2 (by simpa using hfree) hf

/-- A call with a hint that returns at once refuses or takes the range it was asked for. -/
theorem mapHint_places {addr : Nat} (hpos : 0 < len) {res}
    (h : mapHint c prot flags addr len = .ret res) :
    res = (-1, c) ∨ Places c prot flags l len addr res := by
  have hcase : HintCase c prot flags addr len _ := mapHint_case hlen hpos fun p hp =>
    (hs.bounds hp).2.2
  rw [h] at hcase
  cases hcase with
  | outside | beyondFixed | meetsFixed => exact .inl rfl
  | front hin hfront =>
    exact .inr ⟨_, .head prot (by omega) (hs.start_at hin.2 hfront), .inr rfl⟩
  | behind hin _ W =>
    have hbefore := W.sorted_before hs (by omega)
    refine .inr ⟨_, ?_, .inr rfl⟩
    simpa using InsertedAt.fresh prot hbefore (sorted_nil.mpr hin.2)
  | between hin _ W hfree =>
    have hbefore := W.sorted_before hs (by omega)
    exact .inr (mapBetween_places hs hlen (by simpa using W.eq) hbefore hfree)

theorem mapHint_ret {addr : Nat} (hpos : 0 < len) (haddr : addr ≠ 0)
    (ho : Origin H c.vmArea hint addr) (hcount : c.vmArea.length ≤ 128) {res}
    (h : mapHint c prot flags addr len = .ret res) :
    MapOutcome c prot flags l len hint (FillsGap H c.vmArea addr len prot flags) res := by
  have hno : ∀ a, ¬FillsGap H c.vmArea addr len prot flags a := fun a hf =>
    mapHint_ret_not_fallsBack hs hlen hpos haddr h hf.2.1
  obtain rfl | hplaces := mapHint_places hs hl hlen hpos h
  · exact .refused hno
  · exact hplaces.outcome hno hcount ho

omit hs hl in
/-- A retry: the hint address is given up, or replaced by the end of the area it met. -/
theorem mapHint_call {addr : Nat} (hpos : 0 < len) (haddr : addr ≠ 0)
    (hends : ∀ p ∈ c.vmArea, p.vmEnd ≤ H.mmapAreaEnd) {pt : MapPoint}
    (h : mapHint c prot flags addr len = .call pt) :
    ∃ addr', pt = .entry addr' len ∧ (addr' = 0 ∨ ∃ p ∈ c.vmArea, addr' = p.vmEnd ∧ addr < p.vmEnd) ∧
      (FallsBack H c.vmArea flags len addr ↔ FallsBack H c.vmArea flags len addr') := by
  have hcase : HintCase c prot flags addr len _ := mapHint_case hlen hpos hends
  rw [h] at hcase
  cases hcase with
  | beyond hin hbeyond hfixed =>
    exact ⟨0, rfl, .inl rfl, iff_of_true (.beyond haddr hin.1 hin.2 hbeyond hfixed) .noHint⟩
  | @meets _ _ curVm hin _ W hmeet hfixed hroom =>
    have hmem : curVm ∈ c.vmArea := by rw [W.eq]; simp
    refine ⟨_, rfl, .inr ⟨curVm, hmem, rfl, W.lt_head curVm rfl⟩, fun hf => ?_, fun hf =>
      .taken haddr hin.1 hin.2 W.find?_eq hmeet hfixed fun _ => hf⟩
    cases hf with
    | noHint => exact (haddr rfl).elim
    | beyond => omega
    | taken _ _ _ hfind _ _ hrest =>
      cases W.find?_eq.symm.trans hfind
      exact hrest hroom
  | meetsLast hin _ W hmeet hfixed hroom =>
    refine ⟨0, rfl, .inl rfl, iff_of_true ?_ .noHint⟩
    exact .taken haddr hin.1 hin.2 W.find?_eq hmeet hfixed fun hle => (hroom hle).elim

end

/-! ## The whole call -/

theorem PointInv.call (hs : Sorted l c.vmArea H.mmapAreaEnd) (hlen : len < 2 ^ 31)
    (hpos : 0 < len) (hdvd : 4096 ∣ (len : Int)) {pt pt' : MapPoint} (hp : PointInv H c.vmArea hint len pt)
    (h : mapBody P c prot flags pt = .call pt') :
    PointInv H c.vmArea hint len pt' ∧
      ∀ a, Fills H c.vmArea len prot flags pt a ↔ Fills H c.vmArea len prot flags pt' a := by
  have hend := H.end_lt
  have hstart := H.start_lt_end
  cases pt with
  | entry addr length =>
    obtain ⟨hround, ho⟩ := hp
    simp only [mapBody, hround] at h
    split at h
    next => cases h
    next hcount =>
      split at h
      next haddr =>
        obtain ⟨curVm, rest, hv, rfl, hfill⟩ := mapNoHint_call hlen (by omega) h
        refine ⟨⟨rfl, hv, by omega⟩, fun a => ?_⟩
        rw [Fills, FillsGap, hfill, haddr]
        exact ⟨fun hf => hf.2.2, fun hf => ⟨by omega, .noHint, hf⟩⟩
      next haddr =>
        obtain ⟨addr', rfl, ho', hfill⟩ :=
          mapHint_call hlen hpos haddr (fun p hp => (hs.bounds hp).2.2) h
        refine ⟨⟨roundUp_of_dvd hdvd, ho'.imp_right ?_⟩, fun a =>
          and_congr_right fun _ => and_congr_left fun _ => hfill⟩
        rintro ⟨p, hp, he, _⟩
        exact .inr (.inr ⟨p, hp, he⟩)
  | search passed curVm rest length =>
    obtain ⟨rfl, hv, hcount⟩ := hp
    obtain ⟨passed', curVm', rest', rfl, hv', hfill⟩ := mapSearch_call hs hlen hv h
    exact ⟨⟨rfl, hv', hcount⟩, fun a => by rw [Fills, Fills, hfill]⟩

theorem PointInv.ret (hs : Sorted l c.vmArea H.mmapAreaEnd) (hl : l ≤ H.mmapAreaStart)
    (hlen : len < 2 ^ 31) (hpos : 0 < len) {pt : MapPoint} {res}
    (hp : PointInv H c.vmArea hint len pt) (h : mapBody P c prot flags pt = .ret res) :
    MapOutcome c prot flags l len hint (Fills H c.vmArea len prot flags pt) res := by
  cases pt with
  | entry addr length =>
    obtain ⟨hround, ho⟩ := hp
    simp only [mapBody, hround] at h
    split at h
    next hcount =>
      obtain rfl := Outcome.ret.inj h
      exact .refused fun a hf => by have := hf.1; omega
    next hcount =>
      split at h
      next haddr =>
        subst haddr
        have hfill : Fills H c.vmArea len prot flags (.entry 0 length) =
            (noHintFilled H prot len c.vmArea = some ·) := by
          funext a
          exact propext ⟨fun hf => hf.2.2, fun hf => ⟨by omega, .noHint, hf⟩⟩
        rw [hfill]
        exact mapNoHint_ret hs hl hlen (by omega) h
      next haddr =>
        exact mapHint_ret hs hl hlen hpos haddr (ho.resolve_left haddr) (by omega) h
  | search passed curVm rest length =>
    obtain ⟨rfl, hv, hcount⟩ := hp
    exact mapSearch_ret hs hlen hv hcount h

/-- Every returning call of `vm_area_map` on a sorted list: it refuses, or it puts `prot` on one
free range, whose start it returns unless it filled a gap. -/
theorem VmAreaMap.outcome {addr : Nat} {length r : Int} (h : VmAreaMap c addr length prot flags r c')
    (hs : Sorted l c.vmArea H.mmapAreaEnd) (hl : l ≤ H.mmapAreaStart) (hv : ValidLength length) :
    MapOutcome c prot flags l (roundUp length).toNat addr
      (FillsGap H c.vmArea addr (roundUp length).toNat prot flags) (r, c') := by
  obtain ⟨h₁, h₂⟩ := hv.roundUp
  have hdvd := hv.dvd_roundUp
  generalize hL : (roundUp length).toNat = len
  have hlen : roundUp length = len := by omega
  have hp : PointInv H c.vmArea addr len (.entry addr length) := ⟨hlen, .inr (.inr (.inl rfl))⟩
  suffices ∀ {pt res}, Returns (mapBody P c prot flags) pt res → PointInv H c.vmArea addr len pt →
      MapOutcome c prot flags l len addr (Fills H c.vmArea len prot flags pt) res from this h hp
  intro pt res H'
  induction H' with
  | ret hb => exact fun hp => hp.ret hs hl (by omega) (by omega) hb
  | call hb _ ih =>
    intro hp
    obtain ⟨hp', hfill⟩ := hp.call hs (by omega) (by omega) (by omega) hb
    have := ih hp'
    rwa [show Fills H c.vmArea len prot flags _ = Fills H c.vmArea len prot flags _ from
      funext fun a => propext (hfill a)]

end CS330
