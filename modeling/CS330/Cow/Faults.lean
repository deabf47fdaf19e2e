import CS330.Cow.Fork
import Mathlib.Data.List.Pairwise

/-! # The branches of `handle_cow_fault`

What the handler does is decided by the address alone, and only one of its branches changes
anything. -/

namespace CS330

open Machine

variable {H : ForkHeader} {ctx : MmContext} {m : Machine} {pid page cr2 a : Nat} {pte : Pte}

/-! ## Addresses and their pages -/

/-- The mmap region. -/
def Header.mmapArea (H : Header) : Set Nat := Set.Ico H.mmapAreaStart H.mmapAreaEnd

theorem Header.page_mem_mmapArea {H : Header} :
    a / 4096 * 4096 ∈ H.mmapArea ↔ a ∈ H.mmapArea := by
  have := H.start_aligned
  have := H.end_aligned
  simp only [mmapArea, Set.mem_Ico]
  omega

/-- No address is in two areas. -/
theorem MmContext.Layout.area_unique (hl : ctx.Layout) {vm vm' : VmArea} (hvm : vm ∈ ctx.vmArea)
    (hvm' : vm' ∈ ctx.vmArea) (ha : a ∈ vm.range) (ha' : a ∈ vm'.range) : vm = vm' := by
  obtain ⟨-, -, -, -, -, -, -, -, -, -, hareas⟩ := MmContext.Layout.disjoint_iff.1 hl.disjoint
  have : Std.Symm fun vm vm' : VmArea => Disjoint vm.range vm'.range := ⟨fun _ _ h => h.symm⟩
  by_contra hne
  have hdisjoint : Disjoint vm.range vm'.range := (List.pairwise_map.1 hareas).forall hvm hvm' hne
  exact Set.disjoint_left.1 hdisjoint ha ha'

theorem MmContext.Layout.not_mem_data (hl : ctx.Layout) {vm : VmArea} (hvm : vm ∈ ctx.vmArea)
    (ha : a ∈ vm.range) : a ∉ ctx.data.range := by
  obtain ⟨-, -, -, -, -, -, -, -, hdata, -⟩ := MmContext.Layout.disjoint_iff.1 hl.disjoint
  exact fun ha' => Set.disjoint_left.1 (hdata vm hvm) ha' ha

/-! ## The branches -/

/-- The three ends of the handler. -/
inductive FaultKind where
  | copy
  | refuse
  | ignore

def FaultKind.run (H : ForkHeader) (m : Machine) (pid page : Nat) : FaultKind → Int × Machine
  | .copy => cowPage H m pid (page * 4096)
  | .refuse => (-1, m)
  | .ignore => (1, m)

/-- Where each branch is taken. -/
inductive FaultCase (H : ForkHeader) (ctx : MmContext) (cr2 : Nat) : FaultKind → Prop where
  | area {vm : VmArea} (hregion : cr2 ∈ H.mmapArea) (hvm : vm ∈ ctx.vmArea) (hmem : cr2 ∈ vm.range)
    (hw : vm.accessFlags &&& H.protWrite ≠ 0) : FaultCase H ctx cr2 .copy
  | readOnlyArea {vm : VmArea} (hregion : cr2 ∈ H.mmapArea) (hvm : vm ∈ ctx.vmArea)
    (hmem : cr2 ∈ vm.range) (hw : vm.accessFlags &&& H.protWrite = 0) : FaultCase H ctx cr2 .refuse
  | hole (hregion : cr2 ∈ H.mmapArea) (hnone : ∀ vm ∈ ctx.vmArea, cr2 ∉ vm.range) :
    FaultCase H ctx cr2 .copy
  | data (hregion : cr2 ∉ H.mmapArea) (hdata : cr2 ∈ ctx.data.range)
    (hw : ctx.data.accessFlags &&& H.mmWr ≠ 0) : FaultCase H ctx cr2 .copy
  | readOnlyData (hregion : cr2 ∉ H.mmapArea) (hdata : cr2 ∈ ctx.data.range)
    (hw : ctx.data.accessFlags &&& H.mmWr = 0) : FaultCase H ctx cr2 .refuse
  | outside (hregion : cr2 ∉ H.mmapArea) (hdata : cr2 ∉ ctx.data.range) :
    FaultCase H ctx cr2 .ignore

theorem MmContext.Layout.exists_faultCase (hl : ctx.Layout) (H : ForkHeader) (cr2 : Nat) :
    ∃ kind, FaultCase H ctx cr2 kind ∧
      ∀ m pid, handleCowFault H ctx m pid cr2 = kind.run H m pid (cr2 / 4096) := by
  unfold handleCowFault
  dsimp only
  generalize hround : (if cr2 % 4096 ≠ 0 then cr2 - cr2 % 4096 else cr2) = b
  obtain rfl : b = cr2 / 4096 * 4096 := by split at hround <;> omega
  have harea {vm} (hvm : vm ∈ ctx.vmArea) :
      (cr2 / 4096 * 4096 ≥ vm.vmStart ∧ cr2 / 4096 * 4096 < vm.vmEnd) ↔ cr2 ∈ vm.range :=
    hl.page_mem_area hvm
  by_cases hr : cr2 / 4096 * 4096 ≥ H.mmapAreaStart ∧ cr2 / 4096 * 4096 < H.mmapAreaEnd
  · have hregion : cr2 ∈ H.mmapArea := Header.page_mem_mmapArea.1 hr
    simp only [if_pos hr]
    cases hfind : ctx.vmArea.find? fun vm =>
        cr2 / 4096 * 4096 ≥ vm.vmStart ∧ cr2 / 4096 * 4096 < vm.vmEnd with
    | none =>
      refine ⟨.copy, .hole hregion fun vm hvm hmem => ?_, fun _ _ => rfl⟩
      have hnot := List.find?_eq_none.1 hfind vm hvm
      exact hnot (decide_eq_true ((harea hvm).2 hmem))
    | some vm =>
      have hvm := List.mem_of_find?_eq_some hfind
      have hfound := List.find?_some hfind
      have hmem := (harea hvm).1 (of_decide_eq_true hfound)
      by_cases hw : vm.accessFlags &&& H.protWrite = 0
      · exact ⟨.refuse, .readOnlyArea hregion hvm hmem hw, fun _ _ => if_pos hw⟩
      · exact ⟨.copy, .area hregion hvm hmem hw, fun _ _ => if_neg hw⟩
  · have hregion : cr2 ∉ H.mmapArea := fun hmem => hr (Header.page_mem_mmapArea.2 hmem)
    simp only [if_neg hr]
    by_cases hd : cr2 / 4096 * 4096 ≥ ctx.data.start ∧ cr2 / 4096 * 4096 < ctx.data.segEnd
    · have hdata : cr2 ∈ ctx.data.range := hl.page_mem_data.1 hd
      simp only [if_pos hd]
      by_cases hw : ctx.data.accessFlags &&& H.mmWr = 0
      · exact ⟨.refuse, .readOnlyData hregion hdata hw, fun _ _ => if_neg (not_not.2 hw)⟩
      · exact ⟨.copy, .data hregion hdata hw, fun _ _ => if_pos hw⟩
    · have hdata : cr2 ∉ ctx.data.range := fun hmem => hd (hl.page_mem_data.2 hmem)
      simp only [if_neg hd]
      exact ⟨.ignore, .outside hregion hdata, fun _ _ => rfl⟩

/-! ## The copy -/

theorem cowPage_of_none (h : m.entry pid page = none) :
    cowPage H m pid (page * 4096) = (-1, m) := by
  unfold cowPage
  rw [Nat.mul_div_cancel page (by decide), h]

/-- Of a present page 4096 bytes are copied to the address `pfn`, and the page becomes writable: in
a new frame, or in the same one if nobody shares it. -/
theorem cowPage_of_present (hs : m.Sound) (h : m.entry pid page = some pte) :
    1 < m.refCount pte.pfn ∧ cowPage H m pid (page * 4096) =
      (1, ((m.addRef pte.pfn (-1)).memcpyPage pte.pfn (pte.pfn * 4096)).allocFrame.2.setEntry
        pid page (some ⟨m.free 0, true⟩)) ∨
    m.refCount pte.pfn ≤ 1 ∧ cowPage H m pid (page * 4096) =
      (1, (m.memcpyPage pte.pfn (pte.pfn * 4096)).setEntry pid page (some ⟨pte.pfn, true⟩)) := by
  have hw : H.mmWr &&& H.protWrite ≠ 0 := H.mmWr_write
  unfold cowPage
  rw [Nat.mul_div_cancel page (by decide), h]
  dsimp only
  by_cases hcount : m.refCount pte.pfn > 1
  · rw [if_pos hcount, mapPhysicalPage, install_zero, Nat.mul_div_cancel page (by decide),
      decide_eq_true hw]
    exact .inl ⟨hcount, rfl⟩
  · rw [if_neg hcount, mapPhysicalPage, install_of_ne_zero (hs.pfn_ne h),
      Nat.mul_div_cancel page (by decide), decide_eq_true hw]
    exact .inr ⟨not_lt.1 hcount, rfl⟩

namespace Machine.Sound

theorem cowPage (h : m.Sound) : (cowPage H m pid (page * 4096)).2.Sound := by
  cases he : m.entry pid page with
  | none => rwa [cowPage_of_none he]
  | some pte =>
    obtain ⟨-, heq⟩ | ⟨-, heq⟩ := cowPage_of_present (H := H) h he
    · rw [heq]
      exact h.installFresh.of_eq rfl rfl
    · rw [heq]
      exact (h.setEntry he).of_eq rfl rfl

theorem handleCowFault (h : m.Sound) (hl : ctx.Layout) :
    (handleCowFault H ctx m pid cr2).2.Sound := by
  obtain ⟨kind, -, hrun⟩ := hl.exists_faultCase H cr2
  rw [hrun]
  cases kind with
  | copy => exact h.cowPage
  | refuse => exact h
  | ignore => exact h

theorem vmAreaPagefault (h : m.Sound) (errorCode : Int) :
    (m.vmAreaPagefault H ctx pid a errorCode).2.Sound := by
  unfold Machine.vmAreaPagefault
  split
  · exact h
  · exact h.installFresh

end Machine.Sound

end CS330
