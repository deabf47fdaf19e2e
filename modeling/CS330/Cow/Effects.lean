import CS330.Cow.Sharing

/-! # What a handled fault leaves behind

Where `handle_cow_fault` is right to say that it handled the fault. -/

namespace CS330

open Machine

variable {H : ForkHeader} {ctx : MmContext} {m : Machine} {pid page cr2 : Nat} {pte : Pte}

/-- The addresses a process may write to: the areas with `PROT_WRITE`, and DATA with `MM_WR`. -/
def MmContext.MayWrite (ctx : MmContext) (H : ForkHeader) (a : Nat) : Prop :=
  (∃ vm ∈ ctx.vmArea, a ∈ vm.range ∧ vm.accessFlags &&& H.protWrite ≠ 0) ∨
    a ∈ ctx.data.range ∧ ctx.data.accessFlags &&& H.mmWr ≠ 0

/-- Such an address is in no read-only part, and in the mmap region or in DATA it is copied. -/
theorem MmContext.MayWrite.faultCase (h : ctx.MayWrite H cr2) (hl : ctx.Layout) {kind : FaultKind}
    (hcase : FaultCase H ctx cr2 kind) :
    kind = .copy ∧ cr2 ∈ H.mmapArea ∪ ctx.data.range ∨
      kind = .ignore ∧ cr2 ∉ H.mmapArea ∪ ctx.data.range := by
  cases hcase with
  | area hregion => exact .inl ⟨rfl, .inl hregion⟩
  | hole hregion => exact .inl ⟨rfl, .inl hregion⟩
  | data _ hdata => exact .inl ⟨rfl, .inr hdata⟩
  | outside hregion hdata => exact .inr ⟨rfl, fun hmem => hmem.elim hregion hdata⟩
  | readOnlyArea _ hvm hmem hw =>
    rcases h with ⟨vm', hvm', hmem', hw'⟩ | ⟨hdata, -⟩
    · rw [hl.area_unique hvm' hvm hmem' hmem] at hw'
      exact absurd hw hw'
    · exact absurd hdata (hl.not_mem_data hvm hmem)
  | readOnlyData _ hdata hw =>
    rcases h with ⟨vm', hvm', hmem', -⟩ | ⟨-, hw'⟩
    · exact absurd hdata (hl.not_mem_data hvm' hmem')
    · exact absurd hw hw'

theorem MmContext.MayWrite.shared (h : ctx.MayWrite H cr2) (hl : ctx.Layout) :
    ctx.Shared (cr2 / 4096) := by
  rcases h with ⟨vm, hvm, hmem, -⟩ | ⟨hdata, -⟩
  · exact .inr ⟨vm, hvm, (hl.page_mem_area hvm).2 hmem⟩
  · exact .inl (hl.page_mem_data.2 hdata)

/-! ## Write access -/

namespace Machine

/-- The frames of all pages. -/
def frames (m : Machine) : Nat × Nat → Option Nat
  | (pid, page) => (m.entry pid page).map Pte.pfn

/-- A process may write to the page, and nobody else maps its frame. -/
def WritesAlone (m : Machine) (pid page : Nat) : Prop :=
  ∃ f, m.entry pid page = some ⟨f, true⟩ ∧ ∀ k, m.frames k = some f → k = (pid, page)

theorem frames_setEntry {k : Nat × Nat} {v : Pte} :
    (m.setEntry pid page (some v)).frames k =
      if k = (pid, page) then some v.pfn else m.frames k := by
  obtain ⟨i, q⟩ := k
  simp only [frames, setEntry_entry, Prod.mk.injEq]
  split <;> rfl

/-- What the copy does for the page, where the counts of the frames of shared pages are exact. -/
theorem WritesAlone.cowPage (hs : m.Sound) (h : m.entry pid page = some pte)
    (hexact : Exact m.frames (m.refCount pte.pfn) pte.pfn) :
    (cowPage H m pid (page * 4096)).1 = 1 ∧
      (cowPage H m pid (page * 4096)).2.WritesAlone pid page := by
  have hself : m.frames (pid, page) = some pte.pfn := by simp [frames, h]
  obtain ⟨-, heq⟩ | ⟨hle, heq⟩ := cowPage_of_present (H := H) hs h
  · refine ⟨congrArg Prod.fst heq, m.free 0, by rw [heq, setEntry_entry_self], fun k hk => ?_⟩
    by_contra hne
    rw [heq, frames_setEntry, if_neg hne] at hk
    obtain ⟨pte', he', hpfn⟩ := Option.map_eq_some_iff.1 hk
    exact hs.free_unmapped he' 0 hpfn
  · refine ⟨congrArg Prod.fst heq, pte.pfn, by rw [heq, setEntry_entry_self], fun k hk => ?_⟩
    by_contra hne
    rw [heq, frames_setEntry, if_neg hne] at hk
    exact hne (hexact.unique hle hk hself)

end Machine

/-- Only where a process may write a fault is handled, and then the process may write to the page
afterwards and has its frame for itself. -/
def FaultLegal (H : ForkHeader) (ctx : MmContext) (m : Machine) (pid cr2 : Nat) : Prop :=
  (ctx.MayWrite H cr2 → (handleCowFault H ctx m pid cr2).1 = 1 →
    (handleCowFault H ctx m pid cr2).2.WritesAlone pid (cr2 / 4096)) ∧
  (¬ctx.MayWrite H cr2 → (handleCowFault H ctx m pid cr2).1 = -1 ∧
    (handleCowFault H ctx m pid cr2).2.entry = m.entry)

/-- The states whose counts are exact, for the frames of DATA and of the areas. -/
def Machine.CountsExact (m : Machine) (ctx : MmContext) : Prop :=
  ∀ pid page pte, ctx.Shared page → m.entry pid page = some pte →
    Exact m.frames (m.refCount pte.pfn) pte.pfn

/-- The states of the runs are such states. -/
theorem Sharing.countsExact (h : Sharing ctx m) : m.CountsExact ctx := by
  intro pid page pte hp he
  have hself : m.refs ctx (pid, page) = some pte.pfn := refs_eq_some.2 ⟨hp, pte, he, rfl⟩
  have hholders : holders m.frames pte.pfn = holders (m.refs ctx) pte.pfn := by
    ext ⟨i, q⟩
    rw [mem_holders, mem_holders, refs_eq_some, frames, Option.map_eq_some_iff]
    refine ⟨fun ⟨pte', he', hpfn⟩ => ⟨?_, pte', he', hpfn⟩, And.right⟩
    by_contra hq
    exact h.separate hq he' ⟨_, hpfn.symm ▸ hself⟩
  obtain ⟨hfinite, hcount⟩ := h.exact ⟨_, hself⟩
  exact ⟨hholders ▸ hfinite, hholders ▸ hcount⟩

/-- A handled fault makes the write legal if and only if its address is in the mmap region, in an
area, in writable DATA or on an absent page, or it is outside the region, in DATA or where the
process may write alone already. -/
theorem handleCowFault_legal_iff (hl : ctx.Layout) (hs : m.Sound) (hexact : m.CountsExact ctx) :
    FaultLegal H ctx m pid cr2 ↔
      cr2 ∈ H.mmapArea ∧ ((∃ vm ∈ ctx.vmArea, cr2 ∈ vm.range) ∨ ctx.MayWrite H cr2 ∨
        m.entry pid (cr2 / 4096) = none) ∨
      cr2 ∉ H.mmapArea ∧ (cr2 ∈ ctx.data.range ∨
        ctx.MayWrite H cr2 ∧ m.WritesAlone pid (cr2 / 4096)) := by
  obtain ⟨kind, hcase, hrun⟩ := hl.exists_faultCase H cr2
  unfold FaultLegal
  simp only [hrun]
  have hcopy (hw : ctx.MayWrite H cr2) (hret : (FaultKind.copy.run H m pid (cr2 / 4096)).1 = 1) :
      (FaultKind.copy.run H m pid (cr2 / 4096)).2.WritesAlone pid (cr2 / 4096) := by
    cases he : m.entry pid (cr2 / 4096) with
    | none => simp [FaultKind.run, cowPage_of_none he] at hret
    | some pte => exact (WritesAlone.cowPage hs he (hexact _ _ _ (hw.shared hl) he)).2
  cases hcase with
  | @area vm hregion hvm hmem hw =>
    have hmay : ctx.MayWrite H cr2 := .inl ⟨vm, hvm, hmem, hw⟩
    exact iff_of_true ⟨fun _ => hcopy hmay, fun hnot => absurd hmay hnot⟩
      (.inl ⟨hregion, .inl ⟨vm, hvm, hmem⟩⟩)
  | @readOnlyArea vm hregion hvm hmem hw =>
    refine iff_of_true ⟨fun _ hret => ?_, fun _ => ⟨rfl, rfl⟩⟩
      (.inl ⟨hregion, .inl ⟨vm, hvm, hmem⟩⟩)
    cases hret
  | hole hregion hnone =>
    by_cases hmay : ctx.MayWrite H cr2
    · exact iff_of_true ⟨fun _ => hcopy hmay, fun hnot => absurd hmay hnot⟩
        (.inl ⟨hregion, .inr (.inl hmay)⟩)
    · cases he : m.entry pid (cr2 / 4096) with
      | none =>
        refine iff_of_true ⟨fun h => absurd h hmay, fun _ => ?_⟩ (.inl ⟨hregion, .inr (.inr rfl)⟩)
        rw [FaultKind.run, cowPage_of_none he]
        exact ⟨rfl, rfl⟩
      | some pte =>
        refine iff_of_false (fun h => ?_) ?_
        · have hret := (h.2 hmay).1
          obtain ⟨-, heq⟩ | ⟨-, heq⟩ := cowPage_of_present (H := H) hs he
          · simp [FaultKind.run, heq] at hret
          · simp [FaultKind.run, heq] at hret
        · rintro (⟨-, ⟨vm, hvm, hmem⟩ | h | h⟩ | ⟨h, -⟩)
          · exact hnone vm hvm hmem
          · exact hmay h
          · cases h
          · exact h hregion
  | data hregion hdata hw =>
    have hmay : ctx.MayWrite H cr2 := .inr ⟨hdata, hw⟩
    exact iff_of_true ⟨fun _ => hcopy hmay, fun hnot => absurd hmay hnot⟩
      (.inr ⟨hregion, .inl hdata⟩)
  | readOnlyData hregion hdata hw =>
    refine iff_of_true ⟨fun _ hret => ?_, fun _ => ⟨rfl, rfl⟩⟩ (.inr ⟨hregion, .inl hdata⟩)
    cases hret
  | outside hregion hdata =>
    by_cases hmay : ctx.MayWrite H cr2
    · refine ⟨fun h => .inr ⟨hregion, .inr ⟨hmay, h.1 hmay rfl⟩⟩, fun h => ?_⟩
      rcases h with ⟨h, -⟩ | ⟨-, h | ⟨-, halone⟩⟩
      · exact absurd h hregion
      · exact absurd h hdata
      · exact ⟨fun _ _ => halone, fun hnot => absurd hmay hnot⟩
    · refine iff_of_false (fun h => ?_) ?_
      · have hret := (h.2 hmay).1
        simp [FaultKind.run] at hret
      · rintro (⟨h, -⟩ | ⟨-, h | ⟨h, -⟩⟩)
        · exact hregion h
        · exact hdata h
        · exact hmay h

/-- A write to the area of the first process. -/
theorem handleCowFault_legal_of_boot :
    FaultLegal .megabyte .small (.boot [256]) 0 (2 ^ 20 + 5) := by
  have hok : (⟨.boot [256], fun pid => pid = 0⟩ : CowState).Ok .small :=
    (CowState.Initial.boot [256]).ok
  refine (handleCowFault_legal_iff MmContext.small_layout (Machine.boot_sound [256])
    hok.sharing.countsExact).2 (.inl ⟨⟨by decide, by decide⟩, .inl ⟨_, .head _, ?_⟩⟩)
  exact ⟨by decide, by decide⟩

/-- A write to CODE is answered with 1. -/
theorem not_handleCowFault_legal : ¬∀ {H : ForkHeader} {ctx : MmContext} {m : Machine}
    {pid cr2 : Nat}, ctx.Layout → m.Sound → m.CountsExact ctx → FaultLegal H ctx m pid cr2 := by
  intro h
  have hok : (⟨.boot [1], fun pid => pid = 0⟩ : CowState).Ok .small :=
    (CowState.Initial.boot [1]).ok
  have hlegal : FaultLegal .megabyte .small (.boot [1]) 0 4100 :=
    h MmContext.small_layout (Machine.boot_sound [1]) hok.sharing.countsExact
  have hnot : ¬MmContext.small.MayWrite .megabyte 4100 := by
    simp [MmContext.MayWrite, MmContext.small, VmArea.range, MmSegment.range]
  exact absurd (hlegal.2 hnot).1 (by decide)

end CS330
