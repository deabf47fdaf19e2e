import CS330.Cow.Faults
import CS330.Cow.Vfork
import CS330.Memory.Spaces

/-! # The page tables of a machine

`mmap.c` works on the table of one process, `cfork.c` on the tables of all. `Paging.ofMachine` is
the page-table code of `mmap.c` on one table of a machine; the calls of `cfork.c` keep the entries of
all other tables, and in the mmap region they keep the entries within the areas. -/

namespace CS330

open Machine

variable {H : ForkHeader} {ctx : MmContext} {m m' : Machine} {pid pid' pgd page page' pfn a : Nat}
  {child parent : Nat} {w : Bool} {pte : Pte}

/-! ## The page-table code on one table -/

/-- A frame that a page is mapped to is not handed out any more. -/
def Machine.reserve (m : Machine) (pfn : Nat) : Machine :=
  { m with free := fun i =>
      if pfn ∈ (List.range (i + 1)).map m.free then m.free (i + 1) else m.free i }

theorem Machine.reserve_free (pfn i : Nat) : (∃ k ≤ i, m.free k = pfn) ∧
    (m.reserve pfn).free i = m.free (i + 1) ∨
      (∀ k ≤ i, m.free k ≠ pfn) ∧ (m.reserve pfn).free i = m.free i := by
  by_cases hi : pfn ∈ (List.range (i + 1)).map m.free
  · refine .inl ⟨?_, if_pos hi⟩
    obtain ⟨k, hk, heq⟩ := List.mem_map.1 hi
    exact ⟨k, Nat.lt_succ_iff.1 (List.mem_range.1 hk), heq⟩
  · refine .inr ⟨fun k hk heq => hi ?_, if_neg hi⟩
    exact List.mem_map.2 ⟨k, List.mem_range.2 (Nat.lt_succ_iff.2 hk), heq⟩

namespace Machine.Sound

theorem reserve (h : m.Sound) (pfn : Nat) : (m.reserve pfn).Sound where
  pfn_ne := h.pfn_ne
  free_ne i := by
    obtain ⟨-, heq⟩ | ⟨-, heq⟩ := m.reserve_free pfn i
    · exact heq ▸ h.free_ne _
    · exact heq ▸ h.free_ne _
  free_unmapped he i := by
    obtain ⟨-, heq⟩ | ⟨-, heq⟩ := m.reserve_free pfn i
    · exact heq ▸ h.free_unmapped he _
    · exact heq ▸ h.free_unmapped he _
  free_injective i j heq := by
    obtain ⟨⟨k, hk, hpfn⟩, hi⟩ | ⟨hno, hi⟩ := m.reserve_free pfn i
    · obtain ⟨-, hj⟩ | ⟨hno', hj⟩ := m.reserve_free pfn j
      · exact Nat.succ_injective (h.free_injective (hi.symm.trans (heq.trans hj)))
      · have hij := h.free_injective (hi.symm.trans (heq.trans hj))
        exact absurd hpfn (hno' k (by omega))
    · obtain ⟨⟨k, hk, hpfn⟩, hj⟩ | ⟨-, hj⟩ := m.reserve_free pfn j
      · have hij := h.free_injective (hi.symm.trans (heq.trans hj))
        exact absurd hpfn (hno k (by omega))
      · exact h.free_injective (hi.symm.trans (heq.trans hj))

theorem reserve_ne (h : m.Sound) (i : Nat) : pfn ≠ (m.reserve pfn).free i := by
  rintro heq
  obtain ⟨⟨k, hk, hpfn⟩, hi⟩ | ⟨hno, hi⟩ := m.reserve_free pfn i
  · have hki := h.free_injective (hpfn.trans (heq.trans hi))
    omega
  · exact hno i le_rfl (heq.trans hi).symm

/-- No frame is reserved when a new one is asked for. -/
theorem reserve_zero (h : m.Sound) : m.reserve 0 = m := by
  have hfree : (m.reserve 0).free = m.free := by
    funext i
    obtain ⟨⟨k, -, hk⟩, -⟩ | ⟨-, hi⟩ := m.reserve_free 0 i
    · exact absurd hk (h.free_ne k)
    · exact hi
  exact congrArg (Machine.mk _ _ _) hfree

theorem install (h : m.Sound) (hpfn : ∀ i, pfn ≠ m.free i) :
    (m.install pid a w pfn).2.Sound := by
  rcases eq_or_ne pfn 0 with rfl | hne
  · exact h.installFresh
  · rw [install_of_ne_zero hne]
    refine ⟨fun {i p q} hq => ?_, h.free_ne, fun {i p q} hq => ?_, h.free_injective⟩
    · rw [setEntry_entry] at hq
      split at hq
      next => cases hq; exact hne
      next => exact h.pfn_ne hq
    · rw [setEntry_entry] at hq
      split at hq
      next => cases hq; exact hpfn
      next => exact h.free_unmapped hq

theorem setEntry_none (h : m.Sound) : (m.setEntry pid page none).Sound where
  pfn_ne he := by
    rw [setEntry_entry] at he
    split at he
    next => cases he
    next => exact h.pfn_ne he
  free_ne := h.free_ne
  free_unmapped he := by
    rw [setEntry_entry] at he
    split at he
    next => cases he
    next => exact h.free_unmapped he
  free_injective := h.free_injective

end Machine.Sound

theorem Machine.Sound.mapPhysicalPage_entry (h : m.Sound) (addr : Nat) (prot : BitVec 32)
    (upfn : Nat) : ((m.reserve upfn).mapPhysicalPage H pgd addr prot upfn).2.entry pgd page =
      if page = addr / 4096 then
        some ⟨if upfn = 0 then m.free 0 else upfn, prot &&& H.protWrite ≠ 0⟩
      else m.entry pgd page := by
  rw [mapPhysicalPage]
  rcases eq_or_ne upfn 0 with rfl | hne
  · rw [h.reserve_zero, install_zero, if_pos rfl, setEntry_entry]
    simp
  · rw [install_of_ne_zero hne, if_neg hne, setEntry_entry]
    simp only [true_and]
    rfl

/-- The page-table code of `mmap.c` on the table `pgd` of a machine. -/
def Paging.ofMachine (H : ForkHeader) (pgd : Nat) : Paging H.toHeader where
  Table := { m : Machine // m.Sound }
  entry t := t.1.entry pgd
  freshFrame t := t.1.free 0
  mapPhysicalPage t addr prot upfn :=
    ⟨((t.1.reserve upfn).mapPhysicalPage H pgd addr prot upfn).2,
      (t.2.reserve upfn).install t.2.reserve_ne⟩
  doUnmapUser t addr := ⟨t.1.setEntry pgd (addr / 4096) none, t.2.setEntry_none⟩
  freshFrame_ne {t _ _} h := t.2.free_unmapped h 0
  entry_mapPhysicalPage t addr prot upfn _ := t.2.mapPhysicalPage_entry addr prot upfn
  entry_doUnmapUser t addr page := by
    rw [setEntry_entry]
    simp

/-- A call on one table keeps the others. -/
theorem MemCall.Yields.others {c c' : ExecContext (Paging.ofMachine H pgd)} {r : Int}
    {call : MemCall} (h : call.Yields c r c') (hv : call.Valid) (I : InRegion H.toHeader c.vmArea)
    (hok : Orderly c call) (hpid : pid ≠ pgd) : c'.pgd.1.entry pid = c.pgd.1.entry pid := by
  refine h.table_keeps
    (Q := fun t : { m : Machine // m.Sound } => t.1.entry pid = c.pgd.1.entry pid)
    (fun t addr prot ht => ?_)
    (fun t addr ht => ?_) hv I hok rfl
  · exact (funext fun _ => install_entry_of_ne (.inl hpid)).trans ht
  · exact (funext fun _ => setEntry_entry_of_ne (.inl hpid)).trans ht

/-! ## Faults -/

/-- A copy-on-write fault changes the entry of its page. -/
theorem cowPage_others (hs : m.Sound) (hne : pid' ≠ pid ∨ page' ≠ page) :
    (cowPage H m pid (page * 4096)).2.entry pid' page' = m.entry pid' page' := by
  cases he : m.entry pid page with
  | none => rw [cowPage_of_none he]
  | some pte =>
    obtain ⟨-, heq⟩ | ⟨-, heq⟩ := cowPage_of_present (H := H) hs he
    · rw [heq]
      exact setEntry_entry_of_ne hne
    · rw [heq]
      exact setEntry_entry_of_ne hne

theorem exists_coverage {vms : List VmArea} {vm : VmArea} (hvm : vm ∈ vms) (ha : a ∈ vm.range) :
    ∃ f, coverage vms a = some f := by
  have hfind : (vms.find? fun vm => vm.vmStart ≤ a ∧ a < vm.vmEnd).isSome :=
    List.find?_isSome.2 ⟨vm, hvm, decide_eq_true ha⟩
  obtain ⟨vm', hvm'⟩ := Option.isSome_iff_exists.1 hfind
  exact ⟨vm'.accessFlags, congrArg (Option.map VmArea.accessFlags) hvm'⟩

theorem exists_area {vms : List VmArea} {f : BitVec 32} (h : coverage vms a = some f) :
    ∃ vm ∈ vms, a ∈ vm.range ∧ vm.accessFlags = f := by
  obtain ⟨vm, hfind, hf⟩ := Option.map_eq_some_iff.1 h
  have hin := List.find?_some hfind
  simp only [decide_eq_true_eq] at hin
  exact ⟨vm, List.mem_of_find?_eq_some hfind, hin, hf⟩

theorem handleCowFault_others (hl : ctx.Layout) (hs : m.Sound) (hpid : pid' ≠ pid) :
    (handleCowFault H ctx m pid a).2.entry pid' = m.entry pid' := by
  obtain ⟨kind, -, hrun⟩ := hl.exists_faultCase H a
  rw [hrun]
  cases kind with
  | copy => exact funext fun page => cowPage_others hs (.inl hpid)
  | refuse => rfl
  | ignore => rfl

/-- A page of the region becomes writable only in an area that may be written. -/
theorem handleCowFault_spaceInv (hl : ctx.Layout) (hs : m.Sound)
    (I : SpaceInv H.toHeader ctx.vmArea (m.entry pid)) :
    SpaceInv H.toHeader ctx.vmArea ((handleCowFault H ctx m pid a).2.entry pid) := by
  obtain ⟨kind, hcase, hrun⟩ := hl.exists_faultCase H a
  rw [hrun]
  refine ⟨I.toInRegion, fun page pte hstart hend he => ?_⟩
  have hpage : page * 4096 ∈ H.mmapArea := ⟨hstart, hend⟩
  have hcopy (he : (cowPage H m pid (a / 4096 * 4096)).2.entry pid page = some pte)
      (hallow : page = a / 4096 → ∀ f, coverage ctx.vmArea (page * 4096) = some f →
        f &&& H.protWrite ≠ 0) :
      ∃ f, coverage ctx.vmArea (page * 4096) = some f ∧ (pte.writable → f &&& H.protWrite ≠ 0) := by
    rcases eq_or_ne page (a / 4096) with rfl | hne
    · obtain ⟨pte', hold⟩ : ∃ pte', m.entry pid (a / 4096) = some pte' := by
        refine Option.ne_none_iff_exists'.1 fun hnone => ?_
        rw [cowPage_of_none hnone, hnone] at he
        cases he
      obtain ⟨f, hf, -⟩ := I.allows _ _ hstart hend hold
      exact ⟨f, hf, fun _ => hallow rfl f hf⟩
    · rw [cowPage_others hs (.inr hne)] at he
      exact I.allows _ _ hstart hend he
  cases hcase with
  | @area vm hregion hvm hmem hw =>
    refine hcopy he fun hp f hf => ?_
    obtain ⟨vm', hvm', hmem', rfl⟩ := exists_area hf
    rw [hp, hl.page_mem_area hvm'] at hmem'
    rwa [hl.area_unique hvm' hvm hmem' hmem]
  | hole hregion hnone =>
    refine hcopy he fun hp f hf => ?_
    obtain ⟨vm, hvm, hmem, -⟩ := exists_area hf
    rw [hp, hl.page_mem_area hvm] at hmem
    exact absurd hmem (hnone vm hvm)
  | data hregion =>
    refine hcopy he fun hp => absurd ?_ hregion
    rwa [hp, Header.page_mem_mmapArea] at hpage
  | readOnlyArea | readOnlyData | outside => exact I.allows page pte hstart hend he

/-! ## `cfork_copy_mm` -/

theorem shareVisit_others {seg : MmSegment} (hpid : pid ≠ child) :
    (shareVisit H child parent seg a m).entry pid = m.entry pid := by
  unfold shareVisit
  split
  · rfl
  · exact funext fun _ => install_entry_of_ne (.inl hpid)

theorem stackVisit_others {seg : MmSegment} (hpid : pid ≠ child) :
    (stackVisit H child parent seg a m).entry pid = m.entry pid := by
  unfold stackVisit
  split
  · rfl
  · exact (funext fun _ => install_entry_of_ne (.inl hpid) :
      (m.installPtable H child seg a 0).2.entry pid = m.entry pid)

theorem cowVisit_others (hchild : pid ≠ child) (hparent : pid ≠ parent) :
    (cowVisit H child parent a m).entry pid = m.entry pid := by
  unfold cowVisit
  split
  · rfl
  · exact (funext fun _ => install_entry_of_ne (.inl hchild)).trans
      (funext fun _ => setEntry_entry_of_ne (.inl hparent))

/-- Only the tables of the parent and of the child change. -/
theorem CforkCopyMm.others (h : CforkCopyMm H child parent ctx m m') (hl : ctx.Layout)
    (hchild : pid ≠ child) (hparent : pid ≠ parent) : m'.entry pid = m.entry pid := by
  obtain ⟨st, heq, -⟩ := h.visited (R := fun m' _ => m'.entry pid = m.entry pid) hl
    (Function.update_of_ne hchild _ _)
    (fun _ _ _ _ heq _ _ => (shareVisit_others hchild).trans heq)
    (fun _ _ _ heq _ _ => (cowVisit_others hchild hparent).trans heq)
    (fun _ _ _ heq _ _ => (stackVisit_others hchild).trans heq)
  exact heq

/-- In the region the table of the child has pages of the areas only, and they are read-only in both
tables. -/
theorem CforkCopyMm.spaceInv (h : CforkCopyMm H child parent ctx m m') (hl : ctx.Layout)
    (hs : m.Sound) (hne : child ≠ parent)
    (I : SpaceInv H.toHeader ctx.vmArea (m.entry parent))
    (hcode : Disjoint ctx.code.range H.mmapArea) (hrodata : Disjoint ctx.rodata.range H.mmapArea)
    (hdata : Disjoint ctx.data.range H.mmapArea) (hstack : Disjoint ctx.stack.range H.mmapArea) :
    SpaceInv H.toHeader ctx.vmArea (m'.entry child) ∧
      SpaceInv H.toHeader ctx.vmArea (m'.entry parent) := by
  obtain ⟨st, hcopying, hst⟩ := h.copying hl hs hne
  have hcow {page} (hpage : page * 4096 ∈ H.mmapArea) {kind}
      (hkind : ctx.Copies kind (page * 4096)) :
      kind = .cow ∧ ∃ vm ∈ ctx.vmArea, page * 4096 ∈ vm.range := by
    cases kind with
    | shared =>
      rcases hkind with hmem | hmem
      · exact absurd hpage (Set.disjoint_left.1 hcode (hl.code.mem_used hmem))
      · exact absurd hpage (Set.disjoint_left.1 hrodata (hl.rodata.mem_used hmem))
    | copied => exact absurd hpage (Set.disjoint_left.1 hstack (hl.stack.mem_stack hkind))
    | cow =>
      rcases hkind with hmem | hmem
      · exact absurd hpage (Set.disjoint_left.1 hdata (hl.data.mem_used hmem))
      · exact ⟨rfl, hmem⟩
  constructor
  · refine ⟨I.toInRegion, fun page pte hstart hend he => ?_⟩
    obtain ⟨kind, hkind⟩ : ∃ kind, st page = some kind := by
      refine Option.ne_none_iff_exists'.1 fun hnone => ?_
      rw [hcopying.absent hnone] at he
      cases he
    obtain ⟨rfl, vm, hvm, hmem⟩ := hcow ⟨hstart, hend⟩ ((hst _ _).1 hkind)
    obtain ⟨f, hf⟩ := exists_coverage hvm hmem
    refine ⟨f, hf, fun hw => ?_⟩
    rw [hcopying.readonly hkind (.inl he)] at hw
    cases hw
  · refine ⟨I.toInRegion, fun page pte hstart hend he => ?_⟩
    obtain ⟨pte', hold⟩ : ∃ pte', m.entry parent page = some pte' := by
      have hview := hcopying.parent_view (page * 4096)
      rw [view, view, Nat.mul_div_cancel page (by decide), he] at hview
      cases hold : m.entry parent page with
      | none =>
        rw [hold] at hview
        cases hview
      | some pte' => exact ⟨pte', rfl⟩
    obtain ⟨f, hf, -⟩ := I.allows _ _ hstart hend hold
    obtain ⟨vm, hvm, hmem, -⟩ := exists_area hf
    have hkind : st page = some .cow := (hst _ _).2 (.inr ⟨vm, hvm, hmem⟩)
    refine ⟨f, hf, fun hw => ?_⟩
    rw [hcopying.readonly hkind (.inr he)] at hw
    cases hw

/-! ## `vfork_copy_mm` -/

section
variable {hasTable : Machine → Nat → Nat → Bool} {seg : MmSegment} {fsize : Nat}

/-- One page of the stack is copied: at most the entry of the target is new. -/
theorem vforkVisit_kept (h : vforkVisit H hasTable pgd seg fsize a m = some m') (hs : m.Sound) :
    m'.Sound ∧ ∀ pid page, ¬(pid = pgd ∧ page = u64 (a - fsize) / 4096) →
      m'.entry pid page = m.entry pid page := by
  unfold vforkVisit at h
  split at h
  next =>
    cases h
    exact ⟨hs, fun _ _ _ => rfl⟩
  next =>
    split at h
    next => cases h
    next =>
      cases h
      exact ⟨hs.of_eq rfl rfl, fun _ _ _ => rfl⟩
    next =>
      cases h
      have hsound : (m.installPtable H pgd seg (u64 (a - fsize)) 0).2.Sound := hs.installFresh
      refine ⟨hsound.of_eq rfl rfl, fun pid page hne => ?_⟩
      have hentry : (m.installPtable H pgd seg (u64 (a - fsize)) 0).2.entry pid page =
          m.entry pid page := install_entry_of_ne (Decidable.not_and_iff_not_or_not.1 hne)
      exact hentry

theorem visits_bind_none {visit : Nat → Machine → Option Machine} {pages : List Nat} :
    visits (fun vaddr m => Option.bind m (visit vaddr)) pages none = none := by
  induction pages with
  | nil => rfl
  | cons p pages ih => exact ih

theorem vforkVisits_kept {pages : List Nat}
    (h : visits (fun vaddr m => Option.bind m (vforkVisit H hasTable pgd seg fsize vaddr)) pages
      (some m) = some m') (hs : m.Sound) :
    m'.Sound ∧ ∀ pid page,
      ¬(pid = pgd ∧ ∃ p ∈ pages, page = u64 ((p * 4096 : Nat) - fsize) / 4096) →
      m'.entry pid page = m.entry pid page := by
  induction pages generalizing m with
  | nil =>
    cases h
    exact ⟨hs, fun _ _ _ => rfl⟩
  | cons p pages ih =>
    rw [visits, List.foldl_cons, Option.bind_some] at h
    cases hvisit : vforkVisit H hasTable pgd seg fsize (p * 4096) m with
    | none =>
      rw [hvisit] at h
      cases visits_bind_none.symm.trans h
    | some m₁ =>
      rw [hvisit] at h
      obtain ⟨hs₁, hkept₁⟩ := vforkVisit_kept hvisit hs
      obtain ⟨hs', hkept⟩ := ih h hs₁
      refine ⟨hs', fun pid page hne => (hkept pid page ?_).trans (hkept₁ pid page ?_)⟩
      · rintro ⟨hpid, q, hq, heq⟩
        exact hne ⟨hpid, q, .tail _ hq, heq⟩
      · rintro ⟨hpid, heq⟩
        exact hne ⟨hpid, p, .head _, heq⟩

/-- Only entries of the range below the stack change. -/
theorem VforkCopyMm.kept {child parent child' parent' : VforkContext}
    (h : VforkCopyMm H hasTable child parent m child' parent' m') (hroom : parent.HasRoom)
    (hs : m.Sound) : m'.Sound ∧ ∀ pid page,
      ¬(pid = parent.pgd ∧ page * 4096 ∈ parent.targetRange) →
        m'.entry pid page = m.entry pid page := by
  obtain ⟨pages, hpages, hiff⟩ := hroom.vforkCopyMm_iff H hasTable child m
  obtain ⟨hvisits, -, -⟩ := (hiff _ _ _).1 h
  obtain ⟨hsound, hkept⟩ := vforkVisits_kept hvisits.symm hs
  obtain ⟨i, hi⟩ := hroom.end_dvd
  obtain ⟨j, hj⟩ := hroom.nextFree_dvd
  have hle := hroom.nextFree_le
  have htwice := hroom.end_le
  have hlt := hroom.end_lt
  refine ⟨hsound, fun pid page hne => hkept pid page fun ⟨hpid, p, hp, heq⟩ => hne ⟨hpid, ?_⟩⟩
  have hmem := (hpages.mem p).1 hp
  rw [Set.mem_Ico] at hmem
  rw [VforkContext.targetRange, Set.mem_Ico]
  unfold VforkContext.stackSize u64 at *
  omega

end

end CS330
