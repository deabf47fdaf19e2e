import CS330.Cow.Loops

/-! # The memory of the child

After `cfork_copy_mm` the child sees the memory of its parent, and the parent sees what it saw
before. -/

namespace CS330

variable {H : ForkHeader} {ctx : MmContext} {m m' m₀ : Machine} {child parent : Nat}

namespace Machine

/-- What a process reads at an address; nothing where no page is present. -/
def view (m : Machine) (pid a : Nat) : Option UInt8 :=
  (m.entry pid (a / 4096)).map fun pte => m.mem (pte.pfn * 4096 + a % 4096)

/-- Frame 0 is never mapped, and the free frames are different and mapped nowhere. -/
structure Sound (m : Machine) : Prop where
  pfn_ne : ∀ {pid page pte}, m.entry pid page = some pte → pte.pfn ≠ 0
  free_ne : ∀ i, m.free i ≠ 0
  free_unmapped : ∀ {pid page pte}, m.entry pid page = some pte → ∀ i, pte.pfn ≠ m.free i
  free_injective : Function.Injective m.free

section
variable {pid pid' page page' a d src pfn o : Nat} {pte : Option Pte} {w w' : Bool}

@[simp] theorem setEntry_entry_self : (m.setEntry pid page pte).entry pid page = pte := by
  simp [setEntry]

theorem setEntry_entry_of_ne (h : pid' ≠ pid ∨ page' ≠ page) :
    (m.setEntry pid page pte).entry pid' page' = m.entry pid' page' := by
  rcases eq_or_ne pid' pid with rfl | hpid
  · have hpage := h.resolve_left (not_not.2 rfl)
    simp [setEntry, hpage]
  · simp [setEntry, hpid]

theorem setEntry_entry : (m.setEntry pid page pte).entry pid' page' =
    if pid' = pid ∧ page' = page then pte else m.entry pid' page' := by
  split
  next h =>
    obtain ⟨rfl, rfl⟩ := h
    exact setEntry_entry_self
  next h => exact setEntry_entry_of_ne (by tauto)

@[simp] theorem setEntry_free : (m.setEntry pid page pte).free = m.free := rfl

@[simp] theorem memcpyPage_entry : (m.memcpyPage a src).entry = m.entry := rfl

theorem memcpyPage_mem_self (ho : o < 4096) :
    (m.memcpyPage (pfn * 4096) src).mem (pfn * 4096 + o) = m.mem (src + o) := by
  simp only [memcpyPage]
  rw [if_pos (by omega)]
  congr 1
  omega

theorem memcpyPage_mem_of_ne (h : a ≠ pfn) (ho : o < 4096) :
    (m.memcpyPage (pfn * 4096) src).mem (a * 4096 + o) = m.mem (a * 4096 + o) := by
  simp only [memcpyPage]
  rw [if_neg (by omega)]

/-- An old frame is installed. -/
theorem install_of_ne_zero (h : pfn ≠ 0) :
    m.install pid a w pfn = (pfn, m.setEntry pid (a / 4096) (some ⟨pfn, w⟩)) := if_neg h

/-- A new frame is installed. -/
theorem install_zero : m.install pid a w 0 =
    (m.free 0, m.allocFrame.2.setEntry pid (a / 4096) (some ⟨m.free 0, w⟩)) := rfl

theorem install_entry_of_ne (h : pid' ≠ pid ∨ page' ≠ a / 4096) :
    (m.install pid a w pfn).2.entry pid' page' = m.entry pid' page' := by
  unfold install
  split <;> exact setEntry_entry_of_ne h

@[simp] theorem allocFrame_entry : m.allocFrame.2.entry = m.entry := rfl

/-- An entry for a mapped frame. -/
theorem Sound.setEntry (h : m.Sound) (hmapped : m.entry pid' page' = some ⟨pfn, w'⟩) :
    (m.setEntry pid page (some ⟨pfn, w⟩)).Sound := by
  have hne : pfn ≠ 0 := h.pfn_ne hmapped
  have hfree : ∀ i, pfn ≠ m.free i := h.free_unmapped hmapped
  refine ⟨fun {i p q} hq => ?_, h.free_ne, fun {i p q} hq => ?_, h.free_injective⟩
  · rw [setEntry_entry] at hq
    split at hq
    next => cases hq; exact hne
    next => exact h.pfn_ne hq
  · rw [setEntry_entry] at hq
    split at hq
    next => cases hq; exact hfree
    next => exact h.free_unmapped hq

/-- An entry for a new frame. -/
theorem Sound.installFresh (h : m.Sound) :
    (m.allocFrame.2.setEntry pid page (some ⟨m.free 0, w⟩)).Sound where
  pfn_ne {i p q} hq := by
    rw [setEntry_entry] at hq
    split at hq
    next => cases hq; exact h.free_ne 0
    next => exact h.pfn_ne hq
  free_ne i := h.free_ne (i + 1)
  free_unmapped {i p q} hq j := by
    rw [setEntry_entry] at hq
    split at hq
    next => cases hq; exact fun heq => by simpa using h.free_injective heq
    next => exact h.free_unmapped hq (j + 1)
  free_injective i j heq := Nat.succ_injective (h.free_injective heq)

theorem Sound.of_eq (h : m.Sound) (hentry : m'.entry = m.entry) (hfree : m'.free = m.free) :
    m'.Sound where
  pfn_ne hq := h.pfn_ne (hentry ▸ hq)
  free_ne := hfree ▸ h.free_ne
  free_unmapped hq := hfree ▸ h.free_unmapped (hentry ▸ hq)
  free_injective := hfree ▸ h.free_injective

end

end Machine

open Machine

/-! ## One page -/

section
variable {seg : MmSegment} {page : Nat} {pte : Pte}

theorem shareVisit_of_none (h : m.entry parent page = none) :
    shareVisit H child parent seg (page * 4096) m = m := by
  unfold shareVisit
  rw [Nat.mul_div_cancel page (by decide), h]

theorem shareVisit_of_present (hs : m.Sound) (h : m.entry parent page = some pte) :
    shareVisit H child parent seg (page * 4096) m =
      m.setEntry child page (some ⟨pte.pfn, H.segWritable seg⟩) := by
  unfold shareVisit
  rw [Nat.mul_div_cancel page (by decide), h]
  dsimp only
  rw [installPtable, install_of_ne_zero (hs.pfn_ne h), Nat.mul_div_cancel page (by decide)]

theorem cowVisit_of_none (h : m.entry parent page = none) :
    cowVisit H child parent (page * 4096) m = m := by
  unfold cowVisit
  rw [Nat.mul_div_cancel page (by decide), h]

theorem cowVisit_of_present (hs : m.Sound) (h : m.entry parent page = some pte) :
    cowVisit H child parent (page * 4096) m =
      ((m.setEntry parent page (some ⟨pte.pfn, false⟩)).setEntry child page
        (some ⟨pte.pfn, false⟩)).addRef pte.pfn 1 := by
  have hread : H.mmRd &&& H.protWrite = 0 := H.mmRd_read
  unfold cowVisit
  rw [Nat.mul_div_cancel page (by decide), h]
  dsimp only
  rw [mapPhysicalPage, install_of_ne_zero (hs.pfn_ne h), Nat.mul_div_cancel page (by decide)]
  simp only [hread, ne_eq, not_true_eq_false, decide_false]

theorem stackVisit_of_none (h : m.entry parent page = none) :
    stackVisit H child parent seg (page * 4096) m = m := by
  unfold stackVisit
  rw [Nat.mul_div_cancel page (by decide), h]

theorem stackVisit_of_present (h : m.entry parent page = some pte) :
    stackVisit H child parent seg (page * 4096) m =
      (m.allocFrame.2.setEntry child page (some ⟨m.free 0, H.segWritable seg⟩)).memcpyPage
        (m.free 0 * 4096) (pte.pfn * 4096) := by
  unfold stackVisit
  rw [Nat.mul_div_cancel page (by decide), h]
  dsimp only
  rw [installPtable, install_zero, Nat.mul_div_cancel page (by decide)]

end

/-! ## All pages -/

/-- What holds during `cfork_copy_mm`: the parent sees what it saw in `m₀`, and in the pages that
were visited the child sees the same. -/
structure Copying (child parent : Nat) (m₀ m : Machine) (st : Nat → Option CopyKind) : Prop where
  sound : m.Sound
  parent_view : ∀ a, m.view parent a = m₀.view parent a
  child_view : ∀ {a}, st (a / 4096) ≠ none → m.view child a = m₀.view parent a
  absent : ∀ {p}, st p = none → m.entry child p = none
  readonly : ∀ {p pte}, st p = some .cow →
    m.entry child p = some pte ∨ m.entry parent p = some pte → pte.writable = false
  own : ∀ {p pte p' pte'}, st p = some .copied → m.entry child p = some pte →
    m.entry parent p' = some pte' → pte.pfn ≠ pte'.pfn

namespace Copying

variable {st : Nat → Option CopyKind} {p : Nat} {kind : CopyKind} {pte : Pte} {seg : MmSegment}

theorem of_absent (h : Copying child parent m₀ m st) (hst : st p = none)
    (hp : m.entry parent p = none) :
    Copying child parent m₀ m (Function.update st p (some kind)) where
  sound := h.sound
  parent_view := h.parent_view
  child_view {a} ha := by
    rcases eq_or_ne (a / 4096) p with rfl | hne
    · rw [← h.parent_view, view, view, h.absent hst, hp]
    · exact h.child_view (by rwa [Function.update_of_ne hne] at ha)
  absent {q} hq := by
    rcases eq_or_ne q p with rfl | hne
    · simp at hq
    · exact h.absent (by rwa [Function.update_of_ne hne] at hq)
  readonly {q pte} hq he := by
    rcases eq_or_ne q p with rfl | hne
    · simp [h.absent hst, hp] at he
    · exact h.readonly (by rwa [Function.update_of_ne hne] at hq) he
  own {q pte q' pte'} hq he := by
    rcases eq_or_ne q p with rfl | hne
    · simp [h.absent hst] at he
    · exact h.own (by rwa [Function.update_of_ne hne] at hq) he

/-- The visit of a page that is present in the parent. -/
theorem of_present (h : Copying child parent m₀ m st) (hst : st p = none)
    (hp : m.entry parent p = some pte) (hsound : m'.Sound)
    (hother : ∀ q ≠ p, m'.entry child q = m.entry child q ∧ m'.entry parent q = m.entry parent q)
    (hparent : ∃ w, m'.entry parent p = some ⟨pte.pfn, w⟩ ∧ (kind = .cow → w = false))
    (hchild : m'.entry child p = some pte')
    (hmem : ∀ {i q pte}, m.entry i q = some pte → ∀ o < 4096,
      m'.mem (pte.pfn * 4096 + o) = m.mem (pte.pfn * 4096 + o))
    (hcopy : ∀ o < 4096, m'.mem (pte'.pfn * 4096 + o) = m.mem (pte.pfn * 4096 + o))
    (hcow : kind = .cow → pte'.writable = false)
    (hown : kind = .copied → ∀ {q pte}, m.entry parent q = some pte → pte'.pfn ≠ pte.pfn) :
    Copying child parent m₀ m' (Function.update st p (some kind)) := by
  obtain ⟨w, hparent, hw⟩ := hparent
  have hpfn {q pte'} (hq : m'.entry parent q = some pte') :
      ∃ pte, m.entry parent q = some pte ∧ pte.pfn = pte'.pfn := by
    rcases eq_or_ne q p with rfl | hne
    · rw [hparent] at hq
      cases hq
      exact ⟨pte, hp, rfl⟩
    · exact ⟨pte', (hother q hne).2 ▸ hq, rfl⟩
  constructor
  case sound => exact hsound
  case parent_view =>
    intro a
    rw [← h.parent_view, view, view]
    rcases eq_or_ne (a / 4096) p with rfl | hne
    · rw [hparent, hp]
      exact congrArg some (hmem hp _ (Nat.mod_lt _ (by decide)))
    · rw [(hother _ hne).2]
      cases hq : m.entry parent (a / 4096) with
      | none => rfl
      | some q => exact congrArg some (hmem hq _ (Nat.mod_lt _ (by decide)))
  case child_view =>
    intro a ha
    rcases eq_or_ne (a / 4096) p with rfl | hne
    · rw [← h.parent_view, view, view, hchild, hp]
      exact congrArg some (hcopy _ (Nat.mod_lt _ (by decide)))
    · rw [Function.update_of_ne hne] at ha
      rw [← h.child_view ha, view, view, (hother _ hne).1]
      cases hq : m.entry child (a / 4096) with
      | none => rfl
      | some q => exact congrArg some (hmem hq _ (Nat.mod_lt _ (by decide)))
  case absent =>
    intro q hq
    rcases eq_or_ne q p with rfl | hne
    · simp at hq
    · rw [Function.update_of_ne hne] at hq
      rw [(hother q hne).1, h.absent hq]
  case readonly =>
    intro q pte₁ hq he
    rcases eq_or_ne q p with rfl | hne
    · have hkind : kind = .cow := by simpa using hq
      rw [hchild, hparent] at he
      rcases he with he | he
      · cases he
        exact hcow hkind
      · cases he
        exact hw hkind
    · rw [Function.update_of_ne hne] at hq
      rw [(hother q hne).1, (hother q hne).2] at he
      exact h.readonly hq he
  case own =>
    intro q pte₁ q' pte₂ hq he he'
    obtain ⟨pte₃, he₃, hpfn₃⟩ := hpfn he'
    rw [← hpfn₃]
    rcases eq_or_ne q p with rfl | hne
    · rw [hchild] at he
      cases he
      exact hown (by simpa using hq) he₃
    · rw [Function.update_of_ne hne] at hq
      rw [(hother q hne).1] at he
      exact h.own hq he he₃

theorem shareVisit (h : Copying child parent m₀ m st) (hne : child ≠ parent) (hst : st p = none) :
    Copying child parent m₀ (shareVisit H child parent seg (p * 4096) m)
      (Function.update st p (some .shared)) := by
  cases hp : m.entry parent p with
  | none =>
    rw [shareVisit_of_none hp]
    exact h.of_absent hst hp
  | some pte =>
    rw [shareVisit_of_present h.sound hp]
    refine h.of_present hst hp (h.sound.setEntry hp) (fun q hq => ?_) ⟨pte.writable, ?_, nofun⟩
      setEntry_entry_self (fun _ _ _ => rfl) (fun _ _ => rfl) nofun nofun
    · exact ⟨setEntry_entry_of_ne (.inr hq), setEntry_entry_of_ne (.inr hq)⟩
    · rw [setEntry_entry_of_ne (.inl hne.symm), hp]

theorem cowVisit (h : Copying child parent m₀ m st) (hne : child ≠ parent) (hst : st p = none) :
    Copying child parent m₀ (cowVisit H child parent (p * 4096) m)
      (Function.update st p (some .cow)) := by
  cases hp : m.entry parent p with
  | none =>
    rw [cowVisit_of_none hp]
    exact h.of_absent hst hp
  | some pte =>
    rw [cowVisit_of_present h.sound hp]
    have hp' : (m.setEntry parent p (some ⟨pte.pfn, false⟩)).entry parent p =
      some ⟨pte.pfn, false⟩ := setEntry_entry_self
    have hs : ((m.setEntry parent p (some ⟨pte.pfn, false⟩)).setEntry child p
        (some ⟨pte.pfn, false⟩)).Sound := (h.sound.setEntry hp).setEntry hp'
    refine h.of_present hst hp (hs.of_eq rfl rfl) (fun q hq => ?_) ⟨false, ?_, fun _ => rfl⟩
      setEntry_entry_self (fun _ _ _ => rfl) (fun _ _ => rfl) (fun _ => rfl) nofun
    · exact ⟨(setEntry_entry_of_ne (.inr hq)).trans (setEntry_entry_of_ne (.inr hq)),
        (setEntry_entry_of_ne (.inr hq)).trans (setEntry_entry_of_ne (.inr hq))⟩
    · exact (setEntry_entry_of_ne (.inl hne.symm)).trans setEntry_entry_self

theorem stackVisit (h : Copying child parent m₀ m st) (hne : child ≠ parent) (hst : st p = none) :
    Copying child parent m₀ (stackVisit H child parent seg (p * 4096) m)
      (Function.update st p (some .copied)) := by
  cases hp : m.entry parent p with
  | none =>
    rw [stackVisit_of_none hp]
    exact h.of_absent hst hp
  | some pte =>
    rw [stackVisit_of_present hp]
    have hs : (m.allocFrame.2.setEntry child p (some ⟨m.free 0, H.segWritable seg⟩)).Sound :=
      h.sound.installFresh
    refine h.of_present hst hp (hs.of_eq rfl rfl) (fun q hq => ?_) ⟨pte.writable, ?_, nofun⟩
      setEntry_entry_self ?_ (fun o ho => memcpyPage_mem_self ho) nofun
      (fun _ _ _ hq => (h.sound.free_unmapped hq 0).symm)
    · exact ⟨setEntry_entry_of_ne (.inr hq), setEntry_entry_of_ne (.inr hq)⟩
    · exact (setEntry_entry_of_ne (.inl hne.symm)).trans hp
    · intro i q pte' hq o ho
      exact memcpyPage_mem_of_ne (h.sound.free_unmapped hq 0) ho

end Copying

theorem CforkCopyMm.copying (h : CforkCopyMm H child parent ctx m m') (hl : ctx.Layout)
    (hs : m.Sound) (hne : child ≠ parent) :
    Visited (Copying child parent m) (fun kind p => ctx.Copies kind (p * 4096)) m' := by
  refine h.visited hl ?_ (fun _ _ _ _ hR hst _ => hR.shareVisit hne hst)
    (fun _ _ _ hR hst _ => hR.cowVisit hne hst) fun _ _ _ hR hst _ => hR.stackVisit hne hst
  have hold {i p pte} (hp : Function.update m.entry child (fun _ => none) i p = some pte) :
      m.entry i p = some pte := by
    rcases eq_or_ne i child with rfl | hi
    · simp at hp
    · rwa [Function.update_of_ne hi] at hp
  constructor
  case sound => exact ⟨fun hp => hs.pfn_ne (hold hp), hs.free_ne,
    fun hp => hs.free_unmapped (hold hp), hs.free_injective⟩
  case parent_view =>
    intro a
    simp only [view, Function.update_of_ne hne.symm]
  case child_view => exact fun ha => absurd rfl ha
  case absent => exact fun _ => by simp
  case readonly => exact fun hq => nomatch hq
  case own => exact fun hq => nomatch hq

theorem MmContext.Layout.page_mem_area {a : Nat} (hl : ctx.Layout) {vm : VmArea} (hvm : vm ∈ ctx.vmArea) :
    a / 4096 * 4096 ∈ vm.range ↔ a ∈ vm.range := by
  have := hl.areas vm hvm
  simp only [VmArea.range, Set.mem_Ico]
  omega

theorem MmContext.Layout.page_mem_data {a : Nat} (hl : ctx.Layout) :
    a / 4096 * 4096 ∈ ctx.data.range ↔ a ∈ ctx.data.range := by
  have := hl.data.start_dvd
  have := hl.data.end_dvd
  simp only [MmSegment.range, Set.mem_Ico]
  omega

/-- What the loops visit is made of whole pages. -/
theorem MmContext.Layout.copies_page (hl : ctx.Layout) {kind : CopyKind} {a : Nat} :
    ctx.Copies kind (a / 4096 * 4096) ↔ ctx.Copies kind a := by
  have hcode := hl.code.start_dvd
  have hcode' := hl.code.nextFree_dvd
  have hrodata := hl.rodata.start_dvd
  have hrodata' := hl.rodata.nextFree_dvd
  have hdata := hl.data.start_dvd
  have hdata' := hl.data.nextFree_dvd
  have hstack := hl.stack.nextFree_dvd
  have hstack' := hl.stack.end_dvd
  cases kind with
  | shared =>
    simp only [Copies, Set.mem_Ico]
    omega
  | copied =>
    simp only [Copies, Set.mem_Ico]
    omega
  | cow =>
    simp only [Copies, Set.mem_Ico]
    exact or_congr (by omega) (exists_congr fun vm => and_congr_right hl.page_mem_area)

theorem MmContext.small_layout : MmContext.small.Layout where
  code := by constructor <;> decide
  rodata := by constructor <;> decide
  data := by constructor <;> decide
  stack := by constructor <;> decide
  stack_pos := by decide
  areas := by decide
  disjoint := by
    rw [MmContext.Layout.disjoint_iff]
    simp [small, MmSegment.range, VmArea.range]

theorem Machine.boot_sound (pages : List Nat) : (Machine.boot pages).Sound where
  pfn_ne {i p q} h := by
    obtain ⟨-, ⟨⟩⟩ := Option.ite_none_right_eq_some.1 h
    simp
  free_ne i := by simp [boot]
  free_unmapped {i p q} h j := by
    obtain ⟨-, ⟨⟩⟩ := Option.ite_none_right_eq_some.1 h
    simp only [boot]
    omega
  free_injective i j h := by
    simp only [boot] at h
    omega

/-- The child has the memory of the parent, which sees no change; the stacks have their own frames,
and the pages of DATA and of the areas are read-only in both processes. -/
theorem CforkCopyMm.memory_copied (hl : ctx.Layout) (hs : m.Sound) (hne : child ≠ parent) :
    (∃ m', CforkCopyMm H child parent ctx m m') ∧
      ∀ m', CforkCopyMm H child parent ctx m m' →
        (∀ kind a, ctx.Copies kind a → m'.view child a = m.view parent a) ∧
        (∀ a, m'.view parent a = m.view parent a) ∧
        (∀ p pte p' pte', ctx.Copies .copied (p * 4096) → m'.entry child p = some pte →
          m'.entry parent p' = some pte' → pte.pfn ≠ pte'.pfn) ∧
        ∀ p pte, ctx.Copies .cow (p * 4096) →
          m'.entry child p = some pte ∨ m'.entry parent p = some pte → pte.writable = false := by
  refine ⟨hl.exists_cforkCopyMm m, fun m' h => ?_⟩
  obtain ⟨st, hc, hst⟩ := h.copying hl hs hne
  refine ⟨fun kind a ha => ?_, hc.parent_view, fun p pte p' pte' hp => ?_, fun p pte hp => ?_⟩
  · have hvisited := (hst kind (a / 4096)).2 (hl.copies_page.2 ha)
    exact hc.child_view (by simp [hvisited])
  · exact hc.own ((hst _ _).2 hp)
  · exact hc.readonly ((hst _ _).2 hp)

/-- A process with one page in CODE, DATA, STACK and in its area. -/
theorem CforkCopyMm.memory_copied_of_boot :
    ∃ m m' : Machine, CforkCopyMm .megabyte 1 0 .small m m' ∧
      m'.view 1 4100 = some 4 ∧ m'.view 1 12300 = some 12 ∧ m'.view 1 32800 = some 32 ∧
      m'.view 1 (2 ^ 20 + 4100) = some 4 ∧ ∀ a, m'.view 0 a = m.view 0 a := by
  obtain ⟨⟨m', h⟩, hall⟩ := CforkCopyMm.memory_copied (H := .megabyte)
    MmContext.small_layout (Machine.boot_sound [1, 3, 8, 257]) (show 1 ≠ 0 by decide)
  obtain ⟨hcopy, hview, -⟩ := hall m' h
  refine ⟨_, m', h, ?_, ?_, ?_, ?_, hview⟩
  · exact (hcopy .shared 4100 (.inl (by decide))).trans (by decide)
  · exact (hcopy .cow 12300 (.inl (by decide))).trans (by decide)
  · exact (hcopy .copied 32800 ⟨by decide, by decide⟩).trans (by decide)
  · exact (hcopy .cow (2 ^ 20 + 4100) (.inr ⟨_, .head _, by decide, by decide⟩)).trans (by decide)

end CS330
