import CS330.Cow.Faults
import CS330.Lib.References

/-! # Shared frames are counted and never writable

Runs of forks, copy-on-write faults and page faults of any processes. All processes have the
segments and areas of the first one, since forks pass them on. -/

namespace CS330

/-- The pages of DATA and of the areas. -/
def MmContext.Shared (ctx : MmContext) (page : Nat) : Prop :=
  page * 4096 ∈ ctx.data.range ∨ ∃ vm ∈ ctx.vmArea, page * 4096 ∈ vm.range

/-- The processes and their page tables. -/
structure CowState where
  machine : Machine
  alive : Nat → Prop

inductive CowCall where
  | fork (parent child : Nat)
  | cowFault (pid cr2 : Nat)
  | pagefault (pid addr : Nat) (errorCode : Int)

/-- A call in a live process: a fork makes a new child, copy-on-write faults happen in pages of DATA
and of the areas, page faults in pages that are not present. -/
inductive CowStep (H : ForkHeader) (ctx : MmContext) (s : CowState) : CowCall → CowState → Prop where
  | fork (hparent : s.alive parent) (hchild : ¬s.alive child)
    (h : CforkCopyMm H child parent ctx s.machine m') :
    CowStep H ctx s (.fork parent child) ⟨m', fun pid => s.alive pid ∨ pid = child⟩
  | cowFault (hpid : s.alive pid) (hpage : ctx.Shared (cr2 / 4096)) :
    CowStep H ctx s (.cowFault pid cr2)
      { s with machine := (handleCowFault H ctx s.machine pid cr2).2 }
  | pagefault (hpid : s.alive pid) (habsent : s.machine.entry pid (addr / 4096) = none) :
    CowStep H ctx s (.pagefault pid addr errorCode)
      { s with machine := (s.machine.vmAreaPagefault H ctx pid addr errorCode).2 }

/-- One process whose present pages have frames of their own, each with one reference. -/
structure CowState.Initial (s : CowState) (pid : Nat) : Prop where
  alive : s.alive p ↔ p = pid
  sound : s.machine.Sound
  absent : p ≠ pid → s.machine.entry p page = none
  distinct : s.machine.entry pid page = some pte → s.machine.entry pid page' = some pte' →
    page ≠ page' → pte.pfn ≠ pte'.pfn
  count : s.machine.entry pid page = some pte → s.machine.refCount pte.pfn = 1

def CowRun (H : ForkHeader) (ctx : MmContext) : CowState → List CowCall → CowState → Prop :=
  Trace (CowStep H ctx)

/-! ## The references of the pages -/

variable {H : ForkHeader} {ctx : MmContext} {m m' : Machine} {child parent pid page f : Nat}

open Machine

open Classical in
/-- The frame that a page of DATA or of an area refers to. -/
noncomputable def Machine.refs (m : Machine) (ctx : MmContext) : Nat × Nat → Option Nat
  | (pid, page) => if ctx.Shared page then (m.entry pid page).map Pte.pfn else none

theorem Machine.refs_of_shared (h : ctx.Shared page) :
    m.refs ctx (pid, page) = (m.entry pid page).map Pte.pfn := if_pos h

theorem Machine.refs_of_not_shared (h : ¬ctx.Shared page) : m.refs ctx (pid, page) = none := if_neg h

theorem Machine.refs_eq_some : m.refs ctx (pid, page) = some f ↔
    ctx.Shared page ∧ ∃ pte, m.entry pid page = some pte ∧ pte.pfn = f := by
  by_cases h : ctx.Shared page
  · simp [refs_of_shared h, h]
  · simp [refs_of_not_shared h, h]

/-- A frame that is free is referred to by no page. -/
theorem Machine.Sound.not_held (h : m.Sound) (i : Nat) : ¬Held (m.refs ctx) (m.free i) := by
  rintro ⟨⟨pid, page⟩, hk⟩
  obtain ⟨-, pte, hpte, heq⟩ := refs_eq_some.1 hk
  exact h.free_unmapped hpte i heq

/-- The counts are exact, a page that may be written has its frame for itself, and the other
segments have other frames. -/
structure Sharing (ctx : MmContext) (m : Machine) : Prop where
  sound : m.Sound
  exact : ∀ {f}, Held (m.refs ctx) f → Exact (m.refs ctx) (m.refCount f) f
  single : ∀ {pid page pte k}, ctx.Shared page → m.entry pid page = some pte → pte.writable →
    m.refs ctx k = some pte.pfn → k = (pid, page)
  separate : ∀ {pid page pte}, ¬ctx.Shared page → m.entry pid page = some pte →
    ¬Held (m.refs ctx) pte.pfn

namespace Sharing

variable {pte : Pte} {w w' : Bool} {a : Nat}

/-- Changes that no page of DATA or of an area sees. -/
theorem of_refs_eq (h : Sharing ctx m) (hs : m'.Sound)
    (hentry : ∀ pid page, ctx.Shared page → m'.entry pid page = m.entry pid page)
    (hcount : ∀ f, Held (m.refs ctx) f → m'.refCount f = m.refCount f)
    (hsep : ∀ pid page pte, ¬ctx.Shared page → m'.entry pid page = some pte →
      ¬Held (m.refs ctx) pte.pfn) : Sharing ctx m' := by
  have hrefs : m'.refs ctx = m.refs ctx := by
    ext1 ⟨pid, page⟩
    by_cases hp : ctx.Shared page
    · rw [refs_of_shared hp, refs_of_shared hp, hentry pid page hp]
    · rw [refs_of_not_shared hp, refs_of_not_shared hp]
  exact {
    sound := hs
    exact := fun hf => by
      rw [hrefs] at hf ⊢
      rw [hcount _ hf]
      exact h.exact hf
    single := fun hp he hw hk => h.single hp (hentry _ _ hp ▸ he) hw (hrefs ▸ hk)
    separate := fun hp he => hrefs ▸ hsep _ _ _ hp he }

/-- An entry of another page with a frame that no page of DATA or of an area refers to. -/
theorem setEntry_of_not_shared (h : Sharing ctx m) (hp : ¬ctx.Shared page)
    (hs : (m.setEntry pid page (some ⟨f, w⟩)).Sound) (hf : ¬Held (m.refs ctx) f) :
    Sharing ctx (m.setEntry pid page (some ⟨f, w⟩)) := by
  refine h.of_refs_eq hs (fun i q hq => ?_) (fun _ _ => rfl) fun i q pte' hq he => ?_
  · exact setEntry_entry_of_ne (.inr fun heq => hp (heq ▸ hq))
  · rw [setEntry_entry] at he
    split at he
    next => cases he; exact hf
    next => exact h.separate hq he

theorem allocFrame (h : Sharing ctx m) (hs : m.Sound) :
    Sharing ctx m.allocFrame.2 := by
  refine h.of_refs_eq ?_ (fun _ _ _ => rfl) (fun g hg => ?_) fun _ _ _ hq he => h.separate hq he
  · exact {
      pfn_ne := hs.pfn_ne
      free_ne := fun i => hs.free_ne (i + 1)
      free_unmapped := fun he i => hs.free_unmapped he (i + 1)
      free_injective := fun i j heq => Nat.succ_injective (hs.free_injective heq) }
  · have hne : g ≠ m.free 0 := by
      rintro rfl
      exact hs.not_held 0 hg
    simp [Machine.allocFrame, hne]

theorem shareVisit (h : Sharing ctx m) (hp : ¬ctx.Shared page) (seg : MmSegment) :
    Sharing ctx (shareVisit H child parent seg (page * 4096) m) := by
  cases he : m.entry parent page with
  | none => rwa [shareVisit_of_none he]
  | some pte =>
    rw [shareVisit_of_present h.sound he]
    have hnot : ¬Held (m.refs ctx) pte.pfn := h.separate hp he
    exact h.setEntry_of_not_shared hp (h.sound.setEntry he) hnot

theorem stackVisit (h : Sharing ctx m) (hp : ¬ctx.Shared page) (seg : MmSegment) :
    Sharing ctx (stackVisit H child parent seg (page * 4096) m) := by
  cases he : m.entry parent page with
  | none => rwa [stackVisit_of_none he]
  | some pte =>
    rw [stackVisit_of_present he]
    have hset : Sharing ctx
        (m.allocFrame.2.setEntry child page (some ⟨m.free 0, H.segWritable seg⟩)) :=
      (h.allocFrame h.sound).setEntry_of_not_shared hp h.sound.installFresh (h.sound.not_held 0)
    exact ⟨hset.sound.of_eq rfl rfl, hset.exact, hset.single, hset.separate⟩

/-- A page that is shared on: the child's page refers to the frame of the parent's. -/
theorem cowVisit (h : Sharing ctx m) (hp : ctx.Shared page)
    (habsent : m.entry child page = none) :
    Sharing ctx (cowVisit H child parent (page * 4096) m) := by
  cases he : m.entry parent page with
  | none => rwa [cowVisit_of_none he]
  | some pte =>
    rw [cowVisit_of_present h.sound he]
    generalize hm' : ((m.setEntry parent page (some ⟨pte.pfn, false⟩)).setEntry child page
      (some ⟨pte.pfn, false⟩)).addRef pte.pfn 1 = m'
    have hentry (i q) : m'.entry i q = if (i = child ∨ i = parent) ∧ q = page then
        some ⟨pte.pfn, false⟩ else m.entry i q := by
      rw [← hm']
      simp only [addRef, setEntry_entry]
      split <;> split <;> grind
    have hold : m.refs ctx (parent, page) = some pte.pfn := by simp [refs_of_shared hp, he]
    have hnone : m.refs ctx (child, page) = none := by simp [refs_of_shared hp, habsent]
    have hrefs : m'.refs ctx = Function.update (m.refs ctx) (child, page) (some pte.pfn) := by
      ext1 ⟨i, q⟩
      by_cases hq : ctx.Shared q
      · rw [refs_of_shared hq, hentry, Function.update_apply, refs_of_shared hq]
        grind
      · have hqp : q ≠ page := fun heq => hq (heq ▸ hp)
        rw [refs_of_not_shared hq, Function.update_of_ne (by simp [hqp]), refs_of_not_shared hq]
    have hheld (g) : Held (m'.refs ctx) g ↔ Held (m.refs ctx) g := by
      rw [hrefs, held_update_of_eq_none hnone]
      exact or_iff_right_of_imp fun heq => heq ▸ ⟨_, hold⟩
    have hcount : m'.refCount = Function.update m.refCount pte.pfn (m.refCount pte.pfn + 1) := by
      rw [← hm']
      rfl
    have hset : (m.setEntry parent page (some ⟨pte.pfn, false⟩)).entry parent page =
      some ⟨pte.pfn, false⟩ := setEntry_entry_self
    have hsound : m'.Sound :=
      ((h.sound.setEntry he).setEntry hset).of_eq (by rw [← hm']; rfl) (by rw [← hm']; rfl)
    constructor
    case sound => exact hsound
    case exact =>
      intro g hg
      rw [hheld] at hg
      rw [hrefs, hcount]
      rcases eq_or_ne g pte.pfn with rfl | hgp
      · rw [Function.update_self]
        exact (h.exact hg).take (by simp [hnone])
      · rw [Function.update_of_ne hgp]
        exact (h.exact hg).other (by simp [hnone]) (by simpa using hgp.symm)
    case single =>
      intro i q pte' k hq he' hw hk
      rw [hentry] at he'
      split at he'
      next => cases he'; cases hw
      next hnot =>
        rw [hrefs] at hk
        rcases eq_or_ne k (child, page) with rfl | hkc
        · rw [Function.update_self] at hk
          have hother := h.single hq he' hw (hold.trans hk)
          simp only [Prod.mk.injEq] at hother
          exact absurd ⟨.inr hother.1.symm, hother.2.symm⟩ hnot
        · rw [Function.update_of_ne hkc] at hk
          exact h.single hq he' hw hk
    case separate =>
      intro i q pte' hq he'
      have hqp : q ≠ page := fun heq => hq (heq ▸ hp)
      rw [hentry, if_neg (fun hc => hqp hc.2)] at he'
      rw [hheld]
      exact h.separate hq he'

/-! ### Faults -/

/-- A page of DATA or of an area gets a new frame; the counts have been adjusted before. -/
theorem installFresh (h : Sharing ctx m) (hp : ctx.Shared page) {m₁ : Machine}
    (hm₁ : m₁.entry = m.entry ∧ m₁.free = m.free)
    (hexact : ∀ {g}, Held (m.refs ctx) g → Exact
      (Function.update (m.refs ctx) (pid, page) (some (m.free 0))) (m₁.refCount g) g) :
    Sharing ctx (m₁.allocFrame.2.setEntry pid page (some ⟨m.free 0, w⟩)) := by
  obtain ⟨hm₁, hfree⟩ := hm₁
  generalize hm' : m₁.allocFrame.2.setEntry pid page (some ⟨m.free 0, w⟩) = m'
  have hentry (i q) : m'.entry i q = if i = pid ∧ q = page then some ⟨m.free 0, w⟩
      else m.entry i q := by
    rw [← hm', setEntry_entry, allocFrame_entry, hm₁]
  have hrefs : m'.refs ctx = Function.update (m.refs ctx) (pid, page) (some (m.free 0)) := by
    ext1 ⟨i, q⟩
    by_cases hq : ctx.Shared q
    · rw [refs_of_shared hq, hentry, Function.update_apply, refs_of_shared hq]
      grind
    · have hqp : q ≠ page := fun heq => hq (heq ▸ hp)
      rw [refs_of_not_shared hq, Function.update_of_ne (by simp [hqp]), refs_of_not_shared hq]
  have hcount : m'.refCount = Function.update m₁.refCount (m.free 0) 1 := by
    rw [← hm', ← hfree]
    rfl
  have hnot (k) : m.refs ctx k ≠ some (m.free 0) := fun hk => h.sound.not_held 0 ⟨k, hk⟩
  have hheld {g} (hg : Held (m'.refs ctx) g) : g = m.free 0 ∨ Held (m.refs ctx) g := by
    obtain ⟨k, hk⟩ := hg
    rw [hrefs] at hk
    rcases eq_or_ne k (pid, page) with rfl | hkp
    · exact .inl (by simpa using hk.symm)
    · exact .inr ⟨k, by simpa [hkp] using hk⟩
  have hsound : m'.Sound := by
    have hs : (m.allocFrame.2.setEntry pid page (some ⟨m.free 0, w⟩)).Sound := h.sound.installFresh
    refine hs.of_eq ?_ ?_
    · ext1 i
      ext1 q
      rw [hentry, setEntry_entry, allocFrame_entry]
    · rw [← hm']
      simp only [setEntry_free, Machine.allocFrame, hfree]
  constructor
  case sound => exact hsound
  case exact =>
    intro g hg
    rw [hrefs, hcount]
    rcases eq_or_ne g (m.free 0) with rfl | hgf
    · rw [Function.update_self]
      exact (Exact.of_forall_ne hnot).take (hnot _)
    · rw [Function.update_of_ne hgf]
      exact hexact ((hheld hg).resolve_left hgf)
  case single =>
    intro i q pte' k hq he hw hk
    rw [hentry] at he
    rw [hrefs] at hk
    split at he
    next hiq =>
      cases he
      rcases eq_or_ne k (pid, page) with rfl | hkp
      · rw [hiq.1, hiq.2]
      · rw [Function.update_of_ne hkp] at hk
        exact absurd hk (hnot k)
    next =>
      rcases eq_or_ne k (pid, page) with rfl | hkp
      · rw [Function.update_self] at hk
        exact absurd (Option.some.inj hk).symm (h.sound.free_unmapped he 0)
      · rw [Function.update_of_ne hkp] at hk
        exact h.single hq he hw hk
  case separate =>
    intro i q pte' hq he hg
    have hqp : q ≠ page := fun heq => hq (heq ▸ hp)
    rw [hentry, if_neg (fun hc => hqp hc.2)] at he
    rcases hheld hg with hfree' | hg
    · exact h.sound.free_unmapped he 0 hfree'
    · exact h.separate hq he hg

/-- A page that is not present gets a new frame. -/
theorem mapFresh (h : Sharing ctx m) (hp : ctx.Shared (a / 4096))
    (habsent : m.entry pid (a / 4096) = none) (prot : BitVec 32) :
    Sharing ctx (m.mapPhysicalPage H pid a prot 0).2 := by
  have hnone : m.refs ctx (pid, a / 4096) = none := by simp [refs_of_shared hp, habsent]
  refine h.installFresh hp ⟨rfl, rfl⟩ fun {g} hg => (h.exact hg).other (by simp [hnone]) ?_
  rintro ⟨⟩
  exact h.sound.not_held 0 hg

/-- A page becomes writable whose frame no other page refers to. -/
theorem makeWritable (h : Sharing ctx m) (hp : ctx.Shared page)
    (he : m.entry pid page = some ⟨f, w⟩) (hle : m.refCount f ≤ 1) :
    Sharing ctx (m.setEntry pid page (some ⟨f, w'⟩)) := by
  have hself : m.refs ctx (pid, page) = some f := by simp [refs_of_shared hp, he]
  have hrefs : (m.setEntry pid page (some ⟨f, w'⟩)).refs ctx = m.refs ctx := by
    ext1 ⟨i, q⟩
    by_cases hq : ctx.Shared q
    · rw [refs_of_shared hq, refs_of_shared hq, setEntry_entry]
      grind
    · rw [refs_of_not_shared hq, refs_of_not_shared hq]
  constructor
  case sound => exact h.sound.setEntry he
  case exact => exact fun hg => hrefs ▸ h.exact (hrefs ▸ hg)
  case single =>
    intro i q pte' k hq he' hw hk
    rw [setEntry_entry] at he'
    rw [hrefs] at hk
    split at he'
    next hiq =>
      cases he'
      rw [hiq.1, hiq.2]
      exact (h.exact ⟨_, hself⟩).unique hle hk hself
    next => exact h.single hq he' hw hk
  case separate =>
    intro i q pte' hq he'
    have hqp : q ≠ page := fun heq => hq (heq ▸ hp)
    rw [setEntry_entry_of_ne (.inr hqp)] at he'
    rw [hrefs]
    exact h.separate hq he'

theorem memcpyPage (h : Sharing ctx m) (dst src : Nat) : Sharing ctx (m.memcpyPage dst src) :=
  ⟨h.sound.of_eq rfl rfl, h.exact, h.single, h.separate⟩

theorem cowPage (h : Sharing ctx m) (hp : ctx.Shared page) :
    Sharing ctx (cowPage H m pid (page * 4096)).2 := by
  cases he : m.entry pid page with
  | none => rwa [cowPage_of_none he]
  | some pte =>
    have hself : m.refs ctx (pid, page) = some pte.pfn := by simp [refs_of_shared hp, he]
    obtain ⟨-, heq⟩ | ⟨hle, heq⟩ := cowPage_of_present (H := H) h.sound he
    · rw [heq]
      refine h.installFresh hp ⟨rfl, rfl⟩ fun {g} hg => ?_
      have hgf : some (m.free 0) ≠ some g := by
        rintro ⟨⟩
        exact h.sound.not_held 0 hg
      rcases eq_or_ne g pte.pfn with rfl | hgp
      · have hcount : ((m.addRef pte.pfn (-1)).memcpyPage pte.pfn (pte.pfn * 4096)).refCount
            pte.pfn = m.refCount pte.pfn - 1 := Function.update_self ..
        rw [hcount]
        exact (h.exact hg).drop hself hgf
      · have hcount : ((m.addRef pte.pfn (-1)).memcpyPage pte.pfn (pte.pfn * 4096)).refCount g =
            m.refCount g := Function.update_of_ne hgp ..
        rw [hcount]
        exact (h.exact hg).other (by simpa [hself] using hgp.symm) hgf
    · rw [heq]
      exact (h.memcpyPage _ _).makeWritable hp he hle

theorem handleCowFault (h : Sharing ctx m) (hl : ctx.Layout) (hp : ctx.Shared (a / 4096)) :
    Sharing ctx (handleCowFault H ctx m pid a).2 := by
  obtain ⟨kind, -, hrun⟩ := hl.exists_faultCase H a
  rw [hrun]
  cases kind with
  | copy => exact h.cowPage hp
  | refuse => exact h
  | ignore => exact h

theorem vmAreaPagefault (h : Sharing ctx m) (hl : ctx.Layout)
    (habsent : m.entry pid (a / 4096) = none) (errorCode : Int) :
    Sharing ctx (m.vmAreaPagefault H ctx pid a errorCode).2 := by
  unfold Machine.vmAreaPagefault
  cases hprot : pagefaultProt H.toHeader ctx.vmArea a errorCode with
  | none => exact h
  | some prot =>
    refine h.mapFresh (.inr ?_) habsent prot
    unfold pagefaultProt at hprot
    split at hprot
    next => cases hprot
    next vm hvm =>
      have hmem := List.mem_of_find?_eq_some hvm
      have hfound := List.find?_some hvm
      have hrange : a ≥ vm.vmStart ∧ a < vm.vmEnd := of_decide_eq_true hfound
      exact ⟨vm, hmem, (hl.page_mem_area hmem).2 hrange⟩

end Sharing

/-! ## Forks -/

/-- DATA and the areas are what the loops share. -/
theorem MmContext.Layout.shared_of_copies (hl : ctx.Layout) :
    (ctx.Copies .cow (page * 4096) → ctx.Shared page) ∧
      (ctx.Copies .shared (page * 4096) → ¬ctx.Shared page) ∧
      (ctx.Copies .copied (page * 4096) → ¬ctx.Shared page) := by
  obtain ⟨hcr, hcd, hcs, hca, hrd, hrs, hra, hds, hda, hsa, -⟩ :=
    MmContext.Layout.disjoint_iff.1 hl.disjoint
  refine ⟨?_, ?_, ?_⟩
  · rintro (hp | hp)
    · exact .inl (hl.data.mem_used hp)
    · exact .inr hp
  · rintro (hp | hp) (hp' | ⟨vm, hvm, hp'⟩)
    · exact Set.disjoint_left.1 hcd (hl.code.mem_used hp) hp'
    · exact Set.disjoint_left.1 (hca vm hvm) (hl.code.mem_used hp) hp'
    · exact Set.disjoint_left.1 hrd (hl.rodata.mem_used hp) hp'
    · exact Set.disjoint_left.1 (hra vm hvm) (hl.rodata.mem_used hp) hp'
  · rintro hp (hp' | ⟨vm, hvm, hp'⟩)
    · exact Set.disjoint_left.1 hds hp' (hl.stack.mem_stack hp)
    · exact Set.disjoint_left.1 (hsa vm hvm) (hl.stack.mem_stack hp) hp'

section
variable {seg : MmSegment} {i q : Nat}

/-! A visit changes neither other pages nor other processes. -/

theorem shareVisit_entry (hs : m.Sound) (h : q ≠ page ∨ i ≠ child ∧ i ≠ parent) :
    (shareVisit H child parent seg (page * 4096) m).entry i q = m.entry i q := by
  cases he : m.entry parent page with
  | none => rw [shareVisit_of_none he]
  | some pte =>
    rw [shareVisit_of_present hs he]
    exact setEntry_entry_of_ne (by tauto)

theorem stackVisit_entry (h : q ≠ page ∨ i ≠ child ∧ i ≠ parent) :
    (stackVisit H child parent seg (page * 4096) m).entry i q = m.entry i q := by
  cases he : m.entry parent page with
  | none => rw [stackVisit_of_none he]
  | some pte =>
    rw [stackVisit_of_present he]
    exact setEntry_entry_of_ne (by tauto)

theorem cowVisit_entry (hs : m.Sound) (h : q ≠ page ∨ i ≠ child ∧ i ≠ parent) :
    (cowVisit H child parent (page * 4096) m).entry i q = m.entry i q := by
  cases he : m.entry parent page with
  | none => rw [cowVisit_of_none he]
  | some pte =>
    rw [cowVisit_of_present hs he]
    exact (setEntry_entry_of_ne (by tauto)).trans (setEntry_entry_of_ne (by tauto))

end

/-- What holds during a fork. -/
structure Forking (ctx : MmContext) (child parent : Nat) (m₀ m : Machine)
    (st : Nat → Option CopyKind) : Prop where
  sharing : Sharing ctx m
  absent : ∀ {p}, st p = none → m.entry child p = none
  others : ∀ {i p}, i ≠ child → i ≠ parent → m.entry i p = m₀.entry i p

theorem Forking.visit {st : Nat → Option CopyKind} {kind : CopyKind}
    (h : Forking ctx child parent m m₁ st) (hsharing : Sharing ctx m')
    (hentry : ∀ i q, q ≠ page ∨ i ≠ child ∧ i ≠ parent → m'.entry i q = m₁.entry i q) :
    Forking ctx child parent m m' (Function.update st page (some kind)) where
  sharing := hsharing
  absent {p} hp := by
    have hne : p ≠ page := by rintro rfl; simp at hp
    rw [Function.update_of_ne hne] at hp
    rw [hentry _ _ (.inl hne), h.absent hp]
  others hi hi' := (hentry _ _ (.inr ⟨hi, hi'⟩)).trans (h.others hi hi')

theorem CforkCopyMm.forking (h : CforkCopyMm H child parent ctx m m') (hl : ctx.Layout)
    (hs : Sharing ctx m) (hchild : ∀ p, m.entry child p = none) :
    ∃ st, Forking ctx child parent m m' st := by
  have hvisited : Visited (Forking ctx child parent m)
      (fun kind p => ctx.Copies kind (p * 4096)) m' := by
    refine h.visited hl ?_ ?_ ?_ ?_
    · have hentry : Function.update m.entry child (fun _ => none) = m.entry :=
        Function.update_eq_iff.2 ⟨funext fun p => (hchild p).symm, fun _ _ => rfl⟩
      rw [hentry]
      exact ⟨hs, fun _ => hchild _, fun _ _ => rfl⟩
    · intro m₁ st seg p hf hst hp
      exact hf.visit (hf.sharing.shareVisit (hl.shared_of_copies.2.1 hp) seg)
        fun _ _ => shareVisit_entry hf.sharing.sound
    · intro m₁ st p hf hst hp
      exact hf.visit (hf.sharing.cowVisit (hl.shared_of_copies.1 hp) (hf.absent hst))
        fun _ _ => cowVisit_entry hf.sharing.sound
    · intro m₁ st p hf hst hp
      exact hf.visit (hf.sharing.stackVisit (hl.shared_of_copies.2.2 hp) _)
        fun _ _ => stackVisit_entry
  obtain ⟨st, hf, -⟩ := hvisited
  exact ⟨st, hf⟩

/-! ## Runs -/

/-- The invariant of the runs. -/
structure CowState.Ok (ctx : MmContext) (s : CowState) : Prop where
  sharing : Sharing ctx s.machine
  dead : ∀ {pid page}, ¬s.alive pid → s.machine.entry pid page = none

theorem handleCowFault_entry {i q a : Nat} (hl : ctx.Layout) (hs : m.Sound) (h : i ≠ pid) :
    (handleCowFault H ctx m pid a).2.entry i q = m.entry i q := by
  obtain ⟨kind, -, hrun⟩ := hl.exists_faultCase H a
  rw [hrun]
  cases kind with
  | copy =>
    rw [FaultKind.run]
    cases he : m.entry pid (a / 4096) with
    | none => rw [cowPage_of_none he]
    | some pte =>
      obtain ⟨-, heq⟩ | ⟨-, heq⟩ := cowPage_of_present (H := H) hs he
      · rw [heq, setEntry_entry_of_ne (.inl h)]
        rfl
      · rw [heq, setEntry_entry_of_ne (.inl h)]
        rfl
  | refuse => rfl
  | ignore => rfl

theorem CowState.Ok.step {s s' : CowState} {call : CowCall} (h : s.Ok ctx) (hl : ctx.Layout)
    (hs : CowStep H ctx s call s') : s'.Ok ctx := by
  cases hs with
  | @fork parent child m' hparent hchild hc =>
    obtain ⟨st, hf⟩ := hc.forking hl h.sharing fun p => h.dead hchild
    refine ⟨hf.sharing, fun {i p} hi => ?_⟩
    obtain ⟨hi, hne⟩ := not_or.1 hi
    have hne' : i ≠ parent := by rintro rfl; exact hi hparent
    exact (hf.others hne hne').trans (h.dead hi)
  | @cowFault pid cr2 hpid hpage =>
    refine ⟨h.sharing.handleCowFault hl hpage, fun {i p} hi => ?_⟩
    have hne : i ≠ pid := by rintro rfl; exact hi hpid
    exact (handleCowFault_entry hl h.sharing.sound hne).trans (h.dead hi)
  | @pagefault pid addr errorCode hpid habsent =>
    refine ⟨h.sharing.vmAreaPagefault hl habsent errorCode, fun {i p} hi => ?_⟩
    have hne : i ≠ pid := by rintro rfl; exact hi hpid
    refine Eq.trans ?_ (h.dead hi : s.machine.entry i p = none)
    unfold Machine.vmAreaPagefault
    split
    · rfl
    · exact install_entry_of_ne (.inl hne)

theorem CowState.Initial.ok {s : CowState} (h : s.Initial pid) : s.Ok ctx where
  sharing := by
    have hentry {i p pte} (he : s.machine.entry i p = some pte) : i = pid := by
      by_contra hne
      rw [h.absent hne] at he
      cases he
    have hrefs {k f} (hk : s.machine.refs ctx k = some f) :
        k.1 = pid ∧ ∃ pte, s.machine.entry pid k.2 = some pte ∧ pte.pfn = f := by
      obtain ⟨i, p⟩ := k
      obtain ⟨-, pte, he, hpte⟩ := refs_eq_some.1 hk
      obtain rfl := hentry he
      exact ⟨rfl, pte, he, hpte⟩
    have hpage {p p' pte pte'} (he : s.machine.entry pid p = some pte)
        (he' : s.machine.entry pid p' = some pte') (heq : pte.pfn = pte'.pfn) : p = p' := by
      by_contra hne
      exact h.distinct he he' hne heq
    constructor
    case sound => exact h.sound
    case exact =>
      rintro f ⟨k, hk⟩
      obtain ⟨hi, pte, he, rfl⟩ := hrefs hk
      have hholders : holders (s.machine.refs ctx) pte.pfn = {k} := by
        ext k'
        refine ⟨fun hk' => ?_, fun heq => heq ▸ hk⟩
        obtain ⟨hi', pte', he', heq⟩ := hrefs hk'
        exact Prod.ext (hi'.trans hi.symm) (hpage he' he heq)
      refine ⟨hholders ▸ Set.finite_singleton k, ?_⟩
      rw [hholders, Set.ncard_singleton, h.count he]
      rfl
    case single =>
      intro i p pte k hp he hw hk
      obtain rfl := hentry he
      obtain ⟨hi, pte', he', heq⟩ := hrefs hk
      exact Prod.ext hi (hpage he' he heq)
    case separate =>
      rintro i p pte hp he ⟨⟨i', p'⟩, hk⟩
      obtain rfl := hentry he
      obtain ⟨-, pte', he', heq⟩ := hrefs hk
      obtain rfl : p' = p := hpage he' he heq
      exact hp (refs_eq_some.1 hk).1
  dead hi := h.absent fun heq => hi (h.alive.2 heq)

theorem CowState.Initial.boot (pages : List Nat) :
    CowState.Initial ⟨Machine.boot pages, fun pid => pid = 0⟩ 0 where
  alive := .rfl
  sound := Machine.boot_sound pages
  absent hne := if_neg fun h => hne h.1
  distinct he he' hne heq := by
    obtain ⟨-, ⟨⟩⟩ := Option.ite_none_right_eq_some.1 he
    obtain ⟨-, ⟨⟩⟩ := Option.ite_none_right_eq_some.1 he'
    simp only [Nat.add_right_cancel_iff] at heq
    omega
  count _ := rfl

/-- The pages of DATA and of the areas, of all processes, that map the frame. -/
def MmContext.mappings (ctx : MmContext) (m : Machine) (f : Nat) : Set (Nat × Nat) :=
  {k | ctx.Shared k.2 ∧ ∃ pte, m.entry k.1 k.2 = some pte ∧ pte.pfn = f}

/-- Every frame that such a page maps counts these pages, and a page that may be written is the only
page that maps its frame. -/
theorem CowRun.sharing_exact {s s' : CowState} {calls : List CowCall} (hl : ctx.Layout)
    (h0 : s.Initial pid) (h : CowRun H ctx s calls s') :
    (∀ f, (ctx.mappings s'.machine f).Nonempty → (ctx.mappings s'.machine f).Finite ∧
      s'.machine.refCount f = (ctx.mappings s'.machine f).ncard) ∧
    ∀ i p pte, ctx.Shared p → s'.machine.entry i p = some pte → pte.writable →
      ∀ i' p' pte', s'.machine.entry i' p' = some pte' → pte'.pfn = pte.pfn → i' = i ∧ p' = p := by
  have hok : s'.Ok ctx := h.invariant h0.ok fun h hs => h.step hl hs
  have hmappings (f) : holders (s'.machine.refs ctx) f = ctx.mappings s'.machine f := by
    ext ⟨i, p⟩
    exact refs_eq_some
  refine ⟨fun f hf => ?_, fun i p pte hp he hw i' p' pte' he' hpfn => ?_⟩
  · rw [← hmappings] at hf ⊢
    obtain ⟨hfinite, hcount⟩ := hok.sharing.exact hf
    exact ⟨hfinite, hcount⟩
  · have hself : s'.machine.refs ctx (i, p) = some pte.pfn := refs_eq_some.2 ⟨hp, pte, he, rfl⟩
    by_cases hp' : ctx.Shared p'
    · have hk := hok.sharing.single hp he hw (refs_eq_some.2 ⟨hp', pte', he', hpfn⟩)
      simpa using hk
    · exact absurd ⟨_, hpfn ▸ hself⟩ (hok.sharing.separate hp' he')

/-- A fork and a fault of the child in a page of its area. -/
theorem CowRun.sharing_exact_of_fork_fault :
    ∃ (s s' : CowState) (calls : List CowCall), calls.length = 2 ∧
      CowRun .megabyte .small s calls s' ∧
      ∀ f, (MmContext.small.mappings s'.machine f).Nonempty →
        s'.machine.refCount f = (MmContext.small.mappings s'.machine f).ncard := by
  let s : CowState := ⟨.boot [3, 256], fun pid => pid = 0⟩
  have h0 : s.Initial 0 := .boot [3, 256]
  obtain ⟨m', hfork⟩ : ∃ m', CforkCopyMm .megabyte 1 0 .small s.machine m' :=
    MmContext.small_layout.exists_cforkCopyMm _
  let s₁ : CowState := ⟨m', fun pid => s.alive pid ∨ pid = 1⟩
  have hfork : CowStep .megabyte .small s (.fork 0 1) s₁ := .fork rfl nofun hfork
  have hshared : MmContext.small.Shared (2 ^ 20 / 4096) :=
    .inr ⟨_, .head _, by decide, by decide⟩
  have hfault : CowStep .megabyte .small s₁ (.cowFault 1 (2 ^ 20)) _ := .cowFault (.inr rfl) hshared
  have hrun : CowRun .megabyte .small s _ _ := .snoc (.snoc .nil hfork) hfault
  exact ⟨s, _, _, rfl, hrun, fun f hf => ((hrun.sharing_exact MmContext.small_layout h0).1 f hf).2⟩

end CS330
