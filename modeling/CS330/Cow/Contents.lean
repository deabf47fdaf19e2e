import CS330.Cow.Effects

/-! # Memory contents after a fault

The copy of `handle_cow_fault` goes to the address `pfn` and not to a frame. -/

namespace CS330

open Machine

/-! ## Runs -/

/-- A call in a live process, with faults at any address. -/
inductive MemoryStep (H : ForkHeader) (ctx : MmContext) (s : CowState) :
    CowCall → CowState → Prop where
  | fork (hparent : s.alive parent) (hchild : ¬s.alive child)
    (h : CforkCopyMm H child parent ctx s.machine m') :
    MemoryStep H ctx s (.fork parent child) ⟨m', fun pid => s.alive pid ∨ pid = child⟩
  | cowFault (hpid : s.alive pid) : MemoryStep H ctx s (.cowFault pid cr2)
      { s with machine := (handleCowFault H ctx s.machine pid cr2).2 }
  | pagefault (hpid : s.alive pid) : MemoryStep H ctx s (.pagefault pid addr errorCode)
      { s with machine := (s.machine.vmAreaPagefault H ctx pid addr errorCode).2 }

def MemoryRun (H : ForkHeader) (ctx : MmContext) : CowState → List CowCall → CowState → Prop :=
  Trace (MemoryStep H ctx)

variable {H : ForkHeader} {ctx : MmContext} {m : Machine} {pid page cr2 a : Nat} {pte : Pte}

theorem MemoryStep.sound {s s' : CowState} {call : CowCall} (h : MemoryStep H ctx s call s')
    (hl : ctx.Layout) (hs : s.machine.Sound) : s'.machine.Sound := by
  cases h with
  | fork hparent hchild hfork =>
    obtain ⟨st, hcopying, -⟩ := hfork.copying hl hs fun heq => hchild (heq ▸ hparent)
    exact hcopying.sound
  | cowFault => exact hs.handleCowFault hl
  | @pagefault pid addr errorCode => exact hs.vmAreaPagefault errorCode

theorem MemoryRun.sound {s s' : CowState} {calls : List CowCall} (h : MemoryRun H ctx s calls s')
    (hl : ctx.Layout) (hs : s.machine.Sound) : s'.machine.Sound :=
  h.invariant hs fun hs h => h.sound hl hs

/-! ## The fault -/

/-- The addresses that a fault writes to: with some contents of the memory their bytes change. -/
def cowFaultWrites (H : ForkHeader) (ctx : MmContext) (m : Machine) (pid cr2 : Nat) : Set Nat :=
  {a | ∃ mem, (handleCowFault H ctx { m with mem := mem } pid cr2).2.mem a ≠ mem a}

/-- The frames that were taken from the allocator on the way from `m` to `m'`. -/
def Machine.taken (m m' : Machine) : Set Nat := Set.range m.free \ Set.range m'.free

/-- The process reads in its page what it read before, the others read what they read before, and
only new frames are written to. -/
structure FaultPreserves (H : ForkHeader) (ctx : MmContext) (m : Machine) (pid cr2 : Nat) :
    Prop where
  own : ∀ a, a / 4096 = cr2 / 4096 →
    (handleCowFault H ctx m pid cr2).2.view pid a = m.view pid a
  others : ∀ i ≠ pid, ∀ a, (handleCowFault H ctx m pid cr2).2.view i a = m.view i a
  fresh : ∀ a ∈ cowFaultWrites H ctx m pid cr2,
    a / 4096 ∈ m.taken (handleCowFault H ctx m pid cr2).2

namespace FaultPreserves

/-- An address where nothing is done. -/
theorem of_eq (h : ∀ m, handleCowFault H ctx m pid cr2 = (1, m)) :
    FaultPreserves H ctx m pid cr2 where
  own a _ := by rw [h]
  others i _ a := by rw [h]
  fresh a := by
    rintro ⟨mem, hmem⟩
    rw [h] at hmem
    exact absurd rfl hmem

end FaultPreserves

section
variable (hs : m.Sound) (he : m.entry pid page = some pte)
include hs he

/-- The copy writes to the 4096 bytes behind the address `pfn`. -/
theorem cowPage_mem (mem : Nat → UInt8) :
    (cowPage H { m with mem := mem } pid (page * 4096)).2.mem =
      fun a => if pte.pfn ≤ a ∧ a < pte.pfn + 4096 then mem (pte.pfn * 4096 + (a - pte.pfn))
        else mem a := by
  have hs' : Sound { m with mem := mem } := hs.of_eq rfl rfl
  obtain ⟨-, heq⟩ | ⟨-, heq⟩ := cowPage_of_present (H := H) hs' he
  · rw [heq]
    rfl
  · rw [heq]
    rfl

theorem cowPage_taken : m.taken (cowPage H m pid (page * 4096)).2 =
    if 1 < m.refCount pte.pfn then {m.free 0} else ∅ := by
  obtain ⟨hcount, heq⟩ | ⟨hcount, heq⟩ := cowPage_of_present (H := H) hs he
  · rw [if_pos hcount, heq]
    ext f
    simp only [taken, Set.mem_sdiff, Set.mem_range, Set.mem_singleton_iff]
    constructor
    · rintro ⟨⟨i, rfl⟩, hnot⟩
      cases i with
      | zero => rfl
      | succ i => exact absurd ⟨i, rfl⟩ hnot
    · rintro rfl
      refine ⟨⟨0, rfl⟩, fun ⟨i, hi⟩ => ?_⟩
      exact absurd (hs.free_injective hi) (by simp)
  · rw [if_neg (not_lt.2 hcount), heq]
    exact Set.sdiff_self

end

/-- Where the copy is made, everything is preserved if and only if the frame is shared and its
number, taken as an address, is where the next free frame starts. -/
theorem faultPreserves_iff (hs : m.Sound) (he : m.entry pid (cr2 / 4096) = some pte)
    (hrun : ∀ m, handleCowFault H ctx m pid cr2 = cowPage H m pid (cr2 / 4096 * 4096)) :
    FaultPreserves H ctx m pid cr2 ↔
      1 < m.refCount pte.pfn ∧ pte.pfn = m.free 0 * 4096 := by
  have hne : pte.pfn ≠ 0 := hs.pfn_ne he
  have htaken := cowPage_taken (H := H) hs he
  constructor
  · intro h
    -- every byte behind `pfn` is written to
    have hwritten {a} (ha : pte.pfn ≤ a ∧ a < pte.pfn + 4096) :
        a / 4096 ∈ m.taken (cowPage H m pid (cr2 / 4096 * 4096)).2 := by
      rw [← hrun]
      refine h.fresh a ⟨fun b => if b = a then 1 else 0, ?_⟩
      rw [hrun, cowPage_mem hs he]
      dsimp only
      rw [if_pos ha, if_neg (by omega), if_pos rfl]
      decide
    have hfirst := hwritten ⟨le_rfl, by omega⟩
    have hlast := hwritten (a := pte.pfn + 4095) ⟨by omega, by omega⟩
    rw [htaken] at hfirst hlast
    by_cases hcount : 1 < m.refCount pte.pfn
    · rw [if_pos hcount, Set.mem_singleton_iff] at hfirst hlast
      exact ⟨hcount, by omega⟩
    · rw [if_neg hcount] at hfirst
      cases hfirst
  · rintro ⟨hcount, hpfn⟩
    have hmem : (cowPage H m pid (cr2 / 4096 * 4096)).2.mem = _ := cowPage_mem hs he m.mem
    obtain ⟨-, heq⟩ | ⟨hle, -⟩ := cowPage_of_present (H := H) hs he
    · have hentry : (cowPage H m pid (cr2 / 4096 * 4096)).2.entry =
          (m.setEntry pid (cr2 / 4096) (some ⟨m.free 0, true⟩)).entry := by
        rw [heq]
        rfl
      rw [if_pos hcount] at htaken
      constructor
      case own =>
        intro a ha
        rw [hrun, view, view, hentry, hmem, ha, he, setEntry_entry_self]
        refine congrArg some ?_
        dsimp only
        rw [if_pos (by omega)]
        congr 1
        omega
      case others =>
        intro i hi a
        rw [hrun, view, view, hentry, hmem, setEntry_entry_of_ne (.inl hi)]
        cases he' : m.entry i (a / 4096) with
        | none => rfl
        | some pte' =>
          have hfree := hs.free_unmapped he' 0
          exact congrArg some (if_neg (by omega))
      case fresh =>
        rintro a ⟨mem, hwrite⟩
        rw [hrun, htaken, Set.mem_singleton_iff]
        rw [hrun, cowPage_mem hs he] at hwrite
        dsimp only at hwrite
        split at hwrite
        next ha => omega
        next => exact absurd rfl hwrite
    · omega

/-- In every state of a run a fault is handled where the process may write and the page is present,
but in the mmap region and in DATA it preserves the memory only in that case. -/
theorem MemoryRun.memory_preserved_iff {s₀ s : CowState} {pid₀ : Nat} {calls : List CowCall}
    (hl : ctx.Layout) (h0 : s₀.Initial pid₀) (h : MemoryRun H ctx s₀ calls s)
    (hw : ctx.MayWrite H cr2) (he : s.machine.entry pid (cr2 / 4096) = some pte) :
    (handleCowFault H ctx s.machine pid cr2).1 = 1 ∧
      (FaultPreserves H ctx s.machine pid cr2 ↔ (cr2 ∈ H.mmapArea ∪ ctx.data.range →
        1 < s.machine.refCount pte.pfn ∧ pte.pfn = s.machine.free 0 * 4096)) := by
  have hs : s.machine.Sound := h.sound hl h0.sound
  obtain ⟨kind, hcase, hrun⟩ := hl.exists_faultCase H cr2
  obtain ⟨rfl, hmem⟩ | ⟨rfl, hmem⟩ := hw.faultCase hl hcase
  · refine ⟨?_, (faultPreserves_iff hs he fun m => hrun m pid).trans (imp_iff_right hmem).symm⟩
    obtain ⟨-, heq⟩ | ⟨-, heq⟩ := cowPage_of_present (H := H) hs he
    · exact congrArg Prod.fst ((hrun _ _).trans heq)
    · exact congrArg Prod.fst ((hrun _ _).trans heq)
  · exact ⟨congrArg Prod.fst (hrun _ _), iff_of_true (.of_eq fun m => hrun m pid)
      fun hmem' => absurd hmem' hmem⟩

/-- One process with one page in the frame `pfn`; the bytes of a frame are its number. -/
def Machine.onePage (pfn : Nat) : Machine where
  entry pid page := if pid = 0 ∧ page = 256 then some ⟨pfn, true⟩ else none
  refCount _ := 1
  mem a := UInt8.ofNat (a / 4096)
  free i := 4 * i + 2

theorem CowState.Initial.onePage {pfn : Nat} (hne : pfn ≠ 0) (hmod : pfn % 4 ≠ 2) :
    CowState.Initial ⟨.onePage pfn, fun pid => pid = 0⟩ 0 := by
  constructor
  case alive => exact .rfl
  case sound =>
    constructor
    case pfn_ne =>
      intro i q pte he
      obtain ⟨-, ⟨⟩⟩ := Option.ite_none_right_eq_some.1 he
      exact hne
    case free_ne => simp [Machine.onePage]
    case free_unmapped =>
      intro i q pte he j
      obtain ⟨-, ⟨⟩⟩ := Option.ite_none_right_eq_some.1 he
      simp only [Machine.onePage]
      omega
    case free_injective =>
      intro i j heq
      simp only [Machine.onePage] at heq
      omega
  case absent => exact fun hp => if_neg fun h => hp h.1
  case distinct =>
    intro pte q pte' q' he he' hq
    have hq₁ := (Option.ite_none_right_eq_some.1 he).1.2
    have hq₂ := (Option.ite_none_right_eq_some.1 he').1.2
    exact absurd (hq₁.trans hq₂.symm) hq
  case count => exact fun _ => rfl

/-- After a fork both processes share the frame. -/
theorem Machine.onePage_fork {pfn : Nat} (hs : (Machine.onePage pfn).Sound) :
    ∃ s', MemoryRun .megabyte .small ⟨.onePage pfn, fun pid => pid = 0⟩ [.fork 0 1] s' ∧
      s'.machine.entry 1 (2 ^ 20 / 4096) = some ⟨pfn, false⟩ ∧ s'.machine.refCount pfn = 2 ∧
      s'.machine.free = (Machine.onePage pfn).free ∧
      s'.machine.mem = (Machine.onePage pfn).mem := by
  let m := Machine.onePage pfn
  let m' : Machine := ((m.setEntry 0 256 (some ⟨pfn, false⟩)).setEntry 1 256
    (some ⟨pfn, false⟩)).addRef pfn 1
  have hclear : { m with entry := Function.update m.entry 1 fun _ => none } = m :=
    congrArg (Machine.mk · _ _ _) (Function.update_eq_self 1 m.entry)
  have hpage : m.entry 0 256 = some ⟨pfn, true⟩ := rfl
  have habsent : ∀ page, page ≠ 256 → m.entry 0 page = none := fun _ hne => if_neg fun h => hne h.2
  -- of the pages that the loops visit one is present
  have hfirst : cowVisit .megabyte 1 0 (256 * 4096) m = m' := cowVisit_of_present hs hpage
  have hsecond : cowVisit .megabyte 1 0 (257 * 4096) m' = m' := cowVisit_of_none rfl
  have hcode : Returns (upLoop 8192 4096 (shareVisit .megabyte 1 0 MmContext.small.code))
      (4096, { m with entry := Function.update m.entry 1 fun _ => none }) m := by
    rw [hclear, returns_upLoop_iff (k := 1) (by decide) (by decide) (by decide)]
    have hvisit : shareVisit .megabyte 1 0 MmContext.small.code (1 * 4096) m = m :=
      shareVisit_of_none (habsent 1 (by decide))
    exact hvisit.symm
  have hrodata : Returns (upLoop 12288 4096 (shareVisit .megabyte 1 0 MmContext.small.rodata))
      (8192, m) m := by
    rw [returns_upLoop_iff (k := 1) (by decide) (by decide) (by decide)]
    have hvisit : shareVisit .megabyte 1 0 MmContext.small.rodata (2 * 4096) m = m :=
      shareVisit_of_none (habsent 2 (by decide))
    exact hvisit.symm
  have hdata : Returns (upLoop 16384 4096 (cowVisit .megabyte 1 0)) (12288, m) m := by
    rw [returns_upLoop_iff (k := 1) (by decide) (by decide) (by decide)]
    have hvisit : cowVisit .megabyte 1 0 (3 * 4096) m = m :=
      cowVisit_of_none (habsent 3 (by decide))
    exact hvisit.symm
  have hstack : Returns (downLoop 32768 4096 (stackVisit .megabyte 1 0 MmContext.small.stack))
      (u64 (36864 - 4096), m) m := by
    have hend : u64 (36864 - 4096) = 32768 := by decide
    rw [hend, returns_downLoop_iff (k := 1) (by decide) (by decide) (by decide) (by decide)]
    have hvisit : stackVisit .megabyte 1 0 MmContext.small.stack (8 * 4096) m = m :=
      stackVisit_of_none (habsent 8 (by decide))
    exact hvisit.symm
  have harea : Returns (upLoop (2 ^ 20 + 8192) 4096 (cowVisit .megabyte 1 0)) (2 ^ 20, m) m' := by
    rw [returns_upLoop_iff (k := 2) (by decide) (by decide) (by decide)]
    exact ((congrArg (cowVisit .megabyte 1 0 (257 * 4096)) hfirst).trans hsecond).symm
  have hfork : CforkCopyMm .megabyte 1 0 .small m m' :=
    .mk hcode hrodata hdata hstack (.cons harea .nil)
  exact ⟨_, .snoc .nil (.fork rfl nofun hfork), rfl, Function.update_self .., rfl, rfl⟩

theorem MmContext.small_mayWrite : MmContext.small.MayWrite .megabyte (2 ^ 20) :=
  .inl ⟨_, .head _, ⟨by decide, by decide⟩, by decide⟩

/-- The child of a fork writes to its area, when the frame that the page shares has the right
number. -/
theorem MemoryRun.memory_preserved_of_fork : ∃ (s s' : CowState) (calls : List CowCall),
    MemoryRun .megabyte .small s calls s' ∧
      FaultPreserves .megabyte .small s'.machine 1 (2 ^ 20) := by
  let s : CowState := ⟨.onePage 8192, fun pid => pid = 0⟩
  have h0 : s.Initial 0 := .onePage (by decide) (by decide)
  obtain ⟨s', hrun, hentry, hcount, hfree, -⟩ := Machine.onePage_fork h0.sound
  refine ⟨s, s', _, hrun, (MemoryRun.memory_preserved_iff MmContext.small_layout h0 hrun
    MmContext.small_mayWrite hentry).2.2 fun _ => ⟨?_, ?_⟩⟩
  · rw [hcount]
    decide
  · rw [hfree]
    rfl

/-- The child of a fork writes to its area and reads the bytes of the new frame. -/
theorem not_memory_preserved : ¬∀ {H : ForkHeader} {ctx : MmContext} {s₀ s : CowState}
    {pid₀ pid cr2 : Nat} {pte : Pte} {calls : List CowCall}, ctx.Layout → s₀.Initial pid₀ →
    MemoryRun H ctx s₀ calls s → ctx.MayWrite H cr2 →
    s.machine.entry pid (cr2 / 4096) = some pte → (handleCowFault H ctx s.machine pid cr2).1 = 1 →
    FaultPreserves H ctx s.machine pid cr2 := by
  intro h
  have h0 : CowState.Initial ⟨.onePage 513, fun pid => pid = 0⟩ 0 :=
    .onePage (by decide) (by decide)
  obtain ⟨s', hrun, hentry, hcount, hfree, hmem⟩ := Machine.onePage_fork h0.sound
  have hs : s'.machine.Sound := hrun.sound MmContext.small_layout h0.sound
  have hfault : handleCowFault .megabyte .small s'.machine 1 (2 ^ 20) =
      cowPage .megabyte s'.machine 1 (2 ^ 20 / 4096 * 4096) := rfl
  have hcopy : (cowPage .megabyte s'.machine 1 (2 ^ 20 / 4096 * 4096)).2.mem = _ :=
    cowPage_mem hs hentry s'.machine.mem
  obtain ⟨-, heq⟩ | ⟨hle, -⟩ := cowPage_of_present (H := .megabyte) hs hentry
  · have hbefore : s'.machine.view 1 (2 ^ 20) = some 1 := by
      rw [view, hentry, hmem]
      rfl
    have hafter : (cowPage .megabyte s'.machine 1 (2 ^ 20 / 4096 * 4096)).2.view 1 (2 ^ 20) =
        some 2 := by
      have he : (cowPage .megabyte s'.machine 1 (2 ^ 20 / 4096 * 4096)).2.entry 1 (2 ^ 20 / 4096) =
          some ⟨2, true⟩ := by
        rw [heq, setEntry_entry_self, hfree]
        rfl
      rw [view, he, hcopy, hmem]
      rfl
    have hpreserves := h MmContext.small_layout h0 hrun MmContext.small_mayWrite hentry
      (congrArg Prod.fst (hfault.trans heq))
    have hown := hpreserves.own (2 ^ 20) rfl
    rw [hfault, hafter, hbefore] at hown
    exact absurd hown (by decide)
  · rw [hcount] at hle
    exact absurd hle (by decide)

end CS330
