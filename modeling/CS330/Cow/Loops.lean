import CS330.Cow.Basic
import Mathlib.Data.List.Nodup
import Mathlib.Order.CompletePartialOrder
import Mathlib.Order.Interval.Set.Disjoint

/-! # The pages that `cfork_copy_mm` visits

In a page-aligned layout of disjoint ranges every loop of `cfork_copy_mm` ends, and together they
visit every page of their ranges once. -/

namespace CS330

/-- A page-aligned segment that is used up to `next_free`. -/
structure MmSegment.Valid (seg : MmSegment) : Prop where
  start_le : seg.start ≤ seg.nextFree
  le_end : seg.nextFree ≤ seg.segEnd
  end_lt : seg.segEnd < 2 ^ 64
  start_dvd : 4096 ∣ seg.start
  nextFree_dvd : 4096 ∣ seg.nextFree
  end_dvd : 4096 ∣ seg.segEnd

def MmSegment.range (seg : MmSegment) : Set Nat := Set.Ico seg.start seg.segEnd

def VmArea.range (vm : VmArea) : Set Nat := Set.Ico vm.vmStart vm.vmEnd

/-- The segments and the areas, as sets of addresses. -/
def MmContext.ranges (ctx : MmContext) : List (Set Nat) :=
  ctx.code.range :: ctx.rodata.range :: ctx.data.range :: ctx.stack.range ::
    ctx.vmArea.map VmArea.range

/-- The contexts `cfork_copy_mm` is specified for. -/
structure MmContext.Layout (ctx : MmContext) : Prop where
  code : ctx.code.Valid
  rodata : ctx.rodata.Valid
  data : ctx.data.Valid
  stack : ctx.stack.Valid
  stack_pos : 0 < ctx.stack.nextFree
  areas : ∀ vm ∈ ctx.vmArea, 4096 ∣ vm.vmStart ∧ 4096 ∣ vm.vmEnd ∧ vm.vmEnd < 2 ^ 64
  disjoint : ctx.ranges.Pairwise Disjoint

/-- What a loop does with the pages of its range. -/
inductive CopyKind where
  | shared
  | cow
  | copied
deriving DecidableEq

/-- The addresses that the loops visit. -/
def MmContext.Copies (ctx : MmContext) : CopyKind → Nat → Prop
  | .shared, a => a ∈ Set.Ico ctx.code.start ctx.code.nextFree ∨
      a ∈ Set.Ico ctx.rodata.start ctx.rodata.nextFree
  | .cow, a => a ∈ Set.Ico ctx.data.start ctx.data.nextFree ∨ ∃ vm ∈ ctx.vmArea, a ∈ vm.range
  | .copied, a => a ∈ Set.Ico ctx.stack.nextFree ctx.stack.segEnd

variable {H : ForkHeader} {ctx : MmContext} {m m' : Machine} {child parent : Nat}

/-! ## The pages of one loop -/

/-- The pages of a range in the order in which a loop visits them. -/
structure PageList (pages : List Nat) (start stop : Nat) : Prop where
  nodup : pages.Nodup
  mem : ∀ p, p ∈ pages ↔ p * 4096 ∈ Set.Ico start stop

section
variable {σ : Type*} {start stop : Nat}

/-- The run of a loop over the pages. -/
def visits (visit : Nat → σ → σ) (pages : List Nat) (s : σ) : σ :=
  pages.foldl (fun s p => visit (p * 4096) s) s

theorem exists_upLoop_pages (hstart : 4096 ∣ start) (hstop : 4096 ∣ stop) (hlt : stop < 2 ^ 64)
    (visit : Nat → σ → σ) : ∃ pages, PageList pages start stop ∧
      ∀ s r, Returns (upLoop stop 4096 visit) (start, s) r ↔ r = visits visit pages s := by
  obtain ⟨i, rfl⟩ := hstart
  obtain ⟨j, rfl⟩ := hstop
  refine ⟨(List.range (j - i)).map (i + ·), ⟨?_, fun p => ?_⟩, fun s r => ?_⟩
  · exact List.nodup_range.map fun _ _ h => Nat.add_left_cancel h
  · simp only [List.mem_map, List.mem_range, Set.mem_Ico]
    constructor
    · rintro ⟨x, hx, rfl⟩
      omega
    · intro hp
      exact ⟨p - i, by omega, by omega⟩
  · rcases Nat.le_total i j with hij | hij
    · rw [returns_upLoop_iff (k := j - i) (by omega) (by omega) (by omega), upFrom, visits,
        List.foldl_map, List.foldl_map]
      refine Iff.of_eq (congrArg _ (congrArg (List.foldl · s _) ?_))
      funext s x
      congr 1
      omega
    · have hzero : j - i = 0 := by omega
      rw [hzero]
      exact Returns.ret_iff (if_neg (by omega))

theorem exists_downLoop_pages (hstart : 4096 ∣ start) (hstop : 4096 ∣ stop) (hpos : 0 < start)
    (hle : start ≤ stop) (hlt : stop < 2 ^ 64) (visit : Nat → σ → σ) :
    ∃ pages, PageList pages start stop ∧
      ∀ s r, Returns (downLoop start 4096 visit) (u64 (stop - 4096), s) r ↔
        r = visits visit pages s := by
  obtain ⟨i, rfl⟩ := hstart
  obtain ⟨j, rfl⟩ := hstop
  have htop : u64 ((4096 * j : Nat) - 4096) = 4096 * (j - 1) := by unfold u64; omega
  refine ⟨(List.range (j - i)).map (j - 1 - ·), ⟨?_, fun p => ?_⟩, fun s r => ?_⟩
  · refine List.Nodup.map_on (fun x hx y hy h => ?_) List.nodup_range
    rw [List.mem_range] at hx hy
    omega
  · simp only [List.mem_map, List.mem_range, Set.mem_Ico]
    constructor
    · rintro ⟨x, hx, rfl⟩
      omega
    · intro hp
      exact ⟨j - 1 - p, by omega, by omega⟩
  · rw [htop, returns_downLoop_iff (k := j - i) (by omega) (by omega) (by omega) (by omega),
      downFrom, visits, List.foldl_map, List.foldl_map]
    refine Iff.of_eq (congrArg _ (congrArg (List.foldl · s _) ?_))
    funext s x
    congr 1
    omega

end

/-! ## All loops -/

theorem MmSegment.Valid.mem_used {seg : MmSegment} (h : seg.Valid)
    (ha : a ∈ Set.Ico seg.start seg.nextFree) : a ∈ seg.range := ⟨ha.1, ha.2.trans_le h.le_end⟩

theorem MmSegment.Valid.mem_stack {seg : MmSegment} (h : seg.Valid)
    (ha : a ∈ Set.Ico seg.nextFree seg.segEnd) : a ∈ seg.range := ⟨h.start_le.trans ha.1, ha.2⟩

theorem MmSegment.Valid.exists_pages {seg : MmSegment} (h : seg.Valid)
    (visit : Nat → Machine → Machine) : ∃ pages, PageList pages seg.start seg.nextFree ∧
      ∀ m r, Returns (upLoop seg.nextFree 4096 visit) (seg.start, m) r ↔
        r = visits visit pages m :=
  exists_upLoop_pages h.start_dvd h.nextFree_dvd (h.le_end.trans_lt h.end_lt) visit

theorem MmContext.Layout.exists_stack_pages (h : ctx.Layout) (visit : Nat → Machine → Machine) :
    ∃ pages, PageList pages ctx.stack.nextFree ctx.stack.segEnd ∧
      ∀ m r, Returns (downLoop ctx.stack.nextFree 4096 visit) (u64 (ctx.stack.segEnd - 4096), m) r ↔
        r = visits visit pages m :=
  exists_downLoop_pages h.stack.nextFree_dvd h.stack.end_dvd h.stack_pos h.stack.le_end
    h.stack.end_lt visit

/-- An assertion about the machine and what was done with each page so far. -/
def Visited (R : Machine → (Nat → Option CopyKind) → Prop) (done : CopyKind → Nat → Prop)
    (m : Machine) : Prop :=
  ∃ st, R m st ∧ ∀ kind p, st p = some kind ↔ done kind p

theorem MmContext.Layout.disjoint_iff : ctx.ranges.Pairwise Disjoint ↔
    Disjoint ctx.code.range ctx.rodata.range ∧ Disjoint ctx.code.range ctx.data.range ∧
      Disjoint ctx.code.range ctx.stack.range ∧
      (∀ vm ∈ ctx.vmArea, Disjoint ctx.code.range vm.range) ∧
    Disjoint ctx.rodata.range ctx.data.range ∧ Disjoint ctx.rodata.range ctx.stack.range ∧
      (∀ vm ∈ ctx.vmArea, Disjoint ctx.rodata.range vm.range) ∧
    Disjoint ctx.data.range ctx.stack.range ∧
      (∀ vm ∈ ctx.vmArea, Disjoint ctx.data.range vm.range) ∧
    (∀ vm ∈ ctx.vmArea, Disjoint ctx.stack.range vm.range) ∧
    (ctx.vmArea.map VmArea.range).Pairwise Disjoint := by
  simp only [MmContext.ranges, List.pairwise_cons, List.forall_mem_cons, List.forall_mem_map,
    and_assoc]

section
variable {R : Machine → (Nat → Option CopyKind) → Prop} {done : CopyKind → Nat → Prop}
  {kind : CopyKind} {visit : Nat → Machine → Machine} {pages : List Nat} {start stop : Nat}

/-- One loop over pages that were not visited before. -/
theorem Visited.visits (h : Visited R done m) (hpages : PageList pages start stop)
    (hnew : ∀ p kind, p * 4096 ∈ Set.Ico start stop → ¬done kind p)
    (hstep : ∀ m st p, R m st → st p = none → p * 4096 ∈ Set.Ico start stop →
      R (visit (p * 4096) m) (Function.update st p (some kind))) :
    Visited R (fun k p => done k p ∨ k = kind ∧ p * 4096 ∈ Set.Ico start stop)
      (CS330.visits visit pages m) := by
  obtain ⟨st, hR, hst⟩ := h
  have hnone : ∀ p ∈ pages, st p = none := fun p hp => by
    rw [Option.eq_none_iff_forall_ne_some]
    exact fun k hk => hnew p k ((hpages.mem p).1 hp) ((hst k p).1 hk)
  have hrange : ∀ p ∈ pages, p * 4096 ∈ Set.Ico start stop := fun p => (hpages.mem p).1
  obtain ⟨st', hR', hst'⟩ : ∃ st', R (CS330.visits visit pages m) st' ∧
      ∀ p, st' p = if p ∈ pages then some kind else st p := by
    have hnodup := hpages.nodup
    clear hst hnew hpages
    induction pages generalizing m st with
    | nil => exact ⟨st, hR, fun p => by simp⟩
    | cons q pages ih =>
      obtain ⟨hq, hnodup⟩ := List.nodup_cons.1 hnodup
      obtain ⟨st', hR', hst'⟩ := ih (Function.update st q (some kind))
        (hstep m st q hR (hnone q (.head _)) (hrange q (.head _)))
        (fun p hp => by
          have hne : p ≠ q := by rintro rfl; exact hq hp
          rw [Function.update_of_ne hne]
          exact hnone p (.tail _ hp))
        (fun p hp => hrange p (.tail _ hp)) hnodup
      refine ⟨st', hR', fun p => ?_⟩
      rw [hst']
      grind
  refine ⟨st', hR', fun k p => ?_⟩
  have hstp := hst k p
  have hnonep := hnone p
  have hmem := hpages.mem p
  rw [hst']
  grind

/-- The loop over the areas. -/
theorem Visited.copyAreas (h : Visited R done m) {vms : List VmArea}
    (hareas : CopyAreas H child parent vms m m')
    (hal : ∀ vm ∈ vms, 4096 ∣ vm.vmStart ∧ 4096 ∣ vm.vmEnd ∧ vm.vmEnd < 2 ^ 64)
    (hdisj : (vms.map VmArea.range).Pairwise Disjoint)
    (hnew : ∀ vm ∈ vms, ∀ p kind, p * 4096 ∈ vm.range → ¬done kind p)
    (hstep : ∀ vm ∈ vms, ∀ m st p, R m st → st p = none → p * 4096 ∈ vm.range →
      R (cowVisit H child parent (p * 4096) m) (Function.update st p (some .cow))) :
    Visited R (fun k p => done k p ∨ k = .cow ∧ ∃ vm ∈ vms, p * 4096 ∈ vm.range) m' := by
  induction hareas generalizing done with
  | nil => simpa using h
  | @cons vms vm m₁ m₂ m₃ hloop hrest ih =>
    obtain ⟨hstart, hend, hlt⟩ := hal vm (.head _)
    obtain ⟨pages, hpages, hiff⟩ := exists_upLoop_pages hstart hend hlt (cowVisit H child parent)
    obtain rfl := (hiff ..).1 hloop
    obtain ⟨hvm, hdisj⟩ := List.pairwise_cons.1 hdisj
    have hvisited := h.visits hpages (hnew vm (.head _)) (hstep vm (.head _))
    have := ih hvisited (fun vm hvm => hal vm (.tail _ hvm)) hdisj ?_
      fun vm hvm => hstep vm (.tail _ hvm)
    · obtain ⟨st, hR, hst⟩ := this
      refine ⟨st, hR, fun k p => (hst k p).trans ?_⟩
      simp only [List.exists_mem_cons_iff]
      rw [or_assoc, ← and_or_left]
      rfl
    · rintro vm' hvm' p kind hp (hdone | ⟨-, hp'⟩)
      · exact hnew vm' (.tail _ hvm') p kind hp hdone
      · exact Set.disjoint_left.1 (hvm _ (List.mem_map_of_mem hvm')) hp' hp

/-- What holds before the loops, and is kept by every visit of a page that was not visited yet,
holds afterwards. -/
theorem CforkCopyMm.visited (h : CforkCopyMm H child parent ctx m m') (hl : ctx.Layout)
    (h0 : R { m with entry := Function.update m.entry child fun _ => none } fun _ => none)
    (hshare : ∀ m st seg p, R m st → st p = none → ctx.Copies .shared (p * 4096) →
      R (shareVisit H child parent seg (p * 4096) m) (Function.update st p (some .shared)))
    (hcow : ∀ m st p, R m st → st p = none → ctx.Copies .cow (p * 4096) →
      R (cowVisit H child parent (p * 4096) m) (Function.update st p (some .cow)))
    (hstack : ∀ m st p, R m st → st p = none → ctx.Copies .copied (p * 4096) →
      R (stackVisit H child parent ctx.stack (p * 4096) m) (Function.update st p (some .copied))) :
    Visited R (fun kind p => ctx.Copies kind (p * 4096)) m' := by
  obtain ⟨hcode, hrodata, hdata, hstack', hareas⟩ := h
  obtain ⟨hcr, hcd, hcs, hca, hrd, hrs, hra, hds, hda, hsa, haa⟩ :=
    MmContext.Layout.disjoint_iff.1 hl.disjoint
  have v₀ : Visited R (fun _ _ => False)
      { m with entry := Function.update m.entry child fun _ => none } := ⟨_, h0, by simp⟩
  obtain ⟨pages, hpages, hiff⟩ := hl.code.exists_pages (shareVisit H child parent ctx.code)
  obtain rfl := (hiff ..).1 hcode
  have v₁ := v₀.visits hpages (fun _ _ _ => id) fun m st p hR hst hp =>
    hshare m st ctx.code p hR hst (.inl hp)
  obtain ⟨pages, hpages, hiff⟩ := hl.rodata.exists_pages (shareVisit H child parent ctx.rodata)
  obtain rfl := (hiff ..).1 hrodata
  have v₂ := v₁.visits hpages ?_ fun m st p hR hst hp =>
    hshare m st ctx.rodata p hR hst (.inr hp)
  obtain ⟨pages, hpages, hiff⟩ := hl.data.exists_pages (cowVisit H child parent)
  obtain rfl := (hiff ..).1 hdata
  have v₃ := v₂.visits hpages ?_ fun m st p hR hst hp => hcow m st p hR hst (.inl hp)
  obtain ⟨pages, hpages, hiff⟩ := hl.exists_stack_pages (stackVisit H child parent ctx.stack)
  obtain rfl := (hiff ..).1 hstack'
  have v₄ := v₃.visits hpages ?_ hstack
  have v₅ := v₄.copyAreas hareas hl.areas haa ?_ fun vm hvm m st p hR hst hp =>
    hcow m st p hR hst (.inr ⟨vm, hvm, hp⟩)
  · obtain ⟨st, hR, hst⟩ := v₅
    refine ⟨st, hR, fun kind p => (hst kind p).trans ?_⟩
    cases kind <;> simp [MmContext.Copies]
  · rintro vm hvm p kind hp ((((⟨⟨⟩⟩ | ⟨-, hp'⟩) | ⟨-, hp'⟩) | ⟨-, hp'⟩) | ⟨-, hp'⟩)
    · exact Set.disjoint_left.1 (hca vm hvm) (hl.code.mem_used hp') hp
    · exact Set.disjoint_left.1 (hra vm hvm) (hl.rodata.mem_used hp') hp
    · exact Set.disjoint_left.1 (hda vm hvm) (hl.data.mem_used hp') hp
    · exact Set.disjoint_left.1 (hsa vm hvm) (hl.stack.mem_stack hp') hp
  · rintro p kind hp (((⟨⟨⟩⟩ | ⟨-, hp'⟩) | ⟨-, hp'⟩) | ⟨-, hp'⟩)
    · exact Set.disjoint_left.1 hcs (hl.code.mem_used hp') (hl.stack.mem_stack hp)
    · exact Set.disjoint_left.1 hrs (hl.rodata.mem_used hp') (hl.stack.mem_stack hp)
    · exact Set.disjoint_left.1 hds (hl.data.mem_used hp') (hl.stack.mem_stack hp)
  · rintro p kind hp ((⟨⟨⟩⟩ | ⟨-, hp'⟩) | ⟨-, hp'⟩)
    · exact Set.disjoint_left.1 hcd (hl.code.mem_used hp') (hl.data.mem_used hp)
    · exact Set.disjoint_left.1 hrd (hl.rodata.mem_used hp') (hl.data.mem_used hp)
  · rintro p kind hp (⟨⟨⟩⟩ | ⟨-, hp'⟩)
    exact Set.disjoint_left.1 hcr (hl.code.mem_used hp') (hl.rodata.mem_used hp)

end

/-- In such a layout `cfork_copy_mm` always comes to its end. -/
theorem MmContext.Layout.exists_cforkCopyMm (hl : ctx.Layout) (m : Machine) :
    ∃ m', CforkCopyMm H child parent ctx m m' := by
  obtain ⟨_, -, hcode⟩ := hl.code.exists_pages (shareVisit H child parent ctx.code)
  obtain ⟨_, -, hrodata⟩ := hl.rodata.exists_pages (shareVisit H child parent ctx.rodata)
  obtain ⟨_, -, hdata⟩ := hl.data.exists_pages (cowVisit H child parent)
  obtain ⟨_, -, hstack⟩ := hl.exists_stack_pages (stackVisit H child parent ctx.stack)
  have hareas : ∀ vms : List VmArea, (∀ vm ∈ vms, vm ∈ ctx.vmArea) →
      ∀ m, ∃ m', CopyAreas H child parent vms m m' := by
    intro vms
    induction vms with
    | nil => exact fun _ m => ⟨m, .nil⟩
    | cons vm vms ih =>
      intro hmem m
      obtain ⟨hstart, hend, hlt⟩ := hl.areas vm (hmem vm (.head _))
      obtain ⟨_, -, hvm⟩ := exists_upLoop_pages hstart hend hlt (cowVisit H child parent)
      obtain ⟨m', hrest⟩ := ih (fun vm hvm => hmem vm (.tail _ hvm)) _
      exact ⟨m', .cons ((hvm ..).2 rfl) hrest⟩
  obtain ⟨m', h⟩ := hareas ctx.vmArea (fun _ => id) _
  exact ⟨m', .mk ((hcode ..).2 rfl) ((hrodata ..).2 rfl) ((hdata ..).2 rfl) ((hstack ..).2 rfl) h⟩

end CS330
