import CS330.Cow.Tables
import CS330.Lib.Loans

/-! # Processes that share their page table

`cfork` gives the child a page table of its own, `vfork` that of the parent, which waits until the
child exits and `vfork_exit_handle` hands the areas back. In all runs every page table in use has
exactly one process that runs on it, and the table stays within the areas of that process.

`do_cfork` and `do_vfork` copy the context, and with it the pointer to the first area: parent and
child have one list. The runs here are those in which nobody changes a list that another page table
goes with. -/

namespace CS330

/-- The fields of `struct exec_context` that `mmap.c` and `cfork.c` use; `pgd` is the number of the
page table, and `list` that of the list that `vm_area` points to. -/
structure Context where
  ppid : Nat
  pgd : Nat
  rbp : Nat
  entryRsp : Nat
  waiting : Bool
  mm : MmContext
  list : Nat

namespace Context

def vforkContext (c : Context) : VforkContext where
  pgd := c.pgd
  rbp := c.rbp
  entryRsp := c.entryRsp
  stack := c.mm.stack
  waiting := c.waiting

/-- The context after `vfork_copy_mm`. -/
def setVfork (c : Context) (v : VforkContext) : Context :=
  { c with
    pgd := v.pgd
    rbp := v.rbp
    entryRsp := v.entryRsp
    waiting := v.waiting
    mm := { c.mm with stack := v.stack } }

def setAreas (c : Context) (vms : List VmArea) : Context :=
  { c with mm := { c.mm with vmArea := vms } }

/-- The two bounds that the kernel moves as a process grows. -/
def setBounds (c : Context) (data stack : Nat) : Context :=
  { c with mm := { c.mm with
      data := { c.mm.data with nextFree := data }
      stack := { c.mm.stack with nextFree := stack } } }

/-- What `vfork_exit_handle` stores in the parent of a vfork child. -/
def takeBack (parent child : Context) : Context :=
  { parent with
    waiting := false
    mm := { parent.mm with
      vmArea := child.mm.vmArea
      data := { parent.mm.data with nextFree := child.mm.data.nextFree } } }

def holder (c : Context) : Holder Nat Nat := ⟨c.pgd, c.ppid, c.waiting⟩

/-- What `mmap.c` sees of a process. -/
def execContext (c : Context) (H : ForkHeader) {m : Machine} (hs : m.Sound) :
    ExecContext (Paging.ofMachine H c.pgd) := ⟨c.mm.vmArea, ⟨m, hs⟩⟩

end Context

/-- The memory and the processes; `ctx` is `get_ctx_by_pid`. -/
structure Gemos where
  machine : Machine
  ctx : Nat → Option Context

/-- The list of the process goes with no other page table. -/
def Gemos.OwnsList (s : Gemos) (c : Context) : Prop :=
  ∀ q c', s.ctx q = some c' → c'.list = c.list → c'.pgd = c.pgd

/-- The list of a child of `cfork`: that of the parent, and if this has no areas, one of its own. -/
def Gemos.ForksList (s : Gemos) (c : Context) (list : Nat) : Prop :=
  c.mm.vmArea ≠ [] ∧ list = c.list ∨
    c.mm.vmArea = [] ∧ ∀ q c', s.ctx q = some c' → c'.list ≠ list

/-- `vfork_exit_handle(ctx)`. -/
def vforkExitHandle (ctx : Nat → Option Context) (c : Context) : Nat → Option Context :=
  match ctx c.ppid with
  | none => ctx
  | some parent =>
    if parent.pgd = c.pgd then Function.update ctx c.ppid (some (parent.takeBack c)) else ctx

inductive GemosCall where
  | memory (pid : Nat) (call : MemCall)
  | cowFault (pid cr2 : Nat)
  | cfork (parent child : Nat)
  | vfork (parent child : Nat)
  | exit (pid : Nat)
  | other (pid : Nat)

/-- The room below the stack that `vfork_copy_mm` takes. -/
def Context.HasRoom (c : Context) : Prop :=
  c.mm.stack.start + c.vforkContext.stackSize ≤ c.mm.stack.nextFree

/-- A step of a process that does not wait. Memory calls are `Orderly`, and those that change the
areas are made by processes that own their list. A new process has a new number, and after `cfork` a
new page table; it starts with the context of its parent. An exit may free the page table and the
areas, unless another process has them. An `other` step is one of the process itself or
of the rest of the kernel for it: it moves the bounds of the segments and changes the memory, and of
the page tables the pages of this process outside the mmap region. -/
inductive GemosStep (H : ForkHeader) (hasTable : Machine → Nat → Nat → Bool) (s : Gemos) :
    GemosCall → Gemos → Prop where
  | memory {c : Context} {call : MemCall} {r : Int}
    {c' : ExecContext (Paging.ofMachine H c.pgd)} (hpid : s.ctx pid = some c)
    (hrun : c.waiting = false) (hs : s.machine.Sound) (hv : call.Valid)
    (hok : Orderly (c.execContext H hs) call) (hlist : call.EditsAreas → s.OwnsList c)
    (h : call.Yields (c.execContext H hs) r c') :
    GemosStep H hasTable s (.memory pid call)
      ⟨c'.pgd.1, Function.update s.ctx pid (some (c.setAreas c'.vmArea))⟩
  | cowFault {c : Context} (hpid : s.ctx pid = some c) (hrun : c.waiting = false) :
    GemosStep H hasTable s (.cowFault pid cr2)
      { s with machine := (handleCowFault H c.mm s.machine c.pgd cr2).2 }
  | cfork {c : Context} {m' : Machine} {list : Nat} (hpid : s.ctx parent = some c)
    (hrun : c.waiting = false) (hchild : s.ctx child = none)
    (hpgd : ∀ pid c', s.ctx pid = some c' → c'.pgd ≠ pgd) (hlist : s.ForksList c list)
    (h : CforkCopyMm H pgd c.pgd c.mm s.machine m') : GemosStep H hasTable s (.cfork parent child)
      ⟨m', Function.update s.ctx child
        (some { c with ppid := parent, pgd := pgd, list := list })⟩
  | vfork {c : Context} {m' : Machine} {v v' : VforkContext} (hpid : s.ctx parent = some c)
    (hrun : c.waiting = false) (hchild : s.ctx child = none) (hroom : c.HasRoom)
    (h : VforkCopyMm H hasTable c.vforkContext c.vforkContext s.machine v v' m') :
    GemosStep H hasTable s (.vfork parent child)
      ⟨m', Function.update (Function.update s.ctx parent (some (c.setVfork v'))) child
        (some ({ c with ppid := parent }.setVfork v))⟩
  | exit {c : Context} {m' : Machine} (hpid : s.ctx pid = some c) (hrun : c.waiting = false)
    (hs : m'.Sound) (hkeep : ∀ q c', q ≠ pid → s.ctx q = some c' →
      m'.entry c'.pgd = s.machine.entry c'.pgd) : GemosStep H hasTable s (.exit pid)
      ⟨m', Function.update (vforkExitHandle s.ctx c) pid none⟩
  | other {c : Context} {m' : Machine} {data stack : Nat} (hpid : s.ctx pid = some c)
    (hrun : c.waiting = false) (hs : m'.Sound)
    (hkeep : ∀ g page, g ≠ c.pgd ∨ page * 4096 ∈ H.mmapArea →
      m'.entry g page = s.machine.entry g page)
    (hdata : MmSegment.Valid { c.mm.data with nextFree := data })
    (hstack : MmSegment.Valid { c.mm.stack with nextFree := stack }) :
    GemosStep H hasTable s (.other pid)
      ⟨m', Function.update s.ctx pid (some (c.setBounds data stack))⟩

def GemosRun (H : ForkHeader) (hasTable : Machine → Nat → Nat → Bool) :
    Gemos → List GemosCall → Gemos → Prop := Trace (GemosStep H hasTable)

/-- The segments lie apart from each other and from the mmap region. -/
structure MmContext.Segments (H : Header) (ctx : MmContext) : Prop where
  code : ctx.code.Valid
  rodata : ctx.rodata.Valid
  data : ctx.data.Valid
  stack : ctx.stack.Valid
  stack_pos : 0 < ctx.stack.start
  disjoint : [ctx.code.range, ctx.rodata.range, ctx.data.range, ctx.stack.range,
    H.mmapArea].Pairwise Disjoint

/-- Processes with page tables of their own, before they map anything. -/
structure Gemos.Initial (H : ForkHeader) (s : Gemos) : Prop where
  sound : s.machine.Sound
  running : ∀ {pid c}, s.ctx pid = some c → c.waiting = false
  separate : ∀ {pid pid' c c'}, s.ctx pid = some c → s.ctx pid' = some c' → c.pgd = c'.pgd →
    pid = pid'
  segments : ∀ {pid c}, s.ctx pid = some c → c.mm.Segments H.toHeader
  areas : ∀ {pid c}, s.ctx pid = some c → c.mm.vmArea = []
  absent : ∀ {pid c page}, s.ctx pid = some c → page * 4096 ∈ H.mmapArea →
    s.machine.entry c.pgd page = none

variable {H : ForkHeader} {hasTable : Machine → Nat → Nat → Bool} {s s' : Gemos}
  {ctx : MmContext} {call : GemosCall} {calls : List GemosCall} {pid : Nat} {c : Context}

/-! ## The holders of the page tables -/

def Gemos.holders (s : Gemos) (pid : Nat) : Option (Holder Nat Nat) :=
  (s.ctx pid).map Context.holder

theorem holders_update {m : Machine} {f : Nat → Option Context} {o : Option Context} :
    Gemos.holders ⟨m, Function.update f pid o⟩ =
      Function.update (Gemos.holders ⟨m, f⟩) pid (o.map Context.holder) := by
  funext q
  rcases eq_or_ne q pid with rfl | hq
  · simp [Gemos.holders]
  · simp [Gemos.holders, hq]

theorem holders_of_ctx (h : s.ctx pid = some c) : s.holders pid = some c.holder :=
  congrArg (Option.map Context.holder) h

/-- The handler wakes the lender. -/
theorem holders_vforkExitHandle (m : Machine) (f : Nat → Option Context) (c : Context) :
    Gemos.holders ⟨m, vforkExitHandle f c⟩ = wake (Gemos.holders ⟨m, f⟩) c.holder := by
  have hlender : Gemos.holders ⟨m, f⟩ c.holder.lender = (f c.ppid).map Context.holder := rfl
  rw [vforkExitHandle, wake, hlender]
  cases hparent : f c.ppid with
  | none => rfl
  | some parent =>
    dsimp only [Option.map_some]
    by_cases hpgd : parent.pgd = c.pgd
    · rw [if_pos hpgd, if_pos (show parent.holder.resource = c.holder.resource from hpgd),
        holders_update]
      rfl
    · rw [if_neg hpgd, if_neg (show ¬parent.holder.resource = c.holder.resource from hpgd)]

theorem VforkCopyMm.shares {child parent child' parent' : VforkContext} {m m' : Machine}
    (h : VforkCopyMm H hasTable child parent m child' parent' m') :
    child'.pgd = parent.pgd ∧ parent'.pgd = parent.pgd ∧ child'.waiting = child.waiting ∧
      parent'.waiting = true := by
  cases h
  exact ⟨rfl, rfl, rfl, rfl⟩

/-- In terms of the page tables every step is a loan, a new table or an exit. -/
theorem GemosStep.loanStep (h : GemosStep H hasTable s call s') :
    LoanStep s.holders s'.holders := by
  have keep {m : Machine} {c c' : Context} {pid} (hpid : s.ctx pid = some c)
      (hholder : c'.holder = c.holder) :
      LoanStep s.holders (Gemos.holders ⟨m, Function.update s.ctx pid (some c')⟩) := by
    have heq : Gemos.holders ⟨m, Function.update s.ctx pid (some c')⟩ = s.holders := by
      rw [holders_update, Option.map_some, hholder]
      exact Function.update_eq_iff.2 ⟨(holders_of_ctx hpid).symm, fun _ _ => rfl⟩
    rw [heq]
    exact .keep
  cases h with
  | memory hpid => exact keep hpid rfl
  | cowFault hpid => exact .keep
  | @cfork parent child pgd c m' list hpid hrun hchild hpgd hlist hcopy =>
    rw [holders_update]
    have hwaiting : ({ c with ppid := parent, pgd := pgd, list := list } : Context).holder =
        ⟨pgd, parent, false⟩ := congrArg _ hrun
    rw [Option.map_some, hwaiting]
    refine .create (congrArg _ hchild) fun i h hi => ?_
    obtain ⟨c', hc', rfl⟩ := Option.map_eq_some_iff.1 hi
    exact hpgd i c' hc'
  | @vfork parent child c m' v v' hpid hrun hchild hroom hcopy =>
    obtain ⟨hpgd, hpgd', hwaiting, hwaiting'⟩ := hcopy.shares
    have hlent : (c.setVfork v').holder = { c.holder with idle := true } := by
      simp [Context.holder, Context.setVfork, hpgd', hwaiting', Context.vforkContext]
    have hnew : (({ c with ppid := parent } : Context).setVfork v).holder =
        ⟨c.holder.resource, parent, false⟩ := by
      simp [Context.holder, Context.setVfork, hpgd, hwaiting, Context.vforkContext, hrun]
    rw [holders_update, holders_update, Option.map_some, Option.map_some, hlent, hnew]
    exact .lend (holders_of_ctx hpid) hrun (congrArg _ hchild)
  | @exit pid c m' hpid hrun hs hkeep =>
    rw [holders_update, holders_vforkExitHandle]
    exact .leave (holders_of_ctx hpid) hrun
  | other hpid => exact keep hpid rfl

/-! ## The layout of a process -/

theorem MmContext.Segments.layout (h : ctx.Segments H.toHeader) (I : InRegion H.toHeader ctx.vmArea) :
    ctx.Layout := by
  have hend := H.end_lt
  have hbounds {vm} (hvm : vm ∈ ctx.vmArea) := I.sorted.bounds hvm
  have hsub {vm} (hvm : vm ∈ ctx.vmArea) : vm.range ⊆ H.mmapArea := fun a ha =>
    ⟨(hbounds hvm).1.trans ha.1, ha.2.trans_le (hbounds hvm).2.2⟩
  constructor
  case code => exact h.code
  case rodata => exact h.rodata
  case data => exact h.data
  case stack => exact h.stack
  case stack_pos => exact h.stack_pos.trans_le h.stack.start_le
  case areas =>
    intro vm hvm
    have := (hbounds hvm).2.2
    exact ⟨(I.aligned vm hvm).1, (I.aligned vm hvm).2, by omega⟩
  case disjoint =>
    have hsegments := h.disjoint
    simp only [List.pairwise_cons, List.forall_mem_cons, List.not_mem_nil, false_implies,
      implies_true, and_true, List.Pairwise.nil] at hsegments
    obtain ⟨⟨hcr, hcd, hcs, hcm⟩, ⟨hrd, hrs, hrm⟩, ⟨hds, hdm⟩, hsm⟩ := hsegments
    have hareas : (ctx.vmArea.map VmArea.range).Pairwise Disjoint := by
      have hordered := List.pairwise_map.1 (Interval.Ordered.pairwise I.sorted)
      refine List.pairwise_map.2 (hordered.imp fun hle => Set.disjoint_left.2 fun a ha ha' => ?_)
      exact absurd (ha.2.trans_le hle) (Nat.not_lt.2 ha'.1)
    rw [MmContext.Layout.disjoint_iff]
    exact ⟨hcr, hcd, hcs, fun vm hvm => hcm.mono_right (hsub hvm), hrd, hrs,
      fun vm hvm => hrm.mono_right (hsub hvm), hds, fun vm hvm => hdm.mono_right (hsub hvm),
      fun vm hvm => hsm.mono_right (hsub hvm), hareas⟩

theorem MmContext.Segments.hasRoom (h : c.mm.Segments H.toHeader) (hroom : c.HasRoom) :
    c.vforkContext.HasRoom := by
  have hpos := h.stack_pos
  have hle := h.stack.start_le
  unfold Context.HasRoom VforkContext.stackSize Context.vforkContext at hroom
  dsimp only at hroom
  constructor
  case end_dvd => exact h.stack.end_dvd
  case nextFree_dvd => exact h.stack.nextFree_dvd
  case nextFree_pos => exact hpos.trans_le hle
  case nextFree_le => exact h.stack.le_end
  case end_le =>
    dsimp only [Context.vforkContext]
    omega
  case end_lt => exact h.stack.end_lt

/-- What holds of the memory and the processes, whoever runs. -/
structure Gemos.Fine (H : ForkHeader) (s : Gemos) : Prop where
  sound : s.machine.Sound
  segments : ∀ {pid c}, s.ctx pid = some c → c.mm.Segments H.toHeader
  bounds : ∀ {pid pid' c c'}, s.ctx pid = some c → s.ctx pid' = some c' → c.pgd = c'.pgd →
    c.mm.data.start = c'.mm.data.start ∧ c.mm.data.segEnd = c'.mm.data.segEnd ∧ c.list = c'.list
  space : ∀ {pid c}, s.ctx pid = some c → c.waiting = false →
    SpaceInv H.toHeader c.mm.vmArea (s.machine.entry c.pgd)

namespace Gemos.Fine

/-- A process changes its own table and its context. -/
theorem update (I : s.Fine H) (hpid : s.ctx pid = some c) {m' : Machine} {c₁ : Context}
    (hs : m'.Sound) (hseg : c₁.mm.Segments H.toHeader) (hpgd : c₁.pgd = c.pgd)
    (hbounds : c₁.mm.data.start = c.mm.data.start ∧ c₁.mm.data.segEnd = c.mm.data.segEnd ∧
      c₁.list = c.list)
    (hspace : c₁.waiting = false → SpaceInv H.toHeader c₁.mm.vmArea (m'.entry c.pgd))
    (hothers : ∀ q c', q ≠ pid → s.ctx q = some c' → c'.waiting = false →
      m'.entry c'.pgd = s.machine.entry c'.pgd) :
    Gemos.Fine H ⟨m', Function.update s.ctx pid (some c₁)⟩ := by
  have hctx {q c'} (hq : Function.update s.ctx pid (some c₁) q = some c') :
      q = pid ∧ c' = c₁ ∨ q ≠ pid ∧ s.ctx q = some c' := by
    rcases eq_or_ne q pid with rfl | hne
    · rw [Function.update_self] at hq
      exact .inl ⟨rfl, (Option.some.inj hq).symm⟩
    · rw [Function.update_of_ne hne] at hq
      exact .inr ⟨hne, hq⟩
  constructor
  case sound => exact hs
  case segments =>
    intro q c' hq
    obtain ⟨rfl, rfl⟩ | ⟨-, hq⟩ := hctx hq
    · exact hseg
    · exact I.segments hq
  case bounds =>
    intro q q' c' c'' hq hq' heq
    obtain ⟨-, hold⟩ | ⟨-, hold⟩ := hctx hq
    · obtain ⟨-, hold'⟩ | ⟨-, hold'⟩ := hctx hq'
      · rw [hold, hold']
        exact ⟨rfl, rfl, rfl⟩
      · rw [hold, hbounds.1, hbounds.2.1, hbounds.2.2]
        exact I.bounds hpid hold' (hpgd.symm.trans (hold ▸ heq))
    · obtain ⟨-, hold'⟩ | ⟨-, hold'⟩ := hctx hq'
      · rw [hold', hbounds.1, hbounds.2.1, hbounds.2.2]
        exact I.bounds hold hpid (heq.trans (hold' ▸ hpgd))
      · exact I.bounds hold hold' heq
  case space =>
    intro q c' hq hrun
    obtain ⟨rfl, rfl⟩ | ⟨hne, hq⟩ := hctx hq
    · rw [hpgd]
      exact hspace hrun
    · dsimp only
      rw [hothers q c' hne hq hrun]
      exact I.space hq hrun

/-- A new process. -/
theorem insert (I : s.Fine H) {child : Nat} {c₁ : Context} (hseg : c₁.mm.Segments H.toHeader)
    (hbounds : ∀ q c', s.ctx q = some c' → c'.pgd = c₁.pgd →
      c'.mm.data.start = c₁.mm.data.start ∧ c'.mm.data.segEnd = c₁.mm.data.segEnd ∧
        c'.list = c₁.list)
    (hspace : SpaceInv H.toHeader c₁.mm.vmArea (s.machine.entry c₁.pgd)) :
    Gemos.Fine H ⟨s.machine, Function.update s.ctx child (some c₁)⟩ := by
  have hctx {q c'} (hq : Function.update s.ctx child (some c₁) q = some c') :
      c' = c₁ ∨ s.ctx q = some c' := by
    rcases eq_or_ne q child with rfl | hne
    · rw [Function.update_self] at hq
      exact .inl (Option.some.inj hq).symm
    · rw [Function.update_of_ne hne] at hq
      exact .inr hq
  constructor
  case sound => exact I.sound
  case segments =>
    intro q c' hq
    obtain rfl | hq := hctx hq
    · exact hseg
    · exact I.segments hq
  case bounds =>
    intro q q' c' c'' hq hq' heq
    obtain hnew | hold := hctx hq
    · obtain hnew' | hold' := hctx hq'
      · rw [hnew, hnew']
        exact ⟨rfl, rfl, rfl⟩
      · obtain ⟨hstart, hend, hlist⟩ := hbounds _ _ hold' (hnew ▸ heq.symm)
        rw [hnew]
        exact ⟨hstart.symm, hend.symm, hlist.symm⟩
    · obtain hnew' | hold' := hctx hq'
      · rw [hnew']
        exact hbounds _ _ hold (hnew' ▸ heq)
      · exact I.bounds hold hold' heq
  case space =>
    intro q c' hq hrun
    obtain rfl | hq := hctx hq
    · exact hspace
    · exact I.space hq hrun

end Gemos.Fine

/-- What the handler leaves of the processes. -/
theorem vforkExitHandle_eq_some {f : Nat → Option Context} {q : Nat} {c' : Context}
    (h : vforkExitHandle f c q = some c') : f q = some c' ∨
      ∃ parent, q = c.ppid ∧ f q = some parent ∧ parent.pgd = c.pgd ∧ c' = parent.takeBack c := by
  rw [vforkExitHandle] at h
  cases hparent : f c.ppid with
  | none =>
    rw [hparent] at h
    exact .inl h
  | some parent =>
    rw [hparent] at h
    dsimp only at h
    split at h
    next hpgd =>
      rcases eq_or_ne q c.ppid with rfl | hne
      · rw [Function.update_self] at h
        exact .inr ⟨parent, rfl, hparent, hpgd, (Option.some.inj h).symm⟩
      · rw [Function.update_of_ne hne] at h
        exact .inl h
    next => exact .inl h

/-- The bounds of DATA that a vfork child hands back fit its parent. -/
theorem MmContext.Segments.takeBack {parent child : Context} (h : parent.mm.Segments H.toHeader)
    (hc : child.mm.Segments H.toHeader) (hstart : parent.mm.data.start = child.mm.data.start)
    (hend : parent.mm.data.segEnd = child.mm.data.segEnd) :
    (parent.takeBack child).mm.Segments H.toHeader where
  code := h.code
  rodata := h.rodata
  data := by
    constructor
    case start_le => exact hstart.trans_le hc.data.start_le
    case le_end => exact hc.data.le_end.trans_eq hend.symm
    case end_lt => exact h.data.end_lt
    case start_dvd => exact h.data.start_dvd
    case nextFree_dvd => exact hc.data.nextFree_dvd
    case end_dvd => exact h.data.end_dvd
  stack := h.stack
  stack_pos := h.stack_pos
  disjoint := h.disjoint

theorem Gemos.Fine.exit (I : s.Fine H) (hpid : s.ctx pid = some c) (hrun : c.waiting = false)
    {m' : Machine} (hs : m'.Sound) (hkeep : ∀ q c', q ≠ pid → s.ctx q = some c' →
      m'.entry c'.pgd = s.machine.entry c'.pgd) :
    Gemos.Fine H ⟨m', Function.update (vforkExitHandle s.ctx c) pid none⟩ := by
  have hctx {q c'} (hq : Function.update (vforkExitHandle s.ctx c) pid none q = some c') :
      ∃ old, q ≠ pid ∧ s.ctx q = some old ∧ c'.pgd = old.pgd ∧
        (c' = old ∨ old.pgd = c.pgd ∧ c' = old.takeBack c) := by
    rcases eq_or_ne q pid with rfl | hne
    · rw [Function.update_self] at hq
      cases hq
    · rw [Function.update_of_ne hne] at hq
      obtain hq | ⟨parent, -, hparent, hpgd, rfl⟩ := vforkExitHandle_eq_some hq
      · exact ⟨c', hne, hq, rfl, .inl rfl⟩
      · exact ⟨parent, hne, hparent, rfl, .inr ⟨hpgd, rfl⟩⟩
  have hbounds {c' old : Context} (hold : c' = old ∨ old.pgd = c.pgd ∧ c' = old.takeBack c) :
      c'.mm.data.start = old.mm.data.start ∧ c'.mm.data.segEnd = old.mm.data.segEnd ∧
        c'.list = old.list := by
    obtain rfl | ⟨-, rfl⟩ := hold
    · exact ⟨rfl, rfl, rfl⟩
    · exact ⟨rfl, rfl, rfl⟩
  constructor
  case sound => exact hs
  case segments =>
    intro q c' hq
    obtain ⟨old, -, hold, -, rfl | ⟨hpgd, rfl⟩⟩ := hctx hq
    · exact I.segments hold
    · obtain ⟨hstart, hend, -⟩ := I.bounds hold hpid hpgd
      exact (I.segments hold).takeBack (I.segments hpid) hstart hend
  case bounds =>
    intro q q' c' c'' hq hq' heq
    obtain ⟨old, -, hold, hpgd, hc'⟩ := hctx hq
    obtain ⟨old', -, hold', hpgd', hc''⟩ := hctx hq'
    rw [(hbounds hc').1, (hbounds hc').2.1, (hbounds hc').2.2, (hbounds hc'').1,
      (hbounds hc'').2.1, (hbounds hc'').2.2]
    exact I.bounds hold hold' (by rw [← hpgd, ← hpgd', heq])
  case space =>
    intro q c' hq hrun'
    obtain ⟨old, hne, hold, hpgd, rfl | ⟨hold', rfl⟩⟩ := hctx hq
    · dsimp only
      rw [hkeep q _ hne hold]
      exact I.space hold hrun'
    · dsimp only
      rw [hpgd, hkeep q _ hne hold, hold']
      exact I.space hpid hrun

/-- Processes that run and have one list have the same areas. -/
def Gemos.SameLists (s : Gemos) : Prop :=
  ∀ ⦃pid pid' c c'⦄, s.ctx pid = some c → s.ctx pid' = some c' → c.waiting = false →
    c'.waiting = false → c.list = c'.list → c.mm.vmArea = c'.mm.vmArea

theorem Gemos.SameLists.update (L : s.SameLists) {m : Machine} {o : Option Context}
    (h : ∀ c₁ q c', o = some c₁ → c₁.waiting = false → q ≠ pid → s.ctx q = some c' →
      c'.waiting = false → c₁.list = c'.list → c₁.mm.vmArea = c'.mm.vmArea) :
    Gemos.SameLists ⟨m, Function.update s.ctx pid o⟩ := by
  intro q q' c' c'' hq hq' hrun hrun' hlist
  dsimp only at hq hq'
  rw [Function.update_apply] at hq hq'
  split at hq
  next =>
    split at hq'
    next =>
      cases hq.symm.trans hq'
      rfl
    next hne => exact h c' q' c'' hq hrun hne hq' hrun' hlist
  next hne =>
    split at hq'
    next => exact (h c'' q c' hq' hrun' hne hq hrun hlist.symm).symm
    next => exact L hq hq' hrun hrun' hlist

/-- What holds in every state of a run. -/
structure Gemos.Inv (H : ForkHeader) (s : Gemos) : Prop extends s.Fine H where
  stacked : ∃ stack, Stacked s.holders stack
  lists : s.SameLists

namespace Gemos.Inv

theorem layout (I : s.Inv H) (hpid : s.ctx pid = some c) (hrun : c.waiting = false) :
    c.mm.Layout :=
  (I.segments hpid).layout (I.space hpid hrun).toInRegion

/-- Two running processes have different page tables. -/
theorem ne_pgd (I : s.Inv H) {pid' : Nat} {c' : Context} (hpid : s.ctx pid = some c)
    (hrun : c.waiting = false) (hne : pid' ≠ pid) (hpid' : s.ctx pid' = some c')
    (hrun' : c'.waiting = false) : c'.pgd ≠ c.pgd := by
  intro hpgd
  obtain ⟨stack, S⟩ := I.stacked
  exact hne (S.uses_unique (r := c.pgd) ⟨_, holders_of_ctx hpid', hpgd, hrun'⟩
    ⟨_, holders_of_ctx hpid, rfl, hrun⟩)

/-- The memory changes, and the contexts stay. -/
theorem fine_of_machine (I : s.Inv H) (hpid : s.ctx pid = some c) {m' : Machine} (hs : m'.Sound)
    (hspace : c.waiting = false → SpaceInv H.toHeader c.mm.vmArea (m'.entry c.pgd))
    (hothers : ∀ q c', q ≠ pid → s.ctx q = some c' → c'.waiting = false →
      m'.entry c'.pgd = s.machine.entry c'.pgd) : Gemos.Fine H ⟨m', s.ctx⟩ := by
  have h := I.toFine.update hpid hs (I.segments hpid) rfl ⟨rfl, rfl, rfl⟩ hspace hothers
  rwa [Function.update_eq_self_iff.2 hpid.symm] at h

theorem fine_memory (I : s.Inv H) (hpid : s.ctx pid = some c) (hrun : c.waiting = false)
    {call : MemCall} {r : Int} {c' : ExecContext (Paging.ofMachine H c.pgd)}
    (hv : call.Valid) (hok : Orderly (c.execContext H I.sound) call)
    (h : call.Yields (c.execContext H I.sound) r c') :
    Gemos.Fine H ⟨c'.pgd.1, Function.update s.ctx pid (some (c.setAreas c'.vmArea))⟩ := by
  have hspace := I.space hpid hrun
  refine I.toFine.update hpid c'.pgd.2 ?_ rfl ⟨rfl, rfl, rfl⟩ (fun _ => h.spaceInv hv hspace hok)
    fun q c' hne hq hrun' => ?_
  · obtain ⟨hcode, hrodata, hdata, hstack, hpos, hdisjoint⟩ := I.segments hpid
    exact ⟨hcode, hrodata, hdata, hstack, hpos, hdisjoint⟩
  · exact h.others hv hspace.toInRegion hok (I.ne_pgd hpid hrun hne hq hrun')

theorem fine_cowFault (I : s.Inv H) (hpid : s.ctx pid = some c) (hrun : c.waiting = false)
    (cr2 : Nat) :
    Gemos.Fine H ⟨(handleCowFault H c.mm s.machine c.pgd cr2).2, s.ctx⟩ := by
  have hl := I.layout hpid hrun
  refine I.fine_of_machine hpid (I.sound.handleCowFault hl)
    (fun _ => handleCowFault_spaceInv hl I.sound (I.space hpid hrun)) fun q c' hne hq hrun' => ?_
  exact handleCowFault_others hl I.sound (I.ne_pgd hpid hrun hne hq hrun')

theorem fine_cfork (I : s.Inv H) {parent child pgd : Nat} (hpid : s.ctx parent = some c)
    (hrun : c.waiting = false) (hpgd : ∀ pid c', s.ctx pid = some c' → c'.pgd ≠ pgd) {m' : Machine}
    (list : Nat) (h : CforkCopyMm H pgd c.pgd c.mm s.machine m') : Gemos.Fine H
      ⟨m', Function.update s.ctx child
        (some { c with ppid := parent, pgd := pgd, list := list })⟩ := by
  have hl := I.layout hpid hrun
  have hseg := I.segments hpid
  obtain ⟨st, hcopying, -⟩ := h.copying hl I.sound (hpgd _ _ hpid).symm
  have hdisjoint := hseg.disjoint
  simp only [List.pairwise_cons, List.forall_mem_cons, List.not_mem_nil, false_implies,
    implies_true, and_true, List.Pairwise.nil] at hdisjoint
  obtain ⟨⟨-, -, -, hcode⟩, ⟨-, -, hrodata⟩, ⟨-, hdata⟩, hstack⟩ := hdisjoint
  obtain ⟨hspace, hspace'⟩ := h.spaceInv hl I.sound (hpgd _ _ hpid).symm (I.space hpid hrun) hcode
    hrodata hdata hstack
  have hold : Gemos.Fine H ⟨m', s.ctx⟩ := I.fine_of_machine hpid hcopying.sound (fun _ => hspace')
    fun q c' hne hq hrun' => h.others hl (hpgd q c' hq) (I.ne_pgd hpid hrun hne hq hrun')
  refine hold.insert ?_ (fun q c' hq heq => absurd heq (hpgd q c' hq)) hspace
  obtain ⟨hcode, hrodata, hdata, hstack, hpos, hdisjoint⟩ := hseg
  exact ⟨hcode, hrodata, hdata, hstack, hpos, hdisjoint⟩

theorem fine_vfork (I : s.Inv H) {parent child : Nat} (hpid : s.ctx parent = some c)
    (hrun : c.waiting = false) (hroom : c.HasRoom) {m' : Machine} {v v' : VforkContext}
    (h : VforkCopyMm H hasTable c.vforkContext c.vforkContext s.machine v v' m') : Gemos.Fine H
      ⟨m', Function.update (Function.update s.ctx parent (some (c.setVfork v'))) child
        (some ({ c with ppid := parent }.setVfork v))⟩ := by
  have hseg := I.segments hpid
  have hspace := I.space hpid hrun
  have hstack := hseg.stack
  have hroom' := hseg.hasRoom hroom
  obtain ⟨hs, hkept⟩ := h.kept hroom' I.sound
  obtain ⟨_, -, hiff⟩ := hroom'.vforkCopyMm_iff H hasTable c.vforkContext s.machine
  obtain ⟨-, rfl, rfl⟩ := (hiff _ _ _).1 h
  have hdisjoint := hseg.disjoint
  simp only [List.pairwise_cons, List.forall_mem_cons, List.not_mem_nil, false_implies,
    implies_true, and_true, List.Pairwise.nil] at hdisjoint
  obtain ⟨-, -, -, hdisjoint⟩ := hdisjoint
  -- the copy of the stack lies in STACK
  have htarget {page} (hpage : page * 4096 ∈ H.mmapArea) :
      page * 4096 ∉ c.vforkContext.targetRange := by
    intro hmem
    refine Set.disjoint_left.1 hdisjoint ⟨?_, ?_⟩ hpage
    · exact (Nat.le_sub_of_add_le hroom).trans hmem.1
    · exact hmem.2.trans_le hstack.le_end
  have hspace' : SpaceInv H.toHeader c.mm.vmArea (m'.entry c.pgd) := by
    refine hspace.of_le fun page pte hstart hend he => ⟨pte, ?_, id⟩
    rwa [← hkept c.pgd page fun hnot => htarget ⟨hstart, hend⟩ hnot.2]
  have hparent : Gemos.Fine H ⟨m', Function.update s.ctx parent
      (some (c.setVfork { c.vforkContext with waiting := true }))⟩ := by
    refine I.toFine.update hpid hs hseg rfl ⟨rfl, rfl, rfl⟩ (fun _ => hspace')
      fun q c' hne hq hrun' => ?_
    have hpgd := I.ne_pgd hpid hrun hne hq hrun'
    exact funext fun page => hkept c'.pgd page fun hnot => hpgd hnot.1
  refine hparent.insert ?_ (fun q c' hq heq => ?_) hspace'
  · have hnext : u64 ((c.mm.stack.nextFree : Nat) - (c.vforkContext.stackSize : Nat)) =
        c.mm.stack.nextFree - c.vforkContext.stackSize := by
      have hlt := hstack.le_end.trans_lt hstack.end_lt
      have hle : c.vforkContext.stackSize ≤ c.mm.stack.nextFree := (Nat.le_add_left _ _).trans hroom
      unfold u64
      omega
    have hsize : 4096 ∣ c.vforkContext.stackSize :=
      Nat.dvd_sub hstack.end_dvd hstack.nextFree_dvd
    refine ⟨hseg.code, hseg.rodata, hseg.data, ?_, hseg.stack_pos, hseg.disjoint⟩
    dsimp only [Context.setVfork, Context.vforkContext] at hnext ⊢
    rw [hnext]
    exact ⟨Nat.le_sub_of_add_le hroom, (Nat.sub_le _ _).trans hstack.le_end, hstack.end_lt,
      hstack.start_dvd, Nat.dvd_sub hstack.nextFree_dvd hsize, hstack.end_dvd⟩
  · rcases eq_or_ne q parent with rfl | hne
    · dsimp only at hq
      rw [Function.update_self] at hq
      cases hq
      exact ⟨rfl, rfl, rfl⟩
    · dsimp only at hq
      rw [Function.update_of_ne hne] at hq
      have hbounds := I.bounds hq hpid heq
      exact hbounds

theorem fine_other (I : s.Inv H) (hpid : s.ctx pid = some c) (hrun : c.waiting = false)
    {m' : Machine} {data stack : Nat} (hs : m'.Sound)
    (hkeep : ∀ g page, g ≠ c.pgd ∨ page * 4096 ∈ H.mmapArea →
      m'.entry g page = s.machine.entry g page)
    (hdata : MmSegment.Valid { c.mm.data with nextFree := data })
    (hstack : MmSegment.Valid { c.mm.stack with nextFree := stack }) :
    Gemos.Fine H ⟨m', Function.update s.ctx pid (some (c.setBounds data stack))⟩ := by
  have hseg := I.segments hpid
  refine I.toFine.update hpid hs ⟨hseg.code, hseg.rodata, hdata, hstack, hseg.stack_pos,
    hseg.disjoint⟩ rfl ⟨rfl, rfl, rfl⟩ (fun _ => ?_) fun q c' hne hq hrun' => ?_
  · refine (I.space hpid hrun).of_le fun page pte hstart hend he => ⟨pte, ?_, id⟩
    rwa [← hkeep c.pgd page (.inr ⟨hstart, hend⟩)]
  · exact funext fun page => hkeep _ _ (.inl (I.ne_pgd hpid hrun hne hq hrun'))

end Gemos.Inv

/-- Who changes the areas has them alone. -/
theorem GemosStep.lists (h : GemosStep H hasTable s call s') (I : s.Inv H) : s'.SameLists := by
  have hsame := I.lists
  cases h with
  | @memory pid c call r c' hpid hrun hs hv hok hlist h =>
    refine hsame.update fun c₁ q c₂ ho hrun₁ hne hq hrun₂ heq => ?_
    obtain rfl := Option.some.inj ho
    cases call with
    | map | unmap | mprotect =>
      exact absurd (hlist trivial q c₂ hq heq.symm) (I.ne_pgd hpid hrun hne hq hrun₂)
    | pagefault =>
      have hareas : c'.vmArea = c.mm.vmArea := vmAreaPagefault_areas h
      exact hareas.trans (hsame hpid hq hrun hrun₂ heq)
  | cowFault => exact hsame
  | @cfork parent child pgd c m' list hpid hrun hchild hpgd hlist =>
    refine hsame.update fun c₁ q c₂ ho hrun₁ hne hq hrun₂ heq => ?_
    obtain rfl := Option.some.inj ho
    obtain ⟨-, rfl⟩ | ⟨-, hnew⟩ := hlist
    · change c.mm.vmArea = _
      exact hsame hpid hq hrun hrun₂ heq
    · exact absurd heq.symm (hnew q c₂ hq)
  | @vfork parent child c m' v v' hpid hrun hchild hroom h =>
    obtain ⟨-, -, -, hwaits⟩ := h.shares
    have hparent : Gemos.SameLists ⟨m', Function.update s.ctx parent (some (c.setVfork v'))⟩ := by
      refine hsame.update fun c₁ q c₂ ho hrun₁ => ?_
      obtain rfl := Option.some.inj ho
      cases hwaits.symm.trans hrun₁
    refine hparent.update fun c₁ q c₂ ho hrun₁ hne hq hrun₂ heq => ?_
    obtain rfl := Option.some.inj ho
    dsimp only at hq
    rw [Function.update_apply] at hq
    split at hq
    next =>
      obtain rfl := Option.some.inj hq
      cases hwaits.symm.trans hrun₂
    next =>
      change c.mm.vmArea = _
      exact hsame hpid hq hrun hrun₂ heq
  | @exit pid c m' hpid hrun hs hkeep =>
    have htaken : Gemos.SameLists ⟨m', vforkExitHandle s.ctx c⟩ := by
      rw [vforkExitHandle]
      split
      next => exact hsame
      next parent hparent =>
        split
        next hpgd =>
          refine hsame.update fun c₁ q c₂ ho hrun₁ hne hq hrun₂ heq => ?_
          obtain rfl := Option.some.inj ho
          change c.mm.vmArea = _
          exact hsame hpid hq hrun hrun₂ ((I.bounds hparent hpid hpgd).2.2.symm.trans heq)
        next => exact hsame
    exact htaken.update nofun
  | @other pid c m' data stack hpid hrun =>
    refine hsame.update fun c₁ q c₂ ho hrun₁ hne hq hrun₂ heq => ?_
    obtain rfl := Option.some.inj ho
    change c.mm.vmArea = _
    exact hsame hpid hq hrun hrun₂ heq

theorem GemosStep.inv (h : GemosStep H hasTable s call s') (I : s.Inv H) : s'.Inv H := by
  refine ⟨?_, ?_, h.lists I⟩
  · cases h with
    | memory hpid hrun hs hv hok _ h => exact I.fine_memory hpid hrun hv hok h
    | cowFault hpid hrun => exact I.fine_cowFault hpid hrun _
    | cfork hpid hrun hchild hpgd _ h => exact I.fine_cfork hpid hrun hpgd _ h
    | vfork hpid hrun hchild hroom h => exact I.fine_vfork hpid hrun hroom h
    | exit hpid hrun hs hkeep => exact I.toFine.exit hpid hrun hs hkeep
    | other hpid hrun hs hkeep hdata hstack => exact I.fine_other hpid hrun hs hkeep hdata hstack
  · obtain ⟨stack, S⟩ := I.stacked
    exact S.step h.loanStep

theorem Gemos.Initial.inv (h : s.Initial H) : s.Inv H where
  sound := h.sound
  segments := h.segments
  bounds hpid hpid' hpgd := by
    obtain rfl := h.separate hpid hpid' hpgd
    obtain rfl := Option.some.inj (hpid.symm.trans hpid')
    exact ⟨rfl, rfl, rfl⟩
  space hpid _ := by
    rw [h.areas hpid]
    exact .nil fun page hstart hend => h.absent hpid ⟨hstart, hend⟩
  stacked := by
    refine Stacked.exists_of_separate (fun hi => ?_) fun hi hj hres => ?_
    · obtain ⟨c, hc, rfl⟩ := Option.map_eq_some_iff.1 hi
      exact h.running hc
    · obtain ⟨c, hc, rfl⟩ := Option.map_eq_some_iff.1 hi
      obtain ⟨c', hc', rfl⟩ := Option.map_eq_some_iff.1 hj
      exact h.separate hc hc' hres
  lists _ _ _ _ hpid hpid' _ _ _ := by rw [h.areas hpid, h.areas hpid']

theorem GemosRun.inv (h : GemosRun H hasTable s calls s') (h0 : s.Initial H) : s'.Inv H :=
  h.invariant h0.inv fun I h => h.inv I

/-! ## The running process of a page table -/

/-- The process that may run on a page table. -/
structure Gemos.Runs (s : Gemos) (pgd pid : Nat) (c : Context) : Prop where
  ctx : s.ctx pid = some c
  pgd : c.pgd = pgd
  running : c.waiting = false

/-- The areas lie in the region on page boundaries, apart from each other and from the segments, and
every present page of the region belongs to one of them and is writable only if its flags contain
`PROT_WRITE`. -/
structure Gemos.WithinAreas (H : ForkHeader) (s : Gemos) (c : Context) : Prop where
  areas : AreasConfined H.toHeader c.mm.vmArea
  layout : c.mm.Layout
  pages : ∀ page pte, page * 4096 ∈ H.mmapArea → s.machine.entry c.pgd page = some pte →
    ∃ vm ∈ c.mm.vmArea, vm.vmStart ≤ page * 4096 ∧ (page + 1) * 4096 ≤ vm.vmEnd ∧
      (pte.writable → vm.accessFlags &&& H.protWrite ≠ 0)

theorem Gemos.Inv.withinAreas (I : s.Inv H) (hpid : s.ctx pid = some c) (hrun : c.waiting = false) :
    s.WithinAreas H c := by
  have hspace := I.space hpid hrun
  refine ⟨hspace.toInRegion.confined, I.layout hpid hrun, fun page pte hpage he => ?_⟩
  obtain ⟨f, hf, hw⟩ := hspace.allows page pte hpage.1 hpage.2 he
  obtain ⟨vm, hvm, hmem, rfl⟩ := exists_area hf
  have hal := hspace.aligned vm hvm
  have hlt := hmem.2
  exact ⟨vm, hvm, hmem.1, by omega, hw⟩

/-- In every run each page table that is in use has exactly one process that may run on it, and it
stays within the areas of this process. All that may run and have one list see the same areas. -/
theorem GemosRun.one_runner (h : GemosRun H hasTable s calls s') (h0 : s.Initial H)
    (hpid : s'.ctx pid = some c) :
    (∃! runner, ∃ c', s'.Runs c.pgd runner c' ∧ s'.WithinAreas H c') ∧ s'.SameLists := by
  have I := h.inv h0
  refine ⟨?_, I.lists⟩
  obtain ⟨stack, S⟩ := I.stacked
  obtain ⟨runner, ⟨hd, hrunner, hres, hidle⟩, huniq⟩ := S.existsUnique_uses (holders_of_ctx hpid)
  obtain ⟨c', hc', rfl⟩ := Option.map_eq_some_iff.1 hrunner
  refine ⟨runner, ⟨c', ⟨hc', hres, hidle⟩, I.withinAreas hc' hidle⟩, ?_⟩
  rintro q ⟨c'', ⟨hq, hpgd, hrun⟩, -⟩
  exact huniq q ⟨_, holders_of_ctx hq, hpgd, hrun⟩

/-- One process that has no page yet. -/
def Gemos.oneProcess : Gemos where
  machine := .boot []
  ctx pid := if pid = 0 then
      some ⟨0, 0, 36000, 35000, false, { MmContext.small with vmArea := [] }, 0⟩
    else none

theorem Gemos.oneProcess_initial : Gemos.oneProcess.Initial .megabyte := by
  have hctx {pid c} (hpid : Gemos.oneProcess.ctx pid = some c) :
      pid = 0 ∧ c = ⟨0, 0, 36000, 35000, false, { MmContext.small with vmArea := [] }, 0⟩ := by
    obtain ⟨rfl, ⟨⟩⟩ := Option.ite_none_right_eq_some.1 hpid
    exact ⟨rfl, rfl⟩
  constructor
  case sound => exact Machine.boot_sound []
  case running =>
    intro pid c hpid
    rw [(hctx hpid).2]
  case separate =>
    intro pid pid' c c' hpid hpid' _
    rw [(hctx hpid).1, (hctx hpid').1]
  case segments =>
    intro pid c hpid
    rw [(hctx hpid).2]
    constructor
    case code => constructor <;> decide
    case rodata => constructor <;> decide
    case data => constructor <;> decide
    case stack => constructor <;> decide
    case stack_pos => decide
    case disjoint => simp [MmContext.small, MmSegment.range, Header.mmapArea, ForkHeader.megabyte,
      Header.megabyte]
  case areas =>
    intro pid c hpid
    rw [(hctx hpid).2]
  case absent => exact fun _ _ => if_neg fun h => List.not_mem_nil h.2

/-- `get_user_pte` returns NULL for every page that is absent. -/
def noTable (_ : Machine) (_ _ : Nat) : Bool := false

/-- The process shares its page table, of which no page is present. -/
theorem Gemos.oneProcess_vfork : ∃ s' c₀ c₁, GemosRun .megabyte noTable .oneProcess [.vfork 0 1] s' ∧
    s'.ctx 0 = some c₀ ∧ c₀.waiting = true ∧ s'.ctx 1 = some c₁ ∧ c₁.waiting = false ∧
    c₁.mm.vmArea = [] ∧ ∀ q c, s'.ctx q = some c → c.pgd = 0 := by
  let c : Context := ⟨0, 0, 36000, 35000, false, { MmContext.small with vmArea := [] }, 0⟩
  have hroom : c.HasRoom := by
    unfold Context.HasRoom
    decide
  have hctx : Gemos.oneProcess.ctx 0 = some c := rfl
  obtain ⟨pages, -, hiff⟩ := ((Gemos.oneProcess_initial.segments hctx).hasRoom
    hroom).vforkCopyMm_iff .megabyte noTable c.vforkContext (.boot [])
  have hvisits : some (Machine.boot []) = visits (fun vaddr m => Option.bind m
      (vforkVisit .megabyte noTable c.pgd c.mm.stack c.vforkContext.stackSize vaddr)) pages
      (some (.boot [])) := by
    clear hiff
    induction pages with
    | nil => rfl
    | cons p pages ih => exact ih
  have hcopy := (hiff _ _ _).2 ⟨hvisits, rfl, rfl⟩
  refine ⟨_, _, _, .snoc .nil (.vfork rfl rfl rfl hroom hcopy), rfl, rfl, rfl, rfl, rfl, ?_⟩
  intro q c' hq
  by_cases h1 : q = 1
  · cases h1
    exact Option.some.inj hq ▸ rfl
  · by_cases h0 : q = 0
    · cases h0
      exact Option.some.inj hq ▸ rfl
    · have hq : Gemos.oneProcess.ctx q = some c' :=
        ((Function.update_of_ne h1 ..).trans (Function.update_of_ne h0 ..)).symm.trans hq
      exact absurd (Option.ite_none_right_eq_some.1 hq).1 h0

/-- Two pages in an empty list. -/
theorem VmAreaMap.first {P : Paging Header.megabyte} (t : P.Table) :
    VmAreaMap ⟨[], t⟩ 0 8192 3 0 (2 ^ 20) ⟨[⟨2 ^ 20, 2 ^ 20 + 8192, 3⟩], t⟩ := by
  refine Returns.of_run (n := 1) ?_
  simp [run, mapBody, mapNoHint, Header.megabyte, roundUp, u64, mapReturnNew, mapReturn, int64]

/-- The vfork child maps two pages and writes to the first one. -/
theorem GemosRun.one_runner_of_vfork : ∃ (s' : Gemos) (c : Context),
    GemosRun .megabyte noTable .oneProcess
      [.vfork 0 1, .memory 1 (.map 0 8192 3 0), .memory 1 (.pagefault (2 ^ 20) 6)] s' ∧
    s'.ctx 0 = some c ∧ c.waiting = true ∧ (∃ pte, s'.machine.entry c.pgd 256 = some pte) ∧
      (∃! runner, ∃ c', s'.Runs c.pgd runner c' ∧ s'.WithinAreas .megabyte c') ∧ s'.SameLists := by
  obtain ⟨s₁, c₀, c₁, hrun, h0, hwaiting, h1, hrun1, hareas, hpgd⟩ := Gemos.oneProcess_vfork
  have hs := (hrun.inv Gemos.oneProcess_initial).sound
  let areas : List VmArea := [⟨2 ^ 20, 2 ^ 20 + 8192, 3⟩]
  -- both processes have the list
  have hmap : (MemCall.map 0 8192 3 0).Yields (c₁.execContext .megabyte hs) (2 ^ 20)
      ⟨areas, ⟨s₁.machine, hs⟩⟩ := by
    rw [Context.execContext, hareas]
    exact VmAreaMap.first (P := Paging.ofMachine .megabyte c₁.pgd) ⟨s₁.machine, hs⟩
  have hvalid : (MemCall.map 0 8192 3 0).Valid := ⟨by decide, by decide⟩
  have horderly : Orderly (c₁.execContext .megabyte hs) (.map 0 8192 3 0) :=
    ⟨by decide, fun h => (h (by decide)).elim⟩
  have howns : s₁.OwnsList c₁ := fun q c' hq _ => (hpgd q c' hq).trans (hpgd 1 c₁ h1).symm
  let c₂ := c₁.setAreas areas
  let s₂ : Gemos := ⟨s₁.machine, Function.update s₁.ctx 1 (some c₂)⟩
  have hrun : GemosRun .megabyte noTable .oneProcess [.vfork 0 1, .memory 1 (.map 0 8192 3 0)] s₂ :=
    hrun.snoc (.memory h1 hrun1 hs hvalid horderly (fun _ => howns) hmap)
  -- the fault
  have h2 : s₂.ctx 1 = some c₂ := by simp [s₂]
  have hrun2 : c₂.waiting = false := hrun1
  let t : (Paging.ofMachine .megabyte c₂.pgd).Table :=
    (Paging.ofMachine .megabyte c₂.pgd).mapPhysicalPage ⟨s₁.machine, hs⟩ (2 ^ 20) 3 0
  have hfault : (MemCall.pagefault (2 ^ 20) 6).Yields (c₂.execContext .megabyte hs) 1
      ⟨areas, t⟩ := rfl
  have hlt : (MemCall.pagefault (2 ^ 20) 6).Valid := show 2 ^ 20 < 2 ^ 64 by decide
  let s₃ : Gemos := ⟨t.1, Function.update s₂.ctx 1 (some (c₂.setAreas areas))⟩
  have hrun : GemosRun .megabyte noTable .oneProcess
      [.vfork 0 1, .memory 1 (.map 0 8192 3 0), .memory 1 (.pagefault (2 ^ 20) 6)] s₃ :=
    hrun.snoc (.memory h2 hrun2 hs hlt trivial (fun h => h.elim) hfault)
  have hctx : s₃.ctx 0 = some c₀ := by simp [s₃, s₂, h0]
  refine ⟨s₃, c₀, hrun, hctx, hwaiting, ?_, hrun.one_runner Gemos.oneProcess_initial hctx⟩
  have hentry := (Paging.ofMachine .megabyte c₂.pgd).entry_mapPhysicalPage ⟨s₁.machine, hs⟩
    (2 ^ 20) 3 0 256
  rw [if_pos (by decide)] at hentry
  rw [show c₀.pgd = c₂.pgd from (hpgd 0 c₀ h0).trans (hpgd 1 c₁ h1).symm]
  exact ⟨_, hentry⟩

/-! ## Exits -/

/-- The state after an exit that leaves the memory alone. -/
def Gemos.exited (s : Gemos) (pid : Nat) (c : Context) : Gemos :=
  ⟨s.machine, Function.update (vforkExitHandle s.ctx c) pid none⟩

theorem Gemos.holders_exited (s : Gemos) (pid : Nat) (c : Context) :
    (s.exited pid c).holders = leave s.holders pid c.holder := by
  rw [exited, holders_update, holders_vforkExitHandle]
  rfl

/-- The process below the top of a stack is its parent and takes the areas back. -/
theorem Stacked.exited_ctx {stack : Nat → List Nat} (S : Stacked s.holders stack) {i j : Nat}
    {below : List Nat} {r : Context} (hi : s.ctx i = some r) (hstack : stack r.pgd = i :: j :: below) :
    (∃ cj, s.ctx j = some cj ∧ cj.pgd = r.pgd ∧ (s.exited i r).ctx j = some (cj.takeBack r)) ∧
      ∀ k, k ≠ i → k ≠ j → (s.exited i r).ctx k = s.ctx k := by
  obtain ⟨hlender, hne, l, hl, hres, -⟩ := S.leave_of_cons (holders_of_ctx hi) hstack
  obtain ⟨cj, hj, rfl⟩ := Option.map_eq_some_iff.1 hl
  have hppid : r.ppid = j := hlender
  have hexit : vforkExitHandle s.ctx r = Function.update s.ctx j (some (cj.takeBack r)) := by
    rw [vforkExitHandle, hppid, hj]
    exact if_pos hres
  refine ⟨⟨cj, hj, hres, ?_⟩, fun k hki hkj => ?_⟩
  · dsimp only [Gemos.exited]
    rw [Function.update_of_ne hne, hexit, Function.update_self]
  · dsimp only [Gemos.exited]
    rw [Function.update_of_ne hki, hexit, Function.update_of_ne hkj]

/-- When the processes above a waiting one exit, the top first, it gets the areas and the bound of
DATA that the top had. -/
theorem Stacked.exits {stack : Nat → List Nat} (S : Stacked s.holders stack)
    (hs : s.machine.Sound) {i p : Nat} {above below : List Nat} {r : Context}
    (hi : s.ctx i = some r) (hstack : stack r.pgd = i :: above ++ p :: below)
    (hp : s.ctx p = some c) : ∃ s', GemosRun H hasTable s ((i :: above).map .exit) s' ∧
      s'.machine = s.machine ∧ s'.ctx p = some (c.takeBack r) := by
  induction above generalizing s i r stack with
  | nil =>
    have hrun : r.waiting = false :=
      (S.active_iff (holders_of_ctx hi)).2 (congrArg List.head? hstack)
    obtain ⟨⟨cp, hcp, -, hexit⟩, -⟩ := S.exited_ctx hi hstack
    obtain rfl := Option.some.inj (hp.symm.trans hcp)
    exact ⟨s.exited i r, Trace.singleton_iff.2 (.exit hi hrun hs fun _ _ _ _ => rfl), rfl, hexit⟩
  | cons j above ih =>
    have hrun : r.waiting = false :=
      (S.active_iff (holders_of_ctx hi)).2 (congrArg List.head? hstack)
    have hnodup := S.nodup r.pgd
    rw [hstack] at hnodup
    have hpi : p ≠ i := by
      rintro rfl
      simp at hnodup
    have hpj : p ≠ j := by
      rintro rfl
      simp at hnodup
    obtain ⟨⟨cj, hj, hpgd, hexit⟩, hothers⟩ := S.exited_ctx hi hstack
    have S' := S.leave (holders_of_ctx hi) hstack
    rw [← s.holders_exited] at S'
    have hstack' : Function.update stack r.holder.resource (j :: (above ++ p :: below))
        (cj.takeBack r).pgd = j :: above ++ p :: below := by
      rw [show (cj.takeBack r).pgd = r.holder.resource from hpgd, Function.update_self]
      rfl
    obtain ⟨s', hexits, hmachine, hctx⟩ := ih S' hs hexit hstack' ((hothers p hpi hpj).trans hp)
    exact ⟨s', hexits.cons (.exit hi hrun hs fun _ _ _ _ => rfl), hmachine, hctx⟩

/-- No process waits for ever: in every state of a run the processes that have the page table of a
waiting one can exit one after another, the running one first, and then the waiting one may run,
with its own stack and the areas and the bound of DATA of the one that was running. -/
theorem GemosRun.waiting_resumes (h : GemosRun H hasTable s calls s') (h0 : s.Initial H)
    (hpid : s'.ctx pid = some c) (hwait : c.waiting = true) :
    ∃ runner r above s'', s'.Runs c.pgd runner r ∧
      GemosRun H hasTable s' ((runner :: above).map .exit) s'' ∧ s''.machine = s'.machine ∧
      s''.ctx pid = some (c.takeBack r) := by
  have I := h.inv h0
  obtain ⟨stack, S⟩ := I.stacked
  have hmem : pid ∈ stack c.pgd := S.mem_iff.2 ⟨_, holders_of_ctx hpid, rfl⟩
  obtain ⟨above, below, hstack⟩ := List.append_of_mem hmem
  cases above with
  | nil =>
    have hrun : c.waiting = false :=
      (S.active_iff (holders_of_ctx hpid)).2 (congrArg List.head? hstack)
    rw [hrun] at hwait
    cases hwait
  | cons runner above =>
    have htop : runner ∈ stack c.pgd := by simp [hstack]
    obtain ⟨hd, hrunner, hres⟩ := S.mem_iff.1 htop
    obtain ⟨r, hr, rfl⟩ := Option.map_eq_some_iff.1 hrunner
    have hpgd : r.pgd = c.pgd := hres
    have hrun : r.waiting = false :=
      (S.active_iff (holders_of_ctx hr)).2 (by rw [hres, hstack]; rfl)
    obtain ⟨s'', hexits, hmachine, hctx⟩ : ∃ s'', GemosRun H hasTable s' _ s'' ∧ _ :=
      S.exits I.sound hr (hpgd ▸ hstack) hpid
    exact ⟨runner, r, above, s'', ⟨hr, hpgd, hrun⟩, hexits, hmachine, hctx⟩

theorem GemosRun.waiting_resumes_of_vfork : ∃ (s' s'' : Gemos) (c r : Context) (runner : Nat)
    (above : List Nat), GemosRun .megabyte noTable .oneProcess [.vfork 0 1] s' ∧
      s'.ctx 0 = some c ∧ c.waiting = true ∧ s'.Runs c.pgd runner r ∧
      GemosRun .megabyte noTable s' ((runner :: above).map .exit) s'' ∧
      s''.ctx 0 = some (c.takeBack r) := by
  obtain ⟨s', c, c₁, hrun, hctx, hwaiting, -⟩ := Gemos.oneProcess_vfork
  obtain ⟨runner, r, above, s'', hruns, hexits, -, htake⟩ :=
    hrun.waiting_resumes Gemos.oneProcess_initial hctx hwaiting
  exact ⟨s', s'', c, r, runner, above, hrun, hctx, hwaiting, hruns, hexits, htake⟩

end CS330
