import CS330.Lib.StepLoops
import CS330.Lib.Trace
import CS330.Memory.Calls
import Mathlib.Logic.Function.Basic

/-! # Copy-on-write sharing in `cfork.c`

A machine holds the page tables of all processes, the reference counts of the frames and the
physical memory, which the kernel addresses directly: frame `pfn` starts at `pfn * 4096`. -/

namespace CS330

/-- `struct mm_segment`, as far as `cfork.c` reads it. -/
structure MmSegment where
  start : Nat
  nextFree : Nat
  segEnd : Nat
  accessFlags : BitVec 32
deriving DecidableEq, Repr

/-- The fields of `struct exec_context` that `cfork.c` reads, without the page table. -/
structure MmContext where
  code : MmSegment
  rodata : MmSegment
  data : MmSegment
  stack : MmSegment
  vmArea : List VmArea
deriving DecidableEq, Repr

/-- The constants `cfork.c` uses, and whether `install_ptable` makes the pages of a segment
writable. -/
structure ForkHeader extends Header where
  mmRd : BitVec 32
  mmWr : BitVec 32
  segWritable : MmSegment → Bool
  mmRd_read : mmRd &&& protWrite = 0
  mmWr_write : mmWr &&& protWrite ≠ 0

/-- The region of one megabyte, with the flags of `mmap`. -/
def ForkHeader.megabyte : ForkHeader where
  toHeader := .megabyte
  mmRd := 1
  mmWr := 2
  segWritable seg := seg.accessFlags &&& 2 ≠ 0
  mmRd_read := by decide
  mmWr_write := by decide

/-- One page or two in every segment, and one area. -/
def MmContext.small : MmContext where
  code := ⟨4096, 8192, 8192, 4⟩
  rodata := ⟨8192, 12288, 12288, 1⟩
  data := ⟨12288, 16384, 20480, 3⟩
  stack := ⟨28672, 32768, 36864, 3⟩
  vmArea := [⟨2 ^ 20, 2 ^ 20 + 8192, 3⟩]

/-- `entry pid page` is the present entry of a page in the table of a process, `free` are the frames
that the allocator hands out next, in this order. -/
structure Machine where
  entry : Nat → Nat → Option Pte
  refCount : Nat → Int
  mem : Nat → UInt8
  free : Nat → Nat

/-- A machine where process 0 has the given pages, in frames of their own. -/
def Machine.boot (pages : List Nat) : Machine where
  entry pid page := if pid = 0 ∧ page ∈ pages then some ⟨2 * page + 1, true⟩ else none
  refCount _ := 1
  mem a := UInt8.ofNat a
  free i := 2 * i + 2

namespace Machine

variable (m : Machine)

def setEntry (pid page : Nat) (pte : Option Pte) : Machine :=
  { m with entry := Function.update m.entry pid (Function.update (m.entry pid) page pte) }

def addRef (pfn : Nat) (d : Int) : Machine :=
  { m with refCount := Function.update m.refCount pfn (m.refCount pfn + d) }

/-- `memcpy(dst, src, 4096)`. -/
def memcpyPage (dst src : Nat) : Machine :=
  { m with mem := fun a => if dst ≤ a ∧ a < dst + 4096 then m.mem (src + (a - dst)) else m.mem a }

/-- Take the next frame, with one reference. -/
def allocFrame : Nat × Machine :=
  (m.free 0,
    { m with refCount := Function.update m.refCount (m.free 0) 1, free := fun i => m.free (i + 1) })

/-- Map the page of `vaddr` to the frame `upfn`, or to a new one if this is 0. -/
def install (pid vaddr : Nat) (writable : Bool) (upfn : Nat) : Nat × Machine :=
  if upfn = 0 then
    let (pfn, m) := m.allocFrame
    (pfn, m.setEntry pid (vaddr / 4096) (some ⟨pfn, writable⟩))
  else (upfn, m.setEntry pid (vaddr / 4096) (some ⟨upfn, writable⟩))

def mapPhysicalPage (H : ForkHeader) (pid vaddr : Nat) (prot : BitVec 32) (upfn : Nat) :
    Nat × Machine := m.install pid vaddr (prot &&& H.protWrite ≠ 0) upfn

def installPtable (H : ForkHeader) (pid : Nat) (seg : MmSegment) (vaddr upfn : Nat) :
    Nat × Machine := m.install pid vaddr (H.segWritable seg) upfn

end Machine

/-! ## `cfork_copy_mm` -/

section
variable (H : ForkHeader) (child parent : Nat)

/-- The body of the loops over CODE and RODATA. -/
def shareVisit (seg : MmSegment) (vaddr : Nat) (m : Machine) : Machine :=
  match m.entry parent (vaddr / 4096) with
  | none => m
  | some pte => (m.installPtable H child seg vaddr pte.pfn).2

/-- The body of the loops over DATA and the areas: the page loses its write permission in the
parent before the child gets the frame. -/
def cowVisit (vaddr : Nat) (m : Machine) : Machine :=
  match m.entry parent (vaddr / 4096) with
  | none => m
  | some pte =>
    let m := m.setEntry parent (vaddr / 4096) (some { pte with writable := false })
    let (pfn, m) := m.mapPhysicalPage H child vaddr H.mmRd pte.pfn
    m.addRef pfn 1

/-- The body of the loop over STACK. -/
def stackVisit (seg : MmSegment) (vaddr : Nat) (m : Machine) : Machine :=
  match m.entry parent (vaddr / 4096) with
  | none => m
  | some pte =>
    let (pfn, m) := m.installPtable H child seg vaddr 0
    m.memcpyPage (pfn * 4096) (pte.pfn * 4096)

/-- The loop over the areas. -/
inductive CopyAreas : List VmArea → Machine → Machine → Prop where
  | nil : CopyAreas [] m m
  | cons {vm : VmArea} {m m' m'' : Machine}
    (h : Returns (upLoop vm.vmEnd 4096 (cowVisit H child parent)) (vm.vmStart, m) m')
    (hrest : CopyAreas vms m' m'') : CopyAreas (vm :: vms) m m''

/-- `cfork_copy_mm` terminates: the new page table starts empty and the five loops fill it. -/
inductive CforkCopyMm (ctx : MmContext) (m m' : Machine) : Prop where
  | mk (hcode : Returns (upLoop ctx.code.nextFree 4096 (shareVisit H child parent ctx.code))
      (ctx.code.start, { m with entry := Function.update m.entry child fun _ => none }) m₁)
    (hrodata : Returns (upLoop ctx.rodata.nextFree 4096 (shareVisit H child parent ctx.rodata))
      (ctx.rodata.start, m₁) m₂)
    (hdata : Returns (upLoop ctx.data.nextFree 4096 (cowVisit H child parent))
      (ctx.data.start, m₂) m₃)
    (hstack : Returns (downLoop ctx.stack.nextFree 4096 (stackVisit H child parent ctx.stack))
      (u64 (ctx.stack.segEnd - 4096), m₃) m₄)
    (hareas : CopyAreas H child parent ctx.vmArea m₄ m') : CforkCopyMm ctx m m'

end

/-! ## Faults -/

/-- The part of `handle_cow_fault` behind its checks, which stands there twice. The bytes are copied
to the address `pfn`. -/
def cowPage (H : ForkHeader) (m : Machine) (pid cr2 : Nat) : Int × Machine :=
  match m.entry pid (cr2 / 4096) with
  | none => (-1, m)
  | some pte =>
    let pfn := pte.pfn
    if m.refCount pfn > 1 then
      let m := (m.addRef pfn (-1)).memcpyPage pfn (pte.pfn * 4096)
      (1, (m.mapPhysicalPage H pid cr2 H.mmWr 0).2)
    else
      let m := m.memcpyPage pfn (pte.pfn * 4096)
      (1, (m.mapPhysicalPage H pid cr2 H.mmWr pfn).2)

def handleCowFault (H : ForkHeader) (ctx : MmContext) (m : Machine) (pid cr2 : Nat) :
    Int × Machine :=
  let cr2 := if cr2 % 4096 ≠ 0 then cr2 - cr2 % 4096 else cr2
  if cr2 ≥ H.mmapAreaStart ∧ cr2 < H.mmapAreaEnd then
    match ctx.vmArea.find? fun curVm => cr2 ≥ curVm.vmStart ∧ cr2 < curVm.vmEnd with
    | some curVm => if curVm.accessFlags &&& H.protWrite = 0 then (-1, m) else cowPage H m pid cr2
    | none => cowPage H m pid cr2
  else if cr2 ≥ ctx.data.start ∧ cr2 < ctx.data.segEnd then
    if ctx.data.accessFlags &&& H.mmWr ≠ 0 then cowPage H m pid cr2 else (-1, m)
  else (1, m)

/-- The permission `vm_area_pagefault` maps the page with; none if the access is invalid. -/
def pagefaultProt (H : Header) (vms : List VmArea) (addr : Nat) (errorCode : Int) :
    Option (BitVec 32) :=
  match vms.find? fun curVm => addr ≥ curVm.vmStart ∧ addr < curVm.vmEnd with
  | none => none
  | some curVm =>
    if errorCode = 6 ∧ curVm.accessFlags &&& H.protWrite ≠ 0 ∨ errorCode = 4 then
      some (if curVm.accessFlags &&& H.protWrite ≠ 0 then H.protWrite ||| H.protRead else H.protRead)
    else none

theorem vmAreaPagefault_eq {H : Header} {P : Paging H} (c : ExecContext P) (addr : Nat)
    (errorCode : Int) : vmAreaPagefault c addr errorCode =
      match pagefaultProt H c.vmArea addr errorCode with
      | none => (-1, c)
      | some prot => (1, { c with pgd := P.mapPhysicalPage c.pgd addr prot 0 }) := by
  unfold vmAreaPagefault pagefaultProt
  cases c.vmArea.find? _ with
  | none => rfl
  | some curVm =>
    dsimp only
    split <;> rfl

/-- `vm_area_pagefault` on the page table of a process of the machine. -/
def Machine.vmAreaPagefault (H : ForkHeader) (ctx : MmContext) (m : Machine) (pid addr : Nat)
    (errorCode : Int) : Int × Machine :=
  match pagefaultProt H.toHeader ctx.vmArea addr errorCode with
  | none => (-1, m)
  | some prot => (1, (m.mapPhysicalPage H pid addr prot 0).2)

end CS330
