import CS330.Lib.Procedure
import CS330.Memory.Pages

/-! # The memory calls of `mmap.c`

`vm_area_map`, `vm_area_unmap`, `vm_area_mprotect` and `vm_area_pagefault`. The list walks are
structural recursions. The search loop of `vm_area_map` and the self-calls, all tail calls, are
activations of a procedure (`Outcome`), so a call that loops forever has no result. -/

namespace CS330

variable {H : Header} (P : Paging H)

/-! ## `vm_area_map` -/

/-- Where a call of `vm_area_map` stands: at the entry of the function, or in the search loop
with the areas it has passed, `cur_vm` and the areas after it. -/
inductive MapPoint where
  | entry (addr : Nat) (length : Int)
  | search (passed : List VmArea) (curVm : VmArea) (rest : List VmArea) (length : Int)

variable {P} in
/-- Lines 592-598: populate the returned range if the flags ask for it. -/
def mapReturn (c : ExecContext P) (prot flags : BitVec 32) (length : Int) (vms : List VmArea)
    (retAddr : Nat) : Int × ExecContext P :=
  (int64 retAddr,
    { vmArea := vms
      pgd :=
        if int64 retAddr ≠ -1 ∧ flags &&& H.mapPopulate ≠ 0 then P.map c.pgd retAddr prot length
        else c.pgd })

variable {P} in
/-- A branch that allocates an area gives up when the list is full. -/
def mapReturnNew (c : ExecContext P) (prot flags : BitVec 32) (length : Int) (vms : List VmArea)
    (retAddr : Nat) : Int × ExecContext P :=
  if c.vmArea.length ≥ 128 then (-1, c) else mapReturn c prot flags length vms retAddr

variable {P} in
/-- Lines 388-502: no hint address. -/
def mapNoHint (c : ExecContext P) (prot flags : BitVec 32) (length : Int) :
    Outcome MapPoint (Int × ExecContext P) :=
  match c.vmArea with
  | [] =>
    if u64 (H.mmapAreaStart + length) ≤ H.mmapAreaEnd then
      .ret (mapReturnNew c prot flags length
        [⟨H.mmapAreaStart, u64 (H.mmapAreaStart + length), prot⟩] H.mmapAreaStart)
    else .ret (-1, c)
  | curVm :: rest =>
    if curVm.vmStart > H.mmapAreaStart ∧ u64 (H.mmapAreaStart + length) ≤ curVm.vmStart then
      if prot = curVm.accessFlags ∧ u64 (H.mmapAreaStart + length) = curVm.vmStart then
        .ret (mapReturn c prot flags length
          ({ curVm with vmStart := H.mmapAreaStart } :: rest) H.mmapAreaStart)
      else
        .ret (mapReturnNew c prot flags length
          (⟨H.mmapAreaStart, u64 (H.mmapAreaStart + length), prot⟩ :: curVm :: rest)
          H.mmapAreaStart)
    else .call (.search [] curVm rest length)

variable {P} in
/-- Lines 428-499: one iteration of the search loop. -/
def mapSearch (c : ExecContext P) (prot flags : BitVec 32) (passed : List VmArea)
    (curVm : VmArea) (rest : List VmArea) (length : Int) :
    Outcome MapPoint (Int × ExecContext P) :=
  match rest with
  | [] =>
    if u64 (curVm.vmEnd + length) ≤ H.mmapAreaEnd then
      if prot = curVm.accessFlags then
        .ret (mapReturn c prot flags length
          (passed ++ [{ curVm with vmEnd := u64 (curVm.vmEnd + length) }]) curVm.vmEnd)
      else
        .ret (mapReturnNew c prot flags length
          (passed ++ [curVm, ⟨curVm.vmEnd, u64 (curVm.vmEnd + length), prot⟩]) curVm.vmEnd)
    -- without room the body neither moves the cursor nor breaks
    else .call (.search passed curVm [] length)
  | nextVm :: rest =>
    if u64 (curVm.vmEnd + length) ≤ nextVm.vmStart then
      if u64 (curVm.vmEnd + length) = nextVm.vmStart ∧ curVm.accessFlags = prot ∧
          nextVm.accessFlags = prot then
        -- line 460 returns the end of the new range
        .ret (mapReturn c prot flags length
          (passed ++ { curVm with vmEnd := nextVm.vmEnd } :: rest) (u64 (curVm.vmEnd + length)))
      else if curVm.accessFlags = prot then
        .ret (mapReturn c prot flags length
          (passed ++ { curVm with vmEnd := u64 (curVm.vmEnd + length) } :: nextVm :: rest)
          curVm.vmEnd)
      else if u64 (curVm.vmEnd + length) = nextVm.vmStart ∧ nextVm.accessFlags = prot then
        .ret (mapReturn c prot flags length
          (passed ++ curVm :: { nextVm with vmStart := curVm.vmEnd } :: rest) curVm.vmEnd)
      else
        .ret (mapReturnNew c prot flags length
          (passed ++ curVm :: ⟨curVm.vmEnd, u64 (curVm.vmEnd + length), prot⟩ :: nextVm :: rest)
          curVm.vmEnd)
    else .call (.search (passed ++ [curVm]) nextVm rest length)

variable {P} in
/-- Lines 555-587: the hint range is free between `prev_vm` and `cur_vm`. -/
def mapBetween (c : ExecContext P) (prot flags : BitVec 32) (before : List VmArea)
    (prevVm curVm : VmArea) (rest : List VmArea) (addr : Nat) (length : Int) :
    Int × ExecContext P :=
  if addr = prevVm.vmEnd ∧ u64 (addr + length) = curVm.vmStart ∧ prot = prevVm.accessFlags ∧
      prot = curVm.accessFlags then
    mapReturn c prot flags length (before ++ { prevVm with vmEnd := curVm.vmEnd } :: rest) addr
  else if addr = prevVm.vmEnd ∧ prot = prevVm.accessFlags then
    mapReturn c prot flags length
      (before ++ { prevVm with vmEnd := u64 (addr + length) } :: curVm :: rest) addr
  else if u64 (addr + length) = curVm.vmStart ∧ prot = curVm.accessFlags then
    mapReturn c prot flags length
      (before ++ prevVm :: { curVm with vmStart := addr } :: rest) addr
  else
    mapReturnNew c prot flags length
      (before ++ prevVm :: ⟨addr, u64 (addr + length), prot⟩ :: curVm :: rest) addr

variable {P} in
/-- Lines 505-590: a hint address. The walk to the first area that ends after `addr` splits the
list; `prev_vm` is the last area passed. -/
def mapHint (c : ExecContext P) (prot flags : BitVec 32) (addr : Nat) (length : Int) :
    Outcome MapPoint (Int × ExecContext P) :=
  if addr < H.mmapAreaStart ∨ addr > H.mmapAreaEnd then .ret (-1, c)
  else if u64 (addr + length) > H.mmapAreaEnd then
    if flags = H.mapFixed then .ret (-1, c) else .call (.entry 0 length)
  else if c.vmArea.head?.all (u64 (addr + length) ≤ ·.vmStart) then
    .ret (mapReturnNew c prot flags length (⟨addr, u64 (addr + length), prot⟩ :: c.vmArea) addr)
  else
    let before := c.vmArea.takeWhile (·.vmEnd ≤ addr)
    match c.vmArea.dropWhile (·.vmEnd ≤ addr) with
    | [] =>
      .ret (mapReturnNew c prot flags length
        (c.vmArea ++ [⟨addr, u64 (addr + length), prot⟩]) addr)
    | curVm :: rest =>
      if addr ≥ curVm.vmStart ∧ addr < curVm.vmEnd ∨
          addr < curVm.vmStart ∧ u64 (addr + length) > curVm.vmStart then
        if flags &&& H.mapFixed ≠ 0 then .ret (-1, c)
        else if u64 (curVm.vmEnd + addr) ≤ H.mmapAreaEnd then .call (.entry curVm.vmEnd length)
        else .call (.entry 0 length)
      else if addr < curVm.vmStart ∧ u64 (addr + length) ≤ curVm.vmStart then
        match before.getLast? with
        | some prevVm =>
          .ret (mapBetween c prot flags before.dropLast prevVm curVm rest addr length)
        | none => .stuck -- `prev_vm` is NULL
      else .ret (-1, c)

/-- One activation of `vm_area_map`, or one iteration of its search loop. -/
def mapBody (c : ExecContext P) (prot flags : BitVec 32) :
    MapPoint → Outcome MapPoint (Int × ExecContext P)
  | .entry addr length =>
    if c.vmArea.length > 128 then .ret (-1, c)
    else if addr = 0 then mapNoHint c prot flags (roundUp length)
    else mapHint c prot flags addr (roundUp length)
  | .search passed curVm rest length => mapSearch c prot flags passed curVm rest length

variable {P}

/-- `vm_area_map(current, addr, length, prot, flags)` returns `r` and leaves the context `c'`. -/
def VmAreaMap (c : ExecContext P) (addr : Nat) (length : Int) (prot flags : BitVec 32)
    (r : Int) (c' : ExecContext P) : Prop :=
  Returns (mapBody P c prot flags) (.entry addr length) (r, c')

/-! ## `vm_area_unmap` -/

/-- The loop of `vm_area_unmap`, with the number of areas counted before it: the result is
whether the loop ran to its end (an early exit returns -1), and the list as edited. -/
def unmapLoop (vmCount : Nat) : (curAddr : Nat) → (length : Int) → List VmArea →
    Bool × List VmArea
  | _, _, [] => (true, [])
  | curAddr, length, curVm :: rest =>
    if length ≤ 0 then (true, curVm :: rest)
    else if curAddr > curVm.vmStart ∧ curAddr < curVm.vmEnd then
      if u64 (curAddr + length) < curVm.vmEnd then
        if vmCount ≥ 128 then (false, curVm :: rest)
        else
          (true, { curVm with vmEnd := curAddr } ::
            ⟨u64 (curAddr + length), curVm.vmEnd, curVm.accessFlags⟩ :: rest)
      else
        -- `vm_end` is overwritten before it is read back, so `length` does not change
        let curVm := { curVm with vmEnd := curAddr }
        let (done, rest) :=
          unmapLoop vmCount curVm.vmEnd (int32 (length - (curVm.vmEnd - curAddr))) rest
        (done, curVm :: rest)
    else if curAddr ≤ curVm.vmStart ∧ u64 (curAddr + length) < curVm.vmEnd then
      (true, { curVm with vmStart := u64 (curAddr + length) } :: rest)
    else if curAddr ≤ curVm.vmStart ∧ u64 (curAddr + length) ≥ curVm.vmEnd then
      match rest.head? with
      | none => (true, rest)
      | some nextVm =>
        unmapLoop vmCount nextVm.vmStart (int32 (length - (nextVm.vmStart - curAddr))) rest
    else
      let (done, rest) := unmapLoop vmCount curAddr length rest
      (done, curVm :: rest)

/-- `vm_area_unmap(current, addr, length)`. -/
def vmAreaUnmap (c : ExecContext P) (addr : Nat) (length : Int) : Int × ExecContext P :=
  let length := roundUp length
  let vmCount := c.vmArea.length
  if vmCount > 128 then (-1, c)
  else
    match unmapLoop vmCount addr length c.vmArea with
    | (false, vms) => (-1, { c with vmArea := vms })
    | (true, vms) => (0, { vmArea := vms, pgd := P.unmap c.pgd addr length })

/-! ## `vm_area_mprotect` -/

/-- Lines 141-156: is the range covered without a hole? The loop runs before `length` is rounded
up. After `temp_addr = vm_end` the same area fails the test, so the walk goes on. -/
def protectScan : (tempAddr : Nat) → (tempLength : Int) → List VmArea → Bool
  | _, _, [] => false
  | tempAddr, tempLength, curVm :: rest =>
    if tempAddr ≥ curVm.vmStart ∧ tempAddr < curVm.vmEnd then
      if u64 (tempAddr + tempLength) ≤ curVm.vmEnd then true
      else
        let temp1 := int32 tempAddr
        protectScan curVm.vmEnd (int32 (tempLength - (curVm.vmEnd - temp1))) rest
    else protectScan tempAddr tempLength rest

/-- The arguments of an activation of `vm_area_mprotect`; `prot` never changes. -/
structure ProtectArgs (P : Paging H) where
  current : ExecContext P
  addr : Nat
  length : Int

/-- `prev_vm`, when it ends where `cur_vm` starts and has the requested flags. -/
def joinPrev (before : List VmArea) (curVm : VmArea) (prot : BitVec 32) : Option VmArea :=
  before.getLast?.filter fun prevVm =>
    prevVm.vmEnd = curVm.vmStart ∧ prevVm.accessFlags = prot

/-- `cur_vm->vm_next`, when it starts where `cur_vm` ends and has the requested flags. -/
def joinNext (curVm : VmArea) (rest : List VmArea) (prot : BitVec 32) : Option VmArea :=
  rest.head?.filter fun nextVm => curVm.vmEnd = nextVm.vmStart ∧ nextVm.accessFlags = prot

/-- Lines 360-362: the end of a successful call. -/
def protectReturn (c : ExecContext P) (prot : BitVec 32) (addr : Nat) (oldLength : Int)
    (vms : List VmArea) : Outcome (ProtectArgs P) (Int × ExecContext P) :=
  .ret (0, { vmArea := vms, pgd := P.updateMap c.pgd addr prot oldLength })

/-- The self-call on the part of the range after `cur_vm`. -/
def protectRest (c : ExecContext P) (curEnd addr : Nat) (length : Int) (vms : List VmArea) :
    Outcome (ProtectArgs P) (Int × ExecContext P) :=
  .call ⟨{ c with vmArea := vms }, curEnd, int32 (length - (curEnd - addr))⟩

/-- Lines 199-275: the range starts inside `cur_vm`. -/
def protectInside (c : ExecContext P) (prot : BitVec 32) (before : List VmArea)
    (curVm : VmArea) (rest : List VmArea) (addr : Nat) (length : Int) :
    Outcome (ProtectArgs P) (Int × ExecContext P) :=
  let vmCount := c.vmArea.length
  let addrEnd := u64 (addr + length)
  if curVm.accessFlags = prot ∧ addrEnd ≤ curVm.vmEnd then
    protectReturn c prot addr length c.vmArea
  else if addrEnd < curVm.vmEnd then
    if vmCount ≥ 127 then .ret (-1, c)
    else
      protectReturn c prot addr length
        (before ++ { curVm with vmEnd := addr } :: ⟨addr, addrEnd, prot⟩ ::
          ⟨addrEnd, curVm.vmEnd, curVm.accessFlags⟩ :: rest)
  else if addrEnd = curVm.vmEnd then
    match joinNext curVm rest prot with
    | none =>
      if vmCount ≥ 128 then .ret (-1, c)
      else
        protectReturn c prot addr length
          (before ++ { curVm with vmEnd := addr } :: ⟨addr, addrEnd, prot⟩ :: rest)
    | some nextVm =>
      protectReturn c prot addr length
        (before ++ { curVm with vmEnd := addr } :: { nextVm with vmStart := addr } :: rest.tail)
  else if rest = [] then .ret (-1, c)
  else if curVm.accessFlags = prot then protectRest c curVm.vmEnd addr length c.vmArea
  else if vmCount ≥ 128 then .ret (-1, c)
  else
    protectRest c curVm.vmEnd addr length
      (before ++ { curVm with vmEnd := addr } :: ⟨addr, curVm.vmEnd, prot⟩ :: rest)

/-- Lines 277-358: the range starts where `cur_vm` starts. At line 311 the freed `cur_vm` is
still read. -/
def protectFront (c : ExecContext P) (prot : BitVec 32) (before : List VmArea)
    (curVm : VmArea) (rest : List VmArea) (addr : Nat) (length : Int) :
    Outcome (ProtectArgs P) (Int × ExecContext P) :=
  let vmCount := c.vmArea.length
  let addrEnd := u64 (addr + length)
  if addrEnd < curVm.vmEnd then
    if curVm.accessFlags = prot then protectReturn c prot addr length c.vmArea
    else
      match joinPrev before curVm prot with
      | some prevVm =>
        protectReturn c prot addr length
          (before.dropLast ++ { prevVm with vmEnd := addrEnd } ::
            { curVm with vmStart := addrEnd } :: rest)
      | none =>
        if vmCount ≥ 128 then .ret (-1, c)
        else
          protectReturn c prot addr length
            (before ++ ⟨addr, addrEnd, prot⟩ :: { curVm with vmStart := addrEnd } :: rest)
  else if addrEnd = curVm.vmEnd then
    match joinPrev before curVm prot, joinNext curVm rest prot with
    | some prevVm, some nextVm =>
      protectReturn c prot addr length
        (before.dropLast ++ { prevVm with vmEnd := nextVm.vmEnd } :: rest.tail)
    | some prevVm, none =>
      protectReturn c prot addr length
        (before.dropLast ++ { prevVm with vmEnd := curVm.vmEnd } :: rest)
    | none, some nextVm =>
      protectReturn c prot addr length
        (before ++ { curVm with vmEnd := nextVm.vmEnd, accessFlags := prot } :: rest.tail)
    | none, none =>
      protectReturn c prot addr length (before ++ { curVm with accessFlags := prot } :: rest)
  else if rest = [] then .ret (-1, c)
  else
    match joinPrev before curVm prot with
    | some prevVm =>
      protectRest c curVm.vmEnd addr length
        (before.dropLast ++ { prevVm with vmEnd := curVm.vmEnd } :: rest)
    | none =>
      -- lines 345-353: storing the flags changes nothing when they are already `prot`
      protectRest c curVm.vmEnd addr length (before ++ { curVm with accessFlags := prot } :: rest)

/-- One activation of `vm_area_mprotect`. -/
def protectBody (prot : BitVec 32) (args : ProtectArgs P) :
    Outcome (ProtectArgs P) (Int × ExecContext P) :=
  let ⟨c, addr, length⟩ := args
  if ¬protectScan addr length c.vmArea then .ret (-1, c)
  else
    let length := roundUp length
    if c.vmArea.length > 128 then .ret (-1, c)
    else if addr < H.mmapAreaStart ∨ u64 (addr + length) > H.mmapAreaEnd then .ret (-1, c)
    else
      let before := c.vmArea.takeWhile (·.vmEnd ≤ addr)
      match c.vmArea.dropWhile (·.vmEnd ≤ addr) with
      | [] => .ret (-1, c)
      | curVm :: rest =>
        if addr < curVm.vmStart then .ret (-1, c)
        else if addr > curVm.vmStart then protectInside c prot before curVm rest addr length
        else protectFront c prot before curVm rest addr length

/-- `vm_area_mprotect(current, addr, length, prot)` returns `r` and leaves the context `c'`. -/
def VmAreaMprotect (c : ExecContext P) (addr : Nat) (length : Int) (prot : BitVec 32)
    (r : Int) (c' : ExecContext P) : Prop :=
  Returns (protectBody prot) ⟨c, addr, length⟩ (r, c')

/-! ## `vm_area_pagefault` -/

/-- `vm_area_pagefault(current, addr, error_code)`: 6 is a write, 4 a read fault. -/
def vmAreaPagefault (c : ExecContext P) (addr : Nat) (errorCode : Int) : Int × ExecContext P :=
  match c.vmArea.find? fun curVm => addr ≥ curVm.vmStart ∧ addr < curVm.vmEnd with
  | none => (-1, c)
  | some curVm =>
    if errorCode = 6 ∧ curVm.accessFlags &&& H.protWrite ≠ 0 ∨ errorCode = 4 then
      let prot :=
        if curVm.accessFlags &&& H.protWrite ≠ 0 then H.protWrite ||| H.protRead else H.protRead
      (1, { c with pgd := P.mapPhysicalPage c.pgd addr prot 0 })
    else (-1, c)

end CS330
