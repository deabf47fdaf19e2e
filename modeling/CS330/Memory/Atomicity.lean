import CS330.Memory.Runs

/-! # Failed calls leave no trace

A call that returns -1 has changed nothing, with one exception. `vm_area_mprotect` looks for holes
before it rounds the length up: a self-call can then find the rounded range uncovered after the
first area was edited. -/

namespace CS330

variable {H : Header} {P : Paging H} {c c' : ExecContext P} {addr : Nat} {length r : Int}
  {prot flags : BitVec 32} {vms : List VmArea}

/-- The same areas and the same present page-table entries. -/
def Unchanged (c c' : ExecContext P) : Prop :=
  c'.vmArea = c.vmArea ∧ ∀ page, P.entry c'.pgd page = P.entry c.pgd page

theorem Unchanged.refl (c : ExecContext P) : Unchanged c c := ⟨rfl, fun _ => rfl⟩

/-- The first activation gets past its checks and leaves part of the range to the self-calls, the
self-calls do not reach the end of the range, and the first activation or the second has edited
the list by then. -/
def ProtectTears (H : Header) (vms : List VmArea) (addr : Nat) (length : Int)
    (prot : BitVec 32) : Prop :=
  ∃ before cur rest, Enters H vms prot addr length (addr + byteLength length) before cur rest ∧
    cur.vmEnd < addr + byteLength length ∧ rest ≠ [] ∧
    (∀ a e, ¬Reaches rest cur.vmEnd (addr + byteLength length - cur.vmEnd : Nat) a e) ∧
    (Keeps before cur prot addr →
      Advances H rest cur.vmEnd (addr + byteLength length - cur.vmEnd : Nat))

/-- The calls that fail after an edit. -/
def MemCall.Tears (H : Header) (vms : List VmArea) : MemCall → Prop
  | .mprotect addr length prot => ProtectTears H vms addr length prot
  | _ => False

theorem VmAreaMap.unchanged (h : VmAreaMap c addr length prot flags r c')
    (hs : Sorted 0 c.vmArea H.mmapAreaEnd) (hv : ValidLength length) (hr : r = -1) :
    Unchanged c c' := by
  have hend := H.end_lt
  have O := h.outcome hs (Nat.zero_le _) hv
  have returned {a vms} (ha : a ≤ H.mmapAreaEnd) {len : Int}
      (hret : (r, c') = mapReturn c prot flags len vms a) : False := by
    have := (Prod.mk.inj hret).1
    rw [int64_eq (by omega) (by omega)] at this
    omega
  generalize hres : (r, c') = res at O
  cases O with
  | refused =>
    rw [(Prod.mk.inj hres).2]
    exact .refl c
  | placed _ hi =>
    have := hi.bounds.2
    exact (returned (by omega) hres).elim
  | filled _ hi => exact (returned hi.bounds.2 hres).elim

theorem vmAreaUnmap_unchanged (h : vmAreaUnmap c addr length = (r, c'))
    (hs : Sorted 0 c.vmArea H.mmapAreaEnd) (hr : r = -1) : Unchanged c c' := by
  rw [vmAreaUnmap] at h
  split at h
  next => exact (Prod.mk.inj h).2 ▸ .refl c
  next =>
    split at h
    next heq =>
      obtain ⟨-, rfl⟩ := Prod.mk.inj h
      have := unmapLoop_exit hs (congrArg Prod.fst heq)
      rw [heq] at this
      exact ⟨this, fun _ => rfl⟩
    next =>
      have := (Prod.mk.inj h).1
      omega

theorem VmAreaMprotect.unchanged_iff (h : VmAreaMprotect c addr length prot r c')
    (I : ProtectInv 0 c length) :
    (r = -1 → Unchanged c c') ↔ ¬ProtectTears H c.vmArea addr length prot := by
  have O := h.outcome I
  generalize hres : (r, c') = res at O
  cases O with
  | refused hno =>
    obtain ⟨rfl, rfl⟩ := Prod.mk.inj hres
    refine iff_of_true (fun _ => .refl _) fun ⟨before, cur, rest, E, _, hrest, _⟩ => ?_
    exact hrest (hno _ _ _ E).2
  | last E hle =>
    obtain ⟨rfl, rfl⟩ := Prod.mk.inj hres
    refine iff_of_true (by omega) fun ⟨before, cur, rest, E', hlt, _⟩ => ?_
    obtain ⟨rfl, rfl, rfl⟩ := E.toAreaAt.unique E'.toAreaAt I.sorted
    exact absurd hlt hle.not_gt
  | more E _ hr =>
    obtain ⟨rfl, rfl⟩ := Prod.mk.inj hres
    refine iff_of_true (by omega) fun ⟨before, cur, rest, E', _, _, hno, _⟩ => ?_
    obtain ⟨rfl, rfl, rfl⟩ := E.toAreaAt.unique E'.toAreaAt I.sorted
    exact hno _ _ hr
  | @failed before rest vms cur E hlt hrest hno hsame =>
    obtain ⟨rfl, rfl⟩ := Prod.mk.inj hres
    constructor
    · rintro hun ⟨_, _, _, E', _, _, _, hedit⟩
      obtain ⟨rfl, rfl, rfl⟩ := E.toAreaAt.unique E'.toAreaAt I.sorted
      obtain ⟨hkeep, hadv⟩ := hsame.mp (hun rfl).1
      exact hadv (hedit hkeep)
    · intro htear _
      refine ⟨hsame.mpr (by_contra fun hedit => htear ?_), fun _ => rfl⟩
      exact ⟨_, _, _, E, hlt, hrest, hno, fun hkeep => by_contra fun hadv => hedit ⟨hkeep, hadv⟩⟩

theorem vmAreaPagefault_unchanged {errorCode : Int}
    (h : vmAreaPagefault c addr errorCode = (r, c')) (hr : r = -1) : Unchanged c c' := by
  unfold vmAreaPagefault at h
  split at h
  next => exact (Prod.mk.inj h).2 ▸ .refl c
  next =>
    split at h
    next =>
      have := (Prod.mk.inj h).1
      omega
    next => exact (Prod.mk.inj h).2 ▸ .refl c

/-- In every reachable state a failed call has changed nothing, unless it tears. -/
theorem MemRun.failed_call_unchanged_iff {c₀ : ExecContext P} {calls : List MemCall}
    {call : MemCall} (h0 : c₀.vmArea = []) (run : MemRun (fun _ _ => True) c₀ calls c)
    (hv : call.Valid) (h : call.Yields c r c') :
    (r = -1 → Unchanged c c') ↔ ¬call.Tears H c.vmArea := by
  have I := run.areasInv h0
  cases call with
  | map => exact iff_of_true (VmAreaMap.unchanged h I.sorted hv.2) id
  | unmap => exact iff_of_true (vmAreaUnmap_unchanged h I.sorted) id
  | mprotect => exact VmAreaMprotect.unchanged_iff h ⟨I.sorted, I.count, hv.2⟩
  | pagefault => exact iff_of_true (vmAreaPagefault_unchanged h) id

/-- Two touching areas with different flags. -/
def twoAreas : ExecContext (Paging.counting .megabyte) :=
  ⟨[⟨2 ^ 20, 2 ^ 20 + 8192, 1⟩, ⟨2 ^ 20 + 8192, 2 ^ 20 + 12288, 3⟩], CountingTable.empty⟩

theorem twoAreas_run : MemRun (fun _ call => call.EditsAreas) .fresh
    [.map 0 8192 1 0, .map 0 4096 3 0] twoAreas := by
  have first : VmAreaMap .fresh 0 8192 1 0 (2 ^ 20)
      ⟨[⟨2 ^ 20, 2 ^ 20 + 8192, 1⟩], CountingTable.empty⟩ := by
    refine Returns.of_run (n := 1) ?_
    simp [run, mapBody, mapNoHint, ExecContext.fresh, Header.megabyte, roundUp, u64, mapReturnNew,
      mapReturn, int64]
  have second : VmAreaMap (⟨[⟨2 ^ 20, 2 ^ 20 + 8192, 1⟩], CountingTable.empty⟩ : ExecContext
      (Paging.counting .megabyte)) 0 4096 3 0 (2 ^ 20 + 8192) twoAreas := by
    refine Returns.of_run (n := 2) ?_
    simp [run, mapBody, mapNoHint, mapSearch, twoAreas, Header.megabyte, roundUp, u64,
      mapReturnNew, mapReturn, int64]
  exact .cons ⟨⟨by decide, by decide⟩, trivial, _, first⟩
    (.cons ⟨⟨by decide, by decide⟩, trivial, _, second⟩ .nil)

/-- The range starts in the middle of a page and ends with the second area; rounded up it ends
behind it. -/
theorem twoAreas_torn : VmAreaMprotect twoAreas (2 ^ 20 + 2048) 10240 3 (-1)
    ⟨[⟨2 ^ 20, 2 ^ 20 + 2048, 1⟩, ⟨2 ^ 20 + 2048, 2 ^ 20 + 8192, 3⟩,
      ⟨2 ^ 20 + 8192, 2 ^ 20 + 12288, 3⟩], CountingTable.empty⟩ := by
  refine Returns.of_run (n := 2) ?_
  simp [run, protectBody, protectScan, protectInside, protectRest, twoAreas, Header.megabyte,
    roundUp, u64, int32]

theorem MemRun.failed_call_unchanged_iff_of_twoAreas : ((-1 : Int) = -1 → Unchanged twoAreas
      ⟨[⟨2 ^ 20, 2 ^ 20 + 2048, 1⟩, ⟨2 ^ 20 + 2048, 2 ^ 20 + 8192, 3⟩,
        ⟨2 ^ 20 + 8192, 2 ^ 20 + 12288, 3⟩], CountingTable.empty⟩) ↔
    ¬(MemCall.mprotect (2 ^ 20 + 2048) 10240 3).Tears .megabyte twoAreas.vmArea :=
  MemRun.failed_call_unchanged_iff rfl (twoAreas_run.mono fun h => ⟨h.1, trivial, h.2.2⟩)
    (show (MemCall.mprotect _ _ _).Valid from ⟨by decide, by decide⟩) twoAreas_torn

/-- A failed call of `vm_area_mprotect` may have split an area. -/
theorem not_failed_call_unchanged : ¬∀ {H : Header} {P : Paging H} {c₀ c c' : ExecContext P}
    {calls : List MemCall} {call : MemCall} {r : Int}, c₀.vmArea = [] →
    MemRun (fun _ call => call.EditsAreas) c₀ calls c → call.EditsAreas → call.Valid →
    call.Yields c r c' → r = -1 → Unchanged c c' := by
  intro h
  have hcall : (MemCall.mprotect (2 ^ 20 + 2048) 10240 3).EditsAreas := trivial
  have := (h rfl twoAreas_run hcall ⟨by decide, by decide⟩ twoAreas_torn rfl).1
  revert this
  decide

end CS330
