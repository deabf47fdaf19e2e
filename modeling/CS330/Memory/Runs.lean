import CS330.Lib.Trace
import CS330.Memory.MapSpec
import CS330.Memory.ProtectRun
import CS330.Memory.UnmapSpec

/-! # Runs of memory calls

A process issues the four calls in any order, with any arguments of the C types. The areas stay
sorted, disjoint and few in every run; they stay in the region and on page boundaries in the runs
whose calls are `Confined`. -/

namespace CS330

variable {H : Header} {P : Paging H} {c c' : ExecContext P} {l u a b addr len : Nat}
  {length r : Int} {prot : BitVec 32} {vms vms' : List VmArea}

/-- A memory call with its arguments. -/
inductive MemCall where
  | map (addr : Nat) (length : Int) (prot flags : BitVec 32)
  | unmap (addr : Nat) (length : Int)
  | mprotect (addr : Nat) (length : Int) (prot : BitVec 32)
  | pagefault (addr : Nat) (errorCode : Int)

namespace MemCall

/-- The address is a `u64`, the length one that rounding up keeps in `int`. -/
def Valid : MemCall → Prop
  | map addr length _ _ => addr < 2 ^ 64 ∧ ValidLength length
  | unmap addr length => addr < 2 ^ 64 ∧ ValidLength length
  | mprotect addr length _ => addr < 2 ^ 64 ∧ ValidLength length
  | pagefault addr _ => addr < 2 ^ 64

/-- The call made in `c` returns `r` and leaves `c'`. -/
def Yields (c : ExecContext P) (r : Int) (c' : ExecContext P) : MemCall → Prop
  | map addr length prot flags => VmAreaMap c addr length prot flags r c'
  | unmap addr length => vmAreaUnmap c addr length = (r, c')
  | mprotect addr length prot => VmAreaMprotect c addr length prot r c'
  | pagefault addr errorCode => vmAreaPagefault c addr errorCode = (r, c')

/-- The calls that may edit the list of areas. -/
def EditsAreas : MemCall → Prop
  | pagefault _ _ => False
  | _ => True

end MemCall

/-- Runs of valid calls that return and that meet `ok` when they are made. -/
def MemRun (ok : List VmArea → MemCall → Prop) :
    ExecContext P → List MemCall → ExecContext P → Prop :=
  Trace fun c call c' => call.Valid ∧ ok c.vmArea call ∧ ∃ r, call.Yields c r c'

/-! ## The representation invariant -/

/-- The areas are sorted and at most 128, and they end in the region. -/
structure AreasInv (H : Header) (l : Nat) (vms : List VmArea) : Prop where
  sorted : Sorted l vms H.mmapAreaEnd
  count : vms.length ≤ 128

theorem MapOutcome.areasInv {hint : Nat} {flags : BitVec 32} {fills : Nat → Prop} {res}
    (h : MapOutcome c prot flags l len hint fills res) (I : AreasInv H l c.vmArea)
    (hlen : 0 < len) : AreasInv H l res.2.vmArea := by
  cases h with
  | refused => exact I
  | placed _ h hcount => exact ⟨h.sorted (by omega), hcount⟩
  | filled _ h hcount => exact ⟨h.sorted (by omega), hcount⟩

theorem vmAreaUnmap_areas (h : vmAreaUnmap c addr length = (r, c')) (hc : c.vmArea.length ≤ 128) :
    c'.vmArea = (unmapLoop c.vmArea.length addr (roundUp length) c.vmArea).2 := by
  rw [vmAreaUnmap, if_neg (by omega)] at h
  split at h
  next heq =>
    obtain ⟨-, rfl⟩ := Prod.mk.inj h
    rw [heq]
  next heq =>
    obtain ⟨-, rfl⟩ := Prod.mk.inj h
    rw [heq]

theorem vmAreaPagefault_areas {errorCode : Int} (h : vmAreaPagefault c addr errorCode = (r, c')) :
    c'.vmArea = c.vmArea := by
  unfold vmAreaPagefault at h
  split at h
  next => exact (Prod.mk.inj h).2 ▸ rfl
  next => split at h <;> exact (Prod.mk.inj h).2 ▸ rfl

theorem MemCall.Yields.areasInv {call : MemCall} (h : call.Yields c r c') (hv : call.Valid)
    (I : AreasInv H 0 c.vmArea) : AreasInv H 0 c'.vmArea := by
  cases call with
  | map addr length prot flags =>
    have := hv.2.roundUp.1
    exact (VmAreaMap.outcome h I.sorted (Nat.zero_le _) hv.2).areasInv I (by omega)
  | unmap addr length =>
    have := hv.2.roundUp.2
    have hlen : (unmapLoop c.vmArea.length addr (roundUp length) c.vmArea).2.length ≤ _ :=
      unmapLoop_length
    have := I.count
    constructor
    · rw [vmAreaUnmap_areas h I.count]
      exact unmapLoop_sorted I.sorted H.end_lt le_rfl (by omega) (by omega)
    · rw [vmAreaUnmap_areas h I.count]
      split at hlen <;> omega
  | mprotect addr length prot =>
    have := VmAreaMprotect.sorted h I.sorted I.count hv.2
    exact ⟨this.1, this.2.1⟩
  | pagefault addr errorCode => rwa [vmAreaPagefault_areas h]

theorem MemRun.areasInv {ok} {calls : List MemCall} (h0 : c.vmArea = [])
    (run : MemRun ok c calls c') : AreasInv H 0 c'.vmArea := by
  refine run.invariant (I := fun c => AreasInv H 0 c.vmArea) ?_ fun I ⟨hv, _, _, h⟩ => h.areasInv hv I
  rw [h0]
  exact ⟨sorted_nil.mpr (Nat.zero_le _), by simp⟩

/-- In every run the areas are increasing by address, disjoint, nonempty and at most 128. -/
theorem MemRun.areas_sorted {calls : List MemCall} (h0 : c.vmArea = [])
    (run : MemRun (fun _ _ => True) c calls c') :
    c'.vmArea.Pairwise (fun p q => p.vmStart < q.vmStart ∧ p.vmEnd ≤ q.vmStart) ∧
      (∀ p ∈ c'.vmArea, p.vmStart < p.vmEnd) ∧ c'.vmArea.length ≤ 128 := by
  have I := run.areasInv h0
  have hne : ∀ p ∈ c'.vmArea, p.vmStart < p.vmEnd := fun p hp => (I.sorted.bounds hp).2.1
  refine ⟨?_, hne, I.count⟩
  have hp := List.pairwise_map.mp (Interval.Ordered.pairwise I.sorted)
  refine hp.imp_of_mem fun hp _ h => ⟨(hne _ hp).trans_le h, h⟩

/-- The first call of a process: one page at the start of the region. -/
theorem map_fresh : VmAreaMap .fresh 0 4096 1 0 (2 ^ 20)
    ⟨[⟨2 ^ 20, 2 ^ 20 + 4096, 1⟩], CountingTable.empty⟩ := by
  refine Returns.of_run (n := 1) ?_
  simp [run, mapBody, mapNoHint, ExecContext.fresh, Header.megabyte, roundUp, u64, mapReturnNew,
    mapReturn, int64]

/-- The areas after two mappings, a call that takes the write permission from the middle page of the
first one, and one that unmaps its first page. -/
def splitAreas : List VmArea :=
  [⟨2 ^ 20 + 4096, 2 ^ 20 + 8192, 1⟩, ⟨2 ^ 20 + 8192, 2 ^ 20 + 12288, 3⟩,
    ⟨2 ^ 20 + 20480, 2 ^ 20 + 24576, 1⟩]

theorem exists_split (ok : List VmArea → MemCall → Prop) (hmap : ok [] (.map 0 12288 3 0))
    (hmap' : ok [⟨2 ^ 20, 2 ^ 20 + 12288, 3⟩] (.map (2 ^ 20 + 20480) 4096 1 0))
    (hprotect : ok [⟨2 ^ 20, 2 ^ 20 + 12288, 3⟩, ⟨2 ^ 20 + 20480, 2 ^ 20 + 24576, 1⟩]
      (.mprotect (2 ^ 20 + 4096) 4096 1))
    (hunmap : ok (⟨2 ^ 20, 2 ^ 20 + 4096, 3⟩ :: splitAreas) (.unmap (2 ^ 20) 4096)) :
    ∃ t, MemRun ok .fresh [.map 0 12288 3 0, .map (2 ^ 20 + 20480) 4096 1 0,
      .mprotect (2 ^ 20 + 4096) 4096 1, .unmap (2 ^ 20) 4096] ⟨splitAreas, t⟩ := by
  have h₁ : VmAreaMap .fresh 0 12288 3 0 (2 ^ 20)
      ⟨[⟨2 ^ 20, 2 ^ 20 + 12288, 3⟩], CountingTable.empty⟩ := by
    refine Returns.of_run (n := 1) ?_
    simp [run, mapBody, mapNoHint, ExecContext.fresh, Header.megabyte, roundUp, u64, mapReturnNew,
      mapReturn, int64]
  have h₂ : VmAreaMap (⟨[⟨2 ^ 20, 2 ^ 20 + 12288, 3⟩], CountingTable.empty⟩ : ExecContext
      (Paging.counting .megabyte)) (2 ^ 20 + 20480) 4096 1 0 (2 ^ 20 + 20480)
      ⟨[⟨2 ^ 20, 2 ^ 20 + 12288, 3⟩, ⟨2 ^ 20 + 20480, 2 ^ 20 + 24576, 1⟩],
        CountingTable.empty⟩ := by
    refine Returns.of_run (n := 1) ?_
    simp [run, mapBody, mapHint, Header.megabyte, roundUp, u64, mapReturnNew, mapReturn, int64]
  have h₃ (t : CountingTable) : VmAreaMprotect (⟨[⟨2 ^ 20, 2 ^ 20 + 12288, 3⟩,
      ⟨2 ^ 20 + 20480, 2 ^ 20 + 24576, 1⟩], t⟩ : ExecContext (Paging.counting .megabyte))
      (2 ^ 20 + 4096) 4096 1 0 ⟨⟨2 ^ 20, 2 ^ 20 + 4096, 3⟩ :: splitAreas,
        (Paging.counting .megabyte).updateMap t (2 ^ 20 + 4096) 1 4096⟩ := by
    refine Returns.of_run (n := 1) ?_
    simp [run, protectBody, protectScan, protectInside, protectReturn, splitAreas, Header.megabyte,
      roundUp, u64]
  have h₄ (t : CountingTable) : vmAreaUnmap (⟨⟨2 ^ 20, 2 ^ 20 + 4096, 3⟩ :: splitAreas, t⟩ :
      ExecContext (Paging.counting .megabyte)) (2 ^ 20) 4096 =
      (0, ⟨splitAreas, (Paging.counting .megabyte).unmap t (2 ^ 20) 4096⟩) := by
    simp [vmAreaUnmap, unmapLoop, splitAreas, roundUp, u64, int32]
  exact ⟨_, .cons ⟨⟨by decide, by decide⟩, hmap, _, h₁⟩
    (.cons ⟨⟨by decide, by decide⟩, hmap', _, h₂⟩
      (.cons ⟨⟨by decide, by decide⟩, hprotect, _, h₃ _⟩
        (.cons ⟨⟨by decide, by decide⟩, hunmap, _, h₄ _⟩ .nil)))⟩

theorem MemRun.areas_sorted_of_split : ∃ t, MemRun (fun _ _ => True) .fresh
      [.map 0 12288 3 0, .map (2 ^ 20 + 20480) 4096 1 0, .mprotect (2 ^ 20 + 4096) 4096 1,
        .unmap (2 ^ 20) 4096] ⟨splitAreas, t⟩ ∧
    splitAreas.Pairwise (fun p q => p.vmStart < q.vmStart ∧ p.vmEnd ≤ q.vmStart) ∧
      (∀ p ∈ splitAreas, p.vmStart < p.vmEnd) ∧ splitAreas.length ≤ 128 := by
  obtain ⟨t, run⟩ := exists_split (fun _ _ => True) trivial trivial trivial trivial
  exact ⟨t, run, MemRun.areas_sorted rfl run⟩

end CS330
