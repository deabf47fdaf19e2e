import CS330.Memory.Confinement
import CS330.Memory.PageTable
import CS330.Memory.ProtectWhole

/-! # All memory calls of a process

What the areas and the page table of a process have in common, whatever calls the process makes, as
long as none of them leaves pages behind that its areas do not allow (`Orderly`). -/

namespace CS330

variable {H : Header} {P : Paging H} {c c' : ExecContext P} {addr : Nat} {length r : Int}
  {prot flags : BitVec 32} {vms : List VmArea} {entry entry' : Nat → Option Pte}

/-- The entries of the region belong to covered pages, and are writable only if the flags there
contain `PROT_WRITE`. -/
def Allows (H : Header) (vms : List VmArea) (entry : Nat → Option Pte) : Prop :=
  ∀ page pte, H.mmapAreaStart ≤ page * 4096 → page * 4096 < H.mmapAreaEnd →
    entry page = some pte →
    ∃ f, coverage vms (page * 4096) = some f ∧ (pte.writable → f &&& H.protWrite ≠ 0)

/-- The areas lie in the region on page boundaries, and the entries within them. -/
structure SpaceInv (H : Header) (vms : List VmArea) (entry : Nat → Option Pte) : Prop
    extends InRegion H vms where
  allows : Allows H vms entry

theorem SpaceInv.nil (hentry : ∀ page, H.mmapAreaStart ≤ page * 4096 →
    page * 4096 < H.mmapAreaEnd → entry page = none) : SpaceInv H [] entry where
  sorted := sorted_nil.2 H.start_lt_end.le
  count := Nat.zero_le _
  aligned := nofun
  allows page pte hs he hp := by
    rw [hentry page hs he] at hp
    cases hp

/-- Entries may go, and lose their permission. -/
theorem SpaceInv.of_le (I : SpaceInv H vms entry)
    (hle : ∀ page pte, H.mmapAreaStart ≤ page * 4096 → page * 4096 < H.mmapAreaEnd →
      entry' page = some pte →
      ∃ pte', entry page = some pte' ∧ (pte.writable → pte'.writable)) :
    SpaceInv H vms entry' where
  toInRegion := I.toInRegion
  allows page pte hs he hp := by
    obtain ⟨pte', hp', hw⟩ := hle page pte hs he hp
    obtain ⟨f, hf, hallow⟩ := I.allows page pte' hs he hp'
    exact ⟨f, hf, hallow ∘ hw⟩

theorem SpaceInv.tableInv (I : SpaceInv H c.vmArea (P.entry c.pgd)) : TableInv c where
  sorted := I.sorted.mono_left (Nat.zero_le _)
  count := I.count
  aligned := I.aligned
  allowed := I.allows

theorem InRegion.confined (I : InRegion H vms) : AreasConfined H vms := by
  refine ⟨fun p hp => ?_, ?_⟩
  · have hbounds := I.sorted.bounds hp
    exact ⟨hbounds.1, hbounds.2.2, I.aligned p hp⟩
  · have hordered := List.pairwise_map.1 (Interval.Ordered.pairwise I.sorted)
    refine hordered.imp_of_mem fun {p q} hp hq hle x y hx hx' hy hy' => ?_
    have hend := (I.aligned p hp).2
    have hle : p.vmEnd ≤ q.vmStart := hle
    omega

/-! ## `vm_area_mprotect` and `vm_area_pagefault` -/

/-- A call that takes the write permission from a range is to find no writable page in front of the
area that the range ends in. -/
def LeavesWritable (c : ExecContext P) (addr : Nat) (length : Int) (prot : BitVec 32) : Prop :=
  prot &&& H.protWrite = 0 ∧ ProtectStale c addr length prot

/-- On whole pages a call that fails leaves the areas alone. -/
theorem VmAreaMprotect.areas_of_failed (h : VmAreaMprotect c addr length prot (-1) c')
    (I : InRegion H c.vmArea) (haddr : 4096 ∣ addr) (hv : ValidLength length) :
    c'.vmArea = c.vmArea := by
  obtain ⟨hround, -, -, hdvd⟩ := hv.bytes
  obtain ⟨hpos, -⟩ := id hv
  have hle := hv.le_roundUp
  cases h.outcome ⟨I.sorted, I.count, hv⟩ with
  | refused => rfl
  | failed E hlt _ hno =>
    have hcov : Covered c.vmArea addr (addr + byteLength length) :=
      E.covered.round I.aligned (by omega) (Nat.dvd_add haddr hdvd) (by omega)
    obtain ⟨a, hr⟩ := E.reaches I.sorted I.aligned haddr hv hcov hlt
    exact (hno _ _ hr).elim

theorem VmAreaMprotect.allows (h : VmAreaMprotect c addr length prot r c')
    (I : SpaceInv H c.vmArea (P.entry c.pgd)) (haddr : 4096 ∣ addr) (hv : ValidLength length)
    (hsafe : ¬LeavesWritable c addr length prot) : Allows H c'.vmArea (P.entry c'.pgd) := by
  have hendlt := H.end_lt
  obtain ⟨-, hpos, hlt, hdvd⟩ := hv.bytes
  rcases h.updates I.sorted I.aligned haddr hv with
    ⟨rfl, hpgd, -⟩ | ⟨_, _, _, b, rfl, E, hcov, hb, h₁, h₂, hpgd⟩
  · rw [h.areas_of_failed I.toInRegion haddr hv, hpgd]
    exact I.allows
  have hset : SetsRange c.vmArea c'.vmArea prot addr (byteLength length) :=
    h.setsRange ⟨I.sorted, I.count, hv⟩ I.aligned haddr rfl
  have hstart := (I.aligned b hb).1
  have hend := (I.sorted.bounds hb).2.2
  have hmax : 4096 ∣ max addr b.vmStart := max_rec' (4096 ∣ ·) haddr hstart
  intro page pte hs he hp
  rw [hset]
  rw [hpgd] at hp
  by_cases hin : Paging.InRange (max addr b.vmStart)
      (addr + byteLength length - max addr b.vmStart : Nat) page
  · -- a page of the last area: present before, and now with the new permission
    obtain ⟨habsent, hpresent⟩ : (_ → P.entry (P.updateMap c.pgd _ prot _) page = none) ∧ _ :=
      Paging.entry_updateMap_of_inRange (Int.natCast_nonneg _) (by omega) (by omega) hin
    cases hold : P.entry c.pgd page with
    | none =>
      rw [habsent hold] at hp
      cases hp
    | some old =>
      obtain ⟨pfn, hnew, -⟩ := hpresent old hold
      rw [hnew] at hp
      cases hp
      unfold Paging.InRange at hin
      refine ⟨prot, if_pos (by omega), by simp⟩
  · rw [Paging.entry_updateMap_of_not_inRange (Int.natCast_nonneg _) (by omega) (by omega) hin] at hp
    split
    next hrange =>
      -- a page in front of the last area keeps its permission
      refine ⟨prot, rfl, fun hw hprot => hsafe ⟨hprot, ⟨_, _, _, E⟩, hcov, b, hb, h₁, h₂, page, pte,
        hrange.1, ?_, hp, fun hfollows => hfollows.1 hw hprot⟩⟩
      unfold Paging.InRange at hin
      omega
    next => exact I.allows page pte hs he hp

/-- What covers an address covers its page. -/
theorem Aligned.coverage_page (h : Aligned vms) (x : Nat) :
    coverage vms (x / 4096 * 4096) = coverage vms x := by
  induction vms with
  | nil => rfl
  | cons p vms ih =>
    obtain ⟨hp, h⟩ := List.forall_mem_cons.1 h
    rw [coverage_cons, coverage_cons, ih h]
    exact if_congr (by omega) rfl rfl

/-- The fault may be at any address of a page. -/
theorem vmAreaPagefault_allows {errorCode : Int} (h : vmAreaPagefault c addr errorCode = (r, c'))
    (I : SpaceInv H c.vmArea (P.entry c.pgd)) : Allows H c'.vmArea (P.entry c'.pgd) := by
  unfold vmAreaPagefault at h
  split at h
  next => exact (Prod.mk.inj h).2 ▸ I.allows
  next curVm hfind =>
    split at h
    next =>
      obtain ⟨-, rfl⟩ := Prod.mk.inj h
      intro page pte hs he hp
      rw [P.entry_mapPhysicalPage] at hp
      split at hp
      next hpage =>
        cases hp
        refine ⟨curVm.accessFlags, ?_, ?_⟩
        · rw [hpage, I.aligned.coverage_page, coverage, hfind]
          rfl
        · have := Paging.loopProt_writes (H := H) curVm.accessFlags
          rw [Paging.loopProt, BitVec.or_comm] at this
          simpa using this.mp
      next => exact I.allows page pte hs he hp
    next => exact (Prod.mk.inj h).2 ▸ I.allows

/-! ## All calls -/

/-- The calls on page-aligned ranges that keep the areas in the region and leave no page behind that
they do not allow. -/
def Orderly (c : ExecContext P) : MemCall → Prop
  | .map addr length prot flags =>
    4096 ∣ addr ∧ PopulateSafe H c.vmArea addr (byteLength length) prot flags
  | .unmap addr length => 4096 ∣ addr ∧ ¬Overruns c.vmArea addr (byteLength length) ∧
    (StopsShort c.vmArea addr (byteLength length) → H.mmapAreaStart ≤ addr + byteLength length)
  | .mprotect addr length prot => 4096 ∣ addr ∧ ¬LeavesWritable c addr length prot
  | .pagefault _ _ => True

theorem Orderly.confined {call : MemCall} (h : Orderly c call) : Confined H c.vmArea call := by
  cases call with
  | map => exact .inl h.1
  | unmap => exact ⟨h.2.2, .inl h.1⟩
  | mprotect => exact .inl h.1
  | pagefault => trivial

theorem MemCall.Yields.spaceInv {call : MemCall} (h : call.Yields c r c') (hv : call.Valid)
    (I : SpaceInv H c.vmArea (P.entry c.pgd)) (hok : Orderly c call) :
    SpaceInv H c'.vmArea (P.entry c'.pgd) := by
  refine ⟨h.inRegion hv I.toInRegion hok.confined, ?_⟩
  cases call with
  | map addr length prot flags => exact (h.tableInv hv I.tableInv hok).allowed
  | unmap addr length => exact (h.tableInv hv I.tableInv ⟨hok.1, hok.2.1⟩).allowed
  | mprotect addr length prot => exact VmAreaMprotect.allows h I hok.1 hv.2 hok.2
  | pagefault addr errorCode => exact vmAreaPagefault_allows h I

/-! ## Where a call looks -/

section
variable {Q : P.Table → Prop} (hmap : ∀ t addr prot, Q t → Q (P.mapPhysicalPage t addr prot 0))
include hmap

theorem Paging.map_keeps {t : P.Table} (hQ : Q t) (length : Int) : Q (P.map t addr prot length) :=
  List.foldlRecOn _ _ hQ fun _ ht _ _ => hmap _ _ _ ht

theorem Paging.updateMap_keeps {t : P.Table} (hQ : Q t) (length : Int) :
    Q (P.updateMap t addr prot length) := by
  refine List.foldlRecOn _ _ hQ fun t ht a _ => ?_
  split
  · exact hmap _ _ _ ht
  · exact ht

theorem MapOutcome.table_keeps {l len hint : Nat} {fills : Nat → Prop} {res : Int × ExecContext P}
    (h : MapOutcome c prot flags l len hint fills res) (hQ : Q c.pgd) : Q res.2.pgd := by
  have returned {vms a} : Q (mapReturn c prot flags len vms a).2.pgd := by
    unfold mapReturn
    dsimp only
    split
    · exact Paging.map_keeps hmap hQ _
    · exact hQ
  cases h with
  | refused => exact hQ
  | placed => exact returned
  | filled => exact returned

theorem VmAreaMprotect.table_keeps (h : VmAreaMprotect c addr length prot r c')
    (I : InRegion H c.vmArea) (haddr : 4096 ∣ addr) (hv : ValidLength length) (hQ : Q c.pgd) :
    Q c'.pgd := by
  rcases h.updates I.sorted I.aligned haddr hv with ⟨-, hpgd, -⟩ | ⟨_, _, _, _, -, _, _, _, _, _, hpgd⟩
  · rwa [hpgd]
  · rw [hpgd]
    exact Paging.updateMap_keeps hmap hQ _

theorem vmAreaPagefault_table_keeps {errorCode : Int}
    (h : vmAreaPagefault c addr errorCode = (r, c')) (hQ : Q c.pgd) : Q c'.pgd := by
  unfold vmAreaPagefault at h
  split at h
  next => exact (Prod.mk.inj h).2 ▸ hQ
  next =>
    split at h
    next =>
      rw [← (Prod.mk.inj h).2]
      exact hmap _ _ _ hQ
    next => exact (Prod.mk.inj h).2 ▸ hQ

omit hmap in
theorem vmAreaUnmap_table_keeps (hunmap : ∀ t addr, Q t → Q (P.doUnmapUser t addr))
    (h : vmAreaUnmap c addr length = (r, c')) (hQ : Q c.pgd) : Q c'.pgd := by
  unfold vmAreaUnmap at h
  dsimp only at h
  split at h
  next => exact (Prod.mk.inj h).2 ▸ hQ
  next =>
    split at h
    next => exact (Prod.mk.inj h).2 ▸ hQ
    next =>
      rw [← (Prod.mk.inj h).2]
      exact List.foldlRecOn _ _ hQ fun _ ht _ _ => hunmap _ _ ht

/-- What the page-table code keeps, every call keeps. -/
theorem MemCall.Yields.table_keeps (hunmap : ∀ t addr, Q t → Q (P.doUnmapUser t addr))
    {call : MemCall} (h : call.Yields c r c') (hv : call.Valid) (I : InRegion H c.vmArea)
    (hok : Orderly c call) (hQ : Q c.pgd) : Q c'.pgd := by
  cases call with
  | map => exact (VmAreaMap.outcome h I.sorted le_rfl hv.2).table_keeps hmap hQ
  | unmap => exact vmAreaUnmap_table_keeps hunmap h hQ
  | mprotect => exact VmAreaMprotect.table_keeps hmap h I hok.1 hv.2 hQ
  | pagefault => exact vmAreaPagefault_table_keeps hmap h hQ

end

end CS330
