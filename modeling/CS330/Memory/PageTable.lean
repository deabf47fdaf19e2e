import CS330.Memory.Ranges
import CS330.Memory.Runs

/-! # The page table and the areas

In runs of `vm_area_map`, `vm_area_unmap` and `vm_area_pagefault` the page table never allows more
than the areas do, if no call populates the wrong range or loses track of the remaining length
(`TableSafe`). -/

namespace CS330

variable {H : Header} {P : Paging H} {c c' : ExecContext P} {addr len hint page l : Nat}
  {length r : Int} {prot flags : BitVec 32} {vms vms' xs ys : List VmArea}

/-- Every present entry of a page of the region belongs to a covered page, and is writable only if
the flags there contain `PROT_WRITE`. -/
def TableAllowed (c : ExecContext P) : Prop :=
  ∀ page pte, H.mmapAreaStart ≤ page * 4096 → page * 4096 < H.mmapAreaEnd →
    P.entry c.pgd page = some pte →
    ∃ f, coverage c.vmArea (page * 4096) = some f ∧ (pte.writable → f &&& H.protWrite ≠ 0)

/-- A page the call populates although it belongs to the areas behind the filled gap is covered
with flags that allow what the call asks for. -/
def PopulateSafe (H : Header) (vms : List VmArea) (addr len : Nat) (prot flags : BitVec 32) : Prop :=
  flags &&& H.mapPopulate ≠ 0 → ∀ a, FillsGap H vms addr len prot flags a →
    ∀ page, a + len ≤ page * 4096 → page * 4096 < a + len + len → page * 4096 < H.mmapAreaEnd →
      ∃ f, coverage vms (page * 4096) = some f ∧
        (prot &&& H.protWrite ≠ 0 → f &&& H.protWrite ≠ 0)

/-- Calls on page-aligned addresses other than `vm_area_mprotect`. -/
def MemCall.AlignedNoProtect : MemCall → Prop
  | map addr _ _ _ => 4096 ∣ addr
  | unmap addr _ => 4096 ∣ addr
  | mprotect _ _ _ => False
  | pagefault addr _ => 4096 ∣ addr

/-- Of these, the calls that keep the page table within the areas. -/
def TableSafe (H : Header) (vms : List VmArea) : MemCall → Prop
  | .map addr length prot flags =>
    4096 ∣ addr ∧ PopulateSafe H vms addr (byteLength length) prot flags
  | .unmap addr length => 4096 ∣ addr ∧ ¬Overruns vms addr (byteLength length)
  | .mprotect _ _ _ => False
  | .pagefault addr _ => 4096 ∣ addr

/-- What holds in every state of a run. -/
structure TableInv (c : ExecContext P) : Prop extends AreasInv H 0 c.vmArea where
  aligned : Aligned c.vmArea
  allowed : TableAllowed c

/-! ## `vm_area_map` -/

theorem Origin.dvd {a : Nat} (h : Origin H vms hint a) (hv : Aligned vms) (hhint : 4096 ∣ hint) :
    4096 ∣ a := by
  rcases h with rfl | rfl | ⟨p, hp, rfl⟩
  · exact H.start_aligned
  · exact hhint
  · exact (hv p hp).2

theorem MapOutcome.aligned {fills : Nat → Prop} {res}
    (h : MapOutcome c prot flags l len hint fills res) (hv : Aligned c.vmArea) (hhint : 4096 ∣ hint)
    (hdvd : 4096 ∣ len) : Aligned res.2.vmArea := by
  cases h with
  | refused => exact hv
  | placed _ hi _ ho =>
    have ha := ho.dvd hv hhint
    exact hi.ends ha (Nat.dvd_add ha hdvd) hv
  | filled _ hi _ ho =>
    have ha := ho.dvd hv hhint
    exact hi.ends ha (Nat.dvd_add ha hdvd) hv

/-- Populating pages that are covered with flags which allow the access keeps the table within the
areas. -/
theorem mapReturn_allowed {a : Nat} (ha : a < 2 ^ 63) (hadvd : 4096 ∣ a) (hlen : len < 2 ^ 31)
    (hdvd : 4096 ∣ len)
    (hold : ∀ page pte, H.mmapAreaStart ≤ page * 4096 → page * 4096 < H.mmapAreaEnd →
      P.entry c.pgd page = some pte → ∃ f, coverage vms (page * 4096) = some f ∧
        (pte.writable → f &&& H.protWrite ≠ 0))
    (hnew : flags &&& H.mapPopulate ≠ 0 → ∀ page, a ≤ page * 4096 → page * 4096 < a + len →
      page * 4096 < H.mmapAreaEnd → ∃ f, coverage vms (page * 4096) = some f ∧
        (prot &&& H.protWrite ≠ 0 → f &&& H.protWrite ≠ 0)) :
    TableAllowed (mapReturn c prot flags len vms a).2 := by
  intro page pte hstart hend hentry
  simp only [mapReturn] at hentry ⊢
  split at hentry
  next hpop =>
    by_cases hr : Paging.InRange a len page
    · obtain ⟨pfn, hmap, -⟩ : ∃ pfn, P.entry (P.map c.pgd a prot len) page = some ⟨pfn, _⟩ ∧ _ :=
        Paging.entry_map_of_inRange (Int.natCast_nonneg len) (by omega) (by omega) hr
      rw [hmap] at hentry
      cases hentry
      unfold Paging.InRange at hr
      simpa using hnew hpop.2 page (by omega) (by omega) hend
    · rw [Paging.entry_map_of_not_inRange (Int.natCast_nonneg len) (by omega) (by omega) hr] at hentry
      exact hold page pte hstart hend hentry
  next => exact hold page pte hstart hend hentry

theorem MapOutcome.tableAllowed {res}
    (h : MapOutcome c prot flags 0 len hint (FillsGap H c.vmArea addr len prot flags) res)
    (I : TableInv c) (hhint : 4096 ∣ hint) (hpos : 0 < len) (hlen : len < 2 ^ 31)
    (hdvd : 4096 ∣ len) (hsafe : PopulateSafe H c.vmArea addr len prot flags) :
    TableAllowed res.2 := by
  have hend := H.end_lt
  -- the edit keeps what is covered and covers the new range
  have old {a vms} (hi : InsertedAt 0 c.vmArea prot a (a + len) vms H.mmapAreaEnd) {x f}
      (hx : coverage c.vmArea x = some f) : coverage vms x = some f := by
    rw [hi.coverage_eq (by omega), if_neg fun hin => ?_, hx]
    rw [hi.free hin.1 hin.2] at hx
    cases hx
  have kept {a vms} (hi : InsertedAt 0 c.vmArea prot a (a + len) vms H.mmapAreaEnd) page pte
      (hs : H.mmapAreaStart ≤ page * 4096) (he : page * 4096 < H.mmapAreaEnd)
      (hp : P.entry c.pgd page = some pte) : ∃ f, coverage vms (page * 4096) = some f ∧
        (pte.writable → f &&& H.protWrite ≠ 0) := by
    obtain ⟨f, hf, hw⟩ := I.allowed page pte hs he hp
    exact ⟨f, old hi hf, hw⟩
  cases h with
  | refused => exact I.allowed
  | placed _ hi _ ho =>
    have := hi.bounds.2
    refine mapReturn_allowed (by omega) (ho.dvd I.aligned hhint) hlen hdvd (kept hi)
      fun _ page h₁ h₂ _ => ?_
    exact ⟨prot, by rw [hi.coverage_eq (by omega), if_pos ⟨h₁, h₂⟩], id⟩
  | @filled a vms hfill hi _ ho =>
    have := hi.bounds.2
    refine mapReturn_allowed (by omega) (Nat.dvd_add (ho.dvd I.aligned hhint) hdvd) hlen hdvd (kept hi)
      fun hpop page h₁ h₂ h₃ => ?_
    obtain ⟨f, hf, hw⟩ := hsafe hpop a hfill page h₁ h₂ h₃
    exact ⟨f, old hi hf, hw⟩

/-! ## `vm_area_unmap` -/

theorem coverage_cutAt {u x : Nat} (hs : Sorted l xs u) (hxs : ∀ p ∈ xs, p.vmStart < addr) :
    coverage (cutAt addr xs) x = if x < addr then coverage xs x else none := by
  rw [← lookup_intervals, intervals_cutAt hxs, Interval.Ordered.lookup_below hs, lookup_intervals]

/-- Outside its range the call keeps what is covered. -/
theorem unmapLoop_keeps {x n : Nat} {f : BitVec 32} (hs : Sorted 0 vms H.mmapAreaEnd)
    (hpos : 0 < len) (hlen : len < 2 ^ 31) (hover : ¬Overruns vms addr len)
    (hx : ¬(addr ≤ x ∧ x < addr + len)) (hf : coverage vms x = some f)
    (hdone : (unmapLoop n addr len vms).1 = true) :
    coverage (unmapLoop n addr len vms).2 x = some f := by
  have erased (h : intervals (unmapLoop n addr len vms).2 =
      Interval.erase addr (addr + len) (intervals vms)) :
      coverage (unmapLoop n addr len vms).2 x = some f :=
    ((UnmapsRange.of_erase hs h x).2 hx).trans hf
  by_cases hsplit : Splits vms addr len
  · have hcut := unmapLoop_splits (n := n) hs H.end_lt hpos hlen hsplit
    exact erased (hcut.2 (hcut.1.mp hdone))
  by_cases hshort : StopsShort vms addr len
  · obtain ⟨xs, b, ys, rfl, hxs, hlt, heq⟩ :=
      unmapLoop_extends (n := n) hs H.end_lt hpos hlen hsplit hshort
    obtain ⟨hsx, hb, hsy⟩ := sorted_middle.mp hs
    rw [heq]
    rw [coverage_append, coverage_cons] at hf ⊢
    rw [coverage_cutAt hsx fun p hp => (hxs p hp).1]
    by_cases hxaddr : x < addr
    · -- `b` starts behind the range, so it does not contain `x` before or after
      rw [if_neg (by omega)] at hf
      rwa [if_pos hxaddr, if_neg (by dsimp only; omega)]
    · have hnone : coverage xs x = none :=
        (hsx.restrict (Nat.zero_le _) fun p hp => (hxs p hp).2).coverage_eq_none (.inr (by omega))
      rw [hnone] at hf
      rw [if_neg hxaddr]
      by_cases hin : x < b.vmEnd
      · rw [hsy.coverage_eq_none (.inl hin)] at hf
        rw [if_pos (by dsimp only; omega)]
        split at hf
        next => exact hf
        next => cases hf
      · rw [if_neg (by omega)] at hf
        rwa [if_neg (by dsimp only; omega)]
  · exact erased (unmapLoop_erases (n := n) hs H.end_lt hpos hlen (Nat.zero_le _) hsplit hshort
      hover).2

/-- A page entry that survives the call lies outside its range. -/
theorem entry_unmap_eq_some {t : P.Table} {pte : Pte} (haddr : addr < 2 ^ 64) (hdvd : 4096 ∣ addr)
    (hlen : len < 2 ^ 31) (hldvd : 4096 ∣ len) (hpage : page * 4096 < 2 ^ 63)
    (h : P.entry (P.unmap t addr len) page = some pte) :
    P.entry t page = some pte ∧ ¬(addr ≤ page * 4096 ∧ page * 4096 < addr + len) := by
  by_cases hwrap : addr + len < 2 ^ 64
  · rw [Paging.entry_unmap (Int.natCast_nonneg len) (by omega) (by omega)] at h
    split at h
    next => cases h
    next hr => exact ⟨h, by omega⟩
  · rw [Paging.unmap, pages_of_wrap (Int.natCast_nonneg len) (by omega) haddr (by omega)] at h
    exact ⟨h, by omega⟩

theorem vmAreaUnmap_tableInv (h : vmAreaUnmap c addr length = (r, c')) (haddr : addr < 2 ^ 64)
    (hv : ValidLength length) (I : TableInv c) (hdvd : 4096 ∣ addr)
    (hover : ¬Overruns c.vmArea addr (byteLength length)) :
    Aligned c'.vmArea ∧ TableAllowed c' := by
  have hend := H.end_lt
  obtain ⟨hround, hpos, hlt, hldvd⟩ := hv.bytes
  refine ⟨?_, ?_⟩
  · rw [vmAreaUnmap_areas h I.count]
    exact unmapLoop_aligned hdvd (by omega) I.aligned
  rw [vmAreaUnmap, hround, if_neg I.count.not_gt] at h
  split at h
  next vms heq =>
    obtain ⟨-, rfl⟩ := Prod.mk.inj h
    have hsame : vms = c.vmArea := by
      simpa [heq] using unmapLoop_exit I.sorted (congrArg Prod.fst heq)
    rw [hsame]
    exact I.allowed
  next heq =>
    obtain ⟨-, rfl⟩ := Prod.mk.inj h
    intro page pte hs he hentry
    obtain ⟨hentry, hout⟩ := entry_unmap_eq_some haddr hdvd hlt hldvd (by omega) hentry
    obtain ⟨f, hf, hw⟩ := I.allowed page pte hs he hentry
    have := unmapLoop_keeps I.sorted hpos hlt hover hout hf (congrArg Prod.fst heq)
    rw [heq] at this
    exact ⟨f, this, hw⟩

/-! ## `vm_area_pagefault` -/

theorem vmAreaPagefault_tableAllowed {errorCode : Int}
    (h : vmAreaPagefault c addr errorCode = (r, c')) (I : TableInv c) (hdvd : 4096 ∣ addr) :
    TableAllowed c' := by
  have hareas := vmAreaPagefault_areas h
  unfold vmAreaPagefault at h
  split at h
  next => exact (Prod.mk.inj h).2 ▸ I.allowed
  next curVm hfind =>
    split at h
    next =>
      obtain ⟨-, rfl⟩ := Prod.mk.inj h
      intro page pte hs he hentry
      rw [P.entry_mapPhysicalPage] at hentry
      split at hentry
      next hpage =>
        cases hentry
        refine ⟨curVm.accessFlags, ?_, ?_⟩
        · rw [show page * 4096 = addr by omega, coverage, hfind]
          rfl
        · have := Paging.loopProt_writes (H := H) curVm.accessFlags
          rw [Paging.loopProt, BitVec.or_comm] at this
          simpa using this.mp
      next => exact I.allowed page pte hs he hentry
    next => exact (Prod.mk.inj h).2 ▸ I.allowed

/-! ## Runs -/

theorem MemCall.Yields.tableInv {call : MemCall} (h : call.Yields c r c') (hv : call.Valid)
    (I : TableInv c) (hsafe : TableSafe H c.vmArea call) : TableInv c' := by
  have hareas := h.areasInv hv I.toAreasInv
  cases call with
  | map addr length prot flags =>
    obtain ⟨_, hpos, hlt, hdvd⟩ := hv.2.bytes
    have O := VmAreaMap.outcome h I.sorted (Nat.zero_le _) hv.2
    exact ⟨hareas, O.aligned I.aligned hsafe.1 hdvd,
      O.tableAllowed I hsafe.1 hpos hlt hdvd hsafe.2⟩
  | unmap addr length =>
    obtain ⟨hal, hallow⟩ := vmAreaUnmap_tableInv h hv.1 hv.2 I hsafe.1 hsafe.2
    exact ⟨hareas, hal, hallow⟩
  | mprotect => exact hsafe.elim
  | pagefault addr errorCode =>
    have hal : Aligned c'.vmArea := by
      rw [vmAreaPagefault_areas h]
      exact I.aligned
    exact ⟨hareas, hal, vmAreaPagefault_tableAllowed h I hsafe⟩

/-- Every present entry of a page of the region belongs to an area that contains the whole page,
and is writable only if the flags of the area contain `PROT_WRITE`. -/
def TableWithinAreas (c : ExecContext P) : Prop :=
  ∀ page pte, H.mmapAreaStart ≤ page * 4096 → page * 4096 < H.mmapAreaEnd →
    P.entry c.pgd page = some pte →
    ∃ p ∈ c.vmArea, p.vmStart ≤ page * 4096 ∧ (page + 1) * 4096 ≤ p.vmEnd ∧
      (pte.writable → p.accessFlags &&& H.protWrite ≠ 0)

theorem TableInv.tableWithinAreas (I : TableInv c) : TableWithinAreas c := by
  intro page pte hs he hentry
  obtain ⟨f, hf, hw⟩ := I.allowed page pte hs he hentry
  obtain ⟨p, hp, rfl⟩ := Option.map_eq_some_iff.mp hf
  have hin := List.find?_some hp
  have hmem := List.mem_of_find?_eq_some hp
  have := (I.aligned p hmem).2
  simp only [decide_eq_true_eq] at hin
  exact ⟨p, hmem, hin.1, by omega, hw⟩

/-- In runs of safe calls the page table stays within the areas. -/
theorem MemRun.table_within_areas {calls : List MemCall} (h0 : c.vmArea = [])
    (ht : ∀ page, H.mmapAreaStart ≤ page * 4096 → page * 4096 < H.mmapAreaEnd →
      P.entry c.pgd page = none)
    (run : MemRun (TableSafe H) c calls c') : TableWithinAreas c' := by
  refine TableInv.tableWithinAreas (run.invariant (I := TableInv) ?_
    fun I ⟨hv, hc, _, h⟩ => h.tableInv hv I hc)
  refine ⟨⟨?_, ?_⟩, ?_, fun page pte hs he hentry => ?_⟩
  · rw [h0]
    exact sorted_nil.mpr (Nat.zero_le _)
  · simp [h0]
  · simp [h0, Aligned]
  · rw [ht page hs he] at hentry
    cases hentry

/-- Two pages are mapped with `MAP_POPULATE`, and the first one is unmapped: the second one is still
present. -/
theorem MemRun.table_within_areas_of_populate : ∃ t : CountingTable,
    MemRun (TableSafe .megabyte) .fresh [.map 0 8192 3 2, .unmap (2 ^ 20) 4096]
        ⟨[⟨2 ^ 20 + 4096, 2 ^ 20 + 8192, 3⟩], t⟩ ∧
      t.entry 256 = none ∧ (t.entry 257).isSome ∧
      TableWithinAreas (⟨[⟨2 ^ 20 + 4096, 2 ^ 20 + 8192, 3⟩], t⟩ : ExecContext
        (Paging.counting .megabyte)) := by
  let P := Paging.counting .megabyte
  have h₁ : VmAreaMap .fresh 0 8192 3 2 (2 ^ 20)
      ⟨[⟨2 ^ 20, 2 ^ 20 + 8192, 3⟩], P.map .empty (2 ^ 20) 3 8192⟩ := by
    refine Returns.of_run (n := 1) ?_
    simp [run, mapBody, mapNoHint, ExecContext.fresh, Header.megabyte, roundUp, u64, mapReturnNew,
      mapReturn, int64, P]
  have h₂ (t : CountingTable) : vmAreaUnmap (⟨[⟨2 ^ 20, 2 ^ 20 + 8192, 3⟩], t⟩ : ExecContext P)
      (2 ^ 20) 4096 = (0, ⟨[⟨2 ^ 20 + 4096, 2 ^ 20 + 8192, 3⟩], P.unmap t (2 ^ 20) 4096⟩) := by
    simp [vmAreaUnmap, unmapLoop, roundUp, u64]
  have hfills : PopulateSafe .megabyte [] 0 (byteLength 8192) 3 2 := by
    rintro - a ⟨-, -, hfilled⟩
    cases hfilled
  have hover : ¬Overruns [⟨2 ^ 20, 2 ^ 20 + 8192, 3⟩] (2 ^ 20) (byteLength 4096) := by
    rintro ⟨⟨p, hp, -, hend⟩, -⟩
    obtain rfl := List.mem_singleton.1 hp
    exact absurd hend (by decide)
  have run : MemRun (TableSafe .megabyte) .fresh [.map 0 8192 3 2, .unmap (2 ^ 20) 4096]
      ⟨[⟨2 ^ 20 + 4096, 2 ^ 20 + 8192, 3⟩], P.unmap (P.map .empty (2 ^ 20) 3 8192) (2 ^ 20) 4096⟩ :=
    .cons ⟨⟨by decide, by decide⟩, ⟨by decide, hfills⟩, _, h₁⟩
      (.cons ⟨⟨by decide, by decide⟩, ⟨by decide, hover⟩, _, h₂ _⟩ .nil)
  refine ⟨_, run, ?_, ?_, MemRun.table_within_areas rfl (fun _ _ _ => rfl) run⟩
  · decide
  · decide

/-- Filling a gap of two pages with `MAP_POPULATE` populates the area behind it and a page that
no area covers. -/
theorem not_table_within_areas : ¬∀ {H : Header} {P : Paging H} {c c' : ExecContext P}
    {calls : List MemCall}, c.vmArea = [] →
    (∀ page, H.mmapAreaStart ≤ page * 4096 → page * 4096 < H.mmapAreaEnd →
      P.entry c.pgd page = none) →
    MemRun (fun _ call => call.AlignedNoProtect) c calls c' → TableWithinAreas c' := by
  intro h
  let P := Paging.counting .megabyte
  have second : VmAreaMap (⟨[⟨2 ^ 20, 2 ^ 20 + 4096, 1⟩], CountingTable.empty⟩ : ExecContext P)
      (2 ^ 20 + 12288) 4096 1 0 (2 ^ 20 + 12288)
      ⟨[⟨2 ^ 20, 2 ^ 20 + 4096, 1⟩, ⟨2 ^ 20 + 12288, 2 ^ 20 + 16384, 1⟩], CountingTable.empty⟩ := by
    refine Returns.of_run (n := 1) ?_
    simp [run, mapBody, mapHint, Header.megabyte, roundUp, u64, mapReturnNew, mapReturn, int64]
  have third : VmAreaMap (⟨[⟨2 ^ 20, 2 ^ 20 + 4096, 1⟩, ⟨2 ^ 20 + 12288, 2 ^ 20 + 16384, 1⟩],
      CountingTable.empty⟩ : ExecContext P) 0 8192 1 2 (2 ^ 20 + 12288)
      ⟨[⟨2 ^ 20, 2 ^ 20 + 16384, 1⟩], P.map .empty (2 ^ 20 + 12288) 1 8192⟩ := by
    refine Returns.of_run (n := 2) ?_
    simp [run, mapBody, mapNoHint, mapSearch, Header.megabyte, roundUp, u64, mapReturn, int64, P]
  have run : MemRun (fun _ call => call.AlignedNoProtect) .fresh
      [.map 0 4096 1 0, .map (2 ^ 20 + 12288) 4096 1 0, .map 0 8192 1 2]
      ⟨[⟨2 ^ 20, 2 ^ 20 + 16384, 1⟩], P.map .empty (2 ^ 20 + 12288) 1 8192⟩ :=
    .cons ⟨⟨by decide, by decide⟩, show 4096 ∣ 0 by decide, _, map_fresh⟩
      (.cons ⟨⟨by decide, by decide⟩, show 4096 ∣ 2 ^ 20 + 12288 by decide, _, second⟩
        (.cons ⟨⟨by decide, by decide⟩, show 4096 ∣ 0 by decide, _, third⟩ .nil))
  -- the second page of the populated range lies behind the last area
  obtain ⟨pfn, hentry, -⟩ : ∃ pfn, P.entry (P.map .empty (2 ^ 20 + 12288) 1 8192) 260 =
      some ⟨pfn, decide ((1 : BitVec 32) &&& Header.megabyte.protWrite ≠ 0)⟩ ∧ _ :=
    Paging.entry_map_of_inRange (by decide) (by decide) (by decide) ⟨by decide, by decide⟩
  obtain ⟨p, hp, -, hcov, -⟩ := h rfl (fun _ _ _ => rfl) run 260 _ (by decide) (by decide) hentry
  obtain rfl := List.mem_singleton.mp hp
  revert hcov
  decide

end CS330
