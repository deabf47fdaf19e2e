import CS330.Memory.Runs

/-! # Areas stay in the region and on page boundaries

`vm_area_mprotect` checks that its range lies in the region, `vm_area_map` checks a hint, and
`vm_area_unmap` checks nothing. No call checks that the address is page-aligned. `Confined`
describes the calls that do no harm. -/

namespace CS330

variable {H : Header} {P : Paging H} {c c' : ExecContext P} {addr len hint : Nat}
  {length r : Int} {prot flags : BitVec 32} {vms : List VmArea}

/-- A hint that is not on a page boundary does no harm if nothing can be placed there. -/
def MapConfined (H : Header) (vms : List VmArea) (addr len : Nat) : Prop :=
  4096 ∣ addr ∨ ¬(H.mmapAreaStart ≤ addr ∧ addr + len ≤ H.mmapAreaEnd ∧
    (∀ x, addr ≤ x → x < addr + len → coverage vms x = none) ∧ vms.length < 128)

/-- The range may not end below the region in front of an area, and it is page-aligned, or it is
refused, or none of its ends falls into an area. -/
def UnmapConfined (H : Header) (vms : List VmArea) (addr len : Nat) : Prop :=
  (StopsShort vms addr len → H.mmapAreaStart ≤ addr + len) ∧
    (4096 ∣ addr ∨ Splits vms addr len ∧ 128 ≤ vms.length ∨
      ¬StopsShort vms addr len ∧ ¬Overruns vms addr len ∧
        ∀ p ∈ vms, (p.vmStart < addr → p.vmEnd ≤ addr) ∧
          (p.vmStart < addr + len → p.vmEnd ≤ addr + len))

/-- The address is page-aligned, or the call is refused, or its first area has the flags. -/
def ProtectConfined (H : Header) (vms : List VmArea) (addr : Nat) (length : Int)
    (prot : BitVec 32) : Prop :=
  4096 ∣ addr ∨ ∀ before cur rest,
    Enters H vms prot addr length (addr + byteLength length) before cur rest →
    cur.accessFlags = prot ∨ cur.vmEnd < addr + byteLength length ∧ rest = []

/-- Calls that keep the areas in the region and page-aligned. -/
def Confined (H : Header) (vms : List VmArea) : MemCall → Prop
  | .map addr length _ _ => MapConfined H vms addr (byteLength length)
  | .unmap addr length => UnmapConfined H vms addr (byteLength length)
  | .mprotect addr length prot => ProtectConfined H vms addr length prot
  | .pagefault _ _ => True

/-- The areas lie in the region and end on page boundaries. -/
structure InRegion (H : Header) (vms : List VmArea) : Prop
    extends AreasInv H H.mmapAreaStart vms where
  aligned : Aligned vms

theorem MapOutcome.inRegion {fills : Nat → Prop} {res}
    (h : MapOutcome c prot flags H.mmapAreaStart len hint fills res) (I : InRegion H c.vmArea)
    (hlen : 0 < len) (hdvd : 4096 ∣ len) (hc : MapConfined H c.vmArea hint len) :
    InRegion H res.2.vmArea := by
  refine ⟨h.areasInv I.toAreasInv hlen, ?_⟩
  -- the new range starts on a page boundary
  have aligned {a vms'} (hi : InsertedAt H.mmapAreaStart c.vmArea prot a (a + len) vms' H.mmapAreaEnd)
      (ho : Origin H c.vmArea hint a) (hcount : vms'.length ≤ 128) : Aligned vms' := by
    have ha : 4096 ∣ a := by
      rcases ho with rfl | rfl | ⟨p, hp, rfl⟩
      · exact H.start_aligned
      · refine hc.elim id fun hno => by_contra fun ha => hno ?_
        have := hi.length_eq fun p hp _ => by
          obtain ⟨h₁, h₂⟩ := I.aligned p hp
          exact ⟨by rintro rfl; exact ha h₂, by intro h; exact ha (by omega)⟩
        exact ⟨hi.bounds.1, hi.bounds.2, fun x => hi.free, by omega⟩
      · exact (I.aligned p hp).2
    exact hi.ends ha (by omega) I.aligned
  cases h with
  | refused => exact I.aligned
  | placed _ hi hcount ho => exact aligned hi ho hcount
  | filled _ hi hcount ho => exact aligned hi ho hcount

theorem vmAreaUnmap_inRegion (h : vmAreaUnmap c addr length = (r, c')) (hv : ValidLength length)
    (I : InRegion H c.vmArea) (hc : UnmapConfined H c.vmArea addr (byteLength length)) :
    InRegion H c'.vmArea := by
  obtain ⟨hround, hpos, hlt, hdvd⟩ := hv.bytes
  have hlen : (unmapLoop c.vmArea.length addr (roundUp length) c.vmArea).2.length ≤ _ :=
    unmapLoop_length
  have hcount := I.count
  rw [← vmAreaUnmap_areas h I.count] at hlen
  have areas := vmAreaUnmap_areas h I.count
  rw [hround] at areas
  obtain ⟨hshort, hcut⟩ := hc
  have hstart : H.mmapAreaStart ≤ addr + byteLength length ∨ c.vmArea = [] := by
    by_contra hno
    obtain ⟨hno, hne⟩ := not_or.mp hno
    obtain ⟨p, ps, hp⟩ := List.exists_cons_of_ne_nil hne
    have hps := I.sorted
    rw [hp] at hps
    have := (sorted_cons.mp hps).1
    refine hno (hshort ⟨p, ?_, by omega⟩)
    rw [hp, List.find?_cons_of_pos (by simp; omega)]
  rcases hstart with hstart | hnil
  swap
  · rw [hnil] at areas
    rw [show c'.vmArea = c.vmArea by rw [hnil]; exact areas]
    exact I
  refine ⟨⟨?_, by split at hlen <;> omega⟩, ?_⟩
  · rw [areas]
    exact unmapLoop_sorted I.sorted H.end_lt le_rfl (by omega) (by omega)
  · rcases hcut with haddr | ⟨hsplit, hfull⟩ | ⟨hno, hover, hends⟩
    · rw [areas]
      exact unmapLoop_aligned haddr (by omega) I.aligned
    · have hfail := (unmapLoop_splits (n := c.vmArea.length) I.sorted H.end_lt hpos hlt hsplit).1
      rw [areas, unmapLoop_exit I.sorted (by simpa [hfull.not_gt] using hfail)]
      exact I.aligned
    · have hsplit : ¬Splits c.vmArea addr (byteLength length) := fun ⟨p, hp, h₁, h₂⟩ => by
        have := (hends p hp).1 h₁
        omega
      have herase := (unmapLoop_erases (n := c.vmArea.length) I.sorted H.end_lt hpos hlt hstart
        hsplit hno hover).2
      rw [← areas] at herase
      intro p hp
      have hp : p.interval ∈ Interval.erase addr (addr + byteLength length) (intervals c.vmArea) :=
        herase ▸ List.mem_map_of_mem hp
      have old {q} : q ∈ intervals c.vmArea → ∃ p ∈ c.vmArea, p.interval = q := List.mem_map.mp
      refine Interval.ends_of_mem_erase (P := (4096 ∣ ·)) ?_ ?_ ?_ p.interval hp <;>
        intro i hi <;> obtain ⟨q, hq, rfl⟩ := old hi
      · exact fun h₁ h₂ => absurd ((hends q hq).1 h₁) h₂.not_ge
      · exact fun h₁ h₂ => absurd ((hends q hq).2 h₁) h₂.not_ge
      · exact I.aligned q hq

theorem VmAreaMprotect.inRegion (h : VmAreaMprotect c addr length prot r c')
    (hv : ValidLength length) (I : InRegion H c.vmArea)
    (hc : ProtectConfined H c.vmArea addr length prot) : InRegion H c'.vmArea := by
  have hkeep := h.sorted I.sorted I.count hv
  refine ⟨⟨hkeep.1, hkeep.2.1⟩, ?_⟩
  by_cases haddr : 4096 ∣ addr
  · exact hkeep.2.2 I.aligned haddr
  have hc := hc.resolve_left haddr
  have A := (⟨I.sorted, I.count, hv⟩ : ProtectInv _ c length).activation prot addr
  generalize ho : protectBody prot ⟨c, addr, length⟩ = o at A
  have inside {before cur rest}
      (E : Enters H c.vmArea prot addr length (addr + (roundUp length).toNat) before cur rest) :
      cur.vmStart < addr :=
    lt_of_le_of_ne E.start_le fun heq => haddr (heq ▸ (I.aligned cur E.mem).1)
  cases A with
  | refused =>
    rw [(Prod.mk.inj ((Returns.ret_iff ho).mp h)).2]
    exact I.aligned
  | last E hle _ _ hsame =>
    have hflags := (hc _ _ _ E).resolve_right fun h => absurd h.1 hle.not_gt
    rw [(Prod.mk.inj ((Returns.ret_iff ho).mp h)).2]
    dsimp only
    rw [hsame (inside E) hflags]
    exact I.aligned
  | @more before rest front cur prev E hlt hrest _ _ hpaint hcount hsame =>
    have hflags := (hc _ _ _ E).resolve_right fun h => hrest h.2
    rw [protectRest_eq E.lt_end.le hlt hv] at ho
    have hret : VmAreaMprotect { c with vmArea := front ++ prev :: rest } cur.vmEnd _ prot r c' :=
      (Returns.call_iff ho).mp h
    have hareas : front ++ prev :: rest = c.vmArea := by
      have := hsame ⟨hflags, fun h => absurd h (inside E).ne⟩
      rw [E.split, ← List.singleton_append, ← List.append_assoc, this]
      simp
    have halign := (hret.sorted (hpaint.sorted I.sorted E.lt_end) hcount
      (hv.behind E.lt_end.le hlt)).2.2
    exact halign (hareas ▸ I.aligned) (I.aligned cur E.mem).2

/-! ## Runs -/

theorem MemCall.Yields.inRegion {call : MemCall} (h : call.Yields c r c') (hv : call.Valid)
    (I : InRegion H c.vmArea) (hc : Confined H c.vmArea call) : InRegion H c'.vmArea := by
  cases call with
  | map addr length prot flags =>
    obtain ⟨_, hpos, _, hdvd⟩ := hv.2.bytes
    exact (VmAreaMap.outcome h I.sorted le_rfl hv.2).inRegion I hpos hdvd hc
  | unmap addr length => exact vmAreaUnmap_inRegion h hv.2 I hc
  | mprotect addr length prot => exact VmAreaMprotect.inRegion h hv.2 I hc
  | pagefault addr errorCode => rwa [vmAreaPagefault_areas h]

theorem MemRun.inRegion {calls : List MemCall} (h0 : c.vmArea = [])
    (run : MemRun (Confined H) c calls c') : InRegion H c'.vmArea := by
  refine run.invariant (I := fun c => InRegion H c.vmArea) ?_
    fun I ⟨hv, hc, _, h⟩ => h.inRegion hv I hc
  rw [h0]
  exact ⟨⟨sorted_nil.mpr H.start_lt_end.le, by simp⟩, by simp [Aligned]⟩

/-- Every area lies in the region and ends on page boundaries, and no two areas share a page. -/
def AreasConfined (H : Header) (vms : List VmArea) : Prop :=
  (∀ p ∈ vms, H.mmapAreaStart ≤ p.vmStart ∧ p.vmEnd ≤ H.mmapAreaEnd ∧
    4096 ∣ p.vmStart ∧ 4096 ∣ p.vmEnd) ∧
  vms.Pairwise fun p q => ∀ x y, p.vmStart ≤ x → x < p.vmEnd → q.vmStart ≤ y → y < q.vmEnd →
    x / 4096 ≠ y / 4096

/-- Runs of confined calls keep the areas in the region and page-granular. -/
theorem MemRun.areas_confined {calls : List MemCall} (h0 : c.vmArea = [])
    (run : MemRun (Confined H) c calls c') : AreasConfined H c'.vmArea := by
  have I := run.inRegion h0
  refine ⟨fun p hp => ?_, ?_⟩
  · have hb := I.sorted.bounds hp
    exact ⟨hb.1, hb.2.2, I.aligned p hp⟩
  · have hp := List.pairwise_map.mp (Interval.Ordered.pairwise I.sorted)
    refine hp.imp_of_mem fun hp hq h x y hx hx' hy hy' => ?_
    have := (I.aligned _ hp).2
    have : _ ≤ _ := h
    dsimp at this
    omega

theorem MemRun.areas_confined_of_split : ∃ t, MemRun (Confined .megabyte) .fresh
      [.map 0 12288 3 0, .map (2 ^ 20 + 20480) 4096 1 0, .mprotect (2 ^ 20 + 4096) 4096 1,
        .unmap (2 ^ 20) 4096] ⟨splitAreas, t⟩ ∧ AreasConfined .megabyte splitAreas := by
  have hunmap : UnmapConfined .megabyte (⟨2 ^ 20, 2 ^ 20 + 4096, 3⟩ :: splitAreas) (2 ^ 20)
      (byteLength 4096) := ⟨fun _ => by decide, .inl (by decide)⟩
  obtain ⟨t, run⟩ := exists_split (Confined .megabyte) (.inl (by decide)) (.inl (by decide))
    (.inl (by decide)) hunmap
  exact ⟨t, run, MemRun.areas_confined rfl run⟩

/-- Unmapping a page below the region extends the first area down to it. -/
theorem unmap_below_region :
    vmAreaUnmap (⟨[⟨2 ^ 20, 2 ^ 20 + 4096, 1⟩], CountingTable.empty⟩ : ExecContext
      (Paging.counting .megabyte)) 4096 4096 =
    (0, ⟨[⟨8192, 2 ^ 20 + 4096, 1⟩], (Paging.counting .megabyte).unmap .empty 4096 4096⟩) := by
  simp [vmAreaUnmap, unmapLoop, roundUp, u64]

/-- Calls with arbitrary arguments take areas out of the region. -/
theorem not_areas_confined : ¬∀ {H : Header} {P : Paging H} {c c' : ExecContext P}
    {calls : List MemCall}, 8192 ≤ H.mmapAreaStart → c.vmArea = [] →
    MemRun (fun _ call => call.EditsAreas) c calls c' → AreasConfined H c'.vmArea := by
  intro h
  have run : MemRun (fun _ call => call.EditsAreas) .fresh [.map 0 4096 1 0, .unmap 4096 4096]
      ⟨[⟨8192, 2 ^ 20 + 4096, 1⟩], (Paging.counting .megabyte).unmap .empty 4096 4096⟩ :=
    .cons ⟨⟨by decide, by decide⟩, trivial, 2 ^ 20, map_fresh⟩
      (.cons ⟨⟨by decide, by decide⟩, trivial, 0, unmap_below_region⟩ .nil)
  have := ((h (by decide) rfl run).1 _ List.mem_cons_self).1
  revert this
  decide

end CS330
