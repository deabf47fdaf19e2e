import CS330.Memory.PageTable

/-! # Frames of present pages

`map_physical_page` with frame 0 installs a fresh frame. `update_map` calls it for the present
pages of the range of the last self-call of `vm_area_mprotect`, and `map` for all pages of a
populated range, so the bytes stored in these pages are lost (`RemapsPresent`). -/

namespace CS330

variable {H : Header} {P : Paging H} {c c' : ExecContext P} {l u p a e addr len page : Nat}
  {k length r : Int} {prot flags : BitVec 32} {vms before rest ys : List VmArea} {cur b : VmArea}

/-- Every present page is still mapped to its frame. -/
def FramesKept (c c' : ExecContext P) : Prop :=
  ∀ page pte, P.entry c.pgd page = some pte →
    ∃ pte', P.entry c'.pgd page = some pte' ∧ pte'.pfn = pte.pfn

/-- Every present page of the region belongs to an area. -/
def PresentCovered (c : ExecContext P) : Prop :=
  ∀ page pte, H.mmapAreaStart ≤ page * 4096 → page * 4096 < H.mmapAreaEnd →
    P.entry c.pgd page = some pte → (coverage c.vmArea (page * 4096)).isSome

/-- Some page of the range is present. -/
def PresentIn (c : ExecContext P) (a e : Nat) : Prop :=
  ∃ page, a ≤ page * 4096 ∧ page * 4096 < e ∧ P.entry c.pgd page ≠ none

/-- `vm_area_map` populates the pages behind the gap it fills, and one of them is present. -/
def MapRemaps (c : ExecContext P) (addr len : Nat) (prot flags : BitVec 32) : Prop :=
  flags &&& H.mapPopulate ≠ 0 ∧ ∃ a, FillsGap H c.vmArea addr len prot flags a ∧
    PresentIn c (a + len) (a + len + len)

/-- `vm_area_mprotect` sets the flags of a covered range, and a page in the part of the range that
lies in the last area is present. -/
def ProtectRemaps (c : ExecContext P) (addr : Nat) (length : Int) (prot : BitVec 32) : Prop :=
  (∃ before cur rest,
    Enters H c.vmArea prot addr length (addr + byteLength length) before cur rest) ∧
  Covered c.vmArea addr (addr + byteLength length) ∧
  ∃ b ∈ c.vmArea, b.vmStart < addr + byteLength length ∧ addr + byteLength length ≤ b.vmEnd ∧
    PresentIn c (max addr b.vmStart) (addr + byteLength length)

/-- Calls of `vm_area_map` and `vm_area_mprotect` on page-aligned addresses. -/
def MemCall.AlignedMapOrProtect : MemCall → Prop
  | map addr _ _ _ => 4096 ∣ addr
  | mprotect addr _ _ => 4096 ∣ addr
  | unmap _ _ => False
  | pagefault _ _ => False

/-- The calls that give a present page another frame. -/
def RemapsPresent (c : ExecContext P) : MemCall → Prop
  | .map addr length prot flags => MapRemaps c addr (byteLength length) prot flags
  | .mprotect addr length prot => ProtectRemaps c addr length prot
  | _ => False

theorem FramesKept.refl (h : c'.pgd = c.pgd) : FramesKept c c' :=
  fun _ pte hp => ⟨pte, h ▸ hp, rfl⟩

/-! ## The page loops -/

section
variable (ha : 4096 ∣ a) (hdvd : 4096 ∣ len)
include ha hdvd

/-- A loop that maps the present pages of a range anew keeps the frames if there are none. -/
theorem framesKept_iff_of_range {t : P.Table}
    (hout : ∀ page, ¬Paging.InRange a len page → P.entry t page = P.entry c.pgd page)
    (hin : ∀ page pte, Paging.InRange a len page → P.entry c.pgd page = some pte →
      ∃ pte', P.entry t page = some pte' ∧ pte.pfn ≠ pte'.pfn) :
    FramesKept c ⟨vms, t⟩ ↔ ¬PresentIn c a (a + len) := by
  constructor
  · rintro hkept ⟨page, h₁, h₂, hp⟩
    obtain ⟨pte, hpte⟩ := Option.ne_none_iff_exists'.mp hp
    obtain ⟨pte₁, he₁, hf₁⟩ := hkept page pte hpte
    obtain ⟨pte₂, he₂, hf₂⟩ := hin page pte (by unfold Paging.InRange; omega) hpte
    cases he₁.symm.trans he₂
    exact hf₂ hf₁.symm
  · intro hno page pte hpte
    refine ⟨pte, (hout page fun hr => hno ⟨page, ?_, ?_, by simp [hpte]⟩).trans hpte, rfl⟩ <;>
      unfold Paging.InRange at hr <;> omega

variable (hend : a + len < 2 ^ 64)
include hend

theorem framesKept_map_iff :
    FramesKept c ⟨vms, P.map c.pgd a prot len⟩ ↔ ¬PresentIn c a (a + len) := by
  refine framesKept_iff_of_range ha hdvd (fun page hr => ?_) fun page pte hr hp => ?_
  · exact Paging.entry_map_of_not_inRange (Int.natCast_nonneg len) (by omega) (by omega) hr
  · obtain ⟨pfn, he, hne⟩ : ∃ pfn, P.entry (P.map c.pgd a prot len) page = some ⟨pfn, _⟩ ∧ _ :=
      Paging.entry_map_of_inRange (Int.natCast_nonneg len) (by omega) (by omega) hr
    exact ⟨_, he, hne pte hp⟩

theorem framesKept_updateMap_iff :
    FramesKept c ⟨vms, P.updateMap c.pgd a prot len⟩ ↔ ¬PresentIn c a (a + len) := by
  refine framesKept_iff_of_range ha hdvd (fun page hr => ?_) fun page pte hr hp => ?_
  · exact Paging.entry_updateMap_of_not_inRange (Int.natCast_nonneg len) (by omega) (by omega) hr
  · obtain ⟨pfn, he, hne⟩ := (Paging.entry_updateMap_of_inRange (Int.natCast_nonneg len) (by omega)
      (by omega) hr).2 pte hp
    exact ⟨_, he, hne⟩

end

/-! ## `vm_area_map` -/

theorem VmAreaMap.framesKept_iff (h : VmAreaMap c addr length prot flags r c')
    (hs : Sorted H.mmapAreaStart c.vmArea H.mmapAreaEnd) (hal : Aligned c.vmArea)
    (hp : PresentCovered c) (haddr : 4096 ∣ addr) (hv : ValidLength length) :
    FramesKept c c' ↔ ¬MapRemaps c addr (byteLength length) prot flags := by
  have hend := H.end_lt
  obtain ⟨-, hpos, hlt, hdvd⟩ := hv.bytes
  have O := h.outcome hs le_rfl hv
  change MapOutcome _ _ _ _ (byteLength length) _ _ _ at O
  generalize hres : (r, c') = res at O
  cases O with
  | refused hno =>
    obtain ⟨rfl, rfl⟩ := Prod.mk.inj hres
    exact iff_of_true (.refl rfl) fun ⟨_, a, ha, _⟩ => hno a ha
  | @placed a vms hno hi _ ho =>
    obtain ⟨-, rfl⟩ := Prod.mk.inj hres
    refine iff_of_true ?_ fun ⟨_, a, ha, _⟩ => hno a ha
    have hb := hi.bounds
    split
    next =>
      -- the pages of the range were free, so they are not present
      refine (framesKept_map_iff (ho.dvd hal haddr) hdvd (by omega)).mpr ?_
      rintro ⟨page, h₁, h₂, hne⟩
      obtain ⟨pte, hpte⟩ := Option.ne_none_iff_exists'.mp hne
      have := hp page pte (by omega) (by omega) hpte
      rw [hi.free h₁ h₂] at this
      cases this
    next => exact .refl rfl
  | @filled a vms hfill hi _ ho =>
    obtain ⟨-, rfl⟩ := Prod.mk.inj hres
    have hb := hi.bounds.2
    split
    next hpop =>
      rw [framesKept_map_iff (Nat.dvd_add (ho.dvd hal haddr) hdvd) hdvd (by omega), not_iff_not]
      refine ⟨fun hp => ⟨hpop.2, a, hfill, hp⟩, ?_⟩
      rintro ⟨_, a', hfill', hp⟩
      cases hfill.2.2.symm.trans hfill'.2.2
      exact hp
    next hpop =>
      refine iff_of_true (.refl rfl) fun ⟨hflag, _⟩ => hpop ⟨?_, hflag⟩
      rw [int64_eq (by omega) (by omega)]
      omega

/-! ## `vm_area_mprotect` -/

theorem VmAreaMprotect.framesKept_iff (h : VmAreaMprotect c addr length prot r c')
    (hs : Sorted H.mmapAreaStart c.vmArea H.mmapAreaEnd) (hal : Aligned c.vmArea)
    (haddr : 4096 ∣ addr) (hv : ValidLength length) :
    FramesKept c c' ↔ ¬ProtectRemaps c addr length prot := by
  have hendlt := H.end_lt
  obtain ⟨hround, hpos, hlt, hdvd⟩ := hv.bytes
  rcases h.updates hs hal haddr hv with ⟨-, hpgd, hno⟩ | ⟨_, _, _, b, -, E, hcov, hb, h₁, h₂, hpgd⟩
  · exact iff_of_true (.refl hpgd) fun ⟨⟨_, _, _, E⟩, hcov, _⟩ => hno _ _ _ E hcov
  have hstart := (hal b hb).1
  have hend := (hs.bounds hb).2.2
  have hmax : 4096 ∣ max addr b.vmStart := max_rec' (4096 ∣ ·) haddr hstart
  obtain ⟨vms', t⟩ := c'
  obtain rfl : t = _ := hpgd
  rw [framesKept_updateMap_iff hmax (by omega) (by omega), not_iff_not,
    Nat.add_sub_cancel' (by omega)]
  refine ⟨fun hp => ⟨⟨_, _, _, E⟩, hcov, b, hb, h₁, h₂, hp⟩, ?_⟩
  rintro ⟨_, _, b', hb', h₁', h₂', hp⟩
  obtain rfl : b' = b := hs.eq_of_mem hb' hb
    (show b'.vmStart ≤ addr + byteLength length - 1 ∧ _ by omega) (by omega)
  exact hp

/-- A call of `vm_area_map` or `vm_area_mprotect` keeps the frames of all present pages exactly
when it does not remap one of them. -/
theorem frames_kept_iff {call : MemCall} (hcall : call.AlignedMapOrProtect) (hv : call.Valid)
    (hs : Sorted H.mmapAreaStart c.vmArea H.mmapAreaEnd) (hal : Aligned c.vmArea)
    (hp : PresentCovered c) (h : call.Yields c r c') :
    FramesKept c c' ↔ ¬RemapsPresent c call := by
  cases call with
  | map => exact VmAreaMap.framesKept_iff h hs hal hp hcall hv.2
  | mprotect => exact VmAreaMprotect.framesKept_iff h hs hal hcall hv.2
  | unmap => exact hcall.elim
  | pagefault => exact hcall.elim

/-- One writable page at the start of the region, present. -/
def onePage : ExecContext (Paging.counting .megabyte) :=
  ⟨[⟨2 ^ 20, 2 ^ 20 + 4096, 3⟩], (Paging.counting .megabyte).mapPhysicalPage .empty (2 ^ 20) 3 0⟩

theorem onePage_covered : PresentCovered onePage := by
  intro page pte _ _ hentry
  have hpage : page = 256 := by
    by_contra hne
    simp [onePage, Paging.counting, CountingTable.empty, hne] at hentry
  subst hpage
  decide

theorem onePage_protect : VmAreaMprotect onePage (2 ^ 20) 4096 1 0
    ⟨[⟨2 ^ 20, 2 ^ 20 + 4096, 1⟩],
      (Paging.counting .megabyte).updateMap onePage.pgd (2 ^ 20) 1 4096⟩ := by
  refine Returns.of_run (n := 1) ?_
  simp [run, protectBody, protectScan, protectFront, protectReturn, joinPrev, joinNext, onePage,
    Header.megabyte, roundUp, u64]

theorem frames_kept_of_onePage : FramesKept onePage
      ⟨[⟨2 ^ 20, 2 ^ 20 + 4096, 1⟩],
        (Paging.counting .megabyte).updateMap onePage.pgd (2 ^ 20) 1 4096⟩ ↔
    ¬RemapsPresent onePage (.mprotect (2 ^ 20) 4096 1) :=
  frames_kept_iff (show 4096 ∣ 2 ^ 20 by decide) ⟨by decide, by decide⟩
    (by simp [Sorted, onePage, Header.megabyte]) (by simp [Aligned, onePage]) onePage_covered
    onePage_protect

/-- Making the page read-only maps it to a fresh frame. -/
theorem not_frames_kept : ¬∀ {H : Header} {P : Paging H} {c c' : ExecContext P} {call : MemCall}
    {r : Int}, call.AlignedMapOrProtect → call.Valid →
    Sorted H.mmapAreaStart c.vmArea H.mmapAreaEnd → Aligned c.vmArea → PresentCovered c →
    call.Yields c r c' → FramesKept c c' := by
  intro h
  have hcall : (MemCall.mprotect (2 ^ 20) 4096 1).AlignedMapOrProtect :=
    show 4096 ∣ 2 ^ 20 by decide
  have hkept := h hcall ⟨by decide, by decide⟩ (by simp [Sorted, onePage, Header.megabyte])
    (by simp [Aligned, onePage]) onePage_covered onePage_protect
  have hlost : ¬PresentIn onePage (2 ^ 20) (2 ^ 20 + 4096) :=
    (framesKept_updateMap_iff (by decide) (by decide) (by decide)).mp hkept
  exact hlost ⟨256, by decide, by decide, by simp [onePage, Paging.counting]⟩

end CS330
