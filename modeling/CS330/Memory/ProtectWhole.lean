import CS330.Memory.Atomicity
import CS330.Memory.Frames

/-! # `vm_area_mprotect` on whole pages

On a page-aligned range the self-calls go through as long as the range is covered, so a call on a
list with room for two more areas changes the whole range or nothing. The page table does not
follow: `update_map` runs in the last self-call only, on its part of the range. -/

namespace CS330

variable {H : Header} {P : Paging H} {c c' : ExecContext P} {l e addr : Nat} {length r : Int}
  {prot : BitVec 32} {vms vms' before rest : List VmArea} {cur : VmArea}

/-! ## Termination -/

/-- Every call returns. -/
theorem ProtectInv.exists_returns (I : ProtectInv l c length) (prot : BitVec 32) (addr : Nat) :
    ∃ r c', VmAreaMprotect c addr length prot r c' := by
  have A := I.activation prot addr
  generalize ho : protectBody prot ⟨c, addr, length⟩ = o at A
  cases A with
  | refused => exact ⟨_, _, .ret ho⟩
  | last => exact ⟨_, _, .ret ho⟩
  | @more before rest front cur prev E hlt _ hprev hflags hpaint hcount =>
    rw [protectRest_eq E.lt_end.le hlt I.valid] at ho
    have B := I.behindInv E hlt hprev hflags hpaint hcount
    by_cases hr : ∃ a e,
      Reaches rest cur.vmEnd (addr + (roundUp length).toNat - cur.vmEnd : Nat) a e
    · obtain ⟨a, e, hr⟩ := hr
      obtain ⟨vms, hret⟩ := B.returns_of_reaches (t := c.pgd) hr hprev
      exact ⟨_, _, .call ho hret⟩
    · obtain ⟨vms, hret, -⟩ := B.returns_of_not_reaches (t := c.pgd) fun a e h =>
        hr ⟨a, e, hprev ▸ h⟩
      exact ⟨_, _, .call ho (hprev ▸ hret)⟩

/-! ## The areas -/

/-- The range has the flags `prot` after, and nothing else has changed. -/
def SetsRange (vms vms' : List VmArea) (prot : BitVec 32) (addr len : Nat) : Prop :=
  ∀ x, coverage vms' x = if addr ≤ x ∧ x < addr + len then some prot else coverage vms x

/-- A successful call sets the flags of its range, part by part. -/
theorem VmAreaMprotect.setsRange (h : VmAreaMprotect c addr length prot r c')
    (I : ProtectInv l c length) (hal : Aligned c.vmArea) (haddr : 4096 ∣ addr) (hr : r = 0) :
    SetsRange c.vmArea c'.vmArea prot addr (byteLength length) := by
  suffices ∀ {args res}, Returns (protectBody prot) args res →
      ProtectInv l args.current args.length → Aligned args.current.vmArea → 4096 ∣ args.addr →
      res.1 = 0 → SetsRange args.current.vmArea res.2.vmArea prot args.addr (byteLength args.length)
    from this h I hal haddr hr
  intro args res H'
  induction H' with
  | @ret args res hb =>
    intro I _ _ hr x
    have A := I.activation prot args.addr
    rw [hb] at A
    generalize ho : Outcome.ret res = o at A
    cases A with
    | refused =>
      obtain rfl := Outcome.ret.inj ho
      cases hr
    | last E hle hpaint =>
      obtain rfl := Outcome.ret.inj ho
      obtain ⟨_, hpos, _⟩ := I.valid.bytes
      exact hpaint.coverage_eq I.sorted (Nat.lt_add_of_pos_right hpos)
    | more => cases ho
  | @call args args' res hb _ ih =>
    intro I hal haddr hr x
    obtain ⟨I', hkeep⟩ := I.call hb
    obtain ⟨hal', haddr'⟩ := hkeep hal haddr
    have hset := ih I' hal' haddr' hr x
    have A := I.activation prot args.addr
    rw [hb] at A
    generalize ho : Outcome.call args' = o at A
    cases A with
    | refused => cases ho
    | last => cases ho
    | @more _ _ _ cur _ E hlt _ _ _ hpaint =>
      rw [protectRest_eq E.lt_end.le hlt I.valid] at ho
      obtain rfl := Outcome.call.inj ho
      obtain ⟨_, _, _, hdvd⟩ := I.valid.bytes
      have hcur := (hal _ E.mem).2
      have hfirst := hpaint.coverage_eq (x := x) I.sorted E.lt_end
      have hlast := E.lt_end
      have hbytes : byteLength args.length = (roundUp args.length).toNat := rfl
      -- the rest of the range is a number of pages, so rounding keeps its end
      have hrest : byteLength (args.addr + (roundUp args.length).toNat - cur.vmEnd : Nat) = _ :=
        congrArg Int.toNat (roundUp_of_dvd (by omega))
      rw [hset, hrest, hfirst]
      dsimp only
      split_ifs <;> first | rfl | omega

/-- A covered range of whole pages gets past the checks if there is room for two more areas. -/
theorem Covered.enters (h : Covered c.vmArea addr (addr + byteLength length))
    (hs : Sorted H.mmapAreaStart c.vmArea H.mmapAreaEnd) (hcount : c.vmArea.length ≤ 126)
    (hv : ValidLength length) : ∃ before cur rest,
      Enters H c.vmArea prot addr length (addr + byteLength length) before cur rest := by
  obtain ⟨hround, hpos, -, -⟩ := hv.bytes
  have hle := hv.le_roundUp
  obtain ⟨before, cur, rest, hat⟩ := h.areaAt (by omega)
  have hstart := (hs.bounds hat.mem).1
  obtain ⟨p, hp, hend⟩ : ∃ p ∈ c.vmArea, p.vmStart ≤ addr + byteLength length - 1 ∧
      addr + byteLength length - 1 < p.vmEnd := by
    simpa [coverage] using h (addr + byteLength length - 1) (by omega) (by omega)
  have hreg := (hs.bounds hp).2.2
  have hfirst := hat.start_le
  refine ⟨before, cur, rest, hat, fun x hx hx' => h x hx (by omega), ⟨by omega, by omega⟩, ?_⟩
  unfold areasNeeded
  split_ifs <;> omega

/-- A call on whole pages with room for two more areas returns 0 and sets the flags of its range
exactly when the range is covered, and leaves the areas alone otherwise. -/
theorem VmAreaMprotect.whole_or_nothing (hs : Sorted H.mmapAreaStart c.vmArea H.mmapAreaEnd)
    (hal : Aligned c.vmArea) (hcount : c.vmArea.length ≤ 126) (haddr : 4096 ∣ addr)
    (hv : ValidLength length) :
    (∃ r c', VmAreaMprotect c addr length prot r c') ∧
      ∀ r c', VmAreaMprotect c addr length prot r c' →
        (r = 0 ↔ Covered c.vmArea addr (addr + byteLength length)) ∧
        (r = 0 → SetsRange c.vmArea c'.vmArea prot addr (byteLength length)) ∧
        (r ≠ 0 → r = -1 ∧ c'.vmArea = c.vmArea) := by
  have I : ProtectInv H.mmapAreaStart c length := ⟨hs, by omega, hv⟩
  refine ⟨I.exists_returns prot addr, fun r c' h => ?_⟩
  have hset := fun hr => h.setsRange I hal haddr hr
  obtain ⟨hround, -, -, hdvd⟩ := hv.bytes
  obtain ⟨hpos, -⟩ := id hv
  have hle := hv.le_roundUp
  have covered {before cur rest}
      (E : Enters H c.vmArea prot addr length (addr + byteLength length) before cur rest) :
      Covered c.vmArea addr (addr + byteLength length) :=
    E.covered.round hal (by omega) (Nat.dvd_add haddr hdvd) (by omega)
  cases h.outcome I with
  | refused hno =>
    refine ⟨iff_of_false (by decide) fun hcov => ?_, hset, fun _ => ⟨rfl, rfl⟩⟩
    obtain ⟨before, cur, rest, E⟩ := hcov.enters hs hcount hv
    obtain ⟨hlt, rfl⟩ := hno _ _ _ E
    exact hlt.not_ge (E.le_of_covered hs hcov)
  | last E => exact ⟨iff_of_true rfl (covered E), hset, fun h => (h rfl).elim⟩
  | more E => exact ⟨iff_of_true rfl (covered E), hset, fun h => (h rfl).elim⟩
  | failed E hlt _ hno =>
    obtain ⟨a, hr⟩ := E.reaches hs hal haddr hv (covered E) hlt
    exact (hno _ _ hr).elim

theorem VmAreaMprotect.whole_or_nothing_of_twoAreas :
    (∃ r c', VmAreaMprotect twoAreas (2 ^ 20) 12288 3 r c') ∧
      ∀ r c', VmAreaMprotect twoAreas (2 ^ 20) 12288 3 r c' →
        (r = 0 ↔ Covered twoAreas.vmArea (2 ^ 20) (2 ^ 20 + byteLength 12288)) ∧
        (r = 0 → SetsRange twoAreas.vmArea c'.vmArea 3 (2 ^ 20) (byteLength 12288)) ∧
        (r ≠ 0 → r = -1 ∧ c'.vmArea = twoAreas.vmArea) :=
  VmAreaMprotect.whole_or_nothing (by simp [Sorted, twoAreas, Header.megabyte])
    (by simp [Aligned, twoAreas]) (by decide) (by decide) (by decide)

/-! ## The page table -/

/-- The entry is writable exactly if `prot` contains `PROT_WRITE`. -/
def Follows (H : Header) (prot : BitVec 32) (pte : Pte) : Prop :=
  pte.writable ↔ prot &&& H.protWrite ≠ 0

/-- Every page of the range that was present has an entry that follows `prot`. -/
def RangeFollows (c c' : ExecContext P) (prot : BitVec 32) (addr len : Nat) : Prop :=
  ∀ page, addr ≤ page * 4096 → page * 4096 < addr + len → P.entry c.pgd page ≠ none →
    ∃ pte, P.entry c'.pgd page = some pte ∧ Follows H prot pte

/-- A call that sets the flags of a covered range, with a present page whose entry does not follow
`prot` in front of the area that the range ends in. -/
def ProtectStale (c : ExecContext P) (addr : Nat) (length : Int) (prot : BitVec 32) : Prop :=
  (∃ before cur rest,
    Enters H c.vmArea prot addr length (addr + byteLength length) before cur rest) ∧
  Covered c.vmArea addr (addr + byteLength length) ∧
  ∃ b ∈ c.vmArea, b.vmStart < addr + byteLength length ∧ addr + byteLength length ≤ b.vmEnd ∧
    ∃ page pte, addr ≤ page * 4096 ∧ page * 4096 < b.vmStart ∧
      P.entry c.pgd page = some pte ∧ ¬Follows H prot pte

/-- After a successful call the entries of the range follow `prot` exactly when those in front of
the last area did before. -/
theorem VmAreaMprotect.rangeFollows_iff (h : VmAreaMprotect c addr length prot r c')
    (hs : Sorted H.mmapAreaStart c.vmArea H.mmapAreaEnd) (hal : Aligned c.vmArea)
    (haddr : 4096 ∣ addr) (hv : ValidLength length) :
    (r = 0 → RangeFollows c c' prot addr (byteLength length)) ↔ ¬ProtectStale c addr length prot := by
  have hendlt := H.end_lt
  obtain ⟨-, hpos, hlt, hdvd⟩ := hv.bytes
  rcases h.updates hs hal haddr hv with ⟨rfl, -, hno⟩ | ⟨_, _, _, b, rfl, E, hcov, hb, h₁, h₂, hpgd⟩
  · exact iff_of_true (fun h => by cases h) fun ⟨⟨_, _, _, E⟩, hcov, _⟩ => hno _ _ _ E hcov
  have hstart := (hal b hb).1
  have hend := (hs.bounds hb).2.2
  have hmax : 4096 ∣ max addr b.vmStart := max_rec' (4096 ∣ ·) haddr hstart
  -- inside the last area the entries are updated, in front of it they stay
  have updated {page pte} (hb' : b.vmStart ≤ page * 4096) (ha : addr ≤ page * 4096)
      (hlt : page * 4096 < addr + byteLength length) (hp : P.entry c.pgd page = some pte) :
      ∃ pte', P.entry c'.pgd page = some pte' ∧ Follows H prot pte' := by
    have hin : Paging.InRange (max addr b.vmStart)
        (addr + byteLength length - max addr b.vmStart : Nat) page := by
      unfold Paging.InRange
      omega
    obtain ⟨pfn, hentry, -⟩ : ∃ pfn, P.entry (P.updateMap c.pgd _ prot _) page =
        some ⟨pfn, _⟩ ∧ _ :=
      (Paging.entry_updateMap_of_inRange (Int.natCast_nonneg _) (by omega) (by omega) hin).2 pte hp
    rw [hpgd]
    exact ⟨_, hentry, by simp [Follows]⟩
  have kept {page} (hlt : page * 4096 < b.vmStart) :
      P.entry c'.pgd page = P.entry c.pgd page := by
    rw [hpgd]
    refine Paging.entry_updateMap_of_not_inRange (Int.natCast_nonneg _) (by omega) (by omega) ?_
    unfold Paging.InRange
    omega
  constructor
  · rintro hall ⟨-, -, b', hb', h₁', h₂', page, pte, ha, hlt, hp, hnot⟩
    obtain rfl : b' = b := hs.eq_of_mem hb' hb
      (show b'.vmStart ≤ addr + byteLength length - 1 ∧ _ by omega) (by omega)
    obtain ⟨pte', hp', hfollows⟩ := hall rfl page ha (by omega) (by simp [hp])
    cases hp.symm.trans ((kept hlt).symm.trans hp')
    exact hnot hfollows
  · intro hstale _ page ha hlt hne
    obtain ⟨pte, hp⟩ := Option.ne_none_iff_exists'.mp hne
    by_cases hb' : b.vmStart ≤ page * 4096
    · exact updated hb' ha hlt hp
    · have hlt := Nat.lt_of_not_le hb'
      refine ⟨pte, (kept hlt).trans hp, by_contra fun hnot => hstale ?_⟩
      exact ⟨⟨_, _, _, E⟩, hcov, b, hb, h₁, h₂, page, pte, ha, hlt, hp, hnot⟩

/-- A page of an area with the flags 3, present, and a page of an area with the flags 1. -/
def writablePage : ExecContext (Paging.counting .megabyte) :=
  ⟨[⟨2 ^ 20, 2 ^ 20 + 4096, 3⟩, ⟨2 ^ 20 + 4096, 2 ^ 20 + 8192, 1⟩],
    (Paging.counting .megabyte).mapPhysicalPage .empty (2 ^ 20) 3 0⟩

theorem writablePage_protect : VmAreaMprotect writablePage (2 ^ 20) 8192 1 0
    ⟨[⟨2 ^ 20, 2 ^ 20 + 8192, 1⟩],
      (Paging.counting .megabyte).updateMap writablePage.pgd (2 ^ 20 + 4096) 1 4096⟩ := by
  refine Returns.of_run (n := 2) ?_
  simp [run, protectBody, protectScan, protectFront, protectReturn, protectRest, joinPrev, joinNext,
    writablePage, Header.megabyte, roundUp, u64, int32, Option.filter]

theorem VmAreaMprotect.rangeFollows_of_writablePage :
    ((0 : Int) = 0 → RangeFollows writablePage
      ⟨[⟨2 ^ 20, 2 ^ 20 + 8192, 1⟩],
        (Paging.counting .megabyte).updateMap writablePage.pgd (2 ^ 20 + 4096) 1 4096⟩
      1 (2 ^ 20) (byteLength 8192)) ↔
    ¬ProtectStale writablePage (2 ^ 20) 8192 1 :=
  VmAreaMprotect.rangeFollows_iff writablePage_protect
    (by simp [Sorted, writablePage, Header.megabyte]) (by simp [Aligned, writablePage]) (by decide)
    (by decide)

/-- The page of the first area stays writable when both areas are made read-only. -/
theorem not_rangeFollows : ¬∀ {H : Header} {P : Paging H} {c c' : ExecContext P} {addr : Nat}
    {length r : Int} {prot : BitVec 32}, VmAreaMprotect c addr length prot r c' →
    Sorted H.mmapAreaStart c.vmArea H.mmapAreaEnd → Aligned c.vmArea → 4096 ∣ addr →
    ValidLength length → r = 0 → RangeFollows c c' prot addr (byteLength length) := by
  intro h
  obtain ⟨pte, hentry, hfollows⟩ := h writablePage_protect
    (by simp [Sorted, writablePage, Header.megabyte]) (by simp [Aligned, writablePage]) (by decide)
    (by decide) rfl 256 (by decide) (by decide) (by decide)
  have hstays : (Paging.counting .megabyte).entry ((Paging.counting .megabyte).updateMap
      writablePage.pgd (2 ^ 20 + 4096) 1 4096) 256 = some ⟨0, true⟩ := by decide
  cases hstays.symm.trans hentry
  simp [Follows, Header.megabyte] at hfollows

end CS330
