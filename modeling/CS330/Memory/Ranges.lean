import CS330.Memory.MapSpec
import CS330.Memory.UnmapSpec

/-! # The ranges that `vm_area_map` and `vm_area_unmap` change

On sorted lists inside the region. A call of `vm_area_map` returns the range it mapped unless it
fills a gap; a call of `vm_area_unmap` removes exactly its range unless it stops short of the
first area behind it. -/

namespace CS330

variable {H : Header} {P : Paging H} {c c' : ExecContext P} {addr len : Nat} {length r : Int}
  {prot flags : BitVec 32} {vms vms' : List VmArea}

/-! ## `vm_area_map` -/

/-- The `len` bytes from `r` on were free before and have the flags `prot` after; nothing else
has changed. -/
def MapsRange (vms vms' : List VmArea) (prot : BitVec 32) (r : Int) (len : Nat) : Prop :=
  ∀ x : Nat, (r ≤ x ∧ x < r + len → coverage vms x = none ∧ coverage vms' x = some prot) ∧
    (¬(r ≤ x ∧ x < r + len) → coverage vms' x = coverage vms x)

theorem InsertedAt.mapsRange {l a u : Nat} (h : InsertedAt l vms prot a (a + len) vms' u)
    (hlen : 0 < len) : MapsRange vms vms' prot a len := by
  intro x
  have heq := h.coverage_eq (x := x) (by omega)
  refine ⟨fun hx => ⟨h.free (by omega) (by omega), ?_⟩, fun hx => ?_⟩
  · rw [heq, if_pos (by omega)]
  · rw [heq, if_neg (by omega)]

/-- A successful call returns the range it mapped exactly when it does not fill a gap between two
areas of the requested flags. -/
theorem VmAreaMap.maps_returned_range_iff (hs : Sorted H.mmapAreaStart c.vmArea H.mmapAreaEnd)
    (hv : ValidLength length) (h : VmAreaMap c addr length prot flags r c') :
    (r ≠ -1 → MapsRange c.vmArea c'.vmArea prot r (byteLength length)) ↔
      ¬∃ a, FillsGap H c.vmArea addr (byteLength length) prot flags a := by
  have hend := H.end_lt
  obtain ⟨-, hpos, -⟩ := hv.bytes
  have O := h.outcome hs le_rfl hv
  change MapOutcome _ _ _ _ (byteLength length) _ _ _ at O
  generalize hres : (r, c') = res at O
  cases O with
  | refused hno =>
    obtain ⟨rfl, rfl⟩ := Prod.mk.inj hres
    exact iff_of_true (fun h => (h rfl).elim) fun ⟨a, ha⟩ => hno a ha
  | @placed a vms hno hi =>
    have hret := (Prod.mk.inj hres).1
    have hareas := congrArg ExecContext.vmArea (Prod.mk.inj hres).2
    have hb := hi.bounds.2
    rw [int64_eq (by omega) (by omega)] at hret
    refine iff_of_true (fun _ => ?_) fun ⟨a, ha⟩ => hno a ha
    rw [hret, hareas]
    exact hi.mapsRange hpos
  | @filled a vms hfill hi =>
    have hret := (Prod.mk.inj hres).1
    have hareas := congrArg ExecContext.vmArea (Prod.mk.inj hres).2
    have hb := hi.bounds.2
    rw [int64_eq (by omega) (by omega)] at hret
    refine iff_of_false (fun h => ?_) fun h => h ⟨a, hfill⟩
    -- the range really mapped lies below the returned one
    have hmaps := (h (by omega) a).2 (by omega)
    rw [hareas] at hmaps
    have := hi.mapsRange hpos a
    rw [hmaps] at this
    have := this.1 ⟨le_rfl, by omega⟩
    rw [this.1] at this
    exact absurd this.2 (by simp)

/-- A gap of one page between two areas with the same flags. -/
def onePageGap : ExecContext (Paging.counting .megabyte) :=
  ⟨[⟨2 ^ 20, 2 ^ 20 + 4096, 1⟩, ⟨2 ^ 20 + 8192, 2 ^ 20 + 12288, 1⟩], CountingTable.empty⟩

theorem map_onePageGap : VmAreaMap onePageGap 0 4096 1 0 (2 ^ 20 + 8192)
    ⟨[⟨2 ^ 20, 2 ^ 20 + 12288, 1⟩], CountingTable.empty⟩ := by
  refine Returns.of_run (n := 2) ?_
  simp [run, mapBody, mapNoHint, mapSearch, onePageGap, Header.megabyte, roundUp, u64, mapReturn,
    int64]

/-- With other flags the gap is mapped and its start is returned. -/
theorem VmAreaMap.maps_returned_range_of_onePageGap :
    ((2 ^ 20 + 4096 : Int) ≠ -1 → MapsRange onePageGap.vmArea
      [⟨2 ^ 20, 2 ^ 20 + 4096, 1⟩, ⟨2 ^ 20 + 4096, 2 ^ 20 + 8192, 3⟩,
        ⟨2 ^ 20 + 8192, 2 ^ 20 + 12288, 1⟩] 3 (2 ^ 20 + 4096) (byteLength 4096)) ↔
      ¬∃ a, FillsGap .megabyte onePageGap.vmArea 0 (byteLength 4096) 3 0 a := by
  have h : VmAreaMap onePageGap 0 4096 3 0 (2 ^ 20 + 4096)
      ⟨[⟨2 ^ 20, 2 ^ 20 + 4096, 1⟩, ⟨2 ^ 20 + 4096, 2 ^ 20 + 8192, 3⟩,
        ⟨2 ^ 20 + 8192, 2 ^ 20 + 12288, 1⟩], CountingTable.empty⟩ := by
    refine Returns.of_run (n := 2) ?_
    simp [run, mapBody, mapNoHint, mapSearch, onePageGap, Header.megabyte, roundUp, u64, mapReturn,
      mapReturnNew, int64]
  exact VmAreaMap.maps_returned_range_iff (by simp [Sorted, onePageGap, Header.megabyte])
    (by decide) h

/-- The call that fills the gap returns the start of the area behind it. -/
theorem not_maps_returned_range : ¬∀ {H : Header} {P : Paging H} {c c' : ExecContext P} {addr : Nat}
    {length r : Int} {prot flags : BitVec 32}, Sorted H.mmapAreaStart c.vmArea H.mmapAreaEnd →
    Aligned c.vmArea → addr = 0 ∨ 4096 ∣ addr → ValidLength length →
    VmAreaMap c addr length prot flags r c' → r ≠ -1 →
    MapsRange c.vmArea c'.vmArea prot r (byteLength length) := by
  intro h
  have := h (by simp [Sorted, onePageGap, Header.megabyte]) (by simp [Aligned, onePageGap])
    (.inl rfl) (by decide) map_onePageGap (by decide) (2 ^ 20 + 8192)
  simp [onePageGap, coverage, byteLength, roundUp] at this

/-! ## `vm_area_unmap` -/

/-- No byte of the range is covered after, and the coverage of the others has not changed. -/
def UnmapsRange (vms vms' : List VmArea) (addr len : Nat) : Prop :=
  ∀ x, (addr ≤ x ∧ x < addr + len → coverage vms' x = none) ∧
    (¬(addr ≤ x ∧ x < addr + len) → coverage vms' x = coverage vms x)

theorem UnmapsRange.of_erase {l u : Nat} (hs : Sorted l vms u)
    (h : intervals vms' = Interval.erase addr (addr + len) (intervals vms)) :
    UnmapsRange vms vms' addr len := by
  intro x
  have := Interval.Ordered.lookup_erase (x := x) hs (Nat.le_add_right addr len)
  rw [← h, lookup_intervals, lookup_intervals] at this
  exact ⟨fun hx => by rw [this, if_pos hx], fun hx => by rw [this, if_neg hx]⟩

/-- In a region of less than 2^31 bytes the remaining length never wraps around. -/
theorem not_overruns (hs : Sorted H.mmapAreaStart vms H.mmapAreaEnd)
    (hsize : H.mmapAreaEnd < H.mmapAreaStart + 2 ^ 31) (haddr : H.mmapAreaStart ≤ addr) :
    ¬Overruns vms addr len := by
  rintro ⟨_, _, b, hb, hpos⟩
  have hb' := List.find?_some hb
  have := hs.bounds (List.mem_of_find?_eq_some hb)
  simp only [decide_eq_true_eq] at hb'
  rw [int32_eq (by omega) (by omega)] at hpos
  omega

/-- Bytes behind the range get covered when the area there is extended down to it. -/
theorem not_unmapsRange_of_extends (hs : Sorted H.mmapAreaStart vms H.mmapAreaEnd)
    (haddr : H.mmapAreaStart ≤ addr) (hpos : 0 < len) (hlen : len < 2 ^ 31)
    (hsplit : ¬Splits vms addr len) (hshort : StopsShort vms addr len) (n : Nat) :
    (unmapLoop n addr len vms).1 = true ∧
      ¬UnmapsRange vms (unmapLoop n addr len vms).2 addr len := by
  obtain ⟨xs, b, ys, rfl, hxs, hlt, heq⟩ :=
    unmapLoop_extends (n := n) hs H.end_lt hpos hlen hsplit hshort
  have hs' : Sorted H.mmapAreaStart (unmapLoop n addr len (xs ++ b :: ys)).2 H.mmapAreaEnd :=
    unmapLoop_sorted hs H.end_lt le_rfl (by omega) (by omega)
  rw [heq] at hs' ⊢
  refine ⟨rfl, fun h => ?_⟩
  have hout := (h (addr + len)).2 (by omega)
  obtain ⟨hx, _, hy⟩ := sorted_middle.mp hs
  have hbefore : coverage (xs ++ b :: ys) (addr + len) = none := by
    rw [coverage_append, (hx.restrict (by omega) fun p hp => (hxs p hp).2).coverage_eq_none
      (.inr le_rfl), coverage_cons, if_neg (by omega), hy.coverage_eq_none (.inl (by omega))]
    rfl
  have hafter : coverage (cutAt addr xs ++ { b with vmStart := addr + len } :: ys) (addr + len) =
      some b.accessFlags := by
    obtain ⟨hcut, hne, _⟩ := sorted_middle.mp hs'
    rw [coverage_append, hcut.coverage_eq_none (.inr le_rfl), coverage_cons,
      if_pos ⟨le_rfl, hne⟩]
    rfl
  rw [hbefore, hafter] at hout
  cases hout

/-- A successful call removes exactly its range when the list is too long (it fails then), the
range is cut out of one area, or no area starts beyond the range next to `addr`. -/
theorem vmAreaUnmap_unmaps_range_iff (hs : Sorted H.mmapAreaStart c.vmArea H.mmapAreaEnd)
    (hsize : H.mmapAreaEnd < H.mmapAreaStart + 2 ^ 31) (haddr : H.mmapAreaStart ≤ addr)
    (hv : ValidLength length) (h : vmAreaUnmap c addr length = (r, c')) :
    (r = 0 → UnmapsRange c.vmArea c'.vmArea addr (byteLength length)) ↔
      128 < c.vmArea.length ∨ Splits c.vmArea addr (byteLength length) ∨
        ¬StopsShort c.vmArea addr (byteLength length) := by
  obtain ⟨hround, hpos, hlt, -⟩ := hv.bytes
  rw [vmAreaUnmap, hround] at h
  split at h
  next hfull =>
    obtain ⟨rfl, rfl⟩ := Prod.mk.inj h
    exact iff_of_true (by omega) (.inl hfull)
  next hfull =>
    have hret : r = 0 ↔
        (unmapLoop c.vmArea.length addr (byteLength length) c.vmArea).1 = true := by
      split at h <;> simp [← (Prod.mk.inj h).1, *]
    have hareas : c'.vmArea =
        (unmapLoop c.vmArea.length addr (byteLength length) c.vmArea).2 := by
      split at h <;> simp [← (Prod.mk.inj h).2, *]
    rw [hret, hareas]
    by_cases hsplit : Splits c.vmArea addr (byteLength length)
    · have hcut := unmapLoop_splits (n := c.vmArea.length) hs H.end_lt hpos hlt hsplit
      exact iff_of_true (fun hdone => .of_erase hs (hcut.2 (hcut.1.mp hdone)))
        (.inr (.inl hsplit))
    · by_cases hshort : StopsShort c.vmArea addr (byteLength length)
      · have hext := not_unmapsRange_of_extends hs haddr hpos hlt hsplit hshort c.vmArea.length
        refine iff_of_false (fun h => hext.2 (h hext.1)) ?_
        simp [hfull, hsplit, hshort]
      · have herase := unmapLoop_erases (n := c.vmArea.length) hs H.end_lt hpos hlt
          (by omega) hsplit hshort (not_overruns hs hsize haddr)
        exact iff_of_true (fun _ => .of_erase hs herase.2) (.inr (.inr hshort))

/-- The second area is removed. -/
theorem vmAreaUnmap_unmaps_range_of_onePageGap :
    ((0 : Int) = 0 → UnmapsRange onePageGap.vmArea [⟨2 ^ 20, 2 ^ 20 + 4096, 1⟩] (2 ^ 20 + 8192)
      (byteLength 4096)) ↔
    128 < onePageGap.vmArea.length ∨ Splits onePageGap.vmArea (2 ^ 20 + 8192) (byteLength 4096) ∨
      ¬StopsShort onePageGap.vmArea (2 ^ 20 + 8192) (byteLength 4096) := by
  have h : vmAreaUnmap onePageGap (2 ^ 20 + 8192) 4096 =
      (0, ⟨[⟨2 ^ 20, 2 ^ 20 + 4096, 1⟩],
        (Paging.counting .megabyte).unmap .empty (2 ^ 20 + 8192) 4096⟩) := by
    simp [vmAreaUnmap, unmapLoop, onePageGap, roundUp, u64]
  exact vmAreaUnmap_unmaps_range_iff (by simp [Sorted, onePageGap, Header.megabyte]) (by decide)
    (by decide) (by decide) h

/-- Unmapping the tail of an area covers the gap behind it. -/
theorem not_unmaps_range : ¬∀ {H : Header} {P : Paging H} {c c' : ExecContext P} {addr : Nat}
    {length r : Int}, Sorted H.mmapAreaStart c.vmArea H.mmapAreaEnd → Aligned c.vmArea →
    H.mmapAreaEnd < H.mmapAreaStart + 2 ^ 31 → 4096 ∣ addr → H.mmapAreaStart ≤ addr →
    addr < H.mmapAreaEnd → ValidLength length → vmAreaUnmap c addr length = (r, c') → r = 0 →
    UnmapsRange c.vmArea c'.vmArea addr (byteLength length) := by
  intro h
  let c : ExecContext (Paging.counting .megabyte) :=
    ⟨[⟨2 ^ 20, 2 ^ 20 + 8192, 1⟩, ⟨2 ^ 20 + 16384, 2 ^ 20 + 20480, 1⟩], CountingTable.empty⟩
  have hcall : vmAreaUnmap c (2 ^ 20 + 4096) 4096 =
      (0, ⟨[⟨2 ^ 20, 2 ^ 20 + 4096, 1⟩, ⟨2 ^ 20 + 8192, 2 ^ 20 + 20480, 1⟩],
        (Paging.counting .megabyte).unmap .empty (2 ^ 20 + 4096) 4096⟩) := by
    simp [vmAreaUnmap, unmapLoop, c, roundUp, u64, int32]
  have := (h (by simp [Sorted, c, Header.megabyte]) (by simp [Aligned, c]) (by decide) (by decide)
    (by decide) (by decide) (by decide) hcall rfl (2 ^ 20 + 8192)).2
  simp [c, coverage, byteLength, roundUp] at this

end CS330
