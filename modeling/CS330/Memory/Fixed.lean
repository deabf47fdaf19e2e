import CS330.Memory.FirstFit

/-! # Calls with `MAP_FIXED`

Where the range leaves the region `vm_area_map` compares the whole flags word with `MAP_FIXED`, and
a call that sets another flag as well is served without its hint. -/

namespace CS330

variable {H : Header} {P : Paging H} {c c' : ExecContext P} {prot flags : BitVec 32}
  {l len addr : Nat} {length : Int}

/-- The call returns, and it maps the range it was asked for or fails and changes nothing. -/
def HonoursFixed (c : ExecContext P) (addr : Nat) (length : Int) (prot flags : BitVec 32) : Prop :=
  ∃ r c', VmAreaMap c addr length prot flags r c' ∧
    (r = addr ∧ MapsRange c.vmArea c'.vmArea prot addr (byteLength length) ∨ r = -1 ∧ c' = c)

/-- A call without hint is refused: the region is empty and too small, or the first gap that is long
enough needs an area and there is none left. -/
def NoHintRefuses (H : Header) (vms : List VmArea) (prot : BitVec 32) (len : Nat) : Prop :=
  vms = [] ∧ H.mmapAreaEnd < H.mmapAreaStart + len ∨
    ∃ g, IsLeast {g | FreeRange H vms len g} g ∧ Crowded vms prot g len

theorem Places.honours {res} (h : Places c prot flags l len addr res) (hpos : 0 < len) :
    res.1 = addr ∧ MapsRange c.vmArea res.2.vmArea prot addr len ∨ res = (-1, c) := by
  have hend := H.end_lt
  obtain ⟨vms, hi, hres⟩ := h
  have hb := hi.bounds.2
  have hret : (mapReturn c prot flags len vms addr).1 = addr := int64_eq (by omega) (by omega)
  have hmaps : MapsRange c.vmArea (mapReturn c prot flags len vms addr).2.vmArea prot addr len :=
    hi.mapsRange hpos
  rcases hres with ⟨-, rfl⟩ | rfl
  · exact .inl ⟨hret, hmaps⟩
  · unfold mapReturnNew
    split
    · exact .inr rfl
    · exact .inl ⟨hret, hmaps⟩

section
variable (hs : Sorted H.mmapAreaStart c.vmArea H.mmapAreaEnd) (hlen : len < 2 ^ 31) (hpos : 0 < len)
  (hround : roundUp length = len) (hcount : c.vmArea.length ≤ 128)
include hs hlen hpos hround hcount

/-- Without hint a call is refused, or it takes a gap, or it does not return. -/
theorem mapNoHint_refuses_or {res} (h : Returns (mapBody P c prot flags) (.entry 0 length) res) :
    NoHintRefuses H c.vmArea prot len ∧ res = (-1, c) ∨
      ¬NoHintRefuses H c.vmArea prot len ∧ res.1 ≠ -1 ∧
        Sorted H.mmapAreaStart res.2.vmArea H.mmapAreaEnd := by
  rcases mapNoHint_firstGap hs hlen hpos hround hcount h with ⟨hnil, hno, rfl⟩ | ⟨g, hg, htakes⟩
  · exact .inl ⟨.inl ⟨hnil, hno⟩, rfl⟩
  have hleast := Interval.Ordered.isLeast_firstGap hs hpos hg
  simp only [free_intervals] at hleast
  rcases htakes with ⟨hcrowded, rfl⟩ | ⟨hcrowded, hi, hne⟩
  · exact .inl ⟨.inr ⟨g, hleast, hcrowded⟩, rfl⟩
  · refine .inr ⟨?_, hne, hi.sorted (by omega)⟩
    rintro (⟨-, hno⟩ | ⟨g', hleast', hcrowded'⟩)
    · have := hi.bounds
      omega
    · rw [hleast'.unique hleast] at hcrowded'
      exact hcrowded hcrowded'

theorem mapNoHint_refuses_iff : Returns (mapBody P c prot flags) (.entry 0 length) (-1, c) ↔
    NoHintRefuses H c.vmArea prot len := by
  constructor
  · intro h
    rcases mapNoHint_refuses_or hs hlen hpos hround hcount h with ⟨hrefuses, -⟩ | ⟨-, hne, -⟩
    · exact hrefuses
    · exact absurd rfl hne
  · intro h
    have hreturns : c.vmArea = [] ∨ ∃ g, FreeRange H c.vmArea len g :=
      h.imp (fun h => h.1) fun ⟨g, hleast, _⟩ => ⟨g, hleast.1⟩
    obtain ⟨res, hres⟩ := (mapNoHint_returns_iff hs hlen hpos prot flags hround hcount).2 hreturns
    rcases mapNoHint_refuses_or hs hlen hpos hround hcount hres with ⟨-, rfl⟩ | ⟨hnot, -⟩
    · exact hres
    · exact absurd h hnot

end

/-- A call with `MAP_FIXED` is honoured if and only if, where its range leaves the region behind and
another flag is set, the same call without hint is refused. -/
theorem honoursFixed_iff (hs : Sorted H.mmapAreaStart c.vmArea H.mmapAreaEnd) (haddr : addr ≠ 0)
    (hv : ValidLength length) (hfixed : flags &&& H.mapFixed ≠ 0) :
    HonoursFixed c addr length prot flags ↔
      (c.vmArea.length ≤ 128 → H.mmapAreaStart ≤ addr → addr ≤ H.mmapAreaEnd →
        H.mmapAreaEnd < addr + byteLength length → flags ≠ H.mapFixed →
        NoHintRefuses H c.vmArea prot (byteLength length)) := by
  obtain ⟨hround, hpos, hlt, hdvd⟩ := hv.bytes
  have refused (h : mapBody P c prot flags (.entry addr length) = .ret (-1, c)) :
      HonoursFixed c addr length prot flags := ⟨-1, c, .ret h, .inr ⟨rfl, rfl⟩⟩
  by_cases hcount : c.vmArea.length > 128
  · refine iff_of_true (refused ?_) fun hle => absurd hle hcount.not_ge
    simp only [mapBody, if_pos hcount]
  have hbody : mapBody P c prot flags (.entry addr length) =
      mapHint c prot flags addr (byteLength length) := by
    simp only [mapBody, hround, if_neg hcount, if_neg haddr]
  have hcase : HintCase c prot flags addr (byteLength length) _ := mapHint_case hlt hpos fun p hp =>
    (hs.bounds hp).2.2
  rw [← hbody] at hcase
  cases hb : mapBody P c prot flags (.entry addr length) with
  | ret res =>
    have hhonours : HonoursFixed c addr length prot flags := by
      rcases mapHint_places hs le_rfl hlt hpos (hbody.symm.trans hb) with rfl | hplaces
      · exact refused hb
      · rcases hplaces.honours hpos with ⟨hret, hmaps⟩ | rfl
        · exact ⟨_, _, .ret hb, .inl ⟨hret, hmaps⟩⟩
        · exact refused hb
    refine iff_of_true hhonours fun _ hstart hend hbeyond hne => ?_
    rw [hb] at hcase
    cases hcase with
    | outside hout => omega
    | beyondFixed _ _ heq => exact absurd heq hne
    | front hin | behind hin | meetsFixed hin | between hin => omega
  | stuck =>
    rw [hb] at hcase
    cases hcase
  | call pt =>
    rw [hb] at hcase
    cases hcase with
    | meets _ _ _ _ hzero => exact absurd hzero hfixed
    | meetsLast _ _ _ _ hzero => exact absurd hzero hfixed
    | beyond hin hbeyond hne =>
      have hround' : roundUp (byteLength length) = byteLength length :=
        roundUp_of_dvd (Int.natCast_dvd_natCast.2 hdvd)
      have hrefuses : Returns (mapBody P c prot flags) (.entry 0 (byteLength length)) (-1, c) ↔
          NoHintRefuses H c.vmArea prot (byteLength length) :=
        mapNoHint_refuses_iff hs hlt hpos hround' (not_lt.1 hcount)
      constructor
      · rintro ⟨r, c', h, hret⟩ - - - - -
        have h' := (Returns.call_iff hb).1 h
        rcases mapNoHint_refuses_or hs hlt hpos hround' (not_lt.1 hcount) h' with
          ⟨hrefuses, -⟩ | ⟨-, hne, hsorted⟩
        · exact hrefuses
        · rcases hret with ⟨-, hmaps⟩ | ⟨rfl, -⟩
          · -- the areas end with the region, the range does not
            have hcovered := ((hmaps H.mmapAreaEnd).1 (by omega)).2
            rw [hsorted.coverage_eq_none (.inr le_rfl)] at hcovered
            cases hcovered
          · exact absurd rfl hne
      · intro h
        have hno := h (not_lt.1 hcount) hin.1 hin.2 hbeyond hne
        exact ⟨-1, c, (Returns.call_iff hb).2 (hrefuses.2 hno), .inr ⟨rfl, rfl⟩⟩

theorem fresh_sorted : Sorted Header.megabyte.mmapAreaStart ExecContext.fresh.vmArea
    Header.megabyte.mmapAreaEnd := by
  simp [Sorted, ExecContext.fresh, Header.megabyte]

/-- Two flags, and a range inside the region. -/
theorem honoursFixed_of_fresh : HonoursFixed ExecContext.fresh (2 ^ 20) 8192 3 3 := by
  refine (honoursFixed_iff fresh_sorted (by decide) (by decide) (by decide)).2 ?_
  exact fun _ _ _ hbeyond => absurd hbeyond (by decide)

/-- The last page of the region is asked for, and two are mapped at its start. -/
theorem not_honoursFixed : ¬∀ {H : Header} {P : Paging H} {c : ExecContext P} {addr : Nat}
    {length : Int} {prot flags : BitVec 32}, Sorted H.mmapAreaStart c.vmArea H.mmapAreaEnd →
    Aligned c.vmArea → addr ≠ 0 → 4096 ∣ addr → ValidLength length →
    H.mapFixed &&& H.mapPopulate = 0 → flags &&& H.mapFixed ≠ 0 →
    HonoursFixed c addr length prot flags := by
  intro h
  obtain ⟨r, c', hmap, hret⟩ : HonoursFixed ExecContext.fresh (2 ^ 21 - 4096) 8192 1 3 :=
    h fresh_sorted (by simp [Aligned, ExecContext.fresh]) (by decide) (by decide) (by decide)
      (by decide) (by decide)
  have hcall : mapBody (Paging.counting .megabyte) ExecContext.fresh 1 3
      (.entry (2 ^ 21 - 4096) 8192) = .call (.entry 0 8192) := by
    simp [mapBody, mapHint, ExecContext.fresh, Header.megabyte, roundUp, u64]
  have hplaced : mapBody (Paging.counting .megabyte) ExecContext.fresh 1 3 (.entry 0 8192) =
      .ret (mapReturn ExecContext.fresh 1 3 8192 [⟨2 ^ 20, 2 ^ 20 + 8192, 1⟩] (2 ^ 20)) := by
    simp [mapBody, mapNoHint, mapReturnNew, ExecContext.fresh, Header.megabyte, roundUp, u64]
  have hres := (Returns.ret_iff hplaced).1 ((Returns.call_iff hcall).1 hmap)
  have hr : r = 2 ^ 20 := (congrArg Prod.fst hres).trans (by decide)
  rcases hret with ⟨hret, -⟩ | ⟨hret, -⟩
  · omega
  · omega

end CS330
