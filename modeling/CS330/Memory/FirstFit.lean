import CS330.Lib.FirstGap
import CS330.Memory.Ranges
import Mathlib.Algebra.Order.Group.Nat

/-! # The search of `vm_area_map`

A call without hint takes the first gap that is long enough. The search loop does not leave the
last area when there is no room behind it, so it goes on for ever unless some gap is long enough. -/

namespace CS330

open CS330.Interval (firstGap)

variable {H : Header} {P : Paging H} {c c' : ExecContext P} {prot flags : BitVec 32}
  {l u len g addr : Nat} {length r : Int} {vms passed rest : List VmArea} {cur : VmArea}

/-- The `len` bytes from `g` on lie in the region, and none of them is covered. -/
def FreeRange (H : Header) (vms : List VmArea) (len g : Nat) : Prop :=
  H.mmapAreaStart ≤ g ∧ g + len ≤ H.mmapAreaEnd ∧
    ∀ x, g ≤ x → x < g + len → coverage vms x = none

theorem free_intervals : Interval.Free (intervals vms) H.mmapAreaStart H.mmapAreaEnd len g ↔
    FreeRange H vms len g := by
  simp only [Interval.Free, FreeRange, lookup_intervals]

/-- An area with these flags ends where the range starts, or starts where it ends. -/
def Merges (vms : List VmArea) (prot : BitVec 32) (g len : Nat) : Prop :=
  ∃ p ∈ vms, p.accessFlags = prot ∧ (p.vmEnd = g ∨ p.vmStart = g + len)

/-- The range needs an area of its own, and there is none left. -/
def Crowded (vms : List VmArea) (prot : BitVec 32) (g len : Nat) : Prop :=
  128 ≤ vms.length ∧ ¬Merges vms prot g len

/-- Only the areas next to the gap can be extended. -/
theorem Merges.neighbour {xs ys : List VmArea} (h : Merges (xs ++ ys) prot g len) (hpos : 0 < len)
    (hx : Sorted l xs g) (hy : Sorted (g + len) ys u) :
    (∃ p ∈ xs.getLast?, p.accessFlags = prot) ∨
      ∃ n ∈ ys.head?, n.accessFlags = prot ∧ g + len = n.vmStart := by
  obtain ⟨p, hp, hv, htouch⟩ := h
  rcases List.mem_append.1 hp with hp | hp
  · have hb := hx.bounds hp
    obtain rfl | ⟨xs, q, rfl⟩ := List.eq_nil_or_concat xs
    · cases hp
    rw [List.concat_eq_append] at hp hx ⊢
    have hq := sorted_middle.1 hx
    rcases List.mem_append.1 hp with hp | hp
    · have := hq.1.bounds hp
      have := hq.2.2.le
      omega
    · obtain rfl := List.mem_singleton.1 hp
      exact .inl ⟨p, by simp, hv⟩
  · have hb := hy.bounds hp
    cases ys with
    | nil => cases hp
    | cons n ys =>
      have hn := sorted_cons.1 hy
      rcases List.mem_cons.1 hp with rfl | hp
      · exact .inr ⟨p, rfl, hv, by omega⟩
      · have := hn.2.2.bounds hp
        omega

/-- An insertion that makes no area extends one. -/
theorem InsertedAt.merges {vms' : List VmArea} (h : InsertedAt l vms prot g (g + len) vms' u)
    (hle : vms'.length ≤ vms.length) : Merges vms prot g len := by
  by_contra hno
  have := h.length_eq fun p hp hv =>
    ⟨fun hend => hno ⟨p, hp, hv, .inl hend⟩, fun hstart => hno ⟨p, hp, hv, .inr hstart⟩⟩
  omega

/-- What a call does with the gap it has found. -/
def TakesGap (c : ExecContext P) (prot : BitVec 32) (l len g : Nat)
    (res : Int × ExecContext P) : Prop :=
  Crowded c.vmArea prot g len ∧ res = (-1, c) ∨
    ¬Crowded c.vmArea prot g len ∧
      InsertedAt l c.vmArea prot g (g + len) res.2.vmArea H.mmapAreaEnd ∧ res.1 ≠ -1

theorem mapReturn_fst_ne {a : Nat} (ha : a < 2 ^ 63) :
    (mapReturn c prot flags length vms a).1 ≠ -1 := by
  change int64 a ≠ -1
  rw [int64_eq (by omega) (by omega)]
  omega

theorem TakesGap.merged {a : Nat} (h : InsertedAt l c.vmArea prot g (g + len) vms H.mmapAreaEnd)
    (hle : vms.length ≤ c.vmArea.length) (ha : a ≤ g + len) :
    TakesGap c prot l len g (mapReturn c prot flags len vms a) := by
  have hend := H.end_lt
  have hb := h.bounds.2
  exact .inr ⟨fun hc => hc.2 (h.merges hle), h, mapReturn_fst_ne (by omega)⟩

theorem Places.takesGap {res} (h : Places c prot flags l len g res)
    (hnew : Merges c.vmArea prot g len → res ≠ (-1, c)) : TakesGap c prot l len g res := by
  have hend := H.end_lt
  obtain ⟨vms, hi, ⟨hle, rfl⟩ | rfl⟩ := h
  · exact .merged hi hle (by omega)
  · have hb := hi.bounds.2
    by_cases hcount : c.vmArea.length ≥ 128
    · rw [mapReturnNew, if_pos hcount] at hnew ⊢
      exact .inl ⟨⟨hcount, fun hm => hnew hm rfl⟩, rfl⟩
    · rw [mapReturnNew, if_neg hcount]
      exact .inr ⟨fun hc => hcount hc.1, hi, mapReturn_fst_ne (by omega)⟩

/-! ## The search loop -/

section
variable (hs : Sorted l c.vmArea H.mmapAreaEnd) (hlen : len < 2 ^ 31)
  (hv : c.vmArea = passed ++ cur :: rest)
include hs hlen hv

/-- One iteration returns if the gap behind `cur` is long enough; otherwise it goes on behind the
next area, or stays at the last one. -/
theorem mapSearch_step (prot flags : BitVec 32) :
    (∃ res, mapSearch c prot flags passed cur rest len = .ret res) ∧
        firstGap len H.mmapAreaEnd cur.vmEnd (intervals rest) = some cur.vmEnd ∨
      rest = [] ∧ mapSearch c prot flags passed cur rest len = .call (.search passed cur rest len) ∧
        firstGap len H.mmapAreaEnd cur.vmEnd (intervals rest) = none ∨
      ∃ next rest', rest = next :: rest' ∧
        mapSearch c prot flags passed cur rest len =
          .call (.search (passed ++ [cur]) next rest' len) ∧
        firstGap len H.mmapAreaEnd cur.vmEnd (intervals rest) =
          firstGap len H.mmapAreaEnd next.vmEnd (intervals rest') := by
  have hend := H.end_lt
  have hadd : u64 (cur.vmEnd + len) = cur.vmEnd + len := by
    have := (hs.bounds (p := cur) (by simp [hv])).2.2
    unfold u64; omega
  cases rest with
  | nil =>
    simp only [mapSearch, hadd, intervals_nil, firstGap]
    by_cases hfit : cur.vmEnd + len ≤ H.mmapAreaEnd
    · refine .inl ⟨?_, if_pos hfit⟩
      rw [if_pos hfit]
      split <;> exact ⟨_, rfl⟩
    · exact .inr (.inl ⟨trivial, if_neg hfit, if_neg hfit⟩)
  | cons next rest =>
    simp only [mapSearch, hadd, intervals_cons, firstGap, VmArea.interval_lo, VmArea.interval_hi]
    by_cases hfit : cur.vmEnd + len ≤ next.vmStart
    · refine .inl ⟨?_, if_pos hfit⟩
      rw [if_pos hfit]
      split_ifs <;> exact ⟨_, rfl⟩
    · exact .inr (.inr ⟨next, rest, rfl, if_neg hfit, if_neg hfit⟩)

/-- The search leaves the loop exactly when some gap behind `cur` is long enough. -/
theorem mapSearch_returns_iff :
    (∃ res, Returns (mapBody P c prot flags) (.search passed cur rest len) res) ↔
      firstGap len H.mmapAreaEnd cur.vmEnd (intervals rest) ≠ none := by
  induction rest generalizing passed cur with
  | nil =>
    rcases mapSearch_step hs hlen hv prot flags with
      ⟨⟨res, hret⟩, hgap⟩ | ⟨-, hcall, hgap⟩ | ⟨_, _, h, _⟩
    · rw [hgap]
      exact iff_of_true ⟨res, .ret hret⟩ (Option.some_ne_none _)
    · refine iff_of_false ?_ (not_not.mpr hgap)
      rintro ⟨res, h⟩
      refine Returns.not_of_trap (P := (· = .search passed cur [] (len : Int))) rfl ?_ h
      rintro _ rfl
      exact .inr ⟨_, hcall, rfl⟩
    · cases h
  | cons next rest ih =>
    rcases mapSearch_step hs hlen hv prot flags with
      ⟨⟨res, hret⟩, hgap⟩ | ⟨h, -⟩ | ⟨_, _, h, hcall, hgap⟩
    · rw [hgap]
      exact iff_of_true ⟨res, .ret hret⟩ (Option.some_ne_none _)
    · cases h
    · obtain ⟨rfl, rfl⟩ := List.cons.inj h
      rw [hgap, ← ih (show c.vmArea = (passed ++ [cur]) ++ next :: rest by simp [hv])]
      exact exists_congr fun _ => Returns.call_iff hcall

/-- Where an area can be extended an iteration does not need a new one. -/
theorem mapSearch_ne_of_merges (hpos : 0 < len) (hm : Merges c.vmArea prot cur.vmEnd len) {res}
    (h : mapSearch c prot flags passed cur rest len = .ret res) : res ≠ (-1, c) := by
  have hend := H.end_lt
  have hcur := (hs.bounds (p := cur) (by simp [hv])).2.2
  have hadd : u64 (cur.vmEnd + len) = cur.vmEnd + len := by unfold u64; omega
  rw [hv] at hs hm
  obtain ⟨hpassed, hne, hrest⟩ := sorted_middle.1 hs
  have hprev : Sorted l (passed ++ [cur]) cur.vmEnd :=
    sorted_middle.2 ⟨hpassed, hne, sorted_nil.2 le_rfl⟩
  have returns {vms : List VmArea} {a : Nat} (ha : a < 2 ^ 63)
      (h : Outcome.ret (mapReturn c prot flags len vms a) = (.ret res : Outcome MapPoint _)) :
      res ≠ (-1, c) := by
    obtain rfl := Outcome.ret.inj h
    exact fun heq => mapReturn_fst_ne ha (congrArg Prod.fst heq)
  cases rest with
  | nil =>
    simp only [mapSearch, hadd] at h
    split at h
    next hfit =>
      rcases Merges.neighbour (by simpa using hm) hpos hprev (sorted_nil.2 hfit) with
        ⟨p, hp, hflags⟩ | ⟨n, hn, -⟩
      · obtain rfl : cur = p := by simpa using hp
        rw [if_pos hflags.symm] at h
        exact returns (by omega) h
      · cases hn
    next => cases h
  | cons next rest =>
    simp only [mapSearch, hadd] at h
    split at h
    next hfit =>
      have hnext : Sorted (cur.vmEnd + len) (next :: rest) H.mmapAreaEnd :=
        sorted_cons.2 ⟨hfit, (sorted_cons.1 hrest).2⟩
      have hroom := hnext.le
      split at h
      next => exact returns (by omega) h
      next =>
        split at h
        next => exact returns (by omega) h
        next hleft =>
          rcases Merges.neighbour (by simpa using hm) hpos hprev hnext with
            ⟨p, hp, hflags⟩ | ⟨n, hn, hflags, hstart⟩
          · obtain rfl : cur = p := by simpa using hp
            exact absurd hflags hleft
          · obtain rfl := Option.some.inj hn
            rw [if_pos ⟨hstart, hflags⟩] at h
            exact returns (by omega) h
    next => cases h

/-- A search that returns takes the first gap behind `cur`. -/
theorem mapSearch_firstGap (hpos : 0 < len) {res}
    (h : Returns (mapBody P c prot flags) (.search passed cur rest len) res) :
    ∃ g, firstGap len H.mmapAreaEnd cur.vmEnd (intervals rest) = some g ∧
      TakesGap c prot l len g res := by
  have found {passed cur rest} (hv : c.vmArea = passed ++ cur :: rest) {res'}
      (hret : mapSearch c prot flags passed cur rest len = .ret res')
      (hgap : firstGap len H.mmapAreaEnd cur.vmEnd (intervals rest) = some cur.vmEnd)
      (h : Returns (mapBody P c prot flags) (.search passed cur rest len) res) :
      ∃ g, firstGap len H.mmapAreaEnd cur.vmEnd (intervals rest) = some g ∧
        TakesGap c prot l len g res := by
    obtain rfl := (Returns.ret_iff hret).mp h
    refine ⟨_, hgap, ?_⟩
    rcases mapSearch_places hs hlen hv hret with ⟨-, hplaces⟩ | ⟨-, vms, hi, hle, rfl⟩
    · exact hplaces.takesGap fun hm => mapSearch_ne_of_merges hs hlen hv hpos hm hret
    · exact .merged hi hle le_rfl
  induction rest generalizing passed cur with
  | nil =>
    rcases mapSearch_step hs hlen hv prot flags with
      ⟨⟨_, hret⟩, hgap⟩ | ⟨-, -, hgap⟩ | ⟨_, _, h', _⟩
    · exact found hv hret hgap h
    · exact ((mapSearch_returns_iff hs hlen hv).mp ⟨_, h⟩ hgap).elim
    · cases h'
  | cons next rest ih =>
    rcases mapSearch_step hs hlen hv prot flags with
      ⟨⟨_, hret⟩, hgap⟩ | ⟨h', -⟩ | ⟨_, _, h', hcall, hgap⟩
    · exact found hv hret hgap h
    · cases h'
    · obtain ⟨rfl, rfl⟩ := List.cons.inj h'
      rw [hgap]
      exact ih (by simp [hv]) ((Returns.call_iff hcall).mp h)

end

/-! ## Calls without hint -/

section
variable (hs : Sorted H.mmapAreaStart c.vmArea H.mmapAreaEnd) (hlen : len < 2 ^ 31) (hpos : 0 < len)
include hs hlen hpos

/-- A call without hint searches from the start of the region on. -/
theorem mapNoHint_step (prot flags : BitVec 32) :
    (∃ res, mapNoHint c prot flags len = .ret res) ∧
        (c.vmArea = [] ∨ firstGap len H.mmapAreaEnd H.mmapAreaStart (intervals c.vmArea) =
          some H.mmapAreaStart) ∨
      ∃ cur rest, c.vmArea = cur :: rest ∧
        mapNoHint c prot flags len = .call (.search [] cur rest len) ∧
        firstGap len H.mmapAreaEnd H.mmapAreaStart (intervals c.vmArea) =
          firstGap len H.mmapAreaEnd cur.vmEnd (intervals rest) := by
  have hend := H.end_lt
  have hstart := H.start_lt_end
  have hadd : u64 (H.mmapAreaStart + len) = H.mmapAreaStart + len := by unfold u64; omega
  obtain ⟨vms, t⟩ := c
  cases vms with
  | nil =>
    refine .inl ⟨?_, .inl rfl⟩
    simp only [mapNoHint]
    split <;> exact ⟨_, rfl⟩
  | cons cur rest =>
    simp only [mapNoHint, hadd, intervals_cons, firstGap, VmArea.interval_lo, VmArea.interval_hi]
    by_cases hfit : H.mmapAreaStart + len ≤ cur.vmStart
    · refine .inl ⟨?_, .inr (if_pos hfit)⟩
      rw [if_pos ⟨by omega, hfit⟩]
      split <;> exact ⟨_, rfl⟩
    · exact .inr ⟨cur, rest, rfl, if_neg fun h => hfit h.2, if_neg hfit⟩

omit hlen in
theorem firstGap_ne_none_iff : firstGap len H.mmapAreaEnd H.mmapAreaStart (intervals c.vmArea) ≠
    none ↔ ∃ g, FreeRange H c.vmArea len g := by
  rw [Ne, Interval.Ordered.firstGap_eq_none_iff hs hpos]
  simp only [free_intervals, not_forall, not_not]

omit hs hlen hpos in
theorem mapBody_entry_zero (hround : roundUp length = len) (hcount : c.vmArea.length ≤ 128) :
    mapBody P c prot flags (.entry 0 length) = mapNoHint c prot flags len := by
  simp only [mapBody, hround, if_neg hcount.not_gt, if_true]

/-- A call without hint on a list of at most 128 areas returns exactly when there are no areas or
some gap is long enough. -/
theorem mapNoHint_returns_iff (prot flags : BitVec 32) (hround : roundUp length = len)
    (hcount : c.vmArea.length ≤ 128) :
    (∃ res, Returns (mapBody P c prot flags) (.entry 0 length) res) ↔
      c.vmArea = [] ∨ ∃ g, FreeRange H c.vmArea len g := by
  have hbody : mapBody P c prot flags (.entry 0 length) = _ := mapBody_entry_zero hround hcount
  rw [← firstGap_ne_none_iff hs hpos]
  rcases mapNoHint_step hs hlen hpos prot flags with
    ⟨⟨res, hret⟩, hgap⟩ | ⟨cur, rest, hv, hcall, hgap⟩
  · refine iff_of_true ⟨res, .ret (hbody.trans hret)⟩ (hgap.imp_right fun h => ?_)
    rw [h]
    exact Option.some_ne_none _
  · rw [hgap, ← mapSearch_returns_iff hs hlen (show c.vmArea = [] ++ cur :: rest from hv),
      or_iff_right (by simp [hv])]
    exact exists_congr fun _ => Returns.call_iff (hbody.trans hcall)

omit hlen hpos in
/-- The same in front of the first area. -/
theorem mapNoHint_ne_of_merges (hpos : 0 < len) (hlen : len < 2 ^ 31)
    (hm : Merges c.vmArea prot H.mmapAreaStart len) {res}
    (h : mapNoHint c prot flags len = .ret res) : res ≠ (-1, c) := by
  have hend := H.end_lt
  have hstart := H.start_lt_end
  have hadd : u64 (H.mmapAreaStart + len) = H.mmapAreaStart + len := by unfold u64; omega
  obtain ⟨vms, t⟩ := c
  cases vms with
  | nil =>
    obtain ⟨p, hp, -⟩ := hm
    cases hp
  | cons cur rest =>
    simp only [mapNoHint, hadd] at h
    split at h
    next hfit =>
      have hcur : Sorted (H.mmapAreaStart + len) (cur :: rest) H.mmapAreaEnd :=
        sorted_cons.2 ⟨hfit.2, (sorted_cons.1 hs).2⟩
      have hm : Merges ([] ++ cur :: rest) prot H.mmapAreaStart len := hm
      rcases hm.neighbour hpos (sorted_nil.2 le_rfl) hcur with
        ⟨p, hp, -⟩ | ⟨n, hn, hflags, hjoin⟩
      · cases hp
      · obtain rfl := Option.some.inj hn
        rw [if_pos ⟨hflags.symm, hjoin⟩] at h
        obtain rfl := Outcome.ret.inj h
        exact fun heq => mapReturn_fst_ne (by omega) (congrArg Prod.fst heq)
    next => cases h

theorem mapNoHint_firstGap (hround : roundUp length = len) (hcount : c.vmArea.length ≤ 128) {res}
    (h : Returns (mapBody P c prot flags) (.entry 0 length) res) :
    c.vmArea = [] ∧ H.mmapAreaEnd < H.mmapAreaStart + len ∧ res = (-1, c) ∨
      ∃ g, firstGap len H.mmapAreaEnd H.mmapAreaStart (intervals c.vmArea) = some g ∧
        TakesGap c prot H.mmapAreaStart len g res := by
  have hbody : mapBody P c prot flags (.entry 0 length) = _ := mapBody_entry_zero hround hcount
  rcases mapNoHint_step hs hlen hpos prot flags with
    ⟨⟨res', hret⟩, hgap⟩ | ⟨cur, rest, hv, hcall, hgap⟩
  · obtain rfl := (Returns.ret_iff (hbody.trans hret)).mp h
    refine (mapNoHint_places hs le_rfl hlen hret).2.imp_right fun hplaces => ?_
    have hfree : H.mmapAreaStart + len ≤ H.mmapAreaEnd := by
      obtain ⟨vms, hi, -⟩ := hplaces
      exact hi.bounds.2
    refine ⟨_, hgap.elim (fun hnil => ?_) id, hplaces.takesGap fun hm =>
      mapNoHint_ne_of_merges hs hpos hlen hm hret⟩
    rw [hnil, intervals_nil, firstGap, if_pos hfree]
  · rw [hgap]
    exact .inr (mapSearch_firstGap hs hlen hv hpos ((Returns.call_iff (hbody.trans hcall)).mp h))

end

/-- A call without hint on a list with room for an area takes the first gap that is long enough. -/
theorem VmAreaMap.first_fit (hs : Sorted H.mmapAreaStart c.vmArea H.mmapAreaEnd)
    (hcount : c.vmArea.length < 128) (hv : ValidLength length)
    (hgap : ∃ g, FreeRange H c.vmArea (byteLength length) g) :
    (∃ r c', VmAreaMap c 0 length prot flags r c') ∧
      ∀ r c', VmAreaMap c 0 length prot flags r c' →
        r ≠ -1 ∧ ∃ g, IsLeast {g | FreeRange H c.vmArea (byteLength length) g} g ∧
          MapsRange c.vmArea c'.vmArea prot g (byteLength length) := by
  obtain ⟨hround, hpos, hlt, -⟩ := hv.bytes
  constructor
  · obtain ⟨⟨r, c'⟩, h⟩ :=
      (mapNoHint_returns_iff hs hlt hpos prot flags hround hcount.le).mpr (.inr hgap)
    exact ⟨r, c', h⟩
  · intro r c' h
    rcases mapNoHint_firstGap hs hlt hpos hround hcount.le h with
      ⟨-, hno, -⟩ | ⟨g, hg, ⟨hcrowded, -⟩ | ⟨-, hi, hne⟩⟩
    · obtain ⟨g, h₁, h₂, -⟩ := hgap
      omega
    · exact absurd hcrowded.1 hcount.not_ge
    · have hleast := Interval.Ordered.isLeast_firstGap hs hpos hg
      simp only [free_intervals] at hleast
      exact ⟨hne, g, hleast, hi.mapsRange hpos⟩

theorem onePageGap_free : FreeRange .megabyte onePageGap.vmArea (byteLength 4096) (2 ^ 20 + 4096) := by
  refine ⟨by decide, by decide, fun x hx hx' => ?_⟩
  have hbytes : byteLength 4096 = 4096 := by decide
  simp only [onePageGap, coverage_cons]
  rw [if_neg (by omega), if_neg (by omega)]
  rfl

theorem VmAreaMap.first_fit_of_onePageGap :
    (∃ r c', VmAreaMap onePageGap 0 4096 3 0 r c') ∧
      ∀ r c', VmAreaMap onePageGap 0 4096 3 0 r c' →
        r ≠ -1 ∧ ∃ g, IsLeast {g | FreeRange .megabyte onePageGap.vmArea (byteLength 4096) g} g ∧
          MapsRange onePageGap.vmArea c'.vmArea 3 g (byteLength 4096) :=
  VmAreaMap.first_fit (by simp [Sorted, onePageGap, Header.megabyte]) (by decide) (by decide)
    ⟨_, onePageGap_free⟩

/-! ## Termination -/

/-- The walk to the first area behind a hint passes one when the hint range is free. -/
theorem mapHint_ne_stuck (hlen : len < 2 ^ 31) (hpos : 0 < len)
    (hends : ∀ p ∈ c.vmArea, p.vmEnd ≤ H.mmapAreaEnd) : mapHint c prot flags addr len ≠ .stuck := by
  intro h
  have hcase : HintCase c prot flags addr len _ := mapHint_case hlen hpos hends
  rw [h] at hcase
  cases hcase

/-- A call on a list of at most 128 areas returns exactly if it does not come down to a search
through areas without a gap that is long enough. -/
theorem mapEntry_returns_iff (hs : Sorted H.mmapAreaStart c.vmArea H.mmapAreaEnd) (hlen : len < 2 ^ 31)
    (hpos : 0 < len) (hdvd : 4096 ∣ (len : Int)) (hround : roundUp length = len)
    (hcount : c.vmArea.length ≤ 128) :
    (∃ res, Returns (mapBody P c prot flags) (.entry addr length) res) ↔
      (FallsBack H c.vmArea flags len addr → c.vmArea = [] ∨ ∃ g, FreeRange H c.vmArea len g) := by
  induction hn : H.mmapAreaEnd - addr using Nat.strongRecOn generalizing addr length with
  | _ n ih =>
    subst hn
    by_cases haddr : addr = 0
    · subst haddr
      rw [mapNoHint_returns_iff hs hlen hpos prot flags hround hcount]
      exact ⟨fun h _ => h, fun h => h .noHint⟩
    have hbody : mapBody P c prot flags (.entry addr length) = mapHint c prot flags addr len := by
      simp only [mapBody, hround, if_neg hcount.not_gt, if_neg haddr]
    cases hb : mapHint c prot flags addr len with
    | ret res =>
      refine iff_of_true ⟨res, .ret (hbody.trans hb)⟩ fun hf => ?_
      exact (mapHint_ret_not_fallsBack hs hlen hpos haddr hb hf).elim
    | stuck => exact (mapHint_ne_stuck hlen hpos (fun p hp => (hs.bounds hp).2.2) hb).elim
    | call pt =>
      obtain ⟨addr', rfl, hnext, hfalls⟩ :=
        mapHint_call hlen hpos haddr (fun p hp => (hs.bounds hp).2.2) hb
      rw [hfalls, exists_congr fun _ => Returns.call_iff (hbody.trans hb)]
      rcases hnext with rfl | ⟨p, hp, rfl, hlt⟩
      · rw [mapNoHint_returns_iff hs hlen hpos prot flags (roundUp_of_dvd hdvd) hcount]
        exact ⟨fun h _ => h, fun h => h .noHint⟩
      · have hle := (hs.bounds hp).2.2
        exact ih _ (by omega) (roundUp_of_dvd hdvd) rfl

/-- The call loops for ever: it comes down to a search through a list of one to 128 areas without
a gap that is long enough. -/
def Loops (H : Header) (vms : List VmArea) (addr len : Nat) (flags : BitVec 32) : Prop :=
  vms ≠ [] ∧ vms.length ≤ 128 ∧ FallsBack H vms flags len addr ∧ ∀ g, ¬FreeRange H vms len g

/-- A call returns, and without hint and a gap that is long enough it fails, exactly if it does
not loop for ever. -/
theorem VmAreaMap.returns_iff (hs : Sorted H.mmapAreaStart c.vmArea H.mmapAreaEnd)
    (hv : ValidLength length) :
    ((∃ r c', VmAreaMap c addr length prot flags r c') ∧
        (addr = 0 → (∀ g, ¬FreeRange H c.vmArea (byteLength length) g) →
          ∀ r c', VmAreaMap c addr length prot flags r c' → r = -1 ∧ c'.vmArea = c.vmArea)) ↔
      ¬Loops H c.vmArea addr (byteLength length) flags := by
  obtain ⟨hround, hpos, hlt, hdvd⟩ := hv.bytes
  by_cases hcount : 128 < c.vmArea.length
  · have hbody : mapBody P c prot flags (.entry addr length) = .ret (-1, c) := by
      simp only [mapBody, if_pos hcount]
    refine iff_of_true ⟨⟨-1, c, .ret hbody⟩, fun _ _ r c' h => ?_⟩ fun hloop =>
      hcount.not_ge hloop.2.1
    obtain ⟨rfl, rfl⟩ := Prod.mk.inj ((Returns.ret_iff hbody).mp h)
    exact ⟨rfl, rfl⟩
  have hcount := Nat.le_of_not_lt hcount
  have hreturns : (∃ r c', VmAreaMap c addr length prot flags r c') ↔
      (FallsBack H c.vmArea flags (byteLength length) addr →
        c.vmArea = [] ∨ ∃ g, FreeRange H c.vmArea (byteLength length) g) :=
    Prod.exists.symm.trans (mapEntry_returns_iff hs hlt hpos (by omega) hround hcount)
  constructor
  · rintro ⟨hret, -⟩ ⟨hne, -, hfalls, hno⟩
    rcases hreturns.mp hret hfalls with hnil | ⟨g, hg⟩
    · exact hne hnil
    · exact hno g hg
  · intro hloop
    refine ⟨hreturns.mpr fun hfalls => ?_, ?_⟩
    · by_contra! hno
      exact hloop ⟨hno.1, hcount, hfalls, hno.2⟩
    · rintro rfl hno r c' h
      have hnil : c.vmArea = [] := by
        by_contra hne
        exact hloop ⟨hne, hcount, .noHint, hno⟩
      rcases mapNoHint_firstGap hs hlt hpos hround (by simp [hnil]) h with ⟨-, -, hres⟩ | ⟨g, hg, -⟩
      · obtain ⟨rfl, rfl⟩ := Prod.mk.inj hres
        exact ⟨rfl, rfl⟩
      · have hfree := (Interval.Ordered.isLeast_firstGap hs hpos hg).1
        exact (hno g (free_intervals.mp hfree)).elim

theorem VmAreaMap.returns_of_onePageGap :
    ((∃ r c', VmAreaMap onePageGap 0 4096 3 0 r c') ∧
        ((0 : Nat) = 0 → (∀ g, ¬FreeRange .megabyte onePageGap.vmArea (byteLength 4096) g) →
          ∀ r c', VmAreaMap onePageGap 0 4096 3 0 r c' →
            r = -1 ∧ c'.vmArea = onePageGap.vmArea)) ↔
      ¬Loops .megabyte onePageGap.vmArea 0 (byteLength 4096) 0 :=
  VmAreaMap.returns_iff (by simp [Sorted, onePageGap, Header.megabyte]) (by decide)

/-- One area takes the whole region. -/
def fullRegion : ExecContext (Paging.counting .megabyte) :=
  ⟨[⟨2 ^ 20, 2 ^ 21, 1⟩], CountingTable.empty⟩

theorem fullRegion_not_free (g : Nat) : ¬FreeRange .megabyte fullRegion.vmArea 4096 g := by
  rintro ⟨hg, hend, hfree⟩
  change 2 ^ 20 ≤ g at hg
  change g + 4096 ≤ 2 ^ 21 at hend
  have := hfree g le_rfl (by omega)
  rw [fullRegion, coverage_cons, if_pos ⟨hg, by dsimp only; omega⟩] at this
  cases this

/-- In a full region the search never ends. -/
theorem not_returns : ¬∀ {H : Header} {P : Paging H} {c : ExecContext P} {addr : Nat} {length : Int}
    {prot flags : BitVec 32}, Sorted H.mmapAreaStart c.vmArea H.mmapAreaEnd → Aligned c.vmArea →
    ValidLength length → (∃ r c', VmAreaMap c addr length prot flags r c') ∧
      (addr = 0 → (∀ g, ¬FreeRange H c.vmArea (byteLength length) g) →
        ∀ r c', VmAreaMap c addr length prot flags r c' → r = -1 ∧ c'.vmArea = c.vmArea) := by
  intro h
  have hs : Sorted Header.megabyte.mmapAreaStart fullRegion.vmArea Header.megabyte.mmapAreaEnd := by
    simp [Sorted, fullRegion, Header.megabyte]
  have hreturns : ∃ r c', VmAreaMap fullRegion 0 4096 1 0 r c' :=
    (h hs (by simp [Aligned, fullRegion]) (by decide)).1
  rcases (mapNoHint_returns_iff hs (by decide) (by decide) 1 0 rfl (by decide)).mp
    (Prod.exists.mpr hreturns) with hnil | ⟨g, hg⟩
  · cases hnil
  · exact fullRegion_not_free g hg

end CS330
