import CS330.Memory.Basic

/-! # The page loops

`map`, `unmap` and `update_map` walk a range page by page and change the page-table entry of
each page they visit. -/

namespace CS330

/-- The values `cur_addr` takes in `while( cur_addr < addr + length )`, in steps of a page. -/
def pages (addr : Nat) (length : Int) : List Nat :=
  (List.range ((u64 (addr + length) - addr + 4095) / 4096)).map (addr + 4096 * ·)

theorem mem_pages {addr a : Nat} {length : Int} (hlen : 0 ≤ length)
    (h : addr + length < 2 ^ 64) (hdvd : 4096 ∣ length) :
    a ∈ pages addr length ↔ ∃ k, 4096 * k < length.toNat ∧ a = addr + 4096 * k := by
  rw [pages, u64_add hlen h]
  simp only [List.mem_map, List.mem_range]
  constructor
  · rintro ⟨k, hk, rfl⟩
    exact ⟨k, by omega, rfl⟩
  · rintro ⟨k, hk, rfl⟩
    exact ⟨k, by omega, rfl⟩

/-- A range that wraps around the address space is not visited at all. -/
theorem pages_of_wrap {addr : Nat} {length : Int} (hlen : 0 ≤ length)
    (hlen' : length ≤ 2 ^ 64) (haddr : addr < 2 ^ 64) (h : 2 ^ 64 ≤ addr + length) :
    pages addr length = [] := by
  have : (u64 (addr + length) - addr + 4095) / 4096 = 0 := by
    unfold u64
    omega
  rw [pages, this]
  rfl

theorem pages_pairwise (addr : Nat) (length : Int) :
    (pages addr length).Pairwise fun a b => a / 4096 ≠ b / 4096 := by
  rw [pages, List.pairwise_map]
  refine List.pairwise_lt_range.imp fun h => ?_
  omega

namespace Paging

variable {H : Header} (P : Paging H)

/-- The permission word the page loops pass on for an area's access flags. -/
def loopProt (H : Header) (accessFlags : BitVec 32) : BitVec 32 :=
  if accessFlags &&& H.protWrite ≠ 0 then H.protRead ||| H.protWrite else H.protRead

theorem loopProt_writes (accessFlags : BitVec 32) :
    (loopProt H accessFlags &&& H.protWrite ≠ 0) ↔ (accessFlags &&& H.protWrite ≠ 0) := by
  have h := H.read_and_write
  unfold loopProt
  by_cases hw : accessFlags &&& H.protWrite = 0
  · simp [hw, h]
  · have : (H.protRead ||| H.protWrite) &&& H.protWrite = H.protWrite := by
      rw [BitVec.and_comm, BitVec.and_or_distrib_left]
      simp [BitVec.and_comm H.protWrite, h]
    rw [if_pos hw, this]
    refine iff_of_true (fun h0 => hw ?_) hw
    simp [h0]

/-- `map`: every page of the range gets a frame of its own. -/
def map (base : P.Table) (addr : Nat) (accessFlags : BitVec 32) (length : Int) : P.Table :=
  (pages addr length).foldl
    (fun base curAddr => P.mapPhysicalPage base curAddr (loopProt H accessFlags) 0) base

/-- `unmap`: every page of the range loses its entry. -/
def unmap (current : P.Table) (addr : Nat) (length : Int) : P.Table :=
  (pages addr length).foldl P.doUnmapUser current

/-- `update_map`: every present page of the range is mapped again, with the new permission. The
frame argument of the call is 0; the frame number read from the old entry is overwritten. -/
def updateMap (current : P.Table) (addr : Nat) (accessFlags : BitVec 32) (length : Int) : P.Table :=
  (pages addr length).foldl
    (fun current curAddr =>
      match P.entry current (curAddr / 4096) with
      | some _ => P.mapPhysicalPage current curAddr (loopProt H accessFlags) 0
      | none => current) current

variable {P}

/-- A loop whose visits change only the visited page leaves the other pages alone. -/
theorem entry_foldl_of_not_mem {f : P.Table → Nat → P.Table} {as : List Nat} {t : P.Table}
    {page : Nat} (hlocal : ∀ t a, page ≠ a / 4096 → P.entry (f t a) page = P.entry t page)
    (h : ∀ a ∈ as, page ≠ a / 4096) : P.entry (as.foldl f t) page = P.entry t page := by
  induction as generalizing t with
  | nil => rfl
  | cons a as ih =>
    rw [List.foldl_cons, ih fun b hb => h b (List.mem_cons_of_mem _ hb)]
    exact hlocal t a (h a List.mem_cons_self)

/-- A page visited once has the entry its own visit gave it, from the entry it had before. -/
theorem entry_foldl_of_mem {f : P.Table → Nat → P.Table} {as : List Nat} {t : P.Table}
    {page a : Nat} (hlocal : ∀ t a, page ≠ a / 4096 → P.entry (f t a) page = P.entry t page)
    (hp : as.Pairwise fun a b => a / 4096 ≠ b / 4096) (ha : a ∈ as) (hpage : page = a / 4096) :
    ∃ t', P.entry t' page = P.entry t page ∧
      P.entry (as.foldl f t) page = P.entry (f t' a) page := by
  induction as generalizing t with
  | nil => cases ha
  | cons b as ih =>
    obtain ⟨hb, hp⟩ := List.pairwise_cons.mp hp
    rw [List.foldl_cons]
    rcases List.mem_cons.mp ha with rfl | ha
    · refine ⟨t, rfl, entry_foldl_of_not_mem hlocal fun c hc => ?_⟩
      exact hpage ▸ hb c hc
    · obtain ⟨t', ht', h⟩ := ih (t := f t b) hp ha
      exact ⟨t', ht'.trans (hlocal t b (hpage ▸ (hb a ha).symm)), h⟩

/-- The page numbers of a range. -/
def InRange (addr : Nat) (length : Int) (page : Nat) : Prop :=
  addr / 4096 ≤ page ∧ page < (addr + length.toNat) / 4096

section
variable {addr page : Nat} {length : Int} {t : P.Table} {flags : BitVec 32}

theorem exists_mem_pages (hlen : 0 ≤ length) (hdvd : 4096 ∣ length)
    (h : addr + length < 2 ^ 64) (hr : InRange addr length page) :
    ∃ a ∈ pages addr length, page = a / 4096 := by
  obtain ⟨h₁, h₂⟩ := hr
  refine ⟨addr + 4096 * (page - addr / 4096), (mem_pages hlen h hdvd).mpr ⟨_, ?_, rfl⟩, ?_⟩ <;>
    omega

theorem ne_of_mem_pages (hlen : 0 ≤ length) (hdvd : 4096 ∣ length)
    (h : addr + length < 2 ^ 64) (hr : ¬InRange addr length page) :
    ∀ a ∈ pages addr length, page ≠ a / 4096 := by
  intro a ha
  obtain ⟨k, hk, rfl⟩ := (mem_pages hlen h hdvd).mp ha
  unfold InRange at hr
  omega

theorem entry_map_of_not_inRange (hlen : 0 ≤ length) (hdvd : 4096 ∣ length)
    (h : addr + length < 2 ^ 64) (hr : ¬InRange addr length page) :
    P.entry (P.map t addr flags length) page = P.entry t page :=
  entry_foldl_of_not_mem (fun t a ha => by rw [P.entry_mapPhysicalPage, if_neg ha])
    (ne_of_mem_pages hlen hdvd h hr)

/-- A mapped page has the requested permission and a frame its old entry did not have. -/
theorem entry_map_of_inRange (hlen : 0 ≤ length) (hdvd : 4096 ∣ length)
    (h : addr + length < 2 ^ 64) (hr : InRange addr length page) :
    ∃ pfn, P.entry (P.map t addr flags length) page =
        some ⟨pfn, decide (flags &&& H.protWrite ≠ 0)⟩ ∧
      ∀ pte, P.entry t page = some pte → pte.pfn ≠ pfn := by
  obtain ⟨a, ha, hpage⟩ := exists_mem_pages hlen hdvd h hr
  obtain ⟨t', ht', he⟩ := entry_foldl_of_mem (t := t)
    (f := fun base a => P.mapPhysicalPage base a (loopProt H flags) 0)
    (fun t a ha => by rw [P.entry_mapPhysicalPage, if_neg ha]) (pages_pairwise _ _) ha hpage
  refine ⟨P.freshFrame t', ?_, fun pte hpte => P.freshFrame_ne (ht'.trans hpte)⟩
  rw [map, he, P.entry_mapPhysicalPage, if_pos hpage, if_pos rfl]
  simp only [loopProt_writes]

theorem entry_unmap (hlen : 0 ≤ length) (hdvd : 4096 ∣ length) (h : addr + length < 2 ^ 64) :
    P.entry (P.unmap t addr length) page =
      if addr / 4096 ≤ page ∧ page < (addr + length.toNat) / 4096 then none
      else P.entry t page := by
  have hlocal : ∀ (t : P.Table) (a : Nat), page ≠ a / 4096 →
      P.entry (P.doUnmapUser t a) page = P.entry t page :=
    fun t a ha => by rw [P.entry_doUnmapUser, if_neg ha]
  split
  next hr =>
    obtain ⟨a, ha, hpage⟩ := exists_mem_pages hlen hdvd h hr
    obtain ⟨t', _, he⟩ := entry_foldl_of_mem (t := t) hlocal (pages_pairwise _ _) ha hpage
    rw [unmap, he, P.entry_doUnmapUser, if_pos hpage]
  next hr => exact entry_foldl_of_not_mem hlocal (ne_of_mem_pages hlen hdvd h hr)

private theorem updateMap_local (flags : BitVec 32) (t : P.Table) (a : Nat)
    (ha : page ≠ a / 4096) :
    P.entry (match P.entry t (a / 4096) with
      | some _ => P.mapPhysicalPage t a (loopProt H flags) 0
      | none => t) page = P.entry t page := by
  split
  · rw [P.entry_mapPhysicalPage, if_neg ha]
  · rfl

theorem entry_updateMap_of_not_inRange (hlen : 0 ≤ length) (hdvd : 4096 ∣ length)
    (h : addr + length < 2 ^ 64) (hr : ¬InRange addr length page) :
    P.entry (P.updateMap t addr flags length) page = P.entry t page :=
  entry_foldl_of_not_mem (updateMap_local flags) (ne_of_mem_pages hlen hdvd h hr)

/-- A present page of the range gets the new permission and another frame; absent pages stay
absent. -/
theorem entry_updateMap_of_inRange (hlen : 0 ≤ length) (hdvd : 4096 ∣ length)
    (h : addr + length < 2 ^ 64) (hr : InRange addr length page) :
    (P.entry t page = none → P.entry (P.updateMap t addr flags length) page = none) ∧
    ∀ pte, P.entry t page = some pte → ∃ pfn, P.entry (P.updateMap t addr flags length) page =
        some ⟨pfn, decide (flags &&& H.protWrite ≠ 0)⟩ ∧ pte.pfn ≠ pfn := by
  obtain ⟨a, ha, hpage⟩ := exists_mem_pages hlen hdvd h hr
  obtain ⟨t', ht', he⟩ :=
    entry_foldl_of_mem (t := t) (updateMap_local flags) (pages_pairwise _ _) ha hpage
  constructor
  · intro hnone
    rw [updateMap, he, ← hpage, ht', hnone]
    exact ht'.trans hnone
  · intro pte hpte
    refine ⟨P.freshFrame t', ?_, P.freshFrame_ne (ht'.trans hpte)⟩
    rw [updateMap, he, ← hpage, ht', hpte]
    simp only
    rw [P.entry_mapPhysicalPage, if_pos hpage, if_pos rfl]
    simp only [loopProt_writes]

end

end Paging

end CS330
