import CS330.Cow.Fork

/-! # The stack of a vfork child

`vfork_copy_mm` leaves the page table to both processes and copies the stack of the parent to the
addresses right below it, where the child goes on. -/

namespace CS330

open Machine

/-- The fields of `struct exec_context` that `vfork_copy_mm` uses; `pgd` is the number of the page
table. -/
structure VforkContext where
  pgd : Nat
  rbp : Nat
  entryRsp : Nat
  stack : MmSegment
  waiting : Bool

section
variable (H : ForkHeader) (hasTable : Machine → Nat → Nat → Bool)

/-- What `get_user_pte` points to, the entry of an absent page being zero. `hasTable` says for which
absent pages it gets that far and does not return NULL. -/
def getUserPte (m : Machine) (pgd vaddr : Nat) : Option (Option Pte) :=
  match m.entry pgd (vaddr / 4096) with
  | some pte => some (some pte)
  | none => if hasTable m pgd (vaddr / 4096) then some none else none

/-- `*pte & FLAG_MASK`. -/
def frameAddr (pte : Option Pte) : Nat := pte.elim 0 Pte.pfn * 4096

/-- The body of the second loop. No result stands for reading an entry through NULL. -/
def vforkVisit (pgd : Nat) (seg : MmSegment) (fsize vaddr : Nat) (m : Machine) : Option Machine :=
  match getUserPte hasTable m pgd vaddr with
  | none => some m
  | some parentPte =>
    match getUserPte hasTable m pgd (u64 (vaddr - fsize)) with
    | none => none
    | some (some oldPte) => some (m.memcpyPage (oldPte.pfn * 4096) (frameAddr parentPte))
    | some none =>
      let (pfn, m) := m.installPtable H pgd seg (u64 (vaddr - fsize)) 0
      some (m.memcpyPage (pfn * 4096) (frameAddr parentPte))

/-- `vfork_copy_mm` terminates, with these contexts of the child and of the parent. The first loop
computes `vaddr`, the second one copies. -/
inductive VforkCopyMm (child parent : VforkContext) (m : Machine) :
    VforkContext → VforkContext → Machine → Prop where
  | mk {end1 vaddr fsize : Nat} {m' : Machine} (hend : end1 = u64 (parent.stack.segEnd - 4096))
    (hvaddr : Returns (downLoop parent.stack.nextFree 4096 fun vaddr _ => u64 (vaddr - 4096))
      (end1, end1) vaddr)
    (hfsize : fsize = u64 (end1 - vaddr))
    (hcopy : Returns (downLoop parent.stack.nextFree 4096 fun vaddr m =>
        Option.bind m (vforkVisit H hasTable parent.pgd parent.stack fsize vaddr))
      (end1, some m) (some m')) :
    VforkCopyMm child parent m
      { child with
        pgd := parent.pgd
        rbp := u64 (child.rbp - fsize)
        entryRsp := u64 (child.entryRsp - fsize)
        stack := { child.stack with nextFree := u64 (parent.stack.nextFree - fsize) } }
      { parent with waiting := true } m'

end

variable {H : ForkHeader} {hasTable : Machine → Nat → Nat → Bool} {m m' m₀ m₁ : Machine}
  {seg : MmSegment} {pgd lo s p t src : Nat} {pte : Pte} {done pages : List Nat}

/-! ## The pages below the stack -/

/-- The `s` pages below page `lo`, to which the pages from `lo` on are copied. -/
def IsTarget (lo s t : Nat) : Prop := lo ≤ t + s ∧ t < lo

/-- What holds during the second loop, when the pages in `done` have been copied. -/
structure Relocating (pgd lo s : Nat) (m₀ m : Machine) (done : List Nat) : Prop where
  sound : m.Sound
  entry : ∀ {pid page}, ¬(pid = pgd ∧ IsTarget lo s page) → m.entry pid page = m₀.entry pid page
  distinct : ∀ {t page pte pte'}, IsTarget lo s t → m.entry pgd t = some pte →
    m.entry pgd page = some pte' → pte.pfn = pte'.pfn → page = t
  mem : ∀ a, m.mem a = m₀.mem a ∨
    ∃ t pte, IsTarget lo s t ∧ m.entry pgd t = some pte ∧ a / 4096 = pte.pfn
  source : ∀ {p}, p ∈ done → lo ≤ p
  copied : ∀ {p pte}, p ∈ done → m₀.entry pgd p = some pte → ∃ pte',
    m.entry pgd (p - s) = some pte' ∧
      ∀ o < 4096, m.mem (pte'.pfn * 4096 + o) = m₀.mem (pte.pfn * 4096 + o)

namespace Relocating

/-- The frames of the other pages keep their bytes. -/
theorem mem_eq (h : Relocating pgd lo s m₀ m done) (hp : ¬IsTarget lo s p)
    (he : m₀.entry pgd p = some pte) {o : Nat} (ho : o < 4096) :
    m.mem (pte.pfn * 4096 + o) = m₀.mem (pte.pfn * 4096 + o) := by
  rcases h.mem (pte.pfn * 4096 + o) with heq | ⟨t, pte', ht, ht', hframe⟩
  · exact heq
  · have hp' : m.entry pgd p = some pte := (h.entry fun hnot => hp hnot.2).trans he
    have hpfn : pte'.pfn = pte.pfn := by omega
    obtain rfl := h.distinct ht ht' hp' hpfn
    exact absurd ht hp

/-- A page is copied to a page that is there already, or that was just installed. -/
theorem memcpyPage (h : Relocating pgd lo s m₀ m done) (hs : s ≤ lo) (hp : lo ≤ p)
    (hp' : p < lo + s) (hsound : m₁.Sound) (hmem : m₁.mem = m.mem)
    (ht : m₁.entry pgd (p - s) = some pte)
    (hold : ∀ pte', m.entry pgd (p - s) = some pte' → pte' = pte)
    (hrest : ∀ {pid page}, ¬(pid = pgd ∧ page = p - s) → m₁.entry pid page = m.entry pid page)
    (hfresh : ∀ {page pte'}, page ≠ p - s → m.entry pgd page = some pte' → pte'.pfn ≠ pte.pfn)
    (hsrc : ∀ pte', m₀.entry pgd p = some pte' → src = pte'.pfn * 4096) :
    Relocating pgd lo s m₀ (m₁.memcpyPage (pte.pfn * 4096) src) (p :: done) := by
  have htarget : IsTarget lo s (p - s) := ⟨by omega, by omega⟩
  have hother {page} (hne : page ≠ p - s) : m₁.entry pgd page = m.entry pgd page :=
    hrest fun hnot => hne hnot.2
  constructor
  case sound => exact hsound.of_eq rfl rfl
  case entry =>
    intro pid page hnot
    refine (hrest fun heq => hnot ⟨heq.1, ?_⟩).trans (h.entry hnot)
    rw [heq.2]
    exact htarget
  case distinct =>
    intro t page q q' hq he he' hpfn
    rw [memcpyPage_entry] at he he'
    rcases eq_or_ne t (p - s) with rfl | htne
    · rcases eq_or_ne page (p - s) with rfl | hne
      · rfl
      · cases ht.symm.trans he
        rw [hother hne] at he'
        exact absurd hpfn.symm (hfresh hne he')
    · rw [hother htne] at he
      rcases eq_or_ne page (p - s) with rfl | hne
      · cases ht.symm.trans he'
        exact absurd hpfn (hfresh htne he)
      · rw [hother hne] at he'
        exact h.distinct hq he he' hpfn
  case mem =>
    intro a
    rw [memcpyPage_entry]
    by_cases ha : a / 4096 = pte.pfn
    · exact .inr ⟨p - s, pte, htarget, ht, ha⟩
    · have hout : (m₁.memcpyPage (pte.pfn * 4096) src).mem a = m.mem a := by
        have hframe : (m₁.memcpyPage (pte.pfn * 4096) src).mem (a / 4096 * 4096 + a % 4096) =
          m₁.mem (a / 4096 * 4096 + a % 4096) := memcpyPage_mem_of_ne ha (Nat.mod_lt _ (by decide))
        rwa [Nat.div_add_mod', hmem] at hframe
      rw [hout]
      refine (h.mem a).imp_right ?_
      rintro ⟨t, q, hq, he, hframe⟩
      rcases eq_or_ne t (p - s) with rfl | htne
      · exact ⟨p - s, pte, htarget, ht, hold q he ▸ hframe⟩
      · exact ⟨t, q, hq, (hother htne).trans he, hframe⟩
  case source =>
    intro q hq
    rcases List.mem_cons.1 hq with rfl | hq
    · exact hp
    · exact h.source hq
  case copied =>
    intro q pte' hq he
    rw [memcpyPage_entry]
    rcases eq_or_ne q p with rfl | hne
    · refine ⟨pte, ht, fun o ho => ?_⟩
      rw [memcpyPage_mem_self ho, hsrc pte' he, hmem]
      exact h.mem_eq (fun hnot => absurd hnot.2 (Nat.not_lt.2 hp)) he ho
    · have hq := (List.mem_cons.1 hq).resolve_left hne
      have hle := h.source hq
      have hne' : q - s ≠ p - s := by omega
      obtain ⟨pte'', he'', hcopy⟩ := h.copied hq he
      refine ⟨pte'', (hother hne').trans he'', fun o ho => ?_⟩
      rw [memcpyPage_mem_of_ne (hfresh hne' he'') ho, hmem]
      exact hcopy o ho

/-- The second loop copies a page of the stack, if it is there. -/
theorem vforkVisit (h : Relocating pgd lo s m₀ m done) (hs : s ≤ lo) (hp : lo ≤ p)
    (hp' : p < lo + s) (hlt : (lo + s) * 4096 < 2 ^ 64)
    (htable : ∀ m t, IsTarget lo s t → hasTable m pgd t) :
    ∃ m', vforkVisit H hasTable pgd seg (s * 4096) (p * 4096) m = some m' ∧
      Relocating pgd lo s m₀ m' (p :: done) := by
  have hsub : u64 ((p * 4096 : Nat) - (s * 4096 : Nat)) = (p - s) * 4096 := by
    unfold u64
    omega
  have htarget : IsTarget lo s (p - s) := ⟨by omega, by omega⟩
  have hsource : m.entry pgd p = m₀.entry pgd p :=
    h.entry fun hnot => absurd hnot.2.2 (Nat.not_lt.2 hp)
  unfold CS330.vforkVisit
  rw [hsub]
  -- where the bytes come from when the page is there
  obtain hnull | ⟨parentPte, hparent, hsrc⟩ :
      getUserPte hasTable m pgd (p * 4096) = none ∧ m₀.entry pgd p = none ∨
      ∃ parentPte, getUserPte hasTable m pgd (p * 4096) = some parentPte ∧
        ∀ pte', m₀.entry pgd p = some pte' → frameAddr parentPte = pte'.pfn * 4096 := by
    rw [← hsource]
    unfold getUserPte
    rw [Nat.mul_div_cancel p (by decide)]
    cases m.entry pgd p with
    | some pte => exact .inr ⟨_, rfl, fun pte' he => by cases he; rfl⟩
    | none =>
      dsimp only
      split
      · exact .inr ⟨_, rfl, nofun⟩
      · exact .inl ⟨rfl, rfl⟩
  · rw [hnull.1]
    refine ⟨m, rfl, h.sound, h.entry, h.distinct, h.mem, fun {q} hq => ?_, fun {q pte'} hq he => ?_⟩
    · rcases List.mem_cons.1 hq with rfl | hq
      · exact hp
      · exact h.source hq
    · rcases List.mem_cons.1 hq with rfl | hq
      · rw [hnull.2] at he
        cases he
      · exact h.copied hq he
  · rw [hparent]
    cases hold : m.entry pgd (p - s) with
    | some oldPte =>
      have hget : getUserPte hasTable m pgd ((p - s) * 4096) = some (some oldPte) := by
        unfold getUserPte
        rw [Nat.mul_div_cancel _ (by decide), hold]
      rw [hget]
      refine ⟨_, rfl, h.memcpyPage hs hp hp' h.sound rfl hold ?_ (fun _ => rfl) ?_ hsrc⟩
      · intro pte' he
        exact Option.some.inj (he.symm.trans hold)
      · intro page pte' hne he hpfn
        exact hne (h.distinct htarget hold he hpfn.symm)
    | none =>
      have hget : getUserPte hasTable m pgd ((p - s) * 4096) = some none := by
        unfold getUserPte
        rw [Nat.mul_div_cancel _ (by decide), hold]
        exact if_pos (htable m _ htarget)
      rw [hget]
      dsimp only
      rw [installPtable, install_zero, Nat.mul_div_cancel _ (by decide)]
      generalize hm₁ : m.allocFrame.2.setEntry pgd (p - s) (some ⟨m.free 0, H.segWritable seg⟩) = m₁
      have hsound : m₁.Sound := hm₁ ▸ h.sound.installFresh
      have hnew : m₁.entry pgd (p - s) = some ⟨m.free 0, H.segWritable seg⟩ := by
        rw [← hm₁]
        exact setEntry_entry_self
      have hmem : m₁.mem = m.mem := by
        rw [← hm₁]
        rfl
      have hcopy : Relocating pgd lo s m₀
          (m₁.memcpyPage (Pte.pfn ⟨m.free 0, H.segWritable seg⟩ * 4096) (frameAddr parentPte))
          (p :: done) := by
        refine h.memcpyPage hs hp hp' hsound hmem hnew ?_ ?_ ?_ hsrc
        · intro pte' he
          rw [hold] at he
          cases he
        · intro pid page hnot
          rw [← hm₁]
          exact setEntry_entry_of_ne (by tauto)
        · intro page pte' hne he
          exact h.sound.free_unmapped he 0
      exact ⟨_, rfl, hcopy⟩

/-- The whole second loop. -/
theorem visits (h : Relocating pgd lo s m₀ m done) (hs : s ≤ lo)
    (hpages : ∀ p ∈ pages, lo ≤ p ∧ p < lo + s) (hlt : (lo + s) * 4096 < 2 ^ 64)
    (htable : ∀ m t, IsTarget lo s t → hasTable m pgd t) :
    ∃ m' done', visits (fun vaddr m => Option.bind m
        (CS330.vforkVisit H hasTable pgd seg (s * 4096) vaddr)) pages (some m) = some m' ∧
      Relocating pgd lo s m₀ m' done' ∧ ∀ p ∈ pages, p ∈ done' := by
  suffices ∃ m' done', CS330.visits (fun vaddr m => Option.bind m
      (CS330.vforkVisit H hasTable pgd seg (s * 4096) vaddr)) pages (some m) = some m' ∧
      Relocating pgd lo s m₀ m' done' ∧ (∀ p ∈ pages, p ∈ done') ∧ ∀ p ∈ done, p ∈ done' by
    obtain ⟨m', done', hvisits, h', hmem, -⟩ := this
    exact ⟨m', done', hvisits, h', hmem⟩
  induction pages generalizing m done with
  | nil => exact ⟨m, done, rfl, h, by simp, fun _ => id⟩
  | cons p pages ih =>
    obtain ⟨⟨hp, hp'⟩, hpages⟩ := List.forall_mem_cons.1 hpages
    obtain ⟨m₁, hvisit, h₁⟩ : ∃ m₁,
        CS330.vforkVisit H hasTable pgd seg (s * 4096) (p * 4096) m = some m₁ ∧
          Relocating pgd lo s m₀ m₁ (p :: done) := h.vforkVisit hs hp hp' hlt htable
    obtain ⟨m', done', hvisits, h', hmem, hold⟩ := ih h₁ hpages
    refine ⟨m', done', ?_, h', ?_, fun q hq => hold q (.tail _ hq)⟩
    · rw [CS330.visits, List.foldl_cons, Option.bind_some, hvisit]
      exact hvisits
    · exact List.forall_mem_cons.2 ⟨hold p (.head _), hmem⟩

end Relocating

/-! ## The call -/

/-- The size of the stack of the parent, and the pages below it. -/
def VforkContext.stackSize (parent : VforkContext) : Nat :=
  parent.stack.segEnd - parent.stack.nextFree

def VforkContext.stackRange (parent : VforkContext) : Set Nat :=
  Set.Ico parent.stack.nextFree parent.stack.segEnd

def VforkContext.targetRange (parent : VforkContext) : Set Nat :=
  Set.Ico (parent.stack.nextFree - parent.stackSize) parent.stack.nextFree

/-- Page-aligned stacks with as much room below them as they take. -/
structure VforkContext.HasRoom (parent : VforkContext) : Prop where
  end_dvd : 4096 ∣ parent.stack.segEnd
  nextFree_dvd : 4096 ∣ parent.stack.nextFree
  nextFree_pos : 0 < parent.stack.nextFree
  nextFree_le : parent.stack.nextFree ≤ parent.stack.segEnd
  end_le : parent.stack.segEnd ≤ 2 * parent.stack.nextFree
  end_lt : parent.stack.segEnd < 2 ^ 64

/-- The stack is copied to the range below it, and nothing else changes. -/
structure StackRelocated (parent child' : VforkContext) (m m' : Machine) : Prop where
  copied : ∀ {a pte}, a ∈ parent.stackRange → m.entry parent.pgd (a / 4096) = some pte →
    m'.view parent.pgd (a - parent.stackSize) = m.view parent.pgd a ∧
      ∃ pte', m'.entry parent.pgd ((a - parent.stackSize) / 4096) = some pte' ∧ pte'.pfn ≠ pte.pfn
  kept : ∀ a ∉ parent.targetRange, m'.entry parent.pgd (a / 4096) = m.entry parent.pgd (a / 4096) ∧
    m'.view parent.pgd a = m.view parent.pgd a
  others : ∀ pid ≠ parent.pgd, m'.entry pid = m.entry pid
  mem : ∀ a, m'.mem a = m.mem a ∨ ∃ page pte, page * 4096 ∈ parent.targetRange ∧
    m'.entry parent.pgd page = some pte ∧ a / 4096 = pte.pfn
  disjoint : Disjoint parent.stackRange parent.targetRange
  pgd : child'.pgd = parent.pgd
  rbp : child'.rbp = u64 (parent.rbp - parent.stackSize)
  entryRsp : child'.entryRsp = u64 (parent.entryRsp - parent.stackSize)
  nextFree : child'.stack.nextFree = parent.stack.nextFree - parent.stackSize

variable {child parent child' parent' : VforkContext}

/-- With room below the stack the call terminates, and its second loop runs over the pages of the
stack. -/
theorem VforkContext.HasRoom.vforkCopyMm_iff (h : parent.HasRoom) (H : ForkHeader)
    (hasTable : Machine → Nat → Nat → Bool) (child : VforkContext) (m : Machine) : ∃ pages,
    PageList pages parent.stack.nextFree parent.stack.segEnd ∧
      ∀ child' parent' m', VforkCopyMm H hasTable child parent m child' parent' m' ↔
        some m' = visits (fun vaddr m => Option.bind m
          (vforkVisit H hasTable parent.pgd parent.stack parent.stackSize vaddr)) pages (some m) ∧
        parent' = { parent with waiting := true } ∧
        child' = { child with
          pgd := parent.pgd
          rbp := u64 (child.rbp - parent.stackSize)
          entryRsp := u64 (child.entryRsp - parent.stackSize)
          stack := { child.stack with
            nextFree := u64 (parent.stack.nextFree - parent.stackSize) } } := by
  obtain ⟨i, hi⟩ := h.end_dvd
  obtain ⟨j, hj⟩ := h.nextFree_dvd
  have hpos := h.nextFree_pos
  have hle := h.nextFree_le
  have hlt := h.end_lt
  have hend : u64 (parent.stack.segEnd - 4096) = parent.stack.segEnd - 4096 := by unfold u64; omega
  obtain ⟨pages, hpages, hloop⟩ := exists_downLoop_pages h.nextFree_dvd h.end_dvd hpos hle hlt
    fun vaddr m => Option.bind m
      (vforkVisit H hasTable parent.pgd parent.stack parent.stackSize vaddr)
  have hfirst {r} : Returns (downLoop parent.stack.nextFree 4096 fun vaddr _ => u64 (vaddr - 4096))
      (parent.stack.segEnd - 4096, parent.stack.segEnd - 4096) r ↔
        r = parent.stack.segEnd - 4096 - 4096 * (i - j) :=
    returns_downLoop_last_iff (by omega) (by omega) (by omega) (by omega)
  have hsize : u64 ((parent.stack.segEnd - 4096 : Nat) -
      (parent.stack.segEnd - 4096 - 4096 * (i - j) : Nat)) = parent.stackSize := by
    unfold u64 VforkContext.stackSize
    omega
  refine ⟨pages, hpages, fun child' parent' m' => ?_⟩
  constructor
  · intro hcall
    cases hcall with
    | @mk end1 vaddr fsize _ hend1 hvaddr hfsize hcopy =>
    rw [hend] at hend1
    rw [hend1] at hvaddr
    rw [hend1, hfirst.1 hvaddr, hsize] at hfsize
    rw [hend1, ← hend, hfsize] at hcopy
    exact ⟨(hloop _ _).1 hcopy, rfl, by rw [hfsize]⟩
  · rintro ⟨hcopy, rfl, rfl⟩
    have hvaddr := hfirst.2 rfl
    rw [← hend] at hvaddr
    refine .mk rfl hvaddr ?_ ((hloop _ _).2 hcopy)
    rw [hend, hsize]

/-- `vfork` relocates the stack of its parent faithfully. -/
theorem VforkCopyMm.stack_relocated (h : parent.HasRoom) (hs : m.Sound)
    (hdistinct : ∀ {page page' pte pte'}, m.entry parent.pgd page = some pte →
      m.entry parent.pgd page' = some pte' → pte.pfn = pte'.pfn → page' = page)
    (htable : ∀ m page, page * 4096 ∈ parent.targetRange → hasTable m parent.pgd page)
    (hchild : child.rbp = parent.rbp ∧ child.entryRsp = parent.entryRsp) :
    (∃ child' parent' m', VforkCopyMm H hasTable child parent m child' parent' m') ∧
      ∀ child' parent' m', VforkCopyMm H hasTable child parent m child' parent' m' →
        StackRelocated parent child' m m' := by
  obtain ⟨pages, hpages, hiff⟩ := h.vforkCopyMm_iff H hasTable child m
  obtain ⟨i, hi⟩ := h.end_dvd
  obtain ⟨j, hj⟩ := h.nextFree_dvd
  have hle := h.nextFree_le
  have htwice := h.end_le
  have hlt := h.end_lt
  obtain ⟨s, hsize⟩ : ∃ s, parent.stackSize = s * 4096 :=
    ⟨i - j, by unfold VforkContext.stackSize; omega⟩
  have hsub : parent.stackSize = 4096 * i - 4096 * j := by
    rw [VforkContext.stackSize, hi, hj]
  have htarget {page} : page * 4096 ∈ parent.targetRange ↔ IsTarget j s page := by
    rw [VforkContext.targetRange, Set.mem_Ico, hj, hsize, IsTarget]
    omega
  have hpages' : ∀ p ∈ pages, j ≤ p ∧ p < j + s := fun p hp => by
    have := (hpages.mem p).1 hp
    rw [Set.mem_Ico] at this
    omega
  have h₀ : Relocating parent.pgd j s m m [] :=
    ⟨hs, fun _ => rfl, fun _ he he' hpfn => hdistinct he he' hpfn, fun _ => .inl rfl,
      fun hp => absurd hp List.not_mem_nil, fun hp => absurd hp List.not_mem_nil⟩
  obtain ⟨m₁, done, hvisits, h₁, hdone⟩ : ∃ m₁ done, visits (fun vaddr m => Option.bind m
      (vforkVisit H hasTable parent.pgd parent.stack parent.stackSize vaddr)) pages (some m) =
        some m₁ ∧ Relocating parent.pgd j s m m₁ done ∧ ∀ p ∈ pages, p ∈ done := by
    rw [hsize]
    exact h₀.visits (by omega) hpages' (by omega) fun m t ht => htable m t (htarget.2 ht)
  refine ⟨⟨_, _, m₁, (hiff _ _ _).2 ⟨hvisits.symm, rfl, rfl⟩⟩, fun child' parent' m' hcall => ?_⟩
  obtain ⟨hm', -, rfl⟩ := (hiff _ _ _).1 hcall
  obtain rfl : m' = m₁ := Option.some.inj (hm'.trans hvisits)
  have hnot {a} (ha : a ∉ parent.targetRange) : ¬IsTarget j s (a / 4096) := by
    rw [← htarget]
    rw [VforkContext.targetRange, Set.mem_Ico] at ha ⊢
    omega
  constructor
  case copied =>
    intro a pte ha he
    rw [VforkContext.stackRange, Set.mem_Ico] at ha
    have hp : a / 4096 ∈ pages := by
      rw [hpages.mem, Set.mem_Ico]
      omega
    obtain ⟨pte', he', hmem⟩ := h₁.copied (hdone _ hp) he
    have hdiv : (a - parent.stackSize) / 4096 = a / 4096 - s := by omega
    have hmod : (a - parent.stackSize) % 4096 = a % 4096 := by omega
    refine ⟨?_, pte', by rw [hdiv, he'], fun hpfn => ?_⟩
    · rw [view, view, hdiv, hmod, he', he]
      exact congrArg some (hmem _ (Nat.mod_lt _ (by decide)))
    · have hsource : m'.entry parent.pgd (a / 4096) = some pte :=
        (h₁.entry fun hnot => absurd hnot.2.2 (by omega)).trans he
      have hpage := h₁.distinct ⟨by omega, by omega⟩ he' hsource hpfn
      omega
  case kept =>
    intro a ha
    have hentry : m'.entry parent.pgd (a / 4096) = m.entry parent.pgd (a / 4096) :=
      h₁.entry fun hboth => hnot ha hboth.2
    refine ⟨hentry, ?_⟩
    rw [view, view, hentry]
    cases he : m.entry parent.pgd (a / 4096) with
    | none => rfl
    | some pte => exact congrArg some (h₁.mem_eq (hnot ha) he (Nat.mod_lt _ (by decide)))
  case others => exact fun pid hpid => funext fun page => h₁.entry fun hboth => hpid hboth.1
  case mem =>
    intro a
    refine (h₁.mem a).imp_right ?_
    rintro ⟨page, pte, hpage, he, hframe⟩
    exact ⟨page, pte, htarget.2 hpage, he, hframe⟩
  case disjoint =>
    rw [Set.disjoint_left]
    rintro a ha ha'
    exact absurd ha'.2 (Nat.not_lt.2 ha.1)
  case pgd => rfl
  case rbp => rw [← hchild.1]
  case entryRsp => rw [← hchild.2]
  case nextFree =>
    dsimp only
    unfold u64
    omega

/-- A process with two pages of stack. -/
def VforkContext.twoPages : VforkContext where
  pgd := 0
  rbp := 36000
  entryRsp := 35000
  stack := ⟨24576, 32768, 40960, 3⟩
  waiting := false

/-- The two pages, and one below them that an earlier `vfork` has left. The bytes of a frame are its
number. -/
def Machine.twoPages : Machine :=
  { Machine.boot [7, 8, 9] with mem := fun a => UInt8.ofNat (a / 4096) }

/-- `get_user_pte` gets to an entry for every page. -/
def everyTable (_ : Machine) (_ _ : Nat) : Bool := true

theorem VforkCopyMm.stack_relocated_of_twoPages : ∃ child' parent' m',
    VforkCopyMm .megabyte everyTable .twoPages .twoPages .twoPages child' parent' m' ∧
      (m'.view 0 (32800 - 8192) = some 17 ∧ m'.view 0 (36900 - 8192) = some 19) ∧
      (m'.view 0 32800 = some 17 ∧ m'.view 0 36900 = some 19) ∧ child'.rbp = 27808 := by
  have hroom : VforkContext.twoPages.HasRoom := by constructor <;> decide
  have htable : ∀ m page, page * 4096 ∈ VforkContext.twoPages.targetRange → everyTable m 0 page :=
    fun _ _ _ => rfl
  have hboot := Machine.boot_sound [7, 8, 9]
  have hs : Machine.twoPages.Sound :=
    ⟨hboot.pfn_ne, hboot.free_ne, hboot.free_unmapped, hboot.free_injective⟩
  have hdistinct {page page' : Nat} {pte pte' : Pte}
      (he : Machine.twoPages.entry 0 page = some pte)
      (he' : Machine.twoPages.entry 0 page' = some pte') (hpfn : pte.pfn = pte'.pfn) :
      page' = page := by
    obtain ⟨-, ⟨⟩⟩ := Option.ite_none_right_eq_some.1 he
    obtain ⟨-, ⟨⟩⟩ := Option.ite_none_right_eq_some.1 he'
    dsimp only at hpfn
    omega
  obtain ⟨⟨child', parent', m', hcall⟩, hall⟩ :=
    VforkCopyMm.stack_relocated (H := .megabyte) hroom hs hdistinct htable ⟨rfl, rfl⟩
  have hrelocated := hall _ _ _ hcall
  refine ⟨child', parent', m', hcall, ⟨?_, ?_⟩, ⟨?_, ?_⟩, ?_⟩
  · have hpage : (32800 : Nat) ∈ VforkContext.twoPages.stackRange := ⟨by decide, by decide⟩
    exact (hrelocated.copied hpage rfl).1
  · have hpage : (36900 : Nat) ∈ VforkContext.twoPages.stackRange := ⟨by decide, by decide⟩
    exact (hrelocated.copied hpage rfl).1
  · exact (hrelocated.kept 32800 fun hin => absurd hin.2 (by decide)).2
  · exact (hrelocated.kept 36900 fun hin => absurd hin.2 (by decide)).2
  · exact hrelocated.rbp

end CS330
