import CS330.Files.Accounting

/-! # The search for free slots

The loops over a table read a slot before they compare its index with the size of the table. A
search that starts in bounds stays there. The second search of `create_pipe` starts behind the slot
that the first one has found, which may be the last one. -/

namespace CS330

/-- Slot `i` is the lowest free one from `n` on. -/
def LowestFree (files : Fin M → Option Nat) (n : Nat) (i : Fin M) : Prop :=
  n ≤ i ∧ files i = none ∧ ∀ j : Fin M, n ≤ j → j < i → (files j).isSome

/-- The loop ends at the lowest free slot. -/
theorem searchFd_ok_iff {files : Fin M → Option Nat} {n : Nat} {i : Fin M} :
    searchFd files n = some (.ok i) ↔ LowestFree files n i := by
  unfold LowestFree
  induction hd : M - n generalizing n with
  | zero =>
    have hn : ¬n < M := by omega
    rw [searchFd, dif_neg hn]
    exact iff_of_false nofun fun h => hn (by omega)
  | succ d ih =>
    have hn : n < M := by omega
    rw [searchFd, dif_pos hn]
    cases hfile : files ⟨n, hn⟩ with
    | none =>
      simp only [Option.isSome_none, Bool.false_eq_true, if_false, Option.some.injEq,
        Except.ok.injEq]
      constructor
      · rintro rfl
        exact ⟨Nat.le_refl _, hfile, fun j hj hj' => absurd hj' (by simp; omega)⟩
      · rintro ⟨hni, -, hbelow⟩
        by_contra hne
        have hlt : n < i := Nat.lt_of_le_of_ne hni fun heq => hne (Fin.ext heq)
        have := hbelow ⟨n, hn⟩ (Nat.le_refl _) hlt
        simp [hfile] at this
    | some o =>
      have hnot {i : Fin M} (hi : files i = none) : (i : Nat) ≠ n := by
        rintro rfl
        simp [hfile] at hi
      simp only [Option.isSome_some, if_true]
      split
      · refine iff_of_false nofun ?_
        rintro ⟨hni, hi, -⟩
        have := hnot hi
        omega
      · rw [ih (by omega)]
        constructor
        · rintro ⟨hni, hi, hbelow⟩
          refine ⟨by omega, hi, fun j hj hji => ?_⟩
          by_cases hjn : j = n
          · subst hjn
            simp [hfile]
          · exact hbelow j (by omega) hji
        · rintro ⟨hni, hi, hbelow⟩
          have := hnot hi
          exact ⟨by omega, hi, fun j hj hji => hbelow j (by omega) hji⟩

theorem exists_lowestFree {files : Fin M → Option Nat} {n : Nat} {i : Fin M} (hni : n ≤ i)
    (hi : files i = none) : ∃ j : Fin M, LowestFree files n j ∧ j ≤ i := by
  have hex : ∃ m, ∃ h : m < M, n ≤ m ∧ files ⟨m, h⟩ = none := ⟨i, i.2, hni, hi⟩
  classical
  obtain ⟨h, hn, hfree⟩ := Nat.find_spec hex
  have hmin := fun j => Nat.find_min (m := j) hex
  refine ⟨⟨_, h⟩, ⟨hn, hfree, fun j hnj hj => ?_⟩, Nat.find_min' hex ⟨i.2, hni, hi⟩⟩
  rw [Option.isSome_iff_ne_none]
  exact fun hnone => hmin j hj ⟨j.2, hnj, hnone⟩

/-- There is a lowest free slot, or all slots are taken. -/
theorem lowestFree_or_taken (files : Fin M → Option Nat) (n : Nat) :
    (∃ i, LowestFree files n i) ∨ ∀ i : Fin M, n ≤ i → (files i).isSome := by
  by_cases hfree : ∃ i : Fin M, n ≤ i ∧ files i = none
  · obtain ⟨i, hni, hi⟩ := hfree
    obtain ⟨j, hj, -⟩ := exists_lowestFree hni hi
    exact .inl ⟨j, hj⟩
  · refine .inr fun i hni => Option.isSome_iff_ne_none.2 fun hi => hfree ⟨i, hni, hi⟩

/-- The loop over the slots fails exactly when it finds all of them taken. -/
theorem searchFd_error_iff {files : Fin M → Option Nat} {n : Nat} {e : FileError} :
    searchFd files n = some (.error e) ↔
      e = .eothers ∧ n < M ∧ ∀ j : Fin M, n ≤ j → (files j).isSome := by
  induction hd : M - n generalizing n with
  | zero =>
    have hn : ¬n < M := by omega
    rw [searchFd, dif_neg hn]
    exact iff_of_false (by simp) fun h => hn h.2.1
  | succ d ih =>
    have hn : n < M := by omega
    rw [searchFd, dif_pos hn]
    cases hfile : files ⟨n, hn⟩ with
    | none =>
      refine iff_of_false (by simp) fun h => ?_
      have := h.2.2 ⟨n, hn⟩ le_rfl
      simp [hfile] at this
    | some o =>
      have htaken : ∀ j : Fin M, n ≤ j → j < n + 1 → (files j).isSome := fun j hj hj' => by
        obtain rfl : j = ⟨n, hn⟩ := Fin.ext (by dsimp only; omega)
        simp [hfile]
      simp only [Option.isSome_some, if_true]
      split
      next hlast =>
        refine ⟨?_, ?_⟩
        · rintro ⟨⟩
          exact ⟨rfl, hn, fun j hj => htaken j hj (by omega)⟩
        · rintro ⟨rfl, -⟩
          rfl
      next =>
        rw [ih (by omega)]
        refine and_congr_right fun _ => ⟨fun h => ⟨hn, fun j hj => ?_⟩, fun h =>
          ⟨by omega, fun j hj => h.2 j (by omega)⟩⟩
        rcases Nat.lt_or_ge j (n + 1) with hj' | hj'
        · exact htaken j hj hj'
        · exact h.2 j hj'

theorem searchFd_of_not_lt {files : Fin M → Option Nat} {n : Nat} (hn : ¬n < M) :
    searchFd files n = none := by rw [searchFd, dif_neg hn]

/-! ## The slots of a new pipe -/

/-- At least two slots from 3 up are free. -/
def TwoFree (files : Fin M → Option Nat) : Prop :=
  ∃ i j : Fin M, 3 ≤ i.val ∧ i < j ∧ files i = none ∧ files j = none

/-- From 3 up the last slot of the table is free and no other one. -/
def OnlyLastFree (files : Fin M → Option Nat) : Prop :=
  ∃ i : Fin M, i + 1 = M ∧ LowestFree files 3 i

variable {C : FileConsts} {F : FileSystem} {k k' : Kernel C F} {pid : Nat} {fd : Nat × Nat}
  {page : Vector UInt8 4096} {i j : Fin C.maxOpenFiles} {files : Fin M → Option Nat}

theorem twoFree_iff : TwoFree files ↔
    ∃ i j, LowestFree files 3 i ∧ LowestFree files (i + 1) j := by
  constructor
  · rintro ⟨i, j, h3, hij, hi, hj⟩
    obtain ⟨fd1, hfd1, hle⟩ := exists_lowestFree h3 hi
    obtain ⟨fd2, hfd2, -⟩ := exists_lowestFree (n := fd1 + 1) (by omega) hj
    exact ⟨fd1, fd2, hfd1, hfd2⟩
  · rintro ⟨i, j, hi, hj⟩
    exact ⟨i, j, hi.1, hj.1, hi.2.1, hj.2.1⟩

theorem not_twoFree_of_taken (htaken : ∀ i : Fin M, 3 ≤ i.val → (files i).isSome) :
    ¬TwoFree files := by
  rintro ⟨i, j, h3, -, hi, -⟩
  have := htaken i h3
  simp [hi] at this

/-- Only the lowest free slot is free when all behind it are taken. -/
theorem LowestFree.not_twoFree {i : Fin M} (hi : LowestFree files 3 i)
    (hrest : ∀ j : Fin M, i + 1 ≤ j.val → (files j).isSome) : ¬TwoFree files := by
  rintro ⟨i', j, h3, hij, hi', hj⟩
  have hle : i ≤ i' := by
    by_contra hlt
    have := hi.2.2 i' h3 (by omega)
    simp [hi'] at this
  have := hrest j (by omega)
  simp [hj] at this

/-- The two lowest free slots from 3 up, and no others, get the ends of a new pipe: first the end
for reading, then the end for writing. -/
def FillsLowest (k : Kernel C F) (pid : Nat) (page : Vector UInt8 4096) (fd : Nat × Nat)
    (k' : Kernel C F) : Prop :=
  ∃ (i j : Fin C.maxOpenFiles) (read write p : Nat),
    LowestFree (k.files pid) 3 i ∧ LowestFree (k.files pid) (i + 1) j ∧ fd = (↑i, ↑j) ∧ i < j ∧
    k'.files = Function.update k.files pid
      (Function.update (Function.update (k.files pid) i (some read)) j (some write)) ∧
    k'.objs.file read = ⟨.pipe p, C.oRead, 0, 1⟩ ∧
    k'.objs.file write = ⟨.pipe p, C.oWrite, 0, 1⟩ ∧ k'.objs.pipe p = createPipe page

namespace Kernel

theorem createPipe_of_lowest (hi : LowestFree (k.files pid) 3 i)
    (hj : LowestFree (k.files pid) (i + 1) j) :
    k.createPipe pid fd page = some (.ok (), (↑i, ↑j), k.makePipe pid i j page) := by
  simp [createPipe, searchFd_ok_iff.2 hi, searchFd_ok_iff.2 hj]

theorem makePipe_fillsLowest (hi : LowestFree (k.files pid) 3 i)
    (hj : LowestFree (k.files pid) (i + 1) j) :
    FillsLowest k pid page (↑i, ↑j) (k.makePipe pid i j page) := by
  refine ⟨i, j, k.objs.nextFile, k.objs.nextFile + 1, k.objs.nextPipe, hi, hj, rfl, hj.1, ?_,
    Objects.newPipe_file_read, Objects.newPipe_file_write, Objects.newPipe_pipe⟩
  simp [makePipe, setFile, Objects.allocFile, Objects.allocPipeInfo]

/-- The call touches no slot outside of the table; it fills the two lowest free slots if there are
two from 3 up, and otherwise it fails and leaves everything as it is. -/
def PicksTwo (k : Kernel C F) (pid : Nat) (fd : Nat × Nat) (page : Vector UInt8 4096) : Prop :=
  ∃ ret fd' k', k.createPipe pid fd page = some (ret, fd', k') ∧
    (ret = .ok () ↔ TwoFree (k.files pid)) ∧
    (TwoFree (k.files pid) → FillsLowest k pid page fd' k') ∧
    (¬TwoFree (k.files pid) → ret = .error .eothers ∧ k' = k)

/-- A call that fails, as it should without two free slots. -/
theorem picksTwo_of_error {fd' : Nat × Nat}
    (hcall : k.createPipe pid fd page = some (.error .eothers, fd', k))
    (hnot : ¬TwoFree (k.files pid)) : k.PicksTwo pid fd page :=
  ⟨_, _, _, hcall, iff_of_false nofun hnot, fun h => absurd h hnot, fun _ => ⟨rfl, rfl⟩⟩

/-- The second search starts behind the table. -/
theorem not_picksTwo_of_onlyLastFree (hlast : OnlyLastFree (k.files pid)) :
    ¬k.PicksTwo pid fd page := by
  obtain ⟨i, hlast, hi⟩ := hlast
  rintro ⟨ret, fd', k', hcall, -⟩
  have hsearch : searchFd (k.files pid) (i + 1) = none := searchFd_of_not_lt hlast.not_lt
  simp [createPipe, searchFd_ok_iff.2 hi, hsearch] at hcall

/-- The call does what it should exactly when the last slot is not the only free one. -/
theorem picksTwo_iff (hM : 3 < C.maxOpenFiles) :
    k.PicksTwo pid fd page ↔ ¬OnlyLastFree (k.files pid) := by
  refine ⟨fun hpicks hlast => not_picksTwo_of_onlyLastFree hlast hpicks, fun hnot => ?_⟩
  rcases lowestFree_or_taken (k.files pid) 3 with ⟨i, hi⟩ | htaken
  · have hlt : i + 1 < C.maxOpenFiles :=
      Nat.lt_of_le_of_ne i.isLt fun hlast => hnot ⟨i, hlast, hi⟩
    rcases lowestFree_or_taken (k.files pid) (i + 1) with ⟨j, hj⟩ | htaken
    · have htwo := twoFree_iff.2 ⟨i, j, hi, hj⟩
      exact ⟨_, _, _, createPipe_of_lowest hi hj, iff_of_true rfl htwo,
        fun _ => makePipe_fillsLowest hi hj, fun h => absurd htwo h⟩
    · have hsearch := searchFd_error_iff.2 ⟨rfl, hlt, htaken⟩
      have hcall : k.createPipe pid fd page = some (.error .eothers, (↑i, fd.2), k) := by
        simp [createPipe, searchFd_ok_iff.2 hi, hsearch]
      exact picksTwo_of_error hcall (hi.not_twoFree htaken)
  · have hsearch := searchFd_error_iff.2 ⟨rfl, hM, htaken⟩
    have hcall : k.createPipe pid fd page = some (.error .eothers, fd, k) := by
      simp [createPipe, hsearch]
    exact picksTwo_of_error hcall (not_twoFree_of_taken htaken)

/-- A table of five slots. -/
def fiveSlots (taken : Fin 5 → Bool) : Kernel ⟨5, 0, 1, 4, 8, by decide⟩ noFiles :=
  { (boot () () : Kernel ⟨5, 0, 1, 4, 8, by decide⟩ noFiles) with
    files := fun _ fd => if taken fd then some 0 else none }

theorem picksTwo_of_empty : (fiveSlots fun _ => false).PicksTwo 0 (0, 0) (.replicate _ 0) ↔
    ¬OnlyLastFree ((fiveSlots fun _ => false).files 0) :=
  picksTwo_iff (show 3 < 5 by decide)

/-- Slot 3 is taken and slot 4, the last one, is free. -/
theorem not_picksTwo : ¬∀ {C : FileConsts} {F : FileSystem} {k : Kernel C F} {pid : Nat}
    {fd : Nat × Nat} {page : Vector UInt8 4096}, 4 < C.maxOpenFiles → k.PicksTwo pid fd page := by
  intro hclaim
  have hpicks : (fiveSlots (· = 3)).PicksTwo 0 (0, 0) (.replicate _ 0) :=
    hclaim (show 4 < 5 by decide)
  have hlowest : LowestFree ((fiveSlots (· = 3)).files 0) 3 (4 : Fin 5) :=
    ⟨by decide, rfl, by decide⟩
  exact not_picksTwo_of_onlyLastFree ⟨(4 : Fin 5), rfl, hlowest⟩ hpicks

end Kernel

end CS330
