import CS330.Files.Slots

/-! # Exact reference counts, and pipes that live as long as their descriptors

Every call of a process keeps the objects accounted for, with the slots of all processes as the
holders. -/

namespace CS330

variable {C : FileConsts} {F : FileSystem} {k k' : Kernel C F} {fd : Fin C.maxOpenFiles}

/-! ## The loops over a table -/

section
variable {κ : Type*} {I : Type} [DecidableEq κ] {refs : κ → Option Nat} {objs : Objects I}
  {key : Fin M → κ} {files : Fin M → Option Nat}

theorem Accounted.doFileFork (h : Accounted C refs objs) (hkey : Function.Injective key)
    (hfree : ∀ i, refs (key i) = none) (hheld : ∀ i o, files i = some o → Held refs o) :
    Accounted C (redirect key files (List.finRange M) refs) (objs.doFileFork files) := by
  unfold Objects.doFileFork
  have hnodup := List.nodup_finRange M
  replace hfree : ∀ i ∈ List.finRange M, refs (key i) = none := fun i _ => hfree i
  generalize List.finRange M = l at hnodup hfree ⊢
  induction l generalizing refs objs with
  | nil => exact h
  | cons i l ih =>
    obtain ⟨hi, hnodup⟩ := List.nodup_cons.1 hnodup
    have hne (j) (hj : j ∈ l) : key j ≠ key i := fun heq => hi (hkey heq ▸ hj)
    have hrest (v) : ∀ j ∈ l, Function.update refs (key i) v (key j) = none := fun j hj =>
      (Function.update_of_ne (hne j hj) ..).trans (hfree j (.tail _ hj))
    simp only [List.foldl_cons]
    have hki := hfree i (.head _)
    cases ho : files i with
    | none =>
      have heq : Function.update refs (key i) none = refs := by
        rw [← hki, Function.update_eq_self]
      refine ih ?_ ?_ hnodup ?_
      · simpa [ho, heq] using h
      · simpa [ho, heq] using hheld
      · simpa [ho] using hrest none
    | some o =>
      refine ih ?_ ?_ hnodup ?_
      · simp only [ho]
        exact h.take hki (hheld i o ho)
      · intro j o' ho'
        simp only [ho, held_update_of_eq_none hki]
        exact .inr (hheld j o' ho')
      · simp only [ho]
        exact hrest _

theorem Accounted.doFileExit (h : Accounted C refs objs) (hkey : Function.Injective key)
    (hrefs : ∀ i, refs (key i) = files i) :
    Accounted C (redirect key (fun _ => none) (List.finRange M) refs) (objs.doFileExit C files) := by
  unfold Objects.doFileExit
  have hnodup := List.nodup_finRange M
  replace hrefs : ∀ i ∈ List.finRange M, refs (key i) = files i := fun i _ => hrefs i
  generalize List.finRange M = l at hnodup hrefs ⊢
  induction l generalizing refs objs with
  | nil => exact h
  | cons i l ih =>
    obtain ⟨hi, hnodup⟩ := List.nodup_cons.1 hnodup
    have hne (j) (hj : j ∈ l) : key j ≠ key i := fun heq => hi (hkey heq ▸ hj)
    have hki := hrefs i (.head _)
    refine ih ?_ hnodup fun j hj =>
      (Function.update_of_ne (hne j hj) ..).trans (hrefs j (.tail _ hj))
    cases ho : files i with
    | none =>
      have heq : Function.update refs (key i) none = refs := by
        rw [← ho, ← hki, Function.update_eq_self]
      simp only [ho, heq]
      exact h
    | some o =>
      simp only [ho]
      exact h.drop (hki.trans ho)

end

/-! ## The calls -/

namespace Kernel

/-- What the slots of all tables refer to; the holder `none` is a reference inside of a call. -/
def refs (k : Kernel C F) : Option (Nat × Fin C.maxOpenFiles) → Option Nat
  | none => none
  | some (pid, fd) => k.files pid fd

@[simp] theorem refs_none : k.refs none = none := rfl

@[simp] theorem refs_some : k.refs (some (pid, fd)) = k.files pid fd := rfl

theorem refs_setFile {v : Option Nat} :
    (k.setFile pid fd v).refs = Function.update k.refs (some (pid, fd)) v := by
  ext1 i
  obtain _ | ⟨pid', fd'⟩ := i
  · rfl
  · simp only [refs_some, setFile]
    rcases eq_or_ne pid' pid with rfl | hpid
    · rcases eq_or_ne fd' fd with rfl | hfd
      · simp
      · simp [hfd]
    · simp [hpid]

/-- A table is replaced slot by slot. -/
theorem refs_of_files_eq {table : Fin C.maxOpenFiles → Option Nat}
    (hfiles : k'.files = Function.update k.files pid table) :
    k'.refs = redirect (fun fd => some (pid, fd)) table (List.finRange C.maxOpenFiles) k.refs := by
  have hkey : Function.Injective fun fd : Fin C.maxOpenFiles => some (pid, fd) := fun _ _ h => by
    simpa using h
  ext1 i
  obtain _ | ⟨pid', fd⟩ := i
  · rw [redirect_of_forall_ne (by simp)]
    rfl
  · rw [refs_some, hfiles]
    rcases eq_or_ne pid' pid with rfl | hne
    · rw [Function.update_self]
      exact (redirect_of_mem hkey (List.mem_finRange fd)).symm
    · rw [Function.update_of_ne hne, redirect_of_forall_ne (by simp [hne.symm]), refs_some]

/-- The invariant of the runs. -/
structure Counted (k : Kernel C F) : Prop where
  accounted : Accounted C k.refs k.objs
  dead : ∀ {pid fd}, ¬k.alive pid → k.files pid fd = none

theorem held_iff : Held k.refs o ↔ ∃ pid fd, k.files pid fd = some o := by
  constructor
  · rintro ⟨_ | ⟨pid, fd⟩, h⟩
    · cases h
    · exact ⟨pid, fd, h⟩
  · rintro ⟨pid, fd, h⟩
    exact ⟨some (pid, fd), h⟩

theorem Counted.setFile {v : Option Nat} {objs : Objects F.Inode} {inodes : F.State}
    (h : k.Counted) (hpid : k.alive pid)
    (ha : Accounted C (Function.update k.refs (some (pid, fd)) v) objs) :
    ({ k with objs, inodes }.setFile pid fd v).Counted where
  accounted := by
    rw [refs_setFile]
    exact ha
  dead {pid' fd'} hdead := by
    have hne : pid' ≠ pid := by rintro rfl; exact hdead hpid
    simpa [Kernel.setFile, hne] using h.dead hdead

theorem Counted.openStandardIo (h : k.Counted) (hpid : k.alive pid)
    (hk : k.openStandardIo pid type = some (ret, k')) : k'.Counted := by
  unfold Kernel.openStandardIo at hk
  split at hk
  case h_1 => cases hk
  case h_2 fd _ =>
  split at hk
  case h_1 hnone =>
    obtain ⟨-, rfl⟩ := Prod.mk.inj (Option.some.inj hk)
    exact h.setFile hpid (h.accounted.allocHeld nofun rfl hnone)
  case h_2 o ho =>
    split at hk
    case h_1 fd hfd =>
      obtain ⟨-, rfl⟩ := Prod.mk.inj (Option.some.inj hk)
      have hfree := (searchFd_ok_iff.1 hfd).2.1
      exact h.setFile hpid (h.accounted.take hfree ⟨some (pid, _), ho⟩)
    case h_2 => cases hk

theorem Counted.doRegularFileOpen (h : k.Counted) (hpid : k.alive pid)
    (hk : k.doRegularFileOpen pid filename flags mode = some (ret, k')) : k'.Counted := by
  unfold Kernel.doRegularFileOpen at hk
  split at hk
  case h_1 => cases hk; exact h
  case h_2 name =>
  split at hk
  case isTrue => cases hk; exact h
  case isFalse =>
  obtain ⟨created, inode, inodes⟩ := openInode C F k.inodes name flags mode
  dsimp only at hk
  split at hk
  case h_1 => cases hk; exact ⟨h.accounted, h.dead⟩
  case h_2 =>
  split at hk
  case isTrue => cases hk; exact ⟨h.accounted, h.dead⟩
  case isFalse =>
  split at hk
  case isTrue => cases hk; exact ⟨h.accounted, h.dead⟩
  case isFalse =>
  obtain ⟨res, hres, hk⟩ := Option.map_eq_some_iff.1 hk
  cases res with
  | error e => cases hk; exact ⟨h.accounted.alloc nofun, h.dead⟩
  | ok fd =>
    cases hk
    have hfree := (searchFd_ok_iff.1 hres).2.1
    exact h.setFile hpid (h.accounted.allocHeld nofun rfl hfree)

theorem Counted.createPipe (h : k.Counted) (hpid : k.alive pid)
    (hk : k.createPipe pid fds page = some (ret, fds', k')) : k'.Counted := by
  unfold Kernel.createPipe at hk
  obtain ⟨res, hres, hk⟩ := Option.bind_eq_some_iff.1 hk
  cases res with
  | error e => cases hk; exact h
  | ok fd1 =>
    obtain ⟨res, hres', hk⟩ := Option.bind_eq_some_iff.1 hk
    cases res with
    | error e => cases hk; exact h
    | ok fd2 =>
      cases hk
      obtain ⟨-, hfree, -⟩ := searchFd_ok_iff.1 hres
      obtain ⟨hlt, hfree', -⟩ := searchFd_ok_iff.1 hres'
      have hne : (some (pid, fd1) : Option (Nat × Fin C.maxOpenFiles)) ≠ some (pid, fd2) := by
        rintro ⟨⟩
        omega
      have ha := h.accounted.createPipe hne hfree hfree' page
      constructor
      · simp only [makePipe, refs_setFile]
        exact ha
      · intro pid' fd' hdead
        have hne : pid' ≠ pid := by rintro rfl; exact hdead hpid
        simpa [makePipe, Kernel.setFile, hne] using h.dead hdead

theorem Counted.fdDup (h : k.Counted) (hpid : k.alive pid)
    (hk : k.fdDup pid oldfd = some (ret, k')) : k'.Counted := by
  unfold Kernel.fdDup at hk
  split at hk
  case h_1 => cases hk; exact h
  case h_2 =>
  split at hk
  case h_1 => cases hk; exact h
  case h_2 o ho =>
  obtain ⟨res, hres, hk⟩ := Option.map_eq_some_iff.1 hk
  cases res with
  | error e => cases hk; exact h
  | ok fd =>
    cases hk
    have hfree := (searchFd_ok_iff.1 hres).2.1
    exact h.setFile hpid (h.accounted.take hfree ⟨some (pid, _), ho⟩)

/-- The reference that the call takes before it closes `newfd` goes over to this slot. -/
theorem Counted.fdDup2 (h : k.Counted) (hpid : k.alive pid)
    (hk : k.fdDup2 pid oldfd newfd = (ret, k')) : k'.Counted := by
  unfold Kernel.fdDup2 at hk
  split at hk
  case h_2 => cases hk; exact h
  case h_1 old new _ _ =>
  split at hk
  case h_1 => cases hk; exact h
  case h_2 o ho =>
  have htaken := h.accounted.take refs_none ⟨some (pid, old), ho⟩
  have hmove {refs : Option (Nat × Fin C.maxOpenFiles) → Option Nat}
      (hnone : refs none = some o) (hnew : refs (some (pid, new)) = none)
      (hrest : ∀ i, i ≠ none → i ≠ some (pid, new) → refs i = k.refs i) :
      refs ∘ Equiv.swap none (some (pid, new)) =
        Function.update k.refs (some (pid, new)) (some o) := by
    ext1 i
    by_cases hi : i = some (pid, new)
    · simp [hi, hnone]
    · by_cases hi' : i = none
      · simp [hi', hnew]
      · simp [Equiv.swap_apply_of_ne_of_ne hi' hi, hi, hrest i hi' hi]
  cases hk
  apply h.setFile hpid
  cases hnew : k.files pid new with
  | none =>
    rw [← hmove (Function.update_self ..) (by simp [hnew]) fun i hi _ => Function.update_of_ne hi ..]
    exact htaken.comp _
  | some o' =>
    have hdropped := htaken.drop (i := some (pid, new)) (o := o') (by simp [hnew])
    rw [← hmove ?_ (Function.update_self ..) ?_]
    · exact hdropped.comp _
    · simp
    · intro i hi hi'
      simp [hi, hi']

theorem Counted.fork (h : k.Counted) (hchild : ¬k.alive child) : (k.fork pid child).Counted where
  accounted := by
    rw [refs_of_files_eq rfl]
    exact h.accounted.doFileFork (fun _ _ heq => by simpa using heq) (fun fd => h.dead hchild)
      fun fd o ho => ⟨some (pid, fd), ho⟩
  dead {pid' fd} hdead := by
    have hne : pid' ≠ child := by rintro rfl; simp [Kernel.fork] at hdead
    simp only [Kernel.fork, Function.update_of_ne hne] at hdead ⊢
    exact h.dead hdead

theorem Counted.close (h : k.Counted) (hpid : k.alive pid) (hfd : (k.files pid fd).isSome) :
    (k.close pid fd).Counted := by
  obtain ⟨o, ho⟩ := Option.isSome_iff_exists.1 hfd
  have hdrop := h.accounted.drop (i := some (pid, fd)) ho
  unfold Kernel.close
  rw [ho]
  exact h.setFile hpid hdrop

theorem Counted.exit (h : k.Counted) : (k.exit pid).Counted where
  accounted := by
    rw [refs_of_files_eq rfl]
    exact h.accounted.doFileExit (fun _ _ heq => by simpa using heq) fun _ => rfl
  dead {pid' fd} hdead := by
    rcases eq_or_ne pid' pid with rfl | hne
    · simp [Kernel.exit]
    · simp only [Kernel.exit, Function.update_of_ne hne] at hdead ⊢
      exact h.dead hdead

theorem Counted.step (h : k.Counted) (hs : FileStep k call k') : k'.Counted := by
  cases hs with
  | openStandardIo hpid hk => exact h.openStandardIo hpid hk
  | doRegularFileOpen hpid hk => exact h.doRegularFileOpen hpid hk
  | createPipe hpid hk => exact h.createPipe hpid hk
  | fdDup hpid hk => exact h.fdDup hpid hk
  | fdDup2 hpid hk => exact h.fdDup2 hpid hk
  | fork _ hchild => exact h.fork hchild
  | close hpid fd hfd => exact h.close hpid hfd
  | exit _ => exact h.exit

theorem Initial.counted (h : k.Initial) : k.Counted where
  accounted := by
    have hnot (o) : ¬Held k.refs o := by
      rw [held_iff]
      rintro ⟨pid, fd, ho⟩
      simp [h.files] at ho
    exact {
      exact := fun ho => absurd ho (hnot _)
      lt := fun ho => absurd ho (hnot _)
      fileFrees := fun _ => h.fileFrees
      pipe_lt := fun ho => by simp [h.nextFile] at ho
      pipeFrees := fun _ => h.pipeFrees
      ends := fun hp => by simp [h.nextPipe] at hp }
  dead _ := h.files

end Kernel

theorem FileRun.counted (h : FileRun k calls k') (h0 : k.Initial) : k'.Counted :=
  h.invariant h0.counted fun h hs => h.step hs

/-! ## The runs -/

/-- The slots of all processes that refer to the file object. -/
def Kernel.slotsOf (k : Kernel C F) (o : Nat) : Set (Nat × Fin C.maxOpenFiles) :=
  {s | k.files s.1 s.2 = some o}

/-- Every file object that a slot refers to counts these slots, and has not been freed. -/
theorem FileRun.refCount_exact (h : FileRun k calls k') (h0 : k.Initial)
    (ho : (k'.slotsOf o).Nonempty) :
    ((k'.slotsOf o).Finite ∧ (k'.objs.file o).refCount = (k'.slotsOf o).ncard) ∧
      k'.objs.fileFrees o = 0 := by
  have ha := (h.counted h0).accounted
  obtain ⟨⟨pid, fd⟩, hslot⟩ := ho
  have hheld : Held k'.refs o := Kernel.held_iff.2 ⟨pid, fd, hslot⟩
  have hslots : holders k'.refs o = some '' k'.slotsOf o := by
    ext i
    obtain _ | s := i <;> simp [Kernel.slotsOf, Kernel.refs]
  obtain ⟨hfinite, hcount⟩ := ha.exact hheld
  rw [hslots] at hfinite hcount
  rw [Set.ncard_image_of_injective _ (Option.some_injective _)] at hcount
  exact ⟨⟨hfinite.of_finite_image (Option.some_injective _).injOn, hcount⟩, ha.fileFrees (.inl hheld)⟩

/-- A standard file after a fork and a `dup2` of the child. -/
theorem FileRun.refCount_exact_of_fork_dup2 :
    ∃ (C : FileConsts) (F : FileSystem) (calls : List (FileCall F)) (k k' : Kernel C F),
      calls.length = 3 ∧ FileRun k calls k' ∧
        (k'.objs.file 0).refCount = (k'.slotsOf 0).ncard ∧ (k'.objs.file 0).refCount = 3 := by
  let C : FileConsts := ⟨16, 0, 1, 2, 8, by decide⟩
  let stdin : Fin C.maxOpenFiles := (0 : Fin 16)
  let k₀ : Kernel C noFiles := .boot () ()
  let k₁ : Kernel C noFiles :=
    { k₀ with objs := k₀.objs.allocFile ⟨.stdIo 0, 1, 0, 1⟩ }.setFile 0 stdin (some 0)
  let k₂ := k₁.fork 0 1
  have hopen : FileStep k₀ (.openStandardIo 0 0) k₁ := .openStandardIo rfl rfl
  have hfork : FileStep k₁ (.fork 0 1) k₂ := .fork rfl nofun
  have hdup : FileStep k₂ (.fdDup2 1 0 5) (k₂.fdDup2 1 0 5).2 := .fdDup2 rfl rfl
  have hrun : FileRun k₀ _ (k₂.fdDup2 1 0 5).2 := .snoc (.snoc (.snoc .nil hopen) hfork) hdup
  have h0 : k₀.Initial := Kernel.boot_initial ..
  have hslot : (k₂.fdDup2 1 0 5).2.files 0 stdin = some 0 := rfl
  have hexact := hrun.refCount_exact (o := 0) h0 ⟨(0, stdin), hslot⟩
  exact ⟨C, noFiles, _, k₀, _, rfl, hrun, hexact.1.2, rfl⟩

/-- The life of a pipe: its two files, its flags, and the calls of `free_pipe_info`. -/
structure Kernel.PipeLives (k : Kernel C F) (p r w : Nat) : Prop where
  ne : r ≠ w
  files : ∀ o, o < k.objs.nextFile ∧ (k.objs.file o).type = .pipe p ↔ o = r ∨ o = w
  read_mode : (k.objs.file r).mode = C.oRead
  write_mode : (k.objs.file w).mode = C.oWrite
  ropen : (k.objs.pipe p).isRopen ↔ (k.slotsOf r).Nonempty
  wopen : (k.objs.pipe p).isWopen ↔ (k.slotsOf w).Nonempty
  freed : (k.slotsOf r = ∅ ∧ k.slotsOf w = ∅) → k.objs.pipeFrees p = 1
  not_freed : ¬(k.slotsOf r = ∅ ∧ k.slotsOf w = ∅) → k.objs.pipeFrees p = 0

/-- Every pipe that was made lives exactly as long as descriptors of its files. -/
theorem FileRun.pipe_lives (h : FileRun k calls k') (h0 : k.Initial) (hp : p < k'.objs.nextPipe) :
    ∃ r w, k'.PipeLives p r w := by
  obtain ⟨r, w, he⟩ := (h.counted h0).accounted.ends hp
  have hslots (o) : Held k'.refs o ↔ (k'.slotsOf o).Nonempty := by
    rw [Kernel.held_iff, Set.Nonempty, Prod.exists]
    rfl
  have hropen := he.ropen.trans (hslots r)
  have hwopen := he.wopen.trans (hslots w)
  refine ⟨r, w, he.ne, fun _ => he.file_iff, he.read_mode, he.write_mode, hropen, hwopen, ?_, ?_⟩
  · rintro ⟨hr, hw⟩
    rw [he.frees, if_neg]
    simp [hropen, hwopen, hr, hw]
  · intro hnot
    rw [he.frees, if_pos]
    rw [hropen, hwopen, Set.nonempty_iff_ne_empty, Set.nonempty_iff_ne_empty]
    tauto

/-- A child inherits both ends of a pipe and duplicates one. The pipe outlives its maker, and it is
freed when the child exits too. -/
theorem FileRun.pipe_lives_of_exits :
    ∃ (C : FileConsts) (F : FileSystem) (calls : List (FileCall F)) (k₀ k k' : Kernel C F),
      calls = [.createPipe 0 (0, 0) (.replicate _ 0), .fork 0 1, .fdDup 1 4, .close 0 3, .exit 0] ∧
        (FileRun k₀ calls k ∧ (∃ r w, k.PipeLives 0 r w) ∧ k.objs.pipeFrees 0 = 0) ∧
        FileRun k₀ (calls ++ [.exit 1]) k' ∧ (∃ r w, k'.PipeLives 0 r w) ∧
          k'.objs.pipeFrees 0 = 1 := by
  let C : FileConsts := ⟨16, 0, 1, 2, 8, by decide⟩
  let zero : Fin C.maxOpenFiles := (0 : Fin 16)
  let three : Fin C.maxOpenFiles := (3 : Fin 16)
  let four : Fin C.maxOpenFiles := (4 : Fin 16)
  let k₀ : Kernel C noFiles := .boot () ()
  have hi : LowestFree (k₀.files 0) 3 three :=
    ⟨by decide, rfl, fun j hj hlt => absurd hlt (Nat.not_lt.2 hj)⟩
  have hj : LowestFree (k₀.files 0) (three + 1) four :=
    ⟨by decide, rfl, fun j hj hlt => absurd hlt (Nat.not_lt.2 hj)⟩
  let k₁ := k₀.makePipe 0 three four (.replicate _ 0)
  let k₂ := k₁.fork 0 1
  let k₃ := { k₂ with objs := k₂.objs.addRef 1 1 }.setFile 1 zero (some 1)
  let k₄ := k₃.close 0 three
  have hmake : FileStep k₀ (.createPipe 0 (0, 0) (.replicate _ 0)) k₁ :=
    .createPipe rfl (Kernel.createPipe_of_lowest hi hj)
  have hfork : FileStep k₁ (.fork 0 1) k₂ := .fork rfl Bool.false_ne_true
  have hfree : searchFd (k₂.files 1) 0 = some (.ok zero) :=
    searchFd_ok_iff.2 ⟨le_rfl, rfl, fun j _ hlt => absurd hlt (Nat.not_lt.2 (Nat.zero_le _))⟩
  have hslot : Kernel.slot C 4 = some four := by decide
  have hfour : k₂.files 1 four = some 1 := rfl
  have hdup : FileStep k₂ (.fdDup 1 4) k₃ := by
    have hret : k₂.fdDup 1 4 = some (.ok zero, k₃) := by
      simp only [Kernel.fdDup, hslot, hfour, hfree]
      rfl
    exact .fdDup rfl hret
  have hclose : FileStep k₃ (.close 0 3) k₄ := .close rfl three rfl
  have hrun : FileRun k₀ [.createPipe 0 (0, 0) (.replicate _ 0), .fork 0 1, .fdDup 1 4,
      .close 0 3, .exit 0] (k₄.exit 0) :=
    .cons hmake (.cons hfork (.cons hdup (.cons hclose (.cons (.exit rfl) .nil))))
  have hrun' : FileRun k₀ (_ ++ [.exit 1]) ((k₄.exit 0).exit 1) :=
    hrun.snoc (.exit (show (k₄.exit 0).alive 1 from rfl))
  have h0 : k₀.Initial := Kernel.boot_initial ..
  have hpipe : 0 < (k₄.exit 0).objs.nextPipe := by decide +kernel
  have hpipe' : 0 < ((k₄.exit 0).exit 1).objs.nextPipe := by decide +kernel
  obtain ⟨r, w, hlives⟩ := hrun.pipe_lives (p := 0) h0 hpipe
  obtain ⟨r', w', hlives'⟩ := hrun'.pipe_lives (p := 0) h0 hpipe'
  refine ⟨C, noFiles, _, k₀, _, _, rfl, ⟨hrun, ⟨r, w, hlives⟩, hlives.not_freed ?_⟩, hrun',
    ⟨r', w', hlives'⟩, hlives'.freed ?_⟩
  · rintro ⟨hr, -⟩
    obtain ⟨slot, hslot⟩ := hlives.ropen.1 (show ((k₄.exit 0).objs.pipe 0).isRopen = true by
      decide +kernel)
    rwa [hr] at hslot
  · have hnone (pid : Nat) (fd : Fin C.maxOpenFiles) : ((k₄.exit 0).exit 1).files pid fd = none := by
      by_cases h1 : pid = 1
      · subst h1
        rfl
      · by_cases h0 : pid = 0
        · subst h0
          rfl
        · simp [Kernel.exit, k₄, Kernel.close, k₃, k₂, Kernel.fork, k₁, Kernel.makePipe, h1, h0,
            Kernel.setFile, k₀, Kernel.boot]
    have hempty (o : Nat) : ((k₄.exit 0).exit 1).slotsOf o = ∅ :=
      Set.eq_empty_of_forall_notMem fun s hs => by
        have := (hnone s.1 s.2).symm.trans hs
        cases this
    exact ⟨hempty r', hempty w'⟩

end CS330
