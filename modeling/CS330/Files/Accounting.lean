import CS330.Files.Basic
import CS330.Lib.References

/-! # The objects under exact reference counts

`refs` is any assignment of holders to file objects: the slots of all tables, and the reference
that a call holds while it moves it. -/

namespace CS330

variable {κ : Type*} {I : Type} {C : FileConsts} {refs refs' : κ → Option Nat}
  {objs objs' : Objects I} {i j : κ}

namespace Objects

@[simp] theorem addRef_file_self :
    (objs.addRef o d).file o = { objs.file o with refCount := (objs.file o).refCount + d } := by
  simp [addRef]

@[simp] theorem allocFile_nextFile {file : File I} :
    (objs.allocFile file).nextFile = objs.nextFile + 1 := rfl

@[simp] theorem addRef_nextFile : (objs.addRef o d).nextFile = objs.nextFile := rfl

theorem addRef_file_of_ne (h : o' ≠ o) : (objs.addRef o d).file o' = objs.file o' := by
  simp [addRef, h]

@[simp] theorem addRef_type : ((objs.addRef o d).file o').type = (objs.file o').type := by
  rcases eq_or_ne o' o with rfl | h
  · simp
  · rw [addRef_file_of_ne h]

@[simp] theorem addRef_mode : ((objs.addRef o d).file o').mode = (objs.file o').mode := by
  rcases eq_or_ne o' o with rfl | h
  · simp
  · rw [addRef_file_of_ne h]

theorem dropRef_of_ne (h : (objs.file o).refCount ≠ 1) :
    objs.dropRef C o = objs.addRef o (-1) := by
  have hne : (objs.file o).refCount + -1 ≠ 0 := by omega
  simp [dropRef, hne]

/-! What dropping the last reference does, field by field. -/

theorem dropRef_cases (h : (objs.file o).refCount = 1) :
    (∃ p, (objs.file o).type = .pipe p ∧
      let closed := (objs.addRef o (-1)).closeEnd C p (objs.file o).mode
      objs.dropRef C o = (if ¬(closed.pipe p).isWopen ∧ ¬(closed.pipe p).isRopen then
        closed.freePipeInfo p else closed).freeFileObject o) ∨
    (∀ p, (objs.file o).type ≠ .pipe p) ∧
      objs.dropRef C o = (objs.addRef o (-1)).freeFileObject o := by
  simp only [dropRef, addRef_file_self, h]
  cases (objs.file o).type with
  | pipe p => exact .inl ⟨p, rfl, rfl⟩
  | stdIo | regular => exact .inr ⟨nofun, rfl⟩

theorem dropRef_file (h : (objs.file o).refCount = 1) :
    (objs.dropRef C o).file = (objs.addRef o (-1)).file ∧
      (objs.dropRef C o).nextFile = objs.nextFile ∧ (objs.dropRef C o).nextPipe = objs.nextPipe ∧
      ∀ o' ≠ o, (objs.dropRef C o).fileFrees o' = objs.fileFrees o' := by
  obtain ⟨p, hp, heq⟩ | ⟨hp, heq⟩ := dropRef_cases (C := C) h
  · rw [heq]
    split <;> exact ⟨rfl, rfl, rfl, fun o' hne => Function.update_of_ne hne ..⟩
  · rw [heq]
    exact ⟨rfl, rfl, rfl, fun o' hne => Function.update_of_ne hne ..⟩

theorem dropRef_pipe_of_ne (h : (objs.file o).refCount = 1) (hp : (objs.file o).type ≠ .pipe p) :
    (objs.dropRef C o).pipe p = objs.pipe p ∧
      (objs.dropRef C o).pipeFrees p = objs.pipeFrees p := by
  obtain ⟨p', hp', heq⟩ | ⟨-, heq⟩ := dropRef_cases (C := C) h
  · have hne : p ≠ p' := by rintro rfl; exact hp hp'
    rw [heq]
    split <;> simp [freeFileObject, freePipeInfo, closeEnd, addRef, hne]
  · rw [heq]
    exact ⟨rfl, rfl⟩

@[simp] theorem closeEnd_pipe_self : (objs.closeEnd C p mode).pipe p =
    { objs.pipe p with
      isRopen := (objs.pipe p).isRopen ∧ mode ≠ C.oRead
      isWopen := (objs.pipe p).isWopen ∧ mode ≠ C.oWrite } := by
  have hne := C.oRead_ne_oWrite
  cases h : objs.pipe p
  simp only [closeEnd, h, Function.update_self]
  split <;> split <;> simp_all <;> grind

theorem dropRef_pipe (h : (objs.file o).refCount = 1) (hp : (objs.file o).type = .pipe p) :
    let pipe := (objs.closeEnd C p (objs.file o).mode).pipe p
    (objs.dropRef C o).pipe p = pipe ∧ (objs.dropRef C o).pipeFrees p =
      objs.pipeFrees p + if pipe.isRopen ∨ pipe.isWopen then 0 else 1 := by
  obtain ⟨p', hp', heq⟩ | ⟨hnot, -⟩ := dropRef_cases (C := C) h
  · obtain rfl : p' = p := by simpa [hp] using hp'.symm
    rw [heq]
    generalize hclosed : (objs.addRef o (-1)).closeEnd C p' (objs.file o).mode = closed
    have hpipe : (objs.closeEnd C p' (objs.file o).mode).pipe p' = closed.pipe p' := by
      rw [← hclosed]
      rfl
    have hfrees : closed.pipeFrees = objs.pipeFrees := by
      rw [← hclosed]
      rfl
    rw [hpipe, ← hfrees]
    by_cases hopen : (closed.pipe p').isRopen ∨ (closed.pipe p').isWopen
    · have hnot : ¬(¬(closed.pipe p').isWopen ∧ ¬(closed.pipe p').isRopen) := by tauto
      simp only [if_neg hnot, if_pos hopen]
      exact ⟨rfl, rfl⟩
    · have hboth : ¬(closed.pipe p').isWopen ∧ ¬(closed.pipe p').isRopen := by tauto
      simp only [if_pos hboth, if_neg hopen]
      exact ⟨rfl, Function.update_self ..⟩
  · exact absurd hp (hnot p)

/-- What `create_pipe` allocates: a pipe, its read file and its write file. -/
def newPipe (C : FileConsts) (objs : Objects I) (page : Vector UInt8 4096) : Objects I :=
  ((objs.allocPipeInfo (createPipe page)).allocFile ⟨.pipe objs.nextPipe, C.oRead, 0, 1⟩).allocFile
    ⟨.pipe objs.nextPipe, C.oWrite, 0, 1⟩

section
variable {page : Vector UInt8 4096}

theorem newPipe_nextFile : (objs.newPipe C page).nextFile = objs.nextFile + 2 := rfl

theorem newPipe_nextPipe : (objs.newPipe C page).nextPipe = objs.nextPipe + 1 := rfl

theorem newPipe_fileFrees : (objs.newPipe C page).fileFrees = objs.fileFrees := rfl

theorem newPipe_pipeFrees : (objs.newPipe C page).pipeFrees = objs.pipeFrees := rfl

theorem newPipe_file_of_lt {o : Nat} (ho : o < objs.nextFile) :
    (objs.newPipe C page).file o = objs.file o := by
  have h₁ : o ≠ objs.nextFile := by omega
  have h₂ : o ≠ objs.nextFile + 1 := by omega
  simp [newPipe, allocFile, allocPipeInfo, h₁, h₂]

theorem newPipe_file_read :
    (objs.newPipe C page).file objs.nextFile = ⟨.pipe objs.nextPipe, C.oRead, 0, 1⟩ := by
  simp [newPipe, allocFile, allocPipeInfo]

theorem newPipe_file_write :
    (objs.newPipe C page).file (objs.nextFile + 1) = ⟨.pipe objs.nextPipe, C.oWrite, 0, 1⟩ := by
  simp [newPipe, allocFile, allocPipeInfo]

theorem newPipe_pipe : (objs.newPipe C page).pipe objs.nextPipe = createPipe page := by
  simp [newPipe, allocFile, allocPipeInfo]

theorem newPipe_pipe_of_lt {p : Nat} (hp : p < objs.nextPipe) :
    (objs.newPipe C page).pipe p = objs.pipe p := by
  have hne : p ≠ objs.nextPipe := by omega
  simp [newPipe, allocFile, allocPipeInfo, hne]

/-- The files of a pipe afterwards: those it had, or the two new ones. -/
theorem newPipe_type_iff {o p : Nat} : o < (objs.newPipe C page).nextFile ∧
      ((objs.newPipe C page).file o).type = .pipe p ↔
    o < objs.nextFile ∧ (objs.file o).type = .pipe p ∨
      p = objs.nextPipe ∧ (o = objs.nextFile ∨ o = objs.nextFile + 1) := by
  rw [newPipe_nextFile]
  rcases lt_trichotomy o objs.nextFile with hlt | rfl | hgt
  · have h₁ : o ≠ objs.nextFile := by omega
    have h₂ : o ≠ objs.nextFile + 1 := by omega
    have h₃ : o < objs.nextFile + 2 := by omega
    simp [newPipe_file_of_lt hlt, h₁, h₂, h₃, hlt]
  · simp [newPipe_file_read, eq_comm]
  · obtain rfl | hgt : o = objs.nextFile + 1 ∨ objs.nextFile + 2 ≤ o := by omega
    · simp [newPipe_file_write, eq_comm]
    · exact iff_of_false (fun h => by omega) (by omega)

end

end Objects

open Objects

/-- The pipe `p` with its read file `r` and its write file `w`: each end is open as long as its
file is held, and the pipe has been freed once if both are closed. -/
structure PipeEnds (C : FileConsts) (refs : κ → Option Nat) (objs : Objects I) (p r w : Nat) :
    Prop where
  file_iff : o < objs.nextFile ∧ (objs.file o).type = .pipe p ↔ o = r ∨ o = w
  read_mode : (objs.file r).mode = C.oRead
  write_mode : (objs.file w).mode = C.oWrite
  ropen : (objs.pipe p).isRopen ↔ Held refs r
  wopen : (objs.pipe p).isWopen ↔ Held refs w
  frees : objs.pipeFrees p = if (objs.pipe p).isRopen ∨ (objs.pipe p).isWopen then 0 else 1

/-- Held files have exact counts and are not freed, and every pipe lives with its two files. -/
structure Accounted (C : FileConsts) (refs : κ → Option Nat) (objs : Objects I) : Prop where
  exact : Held refs o → Exact refs (objs.file o).refCount o
  lt : Held refs o → o < objs.nextFile
  fileFrees : Held refs o ∨ objs.nextFile ≤ o → objs.fileFrees o = 0
  pipe_lt : o < objs.nextFile → (objs.file o).type = .pipe p → p < objs.nextPipe
  pipeFrees : objs.nextPipe ≤ p → objs.pipeFrees p = 0
  ends : p < objs.nextPipe → ∃ r w, PipeEnds C refs objs p r w

variable {o o' p r w : Nat}

theorem PipeEnds.ne (h : PipeEnds C refs objs p r w) : r ≠ w := by
  rintro rfl
  exact C.oRead_ne_oWrite (h.read_mode.symm.trans h.write_mode)

theorem PipeEnds.read_type (h : PipeEnds C refs objs p r w) :
    r < objs.nextFile ∧ (objs.file r).type = .pipe p := h.file_iff.2 (.inl rfl)

theorem PipeEnds.write_type (h : PipeEnds C refs objs p r w) :
    w < objs.nextFile ∧ (objs.file w).type = .pipe p := h.file_iff.2 (.inr rfl)

/-- A change that leaves the pipe, the kinds of its files and their holders alone. -/
theorem PipeEnds.congr (h : PipeEnds C refs objs p r w)
    (htype : ∀ o, o < objs'.nextFile ∧ (objs'.file o).type = .pipe p ↔
      o < objs.nextFile ∧ (objs.file o).type = .pipe p)
    (hmode : ∀ o < objs.nextFile, (objs'.file o).mode = (objs.file o).mode)
    (hheld : ∀ o, (objs.file o).type = .pipe p → o < objs.nextFile →
      (Held refs' o ↔ Held refs o))
    (hpipe : objs'.pipe p = objs.pipe p) (hfrees : objs'.pipeFrees p = objs.pipeFrees p) :
    PipeEnds C refs' objs' p r w where
  file_iff := (htype _).trans h.file_iff
  read_mode := (hmode r h.read_type.1).trans h.read_mode
  write_mode := (hmode w h.write_type.1).trans h.write_mode
  ropen := by rw [hpipe, h.ropen, hheld r h.read_type.2 h.read_type.1]
  wopen := by rw [hpipe, h.wopen, hheld w h.write_type.2 h.write_type.1]
  frees := by rw [hpipe, hfrees, h.frees]

namespace Accounted

/-- Passing references on between holders is not seen by the counts. -/
theorem comp (h : Accounted C refs objs) (e : κ ≃ κ) : Accounted C (refs ∘ e) objs := by
  have hheld (o) : Held (refs ∘ e) o ↔ Held refs o :=
    (e.surjective.exists (p := fun i => refs i = some o)).symm
  exact {
    exact := fun ho => (h.exact ((hheld _).1 ho)).comp e
    lt := fun ho => h.lt ((hheld _).1 ho)
    fileFrees := fun ho => h.fileFrees (ho.imp_left (hheld _).1)
    pipe_lt := h.pipe_lt
    pipeFrees := h.pipeFrees
    ends := fun hp =>
      have ⟨r, w, he⟩ := h.ends hp
      ⟨r, w, he.congr (fun _ => .rfl) (fun _ _ => rfl) (fun o _ _ => hheld o) rfl rfl⟩ }

theorem not_held_nextFile (h : Accounted C refs objs) (hle : objs.nextFile ≤ o) : ¬Held refs o :=
  fun ho => absurd (h.lt ho) (by omega)

/-- A new file that no slot refers to. -/
theorem alloc (h : Accounted C refs objs) {file : File I} (hp : ∀ p, file.type ≠ .pipe p) :
    Accounted C refs (objs.allocFile file) := by
  have hfile {o : Nat} (ho : o < objs.nextFile) : (objs.allocFile file).file o = objs.file o :=
    Function.update_of_ne (by omega) ..
  have hself : (objs.allocFile file).file objs.nextFile = file := Function.update_self ..
  have htype (o p) : o < (objs.allocFile file).nextFile ∧
      ((objs.allocFile file).file o).type = .pipe p ↔
        o < objs.nextFile ∧ (objs.file o).type = .pipe p := by
    rcases Nat.lt_trichotomy o objs.nextFile with ho | rfl | ho
    · have : o < objs.nextFile + 1 := by omega
      simp [hfile ho, ho, this]
    · simp [hself, hp]
    · have : ¬o < objs.nextFile + 1 := by omega
      simp [ho.not_gt, this]
  exact {
    exact := fun ho => hfile (h.lt ho) ▸ h.exact ho
    lt := fun ho => Nat.lt_succ_of_lt (h.lt ho)
    fileFrees := fun ho => h.fileFrees (ho.imp_right Nat.le_of_succ_le)
    pipe_lt := fun ho hpipe =>
      have ⟨ho, hpipe⟩ := (htype ..).1 ⟨ho, hpipe⟩
      h.pipe_lt ho hpipe
    pipeFrees := h.pipeFrees
    ends := fun hp =>
      have ⟨r, w, he⟩ := h.ends hp
      ⟨r, w, he.congr (htype · _) (fun _ ho => by rw [hfile ho]) (fun _ _ _ => .rfl) rfl rfl⟩ }

section
variable [DecidableEq κ]

/-- One more holder of a held file. -/
theorem take (h : Accounted C refs objs) (hi : refs i = none) (ho : Held refs o) :
    Accounted C (Function.update refs i (some o)) (objs.addRef o 1) := by
  have hheld (o') : Held (Function.update refs i (some o)) o' ↔ Held refs o' := by
    rw [held_update_of_eq_none hi]
    exact or_iff_right_of_imp fun heq => heq ▸ ho
  exact {
    exact := fun {o'} ho' => by
      rcases eq_or_ne o' o with rfl | hne
      · simpa using (h.exact ho).take (by simp [hi])
      · rw [addRef_file_of_ne hne]
        exact (h.exact ((hheld _).1 ho')).other (by simp [hi]) (by simpa using hne.symm)
    lt := fun ho' => h.lt ((hheld _).1 ho')
    fileFrees := fun ho' => h.fileFrees (ho'.imp_left (hheld _).1)
    pipe_lt := fun hlt htype => h.pipe_lt hlt (by simpa using htype)
    pipeFrees := h.pipeFrees
    ends := fun hp =>
      have ⟨r, w, he⟩ := h.ends hp
      ⟨r, w, he.congr (by simp) (by simp) (fun o' _ _ => hheld o') rfl rfl⟩ }

/-- One holder of several drops its reference. -/
theorem dropShared (h : Accounted C refs objs) (hi : refs i = some o)
    (hcount : (objs.file o).refCount ≠ 1) :
    Accounted C (Function.update refs i none) (objs.addRef o (-1)) := by
  have hexact := h.exact ⟨i, hi⟩
  have hheld (o') : Held (Function.update refs i none) o' ↔ Held refs o' := by
    rcases eq_or_ne o' o with rfl | hne
    · rw [held_drop_iff_ne hexact hi]
      exact iff_of_true hcount ⟨i, hi⟩
    · exact held_drop_of_ne hi hne
  exact {
    exact := fun {o'} ho' => by
      rcases eq_or_ne o' o with rfl | hne
      · simpa [sub_eq_add_neg] using hexact.drop hi (by simp)
      · rw [addRef_file_of_ne hne]
        exact (h.exact ((hheld _).1 ho')).other (by simpa [hi] using hne.symm) (by simp)
    lt := fun ho' => h.lt ((hheld _).1 ho')
    fileFrees := fun ho' => h.fileFrees (ho'.imp_left (hheld _).1)
    pipe_lt := fun hlt htype => h.pipe_lt hlt (by simpa using htype)
    pipeFrees := h.pipeFrees
    ends := fun hp =>
      have ⟨r, w, he⟩ := h.ends hp
      ⟨r, w, he.congr (by simp) (by simp) (fun o' _ _ => hheld o') rfl rfl⟩ }

/-- The holders and counts after the last holder of `o` has dropped its reference. -/
theorem held_dropLast (h : Accounted C refs objs) (hi : refs i = some o)
    (hcount : (objs.file o).refCount = 1) :
    Held (Function.update refs i none) o' ↔ Held refs o' ∧ o' ≠ o := by
  rcases eq_or_ne o' o with rfl | hne
  · rw [held_drop_iff_ne (h.exact ⟨i, hi⟩) hi]
    simp [hcount]
  · rw [held_drop_of_ne hi hne]
    simp [hne]

/-- Freeing a file that nobody holds any more is the end of it alone. -/
theorem dropLast (h : Accounted C refs objs) (hi : refs i = some o)
    (hcount : (objs.file o).refCount = 1) (hfile : objs'.file = (objs.addRef o (-1)).file)
    (hnext : objs'.nextFile = objs.nextFile ∧ objs'.nextPipe = objs.nextPipe)
    (hfrees : ∀ o' ≠ o, objs'.fileFrees o' = objs.fileFrees o')
    (hpipeFrees : ∀ p, objs.nextPipe ≤ p → objs'.pipeFrees p = objs.pipeFrees p)
    (hends : ∀ p < objs.nextPipe, ∃ r w, PipeEnds C (Function.update refs i none) objs' p r w) :
    Accounted C (Function.update refs i none) objs' := by
  have hheld (o' : Nat) : Held (Function.update refs i none) o' ↔ Held refs o' ∧ o' ≠ o :=
    h.held_dropLast hi hcount
  obtain ⟨hnextFile, hnextPipe⟩ := hnext
  exact {
    exact := fun {o'} ho' => by
      obtain ⟨ho', hne⟩ := (hheld o').1 ho'
      rw [hfile, addRef_file_of_ne hne]
      exact (h.exact ho').other (by simpa [hi] using hne.symm) (by simp)
    lt := fun {o'} ho' => hnextFile ▸ h.lt ((hheld o').1 ho').1
    fileFrees := fun {o'} ho' => by
      have hne : o' ≠ o := by
        rcases ho' with ho' | ho'
        · exact ((hheld o').1 ho').2
        · have := h.lt ⟨i, hi⟩
          omega
      rw [hfrees o' hne]
      exact h.fileFrees (ho'.imp (fun ho' => ((hheld o').1 ho').1) fun hle => hnextFile ▸ hle)
    pipe_lt := fun {o' p} hlt htype => by
      rw [hfile, addRef_type] at htype
      exact hnextPipe ▸ h.pipe_lt (hnextFile ▸ hlt) htype
    pipeFrees := fun {p} hp => by
      rw [hnextPipe] at hp
      rw [hpipeFrees p hp, h.pipeFrees hp]
    ends := fun hp => hends _ (hnextPipe ▸ hp) }

/-- The last reference to an end of a pipe closes this end, and frees the pipe if the other end is
closed already. -/
theorem dropRef_ends (h : Accounted C refs objs) (hi : refs i = some o)
    (hcount : (objs.file o).refCount = 1) (htype : (objs.file o).type = .pipe p)
    (he : PipeEnds C refs objs p r w) :
    PipeEnds C (Function.update refs i none) (objs.dropRef C o) p r w := by
  have hheld (o' : Nat) : Held (Function.update refs i none) o' ↔ Held refs o' ∧ o' ≠ o :=
    h.held_dropLast hi hcount
  have hrw := he.file_iff.1 ⟨h.lt ⟨i, hi⟩, htype⟩
  have hne := he.ne
  have hmodes := C.oRead_ne_oWrite
  have ho : Held refs o := ⟨i, hi⟩
  obtain ⟨hfile, hnextFile, -⟩ := dropRef_file (C := C) hcount
  obtain ⟨hpipe, hfrees⟩ := dropRef_pipe (C := C) hcount htype
  have hmode (o') : ((objs.dropRef C o).file o').mode = (objs.file o').mode := by
    rw [hfile, addRef_mode]
  rw [closeEnd_pipe_self] at hpipe hfrees
  constructor
  · intro o'
    rw [hnextFile, hfile, addRef_type, he.file_iff]
  · rw [hmode, he.read_mode]
  · rw [hmode, he.write_mode]
  · rw [hpipe, hheld, ← he.ropen]
    rcases hrw with rfl | rfl
    · simp [he.read_mode]
    · simp [he.write_mode, hmodes.symm, hne]
  · rw [hpipe, hheld, ← he.wopen]
    rcases hrw with rfl | rfl
    · simp [he.read_mode, hmodes, hne.symm]
    · simp [he.write_mode]
  · have hbefore : objs.pipeFrees p = 0 := by
      rw [he.frees, if_pos]
      rcases hrw with rfl | rfl
      · exact .inl (he.ropen.2 ho)
      · exact .inr (he.wopen.2 ho)
    rw [hfrees, hbefore, hpipe, Nat.zero_add]

/-- A holder drops its reference, `generic_close`. -/
theorem drop (h : Accounted C refs objs) (hi : refs i = some o) :
    Accounted C (Function.update refs i none) (objs.dropRef C o) := by
  by_cases hcount : (objs.file o).refCount = 1
  · obtain ⟨hfile, hnextFile, hnextPipe, hfrees⟩ := dropRef_file (C := C) hcount
    refine h.dropLast hi hcount hfile ⟨hnextFile, hnextPipe⟩ hfrees ?_ ?_
    · intro p hp
      refine (dropRef_pipe_of_ne hcount fun htype => ?_).2
      have := h.pipe_lt (h.lt ⟨i, hi⟩) htype
      omega
    · intro p hp
      obtain ⟨r, w, he⟩ := h.ends hp
      refine ⟨r, w, ?_⟩
      by_cases htype : (objs.file o).type = .pipe p
      · exact h.dropRef_ends hi hcount htype he
      · obtain ⟨hpipe, hpipeFrees⟩ := dropRef_pipe_of_ne (C := C) hcount htype
        refine he.congr (by simp [hfile, hnextFile]) (by simp [hfile]) ?_ hpipe hpipeFrees
        intro o' htype' _
        rw [h.held_dropLast hi hcount]
        exact and_iff_left fun heq => htype (heq ▸ htype')
  · rw [dropRef_of_ne hcount]
    exact h.dropShared hi hcount

/-! ### New objects -/

/-- A new file in a free slot. -/
theorem allocHeld (h : Accounted C refs objs) {file : File I} (hp : ∀ p, file.type ≠ .pipe p)
    (hcount : file.refCount = 1) (hi : refs i = none) :
    Accounted C (Function.update refs i (some objs.nextFile)) (objs.allocFile file) := by
  have ha := h.alloc hp
  have hnot := h.not_held_nextFile (Nat.le_refl _)
  have hself : (objs.allocFile file).file objs.nextFile = file := Function.update_self ..
  have hheld (o : Nat) : Held (Function.update refs i (some objs.nextFile)) o ↔
      o = objs.nextFile ∨ Held refs o := held_update_of_eq_none hi
  exact {
    exact := fun {o} ho => by
      rcases eq_or_ne o objs.nextFile with rfl | hne
      · rw [hself, hcount]
        exact (Exact.of_forall_ne fun i hi => hnot ⟨i, hi⟩).take (by simp [hi])
      · exact (ha.exact (((hheld o).1 ho).resolve_left hne)).other (by simp [hi])
          (by simpa using hne.symm)
    lt := fun {o} ho => ((hheld o).1 ho).elim (fun heq => heq ▸ Nat.lt_succ_self _) ha.lt
    fileFrees := fun {o} ho => by
      rcases ho with ho | ho
      · obtain rfl | ho := (hheld o).1 ho
        · exact h.fileFrees (.inr (Nat.le_refl _))
        · exact ha.fileFrees (.inl ho)
      · exact ha.fileFrees (.inr ho)
    pipe_lt := ha.pipe_lt
    pipeFrees := ha.pipeFrees
    ends := fun hlt =>
      have ⟨r, w, he⟩ := ha.ends hlt
      ⟨r, w, he.congr (fun _ => .rfl) (fun _ _ => rfl) (fun o htype ho => by
        rw [hheld]
        refine or_iff_right_of_imp fun heq => absurd htype ?_
        rw [heq, hself]
        exact hp _) rfl rfl⟩ }

/-- A new pipe whose files go to two free slots. -/
theorem createPipe (h : Accounted C refs objs) (hij : i ≠ j) (hi : refs i = none)
    (hj : refs j = none) (page : Vector UInt8 4096) :
    Accounted C
      (Function.update (Function.update refs i (some objs.nextFile)) j (some (objs.nextFile + 1)))
      (objs.newPipe C page) := by
  have hheld (o) : Held (Function.update (Function.update refs i (some objs.nextFile)) j
      (some (objs.nextFile + 1))) o ↔ o = objs.nextFile + 1 ∨ o = objs.nextFile ∨ Held refs o := by
    rw [held_update_of_eq_none (by simp [hij.symm, hj]), held_update_of_eq_none hi]
  have hnew : ∀ o, objs.nextFile ≤ o → Exact refs 0 o := fun o ho =>
    .of_forall_ne fun i hi => h.not_held_nextFile ho ⟨i, hi⟩
  exact {
    exact := fun {o} ho => by
      obtain rfl | rfl | ho := (hheld o).1 ho
      · rw [newPipe_file_write]
        exact ((hnew _ (by omega)).other (by simp [hi]) (by simp)).take (by simp [hij.symm, hj])
      · rw [newPipe_file_read]
        exact ((hnew _ (Nat.le_refl _)).take (by simp [hi])).other (by simp [hij.symm, hj])
          (by simp)
      · have hlt := h.lt ho
        rw [newPipe_file_of_lt hlt]
        exact ((h.exact ho).other (by simp [hi]) (by simp; omega)).other (by simp [hij.symm, hj])
          (by simp; omega)
    lt := fun {o} ho => by
      rw [newPipe_nextFile]
      obtain rfl | rfl | ho := (hheld o).1 ho
      · omega
      · omega
      · have := h.lt ho
        omega
    fileFrees := fun {o} ho => by
      rw [newPipe_fileFrees]
      apply h.fileFrees
      rcases ho with ho | ho
      · obtain rfl | rfl | ho := (hheld o).1 ho
        · exact .inr (by omega)
        · exact .inr (Nat.le_refl _)
        · exact .inl ho
      · rw [newPipe_nextFile] at ho
        exact .inr (by omega)
    pipe_lt := fun {o p} ho hp => by
      rw [newPipe_nextPipe]
      rcases newPipe_type_iff.1 ⟨ho, hp⟩ with ⟨ho, hp⟩ | ⟨rfl, -⟩
      · have := h.pipe_lt ho hp
        omega
      · omega
    pipeFrees := fun hp => by
      rw [newPipe_nextPipe] at hp
      rw [newPipe_pipeFrees]
      exact h.pipeFrees (by omega)
    ends := fun {p} hp => by
      rw [newPipe_nextPipe] at hp
      obtain hp | rfl : p < objs.nextPipe ∨ p = objs.nextPipe := by omega
      · obtain ⟨r, w, he⟩ := h.ends hp
        refine ⟨r, w, he.congr (fun o => ?_) (fun o ho => by rw [newPipe_file_of_lt ho]) ?_
          (newPipe_pipe_of_lt hp) (by rw [newPipe_pipeFrees])⟩
        · rw [newPipe_type_iff]
          exact or_iff_left fun hnew => by omega
        intro o _ ho
        rw [hheld]
        have h₁ : o ≠ objs.nextFile := by omega
        have h₂ : o ≠ objs.nextFile + 1 := by omega
        simp [h₁, h₂]
      · refine ⟨objs.nextFile, objs.nextFile + 1, ?_, by rw [newPipe_file_read],
          by rw [newPipe_file_write], ?_, ?_, ?_⟩
        · intro o
          rw [newPipe_type_iff]
          refine (or_iff_right fun hold => ?_).trans (and_iff_right rfl)
          exact absurd (h.pipe_lt hold.1 hold.2) (Nat.lt_irrefl _)
        · simp [newPipe_pipe, hheld, CS330.createPipe]
        · simp [newPipe_pipe, hheld, CS330.createPipe]
        · rw [newPipe_pipeFrees, newPipe_pipe, h.pipeFrees (Nat.le_refl _)]
          rfl }

end

end Accounted

end CS330
