import CS330.Files.Basic

/-! # Reads, writes and seeks of regular files

The offset of a file object is an unsigned 32-bit field. The clamp of a read, the limit of a write
and the new offset of a seek are computed in 32 bits, so each of them is right exactly as long as
nothing wraps. -/

namespace CS330

/-- What `file.c` uses of `fs.h` for reads, writes and seeks. `flat_read` and `flat_write` return
the number of bytes, with the memory or the file system afterwards. -/
structure FlatSystem extends FileSystem where
  sPos : State → Inode → Nat
  ePos : State → Inode → Nat
  flatRead : State → Inode → Memory → (count : Nat) → (offp : Int) → Int × Memory
  flatWrite : State → Inode → Memory → (count : Nat) → (offp : Int) → Int × State

/-- The constants of the headers, with the values of `whence`. -/
structure SeekConsts extends FileConsts where
  seekSet : Int
  seekCur : Int
  seekEnd : Int
  seekSet_ne_seekCur : seekSet ≠ seekCur
  seekSet_ne_seekEnd : seekSet ≠ seekEnd
  seekCur_ne_seekEnd : seekCur ≠ seekEnd

def SeekConsts.small : SeekConsts where
  maxOpenFiles := 16
  stdin := 0
  oRead := 1
  oWrite := 2
  oCreat := 8
  oRead_ne_oWrite := by decide
  seekSet := 0
  seekCur := 1
  seekEnd := 2
  seekSet_ne_seekCur := by decide
  seekSet_ne_seekEnd := by decide
  seekCur_ne_seekEnd := by decide

/-- A file system with one file in one block: the bytes and the size of the file. -/
def FlatSystem.oneFile : FlatSystem where
  State := Memory × Nat
  Name := Unit
  Inode := Unit
  lookupInode _ _ := some ()
  createInode s _ _ := (none, s)
  fileSize s _ := s.2
  mode _ _ := 3
  sPos _ _ := 0
  ePos _ _ := 4096
  flatRead s _ mem count offp :=
    (int32 count, fun i => if i < count then s.1 (offp.toNat + i) else mem i)
  flatWrite s _ mem count offp :=
    let start := offp.toNat
    (int32 count, fun i => if start ≤ i ∧ i < start + count then mem (i - start) else s.1 i,
      max s.2 (start + count))

/-- The inode of a regular file. -/
def File.inode (file : File Inode) : Option Inode :=
  match file.type with
  | .regular inode => some inode
  | _ => none

/-- The count and the offset of a call of `flat_read` or `flat_write`. -/
structure FlatCall where
  count : Nat
  offp : Int
deriving DecidableEq, Repr

/-- Lines 161-165: `offp` is copied to an `int`, the sum and the difference are unsigned. -/
def readCall (fileSize offp count : Nat) : FlatCall :=
  let offp := int32 offp
  let count := if u32 (offp + count) > fileSize then u32 (fileSize - offp) else count
  ⟨count, offp⟩

section
variable (C : SeekConsts) (F : FlatSystem) (inodes : F.State) (filep : Option (File F.Inode))

/-- What the call returns, its call of `flat_read`, the memory of the caller and the file. No
result stands for a file without inode. -/
def doReadRegular (buff : Option Memory) (count : Nat) :
    Option (Except FileError Int × Option FlatCall × Option Memory × Option (File F.Inode)) :=
  match filep, buff with
  | some file, some mem =>
    if file.mode &&& C.oRead ≠ C.oRead then some (.error .eacces, none, buff, filep)
    else do
      let inode ← file.inode
      let call := readCall (F.fileSize inodes inode) file.offp count
      let (bytesRead, mem) := F.flatRead inodes inode mem call.count call.offp
      return (.ok bytesRead, some call, some mem,
        some { file with offp := u32 (file.offp + bytesRead) })
  | _, _ => some (.error .einval, none, buff, filep)

/-- What the call returns, its call of `flat_write`, the file and the file system. -/
def doWriteRegular (buff : Option Memory) (count : Nat) :
    Option (Except FileError Int × Option FlatCall × Option (File F.Inode) × F.State) :=
  match filep, buff with
  | some file, some mem =>
    if file.mode &&& C.oWrite ≠ C.oWrite then some (.error .eacces, none, filep, inodes)
    else
      let offp := int32 file.offp
      if u32 (offp + count) > 4096 then some (.error .eothers, none, filep, inodes)
      else do
        let inode ← file.inode
        let (bytesWritten, inodes) := F.flatWrite inodes inode mem count offp
        return (.ok bytesWritten, some ⟨count, offp⟩,
          some { file with offp := u32 (file.offp + bytesWritten) }, inodes)
  | _, _ => some (.error .einval, none, filep, inodes)

/-- The end of `do_lseek_regular`, with `offp` in the file: beyond the end of the file's blocks
the old offset is restored. -/
def seekTo (file : File F.Inode) (inode : F.Inode) (offp : Nat) :
    Except FileError Nat × Option (File F.Inode) :=
  if offp > u32 (F.ePos inodes inode - F.sPos inodes inode) then (.error .einval, some file)
  else (.ok offp, some { file with offp })

def doLseekRegular (offset whence : Int) : Option (Except FileError Nat × Option (File F.Inode)) :=
  match filep with
  | none => some (.error .einval, none)
  | some file => do
    let inode ← file.inode
    let fileSize := F.fileSize inodes inode
    if whence = C.seekSet then
      if offset < 0 then return (.error .einval, filep)
      else return seekTo F inodes file inode (u32 offset)
    else if whence = C.seekCur then
      if int64 (offset + file.offp) < 0 then return (.error .einval, filep)
      else return seekTo F inodes file inode (u32 (file.offp + offset))
    else if whence = C.seekEnd then
      if int64 (offset + fileSize) < 0 then return (.error .einval, filep)
      else return seekTo F inodes file inode (u32 (fileSize + offset))
    else return (.error .einval, filep)

end

/-! ## What the calls do -/

section
variable {C : SeekConsts} {F : FlatSystem} {inodes inodes' : F.State} {inode : F.Inode}
  {file file' : File F.Inode} {filep' : Option (File F.Inode)} {buff buff' : Option Memory}
  {mem : Memory} {count : Nat} {flat : Option FlatCall} {ret : Except FileError Int}
  {offset whence : Int}

theorem u32_lt (x : Int) : u32 x < 2 ^ 32 := by
  unfold u32
  omega

/-- A read fails without effect, or it calls `flat_read` and moves the offset. -/
theorem doReadRegular_cases
    (h : doReadRegular C F inodes (some file) buff count = some (ret, flat, buff', filep')) :
    (∃ e, ret = .error e) ∧ flat = none ∧ filep' = some file ∨
      ∃ inode n, file.inode = some inode ∧ ret = .ok n ∧
        flat = some (readCall (F.fileSize inodes inode) file.offp count) ∧
        filep' = some { file with offp := u32 (file.offp + n) } := by
  unfold doReadRegular at h
  split at h
  next file mem hfile =>
    obtain rfl := Option.some.inj hfile
    split at h
    next =>
      cases h
      exact .inl ⟨⟨_, rfl⟩, rfl, rfl⟩
    next =>
      obtain ⟨inode, hinode, h⟩ := Option.bind_eq_some_iff.1 h
      simp only [Option.pure_def, Option.some.injEq, Prod.mk.injEq] at h
      obtain ⟨rfl, rfl, -, rfl⟩ := h
      exact .inr ⟨inode, _, hinode, rfl, rfl, rfl⟩
  next =>
    cases h
    exact .inl ⟨⟨_, rfl⟩, rfl, rfl⟩

/-- A write fails without effect, or it passes the limit, calls `flat_write` and moves the
offset. -/
theorem doWriteRegular_cases
    (h : doWriteRegular C F inodes (some file) buff count = some (ret, flat, filep', inodes')) :
    (∃ e, ret = .error e) ∧ flat = none ∧ filep' = some file ∧ inodes' = inodes ∨
      ∃ n, buff ≠ none ∧ file.mode &&& C.oWrite = C.oWrite ∧
        u32 (int32 file.offp + count) ≤ 4096 ∧ ret = .ok n ∧
        flat = some ⟨count, int32 file.offp⟩ ∧
        filep' = some { file with offp := u32 (file.offp + n) } := by
  unfold doWriteRegular at h
  split at h
  next file mem hfile =>
    obtain rfl := Option.some.inj hfile
    split at h
    next =>
      cases h
      exact .inl ⟨⟨_, rfl⟩, rfl, rfl, rfl⟩
    next hmode =>
      dsimp only at h
      split at h
      next =>
        cases h
        exact .inl ⟨⟨_, rfl⟩, rfl, rfl, rfl⟩
      next hfits =>
        obtain ⟨inode, -, h⟩ := Option.bind_eq_some_iff.1 h
        simp only [Option.pure_def, Option.some.injEq, Prod.mk.injEq] at h
        obtain ⟨rfl, rfl, rfl, -⟩ := h
        exact .inr ⟨_, nofun, not_not.1 hmode, Nat.not_lt.1 hfits, rfl, rfl, rfl⟩
  next =>
    cases h
    exact .inl ⟨⟨_, rfl⟩, rfl, rfl, rfl⟩

theorem seekTo_cases {offp : Nat} {ret : Except FileError Nat} (hoff : offp < 2 ^ 32)
    (h : seekTo F inodes file inode offp = (ret, filep')) :
    filep' = some file ∨ ∃ n < 2 ^ 32, filep' = some { file with offp := n } := by
  unfold seekTo at h
  split at h
  next =>
    cases h
    exact .inl rfl
  next =>
    cases h
    exact .inr ⟨offp, hoff, rfl⟩

/-- A seek changes nothing but the offset. -/
theorem doLseekRegular_cases {ret : Except FileError Nat}
    (h : doLseekRegular C F inodes (some file) offset whence = some (ret, filep')) :
    filep' = some file ∨ ∃ n < 2 ^ 32, filep' = some { file with offp := n } := by
  obtain ⟨inode, -, h⟩ := Option.bind_eq_some_iff.1 h
  simp only [Option.pure_def] at h
  have refused {e : FileError} (h : some (Except.error e, some file) = some (ret, filep')) :
      filep' = some file := (Prod.mk.inj (Option.some.inj h)).2.symm
  split_ifs at h
  · exact .inl (refused h)
  · exact seekTo_cases (u32_lt _) (Option.some.inj h)
  · exact .inl (refused h)
  · exact seekTo_cases (u32_lt _) (Option.some.inj h)
  · exact .inl (refused h)
  · exact seekTo_cases (u32_lt _) (Option.some.inj h)
  · exact .inl (refused h)

end

/-! ## Runs -/

/-- A file object and the file system. -/
structure FlatState (F : FlatSystem) where
  file : File F.Inode
  inodes : F.State

/-- The file has ten bytes and is open for reading and writing. -/
def FlatState.tenBytes : FlatState .oneFile where
  file := ⟨.regular (), 3, 0, 1⟩
  inodes := (fun _ => 0, 10)

/-- A call on the file object, with the call of `flat_read` or `flat_write` it leads to. -/
inductive FlatOp where
  | read (buff : Option Memory) (count : Nat) (flat : Option FlatCall)
  | write (buff : Option Memory) (count : Nat) (flat : Option FlatCall)
  | lseek (offset whence : Int)

variable {C : SeekConsts} {F : FlatSystem}

/-- The call takes the file object and the file system to `s'`. -/
inductive FlatStep (C : SeekConsts) (s : FlatState F) : FlatOp → FlatState F → Prop where
  | read (h : doReadRegular C F s.inodes (some s.file) buff count =
      some (ret, flat, buff', some file)) :
    FlatStep C s (.read buff count flat) { s with file }
  | write (h : doWriteRegular C F s.inodes (some s.file) buff count =
      some (ret, flat, some file, inodes)) :
    FlatStep C s (.write buff count flat) ⟨file, inodes⟩
  | lseek (h : doLseekRegular C F s.inodes (some s.file) offset whence = some (ret, some file)) :
    FlatStep C s (.lseek offset whence) { s with file }

/-- A step changes nothing in the file object but the offset. -/
theorem FlatStep.file_eq {s s' : FlatState F} {op : FlatOp} (h : FlatStep C s op s') :
    s'.file = s.file ∨ ∃ n < 2 ^ 32, s'.file = { s.file with offp := n } := by
  cases h with
  | read h =>
    rcases doReadRegular_cases h with ⟨-, -, hfile⟩ | ⟨_, n, -, -, -, hfile⟩
    · exact .inl (Option.some.inj hfile)
    · exact .inr ⟨_, u32_lt _, Option.some.inj hfile⟩
  | write h =>
    rcases doWriteRegular_cases h with ⟨-, -, hfile, -⟩ | ⟨n, -, -, -, -, -, hfile⟩
    · exact .inl (Option.some.inj hfile)
    · exact .inr ⟨_, u32_lt _, Option.some.inj hfile⟩
  | lseek h =>
    rcases doLseekRegular_cases h with hfile | ⟨n, hn, hfile⟩
    · exact .inl (Option.some.inj hfile)
    · exact .inr ⟨n, hn, Option.some.inj hfile⟩

/-- Runs of calls that meet `ok` when they are made. -/
def FlatRun (C : SeekConsts) (ok : FlatState F → FlatOp → Prop) :
    FlatState F → List FlatOp → FlatState F → Prop :=
  Trace fun s op s' => ok s op ∧ FlatStep C s op s'

end CS330
