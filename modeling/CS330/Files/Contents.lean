import CS330.Files.Offsets
import CS330.Files.System
import CS330.Lib.OpenFiles

/-! # Regular files as bytes with cursors

As long as the counts and offsets of the calls stay in range, reads, writes and seeks of all
processes behave as on plain lists of bytes. Every open file has one cursor, which its duplicates
and the children of its processes share. -/

namespace CS330

variable {C : SeekConsts} {F : FlatSystem} {k k' : Kernel C.toFileConsts F.toFileSystem}
  {bytes : F.State → F.Inode → List UInt8} {inodes inodes' : F.State} {inode : F.Inode}
  {file file' : File F.Inode}

/-! ## What is asked of the calls -/

/-- The memory with these bytes at its start. -/
def Memory.put (mem : Memory) (data : List UInt8) : Memory := fun i => data.getD i (mem i)

namespace Store

variable {I X : Type} (C : SeekConsts) (st : Store I X Nat UInt8) (o : Nat) (f : OpenFile I)

/-- Where a seek counts from. -/
def base (whence : Int) : Option Nat :=
  if whence = C.seekSet then some 0
  else if whence = C.seekCur then some f.cursor
  else if whence = C.seekEnd then some (st.bytes f.inode).length
  else none

/-- What the calls are to do: a file has room for 4096 bytes. -/
def serve [DecidableEq I] : RegularCall → RegularReply × Store I X Nat UInt8
  | .read none _ => (⟨.error .einval, none⟩, st)
  | .read (some mem) count =>
    if f.readable then
      (⟨.ok (st.rest f count).length, some (mem.put (st.rest f count))⟩, st.read o f count)
    else (⟨.error .eacces, some mem⟩, st)
  | .write none _ => (⟨.error .einval, none⟩, st)
  | .write (some mem) count =>
    if f.writable then
      if f.cursor + count ≤ 4096 then (⟨.ok count, some mem⟩, st.write o f (mem.bytes count))
      else (⟨.error .eothers, some mem⟩, st)
    else (⟨.error .eacces, some mem⟩, st)
  | .lseek offset whence =>
    match base C st f whence with
    | none => (⟨.error .einval, none⟩, st)
    | some base =>
      if 0 ≤ base + offset ∧ base + offset ≤ 4096 then
        (⟨.ok (base + offset), none⟩, st.seek o f (base + offset).toNat)
      else (⟨.error .einval, none⟩, st)

/-- Reads and writes start inside the file, and no sum wraps. -/
def InRange : RegularCall → Prop
  | .read _ count | .write _ count =>
    f.cursor ≤ (st.bytes f.inode).length ∧ f.cursor + count < 2 ^ 32
  | .lseek offset whence =>
    -2 ^ 63 ≤ offset ∧ ∀ base, st.base C f whence = some base → base + offset < 2 ^ 32

end Store

/-! ## What `fs.h` is to provide -/

/-- `bytes` are the contents of the files: a file has 4096 bytes of room, `flat_read` and `flat_write`
inside of it return the count and move the bytes, and a created file is new and empty and has the
name and the mode of the call. -/
structure FlatSystem.Holds (F : FlatSystem) [DecidableEq F.Inode] [DecidableEq F.Name]
    (bytes : F.State → F.Inode → List UInt8) : Prop where
  fileSize : F.fileSize s i = (bytes s i).length
  room : F.ePos s i = F.sPos s i + 4096
  flatRead : offp + count ≤ (bytes s i).length → offp + count ≤ 4096 →
    F.flatRead s i mem count (offp : Nat) =
      ((count : Int), mem.put (((bytes s i).drop offp).take count))
  flatWrite : offp ≤ (bytes s i).length → offp + count ≤ 4096 → ∃ s',
    F.flatWrite s i mem count (offp : Nat) = ((count : Int), s') ∧
      bytes s' = Function.update (bytes s) i (overwrite (bytes s i) offp (mem.bytes count))
  writeNames : F.lookupInode (F.flatWrite s i mem count offp).2 = F.lookupInode s
  writeModes : F.mode (F.flatWrite s i mem count offp).2 = F.mode s
  created : F.createInode s name mode = (some i, s') → (∀ name', F.lookupInode s name' ≠ some i) ∧
    bytes s' = Function.update (bytes s) i [] ∧
    F.lookupInode s' = Function.update (F.lookupInode s) name (some i) ∧
    F.mode s' = Function.update (F.mode s) i mode
  notCreated : F.createInode s name mode = (none, s') →
    bytes s' = bytes s ∧ F.lookupInode s' = F.lookupInode s ∧ F.mode s' = F.mode s

/-! ## Each call does what it is to do -/

/-- The file object as an open file. -/
def File.view (C : FileConsts) (file : File I) (inode : I) : OpenFile I where
  inode := inode
  readable := file.mode &&& C.oRead = C.oRead
  writable := file.mode &&& C.oWrite = C.oWrite
  cursor := file.offp

/-- An end of a pipe as its functions see it, or a standard input or output. -/
inductive Special where
  | stdIo (type : Nat)
  | pipe (p : Nat) (filep : PipeFile)

def File.opened (C : FileConsts) (file : File I) : Opened I Special :=
  match file.type with
  | .stdIo type => .special (.stdIo type)
  | .regular inode => .file (file.view C inode)
  | .pipe p => .special (.pipe p (file.pipeFile C))

theorem File.opened_of_inode {C : FileConsts} {file : File I} {inode : I}
    (h : file.inode = some inode) : file.opened C = .file (file.view C inode) := by
  unfold File.inode at h
  unfold File.opened
  split at h
  next heq =>
    cases h
    rw [heq]
  next => cases h

section
variable [DecidableEq F.Inode] [DecidableEq F.Name] {st : Store F.Inode Special Nat UInt8}
  {s : FlatState F}
  {call : RegularCall} {reply : RegularReply} {o : Nat}

theorem u32_eq {n : Nat} (h : n < 2 ^ 32) : u32 n = n := by
  unfold u32
  omega

theorem readCall_eq {fileSize offp count : Nat} (hin : offp ≤ fileSize) (hsize : fileSize ≤ 4096)
    (hwrap : offp + count < 2 ^ 32) :
    readCall fileSize offp count = ⟨min count (fileSize - offp), offp⟩ := by
  have hcount := (readCall_count_iff (by omega) hsize (by omega)).2 ⟨hin, hwrap⟩
  have hoffp : (readCall fileSize offp count).offp = offp := int32_eq (by omega) (by omega)
  rw [if_pos hin] at hcount
  rw [← hcount, ← hoffp]

theorem Store.rest_eq {st : Store I X O α} {f : OpenFile I} : st.rest f count =
    ((st.bytes f.inode).drop f.cursor).take (min count ((st.bytes f.inode).length - f.cursor)) := by
  rw [Store.rest, List.take_eq_take_min, List.length_drop]

theorem Store.length_rest {st : Store I X O α} {f : OpenFile I} :
    (st.rest f count).length = min count ((st.bytes f.inode).length - f.cursor) := by
  simp [Store.rest]

theorem Store.base_eq_none {st : Store I X Nat UInt8} {f : OpenFile I} {whence : Int} :
    st.base C f whence = none ↔ whence ≠ C.seekSet ∧ whence ≠ C.seekCur ∧ whence ≠ C.seekEnd := by
  unfold Store.base
  split_ifs <;> simp_all

theorem Store.base_eq_some {st : Store I X Nat UInt8} {f : OpenFile I} {whence : Int} {base : Nat} :
    st.base C f whence = some base ↔ whence = C.seekSet ∧ base = 0 ∨
      whence = C.seekCur ∧ base = f.cursor ∨
        whence = C.seekEnd ∧ base = (st.bytes f.inode).length := by
  have hcur := C.seekSet_ne_seekCur
  have hend := C.seekSet_ne_seekEnd
  have hcurEnd := C.seekCur_ne_seekEnd
  unfold Store.base
  split_ifs <;> simp_all [eq_comm]

/-- The store once the call on the open file `o` is done. -/
def FlatState.storeWith (C : FileConsts) (bytes : F.State → F.Inode → List UInt8)
    (st : Store F.Inode Special Nat UInt8) (o : Nat) (s : FlatState F) :
    Store F.Inode Special Nat UInt8 where
  bytes := bytes s.inodes
  opened := Function.update st.opened o (some (s.file.opened C))

section
variable (hF : F.Holds bytes) (hinode : file.inode = some inode)
  (ho : st.opened o = some (.file (file.view C.toFileConsts inode))) (hbytes : st.bytes = bytes inodes)
  (hwithin : st.Within 4096)

omit [DecidableEq F.Inode] [DecidableEq F.Name] in
include hinode ho hbytes in
theorem storeWith_self : FlatState.storeWith C.toFileConsts bytes st o ⟨file, inodes⟩ = st := by
  have hopened : some (file.opened C.toFileConsts) = st.opened o := by
    rw [File.opened_of_inode hinode, ho]
  simp [FlatState.storeWith, hopened, ← hbytes]

omit [DecidableEq F.Inode] [DecidableEq F.Name] in
include hinode in
/-- Only the cursor and the contents move. -/
theorem storeWith_seek {n : Nat} (hn : u32 n = n) :
    FlatState.storeWith C.toFileConsts bytes st o ⟨{ file with offp := u32 n }, inodes'⟩ =
      Store.seek { st with bytes := bytes inodes' } o (file.view C.toFileConsts inode) n := by
  have hopened : ({ file with offp := n } : File F.Inode).opened C.toFileConsts =
      .file { file.view C.toFileConsts inode with cursor := n } := File.opened_of_inode hinode
  rw [FlatState.storeWith, hn, hopened]
  rfl

include hF hinode ho hbytes hwithin

theorem doReadRegular_serve {buff buff' : Option Memory} {count : Nat} {ret : Except FileError Int}
    {flat : Option FlatCall}
    (hin : st.InRange C (file.view C.toFileConsts inode) (.read buff count))
    (h : doReadRegular C F inodes (some file) buff count = some (ret, flat, buff', some file')) :
    st.serve C o (file.view C.toFileConsts inode) (.read buff count) =
      (⟨ret, buff'⟩, FlatState.storeWith C.toFileConsts bytes st o ⟨file', inodes⟩) := by
  have hself := storeWith_self (C := C) hinode ho hbytes
  cases buff with
  | none =>
    cases h
    rw [hself]
    rfl
  | some mem =>
    by_cases hmode : file.mode &&& C.oRead = C.oRead
    · obtain ⟨hin, hwrap⟩ : file.offp ≤ (bytes inodes inode).length ∧ file.offp + count < 2 ^ 32 := by
        rwa [← hbytes]
      have hsize : (bytes inodes inode).length ≤ 4096 := hbytes ▸ (hwithin o _ ho).2
      let data := st.rest (file.view C.toFileConsts inode) count
      have hlen : data.length = min count ((bytes inodes inode).length - file.offp) := by
        rw [Store.length_rest, hbytes]
        rfl
      have hdata : ((bytes inodes inode).drop file.offp).take data.length = data := by
        rw [hlen, ← hbytes]
        exact (Store.rest_eq (f := file.view C.toFileConsts inode)).symm
      have hcall : readCall (F.fileSize inodes inode) file.offp count = ⟨data.length, file.offp⟩ := by
        rw [hF.fileSize, hlen]
        exact readCall_eq hin hsize hwrap
      have hflat : F.flatRead inodes inode mem data.length file.offp =
          ((data.length : Int), mem.put data) := by
        rw [hF.flatRead (by omega) (by omega), hdata]
      have hoffp : u32 ((file.offp + data.length : Nat)) = file.offp + data.length :=
        u32_eq (by omega)
      simp only [doReadRegular_eq hinode hmode, hcall, hflat, ← Nat.cast_add, Option.some.injEq,
        Prod.mk.injEq] at h
      obtain ⟨rfl, -, rfl, rfl⟩ := h
      rw [storeWith_seek hinode hoffp, ← hbytes, Store.serve]
      exact if_pos (decide_eq_true hmode)
    · obtain ⟨rfl, -, rfl, rfl⟩ :
          .error .eacces = ret ∧ none = flat ∧ some mem = buff' ∧ file = file' := by
        simpa [doReadRegular, hmode] using h
      rw [hself]
      simp [Store.serve, File.view, hmode]

theorem doWriteRegular_serve {buff : Option Memory} {count : Nat} {ret : Except FileError Int}
    {flat : Option FlatCall}
    (hin : st.InRange C (file.view C.toFileConsts inode) (.write buff count))
    (h : doWriteRegular C F inodes (some file) buff count = some (ret, flat, some file', inodes')) :
    st.serve C o (file.view C.toFileConsts inode) (.write buff count) =
      (⟨ret, buff⟩, FlatState.storeWith C.toFileConsts bytes st o ⟨file', inodes'⟩) := by
  have hself := storeWith_self (C := C) hinode ho hbytes
  cases buff with
  | none =>
    cases h
    rw [hself]
    rfl
  | some mem =>
    by_cases hmode : file.mode &&& C.oWrite = C.oWrite
    · obtain ⟨hin, hwrap⟩ : file.offp ≤ (bytes inodes inode).length ∧ file.offp + count < 2 ^ 32 := by
        rwa [← hbytes]
      have hoff : file.offp ≤ 4096 := (hwithin o _ ho).1
      have hwritable : (file.view C.toFileConsts inode).writable = true := decide_eq_true hmode
      rw [doWriteRegular_eq hinode hmode, Nat.mod_eq_of_lt hwrap] at h
      rw [Store.serve, if_pos hwritable]
      by_cases hfits : file.offp + count ≤ 4096
      · obtain ⟨s', hflat, hs'⟩ : ∃ s',
            F.flatWrite inodes inode mem count file.offp = ((count : Int), s') ∧
            bytes s' = _ := hF.flatWrite hin hfits
        have hint : int32 file.offp = file.offp := int32_eq (by omega) (by omega)
        have hoffp : u32 ((file.offp + count : Nat)) = file.offp + count := u32_eq (by omega)
        rw [if_neg (not_lt.2 hfits), hint] at h
        simp only [hflat, ← Nat.cast_add, Option.some.injEq, Prod.mk.injEq] at h
        obtain ⟨rfl, -, rfl, rfl⟩ := h
        rw [storeWith_seek hinode hoffp, hs', ← hbytes]
        refine (if_pos hfits).trans ?_
        simp [Store.write, Memory.length_bytes, File.view]
      · rw [if_pos (not_le.1 hfits)] at h
        cases h
        rw [hself]
        exact if_neg hfits
    · obtain ⟨rfl, -, rfl, rfl⟩ :
          .error .eacces = ret ∧ none = flat ∧ file = file' ∧ inodes = inodes' := by
        simpa [doWriteRegular, hmode] using h
      rw [hself]
      simp [Store.serve, File.view, hmode]

omit hwithin in
theorem doLseekRegular_serve {offset whence : Int} {ret : Except FileError Nat}
    (hin : st.InRange C (file.view C.toFileConsts inode) (.lseek offset whence))
    (h : doLseekRegular C F inodes (some file) offset whence = some (ret, some file')) :
    st.serve C o (file.view C.toFileConsts inode) (.lseek offset whence) =
      (⟨ret.map Nat.cast, none⟩,
        FlatState.storeWith C.toFileConsts bytes st o ⟨file', inodes⟩) := by
  have hself := storeWith_self (C := C) hinode ho hbytes
  obtain ⟨hlong, hwrap⟩ := hin
  rw [Store.serve]
  cases hbase : st.base C (file.view C.toFileConsts inode) whence with
  | none =>
    obtain ⟨hset, hcur, hend⟩ := Store.base_eq_none.1 hbase
    obtain ⟨rfl, rfl⟩ : .error .einval = ret ∧ file = file' := by
      simpa [doLseekRegular, hinode, hset, hcur, hend] using h
    rw [hself]
    rfl
  | some base =>
    have hseek : SeekBase C (⟨file, inodes⟩ : FlatState F) inode whence base := by
      rw [SeekBase, hF.fileSize, ← hbytes]
      exact Store.base_eq_some.1 hbase
    have hwrap : (base + offset : Int) < 2 ^ 32 := hwrap base hbase
    rw [doLseekRegular_eq (s := ⟨file, inodes⟩) hinode hseek (by omega) (by omega)] at h
    have hroom : u32 (F.ePos inodes inode - F.sPos inodes inode) = 4096 := by
      rw [hF.room]
      unfold u32
      omega
    dsimp only
    by_cases hneg : (base + offset : Int) < 0
    · rw [if_pos hneg] at h
      cases h
      rw [hself]
      exact if_neg (by omega)
    · obtain ⟨n, hn⟩ := Int.eq_ofNat_of_zero_le (not_lt.1 hneg)
      have hoffp : u32 n = n := u32_eq (by omega)
      rw [if_neg hneg, seekTo, hroom, hn, hoffp] at h
      rw [hn, Int.toNat_natCast]
      by_cases hout : n > 4096
      · rw [if_pos hout] at h
        cases h
        rw [hself]
        exact if_neg (by omega)
      · rw [if_neg hout] at h
        cases h
        have hmoved : FlatState.storeWith C.toFileConsts bytes st o
            ⟨{ file with offp := u32 n }, inodes⟩ = _ :=
          storeWith_seek hinode hoffp
        rw [hoffp, ← hbytes] at hmoved
        rw [if_pos (by omega)]
        exact congrArg (Prod.mk _) hmoved.symm

/-- In range, a call on the file object does what it is to do on the open file. -/
theorem RegularStep.serve (hin : st.InRange C (file.view C.toFileConsts inode) call)
    (h : RegularStep C ⟨file, inodes⟩ call reply s) :
    st.serve C o (file.view C.toFileConsts inode) call =
      (reply, s.storeWith C.toFileConsts bytes st o) := by
  cases h with
  | read h => exact doReadRegular_serve hF hinode ho hbytes hwithin hin h
  | write h => exact doWriteRegular_serve hF hinode ho hbytes hwithin hin h
  | lseek h => exact doLseekRegular_serve hF hinode ho hbytes hin h

end

omit [DecidableEq F.Name] in
theorem Store.Within.serve {f : OpenFile F.Inode} (h : st.Within 4096)
    (ho : st.opened o = some (.file f)) (hin : st.InRange C f call) :
    (st.serve C o f call).2.Within 4096 := by
  unfold Store.serve
  split
  case h_1 | h_3 => exact h
  case h_2 =>
    split
    · exact h.read ho
    · exact h
  case h_4 =>
    split
    · split
      next hfits => exact h.write ho hin.1 (by simpa [Memory.length_bytes] using hfits)
      next => exact h
    · exact h
  case h_5 =>
    split
    · exact h
    · split
      next hseek => exact h.seek ho (by omega)
      next => exact h

omit [DecidableEq F.Name] in
theorem Store.isSome_serve {f : OpenFile F.Inode} {o' : Nat} (h : (st.opened o').isSome) :
    ((st.serve C o f call).2.opened o').isSome := by
  unfold Store.serve
  split
  case h_1 | h_3 => exact h
  case h_2 =>
    split
    · exact isSome_seek h
    · exact h
  case h_4 =>
    split
    · split
      · exact isSome_seek h
      · exact h
    · exact h
  case h_5 =>
    split
    · exact h
    · split
      · exact isSome_seek h
      · exact h

/-- Reads, writes and seeks change no names and no modes. -/
theorem RegularStep.names (h : RegularStep C s call reply s') (hF : F.Holds bytes) :
    F.lookupInode s'.inodes = F.lookupInode s.inodes ∧ F.mode s'.inodes = F.mode s.inodes := by
  cases h with
  | read | lseek => exact ⟨rfl, rfl⟩
  | @write buff _ _ _ _ _ h =>
    cases buff with
    | none =>
      cases h
      exact ⟨rfl, rfl⟩
    | some mem =>
      unfold doWriteRegular at h
      dsimp only at h
      split at h
      · cases h
        exact ⟨rfl, rfl⟩
      · split at h
        · cases h
          exact ⟨rfl, rfl⟩
        · obtain ⟨inode, -, h⟩ := Option.bind_eq_some_iff.1 h
          cases h
          exact ⟨hF.writeNames, hF.writeModes⟩

end

end CS330
