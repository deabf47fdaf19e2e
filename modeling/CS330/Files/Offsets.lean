import CS330.Files.Regular

/-! # The ranges that reads and writes ask for, and the offsets of seeks -/

namespace CS330

variable {C : SeekConsts} {F : FlatSystem} {s s' : FlatState F} {inodes : F.State} {inode : F.Inode}
  {file : File F.Inode} {buff : Option Memory} {mem : Memory} {op : FlatOp} {ops : List FlatOp}
  {fileSize offp count base : Nat} {offset whence : Int}

/-- The sum of an offset that was copied to an `int` and an unsigned count. -/
theorem u32_int32_add : u32 (int32 offp + count) = (offp + count) % 2 ^ 32 := by
  unfold u32 int32
  omega

/-! ## Reads -/

theorem doReadRegular_eq (hinode : file.inode = some inode)
    (hmode : file.mode &&& C.oRead = C.oRead) :
    doReadRegular C F inodes (some file) (some mem) count =
      let call := readCall (F.fileSize inodes inode) file.offp count
      let res := F.flatRead inodes inode mem call.count call.offp
      some (.ok res.1, some call, some res.2,
        some { file with offp := u32 (file.offp + res.1) }) := by
  simp [doReadRegular, hinode, hmode]

/-- The clamp is right exactly when the offset lies in the file and the sum does not wrap. -/
theorem readCall_count_iff (hoff : offp < 2 ^ 32) (hsize : fileSize ≤ 4096)
    (hcount : count < 2 ^ 32) : ((readCall fileSize offp count).count =
        if offp ≤ fileSize then min count (fileSize - offp) else 0) ↔
      offp ≤ fileSize ∧ offp + count < 2 ^ 32 := by
  have hsum : u32 (int32 offp + count) = (offp + count) % 2 ^ 32 := u32_int32_add
  have hrest : u32 (fileSize - int32 offp) = (2 ^ 32 + fileSize - offp) % 2 ^ 32 := by
    unfold u32 int32
    omega
  simp only [readCall, hsum, hrest]
  split <;> split <;> omega

/-- The call hands to `flat_read` what is left of the file behind the offset, and at most `count`
bytes. -/
def ReadsInside (C : SeekConsts) (s : FlatState F) (inode : F.Inode) (mem : Memory)
    (count : Nat) : Prop :=
  ∃ ret call mem' file',
    doReadRegular C F s.inodes (some s.file) (some mem) count =
      some (ret, some call, some mem', some file') ∧
    call.count =
      if s.file.offp ≤ F.fileSize s.inodes inode then
        min count (F.fileSize s.inodes inode - s.file.offp)
      else 0

theorem readsInside_iff_count (hinode : s.file.inode = some inode)
    (hmode : s.file.mode &&& C.oRead = C.oRead) :
    ReadsInside C s inode mem count ↔
      (readCall (F.fileSize s.inodes inode) s.file.offp count).count =
        if s.file.offp ≤ F.fileSize s.inodes inode then
          min count (F.fileSize s.inodes inode - s.file.offp)
        else 0 := by
  unfold ReadsInside
  rw [doReadRegular_eq hinode hmode]
  constructor
  · rintro ⟨ret, call, mem', file', h, hcount⟩
    simp only [Option.some.injEq, Prod.mk.injEq] at h
    obtain ⟨-, rfl, -⟩ := h
    exact hcount
  · exact fun hcount => ⟨_, _, _, _, rfl, hcount⟩

/-- In every run a read is clamped to the file exactly when the offset lies in the file and the
offset and the count do not wrap. -/
theorem FlatRun.readsInside_iff {s₀ : FlatState F} (h : FlatRun C (fun _ _ => True) s₀ ops s)
    (h0 : s₀.file.offp = 0) (hinode : s.file.inode = some inode)
    (hmode : s.file.mode &&& C.oRead = C.oRead) (hsize : F.fileSize s.inodes inode ≤ 4096)
    (hcount : count < 2 ^ 32) :
    ReadsInside C s inode mem count ↔
      s.file.offp ≤ F.fileSize s.inodes inode ∧ s.file.offp + count < 2 ^ 32 := by
  have hoff : s.file.offp < 2 ^ 32 :=
    h.invariant (I := fun s => s.file.offp < 2 ^ 32) (by omega) fun hoff hstep => by
      rcases hstep.2.file_eq with heq | ⟨n, hn, heq⟩
      · rwa [heq]
      · rwa [heq]
  rw [readsInside_iff_count hinode hmode]
  exact readCall_count_iff hoff hsize hcount

/-- The file of ten bytes, after a seek. -/
def FlatState.tenBytesAt (offp : Nat) : FlatState .oneFile :=
  { FlatState.tenBytes with file := { FlatState.tenBytes.file with offp } }

theorem FlatState.tenBytes_lseek {ok : FlatState .oneFile → FlatOp → Prop}
    (hok : ok .tenBytes (.lseek offp 0)) (hoff : offp ≤ 4096) :
    FlatRun .small ok .tenBytes [.lseek offp 0] (.tenBytesAt offp) := by
  have hseek : doLseekRegular .small .oneFile FlatState.tenBytes.inodes
      (some FlatState.tenBytes.file) offp 0 =
        some (.ok offp, some (FlatState.tenBytesAt offp).file) := by
    have hlong : u32 offp = offp := by
      unfold u32
      omega
    have hroom : ¬4096 < offp := Nat.not_lt.2 hoff
    simp [doLseekRegular, seekTo, SeekConsts.small, FlatSystem.oneFile, File.inode,
      FlatState.tenBytes, FlatState.tenBytesAt, hlong, hroom, show u32 4096 = 4096 from rfl]
  exact Trace.singleton_iff.2 ⟨hok, .lseek hseek⟩

/-- Of twenty bytes from offset 4 on, six are read. -/
theorem FlatRun.readsInside_of_tenBytes :
    ReadsInside .small (.tenBytesAt 4) () (fun _ => 0) 20 ↔
      (FlatState.tenBytesAt 4).file.offp ≤ 10 ∧
        (FlatState.tenBytesAt 4).file.offp + 20 < 2 ^ 32 := by
  have hrun : FlatRun .small (fun _ _ => True) .tenBytes [.lseek (4 : Nat) 0] (.tenBytesAt 4) :=
    FlatState.tenBytes_lseek trivial (by decide)
  exact hrun.readsInside_iff rfl rfl rfl (by decide) (by decide)

/-- Behind the end of the file a read of one byte asks for almost `2 ^ 32` bytes. -/
theorem not_readsInside : ¬∀ {C : SeekConsts} {F : FlatSystem} {s₀ s : FlatState F}
    {ops : List FlatOp} {inode : F.Inode} {mem : Memory} {count : Nat},
    FlatRun C (fun _ _ => True) s₀ ops s →
    s₀.file.offp = 0 → s.file.inode = some inode → s.file.mode &&& C.oRead = C.oRead →
    F.fileSize s.inodes inode ≤ 4096 → count < 2 ^ 32 → ReadsInside C s inode mem count := by
  intro hclaim
  have hrun : FlatRun .small (fun _ _ => True) .tenBytes [.lseek (20 : Nat) 0] (.tenBytesAt 20) :=
    FlatState.tenBytes_lseek trivial (by decide)
  have hread : ReadsInside .small (.tenBytesAt 20) () (fun _ => 0) 1 :=
    hclaim hrun rfl rfl rfl (by decide) (by decide)
  have hcount := (readCall_count_iff (by decide) (by decide) (by decide)).1
    ((readsInside_iff_count rfl rfl).1 hread)
  exact absurd hcount.1 (by decide)

/-! ## Writes -/

/-- The checks of a write on a file opened for writing. -/
theorem doWriteRegular_eq (hinode : file.inode = some inode)
    (hmode : file.mode &&& C.oWrite = C.oWrite) :
    doWriteRegular C F inodes (some file) (some mem) count =
      if (file.offp + count) % 2 ^ 32 > 4096 then some (.error .eothers, none, some file, inodes)
      else
        let res := F.flatWrite inodes inode mem count (int32 file.offp)
        some (.ok res.1, some ⟨count, int32 file.offp⟩,
          some { file with offp := u32 (file.offp + res.1) }, res.2) := by
  simp [doWriteRegular, hinode, hmode, u32_int32_add]

/-- The call asks for a write exactly when it ends within 4096 bytes, and otherwise it fails and
leaves the file object as it is. -/
def WritesInside (C : SeekConsts) (s : FlatState F) (mem : Memory) (count : Nat) : Prop :=
  ∃ ret flat file' inodes',
    doWriteRegular C F s.inodes (some s.file) (some mem) count =
      some (ret, flat, some file', inodes') ∧
    (flat.isSome ↔ s.file.offp + count ≤ 4096) ∧
    (¬s.file.offp + count ≤ 4096 → ret = .error .eothers ∧ file' = s.file)

theorem writesInside_iff (hinode : s.file.inode = some inode)
    (hmode : s.file.mode &&& C.oWrite = C.oWrite) (hoff : s.file.offp ≤ 4096)
    (hcount : count < 2 ^ 32) : WritesInside C s mem count ↔ s.file.offp + count < 2 ^ 32 := by
  unfold WritesInside
  rw [doWriteRegular_eq hinode hmode]
  split
  next hfull =>
    refine iff_of_true ⟨_, _, _, _, rfl, iff_of_false nofun (by omega), fun _ => ⟨rfl, rfl⟩⟩ ?_
    omega
  next hfits =>
    constructor
    · rintro ⟨ret, flat, file', inodes', h, hflat, -⟩
      cases h
      have := hflat.1 rfl
      omega
    · intro hwrap
      exact ⟨_, _, _, _, rfl, iff_of_true rfl (by omega), fun hnot => absurd hnot (by omega)⟩

/-- The sum in the limit of a write that passes its checks does not wrap. -/
def FlatOp.NoWrap (C : SeekConsts) (s : FlatState F) : FlatOp → Prop
  | .write buff count _ => buff ≠ none → s.file.mode &&& C.oWrite = C.oWrite →
    (s.file.offp + count) % 2 ^ 32 ≤ 4096 → s.file.offp + count < 2 ^ 32
  | _ => True

/-- A requested write ends within 4096 bytes. -/
def FlatOp.Within : FlatOp → Prop
  | .write _ _ (some call) => 0 ≤ call.offp ∧ call.offp + call.count ≤ 4096
  | _ => True

theorem FlatStep.within (h : FlatStep C s op s') (hwrap : op.NoWrap C s) : op.Within := by
  cases h with
  | read | lseek => trivial
  | @write buff count ret flat file inodes h =>
    rcases doWriteRegular_cases h with ⟨-, rfl, -⟩ | ⟨n, hbuff, hmode, hfits, -, rfl, -⟩
    · trivial
    · rw [u32_int32_add] at hfits
      have hwrap : s.file.offp + count < 2 ^ 32 := hwrap hbuff hmode hfits
      have hoff : int32 s.file.offp = s.file.offp := by
        unfold int32
        omega
      change 0 ≤ int32 s.file.offp ∧ int32 s.file.offp + count ≤ 4096
      rw [hoff]
      omega

/-- A write behaves as it should exactly when its sum does not wrap, and in a run whose writes do
not wrap none is requested behind the first 4096 bytes. -/
theorem FlatRun.writes_within {s₀ : FlatState F}
    (h : FlatRun C (fun s op => op.NoWrap C s) s₀ ops s) :
    (∀ op ∈ ops, op.Within) ∧
      ∀ inode mem count, s.file.inode = some inode → s.file.mode &&& C.oWrite = C.oWrite →
        s.file.offp ≤ 4096 → count < 2 ^ 32 →
        (WritesInside C s mem count ↔ s.file.offp + count < 2 ^ 32) := by
  refine ⟨h.history (I := fun ops _ => ∀ op ∈ ops, op.Within) (by simp) ?_,
    fun _ _ _ hinode hmode hoff hcount => writesInside_iff hinode hmode hoff hcount⟩
  rintro ops s op s' hops ⟨hwrap, hstep⟩
  simp only [List.forall_mem_append, List.forall_mem_singleton]
  exact ⟨hops, hstep.within hwrap⟩

theorem FlatRun.writes_within_of_tenBytes :
    (∀ op ∈ [FlatOp.lseek (4096 : Nat) 0], op.Within) ∧
      ∀ inode mem count, (FlatState.tenBytesAt 4096).file.inode = some inode →
        (FlatState.tenBytesAt 4096).file.mode &&& SeekConsts.small.oWrite =
          SeekConsts.small.oWrite →
        (FlatState.tenBytesAt 4096).file.offp ≤ 4096 → count < 2 ^ 32 →
        (WritesInside .small (.tenBytesAt 4096) mem count ↔
          (FlatState.tenBytesAt 4096).file.offp + count < 2 ^ 32) :=
  FlatRun.writes_within (FlatState.tenBytes_lseek trivial (by decide))

/-- From offset 1 on, a write of `2 ^ 32 - 1` bytes passes the limit. -/
theorem not_writes_within : ¬∀ {C : SeekConsts} {F : FlatSystem} {s₀ s : FlatState F}
    {ops : List FlatOp}, FlatRun C (fun _ _ => True) s₀ ops s → (∀ op ∈ ops, op.Within) ∧
      ∀ inode mem count, s.file.inode = some inode → s.file.mode &&& C.oWrite = C.oWrite →
        s.file.offp ≤ 4096 → count < 2 ^ 32 → WritesInside C s mem count := by
  intro hclaim
  have hrun : FlatRun .small (fun _ _ => True) .tenBytes [.lseek (1 : Nat) 0] (.tenBytesAt 1) :=
    FlatState.tenBytes_lseek trivial (by decide)
  have hwrite : WritesInside .small (.tenBytesAt 1) (fun _ => 0) (2 ^ 32 - 1) :=
    (hclaim hrun).2 () _ _ rfl rfl (by decide) (by decide)
  have hinode : (FlatState.tenBytesAt 1).file.inode = some () := rfl
  have hwrap := (writesInside_iff hinode rfl (by decide) (by decide)).1 hwrite
  exact absurd hwrap (by decide)

/-! ## Seeks -/

/-- The base that `whence` stands for. -/
def SeekBase (C : SeekConsts) (s : FlatState F) (inode : F.Inode) (whence : Int) (base : Nat) :
    Prop :=
  whence = C.seekSet ∧ base = 0 ∨ whence = C.seekCur ∧ base = s.file.offp ∨
    whence = C.seekEnd ∧ base = F.fileSize s.inodes inode

/-- All three bases lead through the same tests. -/
theorem doLseekRegular_eq (hinode : s.file.inode = some inode)
    (hbase : SeekBase C s inode whence base) (hlong : -2 ^ 63 ≤ base + offset)
    (hlong' : base + offset < 2 ^ 63) :
    doLseekRegular C F s.inodes (some s.file) offset whence =
      some (if base + offset < 0 then (.error .einval, some s.file)
        else seekTo F s.inodes s.file inode (u32 (base + offset))) := by
  have hsum : int64 (offset + base) = base + offset := by
    rw [Int.add_comm]
    exact int64_eq hlong hlong'
  simp only [doLseekRegular, hinode, Option.bind_eq_bind, Option.bind_some, Option.pure_def]
  rcases hbase with ⟨rfl, rfl⟩ | ⟨rfl, rfl⟩ | ⟨rfl, rfl⟩
  · rw [if_pos rfl]
    simp only [Nat.cast_zero, Int.zero_add]
    split <;> rfl
  · rw [if_neg C.seekSet_ne_seekCur.symm, if_pos rfl, hsum]
    split <;> rfl
  · rw [if_neg C.seekSet_ne_seekEnd.symm, if_neg C.seekCur_ne_seekEnd.symm, if_pos rfl, hsum]
    split <;> rfl

/-- The seek succeeds exactly when the target lies between 0 and the end of the blocks; then it
returns and stores the target, and otherwise it leaves the file object as it is. -/
def SeeksExactly (C : SeekConsts) (s : FlatState F) (inode : F.Inode) (offset whence : Int)
    (base : Nat) : Prop :=
  ∃ ret file', doLseekRegular C F s.inodes (some s.file) offset whence = some (ret, some file') ∧
    ((∃ n, ret = .ok n) ↔
      0 ≤ base + offset ∧ base + offset ≤ F.ePos s.inodes inode - F.sPos s.inodes inode) ∧
    (∀ n, ret = .ok n → (n : Int) = base + offset ∧ file' = { s.file with offp := n }) ∧
    ∀ e, ret = .error e → file' = s.file

theorem seeksExactly_iff (hinode : s.file.inode = some inode)
    (hbase : SeekBase C s inode whence base) (hlong : -2 ^ 63 ≤ base + offset)
    (hlong' : base + offset < 2 ^ 63) (hpos : F.sPos s.inodes inode ≤ F.ePos s.inodes inode)
    (hpos' : F.ePos s.inodes inode < F.sPos s.inodes inode + 2 ^ 31) :
    SeeksExactly C s inode offset whence base ↔
      ¬(2 ^ 32 ≤ base + offset ∧ (base + offset) % 2 ^ 32 ≤
        (F.ePos s.inodes inode - F.sPos s.inodes inode : Int)) := by
  unfold SeeksExactly
  rw [doLseekRegular_eq hinode hbase hlong hlong']
  split
  next hneg =>
    refine iff_of_true ⟨_, _, rfl, iff_of_false nofun (by omega), nofun, fun _ _ => rfl⟩ ?_
    omega
  next hneg =>
    have hroom : u32 (F.ePos s.inodes inode - F.sPos s.inodes inode) =
        F.ePos s.inodes inode - F.sPos s.inodes inode := by
      unfold u32
      omega
    have hoff : (u32 (base + offset) : Int) = (base + offset) % 2 ^ 32 := by
      unfold u32
      omega
    unfold seekTo
    rw [hroom]
    split
    next hout =>
      refine iff_of_true ⟨_, _, rfl, iff_of_false nofun (by omega), nofun, fun _ _ => rfl⟩ ?_
      omega
    next hin =>
      constructor
      · rintro ⟨ret, file', h, -, hok, -⟩
        cases h
        have := (hok _ rfl).1
        omega
      · intro hwrap
        refine ⟨_, _, rfl, iff_of_true ⟨_, rfl⟩ (by omega), ?_, nofun⟩
        rintro n ⟨⟩
        exact ⟨by omega, rfl⟩

theorem seeksExactly_of_tenBytes : SeeksExactly .small .tenBytes () (-4) 2 10 ↔
    ¬(2 ^ 32 ≤ (10 : Nat) + (-4 : Int) ∧ ((10 : Nat) + (-4 : Int)) % 2 ^ 32 ≤ (4096 - 0 : Int)) :=
  seeksExactly_iff rfl (.inr (.inr ⟨rfl, rfl⟩)) (by decide) (by decide) (by decide) (by decide)

/-- A seek to `2 ^ 32` succeeds and goes to 0. -/
theorem not_seeksExactly : ¬∀ {C : SeekConsts} {F : FlatSystem} {s : FlatState F} {inode : F.Inode}
    {offset whence : Int} {base : Nat}, s.file.inode = some inode →
    SeekBase C s inode whence base → -2 ^ 63 ≤ base + offset → base + offset < 2 ^ 63 →
    F.sPos s.inodes inode ≤ F.ePos s.inodes inode →
    F.ePos s.inodes inode < F.sPos s.inodes inode + 2 ^ 31 →
    SeeksExactly C s inode offset whence base := by
  intro hclaim
  have hexact : SeeksExactly .small .tenBytes () (2 ^ 32) 0 0 :=
    hclaim rfl (.inl ⟨rfl, rfl⟩) (by decide) (by decide) (by decide) (by decide)
  obtain ⟨ret, file', hseek, -, hok, -⟩ := hexact
  have hzero : doLseekRegular .small .oneFile FlatState.tenBytes.inodes
      (some FlatState.tenBytes.file) (2 ^ 32) 0 = some (.ok 0, some FlatState.tenBytes.file) := rfl
  rw [hzero] at hseek
  cases hseek
  have htarget := (hok 0 rfl).1
  revert htarget
  decide

end CS330
