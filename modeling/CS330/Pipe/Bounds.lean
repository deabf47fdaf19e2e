import CS330.Pipe.Fifo

/-! # Writes that leave the pipe buffer

The guard of `pipe_write` adds the count to `buffer_offset` in 32 bits. A sum that wraps passes
it, and the loop then runs up to the count, far behind the end of the page. -/

namespace CS330

/-- A call on an end of the pipe with its arguments. -/
inductive PipeOp where
  | write (filep : Option PipeFile) (buff : Option Memory) (count : Nat)
  | read (filep : Option PipeFile) (buff : Option Memory) (count : Nat)

namespace PipeOp

def count : PipeOp → Nat
  | write _ _ count | read _ _ count => count

/-- What the call makes of the pipe; no result stands for an access outside of the page. -/
def run : PipeOp → PipeInfo → Option PipeInfo
  | write filep buff count, pipe => (pipeWrite filep buff count pipe).map (·.2)
  | read filep buff count, pipe => (pipeRead filep buff count pipe).map (·.2.2)

/-- The sum in the guard of a write that passes its checks does not wrap. -/
def Fits (pipe : PipeInfo) : PipeOp → Prop
  | write filep buff count =>
    buff ≠ none → pipe.Accepts filep count → count + pipe.bufferOffset < 2 ^ 32
  | read _ _ _ => True

end PipeOp

/-- The calls, made one after the other, access no byte outside of the page, and there are never
more bytes in the pipe than the page holds. -/
def StaysInside : List PipeOp → PipeInfo → Prop
  | [], pipe => pipe.bufferOffset ≤ 4096
  | op :: ops, pipe => pipe.bufferOffset ≤ 4096 ∧ ∃ pipe', op.run pipe = some pipe' ∧
    StaysInside ops pipe'

/-- Each of the calls fits when it is made. -/
def EachFits : List PipeOp → PipeInfo → Prop
  | [], _ => True
  | op :: ops, pipe => op.Fits pipe ∧ ∀ pipe', op.run pipe = some pipe' → EachFits ops pipe'

variable {pipe pipe' : PipeInfo} {filep : Option PipeFile} {buff : Option Memory} {mem : Memory}
  {count : Nat} {op : PipeOp} {ops : List PipeOp}

/-! ## One call -/

theorem pipeRead_bufferOffset_le (hoff : pipe.bufferOffset ≤ 4096)
    (h : (PipeOp.read filep buff count).run pipe = some pipe') : pipe'.bufferOffset ≤ 4096 := by
  obtain ⟨⟨ret, buff', _⟩, hread, rfl⟩ := Option.map_eq_some_iff.1 h
  exact (held_pipeRead hoff hread).1

/-- A write that does not pass its checks returns and leaves the pipe as it is. -/
theorem pipeWrite_of_refused (h : buff = none ∨ ¬pipe.Accepts filep count) :
    (PipeOp.write filep buff count).run pipe = some pipe := by
  rw [PipeOp.run, Option.map_eq_some_iff]
  unfold pipeWrite
  split
  next file mem =>
    have h := h.resolve_left nofun
    split
    next => exact ⟨_, rfl, rfl⟩
    next hends =>
      have hends : pipe.isWopen ∧ file.mode = .write := by simpa using hends
      have hfull : u32 (count + pipe.bufferOffset) > 4096 := by
        by_contra hfits
        exact h ⟨hends.1, ⟨file, rfl, hends.2⟩, not_lt.1 hfits⟩
      rw [if_pos hfull]
      exact ⟨_, rfl, rfl⟩
  next => exact ⟨_, rfl, rfl⟩

/-- A write that passes its checks runs its loop. -/
theorem pipeWrite_of_accepts (h : pipe.Accepts filep count) :
    (PipeOp.write filep (some mem) count).run pipe =
      (copyIn pipe.pipeBuff pipe.bufferOffset (count - pipe.bufferOffset) mem).map fun pipeBuff =>
        { pipe with
          pipeBuff
          bufferOffset := u32 (pipe.bufferOffset + count)
          writePos := u32 (pipe.bufferOffset + count) } := by
  obtain ⟨hopen, ⟨file, rfl, hmode⟩, hfits⟩ := h
  rw [PipeOp.run, pipeWrite]
  rw [if_neg (by simp [hopen, hmode]), if_neg (Nat.not_lt.2 hfits)]
  cases copyIn pipe.pipeBuff pipe.bufferOffset (count - pipe.bufferOffset) mem <;> rfl

/-- A write that passes its checks stays inside exactly when the sum does not wrap. -/
theorem pipeWrite_inside_iff (hoff : pipe.bufferOffset ≤ 4096) (hcount : count < 2 ^ 32)
    (h : pipe.Accepts filep count) :
    (∃ pipe', (PipeOp.write filep (some mem) count).run pipe = some pipe' ∧
        pipe'.bufferOffset ≤ 4096) ↔ count + pipe.bufferOffset < 2 ^ 32 := by
  have hfits : u32 (count + pipe.bufferOffset) ≤ 4096 := h.2.2
  rw [pipeWrite_of_accepts h]
  constructor
  · rintro ⟨pipe', hrun, -⟩
    by_contra hwrap
    -- the loop visits every index below `count`
    have hout : copyIn pipe.pipeBuff pipe.bufferOffset (count - pipe.bufferOffset) mem = none :=
      copyIn_eq_none (by omega) (by omega)
    rw [hout] at hrun
    cases hrun
  · intro hwrap
    have hsum : u32 (count + pipe.bufferOffset) = count + pipe.bufferOffset := by
      unfold u32
      omega
    obtain ⟨pipeBuff, hcopy, -⟩ := copyIn_eq (v := pipe.pipeBuff) (f := mem)
      (show pipe.bufferOffset + (count - pipe.bufferOffset) ≤ 4096 by omega)
    rw [hcopy]
    refine ⟨_, rfl, ?_⟩
    dsimp only
    rwa [Int.add_comm]

/-- One call stays inside exactly when it fits. -/
theorem PipeOp.inside_iff (hoff : pipe.bufferOffset ≤ 4096) (hcount : op.count < 2 ^ 32) :
    (∃ pipe', op.run pipe = some pipe' ∧ pipe'.bufferOffset ≤ 4096) ↔ op.Fits pipe := by
  cases op with
  | read filep buff count =>
    refine iff_of_true ?_ trivial
    obtain ⟨⟨ret, buff', pipe'⟩, hread⟩ := exists_pipeRead hoff
    have hrun : (PipeOp.read filep buff count).run pipe = some pipe' := by rw [run, hread]; rfl
    exact ⟨pipe', hrun, pipeRead_bufferOffset_le hoff hrun⟩
  | write filep buff count =>
    by_cases haccept : buff ≠ none ∧ pipe.Accepts filep count
    · obtain ⟨mem, rfl⟩ := Option.ne_none_iff_exists'.1 haccept.1
      have hcount : count < 2 ^ 32 := hcount
      rw [pipeWrite_inside_iff hoff hcount haccept.2]
      exact ⟨fun h _ _ => h, fun h => h haccept.1 haccept.2⟩
    · have hrefused : buff = none ∨ ¬pipe.Accepts filep count := by tauto
      refine iff_of_true ⟨pipe, pipeWrite_of_refused hrefused, hoff⟩ ?_
      exact fun hbuff hacc => absurd ⟨hbuff, hacc⟩ haccept

/-! ## Sequences of calls -/

theorem StaysInside.bufferOffset_le (h : StaysInside ops pipe) : pipe.bufferOffset ≤ 4096 := by
  cases ops with
  | nil => exact h
  | cons op ops => exact h.1

theorem staysInside_iff_of_le (hoff : pipe.bufferOffset ≤ 4096)
    (hcount : ∀ op ∈ ops, op.count < 2 ^ 32) : StaysInside ops pipe ↔ EachFits ops pipe := by
  induction ops generalizing pipe with
  | nil => exact iff_of_true hoff trivial
  | cons op ops ih =>
    obtain ⟨hop, hops⟩ := List.forall_mem_cons.1 hcount
    have hstep : _ ↔ op.Fits pipe := PipeOp.inside_iff hoff hop
    constructor
    · rintro ⟨-, pipe', hrun, hrest⟩
      have hoff' := hrest.bufferOffset_le
      refine ⟨hstep.1 ⟨pipe', hrun, hoff'⟩, fun pipe₁ hrun₁ => ?_⟩
      obtain rfl := Option.some.inj (hrun.symm.trans hrun₁)
      exact (ih hoff' hops).1 hrest
    · rintro ⟨hfits, hrest⟩
      obtain ⟨pipe', hrun, hoff'⟩ := hstep.2 hfits
      exact ⟨hoff, pipe', hrun, (ih hoff' hops).2 (hrest pipe' hrun)⟩

/-- A sequence of calls on a new pipe stays inside the page exactly when each of its calls fits. -/
theorem staysInside_iff {page : Vector UInt8 4096} (hcount : ∀ op ∈ ops, op.count < 2 ^ 32) :
    StaysInside ops (createPipe page) ↔ EachFits ops (createPipe page) :=
  staysInside_iff_of_le (Nat.zero_le _) hcount

/-- Counts that are not close to `2 ^ 32` fit whatever the pipe holds. -/
theorem eachFits_of_count (hoff : pipe.bufferOffset ≤ 4096)
    (hcount : ∀ op ∈ ops, op.count + 4096 < 2 ^ 32) : EachFits ops pipe := by
  induction ops generalizing pipe with
  | nil => trivial
  | cons op ops ih =>
    obtain ⟨hop, hops⟩ := List.forall_mem_cons.1 hcount
    have hfits : op.Fits pipe := by
      cases op with
      | write filep buff count =>
        have hop : count + 4096 < 2 ^ 32 := hop
        intro _ _
        omega
      | read => trivial
    refine ⟨hfits, fun pipe' hrun => ih ?_ hops⟩
    obtain ⟨pipe₁, hrun₁, hoff₁⟩ := (PipeOp.inside_iff hoff (by omega)).2 hfits
    obtain rfl := Option.some.inj (hrun.symm.trans hrun₁)
    exact hoff₁

/-- Writes into an empty pipe, behind one byte and into a full pipe, and a read of it all. -/
theorem staysInside_of_writes :
    StaysInside [.write (some ⟨.write⟩) (some fun _ => 65) 1,
      .write (some ⟨.write⟩) (some fun _ => 66) 4095, .write (some ⟨.write⟩) (some fun _ => 67) 1,
      .read (some ⟨.read⟩) (some fun _ => 0) (2 ^ 31)] (createPipe (.replicate 4096 0)) :=
  (staysInside_iff (by decide)).2 (eachFits_of_count (Nat.zero_le _) (by decide))

/-- With one byte in the pipe, a write of `2 ^ 32 - 1` bytes passes the guard. -/
theorem not_staysInside : ¬∀ (page : Vector UInt8 4096) (ops : List PipeOp),
    (∀ op ∈ ops, op.count < 2 ^ 32) → StaysInside ops (createPipe page) := by
  intro hclaim
  let page : Vector UInt8 4096 := Vector.replicate 4096 0
  have haccept : (createPipe page).Accepts (some ⟨.write⟩) 1 := ⟨rfl, ⟨_, rfl, rfl⟩, by decide⟩
  obtain ⟨-, one, hfirst, -, two, hsecond, htwo⟩ := hclaim page
    [.write (some ⟨.write⟩) (some fun _ => 65) 1,
      .write (some ⟨.write⟩) (some fun _ => 65) (2 ^ 32 - 1)] (by decide)
  rw [pipeWrite_of_accepts haccept] at hfirst
  obtain ⟨pipeBuff, -, hone⟩ := Option.map_eq_some_iff.1 hfirst
  have hone : one.isWopen ∧ one.bufferOffset = 1 := by
    rw [← hone]
    exact ⟨rfl, by simp [createPipe, u32]⟩
  have haccept' : one.Accepts (some ⟨.write⟩) (2 ^ 32 - 1) := by
    refine ⟨hone.1, ⟨_, rfl, rfl⟩, ?_⟩
    rw [hone.2]
    decide
  have hwrap := (pipeWrite_inside_iff (by omega) (by decide) haccept').1
    ⟨two, hsecond, htwo.bufferOffset_le⟩
  omega

end CS330
