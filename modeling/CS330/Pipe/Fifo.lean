import CS330.Pipe.Basic

/-! # The pipe as a FIFO byte stream

Reads keep the stream in every state. A write keeps it exactly when the cells that its loop leaves
out hold the right bytes already. -/

namespace CS330

variable {pipe pipe' : PipeInfo} {filep : Option PipeFile} {buff buff' : Option Memory}
  {mem : Memory} {count n : Nat} {ret : Except PipeError Nat} {call : PipeCall}
  {calls : List PipeCall}

/-! ## The abstraction -/

@[simp] theorem Memory.length_bytes : (mem.bytes n).length = n := by simp [Memory.bytes]

theorem Memory.getElem?_bytes {i : Nat} :
    (mem.bytes n)[i]? = if i < n then some (mem i) else none := by
  rw [Memory.bytes, List.getElem?_map]
  split
  next h => rw [List.getElem?_range h, Option.map_some]
  next h => rw [List.getElem?_eq_none (by simpa using h), Option.map_none]

theorem PipeInfo.getElem?_held {i : Nat} :
    pipe.held[i]? = if i < pipe.bufferOffset then pipe.pipeBuff[i]? else none := by
  rw [held, List.getElem?_take, Vector.getElem?_toList]

theorem PipeInfo.length_held (h : pipe.bufferOffset ≤ 4096) :
    pipe.held.length = pipe.bufferOffset := by
  simp [held, h]

/-! ## The two calls -/

/-- A read fails without effect, or it hands out a front part and keeps the rest. -/
theorem pipeRead_cases (h : pipeRead filep buff count pipe = some (ret, buff', pipe')) :
    (∃ e, ret = .error e ∧ pipe' = pipe) ∨
    ∃ n mem mem' pipeBuff, n = min count pipe.bufferOffset ∧
      copyOut pipe.pipeBuff n mem = some mem' ∧
      shiftDown pipe.pipeBuff n (pipe.bufferOffset - n) = some pipeBuff ∧
      ret = .ok n ∧ buff' = some mem' ∧
      pipe' = { pipe with pipeBuff, bufferOffset := pipe.bufferOffset - n } := by
  unfold pipeRead at h
  split at h
  next file mem =>
    split at h
    · cases h
      exact .inl ⟨_, rfl, rfl⟩
    · simp only [Option.bind_eq_bind, Option.bind_eq_some_iff] at h
      obtain ⟨mem', hout, pipeBuff, hshift, h⟩ := h
      cases h
      have hn : (if count > pipe.bufferOffset then pipe.bufferOffset else count) =
        min count pipe.bufferOffset := by grind
      exact .inr ⟨_, mem, mem', pipeBuff, hn, hout, hshift, rfl, rfl, rfl⟩
  next => 
    cases h
    exact .inl ⟨_, rfl, rfl⟩

/-- The write passes the checks on the ends and on the room. -/
def PipeInfo.Accepts (pipe : PipeInfo) (filep : Option PipeFile) (count : Nat) : Prop :=
  pipe.isWopen ∧ (∃ file, filep = some file ∧ file.mode = .write) ∧
    u32 (count + pipe.bufferOffset) ≤ 4096

/-- A write fails without effect, or it passes the checks and runs its loop. -/
theorem pipeWrite_cases (h : pipeWrite filep buff count pipe = some (ret, pipe')) :
    ((∃ e, ret = .error e) ∧ pipe' = pipe ∧ (buff = none ∨ ¬pipe.Accepts filep count)) ∨
    pipe.Accepts filep count ∧ ∃ mem pipeBuff, buff = some mem ∧
      copyIn pipe.pipeBuff pipe.bufferOffset (count - pipe.bufferOffset) mem = some pipeBuff ∧
      ret = .ok count ∧
      pipe' = { pipe with
        pipeBuff
        bufferOffset := u32 (pipe.bufferOffset + count)
        writePos := u32 (pipe.bufferOffset + count) } := by
  unfold pipeWrite at h
  split at h
  next file mem =>
    by_cases haccept : pipe.Accepts (some file) count
    · obtain ⟨hopen, ⟨_, hfile, hmode⟩, hfits⟩ := id haccept
      obtain rfl := Option.some.inj hfile
      rw [if_neg (by simp [hopen, hmode]), if_neg (Nat.not_lt.2 hfits)] at h
      simp only [Option.bind_eq_bind, Option.bind_eq_some_iff] at h
      obtain ⟨pipeBuff, hcopy, h⟩ := h
      cases h
      exact .inr ⟨haccept, mem, pipeBuff, rfl, hcopy, rfl, rfl⟩
    · split at h
      · cases h
        exact .inl ⟨⟨_, rfl⟩, rfl, .inr haccept⟩
      next hends =>
        obtain ⟨hopen, hmode⟩ := not_or.1 hends
        have hfull : u32 (count + pipe.bufferOffset) > 4096 := Nat.not_le.1 fun hfits =>
          haccept ⟨not_not.1 hopen, ⟨file, rfl, not_not.1 hmode⟩, hfits⟩
        rw [if_pos hfull] at h
        cases h
        exact .inl ⟨⟨_, rfl⟩, rfl, .inr haccept⟩
  next hnull =>
    cases h
    refine .inl ⟨⟨_, rfl⟩, rfl, ?_⟩
    cases buff with
    | none => exact .inl rfl
    | some mem => exact .inr fun ⟨_, ⟨file, hfile, _⟩, _⟩ => hnull file mem hfile rfl

/-- No read leaves the page. -/
theorem exists_pipeRead (hoff : pipe.bufferOffset ≤ 4096) :
    ∃ res, pipeRead filep buff count pipe = some res := by
  unfold pipeRead
  split
  next file mem =>
    split
    · exact ⟨_, rfl⟩
    generalize hn : (if count > pipe.bufferOffset then pipe.bufferOffset else count) = n
    have hle : n ≤ pipe.bufferOffset := by grind
    obtain ⟨mem', hout, -⟩ := copyOut_eq (v := pipe.pipeBuff) (k := n) (m := mem) (by omega)
    obtain ⟨pipeBuff, hshift, -⟩ :=
      shiftDown_eq (v := pipe.pipeBuff) (show n + (pipe.bufferOffset - n) ≤ 4096 by omega)
    simp [hout, hshift]
  next => exact ⟨_, rfl⟩

/-- No write of at most a page leaves the page. -/
theorem exists_pipeWrite (hoff : pipe.bufferOffset ≤ 4096) (hcount : count ≤ 4096) :
    ∃ res, pipeWrite filep buff count pipe = some res := by
  unfold pipeWrite
  split
  next file mem =>
    split
    · exact ⟨_, rfl⟩
    split
    · exact ⟨_, rfl⟩
    obtain ⟨pipeBuff, hcopy, -⟩ :=
      copyIn_eq (v := pipe.pipeBuff) (f := mem)
        (show pipe.bufferOffset + (count - pipe.bufferOffset) ≤ 4096 by omega)
    simp [hcopy]
  next => exact ⟨_, rfl⟩

/-- The bytes a read delivers are the front of the bytes held. -/
theorem held_pipeRead (hoff : pipe.bufferOffset ≤ 4096)
    (h : pipeRead filep buff count pipe = some (ret, buff', pipe')) :
    pipe'.bufferOffset ≤ 4096 ∧
      (PipeCall.read filep buff count ret buff').delivered ++ pipe'.held = pipe.held := by
  rcases pipeRead_cases h with ⟨e, rfl, rfl⟩ |
    ⟨n, mem, mem', pipeBuff, hn, hout, hshift, rfl, rfl, rfl⟩
  · exact ⟨hoff, rfl⟩
  · refine ⟨?_, List.ext_getElem? fun i => ?_⟩
    · change pipe.bufferOffset - n ≤ 4096
      omega
    obtain ⟨mem₁, hout₁, hin, -⟩ := copyOut_eq (v := pipe.pipeBuff) (k := n) (m := mem) (by omega)
    obtain rfl := Option.some.inj (hout.symm.trans hout₁)
    obtain ⟨pipeBuff₁, hshift₁, hcells⟩ :=
      shiftDown_eq (v := pipe.pipeBuff) (show n + (pipe.bufferOffset - n) ≤ 4096 by omega)
    obtain rfl := Option.some.inj (hshift.symm.trans hshift₁)
    simp only [PipeCall.delivered, List.getElem?_append, Memory.length_bytes,
      Memory.getElem?_bytes, PipeInfo.getElem?_held, hcells]
    split
    next hi =>
      rw [if_pos (by omega), hin i hi]
    next hi => grind

/-- The cells that the loop of a write leaves out hold the bytes of the caller. -/
def PipeInfo.Completes (pipe : PipeInfo) (mem : Memory) (count : Nat) : Prop :=
  ∀ j < count, count ≤ pipe.bufferOffset + j → pipe.pipeBuff[pipe.bufferOffset + j]? = some (mem j)

/-- An accepted write appends its bytes exactly when it completes. -/
theorem held_pipeWrite_iff (hoff : pipe.bufferOffset ≤ 4096) (hcount : count ≤ 4096)
    (h : pipeWrite filep (some mem) count pipe = some (.ok n, pipe')) :
    pipe.Accepts filep count ∧ pipe'.bufferOffset ≤ 4096 ∧
      (pipe'.held = pipe.held ++ mem.bytes count ↔ pipe.Completes mem count) := by
  rcases pipeWrite_cases h with ⟨⟨e, he⟩, -⟩ | ⟨haccept, mem₁, pipeBuff, hmem, hcopy, -, rfl⟩
  · cases he
  obtain rfl := Option.some.inj hmem
  have hfits := haccept.2.2
  have hsum : u32 (count + pipe.bufferOffset) = count + pipe.bufferOffset := by
    unfold u32
    omega
  have hoff' : u32 (pipe.bufferOffset + count) = pipe.bufferOffset + count := by
    unfold u32
    omega
  obtain ⟨pipeBuff₁, hcopy₁, hcells⟩ :=
    copyIn_eq (v := pipe.pipeBuff) (f := mem)
      (show pipe.bufferOffset + (count - pipe.bufferOffset) ≤ 4096 by omega)
  obtain rfl := Option.some.inj (hcopy.symm.trans hcopy₁)
  refine ⟨haccept, ?_, ?_⟩
  · change u32 (pipe.bufferOffset + count) ≤ 4096
    omega
  simp only [List.ext_getElem?_iff, List.getElem?_append, PipeInfo.getElem?_held, hoff', hcells,
    Memory.getElem?_bytes, PipeInfo.length_held hoff]
  constructor
  · intro h j hj hleft
    have hcell := h (pipe.bufferOffset + j)
    rw [if_pos (by omega), if_neg (by omega), if_neg (by omega), Nat.add_sub_cancel_left,
      if_pos hj] at hcell
    exact hcell
  · intro h i
    by_cases hi : pipe.bufferOffset ≤ i ∧ i < pipe.bufferOffset + count
    · obtain ⟨j, rfl⟩ := Nat.exists_eq_add_of_le hi.1
      have hj : j < count := by omega
      rw [if_pos hi.2, Nat.add_sub_cancel_left, if_neg (show ¬pipe.bufferOffset + j < _ by omega),
        if_pos hj]
      split
      next => rfl
      next hout => exact h j hj (by omega)
    · grind

/-! ## Runs -/

/-- A write that is accepted completes. -/
def PipeCall.Complete (pipe : PipeInfo) : PipeCall → Prop
  | .write filep (some mem) count _ => pipe.Accepts filep count → pipe.Completes mem count
  | _ => True

/-- What one call does to the stream. -/
theorem PipeStep.held_iff (h : PipeStep pipe call pipe') (hoff : pipe.bufferOffset ≤ 4096)
    (hcount : call.count ≤ 4096) : pipe'.bufferOffset ≤ 4096 ∧
    (call.delivered ++ pipe'.held = pipe.held ++ call.written ↔ call.Complete pipe) := by
  cases h with
  | read h =>
    obtain ⟨hoff', hheld⟩ := held_pipeRead hoff h
    exact ⟨hoff', iff_of_true (hheld.trans (List.append_nil _).symm) trivial⟩
  | write h =>
    rename_i filep buff count ret
    rcases pipeWrite_cases h with ⟨⟨e, rfl⟩, rfl, hrefused⟩ | ⟨-, mem, pipeBuff, rfl, -, rfl, -⟩
    · refine ⟨hoff, iff_of_true (by simp [PipeCall.delivered, PipeCall.written]) ?_⟩
      cases buff with
      | none => trivial
      | some mem => exact fun haccept => absurd haccept (hrefused.resolve_left nofun)
    · obtain ⟨haccept, hoff', hheld⟩ := held_pipeWrite_iff hoff hcount h
      exact ⟨hoff', hheld.trans ⟨fun h _ => h, fun h => h haccept⟩⟩

theorem PipeRun.bufferOffset_le {ok : PipeInfo → PipeCall → Prop} {page : Vector UInt8 4096}
    (h : PipeRun ok (createPipe page) calls pipe) : pipe.bufferOffset ≤ 4096 :=
  h.invariant (Nat.zero_le _) fun hoff hstep => (hstep.2.2.held_iff hoff hstep.1).1

/-- In every run each further call returns. -/
theorem PipeRun.exists_step {ok : PipeInfo → PipeCall → Prop} {page : Vector UInt8 4096}
    (h : PipeRun ok (createPipe page) calls pipe) (hcount : count ≤ 4096) :
    (∃ ret pipe', PipeStep pipe (.write filep buff count ret) pipe') ∧
      ∃ ret buff' pipe', PipeStep pipe (.read filep buff count ret buff') pipe' := by
  constructor
  · obtain ⟨⟨ret, pipe'⟩, hwrite⟩ := exists_pipeWrite h.bufferOffset_le hcount
    exact ⟨ret, pipe', .write hwrite⟩
  · obtain ⟨⟨ret, buff', pipe'⟩, hread⟩ := exists_pipeRead h.bufferOffset_le
    exact ⟨ret, buff', pipe', .read hread⟩

/-- In every run whose accepted writes complete, the pipe is a FIFO stream and a write without
room changes nothing. -/
theorem PipeRun.isFifo {page : Vector UInt8 4096}
    (h : PipeRun (fun pipe call => call.Complete pipe) (createPipe page) calls pipe) :
    IsFifo calls pipe ∧ ∀ filep buff count pipe',
      PipeStep pipe (.write filep buff count (.error .eothers)) pipe' → pipe' = pipe := by
  constructor
  · refine (h.history (I := fun calls pipe => pipe.bufferOffset ≤ 4096 ∧ IsFifo calls pipe)
      ⟨Nat.zero_le _, by simp [IsFifo, PipeInfo.held, createPipe]⟩ ?_).2
    rintro calls pipe call pipe' ⟨hoff, hfifo⟩ ⟨hcount, hok, hstep⟩
    obtain ⟨hoff', hheld⟩ := hstep.held_iff hoff hcount
    refine ⟨hoff', ?_⟩
    unfold IsFifo at hfifo ⊢
    rw [List.flatMap_append, List.flatMap_append, ← hfifo]
    simp [hheld.2 hok]
  · intro filep buff count pipe' hstep
    cases hstep with
    | write h =>
      rcases pipeWrite_cases h with ⟨-, heq, -⟩ | ⟨-, _, _, -, -, hret, -⟩
      · exact heq
      · cases hret

/-- Two bytes are written to an empty pipe and one of them is read. -/
theorem PipeRun.isFifo_of_twoBytes : ∃ calls pipe,
    PipeRun (fun pipe call => call.Complete pipe) (createPipe (.replicate 4096 0)) calls pipe ∧
    calls.flatMap (·.delivered) = [65] ∧ pipe.held = [66] ∧ IsFifo calls pipe := by
  let page : Vector UInt8 4096 := Vector.replicate 4096 0
  let letters : Memory := fun i => if i = 0 then 65 else 66
  let full : PipeInfo := { createPipe page with
    pipeBuff := (page.set 0 65).set 1 66, bufferOffset := 2, writePos := 2 }
  let rest : PipeInfo := { full with pipeBuff := full.pipeBuff.set 0 66, bufferOffset := 1 }
  have hwrite : pipeWrite (some ⟨.write⟩) (some letters) 2 (createPipe page) =
      some (.ok 2, full) := by
    simp [pipeWrite, createPipe, copyIn, store, u32, List.range_succ, full, letters]
  have hread : pipeRead (some ⟨.read⟩) (some fun _ => 0) 1 full =
      some (.ok 1, some (Function.update (fun _ => 0) 0 65), rest) := by
    simp [pipeRead, createPipe, copyOut, shiftDown, store, List.range_succ, full, rest]
  have hempty : (createPipe page).Completes letters 2 := fun j hj hle => by
    have : 2 ≤ 0 + j := hle
    omega
  have hrun : PipeRun (fun pipe call => call.Complete pipe) (createPipe page)
      [.write (some ⟨.write⟩) (some letters) 2 (.ok 2),
        .read (some ⟨.read⟩) (some fun _ => 0) 1 (.ok 1)
          (some (Function.update (fun _ => 0) 0 65))] rest := by
    refine .snoc (.snoc .nil ⟨by decide, ?_, .write hwrite⟩) ⟨by decide, ?_, .read hread⟩
    · trivial
    · exact fun _ => hempty
  refine ⟨_, rest, hrun, ?_, ?_, hrun.isFifo.1⟩
  · simp [PipeCall.delivered, Memory.bytes]
  · have hhead : rest.pipeBuff[0]? = some 66 := by simp [rest]
    rw [PipeInfo.held, List.take_one, List.head?_eq_getElem?, Vector.getElem?_toList, hhead]
    rfl

/-- The second of two writes of one byte leaves the page as it is. -/
theorem not_pipe_isFifo : ¬∀ (page : Vector UInt8 4096) (calls : List PipeCall) (pipe : PipeInfo),
    PipeRun (fun _ _ => True) (createPipe page) calls pipe →
      IsFifo calls pipe ∧ ∀ filep buff count pipe',
        PipeStep pipe (.write filep buff count (.error .eothers)) pipe' → pipe' = pipe := by
  intro hclaim
  let page : Vector UInt8 4096 := Vector.replicate 4096 0
  let one : PipeInfo := { createPipe page with
    pipeBuff := page.set 0 65, bufferOffset := 1, writePos := 1 }
  let two : PipeInfo := { one with bufferOffset := 2, writePos := 2 }
  have hfirst : pipeWrite (some ⟨.write⟩) (some fun _ => 65) 1 (createPipe page) =
      some (.ok 1, one) := by
    simp [pipeWrite, createPipe, copyIn, store, u32, one]
  have hsecond : pipeWrite (some ⟨.write⟩) (some fun _ => 66) 1 one = some (.ok 1, two) := by
    simp [pipeWrite, createPipe, copyIn, u32, one, two]
  have hrun : PipeRun (fun _ _ => True) (createPipe page) [_, _] two :=
    .snoc (.snoc .nil ⟨by decide, trivial, .write hfirst⟩) ⟨by decide, trivial, .write hsecond⟩
  have hfifo := congrArg (·[1]?) (hclaim page _ _ hrun).1
  simp [PipeCall.delivered, PipeCall.written, PipeInfo.held, Memory.bytes, two, one, page] at hfifo

end CS330
