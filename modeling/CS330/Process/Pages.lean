import CS330.Process.Reading
import Mathlib.Data.Finset.Card

/-! # The bytes that `read_op` reads

`read_op` copies 24 bytes from `curr` before it knows whether there is a record, and moves `curr` on
at the end of the file, too. Every thread calls it once behind the end, so the last page has to have
room for as many copies as there are threads. -/

namespace CS330

/-- The first address behind the pages that are mapped. -/
def Mapping.pagesEnd (file : Mapping) : Nat := file.buff + (file.size + 4095) / 4096 * 4096

/-- What lies behind the file on its last page is zero. -/
def Mapping.ZeroTail (file : Mapping) : Prop :=
  ∀ a, file.endptr ≤ a → a < file.pagesEnd → file.mem a = 0

/-- The system, and the threads that have left the loop of `process`. -/
structure ReadPool where
  sys : ReadSystem
  exited : Finset (Fin THREADS)

/-- `read_op` has returned -1. -/
def ReadEvent.exits : ReadEvent → Bool
  | returned _ _ ret => ret = -1
  | _ => false

/-- A thread that has not left its loop takes a step, and leaves it when `read_op` returns -1. -/
inductive PoolStep (file : Mapping) (threads : Finset (Fin THREADS)) (s : ReadPool) :
    Fin THREADS × ReadEvent → ReadPool → Prop where
  | go {t : Fin THREADS} {event : ReadEvent} {sys : ReadSystem} (ht : t ∈ threads)
    (hexited : t ∉ s.exited) (h : Threads.StepOf (ReadStep file) s.sys (t, event) sys)
    (hevent : event.exits = false) : PoolStep file threads s (t, event) ⟨sys, s.exited⟩
  | exit {t : Fin THREADS} {event : ReadEvent} {sys : ReadSystem} (ht : t ∈ threads)
    (hexited : t ∉ s.exited) (h : Threads.StepOf (ReadStep file) s.sys (t, event) sys)
    (hevent : event.exits = true) : PoolStep file threads s (t, event) ⟨sys, insert t s.exited⟩

/-- Runs of `threads` on a file, each of which calls `read_op` until it returns -1. -/
def PoolRun (file : Mapping) (threads : Finset (Fin THREADS))
    (events : List (Fin THREADS × ReadEvent)) (s : ReadPool) : Prop :=
  ∃ ops, Trace (PoolStep file threads) ⟨ReadSystem.init file ops, ∅⟩ events s

/-- Thread `t` has not left its loop and stands in front of a call of `read_op`. -/
def ReadPool.CanCall (s : ReadPool) (t : Fin THREADS) : Prop :=
  t ∉ s.exited ∧ (s.sys.pc t).call = none

/-- The bytes that a call of `read_op` copies lie in the pages of the file. -/
def ReadPool.ReadsMapped (s : ReadPool) (file : Mapping) : Prop :=
  ∀ a, s.sys.shared.curr ≤ a → a < s.sys.shared.curr + (SIZEOF_OP - 8) →
    file.buff ≤ a ∧ a < file.pagesEnd

variable {file : Mapping} {recs : List Record} {threads : Finset (Fin THREADS)} {s s' : ReadPool}
  {t : Fin THREADS} {events : List (Fin THREADS × ReadEvent)} {event : ReadEvent} {k : Nat}

theorem Mapping.endptr_le_pagesEnd : file.endptr ≤ file.pagesEnd := by
  unfold Mapping.endptr Mapping.pagesEnd
  omega

theorem ReadPool.readsMapped_iff :
    s.ReadsMapped file ↔
      file.buff ≤ s.sys.shared.curr ∧ s.sys.shared.curr + 24 ≤ file.pagesEnd := by
  rw [ReadPool.ReadsMapped, show SIZEOF_OP - 8 = 24 from rfl]
  constructor
  · intro h
    have hfirst := h s.sys.shared.curr le_rfl (by omega)
    have hlast := h (s.sys.shared.curr + 23) (by omega) (by omega)
    omega
  · rintro ⟨hbuff, hend⟩ a ha ha'
    omega

theorem offset_of_le (hfile : file.HoldsRecords recs) (hk : recs.length ≤ k) :
    offset file recs k = file.endptr := by
  rw [← offset_length hfile, offset, offset, List.take_of_length_le hk, List.take_length]

/-! ## One step -/

/-- A step reads a record at `curr` and ends the loop of its thread if the record lies behind the
end of the file, or it leaves `curr` alone. -/
theorem ReadStep.reads {s : ReadSystem} {after : ReadInput × Reader}
    (h : ReadStep file s t event after) :
    after.1.curr = s.shared.curr ∧ after.1.calls = s.shared.calls ∧ event.exits = false ∨
      (s.pc t).call = none ∧ ∃ curr op,
        readRecord file s.shared.curr (s.pc t).op = some (curr, op) ∧ after.1.curr = curr ∧
        after.1.calls = s.shared.calls + 1 ∧ (event.exits ↔ file.endptr < curr) := by
  cases h with
  | abort | waitAgain | wake | doneOne => exact .inl ⟨rfl, rfl, rfl⟩
  | eof hidle hread hend => exact .inr ⟨hidle, _, _, hread, rfl, rfl, iff_of_true rfl hend⟩
  | wait hidle hread hend | enter hidle hread hend =>
    exact .inr ⟨hidle, _, _, hread, rfl, rfl, iff_of_false nofun (Nat.not_lt.2 hend)⟩

/-- A step of the system is one of a thread that is still in its loop. -/
theorem PoolStep.own (h : PoolStep file threads s (t, event) s') : t ∈ threads ∧ t ∉ s.exited ∧
    (∃ p, ReadStep file s.sys t event (s'.sys.shared, p)) ∧
      s'.exited = if event.exits then insert t s.exited else s.exited := by
  cases h with
  | go ht hexited h hevent =>
    cases h with
    | mk h => exact ⟨ht, hexited, ⟨_, h⟩, by simp [hevent]⟩
  | exit ht hexited h hevent =>
    cases h with
    | mk h => exact ⟨ht, hexited, ⟨_, h⟩, by simp [hevent]⟩

/-- `curr` has moved over a record in every call, or over 24 bytes when there was none. These calls
are those that have ended a loop. -/
structure PoolInv (file : Mapping) (recs : List Record) (threads : Finset (Fin THREADS))
    (s : ReadPool) : Prop where
  curr : s.sys.shared.curr = offset file recs s.sys.shared.calls + 24 * s.exited.card
  card : s.exited.card = s.sys.shared.calls - recs.length
  subset : s.exited ⊆ threads

namespace PoolInv

theorem init {ops : Fin THREADS → Operation} :
    PoolInv file recs threads ⟨ReadSystem.init file ops, ∅⟩ where
  curr := by simp [ReadSystem.init, offset]
  card := by simp [ReadSystem.init]
  subset := Finset.empty_subset _

/-- The threads that have not left their loops need room for one more copy each. -/
theorem card_lt (I : PoolInv file recs threads s) (ht : t ∈ threads) (hexited : t ∉ s.exited) :
    s.exited.card < threads.card :=
  Finset.card_lt_card ⟨I.subset, fun hsub => hexited (hsub ht)⟩

theorem readsMapped (I : PoolInv file recs threads s) (hfile : file.HoldsRecords recs)
    (hroom : file.endptr + 24 * threads.card ≤ file.pagesEnd) (ht : t ∈ threads)
    (hexited : t ∉ s.exited) : s.ReadsMapped file := by
  have hcard := I.card_lt ht hexited
  have hle : offset file recs s.sys.shared.calls ≤ file.endptr := offset_le_endptr hfile
  have hcurr := I.curr
  have hbuff : file.buff ≤ offset file recs s.sys.shared.calls := Nat.le_add_right ..
  exact ReadPool.readsMapped_iff.2 ⟨by omega, by omega⟩

/-- What a call reads: the next record, or zeros behind the end. -/
theorem read (I : PoolInv file recs threads s) (hfile : file.HoldsRecords recs)
    (hzero : file.ZeroTail) (hmapped : s.ReadsMapped file) (op : Operation) : ∃ curr op',
    readRecord file s.sys.shared.curr op = some (curr, op') ∧
    (s.sys.shared.calls < recs.length ∧ s.exited = ∅ ∧
        curr = offset file recs (s.sys.shared.calls + 1) ∨
      recs.length ≤ s.sys.shared.calls ∧ curr = s.sys.shared.curr + 24 ∧ file.endptr < curr) := by
  rcases Nat.lt_or_ge s.sys.shared.calls recs.length with hlt | hge
  · have hexited : s.exited = ∅ := Finset.card_eq_zero.1 (by rw [I.card]; omega)
    obtain ⟨r, hr⟩ : ∃ r, recs[s.sys.shared.calls]? = some r := ⟨_, List.getElem?_eq_getElem hlt⟩
    have hcurr : s.sys.shared.curr = offset file recs s.sys.shared.calls := by
      rw [I.curr, hexited]
      rfl
    rw [hcurr]
    exact ⟨_, _, readRecord_offset hfile hr, .inl ⟨hlt, hexited, rfl⟩⟩
  · have hcurr := I.curr
    rw [offset_of_le hfile hge] at hcurr
    have hend := (ReadPool.readsMapped_iff.1 hmapped).2
    refine ⟨_, _, readRecord_of_zero fun a ha ha' => hzero a ?_ ?_, .inr ⟨hge, rfl, ?_⟩⟩
    all_goals omega

theorem step (I : PoolInv file recs threads s) (hfile : file.HoldsRecords recs)
    (hzero : file.ZeroTail) (hroom : file.endptr + 24 * threads.card ≤ file.pagesEnd)
    (h : PoolStep file threads s (t, event) s') : PoolInv file recs threads s' := by
  obtain ⟨ht, hnot, ⟨p, h⟩, hexited⟩ := h.own
  have hcurr := I.curr
  have hcard := I.card
  rcases h.reads with ⟨hsame, hcalls, hgo⟩ | ⟨-, curr, op, hread, hnext, hcalls, hexits⟩
  · simp only [hgo, Bool.false_eq_true, if_false] at hexited
    exact ⟨by rw [hsame, hcalls, hexited, hcurr], by rw [hcalls, hexited, hcard],
      hexited ▸ I.subset⟩
  obtain ⟨curr', op', hread', hcases⟩ :=
    I.read hfile hzero (I.readsMapped hfile hroom ht hnot) (s.sys.pc t).op
  cases hread.symm.trans hread'
  rcases hcases with ⟨hlt, hempty, hoffset⟩ | ⟨hge, hpast, hend⟩
  · have hgo : ¬event.exits := by
      rw [hexits, hoffset]
      exact Nat.not_lt.2 (offset_le_endptr hfile)
    rw [if_neg hgo, hempty] at hexited
    refine ⟨?_, ?_, hexited ▸ Finset.empty_subset _⟩
    · rw [hnext, hcalls, hoffset, hexited]
      rfl
    · rw [hcalls, hexited, Finset.card_empty]
      omega
  · have hinsert := Finset.card_insert_of_notMem hnot
    rw [if_pos (hexits.2 hend)] at hexited
    rw [offset_of_le hfile hge] at hcurr
    refine ⟨?_, ?_, hexited ▸ Finset.insert_subset ht I.subset⟩
    · rw [hnext, hcalls, hexited, hinsert, offset_of_le hfile (hge.trans (Nat.le_succ _))]
      omega
    · rw [hcalls, hexited, hinsert]
      omega

end PoolInv

theorem PoolRun.inv (hfile : file.HoldsRecords recs) (hzero : file.ZeroTail)
    (hroom : file.endptr + 24 * threads.card ≤ file.pagesEnd)
    (run : PoolRun file threads events s) : PoolInv file recs threads s := by
  obtain ⟨ops, run⟩ := run
  exact run.invariant .init fun I h => I.step hfile hzero hroom h

/-! ## A run in which every thread gets to the end of the file -/

/-- No operation is in progress. -/
structure ReadPool.Quiet (s : ReadPool) : Prop where
  idle : ∀ t, (s.sys.pc t).call = none
  free : ∀ t, s.sys.shared.beingProcessed t = false

theorem ReadPool.Quiet.not_blocked (q : s.Quiet) (op : Operation) : ¬s.sys.Blocked t op := by
  rintro ⟨t', -, hbusy, -⟩
  rw [q.free t'] at hbusy
  cases hbusy

theorem PoolRun.snoc {e : Fin THREADS × ReadEvent} (run : PoolRun file threads events s)
    (h : PoolStep file threads s e s') : PoolRun file threads (events ++ [e]) s' := by
  obtain ⟨ops, run⟩ := run
  exact ⟨ops, run.snoc h⟩

/-- Every call of `read_op` by a thread that is still in its loop reads from the mapped pages. -/
def ReadsInPages (file : Mapping) (threads : Finset (Fin THREADS)) : Prop :=
  ∀ events s, PoolRun file threads events s → ∀ t ∈ threads, s.CanCall t → s.ReadsMapped file

/-- A thread carries out one operation. -/
theorem PoolRun.exists_next {r : Record} (hfile : file.HoldsRecords recs) (ht : t ∈ threads)
    (hr : recs[k]? = some r) (run : PoolRun file threads events s) (q : s.Quiet)
    (hexited : s.exited = ∅) (hcurr : s.sys.shared.curr = offset file recs k) :
    ∃ events s, PoolRun file threads events s ∧ s.Quiet ∧ s.exited = ∅ ∧
      s.sys.shared.curr = offset file recs (k + 1) := by
  have hnot : t ∉ s.exited := by simp [hexited]
  obtain ⟨op, hread⟩ : ∃ op, readRecord file s.sys.shared.curr (s.sys.pc t).op =
      some (offset file recs (k + 1), op) := by
    rw [hcurr]
    exact ⟨_, readRecord_offset hfile hr⟩
  have henter : PoolStep file threads s (t, .returned s.sys.shared.calls op 0)
      ⟨⟨_, _⟩, s.exited⟩ :=
    .go ht hnot (.mk (.enter (q.idle t) hread (offset_le_endptr hfile) (q.not_blocked _))) rfl
  have hdone := (run.snoc henter).snoc
    (.go ht hnot (.mk (.doneOne (by simp))) rfl)
  refine ⟨_, _, hdone, ⟨fun t' => ?_, fun t' => ?_⟩, hexited, rfl⟩
  · by_cases heq : t' = t
    · simp [heq]
    · simpa [heq] using q.idle t'
  · by_cases heq : t' = t
    · simp [heq]
    · simpa [heq, ReadInput.register] using q.free t'

theorem PoolRun.exists_read (hfile : file.HoldsRecords recs) (ht : t ∈ threads)
    (hk : k ≤ recs.length) : ∃ events s, PoolRun file threads events s ∧ s.Quiet ∧ s.exited = ∅ ∧
      s.sys.shared.curr = offset file recs k := by
  induction k with
  | zero =>
    exact ⟨[], _, ⟨fun _ => ⟨0, 0, .get, 0, 0⟩, .nil⟩, ⟨fun _ => rfl, fun _ => rfl⟩, rfl,
      by simp [ReadSystem.init, offset]⟩
  | succ k ih =>
    obtain ⟨events, s, run, q, hexited, hcurr⟩ := ih (Nat.le_of_succ_le hk)
    exact run.exists_next hfile ht (List.getElem?_eq_getElem hk) q hexited hcurr

/-- As long as everything that is read is mapped, the threads get to the end one by one. -/
theorem PoolRun.exists_exited (hfile : file.HoldsRecords recs) (hzero : file.ZeroTail)
    (hreads : ReadsInPages file threads) (ht : t ∈ threads) (hk : k ≤ threads.card) :
    ∃ events s, PoolRun file threads events s ∧ s.Quiet ∧ s.exited.card = k ∧
      s.sys.shared.curr = file.endptr + 24 * k := by
  induction k with
  | zero =>
    obtain ⟨events, s, run, q, hexited, hcurr⟩ := exists_read hfile ht le_rfl
    exact ⟨events, s, run, q, Finset.card_eq_zero.2 hexited, hcurr.trans (offset_length hfile)⟩
  | succ k ih =>
    obtain ⟨events, s, run, q, hcard, hcurr⟩ := ih (Nat.le_of_succ_le hk)
    obtain ⟨t', ht', hnot⟩ := Finset.exists_mem_notMem_of_card_lt_card (hcard.trans_lt hk)
    have hmapped := ReadPool.readsMapped_iff.1 (hreads events s run t' ht' ⟨hnot, q.idle t'⟩)
    have hread : readRecord file s.sys.shared.curr (s.sys.pc t').op =
        some (s.sys.shared.curr + 24, _) :=
      readRecord_of_zero fun a ha ha' => hzero a (by omega) (by omega)
    have heof : PoolStep file threads s (t', .returned s.sys.shared.calls _ (-1))
        ⟨⟨_, _⟩, insert t' s.exited⟩ :=
      .exit ht' hnot (.mk (.eof (q.idle t') hread (by omega))) rfl
    refine ⟨_, _, run.snoc heof, ⟨fun t => ?_, q.free⟩, ?_, ?_⟩
    · by_cases heq : t = t'
      · simp [heq]
      · simpa [heq] using q.idle t
    · rw [Finset.card_insert_of_notMem hnot, hcard]
    · change s.sys.shared.curr + 24 = _
      omega

/-! ## The last page -/

theorem ReadsInPages.fits (hfile : file.HoldsRecords recs) (hzero : file.ZeroTail)
    (hreads : ReadsInPages file threads) :
    file.endptr + 24 * threads.card ≤ file.pagesEnd := by
  rcases threads.eq_empty_or_nonempty with rfl | ⟨t, ht⟩
  · exact Mapping.endptr_le_pagesEnd
  · have hpos : 0 < threads.card := Finset.card_pos.2 ⟨t, ht⟩
    obtain ⟨events, s, run, q, hcard, hcurr⟩ :=
      PoolRun.exists_exited hfile hzero hreads ht (Nat.sub_le threads.card 1)
    obtain ⟨t', ht', hnot⟩ : ∃ t' ∈ threads, t' ∉ s.exited :=
      Finset.exists_mem_notMem_of_card_lt_card (by omega)
    have := (ReadPool.readsMapped_iff.1 (hreads events s run t' ht' ⟨hnot, q.idle t'⟩)).2
    omega

/-- All that is read is mapped exactly when the last page has room for 24 bytes for each thread
behind the end of the file. -/
theorem readsInPages_iff (hfile : file.HoldsRecords recs) (hzero : file.ZeroTail) :
    ReadsInPages file threads ↔ file.endptr + 24 * threads.card ≤ file.pagesEnd :=
  ⟨fun hreads => hreads.fits hfile hzero, fun hroom _ _ run _ ht hcall =>
    (run.inv hfile hzero hroom).readsMapped hfile hroom ht hcall.1⟩

theorem Mapping.ZeroPast.zeroTail (h : file.ZeroPast) : file.ZeroTail := fun a ha _ => h a ha

/-- Two threads on a file of one `GET`. -/
theorem readsInPages_of_get : ReadsInPages getFile {0, 1} :=
  (readsInPages_iff getFile_holds getFile_zero.zeroTail).2 (by decide)

/-- Data that fill a page together with the 24 bytes in front of them. -/
def fullData : List UInt8 := .replicate 4072 0

theorem fullData_length : fullData.length = 4072 := List.length_replicate

def fullPage : Record := .put 1 5 ⟨fullData, by rw [fullData_length]; norm_num⟩

theorem fullPage_length : ([fullPage].flatMap Record.encode).length = 4096 := by
  simp [fullPage, Record.encode, createPut, fullData_length]

/-- The call behind the only record of the file reads from the page behind it. -/
theorem not_readsInPages : ¬∀ {file : Mapping} {recs : List Record}
    {threads : Finset (Fin THREADS)}, recs ≠ [] → threads.Nonempty → file.HoldsRecords recs →
    file.ZeroTail → ReadsInPages file threads := by
  intro hclaim
  let file : Mapping := .ofBytes 4096 ([fullPage].flatMap Record.encode)
    (by rw [fullPage_length]; norm_num)
  have hfile : file.HoldsRecords [fullPage] := Mapping.ofBytes_holds
  have hzero : file.ZeroTail := Mapping.ofBytes_zeroPast.zeroTail
  have hreads : ReadsInPages file {0} :=
    hclaim (by simp) (Finset.singleton_nonempty 0) hfile hzero
  have hroom := hreads.fits hfile hzero
  have hsize : file.size = 4096 := fullPage_length
  simp [Mapping.endptr, Mapping.pagesEnd, hsize] at hroom

end CS330
