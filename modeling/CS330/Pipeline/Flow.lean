import CS330.Pipeline.Tee

/-! # The bytes on their way through `task2`

Every byte of the output of `grep` is in one place: read by the command, in the pipe to it, held by
the tee, in the pipe from `grep`, or not yet written (`Flow`). What the processes do to the bytes is
one of seven moves; everything else that they do leaves the bytes where they are. -/

namespace CS330

/-- What a reader that stops by itself takes of the bytes. -/
def consume (reads : List UInt8 → Bool) (seen : List UInt8) : List UInt8 → List UInt8
  | [] => seen
  | c :: rest => if reads seen then consume reads (seen ++ [c]) rest else seen

theorem prefix_consume (reads : List UInt8 → Bool) (seen rest : List UInt8) :
    seen <+: consume reads seen rest := by
  induction rest generalizing seen with
  | nil => exact List.prefix_refl _
  | cons c rest ih =>
    rw [consume]
    split
    next => exact (List.prefix_append ..).trans (ih _)
    next => exact List.prefix_refl _

/-- What the command takes of the output of `grep`. -/
def Tools.consumed (T : Tools) : List UInt8 := consume T.cmdReads [] T.grepOutput

structure Flow where
  seen : List UInt8
  out : List UInt8
  held : List UInt8
  into : List UInt8
  rest : List UInt8
  /-- What the tee has saved and is about to save, if it has a file. -/
  saved : Option (List UInt8)

namespace Flow

def pending (f : Flow) : List UInt8 := f.out ++ f.held ++ f.into ++ f.rest

/-- How many steps it takes at most to move the bytes on. -/
def cost (f : Flow) : Nat := 5 * f.rest.length + 4 * f.into.length + f.out.length

/-- No byte is lost, added or out of order. The bytes that are saved are bytes that are passed on, in
their order, with at most `n` of them missing. -/
structure Ok (T : Tools) (n : Nat) (f : Flow) : Prop where
  whole : f.seen ++ f.pending = T.grepOutput
  consumed : consume T.cmdReads f.seen f.pending = T.consumed
  saved : ∀ bytes, f.saved = some bytes → bytes.Sublist (f.seen ++ f.out)
  missing : ∀ bytes, f.saved = some bytes → (f.seen ++ f.out).length ≤ bytes.length + n

/-- What a step does to the bytes; `fails` says that it is a call of the tee that fails. -/
inductive Move (T : Tools) (fails : Prop) (f : Flow) : Flow → Prop where
  | still : Move T fails f f
  | grepWrite {c rest} (h : f.rest = c :: rest) :
    Move T fails f { f with rest := rest, into := f.into ++ [c] }
  | take {c into} (h : f.into = c :: into) (hheld : f.held = []) :
    Move T fails f { f with into := into, held := [c] }
  | pass {c} (h : f.held = [c]) :
    Move T fails f { f with held := [], out := f.out ++ [c], saved := f.saved.map (· ++ [c]) }
  | cmdRead {c out} (h : f.out = c :: out) (hreads : T.cmdReads f.seen = true) :
    Move T fails f { f with out := out, seen := f.seen ++ [c] }
  /-- The byte that was about to be saved is not. -/
  | lose {bytes c} (h : f.saved = some (bytes ++ [c])) (hfails : fails) :
    Move T fails f { f with saved := some bytes }
  | noFile : Move T fails f { f with saved := none }

variable {T : Tools} {fails : Prop} {n n' : Nat} {f f' : Flow}

/-- A call of the tee that fails may cost one more byte. -/
theorem Ok.move (h : f.Ok T n) (hmove : f.Move T fails f') (hn : n ≤ n') (hfails : fails → n < n') :
    f'.Ok T n' := by
  obtain ⟨hwhole, hconsumed, hsaved, hbefore⟩ := h
  have hmissing (bytes) (hbytes : f.saved = some bytes) :
      (f.seen ++ f.out).length ≤ bytes.length + n' :=
    (hbefore bytes hbytes).trans (Nat.add_le_add_left hn _)
  cases hmove with
  | still => exact ⟨hwhole, hconsumed, hsaved, hmissing⟩
  | grepWrite hrest =>
    refine ⟨?_, ?_, hsaved, hmissing⟩
    · simpa [pending, hrest] using hwhole
    · simpa [pending, hrest] using hconsumed
  | take hinto hheld =>
    refine ⟨?_, ?_, hsaved, hmissing⟩
    · simpa [pending, hinto, hheld] using hwhole
    · simpa [pending, hinto, hheld] using hconsumed
  | pass hheld =>
    refine ⟨?_, ?_, fun bytes hbytes => ?_, fun bytes hbytes => ?_⟩
    · simpa [pending, hheld] using hwhole
    · simpa [pending, hheld] using hconsumed
    · obtain ⟨old, hold, rfl⟩ := Option.map_eq_some_iff.1 hbytes
      rw [← List.append_assoc]
      exact (hsaved old hold).append (List.Sublist.refl _)
    · obtain ⟨old, hold, rfl⟩ := Option.map_eq_some_iff.1 hbytes
      have hold := hmissing old hold
      simp only [List.length_append, List.length_singleton] at hold ⊢
      omega
  | cmdRead hout hreads =>
    refine ⟨?_, ?_, fun bytes hbytes => ?_, fun bytes hbytes => ?_⟩
    · simpa [pending, hout] using hwhole
    · simpa [pending, hout, consume, hreads] using hconsumed
    · simpa [hout] using hsaved bytes hbytes
    · simpa [hout] using hmissing bytes hbytes
  | @lose bytes c hbytes hlost =>
    refine ⟨hwhole, hconsumed, ?_, ?_⟩
    · rintro _ ⟨⟩
      exact (List.sublist_append_left bytes [c]).trans (hsaved _ hbytes)
    · rintro _ ⟨⟩
      have hlt := hfails hlost
      have hold := hbefore _ hbytes
      rw [show (bytes ++ [c]).length = bytes.length + 1 from List.length_append] at hold
      change (f.seen ++ f.out).length ≤ _
      omega
  | noFile => exact ⟨hwhole, hconsumed, by simp, by simp⟩

/-- The bytes that are passed on are saved if none is missing. -/
theorem Ok.saved_eq (h : f.Ok T 0) {bytes : List UInt8} (hbytes : f.saved = some bytes) :
    bytes = f.seen ++ f.out :=
  (h.saved bytes hbytes).eq_of_length_le (h.missing bytes hbytes)

/-- A command that does not read on has all that it takes. -/
theorem Ok.seen_of_not_reads (h : f.Ok T n) (hreads : T.cmdReads f.seen = false) :
    f.seen = T.consumed := by
  rw [← h.consumed]
  cases f.pending <;> simp [consume, hreads]

theorem Ok.seen_of_pending (h : f.Ok T n) (hnil : f.pending = []) : f.seen = T.consumed := by
  rw [← h.consumed, hnil, consume]

/-- What is passed on is a first part of the output. -/
theorem Ok.passed_prefix (h : f.Ok T n) : f.seen ++ f.out <+: T.grepOutput :=
  ⟨f.held ++ f.into ++ f.rest, by rw [← h.whole, pending]; simp⟩

end Flow

/-! ## Where the bytes are -/

namespace Task2Pc

/-- What the command has read. -/
def seen : Task2Pc → List UInt8
  | cmd (.run seen) | cmd (.ended seen) => seen
  | _ => []

/-- The byte that the tee has read and not passed on. -/
def held : Task2Pc → List UInt8
  | tee (.writeOut _ c) => [c]
  | _ => []

/-- What `grep` has still to write. -/
def rest (T : Tools) : Task2Pc → List UInt8
  | grep (.run rest) => rest
  | _ => T.grepOutput

/-- What the tee has saved, with the byte that it has passed on and is about to save; `content` is
what is in its file. -/
def saved (content : List UInt8) : Task2Pc → Option (List UInt8)
  | tee (.writeFile fptr c) => if 0 ≤ fptr then some (content ++ [c]) else none
  | tee (.read fptr) | tee (.writeOut fptr _) | tee (.closeFile fptr) | tee (.ended fptr) =>
    if 0 ≤ fptr then some content else none
  | _ => some []

/-- How many steps the process takes at most, the passing of the bytes apart. -/
def weight : Task2Pc → Nat
  | cmd .pipe => 23
  | cmd (.fork _) => 22
  | cmd (.setup calls) => calls.length + 3
  | cmd (.run _) => 2
  | tee (.pipe _) => 15
  | tee (.fork _ _) => 14
  | tee (.setup calls) => calls.length + 4
  | tee (.read _) => 3
  | tee (.writeOut _ _) => 6
  | tee (.writeFile _ _) => 4
  | tee (.closeFile _) => 2
  | grep (.setup calls) => calls.length + 2
  | cmd (.ended _) | cmd (.exit _) | tee (.ended _) | tee (.exit _) | grep (.run _)
  | grep (.exit _) => 1

end Task2Pc

namespace Os

variable (T : Tools) (o : Os OutFile Task2Pc)

def flow : Flow where
  seen := o.look 0 Task2Pc.seen []
  out := o.pipe 0
  held := o.look 1 Task2Pc.held []
  into := o.pipe 1
  rest := o.look 2 (Task2Pc.rest T) T.grepOutput
  saved := o.look 1 (Task2Pc.saved (o.file .tee)) (some [])

/-- How many steps there are at most. -/
def potential : Nat := (o.flow T).cost + o.total 3 Task2Pc.weight

end Os

/-! ## The steps -/

section
variable {T : Tools} {cap : Nat} {t : Fds OutFile} {o o' : Os OutFile Task2Pc} {pid : Nat}
  {s s' : Task2Pc} {u : Fds OutFile} {call : Nat × CallEnd} {fails : Prop}

namespace Task2Pc

/-- The bytes are where they were. -/
def SameBytes (T : Tools) (s s' : Task2Pc) : Prop :=
  s'.seen = s.seen ∧ s'.held = s.held ∧ s'.rest T = s.rest T ∧
    ∀ content, s'.saved content = s.saved content

theorem Calls.sameBytes {c : TableCall} (h : s.Calls c s') : s.SameBytes T s' := by
  cases h <;> exact ⟨rfl, rfl, rfl, fun _ => rfl⟩

theorem Execs.sameBytes (h : s.Execs T s') : s.SameBytes T s' := by
  cases h <;> exact ⟨rfl, rfl, rfl, fun _ => rfl⟩

theorem Calls.weight_lt {c : TableCall} (h : s.Calls c s') : s'.weight < s.weight := by
  cases h <;> simp [weight]

theorem Execs.weight_lt (h : s.Execs T s') : s'.weight < s.weight := by
  cases h <;> simp [weight]

theorem Fails.weight_lt (h : s.Fails s') : s'.weight < s.weight := by
  cases h <;> simp [weight]

theorem weight_pos : 0 < s.weight := by
  rcases s with (_ | _ | _ | _ | _ | _) | (_ | _ | _ | _ | _ | _ | _ | _ | _) | (_ | _ | _) <;>
    simp [weight]

end Task2Pc

namespace Os

/-- A process goes on and the bytes stay where they are. -/
theorem flow_eq {st : Status Task2Pc} (hs : o.status pid = .running s) (hm : o.Moves o' pid st u)
    (hst : st.state = some s') (hsame : s.SameBytes T s') (hpipe : o'.pipe = o.pipe)
    (hfile : o'.file = o.file) : o'.flow T = o.flow T := by
  simp only [flow, hpipe, hfile]
  rw [hm.look_eq hs hst hsame.1, hm.look_eq hs hst hsame.2.1, hm.look_eq hs hst hsame.2.2.1,
    hm.look_eq hs hst (hsame.2.2.2 _)]

end Os

namespace Task2Inv

theorem pid_lt_three (I : Task2Inv t o) (hs : o.status pid = .running s) : pid < 3 := by
  rw [← I.family.role (Os.at?_of_running hs)]
  cases s <;> simp [Task2Pc.role]

theorem moved (I : Task2Inv t o) (s' : Task2Pc) (hs : o.status pid = .running s)
    (hm : o.Moves o' pid (.running s') u) {f : Flow} (hflow : o'.flow T = f)
    (hmove : (o.flow T).Move T fails f) (hlt : f.cost + s'.weight < (o.flow T).cost + s.weight) :
    (o.flow T).Move T fails (o'.flow T) ∧ o'.potential T < o.potential T := by
  have hweights := hm.total_add (f := Task2Pc.weight) hs (I.pid_lt_three hs)
  rw [Os.tally_of_running hm.status_self] at hweights
  refine ⟨hflow ▸ hmove, ?_⟩
  rw [Os.potential, Os.potential, hflow]
  omega

/-- The bytes stay where they are, and the process comes nearer to its end. -/
theorem still (I : Task2Inv t o) (s' : Task2Pc) (hs : o.status pid = .running s)
    (hsame : s.SameBytes T s') (hlt : s'.weight < s.weight) (hm : o.Moves o' pid (.running s') u)
    (hpipe : o'.pipe = o.pipe) (hfile : o'.file = o.file) :
    (o.flow T).Move T fails (o'.flow T) ∧ o'.potential T < o.potential T :=
  I.moved s' hs hm (Os.flow_eq hs hm rfl hsame hpipe hfile) .still
    (Nat.add_lt_add_left hlt _)

/-- There is one more process. -/
theorem forked (hflow : o'.flow T = o.flow T)
    (hlt : o'.total 3 Task2Pc.weight < o.total 3 Task2Pc.weight) :
    (o.flow T).Move T fails (o'.flow T) ∧ o'.potential T < o.potential T := by
  refine ⟨hflow ▸ .still, ?_⟩
  rw [Os.potential, Os.potential, hflow]
  exact Nat.add_lt_add_left hlt _

theorem flow_fail (I : Task2Inv t o) (hs : o.status pid = .running s) (h : s.Fails s') :
    (o.flow T).Move T (pid = 1) ((o.goto pid s').flow T) ∧
      (o.goto pid s').potential T < o.potential T := by
  have hm : o.Moves (o.goto pid s') pid (.running s') (o.fds pid) := Os.moves_goto rfl rfl rfl
  have hrole := I.family.role (Os.at?_of_running hs)
  have hlt := h.weight_lt
  cases h with
  | openFile =>
    -- without a file the tee saves nothing
    change 1 = pid at hrole
    subst hrole
    refine I.moved _ hs hm (f := { o.flow T with saved := none }) ?_ .noFile (Nat.lt_succ_self _)
    simp [Os.flow, Os.look_of_running hs, Task2Pc.held, Task2Pc.saved]
  | @writeFile fptr c =>
    change 1 = pid at hrole
    subst hrole
    by_cases hfptr : 0 ≤ fptr
    · refine I.moved _ hs hm (f := { o.flow T with saved := some (o.file .tee) }) ?_
        (.lose (c := c) ?_ rfl) (Nat.lt_succ_self _)
      · simp [Os.flow, Os.look_of_running hs, Task2Pc.held, Task2Pc.saved, hfptr]
      · simp [Os.flow, Os.look_of_running hs, Task2Pc.saved, hfptr]
    · refine I.still _ hs ?_ hlt hm rfl rfl
      exact ⟨rfl, rfl, rfl, fun content => by simp [Task2Pc.saved, hfptr]⟩
  | cmdPipe | cmdFork | cmdExec | teePipe | teeFork | grepExec =>
    refine I.still _ hs ?_ hlt hm rfl rfl
    exact ⟨rfl, rfl, rfl, fun _ => rfl⟩

theorem flow_exit (I : Task2Inv t o) (hs : o.status pid = .running s) :
    (o.flow T).Move T fails ((o.finish pid (.exited s)).flow T) ∧
      (o.finish pid (.exited s)).potential T < o.potential T := by
  have hm : o.Moves (o.finish pid (.exited s)) pid (.exited s) fun _ => none := ⟨rfl, rfl, rfl⟩
  have hflow : (o.finish pid (.exited s)).flow T = o.flow T :=
    Os.flow_eq hs hm rfl ⟨rfl, rfl, rfl, fun _ => rfl⟩ rfl rfl
  have hweights := hm.total_add (f := Task2Pc.weight) hs (I.pid_lt_three hs)
  have hpos := Task2Pc.weight_pos (s := s)
  rw [Os.tally_finish_self (by simp)] at hweights
  refine ⟨hflow ▸ .still, ?_⟩
  rw [Os.potential, Os.potential, hflow]
  omega

/-- What each step does to the bytes, and that there are only so many steps. -/
theorem flow_step (I : Task2Inv t o) (h : Task2Case T cap t o call o') :
    (o.flow T).Move T (call = (1, .failed)) (o'.flow T) ∧ o'.potential T < o.potential T := by
  cases h with
  | call hs h => exact I.still _ hs h.sameBytes h.weight_lt ⟨rfl, rfl, rfl⟩ rfl rfl
  | exec hs h => exact I.still _ hs h.sameBytes h.weight_lt (Os.moves_goto rfl rfl rfl) rfl rfl
  | @fail pid s s' hs h =>
    rw [show ((pid, CallEnd.failed) = (1, CallEnd.failed)) = (pid = 1) by simp]
    exact I.flow_fail hs h
  | exit hs => exact I.flow_exit hs
  | @cmdPipe fd hs =>
    exact I.still (.cmd (.fork fd)) hs ⟨rfl, rfl, rfl, fun _ => rfl⟩ (Nat.lt_succ_self _)
      ⟨rfl, rfl, rfl⟩ rfl rfl
  | @teePipe fd fd1 hs =>
    exact I.still (.tee (.fork fd fd1)) hs ⟨rfl, rfl, rfl, fun _ => rfl⟩ (Nat.lt_succ_self _)
      ⟨rfl, rfl, rfl⟩ rfl rfl
  | @teeEof fptr hs =>
    exact I.still (.tee (.closeFile fptr)) hs ⟨rfl, rfl, rfl, fun _ => rfl⟩ (Nat.lt_succ_self _)
      (Os.moves_goto rfl rfl rfl) rfl rfl
  | @cmdEof seen hs =>
    exact I.still (.cmd (.ended seen)) hs ⟨rfl, rfl, rfl, fun _ => rfl⟩ (Nat.lt_succ_self _)
      (Os.moves_goto rfl rfl rfl) rfl rfl
  | @cmdFork fd hs hnext hpid =>
    have h1 := I.family.absent hpid.le
    refine forked ?_ ?_
    · simp [Os.flow, Os.look_of_running hs, Os.look_of_absent h1, hpid, Task2Pc.seen, Task2Pc.held,
        Task2Pc.saved]
    · simp [Os.total, Finset.sum_range_succ, Os.tally_of_running hs, Os.tally_of_absent h1, hpid,
        Task2Pc.weight]
  | @teeFork fd fd1 hs hpid =>
    have h2 := I.family.absent hpid.le
    refine forked ?_ ?_
    · simp [Os.flow, Os.look_of_running hs, Os.look_of_absent h2, hpid, Task2Pc.rest, Task2Pc.held,
        Task2Pc.saved]
    · simp [Os.total, Finset.sum_range_succ, Os.tally_of_running hs, Os.tally_of_absent h2, hpid,
        Task2Pc.weight]
  | @openFile fd fptr hs hfd hfree =>
    have hsaved : 0 ≤ fptr := hfree.1
    refine I.moved (.tee (.read fptr)) hs ⟨rfl, rfl, rfl⟩ (f := o.flow T) ?_ .still
      (Nat.lt_succ_self _)
    simp [Os.flow, Os.look_of_running hs, Task2Pc.held, Task2Pc.saved, hsaved]
  | @grepWrite c rest hs hroom =>
    have hrest : (o.flow T).rest = c :: rest := Os.look_of_running hs
    refine I.moved (.grep (.run rest)) hs (Os.moves_goto rfl rfl rfl) ?_ (.grepWrite hrest) ?_
    · simp [Os.flow, Task2Pc.rest]
    · simp only [Flow.cost, hrest, List.length_cons, List.length_append, List.length_nil,
        Task2Pc.weight]
      omega
  | @teeRead fptr c into hs hpipe =>
    have hheld : (o.flow T).held = [] := Os.look_of_running hs
    refine I.moved (.tee (.writeOut fptr c)) hs (Os.moves_goto rfl rfl rfl) ?_ (.take hpipe hheld) ?_
    · simp [Os.flow, Os.look_of_running hs, Task2Pc.held, Task2Pc.saved]
    · simp only [Flow.cost, show (o.flow T).into = c :: into from hpipe, List.length_cons,
        Task2Pc.weight]
      omega
  | @pass fptr c hs hroom =>
    have hheld : (o.flow T).held = [c] := Os.look_of_running hs
    refine I.moved (.tee (.writeFile fptr c)) hs (Os.moves_goto rfl rfl rfl) ?_ (.pass hheld) ?_
    · simp [Os.flow, Os.look_of_running hs, Task2Pc.held, Task2Pc.saved]
    · simp only [Flow.cost, List.length_append, List.length_singleton, Task2Pc.weight]
      omega
  | @save fptr c hs hfptr =>
    refine I.moved (.tee (.read fptr)) hs (Os.moves_goto rfl rfl rfl) (f := o.flow T) ?_ .still
      (Nat.lt_succ_self _)
    simp [Os.flow, Os.look_of_running hs, Task2Pc.held, Task2Pc.saved, hfptr]
  | @cmdRead seen c out hs hreads hpipe =>
    have hseen : (o.flow T).seen = seen := Os.look_of_running hs
    refine I.moved (.cmd (.run (seen ++ [c]))) hs (Os.moves_goto rfl rfl rfl) ?_
      (.cmdRead hpipe (hseen ▸ hreads)) ?_
    · simp [Os.flow, Os.look_of_running hs, Task2Pc.seen]
    · simp only [Flow.cost, show (o.flow T).out = c :: out from hpipe, List.length_cons,
        Task2Pc.weight]
      omega

theorem boot (t : Fds OutFile) (file : OutFile → List UInt8) :
    Task2Inv t (Os.boot (.cmd .pipe) t file) := by
  have hfamily : Family (Task2Pc.Table t) Task2Pc.role (Os.boot (.cmd .pipe) t file) :=
    .boot rfl rfl
  refine ⟨hfamily, fun {pid s} h => ?_, fun _ => rfl, fun ⟨s, h⟩ => ?_, fun {pid s} h => ?_,
    Nat.zero_lt_one⟩
  · by_cases hpid : pid = 0
    · cases hpid
      cases h
      exact ⟨rfl, rfl⟩
    · simp [Os.at?, Os.boot, hpid, Status.state] at h
  · simp [Os.boot] at h
  · by_cases hpid : pid = 0 <;> simp [Os.boot, hpid] at h

end Task2Inv

theorem Os.flow_boot (T : Tools) (t : Fds OutFile) (file : OutFile → List UInt8) :
    (Os.boot (.cmd .pipe) t file).flow T = ⟨[], [], [], [], T.grepOutput, some []⟩ := by
  simp [Os.flow, Os.look, Os.at?, Os.boot, Status.state, Task2Pc.seen]

/-- In every run the three processes keep what they know of each other, no byte is lost or out of
order but one in the file for each failing call of the tee, and each step takes one from the
potential. -/
theorem Task2Run.history {file : OutFile → List UInt8} {calls : List (Nat × CallEnd)}
    (h : Task2Run T cap t file calls o) (ht : StdTable t) :
    Task2Inv t o ∧ (o.flow T).Ok T (calls.count (1, .failed)) ∧
      calls.length + o.potential T ≤ 5 * T.grepOutput.length + 23 := by
  refine Trace.history (I := fun calls o => Task2Inv t o ∧
    (o.flow T).Ok T (calls.count (1, .failed)) ∧
      calls.length + o.potential T ≤ 5 * T.grepOutput.length + 23) h ⟨.boot t file, ?_, ?_⟩ ?_
  · rw [Os.flow_boot]
    exact ⟨by simp [Flow.pending], by simp [Flow.pending, Tools.consumed], by simp, by simp⟩
  · rw [Os.potential, Os.flow_boot]
    simp [Flow.cost, Os.total, Finset.sum_range_succ, Os.tally, Os.boot, Task2Pc.weight]
  · rintro calls o call o' ⟨I, hok, hlength⟩ hstep
    have hcase := I.step_cases ht hstep
    obtain ⟨hmove, hlt⟩ := I.flow_step hcase
    refine ⟨I.step ht hcase, hok.move hmove ?_ ?_, ?_⟩
    · exact (List.sublist_append_left calls [call]).count_le _
    · rintro rfl
      simp
    rw [List.length_append, List.length_singleton]
    omega

end

end CS330
