import CS330.Pipeline.Flow

/-! # How `task2` ends

Runs in which no call fails. `grep` and the tee come to their ends when the bytes do, unless the
command stops reading with more left than the pipe to it has room for: the tee has kept the read end
of that pipe, so it is not killed but waits for itself. -/

namespace CS330

/-- The tee has read the end of its input. -/
def TeePc.AtEof : TeePc → Prop
  | closeFile _ | ended _ => True
  | _ => False

namespace Task2Pc

/-- No call has failed. -/
def Clean : Task2Pc → Prop
  | cmd (.exit _) | tee (.exit _) | grep (.exit _) => False
  | tee (.read fptr) | tee (.writeOut fptr _) | tee (.writeFile fptr _) | tee (.closeFile fptr)
  | tee (.ended fptr) => 0 ≤ fptr
  | _ => True

end Task2Pc

open Task2Pc

/-- What every run keeps in which no call fails. -/
structure Task2Clean (T : Tools) (o : Os OutFile Task2Pc) : Prop where
  clean : ∀ {pid s}, o.at? pid = some s → s.Clean
  exited : ∀ {pid s}, o.status pid = .exited s → s.Exits T
  cmdEof : ∀ {seen}, o.at? 0 = some (.cmd (.ended seen)) →
    ¬o.Running 1 ∧ ¬o.Running 2 ∧ o.pipe 0 = []
  teeEof : ∀ {pc : TeePc}, o.at? 1 = some (.tee pc) → pc.AtEof → ¬o.Running 2 ∧ o.pipe 1 = []

section
variable {T : Tools} {cap : Nat} {t : Fds OutFile} {o o' : Os OutFile Task2Pc} {pid : Nat}
  {s s' : Task2Pc} {u : Fds OutFile}

namespace Task2Inv

theorem grepTable_snd (ht : StdTable t) {fd : Int × Int} (hfd : t.NewPipe fd) :
    grepTable t fd fd.2 = some (.writeEnd 0) := by
  rw [grepTable, Function.update_of_ne (hfd.ne ht.stdout_ne).2.symm, Fds.withPipe_snd]

/-- The pipe to the command can be written to as long as the tee or `grep` runs. -/
theorem held_out (I : Task2Inv t o) (ht : StdTable t) (hs : o.status pid = .running s)
    (hclean : s.Clean) (hpid : pid ≠ 0) : o.Held (.writeEnd 0) := by
  have htab := I.family.table hs
  have hrole := I.family.role (Os.at?_of_running hs)
  cases s with
  | cmd pc => exact (hpid hrole.symm).elim
  | tee pc =>
    cases pc with
    | pipe fd => exact ⟨pid, fd.2, by rw [htab.2, Fds.withPipe_snd]⟩
    | fork fd fd1 =>
      obtain ⟨hfd, hfd1, htab⟩ := htab
      have hne := (hfd.ne_std ht hfd1).2.2.2
      exact ⟨pid, fd.2, by rw [htab, Fds.withPipe_apply, if_neg hne.2, if_neg hne.1, Fds.withPipe_snd]⟩
    | setup calls =>
      obtain ⟨fd, -, htab⟩ := htab
      obtain ⟨d, hd⟩ := TableCall.exists_of_foldl (htab ▸ teeTable_one)
      exact ⟨pid, d, hd⟩
    | read | writeOut | writeFile | closeFile =>
      obtain ⟨fd, -, hfptr, htab⟩ := htab
      exact ⟨pid, 1, htab ▸ teeFileTable_one hfptr⟩
    | ended => exact ⟨pid, 1, htab⟩
    | exit => exact hclean.elim
  | grep pc =>
    cases pc with
    | setup calls =>
      obtain ⟨fd, hfd, htab⟩ := htab
      obtain ⟨d, hd⟩ := TableCall.exists_of_foldl (htab ▸ grepTable_snd ht hfd)
      exact ⟨pid, d, hd⟩
    | run | exit =>
      obtain ⟨fd, hfd, htab⟩ := htab
      exact ⟨pid, fd.2, htab ▸ grepTable_snd ht hfd⟩

end Task2Inv

namespace Task2Clean

theorem move (C : Task2Clean T o) (I : Task2Inv t o) (s' : Task2Pc) (hs : o.status pid = .running s)
    (hm : o.Moves o' pid (.running s') u) (hclean : s.Clean → s'.Clean)
    (hcmd : ∀ seen, s' = .cmd (.ended seen) → ¬o.Running 1 ∧ ¬o.Running 2 ∧ o'.pipe 0 = [])
    (htee : ∀ pc : TeePc, s' = .tee pc → pc.AtEof → ¬o.Running 2 ∧ o'.pipe 1 = [])
    (hpipe : pid = 0 → o'.pipe 1 = o.pipe 1) : Task2Clean T o' where
  clean {q s₁} hq := by
    by_cases hpid : q = pid
    · subst hpid
      rw [hm.at?_self] at hq
      cases hq
      exact hclean (C.clean (Os.at?_of_running hs))
    · rw [hm.at?_of_ne hpid] at hq
      exact C.clean hq
  exited {q s₁} hq := by
    by_cases hpid : q = pid
    · subst hpid
      rw [hm.status_self] at hq
      cases hq
    · rw [hm.status_of_ne hpid] at hq
      exact C.exited hq
  cmdEof {seen} h := by
    by_cases hpid : 0 = pid
    · subst hpid
      rw [hm.at?_self] at h
      obtain ⟨h1, h2, hnil⟩ := hcmd seen (Option.some.inj h)
      exact ⟨fun h => h1 ((hm.running_of_ne (by decide)).1 h),
        fun h => h2 ((hm.running_of_ne (by decide)).1 h), hnil⟩
    · -- nobody but the command runs then
      rw [hm.at?_of_ne hpid] at h
      obtain ⟨h1, h2, -⟩ := C.cmdEof h
      have hrole := I.family.role (Os.at?_of_running hs)
      cases s with
      | cmd pc => exact (hpid hrole).elim
      | tee pc => exact (h1 ⟨_, hrole ▸ hs⟩).elim
      | grep pc => exact (h2 ⟨_, hrole ▸ hs⟩).elim
  teeEof {pc} h hpc := by
    by_cases hpid : 1 = pid
    · subst hpid
      rw [hm.at?_self] at h
      obtain ⟨h2, hnil⟩ := htee pc (Option.some.inj h) hpc
      exact ⟨fun h => h2 ((hm.running_of_ne (by decide)).1 h), hnil⟩
    · rw [hm.at?_of_ne hpid] at h
      obtain ⟨h2, hnil⟩ := C.teeEof h hpc
      have hrole := I.family.role (Os.at?_of_running hs)
      cases s with
      | cmd pc =>
        change 0 = pid at hrole
        subst hrole
        exact ⟨fun h => h2 ((hm.running_of_ne (by decide)).1 h), (hpipe rfl).trans hnil⟩
      | tee pc => exact (hpid hrole).elim
      | grep pc => exact (h2 ⟨_, hrole ▸ hs⟩).elim

theorem exit (C : Task2Clean T o) (hs : o.status pid = .running s) (h : s.Exits T) :
    Task2Clean T (o.finish pid (.exited s)) := by
  have hat (q : Nat) : (o.finish pid (.exited s)).at? q = o.at? q := by
    by_cases hq : q = pid
    · simp [Os.at?, Os.finish, hq, hs, Status.state]
    · simp [Os.at?, Os.finish, hq]
  have hrun {q : Nat} (hq : ¬o.Running q) : ¬(o.finish pid (.exited s)).Running q := by
    rintro ⟨s₁, hs₁⟩
    by_cases hpid : q = pid
    · simp [Os.finish, hpid] at hs₁
    · exact hq ⟨s₁, by simpa [Os.finish, hpid] using hs₁⟩
  refine ⟨fun {q s₁} hq => C.clean ((hat q).symm.trans hq), fun {q s₁} hq => ?_, fun {seen} hq => ?_,
    fun {pc} hq hpc => ?_⟩
  · by_cases hpid : q = pid
    · simp only [Os.finish, hpid, Function.update_self, Status.exited.injEq] at hq
      rwa [← hq]
    · exact C.exited (by simpa [Os.finish, hpid] using hq)
  · obtain ⟨h1, h2, hnil⟩ := C.cmdEof ((hat 0).symm.trans hq)
    exact ⟨hrun h1, hrun h2, hnil⟩
  · obtain ⟨h2, hnil⟩ := C.teeEof ((hat 1).symm.trans hq) hpc
    exact ⟨hrun h2, hnil⟩

/-- A process makes another one; neither has read the end of its input, nor has the command. -/
theorem fork (C : Task2Clean T o) {parent child : Task2Pc} (hnext : pid < o.nextPid)
    (hparent : parent.Clean) (hchild : child.Clean)
    (hcmd : ∀ seen, ((o.spawn pid child).goto pid parent).at? 0 ≠ some (.cmd (.ended seen)))
    (htee : ∀ pc : TeePc, ((o.spawn pid child).goto pid parent).at? 1 = some (.tee pc) →
      ¬pc.AtEof) : Task2Clean T ((o.spawn pid child).goto pid parent) := by
  refine ⟨fun {q s₁} hq => ?_, fun {q s₁} hq => ?_, fun hq => (hcmd _ hq).elim,
    fun hq hpc => (htee _ hq hpc).elim⟩
  · by_cases hpid : q = pid
    · simp only [Os.at?, Os.goto, hpid, Function.update_self, Status.state, Option.some.injEq] at hq
      rwa [← hq]
    · by_cases hnew : q = o.nextPid
      · simp only [Os.at?, Os.goto, Os.spawn, hnew, Function.update_of_ne hnext.ne',
          Function.update_self, Status.state, Option.some.injEq] at hq
        rwa [← hq]
      · exact C.clean (by simpa [Os.at?, Os.goto, Os.spawn, hpid, hnew] using hq)
  · by_cases hpid : q = pid
    · simp [Os.goto, hpid] at hq
    · by_cases hnew : q = o.nextPid
      · simp [Os.goto, Os.spawn, hnew, hnext.ne'] at hq
      · exact C.exited (by simpa [Os.goto, Os.spawn, hpid, hnew] using hq)

theorem step (C : Task2Clean T o) (I : Task2Inv t o) (ht : StdTable t) {call : Nat × CallEnd}
    (hok : call.2 ≠ .failed) (h : Task2Case T cap t o call o') : Task2Clean T o' := by
  cases h with
  | fail => exact (hok rfl).elim
  | exit hs h => exact C.exit hs h
  | call hs h =>
    cases h with
    | cmd | tee | grep =>
      exact C.move I _ hs ⟨rfl, rfl, rfl⟩ (fun _ => trivial) (by simp) (by simp [TeePc.AtEof])
        fun _ => rfl
    | @close fptr =>
      have hrole := I.family.role (Os.at?_of_running hs)
      change 1 = _ at hrole
      subst hrole
      exact C.move I (.tee (.ended fptr)) hs ⟨rfl, rfl, rfl⟩ id (by simp)
        (fun _ _ _ => C.teeEof (Os.at?_of_running hs) trivial) fun _ => rfl
  | exec hs h =>
    cases h <;> exact C.move I _ hs (Os.moves_goto rfl rfl rfl) (fun _ => trivial) (by simp) (by simp)
      fun _ => rfl
  | @cmdPipe fd hs =>
    exact C.move I (.cmd (.fork fd)) hs ⟨rfl, rfl, rfl⟩ (fun _ => trivial) (by simp) (by simp)
      fun _ => rfl
  | cmdFork hs hnext hpid =>
    refine C.fork (hpid ▸ Nat.zero_lt_one) trivial trivial (by simp [Os.at?, Status.state]) ?_
    simp [Os.at?, Os.goto, Os.spawn, hpid, Status.state, TeePc.AtEof]
  | @teePipe fd fd1 hs =>
    exact C.move I (.tee (.fork fd fd1)) hs ⟨rfl, rfl, rfl⟩ (fun _ => trivial) (by simp)
      (by simp [TeePc.AtEof]) fun _ => rfl
  | teeFork hs hpid =>
    refine C.fork (hpid ▸ Nat.one_lt_two) trivial trivial (fun seen h => ?_) ?_
    · have hat : o.at? 0 = some (.cmd (.ended seen)) := by
        simpa [Os.at?, Os.goto, Os.spawn, hpid] using h
      exact (C.cmdEof hat).1 ⟨_, hs⟩
    · simp [Os.at?, Status.state, TeePc.AtEof]
  | @openFile fd fptr hs hfd hfree =>
    exact C.move I (.tee (.read fptr)) hs ⟨rfl, rfl, rfl⟩ (fun _ => hfree.1) (by simp)
      (by simp [TeePc.AtEof]) fun _ => rfl
  | @grepWrite c rest hs hroom =>
    exact C.move I (.grep (.run rest)) hs (Os.moves_goto rfl rfl rfl) (fun _ => trivial) (by simp)
      (by simp) (by simp)
  | @teeRead fptr c into hs hpipe =>
    exact C.move I (.tee (.writeOut fptr c)) hs (Os.moves_goto rfl rfl rfl) id (by simp)
      (by simp [TeePc.AtEof]) (by simp)
  | @teeEof fptr hs hpipe hgrep =>
    exact C.move I (.tee (.closeFile fptr)) hs (Os.moves_goto rfl rfl rfl) id (by simp)
      (fun _ _ _ => ⟨hgrep, hpipe⟩) fun _ => rfl
  | @pass fptr c hs hroom =>
    exact C.move I (.tee (.writeFile fptr c)) hs (Os.moves_goto rfl rfl rfl) id (by simp)
      (by simp [TeePc.AtEof]) (by simp)
  | @save fptr c hs hfptr =>
    exact C.move I (.tee (.read fptr)) hs (Os.moves_goto rfl rfl rfl) id (by simp)
      (by simp [TeePc.AtEof]) fun _ => rfl
  | @cmdRead seen c out hs hreads hpipe =>
    exact C.move I (.cmd (.run (seen ++ [c]))) hs (Os.moves_goto rfl rfl rfl) id (by simp) (by simp)
      (by simp)
  | @cmdEof seen hs hreads hpipe hnone =>
    refine C.move I (.cmd (.ended seen)) hs (Os.moves_goto rfl rfl rfl) id (fun _ _ => ⟨?_, ?_, hpipe⟩)
      (by simp) fun _ => rfl
    · rintro ⟨s₁, hs₁⟩
      exact hnone (I.held_out ht hs₁ (C.clean (Os.at?_of_running hs₁)) (by decide))
    · rintro ⟨s₁, hs₁⟩
      exact hnone (I.held_out ht hs₁ (C.clean (Os.at?_of_running hs₁)) (by decide))

end Task2Clean

/-! ## Nothing can happen any more -/

/-- The only pipe that the tee writes to is the one to the command. -/
theorem teeFileTable_writeEnd (ht : StdTable t) {fd : Int × Int} {fptr d : Int} {p : Nat}
    (h : FilePtr t fd fptr) (hd : teeFileTable t fd fptr d = some (.writeEnd p)) : p = 0 := by
  have htee (hd : teeTable t fd d = some (.writeEnd p)) : p = 0 := by
    rw [teeTable, Function.update_apply, Function.update_apply, Fds.withPipe_apply] at hd
    split at hd
    next => cases hd; rfl
    next =>
      split at hd
      next => cases hd
      next =>
        split at hd
        next => cases hd; rfl
        next =>
          split at hd
          next => cases hd
          next => exact ((ht.no_pipe d p).2 hd).elim
  rcases h with rfl | h
  · exact htee (teeFileTable_of_neg ▸ hd)
  · rw [teeFileTable_of_free h, Function.update_apply] at hd
    split at hd
    next => cases hd
    next => exact htee hd

namespace Task2Inv

variable (I : Task2Inv t o) (hstuck : o.Stuck cap (task2 T))
include I hstuck

theorem stuck_cmd {pc : CmdPc} (hs : o.status 0 = .running (.cmd pc)) :
    o.pipe 0 = [] ∧ o.Held (.writeEnd 0) ∧ o.fds 0 = cmdTable t := by
  have htab := I.family.table hs
  have hwaits := hstuck.waits hs
  cases pc with
  | setup calls =>
    cases calls with
    | cons call calls => cases call <;> exact hwaits.elim
    | nil => exact hwaits.elim
  | run seen =>
    have htab : o.fds 0 = cmdTable t := htab
    rw [task2, task2Cmd] at hwaits
    split at hwaits
    next =>
      obtain ⟨p, hfd, hpipe, hheld⟩ := hwaits
      have hin : o.fds 0 0 = some (.readEnd 0) := by rw [htab, cmdTable, Function.update_self]
      cases hin.symm.trans hfd
      exact ⟨hpipe, hheld, htab⟩
    next => exact hwaits.elim
  | pipe | fork | ended | exit => exact hwaits.elim

theorem stuck_tee (ht : StdTable t) {pc : TeePc} (hs : o.status 1 = .running (.tee pc)) :
    (∃ fptr fd, pc = .read fptr ∧ FilePtr t fd fptr ∧ o.fds 1 = teeFileTable t fd fptr ∧
      o.pipe 1 = [] ∧ o.Held (.writeEnd 1)) ∨
    ∃ fptr c, pc = .writeOut fptr c ∧ cap ≤ (o.pipe 0).length := by
  have htab := I.family.table hs
  have hwaits := hstuck.waits hs
  cases pc with
  | setup calls =>
    cases calls with
    | cons call calls => cases call <;> exact hwaits.elim
    | nil => exact hwaits.elim
  | read fptr =>
    obtain ⟨fd, -, hfptr, htab⟩ := htab
    obtain ⟨p, hfd, hpipe, hheld⟩ := hwaits
    have hin : o.fds 1 0 = some (.readEnd 1) := htab ▸ teeFileTable_zero hfptr
    cases hin.symm.trans hfd
    exact .inl ⟨fptr, fd, rfl, hfptr, htab, hpipe, hheld⟩
  | writeOut fptr c =>
    obtain ⟨fd, -, hfptr, htab⟩ := htab
    obtain ⟨p, hfd, hfull, -⟩ := hwaits
    have hout : o.fds 1 1 = some (.writeEnd 0) := htab ▸ teeFileTable_one hfptr
    cases hout.symm.trans hfd
    exact .inr ⟨fptr, c, rfl, hfull⟩
  | writeFile fptr c =>
    obtain ⟨fd, hnew, hfptr, htab⟩ := htab
    obtain ⟨p, hfd, -⟩ := hwaits
    exact (teeFileTable_fptr ht hnew hfptr (htab ▸ hfd)).elim
  | pipe | fork | closeFile | ended | exit => exact hwaits.elim

theorem stuck_grep {pc : GrepPc} (hs : o.status 2 = .running (.grep pc)) :
    cap ≤ (o.pipe 1).length := by
  have htab := I.family.table hs
  have hwaits := hstuck.waits hs
  cases pc with
  | setup calls =>
    cases calls with
    | cons call calls => cases call <;> exact hwaits.elim
    | nil => exact hwaits.elim
  | run rest =>
    cases rest with
    | nil => exact hwaits.elim
    | cons c rest =>
      obtain ⟨fd, -, htab⟩ := htab
      obtain ⟨p, hfd, hfull, -⟩ := hwaits
      have hout : o.fds 2 1 = some (.writeEnd 1) := htab ▸ grepTable_one
      cases hout.symm.trans hfd
      exact hfull
  | exit => exact hwaits.elim

variable (ht : StdTable t) (hcap : 0 < cap)
include ht hcap

/-- The tee does not wait for `grep`. -/
theorem stuck_tee_full {pc : TeePc} (hs : o.status 1 = .running (.tee pc)) :
    ∃ fptr c, pc = .writeOut fptr c ∧ cap ≤ (o.pipe 0).length := by
  rcases I.stuck_tee hstuck ht hs with ⟨fptr, fd, rfl, hfptr, htab, hpipe, hheld⟩ | hfull
  · -- somebody has the write end of the empty pipe, and waits
    obtain ⟨pid, s, d, hs', hd⟩ := I.family.exists_of_held hheld
    have hrole := I.family.role (Os.at?_of_running hs')
    cases s with
    | cmd pc =>
      change 0 = pid at hrole
      subst hrole
      rw [(I.stuck_cmd hstuck hs').2.2] at hd
      exact (cmdTable_apply ht hd).elim
    | tee pc =>
      change 1 = pid at hrole
      subst hrole
      rw [htab] at hd
      cases teeFileTable_writeEnd ht hfptr hd
    | grep pc =>
      change 2 = pid at hrole
      subst hrole
      have hfull := I.stuck_grep hstuck hs'
      rw [hpipe] at hfull
      exact (hcap.not_ge hfull).elim
  · exact hfull

/-- The command does not wait. -/
theorem stuck_not_cmd : ¬o.Running 0 := by
  rintro ⟨s, hs⟩
  have hrole := I.family.role (Os.at?_of_running hs)
  cases s with
  | tee | grep => cases hrole
  | cmd pc =>
    obtain ⟨hpipe, hheld, htab⟩ := I.stuck_cmd hstuck hs
    have hnot {pc : TeePc} (hs' : o.status 1 = .running (.tee pc)) : False := by
      obtain ⟨fptr, c, -, hfull⟩ := I.stuck_tee_full hstuck ht hcap hs'
      rw [hpipe] at hfull
      exact hcap.not_ge hfull
    obtain ⟨pid, s, d, hs', hd⟩ := I.family.exists_of_held hheld
    have hrole := I.family.role (Os.at?_of_running hs')
    cases s with
    | cmd pc =>
      change 0 = pid at hrole
      subst hrole
      rw [htab] at hd
      exact cmdTable_apply ht hd
    | tee pc =>
      change 1 = pid at hrole
      subst hrole
      exact hnot hs'
    | grep pc =>
      change 2 = pid at hrole
      subst hrole
      obtain ⟨pc', htee, -⟩ := I.reader ⟨_, hs'⟩
      exact hnot htee

theorem exists_full (hrun : o.Running 1) :
    ∃ fptr c, o.status 1 = .running (.tee (.writeOut fptr c)) ∧ cap ≤ (o.pipe 0).length := by
  obtain ⟨s, hs⟩ := hrun
  have hrole := I.family.role (Os.at?_of_running hs)
  cases s with
  | cmd | grep => cases hrole
  | tee pc =>
    obtain ⟨fptr, c, rfl, hfull⟩ := I.stuck_tee_full hstuck ht hcap hs
    exact ⟨fptr, c, hs, hfull⟩

omit hstuck ht hcap

/-- There are no other processes. -/
theorem not_running_of_ne (h0 : ¬o.Running 0) (h1 : pid ≠ 1) (h2 : pid ≠ 2) : ¬o.Running pid := by
  rintro ⟨s, hs⟩
  have hrole := I.family.role (Os.at?_of_running hs)
  cases s with
  | cmd pc => exact h0 ⟨_, hrole ▸ hs⟩
  | tee pc => exact h1 hrole.symm
  | grep pc => exact h2 hrole.symm

theorem ended (h0 : ¬o.Running 0) (h1 : ¬o.Running 1) (h2 : ¬o.Running 2) : o.Ended := by
  intro pid hrun
  by_cases hpid1 : pid = 1
  · exact h1 (hpid1 ▸ hrun)
  · by_cases hpid2 : pid = 2
    · exact h2 (hpid2 ▸ hrun)
    · exact I.not_running_of_ne h0 hpid1 hpid2 hrun

end Task2Inv

/-- No call fails in the run. -/
theorem Task2Run.clean {file : OutFile → List UInt8} {calls : List (Nat × CallEnd)}
    (h : Task2Run T cap t file calls o) (ht : StdTable t) (hok : NoFailure calls) :
    Task2Clean T o ∧ Task2Inv t o := by
  induction h with
  | nil =>
    refine ⟨⟨fun {pid s} hs => ?_, fun {pid s} hs => ?_, by simp [Os.at?, Os.boot, Status.state],
      by simp [Os.at?, Os.boot, Status.state]⟩, .boot t file⟩
    · by_cases hpid : pid = 0
      · simp only [Os.at?, Os.boot, hpid, if_true, Status.state, Option.some.injEq] at hs
        rw [← hs]
        trivial
      · simp [Os.at?, Os.boot, hpid, Status.state] at hs
    · by_cases hpid : pid = 0 <;> simp [Os.boot, hpid] at hs
  | snoc _ hstep ih =>
    obtain ⟨C, I⟩ := ih fun call hcall => hok call (List.mem_append_left _ hcall)
    have hcase := I.step_cases ht hstep
    exact ⟨C.step I ht (hok _ (by simp)) hcase, I.step ht hcase⟩

theorem Task2Run.length_pipe_le {file : OutFile → List UInt8} {calls : List (Nat × CallEnd)}
    (h : Task2Run T cap t file calls o) (p : Nat) : (o.pipe p).length ≤ cap :=
  Trace.invariant (I := fun o => ∀ p, (o.pipe p).length ≤ cap) h (fun _ => Nat.zero_le _)
    (fun hle hstep => hstep.length_pipe_le hle) p

/-! ## Runs that cannot go on -/

/-- A step that fails could have done what it is for. -/
theorem Task2Clean.exists_step (C : Task2Clean T o) (I : Task2Inv t o) (ht : StdTable t)
    (hbound : t.Bounded) (hgoes : ¬o.Stuck cap (task2 T)) :
    ∃ call o', o.Step cap (task2 T) call o' ∧ call.2 ≠ .failed := by
  simp only [Os.Stuck, not_forall, not_not] at hgoes
  obtain ⟨⟨pid, ending⟩, o', hstep⟩ := hgoes
  by_cases hok : ending = .failed
  · subst hok
    cases I.step_cases ht hstep with
    | fail hs h =>
      have htab := I.family.table hs
      have hmk {call : CallEnd} {o' : Os OutFile Task2Pc}
          (h : o.Serve cap pid _ (task2 T _) call o') (hok : call ≠ .failed) :
          ∃ call o', o.Step cap (task2 T) call o' ∧ call.2 ≠ .failed := ⟨_, _, .mk hs h, hok⟩
      cases h with
      | cmdPipe =>
        obtain ⟨fd, hfd⟩ := hbound.exists_newPipe
        have htab : o.fds pid = t := htab
        exact hmk (.pipe (htab ▸ hfd)) (by simp)
      | teePipe =>
        obtain ⟨fd, hfd⟩ := (hbound.withPipe).exists_newPipe
        exact hmk (.pipe (htab.2 ▸ hfd)) (by simp)
      | openFile =>
        obtain ⟨fd, -, htab⟩ := htab
        have htab : o.fds pid = teeTable t fd := htab
        have htee : (teeTable t fd).Bounded := hbound.withPipe.update.update
        obtain ⟨fptr, hfree⟩ := htee.exists_free
        exact hmk (.openFile (htab ▸ hfree)) (by simp)
      | cmdFork | teeFork => exact hmk .fork (by simp)
      | cmdExec | grepExec => exact hmk .exec (by simp)
      | writeFile =>
        obtain ⟨fd, -, hfptr, htab⟩ := htab
        have htab : o.fds pid = teeFileTable t fd _ := htab
        have hclean := C.clean (Os.at?_of_running hs)
        have hfree : (teeTable t fd).Free _ := hfptr.resolve_left fun h => by simp [Clean, h] at hclean
        refine hmk (.writeFile (f := .tee) ?_) (by simp)
        rw [htab, teeFileTable_of_free hfree, Function.update_self]
  · exact ⟨_, _, hstep, hok⟩

/-- A run in which no call fails can go on without a failure until nothing can happen any more. -/
theorem Task2Run.exists_stuck {file : OutFile → List UInt8} {calls : List (Nat × CallEnd)}
    (h : Task2Run T cap t file calls o) (ht : StdTable t) (hbound : t.Bounded)
    (hok : NoFailure calls) :
    ∃ calls' o', Task2Run T cap t file calls' o' ∧ NoFailure calls' ∧ o'.Stuck cap (task2 T) := by
  induction hn : o.potential T using Nat.strong_induction_on generalizing calls o with
  | _ n ih =>
    by_cases hstuck : o.Stuck cap (task2 T)
    · exact ⟨calls, o, h, hok, hstuck⟩
    · obtain ⟨C, I⟩ := h.clean ht hok
      obtain ⟨call, o', hstep, hcall⟩ := C.exists_step I ht hbound hstuck
      have hlt := (I.flow_step (I.step_cases ht hstep)).2
      refine ih _ (hn ▸ hlt) (h.snoc hstep) (fun c hc => ?_) rfl
      rcases List.mem_append.1 hc with hc | hc
      · exact hok c hc
      · rwa [List.mem_singleton.1 hc]

namespace Task2Clean

variable (C : Task2Clean T o) (I : Task2Inv t o)
include C I

/-- A process that is there and does not run has come to its end. -/
theorem exists_exited {q : Nat} (hq : q < o.nextPid) (hrun : ¬o.Running q) :
    ∃ s, o.at? q = some s ∧ s.role = q ∧ s.Exits T ∧ s.Clean := by
  obtain ⟨s, hs, hat, hrole⟩ := I.family.exists_exited hq hrun fun _ => I.alive
  exact ⟨s, hat, hrole, C.exited hs, C.clean hat⟩

/-- When the tee has exited, all bytes are passed on and saved. -/
theorem drained (hq : 1 < o.nextPid) (hrun : ¬o.Running 1) :
    ¬o.Running 2 ∧ (o.flow T).held = [] ∧ (o.flow T).into = [] ∧ (o.flow T).rest = [] ∧
      (o.flow T).saved = some (o.file .tee) := by
  obtain ⟨s, hat, hrole, hexits, hclean⟩ := C.exists_exited I hq hrun
  cases hexits with
  | run | cmdEnded | cmd | grepEnded | grep => cases hrole
  | tee => exact hclean.elim
  | @teeEnded fptr =>
    have hfptr : 0 ≤ fptr := hclean
    obtain ⟨h2, hinto⟩ := C.teeEof hat trivial
    have hnext : o.nextPid = 3 := (I.counters hat).2
    refine ⟨h2, ?_, hinto, ?_, ?_⟩
    · simp [Os.flow, Os.look, hat, held]
    · -- `grep` has written everything before it exited
      obtain ⟨s, hat, hrole, hexits, hclean⟩ := C.exists_exited I (by omega) h2
      cases hexits with
      | run | cmdEnded | cmd | teeEnded | tee => cases hrole
      | grep => exact hclean.elim
      | grepEnded => simp [Os.flow, Os.look, hat, rest]
    · simp [Os.flow, Os.look, hat, saved, hfptr]

/-- When the command has exited, it has read what it takes. -/
theorem seen_eq {n : Nat} (hok : (o.flow T).Ok T n) (hrun : ¬o.Running 0) :
    1 < o.nextPid ∧ (o.flow T).seen = T.consumed := by
  obtain ⟨s, hat, hrole, hexits, hclean⟩ := C.exists_exited I I.begun hrun
  cases hexits with
  | teeEnded | tee | grepEnded | grep => cases hrole
  | cmd => exact hclean.elim
  | @run seen hreads =>
    have hseen : (o.flow T).seen = seen := by simp [Os.flow, Os.look, hat, Task2Pc.seen]
    exact ⟨I.counters hat, hok.seen_of_not_reads (hseen ▸ hreads)⟩
  | @cmdEnded seen =>
    obtain ⟨h1, -, hout⟩ := C.cmdEof hat
    have hnext : 1 < o.nextPid := I.counters hat
    obtain ⟨-, hheld, hinto, hrest, -⟩ := C.drained I hnext h1
    refine ⟨hnext, hok.seen_of_pending ?_⟩
    simp [Flow.pending, show (o.flow T).out = [] from hout, hheld, hinto, hrest]

end Task2Clean

/-- Where a run ends in which no call fails: if all of the output of `grep` that the command does not
take fits into the pipe to it, all three processes exit and the file has the whole output. If not,
the tee waits for ever, to write to a pipe that nobody but itself can read. -/
theorem Task2Run.ended_iff {file : OutFile → List UInt8} {calls : List (Nat × CallEnd)}
    (h : Task2Run T cap t file calls o) (ht : StdTable t) (hok : NoFailure calls)
    (hstuck : o.Stuck cap (task2 T)) (hcap : 0 < cap) :
    (o.Ended ↔ T.grepOutput.length ≤ T.consumed.length + cap) ∧
      o.look 0 Task2Pc.seen [] = T.consumed ∧ (o.Ended → o.file .tee = T.grepOutput) ∧
      (¬o.Ended → ∃ fptr c, o.status 1 = .running (.tee (.writeOut fptr c)) ∧
        (o.pipe 0).length = cap ∧ ∀ pid fd, o.fds pid fd = some (.readEnd 0) → pid = 1 ∨ pid = 2) := by
  obtain ⟨C, I⟩ := h.clean ht hok
  obtain ⟨-, hflow, -⟩ := h.history ht
  rw [List.count_eq_zero.2 hok.notMem] at hflow
  have hcmd := I.stuck_not_cmd hstuck ht hcap
  obtain ⟨hnext, hseen⟩ := C.seen_eq I hflow hcmd
  have hwhole := congrArg List.length hflow.whole
  simp only [Flow.pending, List.length_append, hseen] at hwhole
  have hout : (o.flow T).out.length ≤ cap := h.length_pipe_le 0
  refine ⟨?_, hseen, fun hended => ?_, fun hnot => ?_⟩
  · by_cases htee : o.Running 1
    · obtain ⟨fptr, c, hs, hfull⟩ := I.exists_full hstuck ht hcap htee
      have hheld : (o.flow T).held = [c] := by simp [Os.flow, Os.look_of_running hs, held]
      have hfull : cap ≤ (o.flow T).out.length := hfull
      rw [hheld, List.length_singleton] at hwhole
      exact ⟨fun hended => (hended 1 htee).elim, fun hle => by omega⟩
    · obtain ⟨h2, hheld, hinto, hrest, -⟩ := C.drained I hnext htee
      rw [hheld, hinto, hrest, List.length_nil] at hwhole
      exact ⟨fun _ => by omega, fun _ => I.ended hcmd htee h2⟩
  · obtain ⟨-, hheld, hinto, hrest, hsaved⟩ := C.drained I hnext (hended 1)
    have hbytes := hflow.whole
    simp only [Flow.pending, hheld, hinto, hrest, List.append_nil] at hbytes
    rw [hflow.saved_eq hsaved, hbytes]
  · have htee : o.Running 1 := by
      by_contra htee
      exact hnot (I.ended hcmd htee (C.drained I hnext htee).1)
    obtain ⟨fptr, c, hs, hfull⟩ := I.exists_full hstuck ht hcap htee
    refine ⟨fptr, c, hs, hout.antisymm hfull, fun pid fd hfd => ?_⟩
    by_contra hpid
    refine absurd hfd ?_
    rw [I.family.closed (I.not_running_of_ne hcmd (fun h => hpid (.inl h)) fun h => hpid (.inr h))]
    simp

/-- A command that reads nothing, and a line of three bytes that a pipe with room for one does not
take. -/
theorem Task2Run.ended_iff_hangs : ∃ calls o,
    Task2Run ⟨[111, 107, 10], fun _ => false⟩ 1 shellTable (fun _ => []) calls o ∧
      NoFailure calls ∧ ¬o.Ended := by
  have hnil : Task2Run ⟨[111, 107, 10], fun _ => false⟩ 1 shellTable (fun _ => []) [] _ := .nil
  obtain ⟨calls, o, h, hok, hstuck⟩ :=
    hnil.exists_stuck stdTable_shellTable shellTable_bounded (by simp [NoFailure])
  have hends := Task2Run.ended_iff h stdTable_shellTable hok hstuck Nat.zero_lt_one
  exact ⟨calls, o, h, hok, fun hended => absurd (hends.1.1 hended) (by decide)⟩

/-- In every run, with or without failures, no process is killed, the command reads a first part of
the output of `grep` in its order and no more than it takes, and there are only so many steps. The
file, with the byte that is about to be saved, has bytes that were passed on, in their order; at most
one of these is missing for each call of the tee that failed, so without such a call none is. -/
theorem Task2Run.bytes_passed {file : OutFile → List UInt8} {calls : List (Nat × CallEnd)}
    (h : Task2Run T cap t file calls o) (ht : StdTable t) :
    (∀ pid s, o.status pid ≠ .killed s) ∧
      (∃ later, o.look 0 Task2Pc.seen [] ++ o.pipe 0 ++ later = T.grepOutput) ∧
      o.look 0 Task2Pc.seen [] <+: T.consumed ∧
      (∀ bytes, o.look 1 (Task2Pc.saved (o.file .tee)) (some []) = some bytes →
        bytes.Sublist (o.look 0 Task2Pc.seen [] ++ o.pipe 0) ∧
        (o.look 0 Task2Pc.seen [] ++ o.pipe 0).length ≤ bytes.length + calls.count (1, .failed) ∧
        ((1, .failed) ∉ calls → bytes = o.look 0 Task2Pc.seen [] ++ o.pipe 0)) ∧
      calls.length ≤ 5 * T.grepOutput.length + 23 := by
  obtain ⟨I, hflow, hlength⟩ := h.history ht
  refine ⟨fun pid s => I.alive, hflow.passed_prefix, ?_, fun bytes hbytes =>
    ⟨hflow.saved _ hbytes, hflow.missing _ hbytes, fun hnone => ?_⟩, by omega⟩
  · rw [← hflow.consumed]
    exact prefix_consume ..
  · rw [List.count_eq_zero.2 hnone] at hflow
    exact hflow.saved_eq hbytes

theorem Task2Run.serve {file : OutFile → List UInt8} {calls : List (Nat × CallEnd)}
    {ending : CallEnd} (h : Task2Run T cap t file calls o) (pid : Nat) (hs : o.status pid = .running s)
    (hserve : o.Serve cap pid s (task2 T s) ending o') :
    Task2Run T cap t file (calls ++ [(pid, ending)]) o' := h.snoc (.mk hs hserve)

/-- There is no room on the disk for the byte that the tee has passed on to a command that reads
everything. -/
theorem Task2Run.bytes_passed_of_full : ∃ calls o,
    Task2Run ⟨[7], fun _ => true⟩ 1 shellTable (fun _ => []) calls o ∧
      calls.count (1, .failed) = 1 ∧ o.look 0 Task2Pc.seen [] ++ o.pipe 0 = [7] ∧
      o.look 1 (Task2Pc.saved (o.file .tee)) (some []) = some [] ∧
      [7].length ≤ ([] : List UInt8).length + calls.count (1, .failed) ∧ calls.length ≤ 28 := by
  have hnew {t : Fds OutFile} (fd : Int × Int) (h1 : t fd.1 = none) (h2 : t fd.2 = none)
      (hle : 0 ≤ fd.1 ∧ 0 ≤ fd.2) (hne : fd.1 ≠ fd.2) : t.NewPipe fd := ⟨⟨hle.1, h1⟩, ⟨hle.2, h2⟩, hne⟩
  have h : Task2Run ⟨[7], fun _ => true⟩ 1 shellTable (fun _ => []) [] _ := .nil
  -- the processes are made
  have h := h.serve 0 rfl (by exact .pipe (hnew (3, 4) rfl rfl (by decide) (by decide)))
  have h := h.serve 0 rfl (by exact .fork)
  have h := h.serve 1 rfl (by exact .pipe (hnew (5, 6) rfl rfl (by decide) (by decide)))
  have h := h.serve 1 rfl (by exact .fork)
  -- the tee opens its file
  have h := h.serve 1 rfl (by exact .dup2)
  have h := h.serve 1 rfl (by exact .dup2)
  have h := h.serve 1 rfl (by exact .close)
  have h := h.serve 1 rfl (by exact .close)
  have h := h.serve 1 rfl (by exact .openFile (show Fds.Free _ 5 from ⟨by decide, rfl⟩))
  -- `grep` writes its byte
  have h := h.serve 2 rfl (by exact .dup2)
  have h := h.serve 2 rfl (by exact .close)
  have h := h.serve 2 rfl (by exact .close)
  have h := h.serve 2 rfl (by exact .exec)
  have h := h.serve 2 rfl (by exact .write (p := 1) rfl ⟨1, 0, rfl⟩ (by decide))
  -- the tee passes it on and cannot save it
  have h := h.serve 1 rfl (by exact .read (p := 1) rfl rfl)
  have h := h.serve 1 rfl (by exact .write (p := 0) rfl ⟨0, 3, rfl⟩ (by decide))
  have h := h.serve 1 rfl (by exact .writeFails (by rintro p ⟨⟩))
  have hbytes := Task2Run.bytes_passed h stdTable_shellTable
  exact ⟨_, _, h, rfl, rfl, rfl, (hbytes.2.2.2.1 [] rfl).2.1, hbytes.2.2.2.2⟩

end

end CS330
