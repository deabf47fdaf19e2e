import CS330.Pipeline.Tables

/-! # The processes of `task2`

What the state of each process says about its descriptors, and what each step does (`Task2Case`).
No process of `task2` is ever killed by `SIGPIPE`: the tee holds the read ends of both pipes. -/

namespace CS330

/-- The tee reads the pipe from `grep`, or is about to. -/
def TeePc.Open : TeePc → Prop
  | setup _ | read _ | writeOut _ _ | writeFile _ _ => True
  | _ => False

namespace Task2Pc

/-- The number of the process. -/
def role : Task2Pc → Nat
  | cmd _ => 0
  | tee _ => 1
  | grep _ => 2

/-- The descriptor of the file of the tee, or -1. -/
def FilePtr (t : Fds OutFile) (fd : Int × Int) (fptr : Int) : Prop :=
  fptr = -1 ∨ (teeTable t fd).Free fptr

/-- The table of the process; its program was started with `t`. -/
def Table (t : Fds OutFile) : Task2Pc → Fds OutFile → Prop
  | cmd .pipe, u => u = t
  | cmd (.fork fd), u => t.NewPipe fd ∧ u = t.withPipe fd 0
  | cmd (.setup calls), u => calls.foldl TableCall.run u = cmdTable t
  | cmd (.run _), u | cmd (.ended _), u => u = cmdTable t
  | tee (.pipe fd), u => t.NewPipe fd ∧ u = t.withPipe fd 0
  | tee (.fork fd fd1), u =>
    t.NewPipe fd ∧ (t.withPipe fd 0).NewPipe fd1 ∧ u = (t.withPipe fd 0).withPipe fd1 1
  | tee (.setup calls), u => ∃ fd, t.NewPipe fd ∧ calls.foldl TableCall.run u = teeTable t fd
  | tee (.read fptr), u | tee (.writeOut fptr _), u | tee (.writeFile fptr _), u
  | tee (.closeFile fptr), u => ∃ fd, t.NewPipe fd ∧ FilePtr t fd fptr ∧ u = teeFileTable t fd fptr
  | grep (.setup calls), u => ∃ fd, t.NewPipe fd ∧ calls.foldl TableCall.run u = grepTable t fd
  | grep (.run _), u | grep (.exit _), u => ∃ fd, t.NewPipe fd ∧ u = grepTable t fd
  | tee (.ended _), u => u 1 = some (.writeEnd 0)
  | cmd (.exit _), _ | tee (.exit _), _ => True

/-- How many pipes and processes there are. -/
def Counters (nextPipe nextPid : Nat) : Task2Pc → Prop
  | cmd .pipe => nextPipe = 0 ∧ nextPid = 1
  | cmd (.fork _) => nextPipe = 1 ∧ nextPid = 1
  | tee (.pipe _) => nextPipe = 1 ∧ nextPid = 2
  | tee (.fork _ _) => nextPipe = 2 ∧ nextPid = 2
  | cmd (.exit _) | tee (.exit _) => True
  | cmd _ => 2 ≤ nextPid
  | tee _ | grep _ => nextPipe = 2 ∧ nextPid = 3

/-- A call that changes nothing but the table of the process. -/
inductive Calls : Task2Pc → TableCall → Task2Pc → Prop where
  | cmd : Calls (cmd (.setup (call :: calls))) call (cmd (.setup calls))
  | tee : Calls (tee (.setup (call :: calls))) call (tee (.setup calls))
  | grep : Calls (grep (.setup (call :: calls))) call (grep (.setup calls))
  | close : Calls (tee (.closeFile fptr)) (.close fptr) (tee (.ended fptr))

inductive Execs (T : Tools) : Task2Pc → Task2Pc → Prop where
  | cmd : Execs T (cmd (.setup [])) (cmd (.run []))
  | grep : Execs T (grep (.setup [])) (grep (.run T.grepOutput))

/-- A call fails. -/
inductive Fails : Task2Pc → Task2Pc → Prop where
  | cmdPipe : Fails (cmd .pipe) (cmd (.exit (-1)))
  | cmdFork : Fails (cmd (.fork fd)) (cmd (.exit (-1)))
  | cmdExec : Fails (cmd (.setup [])) (cmd (.exit 4))
  | teePipe : Fails (tee (.pipe fd)) (tee (.exit (-1)))
  | teeFork : Fails (tee (.fork fd fd1)) (tee (.exit (-1)))
  | openFile : Fails (tee (.setup [])) (tee (.read (-1)))
  | writeFile : Fails (tee (.writeFile fptr c)) (tee (.read fptr))
  | grepExec : Fails (grep (.setup [])) (grep (.exit 1))

/-- The process exits here. -/
inductive Exits (T : Tools) : Task2Pc → Prop where
  | run {seen} (h : T.cmdReads seen = false) : Exits T (cmd (.run seen))
  | cmdEnded : Exits T (cmd (.ended seen))
  | cmd : Exits T (cmd (.exit code))
  | teeEnded : Exits T (tee (.ended fptr))
  | tee : Exits T (tee (.exit code))
  | grepEnded : Exits T (grep (.run []))
  | grep : Exits T (grep (.exit code))

end Task2Pc

section
variable {t : Fds OutFile} {fd : Int × Int} {fptr : Int}

theorem teeFileTable_of_neg : teeFileTable t fd (-1) = teeTable t fd := by
  simp [teeFileTable]

theorem teeFileTable_of_free (h : (teeTable t fd).Free fptr) :
    teeFileTable t fd fptr = Function.update (teeTable t fd) fptr (some (.file .tee)) :=
  if_neg h.1.not_gt

theorem teeTable_zero : teeTable t fd 0 = some (.readEnd 1) := by simp [teeTable]

theorem teeTable_one : teeTable t fd 1 = some (.writeEnd 0) := by simp [teeTable]

/-- The standard descriptors are those of before the file was opened. -/
theorem teeFileTable_apply {d : Int} (h : Task2Pc.FilePtr t fd fptr) (hd : teeTable t fd d ≠ none) :
    teeFileTable t fd fptr d = teeTable t fd d := by
  rcases h with rfl | h
  · rw [teeFileTable_of_neg]
  · rw [teeFileTable_of_free h, Function.update_of_ne]
    rintro rfl
    exact hd h.2

theorem teeFileTable_zero (h : Task2Pc.FilePtr t fd fptr) :
    teeFileTable t fd fptr 0 = some (.readEnd 1) :=
  (teeFileTable_apply h (by simp [teeTable_zero])).trans teeTable_zero

theorem teeFileTable_one (h : Task2Pc.FilePtr t fd fptr) :
    teeFileTable t fd fptr 1 = some (.writeEnd 0) :=
  (teeFileTable_apply h (by simp [teeTable_one])).trans teeTable_one

theorem teeFileTable_close (h : Task2Pc.FilePtr t fd fptr) :
    (TableCall.close fptr).run (teeFileTable t fd fptr) 1 = some (.writeEnd 0) := by
  rw [TableCall.run, Fds.close, Function.update_of_ne, teeFileTable_one h]
  rintro rfl
  rcases h with h | h
  · cases h
  · cases teeTable_one.symm.trans h.2

/-- The tee keeps the read end of the pipe to the command. -/
theorem teeFileTable_fst (ht : StdTable t) (hfd : t.NewPipe fd) (h : Task2Pc.FilePtr t fd fptr) :
    teeFileTable t fd fptr fd.1 = some (.readEnd 0) := by
  have hfst : teeTable t fd fd.1 = some (.readEnd 0) := by
    rw [teeTable, Function.update_of_ne (hfd.ne ht.stdout_ne).1.symm,
      Function.update_of_ne (hfd.ne ht.stdin).1.symm, hfd.withPipe_fst]
  rw [teeFileTable_apply h (by simp [hfst]), hfst]

theorem teeTable_negative (ht : StdTable t) (hfd : t.NewPipe fd) {d : Int} (hd : d < 0) :
    teeTable t fd d = none := by
  have h1 : d ≠ fd.1 := (hd.trans_le hfd.1.1).ne
  have h2 : d ≠ fd.2 := (hd.trans_le hfd.2.1.1).ne
  rw [teeTable, Function.update_of_ne (by omega), Function.update_of_ne (by omega),
    Fds.withPipe_apply, if_neg h2, if_neg h1, ht.negative d hd]

/-- The descriptor of the file is never one of a pipe. -/
theorem teeFileTable_fptr (ht : StdTable t) (hfd : t.NewPipe fd) (h : Task2Pc.FilePtr t fd fptr)
    {p : Nat} : teeFileTable t fd fptr fptr ≠ some (.writeEnd p) := by
  rcases h with rfl | h
  · rw [teeFileTable_of_neg, teeTable_negative ht hfd (by decide)]
    simp
  · rw [teeFileTable_of_free h, Function.update_self]
    simp

theorem grepTable_one : grepTable t fd 1 = some (.writeEnd 1) := by simp [grepTable]

end

/-! ## The steps -/

open Task2Pc

/-- What every run of `task2` keeps. -/
structure Task2Inv (t : Fds OutFile) (o : Os OutFile Task2Pc) : Prop where
  family : Family (Table t) role o
  counters : ∀ {pid s}, o.at? pid = some s → s.Counters o.nextPipe o.nextPid
  fresh : ∀ {p}, o.nextPipe ≤ p → o.pipe p = []
  reader : o.Running 2 → ∃ pc : TeePc, o.status 1 = .running (.tee pc) ∧ pc.Open
  alive : ∀ {pid s}, o.status pid ≠ .killed s
  begun : 0 < o.nextPid

/-- What a step of `task2` does. -/
inductive Task2Case (T : Tools) (cap : Nat) (t : Fds OutFile) (o : Os OutFile Task2Pc) :
    Nat × CallEnd → Os OutFile Task2Pc → Prop where
  | cmdPipe (hs : o.status 0 = .running (.cmd .pipe)) (hfd : t.NewPipe fd)
    (hnext : o.nextPipe = 0) (hpid : o.nextPid = 1) : Task2Case T cap t o (0, .done)
      ((({ o with nextPipe := 1 }).setFds 0 (t.withPipe fd 0)).goto 0 (.cmd (.fork fd)))
  | cmdFork (hs : o.status 0 = .running (.cmd (.fork fd))) (hnext : o.nextPipe = 1)
    (hpid : o.nextPid = 1) : Task2Case T cap t o (0, .done)
      ((o.spawn 0 (.tee (.pipe fd))).goto 0
        (.cmd (.setup [.dup2 fd.1 0, .close fd.1, .close fd.2])))
  | teePipe (hs : o.status 1 = .running (.tee (.pipe fd))) (hfd : t.NewPipe fd)
    (hfd1 : (t.withPipe fd 0).NewPipe fd1) (hnext : o.nextPipe = 1) (hpid : o.nextPid = 2) :
    Task2Case T cap t o (1, .done) ((({ o with nextPipe := 2 }).setFds 1
      ((t.withPipe fd 0).withPipe fd1 1)).goto 1 (.tee (.fork fd fd1)))
  | teeFork (hs : o.status 1 = .running (.tee (.fork fd fd1))) (hpid : o.nextPid = 2) :
    Task2Case T cap t o (1, .done)
      ((o.spawn 1 (.grep (.setup [.dup2 fd1.2 1, .close fd1.1, .close fd1.2]))).goto 1
        (.tee (.setup [.dup2 fd1.1 0, .dup2 fd.2 1, .close fd1.1, .close fd1.2])))
  | call (hs : o.status pid = .running s) (h : s.Calls c s') : Task2Case T cap t o (pid, .done)
      ((o.setFds pid (c.run (o.fds pid))).goto pid s')
  | exec (hs : o.status pid = .running s) (h : s.Execs T s') :
    Task2Case T cap t o (pid, .done) (o.goto pid s')
  | fail (hs : o.status pid = .running s) (h : s.Fails s') :
    Task2Case T cap t o (pid, .failed) (o.goto pid s')
  | exit (hs : o.status pid = .running s) (h : s.Exits T) :
    Task2Case T cap t o (pid, .done) (o.finish pid (.exited s))
  | openFile (hs : o.status 1 = .running (.tee (.setup []))) (hfd : t.NewPipe fd)
    (hfree : (teeTable t fd).Free fptr) : Task2Case T cap t o (1, .done)
      (({ o with file := Function.update o.file .tee [] }.setFds 1
        (teeFileTable t fd fptr)).goto 1 (.tee (.read fptr)))
  | grepWrite (hs : o.status 2 = .running (.grep (.run (c :: rest))))
    (hroom : (o.pipe 1).length < cap) : Task2Case T cap t o (2, .done)
      ((o.setPipe 1 (o.pipe 1 ++ [c])).goto 2 (.grep (.run rest)))
  | teeRead {c : UInt8} {into : List UInt8} (hs : o.status 1 = .running (.tee (.read fptr)))
    (hpipe : o.pipe 1 = c :: into) : Task2Case T cap t o (1, .done)
      ((o.setPipe 1 into).goto 1 (.tee (.writeOut fptr c)))
  | teeEof (hs : o.status 1 = .running (.tee (.read fptr))) (hpipe : o.pipe 1 = [])
    (hgrep : ¬o.Running 2) : Task2Case T cap t o (1, .done) (o.goto 1 (.tee (.closeFile fptr)))
  | pass (hs : o.status 1 = .running (.tee (.writeOut fptr c))) (hroom : (o.pipe 0).length < cap) :
    Task2Case T cap t o (1, .done)
      ((o.setPipe 0 (o.pipe 0 ++ [c])).goto 1 (.tee (.writeFile fptr c)))
  | save (hs : o.status 1 = .running (.tee (.writeFile fptr c))) (hfptr : 0 ≤ fptr) :
    Task2Case T cap t o (1, .done)
      ({ o with file := Function.update o.file .tee (o.file .tee ++ [c]) }.goto 1
        (.tee (.read fptr)))
  | cmdRead {c : UInt8} {out : List UInt8} (hs : o.status 0 = .running (.cmd (.run seen)))
    (hreads : T.cmdReads seen = true) (hpipe : o.pipe 0 = c :: out) : Task2Case T cap t o (0, .done)
      ((o.setPipe 0 out).goto 0 (.cmd (.run (seen ++ [c]))))
  | cmdEof (hs : o.status 0 = .running (.cmd (.run seen))) (hreads : T.cmdReads seen = true)
    (hpipe : o.pipe 0 = []) (hnone : ¬o.Held (.writeEnd 0)) :
    Task2Case T cap t o (0, .done) (o.goto 0 (.cmd (.ended seen)))

section
variable {T : Tools} {cap : Nat} {t : Fds OutFile} {o o' : Os OutFile Task2Pc} {ending : CallEnd}

namespace Task2Inv

/-- Nothing is in a pipe that does not exist. -/
theorem setPipe_fresh (I : Task2Inv t o) {n : Nat} :
    { o with nextPipe := n }.setPipe o.nextPipe [] = { o with nextPipe := n } := by
  rw [Os.setPipe, ← I.fresh le_rfl, Function.update_eq_self]

theorem cmd_cases (I : Task2Inv t o) {pc : CmdPc}
    (hs : o.status 0 = .running (.cmd pc))
    (h : o.Serve cap 0 (.cmd pc) (task2Cmd T pc) ending o') : Task2Case T cap t o (0, ending) o' := by
  have htab := I.family.table hs
  have hcount := I.counters (Os.at?_of_running hs)
  cases pc with
  | pipe =>
    cases h with
    | pipe hfd =>
      rw [I.setPipe_fresh, hcount.1, htab]
      exact .cmdPipe hs (htab ▸ hfd) hcount.1 hcount.2
    | pipeFails => exact .fail hs .cmdPipe
  | fork fd =>
    cases h with
    | fork => exact .cmdFork hs hcount.1 hcount.2
    | forkFails => exact .fail hs .cmdFork
  | setup calls =>
    cases calls with
    | cons call calls =>
      cases call <;> cases h
      case dup2.dup2 => exact .call hs .cmd
      case close.close => exact .call hs .cmd
    | nil =>
      cases h with
      | exec => exact .exec hs .cmd
      | execFails => exact .fail hs .cmdExec
  | run seen =>
    have hin : o.fds 0 0 = some (.readEnd 0) := by
      rw [show o.fds 0 = cmdTable t from htab, cmdTable, Function.update_self]
    rw [task2Cmd] at h
    split at h
    next hreads =>
      cases h with
      | read hfd hpipe =>
        cases hin.symm.trans hfd
        exact .cmdRead hs hreads hpipe
      | readEof hfd hpipe hnone =>
        cases hin.symm.trans hfd
        exact .cmdEof hs hreads hpipe hnone
      | readBad hbad => exact (hbad 0 hin).elim
    next hreads =>
      cases h
      exact .exit hs (.run (Bool.not_eq_true _ ▸ hreads))
  | ended seen =>
    cases h
    exact .exit hs .cmdEnded
  | exit code =>
    cases h
    exact .exit hs .cmd

/-- `grep` can write as long as it runs. -/
theorem held_grep (I : Task2Inv t o) (h : o.Running 2) : o.Held (.writeEnd 1) := by
  obtain ⟨s, hs⟩ := h
  have htab := I.family.table hs
  have hrole := I.family.role (Os.at?_of_running hs)
  match s with
  | .grep (.setup calls) =>
    obtain ⟨fd, -, htab⟩ := htab
    obtain ⟨d, hd⟩ := TableCall.exists_of_foldl (htab ▸ grepTable_one)
    exact ⟨2, d, hd⟩
  | .grep (.run _) | .grep (.exit _) =>
    obtain ⟨fd, -, htab⟩ := htab
    exact ⟨2, 1, htab ▸ grepTable_one⟩

theorem tee_cases (I : Task2Inv t o) (ht : StdTable t) {pc : TeePc}
    (hs : o.status 1 = .running (.tee pc)) (h : o.Serve cap 1 (.tee pc) (task2Tee pc) ending o') :
    Task2Case T cap t o (1, ending) o' := by
  have htab := I.family.table hs
  have hcount := I.counters (Os.at?_of_running hs)
  cases pc with
  | pipe fd =>
    cases h with
    | pipe hfd =>
      rw [I.setPipe_fresh, hcount.1, htab.2]
      exact .teePipe hs htab.1 (htab.2 ▸ hfd) hcount.1 hcount.2
    | pipeFails => exact .fail hs .teePipe
  | fork fd fd1 =>
    cases h with
    | fork => exact .teeFork hs hcount.2
    | forkFails => exact .fail hs .teeFork
  | setup calls =>
    cases calls with
    | cons call calls =>
      cases call <;> cases h
      case dup2.dup2 => exact .call hs .tee
      case close.close => exact .call hs .tee
    | nil =>
      obtain ⟨fd, hfd, htab⟩ := htab
      replace htab : o.fds 1 = teeTable t fd := htab
      cases h with
      | openFile hfree =>
        rw [htab] at hfree ⊢
        rw [← teeFileTable_of_free hfree]
        exact .openFile hs hfd hfree
      | openFails => exact .fail hs .openFile
  | read fptr =>
    obtain ⟨fd, -, hfptr, htab⟩ := htab
    have hin : o.fds 1 0 = some (.readEnd 1) := htab ▸ teeFileTable_zero hfptr
    cases h with
    | read hfd hpipe =>
      cases hin.symm.trans hfd
      exact .teeRead hs hpipe
    | readEof hfd hpipe hnone =>
      cases hin.symm.trans hfd
      exact .teeEof hs hpipe fun hgrep => hnone (I.held_grep hgrep)
    | readBad hbad => exact (hbad 1 hin).elim
  | writeOut fptr c =>
    obtain ⟨fd, hpipe, hfptr, htab⟩ := htab
    have hout : o.fds 1 1 = some (.writeEnd 0) := htab ▸ teeFileTable_one hfptr
    cases h with
    | write hfd hheld hroom =>
      cases hout.symm.trans hfd
      exact .pass hs hroom
    | sigpipe hfd hnone =>
      cases hout.symm.trans hfd
      exact (hnone ⟨1, fd.1, htab ▸ teeFileTable_fst ht hpipe hfptr⟩).elim
    | writeFile hfd => cases hout.symm.trans hfd
    | writeFails hbad => exact (hbad 0 hout).elim
  | writeFile fptr c =>
    obtain ⟨fd, hpipe, hfptr, htab⟩ := htab
    rcases hfptr with rfl | hfree
    · have hnone : o.fds 1 (-1) = none := by
        rw [htab, teeFileTable_of_neg, teeTable_negative ht hpipe (by decide)]
      cases h with
      | write hfd => cases hnone.symm.trans hfd
      | sigpipe hfd => cases hnone.symm.trans hfd
      | writeFile hfd => cases hnone.symm.trans hfd
      | writeFails => exact .fail hs .writeFile
    · have hfile : o.fds 1 fptr = some (.file .tee) := by
        rw [htab, teeFileTable_of_free hfree, Function.update_self]
      cases h with
      | write hfd => cases hfile.symm.trans hfd
      | sigpipe hfd => cases hfile.symm.trans hfd
      | writeFile hfd =>
        cases hfile.symm.trans hfd
        exact .save hs hfree.1
      | writeFails => exact .fail hs .writeFile
  | closeFile fptr =>
    cases h
    exact .call hs .close
  | ended fptr =>
    cases h
    exact .exit hs .teeEnded
  | exit code =>
    cases h
    exact .exit hs .tee

/-- The tee can be read by as long as it reads. -/
theorem held_into (I : Task2Inv t o) {pc : TeePc} (hs : o.status 1 = .running (.tee pc))
    (hopen : pc.Open) : o.Held (.readEnd 1) := by
  have htab := I.family.table hs
  cases pc with
  | setup calls =>
    obtain ⟨fd, -, htab⟩ := htab
    obtain ⟨d, hd⟩ := TableCall.exists_of_foldl (htab ▸ teeTable_zero)
    exact ⟨1, d, hd⟩
  | read | writeOut | writeFile =>
    obtain ⟨fd, -, hfptr, htab⟩ := htab
    exact ⟨1, 0, htab ▸ teeFileTable_zero hfptr⟩
  | pipe | fork | closeFile | ended | exit => exact hopen.elim

theorem grep_cases (I : Task2Inv t o) {pc : GrepPc} (hs : o.status 2 = .running (.grep pc))
    (h : o.Serve cap 2 (.grep pc) (task2Grep T pc) ending o') :
    Task2Case T cap t o (2, ending) o' := by
  have htab := I.family.table hs
  cases pc with
  | setup calls =>
    cases calls with
    | cons call calls =>
      cases call <;> cases h
      case dup2.dup2 => exact .call hs .grep
      case close.close => exact .call hs .grep
    | nil =>
      cases h with
      | exec => exact .exec hs .grep
      | execFails => exact .fail hs .grepExec
  | run rest =>
    cases rest with
    | nil =>
      cases h
      exact .exit hs .grepEnded
    | cons c rest =>
      obtain ⟨fd, -, htab⟩ := htab
      have hout : o.fds 2 1 = some (.writeEnd 1) := htab ▸ grepTable_one
      cases h with
      | write hfd hheld hroom =>
        cases hout.symm.trans hfd
        exact .grepWrite hs hroom
      | sigpipe hfd hnone =>
        cases hout.symm.trans hfd
        obtain ⟨pc, htee, hopen⟩ := I.reader ⟨_, hs⟩
        exact (hnone (I.held_into htee hopen)).elim
      | writeFile hfd => cases hout.symm.trans hfd
      | writeFails hbad => exact (hbad 1 hout).elim
  | exit code =>
    cases h
    exact .exit hs .grep

theorem step_cases (I : Task2Inv t o) (ht : StdTable t) {call : Nat × CallEnd}
    (h : o.Step cap (task2 T) call o') : Task2Case T cap t o call o' := by
  obtain @⟨pid, ending, o', s, hs, h⟩ := h
  have hrole := I.family.role (Os.at?_of_running hs)
  cases s with
  | cmd pc =>
    cases hrole
    exact I.cmd_cases hs h
  | tee pc =>
    cases hrole
    exact I.tee_cases ht hs h
  | grep pc =>
    cases hrole
    exact I.grep_cases hs h

/-- A step of one process that makes no pipe and no process. -/
theorem move (I : Task2Inv t o) {pid : Nat} {s s' : Task2Pc} {st : Status Task2Pc}
    {u : Fds OutFile} (hs : o.status pid = .running s) (h : o.Moves o' pid st u)
    (hfamily : Family (Table t) role o') (hnext : o'.nextPipe = o.nextPipe)
    (hst : st.state = some s') (halive : ∀ s₁, st ≠ .killed s₁)
    (hcount : s.Counters o.nextPipe o.nextPid → s'.Counters o.nextPipe o.nextPid)
    (hfresh : ∀ {p}, o.nextPipe ≤ p → o'.pipe p = o.pipe p)
    (hreader : pid = 1 → o.Running 2 → ∃ pc : TeePc, st = .running (.tee pc) ∧ pc.Open) :
    Task2Inv t o' where
  family := hfamily
  counters {q s₁} hq := by
    rw [hnext, h.nextPid]
    by_cases hpid : q = pid
    · subst hpid
      rw [h.at?_self, hst] at hq
      cases hq
      exact hcount (I.counters (Os.at?_of_running hs))
    · exact I.counters ((h.at?_of_ne hpid).symm.trans hq)
  fresh {p} hp := by
    rw [hnext] at hp
    rw [hfresh hp, I.fresh hp]
  reader hrun := by
    have hrun' : o.Running 2 := by
      obtain ⟨s₁, hs₁⟩ := hrun
      by_cases hpid : 2 = pid
      · exact ⟨s, hpid ▸ hs⟩
      · exact ⟨s₁, (h.status_of_ne hpid).symm.trans hs₁⟩
    by_cases hpid : 1 = pid
    · rw [hpid, h.status_self]
      exact hreader hpid.symm hrun'
    · rw [h.status_of_ne hpid]
      exact I.reader hrun'
  alive {q s₁} hq := by
    by_cases hpid : q = pid
    · subst hpid
      exact halive s₁ (h.status_self.symm.trans hq)
    · exact I.alive ((h.status_of_ne hpid).symm.trans hq)
  begun := h.nextPid ▸ I.begun

theorem goto (I : Task2Inv t o) {pid : Nat} {s s' : Task2Pc} {u : Fds OutFile}
    (hs : o.status pid = .running s) (h : o.Moves o' pid (.running s') u)
    (hnext : o'.nextPipe = o.nextPipe) (htab : s'.Table t u) (hrole : s'.role = s.role)
    (hcount : s.Counters o.nextPipe o.nextPid → s'.Counters o.nextPipe o.nextPid)
    (hfresh : ∀ {p}, o.nextPipe ≤ p → o'.pipe p = o.pipe p)
    (hreader : pid = 1 → o.Running 2 → ∃ pc : TeePc, s' = .tee pc ∧ pc.Open) : Task2Inv t o' := by
  refine I.move hs h (I.family.move hs h ?_ (fun hnot => (hnot _ rfl).elim) rfl hrole) hnext rfl
    (by simp) hcount hfresh ?_
  · rintro _ ⟨⟩
    exact htab
  · rintro rfl hrun
    obtain ⟨pc, rfl, hopen⟩ := hreader rfl hrun
    exact ⟨pc, rfl, hopen⟩

/-- The pipe that a byte is written to or read from is not a new one. -/
theorem fresh_setPipe {n p q : Nat} {bytes : List UInt8} (hp : p < n) (hq : n ≤ q) :
    (o.setPipe p bytes).pipe q = o.pipe q :=
  Function.update_of_ne (hp.trans_le hq).ne' ..

theorem call (I : Task2Inv t o) {pid : Nat} {s s' : Task2Pc} {c : TableCall}
    (hs : o.status pid = .running s) (h : s.Calls c s') :
    Task2Inv t ((o.setFds pid (c.run (o.fds pid))).goto pid s') := by
  have htab := I.family.table hs
  have hrole := I.family.role (Os.at?_of_running hs)
  refine I.goto hs ⟨rfl, rfl, rfl⟩ rfl ?_ ?_ ?_ (fun _ => rfl) fun hpid hrun => ?_
  · cases h with
    | cmd | tee | grep => exact htab
    | close =>
      obtain ⟨fd, hfd, hfptr, htab⟩ := htab
      rw [htab]
      exact teeFileTable_close hfptr
  · cases h <;> rfl
  · cases h <;> exact id
  · subst hpid
    cases h with
    | cmd | grep => cases hrole
    | tee => exact ⟨_, rfl, trivial⟩
    | close =>
      obtain ⟨pc, htee, hopen⟩ := I.reader hrun
      cases hs.symm.trans htee
      exact hopen.elim

theorem exec (I : Task2Inv t o) {pid : Nat} {s s' : Task2Pc} (hs : o.status pid = .running s)
    (h : s.Execs T s') : Task2Inv t (o.goto pid s') := by
  have htab := I.family.table hs
  have hrole := I.family.role (Os.at?_of_running hs)
  refine I.goto hs (Os.moves_goto rfl rfl rfl) rfl ?_ ?_ ?_ (fun _ => rfl) fun hpid _ => ?_
  · cases h <;> exact htab
  · cases h <;> rfl
  · cases h <;> exact id
  · subst hpid
    cases h <;> cases hrole

theorem fail (I : Task2Inv t o) {pid : Nat} {s s' : Task2Pc} (hs : o.status pid = .running s)
    (h : s.Fails s') : Task2Inv t (o.goto pid s') := by
  have htab := I.family.table hs
  have hrole := I.family.role (Os.at?_of_running hs)
  refine I.goto hs (Os.moves_goto rfl rfl rfl) rfl ?_ ?_ ?_ (fun _ => rfl) fun hpid hrun => ?_
  · cases h with
    | cmdPipe | cmdFork | cmdExec | teePipe | teeFork => trivial
    | openFile =>
      obtain ⟨fd, hfd, htab⟩ := htab
      exact ⟨fd, hfd, .inl rfl, teeFileTable_of_neg ▸ htab⟩
    | writeFile | grepExec => exact htab
  · cases h <;> rfl
  · cases h with
    | cmdPipe | cmdFork | cmdExec | teePipe | teeFork => exact fun _ => trivial
    | openFile | writeFile | grepExec => exact id
  · subst hpid
    obtain ⟨pc, htee, hopen⟩ := I.reader hrun
    cases h with
    | cmdPipe | cmdFork | cmdExec | grepExec => cases hrole
    | teePipe | teeFork =>
      cases hs.symm.trans htee
      exact hopen.elim
    | openFile | writeFile => exact ⟨_, rfl, trivial⟩

theorem exit (I : Task2Inv t o) {pid : Nat} {s : Task2Pc} (hs : o.status pid = .running s)
    (h : s.Exits T) : Task2Inv t (o.finish pid (.exited s)) := by
  have hrole := I.family.role (Os.at?_of_running hs)
  refine I.move hs ⟨rfl, rfl, rfl⟩ (I.family.finish hs (.inl rfl)) rfl rfl (by simp) id
    (fun _ => rfl) fun hpid hrun => ?_
  subst hpid
  obtain ⟨pc, htee, hopen⟩ := I.reader hrun
  cases hs.symm.trans htee
  cases h <;> exact hopen.elim

/-- With one more process or pipe: of the processes that there were only `pid` has changed. -/
theorem grow (I : Task2Inv t o) {pid : Nat} {s : Task2Pc} (s' child : Task2Pc)
    (hs : o.status pid = .running s)
    (hfamily : Family (Table t) role o') (hpipe : o'.pipe = o.pipe)
    (hnext : o.nextPipe ≤ o'.nextPipe)
    (hself : o'.status pid = .running s') (hcount : s'.Counters o'.nextPipe o'.nextPid)
    (hchild : o.nextPid < o'.nextPid → o'.status o.nextPid = .running child ∧
      child.Counters o'.nextPipe o'.nextPid)
    (hother : ∀ q < o.nextPid, q ≠ pid → o'.status q = o.status q ∧
      ∀ s₁ : Task2Pc, s₁.role = q → s₁.Counters o.nextPipe o.nextPid →
        s₁.Counters o'.nextPipe o'.nextPid)
    (hpid : o'.nextPid ≤ o.nextPid + 1)
    (hreader : o'.Running 2 → ∃ pc : TeePc, o'.status 1 = .running (.tee pc) ∧ pc.Open) :
    Task2Inv t o' := by
  -- every process is the one that made the call, its child, or another one
  have hcases {q : Nat} {s₁ : Task2Pc} (hq : o'.at? q = some s₁) :
      s₁.Counters o'.nextPipe o'.nextPid ∧ ∀ s₂, o'.status q ≠ .killed s₂ := by
    rcases lt_trichotomy q o.nextPid with hlt | rfl | hgt
    · by_cases hne : q = pid
      · subst hne
        rw [Os.at?_of_running hself] at hq
        cases hq
        exact ⟨hcount, by simp [hself]⟩
      · obtain ⟨hstatus, hkeep⟩ := hother q hlt hne
        have hat : o.at? q = some s₁ := by rwa [Os.at?, hstatus] at hq
        exact ⟨hkeep s₁ (I.family.role hat) (I.counters hat), by simp [hstatus, I.alive]⟩
    · by_cases hlt : o.nextPid < o'.nextPid
      · obtain ⟨hstatus, hkeep⟩ := hchild hlt
        rw [Os.at?_of_running hstatus] at hq
        cases hq
        exact ⟨hkeep, by simp [hstatus]⟩
      · rw [Os.at?, hfamily.absent (not_lt.1 hlt)] at hq
        cases hq
    · rw [Os.at?, hfamily.absent (by omega)] at hq
      cases hq
  refine ⟨hfamily, fun hq => (hcases hq).1, fun hp => ?_, hreader, fun {q s₂} hq => ?_,
    (Nat.zero_le _).trans_lt (hfamily.pid_lt hself)⟩
  · rw [hpipe, I.fresh (hnext.trans hp)]
  · have hat : o'.at? q = some s₂ := by rw [Os.at?, hq, Status.state]
    exact (hcases hat).2 s₂ hq

/-- The command has made its pipe and its process when there is a tee. -/
theorem counters_cmd {s : Task2Pc} {n n' m m' : Nat} (hrole : s.role = 0) (hm : 2 ≤ m) (hm' : m ≤ m')
    (h : s.Counters n m) : s.Counters n' m' := by
  cases s with
  | tee | grep => cases hrole
  | cmd pc =>
    cases pc with
    | pipe | fork =>
      have hpid : m = 1 := h.2
      omega
    | setup | run | ended => exact le_trans h hm'
    | exit => trivial

/-- `grep` cannot run before it is there. -/
theorem not_running (I : Task2Inv t o) {q : Nat} (h : o.nextPid ≤ q) : ¬o.Running q := by
  rintro ⟨s, hs⟩
  rw [I.family.absent h] at hs
  cases hs

theorem cmdPipe (I : Task2Inv t o) (hs : o.status 0 = .running (.cmd .pipe)) {fd : Int × Int}
    (hfd : t.NewPipe fd) (hnext : o.nextPipe = 0) (hpid : o.nextPid = 1) :
    Task2Inv t ((({ o with nextPipe := 1 }).setFds 0 (t.withPipe fd 0)).goto 0
      (.cmd (.fork fd))) := by
  refine I.grow (.cmd (.fork fd)) (.cmd .pipe) hs
    (I.family.setFds hs rfl rfl rfl ⟨hfd, rfl⟩ rfl) rfl (hnext.trans_le (Nat.zero_le _))
    Os.status_goto_self ⟨rfl, hpid⟩ (fun hlt => (lt_irrefl _ hlt).elim) (fun q hq hne => ?_)
    (Nat.le_succ _) ?_
  · omega
  · rintro ⟨s, hs'⟩
    rw [Os.goto, Os.setFds] at hs'
    exact (I.not_running (q := 2) (by omega) ⟨s, by simpa using hs'⟩).elim

theorem cmdFork (I : Task2Inv t o) {fd : Int × Int} (hs : o.status 0 = .running (.cmd (.fork fd)))
    (ht : StdTable t) (hnext : o.nextPipe = 1) (hpid : o.nextPid = 1) :
    Task2Inv t ((o.spawn 0 (.tee (.pipe fd))).goto 0
      (.cmd (.setup [.dup2 fd.1 0, .close fd.1, .close fd.2]))) := by
  obtain ⟨hfd, htab⟩ := I.family.table hs
  refine I.grow (.cmd (.setup _)) (.tee (.pipe fd)) hs
    (I.family.fork hs ?_ ⟨hfd, htab⟩ rfl hpid.symm) rfl le_rfl Os.status_goto_self ?_
    (fun _ => ⟨?_, hnext, ?_⟩) (fun q hq hne => ?_) le_rfl ?_
  · rw [Table, htab]
    exact hfd.cmdTable ht
  · exact (Nat.succ_le_succ hpid.ge :)
  · simp [Os.goto, Os.spawn, hpid]
  · exact congrArg (· + 1) hpid
  · omega
  · rintro ⟨s, hs'⟩
    refine (I.not_running (q := 2) (by omega) ⟨s, ?_⟩).elim
    simpa [Os.goto, Os.spawn, hpid] using hs'

theorem teePipe (I : Task2Inv t o) {fd fd1 : Int × Int}
    (hs : o.status 1 = .running (.tee (.pipe fd))) (hfd : t.NewPipe fd)
    (hfd1 : (t.withPipe fd 0).NewPipe fd1) (hnext : o.nextPipe = 1) (hpid : o.nextPid = 2) :
    Task2Inv t ((({ o with nextPipe := 2 }).setFds 1 ((t.withPipe fd 0).withPipe fd1 1)).goto 1
      (.tee (.fork fd fd1))) := by
  refine I.grow (.tee (.fork fd fd1)) (.cmd .pipe) hs
    (I.family.setFds hs rfl rfl rfl ⟨hfd, hfd1, rfl⟩ rfl) rfl (hnext.trans_le (Nat.le_succ _))
    Os.status_goto_self ⟨rfl, hpid⟩ (fun hlt => (lt_irrefl _ hlt).elim) (fun q hq hne => ⟨?_, ?_⟩)
    (Nat.le_succ _) ?_
  · simp [Os.goto, Os.setFds, hne]
  · intro s₁ hrole
    exact counters_cmd (by omega) hpid.ge le_rfl
  · rintro ⟨s, hs'⟩
    refine (I.not_running (q := 2) hpid.le ⟨s, ?_⟩).elim
    simpa [Os.goto, Os.setFds] using hs'

theorem teeFork (I : Task2Inv t o) {fd fd1 : Int × Int}
    (hs : o.status 1 = .running (.tee (.fork fd fd1))) (ht : StdTable t) (hpid : o.nextPid = 2) :
    Task2Inv t ((o.spawn 1 (.grep (.setup [.dup2 fd1.2 1, .close fd1.1, .close fd1.2]))).goto 1
      (.tee (.setup [.dup2 fd1.1 0, .dup2 fd.2 1, .close fd1.1, .close fd1.2]))) := by
  obtain ⟨hfd, hfd1, htab⟩ := I.family.table hs
  have hnext : o.nextPipe = 2 := (I.counters (Os.at?_of_running hs)).1
  refine I.grow (.tee (.setup _)) (.grep (.setup [.dup2 fd1.2 1, .close fd1.1, .close fd1.2])) hs
    (I.family.fork hs ⟨fd, hfd, ?_⟩ ⟨fd, hfd, ?_⟩ rfl hpid.symm) rfl le_rfl Os.status_goto_self
    ⟨hnext, ?_⟩ (fun _ => ⟨?_, hnext, ?_⟩) (fun q hq hne => ⟨?_, ?_⟩) le_rfl fun _ => ?_
  · rw [htab]
    exact hfd.teeTable ht hfd1
  · rw [htab]
    exact hfd.grepTable ht hfd1
  · exact congrArg (· + 1) hpid
  · simp [Os.goto, Os.spawn, hpid]
  · exact congrArg (· + 1) hpid
  · simp [Os.goto, Os.spawn, hne, hq.ne]
  · intro s₁ hrole
    exact counters_cmd (by omega) hpid.ge (Nat.le_succ _)
  · exact ⟨_, Os.status_goto_self, trivial⟩

theorem step (I : Task2Inv t o) (ht : StdTable t) {call : Nat × CallEnd}
    (h : Task2Case T cap t o call o') : Task2Inv t o' := by
  cases h with
  | cmdPipe hs hfd hnext hpid => exact I.cmdPipe hs hfd hnext hpid
  | cmdFork hs hnext hpid => exact I.cmdFork hs ht hnext hpid
  | teePipe hs hfd hfd1 hnext hpid => exact I.teePipe hs hfd hfd1 hnext hpid
  | teeFork hs hpid => exact I.teeFork hs ht hpid
  | call hs h => exact I.call hs h
  | exec hs h => exact I.exec hs h
  | fail hs h => exact I.fail hs h
  | exit hs h => exact I.exit hs h
  | openFile hs hfd hfree =>
    exact I.goto hs ⟨rfl, rfl, rfl⟩ rfl ⟨_, hfd, .inr hfree, rfl⟩ rfl id (fun _ => rfl)
      fun _ _ => ⟨_, rfl, trivial⟩
  | grepWrite hs hroom =>
    have hnext : o.nextPipe = 2 := (I.counters (Os.at?_of_running hs)).1
    exact I.goto hs (Os.moves_goto rfl rfl rfl) rfl (I.family.table hs :) rfl id
      (fun hp => fresh_setPipe (n := 2) (by decide) (hnext ▸ hp)) (by simp)
  | teeRead hs hpipe =>
    have hnext : o.nextPipe = 2 := (I.counters (Os.at?_of_running hs)).1
    exact I.goto hs (Os.moves_goto rfl rfl rfl) rfl (I.family.table hs :) rfl id
      (fun hp => fresh_setPipe (n := 2) (by decide) (hnext ▸ hp)) fun _ _ => ⟨_, rfl, trivial⟩
  | teeEof hs hpipe hgrep =>
    exact I.goto hs (Os.moves_goto rfl rfl rfl) rfl (I.family.table hs :) rfl id (fun _ => rfl)
      fun _ hrun => (hgrep hrun).elim
  | pass hs hroom =>
    have hnext : o.nextPipe = 2 := (I.counters (Os.at?_of_running hs)).1
    exact I.goto hs (Os.moves_goto rfl rfl rfl) rfl (I.family.table hs :) rfl id
      (fun hp => fresh_setPipe (n := 2) (by decide) (hnext ▸ hp)) fun _ _ => ⟨_, rfl, trivial⟩
  | save hs hfptr =>
    exact I.goto hs (Os.moves_goto rfl rfl rfl) rfl (I.family.table hs :) rfl id (fun _ => rfl)
      fun _ _ => ⟨_, rfl, trivial⟩
  | cmdRead hs hreads hpipe =>
    have hlt : 0 < o.nextPipe := by
      by_contra hnot
      simp [I.fresh (not_lt.1 hnot)] at hpipe
    exact I.goto hs (Os.moves_goto rfl rfl rfl) rfl (I.family.table hs :) rfl id
      (fun hp => fresh_setPipe hlt hp) (by simp)
  | cmdEof hs hreads hpipe hnone =>
    exact I.goto hs (Os.moves_goto rfl rfl rfl) rfl (I.family.table hs :) rfl id (fun _ => rfl)
      (by simp)

end Task2Inv

end

end CS330
