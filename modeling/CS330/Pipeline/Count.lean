import CS330.Lib.Family
import CS330.Pipeline.Tables

/-! # `task1` counts all lines

Both ends of the pipe that a process does not use are closed before `execl`, so `wc` reads the end of
its input when `grep` has exited, and `grep` is killed when nobody can read what it writes. -/

namespace CS330

namespace Task1Pc

/-- The number of the process. -/
def role : Task1Pc → Nat
  | wc _ => 0
  | grep _ => 1

/-- The table of `grep`. -/
def grepTable (t : Fds OutFile) : Fds OutFile := Function.update t 1 (some (.writeEnd 0))

/-- The table of the process; its program was started with `t`. -/
def Table (t : Fds OutFile) : Task1Pc → Fds OutFile → Prop
  | wc .pipe, u => u = t
  | wc (.fork fd), u => t.NewPipe fd ∧ u = t.withPipe fd 0
  | wc (.setup calls), u => calls.foldl TableCall.run u = cmdTable t
  | wc (.run _), u | wc (.print _ _), u => u = cmdTable t
  | wc (.exit _), _ => True
  | grep (.setup calls), u => calls.foldl TableCall.run u = grepTable t
  | grep (.run _), u | grep (.exit _), u => u = grepTable t

/-- How many pipes and processes there are. -/
def Counters (nextPipe nextPid : Nat) : Task1Pc → Prop
  | wc .pipe => nextPipe = 0 ∧ nextPid = 1
  | wc (.fork _) => nextPipe = 1 ∧ nextPid = 1
  | wc (.exit _) => True
  | wc _ | grep _ => nextPipe = 1 ∧ nextPid = 2

/-- What `wc` has read. -/
def seen : Task1Pc → List UInt8
  | wc (.run seen) | wc (.print seen _) => seen
  | _ => []

/-- What `grep` has still to write. -/
def rest (T : Tools) : Task1Pc → List UInt8
  | grep (.run rest) => rest
  | _ => T.grepOutput

/-- What `wc` prints. -/
def report : Task1Pc → List UInt8
  | wc (.print seen _) => wcReport seen
  | _ => []

/-- What of it is not yet printed. -/
def toPrint : Task1Pc → List UInt8
  | wc (.print _ rest) => rest
  | _ => []

/-- How many steps the process takes at most, the passing of the bytes apart. -/
def weight (T : Tools) : Task1Pc → Nat
  | wc .pipe => T.grepOutput.length + 15
  | wc (.fork _) => T.grepOutput.length + 14
  | wc (.setup calls) => calls.length + T.grepOutput.length + 5
  | wc (.run _) => T.grepOutput.length + 4
  | wc (.print _ rest) => rest.length + 1
  | grep (.setup calls) => calls.length + 2
  | wc (.exit _) | grep (.run _) | grep (.exit _) => 1

/-- A call that changes nothing but the table of the process. -/
inductive Calls : Task1Pc → TableCall → Task1Pc → Prop where
  | wc : Calls (wc (.setup (call :: calls))) call (wc (.setup calls))
  | grep : Calls (grep (.setup (call :: calls))) call (grep (.setup calls))

inductive Execs (T : Tools) : Task1Pc → Task1Pc → Prop where
  | wc : Execs T (wc (.setup [])) (wc (.run []))
  | grep : Execs T (grep (.setup [])) (grep (.run T.grepOutput))

/-- A call fails. -/
inductive Fails : Task1Pc → Task1Pc → Prop where
  | pipe : Fails (wc .pipe) (wc (.exit (-1)))
  | fork : Fails (wc (.fork fd)) (wc (.exit (-1)))
  | wcExec : Fails (wc (.setup [])) (wc (.exit 0))
  | grepExec : Fails (grep (.setup [])) (grep (.exit 0))
  | print : Fails (wc (.print bytes (c :: more))) (wc (.print bytes more))

/-- The process exits here. -/
inductive Exits : Task1Pc → Prop where
  | printed : Exits (wc (.print bytes []))
  | wc : Exits (wc (.exit code))
  | written : Exits (grep (.run []))
  | grep : Exits (grep (.exit code))

end Task1Pc

open Task1Pc

/-- What a step of `task1` does. -/
inductive Task1Case (T : Tools) (cap : Nat) (t : Fds OutFile) (o : Os OutFile Task1Pc) :
    Nat × CallEnd → Os OutFile Task1Pc → Prop where
  | pipe (hs : o.status 0 = .running (.wc .pipe)) (hfd : t.NewPipe fd)
    (hnext : o.nextPipe = 0) (hpid : o.nextPid = 1) : Task1Case T cap t o (0, .done)
      ((({ o with nextPipe := 1 }).setFds 0 (t.withPipe fd 0)).goto 0 (.wc (.fork fd)))
  | fork (hs : o.status 0 = .running (.wc (.fork fd))) (hnext : o.nextPipe = 1)
    (hpid : o.nextPid = 1) : Task1Case T cap t o (0, .done)
      ((o.spawn 0 (.grep (.setup [.dup2 fd.2 1, .close fd.1, .close fd.2]))).goto 0
        (.wc (.setup [.dup2 fd.1 0, .close fd.2, .close fd.1])))
  | call (hs : o.status pid = .running s) (h : s.Calls c s') : Task1Case T cap t o (pid, .done)
      ((o.setFds pid (c.run (o.fds pid))).goto pid s')
  | exec (hs : o.status pid = .running s) (h : s.Execs T s') :
    Task1Case T cap t o (pid, .done) (o.goto pid s')
  | fail (hs : o.status pid = .running s) (h : s.Fails s') :
    Task1Case T cap t o (pid, .failed) (o.goto pid s')
  | exit (hs : o.status pid = .running s) (h : s.Exits) :
    Task1Case T cap t o (pid, .done) (o.finish pid (.exited s))
  | write (hs : o.status 1 = .running (.grep (.run (c :: more))))
    (hroom : (o.pipe 0).length < cap) : Task1Case T cap t o (1, .done)
      ((o.setPipe 0 (o.pipe 0 ++ [c])).goto 1 (.grep (.run more)))
  | killed (hs : o.status 1 = .running (.grep (.run more))) (hnone : ¬o.Held (.readEnd 0)) :
    Task1Case T cap t o (1, .sigpipe) (o.finish 1 (.killed (.grep (.run more))))
  | read {c : UInt8} {pipe : List UInt8} (hs : o.status 0 = .running (.wc (.run bytes)))
    (hpipe : o.pipe 0 = c :: pipe) : Task1Case T cap t o (0, .done)
      ((o.setPipe 0 pipe).goto 0 (.wc (.run (bytes ++ [c]))))
  | eof (hs : o.status 0 = .running (.wc (.run bytes))) (hpipe : o.pipe 0 = [])
    (hgrep : ¬o.Running 1) :
    Task1Case T cap t o (0, .done) (o.goto 0 (.wc (.print bytes (wcReport bytes))))
  | print (hs : o.status 0 = .running (.wc (.print bytes (c :: more)))) :
    Task1Case T cap t o (0, .done)
      ({ o with file := Function.update o.file .terminal (o.file .terminal ++ [c]) }.goto 0
        (.wc (.print bytes more)))

/-- What every run of `task1` keeps; before it the terminal has `screen`, and `ok` says that no call
has failed in it. -/
structure Task1Inv (T : Tools) (t : Fds OutFile) (screen : List UInt8) (ok : Prop)
    (o : Os OutFile Task1Pc) : Prop where
  family : Family (Table t) role o
  counters : ∀ {pid s}, o.at? pid = some s → s.Counters o.nextPipe o.nextPid
  fresh : ∀ {p}, o.nextPipe ≤ p → o.pipe p = []
  begun : 0 < o.nextPid
  whole : o.look 0 seen [] ++ o.pipe 0 ++ o.look 1 (rest T) T.grepOutput = T.grepOutput
  printed : ok → o.file .terminal ++ o.look 0 toPrint [] = screen ++ o.look 0 report []
  eof : ∀ {bytes more}, o.at? 0 = some (.wc (.print bytes more)) → ¬o.Running 1 ∧ o.pipe 0 = []

section
variable {T : Tools} {cap : Nat} {t : Fds OutFile} {screen : List UInt8} {ok ok' : Prop}
  {o o' : Os OutFile Task1Pc} {pid : Nat} {s s' : Task1Pc} {u : Fds OutFile} {call : Nat × CallEnd}
  {ending : CallEnd}

theorem cmdTable_zero : cmdTable t 0 = some (.readEnd 0) := by simp [cmdTable]

theorem cmdTable_one (ht : StdTable t) : cmdTable t 1 = some (.file .terminal) := by
  rw [cmdTable, Function.update_of_ne (by decide), ht.stdout]

theorem grepTable_zero : Task1Pc.grepTable t 1 = some (.writeEnd 0) := by simp [Task1Pc.grepTable]

/-- `grep` cannot read the pipe. -/
theorem grepTable_apply (ht : StdTable t) {d : Int} {p : Nat} :
    Task1Pc.grepTable t d ≠ some (.readEnd p) := by
  rw [Task1Pc.grepTable, Function.update_apply]
  split
  next => simp
  next => exact (ht.no_pipe d p).1

/-! ## The calls before `execl` -/

theorem Fds.NewPipe.wcTable {fd : Int × Int} (h : t.NewPipe fd) (ht : StdTable t) :
    [TableCall.dup2 fd.1 0, .close fd.2, .close fd.1].foldl TableCall.run (t.withPipe fd 0) =
      CS330.cmdTable t := by
  obtain ⟨h1, h2⟩ := h.ne ht.stdin
  simp only [List.foldl_cons, List.foldl_nil, TableCall.run, Fds.dup2_of_some h.withPipe_fst]
  refine Fds.close_close (fun x hx2 hx1 => ?_) ?_ ?_
  · rw [CS330.cmdTable, Function.update_apply, Function.update_apply, Fds.withPipe_apply, if_neg hx2,
      if_neg hx1]
  · rw [CS330.cmdTable, Function.update_of_ne h2.symm, h.2.1.2]
  · rw [CS330.cmdTable, Function.update_of_ne h1.symm, h.1.2]

theorem Fds.NewPipe.task1GrepTable {fd : Int × Int} (h : t.NewPipe fd) (ht : StdTable t) :
    [TableCall.dup2 fd.2 1, .close fd.1, .close fd.2].foldl TableCall.run (t.withPipe fd 0) =
      Task1Pc.grepTable t := by
  obtain ⟨h1, h2⟩ := h.ne ht.stdout_ne
  simp only [List.foldl_cons, List.foldl_nil, TableCall.run, Fds.dup2_of_some Fds.withPipe_snd]
  refine Fds.close_close (fun x hx1 hx2 => ?_) ?_ ?_
  · rw [Task1Pc.grepTable, Function.update_apply, Function.update_apply, Fds.withPipe_apply,
      if_neg hx2, if_neg hx1]
  · rw [Task1Pc.grepTable, Function.update_of_ne h1.symm, h.1.2]
  · rw [Task1Pc.grepTable, Function.update_of_ne h2.symm, h.2.1.2]

namespace Task1Inv

variable (I : Task1Inv T t screen ok o)
include I

theorem mono (h : ok' → ok) : Task1Inv T t screen ok' o := { I with printed := I.printed ∘ h }

/-- `grep` can write as long as it runs. -/
theorem held_grep (h : o.Running 1) : o.Held (.writeEnd 0) := by
  obtain ⟨s, hs⟩ := h
  have htab := I.family.table hs
  have hrole := I.family.role (Os.at?_of_running hs)
  match s with
  | .grep (.setup calls) =>
    have htab : calls.foldl TableCall.run (o.fds 1) = Task1Pc.grepTable t := htab
    obtain ⟨d, hd⟩ := TableCall.exists_of_foldl (htab ▸ grepTable_zero)
    exact ⟨1, d, hd⟩
  | .grep (.run _) | .grep (.exit _) =>
    have htab : o.fds 1 = Task1Pc.grepTable t := htab
    exact ⟨1, 1, htab ▸ grepTable_zero⟩

/-- Nothing is in a pipe that does not exist. -/
theorem setPipe_fresh {n : Nat} :
    { o with nextPipe := n }.setPipe o.nextPipe [] = { o with nextPipe := n } := by
  rw [Os.setPipe, ← I.fresh le_rfl, Function.update_eq_self]

theorem wc_cases (ht : StdTable t) {pc : WcPc} (hs : o.status 0 = .running (.wc pc))
    (h : o.Serve cap 0 (.wc pc) (task1Wc pc) ending o') : Task1Case T cap t o (0, ending) o' := by
  have htab := I.family.table hs
  have hcount := I.counters (Os.at?_of_running hs)
  cases pc with
  | pipe =>
    cases h with
    | pipe hfd =>
      rw [I.setPipe_fresh, hcount.1, htab]
      exact .pipe hs (htab ▸ hfd) hcount.1 hcount.2
    | pipeFails => exact .fail hs .pipe
  | fork fd =>
    cases h with
    | fork => exact .fork hs hcount.1 hcount.2
    | forkFails => exact .fail hs .fork
  | setup calls =>
    cases calls with
    | cons call calls =>
      cases call <;> cases h
      case dup2.dup2 => exact .call hs .wc
      case close.close => exact .call hs .wc
    | nil =>
      cases h with
      | exec => exact .exec hs .wc
      | execFails => exact .fail hs .wcExec
  | run seen =>
    have htab : o.fds 0 = cmdTable t := htab
    have hin : o.fds 0 0 = some (.readEnd 0) := htab ▸ cmdTable_zero
    cases h with
    | read hfd hpipe =>
      cases hin.symm.trans hfd
      exact .read hs hpipe
    | readEof hfd hpipe hnone =>
      cases hin.symm.trans hfd
      exact .eof hs hpipe fun hgrep => hnone (I.held_grep hgrep)
    | readBad hbad => exact (hbad 0 hin).elim
  | print seen rest =>
    cases rest with
    | nil =>
      cases h
      exact .exit hs .printed
    | cons c rest =>
      have htab : o.fds 0 = cmdTable t := htab
      have hout : o.fds 0 1 = some (.file .terminal) := htab ▸ cmdTable_one ht
      cases h with
      | write hfd => cases hout.symm.trans hfd
      | sigpipe hfd => cases hout.symm.trans hfd
      | writeFile hfd =>
        cases hout.symm.trans hfd
        exact .print hs
      | writeFails => exact .fail hs .print
  | exit code =>
    cases h
    exact .exit hs .wc

theorem grep_cases {pc : GrepPc} (hs : o.status 1 = .running (.grep pc))
    (h : o.Serve cap 1 (.grep pc) (task1Grep T pc) ending o') :
    Task1Case T cap t o (1, ending) o' := by
  have htab := I.family.table hs
  cases pc with
  | setup calls =>
    cases calls with
    | cons call calls =>
      cases call <;> cases h
      case dup2.dup2 => exact .call hs .grep
      case close.close => exact .call hs .grep
    | nil =>
      cases h with
      | exec => exact .exec hs .grep
      | execFails => exact .fail hs .grepExec
  | run rest =>
    cases rest with
    | nil =>
      cases h
      exact .exit hs .written
    | cons c rest =>
      have htab : o.fds 1 = Task1Pc.grepTable t := htab
      have hout : o.fds 1 1 = some (.writeEnd 0) := htab ▸ grepTable_zero
      cases h with
      | write hfd hheld hroom =>
        cases hout.symm.trans hfd
        exact .write hs hroom
      | sigpipe hfd hnone =>
        cases hout.symm.trans hfd
        exact .killed hs hnone
      | writeFile hfd => cases hout.symm.trans hfd
      | writeFails hbad => exact (hbad 0 hout).elim
  | exit code =>
    cases h
    exact .exit hs .grep

theorem step_cases (ht : StdTable t) (h : o.Step cap (task1 T) call o') :
    Task1Case T cap t o call o' := by
  obtain @⟨pid, ending, o', s, hs, h⟩ := h
  have hrole := I.family.role (Os.at?_of_running hs)
  cases s with
  | wc pc =>
    cases hrole
    exact I.wc_cases ht hs h
  | grep pc =>
    cases hrole
    exact I.grep_cases hs h

/-- There are two processes at most. -/
theorem pid_cases (hs : o.status pid = .running s) : pid = 0 ∧ (∃ pc, s = .wc pc) ∨
    pid = 1 ∧ ∃ pc, s = .grep pc := by
  have hrole := I.family.role (Os.at?_of_running hs)
  cases s with
  | wc pc => exact .inl ⟨hrole.symm, pc, rfl⟩
  | grep pc => exact .inr ⟨hrole.symm, pc, rfl⟩

/-- A step of one process that makes no pipe and no process. -/
theorem move {st : Status Task1Pc} (s' : Task1Pc) (hs : o.status pid = .running s)
    (hm : o.Moves o' pid st u) (hfamily : Family (Table t) role o')
    (hnext : o'.nextPipe = o.nextPipe) (hst : st.state = some s')
    (hcount : s.Counters o.nextPipe o.nextPid → s'.Counters o.nextPipe o.nextPid)
    (hfresh : ∀ {p}, o.nextPipe ≤ p → o'.pipe p = o.pipe p)
    (hwhole : o'.look 0 seen [] ++ o'.pipe 0 ++ o'.look 1 (rest T) T.grepOutput =
      o.look 0 seen [] ++ o.pipe 0 ++ o.look 1 (rest T) T.grepOutput)
    (hprinted : ok → o'.file .terminal ++ o'.look 0 toPrint [] = screen ++ o'.look 0 report [])
    (heof : pid = 0 → ∀ bytes more, s' = .wc (.print bytes more) → ¬o.Running 1 ∧ o'.pipe 0 = []) :
    Task1Inv T t screen ok o' where
  family := hfamily
  counters {q s₁} hq := by
    rw [hnext, hm.nextPid]
    by_cases hpid : q = pid
    · subst hpid
      rw [hm.at?_self, hst] at hq
      cases hq
      exact hcount (I.counters (Os.at?_of_running hs))
    · exact I.counters ((hm.at?_of_ne hpid).symm.trans hq)
  fresh {p} hp := by
    rw [hnext] at hp
    rw [hfresh hp, I.fresh hp]
  begun := hm.nextPid ▸ I.begun
  whole := hwhole.trans I.whole
  printed := hprinted
  eof {bytes more} hat := by
    rcases I.pid_cases hs with ⟨rfl, -⟩ | ⟨rfl, -⟩
    · rw [hm.at?_self, hst] at hat
      obtain ⟨h1, hnil⟩ := heof rfl bytes more (Option.some.inj hat)
      exact ⟨fun hrun => h1 ((hm.running_of_ne (by decide)).1 hrun), hnil⟩
    · -- `grep` does not run any more then
      rw [hm.at?_of_ne (by decide)] at hat
      exact ((I.eof hat).1 ⟨s, hs⟩).elim

/-- A step that moves no byte. -/
theorem still (s' : Task1Pc) (hs : o.status pid = .running s) (hm : o.Moves o' pid (.running s') u)
    (hnext : o'.nextPipe = o.nextPipe) (htab : s'.Table t u) (hrole : s'.role = s.role)
    (hcount : s.Counters o.nextPipe o.nextPid → s'.Counters o.nextPipe o.nextPid)
    (hpipe : o'.pipe = o.pipe) (hfile : o'.file = o.file) (hseen : s'.seen = s.seen)
    (hrest : s'.rest T = s.rest T) (hreport : s'.report = s.report)
    (htoPrint : ok → s'.toPrint = s.toPrint)
    (heof : pid = 0 → ∀ bytes more, s' = .wc (.print bytes more) → ¬o.Running 1 ∧ o.pipe 0 = []) :
    Task1Inv T t screen ok o' := by
  refine I.move s' hs hm (I.family.move hs hm ?_ (fun hnot => (hnot _ rfl).elim) rfl hrole) hnext rfl
    hcount (fun _ => by rw [hpipe]) ?_ ?_ fun hpid bytes more h => hpipe ▸ heof hpid bytes more h
  · rintro _ ⟨⟩
    exact htab
  · rw [hm.look_eq hs rfl hseen, hm.look_eq hs rfl hrest, hpipe]
  · intro hok
    rw [hm.look_eq hs rfl (htoPrint hok), hm.look_eq hs rfl hreport, hfile, I.printed hok]

theorem finish {st : Status Task1Pc} (hs : o.status pid = .running s)
    (hst : st = .exited s ∨ st = .killed s) : Task1Inv T t screen ok (o.finish pid st) := by
  have hm : o.Moves (o.finish pid st) pid st fun _ => none := ⟨rfl, rfl, rfl⟩
  have hstate : st.state = some s := by rcases hst with rfl | rfl <;> rfl
  refine I.move s hs hm (I.family.finish hs hst) rfl hstate id (fun _ => rfl) ?_ ?_ ?_
  · rw [hm.look_eq hs hstate rfl, hm.look_eq hs hstate rfl, Os.pipe_finish]
  · intro hok
    rw [hm.look_eq hs hstate rfl, hm.look_eq hs hstate rfl, Os.file_finish, I.printed hok]
  · rintro rfl bytes more rfl
    exact I.eof (Os.at?_of_running hs)

omit I in
theorem boot (t : Fds OutFile) (file : OutFile → List UInt8) :
    Task1Inv T t (file .terminal) ok (Os.boot (.wc .pipe) t file) := by
  have hfamily : Family (Table t) role (Os.boot (.wc .pipe) t file) := .boot rfl rfl
  refine ⟨hfamily, fun {pid s} h => ?_, fun _ => rfl, Nat.zero_lt_one, ?_, ?_, ?_⟩
  · by_cases hpid : pid = 0
    · cases hpid
      cases h
      exact ⟨rfl, rfl⟩
    · simp [Os.at?, Os.boot, hpid, Status.state] at h
  · simp [Os.look, Os.at?, Os.boot, Status.state, seen]
  · simp [Os.look, Os.at?, Os.boot, Status.state, toPrint, report]
  · simp [Os.at?, Os.boot, Status.state]

theorem pipe (hs : o.status 0 = .running (.wc .pipe)) {fd : Int × Int} (hfd : t.NewPipe fd)
    (hpid : o.nextPid = 1) :
    Task1Inv T t screen ok ((({ o with nextPipe := 1 }).setFds 0 (t.withPipe fd 0)).goto 0
      (.wc (.fork fd))) := by
  have hm : o.Moves ((({ o with nextPipe := 1 }).setFds 0 (t.withPipe fd 0)).goto 0
    (.wc (.fork fd))) 0 (.running (.wc (.fork fd))) (t.withPipe fd 0) := ⟨rfl, rfl, rfl⟩
  refine ⟨I.family.setFds hs rfl rfl rfl ⟨hfd, rfl⟩ rfl, fun {q s₁} hq => ?_, fun {p} hp => ?_,
    I.begun, ?_, ?_, fun {bytes more} hat => ?_⟩
  · by_cases hq0 : q = 0
    · subst hq0
      rw [hm.at?_self] at hq
      cases hq
      exact ⟨rfl, hpid⟩
    · rw [hm.at?_of_ne hq0, Os.at?, I.family.absent (by omega)] at hq
      cases hq
  · have hle : 1 ≤ p := hp
    have hnext := (I.counters (Os.at?_of_running hs)).1
    exact I.fresh (by omega)
  · rw [hm.look_eq hs rfl rfl, hm.look_eq hs rfl rfl]
    exact I.whole
  · rw [hm.look_eq hs rfl rfl, hm.look_eq hs rfl rfl]
    exact I.printed
  · rw [hm.at?_self] at hat
    cases hat

theorem fork {fd : Int × Int} (hs : o.status 0 = .running (.wc (.fork fd))) (ht : StdTable t)
    (hnext : o.nextPipe = 1) (hpid : o.nextPid = 1) :
    Task1Inv T t screen ok ((o.spawn 0 (.grep (.setup [.dup2 fd.2 1, .close fd.1, .close fd.2]))).goto 0
      (.wc (.setup [.dup2 fd.1 0, .close fd.2, .close fd.1]))) := by
  obtain ⟨hfd, htab⟩ := I.family.table hs
  have h1 := I.family.absent hpid.le
  have hwhole := I.whole
  have hprinted := I.printed
  refine ⟨I.family.fork hs ?_ ?_ rfl hpid.symm, fun {q s₁} hq => ?_, fun {p} hp => I.fresh hp,
    Nat.succ_pos _, ?_, ?_, fun {bytes more} hat => ?_⟩
  · rw [Table, htab]
    exact hfd.wcTable ht
  · rw [Table, htab]
    exact hfd.task1GrepTable ht
  · have hnextPid : o.nextPid + 1 = 2 := congrArg (· + 1) hpid
    by_cases hq0 : q = 0
    · subst hq0
      rw [Os.at?_of_running Os.status_goto_self] at hq
      cases hq
      exact ⟨hnext, hnextPid⟩
    · by_cases hq1 : q = 1
      · subst hq1
        simp only [Os.at?, Os.goto, Os.spawn, hpid, Function.update_of_ne hq0, Function.update_self,
          Status.state, Option.some.injEq] at hq
        rw [← hq]
        exact ⟨hnext, hnextPid⟩
      · have habsent := I.family.absent (show o.nextPid ≤ q by omega)
        simp [Os.at?, Os.goto, Os.spawn, hpid, hq0, hq1, habsent, Status.state] at hq
  · simpa [Os.look_of_running hs, Os.look_of_absent h1, hpid, seen, rest] using hwhole
  · simpa [Os.look_of_running hs, toPrint, report] using hprinted
  · rw [Os.at?_of_running Os.status_goto_self] at hat
    cases hat

/-- A failing call keeps everything but what is said of runs without one. -/
theorem step (ht : StdTable t) (hok : ok → call.2 ≠ .failed) (h : Task1Case T cap t o call o') :
    Task1Inv T t screen ok o' := by
  cases h with
  | pipe hs hfd hnext hpid => exact I.pipe hs hfd hpid
  | fork hs hnext hpid => exact I.fork hs ht hnext hpid
  | call hs h =>
    have htab := I.family.table hs
    cases h <;> exact I.still _ hs ⟨rfl, rfl, rfl⟩ rfl htab rfl id rfl rfl rfl rfl rfl (fun _ => rfl)
      (by simp)
  | exec hs h =>
    have htab := I.family.table hs
    cases h <;> exact I.still _ hs (Os.moves_goto rfl rfl rfl) rfl htab rfl id rfl rfl rfl rfl rfl
      (fun _ => rfl) (by simp)
  | fail hs h =>
    have htab := I.family.table hs
    cases h with
    | pipe | fork | wcExec =>
      exact I.still _ hs (Os.moves_goto rfl rfl rfl) rfl trivial rfl (fun _ => trivial) rfl rfl rfl rfl
        rfl (fun _ => rfl) (by simp)
    | grepExec =>
      exact I.still _ hs (Os.moves_goto rfl rfl rfl) rfl htab rfl id rfl rfl rfl rfl rfl (fun _ => rfl)
        (by simp)
    | print =>
      refine I.still _ hs (Os.moves_goto rfl rfl rfl) rfl htab rfl id rfl rfl rfl rfl rfl
        (fun h => (hok h rfl).elim) ?_
      rintro rfl _ _ -
      exact I.eof (Os.at?_of_running hs)
  | exit hs => exact I.finish hs (.inl rfl)
  | killed hs => exact I.finish hs (.inr rfl)
  | @eof bytes hs hpipe hgrep =>
    have hm : o.Moves (o.goto 0 (.wc (.print bytes (wcReport bytes)))) 0
      (.running (.wc (.print bytes (wcReport bytes)))) (o.fds 0) := Os.moves_goto rfl rfl rfl
    have hprinted := I.printed
    refine I.move _ hs hm (I.family.goto hs rfl rfl rfl (I.family.table hs :) rfl) rfl rfl id
      (fun _ => rfl) ?_ ?_ fun _ _ _ _ => ⟨hgrep, hpipe⟩
    · rw [hm.look_eq hs rfl rfl, hm.look_eq hs rfl rfl, Os.pipe_goto]
    · simpa [Os.look_of_running hs, toPrint, report] using hprinted
  | @write c more hs hroom =>
    have hnext : o.nextPipe = 1 := (I.counters (Os.at?_of_running hs)).1
    have hm : o.Moves ((o.setPipe 0 (o.pipe 0 ++ [c])).goto 1 (.grep (.run more))) 1
      (.running (.grep (.run more))) (o.fds 1) := Os.moves_goto rfl rfl rfl
    refine I.move _ hs hm (I.family.goto hs rfl rfl rfl (I.family.table hs :) rfl) rfl rfl id
      (fun hp => Function.update_of_ne (by omega) ..) ?_ ?_ (by simp)
    · rw [hm.look_eq hs rfl rfl, Os.look_of_running hs]
      simp [rest]
    · rw [hm.look_eq hs rfl rfl, hm.look_eq hs rfl rfl]
      exact I.printed
  | @read bytes c pipe hs hpipe =>
    have hlt : 0 < o.nextPipe := by
      by_contra hnot
      simp [I.fresh (not_lt.1 hnot)] at hpipe
    have hm : o.Moves ((o.setPipe 0 pipe).goto 0 (.wc (.run (bytes ++ [c])))) 0
      (.running (.wc (.run (bytes ++ [c])))) (o.fds 0) := Os.moves_goto rfl rfl rfl
    refine I.move _ hs hm (I.family.goto hs rfl rfl rfl (I.family.table hs :) rfl) rfl rfl id
      (fun hp => Function.update_of_ne (by omega) ..) ?_ ?_ (by simp)
    · rw [hm.look_eq (q := 1) hs rfl rfl, Os.look_of_running hs]
      simp [seen, hpipe]
    · rw [hm.look_eq hs rfl rfl, hm.look_eq hs rfl rfl]
      exact I.printed
  | @print bytes c more hs =>
    have hm : o.Moves
        ({ o with file := Function.update o.file .terminal (o.file .terminal ++ [c]) }.goto 0
          (.wc (.print bytes more))) 0 (.running (.wc (.print bytes more))) (o.fds 0) :=
      Os.moves_goto rfl rfl rfl
    have hprinted := I.printed
    refine I.move _ hs hm (I.family.goto hs rfl rfl rfl (I.family.table hs :) rfl) rfl rfl id
      (fun _ => rfl) ?_ ?_ fun _ _ _ _ => I.eof (Os.at?_of_running hs)
    · rw [hm.look_eq hs rfl rfl, hm.look_eq hs rfl rfl, Os.pipe_goto]
    · simpa [Os.look_of_running hs, toPrint, report] using hprinted

end Task1Inv

/-! ## How many steps there are -/

/-- How many steps there are at most. -/
def Os.potential1 (T : Tools) (o : Os OutFile Task1Pc) : Nat :=
  2 * (o.look 1 (rest T) T.grepOutput).length + (o.pipe 0).length + o.total 2 (weight T)

namespace Task1Inv

variable (I : Task1Inv T t screen ok o)
include I

theorem moved (s' : Task1Pc) (hs : o.status pid = .running s) (hm : o.Moves o' pid (.running s') u)
    (hlt : 2 * (o'.look 1 (rest T) T.grepOutput).length + (o'.pipe 0).length + s'.weight T <
      2 * (o.look 1 (rest T) T.grepOutput).length + (o.pipe 0).length + s.weight T) :
    o'.potential1 T < o.potential1 T := by
  have hpid : pid < 2 := by rcases I.pid_cases hs with ⟨rfl, -⟩ | ⟨rfl, -⟩ <;> decide
  have hweights := hm.total_add (f := weight T) hs hpid
  rw [Os.tally_of_running hm.status_self] at hweights
  rw [Os.potential1, Os.potential1]
  omega

/-- The process comes nearer to its end, and no byte moves. -/
theorem nearer (s' : Task1Pc) (hs : o.status pid = .running s) (hm : o.Moves o' pid (.running s') u)
    (hrest : s'.rest T = s.rest T) (hpipe : o'.pipe = o.pipe) (hlt : s'.weight T < s.weight T) :
    o'.potential1 T < o.potential1 T := by
  refine I.moved s' hs hm ?_
  rw [hm.look_eq hs rfl hrest, hpipe]
  exact Nat.add_lt_add_left hlt _

theorem ends {st : Status Task1Pc} (hs : o.status pid = .running s)
    (hst : st = .exited s ∨ st = .killed s) :
    (o.finish pid st).potential1 T < o.potential1 T := by
  have hpid : pid < 2 := by rcases I.pid_cases hs with ⟨rfl, -⟩ | ⟨rfl, -⟩ <;> decide
  have hm : o.Moves (o.finish pid st) pid st fun _ => none := ⟨rfl, rfl, rfl⟩
  have hstate : st.state = some s := by rcases hst with rfl | rfl <;> rfl
  have hrunning : ∀ s, st ≠ .running s := by rcases hst with rfl | rfl <;> simp
  have hweights := hm.total_add (f := weight T) hs hpid
  have hpos : 0 < s.weight T := by
    rcases s with (_ | _ | _ | _ | _ | _) | (_ | _ | _) <;> simp [weight]
  rw [Os.tally_finish_self hrunning] at hweights
  rw [Os.potential1, Os.potential1, hm.look_eq hs hstate rfl, Os.pipe_finish]
  omega

/-- What is read is never longer than the output. -/
theorem length_seen_le : (o.look 0 seen []).length ≤ T.grepOutput.length := by
  rw [← I.whole, List.length_append, List.length_append]
  omega

theorem potential_lt (h : Task1Case T cap t o call o') : o'.potential1 T < o.potential1 T := by
  cases h with
  | @pipe fd hs hfd hnext hpid =>
    exact I.nearer (.wc (.fork fd)) hs ⟨rfl, rfl, rfl⟩ rfl rfl (Nat.lt_succ_self _)
  | fork hs hnext hpid =>
    have h1 := I.family.absent hpid.le
    simp [Os.potential1, Os.total, Finset.sum_range_succ, Os.look_of_absent h1, hpid, weight, rest,
      Os.tally_of_running hs, Os.tally_of_absent h1]
    omega
  | call hs h =>
    cases h with
    | wc =>
      refine I.nearer _ hs ⟨rfl, rfl, rfl⟩ rfl rfl ?_
      simp [weight]
    | grep =>
      refine I.nearer _ hs ⟨rfl, rfl, rfl⟩ rfl rfl ?_
      simp [weight]
  | exec hs h =>
    refine I.nearer _ hs (Os.moves_goto rfl rfl rfl) ?_ rfl ?_
    · cases h <;> rfl
    · cases h <;> simp [weight]
  | fail hs h =>
    refine I.nearer _ hs (Os.moves_goto rfl rfl rfl) ?_ rfl ?_
    · cases h <;> rfl
    · cases h <;> simp [weight]
  | exit hs => exact I.ends hs (.inl rfl)
  | killed hs => exact I.ends hs (.inr rfl)
  | @eof bytes hs hpipe hgrep =>
    refine I.nearer (.wc (.print bytes (wcReport bytes))) hs (Os.moves_goto rfl rfl rfl) rfl rfl ?_
    have hseen := I.length_seen_le
    rw [Os.look_of_running hs] at hseen
    have hcount : bytes.count 10 ≤ bytes.length := List.count_le_length
    have hdecimal := length_decimal_le (bytes.count 10)
    simp only [weight, wcReport, List.length_append, List.length_singleton, seen] at hseen ⊢
    omega
  | @write c more hs hroom =>
    refine I.moved (.grep (.run more)) hs (Os.moves_goto rfl rfl rfl) ?_
    rw [Os.look_of_running hs]
    simp only [Os.look_goto_self, rest, Os.pipe_goto, Os.pipe_setPipe_self, List.length_append,
      List.length_cons, List.length_nil, weight]
    omega
  | @read bytes c pipe hs hpipe =>
    refine I.moved (.wc (.run (bytes ++ [c]))) hs (Os.moves_goto rfl rfl rfl) ?_
    simp [hpipe, weight]
  | @print bytes c more hs =>
    refine I.nearer (.wc (.print bytes more)) hs (Os.moves_goto rfl rfl rfl) rfl rfl ?_
    simp [weight]

end Task1Inv

/-! ## How `task1` ends -/

/-- `wc` has the read end of the pipe. -/
def WcPc.Reads : WcPc → Prop
  | setup _ | run _ => True
  | _ => False

/-- No call has failed. -/
def Task1Pc.Clean : Task1Pc → Prop
  | wc (.exit _) | grep (.exit _) => False
  | _ => True

/-- What every run keeps in which no call fails. -/
structure Task1Clean (o : Os OutFile Task1Pc) : Prop where
  clean : ∀ {pid s}, o.at? pid = some s → s.Clean
  exited : ∀ {pid s}, o.status pid = .exited s → s.Exits
  alive : ∀ {pid s}, o.status pid ≠ .killed s
  reader : o.Running 1 → ∃ pc : WcPc, o.status 0 = .running (.wc pc) ∧ pc.Reads

namespace Task1Clean

variable (C : Task1Clean o) (I : Task1Inv T t screen ok o)
include C I

/-- `grep` is not killed. -/
theorem held (hrun : o.Running 1) : o.Held (.readEnd 0) := by
  obtain ⟨pc, hs, hreads⟩ := C.reader hrun
  have htab := I.family.table hs
  cases pc with
  | setup calls =>
    have htab : calls.foldl TableCall.run (o.fds 0) = cmdTable t := htab
    obtain ⟨d, hd⟩ := TableCall.exists_of_foldl (htab ▸ cmdTable_zero)
    exact ⟨0, d, hd⟩
  | run bytes =>
    have htab : o.fds 0 = cmdTable t := htab
    exact ⟨0, 0, htab ▸ cmdTable_zero⟩
  | pipe | fork | print | exit => exact hreads.elim

theorem move {st : Status Task1Pc} (s' : Task1Pc) (hs : o.status pid = .running s)
    (hm : o.Moves o' pid st u) (hst : st.state = some s') (hclean : s.Clean → s'.Clean)
    (hexited : ∀ s₁, st = .exited s₁ → s₁.Exits) (halive : ∀ s₁, st ≠ .killed s₁)
    (hreader : pid = 0 → o.Running 1 → ∃ pc : WcPc, st = .running (.wc pc) ∧ pc.Reads) :
    Task1Clean o' where
  clean {q s₁} hq := by
    by_cases hpid : q = pid
    · subst hpid
      rw [hm.at?_self, hst] at hq
      cases hq
      exact hclean (C.clean (Os.at?_of_running hs))
    · exact C.clean ((hm.at?_of_ne hpid).symm.trans hq)
  exited {q s₁} hq := by
    by_cases hpid : q = pid
    · subst hpid
      exact hexited s₁ (hm.status_self.symm.trans hq)
    · exact C.exited ((hm.status_of_ne hpid).symm.trans hq)
  alive {q s₁} hq := by
    by_cases hpid : q = pid
    · subst hpid
      exact halive s₁ (hm.status_self.symm.trans hq)
    · exact C.alive ((hm.status_of_ne hpid).symm.trans hq)
  reader hrun := by
    rcases I.pid_cases hs with ⟨rfl, -⟩ | ⟨rfl, -⟩
    · rw [hm.status_self]
      exact hreader rfl ((hm.running_of_ne (by decide)).1 hrun)
    · rw [hm.status_of_ne (by decide)]
      exact C.reader ⟨s, hs⟩

theorem goto (s' : Task1Pc) (hs : o.status pid = .running s) (hm : o.Moves o' pid (.running s') u)
    (hclean : s.Clean → s'.Clean)
    (hreader : pid = 0 → o.Running 1 → ∃ pc : WcPc, s' = .wc pc ∧ pc.Reads) : Task1Clean o' := by
  refine C.move I s' hs hm rfl hclean (by simp) (by simp) fun hpid hrun => ?_
  obtain ⟨pc, rfl, hreads⟩ := hreader hpid hrun
  exact ⟨pc, rfl, hreads⟩

omit I in
theorem fork {fd : Int × Int} (hpid : o.nextPid = 1) :
    Task1Clean ((o.spawn 0 (.grep (.setup [.dup2 fd.2 1, .close fd.1, .close fd.2]))).goto 0
      (.wc (.setup [.dup2 fd.1 0, .close fd.2, .close fd.1]))) := by
  refine ⟨fun {q s₁} hq => ?_, fun {q s₁} hq => ?_, fun {q s₁} hq => ?_,
    fun _ => ⟨_, Os.status_goto_self, trivial⟩⟩
  · by_cases hq0 : q = 0
    · simp only [Os.at?, Os.goto, hq0, Function.update_self, Status.state, Option.some.injEq] at hq
      rw [← hq]
      trivial
    · by_cases hq1 : q = 1
      · simp only [Os.at?, Os.goto, Os.spawn, hpid, hq1, Function.update_of_ne Nat.one_ne_zero,
          Function.update_self, Status.state, Option.some.injEq] at hq
        rw [← hq]
        trivial
      · exact C.clean (by simpa [Os.at?, Os.goto, Os.spawn, hpid, hq0, hq1] using hq)
  · by_cases hq0 : q = 0
    · simp [Os.goto, hq0] at hq
    · by_cases hq1 : q = 1
      · simp [Os.goto, Os.spawn, hpid, hq1] at hq
      · exact C.exited (by simpa [Os.goto, Os.spawn, hpid, hq0, hq1] using hq)
  · by_cases hq0 : q = 0
    · simp [Os.goto, hq0] at hq
    · by_cases hq1 : q = 1
      · simp [Os.goto, Os.spawn, hpid, hq1] at hq
      · exact C.alive (by simpa [Os.goto, Os.spawn, hpid, hq0, hq1] using hq)

theorem step (hok : call.2 ≠ .failed) (h : Task1Case T cap t o call o') : Task1Clean o' := by
  cases h with
  | fail => exact (hok rfl).elim
  | killed hs hnone => exact (hnone (C.held I ⟨_, hs⟩)).elim
  | exit hs h =>
    refine C.move I _ hs ⟨rfl, rfl, rfl⟩ rfl id (by rintro _ ⟨⟩; exact h) (by simp) fun hpid hrun => ?_
    subst hpid
    obtain ⟨pc, hs', hreads⟩ := C.reader hrun
    cases hs.symm.trans hs'
    cases h <;> exact hreads.elim
  | @pipe fd hs hfd hnext hpid =>
    refine C.goto I (.wc (.fork fd)) hs ⟨rfl, rfl, rfl⟩ id fun _ hrun => ?_
    obtain ⟨s, hs'⟩ := hrun
    rw [I.family.absent hpid.le] at hs'
    cases hs'
  | fork hs hnext hpid => exact C.fork hpid
  | call hs h =>
    cases h with
    | wc => exact C.goto I _ hs ⟨rfl, rfl, rfl⟩ (fun _ => trivial) fun _ _ => ⟨_, rfl, trivial⟩
    | grep =>
      refine C.goto I _ hs ⟨rfl, rfl, rfl⟩ (fun _ => trivial) fun hpid => ?_
      cases (I.family.role (Os.at?_of_running hs)).trans hpid
  | exec hs h =>
    cases h with
    | wc => exact C.goto I _ hs (Os.moves_goto rfl rfl rfl) (fun _ => trivial) fun _ _ =>
        ⟨_, rfl, trivial⟩
    | grep =>
      refine C.goto I _ hs (Os.moves_goto rfl rfl rfl) (fun _ => trivial) fun hpid => ?_
      cases (I.family.role (Os.at?_of_running hs)).trans hpid
  | @eof bytes hs hpipe hgrep =>
    exact C.goto I (.wc (.print bytes (wcReport bytes))) hs (Os.moves_goto rfl rfl rfl) id
      fun _ hrun => (hgrep hrun).elim
  | @write c more hs hroom =>
    exact C.goto I (.grep (.run more)) hs (Os.moves_goto rfl rfl rfl) id (by simp)
  | @read bytes c pipe hs hpipe =>
    exact C.goto I (.wc (.run (bytes ++ [c]))) hs (Os.moves_goto rfl rfl rfl) id
      fun _ _ => ⟨_, rfl, trivial⟩
  | @print bytes c more hs =>
    exact C.goto I (.wc (.print bytes more)) hs (Os.moves_goto rfl rfl rfl) id
      fun _ hrun => ((I.eof (Os.at?_of_running hs)).1 hrun).elim

end Task1Clean

namespace Task1Inv

variable (I : Task1Inv T t screen ok o) (hstuck : o.Stuck cap (task1 T))
include I hstuck

theorem stuck_wc (ht : StdTable t) {pc : WcPc} (hs : o.status 0 = .running (.wc pc)) :
    o.pipe 0 = [] ∧ o.Held (.writeEnd 0) ∧ o.fds 0 = cmdTable t := by
  have htab := I.family.table hs
  have hwaits := hstuck.waits hs
  cases pc with
  | setup calls =>
    cases calls with
    | cons call calls => cases call <;> exact hwaits.elim
    | nil => exact hwaits.elim
  | run bytes =>
    have htab : o.fds 0 = cmdTable t := htab
    obtain ⟨p, hfd, hpipe, hheld⟩ := hwaits
    have hin : o.fds 0 0 = some (.readEnd 0) := htab ▸ cmdTable_zero
    cases hin.symm.trans hfd
    exact ⟨hpipe, hheld, htab⟩
  | print bytes more =>
    cases more with
    | nil => exact hwaits.elim
    | cons c more =>
      have htab : o.fds 0 = cmdTable t := htab
      obtain ⟨p, hfd, -⟩ := hwaits
      have hout : o.fds 0 1 = some (.file .terminal) := htab ▸ cmdTable_one ht
      cases hout.symm.trans hfd
  | pipe | fork | exit => exact hwaits.elim

theorem stuck_grep {pc : GrepPc} (hs : o.status 1 = .running (.grep pc)) :
    cap ≤ (o.pipe 0).length ∧ o.Held (.readEnd 0) ∧ o.fds 1 = Task1Pc.grepTable t := by
  have htab := I.family.table hs
  have hwaits := hstuck.waits hs
  cases pc with
  | setup calls =>
    cases calls with
    | cons call calls => cases call <;> exact hwaits.elim
    | nil => exact hwaits.elim
  | run more =>
    cases more with
    | nil => exact hwaits.elim
    | cons c more =>
      have htab : o.fds 1 = Task1Pc.grepTable t := htab
      obtain ⟨p, hfd, hfull, hheld⟩ := hwaits
      have hout : o.fds 1 1 = some (.writeEnd 0) := htab ▸ grepTable_zero
      cases hout.symm.trans hfd
      exact ⟨hfull, hheld, htab⟩
  | exit => exact hwaits.elim

variable (ht : StdTable t) (hcap : 0 < cap)
include ht hcap

/-- Neither process waits for the other. -/
theorem stuck_ended : o.Ended := by
  rintro pid ⟨s, hs⟩
  rcases I.pid_cases hs with ⟨rfl, pc, rfl⟩ | ⟨rfl, pc, rfl⟩
  · obtain ⟨hpipe, hheld, htab⟩ := I.stuck_wc hstuck ht hs
    obtain ⟨pid, s, d, hs', hd⟩ := I.family.exists_of_held hheld
    rcases I.pid_cases hs' with ⟨rfl, -⟩ | ⟨rfl, pc', rfl⟩
    · rw [htab] at hd
      exact cmdTable_apply ht hd
    · have hfull := (I.stuck_grep hstuck hs').1
      rw [hpipe] at hfull
      exact hcap.not_ge hfull
  · obtain ⟨hfull, hheld, htab⟩ := I.stuck_grep hstuck hs
    obtain ⟨pid, s, d, hs', hd⟩ := I.family.exists_of_held hheld
    rcases I.pid_cases hs' with ⟨rfl, pc', rfl⟩ | ⟨rfl, -⟩
    · rw [(I.stuck_wc hstuck ht hs').1] at hfull
      exact hcap.not_ge hfull
    · rw [htab] at hd
      exact grepTable_apply ht hd

end Task1Inv

section
variable {file : OutFile → List UInt8} {calls : List (Nat × CallEnd)}

theorem Task1Run.history (h : Task1Run T cap t file calls o) (ht : StdTable t) :
    Task1Inv T t (file .terminal) (NoFailure calls) o ∧
      calls.length + o.potential1 T ≤ 3 * T.grepOutput.length + 15 := by
  refine Trace.history (I := fun calls o => Task1Inv T t (file .terminal) (NoFailure calls) o ∧
    calls.length + o.potential1 T ≤ 3 * T.grepOutput.length + 15) h ⟨.boot t file, ?_⟩ ?_
  · simp [Os.potential1, Os.total, Finset.sum_range_succ, Os.tally, Os.look, Os.at?, Os.boot,
      Status.state, weight]
    omega
  · rintro calls o call o' ⟨I, hlength⟩ hstep
    have hcase := I.step_cases ht hstep
    have hlt := I.potential_lt hcase
    refine ⟨(I.mono NoFailure.left).step ht NoFailure.right hcase, ?_⟩
    rw [List.length_append, List.length_singleton]
    omega

theorem Task1Run.clean (h : Task1Run T cap t file calls o) (ht : StdTable t)
    (hok : NoFailure calls) : Task1Clean o ∧ Task1Inv T t (file .terminal) (NoFailure calls) o := by
  induction h with
  | nil =>
    refine ⟨⟨fun {pid s} hs => ?_, fun {pid s} hs => ?_, fun {pid s} hs => ?_, fun ⟨s, hs⟩ => ?_⟩,
      .boot t file⟩
    · by_cases hpid : pid = 0
      · simp only [Os.at?, Os.boot, hpid, if_true, Status.state, Option.some.injEq] at hs
        rw [← hs]
        trivial
      · simp [Os.at?, Os.boot, hpid, Status.state] at hs
    · by_cases hpid : pid = 0 <;> simp [Os.boot, hpid] at hs
    · by_cases hpid : pid = 0 <;> simp [Os.boot, hpid] at hs
    · simp [Os.boot] at hs
  | snoc _ hstep ih =>
    obtain ⟨C, I⟩ := ih hok.left
    have hcase := I.step_cases ht hstep
    exact ⟨C.step I hok.right hcase,
      (I.mono NoFailure.left).step ht NoFailure.right hcase⟩

/-- A step that fails could have done what it is for. -/
theorem Task1Inv.exists_step (I : Task1Inv T t screen ok o) (ht : StdTable t) (hbound : t.Bounded)
    (hgoes : ¬o.Stuck cap (task1 T)) :
    ∃ call o', o.Step cap (task1 T) call o' ∧ call.2 ≠ .failed := by
  simp only [Os.Stuck, not_forall, not_not] at hgoes
  obtain ⟨⟨pid, ending⟩, o', hstep⟩ := hgoes
  by_cases hok : ending = .failed
  · subst hok
    cases I.step_cases ht hstep with
    | fail hs h =>
      have htab := I.family.table hs
      cases h with
      | pipe =>
        obtain ⟨fd, hfd⟩ := hbound.exists_newPipe
        have htab : o.fds pid = t := htab
        exact ⟨_, _, .mk hs (.pipe (htab ▸ hfd)), by simp⟩
      | fork => exact ⟨_, _, .mk hs .fork, by simp⟩
      | wcExec | grepExec => exact ⟨_, _, .mk hs .exec, by simp⟩
      | print =>
        obtain ⟨rfl, -⟩ | ⟨rfl, pc, hpc⟩ := I.pid_cases hs
        · have htab : o.fds 0 = cmdTable t := htab
          exact ⟨_, _, .mk hs (.writeFile (htab ▸ cmdTable_one ht)), by simp⟩
        · cases hpc
  · exact ⟨_, _, hstep, hok⟩

/-- A run in which no call fails can go on without a failure until nothing can happen any more. -/
theorem Task1Run.exists_stuck (h : Task1Run T cap t file calls o) (ht : StdTable t)
    (hbound : t.Bounded) (hok : NoFailure calls) :
    ∃ calls' o', Task1Run T cap t file calls' o' ∧ NoFailure calls' ∧ o'.Stuck cap (task1 T) := by
  induction hn : o.potential1 T using Nat.strong_induction_on generalizing calls o with
  | _ n ih =>
    by_cases hstuck : o.Stuck cap (task1 T)
    · exact ⟨calls, o, h, hok, hstuck⟩
    · have I := (h.history ht).1
      obtain ⟨call, o', hstep, hcall⟩ := I.exists_step ht hbound hstuck
      refine ih _ (hn ▸ I.potential_lt (I.step_cases ht hstep)) (h.snoc hstep) (fun c hc => ?_) rfl
      rcases List.mem_append.1 hc with hc | hc
      · exact hok c hc
      · rwa [List.mem_singleton.1 hc]

/-- In every run of `task1` in which no call fails and after which nothing can happen any more, both
processes have exited and the terminal shows the number of lines of the output of `grep`, whatever
there is room for in the pipe. -/
theorem Task1Run.counts_lines (h : Task1Run T cap t file calls o) (ht : StdTable t)
    (hok : NoFailure calls) (hstuck : o.Stuck cap (task1 T)) (hcap : 0 < cap) :
    (∀ pid s, o.status pid ≠ .running s ∧ o.status pid ≠ .killed s) ∧
      o.file .terminal = file .terminal ++ wcReport T.grepOutput ∧
      calls.length ≤ 3 * T.grepOutput.length + 15 := by
  obtain ⟨C, I⟩ := h.clean ht hok
  obtain ⟨-, hlength⟩ := h.history ht
  have hended := I.stuck_ended hstuck ht hcap
  refine ⟨fun pid s => ⟨fun hs => hended pid ⟨s, hs⟩, C.alive⟩, ?_, by omega⟩
  obtain ⟨s, hs, hat, hrole⟩ := I.family.exists_exited I.begun (hended 0) fun _ => C.alive
  have hprinted := I.printed hok
  have hwhole := I.whole
  have hclean := C.clean hat
  cases C.exited hs with
  | written | grep => cases hrole
  | wc => exact hclean.elim
  | @printed bytes =>
    -- `wc` has read everything, and `grep` has written everything
    obtain ⟨-, hpipe⟩ := I.eof hat
    have hnext : o.nextPid = 2 := (I.counters hat).2
    obtain ⟨s, hs', hat', hrole⟩ :=
      I.family.exists_exited (by omega) (hended 1) fun _ => C.alive
    have hclean := C.clean hat'
    cases C.exited hs' with
    | printed | wc => cases hrole
    | grep => exact hclean.elim
    | written =>
      simp only [Os.look, hat, hat', hpipe, Option.elim_some, toPrint, report, seen, rest,
        List.append_nil] at hprinted hwhole
      rw [hprinted, hwhole]

/-- Two lines through a pipe that has room for one byte. -/
theorem Task1Run.counts_lines_of_two : ∃ calls o,
    Task1Run ⟨[97, 10, 98, 10], fun _ => true⟩ 1 shellTable (fun _ => []) calls o ∧
      o.file .terminal = [50, 10] := by
  have hnil : Task1Run ⟨[97, 10, 98, 10], fun _ => true⟩ 1 shellTable (fun _ => []) [] _ := .nil
  obtain ⟨calls, o, h, hok, hstuck⟩ :=
    hnil.exists_stuck stdTable_shellTable shellTable_bounded (by simp [NoFailure])
  refine ⟨calls, o, h, (Task1Run.counts_lines h stdTable_shellTable hok hstuck
    Nat.zero_lt_one).2.1.trans ?_⟩
  simp [wcReport, decimal]

end

end

end CS330
