import CS330.Lib.Decimal
import CS330.Lib.Posix

/-! # The pipelines of `part2.c`

`task1` runs `grep -rF key path | wc -l` and `task2` runs `grep -rF key path | tee file | cmd` with a
tee of its own. Of the programs that they execute only this is known: `grep` writes its output to
descriptor 1, `wc -l` reads descriptor 0 to the end and prints the number of newlines, and the
command reads descriptor 0 for as long as it wants to. -/

namespace CS330

/-- The programs that are not in `part2.c`. -/
structure Tools where
  grepOutput : List UInt8
  /-- Whether the command reads on after it has read these bytes. -/
  cmdReads : List UInt8 → Bool

/-- The files: the terminal, and the file of `tee_path`. -/
inductive OutFile where
  | terminal
  | tee
deriving DecidableEq, Repr

/-- What `wc -l` prints. -/
def wcReport (seen : List UInt8) : List UInt8 := decimal (seen.count 10) ++ [10]

/-- The process that becomes `grep`; `calls` are what is left to do before `execl`. -/
inductive GrepPc where
  | setup (calls : List TableCall)
  | run (rest : List UInt8)
  | exit (code : Int)

/-! ## `task1` -/

/-- The parent, which becomes `wc -l`. -/
inductive WcPc where
  | pipe
  | fork (fd : Int × Int)
  | setup (calls : List TableCall)
  | run (seen : List UInt8)
  /-- The end of the input was read. -/
  | print (seen rest : List UInt8)
  | exit (code : Int)

/-- Where a process of `task1` stands. -/
inductive Task1Pc where
  | wc (pc : WcPc)
  | grep (pc : GrepPc)

/-- Where `execl` returns, so do `task1` and `main`. -/
def task1Wc : WcPc → Request OutFile Task1Pc
  | .pipe => .pipe (.wc ∘ .fork) (.wc (.exit (-1)))
  | .fork fd => .fork (.wc (.setup [.dup2 fd.1 0, .close fd.2, .close fd.1]))
      (.grep (.setup [.dup2 fd.2 1, .close fd.1, .close fd.2])) (.wc (.exit (-1)))
  | .setup (call :: calls) => call.request (.wc (.setup calls))
  | .setup [] => .exec (.wc (.run [])) (.wc (.exit 0))
  | .run seen => .read 0 fun
    | some c => .wc (.run (seen ++ [c]))
    | none => .wc (.print seen (wcReport seen))
  | .print seen (c :: rest) => .write 1 c (.wc (.print seen rest))
  | .print _ [] => .exit
  | .exit _ => .exit

def task1Grep (T : Tools) : GrepPc → Request OutFile Task1Pc
  | .setup (call :: calls) => call.request (.grep (.setup calls))
  | .setup [] => .exec (.grep (.run T.grepOutput)) (.grep (.exit 0))
  | .run (c :: rest) => .write 1 c (.grep (.run rest))
  | .run [] => .exit
  | .exit _ => .exit

def task1 (T : Tools) : Task1Pc → Request OutFile Task1Pc
  | .wc pc => task1Wc pc
  | .grep pc => task1Grep T pc

/-! ## `task2` -/

/-- The parent, which becomes the command. -/
inductive CmdPc where
  | pipe
  | fork (fd : Int × Int)
  | setup (calls : List TableCall)
  | run (seen : List UInt8)
  /-- The end of the input was read. -/
  | ended (seen : List UInt8)
  | exit (code : Int)

/-- The child, which is the tee. -/
inductive TeePc where
  | pipe (fd : Int × Int)
  | fork (fd fd1 : Int × Int)
  | setup (calls : List TableCall)
  | read (fptr : Int)
  | writeOut (fptr : Int) (c : UInt8)
  | writeFile (fptr : Int) (c : UInt8)
  | closeFile (fptr : Int)
  /-- In front of `exit(2)`. -/
  | ended (fptr : Int)
  | exit (code : Int)

/-- Where a process of `task2` stands. -/
inductive Task2Pc where
  | cmd (pc : CmdPc)
  | tee (pc : TeePc)
  | grep (pc : GrepPc)

def task2Cmd (T : Tools) : CmdPc → Request OutFile Task2Pc
  | .pipe => .pipe (.cmd ∘ .fork) (.cmd (.exit (-1)))
  | .fork fd => .fork (.cmd (.setup [.dup2 fd.1 0, .close fd.1, .close fd.2])) (.tee (.pipe fd))
      (.cmd (.exit (-1)))
  | .setup (call :: calls) => call.request (.cmd (.setup calls))
  | .setup [] => .exec (.cmd (.run [])) (.cmd (.exit 4))
  | .run seen =>
    if T.cmdReads seen then .read 0 fun
      | some c => .cmd (.run (seen ++ [c]))
      | none => .cmd (.ended seen)
    else .exit
  | .ended _ => .exit
  | .exit _ => .exit

/-- The tee keeps both ends of the pipe to the command open, and so does `grep`. -/
def task2Tee : TeePc → Request OutFile Task2Pc
  | .pipe fd => .pipe (.tee ∘ .fork fd) (.tee (.exit (-1)))
  | .fork fd fd1 =>
    .fork (.tee (.setup [.dup2 fd1.1 0, .dup2 fd.2 1, .close fd1.1, .close fd1.2]))
      (.grep (.setup [.dup2 fd1.2 1, .close fd1.1, .close fd1.2])) (.tee (.exit (-1)))
  | .setup (call :: calls) => call.request (.tee (.setup calls))
  | .setup [] => .openFile .tee (.tee ∘ .read)
  | .read fptr => .read 0 fun
    | some c => .tee (.writeOut fptr c)
    | none => .tee (.closeFile fptr)
  | .writeOut fptr c => .write 1 c (.tee (.writeFile fptr c))
  | .writeFile fptr c => .write fptr c (.tee (.read fptr))
  | .closeFile fptr => .close fptr (.tee (.ended fptr))
  | .ended _ => .exit
  | .exit _ => .exit

def task2Grep (T : Tools) : GrepPc → Request OutFile Task2Pc
  | .setup (call :: calls) => call.request (.grep (.setup calls))
  | .setup [] => .exec (.grep (.run T.grepOutput)) (.grep (.exit 1))
  | .run (c :: rest) => .write 1 c (.grep (.run rest))
  | .run [] => .exit
  | .exit _ => .exit

def task2 (T : Tools) : Task2Pc → Request OutFile Task2Pc
  | .cmd pc => task2Cmd T pc
  | .tee pc => task2Tee pc
  | .grep pc => task2Grep T pc

/-! ## Runs -/

/-- The table that the program is started with: the standard descriptors are open, and no descriptor
refers to a pipe. -/
structure StdTable (t : Fds OutFile) : Prop where
  stdin : t 0 ≠ none
  stdout : t 1 = some (.file .terminal)
  negative : ∀ fd < 0, t fd = none
  no_pipe : ∀ fd p, t fd ≠ some (.readEnd p) ∧ t fd ≠ some (.writeEnd p)

/-- A shell opens the standard descriptors and no others. -/
def shellTable : Fds OutFile := fun fd =>
  if fd = 0 ∨ fd = 1 ∨ fd = 2 then some (.file .terminal) else none

theorem stdTable_shellTable : StdTable shellTable where
  stdin := by simp [shellTable]
  stdout := by simp [shellTable]
  negative fd hfd := if_neg (by omega)
  no_pipe fd p := by
    rw [shellTable]
    split <;> simp

theorem shellTable_bounded : shellTable.Bounded := ⟨3, fun fd hfd => if_neg (by omega)⟩

/-- Runs of the processes of `task1`; each step is labelled with the process and with how its call
ends. -/
def Task1Run (T : Tools) (cap : Nat) (table : Fds OutFile) (file : OutFile → List UInt8) :
    List (Nat × CallEnd) → Os OutFile Task1Pc → Prop :=
  Trace (Os.Step cap (task1 T)) (Os.boot (.wc .pipe) table file)

def Task2Run (T : Tools) (cap : Nat) (table : Fds OutFile) (file : OutFile → List UInt8) :
    List (Nat × CallEnd) → Os OutFile Task2Pc → Prop :=
  Trace (Os.Step cap (task2 T)) (Os.boot (.cmd .pipe) table file)

/-- No call has failed. -/
def NoFailure (calls : List (Nat × CallEnd)) : Prop := ∀ call ∈ calls, call.2 ≠ .failed

theorem NoFailure.notMem {calls : List (Nat × CallEnd)} {pid : Nat} (h : NoFailure calls) :
    (pid, .failed) ∉ calls := fun hmem => h _ hmem rfl

theorem NoFailure.left {calls : List (Nat × CallEnd)} {call : Nat × CallEnd}
    (h : NoFailure (calls ++ [call])) : NoFailure calls :=
  fun c hc => h c (List.mem_append_left _ hc)

theorem NoFailure.right {calls : List (Nat × CallEnd)} {call : Nat × CallEnd}
    (h : NoFailure (calls ++ [call])) : call.2 ≠ .failed :=
  h call (List.mem_append_right _ (List.mem_singleton_self call))

end CS330
