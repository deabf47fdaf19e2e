import CS330.Lib.Trace
import Mathlib.Data.Set.Finite.Basic
import Mathlib.Logic.Function.Basic

/-! # Processes, descriptors and pipes

A kernel as POSIX describes it, for programs that ask for one system call at a time. Processes and
pipes are numbered in the order of their creation. A pipe holds at most `cap` bytes; a process that
reads from an empty pipe waits as long as somebody can write to it, and one that writes to a full
pipe as long as somebody can read from it, itself included. -/

namespace CS330

/-- What a descriptor refers to: an end of a pipe, or a file that is written from its start on. -/
inductive Ref (φ : Type*) where
  | readEnd (p : Nat)
  | writeEnd (p : Nat)
  | file (f : φ)

/-- The descriptor table of a process. -/
abbrev Fds (φ : Type*) := Int → Option (Ref φ)

/-- A system call, and where the process stands after each of its answers. -/
inductive Request (φ σ : Type*) where
  | pipe (ok : Int × Int → σ) (fail : σ)
  | fork (parent child fail : σ)
  | dup2 (oldfd newfd : Int) (next : σ)
  | close (fd : Int) (next : σ)
  /-- The answer is the descriptor, or -1. The file is truncated. -/
  | openFile (f : φ) (next : Int → σ)
  /-- The answer is the byte, or none at the end of the file and on an error. -/
  | read (fd : Int) (next : Option UInt8 → σ)
  | write (fd : Int) (c : UInt8) (next : σ)
  | exec (ok fail : σ)
  | exit

/-- A process, with where it stands or stood at last. -/
inductive Status (σ : Type*) where
  | absent
  | running (s : σ)
  | exited (s : σ)
  | killed (s : σ)

/-- Where the process stands or stood at last. -/
def Status.state {σ : Type*} : Status σ → Option σ
  | absent => none
  | running s | exited s | killed s => some s

structure Os (φ σ : Type*) where
  status : Nat → Status σ
  nextPid : Nat
  fds : Nat → Fds φ
  pipe : Nat → List UInt8
  nextPipe : Nat
  file : φ → List UInt8

/-- How a call ends. -/
inductive CallEnd where
  | done
  | failed
  | sigpipe
deriving DecidableEq

variable {φ σ : Type*}

section
variable (t : Fds φ)

def Fds.dup2 (oldfd newfd : Int) : Fds φ :=
  match t oldfd with
  | none => t
  | some r => Function.update t newfd (some r)

def Fds.close (fd : Int) : Fds φ := Function.update t fd none

/-- Both ends of the pipe are opened. -/
def Fds.withPipe (fd : Int × Int) (p : Nat) : Fds φ :=
  Function.update (Function.update t fd.1 (some (.readEnd p))) fd.2 (some (.writeEnd p))

/-- The descriptor can be handed out. -/
def Fds.Free (fd : Int) : Prop := 0 ≤ fd ∧ t fd = none

/-- The descriptors can be handed out for the two ends of a pipe. -/
def Fds.NewPipe (fd : Int × Int) : Prop := t.Free fd.1 ∧ t.Free fd.2 ∧ fd.1 ≠ fd.2

/-- From some number on no descriptor is open. -/
def Fds.Bounded : Prop := ∃ n : Int, ∀ fd ≥ n, t fd = none

end

namespace Os

variable (o : Os φ σ)

/-- Some process has the end open. -/
def Held (r : Ref φ) : Prop := ∃ pid fd, o.fds pid fd = some r

def goto (pid : Nat) (s : σ) : Os φ σ :=
  { o with status := Function.update o.status pid (.running s) }

def setFds (pid : Nat) (t : Fds φ) : Os φ σ := { o with fds := Function.update o.fds pid t }

def setPipe (p : Nat) (bytes : List UInt8) : Os φ σ :=
  { o with pipe := Function.update o.pipe p bytes }

/-- The process ends and its descriptors are closed. -/
def finish (pid : Nat) (st : Status σ) : Os φ σ :=
  { o with
    status := Function.update o.status pid st
    fds := Function.update o.fds pid fun _ => none }

def spawn (pid : Nat) (child : σ) : Os φ σ :=
  { o with
    status := Function.update o.status o.nextPid (.running child)
    nextPid := o.nextPid + 1
    fds := Function.update o.fds o.nextPid (o.fds pid) }

/-- The kernel answers the request of the process `pid`, which stands at `s`. -/
inductive Serve [DecidableEq φ] (cap : Nat) (o : Os φ σ) (pid : Nat) (s : σ) :
    Request φ σ → CallEnd → Os φ σ → Prop where
  | pipe {fd : Int × Int} (hfd : (o.fds pid).NewPipe fd) : Serve cap o pid s (.pipe ok fail) .done
      (({ o with nextPipe := o.nextPipe + 1 }.setPipe o.nextPipe []).setFds pid
        ((o.fds pid).withPipe fd o.nextPipe) |>.goto pid (ok fd))
  | pipeFails : Serve cap o pid s (.pipe ok fail) .failed (o.goto pid fail)
  | fork : Serve cap o pid s (.fork parent child fail) .done ((o.spawn pid child).goto pid parent)
  | forkFails : Serve cap o pid s (.fork parent child fail) .failed (o.goto pid fail)
  | dup2 : Serve cap o pid s (.dup2 oldfd newfd next) .done
      ((o.setFds pid ((o.fds pid).dup2 oldfd newfd)).goto pid next)
  | close : Serve cap o pid s (.close fd next) .done
      ((o.setFds pid ((o.fds pid).close fd)).goto pid next)
  | openFile {fd : Int} (hfd : (o.fds pid).Free fd) : Serve cap o pid s (.openFile f next) .done
      (({ o with file := Function.update o.file f [] }.setFds pid
        (Function.update (o.fds pid) fd (some (.file f)))).goto pid (next fd))
  | openFails : Serve cap o pid s (.openFile f next) .failed (o.goto pid (next (-1)))
  | read {c : UInt8} {rest : List UInt8} (hfd : o.fds pid fd = some (.readEnd p))
    (hpipe : o.pipe p = c :: rest) : Serve cap o pid s (.read fd next) .done
      ((o.setPipe p rest).goto pid (next (some c)))
  | readEof (hfd : o.fds pid fd = some (.readEnd p)) (hpipe : o.pipe p = [])
    (hnone : ¬o.Held (.writeEnd p)) : Serve cap o pid s (.read fd next) .done
      (o.goto pid (next none))
  | readBad (hfd : ∀ p, o.fds pid fd ≠ some (.readEnd p)) :
    Serve cap o pid s (.read fd next) .failed (o.goto pid (next none))
  | write (hfd : o.fds pid fd = some (.writeEnd p)) (hheld : o.Held (.readEnd p))
    (hroom : (o.pipe p).length < cap) : Serve cap o pid s (.write fd c next) .done
      ((o.setPipe p (o.pipe p ++ [c])).goto pid next)
  | sigpipe (hfd : o.fds pid fd = some (.writeEnd p)) (hnone : ¬o.Held (.readEnd p)) :
    Serve cap o pid s (.write fd c next) .sigpipe (o.finish pid (.killed s))
  | writeFile (hfd : o.fds pid fd = some (.file f)) : Serve cap o pid s (.write fd c next) .done
      ({ o with file := Function.update o.file f (o.file f ++ [c]) }.goto pid next)
  /-- The descriptor cannot be written to, or there is no room for the byte in its file. -/
  | writeFails (hfd : ∀ p, o.fds pid fd ≠ some (.writeEnd p)) :
    Serve cap o pid s (.write fd c next) .failed (o.goto pid next)
  | exec : Serve cap o pid s (.exec ok fail) .done (o.goto pid ok)
  | execFails : Serve cap o pid s (.exec ok fail) .failed (o.goto pid fail)
  | exit : Serve cap o pid s .exit .done (o.finish pid (.exited s))

variable [DecidableEq φ]

/-- A running process makes the system call it asks for. -/
inductive Step (cap : Nat) (prog : σ → Request φ σ) (o : Os φ σ) :
    Nat × CallEnd → Os φ σ → Prop where
  | mk {s : σ} (hs : o.status pid = .running s) (h : o.Serve cap pid s (prog s) ending o') :
    Step cap prog o (pid, ending) o'

/-- One process, number 0. -/
def boot (start : σ) (table : Fds φ) (file : φ → List UInt8) : Os φ σ where
  status pid := if pid = 0 then .running start else .absent
  nextPid := 1
  fds pid := if pid = 0 then table else fun _ => none
  pipe _ := []
  nextPipe := 0
  file := file

/-- Nothing can happen any more. -/
def Stuck (cap : Nat) (prog : σ → Request φ σ) (o : Os φ σ) : Prop :=
  ∀ call o', ¬o.Step cap prog call o'

/-- The process waits in its call. -/
def Waits (cap : Nat) (o : Os φ σ) (pid : Nat) : Request φ σ → Prop
  | .read fd _ => ∃ p, o.fds pid fd = some (.readEnd p) ∧ o.pipe p = [] ∧ o.Held (.writeEnd p)
  | .write fd _ _ => ∃ p, o.fds pid fd = some (.writeEnd p) ∧ cap ≤ (o.pipe p).length ∧
      o.Held (.readEnd p)
  | _ => False

end Os

/-! ## Tables -/

/-- The calls that change nothing but the table. -/
inductive TableCall where
  | dup2 (oldfd newfd : Int)
  | close (fd : Int)

namespace TableCall

def request (next : σ) : TableCall → Request φ σ
  | dup2 oldfd newfd => .dup2 oldfd newfd next
  | close fd => .close fd next

def run (t : Fds φ) : TableCall → Fds φ
  | dup2 oldfd newfd => t.dup2 oldfd newfd
  | close fd => t.close fd

variable {t : Fds φ} {call : TableCall} {calls : List TableCall} {r : Ref φ} {fd : Int}

/-- No reference comes from nowhere. -/
theorem exists_of_run (h : call.run t fd = some r) : ∃ fd', t fd' = some r := by
  cases call with
  | dup2 oldfd newfd =>
    rw [run, Fds.dup2] at h
    cases hold : t oldfd with
    | none => exact ⟨fd, by simpa [hold] using h⟩
    | some r' =>
      rw [hold] at h
      dsimp only at h
      rw [Function.update_apply] at h
      split at h
      next => exact ⟨oldfd, hold.trans h⟩
      next => exact ⟨fd, h⟩
  | close fd' =>
    rw [run, Fds.close, Function.update_apply] at h
    split at h
    next => cases h
    next => exact ⟨fd, h⟩

theorem exists_of_foldl (h : calls.foldl run t fd = some r) : ∃ fd', t fd' = some r := by
  induction calls generalizing t with
  | nil => exact ⟨fd, h⟩
  | cons call calls ih =>
    obtain ⟨fd', h'⟩ := ih h
    exact exists_of_run h'

end TableCall

namespace Fds

variable {t u : Fds φ} {fd : Int × Int} {a b d : Int} {p : Nat}

theorem withPipe_apply : t.withPipe fd p d =
    if d = fd.2 then some (.writeEnd p) else if d = fd.1 then some (.readEnd p) else t d := by
  simp only [withPipe, Function.update_apply]

theorem NewPipe.ne (h : t.NewPipe fd) (hd : t d ≠ none) : d ≠ fd.1 ∧ d ≠ fd.2 := by
  constructor
  · rintro rfl
    exact hd h.1.2
  · rintro rfl
    exact hd h.2.1.2

theorem NewPipe.withPipe_fst (h : t.NewPipe fd) : t.withPipe fd p fd.1 = some (.readEnd p) := by
  simp [withPipe_apply, h.2.2]

theorem withPipe_snd : t.withPipe fd p fd.2 = some (.writeEnd p) := by simp [withPipe_apply]

theorem dup2_of_some {r : Ref φ} (h : t a = some r) : t.dup2 a b = Function.update t b (some r) := by
  rw [dup2, h]

theorem Bounded.update {r : Option (Ref φ)} (h : t.Bounded) :
    Fds.Bounded (Function.update t d r) := by
  obtain ⟨n, hn⟩ := h
  refine ⟨max n (d + 1), fun fd hfd => ?_⟩
  rw [Function.update_of_ne (by omega), hn fd (by omega)]

theorem Bounded.withPipe (h : t.Bounded) : (t.withPipe fd p).Bounded := h.update.update

theorem Bounded.exists_free (h : t.Bounded) : ∃ fd, t.Free fd := by
  obtain ⟨n, hn⟩ := h
  exact ⟨max n 0, le_max_right n 0, hn _ (le_max_left n 0)⟩

theorem Bounded.exists_newPipe (h : t.Bounded) : ∃ fd, t.NewPipe fd := by
  obtain ⟨n, hn⟩ := h
  exact ⟨(max n 0, max n 0 + 1), ⟨by omega, hn _ (by omega)⟩, ⟨by omega, hn _ (by omega)⟩, by omega⟩

/-- Two descriptors are closed that another table does not have. -/
theorem close_close (h : ∀ x, x ≠ a → x ≠ b → u x = t x) (ha : t a = none) (hb : t b = none) :
    (u.close a).close b = t := by
  funext x
  rw [close, close, Function.update_apply, Function.update_apply]
  split
  next hx => rw [hx, hb]
  next hxb =>
    split
    next hx => rw [hx, ha]
    next hxa => exact h x hxa hxb

end Fds

/-! ## Progress -/

namespace Os

variable [DecidableEq φ] {cap : Nat} {prog : σ → Request φ σ} {o o' : Os φ σ} {pid : Nat} {s : σ}
  {ending : CallEnd} {call : Nat × CallEnd}

/-- No pipe holds more than it has room for. -/
theorem Step.length_pipe_le (h : o.Step cap prog call o') (hle : ∀ p, (o.pipe p).length ≤ cap)
    (p : Nat) : (o'.pipe p).length ≤ cap := by
  have hset {p' : Nat} {bytes : List UInt8} (hbytes : bytes.length ≤ cap) :
      (Function.update o.pipe p' bytes p).length ≤ cap := by
    rw [Function.update_apply]
    split
    next => exact hbytes
    next => exact hle p
  obtain ⟨-, h⟩ := h
  generalize prog _ = req at h
  cases h with
  | pipe => exact hset (Nat.zero_le _)
  | @read _ p' _ _ _ hfd hpipe =>
    refine hset ?_
    have hlength := hle p'
    rw [hpipe, List.length_cons] at hlength
    omega
  | write hfd hheld hroom =>
    refine hset ?_
    rw [List.length_append, List.length_singleton]
    exact hroom
  | pipeFails | fork | forkFails | dup2 | close | openFile | openFails | readEof | readBad | sigpipe
  | writeFile | writeFails | exec | execFails | exit => exact hle p

/-- A process that does not wait makes its call. -/
theorem exists_serve (req : Request φ σ) (h : ¬o.Waits cap pid req) :
    ∃ ending o', o.Serve cap pid s req ending o' := by
  cases req with
  | pipe => exact ⟨_, _, .pipeFails⟩
  | fork => exact ⟨_, _, .fork⟩
  | dup2 => exact ⟨_, _, .dup2⟩
  | close => exact ⟨_, _, .close⟩
  | openFile => exact ⟨_, _, .openFails⟩
  | exec => exact ⟨_, _, .exec⟩
  | exit => exact ⟨_, _, .exit⟩
  | read fd next =>
    by_cases hfd : ∃ p, o.fds pid fd = some (.readEnd p)
    · obtain ⟨p, hfd⟩ := hfd
      cases hpipe : o.pipe p with
      | cons c rest => exact ⟨_, _, .read hfd hpipe⟩
      | nil => exact ⟨_, _, .readEof hfd hpipe fun hheld => h ⟨p, hfd, hpipe, hheld⟩⟩
    · exact ⟨_, _, .readBad fun p hp => hfd ⟨p, hp⟩⟩
  | write fd c next =>
    cases hfd : o.fds pid fd with
    | none => exact ⟨_, _, .writeFails (by simp [hfd])⟩
    | some r =>
      cases r with
      | readEnd p => exact ⟨_, _, .writeFails (by simp [hfd])⟩
      | file f => exact ⟨_, _, .writeFile hfd⟩
      | writeEnd p =>
        by_cases hheld : o.Held (.readEnd p)
        · refine ⟨_, _, .write hfd hheld (not_le.1 fun hfull => ?_)⟩
          exact h ⟨p, hfd, hfull, hheld⟩
        · exact ⟨_, _, .sigpipe hfd hheld⟩

/-- When nothing can happen any more, every running process waits. -/
theorem Stuck.waits (h : o.Stuck cap prog) (hs : o.status pid = .running s) :
    o.Waits cap pid (prog s) := by
  by_contra hnot
  obtain ⟨ending, o', hserve⟩ := exists_serve (s := s) (prog s) hnot
  exact h _ _ (.mk hs hserve)

end Os

end CS330
