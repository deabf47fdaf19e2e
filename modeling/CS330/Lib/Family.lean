import CS330.Lib.Posix
import Mathlib.Algebra.BigOperators.Group.Finset.Basic

/-! # Processes that know their tables

In most programs the state of a process says which process it is and what its descriptors refer to.
`Family Tab role o` states this for all processes; a step keeps it when the state that the process
gets to fits the table that it leaves. -/

namespace CS330

variable {φ σ : Type*} {Tab : σ → Fds φ → Prop} {role : σ → Nat} {o o' : Os φ σ} {pid q : Nat}
  {s s' : σ} {t : Fds φ} {st : Status σ}

namespace Os

/-- Where the process stands or stood at last. -/
def at? (o : Os φ σ) (pid : Nat) : Option σ := (o.status pid).state

def Running (o : Os φ σ) (pid : Nat) : Prop := ∃ s, o.status pid = .running s

/-- All processes have ended. -/
def Ended (o : Os φ σ) : Prop := ∀ pid, ¬o.Running pid

theorem at?_of_running (h : o.status pid = .running s) : o.at? pid = some s := by
  rw [at?, h]
  rfl

@[simp] theorem status_goto_self : (o.goto pid s).status pid = .running s :=
  Function.update_self ..

section
variable {p : Nat} {bytes : List UInt8} {child : σ}

@[simp] theorem pipe_goto : (o.goto pid s).pipe = o.pipe := rfl

@[simp] theorem pipe_setFds : (o.setFds pid t).pipe = o.pipe := rfl

@[simp] theorem pipe_spawn : (o.spawn pid child).pipe = o.pipe := rfl

@[simp] theorem pipe_finish : (o.finish pid st).pipe = o.pipe := rfl

@[simp] theorem pipe_setPipe_self : (o.setPipe p bytes).pipe p = bytes := Function.update_self ..

@[simp] theorem pipe_setPipe_of_ne (h : q ≠ p) : (o.setPipe p bytes).pipe q = o.pipe q :=
  Function.update_of_ne h ..

@[simp] theorem file_goto : (o.goto pid s).file = o.file := rfl

@[simp] theorem file_setFds : (o.setFds pid t).file = o.file := rfl

@[simp] theorem file_setPipe : (o.setPipe p bytes).file = o.file := rfl

@[simp] theorem file_spawn : (o.spawn pid child).file = o.file := rfl

@[simp] theorem file_finish : (o.finish pid st).file = o.file := rfl

end

/-- What is known of a process from where it stands or stood at last. -/
def look {α : Type*} (o : Os φ σ) (pid : Nat) (f : σ → α) (default : α) : α :=
  (o.at? pid).elim default f

section
variable {α : Type*} {f : σ → α} {default : α} {p : Nat} {bytes : List UInt8} {child : σ}

theorem look_of_running (h : o.status pid = .running s) : o.look pid f default = f s := by
  rw [look, at?_of_running h]
  rfl

theorem look_of_absent (h : o.status pid = .absent) : o.look pid f default = default := by
  rw [look, at?, h]
  rfl

@[simp] theorem look_goto_self : (o.goto pid s).look pid f default = f s := by
  simp [look, at?, goto, Status.state]

@[simp] theorem look_goto_of_ne (h : q ≠ pid) :
    (o.goto pid s).look q f default = o.look q f default := by
  simp [look, at?, goto, h]

@[simp] theorem look_setFds : (o.setFds pid t).look q f default = o.look q f default := rfl

@[simp] theorem look_setPipe : (o.setPipe p bytes).look q f default = o.look q f default := rfl

@[simp] theorem look_mk {n m : Nat} {g : Nat → Fds φ} {h : Nat → List UInt8}
    {F : φ → List UInt8} : (Os.mk o.status n g h m F).look q f default = o.look q f default := rfl

@[simp] theorem look_spawn_of_ne (h : q ≠ o.nextPid) :
    (o.spawn pid child).look q f default = o.look q f default := by
  simp [look, at?, spawn, h]

@[simp] theorem look_spawn_self (h : q = o.nextPid) :
    (o.spawn pid child).look q f default = f child := by
  simp [look, at?, spawn, Status.state, h]

@[simp] theorem look_finish_of_ne (h : q ≠ pid) :
    (o.finish pid st).look q f default = o.look q f default := by
  simp [look, at?, finish, h]

theorem look_update (hstatus : o'.status = Function.update o.status pid st) (hst : st.state = some s) :
    o'.look q f default = if q = pid then f s else o.look q f default := by
  simp only [look, at?, hstatus, Function.update_apply]
  split
  next => rw [hst, Option.elim_some]
  next => rfl

end

/-- What a running process counts for. -/
def tally (o : Os φ σ) (pid : Nat) (f : σ → Nat) : Nat :=
  match o.status pid with
  | .running s => f s
  | _ => 0

section
variable {f : σ → Nat} {p : Nat} {bytes : List UInt8} {child : σ}

theorem tally_of_running (h : o.status pid = .running s) : o.tally pid f = f s := by
  rw [tally, h]

theorem tally_of_absent (h : o.status pid = .absent) : o.tally pid f = 0 := by
  rw [tally, h]

@[simp] theorem tally_goto_self : (o.goto pid s).tally pid f = f s := by
  simp [tally, goto]

@[simp] theorem tally_goto_of_ne (h : q ≠ pid) : (o.goto pid s).tally q f = o.tally q f := by
  simp [tally, goto, h]

@[simp] theorem tally_setFds : (o.setFds pid t).tally q f = o.tally q f := rfl

@[simp] theorem tally_setPipe : (o.setPipe p bytes).tally q f = o.tally q f := rfl

@[simp] theorem tally_mk {n m : Nat} {g : Nat → Fds φ} {h : Nat → List UInt8}
    {F : φ → List UInt8} : (Os.mk o.status n g h m F).tally q f = o.tally q f := rfl

@[simp] theorem tally_spawn_of_ne (h : q ≠ o.nextPid) :
    (o.spawn pid child).tally q f = o.tally q f := by
  simp [tally, spawn, h]

@[simp] theorem tally_spawn_self (h : q = o.nextPid) :
    (o.spawn pid child).tally q f = f child := by
  simp [tally, spawn, h]

@[simp] theorem tally_finish_of_ne (h : q ≠ pid) : (o.finish pid st).tally q f = o.tally q f := by
  simp [tally, finish, h]

theorem tally_finish_self (h : ∀ s, st ≠ .running s) : (o.finish pid st).tally pid f = 0 := by
  cases st with
  | running s => exact (h s rfl).elim
  | absent | exited | killed => simp [tally, finish]

end

/-- What the first `n` processes count for together. -/
def total (o : Os φ σ) (n : Nat) (f : σ → Nat) : Nat := ∑ q ∈ Finset.range n, o.tally q f

/-- The process `pid` changes to `st`, with the table `t`. -/
structure Moves (o o' : Os φ σ) (pid : Nat) (st : Status σ) (t : Fds φ) : Prop where
  status : o'.status = Function.update o.status pid st
  fds : o'.fds = Function.update o.fds pid t
  nextPid : o'.nextPid = o.nextPid

theorem moves_goto (hstatus : o'.status = Function.update o.status pid (.running s))
    (hfds : o'.fds = o.fds) (hnext : o'.nextPid = o.nextPid) :
    Moves o o' pid (.running s) (o.fds pid) :=
  ⟨hstatus, hfds.trans (Function.update_eq_self ..).symm, hnext⟩

namespace Moves

theorem status_self (h : Moves o o' pid st t) : o'.status pid = st := by
  rw [h.status, Function.update_self]

theorem status_of_ne (h : Moves o o' pid st t) (hq : q ≠ pid) : o'.status q = o.status q := by
  rw [h.status, Function.update_of_ne hq]

theorem fds_self (h : Moves o o' pid st t) : o'.fds pid = t := by
  rw [h.fds, Function.update_self]

theorem fds_of_ne (h : Moves o o' pid st t) (hq : q ≠ pid) : o'.fds q = o.fds q := by
  rw [h.fds, Function.update_of_ne hq]

/-- Of what the running processes count for together, only that of `pid` changes. -/
theorem total_add {f : σ → Nat} {n : Nat} (h : Moves o o' pid st t) (hs : o.status pid = .running s)
    (hpid : pid < n) : o'.total n f + f s = o.total n f + o'.tally pid f := by
  have hmem := Finset.mem_range.2 hpid
  have hother : ∑ q ∈ (Finset.range n).erase pid, o'.tally q f =
      ∑ q ∈ (Finset.range n).erase pid, o.tally q f :=
    Finset.sum_congr rfl fun q hq => by
      rw [tally, h.status_of_ne (Finset.ne_of_mem_erase hq), ← tally]
  rw [total, total, ← Finset.add_sum_erase _ _ hmem, hother, ← Finset.add_sum_erase _ _ hmem,
    tally_of_running hs]
  omega

theorem running_of_ne (h : Moves o o' pid st t) (hq : q ≠ pid) : o'.Running q ↔ o.Running q := by
  rw [Running, Running, h.status_of_ne hq]

/-- What does not depend on the change is as before. -/
theorem look_eq {α : Type*} {f : σ → α} {default : α} (h : Moves o o' pid st t)
    (hs : o.status pid = .running s) (hst : st.state = some s') (hf : f s' = f s) :
    o'.look q f default = o.look q f default := by
  rw [look_update h.status hst]
  split
  next hq => rw [hq, look_of_running hs, hf]
  next => rfl

theorem at?_self (h : Moves o o' pid st t) : o'.at? pid = st.state := by
  rw [at?, h.status_self]

theorem at?_of_ne (h : Moves o o' pid st t) (hq : q ≠ pid) : o'.at? q = o.at? q := by
  rw [at?, h.status_of_ne hq, at?]

end Moves

end Os

structure Family (Tab : σ → Fds φ → Prop) (role : σ → Nat) (o : Os φ σ) : Prop where
  table : ∀ {pid s}, o.status pid = .running s → Tab s (o.fds pid)
  closed : ∀ {pid}, ¬o.Running pid → ∀ fd, o.fds pid fd = none
  absent : ∀ {pid}, o.nextPid ≤ pid → o.status pid = .absent
  present : ∀ {pid}, pid < o.nextPid → ∃ s, o.at? pid = some s
  role : ∀ {pid s}, o.at? pid = some s → role s = pid

namespace Family

variable {r : Ref φ}

/-- An end is held by a running process. -/
theorem exists_of_held (F : Family Tab role o) (h : o.Held r) :
    ∃ pid s fd, o.status pid = .running s ∧ o.fds pid fd = some r := by
  obtain ⟨pid, fd, hfd⟩ := h
  by_cases hrun : o.Running pid
  · obtain ⟨s, hs⟩ := hrun
    exact ⟨pid, s, fd, hs, hfd⟩
  · rw [F.closed hrun] at hfd
    cases hfd

theorem pid_lt (F : Family Tab role o) (hs : o.status pid = .running s) : pid < o.nextPid := by
  by_contra hnot
  rw [F.absent (not_lt.1 hnot)] at hs
  cases hs

/-- A process that is there and does not run has exited, unless it was killed. -/
theorem exists_exited (F : Family Tab role o) (hq : q < o.nextPid) (hrun : ¬o.Running q)
    (halive : ∀ s, o.status q ≠ .killed s) :
    ∃ s, o.status q = .exited s ∧ o.at? q = some s ∧ role s = q := by
  obtain ⟨s, hs⟩ := F.present hq
  have hrole := F.role hs
  have hstate := hs
  rw [Os.at?] at hstate
  cases hstatus : o.status q with
  | absent => simp [hstatus, Status.state] at hstate
  | running s' => exact (hrun ⟨s', hstatus⟩).elim
  | killed s' => exact (halive s' hstatus).elim
  | exited s' =>
    simp only [hstatus, Status.state, Option.some.injEq] at hstate
    subst hstate
    exact ⟨_, rfl, hs, hrole⟩

theorem boot {start : σ} {file : φ → List UInt8} (htab : Tab start t) (hrole : role start = 0) :
    Family Tab role (Os.boot start t file) where
  table {pid s} h := by
    by_cases hpid : pid = 0
    · simp only [Os.boot, if_pos hpid] at h ⊢
      cases h
      exact htab
    · simp [Os.boot, hpid] at h
  closed {pid} h fd := by
    have hpid : pid ≠ 0 := fun heq => h ⟨start, by simp [Os.boot, heq]⟩
    simp [Os.boot, hpid]
  absent {pid} h := by
    have hpid : pid ≠ 0 := by
      rintro rfl
      simp [Os.boot] at h
    simp [Os.boot, hpid]
  present {pid} h := by
    obtain rfl : pid = 0 := Nat.lt_one_iff.1 h
    exact ⟨start, rfl⟩
  role {pid s} h := by
    by_cases hpid : pid = 0
    · simp only [Os.at?, Os.boot, if_pos hpid, Status.state, Option.some.injEq] at h
      rw [← h, hrole, hpid]
    · simp [Os.at?, Os.boot, hpid, Status.state] at h

/-- A process changes its state, its table or both, or it ends. -/
theorem move (F : Family Tab role o) (hs : o.status pid = .running s)
    (h : o.Moves o' pid st t) (htab : ∀ s', st = .running s' → Tab s' t)
    (hclosed : (∀ s', st ≠ .running s') → ∀ fd, t fd = none) (hst : st.state = some s')
    (hrole : role s' = role s) : Family Tab role o' where
  table {q s'} hq := by
    by_cases hpid : q = pid
    · subst hpid
      rw [h.status_self] at hq
      rw [h.fds_self]
      exact htab s' hq
    · rw [h.status_of_ne hpid] at hq
      rw [h.fds_of_ne hpid]
      exact F.table hq
  closed {q} hq fd := by
    by_cases hpid : q = pid
    · subst hpid
      rw [h.fds_self]
      exact hclosed (fun s' hst => hq ⟨s', h.status_self.trans hst⟩) fd
    · rw [h.fds_of_ne hpid]
      refine F.closed (fun ⟨s', hs'⟩ => hq ⟨s', ?_⟩) fd
      rw [h.status_of_ne hpid, hs']
  absent {q} hq := by
    rw [h.nextPid] at hq
    have hpid : q ≠ pid := ((F.pid_lt hs).trans_le hq).ne'
    rw [h.status_of_ne hpid, F.absent hq]
  present {q} hq := by
    rw [h.nextPid] at hq
    by_cases hpid : q = pid
    · subst hpid
      exact ⟨s', h.at?_self.trans hst⟩
    · rw [h.at?_of_ne hpid]
      exact F.present hq
  role {q s₁} hq := by
    by_cases hpid : q = pid
    · subst hpid
      rw [h.at?_self, hst] at hq
      cases hq
      rw [hrole]
      exact F.role (Os.at?_of_running hs)
    · rw [h.at?_of_ne hpid] at hq
      exact F.role hq

/-- Only the state of the process changes, and pipes and files. -/
theorem goto (F : Family Tab role o) (hs : o.status pid = .running s)
    (hstatus : o'.status = Function.update o.status pid (.running s')) (hfds : o'.fds = o.fds)
    (hnext : o'.nextPid = o.nextPid) (htab : Tab s' (o.fds pid)) (hrole : role s' = role s) :
    Family Tab role o' := by
  refine F.move hs (Os.moves_goto hstatus hfds hnext) ?_ (fun hnot => (hnot _ rfl).elim) rfl hrole
  rintro _ ⟨⟩
  exact htab

theorem setFds (F : Family Tab role o) (hs : o.status pid = .running s)
    (hstatus : o'.status = Function.update o.status pid (.running s'))
    (hfds : o'.fds = Function.update o.fds pid t) (hnext : o'.nextPid = o.nextPid)
    (htab : Tab s' t) (hrole : role s' = role s) : Family Tab role o' := by
  refine F.move hs ⟨hstatus, hfds, hnext⟩ ?_ (fun hnot => (hnot _ rfl).elim) rfl hrole
  rintro _ ⟨⟩
  exact htab

theorem finish (F : Family Tab role o) (hs : o.status pid = .running s)
    (hst : st = .exited s ∨ st = .killed s) : Family Tab role (o.finish pid st) := by
  have hstate : st.state = some s := by rcases hst with rfl | rfl <;> rfl
  refine F.move hs ⟨rfl, rfl, rfl⟩ (fun s' h => ?_) (fun _ _ => rfl) hstate rfl
  rcases hst with rfl | rfl <;> cases h

theorem fork {parent child : σ} (F : Family Tab role o) (hs : o.status pid = .running s)
    (hparent : Tab parent (o.fds pid)) (hchild : Tab child (o.fds pid))
    (hrole : role parent = role s) (hrole' : role child = o.nextPid) :
    Family Tab role ((o.spawn pid child).goto pid parent) := by
  have hlt := F.pid_lt hs
  -- the child is there first, then the parent goes on
  have hspawn : Family Tab role (o.spawn pid child) := by
    constructor
    case table =>
      intro q s' hq
      by_cases hpid : q = o.nextPid
      · subst hpid
        simp only [Os.spawn, Function.update_self, Status.running.injEq] at hq ⊢
        rwa [← hq]
      · simp only [Os.spawn, Function.update_of_ne hpid] at hq ⊢
        exact F.table hq
    case closed =>
      intro q hq fd
      have hpid : q ≠ o.nextPid := by
        rintro rfl
        exact hq ⟨child, Function.update_self ..⟩
      simp only [Os.spawn, Function.update_of_ne hpid]
      refine F.closed (fun ⟨s', hs'⟩ => hq ⟨s', ?_⟩) fd
      simpa [Os.spawn, hpid] using hs'
    case absent =>
      intro q hq
      have hle : o.nextPid + 1 ≤ q := hq
      have hpid : q ≠ o.nextPid := by omega
      simpa [Os.spawn, hpid] using F.absent (by omega)
    case present =>
      intro q hq
      by_cases hpid : q = o.nextPid
      · subst hpid
        exact ⟨child, by simp [Os.at?, Os.spawn, Status.state]⟩
      · have hle : q < o.nextPid + 1 := hq
        have hlt : q < o.nextPid := by omega
        simpa [Os.at?, Os.spawn, hpid] using F.present hlt
    case role =>
      intro q s' hq
      by_cases hpid : q = o.nextPid
      · subst hpid
        simp only [Os.at?, Os.spawn, Function.update_self, Status.state, Option.some.injEq] at hq
        rw [← hq, hrole']
      · simp only [Os.at?, Os.spawn, Function.update_of_ne hpid] at hq
        exact F.role hq
  have hs' : (o.spawn pid child).status pid = .running s := by
    simp [Os.spawn, hlt.ne, hs]
  have hfds : (o.spawn pid child).fds pid = o.fds pid := by simp [Os.spawn, hlt.ne]
  exact hspawn.goto hs' rfl rfl rfl (hfds ▸ hparent) hrole

end Family

end CS330
