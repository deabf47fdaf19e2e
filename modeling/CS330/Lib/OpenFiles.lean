import Mathlib.Logic.Function.Basic

/-! # Files of bytes, open files with a cursor, and tables of descriptors

A file is a list. It is read and written through open files, each of which has a place in the file
that its reads and writes move; any number of them may be open on one file. Processes have
descriptors, and any number of descriptors of any processes may lead to one open file. -/

namespace CS330

variable {α I X O N M P D : Type*}

/-- The list with `data` written over it from index `n` on. -/
def overwrite (l : List α) (n : Nat) (data : List α) : List α :=
  l.take n ++ data ++ l.drop (n + data.length)

theorem length_overwrite {l data : List α} {n : Nat} (h : n ≤ l.length) :
    (overwrite l n data).length = max l.length (n + data.length) := by
  simp only [overwrite, List.length_append, List.length_take, List.length_drop]
  omega

/-- An open file of the file `inode`. -/
structure OpenFile (I : Type*) where
  inode : I
  readable : Bool
  writable : Bool
  cursor : Nat

/-- What a descriptor leads to: an open file, or something without a cursor. -/
inductive Opened (I X : Type*) where
  | file (f : OpenFile I)
  | special (x : X)

/-- The contents of the files, and all that is open. -/
structure Store (I X O α : Type*) where
  bytes : I → List α
  opened : O → Option (Opened I X)

namespace Store

variable {st : Store I X O α} {o o' : O} {f : OpenFile I} {n count : Nat} {data : List α}

/-- What a read of `count` bytes gives. -/
def rest (st : Store I X O α) (f : OpenFile I) (count : Nat) : List α :=
  ((st.bytes f.inode).drop f.cursor).take count

section
variable [DecidableEq O]

def seek (st : Store I X O α) (o : O) (f : OpenFile I) (n : Nat) : Store I X O α :=
  { st with opened := Function.update st.opened o (some (.file { f with cursor := n })) }

def read (st : Store I X O α) (o : O) (f : OpenFile I) (count : Nat) : Store I X O α :=
  st.seek o f (f.cursor + (st.rest f count).length)

def write [DecidableEq I] (st : Store I X O α) (o : O) (f : OpenFile I) (data : List α) :
    Store I X O α :=
  { st with
    bytes := Function.update st.bytes f.inode
      (overwrite (st.bytes f.inode) f.cursor data) }.seek o f (f.cursor + data.length)

/-- What is open stays open. -/
theorem isSome_seek (h : (st.opened o').isSome) : ((st.seek o f n).opened o').isSome := by
  rcases eq_or_ne o' o with rfl | hne
  · simp [seek]
  · simpa [seek, hne] using h

end

/-- No file that is open is longer than `limit`, and no cursor is behind it. -/
def Within (limit : Nat) (st : Store I X O α) : Prop :=
  ∀ o f, st.opened o = some (.file f) → f.cursor ≤ limit ∧ (st.bytes f.inode).length ≤ limit

namespace Within

variable {limit : Nat} [DecidableEq O]

theorem seek (h : st.Within limit) (ho : st.opened o = some (.file f)) (hn : n ≤ limit) :
    (st.seek o f n).Within limit := by
  intro o' f' ho'
  rcases eq_or_ne o' o with rfl | hne
  · obtain rfl : { f with cursor := n } = f' := by simpa [Store.seek] using ho'
    exact ⟨hn, (h _ _ ho).2⟩
  · exact h o' f' (by simpa [Store.seek, hne] using ho')

theorem read (h : st.Within limit) (ho : st.opened o = some (.file f)) :
    (st.read o f count).Within limit := by
  obtain ⟨hcursor, hlength⟩ := h o f ho
  refine h.seek ho ?_
  simp only [rest, List.length_take, List.length_drop]
  omega

theorem write [DecidableEq I] (h : st.Within limit) (ho : st.opened o = some (.file f))
    (hin : f.cursor ≤ (st.bytes f.inode).length) (hdata : f.cursor + data.length ≤ limit) :
    (st.write o f data).Within limit := by
  refine seek (fun o' f' ho' => ⟨(h o' f' ho').1, ?_⟩) ho hdata
  by_cases hsame : f'.inode = f.inode
  · simpa [hsame, length_overwrite hin] using Nat.max_le.2 ⟨(h o f ho).2, hdata⟩
  · simpa [hsame] using (h o' f' ho').2

end Within

end Store

/-! ## Names and descriptors -/

/-- A store whose files have names and modes, with the handle behind each descriptor of each
process. -/
structure SharedStore (N M P D I X O α : Type*) extends Store I X O α where
  names : N → Option I
  modes : I → M
  files : P → D → Option O

namespace SharedStore

variable {st : SharedStore N M P D I X O α} {p c : P} {d : D} {o : O} {x : Opened I X} {name : N}
  {i : I} {mode : M} {v : Option O} {limit : Nat}

/-- A new empty file. -/
def create [DecidableEq I] [DecidableEq N] (st : SharedStore N M P D I X O α) (name : N) (i : I)
    (mode : M) : SharedStore N M P D I X O α :=
  { st with
    bytes := Function.update st.bytes i []
    names := Function.update st.names name (some i)
    modes := Function.update st.modes i mode }

/-- The handle `o` is for `x` from now on. -/
def alloc [DecidableEq O] (st : SharedStore N M P D I X O α) (o : O) (x : Opened I X) :
    SharedStore N M P D I X O α :=
  { st with opened := Function.update st.opened o (some x) }

section
variable [DecidableEq P]

def setSlot [DecidableEq D] (st : SharedStore N M P D I X O α) (p : P) (d : D) (v : Option O) :
    SharedStore N M P D I X O α :=
  { st with files := Function.update st.files p (Function.update (st.files p) d v) }

/-- The descriptors of `c` lead where those of `p` lead. -/
def inherit (st : SharedStore N M P D I X O α) (p c : P) : SharedStore N M P D I X O α :=
  { st with files := Function.update st.files c (st.files p) }

def discard (st : SharedStore N M P D I X O α) (p : P) : SharedStore N M P D I X O α :=
  { st with files := Function.update st.files p fun _ => none }

end

/-- Every descriptor leads to something that is open. -/
def Leads (st : SharedStore N M P D I X O α) : Prop :=
  ∀ p d o, st.files p d = some o → (st.opened o).isSome

/-- The invariant of a store: its descriptors lead somewhere, and no open file is too long. -/
structure Sound (limit : Nat) (st : SharedStore N M P D I X O α) : Prop where
  leads : st.Leads
  within : st.Within limit

namespace Sound

theorem create [DecidableEq I] [DecidableEq N] (h : st.Sound limit) :
    (st.create name i mode).Sound limit where
  leads := h.leads
  within o f ho := by
    obtain ⟨hcursor, hlength⟩ := h.within o f ho
    refine ⟨hcursor, ?_⟩
    rcases eq_or_ne f.inode i with rfl | hne
    · simp [SharedStore.create]
    · simpa [SharedStore.create, hne] using hlength

theorem alloc [DecidableEq O] (h : st.Sound limit)
    (hx : ∀ f, x = .file f → f.cursor ≤ limit ∧ (st.bytes f.inode).length ≤ limit) :
    (st.alloc o x).Sound limit where
  leads p d o' hd := by
    rcases eq_or_ne o' o with rfl | hne
    · simp [SharedStore.alloc]
    · simpa [SharedStore.alloc, hne] using h.leads p d o' hd
  within o' f ho' := by
    rcases eq_or_ne o' o with rfl | hne
    · exact hx f (by simpa [SharedStore.alloc] using ho')
    · exact h.within o' f (by simpa [SharedStore.alloc, hne] using ho')

section
variable [DecidableEq P]

theorem setSlot [DecidableEq D] (h : st.Sound limit) (hv : ∀ o, v = some o → (st.opened o).isSome) :
    (st.setSlot p d v).Sound limit where
  leads p' d' o hd := by
    rcases eq_or_ne p' p with rfl | hp
    · rcases eq_or_ne d' d with rfl | hne
      · exact hv o (by simpa [SharedStore.setSlot] using hd)
      · exact h.leads p' d' o (by simpa [SharedStore.setSlot, hne] using hd)
    · exact h.leads p' d' o (by simpa [SharedStore.setSlot, hp] using hd)
  within := h.within

theorem inherit (h : st.Sound limit) : (st.inherit p c).Sound limit where
  leads p' d o hd := by
    rcases eq_or_ne p' c with rfl | hp
    · exact h.leads p d o (by simpa [SharedStore.inherit] using hd)
    · exact h.leads p' d o (by simpa [SharedStore.inherit, hp] using hd)
  within := h.within

theorem discard (h : st.Sound limit) : (st.discard p).Sound limit where
  leads p' d o hd := by
    rcases eq_or_ne p' p with rfl | hp
    · simp [SharedStore.discard] at hd
    · exact h.leads p' d o (by simpa [SharedStore.discard, hp] using hd)
  within := h.within

end

end Sound

end SharedStore

end CS330
