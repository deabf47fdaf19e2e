import CS330.FileTree.Basic
import CS330.Lib.Bytes
import CS330.Lib.Lines
import CS330.Lib.Word
import Mathlib.Logic.Function.Basic

/-! # Recursive grep

`myGrep` reads a file byte by byte into a buffer and looks for the key when a line is complete. Its
loop runs once more at the end of the file, with the byte read last. The buffer has as many bytes as
an `int` says that the file has, and what is stored behind it has no defined effect. -/

namespace CS330

def newline : UInt8 := 10

/-- The string in a buffer whose byte `n` is zero. -/
def cString (rb : Nat → UInt8) (n : Nat) : List UInt8 := (load rb 0 n).takeWhile (· ≠ 0)

/-- The local variables of `myGrep`, and the lines that it has printed. `rb` is what the memory holds
from the start of the buffer on. -/
structure GrepState where
  rb : Nat → UInt8
  k : Nat
  t : UInt8
  printed : List (List UInt8)

/-- The body of the loop after `read`, with the byte that is then in `t`. -/
def GrepState.body (key : List UInt8) (s : GrepState) (t : UInt8) : GrepState :=
  let rb := Function.update s.rb s.k t
  let k := s.k + 1
  if t = newline then
    let rb := Function.update rb k 0
    let line := cString rb k
    ⟨rb, 0, t, if key <:+: line then s.printed ++ [line] else s.printed⟩
  else ⟨rb, k, t, s.printed⟩

/-- The indices of `rb` that the body of the loop writes. -/
def GrepState.writes (s : GrepState) (t : UInt8) : List Nat :=
  if t = newline then [s.k, s.k + 1] else [s.k]

/-- The size of `rb`: `siz` is an `int`, and a negative one asks for more memory than there is. -/
def rbSize (content : List UInt8) : Nat := (int32 content.length).toNat

/-- The loop of `myGrep` on what is left of the file, with a buffer of `size` bytes. At the end of
the file `read` leaves `t` alone. There is no result if a byte is stored behind the buffer. -/
def grepLoop (size : Nat) (key : List UInt8) : List UInt8 → GrepState → Option GrepState
  | [], s => if ∀ i ∈ s.writes s.t, i < size then some (s.body key s.t) else none
  | t :: rest, s =>
    if ∀ i ∈ s.writes t, i < size then grepLoop size key rest (s.body key t) else none

/-- What `t` and the buffer hold at first in the call of `myGrep` for a path. -/
abbrev Junk := List UInt8 → UInt8 × (Nat → UInt8)

/-- The lines printed, each with the path. -/
def myGrep (junk : Junk) (key path content : List UInt8) : Option (List (List UInt8 × List UInt8)) :=
  (grepLoop (rbSize content) key content ⟨(junk path).2, 0, (junk path).1, []⟩).map
    (·.printed.map (path, ·))

/-- The call of `myGrep` for an entry whose `d_type` is `DT_REG`. -/
def grepRegular (junk : Junk) (key path : List UInt8) :
    Node → Option (List (List UInt8 × List UInt8))
  | .file content => myGrep junk key path content
  | _ => some []

mutual
/-- `opendir` opens directories and what a link leads to, and fails on files. -/
def recMyGrep (junk : Junk) (key path : List UInt8) :
    Node → Option (List (List UInt8 × List UInt8))
  | .file _ => some []
  | .dir _ listing => recMyGrepLoop junk key path listing
  | .link target => recMyGrep junk key path target

/-- The loop over the entries of the directory. -/
def recMyGrepLoop (junk : Junk) (key path : List UInt8) :
    Listing → Option (List (List UInt8 × List UInt8))
  | .nil => some []
  | .dot rest => recMyGrepLoop junk key path rest
  | .dotdot rest => recMyGrepLoop junk key path rest
  | .entry name node rest => do
    let out ← grepRegular junk key (joinPath path name) node
    let below ← recMyGrep junk key (joinPath path name) node
    let more ← recMyGrepLoop junk key path rest
    return out ++ below ++ more
end

/-! ## The files of a tree -/

mutual
/-- The regular files, each with its path. -/
def Node.files (path : List UInt8) : Node → List (List UInt8 × List UInt8)
  | .file content => [(path, content)]
  | .dir _ listing => listing.files path
  | .link _ => []

def Listing.files (path : List UInt8) : Listing → List (List UInt8 × List UInt8)
  | .nil => []
  | .dot rest => rest.files path
  | .dotdot rest => rest.files path
  | .entry name node rest => node.files (joinPath path name) ++ rest.files path
end

mutual
/-- There are only files and directories. -/
def Node.NoLinks : Node → Prop
  | .file _ => True
  | .dir _ listing => listing.NoLinks
  | .link _ => False

def Listing.NoLinks : Listing → Prop
  | .nil => True
  | .dot rest => rest.NoLinks
  | .dotdot rest => rest.NoLinks
  | .entry _ node rest => node.NoLinks ∧ rest.NoLinks
end

end CS330
