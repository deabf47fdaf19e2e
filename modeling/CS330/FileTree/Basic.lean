import Mathlib.Tactic.TypeStar

/-! # Directory trees

What `opendir`, `readdir` and `stat` tell a program about a directory and all that is below it.
Strings are lists of bytes without the terminating zero. -/

namespace CS330

/-- A name in a directory other than "." and "..". -/
def FileName := { name : List UInt8 // name ≠ [46] ∧ name ≠ [46, 46] }

mutual
/-- A regular file, a directory, or a symbolic link with what it leads to. -/
inductive Node where
  | file (content : List UInt8)
  | dir (size : BitVec 64) (listing : Listing)
  | link (target : Node)

/-- The entries of a directory in the order of `readdir`, "." and ".." among them. -/
inductive Listing where
  | nil
  | dot (rest : Listing)
  | dotdot (rest : Listing)
  | entry (name : FileName) (node : Node) (rest : Listing)
end

/-- `d_type`. -/
inductive DType where
  | reg
  | dir
  | lnk
deriving DecidableEq, Repr

/-- The entry of a directory says what is there itself. -/
def Node.dType : Node → DType
  | file _ => .reg
  | dir _ _ => .dir
  | link _ => .lnk

/-- The name "f". -/
def nameF : FileName := ⟨[102], by decide⟩

/-- The path of an entry: `path`, a slash and the name. -/
def joinPath (path : List UInt8) (name : FileName) : List UInt8 := path ++ 47 :: name.1

end CS330
