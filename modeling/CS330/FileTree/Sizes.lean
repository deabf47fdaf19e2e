import CS330.FileTree.Basic
import Mathlib.Data.BitVec
import Mathlib.Data.List.DropRight
import Mathlib.Tactic.Ring

/-! # Sizes of directories

`printSizes` adds up the entries of the root by `d_type`; a child process adds up each sub-directory
by `findSizeOfDirectory`, which goes by `stat`, and sends the sum through a pipe. The two differ in
a symbolic link to a directory. A `long` is a word of 64 bits. -/

namespace CS330

/-- `st_mode` says that this is a directory. `stat` follows links. -/
def Node.isDir : Node → Bool
  | file _ => false
  | dir _ _ => true
  | link target => target.isDir

/-- `st_size`. -/
def Node.stSize : Node → BitVec 64
  | file content => BitVec.ofNat 64 content.length
  | dir size _ => size
  | link target => target.stSize

mutual
/-- `opendir` opens directories and what a link leads to, and fails on files. -/
def findSizeOfDirectory : Node → BitVec 64
  | .file _ => 0
  | .dir _ listing => findSizeLoop listing 0
  | .link target => findSizeOfDirectory target

/-- The loop over the entries of the directory. -/
def findSizeLoop : Listing → BitVec 64 → BitVec 64
  | .nil, siz => siz
  | .dot rest, siz => findSizeLoop rest siz
  | .dotdot rest, siz => findSizeLoop rest siz
  | .entry _ node rest, siz =>
    findSizeLoop rest (siz + if node.isDir then findSizeOfDirectory node else node.stSize)
end

def findSizeOfFile (node : Node) : BitVec 64 := node.stSize

/-- What lies behind the last slash, a slash at the end of the path apart. -/
def dirName (path : List UInt8) : List UInt8 :=
  (if path.getLast? = some 47 then path.dropLast else path).rtakeWhile (· ≠ 47)

/-- The child process for a sub-directory: the line it prints, and what it writes into the pipe. -/
def sizeChild (name : FileName) (node : Node) : (List UInt8 × BitVec 64) × BitVec 64 :=
  let s := findSizeOfDirectory node
  ((name.1, s), s)

/-- The loop of `printSizes`: the lines printed by the children, and `root_size`. -/
def printSizesLoop : Listing → BitVec 64 → List (List UInt8 × BitVec 64) × BitVec 64
  | .nil, rootSize => ([], rootSize)
  | .dot rest, rootSize => printSizesLoop rest rootSize
  | .dotdot rest, rootSize => printSizesLoop rest rootSize
  | .entry name node rest, rootSize =>
    if node.dType = .dir then
      let (line, t) := sizeChild name node
      let (lines, rootSize) := printSizesLoop rest (rootSize + t)
      (line :: lines, rootSize)
    else printSizesLoop rest (rootSize + findSizeOfFile node)

/-- The lines printed, each a name and a size. -/
def printSizes (path : List UInt8) : Node → List (List UInt8 × BitVec 64)
  | .file _ => []
  | .dir _ listing =>
    let (lines, rootSize) := printSizesLoop listing 0
    lines ++ [(dirName path, rootSize)]
  | .link target => printSizes path target

/-! ## The files below a directory -/

mutual
/-- The sizes of all files that are reached, added up. -/
def Node.fileSizes : Node → BitVec 64
  | .file content => BitVec.ofNat 64 content.length
  | .dir _ listing => listing.fileSizes
  | .link target => target.fileSizes

def Listing.fileSizes : Listing → BitVec 64
  | .nil => 0
  | .dot rest => rest.fileSizes
  | .dotdot rest => rest.fileSizes
  | .entry _ node rest => node.fileSizes + rest.fileSizes
end

/-- The entries other than "." and "..". -/
def Listing.entries : Listing → List (FileName × Node)
  | nil => []
  | dot rest => rest.entries
  | dotdot rest => rest.entries
  | entry name node rest => (name, node) :: rest.entries

/-- The symbolic links to directories among the entries. -/
def Listing.linkedDirs (listing : Listing) : List Node :=
  (listing.entries.map Prod.snd).filter fun node => node.dType = .lnk ∧ node.isDir

mutual
/-- What `findSizeOfDirectory` adds for an entry. -/
theorem size_of_entry : ∀ node : Node,
    (if node.isDir then findSizeOfDirectory node else node.stSize) = node.fileSizes
  | .file _ => rfl
  | .dir _ listing => (findSizeLoop_eq listing 0).trans (BitVec.zero_add _)
  | .link target => size_of_entry target

theorem findSizeLoop_eq : ∀ (listing : Listing) (siz : BitVec 64),
    findSizeLoop listing siz = siz + listing.fileSizes
  | .nil, siz => (BitVec.add_zero siz).symm
  | .dot rest, siz => findSizeLoop_eq rest siz
  | .dotdot rest, siz => findSizeLoop_eq rest siz
  | .entry _ node rest, siz => by
    rw [findSizeLoop, size_of_entry node, findSizeLoop_eq rest, Listing.fileSizes,
      BitVec.add_assoc]
end

theorem findSizeOfDirectory_dir {size : BitVec 64} {listing : Listing} :
    findSizeOfDirectory (.dir size listing) = listing.fileSizes :=
  (findSizeLoop_eq listing 0).trans (BitVec.zero_add _)

/-! ## The two sums -/

theorem linkedDirs_entry {name : FileName} {node : Node} {rest : Listing} :
    (Listing.entry name node rest).linkedDirs =
      if node.dType = .lnk ∧ node.isDir then node :: rest.linkedDirs else rest.linkedDirs := by
  simp [Listing.linkedDirs, Listing.entries, List.filter_cons]

/-- What `printSizes` adds for an entry. -/
theorem printSizesLoop_entry {name : FileName} {node : Node} {rest : Listing}
    {rootSize : BitVec 64} : (printSizesLoop (.entry name node rest) rootSize).2 =
      (printSizesLoop rest (rootSize +
        if node.dType = .lnk ∧ node.isDir then node.stSize else node.fileSizes)).2 := by
  cases node with
  | file => rfl
  | dir => exact congrArg (fun t => (printSizesLoop rest (rootSize + t)).2) findSizeOfDirectory_dir
  | link target =>
    have hsize := size_of_entry (.link target)
    by_cases hdir : target.isDir
    · simp [printSizesLoop, Node.dType, Node.isDir, hdir, findSizeOfFile]
    · simp [Node.isDir, hdir] at hsize
      simp [printSizesLoop, Node.dType, Node.isDir, hdir, findSizeOfFile, hsize]

/-- `printSizes` takes the sizes of the directories behind the links of the root for what lies
below them. -/
theorem printSizesLoop_total : ∀ (listing : Listing) (rootSize : BitVec 64),
    (printSizesLoop listing rootSize).2 + (listing.linkedDirs.map Node.fileSizes).sum =
      rootSize + listing.fileSizes + (listing.linkedDirs.map Node.stSize).sum
  | .nil, rootSize => by simp [printSizesLoop, Listing.linkedDirs, Listing.entries, Listing.fileSizes]
  | .dot rest, rootSize => printSizesLoop_total rest rootSize
  | .dotdot rest, rootSize => printSizesLoop_total rest rootSize
  | .entry name node rest, rootSize => by
    rw [printSizesLoop_entry, linkedDirs_entry, Listing.fileSizes]
    split
    · have ih := printSizesLoop_total rest (rootSize + node.stSize)
      rw [List.map_cons, List.map_cons, List.sum_cons, List.sum_cons, add_left_comm, ih]
      ring
    · rw [printSizesLoop_total rest, add_assoc rootSize]

/-- A child prints what `findSizeOfDirectory` finds. -/
theorem mem_printSizesLoop : ∀ (listing : Listing) {rootSize : BitVec 64} {name : FileName}
    {node : Node}, (name, node) ∈ listing.entries → node.dType = .dir →
      (name.1, findSizeOfDirectory node) ∈ (printSizesLoop listing rootSize).1
  | .dot rest, _, _, _, h, hdir => mem_printSizesLoop rest h hdir
  | .dotdot rest, _, _, _, h, hdir => mem_printSizesLoop rest h hdir
  | .entry name' node' rest, rootSize, name, node, h, hdir => by
    rw [printSizesLoop]
    rcases List.mem_cons.1 h with heq | h
    · cases heq
      rw [if_pos hdir]
      exact List.mem_cons_self
    · split
      · exact List.mem_cons_of_mem _ (mem_printSizesLoop rest h hdir)
      · exact mem_printSizesLoop rest h hdir

/-- A directory has the same size as a sub-directory of another root and as the root just when the
directories behind its links are as large as what lies below them. -/
theorem printSizes_total_iff (path : List UInt8) {size : BitVec 64} {listing : Listing} :
    (∀ (path' : List UInt8) (size' : BitVec 64) (root : Listing) (name : FileName),
      (name, .dir size listing) ∈ root.entries →
        (name.1, findSizeOfDirectory (.dir size listing)) ∈ printSizes path' (.dir size' root)) ∧
    ((printSizes path (.dir size listing)).getLast? =
        some (dirName path, findSizeOfDirectory (.dir size listing)) ↔
      (listing.linkedDirs.map Node.stSize).sum = (listing.linkedDirs.map Node.fileSizes).sum) := by
  refine ⟨fun path' size' root name h => ?_, ?_⟩
  · exact List.mem_append_left _ (mem_printSizesLoop root h rfl)
  · have htotal := printSizesLoop_total listing 0
    rw [printSizes, findSizeOfDirectory_dir, List.getLast?_concat, Option.some.injEq, Prod.mk.injEq]
    rw [zero_add] at htotal
    constructor
    · rintro ⟨-, heq⟩
      rw [heq] at htotal
      exact (add_left_cancel htotal).symm
    · intro heq
      rw [heq] at htotal
      exact ⟨rfl, add_right_cancel htotal⟩

/-- A directory with one byte in one file. -/
def oneByte : Listing := .dot (.dotdot (.entry nameF (.file [97]) .nil))

theorem printSizes_total_of_oneByte : ([100], findSizeOfDirectory (.dir 4096 oneByte)) ∈
      printSizes [82] (.dir 4096 (.entry ⟨[100], by decide⟩ (.dir 4096 oneByte) .nil)) ∧
    (printSizes [100] (.dir 4096 oneByte)).getLast? =
      some ([100], findSizeOfDirectory (.dir 4096 oneByte)) :=
  ⟨(printSizes_total_iff []).1 [82] 4096 _ ⟨[100], by decide⟩ List.mem_cons_self,
    (printSizes_total_iff [100]).2.2 rfl⟩

/-- A link to an empty directory: as the root it has the size of that directory itself, as a
sub-directory the size of what lies below, which is nothing. -/
theorem not_printSizes_total : ¬∀ (path : List UInt8) (size : BitVec 64) (listing : Listing),
    (printSizes path (.dir size listing)).getLast? =
      some (dirName path, findSizeOfDirectory (.dir size listing)) := by
  intro hclaim
  have h := hclaim [82] 4096 (.entry ⟨[108], by decide⟩ (.link (.dir 4096 .nil)) .nil)
  revert h
  decide

end CS330
