import CS330.FileTree.Sizes

/-! # Descriptors of `printSizes`

A process has only so many descriptors. An open directory takes one. For every sub-directory
`printSizes` makes a pipe, of which it closes the end for writing alone, so that the next child has
one descriptor less. A `pipe` without two free descriptors ends the program; an `opendir` without one
makes a directory look empty. -/

namespace CS330

mutual
/-- `findSizeOfDirectory` with `free` free descriptors. `closedir` gives back what `opendir` took. -/
def findSizeOfDirectoryWith : Nat → Node → BitVec 64
  | _, .file _ => 0
  | 0, .dir _ _ => 0
  | free + 1, .dir _ listing => findSizeLoopWith free listing 0
  | free, .link target => findSizeOfDirectoryWith free target

/-- The loop over the entries of the directory. -/
def findSizeLoopWith : Nat → Listing → BitVec 64 → BitVec 64
  | _, .nil, siz => siz
  | free, .dot rest, siz => findSizeLoopWith free rest siz
  | free, .dotdot rest, siz => findSizeLoopWith free rest siz
  | free, .entry _ node rest, siz =>
    findSizeLoopWith free rest
      (siz + if node.isDir then findSizeOfDirectoryWith free node else node.stSize)
end

/-- The child process: the line it prints, and what it writes into the pipe. -/
def sizeChildWith (free : Nat) (name : FileName) (node : Node) :
    (List UInt8 × BitVec 64) × BitVec 64 :=
  let s := findSizeOfDirectoryWith free node
  ((name.1, s), s)

/-- The loop of `printSizes`: the lines printed by the children, and `root_size` unless the program
ends because there is no pipe. The child has both ends of the pipe, and the parent keeps one. -/
def printSizesLoopWith :
    Nat → Listing → BitVec 64 → List (List UInt8 × BitVec 64) × Option (BitVec 64)
  | _, .nil, rootSize => ([], some rootSize)
  | free, .dot rest, rootSize => printSizesLoopWith free rest rootSize
  | free, .dotdot rest, rootSize => printSizesLoopWith free rest rootSize
  | free, .entry name node rest, rootSize =>
    if node.dType = .dir then
      if free < 2 then ([], none)
      else
        let (line, t) := sizeChildWith (free - 2) name node
        let (lines, rootSize) := printSizesLoopWith (free - 1) rest (rootSize + t)
        (line :: lines, rootSize)
    else printSizesLoopWith free rest (rootSize + findSizeOfFile node)

/-- The lines printed, and whether the program ends by `exit(-1)`. -/
def printSizesWith (path : List UInt8) : Nat → Node → List (List UInt8 × BitVec 64) × Bool
  | _, .file _ => ([], false)
  | 0, .dir _ _ => ([], false)
  | free + 1, .dir _ listing =>
    match printSizesLoopWith free listing 0 with
    | (lines, some rootSize) => (lines ++ [(dirName path, rootSize)], false)
    | (lines, none) => (lines, true)
  | free, .link target => printSizesWith path free target

/-! ## The tree that is seen -/

mutual
/-- The directories below `k` others are empty. -/
def Node.cut : Nat → Node → Node
  | _, .file content => .file content
  | 0, .dir size _ => .dir size .nil
  | k + 1, .dir size listing => .dir size (listing.cut k)
  | k, .link target => .link (target.cut k)

def Listing.cut : Nat → Listing → Listing
  | _, .nil => .nil
  | k, .dot rest => .dot (rest.cut k)
  | k, .dotdot rest => .dotdot (rest.cut k)
  | k, .entry name node rest => .entry name (node.cut k) (rest.cut k)
end

mutual
/-- How many directories lie in each other. -/
def Node.depth : Node → Nat
  | .file _ => 0
  | .dir _ listing => listing.depth + 1
  | .link target => target.depth

def Listing.depth : Listing → Nat
  | .nil => 0
  | .dot rest => rest.depth
  | .dotdot rest => rest.depth
  | .entry _ node rest => max node.depth rest.depth
end

/-- Each sub-directory as the child for it sees it, when the loop starts with `free` descriptors. -/
def Listing.cutSubdirs : Nat → Listing → Listing
  | _, .nil => .nil
  | free, .dot rest => .dot (rest.cutSubdirs free)
  | free, .dotdot rest => .dotdot (rest.cutSubdirs free)
  | free, .entry name node rest =>
    if node.dType = .dir then .entry name (node.cut (free - 2)) (rest.cutSubdirs (free - 1))
    else .entry name node (rest.cutSubdirs free)

/-- The number of sub-directories. -/
def Listing.subdirs : Listing → Nat
  | .nil => 0
  | .dot rest => rest.subdirs
  | .dotdot rest => rest.subdirs
  | .entry _ node rest => rest.subdirs + if node.dType = .dir then 1 else 0

theorem isDir_cut : ∀ (k : Nat) (node : Node), (node.cut k).isDir = node.isDir
  | _, .file _ => rfl
  | 0, .dir _ _ => rfl
  | _ + 1, .dir _ _ => rfl
  | k, .link target => by
    rw [Node.cut]
    exact isDir_cut k target

theorem stSize_cut : ∀ (k : Nat) (node : Node), (node.cut k).stSize = node.stSize
  | _, .file _ => rfl
  | 0, .dir _ _ => rfl
  | _ + 1, .dir _ _ => rfl
  | k, .link target => by
    rw [Node.cut]
    exact stSize_cut k target

theorem dType_cut : ∀ (k : Nat) (node : Node), (node.cut k).dType = node.dType
  | _, .file _ => rfl
  | 0, .dir _ _ => rfl
  | _ + 1, .dir _ _ => rfl
  | _, .link _ => rfl

mutual
/-- With few descriptors the size is that of the tree that is seen. -/
theorem findSizeOfDirectoryWith_eq : ∀ (free : Nat) (node : Node),
    findSizeOfDirectoryWith free node = findSizeOfDirectory (node.cut free)
  | _, .file _ => by rw [findSizeOfDirectoryWith, Node.cut, findSizeOfDirectory]
  | 0, .dir _ _ => by rw [findSizeOfDirectoryWith, Node.cut, findSizeOfDirectory, findSizeLoop]
  | free + 1, .dir _ listing => by
    rw [findSizeOfDirectoryWith, Node.cut, findSizeOfDirectory]
    exact findSizeLoopWith_eq free listing 0
  | free, .link target => by
    rw [findSizeOfDirectoryWith, Node.cut, findSizeOfDirectory]
    exact findSizeOfDirectoryWith_eq free target

theorem findSizeLoopWith_eq : ∀ (free : Nat) (listing : Listing) (siz : BitVec 64),
    findSizeLoopWith free listing siz = findSizeLoop (listing.cut free) siz
  | _, .nil, _ => by rw [findSizeLoopWith, Listing.cut, findSizeLoop]
  | free, .dot rest, siz => by
    rw [findSizeLoopWith, Listing.cut, findSizeLoop]
    exact findSizeLoopWith_eq free rest siz
  | free, .dotdot rest, siz => by
    rw [findSizeLoopWith, Listing.cut, findSizeLoop]
    exact findSizeLoopWith_eq free rest siz
  | free, .entry _ node rest, siz => by
    rw [findSizeLoopWith, Listing.cut, findSizeLoop, isDir_cut, stSize_cut,
      findSizeOfDirectoryWith_eq free node]
    exact findSizeLoopWith_eq free rest _
end

mutual
/-- With a descriptor for each level everything is seen. -/
theorem Node.cut_eq : ∀ {k : Nat} (node : Node), node.depth ≤ k → node.cut k = node
  | _, .file _, _ => by rw [Node.cut]
  | 0, .dir _ listing, h => absurd h (Nat.not_succ_le_zero _)
  | k + 1, .dir size listing, h => by
    rw [Node.cut, Listing.cut_eq listing (Nat.le_of_succ_le_succ h)]
  | _, .link target, h => by rw [Node.cut, Node.cut_eq target h]

theorem Listing.cut_eq : ∀ {k : Nat} (listing : Listing), listing.depth ≤ k →
    listing.cut k = listing
  | _, .nil, _ => by rw [Listing.cut]
  | _, .dot rest, h => by rw [Listing.cut, Listing.cut_eq rest h]
  | _, .dotdot rest, h => by rw [Listing.cut, Listing.cut_eq rest h]
  | _, .entry _ node rest, h => by
    rw [Listing.cut, Node.cut_eq node (le_of_max_le_left h),
      Listing.cut_eq rest (le_of_max_le_right h)]
end

/-! ## The loop -/

theorem subdirs_entry {name : FileName} {node : Node} {rest : Listing} :
    (Listing.entry name node rest).subdirs =
      rest.subdirs + if node.dType = .dir then 1 else 0 := rfl

/-- The loop gets to its end when each sub-directory finds two free descriptors. Then it does what
it does without a limit on the tree that is seen. -/
theorem printSizesLoopWith_eq : ∀ (free : Nat) (listing : Listing) (rootSize : BitVec 64),
    listing.subdirs = 0 ∨ listing.subdirs < free →
    printSizesLoopWith free listing rootSize =
      ((printSizesLoop (listing.cutSubdirs free) rootSize).1,
        some (printSizesLoop (listing.cutSubdirs free) rootSize).2)
  | _, .nil, _, _ => rfl
  | free, .dot rest, rootSize, h => printSizesLoopWith_eq free rest rootSize h
  | free, .dotdot rest, rootSize, h => printSizesLoopWith_eq free rest rootSize h
  | free, .entry name node rest, rootSize, h => by
    rw [subdirs_entry] at h
    rw [printSizesLoopWith, Listing.cutSubdirs]
    by_cases hdir : node.dType = .dir
    · rw [if_pos hdir] at h
      have hfree : ¬free < 2 := by omega
      rw [if_pos hdir, if_neg hfree, if_pos hdir, printSizesLoop, if_pos ((dType_cut _ _).trans hdir)]
      have ih := printSizesLoopWith_eq (free - 1) rest
        (rootSize + findSizeOfDirectoryWith (free - 2) node) (by omega)
      dsimp only [sizeChildWith, sizeChild]
      rw [ih, findSizeOfDirectoryWith_eq]
    · rw [if_neg hdir] at h
      rw [if_neg hdir, if_neg hdir, printSizesLoop, if_neg hdir]
      exact printSizesLoopWith_eq free rest _ h

/-- Otherwise it ends at the first sub-directory that does not find them. -/
theorem printSizesLoopWith_fails : ∀ (free : Nat) (listing : Listing) (rootSize : BitVec 64),
    0 < listing.subdirs → free ≤ listing.subdirs →
    (printSizesLoopWith free listing rootSize).1.length = free - 1 ∧
      (printSizesLoopWith free listing rootSize).2 = none
  | free, .dot rest, rootSize, hpos, h => printSizesLoopWith_fails free rest rootSize hpos h
  | free, .dotdot rest, rootSize, hpos, h => printSizesLoopWith_fails free rest rootSize hpos h
  | free, .entry name node rest, rootSize, hpos, h => by
    rw [subdirs_entry] at h hpos
    rw [printSizesLoopWith]
    by_cases hdir : node.dType = .dir
    · rw [if_pos hdir] at h
      rw [if_pos hdir]
      by_cases hfree : free < 2
      · rw [if_pos hfree]
        exact ⟨(Nat.sub_eq_zero_of_le (Nat.le_of_lt_succ hfree)).symm, rfl⟩
      · rw [if_neg hfree]
        obtain ⟨hlen, hnone⟩ := printSizesLoopWith_fails (free - 1) rest
          (rootSize + findSizeOfDirectoryWith (free - 2) node) (by omega) (by omega)
        refine ⟨?_, hnone⟩
        change List.length (printSizesLoopWith (free - 1) rest _).1 + 1 = free - 1
        omega
    · rw [if_neg hdir] at h hpos
      rw [if_neg hdir]
      exact printSizesLoopWith_fails free rest _ hpos h

theorem Listing.cutSubdirs_eq : ∀ {free : Nat} (listing : Listing),
    listing.subdirs + listing.depth < free → listing.cutSubdirs free = listing
  | _, .nil, _ => rfl
  | _, .dot rest, h => congrArg Listing.dot (Listing.cutSubdirs_eq rest h)
  | _, .dotdot rest, h => congrArg Listing.dotdot (Listing.cutSubdirs_eq rest h)
  | free, .entry name node rest, h => by
    rw [subdirs_entry, Listing.depth] at h
    rw [Listing.cutSubdirs]
    by_cases hdir : node.dType = .dir
    · rw [if_pos hdir] at h ⊢
      rw [Node.cut_eq node (by omega), Listing.cutSubdirs_eq rest (by omega)]
    · rw [if_neg hdir] at h ⊢
      rw [Listing.cutSubdirs_eq rest (by omega)]

/-- What becomes of `printSizes` when it has `free` free descriptors besides the one that the open
directory takes. It ends by `exit(-1)`, after `free - 1` lines, exactly when there are sub-directories
and not more free descriptors than sub-directories. Otherwise it prints what it prints without a
limit when each sub-directory is cut off where the descriptors of the child for it end; and this is
nowhere when there are descriptors for all sub-directories and for all levels. -/
theorem printSizesWith_limits (path : List UInt8) (free : Nat) (size : BitVec 64)
    (listing : Listing) :
    ((printSizesWith path (free + 1) (.dir size listing)).2 = true ↔
      0 < listing.subdirs ∧ free ≤ listing.subdirs) ∧
    ((printSizesWith path (free + 1) (.dir size listing)).2 = true →
      (printSizesWith path (free + 1) (.dir size listing)).1.length = free - 1) ∧
    ((printSizesWith path (free + 1) (.dir size listing)).2 = false →
      (printSizesWith path (free + 1) (.dir size listing)).1 =
        printSizes path (.dir size (listing.cutSubdirs free))) ∧
    (listing.subdirs + listing.depth < free → listing.cutSubdirs free = listing) := by
  rw [printSizesWith, printSizes]
  by_cases h : listing.subdirs = 0 ∨ listing.subdirs < free
  · rw [printSizesLoopWith_eq free listing 0 h]
    refine ⟨⟨fun hend => absurd hend Bool.false_ne_true, fun hno => ?_⟩,
      fun hend => absurd hend Bool.false_ne_true, fun _ => rfl, listing.cutSubdirs_eq⟩
    omega
  · obtain ⟨hlen, hnone⟩ := printSizesLoopWith_fails free listing 0 (by omega) (by omega)
    generalize printSizesLoopWith free listing 0 = r at hlen hnone
    obtain ⟨lines, rootSize⟩ := r
    subst hnone
    refine ⟨⟨fun _ => ?_, fun _ => rfl⟩, fun _ => hlen,
      fun hend => absurd hend.symm Bool.false_ne_true, listing.cutSubdirs_eq⟩
    omega

end CS330
