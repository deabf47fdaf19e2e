import CS330.FileTree.GrepBuffer
import Mathlib.Data.List.TakeWhile

/-! # What recursive grep prints

The buffer holds what has been read of the line so far. A line is printed when the byte that ends
it is read, so the lines printed are those that contain the key among the lines that end with a
newline. A file whose lines overrun the buffer leaves the run without a result. -/

namespace CS330

variable {key cur rest path content : List UInt8} {s : GrepState} {t : UInt8} {junk : Junk}

theorem cString_of_storedAt {rb : Nat → UInt8} {line : List UInt8} (h : StoredAt rb 0 line)
    (h0 : 0 ∉ line) : cString rb line.length = line := by
  rw [cString, h, List.takeWhile_eq_self_iff]
  intro b hb
  exact decide_eq_true fun heq => h0 (heq ▸ hb)

/-- `cur` has been read of the line, and the byte read last ended the line if it was a newline. -/
structure GrepState.Inv (s : GrepState) (cur : List UInt8) : Prop where
  k : s.k = cur.length
  rb : StoredAt s.rb 0 cur
  no_newline : newline ∉ cur
  no_zero : 0 ∉ cur
  t : s.t = newline → cur = []

namespace GrepState.Inv

theorem body_of_ne (key : List UInt8) (I : s.Inv cur) (ht : t ≠ newline) (h0 : t ≠ 0) :
    (s.body key t).Inv (cur ++ [t]) ∧ (s.body key t).printed = s.printed := by
  rw [GrepState.body]
  dsimp only
  rw [if_neg ht]
  refine ⟨⟨by simp [I.k], ?_, ?_, ?_, fun h => (ht h).elim⟩, rfl⟩
  · have := I.rb.snoc (b := t)
    rwa [Nat.zero_add, ← I.k] at this
  · simp [I.no_newline, Ne.symm ht]
  · simp [I.no_zero, Ne.symm h0]

/-- At the end of a line it is printed if it contains the key. -/
theorem body_newline (I : s.Inv cur) (hkey : newline ∉ key) :
    (s.body key newline).Inv [] ∧ (s.body key newline).printed =
      s.printed ++ ([cur].filter (key <:+: ·)).map (· ++ [newline]) := by
  have hline : StoredAt (Function.update (Function.update s.rb s.k newline) (s.k + 1) 0) 0
      (cur ++ [newline]) := by
    have := I.rb.snoc (b := newline)
    rw [Nat.zero_add, ← I.k] at this
    exact this.update (by simp [I.k])
  have hstring := cString_of_storedAt hline (by simp [I.no_zero, newline])
  rw [List.length_append, ← I.k] at hstring
  rw [GrepState.body]
  dsimp only
  rw [if_pos rfl]
  refine ⟨⟨rfl, rfl, List.not_mem_nil, List.not_mem_nil, fun _ => rfl⟩, ?_⟩
  change (if key <:+: cString _ (s.k + 1) then _ else _) = _
  rw [show cString _ (s.k + 1) = cur ++ [newline] from hstring]
  by_cases hin : key <:+: cur
  · simp [(infix_append_sep hkey).2 hin, hin]
  · rw [if_neg (mt (infix_append_sep hkey).1 hin)]
    simp [hin]

theorem loop (I : s.Inv cur) (hkey : key ≠ []) (hnewline : newline ∉ key) (h0 : 0 ∉ rest) :
    (grepLoopFree key rest s).printed = s.printed ++
      ((closedLines newline (cur ++ rest)).filter (key <:+: ·)).map (· ++ [newline]) := by
  induction rest generalizing s cur with
  | nil =>
    rw [grepLoopFree, List.append_nil, closedLines_of_not_mem I.no_newline]
    by_cases ht : s.t = newline
    · rw [ht, (I.body_newline hnewline).2, I.t ht]
      simp [hkey]
    · rw [GrepState.body]
      dsimp only
      rw [if_neg ht]
      simp
  | cons t rest ih =>
    obtain ⟨ht0, hrest⟩ := not_or.1 (mt List.mem_cons.2 h0)
    rw [grepLoopFree]
    by_cases ht : t = newline
    · subst ht
      obtain ⟨I', hprinted⟩ := I.body_newline hnewline
      rw [ih I' hrest, hprinted, closedLines_append_cons I.no_newline, List.nil_append,
        List.append_assoc, ← List.map_append, ← List.filter_append]
      rfl
    · obtain ⟨I', hprinted⟩ := I.body_of_ne key ht (Ne.symm ht0)
      rw [ih I' hrest, hprinted, List.append_assoc, List.singleton_append]

end GrepState.Inv

/-- The lines of a text that contain a key, as they are printed. -/
def matching (key : List UInt8) (texts : List (List UInt8)) : List (List UInt8) :=
  (texts.filter (key <:+: ·)).map (· ++ [newline])

theorem myGrep_eq_some (junk : Junk) (path : List UInt8) {out : List (List UInt8 × List UInt8)}
    (hkey : key ≠ []) (hnewline : newline ∉ key) (h0 : 0 ∉ content) :
    myGrep junk key path content = some out ↔
      RbFits content ∧ out = (matching key (closedLines newline content)).map (path, ·) := by
  have I : (⟨(junk path).2, 0, (junk path).1, []⟩ : GrepState).Inv [] :=
    ⟨rfl, rfl, List.not_mem_nil, List.not_mem_nil, fun _ => rfl⟩
  have hprinted := I.loop hkey hnewline h0
  rw [List.nil_append, List.nil_append] at hprinted
  rw [myGrep, Option.map_eq_some_iff, ← rbHolds_iff_rbFits junk key path]
  simp only [grepLoop_eq_some]
  constructor
  · rintro ⟨_, ⟨hholds, rfl⟩, rfl⟩
    rw [hprinted]
    exact ⟨hholds, rfl⟩
  · rintro ⟨hholds, rfl⟩
    exact ⟨_, ⟨hholds, rfl⟩, by rw [hprinted]; rfl⟩

/-! ## The tree -/

/-- What is printed for the files of a tree. -/
def reports (key : List UInt8) (files : List (List UInt8 × List UInt8)) :
    List (List UInt8 × List UInt8) :=
  files.flatMap fun file => (matching key (closedLines newline file.2)).map (file.1, ·)

theorem reports_append {files files' : List (List UInt8 × List UInt8)} :
    reports key (files ++ files') = reports key files ++ reports key files' := List.flatMap_append

mutual
/-- What the loop over a directory prints for an entry. -/
theorem recMyGrep_eq_some (hkey : key ≠ []) (hnewline : newline ∉ key) (path : List UInt8) :
    ∀ (node : Node) (out : List (List UInt8 × List UInt8)), node.NoLinks →
      (∀ file ∈ node.files path, 0 ∉ file.2) →
      ((∃ own below, grepRegular junk key path node = some own ∧
        recMyGrep junk key path node = some below ∧ out = own ++ below) ↔
      (∀ file ∈ node.files path, RbFits file.2) ∧ out = reports key (node.files path))
  | .file content, out, _, h0 => by
    have hfile := @myGrep_eq_some key content junk path out hkey hnewline
      (h0 (path, content) (List.mem_singleton_self _))
    simp [grepRegular, recMyGrep, Node.files, reports, hfile]
  | .dir _ listing, out, hlinks, h0 => by
    have hloop := recMyGrepLoop_eq_some hkey hnewline path listing out hlinks h0
    simp [grepRegular, recMyGrep, Node.files, hloop]

theorem recMyGrepLoop_eq_some (hkey : key ≠ []) (hnewline : newline ∉ key) (path : List UInt8) :
    ∀ (listing : Listing) (out : List (List UInt8 × List UInt8)), listing.NoLinks →
      (∀ file ∈ listing.files path, 0 ∉ file.2) →
      (recMyGrepLoop junk key path listing = some out ↔
        (∀ file ∈ listing.files path, RbFits file.2) ∧ out = reports key (listing.files path))
  | .nil, out, _, _ => by simp [recMyGrepLoop, Listing.files, reports, eq_comm]
  | .dot rest, out, hlinks, h0 => recMyGrepLoop_eq_some hkey hnewline path rest out hlinks h0
  | .dotdot rest, out, hlinks, h0 => recMyGrepLoop_eq_some hkey hnewline path rest out hlinks h0
  | .entry name node rest, out, hlinks, h0 => by
    have hnode (out) := recMyGrep_eq_some hkey hnewline (joinPath path name) node out hlinks.1
      fun file hfile => h0 file (List.mem_append_left _ hfile)
    have hrest (out) := recMyGrepLoop_eq_some hkey hnewline path rest out hlinks.2
      fun file hfile => h0 file (List.mem_append_right _ hfile)
    constructor
    · intro h
      obtain ⟨own, hown, h⟩ := Option.bind_eq_some_iff.1 h
      obtain ⟨below, hbelow, h⟩ := Option.bind_eq_some_iff.1 h
      obtain ⟨more, hmore, h⟩ := Option.bind_eq_some_iff.1 h
      cases h
      obtain ⟨hfits, heq⟩ := (hnode (own ++ below)).1 ⟨own, below, hown, hbelow, rfl⟩
      obtain ⟨hfits', rfl⟩ := (hrest more).1 hmore
      rw [heq, Listing.files, reports_append]
      exact ⟨List.forall_mem_append.2 ⟨hfits, hfits'⟩, rfl⟩
    · rintro ⟨hfits, rfl⟩
      rw [Listing.files, List.forall_mem_append] at hfits
      obtain ⟨own, below, hown, hbelow, heq⟩ := (hnode _).2 ⟨hfits.1, rfl⟩
      have hmore := (hrest _).2 ⟨hfits.2, rfl⟩
      rw [recMyGrepLoop, hown, hbelow, hmore, Listing.files, reports_append, heq]
      rfl
end

/-- The run has a result, and for every path this has the lines that contain the key among all lines
of the regular file with this path, in order, and nothing else. -/
def PrintsMatching (key path : List UInt8) (node : Node)
    (out : Option (List (List UInt8 × List UInt8))) : Prop :=
  ∃ printed, out = some printed ∧ ∀ p, (printed.filter (·.1 = p)).map Prod.snd =
    ((node.files path).filter (·.1 = p)).flatMap fun file => matching key (lines newline file.2)

theorem reports_filter (p : List UInt8) (files : List (List UInt8 × List UInt8)) :
    ((reports key files).filter (·.1 = p)).map Prod.snd =
      (files.filter (·.1 = p)).flatMap fun file => matching key (closedLines newline file.2) := by
  induction files with
  | nil => rfl
  | cons file files ih =>
    rw [reports, List.flatMap_cons, List.filter_append, List.map_append, List.filter_map,
      List.map_map]
    change _ ++ ((reports key files).filter (·.1 = p)).map Prod.snd = _
    rw [ih]
    by_cases hp : file.1 = p <;> simp [hp, Function.comp_def]

theorem matching_lines (hkey : key ≠ []) (text : List UInt8) :
    matching key (lines newline text) =
      matching key (closedLines newline text) ++ matching key [openLine newline text] := by
  rw [matching, filter_lines hkey, List.map_append]
  rfl

theorem matching_singleton {line : List UInt8} : matching key [line] = [] ↔ ¬key <:+: line := by
  simp [matching]

/-- Recursive grep prints the matching lines of all files just when the buffer holds the lines of each
and no file ends with a line without newline that contains the key. -/
theorem recMyGrep_printsMatching_iff {size : BitVec 64} {listing : Listing} (hkey : key ≠ [])
    (hnewline : newline ∉ key) (hlinks : listing.NoLinks)
    (h0 : ∀ file ∈ listing.files path, 0 ∉ file.2) :
    PrintsMatching key path (.dir size listing) (recMyGrep junk key path (.dir size listing)) ↔
      ∀ file ∈ listing.files path, RbFits file.2 ∧ ¬key <:+: openLine newline file.2 := by
  have hout (out) : recMyGrep junk key path (.dir size listing) = some out ↔ _ :=
    recMyGrepLoop_eq_some hkey hnewline path listing out hlinks h0
  have hlines : (∀ p, ((reports key (listing.files path)).filter (·.1 = p)).map Prod.snd =
      ((listing.files path).filter (·.1 = p)).flatMap fun file =>
        matching key (lines newline file.2)) ↔
      ∀ file ∈ listing.files path, ¬key <:+: openLine newline file.2 := by
    simp only [reports_filter, matching_lines hkey, flatMap_eq_append_iff, matching_singleton]
    exact ⟨fun h file hfile => h file.1 file (by simpa using hfile),
      fun h p file hfile => h file (List.mem_of_mem_filter hfile)⟩
  rw [PrintsMatching, forall₂_and, ← hlines]
  constructor
  · rintro ⟨printed, hprinted, hall⟩
    obtain ⟨hfits, rfl⟩ := (hout printed).1 hprinted
    exact ⟨hfits, hall⟩
  · rintro ⟨hfits, hall⟩
    exact ⟨_, (hout _).2 ⟨hfits, rfl⟩, hall⟩

/-- A directory with one file. -/
def oneFile (content : List UInt8) : Listing :=
  .dot (.dotdot (.entry nameF (.file content) .nil))

theorem oneFile_noLinks (content : List UInt8) : (oneFile content).NoLinks := ⟨trivial, trivial⟩

theorem recMyGrep_printsMatching_of_oneFile :
    PrintsMatching [97] [100] (.dir 0 (oneFile [97, newline, 98, newline]))
      (recMyGrep (fun _ => (0, fun _ => 0)) [97] [100]
        (.dir 0 (oneFile [97, newline, 98, newline]))) :=
  (recMyGrep_printsMatching_iff (by decide) (by decide) (oneFile_noLinks _) (by decide)).2
    fun file hfile => by
      obtain rfl : file = ([100, 47, 102], [97, newline, 98, newline]) := List.mem_singleton.1 hfile
      exact ⟨(if_pos (by decide)).mpr (by decide), by decide⟩

/-- The file does not end with a newline, and its last line is not printed. -/
theorem not_recMyGrep_printsMatching : ¬∀ (junk : Junk) (key path : List UInt8) (size : BitVec 64)
    (listing : Listing), key ≠ [] → newline ∉ key → listing.NoLinks →
      (∀ file ∈ listing.files path, 0 ∉ file.2) →
      PrintsMatching key path (.dir size listing) (recMyGrep junk key path (.dir size listing)) := by
  intro hclaim
  obtain ⟨printed, hprinted, h⟩ := hclaim (fun _ => (0, fun _ => 0)) [97] [100] 0
    (oneFile [newline, 97]) (by decide) (by decide) (oneFile_noLinks _) (by decide)
  -- nothing is stored behind the buffer, and nothing is printed
  have hnothing : recMyGrep (fun _ => (0, fun _ => 0)) [97] [100]
      (.dir 0 (oneFile [newline, 97])) = some [] := by decide
  obtain rfl := Option.some.inj (hnothing.symm.trans hprinted)
  have hfile := h [100, 47, 102]
  revert hfile
  decide

end CS330
