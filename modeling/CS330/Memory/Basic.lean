import CS330.Lib.Word

/-! # Address spaces of gemOS

The data `mmap.c` works on: the `vm_area` list of a process and its page table. The headers and
the page-table code of gemOS are not in the repository; `Header` and `Paging` collect what the
code relies on. -/

namespace CS330

/-- `struct vm_area`, without its `vm_next` link: a list of areas is the chain of links. -/
@[ext] structure VmArea where
  vmStart : Nat
  vmEnd : Nat
  accessFlags : BitVec 32
deriving DecidableEq, Repr

/-- The constants of the gemOS headers. -/
structure Header where
  mmapAreaStart : Nat
  mmapAreaEnd : Nat
  protRead : BitVec 32
  protWrite : BitVec 32
  mapFixed : BitVec 32
  mapPopulate : BitVec 32
  start_lt_end : mmapAreaStart < mmapAreaEnd
  end_lt : mmapAreaEnd < 2 ^ 63
  start_aligned : 4096 ∣ mmapAreaStart
  end_aligned : 4096 ∣ mmapAreaEnd
  /-- The two permissions are different bits. -/
  read_and_write : protRead &&& protWrite = 0

/-- A region of one megabyte. -/
def Header.megabyte : Header where
  mmapAreaStart := 2 ^ 20
  mmapAreaEnd := 2 ^ 21
  protRead := 1
  protWrite := 2
  mapFixed := 1
  mapPopulate := 2
  start_lt_end := by decide
  end_lt := by decide
  start_aligned := by decide
  end_aligned := by decide
  read_and_write := by decide

/-- A present page-table entry: the frame it maps, and whether it may be written. -/
structure Pte where
  pfn : Nat
  writable : Bool
deriving DecidableEq, Repr

/-- What `mmap.c` uses of the page-table code of gemOS: `entry` is the present entry of a page
number. `map_physical_page` with frame 0 installs a frame that the table did not map. -/
structure Paging (H : Header) where
  Table : Type
  entry : Table → Nat → Option Pte
  freshFrame : Table → Nat
  mapPhysicalPage : Table → (addr : Nat) → (prot : BitVec 32) → (upfn : Nat) → Table
  doUnmapUser : Table → (addr : Nat) → Table
  freshFrame_ne : ∀ {t page pte}, entry t page = some pte → pte.pfn ≠ freshFrame t
  entry_mapPhysicalPage : ∀ t addr prot upfn page,
    entry (mapPhysicalPage t addr prot upfn) page =
      if page = addr / 4096 then
        some ⟨if upfn = 0 then freshFrame t else upfn, prot &&& H.protWrite ≠ 0⟩
      else entry t page
  entry_doUnmapUser : ∀ t addr page,
    entry (doUnmapUser t addr) page = if page = addr / 4096 then none else entry t page

/-- A page table that numbers its frames in the order of their allocation. -/
structure CountingTable where
  entry : Nat → Option Pte
  next : Nat
  entry_lt : ∀ {page pte}, entry page = some pte → pte.pfn < next

def CountingTable.empty : CountingTable := ⟨fun _ => none, 0, nofun⟩

/-- The page-table code over `CountingTable`. -/
def Paging.counting (H : Header) : Paging H where
  Table := CountingTable
  entry := CountingTable.entry
  freshFrame := CountingTable.next
  mapPhysicalPage t addr prot upfn :=
    let pfn := if upfn = 0 then t.next else upfn
    { entry := fun page =>
        if page = addr / 4096 then some ⟨pfn, prot &&& H.protWrite ≠ 0⟩ else t.entry page
      next := max t.next pfn + 1
      entry_lt := by
        intro page pte h
        split at h
        · cases h
          dsimp only
          omega
        · have := t.entry_lt h
          omega }
  doUnmapUser t addr :=
    { entry := fun page => if page = addr / 4096 then none else t.entry page
      next := t.next
      entry_lt := by
        intro page pte h
        split at h
        · cases h
        · exact t.entry_lt h }
  freshFrame_ne {t} _ _ h := Nat.ne_of_lt (t.entry_lt h)
  entry_mapPhysicalPage _ _ _ _ _ := rfl
  entry_doUnmapUser _ _ _ := rfl

/-- The fields of `struct exec_context` that `mmap.c` uses. -/
structure ExecContext {H : Header} (P : Paging H) where
  vmArea : List VmArea
  pgd : P.Table

/-- A process that has mapped nothing. -/
def ExecContext.fresh : ExecContext (Paging.counting .megabyte) := ⟨[], CountingTable.empty⟩

/-- The rounding step at the head of each call: up to a multiple of the page size. -/
def roundUp (length : Int) : Int :=
  if length.tmod 4096 ≠ 0 then int32 (length + (4096 - length.tmod 4096)) else length

/-- The lengths the memory calls are specified for: rounding them up stays in `int`. -/
def ValidLength (length : Int) : Prop := 1 ≤ length ∧ length ≤ 2 ^ 31 - 4096

instance : Decidable (ValidLength length) := inferInstanceAs (Decidable (_ ∧ _))

theorem ValidLength.roundUp_eq (h : ValidLength length) :
    roundUp length = (length + 4095) / 4096 * 4096 := by
  obtain ⟨h₁, h₂⟩ := h
  unfold roundUp int32
  rw [Int.tmod_eq_emod_of_nonneg (by omega)]
  split <;> omega

theorem ValidLength.roundUp (h : ValidLength length) : ValidLength (roundUp length) := by
  have := h.roundUp_eq
  unfold ValidLength at *
  omega

/-- The end of the range, rounded up, fits in a word. -/
theorem ValidLength.end_eq (h : ValidLength length) {addr : Nat} (haddr : addr < 2 ^ 63) :
    u64 (addr + CS330.roundUp length) = addr + (CS330.roundUp length).toNat := by
  obtain ⟨hpos, hle⟩ := h.roundUp
  exact u64_add (by omega) (by omega)

theorem ValidLength.dvd_roundUp (h : ValidLength length) : 4096 ∣ CS330.roundUp length := by
  have := h.roundUp_eq
  omega

theorem ValidLength.le_roundUp (h : ValidLength length) :
    length ≤ CS330.roundUp length ∧ CS330.roundUp length < length + 4096 := by
  have := h.roundUp_eq
  omega

/-- The length in bytes of the range of a call. -/
def byteLength (length : Int) : Nat := (roundUp length).toNat

theorem ValidLength.bytes (h : ValidLength length) :
    CS330.roundUp length = byteLength length ∧ 0 < byteLength length ∧ byteLength length < 2 ^ 31 ∧
      4096 ∣ byteLength length := by
  obtain ⟨h₁, h₂⟩ := h.roundUp
  have := h.dvd_roundUp
  unfold byteLength
  omega

theorem roundUp_of_dvd (h : 4096 ∣ length) : roundUp length = length := by
  rw [roundUp, if_neg]
  simpa using Int.tmod_eq_zero_of_dvd h

end CS330
