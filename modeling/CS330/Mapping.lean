import CS330.Lib.Bytes

/-! # Files in memory

What `mmap` makes of a file. The programs that map one only read it. -/

namespace CS330

/-- `size` bytes from `buff` on hold the file, in the half of the address space that is the user's.
What lies behind them is whatever the memory happens to hold. -/
structure Mapping where
  mem : Nat → UInt8
  buff : Nat
  size : Nat
  end_lt : buff + size < 2 ^ 63

namespace Mapping

/-- The first address behind the file. -/
def endptr (file : Mapping) : Nat := file.buff + file.size

/-- The file consists of these bytes. -/
def Holds (file : Mapping) (bytes : List UInt8) : Prop :=
  file.size = bytes.length ∧ StoredAt file.mem file.buff bytes

/-- The bytes behind the file are zero. -/
def ZeroPast (file : Mapping) : Prop := ∀ a, file.endptr ≤ a → file.mem a = 0

/-- Given bytes as a file in a memory that is zero behind them. -/
def ofBytes (buff : Nat) (bytes : List UInt8) (h : buff + bytes.length < 2 ^ 63) : Mapping where
  mem a := bytes.getD (a - buff) 0
  buff
  size := bytes.length
  end_lt := h

variable {buff : Nat} {bytes : List UInt8} {h : buff + bytes.length < 2 ^ 63}

theorem ofBytes_holds : (ofBytes buff bytes h).Holds bytes := ⟨rfl, storedAt_getD⟩

theorem ofBytes_zeroPast : (ofBytes buff bytes h).ZeroPast := fun a ha => by
  change buff + bytes.length ≤ a at ha
  exact List.getD_eq_default _ _ (by omega)

end Mapping

end CS330
