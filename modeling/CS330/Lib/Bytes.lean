import Mathlib.Data.Nat.Digits.Defs
import Mathlib.Data.List.GetD
import Mathlib.Logic.Function.Basic
import Mathlib.Tactic.Ring

/-! # Bytes in memory

A number of `n` bytes is stored with its lowest byte first. -/

namespace CS330

/-- The number that bytes stand for. -/
def ofBytes (bytes : List UInt8) : Nat := Nat.ofDigits 256 (bytes.map UInt8.toNat)

/-- The `n` lowest bytes of a number. -/
def toBytes : Nat → Nat → List UInt8
  | 0, _ => []
  | n + 1, x => UInt8.ofNat x :: toBytes n (x / 256)

@[simp] theorem length_toBytes (n x : Nat) : (toBytes n x).length = n := by
  induction n generalizing x with
  | zero => rfl
  | succ n ih => exact congrArg (· + 1) (ih (x / 256))

theorem ofBytes_cons (b : UInt8) (bytes : List UInt8) :
    ofBytes (b :: bytes) = b.toNat + 256 * ofBytes bytes := by
  simp [ofBytes, Nat.ofDigits_cons]

theorem ofBytes_toBytes (n x : Nat) : ofBytes (toBytes n x) = x % 256 ^ n := by
  induction n generalizing x with
  | zero => rw [pow_zero, Nat.mod_one]; rfl
  | succ n ih => rw [toBytes, ofBytes_cons, ih, UInt8.toNat_ofNat', pow_succ' 256, Nat.mod_mul]

/-- A number that fits is read as it was written. -/
theorem ofBytes_toBytes_of_lt {n x : Nat} (h : x < 256 ^ n) : ofBytes (toBytes n x) = x := by
  rw [ofBytes_toBytes, Nat.mod_eq_of_lt h]

/-! ## Memory -/

variable {mem : Nat → UInt8} {ptr m n : Nat} {bytes rest : List UInt8}

/-- The `n` bytes of a memory from an address on. -/
def load (mem : Nat → UInt8) (ptr n : Nat) : List UInt8 := (List.range' ptr n).map mem

theorem load_add : load mem ptr (m + n) = load mem ptr m ++ load mem (ptr + m) n := by
  rw [load, ← List.range'_append_1, List.map_append]
  rfl

@[simp] theorem length_load : (load mem ptr n).length = n := by simp [load]

/-- The memory holds these bytes from an address on. -/
def StoredAt (mem : Nat → UInt8) (ptr : Nat) (bytes : List UInt8) : Prop :=
  load mem ptr bytes.length = bytes

theorem storedAt_append : StoredAt mem ptr (bytes ++ rest) ↔
    StoredAt mem ptr bytes ∧ StoredAt mem (ptr + bytes.length) rest := by
  rw [StoredAt, List.length_append, load_add]
  exact ⟨fun h => List.append_inj h length_load, fun h => by rw [h.1, h.2]⟩

/-- A write behind the bytes leaves them alone. -/
theorem StoredAt.update {a : Nat} {b : UInt8} (h : StoredAt mem ptr bytes)
    (ha : ptr + bytes.length ≤ a) : StoredAt (Function.update mem a b) ptr bytes := by
  refine Eq.trans (List.map_congr_left fun i hi => Function.update_of_ne ?_ ..) h
  have := List.mem_range'_1.1 hi
  omega

/-- One more byte. -/
theorem StoredAt.snoc {b : UInt8} (h : StoredAt mem ptr bytes) :
    StoredAt (Function.update mem (ptr + bytes.length) b) ptr (bytes ++ [b]) :=
  storedAt_append.2 ⟨h.update le_rfl, by simp [StoredAt, load]⟩

/-- A memory that holds given bytes and is zero behind them. -/
theorem storedAt_getD : StoredAt (fun a => bytes.getD (a - ptr) 0) ptr bytes :=
  List.ext_getElem length_load fun i hi hi' => by simp [load, hi']

/-- A number that fits is read back from where it is stored. -/
theorem StoredAt.ofBytes_load {x : Nat} (h : StoredAt mem ptr (toBytes n x)) (hx : x < 256 ^ n) :
    ofBytes (load mem ptr n) = x := by
  rw [StoredAt, length_toBytes] at h
  rw [h, ofBytes_toBytes_of_lt hx]

theorem ofBytes_replicate_zero : ofBytes (List.replicate n 0) = 0 := by
  induction n with
  | zero => rfl
  | succ n ih => rw [List.replicate_succ, ofBytes_cons, ih]; rfl

/-- Where the memory is zero, every number is. -/
theorem ofBytes_load_eq_zero (h : ∀ a, ptr ≤ a → a < ptr + n → mem a = 0) :
    ofBytes (load mem ptr n) = 0 := by
  have : load mem ptr n = List.replicate n 0 := by
    rw [List.eq_replicate_iff]
    refine ⟨length_load, fun b hb => ?_⟩
    obtain ⟨a, ha, rfl⟩ := List.mem_map.1 hb
    exact h a (List.mem_range'_1.1 ha).1 (List.mem_range'_1.1 ha).2
  rw [this, ofBytes_replicate_zero]

end CS330
