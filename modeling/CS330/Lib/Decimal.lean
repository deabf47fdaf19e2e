import Mathlib.Data.Nat.Digits.Lemmas
import Mathlib.Data.UInt

/-! # Numbers in decimal notation

What `%lu` and `%u` print. -/

namespace CS330

/-- The digits of a number as bytes, the most significant one first. -/
def decimal (n : Nat) : List UInt8 :=
  if n = 0 then [48] else (Nat.digits 10 n).reverse.map fun d => UInt8.ofNat (48 + d)

def IsDigit (c : UInt8) : Prop := 48 ≤ c.toNat ∧ c.toNat ≤ 57

instance (c : UInt8) : Decidable (IsDigit c) := inferInstanceAs (Decidable (_ ∧ _))

/-- The number that is written as `bytes`. -/
def ofDecimal (bytes : List UInt8) : Nat :=
  Nat.ofDigits 10 (bytes.map fun c => c.toNat - 48).reverse

variable {n : Nat} {c : UInt8}

theorem toNat_digit {d : Nat} (h : d < 10) : (UInt8.ofNat (48 + d)).toNat = 48 + d := by
  rw [UInt8.toNat_ofNat', Nat.mod_eq_of_lt (by omega)]

theorem isDigit_of_mem_decimal (h : c ∈ decimal n) : IsDigit c := by
  unfold decimal at h
  split at h
  · rw [List.mem_singleton.1 h]
    decide
  · obtain ⟨d, hd, rfl⟩ := List.mem_map.1 h
    have hlt : d < 10 := Nat.digits_lt_base (by decide) (List.mem_reverse.1 hd)
    rw [IsDigit, toNat_digit hlt]
    omega

theorem ofDecimal_decimal (n : Nat) : ofDecimal (decimal n) = n := by
  unfold ofDecimal decimal
  split
  next h => rw [h]; rfl
  next =>
    rw [List.map_map, ← List.map_reverse, List.reverse_reverse]
    have hdigits : (Nat.digits 10 n).map ((fun c : UInt8 => c.toNat - 48) ∘
        fun d => UInt8.ofNat (48 + d)) = Nat.digits 10 n := by
      refine (List.map_congr_left fun d hd => ?_).trans (List.map_id _)
      have hlt : d < 10 := Nat.digits_lt_base (by decide) hd
      rw [Function.comp, toNat_digit hlt, Nat.add_sub_cancel_left, id]
    rw [hdigits, Nat.ofDigits_digits]

theorem decimal_injective : Function.Injective decimal :=
  Function.LeftInverse.injective ofDecimal_decimal

/-- A number is read up to the first byte that is no digit. -/
theorem decimal_append_inj {m : Nat} {s t : List UInt8} (hc : ¬IsDigit c)
    (h : decimal n ++ c :: s = decimal m ++ c :: t) : n = m ∧ s = t := by
  have htake (k : Nat) (u : List UInt8) :
      (decimal k ++ c :: u).takeWhile (fun c => decide (IsDigit c)) = decimal k := by
    rw [List.takeWhile_append_of_pos fun c hc => decide_eq_true (isDigit_of_mem_decimal hc)]
    simp [hc]
  obtain rfl : n = m := by
    apply decimal_injective
    rw [← htake n s, h, htake m t]
  exact ⟨rfl, by simpa using h⟩

theorem length_decimal_le (n : Nat) : (decimal n).length ≤ n + 1 := by
  unfold decimal
  split
  next => simp
  next =>
    rw [List.length_map, List.length_reverse]
    exact ((Nat.digits_length_le_iff (by decide) n).2 (Nat.lt_pow_self (by decide))).trans
      (Nat.le_succ n)

example : decimal 330 = [51, 51, 48] := by simp [decimal]

end CS330
