import Codegen.Text.IntLiteral
import Mathlib

/-! Decimal numbers, with a minus sign for those below zero, are read back. -/
namespace Codegen

def decimalDigit (d : Nat) : UInt8 := (48 + d).toUInt8

/-- The last digit comes off the end. -/
theorem decimal_eq (n : Nat) :
    decimal n = (if n < 10 then [] else decimal (n / 10)) ++ [decimalDigit (n % 10)] := by
  have digit : ∀ d < 10, (Nat.digitChar d).toNat.toUInt8 = decimalDigit d := by decide
  unfold decimal
  rw [Nat.toDigits_eq_if (by omega)]
  split
  next small => simp [digit n small, Nat.mod_eq_of_lt small]
  next => simp [digit (n % 10) (by omega)]

theorem decimal_digits (n : Nat) : ∀ b ∈ decimal n, ∃ d < 10, b = decimalDigit d := by
  induction n using Nat.strong_induction_on with
  | h n ih =>
    intro b inside
    rw [decimal_eq, List.mem_append, List.mem_singleton] at inside
    rcases inside with before | rfl
    · split at before
      · contradiction
      · exact ih (n / 10) (by omega) b before
    · exact ⟨n % 10, by omega, rfl⟩

/-- The first digit is zero only where it is the only one. -/
theorem decimal_head (n : Nat) (positive : 0 < n) :
    ∃ d rest, 0 < d ∧ d < 10 ∧ decimal n = decimalDigit d :: rest := by
  induction n using Nat.strong_induction_on with
  | h n ih =>
    rw [decimal_eq]
    by_cases small : n < 10
    · refine ⟨n, [], positive, small, ?_⟩
      rw [if_pos small, Nat.mod_eq_of_lt small, List.nil_append]
    · obtain ⟨d, rest, least, most, same⟩ := ih (n / 10) (by omega) (by omega)
      refine ⟨d, rest ++ [decimalDigit (n % 10)], least, most, ?_⟩
      rw [if_neg small, same, List.cons_append]

namespace IntLiteral

theorem digits_digit {d : Nat} (small : d < 10) (joined complete : Bool) (n : Nat) (rest : Bytes) :
    digits 10 joined complete n (decimalDigit d :: rest) =
      digits 10 true true (n * 10 + d) rest := by
  have known : ∀ d < 10, decimalDigit d ≠ 95 ∧ hexValue? (decimalDigit d) = some d := by decide
  obtain ⟨plain, value⟩ := known d small
  rw [digits, if_neg plain, value]
  simp [small]

theorem digits_decimal (joined complete : Bool) (n : Nat) (rest : Bytes) :
    digits 10 joined complete 0 (decimal n ++ rest) = digits 10 true true n rest := by
  induction n using Nat.strong_induction_on generalizing rest with
  | h n ih =>
    have last : n % 10 < 10 := by omega
    rw [decimal_eq, List.append_assoc, List.singleton_append]
    by_cases small : n < 10
    · rw [if_pos small, List.nil_append, digits_digit last]
      congr 1
      omega
    · rw [if_neg small, ih (n / 10) (by omega), digits_digit last]
      congr 1
      omega

theorem magnitude_decimal (n : Nat) : magnitude (decimal n) = some n := by
  by_cases zero : n = 0
  · subst zero
    decide
  · obtain ⟨d, rest, least, most, same⟩ := decimal_head n (by omega)
    have known : ∀ d < 10, 0 < d → decimalDigit d ≠ 48 := by decide
    have nonzero := known d most least
    have unmarked : base (decimal n) = (10, false, decimal n) := by
      rw [same, base]
      · rintro single
        exact nonzero (List.cons.inj single).1
      · rintro mark others marked
        exact nonzero (List.cons.inj marked).1
    have all := digits_decimal false false n []
    rw [List.append_nil] at all
    rw [magnitude, unmarked]
    exact all

theorem sign_decimal (n : Nat) : sign (decimal n) = (false, decimal n) := by
  have known : ∀ d < 10, decimalDigit d ≠ 43 ∧ decimalDigit d ≠ 45 := by decide
  have plain (b : UInt8) (rest : Bytes) (same : decimal n = b :: rest) : b ≠ 43 ∧ b ≠ 45 := by
    obtain ⟨d, small, rfl⟩ := decimal_digits n b (by simp [same])
    exact known d small
  rw [sign]
  · intro rest same
    exact (plain _ _ same).1 rfl
  · intro rest same
    exact (plain _ _ same).2 rfl

theorem parse_signedDecimal (v : Int64) : parse (signedDecimal v.toInt) = some v := by
  have least := v.le_toInt
  have most := v.toInt_lt
  by_cases negative : v.toInt < 0
  · have back : Int64.ofInt (-(v.toInt.natAbs : Int)) = v := by
      rw [show -(v.toInt.natAbs : Int) = v.toInt by omega, Int64.ofInt_toInt]
    have fits : v.toInt.natAbs ≤ 0x8000000000000000 := by omega
    rw [signedDecimal, if_pos negative, parse, sign]
    simp only [magnitude_decimal, Option.bind_eq_bind, Option.bind_some, if_true, if_pos fits, back]
  · have back : Int64.ofInt (v.toInt.natAbs : Int) = v := by
      rw [show (v.toInt.natAbs : Int) = v.toInt by omega, Int64.ofInt_toInt]
    have fits : v.toInt.natAbs < 0x8000000000000000 := by omega
    rw [signedDecimal, if_neg negative, parse, sign_decimal]
    simp only [magnitude_decimal, Option.bind_eq_bind, Option.bind_some, Bool.false_eq_true,
      if_false, if_pos fits, back]

end IntLiteral

end Codegen
