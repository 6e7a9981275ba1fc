import Codegen.Proofs.Text.Utf8
import Codegen.Text.Quoted

/-! Any byte string that is written between quotes is read back. -/
namespace Codegen.Quoted

open Utf8 (units)

def body (value : Bytes) : Bytes := (units value).flatMap escape

/-- A text is read as a value, whatever comes after it. -/
def Decodes (text value : Bytes) : Prop :=
  ∀ rest, decodeUnits (units (text ++ rest)) = (decodeUnits (units rest)).map (value ++ ·)

theorem Decodes.append {text text' value value' : Bytes} (first : Decodes text value)
    (second : Decodes text' value') : Decodes (text ++ text') (value ++ value') := by
  intro rest
  rw [List.append_assoc, first, second, Option.map_map]
  congr 1
  funext more
  exact (List.append_assoc ..).symm

theorem Decodes.nil : Decodes [] [] := fun rest => by simp

section Digits

theorem units_ascii {b : UInt8} (small : b < 0x80) (rest : Bytes) :
    units (b :: rest) = .scalar (Char.ofNat b.toNat) :: units rest := by
  have known : ∀ n < 0x80, (Char.ofNat n).toNat = n := by decide
  have bound : b.toNat < 0x80 := UInt8.lt_iff_toNat_lt.mp small
  have single : Utf8.encode (Char.ofNat b.toNat) = [b] := by
    rw [Utf8.encode_one] <;> rw [known _ bound]
    · simp
    · exact bound
  have whole := Utf8.units_encode (Char.ofNat b.toNat) rest
  rwa [single] at whole

/-- Digits from left to right, the last `width` of them. -/
def hexDigits : Nat → Nat → List Nat
  | 0, _ => []
  | width + 1, n => hexDigits width (n / 16) ++ [n % 16]

theorem hexDigits_lt (width n : Nat) : ∀ d ∈ hexDigits width n, d < 16 := by
  induction width generalizing n with
  | zero => intro d inside; contradiction
  | succ width ih =>
    intro d inside
    rw [hexDigits, List.mem_append, List.mem_singleton] at inside
    rcases inside with before | rfl
    · exact ih _ d before
    · omega

theorem hexPadded_eq (width n : Nat) : hexPadded width n = (hexDigits width n).map hexDigit := by
  induction width generalizing n with
  | zero => rfl
  | succ width ih => rw [hexPadded, hexDigits, ih, List.map_append, List.map_singleton]

def hexUnit (d : Nat) : Utf8.Unit := .scalar (Char.ofNat (hexDigit d).toNat)

theorem units_hexDigits (ds : List Nat) (small : ∀ d ∈ ds, d < 16) (rest : Bytes) :
    units (ds.map hexDigit ++ rest) = ds.map hexUnit ++ units rest := by
  have known : ∀ d < 16, hexDigit d < 0x80 := by decide
  induction ds with
  | nil => rfl
  | cons d ds ih =>
    rw [List.forall_mem_cons] at small
    rw [List.map_cons, List.cons_append, units_ascii (known d small.1), ih small.2]
    rfl

/-- One more digit of a number in base sixteen. -/
theorem number?_concat (us : List Utf8.Unit) {n d : Nat} (before : number? 16 us = some n)
    (small : d < 16) : number? 16 (us ++ [hexUnit d]) = some (n * 16 + d) := by
  have known : ∀ d < 16, (Char.ofNat (hexDigit d).toNat).toNat < 0x80 ∧
      hexValue? (Char.ofNat (hexDigit d).toNat).toNat.toUInt8 = some d := by decide
  obtain ⟨isAscii, value⟩ := known d small
  unfold number? at before ⊢
  rw [List.foldlM_append, before]
  simp [hexUnit, isAscii, value, small]

theorem number?_hexDigits (width n : Nat) :
    number? 16 ((hexDigits width n).map hexUnit) = some (n % 16 ^ width) := by
  induction width generalizing n with
  | zero => rw [pow_zero, Nat.mod_one]; rfl
  | succ width ih =>
    rw [hexDigits, List.map_append, List.map_singleton, number?_concat _ (ih _) (by omega),
      pow_succ, Nat.mul_comm (16 ^ width), Nat.mod_mul]
    congr 1
    omega

end Digits

section Escapes

theorem units_backslash (rest : Bytes) : units (92 :: rest) = .scalar '\\' :: units rest :=
  units_ascii (by decide) rest

/-- The units of an escape by number. -/
theorem units_numbered {mark : UInt8} (small : mark < 0x80) (width n : Nat) (rest : Bytes) :
    units (92 :: mark :: (hexPadded width n ++ rest)) = .scalar '\\' ::
      .scalar (Char.ofNat mark.toNat) :: ((hexDigits width n).map hexUnit ++ units rest) := by
  rw [units_backslash, units_ascii small, hexPadded_eq, units_hexDigits _ (hexDigits_lt _ _)]

theorem decodes_escapeByte (b : UInt8) : Decodes (escapeByte b) [b] := by
  intro rest
  have small := b.toNat_lt
  have value := number?_hexDigits 2 b.toNat
  apply (congrArg decodeUnits (units_numbered (by decide) 2 b.toNat rest)).trans
  simp only [hexDigits, List.nil_append, List.map_cons, List.map_nil, List.cons_append] at value ⊢
  change decodeUnits (.scalar '\\' :: .scalar 'x' :: _) = _
  rw [decodeUnits, value, Nat.mod_eq_of_lt (by simpa using small)]
  cases decodeUnits (units rest) <;> simp [byte?, small]

theorem scalarBytes?_toNat (c : Char) : scalarBytes? c.toNat = some (Utf8.encode c) := by
  rw [scalarBytes?, Utf8.scalar?_toNat c (Nat.zero_le _), Option.map_some]

theorem decodes_short {c : Char} (small : c.toNat < 0x10000) :
    Decodes (ascii "\\u" ++ hexPadded 4 c.toNat) (Utf8.encode c) := by
  intro rest
  have value := number?_hexDigits 4 c.toNat
  apply (congrArg decodeUnits (units_numbered (by decide) 4 c.toNat rest)).trans
  simp only [hexDigits, List.nil_append, List.map_cons, List.map_nil, List.cons_append] at value ⊢
  change decodeUnits (.scalar '\\' :: .scalar 'u' :: _) = _
  rw [decodeUnits, value, Nat.mod_eq_of_lt (by simpa using small)]
  cases decodeUnits (units rest) <;> simp [scalarBytes?_toNat]

theorem decodes_long (c : Char) :
    Decodes (ascii "\\U" ++ hexPadded 8 c.toNat) (Utf8.encode c) := by
  intro rest
  have small := Utf8.toNat_lt c
  have value := number?_hexDigits 8 c.toNat
  apply (congrArg decodeUnits (units_numbered (by decide) 8 c.toNat rest)).trans
  simp only [hexDigits, List.nil_append, List.map_cons, List.map_nil, List.cons_append] at value ⊢
  change decodeUnits (.scalar '\\' :: .scalar 'U' :: _) = _
  rw [decodeUnits, value, Nat.mod_eq_of_lt (by omega)]
  cases decodeUnits (units rest) <;> simp [scalarBytes?_toNat]

theorem decodes_letter {letter : Char} {b : UInt8} (known : (letter, b) ∈ letterEscapes) :
    Decodes (92 :: Utf8.encode letter) [b] := by
  intro rest
  rw [List.cons_append, units_backslash, Utf8.units_encode]
  simp only [letterEscapes, List.mem_cons, Prod.mk.injEq, List.not_mem_nil, or_false] at known
  rcases known with ⟨rfl, rfl⟩ | ⟨rfl, rfl⟩ | ⟨rfl, rfl⟩ | ⟨rfl, rfl⟩ | ⟨rfl, rfl⟩ | ⟨rfl, rfl⟩ |
    ⟨rfl, rfl⟩ | ⟨rfl, rfl⟩ | ⟨rfl, rfl⟩ <;> rfl

theorem decodes_plain {c : Char} (backslash : c ≠ '\\') (newline : c ≠ '\n') (quote : c ≠ '"') :
    Decodes (Utf8.encode c) (Utf8.encode c) := by
  intro rest
  rw [Utf8.units_encode, decodeUnits]
  all_goals simp_all

/-- A scalar value without an escape of its own. -/
theorem unlettered {c : Char}
    (absent : letterEscapes.find? (fun (_, b) => b.toNat == c.toNat) = none) :
    c ≠ '\\' ∧ c ≠ '\n' ∧ c ≠ '"' := by
  simp only [letterEscapes, List.find?_eq_none] at absent
  refine ⟨?_, ?_, ?_⟩ <;> rintro rfl <;> revert absent <;> decide

theorem decodes_escape (u : Utf8.Unit) : Decodes (escape u) u.bytes := by
  cases u with
  | stray b => exact decodes_escapeByte b
  | scalar c =>
    rw [escape, escapeScalar, Utf8.Unit.bytes]
    split
    next letter b found =>
      have same : b.toNat = c.toNat := by simpa using List.find?_some found
      have single : Utf8.encode c = [b] := by
        have small : ∀ p ∈ letterEscapes, p.2.toNat < 0x80 := by decide
        have below : b.toNat < 0x80 := small _ (List.mem_of_find?_eq_some found)
        rw [Utf8.encode_one (by omega), ← same]
        simp
      rw [single]
      exact decodes_letter (List.mem_of_find?_eq_some found)
    next absent =>
      obtain ⟨backslash, newline, quote⟩ := unlettered absent
      split
      · exact decodes_plain backslash newline quote
      split
      next small =>
        rw [Utf8.encode_one small]
        exact decodes_escapeByte _
      split
      next small => exact decodes_short small
      next => exact decodes_long c

theorem decodes_flatMap_escape (us : List Utf8.Unit) :
    Decodes (us.flatMap escape) (us.flatMap Utf8.Unit.bytes) := by
  induction us with
  | nil => exact Decodes.nil
  | cons u us ih =>
    rw [List.flatMap_cons, List.flatMap_cons]
    exact (decodes_escape u).append ih

theorem decode_body (value : Bytes) : decode (body value) = some value := by
  have whole := decodes_flatMap_escape (units value) []
  rw [List.append_nil, Utf8.flatMap_bytes_units] at whole
  rw [decode, body, whole]
  simp [decodeUnits, units, Utf8.unitsAfter]

end Escapes

end Codegen.Quoted
