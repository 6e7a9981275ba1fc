import Codegen.Proofs.Source.Writing
import Codegen.Proofs.Text.IntLiteral
import Codegen.Proofs.Text.Quoted

/-! How names, numbers and texts are spelled in a source text. A spelling says what its literals
mean, and the canonical one writes every number in decimal and every text in quotes. -/
namespace Codegen.Source

structure Name where
  text : Bytes
  present : text ≠ []
  valid : ∀ b ∈ text, isAtomByte b = true

/-- Literals that are read as what they mean. -/
structure Spelling (κ τ : Type) where
  numeral : κ → Name
  number : κ → Int64
  parse_numeral : ∀ k, IntLiteral.parse (numeral k).text = some (number k)
  /-- What stands between the quotes. -/
  body : τ → Bytes
  value : τ → Bytes
  closed_body : ∀ q, protects? false (body q) = some false
  decode_body : ∀ q, Quoted.decode (body q) = some (value q)

section Numerals

theorem isAtomByte_digit : ∀ d < 10, isAtomByte (decimalDigit d) = true := by decide

theorem isAtomByte_decimal (n : Nat) : ∀ b ∈ decimal n, isAtomByte b = true := by
  intro b inside
  obtain ⟨d, small, rfl⟩ := decimal_digits n b inside
  exact isAtomByte_digit d small

theorem decimal_ne_nil (n : Nat) : decimal n ≠ [] := by
  rw [decimal_eq]
  simp

def decimalName (v : Int64) : Name where
  text := signedDecimal v.toInt
  present := by
    rw [signedDecimal]
    split
    · exact List.cons_ne_nil _ _
    · exact decimal_ne_nil _
  valid := by
    have digits := isAtomByte_decimal v.toInt.natAbs
    rw [signedDecimal]
    split
    · exact List.forall_mem_cons.mpr ⟨by decide, digits⟩
    · exact digits

end Numerals

section Bodies

theorem protects?_plain {text : Bytes} (plain : ∀ b ∈ text, b ≠ 34 ∧ b ≠ 92) :
    protects? false text = some false := by
  induction text with
  | nil => rfl
  | cons b text ih =>
    rw [List.forall_mem_cons] at plain
    rw [protects?, if_neg plain.1.1, beq_false_of_ne plain.1.2, ih plain.2]

theorem protects?_hexPadded (width n : Nat) : protects? false (hexPadded width n) = some false := by
  have digit : ∀ d < 16, hexDigit d ≠ 34 ∧ hexDigit d ≠ 92 := by decide
  apply protects?_plain
  rw [Quoted.hexPadded_eq]
  intro b inside
  obtain ⟨d, known, rfl⟩ := List.mem_map.mp inside
  exact digit d (Quoted.hexDigits_lt width n d known)

/-- A byte of a longer sequence is no ASCII byte. -/
theorem toNat_of_mem_encode {c : Char} {b : UInt8} (inside : b ∈ Utf8.encode c) :
    b.toNat = c.toNat ∨ 0x80 ≤ b.toNat := by
  have bound := Utf8.toNat_lt c
  have tail : ∀ k < 64, 0x80 ≤ (Utf8.tailByte k).toNat := by decide
  by_cases one : c.toNat < 0x80
  · rw [Utf8.encode_one one, List.mem_singleton] at inside
    left
    rw [inside, Nat.toUInt8_eq, UInt8.toNat_ofNat']
    omega
  right
  by_cases two : c.toNat < 0x800
  · have lead : ∀ k < 32, 0x80 ≤ (Utf8.leadByte 0xC0 k).toNat := by decide
    rw [Utf8.encode_two (by omega) two] at inside
    simp only [List.mem_cons, List.not_mem_nil, or_false] at inside
    rcases inside with rfl | rfl
    · exact lead _ (by omega)
    · exact tail _ (by omega)
  by_cases three : c.toNat < 0x10000
  · have lead : ∀ k < 16, 0x80 ≤ (Utf8.leadByte 0xE0 k).toNat := by decide
    rw [Utf8.encode_three (by omega) three] at inside
    simp only [List.mem_cons, List.not_mem_nil, or_false] at inside
    rcases inside with rfl | rfl | rfl
    · exact lead _ (by omega)
    · exact tail _ (by omega)
    · exact tail _ (by omega)
  · have lead : ∀ k < 8, 0x80 ≤ (Utf8.leadByte 0xF0 k).toNat := by decide
    rw [Utf8.encode_four (by omega)] at inside
    simp only [List.mem_cons, List.not_mem_nil, or_false] at inside
    rcases inside with rfl | rfl | rfl | rfl
    · exact lead _ (by omega)
    · exact tail _ (by omega)
    · exact tail _ (by omega)
    · exact tail _ (by omega)

theorem protects?_encode {c : Char} (backslash : c ≠ '\\') (quote : c ≠ '"') :
    protects? false (Utf8.encode c) = some false := by
  apply protects?_plain
  intro b inside
  have toNat_ne {d : Char} (other : c ≠ d) : c.toNat ≠ d.toNat :=
    fun same => other (Char.toNat_inj.mp same)
  have noBackslash := toNat_ne backslash
  have noQuote := toNat_ne quote
  have byte := toNat_of_mem_encode inside
  constructor
  · rintro rfl
    rcases byte with same | high
    · exact noQuote same.symm
    · contradiction
  · rintro rfl
    rcases byte with same | high
    · exact noBackslash same.symm
    · contradiction

theorem protects?_unit (u : Utf8.Unit) : protects? false (Quoted.escape u) = some false := by
  cases u with
  | stray b => exact protects?_hexPadded 2 b.toNat
  | scalar c =>
    rw [Quoted.escape, Quoted.escapeScalar]
    split
    next letter b found =>
      have lettered : ∀ p ∈ Quoted.letterEscapes,
          protects? false (92 :: Utf8.encode p.1) = some false := by decide
      exact lettered _ (List.mem_of_find?_eq_some found)
    next absent =>
      obtain ⟨backslash, _, quote⟩ := Quoted.unlettered absent
      split
      · exact protects?_encode backslash quote
      split
      · exact protects?_hexPadded 2 _
      split
      · exact protects?_hexPadded 4 _
      · exact protects?_hexPadded 8 _

/-- What an escaped text stands in ends with the quote after it. -/
theorem protects?_body (value : Bytes) : protects? false (Quoted.body value) = some false := by
  rw [Quoted.body]
  induction Utf8.units value with
  | nil => rfl
  | cons u us ih => rw [List.flatMap_cons, protects?_append, protects?_unit, Option.bind_some, ih]

end Bodies

/-- Numbers in decimal, and any text between quotes. -/
def Spelling.canonical : Spelling Int64 Bytes where
  numeral := decimalName
  number v := v
  parse_numeral := IntLiteral.parse_signedDecimal
  body := Quoted.body
  value value := value
  closed_body := protects?_body
  decode_body := Quoted.decode_body

example (value : Bytes) :
    (Token.quoted (Spelling.canonical.body value)).text = Quoted.encode value := rfl

end Codegen.Source
