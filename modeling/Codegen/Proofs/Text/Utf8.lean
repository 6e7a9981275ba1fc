import Codegen.Text.Utf8
import Mathlib

/-! Encoded scalar values are found again in front of any bytes, and the units of a byte string
make it up. -/
namespace Codegen.Utf8

def Unit.bytes : Unit → Bytes
  | .scalar c => encode c
  | .stray b => [b]

theorem scalar?_toNat (c : Char) {least : Nat} (above : least ≤ c.toNat) :
    scalar? least c.toNat = some c := by
  have valid : c.toNat.isValidChar := c.valid
  rw [scalar?, dif_pos valid, if_pos above]
  rfl

theorem scalar?_some {least n : Nat} {c : Char} (found : scalar? least n = some c) :
    c.toNat = n ∧ least ≤ n := by
  unfold scalar? at found
  split at found
  · split at found
    next above =>
      cases found
      exact ⟨rfl, above⟩
    next => contradiction
  · contradiction

theorem toNat_lt (c : Char) : c.toNat < 0x110000 := by
  rcases c.valid with low | ⟨_, high⟩
  · exact Nat.lt_trans low (by decide)
  · exact high

def leadByte (mark k : Nat) : UInt8 := (mark + k).toUInt8

def tailByte (k : Nat) : UInt8 := (0x80 + k).toUInt8

theorem tail?_tailByte : ∀ k < 64, tail? (tailByte k) = some k := by decide

theorem eq_tailByte {b : UInt8} {k : Nat} (found : tail? b = some k) : b = tailByte k ∧ k < 64 := by
  unfold tail? at found
  split at found
  next between =>
    obtain rfl := Option.some.inj found
    rw [UInt8.le_iff_toNat_le, UInt8.lt_iff_toNat_lt] at between
    simp only [UInt8.reduceToNat] at between
    constructor
    · apply UInt8.toNat_inj.mp
      simp [tailByte]
      omega
    · omega
  next => contradiction

theorem eq_leadByte {b : UInt8} {mark : Nat} (above : mark ≤ b.toNat) :
    b = leadByte mark (b.toNat - mark) := by
  apply UInt8.toNat_inj.mp
  have := b.toNat_lt
  simp [leadByte]
  omega

section Encoding

variable {c : Char}

theorem encode_one (small : c.toNat < 0x80) : encode c = [c.toNat.toUInt8] := by
  simp [encode, small]

theorem encode_two (above : 0x80 ≤ c.toNat) (below : c.toNat < 0x800) :
    encode c = [leadByte 0xC0 (c.toNat / 64), tailByte (c.toNat % 64)] := by
  simp [encode, leadByte, tailByte, below, Nat.not_lt.mpr above]

theorem encode_three (above : 0x800 ≤ c.toNat) (below : c.toNat < 0x10000) :
    encode c = [leadByte 0xE0 (c.toNat / 4096), tailByte (c.toNat / 64 % 64),
      tailByte (c.toNat % 64)] := by
  have more : ¬ c.toNat < 0x80 := by omega
  simp [encode, leadByte, tailByte, below, Nat.not_lt.mpr above, more]

theorem encode_four (above : 0x10000 ≤ c.toNat) :
    encode c = [leadByte 0xF0 (c.toNat / 262144), tailByte (c.toNat / 4096 % 64),
      tailByte (c.toNat / 64 % 64), tailByte (c.toNat % 64)] := by
  have more : ¬ c.toNat < 0x80 := by omega
  have more' : ¬ c.toNat < 0x800 := by omega
  simp [encode, leadByte, tailByte, Nat.not_lt.mpr above, more, more']

theorem lead?_encode (c : Char) :
    ∃ b tail, encode c = b :: tail ∧ ∀ rest, lead? b (tail ++ rest) = some (c, tail.length) := by
  have bound := toNat_lt c
  by_cases one : c.toNat < 0x80
  · refine ⟨_, _, encode_one one, fun rest => ?_⟩
    have known : ∀ n < 0x80, n.toUInt8 < 0x80 ∧ n.toUInt8.toNat = n := by decide
    obtain ⟨small, same⟩ := known _ one
    simp [lead?, small, same, scalar?_toNat c (Nat.zero_le _)]
  by_cases two : c.toNat < 0x800
  · refine ⟨_, _, encode_two (by omega) two, fun rest => ?_⟩
    have known : ∀ k < 32, ¬ leadByte 0xC0 k < 0x80 ∧ 0xC0 ≤ leadByte 0xC0 k ∧
        leadByte 0xC0 k < 0xE0 ∧ (leadByte 0xC0 k).toNat - 0xC0 = k := by decide
    obtain ⟨notOne, low, high, payload⟩ := known (c.toNat / 64) (by omega)
    have whole : c.toNat / 64 * 64 + c.toNat % 64 = c.toNat := by omega
    simp [lead?, notOne, low, high, payload, tail?_tailByte (c.toNat % 64) (by omega), whole,
      scalar?_toNat c (by omega : 0x80 ≤ c.toNat)]
  by_cases three : c.toNat < 0x10000
  · refine ⟨_, _, encode_three (by omega) three, fun rest => ?_⟩
    have known : ∀ k < 16, ¬ leadByte 0xE0 k < 0x80 ∧ ¬ leadByte 0xE0 k < 0xE0 ∧
        0xE0 ≤ leadByte 0xE0 k ∧ leadByte 0xE0 k < 0xF0 ∧
        (leadByte 0xE0 k).toNat - 0xE0 = k := by decide
    obtain ⟨notOne, notTwo, low, high, payload⟩ := known (c.toNat / 4096) (by omega)
    have whole : (c.toNat / 4096 * 64 + c.toNat / 64 % 64) * 64 + c.toNat % 64 = c.toNat := by omega
    simp [lead?, notOne, notTwo, low, high, payload, tail?_tailByte (c.toNat % 64) (by omega),
      tail?_tailByte (c.toNat / 64 % 64) (by omega), whole,
      scalar?_toNat c (by omega : 0x800 ≤ c.toNat)]
  · refine ⟨_, _, encode_four (by omega), fun rest => ?_⟩
    have known : ∀ k < 8, ¬ leadByte 0xF0 k < 0x80 ∧ ¬ leadByte 0xF0 k < 0xE0 ∧
        ¬ leadByte 0xF0 k < 0xF0 ∧ 0xF0 ≤ leadByte 0xF0 k ∧ leadByte 0xF0 k < 0xF8 ∧
        (leadByte 0xF0 k).toNat - 0xF0 = k := by decide
    obtain ⟨notOne, notTwo, notThree, low, high, payload⟩ := known (c.toNat / 262144) (by omega)
    have whole : ((c.toNat / 262144 * 64 + c.toNat / 4096 % 64) * 64 + c.toNat / 64 % 64) * 64 +
        c.toNat % 64 = c.toNat := by omega
    simp [lead?, notOne, notTwo, notThree, low, high, payload,
      tail?_tailByte (c.toNat % 64) (by omega), tail?_tailByte (c.toNat / 64 % 64) (by omega),
      tail?_tailByte (c.toNat / 4096 % 64) (by omega), whole,
      scalar?_toNat c (by omega : 0x10000 ≤ c.toNat)]

/-- What a sequence was found to be is what it encodes. -/
theorem lead?_some {b : UInt8} {rest : Bytes} {n : Nat} (found : lead? b rest = some (c, n)) :
    encode c = b :: rest.take n := by
  unfold lead? at found
  simp only [UInt8.le_iff_toNat_le, UInt8.lt_iff_toNat_lt, UInt8.reduceToNat] at found
  split at found
  next one =>
    simp only [Option.bind_eq_bind, Option.bind_eq_some_iff, Option.pure_def, Option.some.injEq,
      Prod.mk.injEq] at found
    obtain ⟨c, scalar, rfl, rfl⟩ := found
    obtain ⟨same, _⟩ := scalar?_some scalar
    rw [encode_one (by omega), same]
    simp
  split at found
  next two =>
    simp only [Option.bind_eq_bind, Option.bind_eq_some_iff, Option.pure_def, Option.some.injEq,
      Prod.mk.injEq] at found
    obtain ⟨k₁, ⟨b₁, at₁, tail₁⟩, c, scalar, rfl, rfl⟩ := found
    obtain ⟨same, above⟩ := scalar?_some scalar
    obtain ⟨rfl, small₁⟩ := eq_tailByte tail₁
    have lead : c.toNat / 64 = b.toNat - 0xC0 := by omega
    have last : c.toNat % 64 = k₁ := by omega
    rw [encode_two (by omega) (by omega), eq_leadByte two.1, lead, last]
    simp [List.take_add_one, at₁]
  split at found
  next three =>
    simp only [Option.bind_eq_bind, Option.bind_eq_some_iff, Option.pure_def, Option.some.injEq,
      Prod.mk.injEq] at found
    obtain ⟨k₁, ⟨b₁, at₁, tail₁⟩, k₂, ⟨b₂, at₂, tail₂⟩, c, scalar, rfl, rfl⟩ := found
    obtain ⟨same, above⟩ := scalar?_some scalar
    obtain ⟨rfl, small₁⟩ := eq_tailByte tail₁
    obtain ⟨rfl, small₂⟩ := eq_tailByte tail₂
    have lead : c.toNat / 4096 = b.toNat - 0xE0 := by omega
    have middle : c.toNat / 64 % 64 = k₁ := by omega
    have last : c.toNat % 64 = k₂ := by omega
    rw [encode_three (by omega) (by omega), eq_leadByte three.1, lead, middle, last]
    simp [List.take_add_one, at₁, at₂]
  split at found
  next four =>
    simp only [Option.bind_eq_bind, Option.bind_eq_some_iff, Option.pure_def, Option.some.injEq,
      Prod.mk.injEq] at found
    obtain ⟨k₁, ⟨b₁, at₁, tail₁⟩, k₂, ⟨b₂, at₂, tail₂⟩, k₃, ⟨b₃, at₃, tail₃⟩, c, scalar, rfl,
      rfl⟩ := found
    obtain ⟨same, above⟩ := scalar?_some scalar
    obtain ⟨rfl, small₁⟩ := eq_tailByte tail₁
    obtain ⟨rfl, small₂⟩ := eq_tailByte tail₂
    obtain ⟨rfl, small₃⟩ := eq_tailByte tail₃
    have lead : c.toNat / 262144 = b.toNat - 0xF0 := by omega
    have second : c.toNat / 4096 % 64 = k₁ := by omega
    have third : c.toNat / 64 % 64 = k₂ := by omega
    have last : c.toNat % 64 = k₃ := by omega
    rw [encode_four (by omega), eq_leadByte four.1, lead, second, third, last]
    simp [List.take_add_one, at₁, at₂, at₃]
  next => contradiction

end Encoding

section Units

theorem unitsAfter_append (skipped rest : Bytes) :
    unitsAfter skipped.length (skipped ++ rest) = unitsAfter 0 rest := by
  induction skipped with
  | nil => rfl
  | cons b skipped ih => exact ih

theorem units_encode (c : Char) (rest : Bytes) : units (encode c ++ rest) = .scalar c :: units rest := by
  obtain ⟨b, tail, same, found⟩ := lead?_encode c
  rw [same, units, List.cons_append, unitsAfter, found]
  exact congrArg _ (unitsAfter_append tail rest)

/-- The units of a byte string make it up. -/
theorem flatMap_bytes_unitsAfter (skip : Nat) (bytes : Bytes) :
    (unitsAfter skip bytes).flatMap Unit.bytes = bytes.drop skip := by
  induction bytes generalizing skip with
  | nil => cases skip <;> rfl
  | cons b rest ih =>
    cases skip with
    | succ skip => exact ih skip
    | zero =>
      rw [unitsAfter]
      split
      next c n found =>
        rw [List.flatMap_cons, ih, Unit.bytes, lead?_some found, List.cons_append,
          List.take_append_drop]
        rfl
      next => rw [List.flatMap_cons, ih]; rfl

theorem flatMap_bytes_units (bytes : Bytes) : (units bytes).flatMap Unit.bytes = bytes :=
  flatMap_bytes_unitsAfter 0 bytes

end Units

end Codegen.Utf8
