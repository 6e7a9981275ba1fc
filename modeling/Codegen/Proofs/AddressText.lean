import Codegen.Instr.Operand
import Codegen.Proofs.Text.IntLiteral

/-! Addresses of virtual registers are read back from their text. Which words stand for an address
is said apart from the reader, and the reader accepts these words only, so that a word has one
reading. The text of an address is such a word unless its offset is the least number, which has no
absolute value. -/
namespace Codegen.Operand

/-! ### Words -/

def numeralValue (word : Bytes) : Nat :=
  word.foldl (fun n b => n * 10 + (b.toNat - 48)) 0

structure Numeral (word : Bytes) (n : Nat) : Prop where
  present : word ≠ []
  digits : ∀ b ∈ word, isDigit b = true
  value : numeralValue word = n

structure Reading where
  base : Nat
  index : Option Nat
  scale : Nat
  offset : Int
  deriving DecidableEq, Repr

inductive IndexWord : Bytes → Option Nat → Nat → Prop
  | none : IndexWord [] none 1
  | plain {word : Bytes} {n : Nat} : Numeral word n → IndexWord (ascii " + t" ++ word) (some n) 1
  | scaled {word factor : Bytes} {n k : Nat} : Numeral word n → Numeral factor k →
      isScale k = true → IndexWord (ascii " + t" ++ word ++ ascii "*" ++ factor) (some n) k

inductive OffsetWord : Bytes → Int → Prop
  | none : OffsetWord [] 0
  | plus {word : Bytes} {n : Nat} : Numeral word n → OffsetWord (ascii " + " ++ word) n
  | minus {word : Bytes} {n : Nat} : Numeral word n → OffsetWord (ascii " - " ++ word) (-n)

/-- A base, perhaps an index with a scale, and perhaps an offset after its sign. -/
inductive AddressWord : Bytes → Reading → Prop
  | mk {base index offset : Bytes} {r : Reading} : Numeral base r.base →
      IndexWord index r.index r.scale → OffsetWord offset r.offset →
      AddressWord (ascii "[t" ++ base ++ index ++ offset ++ ascii "]") r

/-! ### Reading -/

def numeral? (text : Bytes) : Option (Nat × Bytes) :=
  if (text.takeWhile isDigit).isEmpty then none
  else some (numeralValue (text.takeWhile isDigit), text.dropWhile isDigit)

def index? (text : Bytes) : Option (Option Nat × Nat × Bytes) :=
  match (ascii " + t").isPrefixOf? text with
  | none => some (none, 1, text)
  | some rest => do
    let (n, rest) ← numeral? rest
    match (ascii "*").isPrefixOf? rest with
    | none => some (some n, 1, rest)
    | some rest => do
      let (k, rest) ← numeral? rest
      if isScale k then some (some n, k, rest) else none

def offset? (text : Bytes) : Option (Int × Bytes) :=
  match (ascii " + ").isPrefixOf? text with
  | some rest => (numeral? rest).map fun (n, rest) => ((n : Int), rest)
  | none =>
    match (ascii " - ").isPrefixOf? text with
    | some rest => (numeral? rest).map fun (n, rest) => (-(n : Int), rest)
    | none => some (0, text)

def read? (text : Bytes) : Option Reading := do
  let rest ← (ascii "[t").isPrefixOf? text
  let (base, rest) ← numeral? rest
  let (index, scale, rest) ← index? rest
  let (offset, rest) ← offset? rest
  if rest = ascii "]" then some ⟨base, index, scale, offset⟩ else none

def Stops (rest : Bytes) : Prop :=
  ∀ b ∈ rest.head?, isDigit b = false

theorem stops_cons {b : UInt8} (plain : isDigit b = false) (rest : Bytes) : Stops (b :: rest) := by
  rintro c ⟨⟩
  exact plain

section Reader

variable {text word rest : Bytes} {n scale : Nat} {index : Option Nat} {offset : Int}

theorem numeral?_append (numeral : Numeral word n) (stops : Stops rest) :
    numeral? (word ++ rest) = some (n, rest) := by
  have run : (word ++ rest).takeWhile isDigit = word := by
    rw [List.takeWhile_append_of_pos numeral.digits]
    cases rest with
    | nil => simp
    | cons b rest => simp [stops b rfl]
  have left : (word ++ rest).dropWhile isDigit = rest := by
    have whole := List.takeWhile_append_dropWhile (p := isDigit) (l := word ++ rest)
    rw [run] at whole
    exact List.append_cancel_left whole
  rw [numeral?, run, left, numeral.value, if_neg (by simp [numeral.present])]

theorem numeral_of_numeral? (found : numeral? text = some (n, rest)) :
    ∃ word, text = word ++ rest ∧ Numeral word n := by
  unfold numeral? at found
  split at found
  · contradiction
  next present =>
    cases found
    refine ⟨_, List.takeWhile_append_dropWhile.symm, by simpa using present, ?_, rfl⟩
    exact fun b member => List.mem_takeWhile_imp member

/-- What stands after the index: an offset and the end. -/
inductive Closes : Bytes → Int → Prop
  | mk {word : Bytes} {offset : Int} : OffsetWord word offset → Closes (word ++ ascii "]") offset

structure Apart (rest : Bytes) : Prop where
  stops : Stops rest
  unscaled : (ascii "*").isPrefixOf? rest = none
  unindexed : (ascii " + t").isPrefixOf? rest = none

theorem Closes.apart (closes : Closes text offset) : Apart text := by
  obtain ⟨shifted⟩ := closes
  cases shifted with
  | none => exact ⟨stops_cons rfl _, rfl, rfl⟩
  | minus numeral => exact ⟨stops_cons rfl _, rfl, rfl⟩
  | @plus word n numeral =>
    refine ⟨stops_cons rfl _, rfl, ?_⟩
    cases word with
    | nil => exact absurd rfl numeral.present
    | cons b word =>
      -- An offset starts with a digit, and the name of a register with a letter.
      have digit := numeral.digits b (List.mem_cons_self ..)
      have other : (116 == b) = false := by
        refine beq_false_of_ne ?_
        rintro rfl
        contradiction
      change List.isPrefixOf? [116] (b :: (word ++ ascii "]")) = none
      simp [List.isPrefixOf?, other]

theorem offset?_closes (closes : Closes text offset) : offset? text = some (offset, ascii "]") := by
  have stops : Stops (ascii "]") := stops_cons rfl _
  obtain ⟨shifted⟩ := closes
  cases shifted with
  | none => rfl
  | plus numeral =>
    rw [offset?, List.append_assoc, List.isPrefixOf?_eq_some_iff_append_eq.mpr rfl]
    simp [numeral?_append numeral stops]
  | @minus word n numeral =>
    have other : (ascii " + ").isPrefixOf? (ascii " - " ++ (word ++ ascii "]")) = none := rfl
    rw [offset?, List.append_assoc, other, List.isPrefixOf?_eq_some_iff_append_eq.mpr rfl]
    simp [numeral?_append numeral stops]

theorem offsetWord_of_offset? (found : offset? text = some (offset, rest)) :
    ∃ word, text = word ++ rest ∧ OffsetWord word offset := by
  unfold offset? at found
  split at found
  next marked =>
    obtain ⟨⟨n, last⟩, counted, same⟩ := Option.map_eq_some_iff.mp found
    obtain ⟨word, rfl, numeral⟩ := numeral_of_numeral? counted
    obtain rfl := List.isPrefixOf?_eq_some_iff_append_eq.mp marked
    cases same
    exact ⟨_, (List.append_assoc ..).symm, .plus numeral⟩
  next =>
    split at found
    next marked =>
      obtain ⟨⟨n, last⟩, counted, same⟩ := Option.map_eq_some_iff.mp found
      obtain ⟨word, rfl, numeral⟩ := numeral_of_numeral? counted
      obtain rfl := List.isPrefixOf?_eq_some_iff_append_eq.mp marked
      cases same
      exact ⟨_, (List.append_assoc ..).symm, .minus numeral⟩
    next =>
      cases found
      exact ⟨[], rfl, .none⟩

theorem index?_append (indexed : IndexWord word index scale) (apart : Apart rest) :
    index? (word ++ rest) = some (index, scale, rest) := by
  have stops := apart.stops
  cases indexed with
  | none => rw [index?, List.nil_append, apart.unindexed]
  | plain numeral =>
    rw [index?, List.append_assoc, List.isPrefixOf?_eq_some_iff_append_eq.mpr rfl]
    simp [numeral?_append numeral stops, apart.unscaled]
  | @scaled word factor n k numeral factored valid =>
    have before : Stops (ascii "*" ++ (factor ++ rest)) := stops_cons rfl _
    rw [index?]
    simp only [List.append_assoc]
    rw [List.isPrefixOf?_eq_some_iff_append_eq.mpr rfl]
    simp only [numeral?_append numeral before, Option.bind_eq_bind, Option.bind_some]
    rw [List.isPrefixOf?_eq_some_iff_append_eq.mpr rfl]
    simp [numeral?_append factored stops, valid]

theorem indexWord_of_index? (found : index? text = some (index, scale, rest)) :
    ∃ word, text = word ++ rest ∧ IndexWord word index scale := by
  unfold index? at found
  split at found
  next =>
    cases found
    exact ⟨[], rfl, .none⟩
  next marked =>
    obtain ⟨⟨n, middle⟩, counted, found'⟩ := Option.bind_eq_some_iff.mp found
    obtain ⟨word, rfl, numeral⟩ := numeral_of_numeral? counted
    obtain rfl := List.isPrefixOf?_eq_some_iff_append_eq.mp marked
    dsimp only at found'
    split at found'
    next =>
      cases found'
      exact ⟨_, (List.append_assoc ..).symm, .plain numeral⟩
    next scaled =>
      obtain ⟨⟨k, last⟩, factor, found''⟩ := Option.bind_eq_some_iff.mp found'
      obtain ⟨word', rfl, factored⟩ := numeral_of_numeral? factor
      obtain rfl := List.isPrefixOf?_eq_some_iff_append_eq.mp scaled
      dsimp only at found''
      split at found''
      next valid =>
        cases found''
        exact ⟨_, by simp only [List.append_assoc], .scaled numeral factored valid⟩
      next => contradiction

theorem IndexWord.stops (indexed : IndexWord word index scale) (apart : Apart rest) :
    Stops (word ++ rest) := by
  cases indexed with
  | none => exact apart.stops
  | plain | scaled => exact stops_cons rfl _

/-- The offset decides how a text is read of which base and index have been read. -/
theorem read?_offset {base : Bytes} (numeral : Numeral base n)
    (indexed : IndexWord word index scale) (apart : Apart rest) :
    read? (ascii "[t" ++ base ++ word ++ rest) =
      (offset? rest).bind fun (offset, last) =>
        if last = ascii "]" then some ⟨n, index, scale, offset⟩ else none := by
  simp only [read?, List.append_assoc]
  rw [List.isPrefixOf?_eq_some_iff_append_eq.mpr rfl]
  simp [numeral?_append numeral (indexed.stops apart), index?_append indexed apart]

/-- The reader accepts the words of addresses and nothing else. -/
theorem read?_eq_some_iff {r : Reading} : read? text = some r ↔ AddressWord text r := by
  constructor
  · intro found
    obtain ⟨afterMark, opened, found⟩ := Option.bind_eq_some_iff.mp found
    obtain ⟨⟨base, afterBase⟩, counted, found⟩ := Option.bind_eq_some_iff.mp found
    obtain ⟨⟨index, scale, afterIndex⟩, indexed, found⟩ := Option.bind_eq_some_iff.mp found
    obtain ⟨⟨offset, rest⟩, shifted, found⟩ := Option.bind_eq_some_iff.mp found
    obtain ⟨closed, same⟩ := Option.ite_none_right_eq_some.mp found
    obtain ⟨baseWord, rfl, numeral⟩ := numeral_of_numeral? counted
    obtain ⟨indexWord, rfl, indexed'⟩ := indexWord_of_index? indexed
    obtain ⟨offsetWord, rfl, shifted'⟩ := offsetWord_of_offset? shifted
    obtain rfl := List.isPrefixOf?_eq_some_iff_append_eq.mp opened
    cases same
    have word := AddressWord.mk (r := ⟨base, index, scale, offset⟩) numeral indexed' shifted'
    simpa only [closed, List.append_assoc] using word
  · rintro ⟨numeral, indexed, shifted⟩
    have closes := Closes.mk shifted
    rw [List.append_assoc _ _ (ascii "]"), read?_offset numeral indexed closes.apart,
      offset?_closes closes]
    simp

end Reader

/-! ### Printing -/

theorem numeral_decimal (n : Nat) : Numeral (decimal n) n := by
  have known : ∀ d < 10, isDigit (decimalDigit d) = true ∧ (decimalDigit d).toNat - 48 = d := by
    decide
  refine ⟨?_, ?_, ?_⟩
  · rw [decimal_eq]
    simp
  · intro b inside
    obtain ⟨d, small, rfl⟩ := decimal_digits n b inside
    exact (known d small).1
  · induction n using Nat.strong_induction_on with
    | h n ih =>
      have last := (known (n % 10) (by omega)).2
      rw [decimal_eq, numeralValue, List.foldl_append, List.foldl_cons, List.foldl_nil, last]
      by_cases small : n < 10
      · simp only [if_pos small, List.foldl_nil]
        omega
      · have before := ih (n / 10) (by omega)
        rw [numeralValue] at before
        rw [if_neg small, before]
        omega

/-- A virtual register that is not given a home and has a number to print. -/
structure Virtual where
  key : Nat
  id : Nat
  deriving DecidableEq, Repr

def Virtual.temp (v : Virtual) : Temp :=
  ⟨v.key, v.id, .unassigned⟩

structure RegisterAddress where
  object : Nat
  base : Virtual
  index : Option Virtual
  scale : Int
  offset : Int64
  valid : isScale scale = true
  unscaled : index = none → scale = 1

namespace RegisterAddress

variable (a : RegisterAddress)

def operand : Operand :=
  .addr a.object none (.temp a.base.temp) (a.index.elim .absent fun v => .temp v.temp) a.scale
    a.offset

def reading : Reading :=
  ⟨a.base.id, a.index.map Virtual.id, a.scale.toNat, a.offset.toInt⟩

end RegisterAddress

theorem text_virtual (v : Virtual) : (Operand.temp v.temp).text = ascii "t" ++ decimal v.id := by
  have natural : ¬ (v.id : Int) < 0 := by omega
  rw [Operand.text, Temp.text, Virtual.temp]
  simp only [signedDecimal, if_neg natural, Int.natAbs_natCast]
  rfl

def RegisterAddress.indexText (a : RegisterAddress) : Bytes :=
  match a.index with
  | none => []
  | some v =>
    ascii " + t" ++ decimal v.id ++ (if a.scale = 1 then [] else ascii "*" ++ decimal a.scale.toNat)

theorem scale_nonneg (a : RegisterAddress) : 0 ≤ a.scale := by
  have cases : a.scale = 1 ∨ a.scale = 2 ∨ a.scale = 4 ∨ a.scale = 8 := by
    simpa [isScale] using a.valid
  omega

theorem indexWord_indexText (a : RegisterAddress) :
    IndexWord a.indexText (a.index.map Virtual.id) a.scale.toNat := by
  unfold RegisterAddress.indexText
  cases indexed : a.index with
  | none =>
    rw [a.unscaled indexed]
    exact .none
  | some v =>
    by_cases one : a.scale = 1
    · simp only [one, if_true, List.append_nil]
      exact .plain (numeral_decimal v.id)
    · have valid : isScale a.scale.toNat = true := by
        rw [Int.toNat_of_nonneg (scale_nonneg a)]
        exact a.valid
      simp only [if_neg one, ← List.append_assoc]
      exact .scaled (numeral_decimal v.id) (numeral_decimal _) valid

theorem text_operand (a : RegisterAddress) :
    a.operand.text =
      ascii "[t" ++ decimal a.base.id ++ a.indexText ++ (offsetText a.offset ++ ascii "]") := by
  have natural : ¬ a.scale < 0 := Int.not_lt.mpr (scale_nonneg a)
  have scale : signedDecimal a.scale = decimal a.scale.toNat := by
    rw [signedDecimal, if_neg natural]
    congr 1
    omega
  have base : (91 :: (Operand.temp a.base.temp).text) = ascii "[t" ++ decimal a.base.id := by
    rw [text_virtual]
    rfl
  rw [RegisterAddress.operand, Operand.text, RegisterAddress.indexText]
  cases a.index with
  | none =>
    simp only [Option.elim_none, isAbsent, Bool.false_eq_true, if_false, if_true, ← base]
    simp only [List.append_assoc, List.nil_append]
    rfl
  | some v =>
    simp only [Option.elim_some, isAbsent, Bool.false_eq_true, if_false, ← base, text_virtual v,
      scale]
    simp only [List.append_assoc]
    rfl

theorem offsetWord_offsetText {offset : Int64} (inner : offset ≠ Int64.minValue) :
    OffsetWord (offsetText offset) offset.toInt := by
  have least := offset.le_toInt
  have most := offset.toInt_lt
  have strict : offset.toInt ≠ -2 ^ 63 := fun same => inner (Int64.toInt_inj.mp same)
  unfold offsetText
  split
  next positive =>
    rw [Int64.lt_iff_toInt_lt, Int64.toInt_zero] at positive
    have word := OffsetWord.plus (numeral_decimal offset.toInt.natAbs)
    rw [Int.natAbs_of_nonneg (by omega)] at word
    rw [signedDecimal, if_neg (by omega)]
    exact word
  next nonpositive =>
    split
    next negative =>
      rw [Int64.lt_iff_toInt_lt, Int64.toInt_zero] at negative
      have opposite : (-offset).toInt = -offset.toInt := by
        rw [Int64.toInt_neg, Int.bmod_eq_of_le (by omega) (by omega)]
      have word := OffsetWord.minus (numeral_decimal (-offset.toInt).natAbs)
      rw [Int.natAbs_of_nonneg (by omega), Int.neg_neg] at word
      rw [opposite, signedDecimal, if_neg (by omega)]
      exact word
    next nonnegative =>
      rw [Int64.lt_iff_toInt_lt, Int64.toInt_zero] at nonpositive nonnegative
      rw [show offset.toInt = 0 by omega]
      exact .none

/-- The text of an address is read as what it stands for, unless the offset is the least number. -/
theorem read?_text (a : RegisterAddress) :
    read? a.operand.text = if a.offset = Int64.minValue then none else some a.reading := by
  rw [text_operand]
  split
  next least =>
    rw [least, read?_offset (numeral_decimal _) (indexWord_indexText a)]
    · rfl
    · exact ⟨stops_cons rfl _, rfl, rfl⟩
  next inner =>
    have closes := Closes.mk (offsetWord_offsetText inner)
    rw [read?_offset (numeral_decimal _) (indexWord_indexText a) closes.apart,
      offset?_closes closes]
    simp [RegisterAddress.reading]

/-- The text of an address is a word, from which the registers, the scale and the offset are read
back, exactly if its offset is not the least number. The text with that offset is no word. -/
theorem text_word_iff (a : RegisterAddress) :
    (AddressWord a.operand.text a.reading ∧ read? a.operand.text = some a.reading ↔
        a.offset ≠ Int64.minValue) ∧
      (a.offset = Int64.minValue → ∀ r, ¬ AddressWord a.operand.text r) := by
  have read := read?_text a
  constructor
  · rw [← read?_eq_some_iff, and_self, read]
    split <;> simp_all
  · intro least r word
    rw [if_pos least, read?_eq_some_iff.mpr word] at read
    contradiction

/-- A word of the table at `t0`, by the number in `t1`. -/
def element (offset : Int64) : RegisterAddress :=
  ⟨0, ⟨0, 0⟩, some ⟨1, 1⟩, 4, offset, rfl, by simp⟩

theorem text_word_iff_element :
    (element (-8)).operand.text = ascii "[t0 + t1*4 - 8]" ∧
      read? (element (-8)).operand.text = some ⟨0, some 1, 4, -8⟩ ∧
      ∀ r, ¬ AddressWord (element Int64.minValue).operand.text r :=
  ⟨by decide, ((text_word_iff (element (-8))).1.mpr (by decide)).2,
    (text_word_iff (element Int64.minValue)).2 rfl⟩

/-- After the sign of the least offset comes a number with a sign of its own. -/
theorem text_least_offset :
    (element Int64.minValue).operand.text = ascii "[t0 + t1*4 - -9223372036854775808]" ∧
      ¬ (AddressWord (element Int64.minValue).operand.text (element Int64.minValue).reading ∧
        read? (element Int64.minValue).operand.text = some (element Int64.minValue).reading) := by
  refine ⟨by decide, fun claim => ?_⟩
  rw [read?_text] at claim
  exact absurd claim.2 (by simp [element])

end Codegen.Operand
