import Codegen.Proofs.BitSet
import Mathlib

/-! The encoding of a set is read back from any place in a row of bytes. The numbers of an array
take from one byte to nine each, and none of them starts with the closing mark, so that the reader
stops where the encoding ends. Hence sets that are encoded alike have the same members. -/
namespace Codegen.Wire

/-! ### Reading -/

/-- The number that bytes stand for, the most significant first. -/
def bytesValue (bytes : Bytes) : Nat :=
  bytes.foldl (fun n b => n * 256 + b.toNat) 0

def width? : Nat → Option Nat
  | 24 => some 1
  | 25 => some 2
  | 26 => some 4
  | 27 => some 8
  | _ => none

/-- The code of the major type and the argument of the first head, and what comes after it. -/
def head? : Bytes → Option (Nat × Nat × Bytes)
  | [] => none
  | tag :: rest =>
    if tag.toNat % 32 < 24 then some (tag.toNat / 32, tag.toNat % 32, rest)
    else do
      let width ← width? (tag.toNat % 32)
      if width ≤ rest.length then
        some (tag.toNat / 32, bytesValue (rest.take width), rest.drop width)
      else none

theorem length_of_head? {bytes rest : Bytes} {major n : Nat}
    (found : head? bytes = some (major, n, rest)) : rest.length < bytes.length := by
  cases bytes with
  | nil => contradiction
  | cons tag others =>
    simp only [head?] at found
    split at found
    · cases found
      exact Nat.lt_succ_self _
    · obtain ⟨width, _, found⟩ := Option.bind_eq_some_iff.mp found
      obtain ⟨_, same⟩ := Option.ite_none_right_eq_some.mp found
      cases same
      simp only [List.length_drop, List.length_cons]
      omega

def naturals? (bytes : Bytes) : Option (List Nat × Bytes) :=
  match close.isPrefixOf? bytes with
  | some rest => some ([], rest)
  | none =>
    match _h : head? bytes with
    | some (0, n, rest) => (naturals? rest).map fun (ns, last) => (n :: ns, last)
    | _ => none
termination_by bytes.length
decreasing_by exact length_of_head? _h

def arrayAt? (start : Nat) (bytes : Bytes) : Option (List Nat × Nat) := do
  let items ← openArray.isPrefixOf? (bytes.drop start)
  let (ns, rest) ← naturals? items
  return (ns, bytes.length - rest.length)

section Reader

variable {n : Nat}

theorem length_bigEndian (width n : Nat) : (bigEndian width n).length = width := by
  induction width generalizing n with
  | zero => rfl
  | succ width ih => simp [bigEndian, ih]

theorem bytesValue_bigEndian (width n : Nat) :
    bytesValue (bigEndian width n) = n % 256 ^ width := by
  induction width generalizing n with
  | zero => simp [bigEndian, bytesValue, Nat.mod_one]
  | succ width ih =>
    have before := ih (n / 256)
    rw [bytesValue] at before
    have last : (n % 256).toUInt8.toNat = n % 256 := by
      rw [Nat.toUInt8_eq, UInt8.toNat_ofNat']
      omega
    rw [bigEndian, bytesValue, List.foldl_append, before, List.foldl_cons, List.foldl_nil, last,
      Nat.pow_succ', Nat.mod_mul, Nat.mul_comm, Nat.add_comm]

theorem code_lt (major : Major) : major.code < 6 := by
  cases major <;> decide

theorem toNat_tag (major : Major) {detail : Nat} (small : detail < 32) :
    (major.code * 32 + detail).toUInt8.toNat / 32 = major.code ∧
      (major.code * 32 + detail).toUInt8.toNat % 32 = detail := by
  have := code_lt major
  rw [Nat.toUInt8_eq, UInt8.toNat_ofNat']
  omega

/-- An argument after its head, in as many bytes as the head says. -/
theorem head?_wide (major : Major) {detail width : Nat} (small : detail < 32) (long : 24 ≤ detail)
    (known : width? detail = some width) (fits : n < 256 ^ width) (rest : Bytes) :
    head? ((major.code * 32 + detail).toUInt8 :: bigEndian width n ++ rest) =
      some (major.code, n, rest) := by
  obtain ⟨code, same⟩ := toNat_tag major small
  have length := length_bigEndian width n
  rw [List.cons_append, head?, code, same, if_neg (by omega), known, Option.bind_eq_bind,
    Option.bind_some, if_pos (by simp [length]), List.take_left' length, List.drop_left' length,
    bytesValue_bigEndian, Nat.mod_eq_of_lt fits]

theorem head?_append (major : Major) (fits : n < 0x10000000000000000) (rest : Bytes) :
    head? (head major n ++ rest) = some (major.code, n, rest) := by
  unfold head
  split
  next small =>
    have below : n < 32 := by omega
    obtain ⟨code, same⟩ := toNat_tag major below
    rw [List.singleton_append, head?, code, same, if_pos small]
  next =>
    split
    · exact head?_wide major (by decide) (by decide) rfl (by omega) rest
    split
    · exact head?_wide major (by decide) (by decide) rfl (by omega) rest
    split
    · exact head?_wide major (by decide) (by decide) rfl (by omega) rest
    · exact head?_wide major (by decide) (by decide) rfl (by omega) rest

/-- A natural number never starts with the closing mark. -/
theorem close_head (n : Nat) (rest : Bytes) : close.isPrefixOf? (head .int n ++ rest) = none := by
  have tag {detail : Nat} (small : detail < 32) (others : Bytes) :
      close.isPrefixOf? ((Major.int.code * 32 + detail).toUInt8 :: others) = none := by
    have other : ((0xFF : UInt8) == (Major.int.code * 32 + detail).toUInt8) = false := by
      refine beq_false_of_ne fun same => ?_
      have := congrArg UInt8.toNat same
      rw [Nat.toUInt8_eq, UInt8.toNat_ofNat'] at this
      simp only [Major.code] at this
      change 255 = _ at this
      omega
    simp only [close, List.isPrefixOf?, other]
    rfl
  unfold head
  split
  · exact tag (by omega) _
  split
  · exact tag (by decide) _
  split
  · exact tag (by decide) _
  split
  · exact tag (by decide) _
  · exact tag (by decide) _

theorem int_natCast (n : Nat) : int n = head .int n := by
  rw [int, if_neg (by omega), Int.natAbs_natCast]

theorem naturals?_of_head? {bytes rest : Bytes} (opens : close.isPrefixOf? bytes = none)
    (found : head? bytes = some (0, n, rest)) :
    naturals? bytes = (naturals? rest).map fun (ns, last) => (n :: ns, last) := by
  rw [naturals?]
  simp only [opens]
  split
  next found' =>
    cases found.symm.trans found'
    rfl
  next other => exact absurd found (other n rest)

theorem naturals?_append {ns : List Nat} (fits : ∀ n ∈ ns, n < 0x10000000000000000) (rest : Bytes) :
    naturals? ((ns.flatMap fun n => int (n : Nat)) ++ close ++ rest) = some (ns, rest) := by
  induction ns with
  | nil =>
    rw [naturals?, List.flatMap_nil, List.nil_append,
      List.isPrefixOf?_eq_some_iff_append_eq.mpr rfl]
  | cons n ns ih =>
    obtain ⟨first, others⟩ := List.forall_mem_cons.mp fits
    rw [List.flatMap_cons, int_natCast, List.append_assoc, List.append_assoc,
      naturals?_of_head? (close_head n _) (head?_append .int first _), ← List.append_assoc,
      ih others, Option.map_some]

def array (ns : List Nat) : Bytes :=
  openArray ++ ((ns.flatMap fun n => int (n : Nat)) ++ close)

/-- An array is read from the place where it starts, up to its end. -/
theorem arrayAt?_append {ns : List Nat} (fits : ∀ n ∈ ns, n < 0x10000000000000000)
    (buffer rest : Bytes) :
    arrayAt? buffer.length (buffer ++ array ns ++ rest) =
      some (ns, (buffer ++ array ns).length) := by
  have opened : openArray.isPrefixOf? (array ns ++ rest) =
      some ((ns.flatMap fun n => int (n : Nat)) ++ close ++ rest) := by
    rw [List.isPrefixOf?_eq_some_iff_append_eq, array, ← List.append_assoc]
  have length : (buffer ++ array ns ++ rest).length - rest.length =
      (buffer ++ array ns).length := by
    rw [List.length_append, Nat.add_sub_cancel]
  rw [arrayAt?, List.append_assoc buffer, List.drop_left, opened, Option.bind_eq_bind,
    Option.bind_some, naturals?_append fits rest, ← List.append_assoc buffer]
  exact congrArg (fun n => some (ns, n)) length

end Reader

end Codegen.Wire

namespace Codegen.BitSet

/-! ### Sets -/

/-- The loop over the members appends one encoding after the other. -/
theorem foldl_append (ns : List Nat) (buffer : Bytes) :
    ns.foldl (fun buffer i => buffer ++ Wire.int (i : Nat)) buffer =
      buffer ++ ns.flatMap fun n => Wire.int (n : Nat) := by
  induction ns generalizing buffer with
  | nil => simp
  | cons n ns ih => rw [List.foldl_cons, ih, List.flatMap_cons, List.append_assoc]

theorem appendWire_eq (buffer : Bytes) (s : BitSet) : s.appendWire buffer = buffer ++ s.wire := by
  unfold wire appendWire
  split
  · simp only [foldl_append, List.append_assoc, List.nil_append]
  · rw [List.nil_append]

theorem wire_made {s : BitSet} (made : s.isMade = true) : s.wire = Wire.array s.toList := by
  rw [wire, appendWire, if_pos made, foldl_append, Wire.array, List.nil_append, List.append_assoc]

theorem wire_unmade {s : BitSet} (unmade : s.isMade = false) : s.wire = Wire.absent := by
  rw [wire, appendWire, if_neg (by simp [unmade]), List.nil_append]

theorem mem_toList {s : BitSet} {n : Nat} : n ∈ s.toList ↔ s.contains n = true := by
  rw [toList_eq, mem_membersFrom, Nat.sub_zero, ← contains_eq]
  simp

/-- Sets have the same members if the lists of them are the same. -/
theorem toList_eq_iff {s t : BitSet} : s.toList = t.toList ↔ s.sameMembers t = true := by
  rw [sameMembers_iff]
  constructor
  · intro same n
    rw [Bool.eq_iff_iff, ← mem_toList, ← mem_toList, same]
  · intro same
    have ascending (u : BitSet) : u.toList.Pairwise (· < ·) :=
      toList_eq u ▸ pairwise_membersFrom 0 u.words
    refine (ascending s).eq_of_mem_iff (ascending t) fun n => ?_
    rw [mem_toList, mem_toList, same]

namespace Edit

def positions : Edit → List Nat
  | collect _ positions => positions
  | insert _ position | erase _ position => [position]
  | _ => []

def Fits (edit : Edit) : Prop :=
  ∀ n ∈ edit.positions, n < 0x8000000000000000

/-- An edit puts no number into a set but its positions and what there was. -/
theorem mem_apply {sets : Nat → Finset Nat} {edit : Edit} {name n : Nat}
    (member : n ∈ edit.apply sets name) : n ∈ edit.positions ∨ ∃ other, n ∈ sets other := by
  unfold apply at member
  by_cases own : name = edit.target
  · subst own
    rw [Function.update_self] at member
    cases edit with
    | make => simp [members] at member
    | collect target positions => exact .inl (List.mem_toFinset.mp member)
    | insert target position =>
      rcases Finset.mem_insert.mp member with rfl | old
      · exact .inl (List.mem_singleton_self _)
      · exact .inr ⟨_, old⟩
    | erase target position => exact .inr ⟨_, Finset.mem_of_mem_erase member⟩
    | union target other =>
      rcases Finset.mem_union.mp member with left | right
      · exact .inr ⟨_, left⟩
      · exact .inr ⟨_, right⟩
    | diff target other => exact .inr ⟨_, (Finset.mem_sdiff.mp member).1⟩
  · rw [Function.update_of_ne own] at member
    exact .inr ⟨_, member⟩

/-- A run has no number in any set that is not a position of one of its edits. -/
theorem mem_foldl_apply {edits : List Edit} {sets : Nat → Finset Nat} {name n : Nat}
    (member : n ∈ edits.foldl apply sets name) :
    (∃ edit ∈ edits, n ∈ edit.positions) ∨ ∃ other, n ∈ sets other := by
  induction edits generalizing sets with
  | nil => exact .inr ⟨name, member⟩
  | cons edit edits ih =>
    rcases ih member with ⟨later, inside, placed⟩ | ⟨other, before⟩
    · exact .inl ⟨later, List.mem_cons_of_mem _ inside, placed⟩
    · rcases mem_apply before with placed | old
      · exact .inl ⟨edit, List.mem_cons_self .., placed⟩
      · exact .inr old

end Edit

/-- A set that edits with machine integers for positions have made. -/
def Built (s : BitSet) : Prop :=
  ∃ edits sets name, (∀ edit ∈ edits, Edit.Fits edit) ∧ Edit.runAll? edits = some sets ∧
    sets name = s

theorem Built.lt {s : BitSet} (built : Built s) : ∀ n ∈ s.toList, n < 0x10000000000000000 := by
  obtain ⟨edits, sets, name, fits, ran, rfl⟩ := built
  intro n member
  have empty : Edit.Holds (fun _ => unmade) fun _ => ∅ := by
    intro name n
    simp [contains_of_zeros, unmade]
  rw [mem_toList, empty.foldlM ran name n, decide_eq_true_eq] at member
  rcases Edit.mem_foldl_apply member with ⟨edit, inside, placed⟩ | ⟨other, none⟩
  · have := fits edit inside n placed
    omega
  · simp at none

/-- The encoding of a set is read back behind any buffer and before any bytes, up to its end. So
sets are encoded alike exactly if they have the same members, and a set that was not made is encoded
as none of those that were. -/
theorem wire_determines {s : BitSet} (built : Built s) (made : s.isMade = true) :
    (∀ buffer rest, Wire.arrayAt? buffer.length (s.appendWire buffer ++ rest) =
      some (s.toList, (s.appendWire buffer).length)) ∧
    (∀ t, Built t → t.isMade = true → (s.wire = t.wire ↔ s.sameMembers t = true)) ∧
    ∀ t : BitSet, t.isMade = false → s.wire ≠ t.wire := by
  have read {u : BitSet} (built : Built u) (made : u.isMade = true) (buffer rest : Bytes) :
      Wire.arrayAt? buffer.length (u.appendWire buffer ++ rest) =
        some (u.toList, (u.appendWire buffer).length) := by
    rw [appendWire_eq, wire_made made]
    exact Wire.arrayAt?_append built.lt buffer rest
  refine ⟨read built made, fun t other otherMade => ?_, fun t unmade same => ?_⟩
  · rw [← toList_eq_iff]
    constructor
    · intro same
      have left := read built made [] []
      have right := read other otherMade [] []
      rw [← wire, same] at left
      rw [← wire] at right
      exact congrArg Prod.fst (Option.some.inj (left.symm.trans right))
    · intro same
      rw [wire_made made, wire_made otherMade, same]
  · rw [wire_made made, wire_unmade unmade] at same
    exact absurd (List.cons.inj same).1 (by decide)

/-- Two sets with the same members and other words, and one that was not made. -/
def scattered : List Edit :=
  [.collect 0 [300, 23, 24], .make 1 500, .insert 1 24, .union 1 0, .erase 2 24]

theorem wire_determines_scattered :
    ∃ s t u : BitSet, Built s ∧ Built t ∧ s.words.length ≠ t.words.length ∧
      Wire.arrayAt? 1 (s.appendWire [0xFF] ++ [0]) = some ([23, 24, 300], 9) ∧
      s.wire = t.wire ∧ u.isMade = false ∧ s.wire ≠ u.wire := by
  have built (name : Nat) : Built (((Edit.runAll? scattered).get rfl) name) := by
    refine ⟨scattered, _, name, ?_, (Option.some_get rfl).symm, rfl⟩
    simp [scattered, Edit.Fits, Edit.positions]
  have determined := wire_determines (built 0) rfl
  refine ⟨_, _, ((Edit.runAll? scattered).get rfl) 2, built 0, built 1, by decide, ?_, ?_, rfl, ?_⟩
  · exact (determined.1 [0xFF] [0]).trans (by decide +kernel)
  · exact (determined.2.1 _ (built 1) rfl).mpr (by decide +kernel)
  · exact determined.2.2 _ rfl

end Codegen.BitSet
