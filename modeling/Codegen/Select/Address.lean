import Codegen.Program.Basic

/-!
# Addresses in expressions

Recognizes sums that one memory operand can compute: a base, an index times one, two,
four or eight, and a constant offset.
-/

namespace Codegen.Select

structure Address where
  base : Node
  index : Node
  scale : Nat
  offset : Int64

def factor? : Node → Option Nat
  | .const c =>
    if c = 1 then some 1 else if c = 2 then some 2 else if c = 4 then some 4
    else if c = 8 then some 8 else none
  | _ => none

/-- A base plus the product `left * right`, one of which has to be a scale. -/
def product? (base left right : Node) : Option Address :=
  match factor? right with
  | some scale => some ⟨base, left, scale, 0⟩
  | none =>
    match factor? left with
    | some scale => some ⟨base, right, scale, 0⟩
    | none => none

/-- A sum with a product on one side. `plain` admits a sum of any two nodes. -/
def indexedSum? (plain : Bool) : Node → Option Address
  | .binary .add base (.binary .mul left right) => product? base left right
  | .binary .add (.binary .mul left right) base => product? base left right
  | .binary .add base index => if plain then some ⟨base, index, 1, 0⟩ else none
  | _ => none

/-- An indexed sum, to which a constant may have been added on either side. -/
def address? (plain : Bool) : Node → Option Address
  | .binary .add sum (.const offset) => (indexedSum? plain sum).map ({ · with offset })
  | .binary .add (.const offset) sum => (indexedSum? plain sum).map ({ · with offset })
  | x => indexedSum? plain x

theorem sizeOf_pos (x : Node) : 0 < sizeOf x := by
  cases x <;> simp +arith

theorem product?_size {base left right : Node} {a : Address}
    (h : product? base left right = some a) :
    sizeOf a.base ≤ sizeOf base ∧ sizeOf a.index < sizeOf left + sizeOf right := by
  unfold product? at h
  have := sizeOf_pos left
  have := sizeOf_pos right
  split at h
  · cases h; exact ⟨Nat.le_refl _, by simp only; omega⟩
  · split at h
    · cases h; exact ⟨Nat.le_refl _, by simp only; omega⟩
    · contradiction

theorem indexedSum?_size {plain : Bool} {x : Node} {a : Address}
    (h : indexedSum? plain x = some a) :
    sizeOf a.base < sizeOf x ∧ sizeOf a.index < sizeOf x := by
  unfold indexedSum? at h
  split at h
  · have := product?_size h
    simp only [Node.binary.sizeOf_spec]
    omega
  · have := product?_size h
    simp only [Node.binary.sizeOf_spec]
    omega
  · split at h
    · cases h
      simp only [Node.binary.sizeOf_spec]
      omega
    · contradiction
  · contradiction

/-- The parts of an address are smaller than the expression. -/
theorem address?_size {plain : Bool} {x : Node} {a : Address} (h : address? plain x = some a) :
    sizeOf a.base < sizeOf x ∧ sizeOf a.index < sizeOf x := by
  unfold address? at h
  split at h
  · obtain ⟨b, hb, rfl⟩ := Option.map_eq_some_iff.mp h
    have := indexedSum?_size hb
    simp only [Node.binary.sizeOf_spec]
    omega
  · obtain ⟨b, hb, rfl⟩ := Option.map_eq_some_iff.mp h
    have := indexedSum?_size hb
    simp only [Node.binary.sizeOf_spec]
    omega
  · exact indexedSum?_size h

end Codegen.Select
