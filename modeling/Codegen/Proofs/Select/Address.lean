import Codegen.Proofs.Semantics
import Codegen.Select.Address

/-! An address that is found in an expression computes the same number. -/
namespace Codegen.Select

variable {plain : Bool} {x base left right : Node} {a : Address}

def Address.sum (a : Address) (w : World) (m : Storage) : Int64 :=
  a.base.eval w m + a.index.eval w m * Int64.ofInt a.scale + a.offset

/-- An address and an expression of one value. What is an expression in it is so in both. -/
structure Address.Represents (a : Address) (x : Node) : Prop where
  sum : ∀ w m, a.sum w m = x.eval w m
  values : x.isValue = true → a.base.isValue = true ∧ a.index.isValue = true

theorem factor?_eval {scale : Nat} (found : factor? x = some scale) (w : World) (m : Storage) :
    x.eval w m = Int64.ofInt scale := by
  unfold factor? at found
  split at found
  next c =>
    have cases : (c = 1 ∧ scale = 1) ∨ (c = 2 ∧ scale = 2) ∨ (c = 4 ∧ scale = 4) ∨
        (c = 8 ∧ scale = 8) := by grind
    rcases cases with ⟨rfl, rfl⟩ | ⟨rfl, rfl⟩ | ⟨rfl, rfl⟩ | ⟨rfl, rfl⟩ <;> rfl
  next => contradiction

theorem product?_represents (found : product? base left right = some a) :
    a.Represents (.binary .add base (.binary .mul left right)) ∧ a.offset = 0 := by
  unfold product? at found
  split at found
  next scale factor =>
    cases found
    refine ⟨⟨fun w m => ?_, by simp_all [Node.isValue]⟩, rfl⟩
    simp [Address.sum, Node.eval, World.binary, factor?_eval factor]
  next =>
    split at found
    next scale factor =>
      cases found
      refine ⟨⟨fun w m => ?_, by simp_all [Node.isValue]⟩, rfl⟩
      simp [Address.sum, Node.eval, World.binary, factor?_eval factor, Int64.mul_comm]
    next => contradiction

theorem indexedSum?_represents (found : indexedSum? plain x = some a) :
    a.Represents x ∧ a.offset = 0 := by
  unfold indexedSum? at found
  split at found
  next => exact product?_represents found
  next =>
    obtain ⟨represents, offset⟩ := product?_represents found
    refine ⟨⟨fun w m => ?_, ?_⟩, offset⟩
    · rw [represents.sum]
      simp [Node.eval, World.binary, Int64.add_comm]
    · intro value
      refine represents.values ?_
      simp_all [Node.isValue]
  next =>
    split at found
    next =>
      cases found
      refine ⟨⟨fun w m => ?_, by simp [Node.isValue]⟩, rfl⟩
      simp [Address.sum, Node.eval, World.binary]
    next => contradiction
  next => contradiction

/-- A constant can be added to an address that has none. -/
theorem indexedSum?_offset (found : indexedSum? plain x = some a) (offset : Int64) :
    Address.Represents { a with offset } (.binary .add x (.const offset)) := by
  obtain ⟨represents, none⟩ := indexedSum?_represents found
  refine ⟨fun w m => ?_, fun value => represents.values (by simp_all [Node.isValue])⟩
  rw [Node.eval, ← represents.sum]
  simp [Address.sum, Node.eval, World.binary, none]

theorem address?_represents (found : address? plain x = some a) : a.Represents x := by
  unfold address? at found
  split at found
  next sum offset =>
    obtain ⟨inner, summed, rfl⟩ := Option.map_eq_some_iff.mp found
    exact indexedSum?_offset summed offset
  next offset sum _ =>
    obtain ⟨inner, summed, rfl⟩ := Option.map_eq_some_iff.mp found
    have represents := indexedSum?_offset summed offset
    refine ⟨fun w m => ?_, fun value => represents.values (by simp_all [Node.isValue])⟩
    rw [represents.sum]
    simp [Node.eval, World.binary, Int64.add_comm]
  next => exact (indexedSum?_represents found).1

end Codegen.Select
