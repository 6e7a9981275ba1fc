import Codegen.Select.Func
import Mathlib

/-! Which nodes code can be generated for, and what their code calls, told from the nodes alone.
A sum that is computed as one address has its base and index for parts. -/
namespace Codegen

structure Site where
  callee : Option Symbol
  arity : Nat
  /-- Whether the result is used. -/
  used : Bool
  deriving DecidableEq, Repr

def Instr.site? : Instr → Option Site
  | .call callee args result => some ⟨callee, args.length, !result.isAbsent⟩
  | _ => none

inductive Kind
  | nothing | place | number
  deriving DecidableEq, Repr

def BinaryOp.isKnown : BinaryOp → Bool
  | .unknown _ => false
  | _ => true

def UnaryOp.isKnown : UnaryOp → Bool
  | .unknown _ => false
  | _ => true

namespace Node

def kind : Node → Kind
  | .missing | .assign _ _ | .label _ | .jump _ | .branch _ _ _ | .ret _ => .nothing
  | .addr _ => .place
  | _ => .number

def isMissing : Node → Bool
  | .missing => true
  | _ => false

/-- The parts of a node in the order of their code. -/
def children : Node → List Node
  | .mem x | .unary _ x | .branch x _ _ => [x]
  | .binary _ left right => [left, right]
  | .assign target source => [target, source]
  | .call _ args => args
  | .ret .missing => []
  | .ret x => [x]
  | _ => []

theorem children_ret {x : Node} (present : x ≠ .missing) : (Node.ret x).children = [x] := by
  cases x <;> first | rfl | contradiction

theorem sizeOf_child {x y : Node} (child : y ∈ x.children) : sizeOf y < sizeOf x := by
  cases x with
  | call callee args =>
    have inside := List.sizeOf_lt_of_mem (show y ∈ args from child)
    simp only [call.sizeOf_spec]
    omega
  | ret x => cases x <;> simp_all [children]
  | binary op left right | assign left right =>
    rcases List.mem_pair.mp child with rfl | rfl <;> simp +arith
  | mem x | unary op x | branch x ifTrue ifFalse =>
    obtain rfl := List.mem_singleton.mp child
    simp +arith
  | _ => contradiction

/-- The operand that takes the result of a binary operator: the left one, unless that is a
number which can stand on the right. -/
def accumulator (op : BinaryOp) (left right : Node) : Node :=
  match Select.immediate op left right with
  | .left _ => right
  | _ => left

def assignable : Node → Bool
  | .var _ | .addr _ => true
  | .const _ | .text _ => false
  | x => x.kind != .nothing

/-- A node has all that it needs, its parts apart. -/
def fits : Node → Bool
  | .missing => false
  | .text symbol | .var symbol | .addr symbol => symbol.isSome
  | .mem (.addr _) => false
  | .mem x => x.kind != .nothing
  | .binary op left right => op.isKnown && (accumulator op left right).kind == .number
  | .unary op x => op.isKnown && x.kind != .nothing
  | .call callee _ => callee.isSome
  | .assign target _ => target.assignable
  | _ => true

def site (used : Bool) : Node → List Site
  | .call callee args => [⟨callee, args.length, used⟩]
  | _ => []

end Node

namespace Select

/-- The sum in a node that is computed as one address. Only where the value of the node is
used, sums other than those that memory is read at are looked for. -/
def fusion? (addressing used : Bool) : Node → Option (Node × Address)
  | .mem x => (selected? addressing true x).map (x, ·)
  | x => if used then (selected? addressing false x).map (x, ·) else none

section Sums

variable {base index left right x : Node} {a : Address}

inductive Scaled (index : Node) : Node → Prop
  | right (c : Int64) : Scaled index (.binary .mul index (.const c))
  | left (c : Int64) : Scaled index (.binary .mul (.const c) index)

inductive Indexed (base index : Node) : Node → Prop
  | after {x : Node} : Scaled index x → Indexed base index (.binary .add base x)
  | before {x : Node} : Scaled index x → Indexed base index (.binary .add x base)
  | plain : Indexed base index (.binary .add base index)

inductive Summed (base index : Node) : Node → Prop
  | alone {x : Node} : Indexed base index x → Summed base index x
  | right {x : Node} (c : Int64) :
    Indexed base index x → Summed base index (.binary .add x (.const c))
  | left {x : Node} (c : Int64) :
    Indexed base index x → Summed base index (.binary .add (.const c) x)

section Split

variable {β : Type} {g : Node → List β}
  (binary : ∀ op left right, g (.binary op left right) = g left ++ g right)
  (const : ∀ c, g (.const c) = [])

include binary const

theorem Scaled.split (scaled : Scaled index x) : g x = g index := by
  cases scaled <;> simp [binary, const]

theorem Indexed.split (indexed : Indexed base index x) :
    g x = g base ++ g index ∨ g x = g index ++ g base := by
  cases indexed with
  | after scaled => exact .inl (by rw [binary, scaled.split binary const])
  | before scaled => exact .inr (by rw [binary, scaled.split binary const])
  | plain => exact .inl (binary ..)

/-- What is found in a sum from left to right is found in its base and its index, one after the
other. -/
theorem Summed.split (summed : Summed base index x) :
    g x = g base ++ g index ∨ g x = g index ++ g base := by
  cases summed with
  | alone indexed => exact indexed.split binary const
  | right c indexed | left c indexed =>
    simpa [binary, const] using indexed.split binary const

end Split

theorem product?_scaled (found : product? base left right = some a) :
    a.base = base ∧ Scaled a.index (.binary .mul left right) := by
  have constant {x : Node} {n : Nat} (found : factor? x = some n) : ∃ c, x = .const c := by
    unfold factor? at found
    split at found
    · exact ⟨_, rfl⟩
    · contradiction
  unfold product? at found
  split at found
  next factor =>
    obtain ⟨c, rfl⟩ := constant factor
    cases found
    exact ⟨rfl, .right c⟩
  next =>
    split at found
    next factor =>
      obtain ⟨c, rfl⟩ := constant factor
      cases found
      exact ⟨rfl, .left c⟩
    next => contradiction

theorem indexedSum?_indexed {plain : Bool} (found : indexedSum? plain x = some a) :
    Indexed a.base a.index x := by
  unfold indexedSum? at found
  split at found
  next =>
    obtain ⟨rfl, scaled⟩ := product?_scaled found
    exact .after scaled
  next =>
    obtain ⟨rfl, scaled⟩ := product?_scaled found
    exact .before scaled
  next =>
    split at found
    · cases found
      exact .plain
    · contradiction
  next => contradiction

theorem selected?_summed {addressing plain : Bool} (found : selected? addressing plain x = some a) :
    Summed a.base a.index x := by
  unfold selected? address? at found
  split at found
  · split at found
    next c =>
      obtain ⟨b, sum, rfl⟩ := Option.map_eq_some_iff.mp found
      have indexed := indexedSum?_indexed sum
      exact .right c indexed
    next c _ _ =>
      obtain ⟨b, sum, rfl⟩ := Option.map_eq_some_iff.mp found
      have indexed := indexedSum?_indexed sum
      exact .left c indexed
    next => exact .alone (indexedSum?_indexed found)
  · contradiction

end Sums

theorem fusion?_some {addressing used : Bool} {x y : Node} {a : Address}
    (found : fusion? addressing used x = some (y, a)) :
    (x = .mem y ∧ selected? addressing true y = some a) ∨
      (x = y ∧ used = true ∧ selected? addressing false y = some a) := by
  unfold fusion? at found
  split at found
  next x =>
    obtain ⟨a, selected, same⟩ := Option.map_eq_some_iff.mp found
    cases same
    exact .inl ⟨rfl, selected⟩
  next x _ =>
    split at found
    next isUsed =>
      obtain ⟨a, selected, same⟩ := Option.map_eq_some_iff.mp found
      cases same
      exact .inr ⟨rfl, isUsed, selected⟩
    next => contradiction

theorem fusion?_size {addressing used : Bool} {x y : Node} {a : Address}
    (found : fusion? addressing used x = some (y, a)) :
    sizeOf a.base < sizeOf x ∧ sizeOf a.index < sizeOf x := by
  rcases fusion?_some found with ⟨rfl, selected⟩ | ⟨rfl, _, selected⟩
  · have size := selected?_size selected
    simp only [Node.mem.sizeOf_spec]
    omega
  · exact selected?_size selected

theorem fusion?_off (used : Bool) (x : Node) : fusion? false used x = none := by
  cases x <;> simp [fusion?, selected?]

theorem fusion?_leaf {x : Node} (addressing used : Bool) (alone : x.children = []) :
    fusion? addressing used x = none := by
  cases x with
  | mem _ | binary _ _ _ => contradiction
  | _ => cases addressing <;> cases used <;> rfl

/-- Induction over the parts that code is generated for one after the other. -/
theorem fusion_induction (addressing : Bool) {motive : Bool → Node → Prop}
    (fused : ∀ used x y a, fusion? addressing used x = some (y, a) →
      motive true a.base → motive true a.index → motive used x)
    (plain : ∀ used x, fusion? addressing used x = none →
      (∀ y ∈ x.children, motive true y) → motive used x)
    (used : Bool) (x : Node) : motive used x := by
  cases found : fusion? addressing used x with
  | some sum =>
    obtain ⟨y, a⟩ := sum
    have small := fusion?_size found
    exact fused used x y a found (fusion_induction addressing fused plain true a.base)
      (fusion_induction addressing fused plain true a.index)
  | none =>
    exact plain used x found fun y child => by
      have small := Node.sizeOf_child child
      exact fusion_induction addressing fused plain true y
termination_by sizeOf x

/-- What is found for a node, from what is found for its parts. -/
def fold {β : Type} (addressing : Bool) (fused : Node → Address → β → β → β)
    (plain : Bool → Node → List β → β) (used : Bool) (x : Node) : β :=
  match h : fusion? addressing used x with
  | some (y, a) =>
    have := fusion?_size h
    fused y a (fold addressing fused plain true a.base) (fold addressing fused plain true a.index)
  | none => plain used x (x.children.attach.map fun y => fold addressing fused plain true y.1)
termination_by sizeOf x
decreasing_by
  · exact this.1
  · exact this.2
  · exact Node.sizeOf_child y.2

/-- Whether code can be generated for a node. An index may be missing. -/
def accepted (addressing used : Bool) (x : Node) : Bool :=
  fold addressing
    (fun _ a base index => base && a.base.kind != .nothing && (a.index.isMissing || index))
    (fun _ x parts => x.fits && parts.all id) used x

def sites (addressing used : Bool) (x : Node) : List Site :=
  fold addressing (fun _ _ base index => base ++ index)
    (fun used x parts => parts.flatten ++ x.site used) used x

def addresses (used : Bool) (x : Node) : List (Node × Address) :=
  fold true (fun y a base index => (y, a) :: (base ++ index)) (fun _ _ parts => parts.flatten)
    used x

section Equations

variable {addressing used : Bool} {x y : Node} {a : Address}

section Fold

variable {β : Type} {fused : Node → Address → β → β → β} {plain : Bool → Node → List β → β}

theorem fold_fused (found : fusion? addressing used x = some (y, a)) :
    fold addressing fused plain used x = fused y a (fold addressing fused plain true a.base)
      (fold addressing fused plain true a.index) := by
  rw [fold]
  split
  next found' =>
    cases found.symm.trans found'
    rfl
  next absent => cases found.symm.trans absent

theorem fold_plain (absent : fusion? addressing used x = none) :
    fold addressing fused plain used x =
      plain used x (x.children.map (fold addressing fused plain true)) := by
  rw [fold]
  split
  next found => cases absent.symm.trans found
  next => rw [List.attach_map_val]

end Fold

theorem accepted_fused (found : fusion? addressing used x = some (y, a)) :
    accepted addressing used x = true ↔ accepted addressing true a.base = true ∧
      a.base.kind ≠ .nothing ∧
      (a.index.isMissing = true ∨ accepted addressing true a.index = true) := by
  rw [accepted, fold_fused found]
  simp [accepted, and_assoc]

theorem accepted_plain (absent : fusion? addressing used x = none) :
    accepted addressing used x = true ↔
      x.fits = true ∧ ∀ y ∈ x.children, accepted addressing true y = true := by
  rw [accepted, fold_plain absent]
  simp [accepted]

theorem sites_fused (found : fusion? addressing used x = some (y, a)) :
    sites addressing used x = sites addressing true a.base ++ sites addressing true a.index :=
  fold_fused found

theorem sites_plain (absent : fusion? addressing used x = none) :
    sites addressing used x = x.children.flatMap (sites addressing true) ++ x.site used :=
  fold_plain absent

theorem addresses_fused (found : fusion? true used x = some (y, a)) :
    addresses used x = (y, a) :: (addresses true a.base ++ addresses true a.index) :=
  fold_fused found

theorem addresses_plain (absent : fusion? true used x = none) :
    addresses used x = x.children.flatMap (addresses true) :=
  fold_plain absent

theorem accepted_leaf (alone : x.children = []) :
    accepted addressing used x = true ↔ x.fits = true := by
  rw [accepted_plain (fusion?_leaf _ _ alone), alone]
  simp

theorem sites_leaf (alone : x.children = []) : sites addressing used x = x.site used := by
  rw [sites_plain (fusion?_leaf _ _ alone), alone]
  rfl

end Equations

end Select

end Codegen
