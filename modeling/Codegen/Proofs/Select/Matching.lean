import Codegen.Proofs.Select.Fusion

/-! What is found as an address is the whole of the expression. Every expression that is matched is
put together of the base, the index and the constants of its address in one of a few forms, and a
form says where each of them stands. So no part is lost, used twice or taken for another one, and
the address has the value of the expression. -/
namespace Codegen

inductive Side
  | left | right
  deriving DecidableEq, Repr

namespace Side

def other : Side → Side
  | left => right
  | right => left

def number : Side → Nat
  | left => 0
  | right => 1

/-- An operator with `here` on the given side and `there` on the other one. -/
def join (side : Side) (op : BinaryOp) (here there : Node) : Node :=
  match side with
  | left => .binary op here there
  | right => .binary op there here

end Side

namespace Node

/-- The subtree at a position, which gives the number of a child for each step down. -/
def at? (x : Node) : List Nat → Option Node
  | [] => some x
  | i :: p => x.children[i]?.bind (·.at? p)

/-- The value of an expression over 64 bit words. Apart from constants, sums and products, every
subtree has the value that is given for its position. -/
def worth : (List Nat → Int64) → Node → Int64
  | _, .const c => c
  | given, .binary .add left right =>
    left.worth (fun p => given (0 :: p)) + right.worth (fun p => given (1 :: p))
  | given, .binary .mul left right =>
    left.worth (fun p => given (0 :: p)) * right.worth (fun p => given (1 :: p))
  | given, _ => given []

section Join

variable {op : BinaryOp} {here there y : Node} {p : List Nat}

@[simp] theorem at?_nil (x : Node) : x.at? [] = some x := rfl

@[simp] theorem at?_join_here (side : Side) :
    (side.join op here there).at? (side.number :: p) = here.at? p := by
  cases side <;> rfl

@[simp] theorem at?_join_there (side : Side) :
    (side.join op here there).at? (side.other.number :: p) = there.at? p := by
  cases side <;> rfl

/-- A subtree without parts stands in one of the operands. -/
theorem leaf_join {side : Side} (found : (side.join op here there).at? p = some y)
    (leaf : y.children = []) :
    (∃ q, p = side.number :: q ∧ here.at? q = some y) ∨
      ∃ q, p = side.other.number :: q ∧ there.at? q = some y := by
  rcases p with _ | ⟨_ | _ | i, q⟩
  · obtain rfl := Option.some.inj found
    cases side <;> contradiction
  · cases side with
    | left => exact .inl ⟨q, rfl, found⟩
    | right => exact .inr ⟨q, rfl, found⟩
  · cases side with
    | left => exact .inr ⟨q, rfl, found⟩
    | right => exact .inl ⟨q, rfl, found⟩
  · cases side <;> simp [at?, Side.join, children] at found

theorem worth_add (side : Side) (given : List Nat → Int64) :
    (side.join .add here there).worth given =
      here.worth (fun p => given (side.number :: p)) +
        there.worth (fun p => given (side.other.number :: p)) := by
  cases side with
  | left => rfl
  | right => exact Int64.add_comm ..

theorem worth_mul (side : Side) (given : List Nat → Int64) :
    (side.join .mul here there).worth given =
      here.worth (fun p => given (side.number :: p)) *
        there.worth (fun p => given (side.other.number :: p)) := by
  cases side with
  | left => rfl
  | right => exact Int64.mul_comm ..

end Join

end Node

namespace Select

/-- How an expression is written that is the sum of a base, an index and perhaps an offset. -/
structure Form where
  /-- The side of the constant that is added to all the rest. -/
  offset : Option Side
  base : Side
  /-- The side of the constant that the index is multiplied by. -/
  factor : Option Side
  deriving DecidableEq, Repr

namespace Form

def product (f : Form) (index : Node) (scale : Int64) : Node :=
  match f.factor with
  | none => index
  | some side => side.join .mul (.const scale) index

def sum (f : Form) (base index : Node) (scale : Int64) : Node :=
  f.base.join .add base (f.product index scale)

def whole (f : Form) (base index : Node) (scale offset : Int64) : Node :=
  match f.offset with
  | none => f.sum base index scale
  | some side => side.join .add (.const offset) (f.sum base index scale)

def sumAt (f : Form) : List Nat :=
  f.offset.toList.map fun side => side.other.number

def baseAt (f : Form) : List Nat :=
  f.sumAt ++ [f.base.number]

def productAt (f : Form) : List Nat :=
  f.sumAt ++ [f.base.other.number]

def indexAt (f : Form) : List Nat :=
  f.productAt ++ f.factor.toList.map fun side => side.other.number

def factorAt (f : Form) : Option (List Nat) :=
  f.factor.map fun side => f.productAt ++ [side.number]

def offsetAt (f : Form) : Option (List Nat) :=
  f.offset.map fun side => [side.number]

def places (f : Form) : List (List Nat) :=
  f.baseAt :: f.indexAt :: (f.factorAt.toList ++ f.offsetAt.toList)

/-- No part of an address contains another one. -/
theorem places_apart (f : Form) : f.places.Pairwise fun p q => ¬ p <+: q ∧ ¬ q <+: p := by
  obtain ⟨offset, base, factor⟩ := f
  rcases offset with _ | _ | _ <;> rcases base with _ | _ <;> rcases factor with _ | _ | _ <;>
    decide

section Whole

variable (f : Form) (base index : Node) (scale offset : Int64)

theorem at?_sum (p : List Nat) :
    (f.whole base index scale offset).at? (f.sumAt ++ p) = (f.sum base index scale).at? p := by
  obtain ⟨offset, base, factor⟩ := f
  cases offset <;> simp [whole, sumAt, sum, product]

theorem at?_base : (f.whole base index scale offset).at? f.baseAt = some base := by
  rw [baseAt, at?_sum, sum, Node.at?_join_here, Node.at?_nil]

theorem at?_product (p : List Nat) : (f.whole base index scale offset).at? (f.productAt ++ p) =
    (f.product index scale).at? p := by
  rw [productAt, List.append_assoc, at?_sum, sum, List.singleton_append, Node.at?_join_there]

theorem at?_index : (f.whole base index scale offset).at? f.indexAt = some index := by
  rw [indexAt, at?_product, product]
  cases f.factor <;> simp

theorem at?_factor {p : List Nat} (placed : f.factorAt = some p) :
    (f.whole base index scale offset).at? p = some (.const scale) := by
  obtain ⟨side, factor, rfl⟩ := Option.map_eq_some_iff.mp placed
  rw [at?_product, product, factor]
  simp

theorem at?_offset {p : List Nat} (placed : f.offsetAt = some p) :
    (f.whole base index scale offset).at? p = some (.const offset) := by
  obtain ⟨side, added, rfl⟩ := Option.map_eq_some_iff.mp placed
  simp [whole, added]

/-- Every subtree of the sum without parts belongs to the base, the index or the factor. -/
theorem leaf_sum {p : List Nat} {y : Node} (found : (f.sum base index scale).at? p = some y)
    (leaf : y.children = []) : ∃ q ∈ f.places, q <+: f.sumAt ++ p := by
  rcases Node.leaf_join found leaf with ⟨q, rfl, -⟩ | ⟨q, rfl, inside⟩
  · exact ⟨f.baseAt, by simp [places], by simp [baseAt]⟩
  have position : f.sumAt ++ f.base.other.number :: q = f.productAt ++ q := by simp [productAt]
  rw [position]
  cases multiplied : f.factor with
  | none => exact ⟨f.indexAt, by simp [places], by simp [indexAt, multiplied]⟩
  | some side =>
    simp only [product, multiplied] at inside
    rcases Node.leaf_join inside leaf with ⟨r, rfl, -⟩ | ⟨r, rfl, -⟩
    · refine ⟨f.productAt ++ [side.number], by simp [places, factorAt, multiplied], ?_⟩
      simp
    · exact ⟨f.indexAt, by simp [places], by simp [indexAt, multiplied]⟩

theorem leaf_whole {p : List Nat} {y : Node}
    (found : (f.whole base index scale offset).at? p = some y) (leaf : y.children = []) :
    ∃ q ∈ f.places, q <+: p := by
  cases added : f.offset with
  | none =>
    simp only [whole, added] at found
    simpa [sumAt, added] using f.leaf_sum base index scale found leaf
  | some side =>
    simp only [whole, added] at found
    rcases Node.leaf_join found leaf with ⟨q, rfl, -⟩ | ⟨q, rfl, inside⟩
    · exact ⟨[side.number], by simp [places, offsetAt, added], by simp⟩
    · simpa [sumAt, added] using f.leaf_sum base index scale inside leaf

variable {f scale offset}

theorem worth_product (unscaled : f.factor = none → scale = 1) (given : List Nat → Int64) :
    (f.product index scale).worth given = index.worth
      (fun p => given ((f.factor.toList.map fun side => side.other.number) ++ p)) * scale := by
  cases multiplied : f.factor with
  | none => simp [product, multiplied, unscaled multiplied]
  | some side =>
    simp only [product, multiplied, Node.worth_mul, Int64.mul_comm]
    rfl

/-- The value of an expression is the one that its address stands for. -/
theorem worth_whole (unscaled : f.factor = none → scale = 1)
    (unshifted : f.offset = none → offset = 0) (given : List Nat → Int64) :
    (f.whole base index scale offset).worth given =
      base.worth (fun p => given (f.baseAt ++ p)) +
        index.worth (fun p => given (f.indexAt ++ p)) * scale + offset := by
  have summed (given : List Nat → Int64) : (f.sum base index scale).worth given =
      base.worth (fun p => given ([f.base.number] ++ p)) + index.worth (fun p => given
        ([f.base.other.number] ++ (f.factor.toList.map fun side => side.other.number) ++ p)) *
          scale := by
    rw [sum, Node.worth_add, worth_product index unscaled]
    rfl
  cases added : f.offset with
  | none =>
    simp only [whole, added, summed, unshifted added]
    simp [baseAt, indexAt, productAt, sumAt, added]
  | some side =>
    simp only [whole, added, Node.worth_add, summed]
    simp [Node.worth, baseAt, indexAt, productAt, sumAt, added, Int64.add_comm]

end Whole

end Form

structure Form.Writes (f : Form) (a : Address) (x : Node) : Prop where
  written : x = f.whole a.base a.index (Int64.ofNat a.scale) a.offset
  scale : a.scale ∈ [1, 2, 4, 8]
  unscaled : f.factor = none → a.scale = 1
  unshifted : f.offset = none → a.offset = 0

section Matching

variable {x base left right : Node} {a : Address} {plain : Bool}

theorem factor?_const {scale : Nat} (found : factor? x = some scale) :
    x = .const (Int64.ofNat scale) ∧ scale ∈ [1, 2, 4, 8] := by
  unfold factor? at found
  split at found
  next c =>
    have cases : (c = 1 ∧ scale = 1) ∨ (c = 2 ∧ scale = 2) ∨ (c = 4 ∧ scale = 4) ∨
        (c = 8 ∧ scale = 8) := by grind
    rcases cases with ⟨rfl, rfl⟩ | ⟨rfl, rfl⟩ | ⟨rfl, rfl⟩ | ⟨rfl, rfl⟩ <;> exact ⟨rfl, by simp⟩
  next => contradiction

theorem product?_join (found : product? base left right = some a) :
    a.base = base ∧ a.offset = 0 ∧ a.scale ∈ [1, 2, 4, 8] ∧
      ∃ side : Side,
        .binary .mul left right = side.join .mul (.const (Int64.ofNat a.scale)) a.index := by
  unfold product? at found
  split at found
  next factor =>
    cases found
    obtain ⟨rfl, valid⟩ := factor?_const factor
    exact ⟨rfl, rfl, valid, .right, rfl⟩
  next =>
    split at found
    next factor =>
      cases found
      obtain ⟨rfl, valid⟩ := factor?_const factor
      exact ⟨rfl, rfl, valid, .left, rfl⟩
    next => contradiction

/-- A sum is written as a base on one side and a product on the other one, or, where any sum is
taken, as a base and an index. -/
theorem indexedSum?_writes (found : indexedSum? plain x = some a) :
    ∃ side factor, Form.Writes ⟨none, side, factor⟩ a x ∧ (plain = false → factor.isSome) := by
  unfold indexedSum? at found
  split at found
  next =>
    obtain ⟨rfl, unshifted, valid, side, product⟩ := product?_join found
    refine ⟨.left, some side, ⟨?_, valid, by simp, fun _ => unshifted⟩, fun _ => rfl⟩
    rw [product]
    rfl
  next =>
    obtain ⟨rfl, unshifted, valid, side, product⟩ := product?_join found
    refine ⟨.right, some side, ⟨?_, valid, by simp, fun _ => unshifted⟩, fun _ => rfl⟩
    rw [product]
    rfl
  next =>
    split at found
    next any =>
      cases found
      refine ⟨.left, none, ⟨rfl, by simp, fun _ => rfl, fun _ => rfl⟩, ?_⟩
      simp [any]
    next => contradiction
  next => contradiction

theorem Form.Writes.shifted {b : Side} {factor : Option Side} (offset : Int64) (side : Side)
    (writes : Form.Writes ⟨none, b, factor⟩ a x) :
    Form.Writes ⟨some side, b, factor⟩ { a with offset := offset }
      (side.join .add (.const offset) x) where
  written := by
    rw [writes.written]
    rfl
  scale := writes.scale
  unscaled := writes.unscaled
  unshifted := by simp

theorem address?_writes (found : address? plain x = some a) :
    ∃ f : Form, f.Writes a x ∧ (plain = false → f.factor.isSome) := by
  unfold address? at found
  split at found
  next sum offset =>
    obtain ⟨inner, summed, rfl⟩ := Option.map_eq_some_iff.mp found
    obtain ⟨side, factor, writes, multiplied⟩ := indexedSum?_writes summed
    exact ⟨_, writes.shifted offset .right, multiplied⟩
  next offset sum _ =>
    obtain ⟨inner, summed, rfl⟩ := Option.map_eq_some_iff.mp found
    obtain ⟨side, factor, writes, multiplied⟩ := indexedSum?_writes summed
    exact ⟨_, writes.shifted offset .left, multiplied⟩
  next =>
    obtain ⟨side, factor, writes, multiplied⟩ := indexedSum?_writes found
    exact ⟨_, writes, multiplied⟩

/-- The parts of an address stand at the places of a form, they are all of the expression, and they
have its value. -/
structure Form.Splits (f : Form) (a : Address) (x : Node) : Prop where
  base : x.at? f.baseAt = some a.base
  index : x.at? f.indexAt = some a.index
  factor : ∀ p ∈ f.factorAt, x.at? p = some (.const (Int64.ofNat a.scale))
  offset : ∀ p ∈ f.offsetAt, x.at? p = some (.const a.offset)
  unscaled : f.factorAt = none → a.scale = 1
  unshifted : f.offsetAt = none → a.offset = 0
  scale : a.scale ∈ [1, 2, 4, 8]
  sum : ∃ left right, x.at? f.sumAt = some (.binary .add left right)
  product : f.factor.isSome → ∃ left right, x.at? f.productAt = some (.binary .mul left right)
  apart : f.places.Pairwise fun p q => ¬ p <+: q ∧ ¬ q <+: p
  covers : ∀ p y, x.at? p = some y → y.children = [] → ∃ q ∈ f.places, q <+: p
  worth : ∀ given, x.worth given =
    a.base.worth (fun p => given (f.baseAt ++ p)) +
      a.index.worth (fun p => given (f.indexAt ++ p)) * Int64.ofNat a.scale + a.offset

theorem exists_join (side : Side) (op : BinaryOp) (here there : Node) :
    ∃ left right, side.join op here there = .binary op left right := by
  cases side with
  | left => exact ⟨here, there, rfl⟩
  | right => exact ⟨there, here, rfl⟩

theorem Form.Writes.splits {f : Form} (writes : f.Writes a x) : f.Splits a x := by
  obtain ⟨rfl, scale, unscaled, unshifted⟩ := writes
  exact {
    base := f.at?_base ..
    index := f.at?_index ..
    factor := fun p placed => f.at?_factor _ _ _ _ placed
    offset := fun p placed => f.at?_offset _ _ _ _ placed
    unscaled := fun absent => unscaled (Option.map_eq_none_iff.mp absent)
    unshifted := fun absent => unshifted (Option.map_eq_none_iff.mp absent)
    scale := scale
    sum := by
      obtain ⟨left, right, joined⟩ := exists_join f.base .add a.base (f.product a.index _)
      have found := f.at?_sum a.base a.index (Int64.ofNat a.scale) a.offset []
      rw [List.append_nil] at found
      exact ⟨left, right, found.trans (congrArg some joined)⟩
    product := by
      intro multiplied
      obtain ⟨side, factor⟩ := Option.isSome_iff_exists.mp multiplied
      obtain ⟨left, right, joined⟩ :=
        exists_join side .mul (.const (Int64.ofNat a.scale)) a.index
      have found := f.at?_product a.base a.index (Int64.ofNat a.scale) a.offset []
      rw [List.append_nil, Form.product, factor] at found
      exact ⟨left, right, found.trans (congrArg some joined)⟩
    apart := f.places_apart
    covers := fun p y => f.leaf_whole _ _ _ _
    worth := by
      refine f.worth_whole _ _ (fun absent => ?_) unshifted
      rw [unscaled absent]
      rfl }

/-- A match takes an expression apart without a rest, and nothing is matched where addresses are not
looked for. Without plain sums, the index is multiplied by a constant directly under the sum. An
expression that lacks no node has an index. -/
theorem selected?_splits (addressing plain : Bool) (x : Node) :
    selected? false plain x = none ∧
      ∀ a, selected? addressing plain x = some a →
        ((∀ p, x.at? p ≠ some .missing) → a.index ≠ .missing) ∧
          ∃ f : Form, f.Splits a x ∧ (plain = false → f.factor.isSome) := by
  refine ⟨rfl, fun a found => ?_⟩
  unfold selected? at found
  split at found
  next =>
    obtain ⟨f, writes, multiplied⟩ := address?_writes found
    have splits := writes.splits
    refine ⟨fun present lacking => present f.indexAt ?_, f, splits, multiplied⟩
    rw [splits.index, lacking]
  next => contradiction

def constants : Node :=
  .binary .add
    (.binary .add (.binary .mul (.const 2) (.const 4)) (.var (some ⟨.global 0, ascii "p"⟩)))
    (.const Int64.maxValue)

theorem selected?_splits_constants :
    ∃ a, selected? true false constants = some a ∧ a.index = .const 2 ∧ a.scale = 4 ∧
      a.offset = Int64.maxValue ∧ ∃ f : Form, f.Splits a constants ∧ f.factor.isSome := by
  obtain ⟨_, f, splits, multiplied⟩ := (selected?_splits true false constants).2 _ rfl
  exact ⟨_, rfl, rfl, rfl, rfl, f, splits, multiplied rfl⟩

/-- An address is found whose index is missing. -/
theorem selected?_lacking :
    ∃ a, selected? true false (.binary .add (.var (some ⟨.global 0, ascii "x"⟩))
      (.binary .mul .missing (.const 4))) = some a ∧ a.index = .missing :=
  ⟨_, rfl, rfl⟩

end Matching

end Select

end Codegen
