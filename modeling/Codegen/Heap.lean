/-!
# Binary heaps

A heap is a binary tree in which no element comes before the one above it in the order of
a key. Its positions are filled level by level, from left to right. An element is added
at the first free position and rises; the first element is taken from the root, and the
one at the last position sinks from there. That also settles which of two elements with
one key comes first.
-/

namespace Codegen

inductive Heap (α : Type)
  | empty
  | node (top : α) (left right : Heap α)
  deriving DecidableEq, Repr

namespace Heap

variable {α : Type}

def top? : Heap α → Option α
  | empty => none
  | node x _ _ => some x

/-- The turns from the root to the position after `n` others, with true to the right. -/
def path : Nat → List Bool
  | 0 => []
  | n + 1 => path (n / 2) ++ [n % 2 == 1]

def raiseLeft (key : α → Int) (x : α) (left right : Heap α) : Heap α :=
  match left with
  | empty => node x empty right
  | node y a b =>
    if key y < key x then node y (node x a b) right else node x (node y a b) right

def raiseRight (key : α → Int) (x : α) (left right : Heap α) : Heap α :=
  match right with
  | empty => node x left empty
  | node y a b =>
    if key y < key x then node y left (node x a b) else node x left (node y a b)

def insertAt (key : α → Int) (x : α) : List Bool → Heap α → Heap α
  | _, empty => node x empty empty
  | turns, node y left right =>
    if turns.headD false then raiseRight key y left (insertAt key x turns.tail right)
    else raiseLeft key y (insertAt key x turns.tail left) right

/-- Takes away the element at the position that the turns lead to. Where a turn leaves the
tree, the other side is taken, and an element goes once it has nothing below it. -/
def removeAt : List Bool → Heap α → Option (α × Heap α)
  | _, empty => none
  | turns, node x left right =>
    if turns.headD false then
      match removeAt turns.tail right with
      | some (y, right) => some (y, node x left right)
      | none =>
        match removeAt turns.tail left with
        | some (y, left) => some (y, node x left right)
        | none => some (x, empty)
    else
      match removeAt turns.tail left with
      | some (y, left) => some (y, node x left right)
      | none =>
        match removeAt turns.tail right with
        | some (y, right) => some (y, node x left right)
        | none => some (x, empty)

/-- The side of the first of the two tops, which is true for the right, and that top. The
left one comes first if their keys are equal. -/
def firstTop? (key : α → Int) (left right : Heap α) : Option (Bool × α) :=
  match left.top?, right.top? with
  | none, none => none
  | some y, none => some (false, y)
  | none, some z => some (true, z)
  | some y, some z => if key z < key y then some (true, z) else some (false, y)

def sink (key : α → Int) (x : α) : Heap α → Heap α
  | empty => empty
  | node _ left right =>
    match firstTop? key left right with
    | none => node x left right
    | some (toRight, y) =>
      if key y < key x then
        if toRight then node y left (sink key x right) else node y (sink key x left) right
      else node x left right

/-- Takes the top. The turns lead to the last element, which goes into its place. -/
def pop? (key : α → Int) (turns : List Bool) (heap : Heap α) : Option (α × Heap α) :=
  match removeAt turns heap with
  | none => none
  | some (x, empty) => some (x, empty)
  | some (x, node top left right) => some (top, sink key x (node top left right))

def pushAll (key : α → Int) : Nat → Heap α → List α → Heap α
  | _, heap, [] => heap
  | n, heap, x :: xs => pushAll key (n + 1) (insertAt key x (path n) heap) xs

def popAll (key : α → Int) : Nat → Heap α → List α
  | 0, _ => []
  | n + 1, heap =>
    match pop? key (path n) heap with
    | none => []
    | some (x, heap) => x :: popAll key n heap

def sort (key : α → Int) (xs : List α) : List α :=
  popAll key xs.length (pushAll key 0 empty xs)

end Heap

end Codegen
