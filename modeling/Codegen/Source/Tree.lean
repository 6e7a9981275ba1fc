import Codegen.Source.Token

/-!
# Trees of a source text

Parentheses group tokens into trees. Every text has trees: a list that nothing closes
ends with the text, and the trees of the text end before a parenthesis that closes nothing.
-/

namespace Codegen.Source

/-- `stop` is the offset of the closing parenthesis, if there is one. -/
inductive Tree
  | atom (start : Nat) (text : Bytes)
  | quoted (start : Nat) (body : Bytes)
  | unclosed (start : Nat)
  | list (start : Nat) (items : List Tree) (stop : Option Nat)
  deriving Inhabited

def Tree.start : Tree → Nat
  | .atom start _ => start
  | .quoted start _ => start
  | .unclosed start => start
  | .list start _ _ => start

/-- A list under construction, its last item first. -/
structure Pending where
  start : Nat
  items : List Tree

/-- The trees of a text, and the offset of a parenthesis that closes nothing. -/
structure Forest where
  trees : List Tree
  stray : Option Nat

def unwind : List Pending → List Tree → List Tree
  | [], trees => trees.reverse
  | outer :: rest, items => unwind rest (.list outer.start items.reverse none :: outer.items)

/-- Groups lexemes, given the items of the innermost list so far and, for each list
around it, where that list opened and the items before it. -/
def group (around : List Pending) (items : List Tree) : List Lexeme → Forest
  | [] => ⟨unwind around items, none⟩
  | ⟨.opening, start⟩ :: rest => group (⟨start, items⟩ :: around) [] rest
  | ⟨.closing, stop⟩ :: rest =>
    match around with
    | [] => ⟨items.reverse, some stop⟩
    | outer :: around =>
      group around (.list outer.start items.reverse (some stop) :: outer.items) rest
  | ⟨.atom text, start⟩ :: rest => group around (.atom start text :: items) rest
  | ⟨.quoted body, start⟩ :: rest => group around (.quoted start body :: items) rest
  | ⟨.unclosed, start⟩ :: rest => group around (.unclosed start :: items) rest

def forest (text : Bytes) : Forest :=
  group [] [] (lexemes text)

end Codegen.Source
