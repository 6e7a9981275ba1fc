import Codegen.Routine

/-!
# Listings

A listing shows a routine as text, either its code or its blocks with the labels that
they go to. There is none if the routine refers to an instruction that is not there.
-/

namespace Codegen.Listing

def heading (r : Routine) : Bytes :=
  ascii "========== " ++ r.name ++ ascii " ==========\n"

def inlinedNote : Bytes :=
  ascii "BE INLINED\n"

/-- Stands for an instruction that has no text. -/
def textless : Bytes :=
  ascii "%!v(PANIC=String method: runtime error: invalid memory address or nil pointer dereference)"

def line (x : Instr) : Bytes :=
  let text := x.text?.getD textless ++ [10]
  match x with
  | .label _ => text
  | _ => 9 :: text

def lines? (r : Routine) (code : List Nat) : Option Bytes :=
  (code.mapM fun i => (r.instr? i).map line).map List.flatten

def code? (r : Routine) : Option Bytes :=
  if r.inlined then some (heading r ++ inlinedNote)
  else (lines? r r.code).map (heading r ++ ·)

def block? (r : Routine) (b : Block) : Option Bytes :=
  let targets := b.jumpTo.flatMap (ascii "   " ++ ·)
  (lines? r b.code).map fun lines =>
    ascii "----- " ++ b.label ++ ascii " -----  jump to:" ++ targets ++ 10 :: lines

def blocks? (r : Routine) : Option Bytes :=
  if r.inlined then some (heading r ++ inlinedNote)
  else (r.blocks.mapM (block? r)).map fun blocks => heading r ++ blocks.flatten

end Codegen.Listing
