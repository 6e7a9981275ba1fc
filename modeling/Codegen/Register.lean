import Codegen.Bytes

/-!
# Machine registers

The sixteen general registers of the target, in numbering order, with their part in
calls. Register numbers outside the machine can be printed but denote nothing.
-/

namespace Codegen

inductive Register
  | rax | rbx | rcx | rdx | rsi | rdi | rbp | rsp
  | r8 | r9 | r10 | r11 | r12 | r13 | r14 | r15
  deriving DecidableEq, Repr

namespace Register

def all : List Register :=
  [rax, rbx, rcx, rdx, rsi, rdi, rbp, rsp, r8, r9, r10, r11, r12, r13, r14, r15]

def number (r : Register) : Nat :=
  all.idxOf r

def ofNumber? (n : Int) : Option Register :=
  if n < 0 then none else all[n.toNat]?

def name : Register → Bytes
  | rax => ascii "rax" | rbx => ascii "rbx" | rcx => ascii "rcx" | rdx => ascii "rdx"
  | rsi => ascii "rsi" | rdi => ascii "rdi" | rbp => ascii "rbp" | rsp => ascii "rsp"
  | r8 => ascii "r8" | r9 => ascii "r9" | r10 => ascii "r10" | r11 => ascii "r11"
  | r12 => ascii "r12" | r13 => ascii "r13" | r14 => ascii "r14" | r15 => ascii "r15"

def ofName? (text : Bytes) : Option Register :=
  all.find? (·.name == text)

def calleeSaved (r : Register) : Bool :=
  r ∈ [rbx, rbp, r12, r13, r14, r15]

/-- Needs an extension bit wherever an instruction names it. -/
def needsExtension (r : Register) : Bool :=
  decide (8 ≤ r.number)

def arguments : List Register :=
  [rdi, rsi, rdx, rcx, r8, r9]

def argument? (i : Int) : Option Register :=
  if i < 0 then none else arguments[i.toNat]?

def numberText (n : Int) : Bytes :=
  match ofNumber? n with
  | some r => r.name
  | none => ascii "Reg(" ++ signedDecimal n ++ ascii ")"

/-- One line of the register table: the name in a column of four, then its roles. -/
def describe (r : Register) : Bytes :=
  let roles := (if r.calleeSaved then ascii "  callee-save" else []) ++
    (match arguments.idxOf? r with
      | some i => ascii "  param " ++ decimal i
      | none => [])
  r.name ++ List.replicate (4 - r.name.length) 32 ++ roles ++ [10]

end Register

end Codegen
