import Codegen.Proofs.Source.Layout

/-! Tokens that are written with single blanks between them are scanned back, and the tokens of a
closed list are grouped into it. -/
namespace Codegen.Source

/-- Whether a backslash protects the byte after a text, if no quote in the text is unprotected. -/
def protects? : Bool → Bytes → Option Bool
  | isProtected, [] => some isProtected
  | true, _ :: rest => protects? false rest
  | false, b :: rest => if b = 34 then none else protects? (b == 92) rest

theorem protects?_append (isProtected : Bool) (a b : Bytes) :
    protects? isProtected (a ++ b) = (protects? isProtected a).bind (protects? · b) := by
  induction a generalizing isProtected with
  | nil => rfl
  | cons x a ih =>
    cases isProtected with
    | true => exact ih false
    | false =>
      rw [List.cons_append, protects?, protects?]
      split
      · rfl
      · exact ih _

namespace Token

def text : Token → Bytes
  | .opening => [40]
  | .closing => [41]
  | .atom text => text
  | .quoted body => 34 :: (body ++ [34])
  | .unclosed => [34]

/-- A token that ends where its bytes end. -/
def Writable : Token → Prop
  | .atom text => text ≠ [] ∧ ∀ b ∈ text, isAtomByte b = true
  | .quoted body => protects? false body = some false
  | .unclosed => False
  | _ => True

/-- One blank, but none after an opening parenthesis. Before a closing one there may be one or
not. -/
def gap (spaced : Bool) (t : Token) : List Token → Bytes
  | [] => []
  | u :: _ => if t = .opening ∨ u = .closing ∧ spaced = false then [] else [32]

def write (spaced : Bool) : List Token → Bytes
  | [] => []
  | t :: rest => t.text ++ (gap spaced t rest ++ write spaced rest)

end Token

section Scanning

def Ends (rest : Bytes) : Prop := ∀ b ∈ rest.head?, isAtomByte b = false

theorem scanFrom_atom_ends {rest : Bytes} (ends : Ends rest) (start offset : Nat) (text : Bytes) :
    scanFrom (.atom start text) offset rest =
      ⟨.atom text.reverse, start⟩ :: scanFrom .between offset rest := by
  cases rest with
  | nil => rfl
  | cons b rest =>
    have stops : isAtomByte b = false := ends b rfl
    simp [scanFrom, step, stops]

theorem scanFrom_atom {text : Bytes} (valid : ∀ b ∈ text, isAtomByte b = true)
    (start offset : Nat) (before rest : Bytes) :
    scanFrom (.atom start before) offset (text ++ rest) =
      scanFrom (.atom start (text.reverse ++ before)) (offset + text.length) rest := by
  induction text generalizing offset before with
  | nil => rfl
  | cons b text ih =>
    rw [List.forall_mem_cons] at valid
    simp only [List.cons_append, scanFrom, step, valid.1, if_true, List.nil_append, ih valid.2]
    simp [Nat.add_assoc, Nat.add_comm 1]

theorem begin_atom {b : UInt8} (valid : isAtomByte b = true) (offset : Nat) :
    begin offset b = (.atom offset [b], []) := by
  simp only [isAtomByte, Bool.not_eq_true', Bool.or_eq_false_iff, beq_eq_false_iff_ne] at valid
  obtain ⟨⟨⟨⟨blank, opening⟩, closing⟩, quote⟩, semicolon⟩ := valid
  simp [begin, blank, opening, closing, quote, semicolon]

theorem scanFrom_quoted {body : Bytes} {isProtected remains : Bool}
    (inside : protects? isProtected body = some remains) (start offset : Nat)
    (before rest : Bytes) :
    scanFrom (.quoted start before isProtected) offset (body ++ rest) =
      scanFrom (.quoted start (body.reverse ++ before) remains) (offset + body.length) rest := by
  induction body generalizing offset before isProtected with
  | nil =>
    cases inside
    rfl
  | cons b body ih =>
    cases isProtected with
    | true =>
      simp only [List.cons_append, scanFrom, step, if_true, List.nil_append, ih inside]
      simp [Nat.add_assoc, Nat.add_comm 1]
    | false =>
      rw [protects?] at inside
      split at inside
      next => contradiction
      next plain =>
        simp only [List.cons_append, scanFrom, step, plain, if_false, Bool.false_eq_true,
          List.nil_append, ih inside]
        simp [Nat.add_assoc, Nat.add_comm 1]

/-- A token is found where it was written, if nothing after it can belong to it. -/
theorem scanFrom_token {t : Token} (writable : t.Writable) {rest : Bytes}
    (ends : (∃ text, t = .atom text) → Ends rest) (offset : Nat) :
    scanFrom .between offset (t.text ++ rest) =
      ⟨t, offset⟩ :: scanFrom .between (offset + t.text.length) rest := by
  cases t with
  | opening | closing => rfl
  | unclosed => exact writable.elim
  | atom text =>
    obtain ⟨present, valid⟩ := writable
    obtain ⟨b, text, rfl⟩ := List.exists_cons_of_ne_nil present
    rw [List.forall_mem_cons] at valid
    simp only [Token.text, List.cons_append, scanFrom, step, begin_atom valid.1, List.nil_append,
      scanFrom_atom valid.2, scanFrom_atom_ends (ends ⟨_, rfl⟩)]
    simp [Nat.add_assoc, Nat.add_comm 1]
  | quoted body =>
    simp only [Token.text, List.cons_append, List.append_assoc, scanFrom, step, begin]
    simp [isBlank, scanFrom_quoted writable, scanFrom, step, Nat.add_assoc, Nat.add_comm 1]

theorem scanFrom_gap (spaced : Bool) (t : Token) (ts : List Token) (offset : Nat) (rest : Bytes) :
    scanFrom .between offset (t.gap spaced ts ++ rest) =
      scanFrom .between (offset + (t.gap spaced ts).length) rest := by
  cases ts with
  | nil => rfl
  | cons u ts =>
    rw [Token.gap]
    split <;> rfl

/-- Only a closing parenthesis can follow an atom at once. -/
theorem ends_gap (spaced : Bool) (text : Bytes) (ts : List Token) :
    Ends ((Token.atom text).gap spaced ts ++ Token.write spaced ts) := by
  cases ts with
  | nil => intro b first; cases first
  | cons u ts =>
    by_cases closes : u = .closing ∧ spaced = false
    · obtain ⟨rfl, rfl⟩ := closes
      intro b first
      cases first
      decide
    · intro b first
      simp only [Token.gap, closes, or_false, reduceCtorEq, if_false] at first
      cases first
      decide

theorem scanFrom_write_cons {t : Token} (writable : t.Writable) (spaced : Bool) (offset : Nat)
    (ts : List Token) :
    scanFrom .between offset (Token.write spaced (t :: ts)) =
      ⟨t, offset⟩ :: scanFrom .between (offset + t.text.length + (t.gap spaced ts).length)
        (Token.write spaced ts) := by
  rw [Token.write, scanFrom_token writable, scanFrom_gap]
  rintro ⟨text, rfl⟩
  exact ends_gap spaced text ts

theorem scanFrom_write {ts : List Token} (writable : ∀ t ∈ ts, t.Writable) (spaced : Bool)
    (offset : Nat) :
    (scanFrom .between offset (Token.write spaced ts)).map Lexeme.token = ts := by
  induction ts generalizing offset with
  | nil => rfl
  | cons t ts ih =>
    rw [List.forall_mem_cons] at writable
    rw [scanFrom_write_cons writable.1, List.map_cons, ih writable.2]

theorem tokens_write {ts : List Token} (writable : ∀ t ∈ ts, t.Writable) (spaced : Bool) :
    tokens (Token.write spaced ts) = ts :=
  scanFrom_write writable spaced 0

end Scanning

inductive Sexp
  | atom (text : Bytes)
  | quoted (body : Bytes)
  | list (items : List Sexp)

namespace Sexp

mutual

def tokens : Sexp → List Token
  | atom text => [.atom text]
  | quoted body => [.quoted body]
  | list items => .opening :: (tokensAll items ++ [.closing])

def tokensAll : List Sexp → List Token
  | [] => []
  | x :: rest => x.tokens ++ tokensAll rest

end

mutual

def tree : Sexp → Tree
  | atom text => .atom 0 text
  | quoted body => .quoted 0 body
  | list items => .list 0 (trees items) (some 0)

def trees : List Sexp → List Tree
  | [] => []
  | x :: rest => x.tree :: trees rest

end

end Sexp

section Grouping

mutual

/-- Grouping the tokens of a closed list adds it to the items so far. -/
theorem group_tokens (around : List Pending) (items : List Tree) (rest : List Token) :
    ∀ x : Sexp, group around items ((x.tokens ++ rest).map fun t => ⟨t, 0⟩) =
      group around (x.tree :: items) (rest.map fun t => ⟨t, 0⟩)
  | .atom text => rfl
  | .quoted body => rfl
  | .list xs => by
    have inside := group_tokensAll (⟨0, items⟩ :: around) [] (.closing :: rest) xs
    rw [List.append_nil] at inside
    rw [Sexp.tokens, List.cons_append, List.append_assoc, List.map_cons, group]
    refine inside.trans ?_
    rw [List.map_cons, group, List.reverse_reverse]
    rfl

theorem group_tokensAll (around : List Pending) (items : List Tree) (rest : List Token) :
    ∀ xs : List Sexp, group around items ((Sexp.tokensAll xs ++ rest).map fun t => ⟨t, 0⟩) =
      group around ((Sexp.trees xs).reverse ++ items) (rest.map fun t => ⟨t, 0⟩)
  | [] => rfl
  | x :: xs => by
    rw [Sexp.tokensAll, List.append_assoc, group_tokens around items _ x,
      group_tokensAll around _ rest xs, Sexp.trees, List.reverse_cons, List.append_assoc]
    rfl

end

theorem grouped_tokensAll (xs : List Sexp) :
    grouped (Sexp.tokensAll xs) = ⟨Sexp.trees xs, none⟩ := by
  have all := group_tokensAll [] [] [] xs
  rw [List.append_nil, List.append_nil] at all
  rw [grouped, all, List.map_nil, group, unwind, List.reverse_reverse]

/-- The trees that no later token changes. -/
def settled : List Pending → List Tree → List Tree
  | [], items => items
  | outer :: around, _ => settled around outer.items

theorem settled_cons (around : List Pending) (t : Tree) (items : List Tree) :
    (settled around items).reverse <+: (settled around (t :: items)).reverse := by
  cases around with
  | nil => simp [settled]
  | cons outer around => exact List.prefix_refl _

theorem settled_unwind (around : List Pending) (items : List Tree) :
    (settled around items).reverse <+: unwind around items := by
  induction around generalizing items with
  | nil => exact List.prefix_refl _
  | cons outer around ih => exact (settled_cons around _ _).trans (ih _)

theorem settled_group (around : List Pending) (items : List Tree) (ls : List Lexeme) :
    (settled around items).reverse <+: (group around items ls).trees := by
  induction ls generalizing around items with
  | nil => exact settled_unwind around items
  | cons l ls ih =>
    obtain ⟨token, start⟩ := l
    cases token with
    | opening => exact ih (⟨start, items⟩ :: around) []
    | closing =>
      cases around with
      | nil => exact List.prefix_refl _
      | cons outer around => exact (settled_cons around _ _).trans (ih around _)
    | atom text => exact (settled_cons around _ _).trans (ih around _)
    | quoted body => exact (settled_cons around _ _).trans (ih around _)
    | unclosed => exact (settled_cons around _ _).trans (ih around _)

end Grouping

end Codegen.Source
