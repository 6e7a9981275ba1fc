import Codegen.Proofs.Source.Writing

/-! The tokens of any text can be written back, but for a quote that nothing closes, and the trees
of a text keep all its tokens, but for a parenthesis that closes nothing and what comes after it. -/
namespace Codegen.Source

section Scanning

/-- A token of a text can be written back, unless it is a quote that nothing closes. -/
def Token.Scanned (t : Token) : Prop := t = .unclosed ∨ t.Writable

/-- What the scan is inside of is the beginning of a token that can be written back. -/
def Scan.Begun : Scan → Prop
  | .between | .comment => True
  | .atom _ text => text ≠ [] ∧ ∀ b ∈ text, isAtomByte b = true
  | .quoted _ body isProtected => protects? false body.reverse = some isProtected

theorem begin_scanned (offset : Nat) (b : UInt8) :
    (begin offset b).1.Begun ∧ ∀ l ∈ (begin offset b).2, l.token.Scanned := by
  unfold begin
  split
  · simp [Scan.Begun]
  split
  · simp [Scan.Begun]
  split
  · simp [Scan.Begun, Token.Scanned, Token.Writable]
  split
  · simp [Scan.Begun, Token.Scanned, Token.Writable]
  split
  · simp [Scan.Begun, protects?]
  · simp_all [Scan.Begun, isAtomByte]

theorem step_scanned (offset : Nat) (b : UInt8) {scan : Scan} (begun : scan.Begun) :
    (step offset b scan).1.Begun ∧ ∀ l ∈ (step offset b scan).2, l.token.Scanned := by
  cases scan with
  | between => exact begin_scanned offset b
  | comment =>
    simp only [step]
    split <;> simp [Scan.Begun]
  | atom start text =>
    obtain ⟨present, valid⟩ := begun
    simp only [step]
    split
    next goesOn => exact ⟨⟨by simp, List.forall_mem_cons.mpr ⟨goesOn, valid⟩⟩, by simp⟩
    next =>
      obtain ⟨next, found⟩ := begin_scanned offset b
      refine ⟨next, List.forall_mem_cons.mpr ⟨.inr ⟨?_, ?_⟩, found⟩⟩
      · simpa using present
      · simpa using valid
  | quoted start body isProtected =>
    have more (remains : Bool) (last : protects? isProtected [b] = some remains) :
        protects? false (b :: body).reverse = some remains := by
      simpa [protects?_append, show protects? false body.reverse = _ from begun] using last
    simp only [step]
    split
    next guarded => exact ⟨more false (by simp [guarded, protects?]), by simp⟩
    next unguarded =>
      have unguarded : isProtected = false := by simpa using unguarded
      subst unguarded
      split
      next => simpa [Scan.Begun, Token.Scanned, Token.Writable] using begun
      next plain => exact ⟨more _ (by simp [plain, protects?]), by simp⟩

theorem scanFrom_scanned {scan : Scan} (begun : scan.Begun) (offset : Nat) (text : Bytes) :
    ∀ l ∈ scanFrom scan offset text, l.token.Scanned := by
  induction text generalizing scan offset with
  | nil =>
    cases scan with
    | between | comment => simp [scanFrom, finish]
    | atom start text =>
      simpa [scanFrom, finish, Token.Scanned, Token.Writable, Scan.Begun] using begun
    | quoted start body isProtected => simp [scanFrom, finish, Token.Scanned]
  | cons b text ih =>
    obtain ⟨next, found⟩ := step_scanned offset b begun
    exact List.forall_mem_append.mpr ⟨found, ih next (offset + 1)⟩

theorem tokens_scanned (text : Bytes) : ∀ t ∈ tokens text, t.Scanned := by
  have start : Scan.between.Begun := trivial
  exact List.forall_mem_map.mpr (scanFrom_scanned start 0 text)

end Scanning

section Grouping

mutual

def Tree.tokens : Tree → List Token
  | .atom _ text => [.atom text]
  | .quoted _ body => [.quoted body]
  | .unclosed _ => [.unclosed]
  | .list _ items stop => .opening :: (treeTokens items ++ (stop.map fun _ => .closing).toList)

def treeTokens : List Tree → List Token
  | [] => []
  | t :: rest => t.tokens ++ treeTokens rest

end

theorem treeTokens_eq_flatMap (ts : List Tree) : treeTokens ts = ts.flatMap Tree.tokens := by
  induction ts with
  | nil => rfl
  | cons t rest ih => simp [treeTokens, ih]

theorem tokens_unplaced (t : Tree) : t.unplaced.tokens = t.tokens := by
  induction t using Tree.induction with
  | atom start text => rfl
  | quoted start body => rfl
  | unclosed start => rfl
  | list start items stop below =>
    have same : (items.map Tree.unplaced).flatMap Tree.tokens = items.flatMap Tree.tokens := by
      simpa [List.flatMap_map] using List.flatMap_congr below
    cases stop <;>
      simp [Tree.unplaced, Tree.tokens, unplacedAll_eq_map, treeTokens_eq_flatMap, same]

mutual

theorem Sexp.tokens_tree : ∀ x : Sexp, x.tree.tokens = x.tokens
  | .atom _ => rfl
  | .quoted _ => rfl
  | .list items => by simp [tree, Tree.tokens, Sexp.tokens, treeTokens_trees items]

theorem Sexp.treeTokens_trees : ∀ xs : List Sexp, treeTokens (trees xs) = tokensAll xs
  | [] => rfl
  | x :: rest => by simp [trees, treeTokens, tokensAll, tokens_tree x, treeTokens_trees rest]

end

/-- The tokens of the lists that are still open, up to where the innermost one starts. -/
def openTokens : List Pending → List Token
  | [] => []
  | outer :: around => openTokens around ++ (treeTokens outer.items.reverse ++ [.opening])

theorem treeTokens_unwind (around : List Pending) (items : List Tree) :
    treeTokens (unwind around items) = openTokens around ++ treeTokens items.reverse := by
  induction around generalizing items with
  | nil => rfl
  | cons outer around ih =>
    simp [unwind, ih, openTokens, treeTokens_eq_flatMap, Tree.tokens]

/-- Grouping loses no token, if every parenthesis that closes something closes a list. -/
theorem treeTokens_group (around : List Pending) (items : List Tree) (ls : List Lexeme)
    (closed : (group around items ls).stray = none) :
    treeTokens (group around items ls).trees =
      openTokens around ++ treeTokens items.reverse ++ ls.map Lexeme.token := by
  induction ls generalizing around items with
  | nil => simp [group, treeTokens_unwind]
  | cons l ls ih =>
    obtain ⟨token, start⟩ := l
    cases token with
    | opening => simpa [group, openTokens, treeTokens] using ih _ _ closed
    | closing =>
      cases around with
      | nil => contradiction
      | cons outer around =>
        simpa [group, openTokens, treeTokens_eq_flatMap, Tree.tokens] using ih _ _ closed
    | atom text => simpa [group, treeTokens_eq_flatMap, Tree.tokens] using ih _ _ closed
    | quoted body => simpa [group, treeTokens_eq_flatMap, Tree.tokens] using ih _ _ closed
    | unclosed => simpa [group, treeTokens_eq_flatMap, Tree.tokens] using ih _ _ closed

theorem treeTokens_grouped {ts : List Token} (closed : (grouped ts).stray = none) :
    treeTokens (grouped ts).trees = ts := by
  have kept := treeTokens_group [] [] _ closed
  simpa [grouped, openTokens, treeTokens, Function.comp_def] using kept

end Grouping

end Codegen.Source
