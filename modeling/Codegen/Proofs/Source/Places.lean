import Codegen.Proofs.Source.Scanned

/-! Where the tokens and the trees of a text stand. -/
namespace Codegen.Source

section Tokens

variable {text : Bytes}

/-- The lexemes from an offset on, outside atoms, quotes and comments. -/
def lexemesFrom (text : Bytes) (st : Nat) : List Lexeme := scanFrom .between st (text.drop st)

/-- A token stands between two offsets. A quote that nothing closes goes on to the end. -/
inductive Stands (text : Bytes) : Token → Nat → Nat → Prop
  | opening {s : Nat} (found : text[s]? = some 40) : Stands text .opening s (s + 1)
  | closing {s : Nat} (found : text[s]? = some 41) : Stands text .closing s (s + 1)
  | atom {s : Nat} {word : Bytes} (found : (text.drop s).takeWhile isAtomByte = word)
      (present : word ≠ []) : Stands text (.atom word) s (s + word.length)
  | quoted {s : Nat} {body rest : Bytes} (found : text.drop s = 34 :: (body ++ 34 :: rest))
      (closed : protects? false body = some false) :
      Stands text (.quoted body) s (s + (body.length + 2))
  | unclosed {s : Nat} {rest : Bytes} {isProtected : Bool} (found : text.drop s = 34 :: rest)
      (unclosed : protects? false rest = some isProtected) : Stands text .unclosed s text.length

theorem drop_eq_cons {i : Nat} {b : UInt8} (found : text[i]? = some b) :
    text.drop i = b :: text.drop (i + 1) := by
  obtain ⟨bound, rfl⟩ := List.getElem?_eq_some_iff.mp found
  exact List.drop_eq_getElem_cons bound

theorem getElem?_of_drop {i : Nat} {b : UInt8} {rest : Bytes} (found : text.drop i = b :: rest) :
    text[i]? = some b := by
  have first : (text.drop i)[0]? = text[i + 0]? := List.getElem?_drop
  simpa [found] using first.symm

theorem Stands.lt {t : Token} {s e : Nat} (stands : Stands text t s e) :
    s < e ∧ e ≤ text.length := by
  cases stands with
  | opening found | closing found =>
    have bound := (List.getElem?_eq_some_iff.mp found).1
    omega
  | atom found present =>
    have shorter := (List.takeWhile_prefix isAtomByte (l := text.drop s)).length_le
    have some := List.length_pos_iff.mpr present
    rw [found, List.length_drop] at shorter
    omega
  | quoted found closed =>
    have same := congrArg List.length found
    simp only [List.length_drop, List.length_cons, List.length_append] at same
    omega
  | unclosed found unclosed =>
    have same := congrArg List.length found
    simp only [List.length_drop, List.length_cons] at same
    omega

/-- What is inside quotes is closed somewhere, if not all of it is inside. -/
theorem protects?_eq_none {isProtected : Bool} {bytes : Bytes}
    (closed : protects? isProtected bytes = none) :
    ∃ body rest, bytes = body ++ 34 :: rest ∧ protects? isProtected body = some false := by
  fun_induction protects? isProtected bytes with
  | case1 => contradiction
  | case2 b rest ih =>
    obtain ⟨body, after, rfl, inside⟩ := ih closed
    exact ⟨b :: body, after, rfl, inside⟩
  | case3 rest => exact ⟨[], rest, rfl, rfl⟩
  | case4 b rest plain ih =>
    obtain ⟨body, after, rfl, inside⟩ := ih closed
    exact ⟨b :: body, after, rfl, by rw [protects?, if_neg plain, inside]⟩

/-- Without a byte that closes it, a quote takes the rest of the text. -/
theorem scanFrom_unclosed {isProtected remains : Bool} {bytes : Bytes}
    (unfinished : protects? isProtected bytes = some remains) (start offset : Nat)
    (before : Bytes) :
    scanFrom (.quoted start before isProtected) offset bytes = [⟨.unclosed, start⟩] := by
  have all := scanFrom_quoted unfinished start offset before []
  rw [List.append_nil] at all
  rw [all]
  rfl

theorem ends_dropWhile (bytes : Bytes) : Ends (bytes.dropWhile isAtomByte) := by
  intro b first
  have stops := List.head?_dropWhile_not isAtomByte bytes
  rwa [Option.mem_def.mp first] at stops

theorem drop_add_length {i : Nat} {word rest : Bytes} (split : text.drop i = word ++ rest) :
    text.drop (i + word.length) = rest := by
  rw [← List.drop_drop, split, List.drop_left]

/-- The lexemes from a place where a token stands. -/
theorem Stands.lexemes {t : Token} {s e : Nat} (stands : Stands text t s e) :
    lexemesFrom text s = ⟨t, s⟩ :: lexemesFrom text e := by
  -- A token that can be written is found where its bytes are.
  have written (rest : Bytes) (split : text.drop s = t.text ++ rest) (writable : t.Writable)
      (ends : (∃ word, t = .atom word) → Ends rest) :
      lexemesFrom text s = ⟨t, s⟩ :: lexemesFrom text (s + t.text.length) := by
    rw [lexemesFrom, lexemesFrom, drop_add_length split, split]
    exact scanFrom_token writable ends s
  cases stands with
  | opening found | closing found =>
    exact written _ (drop_eq_cons found) trivial (by simp)
  | @atom _ word found present =>
    have split : text.drop s = word ++ (text.drop s).dropWhile isAtomByte := by
      rw [← found, List.takeWhile_append_dropWhile]
    have valid (b : UInt8) (inside : b ∈ word) : isAtomByte b = true := by
      rw [← found] at inside
      exact List.mem_takeWhile_imp inside
    exact written _ split ⟨present, valid⟩ fun _ => ends_dropWhile _
  | @quoted _ body rest found closed =>
    have split : text.drop s = (Token.quoted body).text ++ rest := by simp [found, Token.text]
    have length : (Token.quoted body).text.length = body.length + 2 := by simp [Token.text]
    rw [← length]
    exact written rest split closed (by simp)
  | unclosed found unclosed =>
    rw [lexemesFrom, lexemesFrom, found, List.drop_length]
    exact scanFrom_unclosed unclosed s (s + 1) []

theorem Stands.ends {t : Token} {s e : Nat} (stands : Stands text t s e)
    (other : ∀ word, t ≠ .atom word) : Ends (text.drop s) := by
  intro b first
  cases stands with
  | opening found | closing found =>
    rw [drop_eq_cons found] at first
    cases first
    decide
  | atom found present => exact absurd rfl (other _)
  | quoted found closed =>
    rw [found] at first
    cases first
    decide
  | unclosed found unclosed =>
    rw [found] at first
    cases first
    decide

/-- The byte that a token begins with. -/
theorem Stands.byte {t : Token} {s e : Nat} (stands : Stands text t s e) :
    ∃ b, text[s]? = some b ∧ (b = 40 ↔ t = .opening) ∧ (b = 41 ↔ t = .closing) ∧
      (b = 34 ↔ t = .unclosed ∨ ∃ body, t = .quoted body) := by
  cases stands with
  | opening found => exact ⟨40, found, by simp, by simp, by simp⟩
  | closing found => exact ⟨41, found, by simp, by simp, by simp⟩
  | quoted found closed => exact ⟨34, getElem?_of_drop found, by simp, by simp, by simp⟩
  | unclosed found unclosed => exact ⟨34, getElem?_of_drop found, by simp, by simp, by simp⟩
  | @atom _ word found present =>
    obtain ⟨b, word, rfl⟩ := List.exists_cons_of_ne_nil present
    have valid : isAtomByte b = true := List.mem_takeWhile_imp (found ▸ List.mem_cons_self ..)
    have split : text.drop s = b :: (word ++ (text.drop s).dropWhile isAtomByte) := by
      rw [← List.cons_append, ← found, List.takeWhile_append_dropWhile]
    refine ⟨b, getElem?_of_drop split, ?_, ?_, ?_⟩
    all_goals
      simp only [reduceCtorEq, iff_false, or_false, exists_false]
      rintro rfl
      contradiction

theorem Stands.unique {t t' : Token} {s e e' : Nat} (stands : Stands text t s e)
    (stands' : Stands text t' s e') : t = t' := by
  have same := stands.lexemes.symm.trans stands'.lexemes
  exact congrArg Lexeme.token (List.cons.inj same).1

/-- A byte that is no blank and begins no comment begins a token. -/
theorem exists_stands {s : Nat} {b : UInt8} (found : text[s]? = some b)
    (solid : isBlank b = false) (noComment : b ≠ 59) : ∃ t e, Stands text t s e := by
  have split := drop_eq_cons found
  by_cases valid : isAtomByte b = true
  · have word : (text.drop s).takeWhile isAtomByte =
        b :: (text.drop (s + 1)).takeWhile isAtomByte := by
      rw [split, List.takeWhile_cons_of_pos valid]
    exact ⟨_, _, .atom word (List.cons_ne_nil _ _)⟩
  · have special : b = 40 ∨ b = 41 ∨ b = 34 := by
      by_contra others
      simp only [not_or] at others
      exact valid (by simp [isAtomByte, solid, noComment, others])
    rcases special with rfl | rfl | rfl
    · exact ⟨_, _, .opening found⟩
    · exact ⟨_, _, .closing found⟩
    · cases closed : protects? false (text.drop (s + 1)) with
      | none =>
        obtain ⟨body, rest, inside, closed⟩ := protects?_eq_none closed
        exact ⟨_, _, .quoted (inside ▸ split) closed⟩
      | some isProtected => exact ⟨_, _, .unclosed split closed⟩

theorem lexemesFrom_length (text : Bytes) : lexemesFrom text text.length = [] := by
  rw [lexemesFrom, List.drop_length]
  rfl

theorem lexemesFrom_blank {i : Nat} {b : UInt8} (found : text[i]? = some b)
    (blank : isBlank b = true) : lexemesFrom text i = lexemesFrom text (i + 1) := by
  rw [lexemesFrom, drop_eq_cons found]
  simp only [scanFrom, step, begin, blank, if_true, List.nil_append]
  rfl

/-- The line break after a comment may be scanned as a blank. -/
theorem scanFrom_comment (offset : Nat) (bytes : Bytes) :
    scanFrom .comment offset bytes = scanFrom .between
      (offset + (bytes.takeWhile (· != 10)).length) (bytes.dropWhile (· != 10)) := by
  induction bytes generalizing offset with
  | nil => rfl
  | cons b rest ih =>
    by_cases breaks : b = 10
    · subst breaks
      rfl
    · simp only [scanFrom, step, breaks, if_false, List.nil_append, ih]
      simp [breaks, Nat.add_assoc, Nat.add_comm 1]

theorem lexemesFrom_comment {i : Nat} (found : text[i]? = some 59) :
    lexemesFrom text i =
      lexemesFrom text (i + ((text.drop i).takeWhile (· != 10)).length) := by
  have split : text.drop i = (text.drop i).takeWhile (· != 10) ++ (text.drop i).dropWhile (· != 10) :=
    List.takeWhile_append_dropWhile.symm
  have same : scanFrom .between i (text.drop i) = scanFrom .comment i (text.drop i) := by
    rw [drop_eq_cons found]
    rfl
  rw [lexemesFrom, same, scanFrom_comment, lexemesFrom, drop_add_length split]

end Tokens

section Trees

mutual

/-- A tree takes the lexemes from one place to another. A list that nothing closes takes all that
are left. -/
def Tree.Spans : Tree → List Lexeme → List Lexeme → Prop
  | .atom start text, ls, rest => ls = ⟨.atom text, start⟩ :: rest
  | .quoted start body, ls, rest => ls = ⟨.quoted body, start⟩ :: rest
  | .unclosed start, ls, rest => ls = ⟨.unclosed, start⟩ :: rest
  | .list start items (some stop), ls, rest =>
    ∃ inner, ls = ⟨.opening, start⟩ :: inner ∧ SpansAll items inner (⟨.closing, stop⟩ :: rest)
  | .list start items none, ls, rest =>
    ∃ inner, ls = ⟨.opening, start⟩ :: inner ∧ SpansAll items inner [] ∧ rest = []

def SpansAll : List Tree → List Lexeme → List Lexeme → Prop
  | [], ls, rest => ls = rest
  | t :: ts, ls, rest => ∃ middle, t.Spans ls middle ∧ SpansAll ts middle rest

end

mutual

theorem Tree.Spans.suffix : ∀ {t : Tree} {ls rest : List Lexeme}, t.Spans ls rest → rest <:+ ls
  | .atom _ _, _, _, spans => spans ▸ List.suffix_cons _ _
  | .quoted _ _, _, _, spans => spans ▸ List.suffix_cons _ _
  | .unclosed _, _, _, spans => spans ▸ List.suffix_cons _ _
  | .list _ _ (some _), _, _, ⟨_, first, inside⟩ =>
    first ▸ ((List.suffix_cons _ _).trans inside.suffix).trans (List.suffix_cons _ _)
  | .list _ _ none, _, _, ⟨_, _, _, last⟩ => last ▸ List.nil_suffix

theorem SpansAll.suffix : ∀ {ts : List Tree} {ls rest : List Lexeme}, SpansAll ts ls rest → rest <:+ ls
  | [], _, _, spans => spans ▸ List.suffix_refl _
  | _ :: _, _, _, ⟨_, first, others⟩ => others.suffix.trans first.suffix

end

def Tree.first : Tree → Token
  | .atom _ text => .atom text
  | .quoted _ body => .quoted body
  | .unclosed _ => .unclosed
  | .list _ _ _ => .opening

theorem Tree.first_ne (t : Tree) : t.first ≠ .closing := by
  cases t <;> simp [first]

theorem Tree.Spans.first {t : Tree} {ls rest : List Lexeme} (spans : t.Spans ls rest) :
    ∃ inner, ls = ⟨t.first, t.start⟩ :: inner := by
  cases t with
  | atom start text | quoted start body | unclosed start => exact ⟨rest, spans⟩
  | list start items stop =>
    cases stop with
    | none | some stop =>
      obtain ⟨inner, first, _⟩ := spans
      exact ⟨inner, first⟩

theorem spansAll_append {ts us : List Tree} {ls middle rest : List Lexeme}
    (first : SpansAll ts ls middle) (last : SpansAll us middle rest) :
    SpansAll (ts ++ us) ls rest := by
  induction ts generalizing ls with
  | nil =>
    rw [SpansAll] at first
    rwa [first]
  | cons t ts ih =>
    obtain ⟨between, head, tail⟩ := first
    exact ⟨between, head, ih tail⟩

theorem spansAll_snoc {items : List Tree} {t : Tree} {ls middle rest : List Lexeme}
    (before : SpansAll items.reverse ls middle) (last : t.Spans middle rest) :
    SpansAll (t :: items).reverse ls rest := by
  rw [List.reverse_cons]
  exact spansAll_append before ⟨rest, last, rfl⟩

/-- The lists that are still open, with the items of the innermost one, take the lexemes so far. -/
def Pending.SpanAll : List Pending → List Tree → List Lexeme → List Lexeme → Prop
  | [], items, ls, rest => SpansAll items.reverse ls rest
  | outer :: around, items, ls, rest =>
    ∃ inner, SpanAll around outer.items ls (⟨.opening, outer.start⟩ :: inner) ∧
      SpansAll items.reverse inner rest

theorem Pending.SpanAll.snoc {around : List Pending} {items : List Tree} {t : Tree}
    {ls middle rest : List Lexeme} (before : SpanAll around items ls middle)
    (last : t.Spans middle rest) : SpanAll around (t :: items) ls rest := by
  cases around with
  | nil => exact spansAll_snoc before last
  | cons outer around =>
    obtain ⟨inner, outside, inside⟩ := before
    exact ⟨inner, outside, spansAll_snoc inside last⟩

theorem spansAll_unwind {around : List Pending} {items : List Tree} {ls : List Lexeme}
    (before : Pending.SpanAll around items ls []) : SpansAll (unwind around items) ls [] := by
  induction around generalizing items with
  | nil => exact before
  | cons outer around ih =>
    obtain ⟨inner, outside, inside⟩ := before
    exact ih (outside.snoc ⟨inner, rfl, inside, rfl⟩)

/-- The trees of a text take its lexemes up to the end, or up to a parenthesis that closes
nothing. -/
theorem spansAll_group {around : List Pending} {items : List Tree} {ls rest : List Lexeme}
    (before : Pending.SpanAll around items ls rest) :
    ∃ left, SpansAll (group around items rest).trees ls left ∧
      left.head? = (group around items rest).stray.map (⟨.closing, ·⟩) := by
  induction rest generalizing around items with
  | nil => exact ⟨[], spansAll_unwind before, rfl⟩
  | cons l rest ih =>
    obtain ⟨token, start⟩ := l
    cases token with
    | opening =>
      have opened : Pending.SpanAll (⟨start, items⟩ :: around) [] ls rest := ⟨rest, before, rfl⟩
      exact ih opened
    | closing =>
      cases around with
      | nil => exact ⟨_, before, rfl⟩
      | cons outer around =>
        obtain ⟨inner, outside, inside⟩ := before
        exact ih (outside.snoc ⟨inner, rfl, inside⟩)
    | atom text => exact ih (before.snoc rfl)
    | quoted body => exact ih (before.snoc rfl)
    | unclosed => exact ih (before.snoc rfl)

theorem spansAll_forest (text : Bytes) :
    ∃ left, SpansAll (forest text).trees (lexemesFrom text 0) left ∧
      left.head? = (forest text).stray.map (⟨.closing, ·⟩) := by
  apply spansAll_group
  exact rfl

end Trees

end Codegen.Source
