import Codegen.Proofs.Source.Places
import Codegen.Proofs.Source.Reader

/-! What is read from an offset, if it is a word: exactly the token that stands there. -/
namespace Codegen.Source.Reader

section Walks

variable {α β : Type} (r : Reader)

/-- What a part is inside of is said when the part is read, or by what is around it. -/
theorem lift_inside (a : Around) (p : Read α) : (r.inside a).lift p = r.lift (within a p) := by
  funext names
  cases done : p names <;> simp [lift, within, inside, done, Except.mapError]

@[simp] theorem fail_bind (offset : Nat) (cause : Cause) (f : α → Walk β) :
    (r.fail offset cause : Walk α) >>= f = r.fail offset cause := rfl

@[simp] theorem ended_pure (offset : α → Nat) (a : α) : ended offset (pure a) = pure (offset a) := rfl

@[simp] theorem ended_fail (offset : α → Nat) (i : Nat) (cause : Cause) :
    ended offset (r.fail i cause) = pure i := rfl

end Walks

variable {r : Reader}

theorem byteAt_eq {i : Nat} {b : UInt8} (found : r.text[i]? = some b) : r.byteAt i = pure b := by
  rw [byteAt, found]

theorem exists_byte {i : Nat} (within : i < r.text.length) : ∃ b, r.text[i]? = some b :=
  ⟨_, List.getElem?_eq_getElem within⟩

theorem differs_eq {i : Nat} {b : UInt8} (found : r.text[i]? = some b) (other : UInt8) :
    r.differs other i = pure (b != other) := by
  have within := (List.getElem?_eq_some_iff.mp found).1
  simp [differs, within, byteAt_eq found]

theorem differs_end (other : UInt8) : r.differs other r.text.length = pure false := by
  simp [differs]

theorem advance_eq (goesOn : UInt8 → Bool) (i : Nat) :
    r.advance goesOn i = pure (i + ((r.text.drop i).takeWhile goesOn).length) := by
  induction left : r.text.length - i generalizing i with
  | zero =>
    have ends : ¬ i < r.text.length := by omega
    rw [advance, if_neg ends, List.drop_eq_nil_of_le (by omega)]
    rfl
  | succ left ih =>
    have within : i < r.text.length := by omega
    obtain ⟨b, found⟩ := exists_byte within
    rw [advance, if_pos within, byteAt_eq found, pure_bind, drop_eq_cons found, ih (i + 1) (by omega)]
    by_cases goes : goesOn b = true
    · simp [goes, Nat.add_assoc, Nat.add_comm 1]
    · simp [goes]

section Gaps

/-- Where blanks and comments have been passed over, a token stands or the text ends. -/
theorem exists_skip {st : Nat} (within : st ≤ r.text.length) :
    ∃ e, r.skip st = pure e ∧ st ≤ e ∧ e ≤ r.text.length ∧
      lexemesFrom r.text e = lexemesFrom r.text st ∧
      (e = r.text.length ∨ ∃ t f, Stands r.text t e f) := by
  induction left : r.text.length - st using Nat.strongRecOn generalizing st with
  | ind left ih =>
    rw [skip]
    by_cases ends : st < r.text.length
    · obtain ⟨b, found⟩ := exists_byte ends
      rw [if_pos ends, byteAt_eq found, pure_bind]
      by_cases blank : isBlank b = true
      · have within' : st + 1 ≤ r.text.length := ends
        obtain ⟨e, skipped, after, bound, same, stops⟩ := ih _ (by omega) within' rfl
        refine ⟨e, ?_, by omega, bound, ?_, stops⟩
        · rw [if_pos blank, skipped]
        · rw [same, lexemesFrom_blank found blank]
      · rw [if_neg blank]
        by_cases comment : b = 59
        · subst comment
          -- The comment has at least its semicolon, so less is ahead after it.
          have split := drop_eq_cons found
          have length := (List.takeWhile_prefix (· != 10) (l := r.text.drop st)).length_le
          have later : 0 < ((r.text.drop st).takeWhile (· != 10)).length := by
            rw [split, List.takeWhile_cons_of_pos (by decide)]
            exact Nat.succ_pos _
          rw [List.length_drop] at length
          have skipped := advance_eq (r := r) (· != 10) st
          have same := lexemesFrom_comment found
          generalize ((r.text.drop st).takeWhile (· != 10)).length = k at length later skipped same
          have less : r.ahead (st + k) < r.ahead st := by
            simp only [ahead]
            omega
          have within' : st + k ≤ r.text.length := by omega
          obtain ⟨e, skipped', after, bound, same', stops⟩ := ih _ (by omega) within' rfl
          refine ⟨e, ?_, by omega, bound, same'.trans same.symm, stops⟩
          rw [if_pos rfl, skipped, pure_bind, onward, dif_pos less, skipped']
        · refine ⟨st, by rw [if_neg comment], le_refl st, within, rfl, .inr ?_⟩
          exact exists_stands found (by simpa using blank) comment
    · exact ⟨st, by rw [if_neg ends], le_refl st, within, rfl, .inl (by omega)⟩

/-- Without lexemes all is passed over. -/
theorem skip_of_nil {st : Nat} (within : st ≤ r.text.length) (none : lexemesFrom r.text st = []) :
    r.skip st = pure r.text.length := by
  obtain ⟨e, skipped, _, _, same, rfl | ⟨t, f, stands⟩⟩ := exists_skip within
  · exact skipped
  · rw [none, stands.lexemes] at same
    contradiction

/-- The first lexeme is where what is passed over ends. -/
theorem skip_of_cons {st : Nat} (within : st ≤ r.text.length) {t : Token} {s : Nat}
    {rest : List Lexeme} (first : lexemesFrom r.text st = ⟨t, s⟩ :: rest) :
    r.skip st = pure s ∧ st ≤ s ∧ ∃ f, Stands r.text t s f ∧ rest = lexemesFrom r.text f := by
  obtain ⟨e, skipped, after, _, same, rfl | ⟨t', f, stands⟩⟩ := exists_skip within
  · rw [lexemesFrom_length, first] at same
    contradiction
  · rw [first, stands.lexemes] at same
    cases same
    exact ⟨skipped, after, f, stands, rfl⟩

theorem stands_of_cons {text : Bytes} {st : Nat} (within : st ≤ text.length) {t : Token} {s : Nat}
    {rest : List Lexeme} (first : lexemesFrom text st = ⟨t, s⟩ :: rest) :
    st ≤ s ∧ ∃ f, Stands text t s f ∧ rest = lexemesFrom text f :=
  (skip_of_cons (r := { text }) within first).2

/-- What is left of the lexemes from an offset on are the lexemes from a later one on. -/
theorem exists_lexemesFrom {text : Bytes} {st : Nat} (within : st ≤ text.length)
    {rest : List Lexeme} (left : rest <:+ lexemesFrom text st) :
    ∃ e, st ≤ e ∧ e ≤ text.length ∧ rest = lexemesFrom text e := by
  induction all : lexemesFrom text st generalizing st with
  | nil =>
    rw [all, List.suffix_nil] at left
    exact ⟨st, le_refl st, within, left.trans all.symm⟩
  | cons l ls ih =>
    rw [all, List.suffix_cons_iff] at left
    rcases left with rfl | left
    · exact ⟨st, le_refl st, within, all.symm⟩
    · obtain ⟨after, f, stands, rfl⟩ := stands_of_cons within all
      have bounds := stands.lt
      obtain ⟨e, later, bound, same⟩ := ih bounds.2 left rfl
      exact ⟨e, by omega, bound, same⟩

theorem start_of_mem {text : Bytes} {st : Nat} (within : st ≤ text.length) {l : Lexeme}
    (member : l ∈ lexemesFrom text st) : st ≤ l.start ∧ l.start < text.length := by
  obtain ⟨before, rest, split⟩ := List.append_of_mem member
  obtain ⟨e, later, bound, same⟩ := exists_lexemesFrom within ⟨before, split.symm⟩
  obtain ⟨after, f, stands, _⟩ := stands_of_cons bound same.symm
  have bounds := stands.lt
  omega

/-- Where the text ends, or a token starts that is found from an offset on. -/
def stations (text : Bytes) (st : Nat) : Set Nat :=
  {i | i = text.length ∨ ∃ l ∈ lexemesFrom text st, l.start = i}

/-- No token is passed over. -/
theorem isLeast_skip {st : Nat} (within : st ≤ r.text.length) :
    ∃ e, r.skip st = pure e ∧ st ≤ e ∧ IsLeast (stations r.text st) e := by
  cases found : lexemesFrom r.text st with
  | nil =>
    refine ⟨_, skip_of_nil within found, within, .inl rfl, ?_⟩
    rintro i (rfl | ⟨l, member, rfl⟩)
    · exact le_refl _
    · rw [found] at member
      contradiction
  | cons first rest =>
    obtain ⟨skipped, after, f, stands, rfl⟩ := skip_of_cons within found
    have bounds := stands.lt
    refine ⟨_, skipped, after, .inr ⟨first, ?_, rfl⟩, ?_⟩
    · rw [found]
      exact List.mem_cons_self ..
    · rintro i (rfl | ⟨l, member, rfl⟩)
      · omega
      · rw [found] at member
        rcases List.mem_cons.mp member with rfl | later
        · exact le_refl _
        · have := start_of_mem bounds.2 later
          omega

end Gaps

section Tokens

variable {s e : Nat}

theorem paren_eq {st i : Nat} (skipped : r.skip st = pure i) {b : UInt8}
    (found : r.text[i]? = some b) (byte : UInt8) (missing : Cause) :
    r.paren byte missing st = if b = byte then pure (i + 1) else r.fail i missing := by
  have within := (List.getElem?_eq_some_iff.mp found).1
  rw [paren, skipped, pure_bind, if_neg (by omega), byteAt_eq found, pure_bind]

theorem paren_end {st : Nat} (skipped : r.skip st = pure r.text.length) (byte : UInt8)
    (missing : Cause) : r.paren byte missing st = r.fail r.text.length missing := by
  rw [paren, skipped, pure_bind, if_pos rfl]

theorem atom_of_stands {word : Bytes} (stands : Stands r.text (.atom word) s e) :
    r.atom s = pure (word, e) := by
  have bounds := stands.lt
  cases stands with
  | atom found present =>
    have part : r.text.extract s (s + word.length) = word := by
      have start := List.takeWhile_prefix isAtomByte (l := r.text.drop s)
      rw [found] at start
      simpa using (List.prefix_iff_eq_take.mp start).symm
    have length := List.length_pos_iff.mpr present
    rw [atom, advance_eq, found, pure_bind, if_neg (by omega), slice, if_pos (by omega), part]
    rfl

theorem atom_of_nil {st : Nat} (none : (r.text.drop st).takeWhile isAtomByte = []) :
    r.atom st = r.fail st .atomExpected := by
  rw [atom, advance_eq, none, pure_bind]
  exact if_pos rfl

/-- No byte of an atom stands here. -/
theorem atom_of_ends {st : Nat} (ends : Ends (r.text.drop st)) :
    r.atom st = r.fail st .atomExpected := by
  apply atom_of_nil
  cases rest : r.text.drop st with
  | nil => rfl
  | cons b bytes =>
    have stops : isAtomByte b = false := ends b (by rw [rest]; rfl)
    rw [List.takeWhile_cons_of_neg (by simp [stops])]

end Tokens

section Quotes

theorem quoteEnd_of_byte {i : Nat} {b : UInt8} (found : r.text[i]? = some b) (inside : b ≠ 34) :
    r.quoteEnd i = r.quoteEnd (if b = 92 then i + 2 else i + 1) := by
  have within := (List.getElem?_eq_some_iff.mp found).1
  rw [quoteEnd, if_pos within, byteAt_eq found, pure_bind, if_neg inside]

/-- The quote that closes is found, or there is none and the end is passed. -/
theorem exists_quoteEnd (i : Nat) :
    ∃ j, r.quoteEnd i = pure j ∧
      ((r.text.length ≤ j ∧ ∃ isProtected, protects? false (r.text.drop i) = some isProtected) ∨
        ∃ body rest, r.text.drop i = body ++ 34 :: rest ∧ protects? false body = some false ∧
          j = i + body.length) := by
  induction left : r.text.length - i using Nat.strongRecOn generalizing i with
  | ind left ih =>
    by_cases ends : i < r.text.length
    · obtain ⟨b, found⟩ := exists_byte ends
      have split := drop_eq_cons found
      by_cases quote : b = 34
      · subst quote
        refine ⟨i, ?_, .inr ⟨[], _, split, rfl, rfl⟩⟩
        rw [quoteEnd, if_pos ends, byteAt_eq found, pure_bind, if_pos rfl]
      rw [quoteEnd_of_byte found quote]
      by_cases backslash : b = 92
      · subst backslash
        rw [if_pos rfl]
        cases after : r.text.drop (i + 1) with
        | nil =>
          -- The backslash is the last byte, and the next offset is one beyond the end.
          have last := List.drop_eq_nil_iff.mp after
          refine ⟨i + 2, ?_, .inl ⟨by omega, true, ?_⟩⟩
          · rw [quoteEnd, if_neg (by omega)]
          · rw [split, after]
            rfl
        | cons c rest =>
          have next : r.text.drop (i + 1) = c :: r.text.drop (i + 2) :=
            drop_eq_cons (getElem?_of_drop after)
          rw [next] at split
          obtain ⟨j, closes, ⟨beyond, isProtected, unclosed⟩ | ⟨body, rest, after, closed, rfl⟩⟩ :=
            ih _ (by omega) (i + 2) rfl
          · exact ⟨j, closes, .inl ⟨beyond, isProtected, split ▸ unclosed⟩⟩
          · refine ⟨_, closes, .inr ⟨92 :: c :: body, rest, ?_, closed, ?_⟩⟩
            · rw [split, after, List.cons_append, List.cons_append]
            · rw [List.length_cons, List.length_cons]
              omega
      · rw [if_neg backslash]
        obtain ⟨j, closes, ⟨beyond, isProtected, unclosed⟩ | ⟨body, rest, after, closed, rfl⟩⟩ :=
          ih _ (by omega) (i + 1) rfl
        · refine ⟨j, closes, .inl ⟨beyond, isProtected, ?_⟩⟩
          rw [split, protects?, if_neg quote, beq_eq_false_iff_ne.mpr backslash, unclosed]
        · refine ⟨_, closes, .inr ⟨b :: body, rest, ?_, ?_, ?_⟩⟩
          · rw [split, after, List.cons_append]
          · rw [protects?, if_neg quote, beq_eq_false_iff_ne.mpr backslash, closed]
          · rw [List.length_cons]
            omega
    · refine ⟨i, ?_, .inl ⟨by omega, false, ?_⟩⟩
      · rw [quoteEnd, if_neg ends]
      · rw [List.drop_eq_nil_of_le (by omega), protects?]

theorem quoted_of_differs {s : Nat} {b : UInt8} (found : r.text[s]? = some b) (other : b ≠ 34) :
    r.quoted s = r.fail s .textExpected := by
  have within := (List.getElem?_eq_some_iff.mp found).1
  rw [quoted, if_neg (by omega), byteAt_eq found, pure_bind, if_neg other]

/-- Text between quotes is found as the scanner finds it. -/
theorem quoted_eq {s : Nat} (found : r.text[s]? = some 34) :
    (∃ body, Stands r.text (.quoted body) s (s + (body.length + 2)) ∧
      r.quoted s = (·, s + (body.length + 2)) <$> r.valueOf s body) ∨
      Stands r.text .unclosed s r.text.length ∧ r.quoted s = r.fail s .unclosedText := by
  have within := (List.getElem?_eq_some_iff.mp found).1
  have split := drop_eq_cons found
  obtain ⟨j, closes, ⟨beyond, isProtected, unclosed⟩ | ⟨body, rest, after, closed, rfl⟩⟩ :=
    exists_quoteEnd (r := r) (s + 1)
  · refine .inr ⟨.unclosed split unclosed, ?_⟩
    rw [quoted, if_neg (by omega), byteAt_eq found, pure_bind, if_pos rfl, closes, pure_bind,
      if_pos beyond]
  · rw [after] at split
    have stands : Stands r.text (.quoted body) s (s + (body.length + 2)) := .quoted split closed
    have bound := stands.lt.2
    have whole : r.text.extract s (s + 1 + body.length + 1) = 34 :: (body ++ [34]) := by
      have length : s + 1 + body.length + 1 - s = body.length + 1 + 1 := by omega
      rw [List.extract_eq_take_drop, split, length, List.take_succ_cons, List.take_length_add_append]
      rfl
    refine .inl ⟨body, stands, ?_⟩
    rw [quoted, if_neg (by omega), byteAt_eq found, pure_bind, if_pos rfl, closes, pure_bind,
      if_neg (by omega), slice, if_pos (by omega), whole, pure_bind]
    simp [Nat.add_assoc, Nat.add_comm 1]

end Quotes

end Codegen.Source.Reader
