import Codegen.Proofs.Source.Descent
import Codegen.Proofs.Source.Progress

/-! A whole text, read from offset to offset, comes to what its trees come to. -/
namespace Codegen.Source

namespace Reader

variable {α β : Type} {r : Reader} {st low : Nat} {items : List Tree} {stop : Option Nat}

section Words

theorem agrees_quoted (holds : Holds r.text st items stop) :
    Agrees r (r.quoted (r.context.next stop items)) (readQuoted r.context stop items)
      (Reaches r.text (r.context.next stop items) stop) := by
  cases items with
  | nil =>
    cases stop with
    | none =>
      change Agrees r (r.quoted r.text.length) (Source.fail r.text.length .textExpected) _
      rw [quoted, if_pos rfl]
      exact .fail _ _
    | some close =>
      obtain ⟨b, found, _, _, quotes⟩ := (stands_closing holds).byte
      change Agrees r (r.quoted close) (Source.fail close .textExpected) _
      rw [quoted_of_differs found (by simp [quotes])]
      exact .fail _ _
  | cons t items =>
    obtain ⟨_, e, stands⟩ := holds.first
    obtain ⟨b, found, _, _, quotes⟩ := stands.byte
    change Agrees r (r.quoted t.start) _ (Reaches r.text t.start stop)
    cases t with
    | atom start word | list start inner stop' =>
      rw [quoted_of_differs found (by simp [quotes, Tree.first])]
      exact .fail _ _
    | quoted start body =>
      rw [quotes.mpr (.inr ⟨body, rfl⟩)] at found
      rcases quoted_eq found with ⟨body', stands', read⟩ | ⟨stands', _⟩
      · cases stands.unique stands'
        rw [read, valueOf, readQuoted]
        cases Quoted.decode body with
        | none => exact .fail _ _
        | some value => exact .pure ⟨rfl, stands'.lt.1, holds.next (by simp) stands'⟩
      · cases stands.unique stands'
    | unclosed start =>
      rw [quotes.mpr (.inl rfl)] at found
      rcases quoted_eq found with ⟨body, stands', _⟩ | ⟨_, read⟩
      · cases stands.unique stands'
      · rw [read]
        exact .fail _ _

def spelled (word : Bytes) : List Tree → Bool
  | .atom _ found :: _ => found == word
  | _ => false

def headed (word : Bytes) : List Tree → Bool
  | .list _ items _ :: _ => spelled word items
  | _ => false

theorem exists_of_headed {word : Bytes} (found : headed word items = true) :
    ∃ start offset inner stop' rest,
      items = .list start (.atom offset word :: inner) stop' :: rest := by
  unfold headed at found
  split at found
  · next start inner stop' rest =>
    unfold spelled at found
    split at found
    · next offset word' inner =>
      cases beq_iff_eq.mp found
      exact ⟨start, offset, inner, stop', rest, rfl⟩
    · contradiction
  · contradiction

theorem wordAt_of_holds (holds : Holds r.text st items stop) (word : Bytes) :
    r.wordAt word (r.context.next stop items) = pure (spelled word items) := by
  rcases atom_of_holds holds with ⟨start, found, rest, e, rfl, read, _⟩ | ⟨other, missing⟩
  · change r.wordAt word start = _
    rw [wordAt, read]
    rfl
  · rw [wordAt, missing, spelled]
    · rfl
    · exact other

theorem headedAt_of_holds (holds : Holds r.text st items stop) (word : Bytes) :
    r.headedAt word (r.context.next stop items) = pure (headed word items) := by
  have other {i : Nat} {b : UInt8} (found : r.text[i]? = some b) (other : b ≠ 40) :
      r.headedAt word i = pure false := by
    have within := (List.getElem?_eq_some_iff.mp found).1
    rw [headedAt, if_neg (by omega), byteAt_eq found, pure_bind, if_neg other]
  cases items with
  | nil =>
    cases stop with
    | none => exact if_pos (le_refl _)
    | some close =>
      obtain ⟨b, found, opens, _⟩ := (stands_closing holds).byte
      exact other found (by simp [opens])
  | cons t items =>
    obtain ⟨_, e, stands⟩ := holds.first
    obtain ⟨b, found, opens, _⟩ := stands.byte
    cases t with
    | atom start word | quoted start body | unclosed start =>
      exact other found (by simp [opens, Tree.first])
    | list start inner stop' =>
      obtain ⟨found, inside, _⟩ := holds.list
      have within := (List.getElem?_eq_some_iff.mp found).1
      change r.headedAt word start = pure (spelled word inner)
      rw [headedAt, if_neg (by omega), byteAt_eq found, pure_bind, if_pos rfl, (skip_of_holds inside).1,
        pure_bind, wordAt_of_holds inside]

end Words

section Functions

theorem agrees_mark (holds : Holds r.text st items stop) (later : low < st) :
    Agrees r (r.mark st) (pure (inlineMarked items)) (Reaches r.text low stop) := by
  obtain ⟨skipped, after, _⟩ := skip_of_holds holds
  rw [mark, skipped, pure_bind, wordAt_of_holds holds, pure_bind]
  rcases atom_of_holds holds with ⟨start, word, rest, e, rfl, read, later', inside⟩ | ⟨other, _⟩
  · change st ≤ start at after
    rw [spelled, inlineMarked]
    split
    · change Agrees r (do
        let i ← ended Prod.snd (r.atom start)
        return (true, i)) _ _
      rw [read, ended_pure, pure_bind]
      exact .pure ⟨rfl, by dsimp only; omega, inside⟩
    · exact .pure ⟨rfl, later, holds⟩
  · rw [spelled, inlineMarked]
    · exact .pure ⟨rfl, later, holds⟩
    · exact other
    · exact other

theorem agrees_paramNames (holds : Holds r.text st items stop) (later : low < st)
    (seen : List Bytes) :
    Agrees r (r.paramNames seen st) (readParamWords r.context stop seen items)
      (ReachesEnd r.text low stop) := by
  induction items generalizing st seen with
  | nil =>
    obtain ⟨skipped, after, here⟩ := skip_of_holds holds
    rw [paramNames, skipped, pure_bind, differs_of_holds holds, pure_bind]
    exact .pure ⟨rfl, by dsimp only; omega, here⟩
  | cons t items ih =>
    obtain ⟨skipped, after, here⟩ := skip_of_holds holds
    rw [paramNames, skipped, pure_bind, differs_of_holds holds, pure_bind, if_pos (by rfl),
      readParamWords]
    rcases atom_of_holds holds with
      ⟨start, word, rest, e, same, read, later', inside⟩ | ⟨other, missing⟩
    · cases same
      have bound := inside.within
      simp only [Context.next, Tree.start, readWord, read, pure_bind] at after ⊢
      split
      · exact .fail _ _
      · refine .bind (.onward ?_ (ih inside (by omega) (word :: seen))) ?_
        · simp only [ahead]
          omega
        rintro ⟨names, i⟩ _ ⟨rfl, later, holds⟩
        exact .pure ⟨rfl, later, holds⟩
    · rw [missing, fail_bind, readWord_of_ne _ _ other, atomMissing_bind]
      exact .fail _ _

theorem readParams_of_other {cx : Context} (other : headed paramsMark items = false) :
    readParams cx items = pure ([], items) := by
  unfold readParams
  split
  · next start offset head names stop rest =>
    change (head == paramsMark) = false at other
    rw [other]
    rfl
  · rfl

theorem agrees_paramList (holds : Holds r.text st items stop) (later : low < st) :
    Agrees r (r.paramList st) (readParams r.context items) (Reaches r.text low stop) := by
  obtain ⟨skipped, after, here⟩ := skip_of_holds holds
  rw [paramList, skipped, pure_bind, headedAt_of_holds holds, pure_bind]
  cases found : headed paramsMark items with
  | false =>
    rw [readParams_of_other found]
    exact .pure ⟨rfl, later, holds⟩
  | true =>
    obtain ⟨start, offset, names, stop', rest, rfl⟩ := exists_of_headed found
    obtain ⟨_, inside, outside, ends⟩ := holds.list
    obtain ⟨skipped', after', _⟩ := skip_of_holds inside
    obtain ⟨e, read, later', listed⟩ := atom_of_cons inside
    have split :
        readParams r.context (.list start (.atom offset paramsMark :: names) stop' :: rest) = do
          let params ← readParamWords r.context stop' [] names
          expectEnd r.context stop' []
          return (params, rest) := by
      simp [readParams, readParamNames_eq]
    simp only [Context.next, Tree.start] at after after' skipped' ⊢
    rw [split, if_pos trivial, opening_of_holds holds, ended_pure, pure_bind, id_eq, skipped',
      pure_bind, read, ended_pure, pure_bind]
    have later : low < e := by omega
    refine .bind (agrees_paramNames listed later []) ?_
    rintro ⟨params, i⟩ _ ⟨rfl, later, holds⟩
    refine .bind (agrees_closing holds) ?_
    rintro i _ rfl
    exact .pure ⟨rfl, by dsimp only; omega, outside⟩

theorem agrees_func (top : r.context = ⟨r.text.length, []⟩) (holds : Holds r.text st items stop)
    (later : low < st) :
    Agrees r (r.func st) (readFuncItems r.text.length stop items) (Reaches r.text low stop) := by
  obtain ⟨skipped, after, _⟩ := skip_of_holds holds
  rw [func, skipped, pure_bind, readFuncItems, ← top]
  refine .bind (agrees_atom holds) ?_
  rintro ⟨name, i⟩ ⟨_, rest⟩ ⟨rfl, later', holds⟩
  dsimp only at later' holds ⊢
  refine .bind (.lift _) ?_
  rintro entity _ rfl
  have later : low < i := by omega
  refine .step (agrees_mark holds later) ?_
  rintro ⟨inlined, i⟩ ⟨same, later, holds⟩
  dsimp only at same later holds ⊢
  rw [same]
  refine .bind (agrees_paramList holds later) ?_
  rintro ⟨params, i⟩ ⟨_, rest⟩ ⟨rfl, later, holds⟩
  let body := (r.naming params).inside (.func name)
  have agrees : Agrees body (body.nodes i) (readNodes body.context rest) (ReachesEnd r.text low stop) :=
    agrees_nodes holds later
  refine .bind (Agrees.inside (r := r) agrees) ?_
  rintro ⟨nodes, i⟩ _ ⟨rfl, later, holds⟩
  exact .pure ⟨rfl, later, holds⟩

end Functions

section Declarations

theorem agrees_declared (top : r.context = ⟨r.text.length, []⟩)
    (holds : Holds r.text st items stop) (later : low < st) (program : Program)
    (keyword : DeclKeyword) (kst : Nat) :
    Agrees r (r.declared program keyword kst st)
      (readDeclared r.text.length program stop keyword kst items) (Reaches r.text low stop) := by
  obtain ⟨skipped, after, _⟩ := skip_of_holds holds
  unfold declared readDeclared
  rw [← top]
  cases keyword with
  | var =>
    dsimp only
    rw [skipped, pure_bind]
    refine .bind (agrees_atom holds) ?_
    rintro ⟨name, i⟩ ⟨_, rest⟩ ⟨rfl, later', holds⟩
    refine .bind (.lift _) ?_
    rintro _ _ _
    exact .pure ⟨rfl, by omega, holds⟩
  | text =>
    dsimp only
    rw [skipped, pure_bind]
    refine .bind (agrees_atom holds) ?_
    rintro ⟨name, i⟩ ⟨_, rest⟩ ⟨rfl, later', holds⟩
    dsimp only at later' holds ⊢
    refine .bind (.lift _) ?_
    rintro entity _ rfl
    obtain ⟨skipped, after', _⟩ := skip_of_holds holds
    rw [skipped, pure_bind]
    refine .bind (agrees_quoted holds) ?_
    rintro ⟨value, i⟩ ⟨_, rest⟩ ⟨rfl, later'', holds⟩
    refine .bind (.lift _) ?_
    rintro _ _ _
    exact .pure ⟨rfl, by omega, holds⟩
  | func =>
    refine .bind (agrees_func top holds later) ?_
    rintro ⟨f, i⟩ ⟨_, rest⟩ ⟨rfl, later, holds⟩
    exact .pure ⟨rfl, later, holds⟩
  | init =>
    let body := (r.naming []).inside .init
    have agrees : Agrees body (body.nodes st) (readNodes body.context items)
        (ReachesEnd r.text low stop) :=
      agrees_nodes holds later
    rw [top]
    refine .bind (Agrees.inside (r := r) agrees) ?_
    rintro ⟨nodes, i⟩ _ ⟨rfl, later, holds⟩
    exact .pure ⟨rfl, later, holds⟩
  | version => exact .fail _ _

theorem agrees_declaration (top : r.context = ⟨r.text.length, []⟩) {t : Tree}
    (holds : Holds r.text st (t :: items) stop) (program : Program) :
    Agrees r (r.declaration program t.start) (readDeclaration r.text.length program t)
      fun a b => Reaches r.text t.start stop a (b, items) := by
  obtain ⟨_, _, here⟩ := skip_of_holds holds
  have skipped : r.skip t.start = pure t.start := (skip_of_holds here).1
  obtain ⟨_, e, stands⟩ := holds.first
  obtain ⟨b, found, opens, _⟩ := stands.byte
  cases t with
  | atom start word | quoted start body | unclosed start =>
    have missing := paren_eq skipped found 40 .openingExpected
    rw [if_neg (by simp [opens, Tree.first])] at missing
    rw [declaration, opening, missing, fail_bind]
    exact .fail _ _
  | list start inner stop' =>
    obtain ⟨_, inside, outside, ends⟩ := holds.list
    obtain ⟨skipped', after, _⟩ := skip_of_holds inside
    rw [readDeclaration_list]
    change Agrees r (r.declaration program start) _ _
    rw [declaration, opening_of_holds holds, pure_bind, skipped', pure_bind, readDeclarationItems,
      ← top]
    refine .bind (agrees_atom inside) ?_
    rintro ⟨word, i⟩ ⟨_, rest⟩ ⟨rfl, later, holds⟩
    dsimp only at later holds ⊢
    cases DeclKeyword.ofSpelling? word with
    | none => exact .fail _ _
    | some keyword =>
      refine .bind (agrees_declared top holds later program keyword _) ?_
      rintro ⟨program, i⟩ ⟨_, rest⟩ ⟨rfl, later, holds⟩
      refine .bind (agrees_closing holds) ?_
      rintro i _ rfl
      exact .pure ⟨rfl, ends, outside⟩

theorem agrees_declarations (top : r.context = ⟨r.text.length, []⟩) (holds : Holds r.text st items stop)
    (program : Program) :
    Agrees r (r.declarations program st) (readDeclarations r.text.length stop program items)
      fun a b => a.1 = b := by
  induction items generalizing st program with
  | nil =>
    obtain ⟨skipped, _, here⟩ := skip_of_holds holds
    rw [declarations, skipped, pure_bind]
    cases stop with
    | none =>
      rw [if_neg (by simp [Reader.context, Context.next])]
      exact .pure rfl
    | some stray =>
      have stands := stands_closing holds
      obtain ⟨b, found, opens, _⟩ := stands.byte
      have bounds := stands.lt
      have inside : r.context.next (some stray) [] < r.text.length := bounds.2
      have missing := paren_eq (skip_of_holds here).1 found 40 .openingExpected
      rw [if_neg (by simp [opens])] at missing
      rw [if_pos inside, declaration, opening, missing, fail_bind, fail_bind]
      exact .fail _ _
  | cons t items ih =>
    obtain ⟨skipped, after, _⟩ := skip_of_holds holds
    obtain ⟨_, e, stands⟩ := holds.first
    have inside : r.context.next stop (t :: items) < r.text.length := stands.lt.1.trans_le stands.lt.2
    rw [declarations, skipped, pure_bind, readDeclarations, if_pos inside]
    refine .bind (agrees_declaration top holds program) ?_
    rintro ⟨program, i⟩ _ ⟨rfl, later, holds⟩
    have bound := holds.within
    have further : st < i := after.trans_lt later
    refine .onward ?_ (ih holds program)
    simp only [ahead]
    omega

/-- No atom stands where there is something to pass over. -/
theorem atom_of_gap (holds : Holds r.text st items stop) (gap : r.context.next stop items ≠ st) :
    r.atom st = r.fail st .atomExpected := by
  apply atom_of_nil
  by_contra present
  have stands : Stands r.text (.atom _) st _ := .atom rfl present
  have here := (skip_of_cons holds.within stands.lexemes).1
  have same := congrFun ((skip_of_holds holds).1.symm.trans here) {}
  cases same
  exact gap rfl

theorem readHeader_of_other {length : Nat}
    (other : headed DeclKeyword.version.spelling items = false) :
    readHeader length items = pure items := by
  unfold readHeader
  split
  · next start offset head names stop rest =>
    change (head == DeclKeyword.version.spelling) = false at other
    rw [other]
    rfl
  · rfl

/-- A version agrees, be its keyword right after the parenthesis or not. -/
theorem agrees_version (top : r.context = ⟨r.text.length, []⟩) {start offset : Nat} {inner : List Tree}
    {stop' : Option Nat} {trees : List Tree}
    (listed : trees = .list start (.atom offset DeclKeyword.version.spelling :: inner) stop' :: items)
    (holds : Holds r.text st trees stop) :
    Agrees r (r.version start) (readHeader r.text.length trees)
      fun i rest => Holds r.text i rest stop := by
  subst listed
  obtain ⟨_, inside, outside, _⟩ := holds.list
  rw [version, opening_of_holds holds, ended_pure, pure_bind, id_eq, readHeader, ← top]
  by_cases gap : offset = start + 1
  · obtain ⟨e, read, _, after⟩ := atom_of_cons inside
    simp only [gap, beq_self_eq_true, if_true]
    rw [← gap, read, ended_pure, pure_bind, (skip_of_holds after).1, pure_bind]
    refine .bind (agrees_quoted after) ?_
    rintro ⟨value, i⟩ ⟨_, rest⟩ ⟨rfl, _, last⟩
    dsimp only at last ⊢
    cases Version.parse value with
    | error fault => exact .fail _ _
    | ok version =>
      dsimp only
      split
      · rw [← bind_pure (r.closing i)]
        refine .bind (agrees_closing last) ?_
        rintro i _ rfl
        exact .pure outside
      · exact .fail _ _
  · -- The keyword is not passed over, and is found where a quote has to be.
    obtain ⟨_, e, stands⟩ := inside.first
    obtain ⟨b, found, _, _, quotes⟩ := stands.byte
    have skipped : r.skip (start + 1) = pure offset := (skip_of_holds inside).1
    have missing : r.quoted offset = r.fail offset .textExpected :=
      quoted_of_differs found (by simp [quotes, Tree.first])
    rw [atom_of_gap inside gap, ended_fail, pure_bind, skipped, pure_bind, missing, fail_bind]
    simp only [beq_self_eq_true, if_true, beq_false_of_ne gap]
    exact .fail _ _

theorem agrees_header (top : r.context = ⟨r.text.length, []⟩) (holds : Holds r.text st items stop) :
    Agrees r (r.header st) (readHeader r.text.length items) fun i rest => Holds r.text i rest stop := by
  obtain ⟨skipped, _, here⟩ := skip_of_holds holds
  rw [header, skipped, pure_bind, headedAt_of_holds holds, pure_bind]
  cases found : headed DeclKeyword.version.spelling items with
  | false =>
    rw [readHeader_of_other found]
    exact .pure here
  | true =>
    obtain ⟨start, offset, inner, stop', rest, listed⟩ := exists_of_headed found
    have at_start : r.context.next stop items = start := by rw [listed]; rfl
    rw [if_pos rfl, at_start]
    exact agrees_version top listed holds

/-- The trees of a text are found from its start on. -/
theorem holds_forest (text : Bytes) : Holds text 0 (forest text).trees (forest text).stray := by
  obtain ⟨left, spans, first⟩ := spansAll_forest text
  refine ⟨Nat.zero_le _, ?_⟩
  cases stray : (forest text).stray with
  | none =>
    rw [stray] at first
    cases List.head?_eq_none_iff.mp first
    exact spans
  | some close =>
    rw [stray] at first
    obtain ⟨rest, rfl⟩ := List.head?_eq_some_iff.mp first
    obtain ⟨e, _, bound, same⟩ := exists_lexemesFrom (Nat.zero_le _) spans.suffix
    obtain ⟨_, f, stands, rfl⟩ := stands_of_cons bound same.symm
    cases stands
    exact spans

theorem agrees_program (text : Bytes) :
    Agrees { text } (program { text }) (readForest text.length (forest text)) fun a b => a.1 = b :=
  .bind (agrees_header rfl (holds_forest text)) fun _ _ holds => agrees_declarations rfl holds {}

end Declarations

end Reader

/-- Reading from offset to offset comes to the program of a text, or to its first fault. -/
theorem walk_eq_read (text : Bytes) : walk text = (read text).mapError .fault := by
  have opened : read text = (readForest text.length (forest text) {}).map withScope := rfl
  rw [walk, opened]
  rcases Reader.agrees_program text {} with
    ⟨a, program, names, done, done', rfl⟩ | ⟨fault, stops, stops'⟩
  · rw [done, done']
    rfl
  · rw [stops, stops']
    rfl

/-- From an offset on, each part of the reader comes to a result or to a fault between the offset and
the end of the text. Nothing looks beyond the end, and no repetition starts again where it was. -/
structure Reader.Progresses (r : Reader) (st : Nat) : Prop where
  skip : ∃ e, r.skip st = pure e ∧ st ≤ e ∧ IsLeast (stations r.text st) e
  opening : Safe r.text st (r.opening st) fun e => st < e ∧ e ≤ r.text.length
  closing : Safe r.text st (r.closing st) fun e => st < e ∧ e ≤ r.text.length
  atom : Safe r.text st (r.atom st) fun (_, e) => st < e ∧ e ≤ r.text.length
  quoted : Safe r.text st (r.quoted st) fun (_, e) => st < e ∧ e ≤ r.text.length
  node : Safe r.text st (r.node st) fun (_, e) => st < e ∧ e ≤ r.text.length
  nodes : Safe r.text st (r.nodes st) fun (_, e) => st ≤ e ∧ e ≤ r.text.length
  paramNames : ∀ seen, Safe r.text st (r.paramNames seen st) fun (_, e) => st ≤ e ∧ e ≤ r.text.length
  func : Safe r.text st (r.func st) fun (_, e) => st < e ∧ e ≤ r.text.length
  declaration : ∀ program,
    Safe r.text st (r.declaration program st) fun (_, e) => st < e ∧ e ≤ r.text.length
  header : Safe r.text st (r.header st) fun e => st ≤ e ∧ e ≤ r.text.length
  declarations : ∀ program, Safe r.text st (r.declarations program st) fun (_, e) => e = r.text.length
  program : Safe r.text 0 r.program fun (_, e) => e = r.text.length

/-- The reader progresses from every offset of every text, and from the start it reads what the trees
of the text say. -/
theorem Reader.progresses_within (r : Reader) {st : Nat} (within : st ≤ r.text.length) :
    r.Progresses st ∧ walk r.text = (read r.text).mapError .fault where
  left := {
    skip := isLeast_skip within
    opening := safe_paren within 40 .openingExpected
    closing := safe_paren within 41 .closingExpected
    atom := safe_atom within
    quoted := safe_quoted within
    node := safe_node within
    nodes := safe_nodes within
    paramNames := safe_paramNames within
    func := safe_func within
    declaration := safe_declaration within
    header := safe_header within
    declarations := safe_declarations within
    program := safe_program }
  right := walk_eq_read r.text

/-- Inside a comment, at a quote that nothing closes, before a backslash that ends the text. -/
theorem Reader.progresses_within_comment :
    3 ≤ [40, 97, 59, 34, 92].length ∧ Reader.Progresses { text := [40, 97, 59, 34, 92] } 3 ∧
      walk [40, 97, 59, 34, 92] = (read [40, 97, 59, 34, 92]).mapError .fault :=
  ⟨by decide, Reader.progresses_within { text := [40, 97, 59, 34, 92] } (by decide)⟩

end Codegen.Source
