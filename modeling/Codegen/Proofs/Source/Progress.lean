import Codegen.Proofs.Source.Words

/-! Reading from an offset stays between that offset and the end of the text, and what is read takes
at least one byte, so that every repetition starts further on. -/
namespace Codegen.Source.Reader

variable {α β : Type} {r : Reader} {st : Nat}

/-- A walk has a result as described, or a fault between an offset and the end of the text. -/
def Safe (text : Bytes) (st : Nat) (walk : Walk α) (P : α → Prop) : Prop :=
  ∀ names, (∃ a after, walk names = .ok (a, after) ∧ P a) ∨
    ∃ fault, walk names = .error (.fault fault) ∧ st ≤ fault.offset ∧ fault.offset ≤ text.length

namespace Safe

variable {text : Bytes} {walk : Walk α} {P Q : α → Prop}

theorem pure {a : α} (holds : P a) : Safe text st (pure a) P :=
  fun names => .inl ⟨a, names, rfl, holds⟩

theorem fail {i : Nat} (after : st ≤ i) (within : i ≤ text.length) (r : Reader) (cause : Cause) :
    Safe text st (r.fail i cause) P :=
  fun _ => .inr ⟨_, rfl, after, within⟩

theorem bind {next : α → Walk β} {P : β → Prop} (first : Safe text st walk Q)
    (rest : ∀ a, Q a → Safe text st (next a) P) : Safe text st (walk >>= next) P := by
  intro names
  rcases first names with ⟨a, after, done, holds⟩ | ⟨fault, stops, bounds⟩
  · have run : (walk >>= next) names = next a after := by
      simp [Bind.bind, StateT.bind, Except.bind, done]
    rw [run]
    exact rest a holds after
  · refine .inr ⟨fault, ?_, bounds⟩
    simp [Bind.bind, StateT.bind, Except.bind, stops]

/-- A part may be read from further on, and may come to more than is needed. -/
theorem mono {i : Nat} (safe : Safe text i walk Q) (after : st ≤ i) (implies : ∀ a, Q a → P a) :
    Safe text st walk P := by
  intro names
  rcases safe names with ⟨a, later, done, holds⟩ | ⟨fault, stops, low, high⟩
  · exact .inl ⟨a, later, done, implies a holds⟩
  · exact .inr ⟨fault, stops, after.trans low, high⟩

theorem later {i : Nat} (safe : Safe text i walk P) (after : st ≤ i) : Safe text st walk P :=
  safe.mono after fun _ => id

theorem lift {part : Read α} (r : Reader)
    (faults : ∀ names fault, part names = .error fault →
      st ≤ fault.offset ∧ fault.offset ≤ text.length) :
    Safe text st (r.lift part) fun _ => True := by
  intro names
  cases done : part names with
  | ok result => exact .inl ⟨result.1, result.2, by simp [Reader.lift, done, Except.mapError], trivial⟩
  | error fault =>
    refine .inr ⟨{ fault with around := r.around ++ fault.around }, ?_, faults names fault done⟩
    simp [Reader.lift, done, Except.mapError]

/-- Some parts have no faults. -/
theorem lift_of_ok {part : Read α} (r : Reader) (ok : ∀ names, ∃ result, part names = .ok result) :
    Safe text st (r.lift part) fun _ => True := by
  apply lift
  intro names fault stops
  obtain ⟨result, done⟩ := ok names
  rw [done] at stops
  contradiction

theorem caught (safe : Safe text st walk P) :
    Safe text st (caught walk) fun
      | .ok a => P a
      | .error fault => st ≤ fault.offset ∧ fault.offset ≤ text.length := by
  intro names
  rcases safe names with ⟨a, after, done, holds⟩ | ⟨fault, stops, bounds⟩
  · exact .inl ⟨.ok a, after, by simp only [Reader.caught, done], holds⟩
  · exact .inl ⟨.error fault, names, by simp only [Reader.caught, stops], bounds⟩

theorem ended {offset : α → Nat}
    (safe : Safe text st walk fun a => st ≤ offset a ∧ offset a ≤ text.length) :
    Safe text st (ended offset walk) fun i => st ≤ i ∧ i ≤ text.length := by
  refine .bind safe.caught ?_
  rintro (fault | a) bounds
  · exact .pure bounds
  · exact .pure bounds

theorem onward {i : Nat} {less : Prop} [Decidable less] {go : less → Walk α} (further : less)
    (safe : Safe text st (go further) P) : Safe text st (onward i less go) P := by
  rwa [Reader.onward, dif_pos further]

end Safe

section Words

theorem safe_skip (within : st ≤ r.text.length) :
    Safe r.text st (r.skip st) fun i => st ≤ i ∧ i ≤ r.text.length := by
  obtain ⟨e, skipped, after, bound, _⟩ := exists_skip within
  rw [skipped]
  exact .pure ⟨after, bound⟩

theorem safe_differs (b : UInt8) (i : Nat) : Safe r.text st (r.differs b i) fun _ => True := by
  unfold differs
  by_cases ends : i < r.text.length
  · obtain ⟨c, found⟩ := exists_byte ends
    rw [if_pos ends, byteAt_eq found]
    exact .pure trivial
  · rw [if_neg ends]
    exact .pure trivial

theorem safe_paren (within : st ≤ r.text.length) (byte : UInt8) (missing : Cause) :
    Safe r.text st (r.paren byte missing st) fun i => st < i ∧ i ≤ r.text.length := by
  obtain ⟨e, skipped, after, bound, _⟩ := exists_skip within
  by_cases ends : e = r.text.length
  · subst ends
    rw [paren_end skipped]
    exact .fail after bound r missing
  · have inside : e < r.text.length := by omega
    obtain ⟨b, found⟩ := exists_byte inside
    rw [paren_eq skipped found]
    split
    · exact .pure ⟨by omega, by omega⟩
    · exact .fail after bound r missing

theorem safe_atom (within : st ≤ r.text.length) :
    Safe r.text st (r.atom st) fun p => st < p.2 ∧ p.2 ≤ r.text.length := by
  by_cases present : (r.text.drop st).takeWhile isAtomByte = []
  · rw [atom_of_nil present]
    exact .fail (le_refl st) within r .atomExpected
  · have stands : Stands r.text (.atom _) st _ := .atom rfl present
    rw [atom_of_stands stands]
    exact .pure stands.lt

theorem safe_valueOf (within : st ≤ r.text.length) (body : Bytes) :
    Safe r.text st (r.valueOf st body) fun _ => True := by
  unfold valueOf
  split
  · exact .pure trivial
  · exact .fail (le_refl st) within r .malformedText

theorem safe_quoted (within : st ≤ r.text.length) :
    Safe r.text st (r.quoted st) fun p => st < p.2 ∧ p.2 ≤ r.text.length := by
  by_cases ends : st = r.text.length
  · rw [quoted, if_pos ends]
    exact .fail (le_refl st) within r .textExpected
  · have inside : st < r.text.length := by omega
    obtain ⟨b, found⟩ := exists_byte inside
    by_cases quote : b = 34
    · subst quote
      rcases quoted_eq found with ⟨body, stands, read⟩ | ⟨_, read⟩
      · rw [read, map_eq_pure_bind]
        exact .bind (safe_valueOf within body) fun _ _ => .pure stands.lt
      · rw [read]
        exact .fail (le_refl st) within r .unclosedText
    · rw [quoted_of_differs found quote]
      exact .fail (le_refl st) within r .textExpected

end Words

section Lookups

theorem resolve_ok (cx : Context) (name : Bytes) (names : Names) :
    ∃ result, resolve cx name names = .ok result := by
  unfold resolve
  cases cx.params.idxOf? name with
  | none => exact ⟨_, rfl⟩
  | some i => exact ⟨_, rfl⟩

theorem isText_ok (symbol : Symbol) (names : Names) :
    ∃ result, isText symbol names = .ok result := by
  unfold isText
  cases symbol.place with
  | param i => exact ⟨_, rfl⟩
  | global i => exact ⟨_, rfl⟩

theorem declareName_eq (i : Nat) (name : Bytes) (kind : EntityKind) (names : Names) :
    declareName i name kind names = .error ⟨[], i, .redeclared name⟩ ∨
      ∃ result, declareName i name kind names = .ok result := by
  by_cases declared : names.declared.contains name = true
  · left
    simp only [declareName, bind, StateT.bind, get, getThe, MonadStateOf.get, StateT.get, pure,
      Except.bind, Except.pure, declared, if_true]
    rfl
  · right
    simp only [declareName, bind, StateT.bind, get, getThe, MonadStateOf.get, StateT.get, pure,
      Except.bind, Except.pure, declared]
    exact ⟨_, rfl⟩

/-- A name that is declared again is a fault where it stands. -/
theorem safe_declareName {i : Nat} (after : st ≤ i) (within : i ≤ r.text.length) (name : Bytes)
    (kind : EntityKind) : Safe r.text st (r.lift (declareName i name kind)) fun _ => True := by
  apply Safe.lift
  intro names fault stops
  rcases declareName_eq i name kind names with again | ⟨result, done⟩
  · rw [again] at stops
    cases stops
    exact ⟨after, within⟩
  · rw [done] at stops
    contradiction

end Lookups

section Nodes

structure Parts.Safe (parts : Parts) (text : Bytes) (st : Nat) : Prop where
  node : ∀ r : Reader, r.text = text → ∀ i, st ≤ i → i ≤ text.length →
    Reader.Safe text i (parts.node r i) fun p => i < p.2 ∧ p.2 ≤ text.length
  nodes : ∀ r : Reader, r.text = text → ∀ i, st ≤ i → i ≤ text.length →
    Reader.Safe text i (parts.nodes r i) fun p => i ≤ p.2 ∧ p.2 ≤ text.length

theorem safe_number (within : st ≤ r.text.length) :
    Safe r.text st (r.number st) fun p => st < p.2 ∧ p.2 ≤ r.text.length := by
  refine .bind (safe_atom within) ?_
  rintro ⟨word, i⟩ bounds
  dsimp only
  split
  · exact .pure bounds
  · exact .fail (le_refl st) within r _

theorem safe_named (within : st ≤ r.text.length) (cx : Context) :
    Safe r.text st (r.named st (resolve cx)) fun p => st < p.2 ∧ p.2 ≤ r.text.length := by
  refine .bind (safe_atom within) ?_
  rintro ⟨name, i⟩ bounds
  exact .bind (.lift_of_ok r (resolve_ok cx name)) fun _ _ => .pure bounds

/-- A walk that is read from further on, and takes something. -/
theorem Safe.from {text : Bytes} {i : Nat} {walk : Walk (α × Nat)}
    (safe : Safe text i walk fun p => i < p.2 ∧ p.2 ≤ text.length) (after : st ≤ i) :
    Safe text st walk fun p => st ≤ p.2 ∧ p.2 ≤ text.length :=
  safe.mono after fun _ bounds => ⟨by omega, bounds.2⟩

/-- Two parts, one after the other. -/
theorem safe_pair {parts : Parts} (safe : parts.Safe r.text st) {p q : Reader} (left : p.text = r.text)
    (right : q.text = r.text) {i : Nat} (after : st ≤ i) (bound : i ≤ r.text.length)
    (build : Node → Node → Node) :
    Safe r.text st (do
      let (x, i) ← parts.node p i
      let (y, i) ← parts.node q (← r.skip i)
      return (build x y, i)) fun p => st ≤ p.2 ∧ p.2 ≤ r.text.length := by
  refine .bind ((safe.node p left i after bound).from after) ?_
  rintro ⟨x, e⟩ ⟨later, bound⟩
  refine .bind ((safe_skip bound).later later) ?_
  rintro j ⟨later', bound⟩
  refine .bind ((safe.node q right j (by omega) bound).from (by omega)) ?_
  rintro ⟨y, e⟩ bounds
  exact .pure bounds

theorem safe_operands {parts : Parts} (safe : parts.Safe r.text st) (within : st ≤ r.text.length)
    (keyword : Keyword) :
    Safe r.text st (r.operands parts keyword st) fun p => st ≤ p.2 ∧ p.2 ≤ r.text.length := by
  refine .bind (safe_skip within) ?_
  rintro i ⟨after, bound⟩
  cases keyword with
  | var | addr =>
    refine .bind ((safe_named bound r.context).from after) ?_
    rintro ⟨symbol, e⟩ bounds
    exact .pure bounds
  | text =>
    refine .bind ((safe_atom bound).from after) ?_
    rintro ⟨name, e⟩ bounds
    refine .bind (.lift_of_ok r (resolve_ok r.context name)) fun symbol _ => ?_
    refine .bind (.lift_of_ok r (isText_ok symbol)) fun isText _ => ?_
    split
    · exact .pure bounds
    · exact .fail after bound r _
  | mem | unary op =>
    refine .bind ((safe.node r rfl i after bound).from after) ?_
    rintro ⟨x, e⟩ bounds
    exact .pure bounds
  | assign => exact safe_pair safe rfl rfl after bound .assign
  | binary op =>
    exact safe_pair safe (p := r.inside (.left op)) (q := r.inside (.right op)) rfl rfl after bound
      (.binary op)
  | call =>
    refine .bind ((safe_atom bound).from after) ?_
    rintro ⟨name, e⟩ ⟨later, bound⟩
    refine .bind (.lift_of_ok r fun names => ⟨_, rfl⟩) fun symbol _ => ?_
    refine .bind ((safe.nodes (r.inside (.call name)) rfl e later bound).later later) ?_
    rintro ⟨args, e⟩ ⟨later', bound⟩
    exact .pure ⟨by omega, bound⟩
  | label | jump =>
    refine .bind ((safe_atom bound).from after) ?_
    rintro ⟨name, e⟩ bounds
    exact .pure bounds
  | branch =>
    refine .bind ((safe.node _ rfl i after bound).from after) ?_
    rintro ⟨x, e⟩ ⟨later, bound⟩
    refine .bind ((safe_skip bound).later later) ?_
    rintro j ⟨later', bound⟩
    refine .bind ((safe_atom bound).from (by omega)) ?_
    rintro ⟨ifTrue, e⟩ ⟨later, bound⟩
    refine .bind ((safe_skip bound).later later) ?_
    rintro j ⟨later', bound⟩
    refine .bind ((safe_atom bound).from (by omega)) ?_
    rintro ⟨ifFalse, e⟩ bounds
    exact .pure bounds
  | ret =>
    refine .bind (safe_differs 41 i) fun more _ => ?_
    split
    · refine .bind ((safe.node r rfl i after bound).from after) ?_
      rintro ⟨x, e⟩ bounds
      exact .pure bounds
    · exact .pure ⟨le_refl st, within⟩

/-- A node is read safely, if its parts are from further on. -/
theorem safe_node_of (within : st ≤ r.text.length)
    (node : ∀ p : Reader, p.text = r.text → ∀ i, st < i → i ≤ r.text.length →
      Safe r.text i (p.node i) fun p => i < p.2 ∧ p.2 ≤ r.text.length)
    (nodes : ∀ p : Reader, p.text = r.text → ∀ i, st < i → i ≤ r.text.length →
      Safe r.text i (p.nodes i) fun p => i ≤ p.2 ∧ p.2 ≤ r.text.length) :
    Safe r.text st (r.node st) fun p => st < p.2 ∧ p.2 ≤ r.text.length := by
  rw [Reader.node]
  refine .bind (safe_differs 40 st) fun literal _ => ?_
  split
  · exact safe_number within
  · refine .bind (safe_paren within 40 .openingExpected) ?_
    rintro i ⟨opened, bound⟩
    refine .bind ((safe_skip bound).later opened.le) ?_
    rintro kst ⟨skipped, bound⟩
    have start : st ≤ kst := by omega
    refine .bind ((safe_atom bound).later start) ?_
    rintro ⟨word, j⟩ ⟨named, inside⟩
    dsimp only at named inside ⊢
    split
    · next keyword _ =>
      -- Whatever is read from here on is further on than the node.
      have less (p : Reader) (same : p.text = r.text) (k : Nat) (later : j ≤ k)
          (bound : k ≤ r.text.length) : p.ahead k < r.ahead st := by
        simp only [ahead, same]
        omega
      refine .bind ((safe_operands ⟨?_, ?_⟩ inside keyword).later (by omega)) ?_
      · intro p same k later bound
        exact .onward (less p same k later bound) (node p same k (by omega) bound)
      · intro p same k later bound
        exact .onward (less p same k later bound) (nodes p same k (by omega) bound)
      · rintro ⟨x, e⟩ ⟨later, bound⟩
        refine .bind ((safe_paren bound 41 .closingExpected).later (by omega)) ?_
        rintro f ⟨closed, bound⟩
        exact .pure ⟨by omega, bound⟩
    · exact .fail start bound r _

/-- A list of nodes is read safely, if each node is, and the nodes after the first. -/
theorem safe_nodes_of (within : st ≤ r.text.length)
    (node : ∀ i, st ≤ i → i ≤ r.text.length →
      Safe r.text i (r.node i) fun p => i < p.2 ∧ p.2 ≤ r.text.length)
    (nodes : ∀ i, st < i → i ≤ r.text.length →
      Safe r.text i (r.nodes i) fun p => i ≤ p.2 ∧ p.2 ≤ r.text.length) :
    Safe r.text st (r.nodes st) fun p => st ≤ p.2 ∧ p.2 ≤ r.text.length := by
  rw [Reader.nodes]
  refine .bind (safe_skip within) ?_
  rintro i ⟨skipped, bound⟩
  refine .bind (safe_differs 41 i) fun more _ => ?_
  split
  · refine .bind (.onward ?_ ((node i skipped bound).later skipped)) ?_
    · simp only [ahead]
      omega
    rintro ⟨x, e⟩ ⟨later, bound⟩
    refine .bind (.onward ?_ ((nodes e (by omega) bound).later (by omega))) ?_
    · simp only [ahead]
      omega
    rintro ⟨xs, f⟩ ⟨later', bound⟩
    exact .pure ⟨by omega, bound⟩
  · exact .pure ⟨skipped, bound⟩

theorem safe_node_nodes {text : Bytes} (within : st ≤ text.length) (r : Reader)
    (same : r.text = text) :
    (Safe text st (r.node st) fun p => st < p.2 ∧ p.2 ≤ text.length) ∧
      Safe text st (r.nodes st) fun p => st ≤ p.2 ∧ p.2 ≤ text.length := by
  -- By induction on what is ahead: nodes inside a node start after its keyword, but the first node
  -- of a list may start where the list does.
  induction left : text.length - st using Nat.strongRecOn generalizing st r with
  | ind left ih =>
    subst same
    have further (p : Reader) (same : p.text = r.text) (i : Nat) (later : st < i)
        (bound : i ≤ r.text.length) := ih _ (by omega) bound p same rfl
    have node := safe_node_of within (fun p same i later bound => (further p same i later bound).1)
      fun p same i later bound => (further p same i later bound).2
    refine ⟨node, safe_nodes_of within ?_ fun i later bound => (further r rfl i later bound).2⟩
    intro i after bound
    rcases after.eq_or_lt with rfl | later
    · exact node
    · exact (further r rfl i later bound).1

theorem safe_node (within : st ≤ r.text.length) :
    Safe r.text st (r.node st) fun p => st < p.2 ∧ p.2 ≤ r.text.length :=
  (safe_node_nodes within r rfl).1

theorem safe_nodes (within : st ≤ r.text.length) :
    Safe r.text st (r.nodes st) fun p => st ≤ p.2 ∧ p.2 ≤ r.text.length :=
  (safe_node_nodes within r rfl).2

end Nodes

section Declarations

theorem safe_wordAt (within : st ≤ r.text.length) (word : Bytes) :
    Safe r.text st (r.wordAt word st) fun _ => True := by
  refine .bind (safe_atom within).caught ?_
  rintro (fault | ⟨found, e⟩) _
  · exact .pure trivial
  · exact .pure trivial

theorem safe_headedAt (word : Bytes) :
    Safe r.text st (r.headedAt word st) fun _ => True := by
  unfold headedAt
  by_cases ends : r.text.length ≤ st
  · rw [if_pos ends]
    exact .pure trivial
  · have inside : st < r.text.length := by omega
    obtain ⟨b, found⟩ := exists_byte inside
    rw [if_neg ends, byteAt_eq found, pure_bind]
    split
    · refine .bind ((safe_skip inside).later (by omega)) ?_
      rintro i ⟨after, bound⟩
      exact (safe_wordAt bound word).later (by omega)
    · exact .pure trivial

theorem safe_paramNames (within : st ≤ r.text.length) (seen : List Bytes) :
    Safe r.text st (r.paramNames seen st) fun p => st ≤ p.2 ∧ p.2 ≤ r.text.length := by
  induction left : r.text.length - st using Nat.strongRecOn generalizing st seen with
  | ind left ih =>
    rw [paramNames]
    refine .bind (safe_skip within) ?_
    rintro i ⟨skipped, bound⟩
    refine .bind (safe_differs 41 i) fun more _ => ?_
    split
    · refine .bind ((safe_atom bound).later skipped) ?_
      rintro ⟨name, e⟩ ⟨later, inside⟩
      dsimp only at later inside ⊢
      split
      · exact .fail skipped bound r _
      · refine .bind (.onward ?_ ((ih _ (by omega) inside _ rfl).later (by omega))) ?_
        · simp only [ahead]
          omega
        rintro ⟨names, f⟩ ⟨later', bound⟩
        exact .pure ⟨by omega, bound⟩
    · exact .pure ⟨skipped, bound⟩

/-- Where a parenthesis, or an atom, is known to stand, or is not needed. -/
theorem safe_ended_paren (within : st ≤ r.text.length) (byte : UInt8) (missing : Cause) :
    Safe r.text st (ended id (r.paren byte missing st)) fun i => st ≤ i ∧ i ≤ r.text.length :=
  .ended ((safe_paren within byte missing).mono (le_refl st) fun _ bounds => ⟨bounds.1.le, bounds.2⟩)

theorem safe_ended_atom (within : st ≤ r.text.length) :
    Safe r.text st (ended Prod.snd (r.atom st)) fun i => st ≤ i ∧ i ≤ r.text.length :=
  .ended ((safe_atom within).from (le_refl st))

theorem safe_paramList (within : st ≤ r.text.length) :
    Safe r.text st (r.paramList st) fun p => st ≤ p.2 ∧ p.2 ≤ r.text.length := by
  refine .bind (safe_skip within) ?_
  rintro j ⟨skipped, bound⟩
  refine .bind ((safe_headedAt paramsMark).later skipped) fun found _ => ?_
  split
  · refine .bind ((safe_ended_paren bound 40 .openingExpected).later skipped) ?_
    rintro i ⟨opened, bound⟩
    refine .bind ((safe_skip bound).later (by omega)) ?_
    rintro k ⟨skipped, bound⟩
    refine .bind ((safe_ended_atom bound).later (by omega)) ?_
    rintro l ⟨headed, bound⟩
    refine .bind ((safe_paramNames bound []).later (by omega)) ?_
    rintro ⟨params, e⟩ ⟨read, bound⟩
    refine .bind ((safe_paren bound 41 .closingExpected).later (by omega)) ?_
    rintro f ⟨closed, bound⟩
    exact .pure ⟨by omega, bound⟩
  · exact .pure ⟨le_refl st, within⟩

theorem safe_mark (within : st ≤ r.text.length) :
    Safe r.text st (r.mark st) fun p => st ≤ p.2 ∧ p.2 ≤ r.text.length := by
  refine .bind (safe_skip within) ?_
  rintro j ⟨skipped, bound⟩
  refine .bind ((safe_wordAt bound inlineMark).later skipped) fun found _ => ?_
  split
  · refine .bind ((safe_ended_atom bound).later skipped) ?_
    rintro e ⟨read, bound⟩
    exact .pure ⟨by omega, bound⟩
  · exact .pure ⟨le_refl st, within⟩

theorem safe_func (within : st ≤ r.text.length) :
    Safe r.text st (r.func st) fun p => st < p.2 ∧ p.2 ≤ r.text.length := by
  refine .bind (safe_skip within) ?_
  rintro nst ⟨skipped, inside⟩
  refine .bind ((safe_atom inside).later skipped) ?_
  rintro ⟨name, i⟩ ⟨named, bound⟩
  refine .bind (safe_declareName skipped inside name .func) fun entity _ => ?_
  refine .bind ((safe_mark bound).later (by omega)) ?_
  rintro ⟨inlined, j⟩ ⟨marked, bound⟩
  refine .bind ((safe_paramList bound).later (by omega)) ?_
  rintro ⟨params, k⟩ ⟨listed, bound⟩
  have body := safe_nodes (r := (r.naming params).inside (.func name)) bound
  refine .bind (body.later (by omega)) ?_
  rintro ⟨nodes, e⟩ ⟨read, bound⟩
  exact .pure ⟨by omega, bound⟩

theorem safe_declared (program : Program) (keyword : DeclKeyword) {kst : Nat} (start : kst ≤ st)
    (within : st ≤ r.text.length) :
    Safe r.text kst (r.declared program keyword kst st) fun p => st ≤ p.2 ∧ p.2 ≤ r.text.length := by
  cases keyword with
  | var =>
    refine .bind ((safe_skip within).later start) ?_
    rintro nst ⟨skipped, inside⟩
    refine .bind ((safe_atom inside).later (by omega)) ?_
    rintro ⟨name, i⟩ ⟨named, bound⟩
    refine .bind (safe_declareName (by omega) inside name .var) fun _ _ => ?_
    exact .pure ⟨by omega, bound⟩
  | text =>
    refine .bind ((safe_skip within).later start) ?_
    rintro nst ⟨skipped, inside⟩
    refine .bind ((safe_atom inside).later (by omega)) ?_
    rintro ⟨name, i⟩ ⟨named, bound⟩
    refine .bind (safe_declareName (by omega) inside name .text) fun entity _ => ?_
    refine .bind ((safe_skip bound).later (by omega)) ?_
    rintro j ⟨skipped, bound⟩
    refine .bind ((safe_quoted bound).later (by omega)) ?_
    rintro ⟨value, e⟩ ⟨read, bound⟩
    refine .bind (.lift_of_ok r fun names => ⟨_, rfl⟩) fun _ _ => ?_
    exact .pure ⟨by omega, bound⟩
  | func =>
    refine .bind ((safe_func within).later start) ?_
    rintro ⟨f, e⟩ ⟨read, bound⟩
    exact .pure ⟨by omega, bound⟩
  | init =>
    have body := safe_nodes (r := (r.naming []).inside .init) within
    refine .bind (body.later start) ?_
    rintro ⟨init, e⟩ ⟨read, bound⟩
    exact .pure ⟨by omega, bound⟩
  | version => exact .fail (le_refl kst) (by omega) r _

theorem safe_declaration (within : st ≤ r.text.length) (program : Program) :
    Safe r.text st (r.declaration program st) fun p => st < p.2 ∧ p.2 ≤ r.text.length := by
  refine .bind (safe_paren within 40 .openingExpected) ?_
  rintro i ⟨opened, bound⟩
  refine .bind ((safe_skip bound).later (by omega)) ?_
  rintro kst ⟨skipped, bound⟩
  refine .bind ((safe_atom bound).later (by omega)) ?_
  rintro ⟨word, j⟩ ⟨named, inside⟩
  dsimp only at named inside ⊢
  split
  · next keyword _ =>
    refine .bind ((safe_declared program keyword named.le inside).later (by omega)) ?_
    rintro ⟨program, e⟩ ⟨read, bound⟩
    refine .bind ((safe_paren bound 41 .closingExpected).later (by omega)) ?_
    rintro f ⟨closed, bound⟩
    exact .pure ⟨by omega, bound⟩
  · exact .fail (by omega) bound r _

/-- Without a fault the declarations go on to the end of the text. -/
theorem safe_declarations (within : st ≤ r.text.length) (program : Program) :
    Safe r.text st (r.declarations program st) fun p => p.2 = r.text.length := by
  induction left : r.text.length - st using Nat.strongRecOn generalizing st program with
  | ind left ih =>
    rw [declarations]
    refine .bind (safe_skip within) ?_
    rintro i ⟨skipped, bound⟩
    split
    · refine .bind ((safe_declaration bound program).later skipped) ?_
      rintro ⟨program, e⟩ ⟨later, inside⟩
      refine .onward ?_ ((ih _ (by omega) inside program rfl).later (by omega))
      simp only [ahead]
      omega
    · exact .pure (by omega)

theorem safe_version (within : st ≤ r.text.length) :
    Safe r.text st (r.version st) fun i => st ≤ i ∧ i ≤ r.text.length := by
  refine .bind (safe_ended_paren within 40 .openingExpected) ?_
  rintro i ⟨opened, bound⟩
  refine .bind ((safe_ended_atom bound).later opened) ?_
  rintro j ⟨headed, bound⟩
  refine .bind ((safe_skip bound).later (by omega)) ?_
  rintro vst ⟨skipped, inside⟩
  have start : st ≤ vst := by omega
  refine .bind ((safe_quoted inside).later start) ?_
  rintro ⟨value, e⟩ ⟨read, bound⟩
  dsimp only at read bound ⊢
  split
  · exact .fail start inside r _
  · split
    · exact (safe_paren bound 41 .closingExpected).mono (by omega) fun _ bounds => ⟨by omega, bounds.2⟩
    · exact .fail start inside r _

theorem safe_header (within : st ≤ r.text.length) :
    Safe r.text st (r.header st) fun i => st ≤ i ∧ i ≤ r.text.length := by
  refine .bind (safe_skip within) ?_
  rintro i ⟨skipped, bound⟩
  refine .bind ((safe_headedAt DeclKeyword.version.spelling).later skipped) fun found _ => ?_
  split
  · exact (safe_version bound).mono skipped fun _ bounds => ⟨by omega, bounds.2⟩
  · exact .pure ⟨skipped, bound⟩

theorem safe_program : Safe r.text 0 r.program fun p => p.2 = r.text.length := by
  refine .bind (safe_header (Nat.zero_le _)) ?_
  rintro i ⟨_, bound⟩
  exact (safe_declarations bound {}).later (Nat.zero_le _)

end Declarations

end Codegen.Source.Reader
