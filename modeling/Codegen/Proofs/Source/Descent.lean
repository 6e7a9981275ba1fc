import Codegen.Proofs.Source.Items
import Codegen.Proofs.Source.Words

/-! Reading from offset to offset agrees with reading trees: where a tree stands both come to the
same node, or to the same fault. -/
namespace Codegen.Source

open Reader (stands_of_cons exists_lexemesFrom)

section Places

variable {text : Bytes} {st : Nat}

/-- The lexemes from the end of a list on: the parenthesis that closes it, or none. -/
def ending (text : Bytes) : Option Nat → List Lexeme
  | some stop => ⟨.closing, stop⟩ :: lexemesFrom text (stop + 1)
  | none => []

def past (text : Bytes) : Option Nat → Nat
  | some stop => stop + 1
  | none => text.length

structure Holds (text : Bytes) (st : Nat) (items : List Tree) (stop : Option Nat) : Prop where
  within : st ≤ text.length
  spans : SpansAll items (lexemesFrom text st) (ending text stop)

namespace Holds

variable {t : Tree} {items : List Tree} {stop : Option Nat}

theorem first (holds : Holds text st (t :: items) stop) :
    st ≤ t.start ∧ ∃ e, Stands text t.first t.start e := by
  obtain ⟨middle, spans, _⟩ := holds.spans
  obtain ⟨inner, found⟩ := spans.first
  obtain ⟨after, e, stands, _⟩ := stands_of_cons holds.within found
  exact ⟨after, e, stands⟩

/-- After a tree that is one token only, the other items come. -/
theorem next (holds : Holds text st (t :: items) stop) (single : ∀ s ts e, t ≠ .list s ts e) {e : Nat}
    (stands : Stands text t.first t.start e) : Holds text e items stop := by
  obtain ⟨middle, spans, others⟩ := holds.spans
  have found : lexemesFrom text st = ⟨t.first, t.start⟩ :: middle := by
    cases t with
    | atom start text | quoted start body | unclosed start => exact spans
    | list start items stop => exact absurd rfl (single _ _ _)
  obtain ⟨_, e', stands', rfl⟩ := stands_of_cons holds.within found
  have same := stands'.lexemes.symm.trans stands.lexemes
  rw [(List.cons.inj same).2] at others
  exact ⟨stands.lt.2, others⟩

/-- A list holds its items from its first parenthesis on, and after its last one the other items
come. -/
theorem list {start : Nat} {inner : List Tree} {stop' : Option Nat}
    (holds : Holds text st (.list start inner stop' :: items) stop) :
    text[start]? = some 40 ∧ Holds text (start + 1) inner stop' ∧
      Holds text (past text stop') items stop ∧ start < past text stop' := by
  obtain ⟨middle, spans, others⟩ := holds.spans
  obtain ⟨found, first⟩ := spans.first
  obtain ⟨_, e, stands, rfl⟩ := stands_of_cons holds.within first
  cases stands with
  | opening found =>
    have bound := (List.getElem?_eq_some_iff.mp found).1
    cases stop' with
    | none =>
      obtain ⟨ls, first', spans, rfl⟩ := spans
      rw [first] at first'
      cases first'
      exact ⟨found, ⟨bound, spans⟩, ⟨le_refl _, lexemesFrom_length text ▸ others⟩, bound⟩
    | some close =>
      obtain ⟨ls, first', spans⟩ := spans
      rw [first] at first'
      cases first'
      have inside : start + 1 ≤ text.length := bound
      obtain ⟨e, later, bound', same⟩ := exists_lexemesFrom inside spans.suffix
      obtain ⟨_, f, stands, rfl⟩ := stands_of_cons bound' same.symm
      have bounds := stands.lt
      cases stands
      exact ⟨found, ⟨bound, spans⟩, ⟨bounds.2, others⟩, by simp only [past]; omega⟩

end Holds

end Places

namespace Reader

variable {α β : Type} {r : Reader} {st low : Nat} {items : List Tree} {stop : Option Nat}

section Agreement

/-- A walk and a part that reads trees come to related results, or to the same fault. -/
def Agrees (r : Reader) (walk : Walk α) (part : Read β) (R : α → β → Prop) : Prop :=
  ∀ names, (∃ a b after, walk names = .ok (a, after) ∧ part names = .ok (b, after) ∧ R a b) ∨
    ∃ fault, walk names = r.lift (throw fault : Read α) names ∧ part names = .error fault

namespace Agrees

variable {walk : Walk α} {part : Read β} {R : α → β → Prop}

theorem pure {a : α} {b : β} (related : R a b) : Agrees r (pure a) (pure b) R :=
  fun names => .inl ⟨a, b, names, rfl, rfl, related⟩

theorem fail (i : Nat) (cause : Cause) : Agrees r (r.fail i cause) (Source.fail i cause) R :=
  fun _ => .inr ⟨_, rfl, rfl⟩

theorem lift (part : Read α) : Agrees r (r.lift part) part Eq := by
  intro names
  cases done : part names with
  | ok result => exact .inl ⟨_, _, _, by simp [Reader.lift, done, Except.mapError], rfl, rfl⟩
  | error fault => exact .inr ⟨fault, by simp only [Reader.lift, done]; rfl, rfl⟩

theorem bind {γ δ : Type} {f : α → Walk γ} {g : β → Read δ} {Q : γ → δ → Prop}
    (first : Agrees r walk part R) (next : ∀ a b, R a b → Agrees r (f a) (g b) Q) :
    Agrees r (walk >>= f) (part >>= g) Q := by
  intro names
  rcases first names with ⟨a, b, after, done, done', related⟩ | ⟨fault, stops, stops'⟩
  · have run : (walk >>= f) names = f a after := by
      simp [Bind.bind, StateT.bind, Except.bind, done]
    have run' : (part >>= g) names = g b after := by
      simp [Bind.bind, StateT.bind, Except.bind, done']
    rw [run, run']
    exact next a b related after
  · refine .inr ⟨fault, ?_, ?_⟩
    · simp only [Bind.bind, StateT.bind, stops]
      rfl
    · simp only [Bind.bind, StateT.bind, stops']
      rfl

/-- A walk that passes something, of which the trees only have to be looked at. -/
theorem step {γ δ : Type} {b : β} {f : α → Walk γ} {part : Read δ} {Q : γ → δ → Prop}
    (first : Agrees r walk (Pure.pure b) R) (next : ∀ a, R a b → Agrees r (f a) part Q) :
    Agrees r (walk >>= f) part Q := by
  intro names
  rcases first names with ⟨a, _, after, done, same, related⟩ | ⟨_, _, same⟩
  · cases same
    have run : (walk >>= f) names = f a names := by
      simp [Bind.bind, StateT.bind, Except.bind, done]
    rw [run]
    exact next a related names
  · contradiction

/-- The result of a part may be seen in another way. -/
theorem map {γ : Type} {f : β → γ} {Q : α → γ → Prop} (agrees : Agrees r walk part R)
    (implies : ∀ a b, R a b → Q a (f b)) : Agrees r walk (f <$> part) Q := by
  rw [map_eq_pure_bind, ← bind_pure walk]
  exact .bind agrees fun a b related => .pure (implies a b related)

theorem mono {Q : α → β → Prop} (agrees : Agrees r walk part R) (implies : ∀ a b, R a b → Q a b) :
    Agrees r walk part Q := by
  intro names
  rcases agrees names with ⟨a, b, after, done, done', related⟩ | stops
  · exact .inl ⟨a, b, after, done, done', implies a b related⟩
  · exact .inr stops

/-- What a part is inside of is said when the part is read, or by the reader of the part. -/
theorem inside {a : Around} (agrees : Agrees (r.inside a) walk part R) :
    Agrees r walk (within a part) R := by
  intro names
  rcases agrees names with ⟨a, b, after, done, done', related⟩ | ⟨fault, stops, stops'⟩
  · exact .inl ⟨a, b, after, done, by simp only [within, done']; rfl, related⟩
  · refine .inr ⟨_, ?_, by simp only [within, stops']; rfl⟩
    rw [stops, lift_inside]
    rfl

theorem onward {i : Nat} {less : Prop} [Decidable less] {go : less → Walk α} (further : less)
    (agrees : Agrees r (go further) part R) : Agrees r (onward i less go) part R := by
  rwa [Reader.onward, dif_pos further]

end Agrees

structure Reaches (text : Bytes) (low : Nat) (stop : Option Nat) (a : α × Nat) (b : α × List Tree) :
    Prop where
  same : a.1 = b.1
  later : low < a.2
  holds : Holds text a.2 b.2 stop

theorem Reaches.from {text : Bytes} {st : Nat} {a : α × Nat} {b : α × List Tree}
    (reaches : Reaches text st stop a b) (after : low ≤ st) : Reaches text low stop a b :=
  ⟨reaches.same, by have := reaches.later; omega, reaches.holds⟩

end Agreement

section Words

/-- Blanks and comments are passed over up to the next item, or to the end of the list. -/
theorem skip_of_holds (holds : Holds r.text st items stop) :
    r.skip st = pure (r.context.next stop items) ∧ st ≤ r.context.next stop items ∧
      Holds r.text (r.context.next stop items) items stop := by
  obtain ⟨within, spans⟩ := holds
  have first {t : Token} {s : Nat} {inner : List Lexeme}
      (found : lexemesFrom r.text st = ⟨t, s⟩ :: inner) :
      r.skip st = pure s ∧ st ≤ s ∧ Holds r.text s items stop := by
    obtain ⟨skipped, after, e, stands, rfl⟩ := skip_of_cons within found
    have bounds := stands.lt
    refine ⟨skipped, after, by omega, ?_⟩
    rwa [stands.lexemes, ← found]
  cases items with
  | nil =>
    cases stop with
    | none =>
      refine ⟨skip_of_nil within spans, within, le_refl _, ?_⟩
      exact lexemesFrom_length r.text
    | some close => exact first spans
  | cons t items =>
    obtain ⟨middle, spans', _⟩ := spans
    obtain ⟨inner, found⟩ := spans'.first
    exact first found

theorem stands_closing {close : Nat} (holds : Holds r.text st [] (some close)) :
    Stands r.text .closing close (close + 1) := by
  obtain ⟨_, e, stands, _⟩ := stands_of_cons holds.within holds.spans
  have ends := stands
  cases stands
  exact ends

theorem differs_of_holds (holds : Holds r.text st items stop) :
    r.differs 41 (r.context.next stop items) = pure (!items.isEmpty) := by
  cases items with
  | nil =>
    cases stop with
    | none => exact differs_end 41
    | some close =>
      obtain ⟨b, found, _, closes, _⟩ := (stands_closing holds).byte
      have differs := differs_eq found 41
      rwa [closes.mpr rfl] at differs
  | cons t items =>
    obtain ⟨_, e, stands⟩ := holds.first
    obtain ⟨b, found, _, closes, _⟩ := stands.byte
    have other : b ≠ 41 := fun same => t.first_ne (closes.mp same)
    have differs := differs_eq found 41
    rwa [bne_iff_ne.mpr other] at differs

/-- The parenthesis that a list starts with. -/
theorem opening_of_holds {start : Nat} {inner : List Tree} {stop' : Option Nat}
    (holds : Holds r.text st (.list start inner stop' :: items) stop) :
    r.opening start = pure (start + 1) := by
  obtain ⟨_, _, here⟩ := skip_of_holds holds
  have skipped : r.skip start = pure start := (skip_of_holds here).1
  rw [opening, paren_eq skipped holds.list.1, if_pos rfl]

theorem agrees_closing (holds : Holds r.text st items stop) :
    Agrees r (r.closing st) (expectEnd r.context stop items) fun i _ => i = past r.text stop := by
  obtain ⟨skipped, _, _⟩ := skip_of_holds holds
  unfold closing expectEnd
  cases items with
  | nil =>
    cases stop with
    | none =>
      rw [paren_end skipped]
      exact .fail _ _
    | some close =>
      obtain ⟨b, found, _, closes, _⟩ := (stands_closing holds).byte
      rw [paren_eq skipped found, if_pos (closes.mpr rfl)]
      exact .pure rfl
  | cons t items =>
    obtain ⟨_, e, stands⟩ := holds.first
    obtain ⟨b, found, _, closes, _⟩ := stands.byte
    have other : b ≠ 41 := fun same => t.first_ne (closes.mp same)
    rw [paren_eq skipped found, if_neg other]
    exact .fail _ _

theorem atom_of_cons {start : Nat} {word : Bytes}
    (holds : Holds r.text st (.atom start word :: items) stop) :
    ∃ e, r.atom start = pure (word, e) ∧ start < e ∧ Holds r.text e items stop := by
  obtain ⟨_, e, stands⟩ := holds.first
  exact ⟨e, atom_of_stands stands, stands.lt.1, holds.next (by simp) stands⟩

/-- An atom is the next item, or there is none to read. -/
theorem atom_of_holds (holds : Holds r.text st items stop) :
    (∃ start word rest e, items = .atom start word :: rest ∧ r.atom start = pure (word, e) ∧
      start < e ∧ Holds r.text e rest stop) ∨
    (∀ start word rest, items ≠ .atom start word :: rest) ∧
      r.atom (r.context.next stop items) = r.fail (r.context.next stop items) .atomExpected := by
  cases items with
  | nil =>
    refine .inr ⟨by simp, ?_⟩
    cases stop with
    | none => exact atom_of_nil (by simp [context, Context.next])
    | some close => exact atom_of_ends ((stands_closing holds).ends (by simp))
  | cons t items =>
    obtain ⟨_, e, stands⟩ := holds.first
    cases t with
    | atom start word =>
      obtain ⟨e, read, later, rest⟩ := atom_of_cons holds
      exact .inl ⟨start, word, items, e, rfl, read, later, rest⟩
    | quoted start body | unclosed start | list start inner stop' =>
      exact .inr ⟨by simp, atom_of_ends (stands.ends (by simp [Tree.first]))⟩

theorem agrees_atom (holds : Holds r.text st items stop) :
    Agrees r (r.atom (r.context.next stop items)) (readWord r.context stop items)
      (Reaches r.text (r.context.next stop items) stop) := by
  rcases atom_of_holds holds with ⟨start, word, rest, e, rfl, read, later, holds⟩ | ⟨other, missing⟩
  · change Agrees r (r.atom start) _ _
    rw [read]
    exact .pure ⟨rfl, later, holds⟩
  · rw [missing, readWord_of_ne _ _ other]
    exact .fail _ _

end Words

section Nodes

def ReachesEnd (text : Bytes) (low : Nat) (stop : Option Nat) (a : α × Nat) (b : α) : Prop :=
  Reaches text low stop a (b, [])

structure Parts.Agree (parts : Parts) (text : Bytes) (low : Nat) : Prop where
  node : ∀ (r : Reader) (i : Nat) (items : List Tree) (stop : Option Nat), r.text = text → low < i →
    Holds text i items stop →
      Agrees r (parts.node r (r.context.next stop items)) (readItem r.context stop items)
        (Reaches text low stop)
  nodes : ∀ (r : Reader) (i : Nat) (items : List Tree) (stop : Option Nat), r.text = text → low < i →
    Holds text i items stop →
      Agrees r (parts.nodes r i) (readNodes r.context items) (ReachesEnd text low stop)

/-- Two nodes, one after the other. -/
theorem agrees_pair {walk : Walk (Node × Nat)} {walks : Nat → Walk (Node × Nat)}
    {part : Read (Node × List Tree)} {parts : List Tree → Read (Node × List Tree)}
    (left : Agrees r walk part (Reaches r.text low stop))
    (right : ∀ i items, low < i → Holds r.text i items stop →
      Agrees r (walks (r.context.next stop items)) (parts items) (Reaches r.text low stop))
    (build : Node → Node → Node) :
    Agrees r (do
      let (x, i) ← walk
      let (y, i) ← walks (← r.skip i)
      return (build x y, i)) (do
      let (x, items) ← part
      let (y, items) ← parts items
      return (build x y, items)) (Reaches r.text low stop) := by
  refine .bind left ?_
  rintro ⟨x, i⟩ ⟨_, items⟩ ⟨rfl, later, holds⟩
  dsimp only at later holds ⊢
  rw [(skip_of_holds holds).1, pure_bind]
  refine .bind (right i items later holds) ?_
  rintro ⟨y, i⟩ ⟨_, items⟩ ⟨rfl, later, holds⟩
  exact .pure ⟨rfl, later, holds⟩

theorem agrees_operands {parts : Parts} (agree : parts.Agree r.text low) (later : low < st)
    (holds : Holds r.text st items stop) (keyword : Keyword) :
    Agrees r (r.operands parts keyword st) (readOperands r.context stop keyword items)
      (Reaches r.text low stop) := by
  obtain ⟨skipped, after, here⟩ := skip_of_holds holds
  have word {i : Nat} {items : List Tree} (later : low < i) (holds : Holds r.text i items stop) :
      r.skip i = pure (r.context.next stop items) ∧
        Agrees r (r.atom (r.context.next stop items)) (readWord r.context stop items)
          (Reaches r.text low stop) := by
    obtain ⟨skipped, after, _⟩ := skip_of_holds holds
    exact ⟨skipped, (agrees_atom holds).mono fun _ _ reaches => reaches.from (by omega)⟩
  unfold operands
  rw [skipped, pure_bind]
  cases keyword with
  | var | addr =>
    simp only [named, readOperands, bind_assoc, pure_bind]
    refine .bind (word later holds).2 ?_
    rintro ⟨name, i⟩ ⟨_, rest⟩ ⟨rfl, later, holds⟩
    refine .bind (.lift _) ?_
    rintro symbol _ rfl
    exact .pure ⟨rfl, later, holds⟩
  | text =>
    refine .bind (word later holds).2 ?_
    rintro ⟨name, i⟩ ⟨_, rest⟩ ⟨rfl, later, holds⟩
    refine .bind (.lift _) ?_
    rintro symbol _ rfl
    refine .bind (.lift _) ?_
    rintro declared _ rfl
    split
    · exact .pure ⟨rfl, later, holds⟩
    · exact .fail _ _
  | mem | unary op =>
    refine .bind (agree.node r st items stop rfl later holds) ?_
    rintro ⟨x, i⟩ ⟨_, rest⟩ ⟨rfl, later, holds⟩
    exact .pure ⟨rfl, later, holds⟩
  | assign =>
    exact agrees_pair (agree.node r st items stop rfl later holds)
      (fun i items later holds => agree.node r i items stop rfl later holds) .assign
  | call =>
    refine .bind (word later holds).2 ?_
    rintro ⟨name, i⟩ ⟨_, rest⟩ ⟨rfl, later, holds⟩
    refine .bind (.lift _) ?_
    rintro symbol _ rfl
    refine .bind (agree.nodes (r.inside (.call name)) i rest stop rfl later holds).inside ?_
    rintro ⟨args, i⟩ _ ⟨rfl, later, holds⟩
    exact .pure ⟨rfl, later, holds⟩
  | label | jump =>
    refine .bind (word later holds).2 ?_
    rintro ⟨name, i⟩ ⟨_, rest⟩ ⟨rfl, later, holds⟩
    exact .pure ⟨rfl, later, holds⟩
  | branch =>
    refine .bind (agree.node r st items stop rfl later holds) ?_
    rintro ⟨x, i⟩ ⟨_, rest⟩ ⟨rfl, later, holds⟩
    dsimp only at later holds ⊢
    rw [(word later holds).1, pure_bind]
    refine .bind (word later holds).2 ?_
    rintro ⟨ifTrue, i⟩ ⟨_, rest⟩ ⟨rfl, later, holds⟩
    dsimp only at later holds ⊢
    rw [(word later holds).1, pure_bind]
    refine .bind (word later holds).2 ?_
    rintro ⟨ifFalse, i⟩ ⟨_, rest⟩ ⟨rfl, later, holds⟩
    exact .pure ⟨rfl, later, holds⟩
  | ret =>
    simp only [readOperands]
    rw [differs_of_holds holds, pure_bind]
    cases items with
    | nil => exact .pure ⟨rfl, later, holds⟩
    | cons t items =>
      refine .bind (agree.node r st _ stop rfl later holds) ?_
      rintro ⟨x, i⟩ ⟨_, rest⟩ ⟨rfl, later, holds⟩
      exact .pure ⟨rfl, later, holds⟩
  | binary op =>
    exact agrees_pair (agree.node (r.inside (.left op)) st items stop rfl later holds).inside
      (fun i items later holds =>
        (agree.node (r.inside (.right op)) i items stop rfl later holds).inside) (.binary op)

def NodeAgrees (r : Reader) (st : Nat) : Prop :=
  ∀ items stop, Holds r.text st items stop →
    Agrees r (r.node (r.context.next stop items)) (readItem r.context stop items)
      (Reaches r.text (r.context.next stop items) stop)

def NodesAgree (r : Reader) (st : Nat) : Prop :=
  ∀ items stop low, Holds r.text st items stop → low < st →
    Agrees r (r.nodes st) (readNodes r.context items) (ReachesEnd r.text low stop)

theorem number_of_ends (ends : Ends (r.text.drop st)) : r.number st = r.fail st .atomExpected := by
  rw [number, atom_of_ends ends, fail_bind]

theorem node_of_differs {b : UInt8} (found : r.text[st]? = some b) (other : b ≠ 40) :
    r.node st = r.number st := by
  rw [node, differs_eq found, pure_bind, if_pos (bne_iff_ne.mpr other)]

/-- A list agrees with its items, if the parts of a node do from further on. -/
theorem agrees_list {start : Nat} {inner : List Tree} {stop' : Option Nat}
    (holds : Holds r.text st (.list start inner stop' :: items) stop)
    (node : ∀ p : Reader, p.text = r.text → ∀ i, start < i → i ≤ r.text.length → NodeAgrees p i)
    (nodes : ∀ p : Reader, p.text = r.text → ∀ i, start < i → i ≤ r.text.length → NodesAgree p i) :
    Agrees r (r.node start) (readList r.context stop' inner)
      fun a b => a.1 = b ∧ a.2 = past r.text stop' := by
  obtain ⟨found, inside, _⟩ := holds.list
  obtain ⟨skipped, after, _⟩ := skip_of_holds inside
  rw [Reader.node, differs_eq found, pure_bind, if_neg (by simp), opening_of_holds holds, pure_bind,
    skipped, pure_bind]
  refine .bind (agrees_atom inside) ?_
  rintro ⟨word, i⟩ ⟨_, rest⟩ ⟨rfl, later, inside⟩
  dsimp only at later inside ⊢
  cases Keyword.ofSpelling? word with
  | none => exact .fail _ _
  | some keyword =>
    -- Whatever comes after the keyword has less ahead than the list, so the guards let it through.
    have less (p : Reader) (same : p.text = r.text) (k : Nat) (later : start < k)
        (bound : k ≤ r.text.length) : p.ahead k < r.ahead start := by
      simp only [ahead, same]
      omega
    have later' : start < i := by omega
    refine .bind (agrees_operands ⟨?_, ?_⟩ later' inside keyword) ?_
    · intro p k items stop same later holds
      rw [← same] at holds
      have node := node p same k later (same ▸ holds.within) items stop holds
      obtain ⟨_, after, here⟩ := skip_of_holds holds
      refine .onward (less p same _ (by omega) (same ▸ here.within)) (node.mono ?_)
      intro a b reaches
      exact same ▸ reaches.from (by omega)
    · intro p k items stop same later holds
      have bound := holds.within
      rw [← same] at holds
      exact .onward (less p same k later bound)
        (same ▸ nodes p same k later bound items stop start holds later)
    · rintro ⟨x, i⟩ ⟨_, rest⟩ ⟨rfl, later, holds⟩
      refine .bind (agrees_closing holds) ?_
      rintro i _ ends
      exact .pure ⟨rfl, ends⟩

theorem nodeAgrees_of
    (node : ∀ p : Reader, p.text = r.text → ∀ i, st < i → i ≤ r.text.length → NodeAgrees p i)
    (nodes : ∀ p : Reader, p.text = r.text → ∀ i, st < i → i ≤ r.text.length → NodesAgree p i) :
    NodeAgrees r st := by
  intro items stop holds
  obtain ⟨skipped, after, here⟩ := skip_of_holds holds
  cases items with
  | nil =>
    cases stop with
    | none =>
      have missing : r.opening r.text.length = r.fail r.text.length .openingExpected :=
        paren_end (skip_of_holds here).1 40 .openingExpected
      change Agrees r (r.node r.text.length) (Source.fail r.text.length .openingExpected) _
      rw [Reader.node, differs_end, pure_bind, if_neg Bool.false_ne_true, missing, fail_bind]
      exact .fail _ _
    | some close =>
      have stands := stands_closing holds
      obtain ⟨b, found, opens, _⟩ := stands.byte
      change Agrees r (r.node close) (Source.fail close .atomExpected) _
      rw [node_of_differs found (by simp [opens]), number_of_ends (stands.ends (by simp))]
      exact .fail _ _
  | cons t items =>
    obtain ⟨_, e, stands⟩ := holds.first
    obtain ⟨b, found, opens, _⟩ := stands.byte
    cases t with
    | atom start word =>
      have read : r.node start = r.number start := node_of_differs found (by simp [opens, Tree.first])
      obtain ⟨e, taken, later, rest⟩ := atom_of_cons holds
      change Agrees r (r.node start) ((·, items) <$> readNode r.context (.atom start word)) _
      rw [read, number, taken, pure_bind, readNode]
      dsimp only
      cases IntLiteral.parse word with
      | none => exact .fail _ _
      | some value => exact .pure ⟨rfl, later, rest⟩
    | quoted start body | unclosed start =>
      have read : r.node start = r.number start := node_of_differs found (by simp [opens, Tree.first])
      have ends : r.number start = _ := number_of_ends (stands.ends (by simp [Tree.first]))
      change Agrees r (r.node start) _ _
      rw [read, ends]
      exact .fail _ _
    | list start inner stop' =>
      obtain ⟨_, _, rest, later⟩ := holds.list
      have agrees := agrees_list holds
        (fun p same i later => node p same i (lt_of_le_of_lt after later))
        fun p same i later => nodes p same i (lt_of_le_of_lt after later)
      rw [← readNode_list r.context start] at agrees
      refine agrees.map ?_
      rintro ⟨x, i⟩ _ ⟨rfl, rfl⟩
      exact ⟨rfl, later, rest⟩

theorem nodesAgree_of (node : NodeAgrees r st)
    (nodes : ∀ i, st < i → i ≤ r.text.length → NodesAgree r i) : NodesAgree r st := by
  intro items stop low holds later
  obtain ⟨skipped, after, here⟩ := skip_of_holds holds
  rw [Reader.nodes, skipped, pure_bind, differs_of_holds holds, pure_bind]
  cases items with
  | nil => exact .pure ⟨rfl, by omega, here⟩
  | cons t items =>
    have split : readNodes r.context (t :: items) = do
        let (x, rest) ← readItem r.context stop (t :: items)
        let xs ← readNodes r.context rest
        return x :: xs := by
      simp [readNodes, readItem]
    have bound := here.within
    rw [split]
    refine .bind (.onward ?_ (node _ stop holds)) ?_
    · simp only [ahead]
      omega
    rintro ⟨x, i⟩ ⟨_, rest⟩ ⟨rfl, later', holds⟩
    dsimp only at later' holds ⊢
    have bound := holds.within
    refine .bind (.onward ?_ (nodes i (by omega) bound rest stop low holds (by omega))) ?_
    · simp only [ahead]
      omega
    rintro ⟨xs, i⟩ _ ⟨rfl, later, holds⟩
    exact .pure ⟨rfl, later, holds⟩

theorem node_nodes_agree {text : Bytes} (within : st ≤ text.length) (r : Reader)
    (same : r.text = text) : NodeAgrees r st ∧ NodesAgree r st := by
  -- By induction on what is ahead, and not on trees, since that is what the reader descends on.
  induction left : text.length - st using Nat.strongRecOn generalizing st r with
  | ind left ih =>
    subst same
    have further (p : Reader) (same : p.text = r.text) (i : Nat) (later : st < i)
        (bound : i ≤ r.text.length) := ih _ (by omega) bound p same rfl
    have node := nodeAgrees_of (fun p same i later bound => (further p same i later bound).1)
      fun p same i later bound => (further p same i later bound).2
    exact ⟨node, nodesAgree_of node fun i later bound => (further r rfl i later bound).2⟩

theorem agrees_nodes (holds : Holds r.text st items stop) (later : low < st) :
    Agrees r (r.nodes st) (readNodes r.context items) (ReachesEnd r.text low stop) :=
  (node_nodes_agree holds.within r rfl).2 items stop low holds later

end Nodes

end Reader

end Codegen.Source
