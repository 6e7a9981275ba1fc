import Codegen.Proofs.Source.Elaboration

/-! Terms are read as what they mean, in any scope. The only way for one to be refused is a text
that it uses: it has to be declared before, and no parameter may hide it. -/
namespace Codegen.Source

variable {α β : Type}

/-- A reading that succeeds exactly under a condition, and then with this result. -/
structure Yields (p : Attempt α) (names : Names) (condition : Prop) (a : α) (after : Names) :
    Prop where
  succeeds : condition → p names = some (a, after)
  fails : ¬ condition → p names = none

namespace Yields

variable {p : Attempt α} {names after last : Names} {c d : Prop} {a : α} {b : β}

theorem always (done : p names = some (a, after)) : Yields p names True a after :=
  ⟨fun _ => done, fun refused => (refused trivial).elim⟩

theorem pure (a : α) (names : Names) : Yields (Pure.pure a) names True a names :=
  always rfl

theorem bind {f : α → Attempt β} (first : Yields p names c a after)
    (second : c → Yields (f a) after d b last) : Yields (p >>= f) names (c ∧ d) b last := by
  constructor
  · rintro ⟨holds, holds'⟩
    simp [Bind.bind, StateT.bind, first.succeeds holds, (second holds).succeeds holds']
  · intro refused
    by_cases holds : c
    · have fails := (second holds).fails fun holds' => refused ⟨holds, holds'⟩
      simp [Bind.bind, StateT.bind, first.succeeds holds, fails]
    · simp [Bind.bind, StateT.bind, first.fails holds]

theorem map (f : α → β) (first : Yields p names c a after) :
    Yields (f <$> p) names c (f a) after := by
  constructor
  · intro holds
    simp [Functor.map, StateT.map, first.succeeds holds]
  · intro refused
    simp [Functor.map, StateT.map, first.fails refused]

theorem congr (first : Yields p names c a after) (same : c ↔ d) : Yields p names d a after :=
  ⟨fun holds => first.succeeds (same.mpr holds), fun refused => first.fails (refused ∘ same.mp)⟩

theorem refuse (refused : ¬ c) : Yields failure names c a after :=
  ⟨fun holds => (refused holds).elim, fun _ => rfl⟩

theorem guard (c : Prop) [Decidable c] (a : α) (names : Names) :
    Yields (if c then Pure.pure a else failure) names c a names := by
  constructor
  · intro holds
    rw [if_pos holds]
    rfl
  · intro refused
    rw [if_neg refused]
    rfl

end Yields

def namesOf (evs : List Event) : Names := ⟨scopeOf evs, (declaredNames evs).reverse⟩

section Symbols

variable {evs : List Event} {order : List Bytes}

theorem declaredNames_append (evs more : List Event) :
    declaredNames (evs ++ more) = declaredNames evs ++ declaredNames more := by
  simp [declaredNames]

theorem textNames_append (evs more : List Event) :
    textNames (evs ++ more) = textNames evs ++ textNames more := by
  simp [textNames]

theorem declaredNames_declare (evs : List Event) (name : Bytes) (kind : EntityKind)
    (value : Bytes) :
    declaredNames (evs ++ [.declare name kind value]) = declaredNames evs ++ [name] :=
  declaredNames_append ..

theorem declaredNames_mentions (params : List Bytes) (us : List Use) :
    declaredNames (mentions params us) = [] := by
  rw [declaredNames, List.map_eq_nil_iff, List.filter_eq_nil_iff]
  intro e inside
  obtain ⟨u, _, rfl⟩ := List.mem_map.mp inside
  simp

theorem textNames_mentions (params : List Bytes) (us : List Use) :
    textNames (mentions params us) = [] := by
  rw [textNames, List.map_eq_nil_iff, List.filter_eq_nil_iff]
  intro e inside
  obtain ⟨u, _, rfl⟩ := List.mem_map.mp inside
  simp

theorem mentions_append (params : List Bytes) (us vs : List Use) :
    mentions params (us ++ vs) = mentions params us ++ mentions params vs := by
  simp [mentions]

theorem namesOf_use (evs : List Event) (u : Use) :
    { namesOf evs with scope := scopeOf (evs ++ [.use u]) } = namesOf (evs ++ [.use u]) := by
  simp [namesOf, declaredNames]

theorem mem_mentioned_last (e : Event) : e.name ∈ mentioned (evs ++ [e]) :=
  mem_mentioned.mpr ⟨e, by simp, rfl⟩

/-- The position of a name that has been mentioned stays the same. -/
theorem idxOf_mentioned {name : Bytes} (known : name ∈ mentioned evs)
    (continues : mentioned evs <+: order) : (mentioned evs).idxOf name = order.idxOf name := by
  obtain ⟨more, rfl⟩ := continues
  exact (List.idxOf_append_of_mem known).symm

theorem yields_scopeSymbol (u : Use) (continues : mentioned (evs ++ [.use u]) <+: order) :
    Yields (attempt (scopeSymbol u.name (Event.use u).entity.kind)) (namesOf evs) True
      ⟨.global (order.idxOf u.name), u.name⟩ (namesOf (evs ++ [.use u])) := by
  have known : u.name ∈ mentioned (evs ++ [.use u]) := mem_mentioned_last (.use u)
  have found := resolve_use evs u
  have scope : (namesOf evs).scope = scopeOf evs := rfl
  apply Yields.always
  simp only [attempt, scopeSymbol, scope, found, Except.toOption, namesOf_use,
    idxOf_mentioned known continues]

/-- A text that is used has been declared, and no parameter hides it. -/
def Use.Allowed (params : List Bytes) (evs : List Event) (u : Use) : Prop :=
  u.role = .text → u.name ∉ params ∧ u.name ∈ textNames evs

theorem allowed_mentions (params : List Bytes) (evs : List Event) (us : List Use) (u : Use) :
    u.Allowed params (evs ++ mentions params us) ↔ u.Allowed params evs := by
  rw [Use.Allowed, textNames_append, textNames_mentions, List.append_nil, Use.Allowed]

def Use.look : Use → List Bytes → Attempt Symbol
  | ⟨name, .place⟩ => place name
  | ⟨name, .text⟩ => textPlace name
  | ⟨name, .callee⟩ => fun _ => callee name

theorem symbol_param {params : List Bytes} {u : Use} {i : Nat} (role : u.role ≠ .callee)
    (found : params.idxOf? u.name = some i) : u.symbol order params = ⟨.param i, u.name⟩ := by
  obtain ⟨name, _ | _ | _⟩ := u
  · simp [Use.symbol, found]
  · simp [Use.symbol, found]
  · exact absurd rfl role

theorem symbol_global {params : List Bytes} {u : Use} (free : u.isGlobal params = true) :
    u.symbol order params = ⟨.global (order.idxOf u.name), u.name⟩ := by
  obtain ⟨name, _ | _ | _⟩ := u
  · have absent : params.idxOf? name = none := by simpa [Use.isGlobal] using free
    simp [Use.symbol, absent]
  · have absent : params.idxOf? name = none := by simpa [Use.isGlobal] using free
    simp [Use.symbol, absent]
  · rfl

theorem mentions_global {params : List Bytes} {u : Use} (free : u.isGlobal params = true) :
    mentions params [u] = [.use u] := by
  simp [mentions, free]

theorem mentions_param {params : List Bytes} {u : Use} (hidden : u.isGlobal params ≠ true) :
    mentions params [u] = [] := by
  simp [mentions, hidden]

theorem isGlobal_iff {params : List Bytes} {u : Use} (role : u.role ≠ .callee) :
    u.isGlobal params = true ↔ u.name ∉ params := by
  simp [Use.isGlobal, role]

theorem idxOf?_of_hidden {params : List Bytes} {u : Use} (role : u.role ≠ .callee)
    (hidden : u.isGlobal params ≠ true) :
    u.name ∈ params ∧ ∃ i, params.idxOf? u.name = some i := by
  rw [ne_eq, isGlobal_iff role, not_not] at hidden
  refine ⟨hidden, Option.ne_none_iff_exists'.mp ?_⟩
  rw [ne_eq, List.idxOf?_eq_none_iff, not_not]
  exact hidden

theorem yields_place {params : List Bytes} {u : Use} (role : u.role ≠ .callee)
    (continues : mentioned (evs ++ mentions params [u]) <+: order) :
    Yields (place u.name params) (namesOf evs) True (u.symbol order params)
      (namesOf (evs ++ mentions params [u])) := by
  by_cases free : u.isGlobal params = true
  · have kind : (Event.use u).entity.kind = .var := by
      obtain ⟨name, _ | _ | _⟩ := u
      · rfl
      · rfl
      · exact absurd rfl role
    have absent : params.idxOf? u.name = none := by
      rw [List.idxOf?_eq_none_iff]
      exact (isGlobal_iff role).mp free
    rw [mentions_global free] at continues ⊢
    rw [symbol_global free, place, resolve, absent, ← kind]
    exact yields_scopeSymbol u continues
  · obtain ⟨hidden, i, found⟩ := idxOf?_of_hidden role free
    rw [mentions_param free, List.append_nil, symbol_param role found, place, resolve, found]
    exact .pure _ _

theorem attempt_isText_global (i : Nat) (name : Bytes) (names : Names) :
    attempt (isText ⟨.global i, name⟩) names =
      some (names.scope.entities[i]?.any (·.kind == .text), names) := rfl

/-- A parameter is no text. -/
theorem yields_isText {params : List Bytes} {u : Use} (unique : (declaredNames evs).Nodup)
    (role : u.role ≠ .callee)
    (continues : mentioned (evs ++ mentions params [u]) <+: order) :
    Yields (attempt (isText (u.symbol order params))) (namesOf (evs ++ mentions params [u])) True
      (decide (u.name ∉ params ∧ u.name ∈ textNames evs))
      (namesOf (evs ++ mentions params [u])) := by
  by_cases free : u.isGlobal params = true
  · have texts : textNames (evs ++ [.use u]) = textNames evs := by simp [textNames]
    have unique : (declaredNames (evs ++ [.use u])).Nodup := by simpa [declaredNames] using unique
    have known : u.name ∈ mentioned (evs ++ [.use u]) := mem_mentioned_last (.use u)
    -- Looking the name up has added it to the scope, if it was not there.
    have below := List.idxOf_lt_length_of_mem known
    rw [mentions_global free] at continues ⊢
    rw [symbol_global free, ← idxOf_mentioned known continues]
    have entity : (namesOf (evs ++ [.use u])).scope.entities[
        (mentioned (evs ++ [.use u])).idxOf u.name]? = some (entityOf (evs ++ [.use u]) u.name) := by
      simp [namesOf, scopeOf, below]
    have text : (entityOf (evs ++ [.use u]) u.name).kind = .text ↔
        u.name ∉ params ∧ u.name ∈ textNames evs := by
      rw [kind_eq_text_iff unique, texts, and_iff_right ((isGlobal_iff role).mp free)]
    apply Yields.always
    rw [attempt_isText_global, entity, Option.any_some, Bool.beq_eq_decide_eq,
      decide_eq_decide.mpr text]
  · obtain ⟨hidden, i, found⟩ := idxOf?_of_hidden role free
    have refused : decide (u.name ∉ params ∧ u.name ∈ textNames evs) = false := by simp [hidden]
    rw [symbol_param role found, refused]
    exact .pure _ _

/-- A use is looked up as its symbol. -/
theorem yields_look (unique : (declaredNames evs).Nodup) (params : List Bytes) (u : Use)
    (continues : mentioned (evs ++ mentions params [u]) <+: order) :
    Yields (u.look params) (namesOf evs) (u.Allowed params evs) (u.symbol order params)
      (namesOf (evs ++ mentions params [u])) := by
  obtain ⟨name, role⟩ := u
  cases role with
  | place =>
    have placed := yields_place (u := ⟨name, .place⟩) (by simp) continues
    apply placed.congr
    simp [Use.Allowed]
  | callee =>
    have free : Use.isGlobal params ⟨name, .callee⟩ = true := by simp [Use.isGlobal]
    rw [mentions_global free] at continues ⊢
    apply (yields_scopeSymbol ⟨name, .callee⟩ continues).congr
    simp [Use.Allowed]
  | text =>
    have placed := yields_place (u := ⟨name, .text⟩) (by simp) continues
    have text := yields_isText (u := ⟨name, .text⟩) unique (by simp) continues
    apply (placed.bind fun _ => text.bind fun _ => .guard _ _ _).congr
    simp [Use.Allowed]

end Symbols

/-- A reading that uses names, wherever it starts. -/
def Reads (order params : List Bytes) (p : Attempt α) (us : List Use) (a : α) : Prop :=
  ∀ evs, (declaredNames evs).Nodup → mentioned (evs ++ mentions params us) <+: order →
    Yields p (namesOf evs) (∀ u ∈ us, u.Allowed params evs) a (namesOf (evs ++ mentions params us))

namespace Reads

variable {order params : List Bytes} {p : Attempt α} {us vs : List Use} {a : α} {b : β}

theorem pure (a : α) : Reads order params (Pure.pure a) [] a := by
  intro evs _ _
  rw [mentions, List.filter_nil, List.map_nil, List.append_nil]
  apply (Yields.pure a _).congr
  simp

theorem map (f : α → β) (first : Reads order params p us a) :
    Reads order params (f <$> p) us (f a) :=
  fun evs unique continues => (first evs unique continues).map f

theorem bind {f : α → Attempt β} (first : Reads order params p us a)
    (second : Reads order params (f a) vs b) : Reads order params (p >>= f) (us ++ vs) b := by
  intro evs unique continues
  rw [mentions_append, ← List.append_assoc] at continues ⊢
  -- Uses declare nothing, so the second part starts with the declarations of the first.
  have unique' : (declaredNames (evs ++ mentions params us)).Nodup := by
    rwa [declaredNames_append, declaredNames_mentions, List.append_nil]
  have one := first evs unique ((mentioned_extends _ _).trans continues)
  have two := second _ unique' continues
  apply (one.bind fun _ => two).congr
  simp only [allowed_mentions, List.forall_mem_append]

theorem look (u : Use) : Reads order params (u.look params) [u] (u.symbol order params) := by
  intro evs unique continues
  apply (yields_look unique params u continues).congr
  rw [List.forall_mem_singleton]

end Reads

section Terms

variable {κ τ : Type} (sp : Spelling κ τ)

def lookup : Option Use → List Bytes → Attempt (Option Symbol)
  | some u => fun params => some <$> u.look params
  | none => fun _ => pure none

theorem reads_lookup (order params : List Bytes) (u : Option Use) :
    Reads order params (lookup u params) u.toList (u.map (Use.symbol order params)) := by
  cases u with
  | none => exact .pure none
  | some u => exact (Reads.look u).map some

theorem ofSpelling?_spelling : ∀ k ∈ Keyword.all, Keyword.ofSpelling? k.spelling = some k := by
  decide +kernel

/-- A term that is no number has a form, with its own use and the terms below. -/
theorem Term.formed (t : Term κ) : (∃ k, t = .const k) ∨ ∃ keyword ∈ Keyword.all, ∃ items build,
    t.sexp sp = .headed keyword.spelling items ∧
      keyword.form? (Sexp.trees items) =
        some ⟨lookup t.own, Sexp.trees (sexps sp t.children), build⟩ ∧
      ∀ order params, t.node sp order params =
        build (t.own.map (Use.symbol order params)) (nodes sp order params t.children) := by
  cases t with
  | const k => exact .inl ⟨k, rfl⟩
  | unary op x =>
    exact .inr ⟨_, Keyword.unary_mem_all op.2, _, _, rfl, rfl, fun _ _ => rfl⟩
  | binary op l r =>
    exact .inr ⟨_, Keyword.binary_mem_all op.2, _, _, rfl, rfl, fun _ _ => rfl⟩
  | var name => exact .inr ⟨.var, by decide, _, _, rfl, rfl, fun _ _ => rfl⟩
  | addr name => exact .inr ⟨.addr, by decide, _, _, rfl, rfl, fun _ _ => rfl⟩
  | text name => exact .inr ⟨.text, by decide, _, _, rfl, rfl, fun _ _ => rfl⟩
  | mem x => exact .inr ⟨.mem, by decide, _, _, rfl, rfl, fun _ _ => rfl⟩
  | call callee args => exact .inr ⟨.call, by decide, _, _, rfl, rfl, fun _ _ => rfl⟩
  | assign l r => exact .inr ⟨.assign, by decide, _, _, rfl, rfl, fun _ _ => rfl⟩
  | label name => exact .inr ⟨.label, by decide, _, _, rfl, rfl, fun _ _ => rfl⟩
  | jump target => exact .inr ⟨.jump, by decide, _, _, rfl, rfl, fun _ _ => rfl⟩
  | branch x ifTrue ifFalse => exact .inr ⟨.branch, by decide, _, _, rfl, rfl, fun _ _ => rfl⟩
  | leave => exact .inr ⟨.ret, by decide, _, _, rfl, rfl, fun _ _ => rfl⟩
  | ret x => exact .inr ⟨.ret, by decide, _, _, rfl, rfl, fun _ _ => rfl⟩

theorem reads_nodes_of {order params : List Bytes} {xs : List (Term κ)}
    (each : ∀ x ∈ xs, Reads order params (attempt (readNode ⟨0, params⟩ (x.sexp sp).tree)) x.uses
      (x.node sp order params)) :
    Reads order params (attempt (readNodes ⟨0, params⟩ (Sexp.trees (Term.sexps sp xs))))
      (Term.usesAll xs) (Term.nodes sp order params xs) := by
  induction xs with
  | nil => exact .pure []
  | cons x xs ih =>
    rw [List.forall_mem_cons] at each
    rw [Term.sexps, Sexp.trees, readNodes, attempt_bind, Term.usesAll]
    apply each.1.bind
    rw [attempt_bind]
    exact (ih each.2).map (x.node sp order params :: ·)

/-- A term is read as what it means. -/
theorem reads_node (order params : List Bytes) (t : Term κ) :
    Reads order params (attempt (readNode ⟨0, params⟩ (t.sexp sp).tree)) t.uses
      (t.node sp order params) := by
  induction t using Term.induction with
  | step t below =>
    rcases t.formed sp with ⟨k, rfl⟩ | ⟨keyword, known, items, build, headed, formed, node⟩
    · rw [Term.sexp, Name.sexp, Sexp.tree, attempt_readNode_atom, sp.parse_numeral]
      exact .pure _
    · rw [headed, Sexp.tree_headed, attempt_readNode_list, ofSpelling?_spelling keyword known,
        Option.bind_some, formed, node, t.uses_eq]
      apply (reads_lookup order params t.own).bind
      exact (reads_nodes_of sp below).map _

theorem reads_nodes (order params : List Bytes) (xs : List (Term κ)) :
    Reads order params (attempt (readNodes ⟨0, params⟩ (Sexp.trees (Term.sexps sp xs))))
      (Term.usesAll xs) (Term.nodes sp order params xs) :=
  reads_nodes_of sp fun x _ => reads_node sp order params x

end Terms

end Codegen.Source
