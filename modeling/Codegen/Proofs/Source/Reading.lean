import Codegen.Proofs.Source.Terms

/-! A written program is read as what it means, and refused exactly if it has no meaning. -/
namespace Codegen.Source

section Declarations

variable {κ τ : Type} (sp : Spelling κ τ) {evs : List Event} {order : List Bytes}

theorem attempt_declareName_eq (name : Bytes) (kind : EntityKind) (names : Names) :
    attempt (declareName 0 name kind) names = if name ∈ names.declared then none else
      some ((names.scope.resolve name kind).1,
        ⟨(names.scope.resolve name kind).2.modify (names.scope.resolve name kind).1
          ({ · with kind }), name :: names.declared⟩) := by
  by_cases declared : name ∈ names.declared
  · have contained : names.declared.contains name = true := by simpa using declared
    rw [if_pos declared]
    simp only [attempt, declareName, bind, StateT.bind, get, getThe, MonadStateOf.get, StateT.get,
      pure, Except.bind, Except.pure, contained, if_true]
    rfl
  · have contained : names.declared.contains name = false := by simpa using declared
    rw [if_neg declared]
    simp only [attempt, declareName, bind, StateT.bind, get, getThe, MonadStateOf.get, StateT.get,
      pure, Except.bind, Except.pure, contained, Bool.false_eq_true, if_false]
    rfl

theorem yields_declareName (name : Bytes) (kind : EntityKind)
    (continues : mentioned (evs ++ [.declare name kind []]) <+: order) :
    Yields (attempt (declareName 0 name kind)) (namesOf evs) (name ∉ declaredNames evs)
      (order.idxOf name) (namesOf (evs ++ [.declare name kind []])) := by
  have declared : name ∈ (namesOf evs).declared ↔ name ∈ declaredNames evs := List.mem_reverse
  constructor
  · intro fresh
    obtain ⟨position, scope⟩ := resolve_declare fresh kind
    have known : name ∈ mentioned (evs ++ [.declare name kind []]) :=
      mem_mentioned_last (.declare name kind [])
    rw [attempt_declareName_eq, if_neg (mt declared.mp fresh)]
    simp only [namesOf, scope, declaredNames_append]
    rw [position, idxOf_mentioned known continues, List.reverse_append]
    rfl
  · intro refused
    rw [attempt_declareName_eq, if_pos (declared.mpr (not_not.mp refused))]

theorem yields_setValue {name : Bytes} (fresh : name ∉ declaredNames evs) (kind : EntityKind)
    (value : Bytes) (continues : mentioned (evs ++ [.declare name kind []]) <+: order) :
    Yields (attempt (setValue (order.idxOf name) value)) (namesOf (evs ++ [.declare name kind []]))
      True () (namesOf (evs ++ [.declare name kind value])) := by
  have known : name ∈ mentioned (evs ++ [.declare name kind []]) :=
    mem_mentioned_last (.declare name kind [])
  have scope := modify_declared fresh kind value
  rw [idxOf_mentioned known continues] at scope
  have declared : declaredNames (evs ++ [.declare name kind []]) =
      declaredNames (evs ++ [.declare name kind value]) := by
    rw [declaredNames_declare, declaredNames_declare]
  apply Yields.always
  simp only [namesOf, ← scope, ← declared]
  rfl

/-- Parameters are read if they are all different. -/
theorem yields_paramNames (names : List Name) (seen : List Bytes) (state : Names) :
    Yields (attempt (readParamNames ⟨0, []⟩ (some 0) seen (Sexp.trees (names.map Name.sexp))))
      state ((names.map Name.text).Nodup ∧ ∀ n ∈ names.map Name.text, n ∉ seen)
      (names.map Name.text) state := by
  induction names generalizing seen with
  | nil =>
    apply (Yields.pure ([] : List Bytes) state).congr
    simp
  | cons name names ih =>
    rw [List.map_cons, Sexp.trees, Name.sexp, Sexp.tree, readParamNames]
    simp only [attempt_bind, attempt_ite, attempt_fail, attempt_pure, List.contains_iff_mem]
    by_cases repeated : name.text ∈ seen
    · rw [if_pos repeated]
      apply Yields.refuse
      rintro ⟨_, distinct⟩
      exact distinct name.text (by simp) repeated
    · rw [if_neg repeated]
      apply ((ih (name.text :: seen)).map (name.text :: ·)).congr
      rw [List.map_cons, List.nodup_cons, List.forall_mem_cons]
      simp only [List.mem_cons, not_or]
      constructor
      · rintro ⟨distinct, apart⟩
        exact ⟨⟨fun inside => (apart _ inside).1 rfl, distinct⟩, repeated,
          fun n inside => (apart n inside).2⟩
      · rintro ⟨⟨absent, distinct⟩, _, apart⟩
        exact ⟨distinct, fun n inside => ⟨fun same => absent (same ▸ inside), apart n inside⟩⟩

/-- A term starts with its number, or it is a list that a keyword heads. -/
theorem Term.tree_cases (t : Term κ) : (∃ k, (t.sexp sp).tree = .atom 0 (sp.numeral k).text) ∨
    ∃ keyword ∈ Keyword.all, ∃ items,
      (t.sexp sp).tree = .list 0 (.atom 0 keyword.spelling :: items) (some 0) := by
  rcases t.formed sp with ⟨k, rfl⟩ | ⟨keyword, known, items, _, headed, _, _⟩
  · exact .inl ⟨k, rfl⟩
  · exact .inr ⟨keyword, known, Sexp.trees items, by rw [headed, Sexp.tree_headed]⟩

/-- No number is spelled like the mark of a function. -/
theorem numeral_ne_inlineMark (k : κ) : (sp.numeral k).text ≠ inlineMark := by
  intro same
  have parsed := sp.parse_numeral k
  have refused : IntLiteral.parse inlineMark = none := by decide +kernel
  rw [same, refused] at parsed
  contradiction

theorem inlineMarked_body (body : List (Term κ)) :
    inlineMarked (Sexp.trees (Term.sexps sp body)) = (false, Sexp.trees (Term.sexps sp body)) := by
  cases body with
  | nil => rfl
  | cons t body =>
    rw [Term.sexps, Sexp.trees]
    rcases t.tree_cases sp with ⟨k, tree⟩ | ⟨keyword, _, items, tree⟩
    · rw [tree, inlineMarked, if_neg]
      simpa using numeral_ne_inlineMark sp k
    · rw [tree]
      rfl

theorem inlineMarked_sexps (inlined : Bool) (params : Option (List Name)) (body : List (Term κ)) :
    inlineMarked (Sexp.trees (Declaration.inlineSexps inlined ++
      (Declaration.paramSexps params ++ Term.sexps sp body))) =
      (inlined, Sexp.trees (Declaration.paramSexps params ++ Term.sexps sp body)) := by
  cases inlined with
  | true =>
    rw [Declaration.inlineSexps, List.singleton_append, Sexp.trees, Sexp.tree, inlineMarked,
      if_pos (beq_self_eq_true _)]
  | false =>
    cases params with
    | none => exact inlineMarked_body sp body
    | some names => rfl

theorem readParams_body (body : List (Term κ)) :
    attempt (readParams ⟨0, []⟩ (Sexp.trees (Term.sexps sp body))) =
      pure ([], Sexp.trees (Term.sexps sp body)) := by
  cases body with
  | nil => rfl
  | cons t body =>
    rw [Term.sexps, Sexp.trees]
    rcases t.tree_cases sp with ⟨k, tree⟩ | ⟨keyword, known, items, tree⟩
    · rw [tree]
      rfl
    · have other : ∀ k ∈ Keyword.all, (k.spelling == paramsMark) = false := by decide +kernel
      rw [tree, readParams, other keyword known]
      rfl

theorem yields_params (params : Option (List Name)) (body : List (Term κ)) (state : Names) :
    Yields (attempt (readParams ⟨0, []⟩
        (Sexp.trees (Declaration.paramSexps params ++ Term.sexps sp body)))) state
      ((params.getD []).map Name.text).Nodup
      ((params.getD []).map Name.text, Sexp.trees (Term.sexps sp body)) state := by
  cases params with
  | none =>
    rw [Declaration.paramSexps, List.nil_append, readParams_body]
    apply (Yields.pure _ state).congr
    simp
  | some names =>
    rw [Declaration.paramSexps, List.singleton_append, Sexp.trees, Sexp.tree_headed, readParams,
      beq_self_eq_true, if_pos rfl, attempt_bind]
    apply ((yields_paramNames names [] state).map
      (·, Sexp.trees (Term.sexps sp body))).congr
    simp

namespace Declaration

def Accepted (evs : List Event) (d : Declaration κ τ) : Prop :=
  (∀ name ∈ d.name?, name ∉ declaredNames evs) ∧ d.params.Nodup ∧
    ∀ u ∈ d.uses, u.Allowed d.params evs

def extend (order : List Bytes) (program : Program) (d : Declaration κ τ) : Program :=
  { program with
    funcs := program.funcs ++ (d.func? sp order).toList
    init := (d.init? sp order).getD program.init }

theorem extend_var (order : List Bytes) (program : Program) (name : Name) :
    (var name : Declaration κ τ).extend sp order program = program := by
  simp [extend, func?, init?]

theorem extend_text (order : List Bytes) (program : Program) (name : Name) (value : τ) :
    (text name value : Declaration κ τ).extend sp order program = program := by
  simp [extend, func?, init?]

theorem extend_init (order : List Bytes) (program : Program) (body : List (Term κ)) :
    (init body : Declaration κ τ).extend sp order program =
      { program with init := Term.nodes sp order [] body } := by
  simp [extend, func?, init?]

theorem params_func (name : Name) (inlined : Bool) (params : Option (List Name))
    (body : List (Term κ)) :
    (func name inlined params body : Declaration κ τ).params =
      (params.getD []).map Name.text := by
  cases params <;> rfl

end Declaration

theorem closed_end (cx : Context) : attempt (expectEnd cx (some 0) []) = pure () := rfl

theorem nodup_declare {name : Bytes} (unique : (declaredNames evs).Nodup)
    (fresh : name ∉ declaredNames evs) (kind : EntityKind) (value : Bytes) :
    (declaredNames (evs ++ [.declare name kind value])).Nodup := by
  rw [declaredNames_declare, ← List.concat_eq_append]
  exact unique.concat fresh

theorem yields_func (unique : (declaredNames evs).Nodup) (name : Name) (inlined : Bool)
    (clause : Option (List Name)) (body : List (Term κ)) {params : List Bytes}
    (named : params = (clause.getD []).map Name.text)
    (continues : mentioned (evs ++ [.declare name.text .func []] ++
      mentions params (Term.usesAll body)) <+: order) :
    Yields (attempt (readFunc 0 (some 0) (Sexp.trees (name.sexp ::
        (Declaration.inlineSexps inlined ++ (Declaration.paramSexps clause ++
          Term.sexps sp body)))))) (namesOf evs)
      (name.text ∉ declaredNames evs ∧ params.Nodup ∧
        ∀ u ∈ Term.usesAll body, u.Allowed params evs)
      { name := name.text
        symbol := some ⟨.global (order.idxOf name.text), name.text⟩
        params
        inlined
        body := Term.nodes sp order params body }
      (namesOf (evs ++ [.declare name.text .func []] ++ mentions params (Term.usesAll body))) := by
  subst named
  have started := yields_declareName name.text .func ((mentioned_extends _ _).trans continues)
  -- A function is no text, so its own declaration allows no further use.
  have texts : textNames (evs ++ [.declare name.text .func []]) = textNames evs := by
    rw [textNames_append]
    exact List.append_nil _
  rw [Sexp.trees, Name.sexp, Sexp.tree, readFunc, attempt_bind]
  apply started.bind
  intro fresh
  rw [inlineMarked_sexps, attempt_bind]
  apply (yields_params sp clause body _).bind
  intro _
  have inside := reads_nodes sp order _ body _ (nodup_declare unique fresh .func []) continues
  simp only [Use.Allowed, texts] at inside
  rw [attempt_bind, attempt_within]
  exact inside.map _

/-- A declaration is read as what it means, if it is accepted. -/
theorem yields_declaration (unique : (declaredNames evs).Nodup) (program : Program)
    (d : Declaration κ τ) (continues : mentioned (evs ++ d.events sp) <+: order) :
    Yields (attempt (readDeclaration 0 program (d.sexp sp).tree)) (namesOf evs) (d.Accepted evs)
      (d.extend sp order program) (namesOf (evs ++ d.events sp)) := by
  unfold readDeclaration
  cases d with
  | var name =>
    have declared := yields_declareName name.text .var continues
    simp only [Declaration.sexp, Sexp.tree_headed, DeclKeyword.ofSpelling?_spelling, Sexp.trees,
      Name.sexp, Sexp.tree, attempt_bind, closed_end, attempt_pure, pure_bind,
      Declaration.extend_var]
    apply (declared.bind fun _ => .pure program _).congr
    simp [Declaration.Accepted, Declaration.name?, Declaration.params, Declaration.uses]
  | text name value =>
    rw [Declaration.events, mentioned_declare] at continues
    have declared := yields_declareName name.text .text continues
    simp only [Declaration.sexp, Sexp.tree_headed, DeclKeyword.ofSpelling?_spelling, Sexp.trees,
      Name.sexp, Sexp.tree, attempt_bind, closed_end, attempt_pure, pure_bind, readQuoted,
      sp.decode_body, Declaration.extend_text]
    apply (declared.bind fun fresh => (yields_setValue fresh .text (sp.value value) continues).bind
      fun _ => .pure program _).congr
    simp [Declaration.Accepted, Declaration.name?, Declaration.params, Declaration.uses]
  | func name inlined params body =>
    have named : (Declaration.func name inlined params body : Declaration κ τ).params = _ :=
      Declaration.params_func name inlined params body
    rw [Declaration.events, ← List.singleton_append, ← List.append_assoc] at continues ⊢
    have read := yields_func sp unique name inlined params body named continues
    simp only [Declaration.sexp, Sexp.tree_headed, DeclKeyword.ofSpelling?_spelling, attempt_bind,
      attempt_pure]
    have added := read.map fun f : Func => { program with funcs := program.funcs ++ [f] }
    apply added.congr
    simp [Declaration.Accepted, Declaration.name?, Declaration.uses]
  | init body =>
    have read := reads_nodes sp order [] body evs unique continues
    simp only [Declaration.sexp, Sexp.tree_headed, DeclKeyword.ofSpelling?_spelling, attempt_bind,
      attempt_within, closed_end, attempt_pure, pure_bind]
    have replaced := read.map fun init : List Node => { program with init }
    rw [Declaration.extend_init]
    apply replaced.congr
    simp [Declaration.Accepted, Declaration.name?, Declaration.params, Declaration.uses]

end Declarations

section Programs

variable {κ τ : Type} (sp : Spelling κ τ) {evs : List Event} {order : List Bytes}

theorem declaredNames_events (d : Declaration κ τ) :
    declaredNames (d.events sp) = d.name?.toList := by
  cases d with
  | var name => rfl
  | text name value => rfl
  | func name inlined params body =>
    exact congrArg (name.text :: ·) (declaredNames_mentions _ _)
  | init body => exact declaredNames_mentions _ _

theorem textNames_events (d : Declaration κ τ) :
    textNames (d.events sp) = d.textName?.toList := by
  cases d with
  | var name => rfl
  | text name value => rfl
  | func name inlined params body => exact textNames_mentions _ _
  | init body => exact textNames_mentions _ _

theorem declaredNames_all (ds : List (Declaration κ τ)) :
    declaredNames (ds.flatMap (Declaration.events sp)) = ds.filterMap Declaration.name? := by
  induction ds with
  | nil => rfl
  | cons d ds ih =>
    rw [List.flatMap_cons, declaredNames_append, declaredNames_events, ih]
    cases named : d.name? <;> simp [named]

theorem textNames_all (ds : List (Declaration κ τ)) :
    textNames (ds.flatMap (Declaration.events sp)) = ds.filterMap Declaration.textName? := by
  induction ds with
  | nil => rfl
  | cons d ds ih =>
    rw [List.flatMap_cons, textNames_append, textNames_events, ih]
    cases named : d.textName? <;> simp [named]

/-- Each declaration is accepted after the events of those before it. -/
def Accepts (evs : List Event) : List (Declaration κ τ) → Prop
  | [] => True
  | d :: ds => d.Accepted evs ∧ Accepts (evs ++ d.events sp) ds

theorem nodup_events (unique : (declaredNames evs).Nodup) {d : Declaration κ τ}
    (accepted : d.Accepted evs) : (declaredNames (evs ++ d.events sp)).Nodup := by
  rw [declaredNames_append, declaredNames_events]
  cases named : d.name? with
  | none => simpa using unique
  | some name =>
    rw [Option.toList_some, ← List.concat_eq_append]
    exact unique.concat (accepted.1 name named)

theorem yields_declarations (unique : (declaredNames evs).Nodup) (program : Program)
    (ds : List (Declaration κ τ))
    (continues : mentioned (evs ++ ds.flatMap (Declaration.events sp)) <+: order) :
    Yields (attempt (readDeclarations 0 none program
        (Sexp.trees (ds.map (Declaration.sexp sp))))) (namesOf evs) (Accepts sp evs ds)
      (ds.foldl (Declaration.extend sp order) program)
      (namesOf (evs ++ ds.flatMap (Declaration.events sp))) := by
  induction ds generalizing evs program with
  | nil =>
    rw [List.flatMap_nil, List.append_nil]
    exact .pure program _
  | cons d ds ih =>
    rw [List.flatMap_cons, ← List.append_assoc] at continues ⊢
    rw [List.map_cons, Sexp.trees, readDeclarations, attempt_bind]
    have first := yields_declaration sp unique program d ((mentioned_extends _ _).trans continues)
    exact first.bind fun accepted => ih (nodup_events sp unique accepted) _ continues

theorem accepted_iff_fits (before : List (Declaration κ τ)) (d : Declaration κ τ) :
    d.Accepted (before.flatMap (Declaration.events sp)) ↔ d.Fits before := by
  simp only [Declaration.Accepted, Declaration.Fits, Use.Allowed, declaredNames_all, textNames_all]

theorem accepts_iff (before ds : List (Declaration κ τ)) :
    Accepts sp (before.flatMap (Declaration.events sp)) ds ↔
      ∀ i : Fin ds.length, (ds.get i).Fits (before ++ ds.take i) := by
  induction ds generalizing before with
  | nil => simp [Accepts]
  | cons d ds ih =>
    have next := ih (before ++ [d])
    rw [List.flatMap_append, List.flatMap_singleton] at next
    rw [Accepts, accepted_iff_fits, next]
    simp [Fin.forall_fin_succ]

theorem foldl_extend (program : Program) (ds : List (Declaration κ τ)) :
    ds.foldl (Declaration.extend sp order) program =
      { program with
        funcs := program.funcs ++ ds.filterMap (Declaration.func? sp order)
        init := (ds.filterMap (Declaration.init? sp order)).getLast?.getD program.init } := by
  induction ds generalizing program with
  | nil => simp
  | cons d ds ih =>
    rw [List.foldl_cons, ih, Declaration.extend]
    cases isFunc : d.func? sp order <;> cases isInit : d.init? sp order <;>
      simp [isFunc, isInit, List.getLast?_cons]

theorem header_version {q : τ} (supported : isSupported (sp.value q) = true) (trees : List Tree) :
    header ((Written.versionSexp sp q).tree :: trees) = pure trees := by
  rw [Written.versionSexp, Sexp.tree_headed, header]
  simp [Sexp.trees, Sexp.tree, readQuoted, sp.decode_body, supported]

theorem header_declarations (ds : List (Declaration κ τ)) :
    header (Sexp.trees (ds.map (Declaration.sexp sp))) =
      pure (Sexp.trees (ds.map (Declaration.sexp sp))) := by
  cases ds with
  | nil => rfl
  | cons d ds =>
    obtain ⟨k, other, items, headed⟩ := d.headed sp
    have apart : (k.spelling == DeclKeyword.version.spelling) = false := by
      rw [beq_eq_false_iff_ne]
      exact fun same => other (DeclKeyword.spelling_inj same)
    rw [List.map_cons, Sexp.trees, headed, Sexp.tree_headed, header, apart]
    rfl

variable {sp}

theorem header_written (w : Written sp) : header (Sexp.trees w.sexps) =
    pure (Sexp.trees (w.declarations.map (Declaration.sexp sp))) := by
  rw [Written.sexps]
  cases w.version with
  | none => exact header_declarations sp w.declarations
  | some q => exact header_version sp q.2 _

/-- The tokens of a written program say what it means, if it is well formed, and else nothing. -/
theorem outcome_written (w : Written sp) : outcome (Sexp.tokensAll w.sexps) =
    if w.WellFormed then some w.program else none := by
  have start : ({} : Names) = namesOf [] := rfl
  have unique : (declaredNames []).Nodup := List.nodup_nil
  have all := yields_declarations sp unique {} w.declarations
    (List.prefix_refl (mentioned w.events))
  have wellFormed : Accepts sp [] w.declarations ↔ w.WellFormed := accepts_iff sp [] w.declarations
  rw [outcome, grouped_tokensAll, header_written, pure_bind, start]
  by_cases formed : w.WellFormed
  · rw [if_pos formed, all.succeeds (wellFormed.mpr formed), foldl_extend]
    simp [withScope, Written.program, namesOf, Written.events]
  · rw [if_neg formed, all.fails (mt wellFormed.mp formed)]
    rfl

/-- The canonical text of a program, with any names, numbers and texts in it, is read as what the
program means, and it is refused exactly if the program is not well formed. -/
theorem read_canonical (w : Written .canonical) (spaced : Bool) (p : Program) :
    read (w.text spaced) = .ok p ↔ w.WellFormed ∧ p = w.program := by
  have said := read_eq_outcome (w.text spaced)
  rw [w.not_detached, w.tokens_text, outcome_written] at said
  by_cases formed : w.WellFormed
  · rw [if_neg Bool.false_ne_true, if_pos formed] at said
    cases reading : read (w.text spaced) with
    | error fault => simp [reading, Except.toOption] at said
    | ok program =>
      rw [reading] at said
      obtain rfl := Option.some.inj said
      simp [formed, eq_comm]
  · rw [if_neg Bool.false_ne_true, if_neg formed] at said
    cases reading : read (w.text spaced) with
    | error fault => simp [formed]
    | ok program => simp [reading, Except.toOption] at said

def shadowing : Written .canonical :=
  let f : Name := ⟨ascii "f", by decide +kernel, by decide +kernel⟩
  let g : Name := ⟨ascii "g", by decide +kernel, by decide +kernel⟩
  let s : Name := ⟨ascii "s", by decide +kernel, by decide +kernel⟩
  ⟨none, [.text s (ascii "say \"hi\""),
    .func f true (some [g]) [.ret (.call g [.var g, .text s, .const (-1)])]]⟩

example : shadowing.WellFormed ∧
    shadowing.text false = ascii "(string s \"say \\\"hi\\\"\") " ++
      ascii "(func f inline (params g) (return (call g (var g) (str s) -1)))" := by
  decide +kernel

end Programs

end Codegen.Source
