import Codegen.Proofs.Source.Sentence

/-! What the names of an accepted program denote. A name in a body is a parameter of the function,
if one has that name and a parameter can be meant, and else the one entity of the scope with that
name. -/
namespace Codegen

open Source

namespace Node

mutual

/-- The symbols that a node names, from left to right, with what each is there for. -/
def symbols : Node → List (Role × Option Symbol)
  | .var symbol | .addr symbol => [(.place, symbol)]
  | .text symbol => [(.text, symbol)]
  | .mem x | .unary _ x | .branch x _ _ | .ret x => x.symbols
  | .binary _ l r | .assign l r => l.symbols ++ r.symbols
  | .call callee args => (.callee, callee) :: symbolsAll args
  | .missing | .const _ | .label _ | .jump _ => []

def symbolsAll : List Node → List (Role × Option Symbol)
  | [] => []
  | x :: rest => x.symbols ++ symbolsAll rest

end

end Node

/-- The entities of a function's parameters, which no scope holds. -/
def Func.paramEntities (f : Func) : List Entity := f.params.map fun name => ⟨name, .param, []⟩

namespace Source

/-- What a symbol may denote in a function with these parameters. -/
inductive Denotes (scope : Scope) (params : List Bytes) : Role → Symbol → Prop
  | param {i : Nat} {name : Bytes} (found : params[i]? = some name) :
    Denotes scope params .place ⟨.param i, name⟩
  | place {i : Nat} {e : Entity} (found : scope.entities[i]? = some e) (free : e.name ∉ params) :
    Denotes scope params .place ⟨.global i, e.name⟩
  | text {i : Nat} {e : Entity} (found : scope.entities[i]? = some e) (free : e.name ∉ params)
      (kind : e.kind = .text) : Denotes scope params .text ⟨.global i, e.name⟩
  | callee {i : Nat} {e : Entity} (found : scope.entities[i]? = some e) :
    Denotes scope params .callee ⟨.global i, e.name⟩

/-- All names of some nodes are there and denote something. -/
def Denoting (scope : Scope) (params : List Bytes) (xs : List Node) : Prop :=
  ∀ m ∈ Node.symbolsAll xs, ∃ s, m.2 = some s ∧ Denotes scope params m.1 s

/-- A program whose names are resolved, with the string constants that were declared. -/
structure Resolved (texts : List (Bytes × Bytes)) (p : Program) : Prop where
  entities : (p.scope.entities.map Entity.name).Nodup
  functions : (p.funcs.map Func.name).Nodup
  function : ∀ f ∈ p.funcs, ∃ i, f.symbol = some ⟨.global i, f.name⟩ ∧
    p.scope.entities[i]? = some ⟨f.name, .func, []⟩
  params : ∀ f ∈ p.funcs, (f.paramEntities.map Entity.name).Nodup ∧
    ∀ e ∈ f.paramEntities, e ∉ p.scope.entities
  bodies : ∀ f ∈ p.funcs, Denoting p.scope f.params f.body
  init : Denoting p.scope [] p.init
  distinct : (texts.map Prod.fst).Nodup
  value : ∀ e ∈ p.scope.entities, e.kind = .text → (e.name, e.value) ∈ texts

section Events

variable {evs : List Event} {name : Bytes}

theorem entity_at (known : name ∈ mentioned evs) :
    (scopeOf evs).entities[(mentioned evs).idxOf name]? = some (entityOf evs name) := by
  simp [scopeOf, List.idxOf_lt_length_of_mem known]

theorem mem_of_source? {e : Event} (found : source? evs name = some e) : e ∈ evs := by
  rcases Option.or_eq_some_iff.mp found with declared | ⟨_, first⟩
  · exact List.mem_of_find?_eq_some declared
  · exact List.mem_of_find?_eq_some first

/-- Where no name is declared twice, an entity is what its declaration says. -/
theorem entityOf_declared (unique : (declaredNames evs).Nodup) {kind : EntityKind} {value : Bytes}
    (inside : .declare name kind value ∈ evs) : entityOf evs name = ⟨name, kind, value⟩ := by
  have declared := List.mem_filter.mpr ⟨inside, Event.declares_declare name kind value⟩
  obtain ⟨d, inside', declares, same, source⟩ := source?_declared (List.mem_map_of_mem declared)
  have only : d = .declare name kind value :=
    List.inj_on_of_nodup_map unique (List.mem_filter.mpr ⟨inside', declares⟩) declared same
  rw [Event.name_declare, only] at source
  simp [entityOf, source, Event.entity]

/-- A use that is allowed denotes an entity of the whole scope, or a parameter that hides it. -/
theorem denotes_symbol (unique : (declaredNames evs).Nodup) {params : List Bytes} {u : Use}
    (known : u.isGlobal params = true → u.name ∈ mentioned evs) (allowed : u.Allowed params evs) :
    Denotes (scopeOf evs) params u.role (u.symbol (mentioned evs) params) := by
  have global (free : u.isGlobal params = true) : u.symbol (mentioned evs) params =
      ⟨.global ((mentioned evs).idxOf u.name), (entityOf evs u.name).name⟩ := by
    rw [entityOf_name, symbol_global free]
  have found (free : u.isGlobal params = true) := entity_at (known free)
  have named : (entityOf evs u.name).name = u.name := entityOf_name evs u.name
  cases role : u.role with
  | callee =>
    have free : u.isGlobal params = true := by simp [Use.isGlobal, role]
    exact global free ▸ .callee (found free)
  | text =>
    obtain ⟨absent, isText⟩ := allowed role
    have free : u.isGlobal params = true := (isGlobal_iff (by simp [role])).mpr absent
    have kind : (entityOf evs u.name).kind = .text := (kind_eq_text_iff unique).mpr isText
    exact global free ▸ .text (found free) (named.symm ▸ absent) kind
  | place =>
    have other : u.role ≠ .callee := by simp [role]
    by_cases free : u.isGlobal params = true
    · exact global free ▸ .place (found free) (named.symm ▸ (isGlobal_iff other).mp free)
    · obtain ⟨_, i, index⟩ := idxOf?_of_hidden other free
      have here : params[i]? = some u.name := by
        obtain ⟨inside, same, _⟩ := List.idxOf?_eq_some_iff.mp index
        exact List.getElem?_eq_some_iff.mpr ⟨inside, same⟩
      exact symbol_param other index ▸ .param here

end Events

section Symbols

variable {κ τ : Type} (sp : Spelling κ τ) (order params : List Bytes)

def Use.named (u : Use) : Role × Option Symbol := (u.role, some (u.symbol order params))

mutual

theorem Term.symbols_node : ∀ t : Term κ,
    (t.node sp order params).symbols = t.uses.map (Use.named order params)
  | const _ | label _ | jump _ | leave => rfl
  | var _ | addr _ | text _ => rfl
  | mem x | unary _ x | branch x _ _ | ret x => x.symbols_node
  | binary _ l r | assign l r => by
    simp [node, uses, Node.symbols, l.symbols_node, r.symbols_node]
  | call callee args => by
    simp [node, uses, Node.symbols, symbols_nodes args, Use.named]

theorem Term.symbols_nodes : ∀ xs : List (Term κ),
    Node.symbolsAll (nodes sp order params xs) = (usesAll xs).map (Use.named order params)
  | [] => rfl
  | x :: rest => by
    simp [nodes, usesAll, Node.symbolsAll, x.symbols_node, symbols_nodes rest]

end

end Symbols

section Programs

variable {κ τ : Type} {sp : Spelling κ τ} {w : Written sp}

theorem nodup_accepts {evs : List Event} {ds : List (Declaration κ τ)}
    (unique : (declaredNames evs).Nodup) (accepted : Accepts sp evs ds) :
    (declaredNames (evs ++ ds.flatMap (Declaration.events sp))).Nodup := by
  induction ds generalizing evs with
  | nil => simpa using unique
  | cons d ds ih =>
    obtain ⟨first, others⟩ := accepted
    simpa [List.append_assoc] using ih (nodup_events sp unique first) others

namespace Written

/-- The string constants that are declared. -/
def texts (w : Written sp) : List (Bytes × Bytes) :=
  w.declarations.filterMap fun
    | .text name value => some (name.text, sp.value value)
    | _ => none

theorem WellFormed.unique (formed : w.WellFormed) : (declaredNames w.events).Nodup := by
  have start : (declaredNames []).Nodup := List.nodup_nil
  exact nodup_accepts start ((accepts_iff sp [] w.declarations).mpr formed)

theorem WellFormed.fits (formed : w.WellFormed) {d : Declaration κ τ}
    (inside : d ∈ w.declarations) : ∃ before, before <+: w.declarations ∧ d.Fits before := by
  obtain ⟨i, rfl⟩ := List.get_of_mem inside
  exact ⟨_, List.take_prefix _ _, formed i⟩

theorem mem_events {d : Declaration κ τ} (inside : d ∈ w.declarations) {e : Event}
    (happens : e ∈ d.events sp) : e ∈ w.events :=
  List.mem_flatMap_of_mem inside happens

theorem use_mem_events {d : Declaration κ τ} {u : Use} (used : u ∈ d.uses)
    (free : u.isGlobal d.params = true) : .use u ∈ d.events sp := by
  have mentioned : Event.use u ∈ mentions d.params d.uses :=
    List.mem_map_of_mem (List.mem_filter.mpr ⟨used, free⟩)
  cases d with
  | var name => contradiction
  | text name value => contradiction
  | func name inlined params body => exact List.mem_cons_of_mem _ mentioned
  | init body => exact mentioned

/-- Every use in a declaration denotes something in the scope of the whole program. -/
theorem WellFormed.denotes (formed : w.WellFormed) {d : Declaration κ τ}
    (inside : d ∈ w.declarations) {u : Use} (used : u ∈ d.uses) :
    Denotes w.program.scope d.params u.role (u.symbol (mentioned w.events) d.params) := by
  obtain ⟨before, earlier, _, _, texts⟩ := formed.fits inside
  apply denotes_symbol formed.unique
  · intro free
    exact mem_mentioned.mpr ⟨.use u, mem_events inside (use_mem_events used free), rfl⟩
  -- A text is declared before it is used, so that it also is in the events of all declarations.
  · intro role
    obtain ⟨free, declared⟩ := texts u used role
    refine ⟨free, ?_⟩
    rw [events, textNames_all]
    exact (earlier.sublist.filterMap _).subset declared

theorem WellFormed.denoting (formed : w.WellFormed) {d : Declaration κ τ}
    (inside : d ∈ w.declarations) {body : List (Term κ)} (uses : d.uses = Term.usesAll body) :
    Denoting w.program.scope d.params (Term.nodes sp (mentioned w.events) d.params body) := by
  intro m named
  rw [Term.symbols_nodes, ← uses] at named
  obtain ⟨u, used, rfl⟩ := List.mem_map.mp named
  exact ⟨_, rfl, formed.denotes inside used⟩

theorem func_of_mem {f : Func} (inside : f ∈ w.program.funcs) :
    ∃ name inlined clause body, .func name inlined clause body ∈ w.declarations ∧
      (Declaration.func name inlined clause body : Declaration κ τ).func? sp (mentioned w.events) =
        some f := by
  obtain ⟨d, declared, found⟩ := List.mem_filterMap.mp inside
  cases d with
  | func name inlined clause body => exact ⟨name, inlined, clause, body, declared, found⟩
  | _ => contradiction

theorem init_mem : w.program.init = [] ∨
    ∃ body, .init body ∈ w.declarations ∧
      w.program.init = Term.nodes sp (mentioned w.events) [] body := by
  cases last : (w.declarations.filterMap
      (Declaration.init? sp (mentioned w.events))).getLast? with
  | none => exact .inl (by simp [program, last])
  | some nodes =>
    obtain ⟨d, declared, found⟩ := List.mem_filterMap.mp (List.mem_of_getLast? last)
    cases d with
    | init body =>
      obtain rfl := Option.some.inj found
      exact .inr ⟨body, declared, by simp [program, last]⟩
    | _ => contradiction

/-- An entity of the scope is what some event in a declaration says. -/
theorem source_of_mem {e : Entity} (inside : e ∈ w.program.scope.entities) :
    ∃ d ∈ w.declarations, ∃ event ∈ d.events sp, e = event.entity := by
  obtain ⟨name, known, rfl⟩ := List.mem_map.mp inside
  obtain ⟨event, source⟩ := Option.isSome_iff_exists.mp (source?_isSome.mpr known)
  obtain ⟨d, declared, happens⟩ := List.mem_flatMap.mp (mem_of_source? source)
  exact ⟨d, declared, event, happens, by simp [entityOf, source]⟩

theorem kind_use (u : Use) : (Event.use u).entity.kind = .var ∨
    (Event.use u).entity.kind = .func := by
  obtain ⟨name, _ | _ | _⟩ := u
  · exact .inl rfl
  · exact .inl rfl
  · exact .inr rfl

/-- No entity of the scope is a parameter, and one that is a text is declared with its value. -/
theorem kind_of_mem {e : Entity} (inside : e ∈ w.program.scope.entities) :
    e.kind ≠ .param ∧ (e.kind = .text → (e.name, e.value) ∈ w.texts) := by
  obtain ⟨d, declared, event, happens, rfl⟩ := source_of_mem inside
  have mention {params : List Bytes} {us : List Use} (used : event ∈ mentions params us) :
      event.entity.kind ≠ .param ∧ event.entity.kind ≠ .text := by
    obtain ⟨u, _, rfl⟩ := List.mem_map.mp used
    rcases kind_use u with kind | kind <;> simp [kind]
  cases d with
  | var name =>
    obtain rfl := List.mem_singleton.mp happens
    simp [Event.entity]
  | text name value =>
    obtain rfl := List.mem_singleton.mp happens
    refine ⟨by simp [Event.entity], fun _ => List.mem_filterMap.mpr ⟨_, declared, rfl⟩⟩
  | func name inlined clause body =>
    rcases List.mem_cons.mp happens with rfl | used
    · simp [Event.entity]
    · exact ⟨(mention used).1, fun isText => absurd isText (mention used).2⟩
  | init body => exact ⟨(mention happens).1, fun isText => absurd isText (mention happens).2⟩

/-- The string constants of the scope are those that are declared, with their values. -/
theorem WellFormed.text_mem_iff (formed : w.WellFormed) {name value : Bytes} :
    ⟨name, .text, value⟩ ∈ w.program.scope.entities ↔ (name, value) ∈ w.texts := by
  constructor
  · intro inside
    exact (kind_of_mem inside).2 rfl
  · intro declared
    obtain ⟨d, inside, picked⟩ := List.mem_filterMap.mp declared
    cases d with
    | text name value =>
      obtain ⟨rfl, rfl⟩ := Prod.mk.inj (Option.some.inj picked)
      have event : .declare name.text .text (sp.value value) ∈ w.events :=
        mem_events inside (List.mem_singleton_self _)
      rw [← entityOf_declared formed.unique event]
      exact List.mem_of_getElem? (entity_at (mem_mentioned.mpr ⟨_, event, rfl⟩))
    | _ => contradiction

theorem entity_names : w.program.scope.entities.map Entity.name = mentioned w.events := by
  simp [program, scopeOf, Function.comp_def, entityOf_name]

/-- Whatever is taken from declarations with their names has the names in the same order. -/
theorem names_sublist {β : Type} {pick : Declaration κ τ → Option β} {name : β → Bytes}
    (named : ∀ d b, pick d = some b → d.name? = some (name b)) :
    ((w.declarations.filterMap pick).map name).Sublist (declaredNames w.events) := by
  rw [events, declaredNames_all]
  induction w.declarations with
  | nil => exact .slnil
  | cons d ds ih =>
    cases picked : pick d with
    | none =>
      rw [List.filterMap_cons_none picked]
      cases isNamed : d.name? with
      | none => simpa [isNamed] using ih
      | some n => simpa [isNamed] using ih.cons n
    | some b => simpa [picked, named d b picked] using ih

/-- The names of a well formed program are resolved. -/
theorem WellFormed.resolved (formed : w.WellFormed) : Resolved w.texts w.program where
  entities := entity_names ▸ nodup_mentioned w.events
  functions := by
    apply formed.unique.sublist (names_sublist _)
    intro d f found
    cases d with
    | func name inlined clause body =>
      obtain rfl := Option.some.inj found
      rfl
    | _ => contradiction
  function := by
    intro f inside
    obtain ⟨name, inlined, clause, body, declared, found⟩ := func_of_mem inside
    obtain rfl := Option.some.inj found
    have event : .declare name.text .func [] ∈ w.events :=
      mem_events declared (List.mem_cons_self ..)
    refine ⟨_, rfl, ?_⟩
    rw [← entityOf_declared formed.unique event]
    exact entity_at (mem_mentioned.mpr ⟨_, event, rfl⟩)
  params := by
    intro f inside
    obtain ⟨name, inlined, clause, body, declared, found⟩ := func_of_mem inside
    obtain rfl := Option.some.inj found
    obtain ⟨_, _, _, distinct, _⟩ := formed.fits declared
    constructor
    · simpa [Func.paramEntities, Function.comp_def] using distinct
    · intro e param known
      obtain ⟨n, _, rfl⟩ := List.mem_map.mp param
      exact (kind_of_mem known).1 rfl
  bodies := by
    intro f inside
    obtain ⟨name, inlined, clause, body, declared, found⟩ := func_of_mem inside
    obtain rfl := Option.some.inj found
    exact formed.denoting declared rfl
  init := by
    rcases init_mem with none | ⟨body, declared, init⟩
    · rw [none]
      intro m named
      contradiction
    · rw [init]
      exact formed.denoting declared rfl
  value := fun e inside => (kind_of_mem inside).2
  distinct := by
    apply formed.unique.sublist (names_sublist _)
    intro d entry found
    cases d with
    | text name value =>
      obtain rfl := Option.some.inj found
      rfl
    | _ => contradiction

end Written

end Programs

section Readings

variable {text : Bytes} {p : Program}

/-- The names of an accepted program are resolved. -/
theorem resolved_of_ok (accepted : read text = .ok p) :
    (∃ w : Written .literal, tokens text = Sexp.tokensAll w.sexps) ∧
      ∀ w : Written .literal, tokens text = Sexp.tokensAll w.sexps → Resolved w.texts p := by
  refine ⟨written_of_ok accepted, fun w same => ?_⟩
  obtain ⟨formed, rfl⟩ := program_of_ok accepted same
  exact formed.resolved

/-- A parameter with the name of a function that is called, which is declared after the call. -/
def calledEarly : Written .literal :=
  let main : Name := ⟨ascii "main", by decide +kernel, by decide +kernel⟩
  let ring : Name := ⟨ascii "ring", by decide +kernel, by decide +kernel⟩
  let bell : Name := ⟨ascii "bell", by decide +kernel, by decide +kernel⟩
  let sixteen : Numeral := ⟨⟨ascii "0x10", by decide +kernel, by decide +kernel⟩, 16,
    by decide +kernel⟩
  let tone : QuotedText := ⟨ascii "\\a", [7], by decide +kernel, by decide +kernel⟩
  ⟨none, [.text bell tone,
    .func main true (some [ring]) [.ret (.call ring [.var ring, .text bell, .const sixteen])],
    .func ring false none [], .init [.assign (.var main) (.var bell)]]⟩

def calledEarlyText : Bytes :=
  ascii "(string bell \"\\a\") (func main inline (params ring)" ++
    ascii "(return (call ring (var ring) (str bell) 0x10)))" ++
    ascii "(func ring) (init (assign (var main) (var bell)))"

theorem tokens_calledEarly : tokens calledEarlyText = Sexp.tokensAll calledEarly.sexps := by
  decide +kernel

theorem read_calledEarly : read calledEarlyText = .ok calledEarly.program :=
  ok_of_written (by decide +kernel) (by decide +kernel) tokens_calledEarly

theorem resolved_calledEarly : ∃ p, read calledEarlyText = .ok p ∧
    Resolved [(ascii "bell", [7])] p :=
  ⟨_, read_calledEarly, (resolved_of_ok read_calledEarly).2 _ tokens_calledEarly⟩

/-- An accepted text is a sentence, and its functions are read as what they mean, with names that
denote something. Its string constants are read with their values. So are its statements to begin
with, as far as those of the last list go. -/
theorem sentence_of_ok (accepted : read text = .ok p) :
    (∃ w : Written .literal, tokens text = Sexp.tokensAll w.sexps) ∧
      ∀ w : Written .literal, tokens text = Sexp.tokensAll w.sexps →
        w.WellFormed ∧ p.funcs = w.functions ∧ p.scope = w.program.scope ∧
          (∀ name value, ⟨name, .text, value⟩ ∈ p.scope.entities ↔ (name, value) ∈ w.texts) ∧
          (∀ f ∈ p.funcs, Denoting p.scope f.params f.body) ∧ Denoting p.scope [] p.init ∧
          p.init = w.inits.getLast?.getD [] ∧
          (p.init = w.inits.flatten ↔ ∀ body ∈ w.inits.dropLast, body = []) := by
  refine ⟨written_of_ok accepted, fun w same => ?_⟩
  obtain ⟨formed, rfl⟩ := program_of_ok accepted same
  have resolved := formed.resolved
  exact ⟨formed, rfl, rfl, fun _ _ => formed.text_mem_iff, resolved.bodies, resolved.init, rfl,
    w.init_eq_flatten_iff⟩

theorem sentence_calledEarly : ∃ p, read calledEarlyText = .ok p ∧
    p.funcs = calledEarly.functions ∧ ⟨ascii "bell", .text, [7]⟩ ∈ p.scope.entities ∧
      p.init = calledEarly.inits.flatten := by
  obtain ⟨_, functions, _, texts, _, _, _, init⟩ :=
    (sentence_of_ok read_calledEarly).2 _ tokens_calledEarly
  have declared : (ascii "bell", [7]) ∈ calledEarly.texts := List.mem_singleton_self _
  have single : calledEarly.inits.dropLast = [] := rfl
  exact ⟨_, read_calledEarly, functions, (texts _ _).mpr declared,
    init.mpr (by simp [single])⟩

def beginningAgain : Written .literal :=
  ⟨none, [.init [.jump labelA], .init []]⟩

/-- The beginning that was there before is not part of what is read. -/
theorem init_beginningAgain :
    tokens (ascii "(init (jump A)) (init)") = Sexp.tokensAll beginningAgain.sexps ∧
      ∃ p, read (ascii "(init (jump A)) (init)") = .ok p ∧ p.init = [] ∧
        beginningAgain.inits.flatten = [.jump (ascii "A")] := by
  have same : tokens (ascii "(init (jump A)) (init)") = Sexp.tokensAll beginningAgain.sexps := by
    decide +kernel
  have accepted := ok_of_written (by decide +kernel) (by decide +kernel) same
  exact ⟨same, _, accepted, rfl, rfl⟩

end Readings

end Source

end Codegen
