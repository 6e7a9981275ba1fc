import Codegen.Proofs.Source.Written

/-! What a written program means. Its names are used and declared in a sequence of events, and the
scope at each point is what the events before it say, whatever order they came in. -/
namespace Codegen.Source

inductive Event
  | use (u : Use)
  | declare (name : Bytes) (kind : EntityKind) (value : Bytes)
  deriving DecidableEq, Repr

namespace Event

def name : Event → Bytes
  | use u => u.name
  | declare name _ _ => name

def declares : Event → Bool
  | use _ => false
  | declare _ _ _ => true

def entity : Event → Entity
  | use ⟨name, .callee⟩ => ⟨name, .func, []⟩
  | use ⟨name, _⟩ => ⟨name, .var, []⟩
  | declare name kind value => ⟨name, kind, value⟩

@[simp] theorem name_use (u : Use) : (use u).name = u.name := rfl

@[simp] theorem name_declare (n : Bytes) (kind : EntityKind) (value : Bytes) :
    (declare n kind value).name = n := rfl

@[simp] theorem declares_use (u : Use) : (use u).declares = false := rfl

@[simp] theorem declares_declare (n : Bytes) (kind : EntityKind) (value : Bytes) :
    (declare n kind value).declares = true := rfl

end Event

def mentioned (evs : List Event) : List Bytes := (evs.map Event.name).eraseDups

def declaredNames (evs : List Event) : List Bytes := (evs.filter Event.declares).map Event.name

/-- The event that says what a name is: its declaration or else its first mention. -/
def source? (evs : List Event) (name : Bytes) : Option Event :=
  (evs.find? fun e => e.declares && e.name == name).or (evs.find? (·.name == name))

def entityOf (evs : List Event) (name : Bytes) : Entity :=
  ((source? evs name).map Event.entity).getD ⟨name, .var, []⟩

def scopeOf (evs : List Event) : Scope := ⟨(mentioned evs).map (entityOf evs)⟩

/-- A called name is always one of the scope, and any other one may be a parameter. -/
def Use.symbol (order params : List Bytes) (u : Use) : Symbol :=
  match u.role, params.idxOf? u.name with
  | .callee, _ => ⟨.global (order.idxOf u.name), u.name⟩
  | _, some i => ⟨.param i, u.name⟩
  | _, none => ⟨.global (order.idxOf u.name), u.name⟩

def Use.isGlobal (params : List Bytes) (u : Use) : Bool :=
  u.role == .callee || !params.contains u.name

def mentions (params : List Bytes) (us : List Use) : List Event :=
  (us.filter (Use.isGlobal params)).map .use

variable {κ τ : Type} (sp : Spelling κ τ)

namespace Term

variable (order params : List Bytes)

mutual

def node : Term κ → Node
  | const k => .const (sp.number k)
  | var name => .var (Use.symbol order params ⟨name.text, .place⟩)
  | addr name => .addr (Use.symbol order params ⟨name.text, .place⟩)
  | text name => .text (Use.symbol order params ⟨name.text, .text⟩)
  | mem x => .mem x.node
  | unary op x => .unary op.1 x.node
  | binary op l r => .binary op.1 l.node r.node
  | call callee args => .call (Use.symbol order params ⟨callee.text, .callee⟩) (nodes args)
  | assign l r => .assign l.node r.node
  | label name => .label name.text
  | jump target => .jump target.text
  | branch x ifTrue ifFalse => .branch x.node ifTrue.text ifFalse.text
  | leave => .ret .missing
  | ret x => .ret x.node

def nodes : List (Term κ) → List Node
  | [] => []
  | x :: rest => x.node :: nodes rest

end

end Term

namespace Declaration

def name? : Declaration κ τ → Option Bytes
  | var name | text name _ | func name _ _ _ => some name.text
  | init _ => none

def textName? : Declaration κ τ → Option Bytes
  | text name _ => some name.text
  | _ => none

def params : Declaration κ τ → List Bytes
  | func _ _ (some names) _ => names.map Name.text
  | _ => []

def uses : Declaration κ τ → List Use
  | func _ _ _ body | init body => Term.usesAll body
  | _ => []

def events (d : Declaration κ τ) : List Event :=
  match d with
  | var name => [.declare name.text .var []]
  | text name value => [.declare name.text .text (sp.value value)]
  | func name _ _ _ => .declare name.text .func [] :: mentions d.params d.uses
  | init _ => mentions [] d.uses

def func? (order : List Bytes) (d : Declaration κ τ) : Option Func :=
  match d with
  | func name inlined _ body => some {
      name := name.text
      symbol := some ⟨.global (order.idxOf name.text), name.text⟩
      params := d.params
      inlined
      body := Term.nodes sp order d.params body }
  | _ => none

def init? (order : List Bytes) : Declaration κ τ → Option (List Node)
  | init body => some (Term.nodes sp order [] body)
  | _ => none

/-- A declaration that can follow others: its name is new, its parameters are all different, and
the texts that it uses are declared and not hidden by a parameter. -/
def Fits (before : List (Declaration κ τ)) (d : Declaration κ τ) : Prop :=
  (∀ name ∈ d.name?, name ∉ before.filterMap name?) ∧ d.params.Nodup ∧
    ∀ u ∈ d.uses, u.role = .text → u.name ∉ d.params ∧ u.name ∈ before.filterMap textName?

instance (before : List (Declaration κ τ)) (d : Declaration κ τ) : Decidable (d.Fits before) :=
  inferInstanceAs (Decidable (_ ∧ _ ∧ _))

end Declaration

namespace Written

variable {sp} (w : Written sp)

def events : List Event := w.declarations.flatMap (Declaration.events sp)

def WellFormed : Prop :=
  ∀ i : Fin w.declarations.length, (w.declarations.get i).Fits (w.declarations.take i)

instance : Decidable w.WellFormed := inferInstanceAs (Decidable (∀ _, _))

/-- The program that is meant. Of several lists of statements to begin with, the last one counts. -/
def program : Program where
  funcs := w.declarations.filterMap (Declaration.func? sp (mentioned w.events))
  scope := scopeOf w.events
  init := (w.declarations.filterMap (Declaration.init? sp (mentioned w.events))).getLast?.getD []

end Written

section Scopes

variable {evs : List Event} {name : Bytes}

theorem mem_mentioned : name ∈ mentioned evs ↔ ∃ e ∈ evs, e.name = name := by
  rw [mentioned, List.mem_eraseDups, List.mem_map]

theorem mentioned_concat (evs : List Event) (e : Event) : mentioned (evs ++ [e]) =
    if e.name ∈ mentioned evs then mentioned evs else mentioned evs ++ [e.name] := by
  simp only [mentioned, List.map_append, List.eraseDups_append, List.mem_eraseDups, List.map_cons,
    List.map_nil]
  generalize evs.map Event.name = names
  split
  next known => simp [List.removeAll, known]
  next fresh => simp [List.removeAll, fresh, List.eraseDups_cons]

theorem mentioned_declare (evs : List Event) (name : Bytes) (kind : EntityKind) (value : Bytes) :
    mentioned (evs ++ [.declare name kind value]) = mentioned (evs ++ [.declare name kind []]) := by
  rw [mentioned_concat, mentioned_concat, Event.name_declare, Event.name_declare]

theorem nodup_mentioned (evs : List Event) : (mentioned evs).Nodup := by
  induction evs using List.reverseRecOn with
  | nil => exact List.nodup_nil
  | append_singleton evs e ih =>
    rw [mentioned_concat]
    split
    next => exact ih
    next fresh =>
      rw [← List.concat_eq_append]
      exact ih.concat fresh

theorem mentioned_extends (evs more : List Event) : mentioned evs <+: mentioned (evs ++ more) := by
  simp only [mentioned, List.map_append, List.eraseDups_append]
  exact List.prefix_append _ _

theorem entity_name (e : Event) : e.entity.name = e.name := by
  rcases e with ⟨name, _ | _ | _⟩ | _ <;> rfl

theorem name_of_source? {e : Event} (found : source? evs name = some e) : e.name = name := by
  rcases Option.or_eq_some_iff.mp found with declared | ⟨_, first⟩
  · have := List.find?_some declared
    simp only [Bool.and_eq_true, beq_iff_eq] at this
    exact this.2
  · simpa using List.find?_some first

theorem entityOf_name (evs : List Event) (name : Bytes) : (entityOf evs name).name = name := by
  rw [entityOf]
  cases found : source? evs name with
  | none => rfl
  | some e => exact (entity_name e).trans (name_of_source? found)

/-- What a name is does not depend on events of other names. -/
theorem source?_other {e : Event} (other : name ≠ e.name) :
    source? (evs ++ [e]) name = source? evs name := by
  simp [source?, other.symm]

theorem source?_use (evs : List Event) (u : Use) :
    source? (evs ++ [.use u]) u.name = (source? evs u.name).or (some (.use u)) := by
  simp [source?]

theorem source?_declare {kind : EntityKind} {value : Bytes} (fresh : name ∉ declaredNames evs) :
    source? (evs ++ [.declare name kind value]) name = some (.declare name kind value) := by
  have absent : evs.find? (fun e => e.declares && e.name == name) = none := by
    rw [List.find?_eq_none]
    intro e inside found
    simp only [Bool.and_eq_true, beq_iff_eq] at found
    exact fresh (List.mem_map.mpr ⟨e, List.mem_filter.mpr ⟨inside, found.1⟩, found.2⟩)
  rw [source?, List.find?_append, absent]
  simp

theorem source?_isSome : (source? evs name).isSome = true ↔ name ∈ mentioned evs := by
  rw [mem_mentioned, source?, Option.isSome_or, Bool.or_eq_true, List.find?_isSome,
    List.find?_isSome]
  simp only [Bool.and_eq_true, beq_iff_eq]
  constructor
  · rintro (⟨e, inside, _, same⟩ | ⟨e, inside, same⟩)
    · exact ⟨e, inside, same⟩
    · exact ⟨e, inside, same⟩
  · exact .inr

/-- Where a name stands in a scope. -/
theorem lookup?_scopeOf (evs : List Event) (name : Bytes) : (scopeOf evs).lookup? name =
    if name ∈ mentioned evs then some ((mentioned evs).idxOf name, entityOf evs name) else none := by
  have same : ((fun e : Entity => e.name == name) ∘ entityOf evs) = (· == name) := by
    funext n
    simp [entityOf_name]
  rw [Scope.lookup?, scopeOf, List.findIdx?_map, same]
  split
  next known =>
    have below := List.idxOf_lt_length_of_mem known
    have at' : (mentioned evs).findIdx? (· == name) = some ((mentioned evs).idxOf name) :=
      List.findIdx?_eq_some_iff_findIdx_eq.mpr ⟨below, rfl⟩
    simp [at', below]
  next fresh =>
    have absent : (mentioned evs).findIdx? (· == name) = none := by
      rw [List.findIdx?_eq_none_iff]
      intro n inside
      rw [beq_eq_false_iff_ne]
      rintro rfl
      exact fresh inside
    rw [absent]
    rfl

theorem entityOf_other {e : Event} (other : name ≠ e.name) :
    entityOf (evs ++ [e]) name = entityOf evs name := by
  rw [entityOf, source?_other other, entityOf]

/-- A use says nothing new about a name that is known. -/
theorem entityOf_use {u : Use} (known : u.name ∈ mentioned evs) (name : Bytes) :
    entityOf (evs ++ [.use u]) name = entityOf evs name := by
  by_cases same : name = u.name
  · subst same
    obtain ⟨e, found⟩ := Option.isSome_iff_exists.mp (source?_isSome.mpr known)
    rw [entityOf, source?_use, entityOf, found]
    rfl
  · exact entityOf_other same

theorem entityOf_fresh {e : Event} (fresh : e.name ∉ mentioned evs) :
    entityOf (evs ++ [e]) e.name = e.entity := by
  have absent (n : Event) (inside : n ∈ evs) : n.name ≠ e.name :=
    fun same => fresh (mem_mentioned.mpr ⟨n, inside, same⟩)
  have undeclared : evs.find? (fun n => n.declares && n.name == e.name) = none := by
    rw [List.find?_eq_none]
    intro n inside
    simp [absent n inside]
  have unused : evs.find? (·.name == e.name) = none := by
    rw [List.find?_eq_none]
    intro n inside
    simp [absent n inside]
  rw [entityOf, source?, List.find?_append, List.find?_append, undeclared, unused]
  cases e <;> simp

/-- The first event of a name adds its entity. -/
theorem scopeOf_fresh {e : Event} (fresh : e.name ∉ mentioned evs) :
    scopeOf (evs ++ [e]) = (scopeOf evs).add e.entity := by
  rw [scopeOf, mentioned_concat, if_neg fresh, Scope.add, scopeOf, List.map_append,
    List.map_singleton, entityOf_fresh fresh]
  congr 2
  apply List.map_congr_left
  intro name inside
  apply entityOf_other
  rintro rfl
  exact fresh inside

theorem entityOf_declare {kind : EntityKind} {value : Bytes} (fresh : name ∉ declaredNames evs) :
    entityOf (evs ++ [.declare name kind value]) name = ⟨name, kind, value⟩ := by
  rw [entityOf, source?_declare fresh]
  rfl

/-- Only declarations give values. -/
theorem entityOf_undeclared (fresh : name ∉ declaredNames evs) :
    (entityOf evs name).value = [] ∧ (entityOf evs name).kind ≠ .text := by
  rw [entityOf]
  cases found : source? evs name with
  | none => simp
  | some e =>
    cases e with
    | use u => obtain ⟨name, _ | _ | _⟩ := u <;> simp [Event.entity]
    | declare n kind value =>
      have same : n = name := name_of_source? found
      have inside : Event.declare n kind value ∈ evs := by
        rcases Option.or_eq_some_iff.mp found with declared | ⟨_, first⟩
        · exact List.mem_of_find?_eq_some declared
        · exact List.mem_of_find?_eq_some first
      exact absurd (List.mem_map.mpr ⟨_, List.mem_filter.mpr ⟨inside, rfl⟩, same⟩) fresh

theorem resolve_known (known : name ∈ mentioned evs) (kind : EntityKind) :
    (scopeOf evs).resolve name kind = ((mentioned evs).idxOf name, scopeOf evs) := by
  rw [Scope.resolve, lookup?_scopeOf, if_pos known]

theorem resolve_fresh (fresh : name ∉ mentioned evs) (kind : EntityKind) :
    (scopeOf evs).resolve name kind =
      ((mentioned evs).length, (scopeOf evs).add ⟨name, kind, []⟩) := by
  rw [Scope.resolve, lookup?_scopeOf, if_neg fresh]
  simp [scopeOf]

theorem idxOf_fresh {e : Event} (fresh : e.name ∉ mentioned evs) :
    (mentioned (evs ++ [e])).idxOf e.name = (mentioned evs).length := by
  rw [mentioned_concat, if_neg fresh]
  simp [List.idxOf_append, fresh]

theorem idxOf_known {e : Event} (known : e.name ∈ mentioned evs) :
    (mentioned (evs ++ [e])).idxOf e.name = (mentioned evs).idxOf e.name := by
  rw [mentioned_concat, if_pos known]

/-- Resolving a name in a scope is using it once more. -/
theorem resolve_use (evs : List Event) (u : Use) :
    (scopeOf evs).resolve u.name (Event.use u).entity.kind =
      ((mentioned (evs ++ [.use u])).idxOf u.name, scopeOf (evs ++ [.use u])) := by
  by_cases known : u.name ∈ mentioned evs
  · have same : scopeOf (evs ++ [.use u]) = scopeOf evs := by
      rw [scopeOf, mentioned_concat, Event.name_use, if_pos known, scopeOf]
      congr 1
      exact List.map_congr_left fun name _ => entityOf_use known name
    have position := idxOf_known (e := .use u) known
    rw [Event.name_use] at position
    rw [resolve_known known, same, position]
  · have plain : (⟨u.name, (Event.use u).entity.kind, []⟩ : Entity) = (Event.use u).entity := by
      obtain ⟨name, _ | _ | _⟩ := u <;> rfl
    have position := idxOf_fresh (e := .use u) known
    rw [resolve_fresh known, plain, scopeOf_fresh (e := .use u) known, ← position, Event.name_use]

/-- Changing one entity of a scope. -/
theorem modify_scopeOf {more : List Event} (same : mentioned more = mentioned evs)
    (others : ∀ n ≠ name, entityOf more n = entityOf evs n) {f : Entity → Entity}
    (changed : f (entityOf evs name) = entityOf more name) :
    (scopeOf evs).modify ((mentioned evs).idxOf name) f = scopeOf more := by
  rw [scopeOf, Scope.modify, scopeOf, same]
  congr 1
  apply List.ext_getElem?
  intro i
  rw [List.getElem?_modify, List.getElem?_map, List.getElem?_map]
  cases at' : (mentioned evs)[i]? with
  | none => rfl
  | some n =>
    obtain ⟨below, rfl⟩ := List.getElem?_eq_some_iff.mp at'
    -- A name stands at one position only, so `f` changes no other entity.
    by_cases here : (mentioned evs)[i] = name
    · have index : (mentioned evs).idxOf name = i := by
        rw [← here]
        exact (nodup_mentioned evs).idxOf_getElem i below
      simp [index, here, changed]
    · have apart : (mentioned evs).idxOf name ≠ i := by
        rintro rfl
        exact here (List.getElem_idxOf below)
      simp [apart, others _ here]

/-- Declaring a name makes its entity one of the given kind, even if it has been used before. -/
theorem resolve_declare (fresh : name ∉ declaredNames evs) (kind : EntityKind) :
    ((scopeOf evs).resolve name kind).1 =
        (mentioned (evs ++ [.declare name kind []])).idxOf name ∧
      ((scopeOf evs).resolve name kind).2.modify ((scopeOf evs).resolve name kind).1
        ({ · with kind }) = scopeOf (evs ++ [.declare name kind []]) := by
  by_cases known : name ∈ mentioned evs
  -- A name that was used before keeps its position, and only its kind changes.
  · rw [resolve_known known]
    refine ⟨(idxOf_known (e := .declare name kind []) known).symm, modify_scopeOf ?_ ?_ ?_⟩
    · rw [mentioned_concat, Event.name_declare, if_pos known]
    · intro n other
      exact entityOf_other other
    · rw [entityOf_declare fresh, entityOf_name, (entityOf_undeclared fresh).1]
  · have added : scopeOf (evs ++ [.declare name kind []]) = (scopeOf evs).add ⟨name, kind, []⟩ :=
      scopeOf_fresh (e := .declare name kind []) known
    have position : (mentioned (evs ++ [.declare name kind []])).idxOf name =
        (mentioned evs).length := idxOf_fresh (e := .declare name kind []) known
    rw [resolve_fresh known, ← added, ← position]
    refine ⟨rfl, modify_scopeOf rfl (fun _ _ => rfl) ?_⟩
    rw [entityOf_declare fresh]

/-- A value is given to the name that was declared last. -/
theorem modify_declared (fresh : name ∉ declaredNames evs) (kind : EntityKind) (value : Bytes) :
    (scopeOf (evs ++ [.declare name kind []])).modify
        ((mentioned (evs ++ [.declare name kind []])).idxOf name) ({ · with value }) =
      scopeOf (evs ++ [.declare name kind value]) := by
  apply modify_scopeOf
  · exact mentioned_declare evs name kind value
  · intro n other
    rw [entityOf_other other, entityOf_other other]
  · rw [entityOf_declare fresh, entityOf_declare fresh]

def textNames (evs : List Event) : List Bytes :=
  (evs.filter fun e => e.declares && e.entity.kind == .text).map Event.name

theorem source?_declared (declared : name ∈ declaredNames evs) :
    ∃ d ∈ evs, d.declares = true ∧ d.name = name ∧ source? evs name = some d := by
  obtain ⟨e, inside, same⟩ := List.mem_map.mp declared
  rw [List.mem_filter] at inside
  have present : (evs.find? fun e => e.declares && e.name == name).isSome = true := by
    rw [List.find?_isSome]
    exact ⟨e, inside.1, by simp [inside.2, same]⟩
  obtain ⟨d, found⟩ := Option.isSome_iff_exists.mp present
  have holds := List.find?_some found
  simp only [Bool.and_eq_true, beq_iff_eq] at holds
  exact ⟨d, List.mem_of_find?_eq_some found, holds.1, holds.2, by simp [source?, found]⟩

theorem mem_textNames : name ∈ textNames evs ↔
    ∃ e ∈ evs, e.declares = true ∧ e.entity.kind = .text ∧ e.name = name := by
  simp only [textNames, List.mem_map, List.mem_filter, Bool.and_eq_true, beq_iff_eq, and_assoc]

/-- Where no name is declared twice, the entities that are texts are those declared as texts. -/
theorem kind_eq_text_iff (unique : (declaredNames evs).Nodup) :
    (entityOf evs name).kind = .text ↔ name ∈ textNames evs := by
  rw [mem_textNames]
  by_cases declared : name ∈ declaredNames evs
  -- The declaration that was found is the only one, so it is the one that makes a text.
  · obtain ⟨d, inside, declares, same, source⟩ := source?_declared declared
    have kind : (entityOf evs name).kind = d.entity.kind := by
      rw [entityOf, source]
      rfl
    rw [kind]
    constructor
    · intro isText
      exact ⟨d, inside, declares, isText, same⟩
    · rintro ⟨e, inside', declares', isText, same'⟩
      have only : e = d := List.inj_on_of_nodup_map unique
        (List.mem_filter.mpr ⟨inside', declares'⟩) (List.mem_filter.mpr ⟨inside, declares⟩)
        (same'.trans same.symm)
      rwa [← only]
  · constructor
    · intro isText
      exact absurd isText (entityOf_undeclared declared).2
    · rintro ⟨e, inside, declares, _, same⟩
      exact absurd (List.mem_map.mpr ⟨e, List.mem_filter.mpr ⟨inside, declares⟩, same⟩) declared

end Scopes

end Codegen.Source
