import Codegen.Proofs.Flow.Relabel
import Codegen.Proofs.Select.Labels

/-! Functions are lowered one by one. All that one leaves to the next is the number of labels that
have been made up, and this shows in nothing but the numbers in the labels of the next. -/
namespace Codegen

open Run

namespace Flow

/-- A label that looks like one that is made up. -/
def isAdded (label : Bytes) : Bool :=
  (ascii "cfg_added_").isPrefixOf label

def madeUpNumber? (label : Bytes) : Option Nat :=
  (IntLiteral.magnitude (label.drop (ascii "cfg_added_").length)).filter (madeUpLabel · == label)

/-- The label with a number higher by `k`, if it is made up. -/
def shifted (k : Nat) (label : Bytes) : Bytes :=
  match madeUpNumber? label with
  | some n => madeUpLabel (n + k)
  | none => label

section Shift

variable {label : Bytes} {k n : Nat}

theorem isAdded_madeUpLabel (n : Nat) : isAdded (madeUpLabel n) = true :=
  List.isPrefixOf_iff_prefix.mpr (List.prefix_append ..)

theorem madeUpNumber?_eq_some : madeUpNumber? label = some n ↔ label = madeUpLabel n := by
  rw [madeUpNumber?, Option.filter_eq_some_iff]
  constructor
  · rintro ⟨_, same⟩
    exact (eq_of_beq same).symm
  · rintro rfl
    refine ⟨?_, beq_self_eq_true _⟩
    rw [madeUpLabel, List.drop_left, IntLiteral.magnitude_decimal]

@[simp] theorem shifted_madeUpLabel (k n : Nat) :
    shifted k (madeUpLabel n) = madeUpLabel (n + k) := by
  rw [shifted, madeUpNumber?_eq_some.mpr rfl]

theorem shifted_eq_self (other : ∀ n, label ≠ madeUpLabel n) : shifted k label = label := by
  have none : madeUpNumber? label = none :=
    Option.eq_none_iff_forall_ne_some.mpr fun n found => other n (madeUpNumber?_eq_some.mp found)
  rw [shifted, none]

theorem shifted_of_not_isAdded (reserved : isAdded label = false) : shifted k label = label := by
  apply shifted_eq_self
  rintro n rfl
  rw [isAdded_madeUpLabel] at reserved
  contradiction

theorem shifted_injective (k : Nat) : Function.Injective (shifted k) := by
  intro a b same
  by_cases first : ∃ n, a = madeUpLabel n
  · obtain ⟨n, rfl⟩ := first
    by_cases second : ∃ m, b = madeUpLabel m
    · obtain ⟨m, rfl⟩ := second
      rw [shifted_madeUpLabel, shifted_madeUpLabel] at same
      rw [Nat.add_right_cancel (madeUpLabel_injective same)]
    · rw [shifted_madeUpLabel, shifted_eq_self fun m is => second ⟨m, is⟩] at same
      exact absurd ⟨_, same.symm⟩ second
  · by_cases second : ∃ m, b = madeUpLabel m
    · obtain ⟨m, rfl⟩ := second
      rw [shifted_madeUpLabel, shifted_eq_self fun n is => first ⟨n, is⟩] at same
      exact absurd ⟨_, same⟩ first
    · rwa [shifted_eq_self fun n is => first ⟨n, is⟩,
        shifted_eq_self fun m is => second ⟨m, is⟩] at same

end Shift

end Flow

def Routine.madeUpLabels (r : Routine) : List Bytes :=
  (defined r.lines).filter Flow.isAdded

namespace Instr

variable {x : Instr}

theorem relabel_eq_self {f : Bytes → Bytes} (same : ∀ name ∈ x.names, f name = name) :
    x.relabel f = x := by
  cases x <;> simp_all [relabel, names]

theorem mem_names_of_label {name : Bytes} (label : x.labelName? = some name) : name ∈ x.names := by
  cases x <;> simp_all [labelName?, control, names]

theorem targets_subset_names : x.targets ⊆ x.names := by
  cases x <;> simp [targets, names]

end Instr

namespace Flow

/-- A routine before it is arranged, none of whose labels looks made up. -/
structure Plain (r : Routine) : Prop where
  contained : r.SelfContained
  uncut : r.blocks = []
  endLabel : ∀ n, r.endLabel ≠ madeUpLabel n
  names : ∀ e ∈ r.entries, ∀ name ∈ e.instr.names, isAdded name = false

namespace Plain

variable {r r' : Routine} {k m n : Nat}

theorem relabel_shifted (plain : Plain r) (k : Nat) : r.relabel (shifted k) = r := by
  have entries : r.entries.map (Entry.relabel (shifted k)) = r.entries := by
    apply Array.ext_getElem?
    intro i
    rw [Array.getElem?_map]
    cases found : r.entries[i]? with
    | none => rfl
    | some e =>
      have same : e.instr.relabel (shifted k) = e.instr := Instr.relabel_eq_self fun name inside =>
        shifted_of_not_isAdded (plain.names e (Array.mem_of_getElem? found) name inside)
      rw [Option.map_some, Entry.relabel, same]
  have blocks : r.blocks.map (Block.relabel (shifted k)) = r.blocks := by
    rw [plain.uncut, List.map_nil]
  rw [Routine.relabel, shifted_eq_self plain.endLabel, entries, blocks]

theorem line_names (plain : Plain r) {line : Line} (member : line ∈ r.lines) :
    ∀ name ∈ line.instr.names, isAdded name = false := by
  obtain ⟨i, _, found⟩ := List.mem_filterMap.mp member
  obtain ⟨x, instr, rfl⟩ := Option.map_eq_some_iff.mp found
  obtain ⟨e, entry, rfl⟩ := Option.map_eq_some_iff.mp instr
  exact plain.names e (Array.mem_of_getElem? entry)

theorem defined_names (plain : Plain r) : ∀ name ∈ defined r.lines, isAdded name = false := by
  intro name member
  obtain ⟨line, inside, label⟩ := List.mem_filterMap.mp member
  exact plain.line_names inside name (Instr.mem_names_of_label label)

theorem target_names (plain : Plain r) {line : Line} (member : line ∈ r.lines) :
    ∀ name ∈ line.instr.targets, isAdded name = false :=
  fun name goes => plain.line_names member name (Instr.targets_subset_names goes)

/-- No label is made up that the code has or goes to, whatever the count. -/
theorem apart (plain : Plain r) (n : Nat) : ∀ name ∈ madeUp n r.lines,
    name ∉ defined r.lines ∧ ∀ line ∈ r.lines, name ∉ line.instr.targets := by
  intro name member
  obtain ⟨i, _, rfl⟩ := List.mem_map.mp member
  have added := isAdded_madeUpLabel i
  refine ⟨fun listed => ?_, fun line inside goes => ?_⟩
  · rw [plain.defined_names _ listed] at added
    contradiction
  · rw [plain.target_names inside _ goes] at added
    contradiction

/-- Whether code can be arranged does not depend on the count. -/
theorem arrange_iff (plain : Plain r) (n : Nat) :
    (∃ t, run arrange ⟨n, r⟩ = (.ok (), t)) ↔ ¬ Misnamed r.endLabel (defined r.lines) r.lines := by
  rw [← misnamed_append (nodup_madeUp n r.lines) (plain.apart n)]
  have forms := formBlocks_ok_iff (s := ⟨n, r⟩) plain.contained
  refine Iff.trans ?_ forms
  constructor
  · rintro ⟨t, arranged⟩
    obtain ⟨formed, _, _, made, _⟩ := arrange_ok arranged
    exact ⟨formed, made⟩
  · rintro ⟨t, made⟩
    rcases formBlocks_outcome (s := ⟨n, r⟩) plain.contained with
      ⟨t', made', inside⟩ | ⟨_, _, fails, _⟩
    · obtain ⟨u, arranged, _⟩ := arrange_of_formed made' inside
      exact ⟨u, arranged⟩
    · rw [made] at fails
      cases fails

/-- A higher count shows in the numbers of made up labels. -/
theorem arrange_shifted (plain : Plain r) (arranged : run arrange ⟨0, r⟩ = (.ok (), ⟨m, r'⟩))
    (n : Nat) : run arrange ⟨n, r⟩ = (.ok (), ⟨m + n, r'.relabel (shifted n)⟩) := by
  have shifts (i : Nat) : shifted n (madeUpLabel i) = madeUpLabel (i + n) :=
    shifted_madeUpLabel n i
  have relabelled := arrange_relabel (shifted_injective n) shifts arranged
  simpa [State.relabel, plain.relabel_shifted] using relabelled

theorem own_labels (plain : Plain r) : r.madeUpLabels = [] :=
  List.filter_eq_nil_iff.mpr fun name member => by simp [plain.defined_names name member]

/-- The labels that look made up are those that were, with the numbers from the count on. -/
theorem madeUpLabels_perm (plain : Plain r) (arranged : run arrange ⟨n, r⟩ = (.ok (), ⟨m, r'⟩)) :
    ∃ k, m = n + k ∧ r'.madeUpLabels.Perm ((List.range' n k).map madeUpLabel) := by
  obtain ⟨count, perm⟩ := arrange_labels (s := ⟨n, r⟩) plain.contained arranged
  refine ⟨_, count, ?_⟩
  have own : (defined r.lines).filter isAdded = [] := plain.own_labels
  have added : (madeUp n r.lines).filter isAdded = madeUp n r.lines := by
    refine List.filter_eq_self.mpr fun name member => ?_
    obtain ⟨i, _, rfl⟩ := List.mem_map.mp member
    exact isAdded_madeUpLabel i
  have filtered := perm.filter isAdded
  rw [List.filter_append, own, added] at filtered
  exact filtered

end Plain

/-! ### Routines one by one -/

/-- Arranging a routine alone, when `n` labels have been made up, gives `r'` and the count `m`. -/
def Arranges (n : Nat) (r : Routine) (m : Nat) (r' : Routine) : Prop :=
  arrangeAll n [r] = (.ok (), m, [r'])

variable {r r' : Routine} {rs out : List Routine} {k m n : Nat}

theorem arranges_iff : Arranges n r m r' ↔ (r.inlined = true ∧ m = n ∧ r' = r) ∨
    (r.inlined = false ∧ run arrange ⟨n, r⟩ = (.ok (), ⟨m, r'⟩)) := by
  unfold Arranges arrangeAll
  cases r.inlined with
  | true => simp [arrangeAll, eq_comm]
  | false =>
    rcases run arrange ⟨n, r⟩ with ⟨failure | ⟨⟩, t⟩
    · simp
    · obtain ⟨labels, routine⟩ := t
      simp [arrangeAll]

theorem arrangeAll_cons_ok : arrangeAll n (r :: rs) = (.ok (), k, out) ↔
    ∃ m r' rest, Arranges n r m r' ∧ arrangeAll m rs = (.ok (), k, rest) ∧ out = r' :: rest := by
  simp only [arranges_iff]
  rw [arrangeAll]
  cases r.inlined with
  | true =>
    constructor
    · intro done
      obtain ⟨result, others⟩ := Prod.mk.inj done
      obtain ⟨count, same⟩ := Prod.mk.inj others
      exact ⟨n, r, _, .inl ⟨rfl, rfl, rfl⟩, Prod.ext result (Prod.ext count rfl), same.symm⟩
    · rintro ⟨m, r', rest, ⟨_, rfl, rfl⟩ | ⟨⟨⟩, _⟩, others, rfl⟩
      simp [others]
  | false =>
    constructor
    · intro done
      rcases first : run arrange ⟨n, r⟩ with ⟨failure | ⟨⟩, t⟩
      · simp [first] at done
      · simp only [first] at done
        obtain ⟨result, others⟩ := Prod.mk.inj done
        obtain ⟨count, same⟩ := Prod.mk.inj others
        exact ⟨t.labels, t.routine, _, .inr ⟨rfl, rfl⟩, Prod.ext result (Prod.ext count rfl),
          same.symm⟩
    · rintro ⟨m, r', rest, ⟨⟨⟩, _⟩ | ⟨_, first⟩, others, rfl⟩
      simp [first, others]

namespace Plain

/-- A routine can be arranged after others exactly if it can be arranged alone. -/
theorem arranges_zero (plain : Plain r) (arranges : Arranges n r m r') :
    ∃ m r', Arranges 0 r m r' := by
  rcases arranges_iff.mp arranges with ⟨inlined, _, _⟩ | ⟨selected, arranged⟩
  · exact ⟨0, r, arranges_iff.mpr (.inl ⟨inlined, rfl, rfl⟩)⟩
  · obtain ⟨t, alone⟩ := (plain.arrange_iff 0).mpr ((plain.arrange_iff n).mp ⟨_, arranged⟩)
    exact ⟨t.labels, t.routine, arranges_iff.mpr (.inr ⟨selected, alone⟩)⟩

theorem arranges_shifted (plain : Plain r) (arranges : Arranges 0 r m r') (n : Nat) :
    Arranges n r (m + n) (r'.relabel (shifted n)) := by
  rcases arranges_iff.mp arranges with ⟨inlined, rfl, rfl⟩ | ⟨selected, arranged⟩
  · rw [plain.relabel_shifted, Nat.zero_add]
    exact arranges_iff.mpr (.inl ⟨inlined, rfl, rfl⟩)
  · exact arranges_iff.mpr (.inr ⟨selected, plain.arrange_shifted arranged n⟩)

theorem arranges_labels (plain : Plain r) (arranges : Arranges n r m r') :
    ∃ k, m = n + k ∧ r'.madeUpLabels.Perm ((List.range' n k).map madeUpLabel) := by
  rcases arranges_iff.mp arranges with ⟨_, rfl, rfl⟩ | ⟨_, arranged⟩
  · exact ⟨0, rfl, .of_eq plain.own_labels⟩
  · exact plain.madeUpLabels_perm arranged

end Plain

theorem arrangeAll_iff (plain : ∀ r ∈ rs, Plain r) (n : Nat) :
    (∃ m out, arrangeAll n rs = (.ok (), m, out)) ↔ ∀ r ∈ rs, ∃ m r', Arranges 0 r m r' := by
  induction rs generalizing n with
  | nil => simp [arrangeAll]
  | cons r rs ih =>
    obtain ⟨first, others⟩ := List.forall_mem_cons.mp plain
    rw [List.forall_mem_cons]
    constructor
    · rintro ⟨k, out, done⟩
      obtain ⟨m, r', rest, arranges, later, _⟩ := arrangeAll_cons_ok.mp done
      exact ⟨first.arranges_zero arranges, (ih others m).mp ⟨k, rest, later⟩⟩
    · rintro ⟨⟨m, r', arranges⟩, later⟩
      obtain ⟨k, rest, done⟩ := (ih others (m + n)).mpr later
      exact ⟨k, _, arrangeAll_cons_ok.mpr
        ⟨m + n, _, rest, first.arranges_shifted arranges n, done, rfl⟩⟩

/-- The labels made up for routines one after the other have the numbers from the count on. -/
theorem arrangeAll_labels (plain : ∀ r ∈ rs, Plain r) (done : arrangeAll n rs = (.ok (), m, out)) :
    ∃ k, m = n + k ∧
      (out.flatMap Routine.madeUpLabels).Perm ((List.range' n k).map madeUpLabel) := by
  induction rs generalizing n out with
  | nil =>
    cases done
    exact ⟨0, rfl, .nil⟩
  | cons r rs ih =>
    obtain ⟨first, others⟩ := List.forall_mem_cons.mp plain
    obtain ⟨middle, r', rest, arranges, later, rfl⟩ := arrangeAll_cons_ok.mp done
    obtain ⟨i, rfl, own⟩ := first.arranges_labels arranges
    obtain ⟨j, rfl, more⟩ := ih others later
    refine ⟨i + j, Nat.add_assoc .., ?_⟩
    rw [List.flatMap_cons, ← List.range'_append_1, List.map_append]
    exact own.append more

/-- Each routine is arranged as it is alone, but for the numbers of the labels made up before. -/
theorem arrangeAll_shifted (plain : ∀ r ∈ rs, Plain r)
    (done : arrangeAll n rs = (.ok (), m, out)) :
    out.length = rs.length ∧ ∀ i r, rs[i]? = some r → ∃ k r', Arranges 0 r k r' ∧
      out[i]? = some (r'.relabel
        (shifted (n + ((out.take i).flatMap Routine.madeUpLabels).length))) := by
  induction rs generalizing n out with
  | nil =>
    cases done
    simp
  | cons r rs ih =>
    obtain ⟨first, others⟩ := List.forall_mem_cons.mp plain
    obtain ⟨middle, r', rest, arranges, later, rfl⟩ := arrangeAll_cons_ok.mp done
    obtain ⟨length, each⟩ := ih others later
    refine ⟨by rw [List.length_cons, length, List.length_cons], ?_⟩
    intro i x found
    cases i with
    | zero =>
      obtain rfl : r = x := by simpa using found
      obtain ⟨k, alone, single⟩ := first.arranges_zero arranges
      have again := first.arranges_shifted single n
      cases arranges.symm.trans again
      exact ⟨k, alone, single, by simp⟩
    | succ i =>
      obtain ⟨k, alone, single, same⟩ := each i x (by simpa using found)
      refine ⟨k, alone, single, ?_⟩
      obtain ⟨count, rfl, own⟩ := first.arranges_labels arranges
      have length : r'.madeUpLabels.length = count := by
        rw [own.length_eq, List.length_map, List.length_range']
      simpa [length, Nat.add_assoc] using same

end Flow

/-! ### Programs -/

open Codegen.Flow

variable {options : Select.Options} {program : Program} {f : Func} {r : Routine}

theorem plain_generateFunc (generated : Select.generateFunc options f = .ok r)
    (reserved : ∀ x ∈ f.body, ∀ name ∈ x.labels, isAdded name = false) : Plain r where
  contained := selfContained_generateFunc generated
  uncut := by
    rcases Select.generateFunc_ok generated with ⟨_, _, rfl⟩ | ⟨s, _, rfl⟩ <;> rfl
  endLabel := by
    rw [Select.generateFunc_endLabel generated]
    exact fun n same => madeUpLabel_ne f.name n same.symm
  names := by
    intro e member name inside
    rcases Select.generateFunc_names generated e member name inside with rfl | ⟨x, listed, named⟩
    · rfl
    · exact reserved x listed name named

theorem exists_forall₂ {α β : Type} {R : α → β → Prop} {xs : List α}
    (each : ∀ x ∈ xs, ∃ y, R x y) : ∃ ys, List.Forall₂ R xs ys := by
  induction xs with
  | nil => exact ⟨[], .nil⟩
  | cons x xs ih =>
    obtain ⟨⟨y, first⟩, others⟩ := List.forall_mem_cons.mp each
    obtain ⟨ys, rest⟩ := ih others
    exact ⟨y :: ys, .cons first rest⟩

/-- A program is lowered by selecting the code of all functions and then arranging it. -/
theorem generate_ok_iff {c : Compiled} : generate options program = .ok c ↔
    ∃ rs m, List.Forall₂ (fun f r => Select.generateFunc options f = .ok r) program.funcs rs ∧
      arrangeAll 0 rs = (.ok (), m, c.routines) ∧
      c.scope = program.scope ∧ c.init = program.init := by
  simp only [← generateFuncs_ok_iff, generate]
  cases Select.generateFuncs options program.funcs with
  | error e => simp [Except.mapError, bind, Except.bind]
  | ok rs =>
    rcases done : arrangeAll 0 rs with ⟨failure | ⟨⟩, m, out⟩
    · simp [Except.mapError, bind, Except.bind, done]
    · obtain ⟨routines, scope, init⟩ := c
      simp [Except.mapError, bind, Except.bind, pure, Except.pure, done, eq_comm]

theorem generate_single {c : Compiled} : generate options { program with funcs := [f] } = .ok c ↔
    ∃ r m r', Select.generateFunc options f = .ok r ∧ Arranges 0 r m r' ∧
      c = ⟨[r'], program.scope, program.init⟩ := by
  rw [generate_ok_iff]
  obtain ⟨routines, scope, init⟩ := c
  constructor
  · rintro ⟨rs, m, generated, done, rfl, rfl⟩
    obtain ⟨r, _, first, rest, rfl⟩ := List.forall₂_cons_left_iff.mp generated
    obtain rfl := List.forall₂_nil_left_iff.mp rest
    obtain ⟨_, r', _, arranges, others, rfl⟩ := arrangeAll_cons_ok.mp done
    cases others
    exact ⟨r, _, r', first, arranges, rfl⟩
  · rintro ⟨r, m, r', first, arranges, same⟩
    cases same
    exact ⟨[r], m, .cons first .nil, arranges, rfl, rfl⟩

/-- Functions whose labels do not look made up are lowered one by one: a program succeeds exactly if
each of its functions does as a program of its own, with the same result but for the numbers
of the labels that are made up for the functions before. All these labels differ. -/
theorem generate_independent (options : Select.Options) (program : Program)
    (reserved : ∀ f ∈ program.funcs, ∀ x ∈ f.body, ∀ name ∈ x.labels, isAdded name = false) :
    ((∃ c, generate options program = .ok c) ↔
      ∀ f ∈ program.funcs, ∃ c, generate options { program with funcs := [f] } = .ok c) ∧
    ∀ c, generate options program = .ok c →
      c.routines.length = program.funcs.length ∧
      (∀ i f, program.funcs[i]? = some f →
        ∃ r, generate options { program with funcs := [f] } =
            .ok ⟨[r], program.scope, program.init⟩ ∧
          c.routines[i]? = some (r.relabel
            (shifted ((c.routines.take i).flatMap Routine.madeUpLabels).length))) ∧
      (c.routines.flatMap Routine.madeUpLabels).Nodup := by
  have plain {rs : List Routine} (generated : List.Forall₂
      (fun f r => Select.generateFunc options f = .ok r) program.funcs rs) :
      ∀ r ∈ rs, Plain r := by
    intro r member
    obtain ⟨i, found⟩ := List.mem_iff_getElem?.mp member
    obtain ⟨f, listed, single⟩ := forall₂_getElem? generated.flip found
    exact plain_generateFunc single (reserved f (List.mem_of_getElem? listed))
  refine ⟨⟨?_, ?_⟩, ?_⟩
  · rintro ⟨c, done⟩ f member
    obtain ⟨rs, m, generated, arranged, _⟩ := generate_ok_iff.mp done
    obtain ⟨i, found⟩ := List.mem_iff_getElem?.mp member
    obtain ⟨r, listed, single⟩ := forall₂_getElem? generated found
    obtain ⟨k, r', arranges⟩ := (arrangeAll_iff (plain generated) 0).mp ⟨m, _, arranged⟩ r
      (List.mem_of_getElem? listed)
    exact ⟨_, generate_single.mpr ⟨r, k, r', single, arranges, rfl⟩⟩
  · intro each
    have singles (f : Func) (member : f ∈ program.funcs) : ∃ r,
        Select.generateFunc options f = .ok r ∧ ∃ m r', Arranges 0 r m r' := by
      obtain ⟨c, done⟩ := each f member
      obtain ⟨r, m, r', single, arranges, _⟩ := generate_single.mp done
      exact ⟨r, single, m, r', arranges⟩
    obtain ⟨rs, both⟩ := exists_forall₂ singles
    have generated := both.imp fun _ _ single => single.1
    obtain ⟨m, out, arranged⟩ := (arrangeAll_iff (plain generated) 0).mpr fun r member => by
      obtain ⟨i, found⟩ := List.mem_iff_getElem?.mp member
      obtain ⟨f, _, single⟩ := forall₂_getElem? both.flip found
      exact single.2
    exact ⟨⟨out, program.scope, program.init⟩,
      generate_ok_iff.mpr ⟨rs, m, generated, arranged, rfl, rfl⟩⟩
  · intro c done
    obtain ⟨rs, m, generated, arranged, _⟩ := generate_ok_iff.mp done
    obtain ⟨length, shifts⟩ := arrangeAll_shifted (plain generated) arranged
    refine ⟨length.trans generated.length_eq.symm, ?_, ?_⟩
    · intro i f found
      obtain ⟨r, listed, single⟩ := forall₂_getElem? generated found
      obtain ⟨k, r', arranges, same⟩ := shifts i r listed
      refine ⟨r', generate_single.mpr ⟨r, k, r', single, arranges, rfl⟩, ?_⟩
      rwa [Nat.zero_add] at same
    · obtain ⟨k, _, labels⟩ := arrangeAll_labels (plain generated) arranged
      exact labels.nodup_iff.mpr (List.Nodup.map madeUpLabel_injective List.nodup_range')

/-- Two functions that need made up labels, and between them one that is expanded at its calls. -/
def serial : Program :=
  { funcs := [
      { name := ascii "f"
        body := [.branch (.const 1) (ascii "A") (ascii "f_end"),
          .assign (.var (some ⟨.global 0, ascii "x"⟩)) (.const 1), .label (ascii "A"),
          .ret .missing] },
      { name := ascii "g", inlined := true, body := [.ret (.const 1)] },
      { name := ascii "h"
        body := [.assign (.var (some ⟨.global 0, ascii "x"⟩)) (.const 2), .jump (ascii "A"),
          .ret .missing, .label (ascii "A")] }] }

theorem generate_independent_serial :
    ∃ c, generate {} serial = .ok c ∧
      ((c.routines.take 2).flatMap Routine.madeUpLabels).length = 2 ∧
      (c.routines.flatMap Routine.madeUpLabels).Nodup ∧
      ∀ f, serial.funcs[2]? = some f → ∃ r, generate {} { serial with funcs := [f] } =
          .ok ⟨[r], serial.scope, serial.init⟩ ∧
        c.routines[2]? = some (r.relabel (shifted 2)) := by
  have independent := generate_independent {} serial (by decide +kernel)
  obtain ⟨c, done⟩ : ∃ c, generate {} serial = .ok c := Select.exists_ok (by cbv)
  have count : (generate {} serial).toOption.map (fun c =>
      ((c.routines.take 2).flatMap Routine.madeUpLabels).length) = some 2 := by
    cbv
  obtain ⟨_, each, distinct⟩ := independent.2 c done
  have two : ((c.routines.take 2).flatMap Routine.madeUpLabels).length = 2 := by
    rw [done] at count
    exact Option.some.inj count
  refine ⟨c, done, two, distinct, fun f found => ?_⟩
  have shifts := each 2 f found
  rwa [two] at shifts

end Codegen
