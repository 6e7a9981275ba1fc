import Codegen.Compile
import Codegen.Proofs.Flow.References
import Codegen.Proofs.Select.Checked

/-! Programs of any nodes are lowered to routines whose references all lead to something, or
refused with a fault that says so. -/
namespace Codegen

open Select

variable {options : Options}

/-- Selected code refers to its own instructions, and has no blocks yet. -/
theorem selfContained_routine (f : Func) (s : Selection) : (routine f s).SelfContained where
  code := by simp [routine]
  edges := by
    intro k e found i leads
    simp only [routine, Array.getElem?_map, Option.map_eq_some_iff] at found
    obtain ⟨x, _, rfl⟩ := found
    contradiction
  blocks := by simp [routine]
  links := by simp [routine]

theorem selfContained_generateFunc {f : Func} {r : Routine}
    (done : generateFunc options f = .ok r) : r.SelfContained := by
  rcases generateFunc_ok done with ⟨_, _, rfl⟩ | ⟨s, _, rfl⟩
  · have empty := selfContained_routine f {}
    exact ⟨empty.code, empty.edges, empty.blocks, empty.links⟩
  · exact selfContained_routine f s

theorem forall₂_getElem? {α β : Type} {R : α → β → Prop} {xs : List α} {ys : List β}
    (all : List.Forall₂ R xs ys) {i : Nat} {x : α} (found : xs[i]? = some x) :
    ∃ y, ys[i]? = some y ∧ R x y := by
  induction all generalizing i with
  | nil => simp at found
  | @cons a b xs ys first rest ih =>
    cases i with
    | zero =>
      obtain rfl : a = x := by simpa using found
      exact ⟨b, rfl, first⟩
    | succ i => exact ih (by simpa using found)

theorem generateFuncs_ok_iff {fs : List Func} {rs : List Routine} :
    generateFuncs options fs = .ok rs ↔
      List.Forall₂ (fun f r => generateFunc options f = .ok r) fs rs := by
  induction fs generalizing rs with
  | nil =>
    rw [List.forall₂_nil_left_iff]
    simp [generateFuncs, eq_comm]
  | cons f fs ih =>
    rw [List.forall₂_cons_left_iff]
    constructor
    · intro done
      obtain ⟨r, first, done⟩ := Flow.bind_ok done
      obtain ⟨others, rest, done⟩ := Flow.bind_ok done
      cases done
      cases single : generateFunc options f with
      | error e => simp [single, Except.mapError] at first
      | ok r' =>
        simp only [single, Except.mapError, Except.ok.injEq] at first
        exact ⟨r, others, by rw [first], ih.mp rest, rfl⟩
    · rintro ⟨r, others, first, rest, rfl⟩
      rw [generateFuncs, first, ih.mpr rest]
      rfl

theorem selfContained_generateFuncs {fs : List Func} {rs : List Routine}
    (done : generateFuncs options fs = .ok rs) : ∀ r ∈ rs, r.SelfContained := by
  intro r member
  obtain ⟨i, found⟩ := List.mem_iff_getElem?.mp member
  obtain ⟨f, _, single⟩ := forall₂_getElem? (generateFuncs_ok_iff.mp done).flip found
  exact selfContained_generateFunc single

theorem message_internal (f : Fault) : ascii ": internal compiler error" <:+ f.message :=
  List.suffix_append _ _

/-- Whatever a program consists of, no step of its selection is impossible, and lowering ends with
routines whose references all lead to something, or with a fault. A block is never empty. -/
theorem generate_outcome (options : Options) (program : Program) :
    Checked.generateFuncs options program.funcs =
        (generateFuncs options program.funcs).mapError .fault ∧
      ((∃ c, generate options program = .ok c ∧ ∀ r ∈ c.routines, r.SelfContained) ∨
        ∃ f, generate options program = .error (.fault f) ∧
          (∀ label, f.cause ≠ .emptyBlock label) ∧
          ascii ": internal compiler error" <:+ f.message) := by
  refine ⟨Checked.generateFuncs_eq options program.funcs, ?_⟩
  unfold generate
  rcases Checked.generateFuncs_outcome options program.funcs with
    ⟨rs, _, done⟩ | ⟨e, _, fails, cause⟩
  · rw [done]
    rcases Flow.arrangeAll_outcome 0 (selfContained_generateFuncs done) with
      ⟨arranged, contained⟩ | ⟨f, fails, known⟩
    · refine .inl ⟨⟨(Flow.arrangeAll 0 rs).2.2, program.scope, program.init⟩, ?_, contained⟩
      simp [Except.mapError, arranged, bind, Except.bind, pure, Except.pure]
    · refine .inr ⟨f.inside .analysis, ?_, known.ne_emptyBlock, message_internal _⟩
      simp [Except.mapError, fails, bind, Except.bind, Failure.inside]
  · rw [fails]
    exact .inr ⟨e.inside .emission, rfl, cause, message_internal _⟩

end Codegen
