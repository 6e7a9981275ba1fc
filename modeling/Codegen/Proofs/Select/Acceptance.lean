import Codegen.Proofs.Select.Behaviour
import Codegen.Proofs.Select.Generates

/-! Which functions code can be generated for. An address leaves out the checks of the operators
in its sum, and makes one of its own: its base has to be a value. -/
namespace Codegen

/-- The binary operators at the head of a node have numbers to work on, and none of their
operands is missing. -/
def Node.operatorsFit : Node → Bool
  | .missing => false
  | .binary op left right =>
    (Node.binary op left right).fits && left.operatorsFit && right.operatorsFit
  | _ => true

theorem Node.operatorsFit_binary {op : BinaryOp} {left right : Node}
    (fit : (Node.binary op left right).operatorsFit = true) :
    (Node.binary op left right).fits = true ∧ left.operatorsFit = true ∧
      right.operatorsFit = true := by
  simpa [operatorsFit, and_assoc] using fit

theorem Node.operatorsFit_missing {x : Node} (missing : x.isMissing = true) :
    x.operatorsFit = false := by
  cases x <;> first | rfl | contradiction

namespace Select

variable {used : Bool} {base index x y : Node} {a : Address}

section Plain

theorem accepted_off (used : Bool) (x : Node) : accepted false used x = true ↔
    x.fits = true ∧ ∀ y ∈ x.children, accepted false true y = true :=
  accepted_plain (fusion?_off used x)

theorem accepted_const (c : Int64) : accepted false true (.const c) = true :=
  (accepted_leaf rfl).mpr rfl

theorem accepted_pair (op : BinaryOp) (left right : Node) :
    accepted false true (.binary op left right) = true ↔ (Node.binary op left right).fits = true ∧
      accepted false true left = true ∧ accepted false true right = true := by
  rw [accepted_off]
  simp [Node.children]

theorem operatorsFit_of_accepted (isAccepted : accepted false true x = true) :
    x.operatorsFit = true := by
  fun_induction Node.operatorsFit x with
  | case1 => exact absurd ((accepted_off _ _).mp isAccepted).1 (by decide)
  | case2 op left right ihLeft ihRight =>
    obtain ⟨fits, inLeft, inRight⟩ := (accepted_pair _ _ _).mp isAccepted
    simp [fits, ihLeft inLeft, ihRight inRight]
  | case3 => rfl

theorem accepted_binary (op : BinaryOp) (left right : Node) :
    accepted false true (.binary op left right) = true ↔
      (Node.binary op left right).operatorsFit = true ∧
        accepted false true left = true ∧ accepted false true right = true := by
  constructor
  · intro isAccepted
    exact ⟨operatorsFit_of_accepted isAccepted, ((accepted_pair _ _ _).mp isAccepted).2⟩
  · rintro ⟨fit, parts⟩
    exact (accepted_pair _ _ _).mpr ⟨(Node.operatorsFit_binary fit).1, parts⟩

theorem accepted_of_scaled (scaled : Scaled index x) :
    accepted false true x = true ↔ x.operatorsFit = true ∧ accepted false true index = true := by
  cases scaled <;> simp [accepted_binary, accepted_const]

theorem accepted_of_indexed (indexed : Indexed base index x) : accepted false true x = true ↔
    x.operatorsFit = true ∧ accepted false true base = true ∧ accepted false true index = true := by
  cases indexed with
  | after scaled | before scaled =>
    rw [accepted_binary, accepted_of_scaled scaled]
    constructor
    · tauto
    · rintro ⟨fit, parts⟩
      have fits := Node.operatorsFit_binary fit
      tauto
  | plain => exact accepted_binary ..

/-- Where the operators of a sum have what they need, only its parts are left to check. -/
theorem accepted_of_summed (summed : Summed base index x) : accepted false true x = true ↔
    x.operatorsFit = true ∧ accepted false true base = true ∧ accepted false true index = true := by
  cases summed with
  | alone indexed => exact accepted_of_indexed indexed
  | right c indexed | left c indexed =>
    rw [accepted_binary, accepted_of_indexed indexed]
    constructor
    · tauto
    · rintro ⟨fit, parts⟩
      have fits := Node.operatorsFit_binary fit
      have const := accepted_const c
      tauto

theorem index_of_scaled (scaled : Scaled index x) (fit : x.operatorsFit = true) :
    index.operatorsFit = true := by
  cases scaled with
  | right c => exact (Node.operatorsFit_binary fit).2.1
  | left c => exact (Node.operatorsFit_binary fit).2.2

theorem index_of_indexed (indexed : Indexed base index x) (fit : x.operatorsFit = true) :
    index.operatorsFit = true := by
  cases indexed with
  | after scaled => exact index_of_scaled scaled (Node.operatorsFit_binary fit).2.2
  | before scaled => exact index_of_scaled scaled (Node.operatorsFit_binary fit).2.1
  | plain => exact (Node.operatorsFit_binary fit).2.2

theorem index_of_summed (summed : Summed base index x) (fit : x.operatorsFit = true) :
    index.operatorsFit = true := by
  cases summed with
  | alone indexed => exact index_of_indexed indexed fit
  | right c indexed => exact index_of_indexed indexed (Node.operatorsFit_binary fit).2.1
  | left c indexed => exact index_of_indexed indexed (Node.operatorsFit_binary fit).2.2

/-- Memory at a sum needs no more than the sum. -/
theorem accepted_mem (summed : Summed base index x) :
    accepted false used (.mem x) = true ↔ accepted false true x = true := by
  have fits : (Node.mem x).fits = true := by
    rcases summed with indexed | ⟨c, _⟩ | ⟨c, _⟩
    · cases indexed <;> rfl
    · rfl
    · rfl
  rw [accepted_off]
  simp [fits, Node.children]

/-- Without addresses, the sum of an address is checked along with its parts. -/
theorem accepted_of_fusion (found : fusion? true used x = some (y, a)) :
    Summed a.base a.index y ∧ (accepted false used x = true ↔ y.operatorsFit = true ∧
      accepted false true a.base = true ∧ accepted false true a.index = true) := by
  rcases fusion?_some found with ⟨rfl, selected⟩ | ⟨rfl, rfl, selected⟩
  · have summed := selected?_summed selected
    exact ⟨summed, (accepted_mem summed).trans (accepted_of_summed summed)⟩
  · have summed := selected?_summed selected
    exact ⟨summed, accepted_of_summed summed⟩

end Plain

/-- What an address does not check. -/
theorem accepted_off_iff (selected : accepted true used x = true) :
    accepted false used x = true ↔ ∀ p ∈ addresses used x, p.1.operatorsFit = true := by
  induction used, x using fusion_induction true with
  | fused used x y a found base index =>
    obtain ⟨inBase, _, inIndex⟩ := (accepted_fused found).mp selected
    obtain ⟨summed, parts⟩ := accepted_of_fusion found
    rw [parts, addresses_fused found, List.forall_mem_cons, List.forall_mem_append, base inBase]
    apply and_congr_right
    intro fit
    rcases inIndex with missing | inIndex
    · have present := index_of_summed summed fit
      simp [Node.operatorsFit_missing missing] at present
    · rw [index inIndex]
  | plain used x absent below =>
    obtain ⟨fits, parts⟩ := (accepted_plain absent).mp selected
    rw [accepted_off, addresses_plain absent, List.forall_mem_flatMap, and_iff_right fits]
    exact forall₂_congr fun y child => below y child (parts y child)

/-- What only an address checks. -/
theorem accepted_on_iff (unselected : accepted false used x = true) :
    accepted true used x = true ↔ ∀ p ∈ addresses used x, p.2.base.kind ≠ .nothing := by
  induction used, x using fusion_induction true with
  | fused used x y a found base index =>
    obtain ⟨_, inBase, inIndex⟩ := (accepted_of_fusion found).2.mp unselected
    have present : a.index.isMissing ≠ true := by
      intro missing
      have fit := operatorsFit_of_accepted inIndex
      simp [Node.operatorsFit_missing missing] at fit
    rw [accepted_fused found, addresses_fused found, List.forall_mem_cons, List.forall_mem_append,
      ← base inBase, ← index inIndex]
    tauto
  | plain used x absent below =>
    obtain ⟨fits, parts⟩ := (accepted_off _ _).mp unselected
    rw [accepted_plain absent, addresses_plain absent, List.forall_mem_flatMap, and_iff_right fits]
    exact forall₂_congr fun y child => below y child (parts y child)

theorem generateFunc_ok_iff (options : Options) (f : Func) :
    (∃ r, generateFunc options f = .ok r) ↔ (options.inline && f.inlined) = true ∨
      ∀ x ∈ f.body, accepted options.addressing false x = true := by
  by_cases expanded : (options.inline && f.inlined) = true
  · simp [generateFunc, expanded]
  rcases generates_statements options.addressing 0 f.body {} with
    ⟨all, _, s, done, _⟩ | ⟨fails, e, error⟩
  · have generated : generateFunc options f = .ok (routine f s) := by
      simp [generateFunc, expanded, done, bind, Except.bind, pure, Except.pure]
    exact ⟨fun _ => .inr all, fun _ => ⟨routine f s, generated⟩⟩
  · constructor
    · rintro ⟨r, generated⟩
      rcases generateFunc_ok generated with ⟨inline, inlined, _⟩ | ⟨s, done, rfl⟩
      · simp [inline, inlined] at expanded
      · cases done.symm.trans error
    · rintro (expands | all)
      · contradiction
      · contradiction

theorem error_iff_not_ok {ε α : Type} (x : Except ε α) :
    (∃ e, x = .error e) ↔ ¬ ∃ a, x = .ok a := by
  cases x <;> simp

/-- Addresses decide on the fate of a function exactly where a sum does not fit its operators,
or the base of an address is no value. -/
theorem error_addressing_iff (inline : Bool) (f : Func) :
    ((∃ e, generateFunc ⟨true, inline⟩ f = .error e) ↔
        ∃ e, generateFunc ⟨false, inline⟩ f = .error e) ↔
      (inline && f.inlined) = true ∨
        ((∃ r, generateFunc ⟨true, inline⟩ f = .ok r) →
          ∀ x ∈ f.body, ∀ p ∈ addresses false x, p.1.operatorsFit = true) ∧
        ((∃ r, generateFunc ⟨false, inline⟩ f = .ok r) →
          ∀ x ∈ f.body, ∀ p ∈ addresses false x, p.2.base.kind ≠ .nothing) := by
  rw [error_iff_not_ok, error_iff_not_ok, not_iff_not, generateFunc_ok_iff, generateFunc_ok_iff]
  by_cases expanded : (inline && f.inlined) = true
  · simp only [expanded, true_or]
  simp only [expanded, Bool.false_eq_true, false_or]
  have off (selected : ∀ x ∈ f.body, accepted true false x = true) :
      (∀ x ∈ f.body, accepted false false x = true) ↔
        ∀ x ∈ f.body, ∀ p ∈ addresses false x, p.1.operatorsFit = true :=
    forall₂_congr fun x inside => accepted_off_iff (selected x inside)
  have on (unselected : ∀ x ∈ f.body, accepted false false x = true) :
      (∀ x ∈ f.body, accepted true false x = true) ↔
        ∀ x ∈ f.body, ∀ p ∈ addresses false x, p.2.base.kind ≠ .nothing :=
    forall₂_congr fun x inside => accepted_on_iff (unselected x inside)
  tauto

/-- A place is no number, but it can be the base of an address. -/
def placed : Func :=
  returning (.binary .add (.addr (some ⟨.global 0, ascii "x"⟩))
    (.binary .mul (globalVar 1 "i") (.const 4)))

theorem error_addressing_placed : (∃ r, generateFunc {} placed = .ok r) ∧
    generateFunc { addressing := false } placed = .error
      ⟨[.statement 0, .returnValue], .addressInBinary .add ⟨.global 0, ascii "x"⟩⟩ := by
  constructor
  · exact exists_ok (by cbv)
  · cbv

def labelled : Func :=
  returning (.binary .add (.binary .mul (globalVar 1 "i") (.const 4)) (.label (ascii "L")))

example : (generateFunc {} labelled).toOption.isSome = false ∧
    (generateFunc { addressing := false } labelled).toOption.isSome = true := by
  cbv

end Select

end Codegen
