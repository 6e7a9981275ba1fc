import Codegen.Proofs.Select.Behaviour
import Codegen.Proofs.Select.Generates

/-! The order of calls. Without addresses code calls from left to right. The code of an address
calls what its base calls before what its index calls, also where the index stands left of
the base. -/
namespace Codegen

def Instr.callee? : Instr → Option (Option Symbol)
  | .call callee _ _ => some callee
  | _ => none

def Routine.callees (r : Routine) : List (Option Symbol) :=
  r.lines.filterMap fun line => line.instr.callee?

def Node.callees (x : Node) : List (Option Symbol) :=
  (Select.sites false true x).map Site.callee

namespace Select

variable {used : Bool} {base index x y : Node} {a : Address}

theorem sites_binary (op : BinaryOp) (left right : Node) :
    sites false true (.binary op left right) = sites false true left ++ sites false true right := by
  rw [sites_plain (fusion?_off _ _)]
  simp [Node.children, Node.site]

theorem sites_mem (x : Node) : sites false used (.mem x) = sites false true x := by
  rw [sites_plain (fusion?_off _ _)]
  simp [Node.children, Node.site]

theorem sites_const (c : Int64) : sites false true (.const c) = [] :=
  sites_leaf rfl

theorem sites_of_summed (summed : Summed base index x) :
    sites false true x = sites false true base ++ sites false true index ∨
      sites false true x = sites false true index ++ sites false true base :=
  summed.split sites_binary sites_const

/-- The two parts of a sum that is computed as one address. -/
theorem sites_of_fusion (found : fusion? true used x = some (y, a)) :
    sites false used x = sites false true y ∧
      (sites false true y = sites false true a.base ++ sites false true a.index ∨
        sites false true y = sites false true a.index ++ sites false true a.base) := by
  rcases fusion?_some found with ⟨rfl, selected⟩ | ⟨rfl, rfl, selected⟩
  · exact ⟨sites_mem y, sites_of_summed (selected?_summed selected)⟩
  · exact ⟨rfl, sites_of_summed (selected?_summed selected)⟩

/-- Addresses change nothing but the order of calls. -/
theorem sites_perm (used : Bool) (x : Node) : (sites true used x).Perm (sites false used x) := by
  induction used, x using fusion_induction true with
  | fused used x y a found base index =>
    obtain ⟨same, inOrder | swapped⟩ := sites_of_fusion found
    · rw [sites_fused found, same, inOrder]
      exact base.append index
    · rw [sites_fused found, same, swapped]
      exact (base.append index).trans List.perm_append_comm
  | plain used x absent below =>
    rw [sites_plain absent, sites_plain (fusion?_off _ _)]
    exact (List.Perm.flatMap_left _ below).append_right _

/-- In every sum that is computed as one address, the base calls before the index. -/
def InOrder (used : Bool) (x : Node) : Prop :=
  ∀ p ∈ addresses used x, p.1.callees = p.2.base.callees ++ p.2.index.callees

instance (used : Bool) (x : Node) : Decidable (InOrder used x) :=
  inferInstanceAs (Decidable (∀ p ∈ addresses used x, _ = _))

theorem inOrder_fused (found : fusion? true used x = some (y, a)) : InOrder used x ↔
    y.callees = a.base.callees ++ a.index.callees ∧ InOrder true a.base ∧ InOrder true a.index := by
  simp only [InOrder, addresses_fused found, List.forall_mem_cons, List.forall_mem_append]

theorem inOrder_plain (absent : fusion? true used x = none) :
    InOrder used x ↔ ∀ y ∈ x.children, InOrder true y := by
  simp only [InOrder, addresses_plain absent, List.forall_mem_flatMap]

theorem callees_eq_of_inOrder (inOrder : InOrder used x) :
    (sites true used x).map Site.callee = (sites false used x).map Site.callee := by
  induction used, x using fusion_induction true with
  | fused used x y a found base index =>
    obtain ⟨own, inBase, inIndex⟩ := (inOrder_fused found).mp inOrder
    rw [sites_fused found, (sites_of_fusion found).1, List.map_append, base inBase, index inIndex]
    exact own.symm
  | plain used x absent below =>
    have inParts := (inOrder_plain absent).mp inOrder
    rw [sites_plain absent, sites_plain (fusion?_off _ _), List.map_append, List.map_append,
      List.map_flatMap, List.map_flatMap]
    congr 1
    exact List.flatMap_congr fun y child => below y child (inParts y child)

/-- Two lists can be exchanged without a difference only if one of them is empty, as long as
nothing is in both. -/
theorem exchanged_of_nodup {α : Type} {first first' second second' : List α}
    (distinct : (second ++ first).Nodup) (perm : first'.Perm first) (perm' : second'.Perm second)
    (same : first' ++ second' = second ++ first) :
    second ++ first = first ++ second ∧ first' = first ∧ second' = second := by
  cases first with
  | nil =>
    obtain rfl := perm.eq_nil
    simpa using same
  | cons b bs =>
    cases second with
    | nil =>
      obtain rfl := perm'.eq_nil
      simpa using same
    | cons i is =>
      cases first' with
      | nil => simp at perm
      | cons c cs =>
        obtain ⟨rfl, _⟩ := List.cons.inj same
        have inside : c ∈ b :: bs := perm.subset (List.mem_cons_self ..)
        have apart : c ∉ b :: bs := by
          intro again
          exact (List.nodup_cons.mp distinct).1 (List.mem_append_right _ again)
        exact absurd inside apart

theorem eq_of_flatMap_eq {α β : Type} {f g : α → List β} {xs : List α}
    (lengths : ∀ x ∈ xs, (f x).length = (g x).length) (same : xs.flatMap f = xs.flatMap g) :
    ∀ x ∈ xs, f x = g x := by
  induction xs with
  | nil => simp
  | cons x xs ih =>
    obtain ⟨first, others⟩ := List.forall_mem_cons.mp lengths
    obtain ⟨here, later⟩ := List.append_inj same first
    exact List.forall_mem_cons.mpr ⟨here, ih others later⟩

/-- Where nothing is called twice, calls come in another order as soon as an index calls
before its base. -/
theorem inOrder_of_callees_eq (distinct : ((sites false used x).map Site.callee).Nodup)
    (same : (sites true used x).map Site.callee = (sites false used x).map Site.callee) :
    InOrder used x := by
  induction used, x using fusion_induction true with
  | fused used x y a found base index =>
    rw [inOrder_fused found]
    have permBase := (sites_perm true a.base).map Site.callee
    have permIndex := (sites_perm true a.index).map Site.callee
    obtain ⟨whole, parts⟩ := sites_of_fusion found
    rw [sites_fused found, whole, List.map_append] at same
    rw [whole] at distinct
    rcases parts with inOrder | swapped
    · rw [inOrder, List.map_append] at same distinct
      obtain ⟨distinctBase, distinctIndex, _⟩ := List.nodup_append.mp distinct
      obtain ⟨sameBase, sameIndex⟩ := List.append_inj same permBase.length_eq
      refine ⟨?_, base distinctBase sameBase, index distinctIndex sameIndex⟩
      rw [Node.callees, inOrder, List.map_append]
      rfl
    · rw [swapped, List.map_append] at same distinct
      obtain ⟨distinctIndex, distinctBase, _⟩ := List.nodup_append.mp distinct
      obtain ⟨exchanged, sameBase, sameIndex⟩ := exchanged_of_nodup distinct permBase permIndex same
      refine ⟨?_, base distinctBase sameBase, index distinctIndex sameIndex⟩
      rw [Node.callees, swapped, List.map_append]
      exact exchanged
  | plain used x absent below =>
    rw [inOrder_plain absent]
    rw [sites_plain (fusion?_off _ _), List.map_append, List.map_flatMap] at same distinct
    rw [sites_plain absent, List.map_append, List.map_flatMap] at same
    have lengths : ∀ y ∈ x.children, ((sites true true y).map Site.callee).length =
        ((sites false true y).map Site.callee).length :=
      fun y _ => ((sites_perm true y).map Site.callee).length_eq
    have distinctParts := (List.nodup_flatMap.mp (List.nodup_append.mp distinct).1).1
    have sameParts := eq_of_flatMap_eq lengths (List.append_cancel_right same)
    exact fun y child => below y child (distinctParts y child) (sameParts y child)

theorem callee?_eq (x : Instr) : x.callee? = x.site?.map Site.callee := by
  cases x <;> rfl

theorem routine_callees (f : Func) (s : Selection) :
    (routine f s).callees = s.sites.map Site.callee := by
  have instrs : (routine f s).callees =
      ((routine f s).lines.map Line.instr).filterMap Instr.callee? := by
    rw [List.filterMap_map]
    rfl
  rw [instrs, routine_lines, Selection.sites, List.map_filterMap]
  exact List.filterMap_congr fun x _ => callee?_eq x

/-- Code calls what its body calls, and nothing at all if it is expanded at its calls. -/
theorem generateFunc_callees {options : Options} {f : Func} {r : Routine}
    (generated : generateFunc options f = .ok r) :
    r.callees = if options.inline && f.inlined then []
      else f.body.flatMap fun x => (sites options.addressing false x).map Site.callee := by
  split
  next expanded =>
    simp only [generateFunc, expanded, if_true, Except.ok.injEq] at generated
    rw [← generated]
    rfl
  next called =>
    rcases generateFunc_ok generated with ⟨inline, inlined, _⟩ | ⟨s, done, rfl⟩
    · simp [inline, inlined] at called
    · have added := ((generates_statements _ 0 f.body).of_ok done).2.1
      rw [routine_callees, added, ← List.map_flatMap]
      rfl

/-- Addresses neither add calls nor lose them. They leave the order of calls as it is, unless
an index calls before its base. -/
theorem callees_addressing {inline : Bool} {f : Func} {r s : Routine}
    (selected : generateFunc ⟨true, inline⟩ f = .ok r)
    (unselected : generateFunc ⟨false, inline⟩ f = .ok s) :
    r.callees.Perm s.callees ∧ ((∀ x ∈ f.body, InOrder false x) → r.callees = s.callees) ∧
      (s.callees.Nodup → r.callees = s.callees →
        (inline && f.inlined) = true ∨ ∀ x ∈ f.body, InOrder false x) := by
  rw [generateFunc_callees selected, generateFunc_callees unselected]
  by_cases expanded : (inline && f.inlined) = true
  · simp [expanded]
  · rw [if_neg expanded, if_neg expanded]
    have perms : ∀ x ∈ f.body, ((sites true false x).map Site.callee).Perm
        ((sites false false x).map Site.callee) :=
      fun x _ => (sites_perm false x).map Site.callee
    refine ⟨List.Perm.flatMap_left _ perms, fun inOrder => ?_, fun distinct same => .inr ?_⟩
    · exact List.flatMap_congr fun x inside => callees_eq_of_inOrder (inOrder x inside)
    · intro x inside
      apply inOrder_of_callees_eq
      · exact (List.nodup_flatMap.mp distinct).1 x inside
      · exact eq_of_flatMap_eq (fun y member => (perms y member).length_eq) same x inside

def element : Func :=
  returning (.mem (.binary .add (globalCall 0 "a" [globalVar 1 "x"])
    (.binary .mul (globalCall 2 "b" []) (.const 8))))

theorem callees_addressing_element : ∃ r s, generateFunc {} element = .ok r ∧
    generateFunc { addressing := false } element = .ok s ∧ r.callees = s.callees := by
  obtain ⟨r, selected⟩ := exists_ok (x := generateFunc {} element) (by cbv)
  obtain ⟨s, unselected⟩ := exists_ok (x := generateFunc { addressing := false } element) (by cbv)
  have inOrder : ∀ x ∈ element.body, InOrder false x := by decide +kernel
  exact ⟨r, s, selected, unselected, (callees_addressing selected unselected).2.1 inOrder⟩

def exchanged : Func :=
  returning (.binary .add (.binary .mul (globalCall 0 "a" []) (.const 4)) (globalCall 1 "b" []))

theorem callees_addressing_exchanged : ∃ r s, generateFunc {} exchanged = .ok r ∧
    generateFunc { addressing := false } exchanged = .ok s ∧
    r.callees = [some ⟨.global 1, ascii "b"⟩, some ⟨.global 0, ascii "a"⟩] ∧
    s.callees = [some ⟨.global 0, ascii "a"⟩, some ⟨.global 1, ascii "b"⟩] := by
  obtain ⟨r, selected⟩ := exists_ok (x := generateFunc {} exchanged) (by cbv)
  obtain ⟨s, unselected⟩ := exists_ok (x := generateFunc { addressing := false } exchanged) (by cbv)
  refine ⟨r, s, selected, unselected, ?_, ?_⟩
  · rw [generateFunc_callees selected]
    cbv
  · rw [generateFunc_callees unselected]
    cbv

end Select

end Codegen
