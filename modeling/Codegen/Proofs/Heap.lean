import Codegen.Heap

/-! Adding to a heap and taking from it lose no element and keep the least one on top,
whatever turns they are given. So a heap gives the elements of a list back in the order of
their keys, and a list whose keys rise comes back as it was. -/
namespace Codegen.Heap

variable {α : Type}

def toList : Heap α → List α
  | empty => []
  | node x left right => x :: (left.toList ++ right.toList)

@[simp] theorem toList_empty : (empty : Heap α).toList = [] := rfl

@[simp] theorem toList_node (x : α) (left right : Heap α) :
    (node x left right).toList = x :: (left.toList ++ right.toList) := rfl

def Ordered (key : α → Int) : Heap α → Prop
  | empty => True
  | node x left right =>
    (∀ y ∈ left.toList ++ right.toList, key x ≤ key y) ∧ left.Ordered key ∧ right.Ordered key

variable {key : α → Int} {x y : α} {left right heap rest : Heap α} {turns : List Bool}

theorem raiseLeft_perm : (raiseLeft key x left right).toList.Perm
    (x :: (left.toList ++ right.toList)) := by
  unfold raiseLeft
  split
  · exact .refl _
  · split
    · simpa using List.Perm.swap ..
    · exact .refl _

theorem raiseRight_perm : (raiseRight key x left right).toList.Perm
    (x :: (left.toList ++ right.toList)) := by
  unfold raiseRight
  split
  · exact .refl _
  next z a b =>
    split
    · refine (List.perm_middle.cons z).trans ?_
      refine (List.Perm.swap x z _).trans ?_
      exact List.perm_middle.symm.cons x
    · exact .refl _

theorem insertAt_perm (key : α → Int) (x : α) (turns : List Bool) (heap : Heap α) :
    (insertAt key x turns heap).toList.Perm (x :: heap.toList) := by
  induction heap generalizing turns with
  | empty => exact .refl _
  | node y left right ihLeft ihRight =>
    simp only [insertAt]
    split
    · refine raiseRight_perm.trans ?_
      refine (((ihRight turns.tail).append_left left.toList).cons y).trans ?_
      exact (List.perm_middle.cons y).trans (.swap ..)
    · refine raiseLeft_perm.trans ?_
      refine (((ihLeft turns.tail).append_right right.toList).cons y).trans ?_
      exact .swap ..

/-- Below the top of a heap that was bounded before one element came in, the bound still
holds: what breaks it can only be the new element, and that rises to the top. -/
theorem bound_below_top {a b : Heap α} {elements : List α} {bound : Int}
    (ordered : (node y a b).Ordered key) (perm : (node y a b).toList.Perm (x :: elements))
    (bounded : ∀ z ∈ elements, bound ≤ key z) :
    ∀ z ∈ a.toList ++ b.toList, bound ≤ key z := by
  intro z member
  have top : key y ≤ key z := ordered.1 z member
  by_cases low : key y < bound
  · have fromNew : y = x := by
      rcases List.mem_cons.mp (perm.subset (List.mem_cons_self ..)) with same | old
      · exact same
      · have := bounded y old
        omega
    subst fromNew
    exact bounded z ((List.perm_cons y).mp perm |>.subset member)
  · omega

theorem ordered_raiseLeft (below : left.Ordered key) (beside : right.Ordered key)
    (bounded : ∀ z a b, left = node z a b → ∀ y ∈ a.toList ++ b.toList, key x ≤ key y)
    (boundedRight : ∀ z ∈ right.toList, key x ≤ key z) :
    (raiseLeft key x left right).Ordered key := by
  unfold raiseLeft
  split
  · exact ⟨by simpa using boundedRight, trivial, beside⟩
  next z a b =>
    have deeper := bounded z a b rfl
    split
    next out =>
      refine ⟨?_, ⟨deeper, below.2⟩, beside⟩
      intro w member
      rcases List.mem_append.mp member with inLeft | inRight
      · rcases List.mem_cons.mp inLeft with rfl | inner
        · omega
        · exact below.1 w inner
      · have := boundedRight w inRight
        omega
    next fine =>
      refine ⟨?_, below, beside⟩
      intro w member
      rcases List.mem_append.mp member with inLeft | inRight
      · rcases List.mem_cons.mp inLeft with rfl | inner
        · omega
        · exact deeper w inner
      · exact boundedRight w inRight

theorem ordered_raiseRight (below : right.Ordered key) (beside : left.Ordered key)
    (bounded : ∀ z a b, right = node z a b → ∀ y ∈ a.toList ++ b.toList, key x ≤ key y)
    (boundedLeft : ∀ z ∈ left.toList, key x ≤ key z) :
    (raiseRight key x left right).Ordered key := by
  unfold raiseRight
  split
  · exact ⟨by simpa using boundedLeft, beside, trivial⟩
  next z a b =>
    have deeper := bounded z a b rfl
    split
    next out =>
      refine ⟨?_, beside, ⟨deeper, below.2⟩⟩
      intro w member
      rcases List.mem_append.mp member with inLeft | inRight
      · have := boundedLeft w inLeft
        omega
      · rcases List.mem_cons.mp inRight with rfl | inner
        · omega
        · exact below.1 w inner
    next fine =>
      refine ⟨?_, beside, below⟩
      intro w member
      rcases List.mem_append.mp member with inLeft | inRight
      · exact boundedLeft w inLeft
      · rcases List.mem_cons.mp inRight with rfl | inner
        · omega
        · exact deeper w inner

theorem ordered_insertAt (ordered : heap.Ordered key) :
    (insertAt key x turns heap).Ordered key := by
  induction heap generalizing turns with
  | empty => simp [insertAt, Ordered]
  | node y left right ihLeft ihRight =>
    obtain ⟨least, orderedLeft, orderedRight⟩ := ordered
    have leastLeft : ∀ z ∈ left.toList, key y ≤ key z :=
      fun z member => least z (List.mem_append_left _ member)
    have leastRight : ∀ z ∈ right.toList, key y ≤ key z :=
      fun z member => least z (List.mem_append_right _ member)
    simp only [insertAt]
    split
    · apply ordered_raiseRight (ihRight orderedRight) orderedLeft _ leastLeft
      intro z a b top
      have perm := insertAt_perm key x turns.tail right
      have grown : (insertAt key x turns.tail right).Ordered key := ihRight orderedRight
      rw [top] at perm grown
      exact bound_below_top grown perm leastRight
    · apply ordered_raiseLeft (ihLeft orderedLeft) orderedRight _ leastRight
      intro z a b top
      have perm := insertAt_perm key x turns.tail left
      have grown : (insertAt key x turns.tail left).Ordered key := ihLeft orderedLeft
      rw [top] at perm grown
      exact bound_below_top grown perm leastLeft

theorem removeAt_none (removed : removeAt turns heap = none) : heap = empty := by
  cases heap with
  | empty => rfl
  | node x left right =>
    simp only [removeAt] at removed
    split at removed <;> split at removed
    all_goals first | contradiction | (split at removed <;> contradiction)

/-- An element goes from one of the sides, or it is the only one. -/
theorem removeAt_node (removed : removeAt turns (node x left right) = some (y, rest)) :
    (∃ smaller, removeAt turns.tail left = some (y, smaller) ∧ rest = node x smaller right) ∨
    (∃ smaller, removeAt turns.tail right = some (y, smaller) ∧ rest = node x left smaller) ∨
    (left = empty ∧ right = empty ∧ y = x ∧ rest = empty) := by
  simp only [removeAt] at removed
  split at removed
  · split at removed
    next inner => cases removed; exact .inr (.inl ⟨_, inner, rfl⟩)
    next noRight =>
      split at removed
      next inner => cases removed; exact .inl ⟨_, inner, rfl⟩
      next noLeft =>
        cases removed
        exact .inr (.inr ⟨removeAt_none noLeft, removeAt_none noRight, rfl, rfl⟩)
  · split at removed
    next inner => cases removed; exact .inl ⟨_, inner, rfl⟩
    next noLeft =>
      split at removed
      next inner => cases removed; exact .inr (.inl ⟨_, inner, rfl⟩)
      next noRight =>
        cases removed
        exact .inr (.inr ⟨removeAt_none noLeft, removeAt_none noRight, rfl, rfl⟩)

theorem removeAt_perm (removed : removeAt turns heap = some (x, rest)) :
    heap.toList.Perm (x :: rest.toList) := by
  induction heap generalizing turns rest with
  | empty => simp [removeAt] at removed
  | node y left right ihLeft ihRight =>
    rcases removeAt_node removed with ⟨smaller, inner, rfl⟩ | ⟨smaller, inner, rfl⟩ |
      ⟨rfl, rfl, rfl, rfl⟩
    · exact (((ihLeft inner).append_right right.toList).cons y).trans (.swap ..)
    · refine (((ihRight inner).append_left left.toList).cons y).trans ?_
      exact (List.perm_middle.cons y).trans (.swap ..)
    · exact .refl _

theorem ordered_removeAt (ordered : heap.Ordered key)
    (removed : removeAt turns heap = some (x, rest)) : rest.Ordered key := by
  induction heap generalizing turns rest with
  | empty => simp [removeAt] at removed
  | node y left right ihLeft ihRight =>
    obtain ⟨least, orderedLeft, orderedRight⟩ := ordered
    rcases removeAt_node removed with ⟨smaller, inner, rfl⟩ | ⟨smaller, inner, rfl⟩ |
      ⟨rfl, rfl, rfl, rfl⟩
    · refine ⟨?_, ihLeft orderedLeft inner, orderedRight⟩
      intro w member
      apply least w
      rcases List.mem_append.mp member with inLeft | inRight
      · have old := (removeAt_perm inner).symm.subset (List.mem_cons_of_mem _ inLeft)
        exact List.mem_append_left _ old
      · exact List.mem_append_right _ inRight
    · refine ⟨?_, orderedLeft, ihRight orderedRight inner⟩
      intro w member
      apply least w
      rcases List.mem_append.mp member with inLeft | inRight
      · exact List.mem_append_left _ inLeft
      · have old := (removeAt_perm inner).symm.subset (List.mem_cons_of_mem _ inRight)
        exact List.mem_append_right _ old
    · trivial

/-- The top stays in its place as long as another element is there. -/
theorem removeAt_top {a b : Heap α} (removed : removeAt turns heap = some (x, node y a b)) :
    heap.top? = some y := by
  cases heap with
  | empty => simp [removeAt] at removed
  | node z left right =>
    rcases removeAt_node removed with ⟨smaller, inner, same⟩ | ⟨smaller, inner, same⟩ |
      ⟨_, _, _, same⟩
    · cases same; rfl
    · cases same; rfl
    · contradiction

theorem top_least {a b : Heap α} (ordered : (node x a b).Ordered key) :
    ∀ z ∈ (node x a b).toList, key x ≤ key z := by
  intro z member
  rcases List.mem_cons.mp member with rfl | inner
  · exact Int.le_refl _
  · exact ordered.1 z inner

/-- What `firstTop?` finds is the top of the side that it names, and no element on either
side comes before it. -/
theorem firstTop?_spec {toRight : Bool} (orderedLeft : left.Ordered key)
    (orderedRight : right.Ordered key) (first : firstTop? key left right = some (toRight, y)) :
    (∃ a b, (if toRight then right else left) = node y a b) ∧
      ∀ z ∈ left.toList ++ right.toList, key y ≤ key z := by
  cases left with
  | empty =>
    cases right with
    | empty => simp [firstTop?, top?] at first
    | node z c d =>
      simp only [firstTop?, top?, Option.some.injEq, Prod.mk.injEq] at first
      obtain ⟨rfl, rfl⟩ := first
      exact ⟨⟨c, d, rfl⟩, top_least orderedRight⟩
  | node w a b =>
    cases right with
    | empty =>
      simp only [firstTop?, top?, Option.some.injEq, Prod.mk.injEq] at first
      obtain ⟨rfl, rfl⟩ := first
      refine ⟨⟨a, b, rfl⟩, ?_⟩
      simpa using top_least orderedLeft
    | node z c d =>
      simp only [firstTop?, top?] at first
      split at first
      next less =>
        cases first
        refine ⟨⟨c, d, rfl⟩, ?_⟩
        intro v member
        rcases List.mem_append.mp member with inLeft | inRight
        · have := top_least orderedLeft v inLeft
          omega
        · exact top_least orderedRight v inRight
      next notLess =>
        cases first
        refine ⟨⟨a, b, rfl⟩, ?_⟩
        intro v member
        rcases List.mem_append.mp member with inLeft | inRight
        · exact top_least orderedLeft v inLeft
        · have := top_least orderedRight v inRight
          omega

theorem firstTop?_none (first : firstTop? key left right = none) :
    left = empty ∧ right = empty := by
  cases left <;> cases right <;> simp [firstTop?, top?] at first ⊢
  split at first <;> contradiction

theorem sink_perm (orderedLeft : left.Ordered key) (orderedRight : right.Ordered key) :
    (sink key x (node y left right)).toList.Perm (x :: (left.toList ++ right.toList)) := by
  generalize whole : node y left right = heap
  induction heap generalizing y left right with
  | empty => contradiction
  | node top l r ihLeft ihRight =>
    cases whole
    simp only [sink]
    split
    · exact .refl _
    next toRight z first =>
      obtain ⟨⟨a, b, side⟩, _⟩ := firstTop?_spec orderedLeft orderedRight first
      split
      · cases toRight with
        | true =>
          simp only [ite_true] at side ⊢
          subst side
          have deeper := ihRight orderedRight.2.1 orderedRight.2.2 rfl
          refine ((deeper.append_left l.toList).cons z).trans ?_
          refine (List.perm_middle.cons z).trans ?_
          refine (List.Perm.swap x z _).trans ?_
          exact List.perm_middle.symm.cons x
        | false =>
          simp only [Bool.false_eq_true, ite_false] at side ⊢
          subst side
          have deeper := ihLeft orderedLeft.2.1 orderedLeft.2.2 rfl
          refine ((deeper.append_right r.toList).cons z).trans ?_
          exact .swap ..
      · exact .refl _

theorem ordered_sink (orderedLeft : left.Ordered key) (orderedRight : right.Ordered key) :
    (sink key x (node y left right)).Ordered key := by
  generalize whole : node y left right = heap
  induction heap generalizing y left right with
  | empty => contradiction
  | node top l r ihLeft ihRight =>
    cases whole
    simp only [sink]
    split
    next first =>
      obtain ⟨rfl, rfl⟩ := firstTop?_none first
      exact ⟨by simp, trivial, trivial⟩
    next toRight z first =>
      obtain ⟨⟨a, b, side⟩, least⟩ := firstTop?_spec orderedLeft orderedRight first
      split
      next less =>
        cases toRight with
        | true =>
          simp only [ite_true] at side ⊢
          subst side
          refine ⟨?_, orderedLeft, ihRight orderedRight.2.1 orderedRight.2.2 rfl⟩
          intro w member
          rcases List.mem_append.mp member with inLeft | inRight
          · exact least w (List.mem_append_left _ inLeft)
          · have perm := sink_perm orderedRight.2.1 orderedRight.2.2 (x := x) (y := z)
            rcases List.mem_cons.mp (perm.subset inRight) with rfl | inner
            · omega
            · exact orderedRight.1 w inner
        | false =>
          simp only [Bool.false_eq_true, ite_false] at side ⊢
          subst side
          refine ⟨?_, ihLeft orderedLeft.2.1 orderedLeft.2.2 rfl, orderedRight⟩
          intro w member
          rcases List.mem_append.mp member with inLeft | inRight
          · have perm := sink_perm orderedLeft.2.1 orderedLeft.2.2 (x := x) (y := z)
            rcases List.mem_cons.mp (perm.subset inLeft) with rfl | inner
            · omega
            · exact orderedLeft.1 w inner
          · exact least w (List.mem_append_right _ inRight)
      next notLess =>
        refine ⟨?_, orderedLeft, orderedRight⟩
        intro w member
        have := least w member
        omega

/-- Taking from a heap gives its least element and leaves the others, as a heap. -/
theorem pop?_spec (ordered : heap.Ordered key) (popped : pop? key turns heap = some (x, rest)) :
    heap.toList.Perm (x :: rest.toList) ∧ rest.Ordered key ∧
      ∀ y ∈ rest.toList, key x ≤ key y := by
  unfold pop? at popped
  split at popped
  · contradiction
  next z removed =>
    cases popped
    exact ⟨removeAt_perm removed, trivial, by simp⟩
  next z top left right removed =>
    cases popped
    have kept := ordered_removeAt ordered removed
    have perm := removeAt_perm removed
    have sunk := sink_perm kept.2.1 kept.2.2 (x := z) (y := x)
    refine ⟨?_, ordered_sink kept.2.1 kept.2.2, ?_⟩
    · refine perm.trans ?_
      exact (List.Perm.swap x z _).trans (sunk.symm.cons x)
    · intro w member
      rcases List.mem_cons.mp (sunk.subset member) with rfl | inner
      · have top := removeAt_top removed
        cases heap with
        | empty => contradiction
        | node first l r =>
          cases top
          exact top_least ordered w (perm.symm.subset (List.mem_cons_self ..))
      · exact kept.1 w inner

theorem pop?_none (popped : pop? key turns heap = none) : heap = empty := by
  unfold pop? at popped
  split at popped
  next removed => exact removeAt_none removed
  all_goals contradiction

theorem pushAll_spec (n : Nat) (xs : List α) (ordered : heap.Ordered key) :
    (pushAll key n heap xs).Ordered key ∧
      (pushAll key n heap xs).toList.Perm (heap.toList ++ xs) := by
  induction xs generalizing n heap with
  | nil => exact ⟨ordered, by simp [pushAll]⟩
  | cons x xs ih =>
    have grown : (insertAt key x (path n) heap).Ordered key := ordered_insertAt ordered
    obtain ⟨kept, perm⟩ := ih (n + 1) grown
    refine ⟨kept, perm.trans ?_⟩
    exact ((insertAt_perm key x (path n) heap).append_right xs).trans List.perm_middle.symm

theorem popAll_spec {n : Nat} (ordered : heap.Ordered key) (size : heap.toList.length = n) :
    (popAll key n heap).Perm heap.toList ∧
      (popAll key n heap).Pairwise fun x y => key x ≤ key y := by
  induction n generalizing heap with
  | zero => simp [popAll, List.eq_nil_of_length_eq_zero size]
  | succ n ih =>
    simp only [popAll]
    split
    next popped => simp [pop?_none popped] at size
    next x rest popped =>
      obtain ⟨perm, kept, least⟩ := pop?_spec ordered popped
      have smaller : rest.toList.length = n := by
        have := perm.length_eq
        simp only [List.length_cons] at this
        omega
      obtain ⟨others, sorted⟩ := ih kept smaller
      refine ⟨(others.cons x).trans perm.symm, List.pairwise_cons.mpr ⟨?_, sorted⟩⟩
      intro y member
      exact least y (others.subset member)

theorem sort_spec (key : α → Int) (xs : List α) :
    (sort key xs).Perm xs ∧ (sort key xs).Pairwise fun x y => key x ≤ key y := by
  have start : (empty : Heap α).Ordered key := trivial
  obtain ⟨ordered, perm⟩ := pushAll_spec 0 xs start
  obtain ⟨taken, sorted⟩ := popAll_spec ordered perm.length_eq
  exact ⟨taken.trans perm, sorted⟩

theorem sort_perm (key : α → Int) (xs : List α) : (sort key xs).Perm xs :=
  (sort_spec key xs).1

/-- A list whose keys rise is in the order in which a heap gives it back. -/
theorem sort_eq_self {xs : List α} (rising : xs.Pairwise fun x y => key x < key y) :
    sort key xs = xs := by
  obtain ⟨perm, sorted⟩ := sort_spec key xs
  refine perm.eq_of_pairwise ?_ sorted (rising.imp Int.le_of_lt)
  intro x y first second below above
  obtain ⟨i, inside, rfl⟩ := List.mem_iff_getElem.mp (perm.subset first)
  obtain ⟨j, inside', rfl⟩ := List.mem_iff_getElem.mp second
  have rises := List.pairwise_iff_getElem.mp rising
  rcases Nat.lt_trichotomy i j with before | rfl | after
  · have := rises i j inside inside' before
    omega
  · rfl
  · have := rises j i inside' inside after
    omega

end Codegen.Heap
