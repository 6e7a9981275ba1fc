import Codegen.Flow.Blocks
import Codegen.Flow.Merge
import Mathlib

/-! How blocks are linked to each other. Linking changes nothing but the links, and these
count the ways from one block to another alike at both ends. -/
namespace Codegen.Flow

variable {endLabel label : Bytes} {blocks out : List Block} {b : Block}

theorem bind_ok {α β ε : Type} {x : Except ε α} {f : α → Except ε β} {result : β}
    (done : (x >>= f) = .ok result) : ∃ a, x = .ok a ∧ f a = .ok result := by
  cases x with
  | error e => simp [bind, Except.bind] at done
  | ok a => exact ⟨a, rfl, done⟩

theorem mapM_ok {α β ε : Type} {f : α → Except ε β} {xs : List α} {ys : List β}
    (mapped : xs.mapM f = .ok ys) : List.Forall₂ (fun x y => f x = .ok y) xs ys := by
  induction xs generalizing ys with
  | nil =>
    cases mapped
    exact .nil
  | cons x xs ih =>
    rw [List.mapM_cons] at mapped
    obtain ⟨y, first, mapped⟩ := bind_ok mapped
    obtain ⟨rest, others, mapped⟩ := bind_ok mapped
    cases mapped
    exact .cons first (ih others)

theorem bind_error {α β ε : Type} {x : Except ε α} {f : α → Except ε β} {e : ε}
    (failed : (x >>= f) = .error e) : x = .error e ∨ ∃ a, x = .ok a ∧ f a = .error e := by
  cases x with
  | error e' =>
    cases failed
    exact .inl rfl
  | ok a => exact .inr ⟨a, rfl, failed⟩

theorem mapM_error {α β ε : Type} {f : α → Except ε β} {xs : List α} {e : ε}
    (failed : xs.mapM f = .error e) : ∃ x ∈ xs, f x = .error e := by
  induction xs with
  | nil => contradiction
  | cons x xs ih =>
    rw [List.mapM_cons] at failed
    rcases bind_error failed with first | ⟨y, _, failed⟩
    · exact ⟨x, List.mem_cons_self .., first⟩
    · rcases bind_error failed with others | ⟨ys, _, failed⟩
      · obtain ⟨z, member, fails⟩ := ih others
        exact ⟨z, List.mem_cons_of_mem x member, fails⟩
      · contradiction

theorem nodup_of_duplicate? {seen labels : List Bytes} (unique : duplicate? seen labels = none) :
    labels.Nodup ∧ ∀ label ∈ labels, label ∉ seen := by
  induction labels generalizing seen with
  | nil => simp
  | cons label rest ih =>
    simp only [duplicate?] at unique
    split at unique
    · contradiction
    next unseen =>
      obtain ⟨distinct, apart⟩ := ih unique
      refine ⟨List.nodup_cons.mpr ⟨fun again => apart label again (by simp), distinct⟩, ?_⟩
      refine List.forall_mem_cons.mpr ⟨unseen, fun other inside before => ?_⟩
      exact apart other inside (List.mem_cons_of_mem _ before)

structure Links (endLabel : Bytes) (blocks out : List Block) (b b' : Block) : Prop where
  same : b' = { b with succ := b'.succ, pred := b'.pred }
  succ : successors endLabel blocks b = .ok b'.succ
  pred : b'.pred = predecessors out b'.key

theorem linked_ok (joined : linked endLabel blocks = .ok out) :
    (blocks.map Block.label).Nodup ∧ List.Forall₂ (Links endLabel blocks out) blocks out := by
  unfold linked at joined
  cases repeated : duplicate? [] (blocks.map Block.label) with
  | some label => simp [repeated, bind, Except.bind, throw, throwThe, MonadExceptOf.throw] at joined
  | none =>
    simp only [repeated] at joined
    obtain ⟨middle, mapped, joined⟩ := bind_ok joined
    cases joined
    refine ⟨(nodup_of_duplicate? repeated).1, List.forall₂_map_right_iff.mpr ?_⟩
    refine (mapM_ok mapped).imp ?_
    intro b b' single
    obtain ⟨succ, found, single⟩ := bind_ok single
    cases single
    exact ⟨rfl, found, by simp [predecessors, List.flatMap_map]⟩

/-- All but the links of a block stays as it is. -/
theorem linked_map {α : Type} {f : Block → α} (joined : linked endLabel blocks = .ok out)
    (free : ∀ b succ pred, f { b with succ := succ, pred := pred } = f b) :
    out.map f = blocks.map f := by
  have links := (linked_ok joined).2
  symm
  rw [← List.forall₂_eq_eq_eq, List.forall₂_map_left_iff, List.forall₂_map_right_iff]
  refine links.imp fun b b' link => ?_
  rw [link.same]
  exact (free b _ _).symm

theorem linked_mem (joined : linked endLabel blocks = .ok out) {b' : Block} (member : b' ∈ out) :
    ∃ b ∈ blocks, Links endLabel blocks out b b' := by
  have links := (linked_ok joined).2
  obtain ⟨i, bound, rfl⟩ := List.getElem_of_mem member
  exact ⟨_, List.getElem_mem (links.length_eq ▸ bound), links.get (links.length_eq ▸ bound) bound⟩

theorem linked_concat {init : List Block} (joined : linked endLabel (init ++ [b]) = .ok out) :
    ∃ init' b', out = init' ++ [b'] ∧ Links endLabel (init ++ [b]) out b b' := by
  have links := List.forall₂_reverse_iff.mpr (linked_ok joined).2
  rw [List.reverse_append, List.reverse_singleton, List.singleton_append,
    List.forall₂_cons_left_iff] at links
  obtain ⟨b', others, link, _, same⟩ := links
  exact ⟨others.reverse, b', by simpa using congrArg List.reverse same, link⟩

theorem successors_ok {succ : List Nat} (found : successors endLabel blocks b = .ok succ)
    (member : label ∈ b.jumpTo) (stays : label ≠ endLabel) : label ∈ blocks.map Block.label := by
  have each := mapM_ok found
  have inside : label ∈ b.jumpTo.filter (· != endLabel) := by simp [member, stays]
  obtain ⟨i, bound, rfl⟩ := List.getElem_of_mem inside
  have target := each.get bound (each.length_eq ▸ bound)
  simp only [List.get_eq_getElem] at target
  split at target
  next c first =>
    have same := List.find?_some first
    exact List.mem_map.mpr ⟨c, List.mem_of_find?_eq_some first, eq_of_beq same⟩
  · contradiction

/-- Blocks go only to labels of blocks, or out of the function. -/
theorem linked_jumpTo (joined : linked endLabel blocks = .ok out) (member : b ∈ out)
    (goes : label ∈ b.jumpTo) (stays : label ≠ endLabel) : label ∈ out.map Block.label := by
  rw [linked_map joined fun _ _ _ => rfl]
  obtain ⟨unlinked, _, link⟩ := linked_mem joined member
  refine successors_ok link.succ ?_ stays
  rw [link.same] at goes
  exact goes

/-- Keys differ, and two blocks list the ways from one to the other equally often. -/
structure Wired (blocks : List Block) : Prop where
  keys : (blocks.map Block.key).Nodup
  ways : ∀ b ∈ blocks, ∀ c ∈ blocks, c.pred.count b.key = b.succ.count c.key

theorem count_predecessors (keys : (blocks.map Block.key).Nodup) (member : b ∈ blocks) (key : Nat) :
    (predecessors blocks key).count b.key = b.succ.count key := by
  have others {rest : List Block} (absent : b.key ∉ rest.map Block.key) :
      (predecessors rest key).count b.key = 0 := by
    simp only [predecessors, List.count_eq_zero, List.mem_flatMap, List.mem_replicate]
    rintro ⟨c, inside, _, same⟩
    exact absent (same ▸ List.mem_map_of_mem inside)
  induction blocks with
  | nil => contradiction
  | cons first rest ih =>
    obtain ⟨fresh, keys⟩ := List.nodup_cons.mp keys
    have split : predecessors (first :: rest) key =
        List.replicate (first.succ.count key) first.key ++ predecessors rest key := rfl
    rw [split, List.count_append, List.count_replicate]
    rcases List.mem_cons.mp member with rfl | later
    · simp [others fresh]
    · have apart : first.key ≠ b.key := fun same => fresh (same ▸ List.mem_map_of_mem later)
      simp [apart, ih keys later]

theorem wired_linked (joined : linked endLabel blocks = .ok out)
    (keys : (blocks.map Block.key).Nodup) : Wired out := by
  have keys : (out.map Block.key).Nodup := by
    rwa [linked_map joined fun _ _ _ => rfl]
  refine ⟨keys, fun b first c second => ?_⟩
  obtain ⟨unlinked, _, link⟩ := linked_mem joined second
  rw [link.pred, count_predecessors keys first]

end Codegen.Flow
