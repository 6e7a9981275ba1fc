import Codegen.Proofs.Flow.Wiring

/-! What merging does to blocks. Each merge keeps the links consistent, so that the pair it
takes is always a block and the only block that leads to another. A merged block consists
of blocks that there were, one after the other. -/
namespace Codegen.Flow

variable {blocks : List Block} {b next : Block} {k l : Nat}

structure Pair (blocks : List Block) (b next : Block) : Prop where
  first : b ∈ blocks
  second : next ∈ blocks
  succ : b.succ = [next.key]
  apart : next.key ≠ b.key
  pred : next.pred.length = 1
  goesOn : next.succ ≠ []

theorem Wired.eq_of_key {x y : Block} (wired : Wired blocks) (first : x ∈ blocks)
    (second : y ∈ blocks) (same : x.key = y.key) : x = y :=
  List.inj_on_of_nodup_map wired.keys first second same

theorem Wired.find?_key (wired : Wired blocks) (member : b ∈ blocks) :
    find? blocks b.key = some b := by
  cases found : find? blocks b.key with
  | none => simpa using List.find?_eq_none.mp found b member
  | some c =>
    have same : c.key = b.key := eq_of_beq (List.find?_some found :)
    rw [wired.eq_of_key (List.mem_of_find?_eq_some found) member same]

theorem pair_of_mergeable? (member : b ∈ blocks) (found : mergeable? blocks b = some next) :
    Pair blocks b next := by
  unfold mergeable? at found
  split at found
  next key only =>
    obtain ⟨found, tests⟩ := Option.filter_eq_some_iff.mp found
    have same : next.key = key := eq_of_beq (List.find?_some found :)
    simp only [Bool.and_eq_true, bne_iff_ne, beq_iff_eq, Bool.not_eq_true',
      List.isEmpty_eq_false_iff] at tests
    obtain ⟨⟨apart, pred⟩, goesOn⟩ := tests
    exact ⟨member, List.mem_of_find?_eq_some found, by rw [only, same], apart, pred, goesOn⟩
  · contradiction

theorem Wired.mergeable?_of_pair (wired : Wired blocks) (pair : Pair blocks b next) :
    mergeable? blocks b = some next := by
  simp [mergeable?, pair.succ, wired.find?_key pair.second, pair.apart, pair.pred, pair.goesOn]

theorem pair_of_mergePair? (found : mergePair? blocks = some (b, next)) : Pair blocks b next := by
  obtain ⟨c, member, found⟩ := List.exists_of_findSome?_eq_some found
  obtain ⟨n, found, same⟩ := Option.map_eq_some_iff.mp found
  cases same
  exact pair_of_mergeable? member found

theorem Wired.no_pair (wired : Wired blocks) (none : mergePair? blocks = none) :
    ¬ Pair blocks b next := by
  intro pair
  have absent := List.findSome?_eq_none_iff.mp none b pair.first
  simp [wired.mergeable?_of_pair pair] at absent

/-- Nothing but the first block of a pair leads to the second. -/
theorem Wired.only_way (wired : Wired blocks) (pair : Pair blocks b next) {x : Block}
    (member : x ∈ blocks) (leads : next.key ∈ x.succ) : x = b := by
  have fromFirst : next.pred.count b.key = 1 := by
    rw [wired.ways b pair.first next pair.second, pair.succ]
    simp
  have fromOther : 0 < next.pred.count x.key := by
    rw [wired.ways x member next pair.second]
    exact List.count_pos_iff.mpr leads
  obtain ⟨p, single⟩ := List.length_eq_one_iff.mp pair.pred
  simp only [single, List.count_singleton] at fromFirst fromOther
  apply wired.eq_of_key member pair.first
  grind

def merged (b next x : Block) : Block :=
  let pred := x.pred.map fun key => if key = next.key then b.key else key
  if x.key = b.key then
    { x with pred, code := x.code ++ next.code, jumpTo := next.jumpTo, succ := next.succ }
  else
    { x with pred }

theorem absorb_eq (blocks : List Block) (b next : Block) :
    absorb blocks b next = (blocks.filter (·.key != next.key)).map (merged b next) := rfl

theorem mem_absorb {y : Block} : y ∈ absorb blocks b next ↔
    ∃ x ∈ blocks, x.key ≠ next.key ∧ merged b next x = y := by
  simp [absorb_eq, and_assoc]

@[simp] theorem merged_key (b next x : Block) : (merged b next x).key = x.key := by
  unfold merged
  split <;> rfl

@[simp] theorem merged_id (b next x : Block) : (merged b next x).id = x.id := by
  unfold merged
  split <;> rfl

@[simp] theorem merged_label (b next x : Block) : (merged b next x).label = x.label := by
  unfold merged
  split <;> rfl

@[simp] theorem merged_pred (b next x : Block) : (merged b next x).pred =
    x.pred.map fun key => if key = next.key then b.key else key := by
  unfold merged
  split <;> rfl

theorem merged_succ (b next x : Block) :
    (merged b next x).succ = if x.key = b.key then next.succ else x.succ := by
  unfold merged
  split <;> rfl

theorem merged_code (b next x : Block) :
    (merged b next x).code = if x.key = b.key then x.code ++ next.code else x.code := by
  unfold merged
  split <;> rfl

theorem absorb_keys (blocks : List Block) (b next : Block) :
    (absorb blocks b next).map Block.key = (blocks.map Block.key).filter (· != next.key) := by
  simp [absorb_eq, List.filter_map, Function.comp_def]

theorem count_redirected {keys : List Nat} {old new key : Nat} (other : key ≠ old) :
    (keys.map fun k => if k = old then new else k).count key =
      keys.count key + if key = new then keys.count old else 0 := by
  induction keys with
  | nil => simp
  | cons k keys ih =>
    simp only [List.map_cons, List.count_cons, ih, beq_iff_eq]
    grind

theorem Wired.after_absorb (wired : Wired blocks) (pair : Pair blocks b next) :
    Wired (absorb blocks b next) := by
  refine ⟨absorb_keys blocks b next ▸ wired.keys.filter _, ?_⟩
  intro x' first y' second
  obtain ⟨x, inX, apartX, rfl⟩ := mem_absorb.mp first
  obtain ⟨y, inY, apartY, rfl⟩ := mem_absorb.mp second
  have ways := wired.ways x inX y inY
  simp only [merged_key, merged_pred, merged_succ, count_redirected apartX]
  split
  next same =>
    -- The first block led to the second only, and now leads to where that one led.
    obtain rfl := wired.eq_of_key inX pair.first same
    have direct : y.pred.count x.key = 0 := by
      rw [ways, pair.succ]
      simp [Ne.symm apartY]
    rw [direct, wired.ways next pair.second y inY, Nat.zero_add]
  next => exact ways

theorem mergeAll_eq_none (none : mergePair? blocks = none) : mergeAll blocks = (0, blocks) := by
  rw [mergeAll]
  split
  · rfl
  · simp_all

theorem mergeAll_eq_some (found : mergePair? blocks = some (b, next)) : mergeAll blocks =
    ((mergeAll (absorb blocks b next)).1 + 1, (mergeAll (absorb blocks b next)).2) := by
  rw [mergeAll]
  split
  · simp_all
  next b' next' found' =>
    cases found.symm.trans found'
    rfl

theorem mergeAll_none (none : mergePair? blocks = none) : (mergeAll blocks).2 = blocks := by
  rw [mergeAll_eq_none none]

theorem mergeAll_some (found : mergePair? blocks = some (b, next)) :
    (mergeAll blocks).2 = (mergeAll (absorb blocks b next)).2 := by
  rw [mergeAll_eq_some found]

/-- What every merge keeps holds after all of them. -/
theorem Wired.mergeAll_induction {P : List Block → Prop} (wired : Wired blocks) (start : P blocks)
    (step : ∀ blocks b next, Wired blocks → mergePair? blocks = some (b, next) → P blocks →
      P (absorb blocks b next)) :
    Wired (mergeAll blocks).2 ∧ P (mergeAll blocks).2 := by
  induction blocks using mergeAll.induct with
  | case1 blocks none =>
    rw [mergeAll_none none]
    exact ⟨wired, start⟩
  | case2 blocks b next found _ _ _ _ ih =>
    rw [mergeAll_some found]
    exact ih (wired.after_absorb (pair_of_mergePair? found)) (step blocks b next wired found start)

theorem Wired.after_mergeAll (wired : Wired blocks) : Wired (mergeAll blocks).2 :=
  (wired.mergeAll_induction (P := fun _ => True) trivial fun _ _ _ _ _ _ => trivial).1

theorem mergePair?_mergeAll (blocks : List Block) : mergePair? (mergeAll blocks).2 = none := by
  induction blocks using mergeAll.induct with
  | case1 blocks none => rwa [mergeAll_none none]
  | case2 blocks b next found _ _ _ _ ih => rwa [mergeAll_some found]

structure Parts (blocks merged : List Block) (parts : Nat → List Block) : Prop where
  perm : ((merged.map Block.key).flatMap parts).Perm blocks
  code : ∀ b ∈ merged, b.code = (parts b.key).flatMap Block.code
  label : ∀ b ∈ merged, (parts b.key).head?.map Block.label = some b.label

/-- Merged blocks have the instructions that there were. -/
theorem Parts.code_perm {merged : List Block} {parts : Nat → List Block}
    (whole : Parts blocks merged parts) :
    (merged.flatMap Block.code).Perm (blocks.flatMap Block.code) := by
  refine .trans (.of_eq ?_) (whole.perm.flatMap_right Block.code)
  rw [List.flatMap_assoc, List.flatMap_map]
  exact List.flatMap_congr whole.code

theorem Wired.parts (wired : Wired blocks) :
    Parts blocks blocks fun key => (find? blocks key).toList := by
  have single {b : Block} (member : b ∈ blocks) : (find? blocks b.key).toList = [b] := by
    rw [wired.find?_key member, Option.toList]
  refine ⟨?_, fun b member => by simp [single member], fun b member => by simp [single member]⟩
  rw [List.flatMap_map, List.flatMap_congr fun b member => single member]
  simp

theorem Parts.after_absorb {merged : List Block} {parts : Nat → List Block}
    (whole : Parts blocks merged parts) (wired : Wired merged) (pair : Pair merged b next) :
    Parts blocks (absorb merged b next)
      fun key => if key = b.key then parts b.key ++ parts next.key else parts key := by
  refine ⟨?_, ?_, ?_⟩
  · refine .trans ?_ whole.perm
    rw [absorb_keys, ← wired.keys.erase_eq_filter]
    have first : b.key ∈ (merged.map Block.key).erase next.key :=
      (List.mem_erase_of_ne pair.apart.symm).mpr (List.mem_map_of_mem pair.first)
    have second : next.key ∈ merged.map Block.key := List.mem_map_of_mem pair.second
    have others : ∀ key ∈ ((merged.map Block.key).erase next.key).erase b.key, key ≠ b.key :=
      fun key inside same => (wired.keys.erase next.key).not_mem_erase (same ▸ inside)
    refine ((List.perm_cons_erase first).flatMap_right _).trans ?_
    refine .trans ?_ ((List.perm_cons_erase second).flatMap_right parts).symm
    refine .trans ?_ (((List.perm_cons_erase first).flatMap_right parts).symm.append_left _)
    simp only [List.flatMap_cons, if_true]
    rw [List.flatMap_congr fun key inside => if_neg (others key inside), ← List.append_assoc]
    exact List.perm_append_comm.append_right _
  · intro x member
    obtain ⟨x, inside, apart, rfl⟩ := mem_absorb.mp member
    rw [merged_key, merged_code]
    split
    next same =>
      rw [← same, List.flatMap_append, ← whole.code x inside, ← whole.code next pair.second]
    next => exact whole.code x inside
  · intro x member
    obtain ⟨x, inside, apart, rfl⟩ := mem_absorb.mp member
    rw [merged_key, merged_label, ← whole.label x inside]
    split
    next same =>
      have nonempty := whole.label x inside
      cases parts' : parts x.key with
      | nil => simp [parts'] at nonempty
      | cons first rest => simp [← same, parts']
    next => rfl

theorem Wired.mergeAll_parts (wired : Wired blocks) :
    ∃ parts, Parts blocks (mergeAll blocks).2 parts := by
  refine (wired.mergeAll_induction (P := fun merged => ∃ parts, Parts blocks merged parts)
    ⟨_, wired.parts⟩ ?_).2
  rintro merged b next wired found ⟨parts, whole⟩
  exact ⟨_, whole.after_absorb wired (pair_of_mergePair? found)⟩

/-- What no merge changes in a block comes in the same order as before. -/
theorem Wired.mergeAll_sublist {α : Type} {f : Block → α} (wired : Wired blocks)
    (free : ∀ b next x, f (merged b next x) = f x) :
    ((mergeAll blocks).2.map f).Sublist (blocks.map f) := by
  refine (wired.mergeAll_induction (P := fun merged => (merged.map f).Sublist (blocks.map f))
    (.refl _) ?_).2
  intro current b next wired found sublist
  refine .trans ?_ sublist
  have same : f ∘ merged b next = f := funext (free b next)
  rw [absorb_eq, List.map_map, same]
  exact List.filter_sublist.map f

end Codegen.Flow
