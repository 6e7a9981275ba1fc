import Codegen.Proofs.Flow.Chains
import Codegen.Proofs.Flow.Joined

/-! Branches inside blocks. When blocks are formed, only the last instruction of a block goes
elsewhere, and the block lists where. A merge keeps that as long as the first block of the pair
ends with a jump. It may also end with a branch, one side of which leaves the function. -/
namespace Codegen

def Instr.isBranch : Instr → Bool
  | .branch .. => true
  | _ => false

theorem Instr.isBranch_of_inner {x : Instr} (inner : x.endsBlock = false) : x.isBranch = false := by
  cases x <;> first | rfl | contradiction

/-- What ends a block and is no branch is a jump. -/
theorem Instr.targets_of_last {x : Instr} (last : x.endsBlock = true)
    (unbranched : x.isBranch = false) : ∃ target, x.targets = [target] := by
  cases x <;> first | exact ⟨_, rfl⟩ | contradiction

namespace Flow

open Run

section Shape

variable {endLabel : Bytes} {lines : List Line} {jumpTo : List Bytes}

/-- The lines of a block and where it goes: nothing but the last line ends it. -/
inductive Shaped (endLabel : Bytes) : List Line → List Bytes → Prop
  | ends (init : List Line) {last : Line} :
      (∀ line ∈ init, line.instr.endsBlock = false) → last.instr.endsBlock = true →
      Shaped endLabel (init ++ [last]) last.instr.targets
  | leaves {lines : List Line} :
      (∀ line ∈ lines, line.instr.endsBlock = false) → Shaped endLabel lines [endLabel]

theorem Shaped.cons {line : Line} (shaped : Shaped endLabel lines jumpTo)
    (inner : line.instr.endsBlock = false) : Shaped endLabel (line :: lines) jumpTo := by
  cases shaped with
  | ends init before ends =>
    exact .ends (line :: init) (List.forall_mem_cons.mpr ⟨inner, before⟩) ends
  | leaves all => exact .leaves (List.forall_mem_cons.mpr ⟨inner, all⟩)

theorem inner_of_label {x : Instr} {name : Bytes} (label : x.control = .label name) :
    x.endsBlock = false := by
  cases x <;> first | rfl | contradiction

theorem Cutting.shaped {n : Nat} {code : List Line} {tail : Option Tail} {pieces : List Piece}
    (cut : Cutting endLabel n code tail pieces) :
    (∀ t ∈ tail, Shaped endLabel t.lines t.jumpTo) ∧
      ∀ p ∈ pieces, Shaped endLabel p.lines p.jumpTo := by
  induction cut with
  | finished => simp
  | atLabel line label cut ih =>
    refine ⟨by simp, List.forall_mem_cons.mpr ⟨?_, ih.2⟩⟩
    exact (ih.1 _ rfl).cons (inner_of_label label)
  | madeUp i unlabelled cut ih =>
    refine ⟨by simp, List.forall_mem_cons.mpr ⟨?_, ih.2⟩⟩
    exact (ih.1 _ rfl).cons rfl
  | leaves => exact ⟨fun t found => by cases found; exact .leaves (by simp), by simp⟩
  | runsInto i label cut ih =>
    refine ⟨?_, ih.2⟩
    rintro t ⟨⟩
    exact .ends [] (by simp) rfl
  | ends line last cut ih =>
    refine ⟨?_, ih.2⟩
    rintro t ⟨⟩
    exact .ends [] (by simp) last
  | goesOn unlabelled inner cut ih =>
    refine ⟨?_, ih.2⟩
    rintro t ⟨⟩
    exact (ih.1 _ rfl).cons inner

/-- No line but the last ends the block. -/
theorem Shaped.inner (shaped : Shaped endLabel lines jumpTo) :
    ∀ line ∈ lines.dropLast, line.instr.endsBlock = false := by
  intro line inside
  cases shaped with
  | ends init before ends =>
    rw [List.dropLast_concat] at inside
    exact before line inside
  | leaves all => exact all line (List.mem_of_mem_dropLast inside)

/-- No line but the last can be a branch. -/
theorem Shaped.dropLast (shaped : Shaped endLabel lines jumpTo) :
    ∀ line ∈ lines.dropLast, line.instr.isBranch = false :=
  fun line inside => Instr.isBranch_of_inner (shaped.inner line inside)

/-- The block goes wherever its lines go. -/
theorem Shaped.targets (shaped : Shaped endLabel lines jumpTo) :
    ∀ line ∈ lines, ∀ target ∈ line.instr.targets, target ∈ jumpTo := by
  intro line inside target goes
  cases shaped with
  | ends init before ends =>
    rcases List.mem_append.mp inside with inside | inside
    · rw [Instr.targets_of_inner (before line inside)] at goes
      contradiction
    · rwa [List.mem_singleton.mp inside] at goes
  | leaves all =>
    rw [Instr.targets_of_inner (all line inside)] at goes
    contradiction

/-- A block that leads to one other alone, and does not end with a branch, jumps there. -/
theorem Shaped.jumps {label : Bytes} (shaped : Shaped endLabel lines jumpTo)
    (leads : jumpTo.filter (· != endLabel) = [label])
    (unbranched : ∀ line ∈ lines.getLast?, line.instr.isBranch = false) :
    ∀ line ∈ lines,
      line.instr.isBranch = false ∧ ∀ target ∈ line.instr.targets, target = label := by
  cases shaped with
  | @ends init last before ends =>
    obtain ⟨target, single⟩ := Instr.targets_of_last ends (unbranched last (by simp))
    have same : target = label := by
      rw [single] at leads
      have kept : label ∈ [target].filter (· != endLabel) := by simp [leads]
      exact (List.mem_singleton.mp (List.mem_filter.mp kept).1).symm
    intro line inside
    rcases List.mem_append.mp inside with inside | inside
    · have inner := before line inside
      exact ⟨Instr.isBranch_of_inner inner, by simp [Instr.targets_of_inner inner]⟩
    · obtain rfl := List.mem_singleton.mp inside
      exact ⟨unbranched line (by simp), by simp [single, same]⟩
  | leaves all => simp at leads

end Shape

/-- The labels that a block is linked by are those of the blocks that it leads to. -/
theorem leads_of_run {s t : State} {b : Block} (formed : run formBlocks s = (.ok (), t))
    (member : b ∈ t.routine.blocks) :
    List.Forall₂ (fun label key => ∃ c ∈ t.routine.blocks, c.label = label ∧ c.key = key)
      (b.jumpTo.filter (· != s.routine.endLabel)) b.succ := by
  obtain ⟨c, blocks, _, joined, rfl⟩ := formBlocks_ok formed
  obtain ⟨unlinked, _, link⟩ := linked_mem joined member
  have same : b.jumpTo = unlinked.jumpTo := by rw [link.same]
  rw [same]
  refine (mapM_ok link.succ).imp fun label key found => ?_
  split at found
  next target first =>
    cases found
    have names := linked_map (f := fun b => (b.label, b.key)) joined fun _ _ _ => rfl
    have inside : (target.label, target.key) ∈ blocks.map fun b => (b.label, b.key) := by
      rw [names]
      exact List.mem_map_of_mem (List.mem_of_find?_eq_some first)
    obtain ⟨x, member, same⟩ := List.mem_map.mp inside
    obtain ⟨label, key⟩ := Prod.mk.inj same
    exact ⟨x, member, label.trans (eq_of_beq (List.find?_some first :)), key⟩
  next => contradiction

/-- Every branch is the last instruction of the block, and the block goes wherever its code goes,
other than inside. -/
structure Intact (entries : Array Entry) (b : Block) : Prop where
  branches : ∀ line ∈ (linesOf entries b.code).dropLast, line.instr.isBranch = false
  targets : ∀ line ∈ linesOf entries b.code, ∀ target ∈ line.instr.targets,
    target ∈ defined (linesOf entries b.code) ∨ target ∈ b.jumpTo

def EndsInBranch (entries : Array Entry) (b : Block) : Prop :=
  ∃ line ∈ (linesOf entries b.code).getLast?, line.instr.isBranch = true

section Blocks

variable {s t : State} {b next : Block}

theorem Formed.sorted (formed : Formed s t) : Sorted t.routine.blocks := by
  have keys := congrArg (List.map Prod.fst) formed.numbers
  simp only [List.map_map, Function.comp_def] at keys
  rw [Sorted, ← List.pairwise_map, keys]
  simpa using List.pairwise_lt_range

theorem Formed.shaped (formed : Formed s t) (member : b ∈ t.routine.blocks) :
    Shaped s.routine.endLabel (linesOf t.routine.entries b.code) b.jumpTo :=
  formed.cutting.shaped.2 _ (List.mem_map_of_mem member)

theorem Formed.defined (formed : Formed s t) (member : b ∈ t.routine.blocks) :
    defined (linesOf t.routine.entries b.code) = [b.label] :=
  (formed.cutting.headed.2 _ (List.mem_map_of_mem member)).defined

/-- The first block of a pair ends with a branch, or jumps to the second. -/
theorem jumps_of_pair (made : run formBlocks s = (.ok (), t))
    (pair : Pair t.routine.blocks b next) (unbranched : ¬ EndsInBranch t.routine.entries b) :
    ∀ line ∈ linesOf t.routine.entries b.code, line.instr.isBranch = false ∧
      ∀ target ∈ line.instr.targets, target = next.label := by
  have formed := formed_of_run made
  have leads : b.jumpTo.filter (· != s.routine.endLabel) = [next.label] := by
    have links := leads_of_run made pair.first
    rw [pair.succ, List.forall₂_cons_right_iff] at links
    obtain ⟨label, rest, ⟨c, member, rfl, key⟩, nothing, split⟩ := links
    rw [split, List.forall₂_nil_right_iff.mp nothing,
      formed.wired.eq_of_key member pair.second key]
  apply (formed.shaped pair.first).jumps leads
  intro line last
  by_contra branch
  exact unbranched ⟨line, last, by simpa using branch⟩

/-- A chain of blocks, none of which but the last ends with a branch. -/
theorem intact_chain (made : run formBlocks s = (.ok (), t)) {parts : List Block}
    (inside : ∀ p ∈ parts, p ∈ t.routine.blocks) (chain : parts.IsChain (Pair t.routine.blocks))
    (unbranched : ∀ p ∈ parts.tail, ∀ q, Pair t.routine.blocks q p →
      ¬ EndsInBranch t.routine.entries q) :
    (∀ line ∈ (linesOf t.routine.entries (parts.flatMap Block.code)).dropLast,
      line.instr.isBranch = false) ∧
    ∀ line ∈ linesOf t.routine.entries (parts.flatMap Block.code),
      ∀ target ∈ line.instr.targets,
        target ∈ defined (linesOf t.routine.entries (parts.flatMap Block.code)) ∨
          ∃ p ∈ parts.getLast?, target ∈ p.jumpTo := by
  have formed := formed_of_run made
  induction parts with
  | nil => simp
  | cons x parts ih =>
    obtain ⟨member, inside⟩ := List.forall_mem_cons.mp inside
    cases parts with
    | nil =>
      have shaped := formed.shaped member
      simp only [List.flatMap_singleton, List.getLast?_singleton]
      exact ⟨shaped.dropLast, fun line inside target goes =>
        .inr ⟨x, rfl, shaped.targets line inside target goes⟩⟩
    | cons y parts =>
      obtain ⟨pair, chain⟩ := List.isChain_cons_cons.mp chain
      have jumps := jumps_of_pair made pair (unbranched y (by simp) x pair)
      obtain ⟨branches, targets⟩ := ih inside chain fun p later => unbranched p (by simp_all)
      generalize rest : linesOf t.routine.entries ((y :: parts).flatMap Block.code) = lines
        at branches targets
      have labelled : y.label ∈ defined lines := by
        rw [← rest, List.flatMap_cons, linesOf_append, defined_append,
          formed.defined (inside y (by simp))]
        simp
      have nonempty : lines ≠ [] := by
        rintro rfl
        contradiction
      rw [List.flatMap_cons, linesOf_append, rest, List.dropLast_append_of_ne_nil nonempty,
        defined_append, List.getLast?_cons_cons]
      constructor
      · intro line inside
        rcases List.mem_append.mp inside with inside | inside
        · exact (jumps line inside).1
        · exact branches line inside
      · intro line inside target goes
        rcases List.mem_append.mp inside with inside | inside
        · rw [(jumps line inside).2 target goes]
          exact .inl (List.mem_append_right _ labelled)
        · exact (targets line inside target goes).imp_left (List.mem_append_right _)

/-- A branch that another block was appended to is inside the merged block. -/
theorem branch_inside (formed : Formed s t) (before after : List Block)
    (branch : EndsInBranch t.routine.entries b) (member : next ∈ t.routine.blocks) :
    ∃ line ∈ (linesOf t.routine.entries
      ((before ++ [b] ++ next :: after).flatMap Block.code)).dropLast,
      line.instr.isBranch = true := by
  obtain ⟨line, last, isBranch⟩ := branch
  have nonempty : linesOf t.routine.entries ((next :: after).flatMap Block.code) ≠ [] := by
    intro empty
    rw [List.flatMap_cons, linesOf_append] at empty
    have names := formed.defined member
    rw [(List.append_eq_nil_iff.mp empty).1] at names
    contradiction
  refine ⟨line, ?_, isBranch⟩
  rw [List.flatMap_append, linesOf_append, List.dropLast_append_of_ne_nil nonempty,
    List.flatMap_append, linesOf_append, List.flatMap_singleton]
  have inside := List.mem_of_getLast? last
  simp [inside]

/-- Merging keeps branches at the end of their blocks, and the labels of all jumps out of a
block, exactly if no block is appended to one that ends with a branch. Such a pair of blocks is
left alone only if the second one is the first of a ring. -/
theorem intact_mergeUpTo_iff (made : run formBlocks s = (.ok (), t)) :
    (∀ n, ∀ b ∈ mergeUpTo n t.routine.blocks, Intact t.routine.entries b) ↔
      ∀ b next, Pair t.routine.blocks b next → EndsInBranch t.routine.entries b →
        FirstOfRing t.routine.blocks next.key := by
  have formed := formed_of_run made
  constructor
  · intro intact b next pair branch
    by_contra notFirst
    have gone := formed.wired.unkept_mergeAll formed.sorted
      fun kept => notFirst (kept ⟨_, pair.joins⟩)
    obtain ⟨parts, chains⟩ := formed.wired.mergeUpTo_chains (mergeAll t.routine.blocks).1
    have intact := intact (mergeAll t.routine.blocks).1
    rw [mergeUpTo_count] at chains intact
    obtain ⟨key, inside, part⟩ := List.mem_flatMap.mp (chains.perm.mem_iff.mpr pair.second)
    obtain ⟨x, member, rfl⟩ := List.mem_map.mp inside
    obtain ⟨before, after, split⟩ := List.append_of_mem part
    rcases List.eq_nil_or_concat' before with rfl | ⟨before, q, rfl⟩
    · rw [(chains.head x member next (by simp [split])).1] at gone
      exact gone (List.mem_map_of_mem member)
    · have chain := chains.chain x member
      rw [split, List.append_assoc, List.isChain_append] at chain
      have taken : Pair t.routine.blocks q next := (List.isChain_cons_cons.mp chain.2.1).1
      obtain rfl := formed.wired.only_way pair taken.first (by simp [taken.succ])
      obtain ⟨line, inner, isBranch⟩ := branch_inside formed before after branch pair.second
      have unbranched := (intact x member).branches
      rw [chains.code x member, split] at unbranched
      simp [unbranched line inner] at isBranch
  · intro allowed n b member
    obtain ⟨parts, chains⟩ := formed.wired.mergeUpTo_chains n
    have unbranched : ∀ p ∈ (parts b.key).tail, ∀ q, Pair t.routine.blocks q p →
        ¬ EndsInBranch t.routine.entries q := by
      intro p later q pair branch
      have still := formed.wired.kept_mergeUpTo formed.sorted (fun _ => allowed q p pair branch)
        (List.mem_map_of_mem pair.second) n
      exact chains.gone b member p later still
    obtain ⟨branches, targets⟩ :=
      intact_chain made (chains.inside member) (chains.chain b member) unbranched
    rw [← chains.code b member] at branches targets
    refine ⟨branches, fun line inside target goes => ?_⟩
    rcases targets line inside target goes with own | ⟨p, last, goes⟩
    · exact .inl own
    · exact .inr ((chains.last b member p last).2 ▸ goes)

end Blocks

def repeating : Routine :=
  Select.routine { name := ascii "f" } { code :=
    #[.label (ascii "A"), .jump (ascii "B"), .label (ascii "B"),
      .branch (.imm 1) (ascii "A") (ascii "f_end") []] }

def repeatingFirst : Block :=
  { key := 0, id := 0, label := ascii "A", code := [0, 1], jumpTo := [ascii "B"], pred := [1],
    succ := [1] }

def repeatingSecond : Block :=
  { key := 1, id := 1, label := ascii "B", code := [2, 3], jumpTo := [ascii "A", ascii "f_end"],
    pred := [0], succ := [0] }

/-- The first block takes the one with the branch, and cannot be taken by it. -/
theorem intact_mergeUpTo_repeating : ∃ t, run formBlocks ⟨0, repeating⟩ = (.ok (), t) ∧
    EndsInBranch t.routine.entries repeatingSecond ∧
    Pair t.routine.blocks repeatingSecond repeatingFirst ∧
    ∀ n, ∀ b ∈ mergeUpTo n t.routine.blocks, Intact t.routine.entries b := by
  have made : run formBlocks ⟨0, repeating⟩ = (.ok (), ⟨0, { repeating with
      blocks := [repeatingFirst, repeatingSecond], nextBlock := 2 }⟩) := by cbv
  have there : Pair [repeatingFirst, repeatingSecond] repeatingFirst repeatingSecond :=
    pair_of_mergeable? (by decide) (by decide)
  have back : Pair [repeatingFirst, repeatingSecond] repeatingSecond repeatingFirst :=
    pair_of_mergeable? (by decide) (by decide)
  have branch : EndsInBranch repeating.entries repeatingSecond :=
    ⟨⟨3, .branch (.imm 1) (ascii "A") (ascii "f_end") []⟩, by cbv, rfl⟩
  refine ⟨_, made, branch, back, (intact_mergeUpTo_iff made).mpr ?_⟩
  intro b next pair ends
  rcases List.mem_pair.mp pair.first with rfl | rfl
  · have jump : (linesOf repeating.entries repeatingFirst.code).getLast? =
        some ⟨1, .jump (ascii "B")⟩ := by cbv
    obtain ⟨line, last, isBranch⟩ := ends
    cases jump.symm.trans last
    contradiction
  · have key : next.key = 0 := by simpa [repeatingSecond] using pair.succ.symm
    rw [key]
    exact ⟨.tail (.single there.joins) back.joins, fun k _ => Nat.zero_le k⟩

def leaving : Func :=
  { name := ascii "f"
    body := [.branch (.const 1) (ascii "A") (ascii "f_end"), .label (ascii "A"),
      .jump (ascii "B"), .label (ascii "B"), .ret .missing] }

def leavingRoutine : Routine :=
  Select.routine leaving { code :=
    #[.branch (.imm 1) (ascii "A") (ascii "f_end") [], .label (ascii "A"), .jump (ascii "B"),
      .label (ascii "B"), .ret .absent] }

def leavingMerged : Block :=
  { key := 0, id := 0, label := ascii "cfg_added_0", code := [5, 0, 1, 2], jumpTo := [ascii "B"],
    succ := [2] }

theorem intact_mergeUpTo_leaving : ∃ t, Select.generateFunc {} leaving = .ok leavingRoutine ∧
    run formBlocks ⟨0, leavingRoutine⟩ = (.ok (), t) ∧
    leavingMerged ∈ mergeUpTo 1 t.routine.blocks ∧
    (linesOf t.routine.entries leavingMerged.code).map Line.instr =
      [.label (ascii "cfg_added_0"), .branch (.imm 1) (ascii "A") (ascii "f_end") [],
        .label (ascii "A"), .jump (ascii "B")] ∧
    ¬ Intact t.routine.entries leavingMerged := by
  refine ⟨_, by cbv, Prod.ext ?_ rfl, List.mem_of_mem_head? ?_, ?_, fun intact => ?_⟩
  · cbv
  · cbv
  · cbv
  · have inside : (linesOf (run formBlocks ⟨0, leavingRoutine⟩).2.routine.entries
        leavingMerged.code).dropLast[1]? =
        some ⟨0, .branch (.imm 1) (ascii "A") (ascii "f_end") []⟩ := by cbv
    exact absurd (intact.branches _ (List.mem_of_getElem? inside)) (by decide)

end Flow

end Codegen
