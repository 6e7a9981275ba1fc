import Codegen.Proofs.Flow.Forming
import Codegen.Proofs.Flow.Layout
import Codegen.Select.Func

/-! Where arranged code starts. The first block is lost when it is appended to another one,
which happens exactly if some block can take it and it does not lie on a ring of blocks that
take each other: such a ring is merged from the first block on. -/
namespace Codegen.Flow

open Relation

variable {blocks : List Block} {b next : Block} {k l m : Nat}

def Joins (blocks : List Block) (k l : Nat) : Prop :=
  ∃ b next, Pair blocks b next ∧ b.key = k ∧ next.key = l

theorem Joins.ne (joins : Joins blocks k l) : k ≠ l := by
  obtain ⟨b, next, pair, rfl, rfl⟩ := joins
  exact pair.apart.symm

/-- No two blocks take the same one. -/
theorem Wired.joins_inj (wired : Wired blocks) (first : Joins blocks k m)
    (second : Joins blocks l m) : k = l := by
  obtain ⟨b, next, pair, rfl, rfl⟩ := first
  obtain ⟨b', next', pair', rfl, same⟩ := second
  rw [wired.only_way pair pair'.first (by simp [pair'.succ, same])]

theorem Wired.joins_unique (wired : Wired blocks) (first : Joins blocks k l)
    (second : Joins blocks k m) : l = m := by
  obtain ⟨b, next, pair, rfl, rfl⟩ := first
  obtain ⟨b', next', pair', same, rfl⟩ := second
  obtain rfl := wired.eq_of_key pair'.first pair.first same
  simpa using pair.succ.symm.trans pair'.succ

theorem Pair.joins (pair : Pair blocks b next) : Joins blocks b.key next.key :=
  ⟨b, next, pair, rfl, rfl⟩

/-- After a merge the first block of the pair takes what the second one took before, and the
others what they took. -/
theorem Wired.joins_of_absorb (wired : Wired blocks) (pair : Pair blocks b next)
    (joins : Joins (absorb blocks b next) k l) :
    k ≠ next.key ∧ Joins blocks (if k = b.key then next.key else k) l := by
  obtain ⟨x', y', joined, rfl, rfl⟩ := joins
  obtain ⟨x, inX, apartX, rfl⟩ := mem_absorb.mp joined.first
  obtain ⟨y, inY, apartY, rfl⟩ := mem_absorb.mp joined.second
  have succ := joined.succ
  have pred : y.pred.length = 1 := by simpa using joined.pred
  have goesOn : y.succ ≠ [] := by
    have goesOn := joined.goesOn
    rw [merged_succ] at goesOn
    split at goesOn
    next same =>
      rw [wired.eq_of_key inY pair.first same, pair.succ]
      simp
    next => exact goesOn
  simp only [merged_key, merged_succ] at succ ⊢
  refine ⟨apartX, ?_⟩
  split at succ
  next same =>
    rw [if_pos same]
    exact ⟨next, y, ⟨pair.second, inY, succ, apartY, pred, goesOn⟩, rfl, rfl⟩
  next other =>
    have apart : y.key ≠ x.key := by simpa using joined.apart
    rw [if_neg other]
    exact ⟨x, y, ⟨inX, inY, succ, apart, pred, goesOn⟩, rfl, rfl⟩

theorem Wired.transGen_of_absorb (wired : Wired blocks) (pair : Pair blocks b next)
    (path : TransGen (Joins (absorb blocks b next)) k l) : TransGen (Joins blocks) k l := by
  refine TransGen.closed (fun k l joins => ?_) _ _ path
  have before := (wired.joins_of_absorb pair joins).2
  split at before
  next same => exact same ▸ .tail (.single pair.joins) before
  next => exact .single before

theorem Pair.joins_absorb {x y : Block} (pair : Pair blocks b next) (first : x ∈ blocks)
    (second : y ∈ blocks) (keptX : x.key ≠ next.key) (keptY : y.key ≠ next.key)
    (succ : (merged b next x).succ = [y.key]) (apart : y.key ≠ x.key)
    (pred : y.pred.length = 1) (goesOn : y.succ ≠ []) :
    Joins (absorb blocks b next) x.key y.key := by
  refine ⟨merged b next x, merged b next y, ⟨mem_absorb.mpr ⟨x, first, keptX, rfl⟩,
    mem_absorb.mpr ⟨y, second, keptY, rfl⟩, by simpa using succ, by simpa using apart,
    by simpa using pred, ?_⟩, merged_key .., merged_key ..⟩
  rw [merged_succ]
  split
  · exact pair.goesOn
  · exact goesOn

/-- A merge leaves the other pairs as they are. -/
theorem Wired.joins_absorb_other (wired : Wired blocks) (pair : Pair blocks b next)
    (joins : Joins blocks k l) (first : k ≠ b.key) (second : k ≠ next.key) :
    Joins (absorb blocks b next) k l := by
  have kept : l ≠ next.key := by
    rintro rfl
    exact first (wired.joins_inj joins pair.joins)
  obtain ⟨x, y, joined, rfl, rfl⟩ := joins
  refine pair.joins_absorb joined.first joined.second second kept ?_ joined.apart joined.pred
    joined.goesOn
  rw [merged_succ, if_neg first, joined.succ]

/-- The block that takes another one leads on as that one did. -/
theorem Wired.joins_absorb_first (wired : Wired blocks) (pair : Pair blocks b next)
    (joins : Joins blocks next.key l) (apart : l ≠ b.key) :
    Joins (absorb blocks b next) b.key l := by
  obtain ⟨x, y, joined, same, rfl⟩ := joins
  obtain rfl := wired.eq_of_key joined.first pair.second same
  refine pair.joins_absorb pair.first joined.second pair.apart.symm joined.apart ?_ apart
    joined.pred joined.goesOn
  rw [merged_succ, if_pos rfl, joined.succ]

/-- Leading back to the first block of a pair is not lost by the merge. -/
theorem Wired.transGen_absorb (wired : Wired blocks) (pair : Pair blocks b next)
    (path : TransGen (Joins blocks) k b.key) (kept : k ≠ next.key) :
    k = b.key ∨ TransGen (Joins (absorb blocks b next)) k b.key := by
  induction path using TransGen.head_induction_on with
  | single joins => exact .inr (.single (wired.joins_absorb_other pair joins joins.ne kept))
  | @head k l joins path ih =>
    by_cases same : k = b.key
    · exact .inl same
    · have further := wired.joins_absorb_other pair joins same kept
      have kept' : l ≠ next.key := by
        rintro rfl
        exact same (wired.joins_inj joins pair.joins)
      rcases ih kept' with rfl | path
      · exact .inr (.single further)
      · exact .inr (.head further path)

/-- A ring through the first block of a pair gets shorter by the merge, or closes up. -/
theorem Wired.ring_absorb (wired : Wired blocks) (pair : Pair blocks b next)
    (ring : TransGen (Joins blocks) b.key b.key) :
    Joins blocks next.key b.key ∨ TransGen (Joins (absorb blocks b next)) b.key b.key := by
  obtain ⟨second, joins, path⟩ := TransGen.head'_iff.mp ring
  obtain rfl := wired.joins_unique joins pair.joins
  rcases ReflTransGen.cases_head path with same | ⟨third, joins, path⟩
  · exact absurd same pair.apart
  · by_cases back : third = b.key
    · exact .inl (back ▸ joins)
    · have path : TransGen (Joins blocks) third b.key :=
        (reflTransGen_iff_eq_or_transGen.mp path).resolve_left (Ne.symm back)
      have path := (wired.transGen_absorb pair path joins.ne.symm).resolve_left back
      exact .inr (.head (wired.joins_absorb_first pair joins back) path)

def Safe (blocks : List Block) (entry : Nat) : Prop :=
  (∃ k, Joins blocks k entry) → TransGen (Joins blocks) entry entry

theorem Wired.safe_absorb {e : Block} {rest : List Block} (wired : Wired (e :: rest))
    (found : mergePair? (e :: rest) = some (b, next)) (safe : Safe (e :: rest) e.key) :
    next.key ≠ e.key ∧ Safe (absorb (e :: rest) b next) e.key := by
  have pair := pair_of_mergePair? found
  by_cases taken : ∃ k, Joins (e :: rest) k e.key
  · -- The first block of a ring is the first that can take another one.
    obtain ⟨l, joins, _⟩ := TransGen.head'_iff.mp (safe taken)
    obtain ⟨x, y, joined, same, rfl⟩ := joins
    obtain rfl := wired.eq_of_key joined.first (List.mem_cons_self ..) same
    have first : b = x := by
      simp only [mergePair?, List.findSome?_cons, wired.mergeable?_of_pair joined,
        Option.map_some, Option.some.injEq, Prod.mk.injEq] at found
      exact found.1.symm
    subst first
    refine ⟨pair.apart, ?_⟩
    rintro ⟨k, joins⟩
    rcases wired.ring_absorb pair (safe taken) with closed | ring
    · obtain ⟨kept, before⟩ := wired.joins_of_absorb pair joins
      rw [if_neg joins.ne] at before
      exact absurd (wired.joins_inj before closed) kept
    · exact ring
  · refine ⟨fun same => taken ⟨b.key, same ▸ pair.joins⟩, ?_⟩
    rintro ⟨k, joins⟩
    exact absurd ⟨_, (wired.joins_of_absorb pair joins).2⟩ taken

/-- A safe entry is still the first block after all merges. -/
theorem Wired.entry_kept {e : Block} {rest : List Block} (wired : Wired (e :: rest))
    (safe : Safe (e :: rest) e.key) :
    ∃ first others, (mergeAll (e :: rest)).2 = first :: others ∧ first.key = e.key := by
  have kept := wired.mergeAll_induction (P := fun blocks => ∃ first others,
    blocks = first :: others ∧ first.key = e.key ∧ Safe blocks e.key) ⟨e, rest, rfl, rfl, safe⟩
  obtain ⟨_, first, others, same, key, _⟩ := kept <| by
    rintro _ b next wired found ⟨first, others, rfl, key, safe⟩
    rw [← key] at safe ⊢
    obtain ⟨apart, safe⟩ := wired.safe_absorb found safe
    have same : absorb (first :: others) b next = merged b next first ::
        (others.filter (·.key != next.key)).map (merged b next) := by
      simp [absorb_eq, apart.symm]
    exact ⟨_, _, same, merged_key .., safe⟩
  exact ⟨first, others, same, key⟩

theorem Wired.lost_absorb {entry : Nat} (wired : Wired blocks) (pair : Pair blocks b next)
    (lost : ¬ Safe blocks entry) :
    entry = next.key ∨ ¬ Safe (absorb blocks b next) entry := by
  simp only [Safe, Classical.not_imp] at lost ⊢
  obtain ⟨⟨k, joins⟩, noRing⟩ := lost
  by_cases taken : entry = next.key
  · exact .inl taken
  · refine .inr ⟨?_, fun ring => noRing (wired.transGen_of_absorb pair ring)⟩
    by_cases second : k = next.key
    · have apart : entry ≠ b.key := by
        rintro rfl
        exact noRing (.tail (.single pair.joins) (second ▸ joins))
      exact ⟨b.key, wired.joins_absorb_first pair (second ▸ joins) apart⟩
    · have first : k ≠ b.key := by
        rintro rfl
        exact taken (wired.joins_unique joins pair.joins)
      exact ⟨k, wired.joins_absorb_other pair joins first second⟩

/-- An entry that is not safe is gone after all merges. -/
theorem Wired.entry_lost {entry : Nat} (wired : Wired blocks) (lost : ¬ Safe blocks entry) :
    entry ∉ (mergeAll blocks).2.map Block.key := by
  have gone := wired.mergeAll_induction
    (P := fun blocks => entry ∉ blocks.map Block.key ∨ ¬ Safe blocks entry) (.inr lost)
  obtain ⟨final, gone | lost⟩ := gone <| by
    rintro blocks b next wired found state
    rw [absorb_keys]
    rcases state with gone | lost
    · exact .inl fun inside => gone (List.mem_filter.mp inside).1
    · rcases wired.lost_absorb (pair_of_mergePair? found) lost with rfl | lost
      · exact .inl (by simp)
      · exact .inr lost
  · exact gone
  · simp only [Safe, Classical.not_imp] at lost
    obtain ⟨⟨k, b, next, pair, _⟩, _⟩ := lost
    exact absurd pair (final.no_pair (mergePair?_mergeAll blocks))

end Codegen.Flow

namespace Codegen

def Routine.first? (r : Routine) : Option Instr :=
  r.code.head?.bind r.instr?

namespace Flow

open Relation

/-- The label that heads the block of the first instruction: the instruction itself, or the
label that is made up when `labels` have been before. -/
def entryLabel (labels : Nat) (r : Routine) : Bytes :=
  (r.first?.bind Instr.labelName?).getD (madeUpLabel labels)

variable {s t u : State}

theorem Formed.entry (formed : Formed s t) (nonempty : s.routine.code ≠ []) :
    ∃ e rest, t.routine.blocks = e :: rest ∧ e.label = entryLabel s.labels s.routine := by
  obtain ⟨i, code, starts⟩ := List.exists_cons_of_ne_nil nonempty
  obtain ⟨first, found⟩ := formed.first i (by simp [starts])
  have instr : s.routine.first? = some first.instr := by
    simp [Routine.first?, starts, Routine.instr?, found]
  have cutting := formed.cutting
  rw [starts, linesOf_cons code (formed.keeps.line found)] at cutting
  obtain ⟨p, pieces, same, label⟩ := cutting.first
  obtain ⟨e, rest, blocks, rfl, rfl⟩ := List.map_eq_cons_iff.mp same
  refine ⟨e, rest, blocks, ?_⟩
  simpa [entryLabel, instr, pieceOf] using label

/-- Arranged code starts with the label of the first block that is left. -/
theorem first?_arrange (formed : Formed s t) (lines : SameLines t.routine.entries u.routine.entries)
    (code : u.routine.code = (placementOrder (mergeAll t.routine.blocks).2).flatMap
      (trimmed t.routine.entries)) :
    u.routine.first? = (mergeAll t.routine.blocks).2.head?.map fun b => .label b.label := by
  have sorted := Heap.sort_eq_self formed.rising
  cases merged : (mergeAll t.routine.blocks).2 with
  | nil =>
    rw [merged] at code sorted
    simp [Routine.first?, code, placementOrder, sorted]
  | cons b rest =>
    obtain ⟨i, more, line, starts, found, label⟩ :=
      formed.merged_starts (merged ▸ List.mem_cons_self ..)
    obtain ⟨next, placed, placements⟩ := placements_head b rest
    obtain ⟨trim, head⟩ := trimmed_label starts found label next
    rw [merged] at code sorted
    rw [placementOrder, sorted] at code
    simp only [placements, List.flatMap_cons, head] at code
    have there : lineAt? u.routine.entries i = some line := (lines i).trans found
    obtain ⟨e, entry, rfl⟩ := Option.map_eq_some_iff.mp there
    have instr : e.instr = .label b.label := by
      cases x : e.instr <;> simp_all [Instr.control, Instr.unmarked]
    simp [Routine.first?, code, Routine.instr?, entry, instr]

/-- Arranged code starts with the entry's label, unless another block takes the entry. -/
theorem first?_arrange_eq_entryLabel_iff {labels : Nat} {r : Routine} (nonempty : r.code ≠ [])
    (arranged : run arrange ⟨labels, r⟩ = (.ok (), u)) :
    ∃ t, run formBlocks ⟨labels, r⟩ = (.ok (), t) ∧
      ∃ entry ∈ t.routine.blocks.head?, entry.label = entryLabel labels r ∧
        (u.routine.first? = some (.label (entryLabel labels r)) ↔
          Safe t.routine.blocks entry.key) := by
  obtain ⟨t, made, lines, code⟩ := arrange_code arranged
  have formed := formed_of_run made
  obtain ⟨e, rest, blocks, label⟩ := formed.entry nonempty
  have inside : e ∈ t.routine.blocks := by simp [blocks]
  refine ⟨t, made, e, by simp [blocks], label, ?_⟩
  rw [first?_arrange formed lines code, ← label]
  constructor
  · intro starts
    by_contra lost
    have gone := formed.wired.entry_lost lost
    obtain ⟨b, head, same⟩ := Option.map_eq_some_iff.mp starts
    have member := List.mem_of_mem_head? head
    have key := (formed.merged_label_iff member inside).mp (by simpa using same)
    exact gone (key ▸ List.mem_map_of_mem member)
  · intro safe
    rw [blocks] at safe
    obtain ⟨b, others, merged, key⟩ := (blocks ▸ formed.wired).entry_kept safe
    rw [← blocks] at merged
    have member : b ∈ (mergeAll t.routine.blocks).2 := by simp [merged]
    simp [merged, (formed.merged_label_iff member inside).mpr key]

def ring : Routine :=
  Select.routine { name := ascii "f" } { code :=
    #[.label (ascii "A"), .jump (ascii "B"), .label (ascii "B"), .jump (ascii "A")] }

def ringFirst : Block :=
  { key := 0, id := 0, label := ascii "A", code := [0, 1], jumpTo := [ascii "B"], pred := [1],
    succ := [1] }

def ringSecond : Block :=
  { key := 1, id := 1, label := ascii "B", code := [2, 3], jumpTo := [ascii "A"], pred := [0],
    succ := [0] }

/-- Each of the blocks can take the other, and the first one takes the second. -/
theorem first?_arrange_ring : ∃ t u, ring.code ≠ [] ∧ run formBlocks ⟨0, ring⟩ = (.ok (), t) ∧
    run arrange ⟨0, ring⟩ = (.ok (), u) ∧ u.routine.first? = some (.label (ascii "A")) := by
  have formed : run formBlocks ⟨0, ring⟩ =
      (.ok (), ⟨0, { ring with blocks := [ringFirst, ringSecond], nextBlock := 2 }⟩) := by
    cbv
  have arranged : run arrange ⟨0, ring⟩ = (.ok (), (run arrange ⟨0, ring⟩).2) := by cbv
  have nonempty : ring.code ≠ [] := by decide
  obtain ⟨t, formed', entry, head, label, starts⟩ :=
    first?_arrange_eq_entryLabel_iff nonempty arranged
  cases formed.symm.trans formed'
  cases head
  have there : Pair [ringFirst, ringSecond] ringFirst ringSecond :=
    pair_of_mergeable? (by decide) (by decide)
  have back : Pair [ringFirst, ringSecond] ringSecond ringFirst :=
    pair_of_mergeable? (by decide) (by decide)
  refine ⟨_, _, nonempty, formed, arranged, ?_⟩
  rw [← label] at starts
  exact starts.mpr fun _ => .tail (.single there.joins) back.joins

def loop : Func :=
  { name := ascii "f"
    body := [.label (ascii "A"), .branch (.const 1) (ascii "B") (ascii "C"), .label (ascii "B"),
      .jump (ascii "A"), .label (ascii "C"), .ret .missing] }

/-- The block at the end of the loop leads to the first one alone and takes it. -/
theorem first?_arrange_loop : ∃ r u, Select.generateFunc {} loop = .ok r ∧
    run arrange ⟨0, r⟩ = (.ok (), u) ∧ entryLabel 0 r = ascii "A" ∧
    u.routine.first? = some (.label (ascii "B")) := by
  have generated : Select.generateFunc {} loop = .ok (Select.routine loop { code :=
    #[.label (ascii "A"), .branch (.imm 1) (ascii "B") (ascii "C") [], .label (ascii "B"),
      .jump (ascii "A"), .label (ascii "C"), .ret .absent] }) := by cbv
  refine ⟨_, _, generated, Prod.ext ?_ rfl, ?_, ?_⟩ <;> cbv

end Flow

end Codegen
