import Codegen.Proofs.Flow.Entry

/-! What is merged into what. A merged block is a chain of blocks, each of which can take the
next. A block that another one can take stays by itself only if it is the first one of a ring
of blocks that take each other. -/
namespace Codegen.Flow

open Relation

variable {blocks : List Block} {b next : Block} {e k l m : Nat}

/-- Merges a number of times, or as long as there is a pair. -/
def mergeUpTo : Nat → List Block → List Block
  | 0, blocks => blocks
  | n + 1, blocks =>
    match mergePair? blocks with
    | none => blocks
    | some (b, next) => mergeUpTo n (absorb blocks b next)

theorem mergeUpTo_count (blocks : List Block) :
    mergeUpTo (mergeAll blocks).1 blocks = (mergeAll blocks).2 := by
  induction blocks using mergeAll.induct with
  | case1 blocks none => rw [mergeAll_eq_none none, mergeUpTo]
  | case2 blocks b next found _ _ _ _ ih =>
    rw [mergeAll_eq_some found, mergeUpTo, found]
    exact ih

/-- What every merge keeps holds after any number of them. -/
theorem Wired.mergeUpTo_induction {P : List Block → Prop} (wired : Wired blocks) (start : P blocks)
    (step : ∀ blocks b next, Wired blocks → mergePair? blocks = some (b, next) → P blocks →
      P (absorb blocks b next)) (n : Nat) : P (mergeUpTo n blocks) := by
  induction n generalizing blocks with
  | zero => exact start
  | succ n ih =>
    rw [mergeUpTo]
    split
    next => exact start
    next b next found =>
      exact ih (wired.after_absorb (pair_of_mergePair? found))
        (step blocks b next wired found start)

section Rings

/-- The block of a key is the first one of a ring of blocks that take each other. -/
def FirstOfRing (blocks : List Block) (e : Nat) : Prop :=
  TransGen (Joins blocks) e e ∧ ∀ k, TransGen (Joins blocks) e k → e ≤ k

/-- No block takes it, or it is the first one of a ring. -/
def Kept (blocks : List Block) (e : Nat) : Prop :=
  (∃ k, Joins blocks k e) → FirstOfRing blocks e

def Sorted (blocks : List Block) : Prop :=
  blocks.Pairwise fun x y => x.key < y.key

theorem Sorted.after_absorb (sorted : Sorted blocks) (b next : Block) :
    Sorted (absorb blocks b next) := by
  rw [absorb_eq, Sorted, List.pairwise_map]
  simp only [merged_key]
  exact List.Pairwise.filter _ sorted

/-- The first block that can take another one does. -/
theorem Wired.mergePair?_first (wired : Wired blocks) (sorted : Sorted blocks)
    (found : mergePair? blocks = some (b, next)) (joins : Joins blocks k l) : b.key ≤ k := by
  obtain ⟨x, y, pair, rfl, rfl⟩ := joins
  obtain ⟨before, first, after, split, taken, none⟩ := List.findSome?_eq_some_iff.mp found
  obtain ⟨_, _, same⟩ := Option.map_eq_some_iff.mp taken
  cases same
  have later : x ∉ before := by
    intro inside
    simpa [wired.mergeable?_of_pair pair] using none x inside
  have member := pair.first
  rw [split] at member sorted
  rcases List.mem_append.mp member with inside | inside
  · contradiction
  · rcases List.mem_cons.mp inside with rfl | inside
    · exact Nat.le_refl _
    · have rest := (List.pairwise_append.mp sorted).2.1
      exact Nat.le_of_lt ((List.pairwise_cons.mp rest).1 x inside)

/-- A ring leads back from each of its blocks. -/
theorem Wired.ring_back (wired : Wired blocks) (ring : TransGen (Joins blocks) e e)
    (path : TransGen (Joins blocks) e k) : TransGen (Joins blocks) k e := by
  have further {k l : Nat} (back : TransGen (Joins blocks) k e) (joins : Joins blocks k l) :
      TransGen (Joins blocks) l e := by
    obtain ⟨l', joins', path⟩ := TransGen.head'_iff.mp back
    obtain rfl := wired.joins_unique joins joins'
    rcases reflTransGen_iff_eq_or_transGen.mp path with rfl | path
    · exact ring
    · exact path
  induction path with
  | single joins => exact further ring joins
  | tail _ joins ih => exact further ih joins

/-- A path is left by a merge, also if the pair lies on it. -/
theorem Wired.path_absorb (wired : Wired blocks) (pair : Pair blocks b next)
    (unclosed : ¬ Joins blocks next.key b.key) (path : TransGen (Joins blocks) k l)
    (kept : k ≠ next.key) :
    (l ≠ next.key → TransGen (Joins (absorb blocks b next)) k l) ∧
      (l = next.key → k = b.key ∨ TransGen (Joins (absorb blocks b next)) k b.key) := by
  have other {k l : Nat} (joins : Joins blocks k l) (first : k ≠ next.key) (second : l ≠ next.key) :
      Joins (absorb blocks b next) k l := by
    refine wired.joins_absorb_other pair joins ?_ first
    rintro rfl
    exact second (wired.joins_unique joins pair.joins)
  induction path with
  | single joins =>
    refine ⟨fun apart => .single (other joins kept apart), ?_⟩
    rintro rfl
    exact .inl (wired.joins_inj joins pair.joins)
  | @tail l m path joins ih =>
    -- Where the path passes through the second block, it came from the first one.
    by_cases through : l = next.key
    · subst through
      have back : m ≠ b.key := by
        rintro rfl
        exact unclosed joins
      have further := wired.joins_absorb_first pair joins back
      refine ⟨fun _ => ?_, fun same => absurd same joins.ne.symm⟩
      rcases ih.2 rfl with rfl | path
      · exact .single further
      · exact path.tail further
    · have path := ih.1 through
      refine ⟨fun apart => path.tail (other joins through apart), ?_⟩
      rintro rfl
      obtain rfl := wired.joins_inj joins pair.joins
      exact .inr path

/-- A path is apart from a pair that closes up. -/
theorem Wired.path_apart (wired : Wired blocks) (pair : Pair blocks b next)
    (closed : Joins blocks next.key b.key) (path : TransGen (Joins blocks) k l)
    (first : k ≠ b.key) (second : k ≠ next.key) :
    l ≠ b.key ∧ l ≠ next.key ∧ TransGen (Joins (absorb blocks b next)) k l := by
  have further {k l : Nat} (joins : Joins blocks k l) (first : k ≠ b.key) (second : k ≠ next.key) :
      l ≠ b.key ∧ l ≠ next.key ∧ Joins (absorb blocks b next) k l := by
    refine ⟨?_, ?_, wired.joins_absorb_other pair joins first second⟩
    · rintro rfl
      exact second (wired.joins_inj joins closed)
    · rintro rfl
      exact first (wired.joins_inj joins pair.joins)
  induction path with
  | single joins =>
    obtain ⟨apart, apart', joins⟩ := further joins first second
    exact ⟨apart, apart', .single joins⟩
  | tail _ joins ih =>
    obtain ⟨apart, apart', path⟩ := ih
    obtain ⟨apart, apart', joins⟩ := further joins apart apart'
    exact ⟨apart, apart', path.tail joins⟩

/-- The first block of a ring is not merged into another one, and stays the first. -/
theorem Wired.kept_absorb (wired : Wired blocks) (sorted : Sorted blocks)
    (found : mergePair? blocks = some (b, next)) (kept : Kept blocks e) :
    next.key ≠ e ∧ Kept (absorb blocks b next) e := by
  have pair := pair_of_mergePair? found
  by_cases taken : ∃ k, Joins blocks k e
  · obtain ⟨ring, least⟩ := kept taken
    have apart : e ≠ next.key := by
      rintro rfl
      obtain ⟨l, joins, _⟩ := TransGen.head'_iff.mp ring
      obtain ⟨k, path, last⟩ := TransGen.tail'_iff.mp ring
      obtain rfl := wired.joins_inj last pair.joins
      have before := wired.mergePair?_first sorted found joins
      rcases reflTransGen_iff_eq_or_transGen.mp path with same | path
      · exact pair.apart same.symm
      · exact pair.apart (Nat.le_antisymm (least _ path) before)
    refine ⟨apart.symm, fun takenStill => ⟨?_, fun k path => ?_⟩⟩
    · by_cases closed : Joins blocks next.key b.key
      · by_cases first : e = b.key
        · -- The ring has closed up, and nothing takes its block any more.
          subst first
          obtain ⟨k, joins⟩ := takenStill
          obtain ⟨other, joins'⟩ := wired.joins_of_absorb pair joins
          rw [if_neg joins.ne] at joins'
          exact absurd (wired.joins_inj joins' closed) other
        · exact (wired.path_apart pair closed ring first apart).2.2
      · exact (wired.path_absorb pair closed ring apart).1 apart
    · exact least k (wired.transGen_of_absorb pair path)
  · refine ⟨?_, ?_⟩
    · rintro rfl
      exact taken ⟨_, pair.joins⟩
    · rintro ⟨k, joins⟩
      exact absurd ⟨_, (wired.joins_of_absorb pair joins).2⟩ taken

theorem Wired.kept_mergeUpTo (wired : Wired blocks) (sorted : Sorted blocks) (kept : Kept blocks e)
    (member : e ∈ blocks.map Block.key) (n : Nat) : e ∈ (mergeUpTo n blocks).map Block.key := by
  have invariant := wired.mergeUpTo_induction
    (P := fun blocks => Sorted blocks ∧ Kept blocks e ∧ e ∈ blocks.map Block.key)
    ⟨sorted, kept, member⟩ ?_ n
  · exact invariant.2.2
  · rintro blocks b next wired found ⟨sorted, kept, member⟩
    obtain ⟨apart, kept⟩ := wired.kept_absorb sorted found kept
    refine ⟨sorted.after_absorb b next, kept, ?_⟩
    rw [absorb_keys]
    exact List.mem_filter.mpr ⟨member, by simpa using apart.symm⟩

/-- Another block on a ring stays behind the first one. -/
theorem Wired.ring_absorb_behind (wired : Wired blocks) (sorted : Sorted blocks)
    (found : mergePair? blocks = some (b, next)) (apart : e ≠ next.key)
    (ring : TransGen (Joins blocks) e e) (path : TransGen (Joins blocks) e m) (behind : m < e) :
    TransGen (Joins (absorb blocks b next)) e e ∧
      ∃ m, TransGen (Joins (absorb blocks b next)) e m ∧ m < e := by
  have pair := pair_of_mergePair? found
  obtain ⟨l, joins, _⟩ := TransGen.head'_iff.mp (wired.ring_back ring path)
  have before := wired.mergePair?_first sorted found joins
  have other : e ≠ b.key := by omega
  by_cases closed : Joins blocks next.key b.key
  · obtain ⟨_, _, ring⟩ := wired.path_apart pair closed ring other apart
    obtain ⟨_, _, path⟩ := wired.path_apart pair closed path other apart
    exact ⟨ring, m, path, behind⟩
  · refine ⟨(wired.path_absorb pair closed ring apart).1 apart, ?_⟩
    obtain ⟨around, through⟩ := wired.path_absorb pair closed path apart
    by_cases same : m = next.key
    · exact ⟨b.key, (through same).resolve_left other, by omega⟩
    · exact ⟨m, around same, behind⟩

theorem Wired.unkept_absorb (wired : Wired blocks) (sorted : Sorted blocks)
    (found : mergePair? blocks = some (b, next)) (unkept : ¬ Kept blocks e) :
    e = next.key ∨ ¬ Kept (absorb blocks b next) e := by
  have pair := pair_of_mergePair? found
  obtain ⟨taken, notFirst⟩ := Classical.not_imp.mp unkept
  by_cases same : e = next.key
  · exact .inl same
  refine .inr fun kept => ?_
  by_cases ring : TransGen (Joins blocks) e e
  · obtain ⟨m, path, behind⟩ : ∃ m, TransGen (Joins blocks) e m ∧ m < e := by
      simpa [FirstOfRing, ring] using notFirst
    obtain ⟨ring, m, path, behind⟩ :=
      wired.ring_absorb_behind sorted found same ring path behind
    obtain ⟨k, _, joins⟩ := TransGen.tail'_iff.mp ring
    have first := (kept ⟨k, joins⟩).2 m path
    omega
  · have lost := wired.lost_absorb pair fun safe : Safe blocks e => ring (safe taken)
    exact lost.resolve_left same fun taken => (kept taken).1

/-- A block that another one can take is gone after all merges, unless it is the first one of a
ring. -/
theorem Wired.unkept_mergeAll (wired : Wired blocks) (sorted : Sorted blocks)
    (unkept : ¬ Kept blocks e) : e ∉ (mergeAll blocks).2.map Block.key := by
  obtain ⟨final, _, gone | unkept⟩ := wired.mergeAll_induction
    (P := fun blocks => Sorted blocks ∧ (e ∉ blocks.map Block.key ∨ ¬ Kept blocks e))
    ⟨sorted, .inr unkept⟩ <| by
      rintro blocks b next wired found ⟨sorted, state⟩
      refine ⟨sorted.after_absorb b next, ?_⟩
      rw [absorb_keys]
      rcases state with gone | unkept
      · exact .inl fun inside => gone (List.mem_filter.mp inside).1
      · rcases wired.unkept_absorb sorted found unkept with rfl | unkept
        · exact .inl (by simp)
        · exact .inr unkept
  · exact gone
  · obtain ⟨⟨k, b, next, pair, _⟩, _⟩ := Classical.not_imp.mp unkept
    exact absurd pair (final.no_pair (mergePair?_mergeAll blocks))

end Rings

section Chains

variable {current : List Block} {parts : Nat → List Block}

/-- Merged blocks consist of blocks, each of which can take the next one. -/
structure Chains (blocks current : List Block) (parts : Nat → List Block) : Prop
    extends Parts blocks current parts where
  chain : ∀ x ∈ current, (parts x.key).IsChain (Pair blocks)
  head : ∀ x ∈ current, ∀ p ∈ (parts x.key).head?, p.key = x.key ∧ p.pred.length = x.pred.length
  last : ∀ x ∈ current, ∀ p ∈ (parts x.key).getLast?, p.succ = x.succ ∧ p.jumpTo = x.jumpTo
  gone : ∀ x ∈ current, ∀ p ∈ (parts x.key).tail, p.key ∉ current.map Block.key

theorem Chains.ne_nil (chains : Chains blocks current parts) (member : b ∈ current) :
    parts b.key ≠ [] := by
  intro empty
  simpa [empty] using chains.label b member

theorem Chains.inside (chains : Chains blocks current parts) (member : b ∈ current) :
    ∀ p ∈ parts b.key, p ∈ blocks :=
  fun _ inside =>
    chains.perm.mem_iff.mp (List.mem_flatMap_of_mem (List.mem_map_of_mem member) inside)

theorem Wired.chains (wired : Wired blocks) :
    Chains blocks blocks fun key => (find? blocks key).toList := by
  have single {b : Block} (member : b ∈ blocks) : (find? blocks b.key).toList = [b] := by
    rw [wired.find?_key member, Option.toList]
  refine { wired.parts with chain := ?_, head := ?_, last := ?_, gone := ?_ }
  all_goals
    intro x member
    simp [single member]

/-- The last block of a chain can take the first one of the chain that is appended. -/
theorem Chains.joint (chains : Chains blocks current parts) (wired : Wired blocks)
    (pair : Pair current b next) {x y : Block} (last : x ∈ (parts b.key).getLast?)
    (first : y ∈ (parts next.key).head?) : Pair blocks x y := by
  have insideX := chains.inside pair.first x (List.mem_of_getLast? last)
  have insideY := chains.inside pair.second y (List.mem_of_mem_head? first)
  obtain ⟨succ, _⟩ := chains.last b pair.first x last
  obtain ⟨key, pred⟩ := chains.head next pair.second y first
  have leads : x.succ = [y.key] := by rw [succ, pair.succ, key]
  have goesOn : y.succ ≠ [] := by
    have chain := chains.chain next pair.second
    obtain ⟨rest, split⟩ := List.head?_eq_some_iff.mp first
    cases rest with
    | nil =>
      rw [(chains.last next pair.second y (by simp [split])).1]
      exact pair.goesOn
    | cons z rest =>
      rw [split, List.isChain_cons_cons] at chain
      simp [chain.1.succ]
  have apart : y.key ≠ x.key := by
    -- Otherwise the last block would lead to itself, and it is taken by one before it.
    intro same
    obtain ⟨init, split⟩ := List.getLast?_eq_some_iff.mp last
    rcases List.eq_nil_or_concat' init with rfl | ⟨init, z, rfl⟩
    · have first := (chains.head b pair.first x (by simp [split])).1
      exact pair.apart (by rw [← key, same, first])
    · have chain := chains.chain b pair.first
      rw [split, List.append_assoc, List.isChain_append] at chain
      have taken : Pair blocks z x := (List.isChain_cons_cons.mp chain.2.1).1
      have only := wired.only_way taken insideX (by simp [leads, same])
      exact taken.apart (by rw [only])
  exact ⟨insideX, insideY, leads, apart, pred.trans pair.pred, goesOn⟩

theorem merged_jumpTo (b next x : Block) :
    (merged b next x).jumpTo = if x.key = b.key then next.jumpTo else x.jumpTo := by
  unfold merged
  split <;> rfl

theorem Chains.after_absorb (chains : Chains blocks current parts) (wired : Wired blocks)
    (wiredNow : Wired current) (pair : Pair current b next) :
    Chains blocks (absorb current b next)
      fun key => if key = b.key then parts b.key ++ parts next.key else parts key := by
  have nonempty := chains.ne_nil pair.first
  have nonempty' := chains.ne_nil pair.second
  have stillGone {key : Nat} (gone : key ∉ current.map Block.key) :
      key ∉ (absorb current b next).map Block.key := by
    rw [absorb_keys]
    exact fun inside => gone (List.mem_filter.mp inside).1
  refine { chains.toParts.after_absorb wiredNow pair with
    chain := ?_, head := ?_, last := ?_, gone := ?_ }
  all_goals
    intro x member
    obtain ⟨y, inside, _, rfl⟩ := mem_absorb.mp member
    simp only [merged_key, merged_pred, merged_succ, merged_jumpTo, List.length_map]
    by_cases same : y.key = b.key
  · rw [if_pos same, List.isChain_append]
    exact ⟨chains.chain b pair.first, chains.chain next pair.second,
      fun _ last _ first => chains.joint wired pair last first⟩
  · rw [if_neg same]
    exact chains.chain y inside
  · obtain rfl := wiredNow.eq_of_key inside pair.first same
    rw [if_pos rfl, List.head?_append_of_ne_nil _ nonempty]
    exact chains.head y inside
  · rw [if_neg same]
    exact chains.head y inside
  · simp only [if_pos same]
    rw [List.getLast?_append_of_ne_nil _ nonempty']
    exact chains.last next pair.second
  · simp only [if_neg same]
    exact chains.last y inside
  · rw [if_pos same, List.tail_append_of_ne_nil nonempty]
    intro p inside
    rcases List.mem_append.mp inside with inside | inside
    · exact stillGone (chains.gone b pair.first p inside)
    · -- What was appended is gone, its first block just now.
      obtain ⟨first, rest, split⟩ := List.exists_cons_of_ne_nil nonempty'
      rw [split] at inside
      rcases List.mem_cons.mp inside with rfl | inside
      · rw [(chains.head next pair.second p (by simp [split])).1, absorb_keys]
        simp
      · exact stillGone (chains.gone next pair.second p (by simpa [split] using inside))
  · rw [if_neg same]
    exact fun p inside' => stillGone (chains.gone y inside p inside')

theorem Wired.mergeUpTo_chains (wired : Wired blocks) (n : Nat) :
    ∃ parts, Chains blocks (mergeUpTo n blocks) parts := by
  refine wired.mergeUpTo_induction (P := fun current => ∃ parts, Chains blocks current parts)
    ⟨_, wired.chains⟩ ?_ n
  rintro current b next wiredNow found ⟨parts, chains⟩
  exact ⟨_, chains.after_absorb wired wiredNow (pair_of_mergePair? found)⟩

end Chains

end Codegen.Flow
