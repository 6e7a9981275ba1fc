import Codegen.Proofs.Flow.Edges

/-! The graph of instructions, edge by edge. Between two instructions there is one edge if the one
stands right before the other in a block, and one for each link from the block that ends with the
one to the block that starts with the other. Each edge is noted at both its ends, and neither merges
nor the layout change what is noted. -/
namespace Codegen.Flow

/-- The links from the block that ends with `i` to the block that starts with `j`. -/
def linksBetween (blocks : List Block) (i j : Nat) : Nat :=
  match blocks.find? (·.last? == some i), blocks.find? (·.code.head? == some j) with
  | some b, some c => b.succ.count c.key
  | _, _ => 0

section Neighbours

variable {blocks : List Block} {i j : Nat}

theorem mem_zip_tail (code : List Nat) : (i, j) ∈ code.zip code.tail ↔ [i, j] <:+: code := by
  induction code with
  | nil => simp
  | cons first code ih =>
    cases code with
    | nil => simp [List.infix_cons_iff]
    | cons second code =>
      rw [List.tail_cons] at ih ⊢
      rw [List.zip_cons_cons, List.mem_cons, ih, List.infix_cons_iff (a := first)]
      simp

theorem nodup_zip {first second : List Nat} (distinct : first.Nodup) :
    (first.zip second).Nodup := by
  induction first generalizing second with
  | nil => simp
  | cons i first ih =>
    obtain ⟨fresh, distinct⟩ := List.nodup_cons.mp distinct
    cases second with
    | nil => simp
    | cons j second =>
      rw [List.zip_cons_cons, List.nodup_cons]
      exact ⟨fun again => fresh (List.of_mem_zip again).1, ih distinct⟩

/-- There is one edge between two neighbours of a block, since no instruction stands in two places
of the blocks. -/
theorem count_innerEdges (distinct : (blocks.flatMap Block.code).Nodup) (i j : Nat) :
    (blocks.flatMap innerEdges).count (some (i, j)) =
      if ∃ b ∈ blocks, [i, j] <:+: b.code then 1 else 0 := by
  obtain ⟨alone, apart⟩ := List.nodup_flatMap.mp distinct
  have pairs : (blocks.flatMap fun b => b.code.zip b.code.tail).Nodup := by
    refine List.nodup_flatMap.mpr ⟨fun b member => nodup_zip (alone b member), apart.imp ?_⟩
    intro b c disjoint pair first second
    exact disjoint (List.of_mem_zip first).1 (List.of_mem_zip second).1
  have listed : (i, j) ∈ (blocks.flatMap fun b => b.code.zip b.code.tail) ↔
      ∃ b ∈ blocks, [i, j] <:+: b.code := by
    simp only [List.mem_flatMap, mem_zip_tail]
  have same : blocks.flatMap innerEdges =
      (blocks.flatMap fun b => b.code.zip b.code.tail).map some := List.map_flatMap.symm
  rw [same, List.count_map_of_injective _ _ (Option.some_injective _), pairs.count]
  exact if_congr listed rfl rfl

end Neighbours

section Links

variable {endLabel : Bytes} {r : Routine} {b : Block}

/-- A sum in which a single element can count. -/
theorem sum_map_find? {α : Type} {l : List α} {f : α → Nat} {p : α → Bool}
    (single : l.Pairwise fun x y => p x = true → p y = false)
    (none : ∀ x ∈ l, p x = false → f x = 0) : (l.map f).sum = ((l.find? p).map f).getD 0 := by
  induction l with
  | nil => rfl
  | cons x l ih =>
    obtain ⟨first, single⟩ := List.pairwise_cons.mp single
    obtain ⟨zero, none⟩ := List.forall_mem_cons.mp none
    rw [List.map_cons, List.sum_cons]
    cases counts : p x with
    | true =>
      have others : (l.map f).sum = 0 := by
        rw [List.sum_eq_zero_iff]
        intro n listed
        obtain ⟨y, member, rfl⟩ := List.mem_map.mp listed
        exact none y member (first y member counts)
      rw [List.find?_cons_of_pos counts, others]
      rfl
    | false =>
      rw [List.find?_cons_of_neg (by simp [counts]), zero counts, Nat.zero_add, ih single none]

theorem find?_head_iff {blocks : List Block} {c : Block} {j : Nat}
    (distinct : (blocks.flatMap Block.code).Nodup) (member : c ∈ blocks) :
    blocks.find? (·.code.head? == some j) = some c ↔ c.code.head? = some j := by
  constructor
  · intro found
    exact eq_of_beq (List.find?_some found :)
  · intro starts
    cases found : blocks.find? (·.code.head? == some j) with
    | none => simpa [starts] using List.find?_eq_none.mp found c member
    | some d =>
      have starts' : d.code.head? = some j := eq_of_beq (List.find?_some found :)
      rw [eq_of_shared distinct (List.mem_of_find?_eq_some found) member
        (List.mem_of_head? starts') (List.mem_of_head? starts)]

/-- A link stands for an edge to the first instruction of the block that it leads to. -/
theorem FlowGraph.outerEdge_iff (graph : FlowGraph endLabel r.entries r.blocks)
    (distinct : (r.blocks.flatMap Block.code).Nodup) {key : Nat}
    (link : key ∈ r.blocks.map Block.key) (last i j : Nat) :
    (do let first ← (← r.block? key).code.head?; return (last, first)) = some (i, j) ↔
      last = i ∧ ∃ c, r.blocks.find? (·.code.head? == some j) = some c ∧ c.key = key := by
  obtain ⟨d, member, rfl⟩ := List.mem_map.mp link
  obtain ⟨first, starts, _⟩ := graph.first d member
  have there : r.block? d.key = some d := graph.wired.find?_key member
  rw [Option.mem_def] at starts
  simp only [there, starts, Option.bind_eq_bind, Option.bind_some, Option.pure_def,
    Option.some.injEq, Prod.mk.injEq]
  refine and_congr_right fun _ => ?_
  constructor
  · rintro rfl
    exact ⟨d, (find?_head_iff distinct member).mpr starts, rfl⟩
  · rintro ⟨c, found, same⟩
    obtain rfl := graph.wired.eq_of_key (List.mem_of_find?_eq_some found) member same
    have starts' := (find?_head_iff distinct member).mp found
    exact Option.some.inj (starts.symm.trans starts')

/-- The edges out of a block leave its last instruction, one for each link. -/
theorem FlowGraph.count_outerEdges (graph : FlowGraph endLabel r.entries r.blocks)
    (distinct : (r.blocks.flatMap Block.code).Nodup) (member : b ∈ r.blocks) (i j : Nat) :
    (outerEdges r b).count (some (i, j)) =
      if b.last? == some i then
        ((r.blocks.find? (·.code.head? == some j)).map fun c => b.succ.count c.key).getD 0
      else 0 := by
  obtain ⟨last, ends, _⟩ := graph.last b member
  have ends : b.last? = some last := ends
  have edge := fun key leads =>
    graph.outerEdge_iff distinct (graph.succ b member key leads) last i j
  simp only [outerEdges, ends, List.count_eq_countP, List.countP_map]
  split
  next here =>
    obtain rfl : last = i := by simpa using here
    cases found : r.blocks.find? (·.code.head? == some j) with
    | none =>
      rw [Option.map_none, Option.getD_none, List.countP_eq_zero]
      intro key leads same
      simpa [found] using (edge key leads).mp (eq_of_beq same)
    | some c =>
      rw [Option.map_some, Option.getD_some]
      refine List.countP_congr fun key leads => ?_
      rw [Function.comp_apply, beq_iff_eq, edge key leads, beq_iff_eq, found]
      simp [eq_comm]
  next other =>
    rw [List.countP_eq_zero]
    intro key leads same
    simp [((edge key leads).mp (eq_of_beq same)).1] at other

/-- The edges between two instructions. -/
theorem FlowGraph.count_edges (graph : FlowGraph endLabel r.entries r.blocks)
    (distinct : (r.blocks.flatMap Block.code).Nodup) (i j : Nat) :
    (edges r).count (some (i, j)) =
      (if ∃ b ∈ r.blocks, [i, j] <:+: b.code then 1 else 0) + linksBetween r.blocks i j := by
  have single : r.blocks.Pairwise fun b c =>
      (b.last? == some i) = true → (c.last? == some i) = false := by
    refine (List.nodup_flatMap.mp distinct).2.imp fun {b c} disjoint ends => ?_
    rw [beq_eq_false_iff_ne]
    intro ends'
    exact disjoint (List.mem_of_getLast? (eq_of_beq ends)) (List.mem_of_getLast? ends')
  have outer : (r.blocks.flatMap (outerEdges r)).count (some (i, j)) =
      linksBetween r.blocks i j := by
    rw [List.count_flatMap, sum_map_find? single]
    · unfold linksBetween
      cases ending : r.blocks.find? (·.last? == some i) with
      | none => rfl
      | some b =>
        have ends := List.find?_some ending
        rw [Option.map_some, Option.getD_some, Function.comp_apply,
          graph.count_outerEdges distinct (List.mem_of_find?_eq_some ending), if_pos ends]
        cases r.blocks.find? (·.code.head? == some j) <;> rfl
    · intro b member other
      rw [Function.comp_apply, graph.count_outerEdges distinct member, if_neg (by simp [other])]
  rw [edges, List.count_append, count_innerEdges distinct, outer]

end Links

theorem links_placeBlocks (s : State) :
    links (run placeBlocks s).2.routine.entries = links s.routine.entries := by
  have kept := links_addAll { entries := s.routine.entries } (placementOrder s.routine.blocks)
  simp only [placeBlocks, run_bind, run_get]
  rcases added : Placed.addAll { entries := s.routine.entries } (placementOrder s.routine.blocks)
    with ⟨failure | ⟨⟩, p⟩ <;> (rw [added] at kept; exact kept)

/-- The instructions of an emitted function are linked as its blocks are, with each edge noted at
both its ends as often as it is there, and merges and the layout keep what is noted. -/
theorem linkInstrs_exact {options : Select.Options} {f : Func} {r : Routine} {labels : Nat}
    {t : State} (generated : Select.generateFunc options f = .ok r)
    (made : run formBlocks ⟨labels, r⟩ = (.ok (), t)) :
    ∃ u, run linkInstrs t = (.ok (), u) ∧
      (∀ i j, (linksAt Entry.succ u.routine.entries i).count j =
          (linksAt Entry.pred u.routine.entries j).count i ∧
        (linksAt Entry.succ u.routine.entries i).count j =
          (if ∃ b ∈ t.routine.blocks, [i, j] <:+: b.code then 1 else 0) +
            linksBetween t.routine.blocks i j) ∧
      ∀ v, links (run mergeBlocks v).2.routine.entries = links v.routine.entries ∧
        links (run placeBlocks v).2.routine.entries = links v.routine.entries := by
  have distinct := (formed_of_run made).nodup_positions (Select.generateFunc_code generated)
  obtain ⟨u, linking, counts⟩ := linkInstrs_of_formed made (unlinked_generateFunc generated)
  refine ⟨u, linking, fun i j => ?_, fun v => ⟨by rw [run_mergeBlocks], links_placeBlocks v⟩⟩
  obtain ⟨succ, pred⟩ := counts i j
  rw [succ, pred, (flowGraph_of_run made).count_edges distinct]
  exact ⟨rfl, rfl⟩

def whirling : Func :=
  { name := ascii "f"
    body := [.label (ascii "A"), .branch (.const 1) (ascii "A") (ascii "A"), .label (ascii "B")] }

def whirlingRoutine : Routine :=
  Select.routine whirling { code :=
    #[.label (ascii "A"), .branch (.imm 1) (ascii "A") (ascii "A") [], .label (ascii "B")] }

def whirlingBlocks : List Block :=
  [{ key := 0, id := 0, label := ascii "A", code := [0, 1], jumpTo := [ascii "A", ascii "A"],
      pred := [0, 0], succ := [0, 0] },
    { key := 1, id := 1, label := ascii "B", code := [2], jumpTo := [ascii "f_end"] }]

theorem linkInstrs_exact_whirling : Select.generateFunc {} whirling = .ok whirlingRoutine ∧
    ∃ t u, run formBlocks ⟨0, whirlingRoutine⟩ = (.ok (), t) ∧
      t.routine.blocks = whirlingBlocks ∧ run linkInstrs t = (.ok (), u) ∧
      (linksAt Entry.succ u.routine.entries 0).count 1 = 1 ∧
      (linksAt Entry.succ u.routine.entries 1).count 0 = 2 ∧
      (linksAt Entry.pred u.routine.entries 0).count 1 = 2 ∧
      links (run placeBlocks u).2.routine.entries = links u.routine.entries := by
  have generated : Select.generateFunc {} whirling = .ok whirlingRoutine := by cbv
  have made : run formBlocks ⟨0, whirlingRoutine⟩ =
    (.ok (), (run formBlocks ⟨0, whirlingRoutine⟩).2) := Prod.ext (by cbv) rfl
  have blocks : (run formBlocks ⟨0, whirlingRoutine⟩).2.routine.blocks = whirlingBlocks := by cbv
  obtain ⟨u, linking, counts, kept⟩ := linkInstrs_exact generated made
  rw [blocks] at counts
  refine ⟨generated, _, u, made, blocks, linking, ?_, ?_, ?_, (kept u).2⟩
  · rw [(counts 0 1).2]
    decide
  · rw [(counts 1 0).2]
    decide
  · rw [← (counts 1 0).1, (counts 1 0).2]
    decide

end Codegen.Flow
