import Codegen.Proofs.Flow.Forming
import Codegen.Proofs.Flow.Layout
import Codegen.Proofs.Select.Gen

/-! Where code that runs off its end comes to stand. The block of the last instruction has no
jump at its end, so that it has to be placed last. It waits behind all the others, and is
placed before them exactly if a block runs into it while others wait. -/
namespace Codegen.Flow

variable {b c next exit : Block} {rest waiting blocks : List Block} {s t u : State} {last : Nat}
  {x : Instr}

/-- A layout that is to place `b` while `rest` wait comes to place `c` while `waiting` wait. -/
inductive Reaches : Block → List Block → Block → List Block → Prop
  | refl (b : Block) (rest : List Block) : Reaches b rest b rest
  | runsInto {b next c : Block} {rest waiting : List Block} :
      follower? b rest = some next → Reaches next (without rest next) c waiting →
      Reaches b rest c waiting
  | waits {b next c : Block} {rest waiting : List Block} :
      follower? b (next :: rest) = none → Reaches next rest c waiting →
      Reaches b (next :: rest) c waiting

/-- Some block runs into the exit while other blocks wait. -/
def Overtakes (b : Block) (rest : List Block) (exit : Block) : Prop :=
  ∃ c waiting, Reaches b rest c waiting ∧ follower? c waiting = some exit ∧ waiting ≠ [exit]

theorem overtakes_runsInto (found : follower? b rest = some next) (other : next ≠ exit) :
    Overtakes b rest exit ↔ Overtakes next (without rest next) exit := by
  constructor
  · rintro ⟨c, waiting, reaches, into, more⟩
    cases reaches with
    | refl => exact absurd (Option.some.inj (found.symm.trans into)) other
    | runsInto found' reaches =>
      cases found.symm.trans found'
      exact ⟨c, waiting, reaches, into, more⟩
    | waits none => simp [none] at found
  · rintro ⟨c, waiting, reaches, into, more⟩
    exact ⟨c, waiting, .runsInto found reaches, into, more⟩

theorem overtakes_waits (none : follower? b (next :: rest) = none) :
    Overtakes b (next :: rest) exit ↔ Overtakes next rest exit := by
  constructor
  · rintro ⟨c, waiting, reaches, into, more⟩
    cases reaches with
    | refl => simp [none] at into
    | runsInto found => simp [none] at found
    | waits _ reaches => exact ⟨c, waiting, reaches, into, more⟩
  · rintro ⟨c, waiting, reaches, into, more⟩
    exact ⟨c, waiting, .waits none reaches, into, more⟩

theorem follower?_of_succ (none : b.succ = []) (rest : List Block) : follower? b rest = .none := by
  simp [follower?, none]

theorem not_overtakes_exit (leaves : exit.succ = []) : ¬ Overtakes exit [] exit := by
  rintro ⟨c, waiting, reaches, into, _⟩
  cases reaches with
  | refl => simp [follower?_of_succ leaves] at into
  | runsInto found => simp [follower?_of_succ leaves] at found

theorem getLast?_placements_cons (placement : Placement) (b : Block) (rest : List Block) :
    (placement :: placements b rest).getLast? = (placements b rest).getLast? := by
  obtain ⟨further, placed, head⟩ := placements_head b rest
  rw [head, List.getLast?_cons_cons]

theorem getLast?_without (keys : (rest.map Block.key).Nodup) (ends : rest.getLast? = some exit)
    (member : next ∈ rest) (other : next ≠ exit) :
    (next :: without rest next).getLast? = some exit := by
  obtain ⟨init, rfl⟩ := List.getLast?_eq_some_iff.mp ends
  have apart : exit.key ≠ next.key := fun same =>
    other (List.inj_on_of_nodup_map keys (by simp) member same).symm
  have kept : without (init ++ [exit]) next = without init next ++ [exit] := by
    simp [without, apart]
  rw [kept, ← List.cons_append, List.getLast?_concat]

/-- Where a block runs into the exit, the exit is placed last if nothing else waits. -/
theorem placements_into_exit (keys : (rest.map Block.key).Nodup)
    (found : follower? b rest = some exit) (leaves : exit.succ = []) :
    (placements exit (without rest exit)).getLast?.map Placement.block = some exit ↔
      ¬ Overtakes b rest exit := by
  have shift := perm_without keys (follower?_mem found)
  have keys' : ((exit :: without rest exit).map Block.key).Nodup :=
    (shift.map Block.key).nodup_iff.mpr keys
  cases others : without rest exit with
  | nil =>
    rw [others] at shift
    obtain rfl := List.perm_singleton.mp shift.symm
    simp only [placements_nil, List.getLast?_singleton, Option.map_some, true_iff]
    rintro ⟨c, waiting, reaches, into, more⟩
    cases reaches with
    | refl => exact more rfl
    | runsInto found' reaches =>
      cases found.symm.trans found'
      exact not_overtakes_exit leaves ⟨c, waiting, others ▸ reaches, into, more⟩
    | waits none => simp [none] at found
  | cons first others' =>
    rw [others] at keys'
    rw [placements_none (follower?_of_succ leaves _), getLast?_placements_cons]
    have overtakes : Overtakes b rest exit := by
      refine ⟨b, rest, .refl b rest, found, ?_⟩
      rintro rfl
      simp [without] at others
    refine iff_of_false (fun ends => ?_) (not_not_intro overtakes)
    obtain ⟨placement, final, same⟩ := Option.map_eq_some_iff.mp ends
    have inside := List.mem_map_of_mem (f := Placement.block) (List.mem_of_getLast? final)
    obtain ⟨fresh, keys'⟩ := List.nodup_cons.mp keys'
    rw [same, (placements_perm keys').mem_iff] at inside
    exact fresh (List.mem_map_of_mem inside)

/-- The exit is placed last unless it overtakes others. -/
theorem placements_exit (keys : ((b :: rest).map Block.key).Nodup)
    (ends : (b :: rest).getLast? = some exit) (leaves : exit.succ = []) :
    (placements b rest).getLast?.map Placement.block = some exit ↔ ¬ Overtakes b rest exit := by
  induction b, rest using placements.induct with
  | case1 b rest next found _ ih =>
    have keys' := (List.nodup_cons.mp keys).2
    have member := follower?_mem found
    have ends' : rest.getLast? = some exit := by
      rwa [List.getLast?_cons_of_ne_nil (List.ne_nil_of_mem member)] at ends
    rw [placements_some found, getLast?_placements_cons]
    by_cases same : next = exit
    · subst same
      exact placements_into_exit keys' found leaves
    · rw [overtakes_runsInto found same]
      have shift := perm_without keys' member
      exact ih ((shift.map Block.key).nodup_iff.mpr keys') (getLast?_without keys' ends' member same)
  | case2 b found =>
    obtain rfl : b = exit := by simpa using ends
    simp [placements_nil, not_overtakes_exit leaves]
  | case3 b next rest found ih =>
    rw [placements_none found, getLast?_placements_cons, overtakes_waits found]
    exact ih (List.nodup_cons.mp keys).2 (by simpa using ends)

/-- Only a block with successors runs into another. -/
theorem next_of_mem_placements {placement : Placement} (member : placement ∈ placements b rest)
    (leaves : placement.block.succ = []) : placement.next = none := by
  cases into : placement.next with
  | none => rfl
  | some next =>
    have leads := (mem_placements_next member into).2
    simp [leaves] at leads

/-- The block that is open at the end is the last one and goes nowhere. -/
theorem formed_exit (formed : run formBlocks s = (.ok (), t))
    (ends : s.routine.code.getLast? = some last) (instr : s.routine.instr? last = some x)
    (inner : x.endsBlock = false) :
    ∃ init exit before, t.routine.blocks = init ++ [exit] ∧ exit.code = before ++ [last] ∧
      exit.succ = [] := by
  obtain ⟨c, blocks, placed, joined, rfl⟩ := formBlocks_ok formed
  obtain ⟨init, code⟩ := List.getLast?_eq_some_iff.mp ends
  rw [code] at placed
  obtain ⟨d, e, placedInit, found, rfl⟩ := Cut.placeAll_concat placed
  have same : e.instr = x := by
    obtain ⟨e', found', rfl⟩ := Option.map_eq_some_iff.mp instr
    have kept := Cut.keeps_placeAll placedInit last e' found'
    cases found.symm.trans kept
    rfl
  obtain ⟨b, before, current, code⟩ := d.place_open last (same ▸ inner)
  have cut : (d.place last e.instr).blocks s.routine.endLabel =
      (d.place last e.instr).done.reverse ++ [{ b with jumpTo := [s.routine.endLabel] }] := by
    simp [Cut.blocks, current, Cut.finish]
  rw [cut] at joined
  obtain ⟨init', exit, same, link⟩ := linked_concat joined
  refine ⟨init', exit, before, same, by rw [link.same, code], ?_⟩
  have none := link.succ
  simp only [successors, bne_self_eq_false, Bool.false_eq_true, not_false_eq_true,
    List.filter_cons_of_neg, List.filter_nil] at none
  exact (Except.ok.inj none).symm

/-- The exit stays the last block, as it is. -/
theorem mergeAll_exit {init : List Block} (wired : Wired (init ++ [exit])) (leaves : exit.succ = []) :
    ∃ init' exit', (mergeAll (init ++ [exit])).2 = init' ++ [exit'] ∧ exit'.key = exit.key ∧
      exit'.code = exit.code ∧ exit'.succ = [] := by
  refine (wired.mergeAll_induction (P := fun blocks => ∃ init' exit',
    blocks = init' ++ [exit'] ∧ exit'.key = exit.key ∧ exit'.code = exit.code ∧ exit'.succ = [])
    ⟨init, exit, rfl, rfl, rfl, leaves⟩ ?_).2
  rintro _ b next wired found ⟨init', exit', rfl, key, code, leaves⟩
  have pair := pair_of_mergePair? found
  have inside : exit' ∈ init' ++ [exit'] := by simp
  have first : exit'.key ≠ b.key := by
    intro same
    obtain rfl := wired.eq_of_key inside pair.first same
    simp [pair.succ] at leaves
  have second : exit'.key ≠ next.key := by
    intro same
    obtain rfl := wired.eq_of_key inside pair.second same
    exact pair.goesOn leaves
  have same : absorb (init' ++ [exit']) b next = absorb init' b next ++ [merged b next exit'] := by
    simp [absorb_eq, second]
  exact ⟨_, _, same, by simp [key], by simp [merged_code, first, code],
    by simp [merged_succ, first, leaves]⟩

/-- The exit is placed at one place, and nothing comes after it unless it overtakes. -/
theorem placements_exit_split (keys : ((b :: rest).map Block.key).Nodup)
    (ends : (b :: rest).getLast? = some exit) (leaves : exit.succ = []) :
    ∃ front back, placements b rest = front ++ ⟨exit, none⟩ :: back ∧
      (back = [] ↔ ¬ Overtakes b rest exit) := by
  have perm := placements_perm keys
  obtain ⟨p, member, same⟩ := List.mem_map.mp (perm.mem_iff.mpr (List.mem_of_getLast? ends))
  obtain ⟨front, back, split⟩ := List.append_of_mem member
  have alone : p = ⟨exit, none⟩ := by
    rw [← same, ← next_of_mem_placements member (same ▸ leaves)]
  subst alone
  refine ⟨front, back, split, ?_⟩
  rw [← placements_exit keys ends leaves, split]
  constructor
  · rintro rfl
    simp
  · intro final
    by_contra more
    have nodup := perm.nodup_iff.mpr keys.of_map
    rw [split, List.map_append, List.map_cons, List.nodup_middle, List.nodup_cons] at nodup
    rw [List.getLast?_append_of_ne_nil _ (by simp), List.getLast?_cons_of_ne_nil more] at final
    obtain ⟨q, last, same⟩ := Option.map_eq_some_iff.mp final
    refine nodup.1 (List.mem_append_right _ ?_)
    exact List.mem_map.mpr ⟨q, List.mem_of_getLast? last, same⟩

/-- What is placed of blocks is part of their code. -/
theorem flatMap_trimmed_sublist (entries : Array Entry) (placed : List Placement) :
    (placed.flatMap (trimmed entries)).Sublist (placed.flatMap fun p => p.block.code) := by
  have single (p : Placement) : (trimmed entries p).Sublist p.block.code := by
    obtain ⟨b, _ | next⟩ := p
    · exact .refl _
    · simp only [trimmed]
      split
      · exact List.dropLast_sublist _
      · exact .refl _
  induction placed with
  | nil => exact .refl _
  | cons p placed ih => exact (single p).append ih

/-- No instruction is laid out twice, if it does not come twice in the blocks. -/
theorem nodup_flatMap_trimmed (keys : (blocks.map Block.key).Nodup)
    (distinct : (blocks.flatMap Block.code).Nodup) (entries : Array Entry) :
    ((placementOrder blocks).flatMap (trimmed entries)).Nodup := by
  have laid := (placementOrder_perm keys).flatMap_right Block.code
  rw [List.flatMap_map] at laid
  exact (laid.nodup_iff.mpr distinct).sublist (flatMap_trimmed_sublist ..)

theorem Formed.nodup_layout (formed : Formed s t)
    (code : s.routine.code = List.range s.routine.entries.size) :
    ((placementOrder (mergeAll t.routine.blocks).2).flatMap
      (trimmed t.routine.entries)).Nodup := by
  obtain ⟨parts, whole⟩ := formed.wired.mergeAll_parts
  have distinct := whole.code_perm.nodup_iff.mpr (formed.nodup_positions code)
  exact nodup_flatMap_trimmed formed.wired.after_mergeAll.keys distinct _

/-- Every block leaves at least its label in the layout. -/
theorem Formed.placed_eq_nil (formed : Formed s t) {placed : List Placement}
    (inside : ∀ p ∈ placed, p.block ∈ (mergeAll t.routine.blocks).2) :
    placed.flatMap (trimmed t.routine.entries) = [] ↔ placed = [] := by
  cases placed with
  | nil => simp
  | cons p placed =>
    obtain ⟨i, rest, line, starts, found, label⟩ :=
      formed.merged_starts (inside p (List.mem_cons_self ..))
    obtain ⟨code, head⟩ := trimmed_label starts found label p.next
    have head : trimmed t.routine.entries p = i :: code := head
    simp [head]

/-- Code that runs off its end does so after the layout too, unless another block runs into
the block of its last instruction while others wait. -/
theorem exit_last_iff {options : Select.Options} {f : Func} {r : Routine} {labels : Nat}
    (generated : Select.generateFunc options f = .ok r) (ends : r.code.getLast? = some last)
    (instr : r.instr? last = some x) (runsOff : x.transfers = false)
    (arranged : run arrange ⟨labels, r⟩ = (.ok (), u)) :
    ∃ t first rest exit before after, run formBlocks ⟨labels, r⟩ = (.ok (), t) ∧
      (mergeAll t.routine.blocks).2 = first :: rest ∧
      (first :: rest).getLast? = some exit ∧ exit.last? = some last ∧
      u.routine.code = before ++ last :: after ∧ last ∉ before ++ after ∧
      (after = [] ↔ ¬ Overtakes first rest exit) := by
  obtain ⟨t, made, lines, code⟩ := arrange_code arranged
  have inner : x.endsBlock = false := by
    cases x <;> simp_all [Instr.transfers, Instr.control, Instr.endsBlock]
  obtain ⟨init, exit, before, blocks, exitCode, leaves⟩ := formed_exit made ends instr inner
  have formed := formed_of_run made
  have nodup := formed.nodup_layout (Select.generateFunc_code generated)
  have wired := formed.wired.after_mergeAll
  obtain ⟨init', exit', merged, _, sameCode, leaves'⟩ :=
    mergeAll_exit (blocks ▸ formed.wired) leaves
  rw [← blocks] at merged
  obtain ⟨first, rest, whole⟩ := List.exists_cons_of_ne_nil (l := init' ++ [exit']) (by simp)
  have final : (first :: rest).getLast? = some exit' := by simp [← whole]
  have order : placementOrder (first :: rest) = placements first rest := by
    rw [placementOrder, Heap.sort_eq_self (by rw [← whole, ← merged]; exact formed.rising)]
  rw [merged, whole] at code nodup wired
  obtain ⟨front, back, split, back_iff⟩ := placements_exit_split wired.keys final leaves'
  have laid : u.routine.code = (front.flatMap (trimmed t.routine.entries) ++ before) ++
      last :: back.flatMap (trimmed t.routine.entries) := by
    simp [code, order, split, trimmed, sameCode, exitCode]
  have back_nil : back.flatMap (trimmed t.routine.entries) = [] ↔ back = [] := by
    refine formed.placed_eq_nil fun p inside => ?_
    rw [merged, whole, ← (placements_perm wired.keys).mem_iff, split]
    exact List.mem_map_of_mem (by simp [inside])
  refine ⟨t, first, rest, exit', _, _, made, by rw [merged, whole], final, ?_, laid, ?_, ?_⟩
  · simp [Block.last?, sameCode, exitCode]
  · rw [← code, laid, List.nodup_middle, List.nodup_cons] at nodup
    exact nodup.1
  · rw [back_nil, back_iff]

def skipping (ifTrue ifFalse : Bytes) : Func :=
  { name := ascii "f"
    body := [.branch (.const 1) ifTrue ifFalse, .label (ascii "B"), .ret .missing,
      .label (ascii "C"), .assign (.var (some ⟨.global 0, ascii "x"⟩)) (.const 1)] }

def skippingRoutine (ifTrue ifFalse : Bytes) : Routine :=
  Select.routine (skipping ifTrue ifFalse) { objects := 1, code :=
    #[.branch (.imm 1) ifTrue ifFalse [], .label (ascii "B"), .ret .absent, .label (ascii "C"),
      .move (.cell 0 ⟨.global 0, ascii "x"⟩) (.imm 1)] }

def skippingEntry : Block :=
  { key := 0, id := 0, label := madeUpLabel 0, code := [5, 0], jumpTo := [ascii "B", ascii "C"],
    pred := [], succ := [1, 2] }

def skippingReturn : Block :=
  { key := 1, id := 1, label := ascii "B", code := [1, 2, 6], jumpTo := [ascii "C"],
    pred := [0], succ := [2] }

def skippingExit : Block :=
  { key := 2, id := 2, label := ascii "C", code := [3, 4], jumpTo := [ascii "f_end"],
    pred := [0, 1], succ := [] }

theorem skipping_not_overtakes :
    ¬ Overtakes skippingEntry [skippingReturn, skippingExit] skippingExit := by
  have first : follower? skippingEntry [skippingReturn, skippingExit] = some skippingReturn := by
    decide
  have second : follower? skippingReturn [skippingExit] = some skippingExit := by decide
  rw [overtakes_runsInto first (by decide)]
  exact (placements_into_exit (by decide) second rfl).mp (by cbv)

theorem exit_last_skipping :
    Select.generateFunc {} (skipping (ascii "B") (ascii "C")) =
      .ok (skippingRoutine (ascii "B") (ascii "C")) ∧
    ∃ u, run arrange ⟨0, skippingRoutine (ascii "B") (ascii "C")⟩ = (.ok (), u) ∧
      u.routine.code.getLast? = some 4 := by
  have generated : Select.generateFunc {} (skipping (ascii "B") (ascii "C")) =
    .ok (skippingRoutine (ascii "B") (ascii "C")) := by cbv
  have ends : (skippingRoutine (ascii "B") (ascii "C")).code.getLast? = some 4 := by decide
  have instr : (skippingRoutine (ascii "B") (ascii "C")).instr? 4 =
    some (.move (.cell 0 ⟨.global 0, ascii "x"⟩) (.imm 1)) := by cbv
  have formed : run formBlocks ⟨0, skippingRoutine (ascii "B") (ascii "C")⟩ =
    (.ok (), (run formBlocks ⟨0, skippingRoutine (ascii "B") (ascii "C")⟩).2) := by cbv
  have arranged : run arrange ⟨0, skippingRoutine (ascii "B") (ascii "C")⟩ =
    (.ok (), (run arrange ⟨0, skippingRoutine (ascii "B") (ascii "C")⟩).2) := by cbv
  obtain ⟨t, first, rest, exit, before, after, formed', merged, final, _, code, _, only⟩ :=
    exit_last_iff generated ends instr rfl arranged
  cases formed.symm.trans formed'
  have blocks : (mergeAll (run formBlocks ⟨0, skippingRoutine (ascii "B")
    (ascii "C")⟩).2.routine.blocks).2 = [skippingEntry, skippingReturn, skippingExit] := by cbv
  cases blocks.symm.trans merged
  cases final
  refine ⟨generated, _, arranged, ?_⟩
  rw [code, only.mpr skipping_not_overtakes, List.getLast?_concat]

/-- If the branch names the block without a return first, that one is placed first, and its
last instruction is followed by the label of the other. -/
theorem exit_overtakes_skipping : ∃ u,
    Select.generateFunc {} (skipping (ascii "C") (ascii "B")) =
      .ok (skippingRoutine (ascii "C") (ascii "B")) ∧
    run arrange ⟨0, skippingRoutine (ascii "C") (ascii "B")⟩ = (.ok (), u) ∧
    (skippingRoutine (ascii "C") (ascii "B")).code.getLast? = some 4 ∧
    u.routine.code = [5, 0, 3, 4, 1, 2, 6] := by
  refine ⟨_, ?_, Prod.ext ?_ rfl, ?_, ?_⟩ <;> cbv

end Codegen.Flow
